import HistoryCache.Proofs.Lifecycle
import HistoryCache.Proofs.Representation
import HistoryCache.Proofs.Upkeep

/-!
# What the budget tells

The laws of the books for the steps of requests, writes and removals, and with them what the budget
and the pool of texts tell of a cache while any number of requests is in flight.  A cache allocates an
entry for each item, its chunks and its log values, and an entry for each text (`Cache.sizes`), and its
records refer to texts (`Cache.texts`).

* `Traffic.Possible.balanced`: nothing is charged for between two steps but the cached items.
* `Traffic.accounts_of_possible`: the use of the budget is the sum of the allocations, and the number of
  references to a text is the number of records that have it.
-/

namespace HistoryCache

namespace Cache.Balanced

variable {c c' : Cache} {E : Charges} {now : Int} {id : ItemId} {item item' : Item} {q : Request}

/-! ## Holding and leaving -/

theorem pin (h : c.Balanced E) (id : ItemId) : (c.pin id).Balanced E := h.modify id fun _ => rfl

theorem unpin (h : c.Balanced E) (now : Int) (id : ItemId) : (c.unpin now id).Balanced E := by
  rw [Cache.unpin]
  cases hid : c.items[id]? with
  | none => exact h
  | some item =>
    have hleft : (c.checkIn id { item with pins := item.pins - 1 }).Balanced E := h.replace hid rfl
    simp only []
    split
    · exact hleft
    · split
      · exact hleft
      · exact hleft.remove id
      · have hs : ({ item with pins := item.pins - 1 } : Item).history.Sorted := h.sorted id item hid
        have hsame : ({ item with pins := item.pins - 1 } : Item).charges = item.charges := rfl
        have hout := h.checkOut hid
        rw [← hsame] at hout
        generalize htrim : (c.checkOut id).trim now { item with pins := item.pins - 1 } = trimmed
        obtain ⟨item₁, c₁⟩ := trimmed
        have htrimmed := hout.trim hs htrim
        obtain ⟨hitems, htrims⟩ := trim_spec hs.tidy hs.inOrder htrim
        have hs₁ : item₁.history.Sorted := by
          rcases htrims with rfl | ⟨sec, g, rfl, -, -, htidy, -, -, hrecords⟩
          · exact hs
          · exact ⟨htidy, by rw [hrecords]; exact hs.inOrder.filter _⟩
        have hnone : c₁.items[id]? = none := by rw [hitems, getElem?_checkOut, if_pos rfl]
        have hactive : ({ item₁ with state := .active } : Item).charges = item₁.charges := rfl
        rw [← hactive] at htrimmed
        exact htrimmed.checkIn hnone hs₁

/-! ## Writes and removals -/

theorem offer {expireBefore : Int} {r : Record} {result : Except CacheFailure Unit}
    (h : c.Balanced (E + item.charges)) (hs : item.history.Sorted)
    (hoffer : c.offer now expireBefore id r item = (result, item', c')) :
    c'.Balanced (E + item'.charges) := by
  rw [Cache.offer] at hoffer
  split at hoffer
  · cases hoffer
    exact h
  split at hoffer
  · cases hoffer
    exact h
  split at hoffer
  · cases hoffer
    exact h
  split at hoffer
  · next heq =>
    cases hoffer
    exact h.write hs heq
  · next item₁ c₁ heq =>
    have hwritten := h.write hs heq
    split at hoffer
    · cases hoffer
      obtain ⟨state, hclean, -⟩ := item₁.markClean_eq
      rw [hclean]
      exact hwritten
    · cases hoffer
      exact hwritten

theorem ingestOne (h : c.Balanced E) (now expireBefore : Int) (w : ItemRecord) :
    (Cache.ingestOne now expireBefore c w).Balanced E := by
  have hpinned := h.pin w.item
  rw [Cache.ingestOne]
  generalize c.pin w.item = c₀ at hpinned
  cases hid : c₀.items[w.item]? with
  | none => exact hpinned
  | some item =>
    have hs := hpinned.sorted _ item hid
    simp only []
    refine unpin ?_ now w.item
    generalize hoffer : (c₀.checkOut w.item).offer now expireBefore w.item w.record item = offered
    obtain ⟨result, item', c'⟩ := offered
    have hoffered := (hpinned.checkOut hid).offer hs hoffer
    obtain ⟨hev, hbecomes⟩ := offer_spec hs hoffer
    have hnone : c'.items[w.item]? = none := by rw [hev.source_eq, getElem?_checkOut, if_pos rfl]
    rcases hbecomes with ⟨rfl, htaken⟩ | ⟨⟨e, rfl⟩, hlost⟩
    · exact hoffered.checkIn hnone (htaken.sorted hs)
    · have hback : c'.Balanced (E + item'.markRemove.charges) := hoffered
      exact (hback.checkIn hnone (hlost.sorted hs)).congr (.log _ _)

theorem ingest (h : c.Balanced E) (now : Int) (writes : List ItemRecord) :
    (c.ingest now writes).Balanced E := by
  rw [Cache.ingest]
  generalize c.expireBefore now = expireBefore
  induction writes generalizing c with
  | nil => exact h
  | cons w writes ih => exact ih (h.ingestOne now expireBefore w)

theorem requestRemoval (h : c.Balanced E) (id : ItemId) : (c.requestRemoval id).Balanced E := by
  rw [Cache.requestRemoval]
  cases hid : c.items[id]? with
  | none => exact h
  | some item =>
    simp only []
    split
    · exact h.replace hid rfl
    · exact h.remove id

/-! ## Requests -/

theorem ensure (h : c.Balanced E) {found : Bool} (hensure : c.ensure now q = (found, c')) :
    c'.Balanced E := by
  rw [Cache.ensure, Std.ExtTreeMap.contains_eq_isSome_getElem?] at hensure
  split at hensure
  · cases hensure
    exact h
  next hout =>
  have hnone : c.items[q.item]? = none := by simpa using hout
  split at hensure
  · cases hensure
    exact h
  · split at hensure
    · next heq =>
      cases hensure
      exact h.create hnone heq
    · next heq =>
      cases hensure
      exact (h.create hnone heq).congr (.log _ _)

theorem giveUp (h : c.Balanced E) (q : Request) (e : Failure) : (c.giveUp q e).Balanced E :=
  (h.congr (.log c _)).modify q.item fun _ => rfl

theorem account (h : c.Balanced E) (now : Int) (id : Option ItemId) (hits misses : Nat) :
    (c.account now id hits misses).Balanced E := by
  have hsame : ∀ c : Cache, Same c ({ c with hits := c.hits + hits, misses := c.misses + misses }.measure
      (·.served hits misses)) := fun c => ⟨rfl, rfl, rfl⟩
  cases id with
  | none => exact h.congr (hsame c)
  | some id =>
    exact Balanced.congr (h.modify id (f := fun item =>
      { item with hits := item.hits + hits, lastAccessed := now }) fun _ => rfl) (hsame _)

/-- An answer changes what an item says of itself, and the item may be left by its last holder. -/
theorem answer (h : c.Balanced E) (hid : c.items[q.item]? = some item)
    (hhistory : item'.history = item.history) (now : Int) (read : Nat) :
    (c.answer now q read item').2.Balanced E := by
  have hs : item'.history.Sorted := by
    rw [hhistory]
    exact h.sorted _ item hid
  obtain ⟨active, daily, hour, all, hitem, -⟩ := Request.collect_item q now hs
  rw [Cache.answer]
  have hback : (c.checkIn q.item (q.collect now item').2).Balanced E :=
    h.replace hid (by rw [hitem]; exact hhistory)
  exact (hback.account now _ _ _).unpin now q.item

theorem start (h : c.Balanced E) {next : Start} (hstart : c.start now q = (next, c')) :
    c'.Balanced E := by
  rw [Cache.start] at hstart
  have hwarned : (if c.mode = .lowMemory then c.warnLowMemory now else c).Balanced E := by
    split
    · exact h.congr (.warnLowMemory c now)
    · exact h
  simp only [] at hstart
  generalize (if c.mode = .lowMemory then c.warnLowMemory now else c) = c₀ at hstart hwarned
  generalize hensure : c₀.ensure now q = ensured at hstart
  obtain ⟨found, c₁⟩ := ensured
  have hensured := hwarned.ensure hensure
  cases found with
  | false =>
    cases hstart
    exact hensured
  | true =>
    have hpinned := hensured.pin q.item
    simp only [] at hstart
    generalize c₁.pin q.item = c₂ at hstart hpinned
    cases hid : c₂.items[q.item]? with
    | none =>
      rw [servable, hid] at hstart
      cases hstart
      exact hpinned.giveUp q _
    | some item =>
      rcases servable_spec hid with ⟨-, e, herror⟩ | ⟨-, -, hok⟩
      · rw [herror] at hstart
        cases hstart
        exact hpinned.giveUp q _
      · rw [hok] at hstart
        simp only [] at hstart
        split at hstart
        · cases hstart
          exact hpinned
        · have hanswered := hpinned.answer hid rfl now 0
          generalize c₂.answer now q 0 item = answered at hstart hanswered
          cases hstart
          exact hanswered

theorem extend (h : c.Balanced E) (hid : c.items[q.item]? = some item) {fill : Fill}
    {fetched : Fetched} (ho : InOrder fetched.records) {result : Except CacheFailure Item}
    (hextend : c.extend now q fill fetched = (result, c')) : c'.Balanced E := by
  have hs := h.sorted _ item hid
  rw [Cache.extend, hid] at hextend
  simp only [] at hextend
  split at hextend
  · cases hextend
    exact h
  generalize hprepend : (c.checkOut q.item).prepend now q.item fetched.records item = prepended
    at hextend
  obtain ⟨outcome, item₁, c₁⟩ := prepended
  have hout := (h.checkOut hid).prepend hs.tidy hprepend
  obtain ⟨g, taken, rfl, htidy, hev, hsuffix, hrecords, -⟩ := prepend_spec hs.tidy ho hprepend
  have hs₁ : g.Sorted := sorted_of_below hs ho htidy hsuffix hrecords
  have hnone : c₁.items[q.item]? = none := by rw [hev.source_eq, getElem?_checkOut, if_pos rfl]
  cases outcome with
  | error e =>
    cases hextend
    exact hout.checkIn hnone hs₁
  | ok =>
    cases hextend
    have hmark := mark_history fill.extent fetched { item with history := g }
    refine checkIn ?_ hnone (by rw [hmark]; exact hs₁)
    rw [Item.charges_of_history hmark]
    exact hout

theorem finishFill (h : c.Balanced E) (hid : c.items[q.item]? = some item) {fill : Fill}
    {result : Except StoreFailure Fetched}
    (ho : ∀ fetched, result = .ok fetched → InOrder fetched.records) {answer : Option (List Record)}
    (hfinish : c.finishFill now q fill result = (answer, c')) : c'.Balanced E := by
  cases result with
  | error e =>
    cases hfinish
    exact h.giveUp q _
  | ok fetched =>
    rw [Cache.finishFill] at hfinish
    simp only [] at hfinish
    generalize hextend : c.extend now q fill fetched = extended at hfinish
    obtain ⟨outcome, c₁⟩ := extended
    have hextended := h.extend hid (ho fetched rfl) hextend
    rcases extend_spec hid (h.sorted _ item hid) (ho fetched rfl) hextend with
      ⟨e, g, rfl, -⟩ | ⟨g, rfl, -, -, -, -, hup⟩
    · cases hfinish
      exact hextended.giveUp q _
    · have hanswered := hextended.answer hup.1 rfl now fetched.records.length
      simp only [] at hfinish
      generalize c₁.answer now q fetched.records.length _ = answered at hfinish hanswered
      cases hfinish
      exact hanswered

theorem finishBypass (h : c.Balanced E) (now : Int) (q : Request) (held : Bool)
    (result : Except StoreFailure (List Record)) : (c.finishBypass now q held result).Balanced E := by
  have hcounted : ∀ c₁ : Cache, c₁.Balanced E →
      (if held then c₁.unpin now q.item else c₁).Balanced E := by
    intro c₁ h
    cases held with
    | true => exact h.unpin now q.item
    | false => exact h
  cases result with
  | ok records => exact hcounted _ (h.account now none 0 records.length)
  | error e => exact hcounted c h

end Cache.Balanced

/-! ## Steps -/

namespace Traffic

variable {config : Config} {w w' : Traffic}

theorem Sound.balanced_step (hw : w.Sound) (h : w.cache.Balanced 0) (hstep : Step w w') :
    w'.cache.Balanced 0 := by
  cases hstep with
  | elsewhere s t flights hitems hstrings hbudget => exact h.congr ⟨hitems, hstrings, hbudget⟩
  | ingests s flights writes => exact h.ingest s.now writes
  | removes s flights id => exact h.requestRemoval id
  | begins s flights q next c hstart => exact h.start hstart
  | reads => exact h
  | fills s before after q fill rest result hends records c hfinish
  | loses s before after q fill rest result hends c hfinish =>
    obtain ⟨item, hid, -, -, ho⟩ :=
      hw.finished (List.mem_append_right _ List.mem_cons_self) hends hfinish
    exact h.finishFill hid ho hfinish
  | passes s before after q held rest result => exact h.finishBypass s.now q held result

theorem balanced_new {now : Int} {s : Service} (h : Service.new config now = .ok s) :
    s.cache.Balanced 0 := by
  rw [Service.eq_of_new h]
  have hrefs : ∀ t, (Cache.new config).strings.refs t = 0 := fun t =>
    StringPool.refs_of_none Std.ExtTreeMap.getElem?_empty
  have hpooled : ∀ t, ¬ (Cache.new config).strings.contains t := fun t => by
    rw [StringPool.contains_iff]
    rintro ⟨n, hn⟩
    cases hn.symm.trans (Std.ExtTreeMap.getElem?_empty)
  refine ⟨fun id item hid => ?_, fun t => hrefs t, fun t => ?_, rfl, rfl, Nat.le_refl 0, Nat.zero_le _⟩
  · cases hid.symm.trans (Std.ExtTreeMap.getElem?_empty)
  · rw [hrefs]
    simpa using hpooled t

theorem Possible.balanced (hw : Possible config w) : w.cache.Balanced 0 := by
  induction hw with
  | new now s hnew => exact balanced_new hnew
  | step w w' hw hstep ih => exact hw.sound.balanced_step ih hstep

end Traffic

/-! ## The sum of all that is allocated -/

/-- Bytes of the allocations that a value takes beside its texts. -/
def Value.sizes : Value → List Nat
  | .log _ => [LogEntry.bytes]
  | .float _ | .str _ | .uint _ | .text _ => []

namespace Item

/-- Bytes of the allocations of an item: its entry, its chunks, and its log values. -/
def sizes (item : Item) : List Nat :=
  entryBytes ::
    (item.history.capacities.map Chunk.bytes ++ item.history.records.flatMap fun r => r.value.sizes)

/-- The texts that the records of an item refer to. -/
def texts (item : Item) : List String := item.history.records.flatMap fun r => r.value.texts

end Item

namespace Cache

/-- Bytes of all allocations: those of the items, and the entries of the pooled texts. -/
def sizes (c : Cache) : List Nat :=
  (c.items.toList.flatMap fun e => e.2.sizes) ++
    c.strings.counts.toList.map fun e => StringPool.entryBytes e.1

/-- The texts that the cached records refer to. -/
def texts (c : Cache) : List String := c.items.toList.flatMap fun e => e.2.texts

end Cache

def blockCharges (sizes : List Nat) : Charges := ↑(sizes.map Charge.block)

section

variable (sizes more : List Nat) (ss ts : List String) (s : String)

theorem blockCharges_append :
    blockCharges (sizes ++ more) = blockCharges sizes + blockCharges more := by
  rw [blockCharges, List.map_append, ← Multiset.coe_add]
  rfl

theorem textCharges_append : textCharges (ss ++ ts) = textCharges ss + textCharges ts := by
  rw [textCharges, List.map_append, ← Multiset.coe_add]
  rfl

theorem bytesOf_blockCharges :
    bytesOf (blockCharges sizes) = (sizes.map (· + Budget.overhead)).sum := by
  rw [bytesOf, blockCharges, Multiset.map_coe, Multiset.sum_coe, List.map_map]
  rfl

theorem blocksOf_blockCharges : blocksOf (blockCharges sizes) = sizes.length := by
  rw [blocksOf, blockCharges, Multiset.map_coe, Multiset.sum_coe, List.map_map]
  simp [Function.comp_def, Charge.blocks]

theorem bytesOf_textCharges : bytesOf (textCharges ss) = 0 := by
  rw [bytesOf, textCharges, Multiset.map_coe, Multiset.sum_coe, List.map_map]
  simp [Function.comp_def, Charge.bytes]

theorem blocksOf_textCharges : blocksOf (textCharges ss) = 0 := by
  rw [blocksOf, textCharges, Multiset.map_coe, Multiset.sum_coe, List.map_map]
  simp [Function.comp_def, Charge.blocks]

theorem count_blockCharges : (blockCharges sizes).count (.text s) = 0 := by
  rw [Multiset.count_eq_zero, blockCharges]
  simp

theorem count_textCharges : (textCharges ss).count (.text s) = ss.count s := by
  rw [textCharges, Multiset.coe_count]
  exact List.count_map_of_injective _ _ (fun _ _ h => Charge.text.inj h) s

end

theorem recordCharges_eq (rs : List Record) :
    recordCharges rs = blockCharges (rs.flatMap fun r => r.value.sizes) +
      textCharges (rs.flatMap fun r => r.value.texts) := by
  induction rs with
  | nil => rfl
  | cons r rs ih =>
    have hvalue : r.value.charges = blockCharges r.value.sizes + textCharges r.value.texts := by
      rw [Value.charges]
      cases r.value <;> rfl
    rw [recordCharges_cons, hvalue, ih, List.flatMap_cons, List.flatMap_cons, blockCharges_append,
      textCharges_append]
    abel

theorem chunkCharges_eq (capacities : List Nat) :
    chunkCharges capacities = blockCharges (capacities.map Chunk.bytes) := by
  rw [blockCharges, List.map_map]
  rfl

theorem Item.charges_eq (item : Item) :
    item.charges = blockCharges item.sizes + textCharges item.texts := by
  have hentry : blockCharges item.sizes = {.block entryBytes} +
      blockCharges (item.history.capacities.map Chunk.bytes ++
        item.history.records.flatMap fun r => r.value.sizes) := by
    rw [blockCharges, sizes, List.map_cons, ← Multiset.cons_coe, ← Multiset.singleton_add]
    rfl
  rw [charges, History.charges, recordCharges_eq, chunkCharges_eq, hentry, blockCharges_append,
    texts]
  abel

/-- Items are charged for their allocations and refer to their texts. -/
theorem Item.sum_charges (items : List Item) : (items.map Item.charges).sum =
    blockCharges (items.flatMap Item.sizes) + textCharges (items.flatMap Item.texts) := by
  induction items with
  | nil => rfl
  | cons item items ih =>
    rw [List.map_cons, List.sum_cons, ih, Item.charges_eq, List.flatMap_cons, List.flatMap_cons,
      blockCharges_append, textCharges_append]
    abel

theorem Cache.held_eq (c : Cache) :
    c.held = blockCharges (c.items.toList.flatMap fun e => e.2.sizes) + textCharges c.texts := by
  have hsum := Item.sum_charges (c.items.toList.map Prod.snd)
  rw [List.map_map, List.flatMap_map, List.flatMap_map] at hsum
  exact hsum

theorem Budget.foldl_refund {b : Budget} {sizes : List Nat}
    (hused : (sizes.map (· + overhead)).sum ≤ b.used) (hcount : sizes.length ≤ b.allocations) :
    (sizes.foldl refund b).used + (sizes.map (· + overhead)).sum = b.used ∧
      (sizes.foldl refund b).allocations + sizes.length = b.allocations := by
  induction sizes generalizing b with
  | nil => exact ⟨rfl, rfl⟩
  | cons size sizes ih =>
    rw [List.map_cons, List.sum_cons] at hused ⊢
    rw [List.length_cons] at hcount ⊢
    have hfirst : (b.refund size).used = b.used - (size + overhead) ∧
        (b.refund size).allocations = b.allocations - 1 := ⟨rfl, rfl⟩
    obtain ⟨hbytes, hblocks⟩ := ih (b := b.refund size) (by omega) (by omega)
    rw [List.foldl_cons]
    omega

/-- **The budget and the pool** tell of all that is allocated. -/
theorem Traffic.accounts_of_possible {config : Config} {w : Traffic} (hw : Possible config w) :
    -- what is in use is what the allocations cost, and they are counted
    w.cache.budget.used = (w.cache.sizes.map (· + Budget.overhead)).sum ∧
    w.cache.budget.allocations = w.cache.sizes.length ∧
    -- a text has a reference for each time that a record has it, and is pooled with the first
    (∀ s, w.cache.strings.refs s = w.cache.texts.count s) ∧
    (∀ s, w.cache.strings.contains s ↔ 0 < w.cache.strings.refs s) ∧
    -- no more is in use than there is
    w.cache.budget.used ≤ w.cache.budget.highWatermark ∧
    w.cache.budget.highWatermark ≤ w.cache.budget.total ∧
    w.cache.budget.free + w.cache.budget.used = w.cache.budget.total ∧
    -- whatever is given back of the allocations, one after another, was in use until then
    ∀ gone : List Nat, gone.Subperm w.cache.sizes →
      (gone.foldl Budget.refund w.cache.budget).used + (gone.map (· + Budget.overhead)).sum =
        w.cache.budget.used ∧
      (gone.foldl Budget.refund w.cache.budget).allocations + gone.length =
        w.cache.budget.allocations := by
  have hbalances := hw.balanced.balances
  rw [add_zero, Cache.held_eq] at hbalances
  have hused : w.cache.budget.used = (w.cache.sizes.map (· + Budget.overhead)).sum := by
    rw [hbalances.used, bytesOf_add, bytesOf_blockCharges, bytesOf_textCharges, Cache.sizes,
      List.map_append, List.sum_append, List.map_map]
    rfl
  have hallocations : w.cache.budget.allocations = w.cache.sizes.length := by
    rw [hbalances.allocations, blocksOf_add, blocksOf_blockCharges, blocksOf_textCharges, Cache.sizes,
      List.length_append, List.length_map, Std.ExtTreeMap.length_toList]
    rfl
  have hhigh := hbalances.high
  have htotal := hbalances.fits
  refine ⟨hused, hallocations, fun s => ?_, hbalances.pooled, hhigh, htotal, ?_, fun gone hgone => ?_⟩
  · rw [hbalances.refs, Multiset.count_add, count_blockCharges, count_textCharges, Nat.zero_add]
  · rw [Budget.free]
    omega
  · obtain ⟨part, hperm, hpart⟩ := hgone
    have hbytes : (gone.map (· + Budget.overhead)).sum ≤ w.cache.budget.used := by
      rw [hused, ← (hperm.map _).sum_eq]
      exact (hpart.map _).sum_le_sum fun _ _ => Nat.zero_le _
    have hcount : gone.length ≤ w.cache.budget.allocations := by
      rw [hallocations, ← hperm.length_eq]
      exact hpart.length_le
    exact Budget.foldl_refund hbytes hcount

/-- A store that has one text twice. -/
def oneTextTwice : Backend Unit := fun _ (s, x) =>
  (.ok [⟨⟨995, 0⟩, .str "on"⟩, ⟨⟨990, 0⟩, .str "on"⟩], s, x)

/-- A service after a request for the last minute of a text. -/
def textService : Service :=
  (Service.execute oneTextTwice oneTextTwice (.call 0 (.get ⟨7, .str, 60, 0, ⟨1000, 0⟩⟩))
    (newService.enable 0, ())).2.1

theorem Traffic.possible_textService : Possible {} ⟨textService, []⟩ := by
  have h₀ : Possible {} ⟨newService, []⟩ := .new 1000 newService new_newService
  have h₁ : Possible {} ⟨newService.enable 0, []⟩ := (closed_possible {}).elsewhere h₀ rfl rfl rfl
  exact h₁.execute (fun _ _ _ => rfl) _ ()

/-- An item, a chunk of two slots and a text that two records share. -/
theorem Traffic.accounts_shared_text : ∃ w, Possible {} w ∧
    w.cache.sizes = [Item.entryBytes, Chunk.bytes 2, StringPool.entryBytes "on"] ∧
    w.cache.budget.used =
      Item.entryBytes + 16 + (Chunk.bytes 2 + 16) + (StringPool.entryBytes "on" + 16) ∧
    w.cache.budget.allocations = 3 ∧ w.cache.strings.refs "on" = 2 := by
  have hsizes : textService.cache.sizes =
      [Item.entryBytes, Chunk.bytes 2, StringPool.entryBytes "on"] := by cbv
  have htexts : textService.cache.texts = ["on", "on"] := by cbv
  obtain ⟨hused, hallocations, hrefs, -⟩ := accounts_of_possible possible_textService
  refine ⟨_, possible_textService, hsizes, ?_, ?_, ?_⟩
  · rw [hused, hsizes]
    rfl
  · rw [hallocations, hsizes]
    rfl
  · rw [hrefs, htexts]
    rfl

end HistoryCache
