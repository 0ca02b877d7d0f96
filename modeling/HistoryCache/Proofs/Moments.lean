import HistoryCache.Proofs.LowMemory

/-!
# The middle of an operation

Between the steps of traffic the books of the cache tell of its items and of nothing else.  In the middle
of a step they tell of more: the item that is worked on is out of the map, and what was taken for a record
has no slot yet.  `Cache.Moments` lists, along the recursion of each function, the caches at which memory
is charged or a text is referred to.

* `Cache.Afloat`: the books are kept, and what is held pays for the texts that it refers to.
* `Traffic.Met`: the caches that requests, writes and removals come across, at rest and at work.
* `Traffic.refs_fit_of_met`: no count of references outgrows 32 bits.
-/

namespace HistoryCache

/-! ## What pays for a reference -/

/-- Each text is paid for with twenty bytes a reference, and there is enough for `n` more. -/
def Bears (n : Nat) (M : Charges) : Prop := ∀ s, 20 * (M.count (.text s) + n) ≤ bytesOf M

namespace Bears

variable {n m : Nat} {M N : Charges}

theorem zero : Bears 0 0 := fun s => by simp

theorem mono (h : Bears n M) (hle : m ≤ n) : Bears m M := fun s => by
  have := h s
  omega

theorem add (h : Bears n M) (k : Bears m N) : Bears (n + m) (M + N) := fun s => by
  have hM := h s
  have hN := k s
  rw [Multiset.count_add, bytesOf_add]
  omega

theorem block (h : Bears n M) (size : Nat) : Bears n (M + {.block size}) := fun s => by
  have := h s
  rw [count_text_add_block, bytesOf_add]
  omega

theorem text (h : Bears (n + 1) M) (s : String) : Bears n (M + {.text s}) := fun t => by
  have := h t
  rw [count_text_add_text, bytesOf_add, bytesOf_text]
  split <;> omega

end Bears

theorem Value.length_texts_le (v : Value) : v.texts.length ≤ 2 := by
  cases v with
  | log entry =>
    rw [texts, List.length_append, List.length_singleton]
    cases entry.source with
    | none => exact Nat.le_succ 1
    | some source => exact Nat.le_refl 2
  | float | uint => exact Nat.zero_le 2
  | str | text => exact Nat.le_succ 1

theorem Value.count_charges_le (v : Value) (s : String) : v.charges.count (.text s) ≤ 2 := by
  have hblock : v.block.count (.text s) = 0 := by cases v <;> simp [block]
  have hcount := v.texts.count_le_length (a := s)
  have hlength := v.length_texts_le
  rw [charges, Multiset.count_add, count_textCharges, hblock]
  omega

theorem Bears.value {n : Nat} {M : Charges} (h : Bears (n + 2) M) (v : Value) :
    Bears n (M + v.charges) := fun s => by
  have hM := h s
  have hcount := v.count_charges_le s
  rw [Multiset.count_add, bytesOf_add]
  omega

/-- An item's entry pays for what a record refers to before the record has a slot. -/
theorem bears_entry : Bears 2 {.block Item.entryBytes} := fun s => by
  rw [bytesOf_block, Multiset.count_singleton, if_neg (by simp)]
  decide

theorem count_recordCharges_le (rs : List Record) (s : String) :
    (recordCharges rs).count (.text s) ≤ 2 * rs.length := by
  induction rs with
  | nil => exact Nat.zero_le 0
  | cons r rs ih =>
    have hvalue := r.value.count_charges_le s
    rw [recordCharges_cons, Multiset.count_add, List.length_cons]
    omega

theorem bytesOf_chunkCharges_ge (ns : List Nat) : 40 * ns.sum ≤ bytesOf (chunkCharges ns) := by
  induction ns with
  | nil => exact Nat.zero_le _
  | cons n ns ih =>
    rw [chunkCharges_cons, bytesOf_add, bytesOf_block, List.sum_cons, Chunk.bytes, Chunk.slotBytes]
    omega

namespace History

variable {h : History} {is : List Nat}

/-- No chunk has more records than slots. -/
theorem Kept.length_records_le (hk : h.Kept is) : h.records.length ≤ h.capacities.sum := by
  have hexact : ∀ {i c}, h.chunk? i = some c → c.Exact := hk.exact
  have hall : ∀ i ∈ is, ∃ c, h.chunk? i = some c := fun i hi => hk.exists_chunk hi
  rw [hk.records_eq, capacities_of_linked hk.linked]
  clear hk
  induction is with
  | nil => exact Nat.zero_le 0
  | cons i is ih =>
    obtain ⟨c, hc⟩ := hall i List.mem_cons_self
    have hrest := ih fun j hj => hall j (List.mem_cons_of_mem i hj)
    have hcapacity : h.capacityAt i = some c.capacity := by
      rw [capacityAt, hc]
      rfl
    have hfits : c.size ≤ c.capacity := Nat.le_trans (Nat.sub_le _ _) (hexact hc).fits
    rw [List.flatMap_cons, recordsAt_eq hc, List.length_append, (hexact hc).length_records,
      List.filterMap_cons_some hcapacity, List.sum_cons]
    omega

theorem Kept.bears (hk : h.Kept is) : Bears 0 h.charges := fun s => by
  have hslots := hk.length_records_le
  have hcount := count_recordCharges_le h.records s
  have hbytes := bytesOf_chunkCharges_ge h.capacities
  have hblocks : (chunkCharges h.capacities).count (.text s) = 0 := by
    rw [Multiset.count_eq_zero, chunkCharges]
    simp
  rw [History.charges, Multiset.count_add, hblocks, bytesOf_add]
  omega

end History

theorem Item.bears {item : Item} (hs : item.history.Sorted) : Bears 2 item.charges :=
  bears_entry.add hs.tidy.kept.bears

namespace Cache

/-- What is cached pays for its texts. -/
theorem Balanced.bears {c : Cache} {E : Charges} (h : c.Balanced E) : Bears 0 c.held := by
  have hall : ∀ e ∈ c.items.toList, e.2.history.Sorted := fun ⟨id, item⟩ he =>
    h.sorted id item (Std.ExtTreeMap.mem_toList_iff_getElem?_eq_some.1 he)
  rw [held]
  revert hall
  generalize c.items.toList = es
  intro hall
  induction es with
  | nil => exact .zero
  | cons e es ih =>
    have hfirst := Item.bears (hall e List.mem_cons_self)
    rw [List.map_cons, List.sum_cons]
    exact (hfirst.mono (Nat.zero_le 2)).add (ih fun e he => hall e (List.mem_cons_of_mem _ he))

/-! ## Caches at work -/

/-- The cache has its configuration and the budget that goes with it. -/
def Configured (config : Config) (c : Cache) : Prop :=
  c.config = config ∧ c.budget.total = config.size

/-- The books tell of the cached items and of what is held beside them, and that pays for the texts
that it refers to. -/
structure Afloat (config : Config) (c : Cache) : Prop where
  configured : c.Configured config
  charges : ∃ E, c.Balanced E ∧ Bears 0 E

theorem Steady.configured {config : Config} {c c' : Cache} (h : Steady c c')
    (hc : c.Configured config) : c'.Configured config :=
  ⟨h.config.trans hc.1, h.total.trans hc.2⟩

theorem Goes.configured {config : Config} {c c' : Cache} {marks : List Turn} (h : Goes marks c c')
    (hc : c.Configured config) : c'.Configured config := by
  obtain ⟨turns, hcourse, -⟩ := h
  obtain ⟨hconfig, htotal⟩ := hcourse.keeps
  exact ⟨hconfig.trans hc.1, htotal.trans hc.2⟩

/-- **A reference costs** twenty bytes of the budget. -/
theorem Afloat.refs_le {config : Config} {c : Cache} (h : c.Afloat config) (s : String) :
    20 * c.strings.refs s ≤ config.size := by
  obtain ⟨-, htotal⟩ := h.configured
  obtain ⟨E, hb, hE⟩ := h.charges
  have hall := (hb.bears.add hE) s
  have hused := hb.balances.used
  have hhigh := hb.balances.high
  have hfits := hb.balances.fits
  rw [← hb.balances.refs s] at hall
  omega

namespace Moments

/-- What comes after a success. -/
def andThen {α : Type} (result : Except CacheFailure α × Cache) (moments : α → Cache → List Cache) :
    List Cache :=
  match result with
  | (.ok a, c) => moments a c
  | (.error _, _) => []

/-- Before a charge, and if there is no room before and after its round. -/
def charge (c : Cache) (now : Int) (source : ItemId) (size : Nat) : List Cache :=
  match c.budget.tryCharge size with
  | (true, _) => [c]
  | (false, budget) =>
    [c, { c with budget := budget }, ({ c with budget := budget } : Cache).makeSpace now source size]

/-- Before a reference is taken, and with the first one to a text, before it is pooled. -/
def holdText (c : Cache) (now : Int) (source : ItemId) (s : String) : List Cache :=
  match c.strings.lookup? s with
  | some _ => [c]
  | none =>
    charge c now source (StringPool.entryBytes s) ++
      andThen (c.charge now source (StringPool.entryBytes s)) fun _ c => [c]

def takeTexts (now : Int) (source : ItemId) : List String → Cache → List Cache
  | [], _ => []
  | s :: rest, c =>
    holdText c now source s ++ andThen (c.holdText now source s) fun _ c => takeTexts now source rest c

def holdValue (c : Cache) (now : Int) (source : ItemId) (v : Value) : List Cache :=
  match v with
  | .log entry =>
    charge c now source LogEntry.bytes ++ andThen (c.charge now source LogEntry.bytes) fun _ c =>
      takeTexts now source (Value.log entry).texts c
  | v => takeTexts now source v.texts c

def openOldest (c : Cache) (now : Int) (id : ItemId) (waiting : List Record) (h : History) :
    List Cache :=
  if h.hasRoom then []
  else charge c now id (Chunk.bytes (History.capacityFor (h.size + waiting.length)))

def fill (now : Int) (id : ItemId) : List Record → History → Cache → List Cache
  | [], _, _ => []
  | r :: older, h, c =>
    openOldest c now id (r :: older) h ++ andThen (c.openOldest now id (r :: older) h) fun h c =>
      holdValue c now id r.value ++ andThen (c.holdValue now id r.value) fun value c =>
        fill now id older (h.pushOldest ⟨r.time, value⟩) c

def prepend (c : Cache) (now : Int) (id : ItemId) (records : List Record) (item : Item) : List Cache :=
  fill now id (belowHistory item.history records) item.history c

def openNewest (c : Cache) (now : Int) (id : ItemId) (h : History) : List Cache :=
  match h.reserve? with
  | some _ => []
  | none => charge c now id (Chunk.bytes (History.capacityFor (h.size + 1)))

def reserve (c : Cache) (now : Int) (id : ItemId) (r : Record) (h : History) : List Cache :=
  holdValue c now id r.value ++ andThen (c.holdValue now id r.value) fun _ c => openNewest c now id h

def insert (c : Cache) (now : Int) (id : ItemId) (r : Record) (item : Item) : List Cache :=
  match item.history.position? r.time with
  | none => []
  | some _ => reserve c now id r item.history

def write (c : Cache) (now : Int) (id : ItemId) (r : Record) (item : Item) : List Cache :=
  match item.history.newest?, item.history.oldest? with
  | some newest, some oldest =>
    if newest.time ≤ r.time then reserve c now id r item.history
    else if oldest.time ≤ r.time then insert c now id r item
    else []
  | none, _ =>
    if !item.cachedAll && item.coveredFrom.any fun s => decide (r.sec < s) then []
    else reserve c now id r item.history
  | some _, none => reserve c now id r item.history

def offer (c : Cache) (now expireBefore : Int) (id : ItemId) (r : Record) (item : Item) : List Cache :=
  if item.state = .removePending then []
  else if item.kind ≠ r.value.kind then []
  else if item.lastAccessed < expireBefore then []
  else write c now id r item

def ingestOne (now expireBefore : Int) (c : Cache) (w : ItemRecord) : List Cache :=
  match (c.pin w.item).items[w.item]? with
  | none => []
  | some item => offer ((c.pin w.item).checkOut w.item) now expireBefore w.item w.record item

def ingestAll (now expireBefore : Int) : List ItemRecord → Cache → List Cache
  | [], _ => []
  | w :: writes, c =>
    ingestOne now expireBefore c w ++ ingestAll now expireBefore writes (c.ingestOne now expireBefore w)

def ingest (c : Cache) (now : Int) (writes : List ItemRecord) : List Cache :=
  ingestAll now (c.expireBefore now) writes c

def ensure (c : Cache) (now : Int) (q : Request) : List Cache :=
  if c.items.contains q.item then []
  else if c.mode = .lowMemory then []
  else charge c now q.item Item.entryBytes

def start (c : Cache) (now : Int) (q : Request) : List Cache := ensure (c.greet now) now q

def extend (c : Cache) (now : Int) (q : Request) (fill : Fill) (fetched : Fetched) : List Cache :=
  match c.items[q.item]? with
  | none => []
  | some item =>
    if item.tailWrites ≠ fill.tailWrites ∨ item.state = .removePending then []
    else prepend (c.checkOut q.item) now q.item fetched.records item

def finishFill (c : Cache) (now : Int) (q : Request) (fill : Fill)
    (result : Except StoreFailure Fetched) : List Cache :=
  match result with
  | .error _ => []
  | .ok fetched => extend c now q fill fetched

/-! ## Whatever is met in the middle -/

section

variable {config : Config} {c : Cache} {E : Charges} {now : Int} {id : ItemId}

theorem mem_andThen {α : Type} {result : Except CacheFailure α × Cache}
    {moments : α → Cache → List Cache} {m : Cache} :
    m ∈ andThen result moments ↔ ∃ a c, result = (.ok a, c) ∧ m ∈ moments a c := by
  obtain ⟨e | a, c⟩ := result
  · simp [andThen]
  · simp [andThen]

/-- Neither a charge nor its round takes anything that is told of. -/
theorem balanced_charge (hc : c.Configured config) (hb : c.Balanced E) {size : Nat} :
    ∀ m ∈ charge c now id size, m.Configured config ∧ m.Balanced E := by
  intro m hm
  rw [charge] at hm
  by_cases hfits : c.budget.Fits size
  · rw [Budget.tryCharge_of_fits hfits] at hm
    rw [List.mem_singleton.1 hm]
    exact ⟨hc, hb⟩
  rw [Budget.tryCharge_of_not_fits hfits] at hm
  simp only [] at hm
  generalize hrefused :
    ({ c with budget := { c.budget with refused := c.budget.refused + 1 } } : Cache) = c₀ at hm
  have hc₀ : c₀.Configured config := by
    rw [← hrefused]
    exact hc
  have hb₀ : c₀.Balanced E := by
    rw [← hrefused]
    exact ⟨hb.sorted, hb.balances.refused _⟩
  rcases List.mem_cons.1 hm with rfl | hm
  · exact ⟨hc, hb⟩
  rcases List.mem_cons.1 hm with rfl | hm
  · exact ⟨hc₀, hb₀⟩
  rw [List.mem_singleton.1 hm]
  obtain ⟨hconfig, htotal⟩ := (Turn.round now id size c₀).keeps
  exact ⟨⟨hconfig.trans hc₀.1, htotal.trans hc₀.2⟩, hb₀.makeSpace now id size⟩

theorem afloat_charge (hc : c.Configured config) (hb : c.Balanced E) (hE : Bears 0 E) {size : Nat} :
    ∀ m ∈ charge c now id size, m.Afloat config := fun m hm =>
  have ⟨hconfigured, hbalanced⟩ := balanced_charge hc hb m hm
  ⟨hconfigured, E, hbalanced, hE⟩

theorem afloat_holdText (hc : c.Configured config) (hb : c.Balanced E) (hE : Bears 0 E) {s : String} :
    ∀ m ∈ holdText c now id s, m.Afloat config := by
  intro m hm
  rw [holdText] at hm
  split at hm
  · rw [List.mem_singleton.1 hm]
    exact ⟨hc, E, hb, hE⟩
  · rcases List.mem_append.1 hm with hm | hm
    · exact afloat_charge hc hb hE m hm
    · obtain ⟨⟨⟩, c₁, heq, hm⟩ := mem_andThen.1 hm
      have hgoes := Goes.charge c now id (StringPool.entryBytes s)
      rw [heq] at hgoes
      rw [List.mem_singleton.1 hm]
      exact ⟨hgoes.configured hc, _, hb.charge heq, hE.block _⟩

theorem afloat_takeTexts {ss : List String} (hc : c.Configured config) (hb : c.Balanced E)
    (hE : Bears ss.length E) : ∀ m ∈ takeTexts now id ss c, m.Afloat config := by
  induction ss generalizing c E with
  | nil => exact fun m hm => by cases hm
  | cons s ss ih =>
    intro m hm
    rw [takeTexts] at hm
    rcases List.mem_append.1 hm with hm | hm
    · exact afloat_holdText hc hb (hE.mono (Nat.zero_le _)) m hm
    · obtain ⟨handle, c₁, heq, hm⟩ := mem_andThen.1 hm
      have hgoes := Goes.holdText c now id s
      rw [heq] at hgoes
      exact ih (hgoes.configured hc) (hb.holdText heq) (hE.text s) m hm

theorem afloat_holdValue {v : Value} (hc : c.Configured config) (hb : c.Balanced E) (hE : Bears 2 E) :
    ∀ m ∈ holdValue c now id v, m.Afloat config := by
  have hlength := v.length_texts_le
  cases v with
  | log entry =>
    intro m hm
    rw [holdValue] at hm
    rcases List.mem_append.1 hm with hm | hm
    · exact afloat_charge hc hb (hE.mono (Nat.zero_le 2)) m hm
    · obtain ⟨⟨⟩, c₁, heq, hm⟩ := mem_andThen.1 hm
      have hgoes := Goes.charge c now id LogEntry.bytes
      rw [heq] at hgoes
      exact afloat_takeTexts (hgoes.configured hc) (hb.charge heq) ((hE.block _).mono hlength) m hm
  | float | str | uint | text => exact afloat_takeTexts hc hb (hE.mono hlength)

/-! ### Below the history -/

theorem afloat_openOldest {waiting : List Record} {h : History} (hc : c.Configured config)
    (hb : c.Balanced E) (hE : Bears 0 E) : ∀ m ∈ openOldest c now id waiting h, m.Afloat config := by
  intro m hm
  rw [openOldest] at hm
  split at hm
  · cases hm
  · exact afloat_charge hc hb hE m hm

theorem afloat_fill {rs : List Record} {h : History} (hc : c.Configured config)
    (hb : c.Balanced (E + h.charges)) (ht : h.Tidy) (hE : Bears 2 E) :
    ∀ m ∈ fill now id rs h c, m.Afloat config := by
  induction rs generalizing c h with
  | nil => exact fun m hm => by cases hm
  | cons r older ih =>
    intro m hm
    rw [fill] at hm
    rcases List.mem_append.1 hm with hm | hm
    · exact afloat_openOldest hc hb ((hE.add ht.kept.bears).mono (Nat.zero_le _)) m hm
    obtain ⟨g, c₁, heq, hm⟩ := mem_andThen.1 hm
    have hopen := Goes.openOldest c now id (r :: older) h
    rw [heq] at hopen
    have hc₁ := hopen.configured hc
    have hb₁ := (hb.openOldest ht heq).1 g rfl
    obtain ⟨is, hloose, hroom, -⟩ := openOldest_ok ht heq
    rcases List.mem_append.1 hm with hm | hm
    · exact afloat_holdValue hc₁ hb₁ (hE.add hloose.kept.bears) m hm
    obtain ⟨value, c₂, heq₂, hm⟩ := mem_andThen.1 hm
    have hhold := Goes.holdValue c₁ now id r.value
    rw [heq₂] at hhold
    obtain ⟨hpush, -⟩ := hloose.pushOldest hroom ⟨r.time, value⟩
    have hheld := hb₁.holdValue heq₂
    rw [paid, ← (holdValue_ok heq₂).2] at hheld
    exact ih (hhold.configured hc₁) (Balanced.pushedOldest hheld hloose hroom) hpush m hm

/-! ### Above the history -/

theorem afloat_reserve {r : Record} {h : History} (hc : c.Configured config) (hb : c.Balanced E)
    (hE : Bears 2 E) : ∀ m ∈ reserve c now id r h, m.Afloat config := by
  intro m hm
  rw [reserve] at hm
  rcases List.mem_append.1 hm with hm | hm
  · exact afloat_holdValue hc hb hE m hm
  obtain ⟨value, c₁, heq, hm⟩ := mem_andThen.1 hm
  have hhold := Goes.holdValue c now id r.value
  rw [heq] at hhold
  rw [openNewest] at hm
  split at hm
  · cases hm
  · exact afloat_charge (hhold.configured hc) (hb.holdValue heq) (hE.value r.value) m hm

theorem afloat_write {r : Record} {item : Item} (hc : c.Configured config) (hb : c.Balanced E)
    (hE : Bears 2 E) : ∀ m ∈ write c now id r item, m.Afloat config := by
  intro m hm
  rw [write] at hm
  split at hm
  · split at hm
    · exact afloat_reserve hc hb hE m hm
    · split at hm
      · rw [insert] at hm
        split at hm
        · cases hm
        · exact afloat_reserve hc hb hE m hm
      · cases hm
  · split at hm
    · cases hm
    · exact afloat_reserve hc hb hE m hm
  · exact afloat_reserve hc hb hE m hm

/-! ### Operations -/

theorem afloat_ingestOne {expireBefore : Int} {w : ItemRecord} (hc : c.Configured config)
    (hb : c.Balanced E) (hE : Bears 0 E) :
    ∀ m ∈ ingestOne now expireBefore c w, m.Afloat config := by
  intro m hm
  have hpin := (Steady.pin c w.item).configured hc
  have hpinned := hb.pin w.item
  rw [ingestOne] at hm
  generalize c.pin w.item = c₀ at hm hpin hpinned
  split at hm
  · cases hm
  next item hid =>
  have hout := hpinned.checkOut hid
  have hbears := hE.add (Item.bears (hpinned.sorted _ item hid))
  rw [offer] at hm
  split at hm
  · cases hm
  split at hm
  · cases hm
  split at hm
  · cases hm
  exact afloat_write ((Steady.checkOut c₀ w.item).configured hpin) hout hbears m hm

theorem afloat_ingest {writes : List ItemRecord} (hc : c.Configured config) (hb : c.Balanced E)
    (hE : Bears 0 E) : ∀ m ∈ ingest c now writes, m.Afloat config := by
  rw [ingest]
  generalize c.expireBefore now = expireBefore
  induction writes generalizing c with
  | nil => exact fun m hm => by cases hm
  | cons w writes ih =>
    intro m hm
    rw [ingestAll] at hm
    rcases List.mem_append.1 hm with hm | hm
    · exact afloat_ingestOne hc hb hE m hm
    · exact ih ((Goes.ingestOne c now expireBefore w).configured hc) (hb.ingestOne now expireBefore w) m hm

theorem afloat_start {q : Request} (hc : c.Configured config) (hb : c.Balanced E) (hE : Bears 0 E) :
    ∀ m ∈ start c now q, m.Afloat config := by
  intro m hm
  obtain ⟨hconfig, htotal⟩ := (Turn.request now c).keeps
  have hgreet : (c.greet now).Balanced E := by
    rw [greet]
    split
    · exact hb.congr (.warnLowMemory c now)
    · exact hb
  rw [start, ensure] at hm
  split at hm
  · cases hm
  split at hm
  · cases hm
  exact afloat_charge ⟨hconfig.trans hc.1, htotal.trans hc.2⟩ hgreet hE m hm

theorem afloat_finishFill {q : Request} {fill : Fill} {result : Except StoreFailure Fetched}
    (hc : c.Configured config) (hb : c.Balanced E) (hE : Bears 0 E) :
    ∀ m ∈ finishFill c now q fill result, m.Afloat config := by
  intro m hm
  cases result with
  | error e => cases hm
  | ok fetched =>
  rw [finishFill, extend] at hm
  split at hm
  · cases hm
  next item hid =>
  split at hm
  · cases hm
  have hs := hb.sorted _ item hid
  have hout := hb.checkOut hid
  rw [Item.charges, ← add_assoc] at hout
  exact afloat_fill ((Steady.checkOut c q.item).configured hc) hout hs.tidy (hE.add bears_entry) m hm

end

end Moments

end Cache

/-- There is no service with a larger budget than 64 GiB. -/
theorem Service.size_of_new {config : Config} {now : Int} {s : Service}
    (h : Service.new config now = .ok s) : config.size ≤ Config.maxSize := by
  rw [Service.new, Config.validate, Config.validateSize] at h
  by_contra hbig
  have hpositive : 0 < Config.maxSize := by decide
  rw [if_neg (by omega)] at h
  cases h

namespace Traffic

variable {config : Config} {w w' : Traffic}

theorem Step.total (h : Step w w') : w'.cache.budget.total = w.cache.budget.total := by
  have hgoes : ∀ {marks : List Cache.Turn} {c c' : Cache}, Cache.Goes marks c c' →
      c'.budget.total = c.budget.total := fun ⟨_, hcourse, _⟩ => hcourse.keeps.2
  have hfinished : ∀ {s : Service} {q : Request} {fill : Fill} {result : Except StoreFailure Fetched}
      {records : Option (List Record)} {c : Cache},
      s.cache.finishFill s.now q fill result = (records, c) →
        c.budget.total = s.cache.budget.total := by
    intro s q fill result records c hfinish
    have hfill := hgoes (Cache.Goes.finishFill s.cache s.now q fill result)
    rwa [hfinish] at hfill
  cases h with
  | elsewhere s t flights hitems hstrings hbudget => exact congrArg Budget.total hbudget
  | ingests s flights writes => exact hgoes (.ingest s.cache s.now writes)
  | removes s flights id => exact (Cache.Steady.requestRemoval s.cache id).total
  | begins s flights q next c hstart =>
    have hbegun := hgoes (Cache.Goes.start s.cache s.now q)
    rwa [hstart] at hbegun
  | reads => rfl
  | fills s before after q fill rest result hends records c hfinish => exact hfinished hfinish
  | loses s before after q fill rest result hends c hfinish => exact hfinished hfinish
  | passes s before after q held rest result =>
    exact (Cache.Steady.finishBypass s.cache s.now q held result).total

theorem Possible.total (hw : Possible config w) : w.cache.budget.total = config.size := by
  induction hw with
  | new now s hnew =>
    rw [Service.eq_of_new hnew]
    rfl
  | step w w' _ hstep ih => exact hstep.total.trans ih

/-- The caches that requests, writes and removals come across. -/
inductive Met (config : Config) : Cache → Prop
  /-- Nothing is going on. -/
  | rest (w : Traffic) (hw : Possible config w) (hconfig : w.cache.config = config) :
      Met config w.cache
  /-- An item is taken out to be worked on. -/
  | out (w : Traffic) (hw : Possible config w) (hconfig : w.cache.config = config) (id : ItemId)
      (item : Item) (hid : w.cache.items[id]? = some item) : Met config (w.cache.checkOut id)
  /-- In the middle of a write. -/
  | writing (w : Traffic) (hw : Possible config w) (hconfig : w.cache.config = config) (now : Int)
      (writes : List ItemRecord) (c : Cache) (hmoment : c ∈ Cache.Moments.ingest w.cache now writes) :
      Met config c
  /-- In the middle of the first step of a request. -/
  | admitting (w : Traffic) (hw : Possible config w) (hconfig : w.cache.config = config) (now : Int)
      (q : Request) (c : Cache) (hmoment : c ∈ Cache.Moments.start w.cache now q) : Met config c
  /-- In the middle of the extension of an item with what a request has read. -/
  | filling (w : Traffic) (hw : Possible config w) (hconfig : w.cache.config = config) (now : Int)
      (q : Request) (fill : Fill) (result : Except StoreFailure Fetched) (c : Cache)
      (hmoment : c ∈ Cache.Moments.finishFill w.cache now q fill result) : Met config c

/-- **The books** are kept at every moment. -/
theorem Met.afloat {c : Cache} (h : Met config c) : c.Afloat config := by
  cases h with
  | rest w hw hconfig => exact ⟨⟨hconfig, hw.total⟩, 0, hw.balanced, .zero⟩
  | out w hw hconfig id item hid =>
    have hbears := Item.bears (hw.balanced.sorted id item hid)
    refine ⟨⟨hconfig, hw.total⟩, _, hw.balanced.checkOut hid, ?_⟩
    exact Bears.zero.add (hbears.mono (Nat.zero_le 2))
  | writing w hw hconfig now writes c hmoment =>
    exact Cache.Moments.afloat_ingest ⟨hconfig, hw.total⟩ hw.balanced .zero _ hmoment
  | admitting w hw hconfig now q c hmoment =>
    exact Cache.Moments.afloat_start ⟨hconfig, hw.total⟩ hw.balanced .zero _ hmoment
  | filling w hw hconfig now q fill result c hmoment =>
    exact Cache.Moments.afloat_finishFill ⟨hconfig, hw.total⟩ hw.balanced .zero _ hmoment

/-- There is a service with the configuration. -/
theorem Possible.made (hw : Possible config w) : ∃ now s, Service.new config now = .ok s := by
  induction hw with
  | new now s hnew => exact ⟨now, s, hnew⟩
  | step w w' _ _ ih => exact ih

theorem Met.made {c : Cache} (h : Met config c) : ∃ now s, Service.new config now = .ok s := by
  cases h with
  | rest w hw | out w hw | writing w hw | admitting w hw | filling w hw => exact hw.made

end Traffic

/-- A cache that operations lead to, whoever interferes, is met at rest. -/
theorem Reachable.met {config : Config} {answering : Answering} {permits : Service → Operation → Prop}
    (hanswers : ∀ question s answer t, answering question s answer t → t.cache = s.cache)
    {s : Service}
    (hs : Reachable answering permits (fun s => ∃ now, Service.new config now = .ok s) s) :
    Traffic.Met config s.cache := by
  obtain ⟨turns, flights, hrun⟩ := hs.runs hanswers
  exact .rest ⟨s, flights⟩ hrun.possible hrun.course.keeps.1

/-! ## References in 32 bits -/

/-- **One more reference** to a text fits into 32 bits, whenever it is taken: each is paid for with
twenty bytes of at most 64 GiB. -/
theorem Traffic.refs_fit_of_met {config : Config} {c : Cache} (hc : Met config c) (s t : String) :
    (c.strings.intern s).2.refs t < 2 ^ 32 := by
  obtain ⟨now, service, hnew⟩ := hc.made
  have hsize : config.size ≤ 68719476736 := Service.size_of_new hnew
  have hrefs := hc.afloat.refs_le t
  have hone : (c.strings.intern s).2.refs t ≤ c.strings.refs t + 1 := by
    rw [StringPool.refs_intern]
    split <;> omega
  omega

/-- An item with a text that two of its records share is worked on. -/
theorem Traffic.refs_fit_shared_text : ∃ c, Met {} c ∧ c.items[7]? = none ∧
    c.strings.refs "on" = 2 ∧ (c.strings.intern "on").2.refs "on" = 3 ∧
    (c.strings.intern "on").2.refs "on" < 2 ^ 32 := by
  have hitem : (textService.cache.items[7]?).isSome := by cbv
  have hrefs : (textService.cache.checkOut 7).strings.refs "on" = 2 := by cbv
  obtain ⟨item, hid⟩ := Option.isSome_iff_exists.1 hitem
  have hmet : Met {} (textService.cache.checkOut 7) :=
    .out ⟨textService, []⟩ possible_textService (by cbv) 7 item hid
  refine ⟨_, hmet, ?_, hrefs, ?_, refs_fit_of_met hmet "on" "on"⟩
  · rw [Cache.getElem?_checkOut, if_pos rfl]
  · rw [StringPool.refs_intern, if_pos rfl, hrefs]

end HistoryCache
