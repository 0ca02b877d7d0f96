import HistoryCache.Proofs.Extension

/-!
# Caches that vouch truly

In a cache that vouches truly every item is as `Item.Vouched` says for what the store has of it, so
no item that nobody holds misses a record that it vouches for.  A cache stays so in each of its
steps.  Of writes this asks that none of them is stray when its turn comes (`Cache.NoneStray`).

* `Vouched.started`, `Vouched.finished`, `Vouched.finishBypass`: requests.
* `Vouched.ingest`: writes.  `Vouched.suits`: no record is stray for an item that nobody holds.
-/

namespace HistoryCache

namespace Item

variable {stored : List Record} {item : Item} {q : Request} {now : Int}

/-- **An item that has answered** vouches for all there is if it has seen that. -/
theorem Answers.vouched {x : Option Item} (h : item.Coherent stored)
    (hsettled : item.pins - 1 = 0 → item.Settled stored) (hs : item.history.Sorted)
    (henough : q.Enough stored item.history.records) (hanswers : item.Answers now q x) :
    ∀ item', x = some item' → item'.kind = item.kind ∧ item'.Vouched stored := by
  obtain ⟨n, hleaves⟩ := hanswers
  obtain ⟨active, daily, hour, all, hitem, hall⟩ := Request.collect_item q now hs
  rw [hitem] at hleaves
  intro item' hx
  refine ⟨hleaves.kind item' hx, Leaves.vouched ?_ hleaves item' hx⟩
  refine Or.inr ⟨⟨h.floor, h.covered, fun hwhole => ?_⟩, hsettled⟩
  rcases hall.1 hwhole with hwhole | hshort
  · exact h.whole hwhole
  · exact henough.whole hshort

/-- Something is missing from an item of which nothing is cached. -/
theorem missing?_empty (hq : q.Valid) (kind : Kind) (n : Nat) :
    q.missing? { Item.empty kind now with pins := n } ≠ none := by
  intro hmissing
  rw [Request.missing?] at hmissing
  have hupTo : ({ Item.empty kind now with pins := n } : Item).uncachedUpTo = Timestamp.horizon := rfl
  have hcovers : ∀ sec, ({ Item.empty kind now with pins := n } : Item).covers sec = false :=
    fun _ => rfl
  have hcount : ∀ t k, ({ Item.empty kind now with pins := n } : Item).history.countUpTo t k = 0 :=
    fun _ _ => rfl
  simp only [hupTo, hcovers, hcount, Bool.false_eq_true, false_or] at hmissing
  have hseconds := hq.seconds
  have hbefore := hq.before
  split at hmissing
  · rw [if_neg] at hmissing
    · cases hmissing
    · rw [Request.windowStart, hq.inBounds.edge_eq]
      rw [Timestamp.horizon] at *
      omega
  · rw [if_neg (by omega)] at hmissing
    cases hmissing

end Item

namespace Cache

variable {store : Store} {c c' : Cache} {q : Request} {now : Int}

/-- What the items vouch for is cached. -/
abbrev Vouched (store : Store) (c : Cache) : Prop :=
  All (fun id item => item.Vouched (store.recordsOf id item.kind)) c

namespace Vouched

theorem finds (h : c.Vouched store) {item : Item} (hfinds : c.Finds now q item)
    (hstate : item.state ≠ .removePending) : item.Coherent (store.recordsOf q.item item.kind) := by
  rcases hfinds with hid | ⟨-, rfl⟩
  · exact ((h _ item hid).resolve_left fun h => hstate h.1).1
  · exact .empty _ _ _

theorem started (h : c.Vouched store) (hsorted : c.Sound fun _ _ _ => True)
    (hregular : store.Regular) (hq : q.Valid) {next : Start} (hstarted : Started now q c next c') :
    c'.Vouched store := by
  cases hstarted with
  | past _ _ hup => exact h.updates hup fun _ hx => by cases hx
  | refused item _ _ _ hup =>
    refine h.updates hup fun _ hx => ?_
    cases hx
    exact Or.inl ⟨rfl, Nat.succ_pos _⟩
  | fills item _ _ hfinds hstate _ _ hup =>
    refine h.updates hup fun _ hx => ?_
    cases hx
    exact Or.inr ⟨(h.finds hfinds hstate).congr rfl rfl rfl, fun hzero => by cases hzero⟩
  | answers item x _ hfinds hstate hkind hmissing hanswers hup =>
    rcases hfinds with hid | ⟨-, rfl⟩
    · obtain ⟨hcoherent, hsettled⟩ := (h _ item hid).resolve_left fun h => hstate h.1
      have hpinned : ({ item with pins := item.pins + 1 } : Item).Coherent
          (store.recordsOf q.item item.kind) := hcoherent.congr rfl rfl rfl
      have hs := (hsorted _ item hid).sorted
      refine h.updates hup fun item' hx => ?_
      have henough := hpinned.enough hs (fun r hr => hregular.times _ _ r hr) hmissing
      obtain ⟨hkind', hvouched⟩ := hanswers.vouched hpinned hsettled hs henough item' hx
      rw [hkind']
      exact hvouched
    · exact absurd hmissing (Item.missing?_empty hq _ _)

/-- A request goes on after its reading; what was read extends the history of its item. -/
theorem finished (h : c.Vouched store) {item : Item} (hs : item.history.Sorted)
    (hpins : 0 < item.pins) {fill : Fill}
    {result : Except StoreFailure Fetched} {answer : Option (List Record)}
    (hextension : ∀ fetched, result = .ok fetched → item.state ≠ .removePending →
      item.tailWrites = fill.tailWrites → ∃ before old,
        Extension q before (store.recordsOf q.item item.kind) old item fill fetched)
    (hfinished : Finished now q fill item c result answer c') : c'.Vouched store := by
  cases hfinished with
  | lost _ g _ _ _ hup =>
    refine h.updates hup fun _ hx => ?_
    cases hx
    exact Or.inl ⟨rfl, hpins⟩
  | answers fetched g x _ hstate hwrites htidy hrecords hanswers hup =>
    obtain ⟨before, old, hext⟩ := hextension fetched rfl hstate hwrites
    obtain ⟨hcoherent, hsettled⟩ := hext.marked hrecords
    have hmark := mark_history fill.extent fetched { item with history := g }
    have hsorted : (fill.extent.mark fetched { item with history := g }).history.Sorted := by
      rw [hmark]
      exact sorted_of_below hs hext.brought.inOrder htidy List.suffix_rfl hrecords
    have henough : q.Enough (store.recordsOf q.item item.kind)
        (fill.extent.mark fetched { item with history := g }).history.records := by
      rw [hmark, hrecords]
      exact hext.enough
    refine h.updates hup fun item' hx => ?_
    obtain ⟨hkind, hvouched⟩ :=
      hanswers.vouched hcoherent (fun _ => hsettled) hsorted henough item' hx
    obtain ⟨all, covered, heq⟩ := mark_eq fill.extent fetched { item with history := g }
    rw [hkind, heq]
    exact hvouched

/-- A request that went past the cache leaves an item that is to be removed. -/
theorem finishBypass (h : c.Vouched store) (hsorted : c.Sound fun _ _ _ => True) {held : Bool}
    (hpending : held = true → ∀ item, c.items[q.item]? = some item → item.state = .removePending)
    (result : Except StoreFailure (List Record)) :
    (c.finishBypass now q held result).Vouched store := by
  rcases finishBypass_spec now q held result (fun item hid => hsorted.sorted _ item hid)
    with ⟨hitems, -⟩ | ⟨hheld, item, x, hid, hleaves, hup⟩
  · exact h.congr hitems
  · refine h.updates hup fun item' hx => ?_
    rw [hleaves.kind item' hx]
    exact hleaves.vouched (Or.inl (hpending hheld item hid)) item' hx

theorem requestRemoval (h : c.Vouched store) (id : ItemId) :
    (c.requestRemoval id).Vouched store := by
  rcases requestRemoval_spec c id with ⟨-, hitems⟩ | ⟨item, hid, hget⟩
  · exact h.congr hitems
  · refine h.updates (Updates.of_getElem? hget) fun item' hx => ?_
    split at hx
    · next hpins =>
      cases hx
      exact Or.inl ⟨rfl, hpins⟩
    · cases hx

theorem requestRemovals (h : c.Vouched store) (ids : List ItemId) :
    (ids.foldl Cache.requestRemoval c).Vouched store := by
  induction ids generalizing c with
  | nil => exact h
  | cons id ids ih => exact ih (h.requestRemoval id)

theorem reset (h : c.Vouched store) : c.reset.Vouched store :=
  All.congr (h.requestRemovals c.ids) rfl

end Vouched

/-! ## Writes -/

/-- Whether a written record is not stray for its item. -/
def Suits (store : Store) (c : Cache) (w : ItemRecord) : Prop :=
  ∀ item, c.items[w.item]? = some item → item.state ≠ .removePending →
    item.kind = w.record.value.kind → ¬ item.Stray (store.recordsOf w.item item.kind) w.record

/-- Whether none of some written records is stray when its turn comes. -/
def NoneStray (now expireBefore : Int) : Store → Cache → List ItemRecord → Prop
  | _, _, [] => True
  | store, c, w :: writes => c.Suits store w ∧
      NoneStray now expireBefore (store.put w) (c.ingestOne now expireBefore w) writes

variable {w : ItemRecord}

/-- No record is stray for an item that nobody holds. -/
theorem Vouched.suits (h : c.Vouched store) (hrest : ∀ id, c.pinsOf id = 0) : c.Suits store w := by
  intro item hid hstate _
  have hpins := hrest w.item
  rw [Holds.pinsOf_some hid] at hpins
  exact (((h _ item hid).resolve_left fun h => hstate h.1).2 hpins).not_stray

/-- **A written record** that is not stray is cached if its item vouches for it. -/
theorem Vouched.ingestOne (h : c.Vouched store) (hsorted : c.Sound fun _ _ _ => True)
    (hregular : store.Regular) (hw : store.Fresh w) (hsuits : c.Suits store w) (expireBefore : Int) :
    (c.ingestOne now expireBefore w).Vouched (store.put w) := by
  have hother : ∀ id item, id ≠ w.item → c.items[id]? = some item →
      item.Vouched ((store.put w).recordsOf id item.kind) := by
    intro id item hne hid
    rw [Store.recordsOf_put_of_ne fun hkey => hne hkey.1.symm]
    exact h id item hid
  rcases ingestOne_spec now expireBefore (fun item hid => hsorted.sorted w.item item hid) with
    ⟨hnone, hitems⟩ | ⟨item, item', x, hid, hoffered, hleaves, hup⟩
  · refine fun id item hid => hother id item ?_ (hitems ▸ hid)
    rintro rfl
    rw [hitems, hnone] at hid
    cases hid
  · refine All.of_updates hup hother fun item'' hx => ?_
    have hs := (hsorted _ item hid).sorted
    have hleavable : item'.Leavable ((store.put w).recordsOf w.item item.kind) := by
      refine Item.Offered.leavable (h _ item hid).pinned hs.inOrder (fun hkind => ?_)
        (hsuits item hid) hoffered
      change item.kind = w.record.value.kind at hkind
      rw [hkind]
      exact ⟨hw.not_mem_recordsOf hregular, hw.mem_put_iff hregular⟩
    have hkind : item''.kind = item.kind :=
      (hleaves.kind item'' hx).trans hoffered.later.1.kind
    rw [hkind]
    exact hleaves.vouched hleavable item'' hx

theorem Vouched.ingest (h : c.Vouched store) (hsorted : c.Sound fun _ _ _ => True)
    (hregular : store.Regular) {writes : List ItemRecord} (hw : store.AllFresh writes)
    (hnone : NoneStray now (c.expireBefore now) store c writes) :
    (c.ingest now writes).Vouched (writes.foldl Store.put store) := by
  rw [Cache.ingest]
  generalize c.expireBefore now = expireBefore at hnone
  induction writes generalizing store c with
  | nil => exact h
  | cons w writes ih =>
    exact ih (h.ingestOne hsorted hregular (hw.fresh w List.mem_cons_self) hnone.1 expireBefore)
      (hsorted.ingestOne_sorted expireBefore w) (hregular.put (hw.regular w List.mem_cons_self)) hw.tail hnone.2

/-- **A written record** that an item takes leaves it coherent exactly if it is not stray. -/
theorem Vouched.coherent_ingestOne_iff (h : c.Vouched store) (hsorted : c.Sound fun _ _ _ => True)
    (hregular : store.Regular) (hw : store.Fresh w) {expireBefore : Int} {item item' : Item}
    (hid : c.items[w.item]? = some item) (hstate : item.state ≠ .removePending)
    (hkind : item.kind = w.record.value.kind)
    (hid' : (c.ingestOne now expireBefore w).items[w.item]? = some item')
    (hstate' : item'.state ≠ .removePending) :
    item'.Coherent ((store.put w).recordsOf w.item item'.kind) ↔
      ¬ item.Stray (store.recordsOf w.item item.kind) w.record := by
  refine ⟨fun hcoherent hstray => ?_, fun hstray => ?_⟩
  · obtain ⟨hbefore, hsettled⟩ := (h _ item hid).resolve_left fun h => hstate h.1
    have hpins : 0 < item.pins := Nat.pos_of_ne_zero fun hzero => (hsettled hzero).not_stray hstray
    rcases ingestOne_spec now expireBefore (fun item hid => hsorted.sorted w.item item hid) with
      ⟨hnone, -⟩ | ⟨item₀, offered, x, hid₀, hoffered, hleaves, hup⟩
    · rw [hnone] at hid
      cases hid
    rw [hid] at hid₀
    cases hid₀
    obtain rfl := hup.1.symm.trans hid'
    have hheld : 1 < offered.pins := by
      rw [hoffered.later.2]
      exact Nat.succ_lt_succ hpins
    cases hleaves.of_held hheld
    have htaken : ∀ taken : Item, ({ item with pins := item.pins + 1 } : Item).Takes w.record taken →
        taken.Coherent ((store.put w).recordsOf w.item item.kind) → False := by
      intro taken htakes htaken
      rw [hkind] at htaken hbefore hstray
      have hpinned : ({ item with pins := item.pins + 1 } : Item).Coherent
          (store.recordsOf w.item w.record.value.kind) := hbefore.congr rfl rfl rfl
      exact (htakes.coherent_iff hpinned (hsorted _ item hid).sorted.inOrder
        (hw.not_mem_recordsOf hregular) (hw.mem_put_iff hregular)).1 htaken hstray
    have hkind' : offered.kind = item.kind := hoffered.later.1.kind
    have hoffered' : offered.Coherent ((store.put w).recordsOf w.item item.kind) := by
      rw [← hkind']
      exact hcoherent.congr rfl rfl rfl
    cases hoffered with
    | passed hpending => exact hstate hpending
    | taken _ _ _ htakes => exact htaken _ htakes hoffered'
    | grown taken _ _ htakes =>
      obtain ⟨state, heq, -⟩ := taken.markClean_eq
      rw [heq] at hoffered'
      exact htaken _ htakes (hoffered'.congr rfl rfl rfl)
    | lost => exact hstate' rfl
  · exact ((h.ingestOne hsorted hregular hw (fun item₀ hid₀ _ _ => by
      rw [hid] at hid₀
      cases hid₀
      exact hstray) expireBefore w.item item' hid').resolve_left fun h => hstate' h.1).1

/-- With nobody holding an item, no record is stray. -/
theorem Vouched.noneStray (h : c.Vouched store) (hsorted : c.Sound fun _ _ _ => True)
    (hrest : ∀ id, c.pinsOf id = 0) (hregular : store.Regular) {writes : List ItemRecord}
    (hw : store.AllFresh writes) (expireBefore : Int) :
    NoneStray now expireBefore store c writes := by
  induction writes generalizing store c with
  | nil => trivial
  | cons w writes ih =>
    have hsuits : c.Suits store w := h.suits hrest
    refine ⟨hsuits, ih (h.ingestOne hsorted hregular (hw.fresh w List.mem_cons_self) hsuits
      expireBefore) (hsorted.ingestOne_sorted expireBefore w) (fun id => ?_)
      (hregular.put (hw.regular w List.mem_cons_self)) hw.tail⟩
    rw [(Holds.ingestOne expireBefore fun item hid => hsorted.sorted w.item item hid).pins, hrest,
      if_neg (by simp)]

end Cache

end HistoryCache
