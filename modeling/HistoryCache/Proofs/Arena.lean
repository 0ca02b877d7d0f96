import HistoryCache.Arena
import Mathlib.Data.List.Induction
import Mathlib.Data.List.Nodup
import Mathlib.Data.List.Perm.Basic

/-!
# Arenas in order

`Arena.Linked a is`: the places `is`, from the tail to the head, are all that is in use, and their
links say so in both directions.  Putting a value in (`Linked.link`) and taking one out
(`Linked.unlink`) at any place keep an arena in this order.

The links are looked at in segments (`Arena.Segment a p is n`), rows of places between a place `p`
before them and a place `n` after them.  A segment falls apart where one likes (`segment_append`),
and a change of one link is a change at the end of a segment.
-/

namespace HistoryCache

/-- `l` is what lies on the way from `b`, to a last station that leads nowhere. -/
def Visits {β : Type} (step : β → Option β) : Option β → List β → Prop
  | b, [] => b = none
  | b, c :: l => b = some c ∧ Visits step (step c) l

theorem follow_eq_of_visits {β : Type} {step : β → Option β} :
    ∀ {l : List β} {b : Option β} {n : Nat}, Visits step b l → l.length ≤ n →
      follow step n b = l := by
  intro l
  induction l with
  | nil =>
    intro b n h _
    rw [show b = none from h]
    cases n <;> rfl
  | cons c l ih =>
    intro b n h hn
    obtain ⟨rfl, h⟩ := h
    cases n with
    | zero => simp at hn
    | succ n => rw [follow, ih h (by simpa using hn)]

theorem visits_append {β : Type} {step : β → Option β} :
    ∀ {l : List β} {b c : Option β} {m : List β}, Visits step b (l ++ m) →
      c = (l.getLast?.elim b step) → Visits step c m := by
  intro l
  induction l with
  | nil => intro b c m h hc; rw [hc]; exact h
  | cons d l ih =>
    intro b c m h hc
    refine ih h.2 ?_
    rw [hc]
    cases l <;> rfl

theorem Visits.eq_head? {β : Type} {step : β → Option β} {l : List β} {b : Option β}
    (h : Visits step b l) : b = l.head? := by
  cases l with
  | nil => exact h
  | cons c l => exact h.1

/-- A step from a station leads to the next one. -/
theorem Visits.step_eq {β : Type} {step : β → Option β} {js ks : List β} {i : β} {b : Option β}
    (h : Visits step b (js ++ i :: ks)) : step i = ks.head? := by
  rw [List.append_cons] at h
  have hrest := visits_append h rfl
  rw [List.getLast?_append, List.getLast?_singleton, Option.some_or, Option.elim_some] at hrest
  exact hrest.eq_head?

theorem filterMap_eq_range {β γ : Type} (f : β → Option γ) (l : List β) :
    l.filterMap f = (List.range l.length).filterMap fun i => l[i]?.bind f := by
  induction l with
  | nil => rfl
  | cons b l ih =>
    rw [List.length_cons, List.range_succ_eq_map, List.filterMap_cons, List.filterMap_cons,
      List.filterMap_map, ih]
    rfl

namespace Arena

variable {α : Type}

/-! ## Single places -/

theorem node?_updateNode (a : Arena α) (i j : Nat) (f : Node α → Node α) :
    (a.updateNode i f).node? j = if i = j then (a.node? j).map f else a.node? j := by
  simp only [node?, updateNode, Array.getElem?_modify]
  split
  · cases a.nodes[j]? with
    | none => rfl
    | some n => cases n <;> rfl
  · rfl

theorem lt_size_of_node? {a : Arena α} {i : Nat} {n : Node α} (h : a.node? i = some n) :
    i < a.nodes.size := by
  by_cases hi : i < a.nodes.size
  · exact hi
  · simp [node?, Array.getElem?_eq_none (Nat.le_of_not_lt hi)] at h

theorem node?_occupy {a : Arena α} {i : Nat} (h : i < a.nodes.size) (n : Node α) (k : Nat) :
    (a.occupy i n).node? k = if i = k then some n else a.node? k := by
  simp only [node?, occupy, Array.getElem?_setIfInBounds]
  split
  · next hik => subst hik; simp_all
  · rfl

theorem node?_vacate {a : Arena α} (i : Nat) (h : a.count - 1 ≠ 0) (k : Nat) :
    (a.vacate i).node? k = if i = k then none else a.node? k := by
  rw [vacate, if_neg h]
  simp only [node?, Array.getElem?_setIfInBounds]
  split
  · split <;> rfl
  · rfl

theorem node?_setNext (a : Arena α) (i j : Option Nat) (k : Nat) :
    (a.setNext i j).node? k =
      if i = some k then (a.node? k).map fun n => { n with next := j } else a.node? k := by
  cases i with
  | none => simp [setNext, node?]
  | some i => simp [setNext, node?_updateNode]

theorem node?_setPrev (a : Arena α) (i j : Option Nat) (k : Nat) :
    (a.setPrev i j).node? k =
      if i = some k then (a.node? k).map fun n => { n with prev := j } else a.node? k := by
  cases i with
  | none => simp [setPrev, node?]
  | some i => simp [setPrev, node?_updateNode]

@[simp] theorem size_setNext (a : Arena α) (i j : Option Nat) :
    (a.setNext i j).nodes.size = a.nodes.size := by
  cases i <;> simp [setNext, updateNode]

@[simp] theorem size_setPrev (a : Arena α) (i j : Option Nat) :
    (a.setPrev i j).nodes.size = a.nodes.size := by
  cases i <;> simp [setPrev, updateNode]

@[simp] theorem free_setNext (a : Arena α) (i j : Option Nat) :
    (a.setNext i j).free = a.free := by cases i <;> rfl

@[simp] theorem free_setPrev (a : Arena α) (i j : Option Nat) :
    (a.setPrev i j).free = a.free := by cases i <;> rfl

@[simp] theorem count_setNext (a : Arena α) (i j : Option Nat) :
    (a.setNext i j).count = a.count := by cases i <;> rfl

@[simp] theorem count_setPrev (a : Arena α) (i j : Option Nat) :
    (a.setPrev i j).count = a.count := by cases i <;> rfl

theorem tail_setNext (a : Arena α) (i j : Option Nat) :
    (a.setNext i j).tail = i.elim j fun _ => a.tail := by cases i <;> rfl

@[simp] theorem tail_setPrev (a : Arena α) (i j : Option Nat) :
    (a.setPrev i j).tail = a.tail := by cases i <;> rfl

@[simp] theorem head_setNext (a : Arena α) (i j : Option Nat) :
    (a.setNext i j).head = a.head := by cases i <;> rfl

theorem head_setPrev (a : Arena α) (i j : Option Nat) :
    (a.setPrev i j).head = i.elim j fun _ => a.head := by cases i <;> rfl

theorem isSome_get? (a : Arena α) (i : Nat) : (a.get? i).isSome = (a.node? i).isSome := by
  simp [get?]

@[simp] theorem get?_setNext (a : Arena α) (i j : Option Nat) (k : Nat) :
    (a.setNext i j).get? k = a.get? k := by
  simp only [get?, node?_setNext]
  split
  · cases a.node? k <;> rfl
  · rfl

@[simp] theorem get?_setPrev (a : Arena α) (i j : Option Nat) (k : Nat) :
    (a.setPrev i j).get? k = a.get? k := by
  simp only [get?, node?_setPrev]
  split
  · cases a.node? k <;> rfl
  · rfl

theorem get?_modify (a : Arena α) (i j : Nat) (f : α → α) :
    (a.modify i f).get? j = if i = j then (a.get? j).map f else a.get? j := by
  simp only [get?, modify, node?_updateNode]
  split
  · cases a.node? j <;> rfl
  · rfl

/-! ## Segments -/

/-- The places `is` follow each other, the first after `p` and the last before `n`. -/
def Segment (a : Arena α) : (p : Option Nat) → (is : List Nat) → (n : Option Nat) → Prop
  | _, [], _ => True
  | p, i :: is, n => (∃ x, a.node? i = some ⟨p, is.head?.or n, x⟩) ∧ a.Segment (some i) is n

theorem segment_append {a : Arena α} {is js : List Nat} {n : Option Nat} :
    ∀ {p : Option Nat}, a.Segment p (is ++ js) n ↔
      a.Segment p is (js.head?.or n) ∧ a.Segment (is.getLast?.or p) js n := by
  induction is with
  | nil => intro p; simp [Segment]
  | cons i is ih =>
    intro p
    have hhead : (is ++ js).head?.or n = is.head?.or (js.head?.or n) := by
      cases is <;> simp
    have hlast : (i :: is).getLast?.or p = is.getLast?.or (some i) := by
      cases h : is.getLast? with
      | none => simp [List.getLast?_eq_none_iff.1 h]
      | some j => simp [List.getLast?_cons, h]
    rw [List.cons_append, Segment, Segment, ih, hhead, hlast, and_assoc]

theorem segment_congr {a b : Arena α} {is : List Nat} {n : Option Nat} :
    ∀ {p : Option Nat}, (∀ i ∈ is, a.node? i = b.node? i) → a.Segment p is n →
      b.Segment p is n := by
  induction is with
  | nil => intro _ _ _; exact trivial
  | cons i is ih =>
    intro p h hs
    obtain ⟨⟨x, hx⟩, hs⟩ := hs
    refine ⟨⟨x, ?_⟩, ih (fun j hj => h j (List.mem_cons_of_mem i hj)) hs⟩
    rw [← h i List.mem_cons_self, hx]

/-- The last place of a segment is given another place to lead to. -/
theorem Segment.setNext {a : Arena α} {p n m : Option Nat} {is : List Nat} (hd : is.Nodup)
    (h : a.Segment p is n) : (a.setNext is.getLast? m).Segment p is m := by
  rcases List.eq_nil_or_concat is with rfl | ⟨js, j, rfl⟩
  · exact trivial
  · rw [List.concat_eq_append] at *
    rw [segment_append] at h ⊢
    have hj : j ∉ js := fun hj => (List.nodup_append.1 hd).2.2 j hj j List.mem_cons_self rfl
    refine ⟨segment_congr (fun i hi => ?_) h.1, ?_, trivial⟩
    · rw [node?_setNext, if_neg]
      simp only [List.getLast?_append, List.getLast?_singleton, Option.some_or]
      rintro ⟨⟩
      exact hj hi
    · obtain ⟨⟨x, hx⟩, -⟩ := h.2
      exact ⟨x, by simp [node?_setNext, hx]⟩

/-- The first place of a segment is given another place to come from. -/
theorem Segment.setPrev {a : Arena α} {p q n : Option Nat} {is : List Nat} (hd : is.Nodup)
    (h : a.Segment p is n) : (a.setPrev is.head? q).Segment q is n := by
  cases is with
  | nil => exact trivial
  | cons i is =>
    obtain ⟨⟨x, hx⟩, h⟩ := h
    refine ⟨⟨x, by simp [node?_setPrev, hx]⟩, segment_congr (fun j hj => ?_) h⟩
    rw [node?_setPrev, if_neg]
    rintro ⟨⟩
    exact (List.nodup_cons.1 hd).1 hj

/-- New links at the border of two segments leave both in order. -/
theorem Segment.relink {a : Arena α} {p n q m : Option Nat} {is js : List Nat}
    (hd : (is ++ js).Nodup) (hi : a.Segment p is n) (hj : a.Segment q js m) (r l : Option Nat) :
    ((a.setNext is.getLast? r).setPrev js.head? l).Segment p is r ∧
      ((a.setNext is.getLast? r).setPrev js.head? l).Segment l js m := by
  obtain ⟨hdi, hdj, hne⟩ := List.nodup_append.1 hd
  constructor
  · refine segment_congr (fun i hi => ?_) (hi.setNext (m := r) hdi)
    rw [node?_setPrev, if_neg]
    intro h
    exact hne i hi i (List.mem_of_head? h) rfl
  · refine Segment.setPrev hdj (segment_congr (fun j hj => ?_) hj)
    rw [node?_setNext, if_neg]
    intro h
    exact hne j (List.mem_of_getLast? h) j hj rfl

theorem Segment.isSome {a : Arena α} {n : Option Nat} {is : List Nat} :
    ∀ {p : Option Nat}, a.Segment p is n → ∀ i ∈ is, (a.node? i).isSome := by
  induction is with
  | nil => intro _ _ i hi; exact absurd hi List.not_mem_nil
  | cons j is ih =>
    intro p h i hi
    obtain ⟨⟨x, hx⟩, h⟩ := h
    rcases List.mem_cons.1 hi with rfl | hi
    · simp [hx]
    · exact ih h i hi

/-- Places that know what lies next to them make a segment. -/
theorem segment_of_nodes {a : Arena α} {is : List Nat} {n : Option Nat} :
    ∀ {p : Option Nat}, (∀ js i ks, is = js ++ i :: ks →
      ∃ x, a.node? i = some ⟨js.getLast?.or p, ks.head?.or n, x⟩) → a.Segment p is n := by
  induction is with
  | nil => exact fun _ => trivial
  | cons i is ih =>
    intro p h
    refine ⟨h [] i is rfl, ih fun js j ks hs => ?_⟩
    obtain ⟨x, hx⟩ := h (i :: js) j ks (by rw [hs]; rfl)
    refine ⟨x, hx.trans ?_⟩
    cases js with
    | nil => rfl
    | cons k js => rw [List.getLast?_cons_cons, List.getLast?_cons]; rfl

theorem Segment.visits_next {a : Arena α} {is : List Nat} :
    ∀ {p : Option Nat}, a.Segment p is none → Visits a.next? is.head? is := by
  induction is with
  | nil => intro _ _; rfl
  | cons i is ih =>
    intro p h
    obtain ⟨⟨x, hx⟩, h⟩ := h
    refine ⟨rfl, ?_⟩
    have hn : a.next? i = is.head? := by simp [next?, hx]
    rw [hn]
    exact ih h

theorem Segment.visits_prev {a : Arena α} {is : List Nat} :
    ∀ {n : Option Nat}, a.Segment none is n → Visits a.prev? is.getLast? is.reverse := by
  induction is using List.reverseRecOn with
  | nil => intro _ _; rfl
  | append_singleton is i ih =>
    intro n h
    rw [segment_append] at h
    obtain ⟨h, ⟨x, hx⟩, -⟩ := h
    rw [List.reverse_append, List.getLast?_append]
    refine ⟨rfl, ?_⟩
    have hp : a.prev? i = is.getLast? := by simp [prev?, hx]
    rw [hp]
    exact ih h

/-! ## Rows -/

/-- Two rows of places: one from the tail that leads to `r`, and one to the head that comes from
`l`. -/
structure Rows (a : Arena α) (js ks : List Nat) (r l : Option Nat) : Prop where
  tail : a.tail = js.head?.or r
  head : a.head = ks.getLast?.or l
  left : a.Segment none js r
  right : a.Segment l ks none

namespace Rows

variable {a b : Arena α} {js ks : List Nat} {r l : Option Nat}

theorem congr (h : a.Rows js ks r l) (htail : b.tail = a.tail) (hhead : b.head = a.head)
    (hnode : ∀ k ∈ js ++ ks, a.node? k = b.node? k) : b.Rows js ks r l where
  tail := htail.trans h.tail
  head := hhead.trans h.head
  left := segment_congr (fun k hk => hnode k (List.mem_append_left ks hk)) h.left
  right := segment_congr (fun k hk => hnode k (List.mem_append_right js hk)) h.right

/-- New links at the border lead on to `r'` and back to `l'`. -/
theorem relink (h : a.Rows js ks r l) (hd : (js ++ ks).Nodup) (r' l' : Option Nat) :
    ((a.setNext js.getLast? r').setPrev ks.head? l').Rows js ks r' l' := by
  obtain ⟨hleft, hright⟩ := h.left.relink hd h.right r' l'
  refine ⟨?_, ?_, hleft, hright⟩
  · rw [tail_setPrev, tail_setNext, h.tail]
    cases js <;> simp [List.getLast?_cons]
  · rw [head_setPrev, head_setNext, h.head]
    cases ks <;> simp [List.getLast?_cons]

/-- With a place between them that knows both, two rows are one. -/
theorem segment_around {i : Nat} {x : α} (h : a.Rows js ks (some i) (some i))
    (hi : a.node? i = some ⟨js.getLast?, ks.head?, x⟩) :
    a.Segment none (js ++ i :: ks) none := by
  rw [segment_append]
  refine ⟨h.left, ⟨x, ?_⟩, h.right⟩
  rw [hi, Option.or_none, Option.or_none]

/-- Two rows that lead to each other are one. -/
theorem segment_append (h : a.Rows js ks ks.head? js.getLast?) : a.Segment none (js ++ ks) none := by
  rw [Arena.segment_append, Option.or_none, Option.or_none]
  exact ⟨h.left, h.right⟩

end Rows

/-! ## Order -/

/-- The places in use are `is`, from the tail to the head, the links lead along them in both
directions, and the other places are free. -/
structure Linked (a : Arena α) (is : List Nat) : Prop where
  tail : a.tail = is.head?
  head : a.head = is.getLast?
  segment : a.Segment none is none
  nodup : is.Nodup
  used : ∀ i, (a.node? i).isSome → i ∈ is
  count : a.count = is.length
  free_nodup : a.free.Nodup
  mem_free : ∀ i, i ∈ a.free ↔ i < a.nodes.size ∧ a.node? i = none

namespace Linked

variable {a : Arena α} {is : List Nat}

theorem isSome_iff (h : a.Linked is) {i : Nat} : (a.node? i).isSome ↔ i ∈ is :=
  ⟨h.used i, h.segment.isSome i⟩

theorem get?_isSome_iff (h : a.Linked is) {i : Nat} : (a.get? i).isSome ↔ i ∈ is := by
  rw [isSome_get?, h.isSome_iff]

theorem visits_forth (h : a.Linked is) : Visits a.next? a.tail is := by
  rw [h.tail]
  exact h.segment.visits_next

theorem visits_back (h : a.Linked is) : Visits a.prev? a.head is.reverse := by
  rw [h.head]
  exact h.segment.visits_prev

/-- Links that lead along the places in both directions say what lies next to each. -/
theorem of_visits (hnext : Visits a.next? a.tail is) (hprev : Visits a.prev? a.head is.reverse)
    (hnodup : is.Nodup) (hused : ∀ i, (a.node? i).isSome ↔ i ∈ is) (hcount : a.count = is.length)
    (hfree : a.free.Nodup) (hmem : ∀ i, i ∈ a.free ↔ i < a.nodes.size ∧ a.node? i = none) :
    a.Linked is where
  tail := hnext.eq_head?
  head := by rw [hprev.eq_head?, List.head?_reverse]
  segment := by
    refine segment_of_nodes fun js i ks hs => ?_
    obtain ⟨⟨prev, next, x⟩, hnode⟩ := Option.isSome_iff_exists.1 ((hused i).2 (by simp [hs]))
    rw [hs] at hnext hprev
    rw [List.reverse_append, List.reverse_cons, ← List.append_cons] at hprev
    have h1 := hnext.step_eq
    have h2 := hprev.step_eq
    rw [next?, hnode, Option.bind_some] at h1
    rw [prev?, hnode, Option.bind_some, List.head?_reverse] at h2
    exact ⟨x, by rw [hnode, Option.or_none, Option.or_none, ← h1, ← h2]⟩
  nodup := hnodup
  used i := (hused i).1
  count := hcount
  free_nodup := hfree
  mem_free := hmem

theorem forth_eq (h : a.Linked is) : a.forth = is :=
  follow_eq_of_visits h.visits_forth (Nat.le_of_eq h.count.symm)

theorem back_eq (h : a.Linked is) : a.back = is.reverse :=
  follow_eq_of_visits h.visits_back (Nat.le_of_eq (by rw [List.length_reverse, h.count]))

theorem empty : ({} : Arena α).Linked [] where
  tail := rfl
  head := rfl
  segment := trivial
  nodup := List.nodup_nil
  used i h := by simp [node?] at h
  count := rfl
  free_nodup := List.nodup_nil
  mem_free i := by simp

/-- Where a place lies, its links tell what lies next to it. -/
theorem node?_eq (h : a.Linked is) {js ks : List Nat} {i : Nat} (hs : is = js ++ i :: ks) :
    ∃ x, a.node? i = some ⟨js.getLast?, ks.head?, x⟩ := by
  have hseg := h.segment
  rw [hs, segment_append] at hseg
  obtain ⟨x, hx⟩ := hseg.2.1
  exact ⟨x, by simpa using hx⟩

theorem prev?_eq (h : a.Linked is) {js ks : List Nat} {i : Nat} (hs : is = js ++ i :: ks) :
    a.prev? i = js.getLast? := by
  obtain ⟨x, hx⟩ := h.node?_eq hs
  simp [prev?, hx]

theorem next?_eq (h : a.Linked is) {js ks : List Nat} {i : Nat} (hs : is = js ++ i :: ks) :
    a.next? i = ks.head? := by
  obtain ⟨x, hx⟩ := h.node?_eq hs
  simp [next?, hx]

/-- A change of a value is of no concern to the links. -/
theorem modify (h : a.Linked is) (i : Nat) (f : α → α) : (a.modify i f).Linked is where
  tail := h.tail
  head := h.head
  segment := by
    have key : ∀ (js : List Nat) (p n : Option Nat), a.Segment p js n →
        (a.modify i f).Segment p js n := by
      intro js
      induction js with
      | nil => intro _ _ _; exact trivial
      | cons j js ih =>
        intro p n hs
        obtain ⟨⟨x, hx⟩, hs⟩ := hs
        refine ⟨?_, ih _ _ hs⟩
        by_cases hij : i = j
        · exact ⟨f x, by simp [Arena.modify, node?_updateNode, hij, hx]⟩
        · exact ⟨x, by simp [Arena.modify, node?_updateNode, hij, hx]⟩
    exact key is none none h.segment
  nodup := h.nodup
  used j hj := by
    refine h.used j ?_
    rw [← isSome_get?] at hj ⊢
    rw [get?_modify] at hj
    split at hj
    · simpa using hj
    · exact hj
  count := h.count
  free_nodup := h.free_nodup
  mem_free j := by
    have hsize : (a.modify i f).nodes.size = a.nodes.size := by
      simp [Arena.modify, updateNode]
    have hnode : (a.modify i f).node? j = none ↔ a.node? j = none := by
      rw [Arena.modify, node?_updateNode]
      split <;> simp
    rw [hsize, hnode]
    exact h.mem_free j

/-! ## Putting in -/

/-- The place that is vacant was not in use, and is not free any more. -/
theorem vacant (h : a.Linked is) :
    a.vacant.1 ∉ is ∧ a.vacant.1 < a.vacant.2.nodes.size ∧
      (∀ k, a.vacant.2.node? k = a.node? k) ∧ a.vacant.2.free.Nodup ∧
      (∀ k, k ∈ a.vacant.2.free ↔
        k < a.vacant.2.nodes.size ∧ a.node? k = none ∧ k ≠ a.vacant.1) := by
  have hfree := h.free_nodup
  have hmem := h.mem_free
  rw [Arena.vacant]
  split
  · next i free heq =>
    rw [heq] at hfree hmem
    obtain ⟨hlt, hnone⟩ := (hmem i).1 List.mem_cons_self
    refine ⟨fun hi => ?_, hlt, fun _ => rfl, hfree.of_cons, fun k => ?_⟩
    · have := h.segment.isSome i hi
      simp [hnone] at this
    · constructor
      · intro hk
        obtain ⟨h1, h2⟩ := (hmem k).1 (List.mem_cons_of_mem i hk)
        refine ⟨h1, h2, fun he => (List.nodup_cons.1 hfree).1 ?_⟩
        rwa [show k = i from he] at hk
      · rintro ⟨h1, h2, hne⟩
        exact (List.mem_cons.1 ((hmem k).2 ⟨h1, h2⟩)).resolve_left hne
  · next heq =>
    rw [heq] at hmem
    have hnode : ∀ k, ({ a with nodes := a.nodes.push none } : Arena α).node? k = a.node? k := by
      intro k
      simp only [node?, Array.getElem?_push]
      split
      · next hk => simp [hk]
      · rfl
    refine ⟨fun hi => ?_, by simp, hnode, by simp [heq], fun k => ?_⟩
    · obtain ⟨n, hn⟩ := Option.isSome_iff_exists.1 (h.segment.isSome _ hi)
      exact absurd (lt_size_of_node? hn) (Nat.lt_irrefl _)
    · simp only [heq, Array.size_push]
      constructor
      · intro hk
        exact absurd hk List.not_mem_nil
      · rintro ⟨h1, h2, hne⟩
        exact (hmem k).2 ⟨by omega, h2⟩

variable {js ks : List Nat}

theorem link_eq (h : a.Linked (js ++ ks)) (x : α) :
    a.link x ks.head? = (a.vacant.1,
      ((a.vacant.2.setNext js.getLast? (some a.vacant.1)).setPrev ks.head?
        (some a.vacant.1)).occupy a.vacant.1 ⟨js.getLast?, ks.head?, x⟩) := by
  have hprev : ks.head?.elim a.head a.prev? = js.getLast? := by
    cases ks with
    | nil => simpa using h.head
    | cons k ks => exact h.prev?_eq rfl
  rw [Arena.link, hprev]

theorem rows (h : a.Linked (js ++ ks)) : a.Rows js ks ks.head? js.getLast? := by
  have hseg := segment_append.1 h.segment
  rw [Option.or_none, Option.or_none] at hseg
  refine ⟨?_, ?_, hseg.1, hseg.2⟩
  · rw [h.tail, List.head?_append]
  · rw [h.head, List.getLast?_append]

theorem rows_around {i : Nat} (h : a.Linked (js ++ i :: ks)) : a.Rows js ks (some i) (some i) := by
  have hseg := segment_append.1 h.segment
  refine ⟨?_, ?_, hseg.1, hseg.2.2⟩
  · rw [h.tail, List.head?_append]
    rfl
  · rw [h.head, List.getLast?_append, List.getLast?_cons]
    cases ks.getLast? <;> rfl

/-- A place that is taken into use between two rows joins them. -/
theorem occupy {i : Nat} (h : a.Rows js ks (some i) (some i)) (hd : (js ++ ks).Nodup)
    (hi : i ∉ js ++ ks) (hlt : i < a.nodes.size) (hused : ∀ k, (a.node? k).isSome → k ∈ js ++ ks)
    (hcount : a.count = (js ++ ks).length) (hfree : a.free.Nodup)
    (hmem : ∀ k, k ∈ a.free ↔ k < a.nodes.size ∧ a.node? k = none ∧ k ≠ i) (x : α) :
    (a.occupy i ⟨js.getLast?, ks.head?, x⟩).Linked (js ++ i :: ks) := by
  have hnode := node?_occupy hlt ⟨js.getLast?, ks.head?, x⟩
  have hrows : (a.occupy i ⟨js.getLast?, ks.head?, x⟩).Rows js ks (some i) (some i) := by
    refine h.congr rfl rfl fun k hk => ?_
    rw [hnode k, if_neg]
    rintro rfl
    exact hi hk
  constructor
  case tail =>
    rw [hrows.tail, List.head?_append]
    rfl
  case head =>
    rw [hrows.head, List.getLast?_append, List.getLast?_cons]
    cases ks.getLast? <;> rfl
  case segment => exact hrows.segment_around (by rw [hnode i, if_pos rfl])
  case nodup => exact List.nodup_middle.2 (List.nodup_cons.2 ⟨hi, hd⟩)
  case used =>
    intro k hk
    rw [hnode k] at hk
    rw [List.mem_append, List.mem_cons]
    split at hk
    · next hik => exact Or.inr (Or.inl hik.symm)
    · rcases List.mem_append.1 (hused k hk) with hk | hk
      · exact Or.inl hk
      · exact Or.inr (Or.inr hk)
  case count =>
    show a.count + 1 = _
    rw [hcount, List.length_append, List.length_append, List.length_cons]
    omega
  case free_nodup => exact hfree
  case mem_free =>
    intro k
    have hsize : (a.occupy i ⟨js.getLast?, ks.head?, x⟩).nodes.size = a.nodes.size := by
      simp [Arena.occupy]
    show k ∈ a.free ↔ _
    rw [hmem k, hsize, hnode k]
    by_cases hik : i = k
    · simp [hik]
    · rw [if_neg hik]
      exact ⟨fun h => ⟨h.1, h.2.1⟩, fun h => ⟨h.1, h.2, fun he => hik he.symm⟩⟩

/-- **Putting a value in** between two rows of places keeps the arena in order. -/
theorem link (h : a.Linked (js ++ ks)) (x : α) :
    (a.link x ks.head?).2.Linked (js ++ (a.link x ks.head?).1 :: ks) ∧
      (a.link x ks.head?).1 ∉ js ++ ks ∧
      ∀ k, (a.link x ks.head?).2.get? k =
        if (a.link x ks.head?).1 = k then some x else a.get? k := by
  obtain ⟨hnew, hlt, hnode, hfree, hmem⟩ := h.vacant
  have hfields : a.vacant.2.head = a.head ∧ a.vacant.2.tail = a.tail ∧
      a.vacant.2.count = a.count := by
    rw [Arena.vacant]
    split <;> exact ⟨rfl, rfl, rfl⟩
  rw [h.link_eq x]
  generalize a.vacant.1 = i at *
  generalize a.vacant.2 = b at *
  obtain ⟨hhead, htail, hcount⟩ := hfields
  have hrows := (h.rows.congr htail hhead fun k _ => (hnode k).symm).relink h.nodup (some i) (some i)
  generalize hc : (b.setNext js.getLast? (some i)).setPrev ks.head? (some i) = c at *
  have hget : ∀ k, c.get? k = a.get? k := by
    intro k
    rw [← hc, get?_setPrev, get?_setNext, Arena.get?, hnode, Arena.get?]
  have hsome : ∀ k, (c.node? k).isSome = (a.node? k).isSome := by
    intro k
    rw [← isSome_get?, hget, isSome_get?]
  have hsize : c.nodes.size = b.nodes.size := by rw [← hc, size_setPrev, size_setNext]
  have hfree' : c.free = b.free := by rw [← hc, free_setPrev, free_setNext]
  have hcount' : c.count = (js ++ ks).length := by
    rw [← hc, count_setPrev, count_setNext, hcount, h.count]
  refine ⟨occupy hrows h.nodup hnew (hsize ▸ hlt) (fun k hk => h.used k (hsome k ▸ hk)) hcount'
    (hfree' ▸ hfree) (fun k => ?_) x, hnew, fun k => ?_⟩
  · rw [hfree', hmem k, hsize, ← Option.not_isSome_iff_eq_none, ← Option.not_isSome_iff_eq_none,
      hsome]
  · rw [Arena.get?, node?_occupy (hsize ▸ hlt)]
    split
    · rfl
    · exact hget k

/-! ## Taking out -/

/-- A place that is given up between two rows leaves them joined. -/
theorem vacate {i : Nat} (h : a.Rows js ks ks.head? js.getLast?) (hd : (js ++ ks).Nodup)
    (hi : i ∉ js ++ ks) (hsome : (a.node? i).isSome)
    (hused : ∀ k, (a.node? k).isSome → k ∈ js ++ i :: ks)
    (hcount : a.count = (js ++ ks).length + 1) (hfree : a.free.Nodup)
    (hmem : ∀ k, k ∈ a.free ↔ k < a.nodes.size ∧ a.node? k = none) :
    (a.vacate i).Linked (js ++ ks) := by
  have htail : a.tail = (js ++ ks).head? := by rw [h.tail, List.head?_append]
  have hhead : a.head = (js ++ ks).getLast? := by rw [h.head, List.getLast?_append]
  by_cases hlast : a.count - 1 = 0
  · -- with the last value all places are forgotten
    have hnil : js ++ ks = [] := List.length_eq_zero_iff.1 (by omega)
    rw [Arena.vacate, if_pos hlast]
    rw [hnil] at htail hhead ⊢
    refine ⟨htail, hhead, trivial, List.nodup_nil, fun k hk => ?_, rfl, List.nodup_nil,
      fun k => by simp⟩
    simp [node?] at hk
  · have hnode := node?_vacate i hlast
    have hvacate : a.vacate i = { a with
        nodes := a.nodes.setIfInBounds i none, free := i :: a.free, count := a.count - 1 } := by
      rw [Arena.vacate, if_neg hlast]
    have hrows : (a.vacate i).Rows js ks ks.head? js.getLast? := by
      refine h.congr (by rw [hvacate]) (by rw [hvacate]) fun k hk => ?_
      rw [hnode k, if_neg]
      rintro rfl
      exact hi hk
    constructor
    case tail => rw [hvacate]; exact htail
    case head => rw [hvacate]; exact hhead
    case segment => exact hrows.segment_append
    case nodup => exact hd
    case used =>
      intro k hk
      rw [hnode k] at hk
      split at hk
      · simp at hk
      · next hne =>
        have hk' := hused k hk
        rw [List.mem_append, List.mem_cons] at hk'
        rw [List.mem_append]
        exact hk'.imp_right fun hk' => hk'.resolve_left fun he => hne he.symm
    case count =>
      rw [hvacate]
      show a.count - 1 = _
      omega
    case free_nodup =>
      rw [hvacate]
      refine List.nodup_cons.2 ⟨fun hin => ?_, hfree⟩
      simp [((hmem i).1 hin).2] at hsome
    case mem_free =>
      intro k
      have hsize : (a.vacate i).nodes.size = a.nodes.size := by simp [hvacate]
      have hcons : (a.vacate i).free = i :: a.free := by rw [hvacate]
      rw [hcons, hsize, hnode k, List.mem_cons, hmem k]
      by_cases hik : i = k
      · subst hik
        obtain ⟨n, hn⟩ := Option.isSome_iff_exists.1 hsome
        simp [lt_size_of_node? hn]
      · rw [if_neg hik]
        exact ⟨fun h => h.resolve_left fun he => hik he.symm, Or.inr⟩

/-- **Taking a value out** from between two rows of places keeps the arena in order. -/
theorem unlink {i : Nat} {x : α} (h : a.Linked (js ++ i :: ks)) (hx : a.get? i = some x) :
    ∃ b, a.unlink i = some (x, b) ∧ b.Linked (js ++ ks) ∧
      ∀ k, b.get? k = if i = k then none else a.get? k := by
  obtain ⟨y, hy⟩ := h.node?_eq rfl
  have hxy : y = x := by simpa [get?, hy] using hx
  subst hxy
  refine ⟨_, by rw [Arena.unlink, hy]; rfl, ?_⟩
  obtain ⟨hi, hd⟩ := List.nodup_cons.1 (List.nodup_middle.1 h.nodup)
  have hrows := h.rows_around.relink hd ks.head? js.getLast?
  generalize hc : (a.setNext js.getLast? ks.head?).setPrev ks.head? js.getLast? = c at *
  have hget : ∀ k, c.get? k = a.get? k := fun k => by rw [← hc, get?_setPrev, get?_setNext]
  have hsome : ∀ k, (c.node? k).isSome = (a.node? k).isSome := by
    intro k
    rw [← isSome_get?, hget, isSome_get?]
  have hcount : c.count = (js ++ ks).length + 1 := by
    rw [← hc, count_setPrev, count_setNext, h.count]
    simp only [List.length_append, List.length_cons]
    omega
  have hfree : c.free = a.free := by rw [← hc, free_setPrev, free_setNext]
  have hsize : c.nodes.size = a.nodes.size := by rw [← hc, size_setPrev, size_setNext]
  have hlinked : (c.vacate i).Linked (js ++ ks) := by
    refine vacate hrows hd hi (by rw [hsome, hy]; rfl) (fun k hk => h.used k (hsome k ▸ hk)) hcount
      (hfree ▸ h.free_nodup) fun k => ?_
    rw [hfree, h.mem_free k, hsize, ← Option.not_isSome_iff_eq_none,
      ← Option.not_isSome_iff_eq_none, hsome]
  refine ⟨hlinked, fun k => ?_⟩
  split
  · next hik =>
    subst hik
    exact Option.not_isSome_iff_eq_none.1 fun hk => hi (hlinked.get?_isSome_iff.1 hk)
  · next hne =>
    by_cases hlast : c.count - 1 = 0
    · -- there was no other value
      have hnil : js ++ ks = [] := List.length_eq_zero_iff.1 (by omega)
      have hnone : ¬ (a.get? k).isSome := fun hk => by
        have hk' := h.get?_isSome_iff.1 hk
        rw [(List.append_eq_nil_iff.1 hnil).1, (List.append_eq_nil_iff.1 hnil).2] at hk'
        exact hne (List.mem_singleton.1 hk').symm
      rw [Option.not_isSome_iff_eq_none.1 hnone, Arena.vacate, if_pos hlast]
      simp [get?, node?]
    · rw [get?, node?_vacate i hlast, if_neg hne]
      exact hget k

/-- Nothing is left after everything was taken out. -/
theorem values_perm (h : a.Linked is) : a.values.Perm (is.filterMap a.get?) := by
  have hvalues : a.values = (List.range a.nodes.size).filterMap a.get? := by
    rw [values, filterMap_eq_range, Array.length_toList]
    refine List.filterMap_congr fun i _ => ?_
    rw [get?, node?, Array.getElem?_toList]
    cases a.nodes[i]? <;> rfl
  have hused : is.Perm ((List.range a.nodes.size).filter fun i => (a.get? i).isSome) := by
    refine (List.perm_ext_iff_of_nodup h.nodup (List.nodup_range.filter _)).2 fun i => ?_
    rw [List.mem_filter, List.mem_range, h.get?_isSome_iff]
    refine ⟨fun hi => ⟨?_, hi⟩, fun hi => hi.2⟩
    obtain ⟨n, hn⟩ := Option.isSome_iff_exists.1 (h.isSome_iff.2 hi)
    exact lt_size_of_node? hn
  rw [hvalues]
  refine .trans (.of_eq ?_) (hused.symm.filterMap a.get?)
  rw [List.filterMap_filter]
  refine List.filterMap_congr fun i _ => ?_
  cases a.get? i <;> rfl

end Linked

end Arena

end HistoryCache
