/-!
# Arenas

Values in a row, from the tail to the head.  A value has a place, an index that it keeps until it is
taken out, and knows the places of its neighbours.  Places that were given up are taken again.
-/

namespace HistoryCache

/-- A value in an arena, with the places next to it on the way to the tail and to the head. -/
structure Node (α : Type) where
  prev : Option Nat
  next : Option Nat
  value : α
  deriving DecidableEq, Inhabited

structure Arena (α : Type) where
  nodes : Array (Option (Node α)) := #[]
  /-- The places that were given up, the last one first. -/
  free : List Nat := []
  head : Option Nat := none
  tail : Option Nat := none
  /-- The number of values. -/
  count : Nat := 0
  deriving DecidableEq, Inhabited

/-- Goes on from `b` step by step, over not more than `n` stations. -/
def follow {β : Type} (step : β → Option β) : (n : Nat) → (b : Option β) → List β
  | 0, _ => []
  | _ + 1, none => []
  | n + 1, some b => b :: follow step n (step b)

namespace Arena

variable {α : Type}

def node? (a : Arena α) (i : Nat) : Option (Node α) := a.nodes[i]?.join

/-- The value at a place. -/
def get? (a : Arena α) (i : Nat) : Option α := (a.node? i).map Node.value

/-- The place after one, towards the head. -/
def next? (a : Arena α) (i : Nat) : Option Nat := (a.node? i).bind Node.next

/-- The place before one, towards the tail. -/
def prev? (a : Arena α) (i : Nat) : Option Nat := (a.node? i).bind Node.prev

/-- The places from the tail to the head. -/
def forth (a : Arena α) : List Nat := follow a.next? a.count a.tail

/-- The places from the head to the tail. -/
def back (a : Arena α) : List Nat := follow a.prev? a.count a.head

def updateNode (a : Arena α) (i : Nat) (f : Node α → Node α) : Arena α :=
  { a with nodes := a.nodes.modify i (Option.map f) }

/-- Changes the value at a place. -/
def modify (a : Arena α) (i : Nat) (f : α → α) : Arena α :=
  a.updateNode i fun n => { n with value := f n.value }

/-- Lets `j` follow on a place; with no place before it, `j` is the tail. -/
def setNext (a : Arena α) (i j : Option Nat) : Arena α :=
  match i with
  | some i => a.updateNode i fun n => { n with next := j }
  | none => { a with tail := j }

/-- Lets `j` precede a place; with no place after it, `j` is the head. -/
def setPrev (a : Arena α) (i j : Option Nat) : Arena α :=
  match i with
  | some i => a.updateNode i fun n => { n with prev := j }
  | none => { a with head := j }

/-- A place to put something, and the arena with that place no longer free. -/
def vacant (a : Arena α) : Nat × Arena α :=
  match a.free with
  | i :: free => (i, { a with free := free })
  | [] => (a.nodes.size, { a with nodes := a.nodes.push none })

/-- Takes a place into use. -/
def occupy (a : Arena α) (i : Nat) (n : Node α) : Arena α :=
  { a with nodes := a.nodes.setIfInBounds i (some n), count := a.count + 1 }

/-- Gives up a place.  With the last value all places are forgotten. -/
def vacate (a : Arena α) (i : Nat) : Arena α :=
  if a.count - 1 = 0 then { a with nodes := #[], free := [], count := 0 }
  else
    { a with
      nodes := a.nodes.setIfInBounds i none
      free := i :: a.free
      count := a.count - 1 }

/-- Puts a value before a place, or at the head. -/
def link (a : Arena α) (x : α) (before : Option Nat) : Nat × Arena α :=
  let prev := before.elim a.head a.prev?
  let (i, a) := a.vacant
  (i, ((a.setNext prev (some i)).setPrev before (some i)).occupy i ⟨prev, before, x⟩)

/-- Takes out the value at a place. -/
def unlink (a : Arena α) (i : Nat) : Option (α × Arena α) :=
  (a.node? i).map fun n =>
    (n.value, ((a.setNext n.prev n.next).setPrev n.next n.prev).vacate i)

/-- All values, by their places. -/
def values (a : Arena α) : List α := a.nodes.toList.filterMap fun n => n.map Node.value

end Arena

end HistoryCache
