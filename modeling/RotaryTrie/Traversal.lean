import RotaryTrie.Bucket.Basic

/-!
# Traversals

A traversal hands out the entries of a bucket one at a time. Between two calls it keeps a stack of
*frames*, the innermost first. A frame is the part of one node's enumeration that has not been
consumed, so the depth of the trie shows in the length of the stack and nowhere else.

## Parts

The direct parts of a bucket are what its frame starts with: a leaf has itself as its only part, a
chain its entries, a trie node its children. A child that is a leaf counts as an entry, any other
child is nested and gets a frame of its own when its turn comes.

## Termination

One turn of the loop drops an exhausted frame, opens a nested bucket or hands out an entry. The
*effort* of a stack is the number of turns that would consume it; every turn leaves less of it.
-/

set_option autoImplicit false

namespace RotaryTrie

/-- A direct part of a bucket. -/
inductive Part (K V : Type) where
  /-- An entry. -/
  | entry (leaf : Leaf K V)
  /-- A chain or trie node, which has parts of its own. -/
  | nested (bucket : Bucket K V)
deriving Repr

namespace Bucket

variable {K V : Type}

/-- A child as a part of its parent. -/
def toPart : Bucket K V → Part K V
  | .leaf entry => .entry entry
  | .chain stamp hash entries => .nested (.chain stamp hash entries)
  | .trie stamp rotation occupancy count children =>
    .nested (.trie stamp rotation occupancy count children)

/-- The direct parts of a bucket, in order. -/
def parts : Bucket K V → List (Part K V)
  | .leaf entry => [.entry entry]
  | .chain _ _ entries => entries.map .entry
  | .trie _ _ _ _ children => children.map toPart

mutual

/-- A bound on the number of turns that consume the frame of a bucket. -/
def effort : Bucket K V → Nat
  | .leaf _ => 2
  | .chain _ _ entries => entries.length + 1
  | .trie _ _ _ _ children => effortAll children + 1

/-- A bound on the number of turns that consume a list of children. -/
def effortAll : List (Bucket K V) → Nat
  | [] => 0
  | child :: children => child.effort + 1 + effortAll children

end

end Bucket

/-- The number of turns that consume a part. -/
def Part.effort {K V : Type} : Part K V → Nat
  | .entry _ => 1
  | .nested bucket => bucket.effort + 1

/-- What is left to enumerate, innermost frame first. -/
abbrev Frames (K V : Type) := List (List (Part K V))

namespace Frames

variable {K V : Type}

/-- The number of turns that consume a frame and then drop it. -/
def frameEffort : List (Part K V) → Nat
  | [] => 1
  | part :: parts => part.effort + frameEffort parts

/-- The number of turns that consume a stack. -/
def effort : Frames K V → Nat
  | [] => 0
  | parts :: frames => frameEffort parts + effort frames

/-- What one turn of the loop does. -/
inductive Turn (K V : Type) where
  /-- The stack is empty. -/
  | done
  /-- A frame was dropped or opened. -/
  | moved (frames : Frames K V)
  /-- An entry was handed out. -/
  | yielded (leaf : Leaf K V) (frames : Frames K V)

/-- One turn of the loop. -/
def turn : Frames K V → Turn K V
  | [] => .done
  | [] :: frames => .moved frames
  | (.entry leaf :: parts) :: frames => .yielded leaf (parts :: frames)
  | (.nested bucket :: parts) :: frames => .moved (bucket.parts :: parts :: frames)

private theorem effort_toPart_le (child : Bucket K V) :
    child.toPart.effort ≤ child.effort + 1 := by
  cases child with
  | leaf => exact Nat.le_add_left 1 2
  | chain => exact Nat.le_refl _
  | trie => exact Nat.le_refl _

private theorem frameEffort_map_toPart_le (children : List (Bucket K V)) :
    frameEffort (children.map Bucket.toPart) ≤ Bucket.effortAll children + 1 := by
  induction children with
  | nil => exact Nat.le_refl _
  | cons child children ih =>
    have hchild := effort_toPart_le child
    rw [List.map_cons, frameEffort, Bucket.effortAll]
    omega

private theorem frameEffort_map_entry (entries : List (Leaf K V)) :
    frameEffort (entries.map Part.entry) = entries.length + 1 := by
  induction entries with
  | nil => rfl
  | cons entry entries ih =>
    rw [List.map_cons, frameEffort, ih]
    exact Nat.add_comm 1 (entries.length + 1)

/-- Opening a bucket costs no more than its effort. -/
theorem frameEffort_parts_le (bucket : Bucket K V) : frameEffort bucket.parts ≤ bucket.effort := by
  cases bucket with
  | leaf entry => exact Nat.le_refl 2
  | chain stamp hash entries => exact Nat.le_of_eq (frameEffort_map_entry entries)
  | trie stamp rotation occupancy count children => exact frameEffort_map_toPart_le children

/-- A turn that hands nothing out leaves less to do. -/
theorem effort_lt_of_turn_eq_moved {frames rest : Frames K V} (h : turn frames = .moved rest) :
    effort rest < effort frames := by
  match frames, h with
  | [] :: frames, rfl => exact Nat.lt_add_of_pos_left Nat.one_pos
  | (.nested bucket :: parts) :: frames, rfl =>
    have hopen := frameEffort_parts_le bucket
    rw [effort, effort, effort, frameEffort, Part.effort]
    omega

/-- Turns the loop until an entry is handed out or the stack is empty. -/
def advance (frames : Frames K V) : Option (Leaf K V × Frames K V) :=
  match h : turn frames with
  | .done => none
  | .yielded leaf rest => some (leaf, rest)
  | .moved rest =>
    have : effort rest < effort frames := effort_lt_of_turn_eq_moved h
    advance rest
termination_by effort frames

end Frames

/-- An enumeration under way. -/
structure Traversal (K V : Type) where
  /-- What is left to enumerate. -/
  frames : Frames K V
  /-- How many entries are left. -/
  remaining : Nat

namespace Traversal

variable {K V : Type}

/-- The traversal of a bucket, or of nothing. -/
def start : Option (Bucket K V) → Traversal K V
  | none => ⟨[], 0⟩
  | some bucket => ⟨[bucket.parts], bucket.count⟩

/-- Hands out the next entry. Once there is none left, there never is again. -/
def next (t : Traversal K V) : Option (Leaf K V) × Traversal K V :=
  match t.frames.advance with
  | none => (none, { t with frames := [] })
  | some (leaf, frames) => (some leaf, ⟨frames, t.remaining - 1⟩)

/-- Calls `next` a number of times. -/
def take : Nat → Traversal K V → List (Option (Leaf K V)) × Traversal K V
  | 0, t => ([], t)
  | calls + 1, t =>
    let (leaf, rest) := t.next
    let (leaves, last) := take calls rest
    (leaf :: leaves, last)

/-- The least and the greatest number of entries that can still come. -/
def sizeHint (t : Traversal K V) : Nat × Option Nat := (t.remaining, some t.remaining)

end Traversal

/-- An enumeration that hands out a view of every entry, such as its key. -/
structure ViewTraversal (K V α : Type) where
  /-- What is handed out of an entry. -/
  view : Leaf K V → α
  /-- The traversal of the entries. -/
  leaves : Traversal K V

namespace ViewTraversal

variable {K V α : Type}

/-- Hands out the view of the next entry. -/
def next (t : ViewTraversal K V α) : Option α × ViewTraversal K V α :=
  let (leaf, rest) := t.leaves.next
  (leaf.map t.view, { t with leaves := rest })

/-- The least and the greatest number of views that can still come. -/
def sizeHint (t : ViewTraversal K V α) : Nat × Option Nat := t.leaves.sizeHint

end ViewTraversal

end RotaryTrie
