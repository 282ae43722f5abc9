import Mathlib.Data.List.ReduceOption
import RotaryTrie.Proofs.Depth
import RotaryTrie.Proofs.Guards

/-!
# What an enumeration has left

The stack of a traversal stands for the entries that are still to come: those of its parts, the
innermost frame first. To drop an exhausted frame or to open a nested bucket does not change them,
and to hand out an entry takes the first one away. A traversal is *balanced* if the number it keeps
is the number of these entries. It is so at the start, where the number is read off the top node of
a sound bucket, and stays so with every call.

A guarded traversal takes one off the number only as long as there is one. Balance is what makes
that always possible: whenever an entry is handed out, it has been counted.
-/

set_option autoImplicit false

namespace RotaryTrie

variable {K V : Type}

/-- The entries of a part. -/
def Part.leaves : Part K V → List (Leaf K V)
  | .entry leaf => [leaf]
  | .nested bucket => bucket.leaves

namespace Bucket

private theorem leaves_toPart (child : Bucket K V) : child.toPart.leaves = child.leaves := by
  cases child <;> rfl

theorem flatMap_leaves_parts (bucket : Bucket K V) :
    bucket.parts.flatMap Part.leaves = bucket.leaves := by
  cases bucket with
  | leaf => rfl
  | chain =>
    rw [parts, List.flatMap_map]
    exact List.flatMap_singleton' _
  | trie _ _ _ _ children =>
    rw [parts, List.flatMap_map, leaves, leavesAll_eq_flatMap]
    exact List.flatMap_congr fun child _ ↦ leaves_toPart child

end Bucket

namespace Frames

/-- The entries that a stack still has to hand out. -/
def pending (frames : Frames K V) : List (Leaf K V) := frames.flatten.flatMap Part.leaves

variable {frames rest : Frames K V} {leaf : Leaf K V}

theorem pending_cons (parts : List (Part K V)) (frames : Frames K V) :
    pending (parts :: frames) = parts.flatMap Part.leaves ++ frames.pending := by
  rw [pending, List.flatten_cons, List.flatMap_append]
  rfl

theorem pending_of_turn_eq_moved (h : turn frames = .moved rest) :
    rest.pending = frames.pending := by
  match frames, h with
  | [] :: _, rfl => rfl
  | (.nested bucket :: parts) :: frames, rfl =>
    rw [pending_cons, pending_cons, pending_cons, Bucket.flatMap_leaves_parts, List.flatMap_cons,
      List.append_assoc]
    rfl

theorem pending_of_turn_eq_yielded (h : turn frames = .yielded leaf rest) :
    frames.pending = leaf :: rest.pending := by
  match frames, h with
  | (.entry _ :: _) :: _, rfl => rfl

/-- The loop ends with the first of the pending entries, or because there is none. -/
theorem pending_eq_of_advance (frames : Frames K V) :
    frames.pending = frames.advance.elim [] fun handed ↦ handed.1 :: handed.2.pending := by
  fun_induction advance frames with
  | case1 frames hturn =>
    rw [eq_nil_of_turn_eq_done hturn]
    rfl
  | case2 frames leaf rest hturn => exact pending_of_turn_eq_yielded hturn
  | case3 frames rest hturn _ ih => rw [← pending_of_turn_eq_moved hturn, ih]

end Frames

namespace Traversal

/-- The number of entries left is that of the entries pending. -/
def Balanced (t : Traversal K V) : Prop := t.remaining = t.frames.pending.length

theorem balanced_start_none : (start none : Traversal K V).Balanced := rfl

theorem pending_start (bucket : Bucket K V) :
    (start (some bucket)).frames.pending = bucket.leaves := by
  rw [start, Frames.pending_cons, bucket.flatMap_leaves_parts]
  exact List.append_nil _

theorem balanced_start {bucket : Bucket K V} (h : bucket.Sound) :
    (start (some bucket)).Balanced := by
  rw [Balanced, pending_start]
  exact h.count_eq_length

variable {t : Traversal K V}

/-- What a call does: either nothing is pending, or the first pending entry is handed out. -/
theorem next_cases (t : Traversal K V) :
    (t.frames.pending = [] ∧ t.next = (none, { t with frames := [] })) ∨
      ∃ leaf frames, t.frames.pending = leaf :: frames.pending ∧
        t.next = (some leaf, ⟨frames, t.remaining - 1⟩) := by
  have hpending := t.frames.pending_eq_of_advance
  rw [next]
  cases hadvance : t.frames.advance with
  | none =>
    rw [hadvance] at hpending
    exact .inl ⟨hpending, rfl⟩
  | some handed =>
    rw [hadvance] at hpending
    exact .inr ⟨handed.1, handed.2, hpending, rfl⟩

theorem fst_next (t : Traversal K V) : t.next.1 = t.frames.pending.head? := by
  rcases t.next_cases with ⟨hpending, hnext⟩ | ⟨leaf, frames, hpending, hnext⟩
  · rw [hnext, hpending]
    rfl
  · rw [hnext, hpending]
    rfl

theorem pending_next (t : Traversal K V) : t.next.2.frames.pending = t.frames.pending.tail := by
  rcases t.next_cases with ⟨hpending, hnext⟩ | ⟨leaf, frames, hpending, hnext⟩
  · rw [hnext, hpending]
    rfl
  · rw [hnext, hpending]
    rfl

theorem Balanced.next (h : t.Balanced) : t.next.2.Balanced := by
  rw [Balanced] at h
  rw [Balanced, pending_next, List.length_tail, ← h]
  rcases t.next_cases with ⟨hpending, hnext⟩ | ⟨leaf, frames, hpending, hnext⟩
  · rw [hnext, h, hpending]
    rfl
  · rw [hnext]

/-- Calls hand out the pending entries one after the other. Those that come too late get nothing. -/
theorem fst_take (calls : ℕ) (t : Traversal K V) :
    (t.take calls).1 = (t.frames.pending.take calls).map some
      ++ List.replicate (calls - t.frames.pending.length) none := by
  induction calls generalizing t with
  | zero => simp [take]
  | succ calls ih =>
    rw [take]
    dsimp only
    rw [ih, fst_next, pending_next]
    cases t.frames.pending <;> simp [List.replicate_succ]

theorem reduceOption_fst_take {calls : ℕ} (h : t.frames.pending.length ≤ calls) :
    (t.take calls).1.reduceOption = t.frames.pending := by
  rw [fst_take, List.take_of_length_le h, List.reduceOption_append,
    List.reduceOption_replicate_none, List.append_nil, List.reduceOption, List.filterMap_map]
  exact List.filterMap_some

end Traversal

/-! ## Guarded traversals -/

namespace Guarded

/-- Hands out the next entry, and takes one off the number of those left. -/
def next (t : Traversal K V) : Except Hazard (Option (Leaf K V) × Traversal K V) :=
  match t.frames.advance with
  | none => return (none, { t with frames := [] })
  | some (leaf, frames) => do
    let remaining ← lift (deduct t.remaining 1)
    return (some leaf, ⟨frames, remaining⟩)

/-- Calls `next` a number of times. -/
def take : ℕ → Traversal K V → Except Hazard (List (Option (Leaf K V)) × Traversal K V)
  | 0, t => return ([], t)
  | calls + 1, t => do
    let (leaf, rest) ← next t
    let (leaves, last) ← take calls rest
    return (leaf :: leaves, last)

variable {t : Traversal K V}

theorem next_eq (h : t.Balanced) : next t = .ok t.next := by
  have hpending := t.frames.pending_eq_of_advance
  rw [next, Traversal.next]
  cases hadvance : t.frames.advance with
  | none => rfl
  | some handed =>
    rw [Traversal.Balanced, hpending, hadvance] at h
    have hpos : 1 ≤ t.remaining := by
      rw [h]
      exact Nat.succ_pos _
    dsimp only
    rw [deduct, if_pos hpos]
    rfl

/-- Any number of guarded calls to a balanced traversal are calls. -/
theorem take_eq (h : t.Balanced) (calls : ℕ) : take calls t = .ok (t.take calls) := by
  induction calls generalizing t with
  | zero => rfl
  | succ calls ih =>
    rw [take, next_eq h, ok_bind]
    dsimp only
    rw [ih h.next, ok_bind]
    rfl

end Guarded

end RotaryTrie
