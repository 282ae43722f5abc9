import Mathlib.Logic.Function.Iterate
import RotaryTrie.Proofs.GuardedMap
import RotaryTrie.Proofs.Sequence

/-!
# One call after another

Whoever enumerates the entries of a map, or only its keys or values, asks for one item at a time and
may stop at any point. `HandsOut` says what is seen from there, without looking at what an
enumeration keeps between two calls: each call returns the item of its own number, the calls behind
the last item return nothing, and the number of items to come is exact all along.

The items of a bucket are the entries that a recursion through it lists, and those of a map are its
entries or their views. `Map.Reachable.enumerates` says that the stack of frames leads to the same.

## How long a call takes

A call turns its loop until it finds an entry or runs out of frames. Its definition needs a proof
that the loop ends, but does not tell when. `Frames.run` is the same loop with a limit on its turns.
The effort of the stack is such a limit, no call leaves more of it than there was before, and at the
start it is at most proportional to the number of entries, because every trie node has two children.
-/

set_option autoImplicit false

namespace RotaryTrie

variable {K V α σ : Type}

/-! ## Handing out -/

/-- The state of an enumeration after a number of calls. -/
def stateAfter (next : σ → Option α × σ) (calls : ℕ) : σ → σ := (fun state ↦ (next state).2)^[calls]

theorem stateAfter_succ (next : σ → Option α × σ) (calls : ℕ) (start : σ) :
    stateAfter next (calls + 1) start = (next (stateAfter next calls start)).2 :=
  Function.iterate_succ_apply' _ calls start

/-- An enumeration hands out the items of a list, one for each call, and knows how many are left. -/
structure HandsOut (next : σ → Option α × σ) (sizeHint : σ → ℕ × Option ℕ) (start : σ)
    (items : List α) : Prop where
  /-- The call that comes after a number of others returns the item of that number. If there are no
  more items than there were calls, it returns nothing. -/
  fst_next : ∀ calls, (next (stateAfter next calls start)).1 = items[calls]?
  /-- Both bounds are the number of items that have not been returned. -/
  sizeHint_eq : ∀ calls, sizeHint (stateAfter next calls start)
    = (items.length - min calls items.length, some (items.length - min calls items.length))

/-! ## The loop -/

namespace Frames

/-- Turns the loop until an entry is handed out or the stack is empty. There is no result if that
takes more turns than the given number. -/
def run : ℕ → Frames K V → Option (Option (Leaf K V × Frames K V))
  | 0, _ => none
  | turns + 1, frames =>
    match turn frames with
    | .done => some none
    | .yielded leaf rest => some (some (leaf, rest))
    | .moved rest => run turns rest

variable {frames rest : Frames K V} {leaf : Leaf K V} {turns : ℕ}

theorem effort_lt_of_turn_eq_yielded (h : turn frames = .yielded leaf rest) :
    effort rest < effort frames := by
  match frames, h with
  | (.entry _ :: parts) :: frames, rfl =>
    simp only [effort, frameEffort, Part.effort]
    omega

theorem advance_of_turn_eq_done (h : turn frames = .done) : frames.advance = none := by
  rw [eq_nil_of_turn_eq_done h, advance]
  rfl

theorem advance_of_turn_eq_yielded (h : turn frames = .yielded leaf rest) :
    frames.advance = some (leaf, rest) := by
  rw [advance]
  split <;> simp_all

theorem advance_of_turn_eq_moved (h : turn frames = .moved rest) :
    frames.advance = rest.advance := by
  rw [advance]
  split <;> simp_all

/-- With more turns than the effort of the stack, the loop comes to its end. -/
theorem run_eq_some_advance (h : effort frames < turns) :
    run turns frames = some frames.advance := by
  induction turns generalizing frames with
  | zero => exact absurd h (Nat.not_lt_zero _)
  | succ turns ih =>
    rw [run]
    cases hturn : turn frames with
    | done => rw [advance_of_turn_eq_done hturn]
    | yielded => rw [advance_of_turn_eq_yielded hturn]
    | moved rest =>
      rw [advance_of_turn_eq_moved hturn]
      have hless := effort_lt_of_turn_eq_moved hturn
      exact ih (by omega)

/-- A loop never leaves more to do than there was. -/
theorem effort_le_of_advance (h : frames.advance = some (leaf, rest)) :
    effort rest ≤ effort frames := by
  fun_induction advance frames with
  | case1 => simp at h
  | case2 frames other left hturn =>
    obtain ⟨rfl, rfl⟩ := Prod.mk.inj (Option.some_inj.mp h)
    exact (effort_lt_of_turn_eq_yielded hturn).le
  | case3 frames left hturn _ ih => exact (ih h).trans (effort_lt_of_turn_eq_moved hturn).le

end Frames

/-! ## Calls -/

namespace Traversal

variable {t : Traversal K V}

theorem pending_stateAfter (calls : ℕ) (t : Traversal K V) :
    (stateAfter next calls t).frames.pending = t.frames.pending.drop calls := by
  induction calls with
  | zero => rfl
  | succ calls ih => rw [stateAfter_succ, pending_next, ih, List.tail_drop]

theorem Balanced.stateAfter (h : t.Balanced) (calls : ℕ) :
    (stateAfter Traversal.next calls t).Balanced := by
  induction calls with
  | zero => exact h
  | succ calls ih =>
    rw [stateAfter_succ]
    exact ih.next

/-- A balanced traversal hands out what is pending. -/
theorem Balanced.handsOut (h : t.Balanced) :
    HandsOut Traversal.next sizeHint t t.frames.pending := by
  constructor
  · intro calls
    rw [fst_next, pending_stateAfter, List.head?_drop]
  · intro calls
    have hremaining : (RotaryTrie.stateAfter Traversal.next calls t).remaining
        = t.frames.pending.length - min calls t.frames.pending.length := by
      rw [h.stateAfter calls, pending_stateAfter, List.length_drop]
      omega
    rw [sizeHint, hremaining]

theorem effort_next_le (t : Traversal K V) : t.next.2.frames.effort ≤ t.frames.effort := by
  rw [next]
  cases hadvance : t.frames.advance with
  | none => exact Nat.zero_le _
  | some handed => exact Frames.effort_le_of_advance hadvance

theorem effort_stateAfter_le (calls : ℕ) (t : Traversal K V) :
    (stateAfter next calls t).frames.effort ≤ t.frames.effort := by
  induction calls with
  | zero => exact le_rfl
  | succ calls ih =>
    rw [stateAfter_succ]
    exact (effort_next_le _).trans ih

/-- However many calls there were, the loop of the next one ends within a number of turns. -/
def EndsWithin (t : Traversal K V) (turns : ℕ) : Prop :=
  ∀ calls, (stateAfter next calls t).frames.run turns
    = some (stateAfter next calls t).frames.advance

theorem endsWithin_of_effort_lt {turns : ℕ} (h : t.frames.effort < turns) : t.EndsWithin turns :=
  fun calls ↦ Frames.run_eq_some_advance ((effort_stateAfter_le calls t).trans_lt h)

end Traversal

theorem ViewTraversal.handsOut {t : ViewTraversal K V α} {entries : List (Leaf K V)}
    (h : HandsOut Traversal.next Traversal.sizeHint t.leaves entries) :
    HandsOut next sizeHint t (entries.map t.view) := by
  have hstate : ∀ calls, stateAfter next calls t
      = { t with leaves := stateAfter Traversal.next calls t.leaves } := by
    intro calls
    induction calls with
    | zero => rfl
    | succ calls ih => rw [stateAfter_succ, stateAfter_succ, ih, next]
  constructor
  · intro calls
    rw [hstate, next, List.getElem?_map, ← h.fst_next]
  · intro calls
    rw [hstate, sizeHint, List.length_map]
    exact h.sizeHint_eq calls

/-! ## Sound buckets -/

namespace Bucket

private theorem effortAll_add_le {children : List (Bucket K V)}
    (h : ∀ child ∈ children, child.effort + 3 ≤ 5 * child.leaves.length) :
    effortAll children + 2 * children.length ≤ 5 * (leavesAll children).length := by
  induction children with
  | nil => simp [effortAll]
  | cons child children ih =>
    rw [List.forall_mem_cons] at h
    have hchildren := ih h.2
    simp only [effortAll, leavesAll, List.length_cons, List.length_append]
    omega

/-- As there are two children at least, the effort is proportional to the number of entries. -/
theorem Sound.effort_add_three_le {bucket : Bucket K V} (h : bucket.Sound) :
    bucket.effort + 3 ≤ 5 * bucket.leaves.length := by
  induction h with
  | leaf => simp [effort, leaves]
  | chain two_le =>
    simp only [effort, leaves]
    omega
  | trie _ two_le _ _ _ ih =>
    have hchildren := effortAll_add_le ih
    simp only [effort, leaves]
    omega

theorem Sound.effort_start_lt {bucket : Bucket K V} (h : bucket.Sound) :
    (Traversal.start (some bucket)).frames.effort < 5 * bucket.count := by
  have hopen := Frames.frameEffort_parts_le bucket
  have heffort := h.effort_add_three_le
  rw [h.count_eq_length]
  simp only [Traversal.start, Frames.effort]
  omega

end Bucket

/-! ## Maps -/

namespace Map

variable {κ ν : Type}

/-- What enumerations of a map hand out, and how long that takes. -/
structure Enumerates (m : Map κ ν K V) : Prop where
  /-- From a bucket of the trie they hand out the entries below. Their number is the count of the
  bucket, and limits the turns of each call. -/
  bucket : ∀ bucket ∈ m.nodes, bucket.leaves.length = bucket.count ∧
    HandsOut Traversal.next Traversal.sizeHint (.start (some bucket)) bucket.leaves ∧
    (Traversal.start (some bucket)).EndsWithin (5 * bucket.count)
  /-- From the root they hand out all entries. There may be none. -/
  entries : m.leaves.length = m.size ∧
    HandsOut Traversal.next Traversal.sizeHint m.traversal m.leaves ∧
    m.traversal.EndsWithin (5 * m.size + 1)
  /-- The keys and values are those of the entries. -/
  pairs : HandsOut ViewTraversal.next ViewTraversal.sizeHint m.pairTraversal
    (m.leaves.map fun entry ↦ (entry.key, entry.value))
  /-- The keys are those of the entries. -/
  keys : HandsOut ViewTraversal.next ViewTraversal.sizeHint m.keyTraversal
    (m.leaves.map fun entry ↦ entry.key)
  /-- The values are those of the entries. -/
  values : HandsOut ViewTraversal.next ViewTraversal.sizeHint m.valueTraversal
    (m.leaves.map fun entry ↦ entry.value)

variable [KeyStrategy κ K] {m : Map κ ν K V}

theorem Sound.handsOut_leaves (h : m.Sound) :
    HandsOut Traversal.next Traversal.sizeHint m.traversal m.leaves := by
  rw [← pending_traversal]
  exact h.balanced.handsOut

theorem Sound.endsWithin (h : m.Sound) : m.traversal.EndsWithin (5 * m.size + 1) := by
  apply Traversal.endsWithin_of_effort_lt
  rw [traversal, size]
  cases hroot : m.root with
  | none => exact Nat.one_pos
  | some root => exact Nat.lt_succ_of_lt (h.root root hroot).effort_start_lt

variable [ValueStrategy ν V] [DecidableEq κ]

/-- **Enumeration.** From the root of a reachable map or from any bucket of its trie, call after
call hands out the entries in the order in which a recursion lists them, and pairs, keys and values
come in the same order. What is said to be left is exact at every point, and no call takes long. -/
theorem Reachable.enumerates (h : m.Reachable) : m.Enumerates where
  bucket bucket hbucket := by
    have hsound := h.sound.sound_of_mem_nodes hbucket
    refine ⟨hsound.count_eq_length.symm, ?_, ?_⟩
    · rw [← Traversal.pending_start]
      exact (Traversal.balanced_start hsound).handsOut
    · exact Traversal.endsWithin_of_effort_lt hsound.effort_start_lt
  entries := ⟨h.sound.size_eq_length.symm, h.sound.handsOut_leaves, h.sound.endsWithin⟩
  pairs := ViewTraversal.handsOut h.sound.handsOut_leaves
  keys := ViewTraversal.handsOut h.sound.handsOut_leaves
  values := ViewTraversal.handsOut h.sound.handsOut_leaves

/-- The fourth key comes of a nested node, and after the fifth there is none. -/
theorem enumerates_siblingWords :
    siblingWords.Enumerates ∧
      (stateAfter ViewTraversal.next 3 siblingWords.keyTraversal).next.1 = some 8 ∧
      (stateAfter ViewTraversal.next 5 siblingWords.keyTraversal).next.1 = none ∧
      (stateAfter ViewTraversal.next 3 siblingWords.keyTraversal).sizeHint = (2, some 2) := by
  have h : siblingWords.Reachable := .setAll (.emptyUnder _) 0 _
  have henumerates := h.enumerates
  refine ⟨henumerates, henumerates.keys.fst_next 3, henumerates.keys.fst_next 5,
    henumerates.keys.sizeHint_eq 3⟩

end Map

end RotaryTrie
