import RotaryTrie.Catalog.Words
import RotaryTrie.Proofs.History

/-!
# The representation invariant

What one may rely on when reading a trie of a reachable map, node by node. A trie node keeps
four things that say the same in different ways: its occupancy word, its list of children, its count
and its rotation. `Bucket.Consistent` says of a single node how they agree, in terms of the bits of
the word and of the entries below, and `Map.Reachable.invariant` says that all nodes of all
reachable maps are consistent. Soundness, which is carried through the writes, is the same seen from
the top.
-/

set_option autoImplicit false

namespace RotaryTrie

variable {κ ν K V : Type}

namespace Bucket

/-- The parts of a trie node agree. -/
structure ConsistentTrie (rotation occupancy : UInt32) (count : ℕ)
    (children : List (Bucket K V)) : Prop where
  /-- A hash is rotated by less than its width. -/
  rotation_lt : rotation < 32
  /-- There is something to tell apart. -/
  two_le : 2 ≤ children.length
  /-- There are as many children as set bits. -/
  length_eq : children.length = Bitmap.setBits 32 occupancy.toNat
  /-- The count is the sum of those of the children. -/
  count_eq_sum : count = (children.map Bucket.count).sum
  /-- The count is the number of entries below. -/
  count_eq_length : count = (leavesAll children).length
  /-- Every filled slot has a child. -/
  exists_child : ∀ slot < 32, Bitmap.holds occupancy slot = true →
    ∃ child, Dense.get? occupancy slot children = some child
  /-- The entries below the child of a slot belong there. -/
  slotOf_eq : ∀ slot < 32, ∀ child, Dense.get? occupancy slot children = some child →
    ∀ entry ∈ child.leaves, slotOf entry.hash rotation = slot

/-- A node, seen by itself, is as it should be. -/
def Consistent : Bucket K V → Prop
  | .leaf _ => True
  | .chain _ hash entries => 2 ≤ entries.length ∧ ∀ entry ∈ entries, entry.hash = hash
  | .trie _ rotation occupancy count children =>
    ConsistentTrie rotation occupancy count children

theorem Sound.of_mem_nodes {bucket node : Bucket K V} (h : bucket.Sound)
    (hnode : node ∈ bucket.nodes) : node.Sound := by
  induction h with
  | leaf entry =>
    rw [List.mem_singleton.mp hnode]
    exact .leaf entry
  | chain two_le hash_eq =>
    rw [List.mem_singleton.mp hnode]
    exact .chain two_le hash_eq
  | trie rotation_lt two_le count_eq routed sound ih =>
    rw [nodes, List.mem_cons, nodesAll_eq_flatMap, List.mem_flatMap] at hnode
    rcases hnode with rfl | ⟨child, hchild, hnode⟩
    · exact .trie rotation_lt two_le count_eq routed sound
    · exact ih child hchild hnode

theorem countAll_eq_sum (children : List (Bucket K V)) :
    countAll children = (children.map Bucket.count).sum := by
  induction children with
  | nil => rfl
  | cons child children ih => rw [countAll, ih, List.map_cons, List.sum_cons]

section Trie

variable {rotation occupancy slot : UInt32} {children : List (Bucket K V)}

theorem exists_get?_eq (h : List.Forall₂ (RoutedTo rotation) (Bitmap.slots occupancy) children)
    (hslot : slot < 32) (hholds : Bitmap.holds occupancy slot = true) :
    ∃ child, Dense.get? occupancy slot children = some child ∧ RoutedTo rotation slot child := by
  obtain ⟨front, child, rest, rfl, filled⟩ := exists_filledAt h hslot hholds
  refine ⟨child, ?_, filled.child⟩
  rw [Dense.get?, if_pos hholds, Dense.getElem?_rank _ filled.length_front]

theorem Sound.consistent {bucket : Bucket K V} (h : bucket.Sound) : bucket.Consistent := by
  cases h with
  | leaf => exact trivial
  | chain two_le hash_eq => exact ⟨two_le, hash_eq⟩
  | @trie _ _ occupancy _ _ rotation_lt two_le count_eq routed sound =>
    refine ⟨rotation_lt, two_le, ?_, ?_, ?_, fun slot hslot hholds ↦ ?_,
      fun slot hslot child hchild ↦ ?_⟩
    · rw [← routed.length_eq, Bitmap.length_slots, Bitmap.toNat_popcount]
    · rw [count_eq, countAll_eq_sum]
    · rw [count_eq, countAll_eq_length fun child hchild ↦ (sound child hchild).count_eq_length]
    · obtain ⟨child, hchild, -⟩ := exists_get?_eq routed hslot hholds
      exact ⟨child, hchild⟩
    · have hholds : Bitmap.holds occupancy slot = true := by
        by_contra hne
        rw [Dense.get?, if_neg hne] at hchild
        exact absurd hchild nofun
      obtain ⟨other, hother, hrouted⟩ := exists_get?_eq routed hslot hholds
      rw [Option.some_inj.mp (hchild.symm.trans hother)]
      exact hrouted

end Trie

end Bucket

namespace Map

variable [KeyStrategy κ K]

/-- The nodes and entries of a map are as they should be. -/
structure Invariant (m : Map κ ν K V) : Prop where
  /-- Every node is consistent. -/
  consistent : ∀ node ∈ m.nodes, node.Consistent
  /-- Every entry has the hash that the map's own strategy gives its key. -/
  hash_eq : ∀ entry ∈ m.leaves, entry.hash = KeyStrategy.hash m.strategies.key entry.key
  /-- There is no trie without entries. -/
  root_eq_none_iff : m.root = none ↔ m.size = 0

theorem Sound.has_invariant {m : Map κ ν K V} (h : m.Sound) : m.Invariant := by
  refine ⟨fun node hnode ↦ ?_, h.hash_eq, h.root_eq_none_iff⟩
  rw [nodes] at hnode
  cases hroot : m.root with
  | none =>
    rw [hroot] at hnode
    exact absurd hnode List.not_mem_nil
  | some bucket =>
    rw [hroot] at hnode
    exact ((h.root bucket hroot).of_mem_nodes hnode).consistent

variable [ValueStrategy ν V] [DecidableEq κ]

/-- **The representation invariant.** It holds of every reachable map, under any strategies. -/
theorem Reachable.invariant {m : Map κ ν K V} (h : m.Reachable) : m.Invariant :=
  h.sound.has_invariant

/-- Nested nodes over chains, after an erasure. -/
def pairedWords : Map (Named WordRule) (Named IntegerRule) UInt32 Int32 :=
  ((emptyUnder ⟨⟨.pairs, none⟩, ⟨.default, none⟩⟩).setAll 0
    [(2, 1), (3, 2), (66, 3), (67, 4), (10, 5), (2050, 6)]).erase 6 10

theorem invariant_pairedWords :
    pairedWords.nodes.length = 5 ∧ pairedWords.Invariant ∧
      (pairedWords.withKeyStrategy 7 ⟨.high, none⟩).Invariant := by
  have h : pairedWords.Reachable := .erase (.setAll (.emptyUnder _) 0 _) 6 10
  exact ⟨by decide, h.invariant, (h.withKeyStrategy 7 _).invariant⟩

end Map

/-- The maps of a workspace have the invariant after any commands. -/
theorem Workspace.Reached.forall_invariant [KeyStrategy κ K] [ValueStrategy ν V] [DecidableEq κ]
    {w : Workspace κ ν K V} (h : w.Reached) : ∀ entry ∈ w.maps, entry.2.Invariant :=
  fun entry hentry ↦ (h.forall_reachable entry hentry).sound.has_invariant

end RotaryTrie
