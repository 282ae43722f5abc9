import Mathlib.Data.Finset.Card
import Mathlib.Logic.Relation
import RotaryTrie.Bucket.Layout
import RotaryTrie.Catalog.Words
import RotaryTrie.Proofs.Invariant

/-!
# Depth and size

A node of a trie is there to tell entries apart that all nodes above it send the same way. The
entries below it agree in every bit that has been read on the way, so the *window* of five bits that
the node reads must hold a position that no window above it does. There are only thirty-two
positions, and the first window takes five of them. This bounds the number of nodes on a path by
twenty-eight, for any hashes and after any history, and with it the stack of a traversal.

## Paths

The buckets on a path are those at its initial segments. `Widening` is the property of the
rotations on a path that carries the induction: it goes along with the set of positions that have
been read, on which the entries of a bucket are assumed to agree.
-/

set_option autoImplicit false

namespace RotaryTrie

variable {K V : Type}

/-! ## Windows -/

/-- The positions of the bits of a hash that a node with the given rotation reads. -/
def window (rotation : UInt32) : Finset ℕ :=
  (Finset.range 5).image fun i ↦ (rotation.toNat + i) % 32

theorem mem_window {rotation : UInt32} {position : ℕ} :
    position ∈ window rotation ↔ ∃ i < 5, (rotation.toNat + i) % 32 = position := by
  simp [window]

theorem window_subset_range (rotation : UInt32) : window rotation ⊆ Finset.range 32 := by
  intro position hposition
  obtain ⟨i, -, rfl⟩ := mem_window.mp hposition
  exact Finset.mem_range.mpr (Nat.mod_lt _ (by decide))

theorem card_window (rotation : UInt32) : (window rotation).card = 5 := by
  have hinj : Set.InjOn (fun i ↦ (rotation.toNat + i) % 32) (Finset.range 5) := by
    intro i hi j hj hij
    simp only [Finset.coe_range, Set.mem_Iio] at hi hj hij
    omega
  rw [window, Finset.card_image_of_injOn hinj, Finset.card_range]

/-- Two hashes that agree on a window have the same slot. -/
theorem slotOf_eq_iff {rotation a b : UInt32} :
    slotOf a rotation = slotOf b rotation
      ↔ ∀ position ∈ window rotation, a.toNat.testBit position = b.toNat.testBit position := by
  constructor
  · intro hslot position hposition
    obtain ⟨i, hi, rfl⟩ := mem_window.mp hposition
    rw [← testBit_slotOf a rotation hi, ← testBit_slotOf b rotation hi, hslot]
  · intro hagree
    refine UInt32.toNat_inj.mp (Nat.eq_of_testBit_eq fun i ↦ ?_)
    by_cases hi : i < 5
    · rw [testBit_slotOf a rotation hi, testBit_slotOf b rotation hi]
      exact hagree _ (mem_window.mpr ⟨i, hi, rfl⟩)
    · -- a slot has no bits beyond the fifth one
      have hhigh : ∀ hash, (slotOf hash rotation).toNat.testBit i = false := by
        intro hash
        have hlt := UInt32.lt_iff_toNat_lt.mp (slotOf_lt hash rotation)
        have hpow : 2 ^ 5 ≤ 2 ^ i := Nat.pow_le_pow_right (by decide) (not_lt.mp hi)
        exact Nat.testBit_lt_two_pow (lt_of_lt_of_le hlt hpow)
      rw [hhigh, hhigh]

/-- Each rotation reads a position that neither those before it read nor is in the given set. -/
inductive Widening : Finset ℕ → List UInt32 → Prop where
  /-- Nothing more is read. -/
  | nil (read : Finset ℕ) : Widening read []
  /-- A window with a new position. -/
  | cons {read : Finset ℕ} {rotation : UInt32} {rotations : List UInt32}
      (not_subset : ¬ window rotation ⊆ read)
      (widening : Widening (read ∪ window rotation) rotations) :
      Widening read (rotation :: rotations)

namespace Widening

variable {read : Finset ℕ} {rotation : UInt32} {rotations above below : List UInt32}

/-- Every new position takes one of the thirty-two. -/
theorem length_add_card_le (h : Widening read rotations) (hread : read ⊆ Finset.range 32) :
    rotations.length + read.card ≤ 32 := by
  induction h with
  | nil read =>
    have hcard := Finset.card_le_card hread
    rw [Finset.card_range] at hcard
    rw [List.length_nil]
    omega
  | @cons read rotation rotations not_subset _ ih =>
    have hlength := ih (Finset.union_subset hread (window_subset_range rotation))
    have hcard : read.card < (read ∪ window rotation).card := by
      refine Finset.card_lt_card (Finset.ssubset_iff_subset_ne.mpr ⟨Finset.subset_union_left, ?_⟩)
      intro heq
      exact not_subset (Finset.union_eq_left.mp heq.symm)
    rw [List.length_cons]
    omega

theorem length_le (h : Widening ∅ rotations) : rotations.length ≤ 28 := by
  cases h with
  | nil => exact Nat.zero_le _
  | @cons _ rotation rotations _ widening =>
    rw [Finset.empty_union] at widening
    have hlength := widening.length_add_card_le (window_subset_range rotation)
    rw [card_window] at hlength
    rw [List.length_cons]
    omega

theorem not_subset_of_mem (h : Widening read rotations) (hrotation : rotation ∈ rotations) :
    ¬ window rotation ⊆ read := by
  induction h with
  | nil => simp at hrotation
  | cons not_subset _ ih =>
    rcases List.mem_cons.mp hrotation with rfl | hrotation
    · exact not_subset
    · exact fun hsubset ↦ ih hrotation (hsubset.trans Finset.subset_union_left)

theorem nodup (h : Widening read rotations) : rotations.Nodup := by
  induction h with
  | nil => exact List.nodup_nil
  | cons _ widening ih =>
    refine List.nodup_cons.mpr ⟨fun hmem ↦ ?_, ih⟩
    exact widening.not_subset_of_mem hmem Finset.subset_union_right

theorem exists_mem_window (h : Widening read (above ++ rotation :: below)) :
    ∃ position ∈ window rotation, position ∉ read ∧ ∀ other ∈ above, position ∉ window other := by
  induction above generalizing read with
  | nil =>
    cases h with
    | cons not_subset _ =>
      obtain ⟨position, hposition, hread⟩ := Finset.not_subset.mp not_subset
      exact ⟨position, hposition, hread, by simp⟩
  | cons first above ih =>
    cases h with
    | cons _ widening =>
      obtain ⟨position, hposition, hread, habove⟩ := ih widening
      rw [Finset.notMem_union] at hread
      exact ⟨position, hposition, hread.1, List.forall_mem_cons.mpr ⟨hread.2, habove⟩⟩

end Widening

namespace Bucket

/-! ## Paths -/

/-- The rotation of a trie node. -/
def rotation? : Bucket K V → Option UInt32
  | .trie _ rotation _ _ _ => some rotation
  | _ => none

/-- The buckets on a path, from the top. -/
def along (bucket : Bucket K V) (path : List ℕ) : List (Bucket K V) :=
  path.inits.filterMap fun initial ↦ bucket.at? initial

/-- The rotations of the trie nodes on a path, from the top. -/
def rotationsAlong (bucket : Bucket K V) (path : List ℕ) : List UInt32 :=
  (bucket.along path).filterMap rotation?

theorem along_trie_cons (stamp : Stamp) (rotation occupancy : UInt32) (count : ℕ)
    (children : List (Bucket K V)) (index : ℕ) (path : List ℕ) :
    (trie stamp rotation occupancy count children).along (index :: path)
      = trie stamp rotation occupancy count children
        :: (children[index]?).elim [] fun child ↦ child.along path := by
  rw [along, List.inits_cons, List.filterMap_cons_some (by rfl), List.filterMap_map]
  congr 1
  cases h : children[index]? with
  | none => simp [Function.comp_def, at?, h]
  | some child => simp [Function.comp_def, at?, h, along]

theorem along_nil (bucket : Bucket K V) : bucket.along [] = [bucket] := by
  simp [along, at?]

theorem along_of_rotation? {bucket : Bucket K V} (h : bucket.rotation? = none) (path : List ℕ) :
    bucket.along path = [bucket] := by
  cases path with
  | nil => exact along_nil bucket
  | cons index path =>
    rw [along, List.inits_cons, List.filterMap_cons_some (by rfl), List.filterMap_map]
    cases bucket with
    | trie => simp [rotation?] at h
    | leaf => simp [Function.comp_def, at?]
    | chain => simp [Function.comp_def, at?]

theorem length_along_le (bucket : Bucket K V) (path : List ℕ) :
    (bucket.along path).length ≤ (bucket.rotationsAlong path).length + 1 := by
  induction path generalizing bucket with
  | nil => simp [along_nil]
  | cons index path ih =>
    cases bucket with
    | leaf => rw [along_of_rotation? rfl]; simp
    | chain => rw [along_of_rotation? rfl]; simp
    | trie stamp rotation occupancy count children =>
      rw [rotationsAlong, along_trie_cons, List.filterMap_cons_some (by rfl)]
      cases children[index]? with
      | none => simp
      | some child =>
        have := ih child
        rw [rotationsAlong] at this
        simpa using this

/-! ## Entries that agree -/

/-- The hashes of the entries have the same bits in some positions. -/
def AgreeOn (positions : Finset ℕ) (bucket : Bucket K V) : Prop :=
  ∀ position ∈ positions, ∀ a ∈ bucket.leaves, ∀ b ∈ bucket.leaves,
    a.hash.toNat.testBit position = b.hash.toNat.testBit position

theorem exists_routedTo {rotation : UInt32} {slots : List UInt32} {children : List (Bucket K V)}
    (h : List.Forall₂ (RoutedTo rotation) slots children) {child : Bucket K V}
    (hchild : child ∈ children) : ∃ slot, RoutedTo rotation slot child := by
  induction h with
  | nil => simp at hchild
  | cons hrouted _ ih =>
    rcases List.mem_cons.mp hchild with rfl | hchild
    · exact ⟨_, hrouted⟩
    · exact ih hchild

theorem exists_slotOf_ne {rotation : UInt32} {slots : List UInt32} {children : List (Bucket K V)}
    (increasing : slots.Pairwise (· < ·)) (two_le : 2 ≤ children.length)
    (routed : List.Forall₂ (RoutedTo rotation) slots children)
    (sound : ∀ child ∈ children, child.Sound) :
    ∃ a ∈ leavesAll children, ∃ b ∈ leavesAll children,
      slotOf a.hash rotation ≠ slotOf b.hash rotation := by
  rcases routed with _ | ⟨hfirst, _ | ⟨hsecond, _⟩⟩
  · simp at two_le
  · simp at two_le
  · rename_i s first t second _ _ _
    obtain ⟨a, ha⟩ := (sound first (by simp)).exists_mem_leaves
    obtain ⟨b, hb⟩ := (sound second (by simp)).exists_mem_leaves
    refine ⟨a, mem_leavesAll.mpr ⟨first, by simp, ha⟩, b,
      mem_leavesAll.mpr ⟨second, by simp, hb⟩, ?_⟩
    rw [hfirst a ha, hsecond b hb]
    exact UInt32.ne_of_lt (List.rel_of_pairwise_cons increasing (by simp))

/-- On every path, each node reads a position that nothing above it has read. -/
theorem Sound.widening {bucket : Bucket K V} (h : bucket.Sound) {read : Finset ℕ}
    (hread : AgreeOn read bucket) (path : List ℕ) : Widening read (bucket.rotationsAlong path) := by
  induction h generalizing read path with
  | leaf => rw [rotationsAlong, along_of_rotation? rfl]; exact .nil read
  | chain => rw [rotationsAlong, along_of_rotation? rfl]; exact .nil read
  | @trie stamp rotation occupancy count children rotation_lt two_le count_eq routed sound ih =>
    have hnew : ¬ window rotation ⊆ read := by
      intro hsubset
      obtain ⟨a, ha, b, hb, hne⟩ :=
        exists_slotOf_ne (Bitmap.pairwise_slots occupancy) two_le routed sound
      exact hne (slotOf_eq_iff.mpr fun position hposition ↦
        hread position (hsubset hposition) a ha b hb)
    cases path with
    | nil =>
      rw [rotationsAlong, along_nil]
      exact .cons hnew (.nil _)
    | cons index path =>
      rw [rotationsAlong, along_trie_cons, List.filterMap_cons_some (by rfl)]
      refine .cons hnew ?_
      cases hindex : children[index]? with
      | none => exact .nil _
      | some child =>
        have hchild := List.mem_of_getElem? hindex
        obtain ⟨slot, hslot⟩ := exists_routedTo routed hchild
        refine ih child hchild (fun position hposition a ha b hb ↦ ?_) path
        rcases Finset.mem_union.mp hposition with hposition | hposition
        · exact hread position hposition a (mem_leavesAll.mpr ⟨child, hchild, ha⟩) b
            (mem_leavesAll.mpr ⟨child, hchild, hb⟩)
        · exact slotOf_eq_iff.mp ((hslot a ha).trans (hslot b hb).symm) position hposition

theorem Sound.length_rotationsAlong_le {bucket : Bucket K V} (h : bucket.Sound) (path : List ℕ) :
    (bucket.rotationsAlong path).length ≤ 28 := by
  have hnone : AgreeOn ∅ bucket := by simp [AgreeOn]
  exact (h.widening hnone path).length_le

/-- A path has one bucket more than trie nodes, and no more than that. -/
theorem Sound.length_along_le {bucket : Bucket K V} (h : bucket.Sound) (path : List ℕ) :
    (bucket.along path).length ≤ 29 :=
  (bucket.length_along_le path).trans (Nat.succ_le_succ (h.length_rotationsAlong_le path))

/-! ## The number of nodes -/

private theorem countP_nodesAll_add_length_le {p : Bucket K V → Bool} {children : List (Bucket K V)}
    (h : ∀ child ∈ children, child.nodes.countP p < child.leaves.length) :
    (nodesAll children).countP p + children.length ≤ (leavesAll children).length := by
  induction children with
  | nil => simp [nodesAll]
  | cons child children ih =>
    rw [List.forall_mem_cons] at h
    have hchild := h.1
    have hchildren := ih h.2
    simp only [nodesAll, leavesAll, List.countP_append, List.length_append, List.length_cons]
    omega

/-- There are more entries than trie nodes, because each node has two children. -/
theorem Sound.countP_nodes_lt {bucket : Bucket K V} (h : bucket.Sound) :
    bucket.nodes.countP (fun node ↦ node.rotation?.isSome) < bucket.leaves.length := by
  induction h with
  | leaf => simp [nodes, leaves, rotation?]
  | chain two_le =>
    simp only [nodes, leaves, rotation?, List.countP_singleton]
    exact lt_of_lt_of_le Nat.two_pos two_le
  | trie _ two_le _ _ _ ih =>
    have hchildren := countP_nodesAll_add_length_le ih
    rw [nodes, leaves, List.countP_cons_of_pos (by rfl)]
    omega

/-! ## Nested parts -/

/-- What is nested in a bucket is a child, on a path that is one step longer. -/
theorem exists_length_along_of_mem_parts {bucket child : Bucket K V}
    (h : Part.nested child ∈ bucket.parts) (path : List ℕ) :
    ∃ longer, (bucket.along longer).length = (child.along path).length + 1 := by
  cases bucket with
  | leaf => simp [parts] at h
  | chain => simp [parts] at h
  | trie stamp rotation occupancy count children =>
    have hchild : child ∈ children := by
      rw [parts, List.mem_map] at h
      obtain ⟨other, hother, heq⟩ := h
      cases other with
      | leaf => simp [toPart] at heq
      | chain =>
        rw [← Part.nested.inj heq]
        exact hother
      | trie =>
        rw [← Part.nested.inj heq]
        exact hother
    obtain ⟨index, hindex⟩ := List.mem_iff_getElem?.mp hchild
    exact ⟨index :: path, by simp [along_trie_cons, hindex]⟩

end Bucket

/-! ## The stack of a traversal -/

namespace Frames

/-- One turn of the loop leads from a stack to the next, whether it hands out an entry or not. -/
def Step (frames next : Frames K V) : Prop :=
  turn frames = .moved next ∨ ∃ leaf, turn frames = .yielded leaf next

/-- A traversal that has one stack comes to another, within one call or several. -/
def Reaches : Frames K V → Frames K V → Prop := Relation.ReflTransGen Step

/-- A stack is within a bound, and stays so when any of its nested parts are opened. -/
def Fits (bound : ℕ) : Frames K V → Prop
  | [] => True
  | parts :: frames =>
    frames.length + 1 ≤ bound ∧
      (∀ bucket, .nested bucket ∈ parts → ∀ path,
        frames.length + 1 + (bucket.along path).length ≤ bound) ∧
      Fits bound frames

variable {bound : ℕ} {frames next : Frames K V}

theorem Fits.length_le (h : Fits bound frames) : frames.length ≤ bound := by
  cases frames with
  | nil => exact Nat.zero_le _
  | cons => exact h.1

theorem Fits.step (h : Fits bound frames) (hstep : Step frames next) : Fits bound next := by
  match frames, hstep with
  | [] :: frames, .inl rfl => exact h.2.2
  | (.entry leaf :: parts) :: frames, .inr ⟨_, rfl⟩ =>
    obtain ⟨hlength, hparts, hframes⟩ := h
    exact ⟨hlength, fun bucket hbucket ↦ hparts bucket (List.mem_cons_of_mem _ hbucket), hframes⟩
  | (.nested bucket :: parts) :: frames, .inl rfl =>
    obtain ⟨hlength, hparts, hframes⟩ := h
    have hbucket := hparts bucket List.mem_cons_self
    refine ⟨?_, fun child hchild path ↦ ?_, hlength,
      fun other hother ↦ hparts other (List.mem_cons_of_mem _ hother), hframes⟩
    · simpa [Bucket.along_nil] using hbucket []
    · obtain ⟨longer, hlonger⟩ := Bucket.exists_length_along_of_mem_parts hchild path
      have hbound := hbucket longer
      rw [List.length_cons]
      omega

theorem Fits.reaches (h : Fits bound frames) (hreaches : Reaches frames next) :
    Fits bound next := by
  induction hreaches with
  | refl => exact h
  | tail _ hstep ih => exact ih.step hstep

theorem eq_nil_of_turn_eq_done (h : turn frames = .done) : frames = [] := by
  rcases frames with _ | ⟨_ | ⟨_ | _, _⟩, _⟩
  · rfl
  all_goals simp [turn] at h

/-- A call does nothing but turn the loop, until it hands out an entry or the stack is empty. -/
theorem reaches_advance (frames : Frames K V) :
    Reaches frames (frames.advance.elim [] Prod.snd) := by
  fun_induction advance frames with
  | case1 frames hturn =>
    rw [eq_nil_of_turn_eq_done hturn]
    exact .refl
  | case2 frames leaf rest hturn => exact .single (.inr ⟨leaf, hturn⟩)
  | case3 frames rest hturn _ ih => exact .head (.inl hturn) ih

end Frames

namespace Traversal

theorem reaches_next (t : Traversal K V) : t.frames.Reaches t.next.2.frames := by
  have hreaches := t.frames.reaches_advance
  rw [next]
  cases hadvance : t.frames.advance with
  | none => rwa [hadvance] at hreaches
  | some handed => rwa [hadvance] at hreaches

theorem reaches_take (calls : ℕ) (t : Traversal K V) :
    t.frames.Reaches (t.take calls).2.frames := by
  induction calls generalizing t with
  | zero => exact .refl
  | succ calls ih => exact t.reaches_next.trans (ih t.next.2)

end Traversal

/-- The stack stays within its bound through all calls, and in the midst of the next one. -/
theorem Frames.Fits.length_le_of_take {bound calls : ℕ} {t : Traversal K V} {frames : Frames K V}
    (h : t.frames.Fits bound) (hreaches : (t.take calls).2.frames.Reaches frames) :
    frames.length ≤ bound :=
  ((h.reaches (t.reaches_take calls)).reaches hreaches).length_le

theorem Bucket.Sound.fits_start {bucket : Bucket K V} (h : bucket.Sound) :
    (Traversal.start (some bucket)).frames.Fits 29 := by
  refine ⟨by simp, fun child hchild path ↦ ?_, trivial⟩
  obtain ⟨longer, hlonger⟩ := exists_length_along_of_mem_parts hchild path
  have hlength := h.length_along_le longer
  rw [List.length_nil]
  omega

/-! ## Maps -/

namespace Map

variable {κ ν : Type}

/-- The rotations of the trie nodes on a path, from the top. -/
def rotationsAlong (m : Map κ ν K V) (path : List ℕ) : List UInt32 :=
  m.root.elim [] fun root ↦ root.rotationsAlong path

/-- How deep a map's trie may be, and how large. -/
structure Slender (m : Map κ ν K V) : Prop where
  /-- Each node on a path reads a position that no node above it does. -/
  exists_position : ∀ path above rotation below,
    m.rotationsAlong path = above ++ rotation :: below →
      ∃ position ∈ window rotation, ∀ other ∈ above, position ∉ window other
  /-- The rotations on a path are distinct. -/
  nodup : ∀ path, (m.rotationsAlong path).Nodup
  /-- A path leads through no more than twenty-eight trie nodes. -/
  length_le : ∀ path, (m.rotationsAlong path).length ≤ 28
  /-- Whatever stack an enumeration comes to after some calls, it has no more than twenty-nine
  frames. -/
  frames_le : ∀ calls frames,
    (m.traversal.take calls).2.frames.Reaches frames → frames.length ≤ 29
  /-- The same holds if the enumeration begins at a bucket inside. -/
  inner_frames_le : ∀ bucket ∈ m.nodes, ∀ calls frames,
    ((Traversal.start (some bucket)).take calls).2.frames.Reaches frames → frames.length ≤ 29
  /-- There are fewer trie nodes than entries. -/
  trieNodes_lt : m.root ≠ none → m.nodes.countP (fun node ↦ node.rotation?.isSome) < m.size

variable [KeyStrategy κ K] {m : Map κ ν K V}

theorem Sound.widening (h : m.Sound) (path : List ℕ) : Widening ∅ (m.rotationsAlong path) := by
  rw [rotationsAlong]
  cases hroot : m.root with
  | none => exact .nil ∅
  | some root => exact (h.root root hroot).widening (by simp [Bucket.AgreeOn]) path

theorem Sound.sound_of_mem_nodes (h : m.Sound) {bucket : Bucket K V} (hbucket : bucket ∈ m.nodes) :
    bucket.Sound := by
  rw [nodes] at hbucket
  cases hroot : m.root with
  | none => simp [hroot] at hbucket
  | some root =>
    rw [hroot] at hbucket
    exact (h.root root hroot).of_mem_nodes hbucket

theorem Sound.to_slender (h : m.Sound) : m.Slender where
  exists_position path above rotation below heq := by
    have hwidening := h.widening path
    rw [heq] at hwidening
    obtain ⟨position, hposition, -, habove⟩ := hwidening.exists_mem_window
    exact ⟨position, hposition, habove⟩
  nodup path := (h.widening path).nodup
  length_le path := (h.widening path).length_le
  frames_le calls frames hreaches := by
    have hfits : m.traversal.frames.Fits 29 := by
      rw [traversal]
      cases hroot : m.root with
      | none => trivial
      | some root => exact (h.root root hroot).fits_start
    exact hfits.length_le_of_take hreaches
  inner_frames_le bucket hbucket calls frames hreaches :=
    (h.sound_of_mem_nodes hbucket).fits_start.length_le_of_take hreaches
  trieNodes_lt hne := by
    obtain ⟨root, hroot⟩ := Option.ne_none_iff_exists'.mp hne
    rw [h.size_eq_length, nodes, leaves_of_root_eq hroot, hroot]
    exact (h.root root hroot).countP_nodes_lt

variable [ValueStrategy ν V] [DecidableEq κ]

/-- **Depth and size.** Every reachable map is slender, whatever its hashes are. -/
theorem Reachable.slender (h : m.Reachable) : m.Slender := h.sound.to_slender

/-- Entries whose hashes differ in one bit each, some of them in one that hardly any window has
read. -/
def lateWords : Map (Named WordRule) (Named IntegerRule) UInt32 Int32 :=
  ((emptyUnder ⟨⟨.identity, none⟩, ⟨.default, none⟩⟩).setAll 0
    [(0, 1), (1, 2), (0x80000000, 3), (0x20, 4), (3, 5), (0x04000000, 6), (0x40, 7)]).erase 7 3

theorem slender_lateWords :
    lateWords.rotationsAlong [0, 0, 0, 0, 0] = [0, 27, 1, 22, 2] ∧ lateWords.Slender := by
  have h : lateWords.Reachable := .erase (.setAll (.emptyUnder _) 0 _) 7 3
  exact ⟨by decide, h.slender⟩

end Map

end RotaryTrie
