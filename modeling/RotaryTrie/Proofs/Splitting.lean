import RotaryTrie.Proofs.InStep

/-!
# Splitting

A trie node comes into being where two buckets of different hashes meet. Its rotation is the first
one from the suggestion on that sends the two hashes to different slots, and everything else about
the node follows from the two slots: which bits the occupancy word has, and in which order the two
buckets stand. Neither of the two buckets plays a part of its own, so it does not matter which one
was there first.

Nothing is assumed of the buckets. A split asks for the counts at their tops and for nothing below.
-/

set_option autoImplicit false

namespace RotaryTrie.Bucket

open Bitmap

variable {K V : Type} {firstHash secondHash suggested : UInt32} {step : ℕ}

/-- The children that a split puts under a node of the given rotation, by the order of the slots. -/
def sides (rotation : UInt32) (first : Bucket K V) (firstHash : UInt32) (second : Bucket K V)
    (secondHash : UInt32) : List (Bucket K V) :=
  if slotOf firstHash rotation < slotOf secondHash rotation then [first, second]
  else [second, first]

section Sides

variable {rotation : UInt32} (first second : Bucket K V)
  (h : slotOf firstHash rotation ≠ slotOf secondHash rotation)

theorem length_sides : (sides rotation first firstHash second secondHash).length = 2 := by
  rw [sides]
  split <;> rfl

theorem countAll_sides :
    countAll (sides rotation first firstHash second secondHash) = first.count + second.count := by
  rw [sides]
  split
  · rfl
  · exact Nat.add_comm _ _

include h

theorem sides_swap : sides rotation second secondHash first firstHash
    = sides rotation first firstHash second secondHash := by
  rw [sides, sides]
  rcases UInt32.lt_or_lt_of_ne h with hlt | hlt
  · rw [if_neg (UInt32.lt_asymm hlt), if_pos hlt]
  · rw [if_pos hlt, if_neg (UInt32.lt_asymm hlt)]

theorem forall₂_sides {R : UInt32 → Bucket K V → Prop}
    (hfirst : R (slotOf firstHash rotation) first)
    (hsecond : R (slotOf secondHash rotation) second) :
    List.Forall₂ R (slots (bit (slotOf firstHash rotation) ||| bit (slotOf secondHash rotation)))
      (sides rotation first firstHash second secondHash) := by
  rw [slots_or_bit (slotOf_lt _ _) (slotOf_lt _ _) h, sides]
  split
  · exact .cons hfirst (.cons hsecond .nil)
  · exact .cons hsecond (.cons hfirst .nil)

end Sides

/-- What a split makes of two buckets. -/
structure Splits (suggested : UInt32) (first : Bucket K V) (firstHash : UInt32)
    (second : Bucket K V) (secondHash : UInt32) (step : ℕ) (rotation occupancy : UInt32)
    (count : ℕ) (children : List (Bucket K V)) : Prop where
  /-- The rotations that are tried follow the suggestion, around the end of the word. -/
  toNat_rotationAt : ∀ step < 32, (rotationAt suggested step).toNat = (suggested.toNat + step) % 32
  /-- The search ends at the first step at which the slots are different. -/
  firstStep : FirstStep suggested firstHash secondHash step
  /-- The node has the rotation of this step. -/
  rotation_eq : rotation = rotationAt suggested step
  /-- The slots of the two hashes are filled, and no others. -/
  holds_iff : ∀ slot < 32, holds occupancy slot = true ↔
    slot = slotOf firstHash rotation ∨ slot = slotOf secondHash rotation
  /-- The node counts the entries of both buckets. -/
  count_eq : count = first.count + second.count
  /-- It has no other children. -/
  length_eq : children.length = 2
  /-- One bucket is found by its own hash. -/
  get?_first : Dense.get? occupancy (slotOf firstHash rotation) children = some first
  /-- So is the other one. -/
  get?_second : Dense.get? occupancy (slotOf secondHash rotation) children = some second

theorem split_of_firstStep (h : FirstStep suggested firstHash secondHash step) (stamp : Stamp)
    (first second : Bucket K V) :
    split stamp suggested first firstHash second secondHash
      = .ok (.trie stamp (rotationAt suggested step)
          (bit (slotOf firstHash (rotationAt suggested step))
            ||| bit (slotOf secondHash (rotationAt suggested step)))
          (first.count + second.count)
          (sides (rotationAt suggested step) first firstHash second secondHash)) := by
  have hlength := (forall₂_sides first second h.slotOf_ne (R := fun _ _ ↦ True) trivial
    trivial).length_eq
  rw [length_slots] at hlength
  rw [split, h.separating?_eq]
  dsimp only
  rw [← sides, mkTrie, if_neg (not_not_intro hlength.symm), countAll_sides,
    if_neg (not_not_intro rfl)]

private theorem holds_or_bit_iff {s t slot : UInt32} (hs : s < 32) (ht : t < 32)
    (hslot : slot < 32) : holds (bit s ||| bit t) slot = true ↔ slot = s ∨ slot = t := by
  rw [holds_or _ _ hslot, holds_bit hs hslot, holds_bit ht hslot, Bool.or_eq_true, beq_iff_eq,
    beq_iff_eq, eq_comm, @eq_comm _ t]

theorem splits_of_firstStep (h : FirstStep suggested firstHash secondHash step)
    (first second : Bucket K V) :
    Splits suggested first firstHash second secondHash step (rotationAt suggested step)
      (bit (slotOf firstHash (rotationAt suggested step))
        ||| bit (slotOf secondHash (rotationAt suggested step)))
      (first.count + second.count)
      (sides (rotationAt suggested step) first firstHash second secondHash) := by
  have hlt := slotOf_lt firstHash (rotationAt suggested step)
  have hlt' := slotOf_lt secondHash (rotationAt suggested step)
  -- the children are the values of this function at the two slots
  have hsides := forall₂_sides (R := fun slot bucket ↦
    (if slot = slotOf firstHash (rotationAt suggested step) then some first else some second)
      = some bucket) first second h.slotOf_ne (if_pos rfl) (if_neg h.slotOf_ne.symm)
  refine ⟨fun _ ↦ toNat_rotationAt suggested, h, rfl, fun _ ↦ holds_or_bit_iff hlt hlt', rfl,
    length_sides first second, ?_, ?_⟩
  · rw [Dense.get?_eq_of_forall₂ hsides hlt ((holds_or_bit_iff hlt hlt' hlt).mpr (.inl rfl)),
      if_pos rfl]
  · rw [Dense.get?_eq_of_forall₂ hsides hlt' ((holds_or_bit_iff hlt hlt' hlt').mpr (.inr rfl)),
      if_neg h.slotOf_ne.symm]

/-- **Splitting.** Two buckets with different hashes are split by one node, and it is the same node
whichever of the two comes first. -/
theorem split_separates (stamp : Stamp) (suggested : UInt32) (first second : Bucket K V)
    {firstHash secondHash : UInt32} (h : firstHash ≠ secondHash) :
    ∃ step rotation occupancy count children,
      Splits suggested first firstHash second secondHash step rotation occupancy count children ∧
      split stamp suggested first firstHash second secondHash
        = .ok (.trie stamp rotation occupancy count children) ∧
      split stamp suggested second secondHash first firstHash
        = .ok (.trie stamp rotation occupancy count children) := by
  obtain ⟨step, hstep⟩ := exists_firstStep suggested h
  refine ⟨step, _, _, _, _, splits_of_firstStep hstep first second,
    split_of_firstStep hstep stamp first second, ?_⟩
  rw [split_of_firstStep hstep.swap, sides_swap first second hstep.slotOf_ne, UInt32.or_comm,
    Nat.add_comm]

/-- Two entries whose hashes differ in one bit. -/
def neighbours : Bucket Char ℕ × Bucket Char ℕ :=
  (.leaf ⟨⟨0, 0⟩, 0x00100000, 'a', 1⟩, .leaf ⟨⟨1, 0⟩, 0, 'b', 2⟩)

/-- A search that begins right behind the only bit that differs goes around the end of the word, and
on to the last step that a search may need. -/
theorem split_separates_neighbours :
    (0x00100000 : UInt32) ≠ 0 ∧
      (∃ step rotation occupancy count children,
        Splits 0xfffffff5 neighbours.1 0x00100000 neighbours.2 0 step rotation occupancy count
          children ∧
        split ⟨2, 0⟩ 0xfffffff5 neighbours.1 0x00100000 neighbours.2 0
          = .ok (.trie ⟨2, 0⟩ rotation occupancy count children)) ∧
      FirstStep 0xfffffff5 0x00100000 0 27 ∧
      split ⟨2, 0⟩ 0xfffffff5 neighbours.1 0x00100000 neighbours.2 0
        = .ok (.trie ⟨2, 0⟩ 16 0x00010001 2 [neighbours.2, neighbours.1]) := by
  have hne : (0x00100000 : UInt32) ≠ 0 := by decide
  obtain ⟨step, rotation, occupancy, count, children, hsplits, hsplit, -⟩ :=
    split_separates ⟨2, 0⟩ 0xfffffff5 neighbours.1 neighbours.2 hne
  refine ⟨hne, ⟨step, rotation, occupancy, count, children, hsplits, hsplit⟩, ?_, rfl⟩
  exact ⟨Nat.le_refl _, by decide, by decide⟩

end RotaryTrie.Bucket
