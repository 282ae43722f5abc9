import Mathlib.Data.Nat.Bitwise
import Mathlib.Data.Nat.Find
import RotaryTrie.Bitmap

/-!
# Rotations that separate

Read bit by bit, the slot of a hash under a rotation is a window of five bits of the hash. Every
position of the word is in some window, so two hashes with a different bit somewhere have different
slots under some rotation, and the search, which tries all of them, finds the first one. Since a
position stays in the window for five steps, the search never needs its last four.
-/

set_option autoImplicit false

namespace RotaryTrie

private theorem toNat_slotMask : slotMask.toNat = 2 ^ 5 - 1 := rfl

theorem slotOf_lt (hash rotation : UInt32) : slotOf hash rotation < 32 := by
  rw [UInt32.lt_iff_toNat_lt, slotOf, UInt32.toNat_and, toNat_slotMask]
  exact lt_of_le_of_lt Nat.and_le_right (by decide)

theorem toNat_and_slotMask (word : UInt32) : (word &&& slotMask).toNat = word.toNat % 32 := by
  rw [UInt32.toNat_and, toNat_slotMask, Nat.and_two_pow_sub_one_eq_mod]

/-- **The window.** A slot consists of the five bits of the hash that start at the rotation, counted
around the end of the word. -/
theorem testBit_slotOf (hash rotation : UInt32) {i : ℕ} (hi : i < 5) :
    (slotOf hash rotation).toNat.testBit i
      = hash.toNat.testBit ((rotation.toNat + i) % 32) := by
  have hbit : ∀ j, hash.toBitVec.getLsbD j = hash.toNat.testBit j := fun _ ↦ rfl
  rw [slotOf, UInt32.toNat_and, Nat.testBit_and, toNat_slotMask, Nat.testBit_two_pow_sub_one,
    decide_eq_true hi, Bool.and_true]
  change (hash.toBitVec.rotateRight (rotation &&& slotMask).toNat).getLsbD i = _
  rw [BitVec.getLsbD_rotateRight, toNat_and_slotMask, hbit, hbit, Bool.cond_decide]
  -- the window ends before the end of the word, or its end comes in again at the bottom
  split
  · congr 1
    omega
  · rw [decide_eq_true (by omega), Bool.true_and]
    congr 1
    omega

theorem toNat_rotationAt (suggested : UInt32) {step : ℕ} (hstep : step < 32) :
    (rotationAt suggested step).toNat = (suggested.toNat + step) % 32 := by
  have hlt : step < 2 ^ 32 := lt_trans hstep (by decide)
  rw [rotationAt, toNat_and_slotMask, UInt32.toNat_add, UInt32.toNat_ofNat_of_lt' hlt,
    Nat.mod_mod_of_dvd _ (by decide)]

theorem rotationAt_lt (suggested : UInt32) {step : ℕ} (hstep : step < 32) :
    rotationAt suggested step < 32 := by
  rw [UInt32.lt_iff_toNat_lt, toNat_rotationAt suggested hstep]
  exact Nat.mod_lt _ (by decide)

/-- Every position comes into the window at some step of the search. It is in five windows that
follow each other, so the last four steps are not needed. -/
private theorem exists_step (suggested : UInt32) {position : ℕ} (hposition : position < 32) :
    ∃ step ≤ 27, ∃ i < 5, ((rotationAt suggested step).toNat + i) % 32 = position := by
  -- the way from the suggestion to the position, around the end of the word
  obtain ⟨way, hway⟩ : ∃ way, way = (position + (32 - suggested.toNat % 32)) % 32 := ⟨_, rfl⟩
  have hlt : way < 32 := by
    rw [hway]
    exact Nat.mod_lt _ (by decide)
  rcases Nat.lt_or_ge way 28 with hnear | hfar
  · refine ⟨way, by omega, 0, by decide, ?_⟩
    rw [toNat_rotationAt suggested hlt]
    omega
  · refine ⟨27, Nat.le_refl _, way - 27, by omega, ?_⟩
    rw [toNat_rotationAt suggested (by decide)]
    omega

private theorem exists_testBit_ne {first second : UInt32} (h : first ≠ second) :
    ∃ position < 32, first.toNat.testBit position ≠ second.toNat.testBit position := by
  by_contra hall
  push Not at hall
  refine h (UInt32.toNat_inj.mp (Nat.eq_of_testBit_eq fun i ↦ ?_))
  rcases Nat.lt_or_ge i 32 with hi | hi
  · exact hall i hi
  · have hpow : 2 ^ 32 ≤ 2 ^ i := Nat.pow_le_pow_right (by decide) hi
    rw [Nat.testBit_lt_two_pow (lt_of_lt_of_le first.toNat_lt hpow),
      Nat.testBit_lt_two_pow (lt_of_lt_of_le second.toNat_lt hpow)]

/-- Two different hashes have different slots at one of the first twenty-eight steps. -/
theorem exists_slotOf_rotationAt_ne (suggested : UInt32) {first second : UInt32}
    (h : first ≠ second) :
    ∃ step ≤ 27,
      slotOf first (rotationAt suggested step) ≠ slotOf second (rotationAt suggested step) := by
  obtain ⟨position, hposition, hbit⟩ := exists_testBit_ne h
  obtain ⟨step, hstep, i, hi, hwindow⟩ := exists_step suggested hposition
  refine ⟨step, hstep, fun hslot ↦ hbit ?_⟩
  -- under this rotation the bit that differs is one of the five
  have hfirst := testBit_slotOf first (rotationAt suggested step) hi
  have hsecond := testBit_slotOf second (rotationAt suggested step) hi
  rw [hwindow] at hfirst hsecond
  rw [← hfirst, ← hsecond, hslot]

/-- A step of the search is the first one at which two hashes have different slots. -/
structure FirstStep (suggested first second : UInt32) (step : ℕ) : Prop where
  /-- The last four steps are not needed. -/
  le : step ≤ 27
  /-- The slots are different. -/
  slotOf_ne : slotOf first (rotationAt suggested step) ≠ slotOf second (rotationAt suggested step)
  /-- They have been the same at all steps before. -/
  slotOf_eq : ∀ earlier < step,
    slotOf first (rotationAt suggested earlier) = slotOf second (rotationAt suggested earlier)

theorem exists_firstStep (suggested : UInt32) {first second : UInt32} (h : first ≠ second) :
    ∃ step, FirstStep suggested first second step := by
  have hexists := exists_slotOf_rotationAt_ne suggested h
  obtain ⟨hle, hne⟩ := Nat.find_spec hexists
  refine ⟨Nat.find hexists, hle, hne, fun earlier hearlier ↦ ?_⟩
  by_contra hslot
  exact Nat.find_min hexists hearlier ⟨hearlier.le.trans hle, hslot⟩

namespace FirstStep

variable {suggested first second : UInt32} {step : ℕ}

theorem swap (h : FirstStep suggested first second step) :
    FirstStep suggested second first step :=
  ⟨h.le, h.slotOf_ne.symm, fun earlier hearlier ↦ (h.slotOf_eq earlier hearlier).symm⟩

/-- The search ends at the first step. -/
theorem separating?_eq (h : FirstStep suggested first second step) :
    separating? suggested first second = some (rotationAt suggested step) := by
  have hfind : (List.range slotCount.toNat).find? (fun step ↦
      slotOf first (rotationAt suggested step) != slotOf second (rotationAt suggested step))
        = some step := by
    refine List.find?_range_eq_some.mpr ⟨bne_iff_ne.mpr h.slotOf_ne, ?_, fun earlier hearlier ↦ ?_⟩
    · exact List.mem_range.mpr (lt_of_le_of_lt h.le (by decide))
    · rw [h.slotOf_eq earlier hearlier, bne_self_eq_false, Bool.not_false]
  rw [separating?, List.find?_map, Function.comp_def, hfind, Option.map_some]

end FirstStep

/-- The search succeeds for two different hashes. -/
theorem exists_separating?_eq (suggested : UInt32) {first second : UInt32} (h : first ≠ second) :
    ∃ rotation, separating? suggested first second = some rotation ∧ rotation < 32 ∧
      slotOf first rotation ≠ slotOf second rotation := by
  obtain ⟨step, hstep⟩ := exists_firstStep suggested h
  have hlt : step < 32 := lt_of_le_of_lt hstep.le (by decide)
  exact ⟨_, hstep.separating?_eq, rotationAt_lt suggested hlt, hstep.slotOf_ne⟩

end RotaryTrie
