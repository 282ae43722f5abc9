import Mathlib.Logic.Function.Basic
import RotaryTrie.Proofs.Guards
import RotaryTrie.Proofs.Sound

/-!
# Words and lists in step

A list is in step with an occupancy word if it has as many items as the word has bits. Each filled
slot then has an item of its own, the one at the slot's rank, because ranks number the filled slots
in increasing order without gaps. Filling, refilling and vacating a slot, in the word and in the
list, keeps the two in step and changes what is found in this slot and in no other, although the
items behind it move.

## Lists of values

`Forall₂` between the slots of a word and a list says that the list consists of the values that a
function has at these slots. A lookup in such a list is the function, so each operation on the list
amounts to an update of the function at one slot.
-/

set_option autoImplicit false

namespace RotaryTrie

open Bitmap

namespace Bitmap

/-! ## Ranks -/

/-- Counting the bits of a word gives their number, and no step of it leaves the word. -/
structure CountsBits (word : UInt32) : Prop where
  /-- The result. -/
  toNat_eq : (popcount word).toNat = setBits 32 word.toNat
  /-- The sums and differences on the way. -/
  guarded_eq : Guarded.popcount word = .ok (popcount word)

/-- The ranks of a word number its filled slots from the lowest one on. -/
structure NumbersSlots (occupancy : UInt32) : Prop where
  /-- The rank of a slot, filled or not, is the number of bits below. -/
  rank_eq : ∀ slot < 32, rank occupancy slot = setBits slot.toNat occupancy.toNat
  /-- No step on the way to a rank leaves the word. -/
  guarded_eq : ∀ slot < 32, Guarded.rank occupancy slot = .ok (rank occupancy slot)
  /-- A higher one of two filled slots has the higher rank. -/
  rank_lt_rank : ∀ low < 32, ∀ high < 32, holds occupancy low = true →
    holds occupancy high = true → low < high → rank occupancy low < rank occupancy high
  /-- The ranks of the filled slots are the numbers up to that of the bits. -/
  exists_rank_eq_iff : ∀ index, (∃ slot < 32, holds occupancy slot = true ∧
    rank occupancy slot = index) ↔ index < (popcount occupancy).toNat

theorem rank_eq_setBits (occupancy : UInt32) {slot : UInt32} (hslot : slot < 32) :
    rank occupancy slot = setBits slot.toNat occupancy.toNat := by
  have hle : slot.toNat ≤ 32 := (UInt32.lt_iff_toNat_lt.mp hslot).le
  -- the word that is counted has the bits below the slot and no others
  have hbit : ∀ i, (occupancy &&& (bit slot - 1)).toNat.testBit i
      = (occupancy.toNat.testBit i && decide (i < slot.toNat)) := by
    intro i
    rw [UInt32.toNat_and, Nat.testBit_and, toNat_bit_sub_one hslot, Nat.testBit_two_pow_sub_one]
  have hlow : (List.range slot.toNat).countP (occupancy &&& (bit slot - 1)).toNat.testBit
      = (List.range slot.toNat).countP occupancy.toNat.testBit := by
    refine List.countP_congr fun i hi ↦ ?_
    rw [hbit, decide_eq_true (List.mem_range.mp hi), Bool.and_true]
  have hhigh : ((List.range (32 - slot.toNat)).map (slot.toNat + ·)).countP
      (occupancy &&& (bit slot - 1)).toNat.testBit = 0 := by
    refine List.countP_eq_zero.mpr fun i hi ↦ ?_
    obtain ⟨above, -, rfl⟩ := List.mem_map.mp hi
    rw [hbit, decide_eq_false (by omega), Bool.and_false]
    exact Bool.false_ne_true
  rw [rank, toNat_popcount, setBits, setBits, ← Nat.add_sub_cancel' hle, List.range_add,
    List.countP_append, hlow, hhigh, Nat.add_zero]

theorem countsBits (word : UInt32) : CountsBits word where
  toNat_eq := toNat_popcount word
  guarded_eq := Guarded.popcount_eq word

theorem rank_lt_rank {occupancy low high : UInt32} (hlow : low < 32) (hhigh : high < 32)
    (hlow' : holds occupancy low = true) (hhigh' : holds occupancy high = true)
    (h : low < high) : rank occupancy low < rank occupancy high := by
  obtain ⟨hlt, hlow⟩ := List.getElem?_eq_some_iff.mp (getElem?_slots_rank hlow hlow')
  obtain ⟨hlt', hhigh⟩ := List.getElem?_eq_some_iff.mp (getElem?_slots_rank hhigh hhigh')
  have hpairwise := List.pairwise_iff_getElem.mp (pairwise_slots occupancy)
  rcases Nat.lt_trichotomy (rank occupancy low) (rank occupancy high) with hrank | hrank | hrank
  · exact hrank
  · simp only [hrank, hhigh] at hlow
    exact absurd h (hlow ▸ UInt32.lt_irrefl _)
  · have hslots := hpairwise _ _ hlt' hlt hrank
    rw [hlow, hhigh] at hslots
    exact absurd h (UInt32.lt_asymm hslots)

theorem exists_rank_eq_iff (occupancy : UInt32) (index : ℕ) :
    (∃ slot < 32, holds occupancy slot = true ∧ rank occupancy slot = index)
      ↔ index < (popcount occupancy).toNat := by
  rw [← length_slots]
  constructor
  · rintro ⟨slot, hslot, hholds, rfl⟩
    exact (List.getElem?_eq_some_iff.mp (getElem?_slots_rank hslot hholds)).1
  · intro hindex
    have hget : (slots occupancy)[index]? = some (slots occupancy)[index] :=
      List.getElem?_eq_getElem hindex
    obtain ⟨hslot, hholds⟩ := mem_slots.mp (List.mem_of_getElem? hget)
    exact ⟨_, hslot, hholds, rank_eq_of_getElem?_slots hget⟩

theorem numbersSlots (occupancy : UInt32) : NumbersSlots occupancy where
  rank_eq _ hslot := rank_eq_setBits occupancy hslot
  guarded_eq _ hslot := Guarded.rank_eq occupancy hslot
  rank_lt_rank _ hlow _ hhigh := rank_lt_rank hlow hhigh
  exists_rank_eq_iff := exists_rank_eq_iff occupancy

end Bitmap

namespace Dense

variable {α : Type} {occupancy changed slot : UInt32} {items made : List α} {found : Option α}
  {f : UInt32 → Option α}

/-! ## Lists of values -/

/-- A list as long as its word consists of what is looked up in it. -/
theorem forall₂_get? (h : items.length = (popcount occupancy).toNat) :
    List.Forall₂ (fun slot item ↦ get? occupancy slot items = some item) (slots occupancy)
      items := by
  rw [← length_slots] at h
  refine List.forall₂_iff_get.mpr ⟨h.symm, fun index hslots hitems ↦ ?_⟩
  have hget : (slots occupancy)[index]? = some (slots occupancy)[index] :=
    List.getElem?_eq_getElem hslots
  obtain ⟨-, hholds⟩ := mem_slots.mp (List.mem_of_getElem? hget)
  rw [List.get_eq_getElem, List.get_eq_getElem, get?, if_pos hholds,
    rank_eq_of_getElem?_slots hget, List.getElem?_eq_getElem hitems]

/-- What is looked up in a list of values is the value. -/
theorem get?_eq_of_forall₂
    (h : List.Forall₂ (fun slot item ↦ f slot = some item) (slots occupancy) items)
    (hslot : slot < 32) (hholds : holds occupancy slot = true) :
    get? occupancy slot items = f slot := by
  obtain ⟨front, item, rest, rfl, hfront, hitem, -⟩ := exists_append_cons h hslot hholds
  rw [get?, if_pos hholds, getElem?_rank item (length_eq_rank hfront hslot), hitem]

theorem get?_eq_none (hholds : holds occupancy slot = false) : get? occupancy slot items = none :=
  if_neg (Bool.eq_false_iff.mp hholds)

/-- Away from one slot, an update there does not show. -/
private theorem forall₂_update {l : List UInt32} (hl : ∀ other ∈ l, other ≠ slot)
    (h : List.Forall₂ (fun other item ↦ f other = some item) l items) :
    List.Forall₂ (fun other item ↦ Function.update f slot found other = some item) l items := by
  have hboth := (List.forall₂_and_left l items).mpr ⟨hl, h⟩
  refine hboth.imp fun other item hother ↦ ?_
  rw [Function.update_of_ne hother.1, hother.2]

/-! ## One slot -/

/-- What a list in step with a word becomes when one slot is changed in both. -/
structure SlotChange (occupancy changed slot : UInt32) (items made : List α) (found : Option α) :
    Prop where
  /-- It is in step with the new word. -/
  length_eq : made.length = (popcount changed).toNat
  /-- This is found in the slot from now on. -/
  get?_self : get? changed slot made = found
  /-- In any other slot, the same is found as before. -/
  get?_of_ne : ∀ other < 32, other ≠ slot → get? changed other made = get? occupancy other items

/-- A list of the updated values has changed in the one slot. -/
private theorem SlotChange.of_forall₂ (hslot : slot < 32)
    (hself : holds changed slot = found.isSome)
    (hothers : ∀ other < 32, other ≠ slot → holds changed other = holds occupancy other)
    (h : List.Forall₂ (fun other item ↦
      Function.update (get? occupancy · items) slot found other = some item) (slots changed) made) :
    SlotChange occupancy changed slot items made found where
  length_eq := by rw [← h.length_eq, length_slots]
  get?_self := by
    cases found with
    | none => exact get?_eq_none hself
    | some item => rw [get?_eq_of_forall₂ h hslot hself, Function.update_self]
  get?_of_ne other hother hne := by
    cases hholds : holds occupancy other with
    | false => rw [get?_eq_none hholds, get?_eq_none ((hothers other hother hne).trans hholds)]
    | true =>
      rw [get?_eq_of_forall₂ h hother ((hothers other hother hne).trans hholds),
        Function.update_of_ne hne]

/-- A list that is in step with a word can be changed in every slot. -/
structure InStep (occupancy : UInt32) (items : List α) : Prop where
  /-- Every filled slot has an item. -/
  exists_get?_eq : ∀ slot < 32, holds occupancy slot = true →
    ∃ item, get? occupancy slot items = some item
  /-- An item comes into an empty slot. -/
  insert : ∀ slot < 32, holds occupancy slot = false → ∀ item,
    Guarded.insertItem items (rank occupancy slot) item = .ok (insert occupancy slot item items) ∧
    SlotChange occupancy (fill occupancy slot) slot items (insert occupancy slot item items)
      (some item)
  /-- Another item comes into a filled slot. -/
  replace : ∀ slot < 32, holds occupancy slot = true → ∀ item,
    Guarded.replaceItem items (rank occupancy slot) item = .ok (replace occupancy slot item items) ∧
    SlotChange occupancy occupancy slot items (replace occupancy slot item items) (some item)
  /-- The item leaves a filled slot. -/
  erase : ∀ slot < 32, holds occupancy slot = true →
    Guarded.removeItem items (rank occupancy slot) = .ok (erase occupancy slot items) ∧
    SlotChange occupancy (vacate occupancy slot) slot items (erase occupancy slot items) none

section Length

variable (h : items.length = (popcount occupancy).toNat) (hslot : slot < 32)
include h hslot

theorem insert_of_length (hholds : holds occupancy slot = false) (item : α) :
    Guarded.insertItem items (rank occupancy slot) item = .ok (insert occupancy slot item items) ∧
    SlotChange occupancy (fill occupancy slot) slot items (insert occupancy slot item items)
      (some item) := by
  obtain ⟨front, rest, hitems, hfront, hrest⟩ := exists_append (forall₂_get? h) hholds
  have hlength := length_eq_rank hfront hslot
  constructor
  · apply Guarded.insertItem_eq
    rw [hitems, List.length_append, hlength]
    exact Nat.le_add_right _ _
  · refine .of_forall₂ hslot ?_ (fun other hother hne ↦ ?_) ?_
    · rw [holds_fill _ hslot hslot, beq_self_eq_true, Bool.or_true]
      rfl
    · rw [holds_fill _ hslot hother, beq_eq_false_iff_ne.mpr hne.symm, Bool.or_false]
    · have hmade : insert occupancy slot item items = front ++ item :: rest := by
        rw [hitems, insert_append item hlength]
      rw [hmade, slots_fill hslot]
      refine List.rel_append (forall₂_update (fun _ ↦ ne_of_mem_below) hfront) (.cons ?_ ?_)
      · rw [Function.update_self]
      · exact forall₂_update (fun _ ↦ ne_of_mem_above) hrest

variable (hholds : holds occupancy slot = true)
include hholds

theorem replace_of_length (item : α) :
    Guarded.replaceItem items (rank occupancy slot) item = .ok (replace occupancy slot item items) ∧
    SlotChange occupancy occupancy slot items (replace occupancy slot item items) (some item) := by
  obtain ⟨front, old, rest, hitems, hfront, -, hrest⟩ :=
    exists_append_cons (forall₂_get? h) hslot hholds
  have hlength := length_eq_rank hfront hslot
  constructor
  · apply Guarded.replaceItem_eq
    rw [hitems, List.length_append, List.length_cons, hlength]
    omega
  · refine .of_forall₂ hslot hholds (fun _ _ _ ↦ rfl) ?_
    have hmade : replace occupancy slot item items = front ++ item :: rest := by
      rw [hitems, replace_append_cons old item hlength]
    rw [hmade, slots_eq_of_holds hslot hholds]
    refine List.rel_append (forall₂_update (fun _ ↦ ne_of_mem_below) hfront) (.cons ?_ ?_)
    · rw [Function.update_self]
    · exact forall₂_update (fun _ ↦ ne_of_mem_above) hrest

theorem erase_of_length :
    Guarded.removeItem items (rank occupancy slot) = .ok (erase occupancy slot items) ∧
    SlotChange occupancy (vacate occupancy slot) slot items (erase occupancy slot items) none := by
  obtain ⟨front, old, rest, hitems, hfront, -, hrest⟩ :=
    exists_append_cons (forall₂_get? h) hslot hholds
  have hlength := length_eq_rank hfront hslot
  constructor
  · apply Guarded.removeItem_eq
    rw [hitems, List.length_append, List.length_cons, hlength]
    omega
  · refine .of_forall₂ hslot ?_ (fun other hother hne ↦ ?_) ?_
    · rw [holds_vacate _ hslot hslot, bne_self_eq_false, Bool.and_false]
      rfl
    · rw [holds_vacate _ hslot hother, bne_iff_ne.mpr hne.symm, Bool.and_true]
    · have hmade : erase occupancy slot items = front ++ rest := by
        rw [hitems, erase_append_cons old hlength]
      rw [hmade, slots_vacate hslot]
      exact List.rel_append (forall₂_update (fun _ ↦ ne_of_mem_below) hfront)
        (forall₂_update (fun _ ↦ ne_of_mem_above) hrest)

end Length

theorem inStep_of_length (h : items.length = (popcount occupancy).toNat) :
    InStep occupancy items where
  exists_get?_eq slot hslot hholds := by
    obtain ⟨front, item, rest, -, -, hitem, -⟩ :=
      exists_append_cons (forall₂_get? h) hslot hholds
    exact ⟨item, hitem⟩
  insert _ hslot hholds := insert_of_length h hslot hholds
  replace _ hslot hholds := replace_of_length h hslot hholds
  erase _ hslot hholds := erase_of_length h hslot hholds

/-- **Words and lists stay in step.** Bits are counted right for every word, ranks number the filled
slots, and whatever is done to a slot of a word and of a list in step with it leaves the two in step
and all other slots as they are. -/
theorem stays_in_step : (∀ word, CountsBits word) ∧ (∀ occupancy, NumbersSlots occupancy) ∧
    ∀ (α : Type) (occupancy : UInt32) (items : List α),
      items.length = (popcount occupancy).toNat → InStep occupancy items :=
  ⟨countsBits, numbersSlots, fun _ _ _ ↦ inStep_of_length⟩

/-- Items in the lowest and the highest slot and in two between. -/
def scatteredItems : List ℕ := [10, 20, 30, 40]

theorem stays_in_step_scatteredItems :
    scatteredItems.length = (popcount 0x80000811).toNat ∧ InStep 0x80000811 scatteredItems ∧
      get? (fill 0x80000811 7) 11 (insert 0x80000811 7 25 scatteredItems) = some 30 ∧
      get? (vacate 0x80000811 4) 31 (erase 0x80000811 4 scatteredItems) = some 40 := by
  have hlength : scatteredItems.length = (popcount 0x80000811).toNat := by decide
  exact ⟨hlength, stays_in_step.2.2 ℕ _ _ hlength, by decide, by decide⟩

end Dense

end RotaryTrie
