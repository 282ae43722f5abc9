import RotaryTrie.Bucket.Build
import RotaryTrie.Proofs.Separation
import RotaryTrie.Proofs.Slots

/-!
# Guarded steps

The arithmetic of words wraps, a difference of numbers stops at zero, and lists have an answer for
positions beyond their end. A step that leaves its range is therefore not noticed where it happens.
The *guarded* steps of this module do the same as the plain ones as long as these are in range, and
report a *hazard* otherwise. A computation made of guarded steps that reports none has met none.

## What is not guarded

Three operations on words are meant to lose bits: the multiplication at the end of the bit count,
the reduction of a rotation modulo the word, and the shifts to the right. Numbers of entries are
not limited here; a count never exceeds the size of its map, so one width fits both.
-/

set_option autoImplicit false

namespace RotaryTrie

/-- A step that leaves its range. -/
inductive Hazard where
  /-- A check of the trie fails. -/
  | fault (fault : Fault)
  /-- A word is too small for a sum, or for a shifted bit. -/
  | overflow
  /-- A difference is negative. -/
  | underflow
  /-- A list has no such position. -/
  | outOfRange
deriving DecidableEq, Repr

namespace Guarded

/-- Takes a fault as a hazard. -/
def lift {α : Type} (result : Except Fault α) : Except Hazard α := result.mapError .fault

@[simp] theorem lift_ok {α : Type} (a : α) : lift (.ok a) = .ok a := rfl

@[simp] theorem ok_bind {α β : Type} (a : α) (f : α → Except Hazard β) :
    (Except.ok a >>= f) = f a := rfl

/-! ## Words -/

/-- A sum of words. -/
def add (a b : UInt32) : Except Hazard UInt32 :=
  if a.toNat + b.toNat < 2 ^ 32 then .ok (a + b) else .error .overflow

/-- A difference of words. -/
def sub (a b : UInt32) : Except Hazard UInt32 :=
  if b ≤ a then .ok (a - b) else .error .underflow

/-- The word in which only the bit of a slot is set. -/
def bit (slot : UInt32) : Except Hazard UInt32 :=
  if slot < 32 then .ok (1 <<< slot) else .error .overflow

/-- The sums of the pairs of a word. -/
def pairSums (word : UInt32) : Except Hazard UInt32 :=
  sub word ((word >>> 1) &&& (0x55555555 : UInt32))

/-- The sums of neighbouring pairs. -/
def nibbleSums (pairs : UInt32) : Except Hazard UInt32 :=
  add (pairs &&& (0x33333333 : UInt32)) ((pairs >>> 2) &&& (0x33333333 : UInt32))

/-- The sums of neighbouring nibbles. -/
def byteSums (nibbles : UInt32) : Except Hazard UInt32 := do
  let sums ← add nibbles (nibbles >>> 4)
  return sums &&& (0x0f0f0f0f : UInt32)

/-- The number of set bits of a word. -/
def popcount (word : UInt32) : Except Hazard UInt32 := do
  let pairs ← pairSums word
  let nibbles ← nibbleSums pairs
  let bytes ← byteSums nibbles
  return (bytes * 0x01010101) >>> 24

/-- Whether a slot is filled. -/
def holds (occupancy slot : UInt32) : Except Hazard Bool := do
  let own ← bit slot
  return occupancy &&& own != 0

/-- How many slots below a slot are filled. -/
def rank (occupancy slot : UInt32) : Except Hazard ℕ := do
  let own ← bit slot
  let lower ← sub own 1
  let filled ← popcount (occupancy &&& lower)
  return filled.toNat

theorem add_eq {a b : UInt32} (h : a.toNat + b.toNat < 2 ^ 32) : add a b = .ok (a + b) := if_pos h

theorem sub_eq {a b : UInt32} (h : b ≤ a) : sub a b = .ok (a - b) := if_pos h

theorem bit_eq {slot : UInt32} (h : slot < 32) : bit slot = .ok (Bitmap.bit slot) := if_pos h

/-! ### The bit count -/

theorem pairSums_eq (word : UInt32) : pairSums word = .ok (Bitmap.pairSums word) := by
  refine sub_eq ?_
  rw [UInt32.le_iff_toNat_le, UInt32.toNat_and, UInt32.toNat_shiftRight]
  exact Nat.and_le_left.trans (Nat.shiftRight_le _ _)

private theorem toNat_masked_add_le (a b : UInt32) :
    (a &&& (0x33333333 : UInt32)).toNat + (b &&& (0x33333333 : UInt32)).toNat ≤ 0x66666666 := by
  have hle : ∀ word : UInt32, (word &&& (0x33333333 : UInt32)).toNat ≤ 0x33333333 := by
    intro word
    rw [UInt32.toNat_and]
    exact Nat.and_le_right
  exact Nat.add_le_add (hle a) (hle b)

theorem nibbleSums_eq (pairs : UInt32) : nibbleSums pairs = .ok (Bitmap.nibbleSums pairs) :=
  add_eq (lt_of_le_of_lt (toNat_masked_add_le pairs (pairs >>> 2)) (by decide))

theorem byteSums_eq (pairs : UInt32) :
    byteSums (Bitmap.nibbleSums pairs) = .ok (Bitmap.byteSums (Bitmap.nibbleSums pairs)) := by
  have hnibbles : (Bitmap.nibbleSums pairs).toNat ≤ 0x66666666 := by
    rw [Bitmap.nibbleSums, UInt32.toNat_add]
    exact (Nat.mod_le _ _).trans (toNat_masked_add_le pairs (pairs >>> 2))
  have hshift : (Bitmap.nibbleSums pairs >>> 4).toNat ≤ (Bitmap.nibbleSums pairs).toNat := by
    rw [UInt32.toNat_shiftRight]
    exact Nat.shiftRight_le _ _
  rw [byteSums, add_eq (by omega)]
  rfl

/-- **The bit count keeps within words.** Every difference and sum on the way is in range, whatever
the word. -/
theorem popcount_eq (word : UInt32) : popcount word = .ok (Bitmap.popcount word) := by
  rw [popcount, pairSums_eq, ok_bind, nibbleSums_eq, ok_bind, byteSums_eq]
  rfl

/-! ### Slots -/

theorem holds_eq (occupancy : UInt32) {slot : UInt32} (h : slot < 32) :
    holds occupancy slot = .ok (Bitmap.holds occupancy slot) := by
  rw [holds, bit_eq h]
  rfl

theorem rank_eq (occupancy : UInt32) {slot : UInt32} (h : slot < 32) :
    rank occupancy slot = .ok (Bitmap.rank occupancy slot) := by
  rw [rank, bit_eq h, ok_bind, sub_eq (Bitmap.one_le_bit h), ok_bind, popcount_eq]
  rfl

/-! ## Positions -/

section Lists

variable {α : Type}

/-- The item at a position. -/
def item (items : List α) (index : ℕ) : Except Hazard α :=
  match items[index]? with
  | some item => .ok item
  | none => .error .outOfRange

/-- Puts an item at a position, in front of the one that is there or at the end. -/
def insertItem (items : List α) (index : ℕ) (item : α) : Except Hazard (List α) :=
  if index ≤ items.length then .ok (items.insertIdx index item) else .error .outOfRange

/-- Puts another item at a position. -/
def replaceItem (items : List α) (index : ℕ) (item : α) : Except Hazard (List α) :=
  if index < items.length then .ok (items.set index item) else .error .outOfRange

/-- Takes out the item at a position. -/
def removeItem (items : List α) (index : ℕ) : Except Hazard (List α) :=
  if index < items.length then .ok (items.eraseIdx index) else .error .outOfRange

/-- The other one of two positions. -/
def opposite (index : ℕ) : Except Hazard ℕ :=
  if index ≤ 1 then .ok (1 - index) else .error .underflow

theorem insertItem_eq {items : List α} {index : ℕ} (h : index ≤ items.length) (item : α) :
    insertItem items index item = .ok (items.insertIdx index item) := if_pos h

theorem replaceItem_eq {items : List α} {index : ℕ} (h : index < items.length) (item : α) :
    replaceItem items index item = .ok (items.set index item) := if_pos h

theorem removeItem_eq {items : List α} {index : ℕ} (h : index < items.length) :
    removeItem items index = .ok (items.eraseIdx index) := if_pos h

theorem item_eq {items : List α} {index : ℕ} {a : α} (h : items[index]? = some a) :
    item items index = .ok a := by
  rw [item, h]

/-- The other one of two items is what is left without the one. -/
theorem opposite_item_eq {items : List α} {index : ℕ} {other : α} (hlength : items.length = 2)
    (hindex : index < items.length) (h : items.eraseIdx index = [other]) :
    (opposite index >>= item items) = .ok other := by
  match items, hlength with
  | [first, second], _ =>
    rcases index with _ | _ | index
    · exact congrArg Except.ok (List.singleton_inj.mp h)
    · exact congrArg Except.ok (List.singleton_inj.mp h)
    · rw [List.length_cons, List.length_singleton] at hindex
      omega

end Lists

end Guarded

end RotaryTrie
