import Mathlib.Data.List.Basic
import Mathlib.Data.Nat.Bitwise
import RotaryTrie.Bitmap

/-!
# The parallel bit count

`popcount` is the number of set bits, for every word. The three stages before the multiplication
act on the four bytes of a word separately: what a stage shifts across the boundary of two bytes
is masked out again or stays clear of the bits that are kept. So a stage is determined by what it
does to one byte, where all cases can be tried, and the multiplication adds up four numbers that
are at most eight.
-/

set_option autoImplicit false

namespace RotaryTrie.Bitmap

/-- The number of set bits among the lowest `width` ones of a number. -/
def setBits (width n : ℕ) : ℕ := (List.range width).countP n.testBit

/-! ## Four bytes -/

/-- The number of four bytes, the lowest first. -/
private def ofBytes (a b c d : ℕ) : ℕ := a + 256 * (b + 256 * (c + 256 * d))

private theorem exists_ofBytes (word : UInt32) :
    ∃ a < 256, ∃ b < 256, ∃ c < 256, ∃ d < 256, word.toNat = ofBytes a b c d := by
  have hlt := word.toNat_lt
  refine ⟨word.toNat % 256, ?_, word.toNat / 256 % 256, ?_, word.toNat / 256 ^ 2 % 256, ?_,
    word.toNat / 256 ^ 3, ?_, ?_⟩
  all_goals try rw [ofBytes]
  all_goals omega

private theorem testBit_add_mul {a x : ℕ} (ha : a < 256) (i : ℕ) :
    (a + 256 * x).testBit i = if i < 8 then a.testBit i else x.testBit (i - 8) := by
  rw [Nat.add_comm]
  exact Nat.testBit_two_pow_mul_add (i := 8) x ha i

private theorem and_add_mul {a m x y : ℕ} (ha : a < 256) (hm : m < 256) :
    (a + 256 * x) &&& (m + 256 * y) = (a &&& m) + 256 * (x &&& y) := by
  have ham : a &&& m < 256 := lt_of_le_of_lt Nat.and_le_left ha
  refine Nat.eq_of_testBit_eq fun i ↦ ?_
  rw [Nat.testBit_and, testBit_add_mul ha, testBit_add_mul hm, testBit_add_mul ham]
  split <;> rw [Nat.testBit_and]

private theorem ofBytes_and {a b c m : ℕ} (ha : a < 256) (hb : b < 256) (hc : c < 256)
    (hm : m < 256) (d : ℕ) :
    ofBytes a b c d &&& ofBytes m m m m = ofBytes (a &&& m) (b &&& m) (c &&& m) (d &&& m) := by
  rw [ofBytes, ofBytes, and_add_mul ha hm, and_add_mul hb hm, and_add_mul hc hm, ofBytes]

private theorem setBits_add_mul {a : ℕ} (ha : a < 256) (width x : ℕ) :
    setBits (8 + width) (a + 256 * x) = setBits 8 a + setBits width x := by
  rw [setBits, List.range_add, List.countP_append, List.countP_map]
  congr 1
  · refine List.countP_congr fun i hi ↦ ?_
    rw [testBit_add_mul ha, if_pos (List.mem_range.mp hi)]
  · refine List.countP_congr fun i _ ↦ ?_
    rw [Function.comp_apply, testBit_add_mul ha, if_neg (by omega), Nat.add_sub_cancel_left]

private theorem setBits_ofBytes {a b c : ℕ} (ha : a < 256) (hb : b < 256) (hc : c < 256) (d : ℕ) :
    setBits 32 (ofBytes a b c d) = setBits 8 a + (setBits 8 b + (setBits 8 c + setBits 8 d)) := by
  rw [ofBytes, setBits_add_mul ha 24, setBits_add_mul hb 16, setBits_add_mul hc 8]

/-! ## The stages on one byte -/

/-- The first stage on one byte. -/
private def pairByte (a : ℕ) : ℕ := a - (a / 2 &&& 0x55)

/-- The second stage on one byte. -/
private def nibbleByte (p : ℕ) : ℕ := (p &&& 0x33) + (p / 4 &&& 0x33)

/-- The third stage on one byte. -/
private def byteByte (n : ℕ) : ℕ := n + n / 16 &&& 0x0f

/-- All that the stages do to one byte. The second one leaves two digits of at most four, which
the third one adds. -/
private theorem stages_byte : ∀ a < 256, a / 2 &&& 0x55 ≤ a ∧ pairByte a < 256 ∧
    nibbleByte (pairByte a) ≤ 0x44 ∧ nibbleByte (pairByte a) % 16 ≤ 4 ∧
      byteByte (nibbleByte (pairByte a)) = setBits 8 a ∧ setBits 8 a ≤ 8 := by
  decide +kernel

/-! What the next byte shifts in is masked out. -/

private theorem shift_one_and : ∀ a < 256, ∀ x < 2, a / 2 + 128 * x &&& 0x55 = a / 2 &&& 0x55 := by
  decide +kernel

private theorem shift_two_and : ∀ p < 256, ∀ x < 4, p / 4 + 64 * x &&& 0x33 = p / 4 &&& 0x33 := by
  decide +kernel

private theorem shift_four_and :
    ∀ n < 0x45, ∀ x < 5, n + n / 16 + 16 * x &&& 0x0f = n + n / 16 &&& 0x0f := by
  decide +kernel

/-! ## The stages on a word -/

private theorem toNat_pairSums {word : UInt32} {a b c d : ℕ} (ha : a < 256) (hb : b < 256)
    (hc : c < 256) (hd : d < 256) (h : word.toNat = ofBytes a b c d) :
    (pairSums word).toNat = ofBytes (pairByte a) (pairByte b) (pairByte c) (pairByte d) := by
  have hshift : word.toNat / 2 = ofBytes (a / 2 + 128 * (b % 2)) (b / 2 + 128 * (c % 2))
      (c / 2 + 128 * (d % 2)) (d / 2 + 128 * 0) := by
    rw [h, ofBytes, ofBytes]
    omega
  have hodd : ((word >>> 1) &&& (0x55555555 : UInt32)).toNat
      = ofBytes (a / 2 &&& 0x55) (b / 2 &&& 0x55) (c / 2 &&& 0x55) (d / 2 &&& 0x55) := by
    have hmask : (0x55555555 : UInt32).toNat = ofBytes 0x55 0x55 0x55 0x55 := rfl
    rw [UInt32.toNat_and, hmask, UInt32.toNat_shiftRight]
    change word.toNat >>> 1 &&& _ = _
    rw [Nat.shiftRight_eq_div_pow, pow_one, hshift,
      ofBytes_and (by omega) (by omega) (by omega) (by omega),
      shift_one_and a ha _ (by omega), shift_one_and b hb _ (by omega),
      shift_one_and c hc _ (by omega), shift_one_and d hd _ (by omega)]
  -- the subtraction does not borrow, neither on the word nor between its bytes
  have hle : (word >>> 1) &&& (0x55555555 : UInt32) ≤ word := by
    rw [UInt32.le_iff_toNat_le, UInt32.toNat_and, UInt32.toNat_shiftRight]
    exact Nat.and_le_left.trans (Nat.shiftRight_le _ _)
  obtain ⟨ha', -⟩ := stages_byte a ha
  obtain ⟨hb', -⟩ := stages_byte b hb
  obtain ⟨hc', -⟩ := stages_byte c hc
  obtain ⟨hd', -⟩ := stages_byte d hd
  rw [pairSums, UInt32.toNat_sub_of_le _ _ hle, hodd, h]
  simp only [ofBytes, pairByte]
  omega

private theorem toNat_nibbleSums {pairs : UInt32} {a b c d : ℕ} (ha : a < 256) (hb : b < 256)
    (hc : c < 256) (hd : d < 256) (h : pairs.toNat = ofBytes a b c d) :
    (nibbleSums pairs).toNat
      = ofBytes (nibbleByte a) (nibbleByte b) (nibbleByte c) (nibbleByte d) := by
  have hmask : (0x33333333 : UInt32).toNat = ofBytes 0x33 0x33 0x33 0x33 := rfl
  have hshift : pairs.toNat / 4 = ofBytes (a / 4 + 64 * (b % 4)) (b / 4 + 64 * (c % 4))
      (c / 4 + 64 * (d % 4)) (d / 4 + 64 * 0) := by
    rw [h, ofBytes, ofBytes]
    omega
  have heven : (pairs &&& (0x33333333 : UInt32)).toNat
      = ofBytes (a &&& 0x33) (b &&& 0x33) (c &&& 0x33) (d &&& 0x33) := by
    rw [UInt32.toNat_and, hmask, h, ofBytes_and ha hb hc (by omega)]
  have hodd : ((pairs >>> 2) &&& (0x33333333 : UInt32)).toNat
      = ofBytes (a / 4 &&& 0x33) (b / 4 &&& 0x33) (c / 4 &&& 0x33) (d / 4 &&& 0x33) := by
    rw [UInt32.toNat_and, hmask, UInt32.toNat_shiftRight]
    change pairs.toNat >>> 2 &&& _ = _
    rw [Nat.shiftRight_eq_div_pow, show 2 ^ 2 = 4 from rfl, hshift,
      ofBytes_and (by omega) (by omega) (by omega) (by omega),
      shift_two_and a ha _ (by omega), shift_two_and b hb _ (by omega),
      shift_two_and c hc _ (by omega), shift_two_and d hd _ (by omega)]
  -- no byte of the sum is more than twice the mask, so there is no carry
  have hle : ∀ x, x &&& 0x33 ≤ 0x33 := fun x ↦ Nat.and_le_right
  have hlow := And.intro (hle a) (And.intro (hle b) (And.intro (hle c) (hle d)))
  have hhigh := And.intro (hle (a / 4)) (And.intro (hle (b / 4)) (And.intro (hle (c / 4))
    (hle (d / 4))))
  rw [nibbleSums, UInt32.toNat_add, heven, hodd]
  simp only [ofBytes, nibbleByte]
  omega

private theorem toNat_byteSums {nibbles : UInt32} {a b c d : ℕ} (ha : a ≤ 0x44) (hb : b ≤ 0x44)
    (hc : c ≤ 0x44) (hd : d ≤ 0x44) (hb' : b % 16 ≤ 4) (hc' : c % 16 ≤ 4) (hd' : d % 16 ≤ 4)
    (h : nibbles.toNat = ofBytes a b c d) :
    (byteSums nibbles).toNat = ofBytes (byteByte a) (byteByte b) (byteByte c) (byteByte d) := by
  have hmask : (0x0f0f0f0f : UInt32).toNat = ofBytes 0x0f 0x0f 0x0f 0x0f := rfl
  have hsum : (nibbles + (nibbles >>> 4)).toNat
      = ofBytes (a + a / 16 + 16 * (b % 16)) (b + b / 16 + 16 * (c % 16))
        (c + c / 16 + 16 * (d % 16)) (d + d / 16 + 16 * 0) := by
    rw [UInt32.toNat_add, UInt32.toNat_shiftRight]
    change (nibbles.toNat + nibbles.toNat >>> 4) % 2 ^ 32 = _
    rw [Nat.shiftRight_eq_div_pow, h, ofBytes, ofBytes]
    omega
  rw [byteSums, UInt32.toNat_and, hmask, hsum,
    ofBytes_and (by omega) (by omega) (by omega) (by omega),
    shift_four_and a (by omega) _ (by omega), shift_four_and b (by omega) _ (by omega),
    shift_four_and c (by omega) _ (by omega), shift_four_and d (by omega) _ (by omega)]
  simp only [byteByte]

/-- Multiplying by `0x01010101` brings the sum of four bytes into the highest one. -/
private theorem ofBytes_mul_mod_div {a b c d : ℕ} (ha : a ≤ 8) (hb : b ≤ 8) (hc : c ≤ 8)
    (hd : d ≤ 8) : ofBytes a b c d * 0x01010101 % 2 ^ 32 / 2 ^ 24 = a + (b + (c + d)) := by
  have hsum : ofBytes a b c d * 0x01010101
      = 2 ^ 32 * ((b + c + d) + 256 * (c + d) + 65536 * d)
        + (2 ^ 24 * (a + (b + (c + d))) + (65536 * (a + b + c) + 256 * (a + b) + a)) := by
    rw [ofBytes]
    omega
  rw [hsum, Nat.mul_add_mod, Nat.mod_eq_of_lt (by omega)]
  omega

/-- **The bit count.** `popcount` is the number of set bits of a word. -/
theorem toNat_popcount (word : UInt32) : (popcount word).toNat = setBits 32 word.toNat := by
  obtain ⟨a, ha, b, hb, c, hc, d, hd, h⟩ := exists_ofBytes word
  obtain ⟨-, hpa, hna, hma, hsa, hla⟩ := stages_byte a ha
  obtain ⟨-, hpb, hnb, hmb, hsb, hlb⟩ := stages_byte b hb
  obtain ⟨-, hpc, hnc, hmc, hsc, hlc⟩ := stages_byte c hc
  obtain ⟨-, hpd, hnd, hmd, hsd, hld⟩ := stages_byte d hd
  have hsums : (byteSums (nibbleSums (pairSums word))).toNat
      = ofBytes (setBits 8 a) (setBits 8 b) (setBits 8 c) (setBits 8 d) := by
    rw [← hsa, ← hsb, ← hsc, ← hsd]
    exact toNat_byteSums hna hnb hnc hnd hmb hmc hmd
      (toNat_nibbleSums hpa hpb hpc hpd (toNat_pairSums ha hb hc hd h))
  rw [h, setBits_ofBytes ha hb hc, popcount, UInt32.toNat_shiftRight, UInt32.toNat_mul, hsums]
  change (_ * 0x01010101 % 2 ^ 32) >>> 24 = _
  rw [Nat.shiftRight_eq_div_pow, ofBytes_mul_mod_div hla hlb hlc hld]

end RotaryTrie.Bitmap
