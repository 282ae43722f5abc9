import Mathlib.Data.List.Sort
import RotaryTrie.Proofs.Popcount

/-!
# The filled slots of an occupancy word

`slots` lists the filled slots of a word in increasing order. It is what the word says once its
coding in bits is left out, and the children of a trie node stand in the order of this list.

## Surgery

Filling a slot puts it into the list, vacating it takes it out, and in both cases the slots below
and above stay what they are. The rank of a slot is the number of those below. So everything that
is done to the list of children at a rank is done to `slots` at the same place.
-/

set_option autoImplicit false

namespace RotaryTrie.Bitmap

/-! ## Single bits -/

private theorem toNat_lt_of_lt {slot : UInt32} (hslot : slot < 32) : slot.toNat < 32 :=
  UInt32.lt_iff_toNat_lt.mp hslot

private theorem toNat_ofNat_slot {i : ℕ} (hi : i < 32) : (UInt32.ofNat i).toNat = i :=
  UInt32.toNat_ofNat_of_lt' (lt_trans hi (by decide))

private theorem ofNat_lt {i : ℕ} (hi : i < 32) : UInt32.ofNat i < 32 := by
  rw [UInt32.lt_iff_toNat_lt, toNat_ofNat_slot hi]
  exact hi

theorem toNat_bit {slot : UInt32} (hslot : slot < 32) :
    (bit slot).toNat = 2 ^ slot.toNat := by
  have hlt := toNat_lt_of_lt hslot
  have hpow : 2 ^ slot.toNat < 2 ^ 32 := Nat.pow_lt_pow_right (by decide) hlt
  rw [bit, UInt32.toNat_shiftLeft, Nat.mod_eq_of_lt hlt, Nat.shiftLeft_eq, UInt32.toNat_one,
    Nat.one_mul, Nat.mod_eq_of_lt hpow]

theorem one_le_bit {slot : UInt32} (hslot : slot < 32) : 1 ≤ bit slot := by
  rw [UInt32.le_iff_toNat_le, toNat_bit hslot]
  exact Nat.one_le_two_pow

private theorem testBit_bit {s t : UInt32} (hs : s < 32) :
    (bit s).toNat.testBit t.toNat = (s == t) := by
  rw [toNat_bit hs, Nat.testBit_two_pow, Bool.eq_iff_iff, decide_eq_true_iff, beq_iff_eq,
    UInt32.toNat_inj]

theorem holds_eq_testBit (occupancy : UInt32) {slot : UInt32} (hslot : slot < 32) :
    holds occupancy slot = occupancy.toNat.testBit slot.toNat := by
  have hand : (occupancy &&& bit slot).toNat
      = (occupancy.toNat.testBit slot.toNat).toNat * 2 ^ slot.toNat := by
    rw [UInt32.toNat_and, toNat_bit hslot, Nat.and_two_pow]
  have hzero : occupancy &&& bit slot = 0 ↔ occupancy.toNat.testBit slot.toNat = false := by
    rw [← UInt32.toNat_inj, hand, UInt32.toNat_zero]
    cases occupancy.toNat.testBit slot.toNat <;> simp
  cases h : occupancy.toNat.testBit slot.toNat with
  | false => rw [holds, hzero.mpr h, bne_self_eq_false]
  | true =>
    rw [holds, bne_iff_ne, ne_eq, hzero, h]
    exact Bool.noConfusion

theorem holds_bit {s t : UInt32} (hs : s < 32) (ht : t < 32) : holds (bit s) t = (s == t) := by
  rw [holds_eq_testBit _ ht, testBit_bit hs]

theorem holds_or (a b : UInt32) {slot : UInt32} (hslot : slot < 32) :
    holds (a ||| b) slot = (holds a slot || holds b slot) := by
  rw [holds_eq_testBit _ hslot, holds_eq_testBit _ hslot, holds_eq_testBit _ hslot,
    UInt32.toNat_or, Nat.testBit_or]

theorem holds_fill (occupancy : UInt32) {s t : UInt32} (hs : s < 32) (ht : t < 32) :
    holds (fill occupancy s) t = (holds occupancy t || s == t) := by
  rw [fill, holds_or _ _ ht, holds_bit hs ht]

theorem holds_vacate (occupancy : UInt32) {s t : UInt32} (hs : s < 32) (ht : t < 32) :
    holds (vacate occupancy s) t = (holds occupancy t && s != t) := by
  have hnot : (~~~bit s).toNat.testBit t.toNat = !(bit s).toNat.testBit t.toNat := by
    -- the complement, a subtraction from the largest word, flips every bit
    have hbit := (bit s).toNat_lt
    rw [UInt32.toNat_not, UInt32.size,
      show 4294967296 - 1 - (bit s).toNat = 2 ^ 32 - ((bit s).toNat + 1) by omega,
      Nat.testBit_two_pow_sub_succ hbit, decide_eq_true (toNat_lt_of_lt ht), Bool.true_and]
  rw [holds_eq_testBit _ ht, holds_eq_testBit _ ht, vacate, UInt32.toNat_and, Nat.testBit_and,
    hnot, testBit_bit hs]
  rfl

/-- The bits below a slot. -/
theorem toNat_bit_sub_one {slot : UInt32} (hslot : slot < 32) :
    (bit slot - 1).toNat = 2 ^ slot.toNat - 1 := by
  rw [UInt32.toNat_sub_of_le _ _ (one_le_bit hslot), toNat_bit hslot, UInt32.toNat_one]

private theorem holds_and_bit_sub_one (occupancy : UInt32) {s t : UInt32} (hs : s < 32)
    (ht : t < 32) :
    holds (occupancy &&& (bit s - 1)) t = (holds occupancy t && decide (t < s)) := by
  rw [holds_eq_testBit _ ht, holds_eq_testBit _ ht, UInt32.toNat_and, Nat.testBit_and,
    toNat_bit_sub_one hs, Nat.testBit_two_pow_sub_one]
  rfl

/-- A word is determined by its slots. -/
theorem eq_of_holds {a b : UInt32} (h : ∀ slot < 32, holds a slot = holds b slot) : a = b := by
  have hhigh : ∀ (word : UInt32) {i : ℕ}, 32 ≤ i → word.toNat.testBit i = false := by
    intro word i hi
    have hpow : 2 ^ 32 ≤ 2 ^ i := Nat.pow_le_pow_right (by decide) hi
    exact Nat.testBit_lt_two_pow (lt_of_lt_of_le word.toNat_lt hpow)
  refine UInt32.toNat_inj.mp (Nat.eq_of_testBit_eq fun i ↦ ?_)
  rcases Nat.lt_or_ge i 32 with hi | hi
  · have hslot := h (UInt32.ofNat i) (ofNat_lt hi)
    rwa [holds_eq_testBit _ (ofNat_lt hi), holds_eq_testBit _ (ofNat_lt hi),
      toNat_ofNat_slot hi] at hslot
  · rw [hhigh a hi, hhigh b hi]

/-! ## The list of slots -/

/-- The filled slots, in increasing order. -/
def slots (occupancy : UInt32) : List UInt32 :=
  ((List.range 32).map UInt32.ofNat).filter (holds occupancy)

theorem mem_slots {occupancy slot : UInt32} :
    slot ∈ slots occupancy ↔ slot < 32 ∧ holds occupancy slot = true := by
  rw [slots, List.mem_filter, List.mem_map]
  refine and_congr_left fun _ ↦ ⟨?_, fun hslot ↦ ?_⟩
  · rintro ⟨i, hi, rfl⟩
    exact ofNat_lt (List.mem_range.mp hi)
  · exact ⟨slot.toNat, List.mem_range.mpr (toNat_lt_of_lt hslot), UInt32.ofNat_toNat⟩

theorem lt_of_mem_slots {occupancy slot : UInt32} (h : slot ∈ slots occupancy) : slot < 32 :=
  (mem_slots.mp h).1

theorem pairwise_slots (occupancy : UInt32) : (slots occupancy).Pairwise (· < ·) := by
  refine List.Pairwise.filter _ (List.pairwise_map.mpr ?_)
  refine List.pairwise_lt_range.imp_of_mem fun hi hj h ↦ ?_
  rw [UInt32.lt_iff_toNat_lt, toNat_ofNat_slot (List.mem_range.mp hi),
    toNat_ofNat_slot (List.mem_range.mp hj)]
  exact h

theorem length_slots (occupancy : UInt32) :
    (slots occupancy).length = (popcount occupancy).toNat := by
  rw [toNat_popcount, setBits, slots, ← List.countP_eq_length_filter, List.countP_map]
  refine List.countP_congr fun i hi ↦ ?_
  have hi := List.mem_range.mp hi
  rw [Function.comp_apply, holds_eq_testBit _ (ofNat_lt hi), toNat_ofNat_slot hi]

/-- An increasing list with the right members is the list of slots. -/
theorem eq_slots {occupancy : UInt32} {l : List UInt32} (hl : l.Pairwise (· < ·))
    (hmem : ∀ slot, slot ∈ l ↔ slot < 32 ∧ holds occupancy slot = true) : slots occupancy = l := by
  -- two increasing lists with the same members are equal
  have : @Std.Antisymm UInt32 (· < ·) :=
    ⟨fun _ _ hab hba ↦ absurd (UInt32.lt_trans hab hba) (UInt32.lt_irrefl _)⟩
  refine (pairwise_slots occupancy).eq_of_mem_iff hl fun slot ↦ ?_
  rw [hmem, mem_slots]

/-! ## Below and above a slot -/

/-- The filled slots below a slot. -/
def below (occupancy slot : UInt32) : List UInt32 :=
  (slots occupancy).filter fun other ↦ decide (other < slot)

/-- The filled slots above a slot. -/
def above (occupancy slot : UInt32) : List UInt32 :=
  (slots occupancy).filter fun other ↦ decide (slot < other)

private theorem mem_below {occupancy slot other : UInt32} :
    other ∈ below occupancy slot ↔ (other < 32 ∧ holds occupancy other = true) ∧ other < slot := by
  rw [below, List.mem_filter, mem_slots, decide_eq_true_iff]

private theorem mem_above {occupancy slot other : UInt32} :
    other ∈ above occupancy slot ↔ (other < 32 ∧ holds occupancy other = true) ∧ slot < other := by
  rw [above, List.mem_filter, mem_slots, decide_eq_true_iff]

theorem ne_of_mem_below {occupancy slot other : UInt32} (h : other ∈ below occupancy slot) :
    other ≠ slot :=
  UInt32.ne_of_lt (mem_below.mp h).2

theorem ne_of_mem_above {occupancy slot other : UInt32} (h : other ∈ above occupancy slot) :
    other ≠ slot :=
  (UInt32.ne_of_lt (mem_above.mp h).2).symm

theorem length_below (occupancy : UInt32) {slot : UInt32} (hslot : slot < 32) :
    (below occupancy slot).length = rank occupancy slot := by
  rw [rank, ← length_slots]
  congr 1
  refine (eq_slots ((pairwise_slots occupancy).filter _) fun other ↦ ?_).symm
  rw [← below, mem_below, and_assoc]
  refine and_congr_right fun hother ↦ ?_
  rw [holds_and_bit_sub_one _ hslot hother, Bool.and_eq_true, decide_eq_true_iff]

private theorem pairwise_append (occupancy slot : UInt32) :
    (below occupancy slot ++ above occupancy slot).Pairwise (· < ·) := by
  refine List.pairwise_append.mpr ⟨(pairwise_slots _).filter _, (pairwise_slots _).filter _, ?_⟩
  intro a ha b hb
  exact UInt32.lt_trans (mem_below.mp ha).2 (mem_above.mp hb).2

private theorem pairwise_append_cons (occupancy slot : UInt32) :
    (below occupancy slot ++ slot :: above occupancy slot).Pairwise (· < ·) := by
  refine List.pairwise_append.mpr ⟨(pairwise_slots _).filter _, List.pairwise_cons.mpr
    ⟨fun b hb ↦ (mem_above.mp hb).2, (pairwise_slots _).filter _⟩, ?_⟩
  intro a ha b hb
  rcases List.mem_cons.mp hb with rfl | hb
  · exact (mem_below.mp ha).2
  · exact UInt32.lt_trans (mem_below.mp ha).2 (mem_above.mp hb).2

private theorem mem_append_iff {occupancy slot other : UInt32} :
    other ∈ below occupancy slot ++ above occupancy slot
      ↔ (other < 32 ∧ holds occupancy other = true) ∧ slot ≠ other := by
  rw [List.mem_append, mem_below, mem_above, ← and_or_left]
  refine and_congr_right fun _ ↦ ⟨?_, fun hne ↦ ?_⟩
  · rintro (h | h) rfl <;> exact UInt32.lt_irrefl _ h
  · rcases UInt32.lt_or_lt_of_ne hne with h | h
    · exact Or.inr h
    · exact Or.inl h

private theorem mem_append_cons_iff {occupancy slot other : UInt32} :
    other ∈ below occupancy slot ++ slot :: above occupancy slot
      ↔ other = slot ∨ (other < 32 ∧ holds occupancy other = true) ∧ slot ≠ other := by
  rw [← mem_append_iff, List.mem_append, List.mem_cons, List.mem_append]
  exact or_left_comm

variable {occupancy slot : UInt32}

theorem slots_eq_of_holds (hslot : slot < 32) (h : holds occupancy slot = true) :
    slots occupancy = below occupancy slot ++ slot :: above occupancy slot := by
  refine eq_slots (pairwise_append_cons _ _) fun other ↦ ?_
  rw [mem_append_cons_iff]
  by_cases hother : other = slot
  · subst hother
    exact iff_of_true (Or.inl rfl) ⟨hslot, h⟩
  · rw [or_iff_right hother, and_iff_left (Ne.symm hother)]

theorem slots_eq_of_not_holds (h : holds occupancy slot = false) :
    slots occupancy = below occupancy slot ++ above occupancy slot := by
  refine eq_slots (pairwise_append _ _) fun other ↦ ?_
  rw [mem_append_iff, and_iff_left_iff_imp]
  rintro ⟨-, hother⟩ rfl
  rw [h] at hother
  exact Bool.false_ne_true hother

theorem slots_fill (hslot : slot < 32) :
    slots (fill occupancy slot) = below occupancy slot ++ slot :: above occupancy slot := by
  refine eq_slots (pairwise_append_cons _ _) fun other ↦ ?_
  rw [mem_append_cons_iff]
  by_cases hother : other = slot
  · subst hother
    refine iff_of_true (Or.inl rfl) ⟨hslot, ?_⟩
    rw [holds_fill _ hslot hslot, beq_self_eq_true, Bool.or_true]
  · rw [or_iff_right hother, and_iff_left (Ne.symm hother)]
    refine and_congr_right fun hlt ↦ ?_
    rw [holds_fill _ hslot hlt, beq_eq_false_iff_ne.mpr (Ne.symm hother), Bool.or_false]

/-- The slots below one are not affected by filling it. -/
theorem below_fill (hslot : slot < 32) :
    below (fill occupancy slot) slot = below occupancy slot := by
  have hself : (below occupancy slot).filter (fun other ↦ decide (other < slot))
      = below occupancy slot :=
    List.filter_eq_self.mpr fun other hother ↦ decide_eq_true (mem_below.mp hother).2
  have hnil : (above occupancy slot).filter (fun other ↦ decide (other < slot)) = [] := by
    refine List.filter_eq_nil_iff.mpr fun other hother hlt ↦ ?_
    exact UInt32.lt_asymm (mem_above.mp hother).2 (of_decide_eq_true hlt)
  rw [below, slots_fill hslot, List.filter_append, hself, List.filter_cons_of_neg, hnil,
    List.append_nil]
  simp

theorem slots_vacate (hslot : slot < 32) :
    slots (vacate occupancy slot) = below occupancy slot ++ above occupancy slot := by
  refine eq_slots (pairwise_append _ _) fun other ↦ ?_
  rw [mem_append_iff, and_assoc]
  refine and_congr_right fun hlt ↦ ?_
  rw [holds_vacate _ hslot hlt, Bool.and_eq_true, bne_iff_ne]

/-! ## Ranks as positions -/

/-- A filled slot stands in the list at its rank. -/
theorem getElem?_slots_rank (hslot : slot < 32) (h : holds occupancy slot = true) :
    (slots occupancy)[rank occupancy slot]? = some slot := by
  rw [slots_eq_of_holds hslot h, ← length_below occupancy hslot,
    List.getElem?_append_right (Nat.le_refl _), Nat.sub_self]
  rfl

/-- A position of the list is the rank of the slot that stands there. -/
theorem rank_eq_of_getElem?_slots {i : ℕ} (h : (slots occupancy)[i]? = some slot) :
    rank occupancy slot = i := by
  obtain ⟨hslot, hholds⟩ := mem_slots.mp (List.mem_of_getElem? h)
  have hrank := getElem?_slots_rank hslot hholds
  have hnodup : (slots occupancy).Nodup := (pairwise_slots occupancy).imp UInt32.ne_of_lt
  have hlt := (List.getElem?_eq_some_iff.mp hrank).1
  exact (List.getElem?_inj hlt hnodup).mp (hrank.trans h.symm)

/-! ## The word of a single slot -/

theorem slots_bit {s : UInt32} (hs : s < 32) : slots (bit s) = [s] := by
  refine eq_slots (List.pairwise_singleton _ _) fun other ↦ ?_
  rw [List.mem_singleton]
  constructor
  · rintro rfl
    exact ⟨hs, by rw [holds_bit hs hs, beq_self_eq_true]⟩
  · rintro ⟨hlt, hholds⟩
    rw [holds_bit hs hlt, beq_iff_eq] at hholds
    exact hholds.symm

variable {s t : UInt32}

theorem below_bit (hs : s < 32) : below (bit s) t = if s < t then [s] else [] := by
  rw [below, slots_bit hs, List.filter_singleton, Bool.cond_decide]

theorem above_bit (hs : s < 32) : above (bit s) t = if t < s then [s] else [] := by
  rw [above, slots_bit hs, List.filter_singleton, Bool.cond_decide]

/-- The slots of a word of two bits. -/
theorem slots_or_bit (hs : s < 32) (ht : t < 32) (hne : s ≠ t) :
    slots (bit s ||| bit t) = if s < t then [s, t] else [t, s] := by
  have hfill : slots (fill (bit s) t) = below (bit s) t ++ t :: above (bit s) t := slots_fill ht
  rw [below_bit hs, above_bit hs, fill] at hfill
  rw [hfill]
  rcases UInt32.lt_or_lt_of_ne hne with hlt | hlt
  · rw [if_pos hlt, if_neg (UInt32.lt_asymm hlt), if_pos hlt]
    rfl
  · rw [if_neg (UInt32.lt_asymm hlt), if_pos hlt, if_neg (UInt32.lt_asymm hlt)]
    rfl

/-! ## The word of several slots -/

/-- The word in which the bits of some slots are set. -/
def wordOf (l : List UInt32) : UInt32 := l.foldr (fun slot word ↦ fill word slot) 0

private theorem holds_wordOf {l : List UInt32} (hl : ∀ slot ∈ l, slot < 32) {t : UInt32}
    (ht : t < 32) : holds (wordOf l) t = true ↔ t ∈ l := by
  induction l with
  | nil =>
    rw [wordOf, List.foldr_nil, holds, UInt32.zero_and]
    exact iff_of_false nofun List.not_mem_nil
  | cons slot l ih =>
    rw [List.forall_mem_cons] at hl
    rw [wordOf, List.foldr_cons, ← wordOf, holds_fill _ hl.1 ht, Bool.or_eq_true, beq_iff_eq,
      ih hl.2, List.mem_cons, or_comm, eq_comm]

theorem wordOf_slots (occupancy : UInt32) : wordOf (slots occupancy) = occupancy := by
  refine eq_of_holds fun slot hslot ↦ Bool.eq_iff_iff.mpr ?_
  rw [holds_wordOf (fun _ ↦ lt_of_mem_slots) hslot, mem_slots, and_iff_right hslot]

end RotaryTrie.Bitmap
