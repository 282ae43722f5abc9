import Mathlib.Data.List.Forall2
import RotaryTrie.Bucket.Build
import RotaryTrie.Proofs.Separation
import RotaryTrie.Proofs.Slots

/-!
# Sound buckets

A bucket is *sound* if the four parts of each of its trie nodes agree: there are as many children
as filled slots, at least two of them, the count is that of the children, and every entry below the
child of a slot is sent to that slot by the rotation. Chains hold at least two entries, all of the
hash the chain says.

## One slot of a node

Reading or changing a trie node concerns one slot. `FilledAt` and `VacantAt` say how the list of
children falls into the parts in front of the slot, at it and behind it, each part being
routed to the slots that belong to it. The list operations of a node are then appends, and a node
put together again from its parts is sound because the parts are.
-/

set_option autoImplicit false

namespace RotaryTrie

open Bitmap

/-! ## Lists taken apart -/

section Append

variable {α : Type} {front : List α} {index : ℕ}

theorem getElem?_append_cons (h : front.length = index) (item : α) (rest : List α) :
    (front ++ item :: rest)[index]? = some item := by
  rw [← h, List.getElem?_append_right (Nat.le_refl _), Nat.sub_self]
  rfl

theorem set_append_cons (h : front.length = index) (item new : α) (rest : List α) :
    (front ++ item :: rest).set index new = front ++ new :: rest := by
  rw [← h, List.set_append_right _ _ (Nat.le_refl _), Nat.sub_self]
  rfl

theorem eraseIdx_append_cons (h : front.length = index) (item : α) (rest : List α) :
    (front ++ item :: rest).eraseIdx index = front ++ rest := by
  rw [← h, List.eraseIdx_append_of_length_le (Nat.le_refl _), Nat.sub_self]
  rfl

end Append

/-! ## Lists in step with the slots -/

namespace Dense

variable {α : Type} {R : UInt32 → α → Prop} {occupancy slot : UInt32} {front rest items : List α}

private theorem forall₂_append_iff {l₁ l₂ : List UInt32} (h : List.Forall₂ R (l₁ ++ l₂) items) :
    ∃ front rest, items = front ++ rest ∧ List.Forall₂ R l₁ front ∧ List.Forall₂ R l₂ rest :=
  ⟨items.take l₁.length, items.drop l₁.length, (List.take_append_drop _ _).symm,
    by simpa using List.forall₂_take l₁.length h, by simpa using List.forall₂_drop l₁.length h⟩

/-- A list in step with the slots, taken apart at a filled one. -/
theorem exists_append_cons (h : List.Forall₂ R (slots occupancy) items) (hslot : slot < 32)
    (hholds : holds occupancy slot = true) :
    ∃ front item rest, items = front ++ item :: rest ∧
      List.Forall₂ R (below occupancy slot) front ∧ R slot item ∧
      List.Forall₂ R (above occupancy slot) rest := by
  rw [slots_eq_of_holds hslot hholds] at h
  obtain ⟨front, tail, rfl, hfront, htail⟩ := forall₂_append_iff h
  obtain ⟨item, rest, hitem, hrest, rfl⟩ := List.forall₂_cons_left_iff.mp htail
  exact ⟨front, item, rest, rfl, hfront, hitem, hrest⟩

/-- A list in step with the slots, taken apart where the item of a vacant one would be. -/
theorem exists_append (h : List.Forall₂ R (slots occupancy) items)
    (hholds : holds occupancy slot = false) :
    ∃ front rest, items = front ++ rest ∧ List.Forall₂ R (below occupancy slot) front ∧
      List.Forall₂ R (above occupancy slot) rest := by
  rw [slots_eq_of_not_holds hholds] at h
  exact forall₂_append_iff h

/-- The items of the slots below are as many as the rank of the slot. -/
theorem length_eq_rank (h : List.Forall₂ R (below occupancy slot) front) (hslot : slot < 32) :
    front.length = rank occupancy slot := by
  rw [← h.length_eq, length_below occupancy hslot]

variable (item new : α) (hfront : front.length = rank occupancy slot)
include hfront

theorem getElem?_rank : (front ++ item :: rest)[rank occupancy slot]? = some item :=
  getElem?_append_cons hfront item rest

theorem insert_append : insert occupancy slot item (front ++ rest) = front ++ item :: rest := by
  rw [insert, ← hfront]
  clear hfront
  induction front with
  | nil => rfl
  | cons head front ih => rw [List.cons_append, List.length_cons, List.insertIdx_succ_cons, ih]; rfl

theorem replace_append_cons :
    replace occupancy slot new (front ++ item :: rest) = front ++ new :: rest :=
  set_append_cons hfront item new rest

theorem erase_append_cons : erase occupancy slot (front ++ item :: rest) = front ++ rest :=
  eraseIdx_append_cons hfront item rest

end Dense

namespace Bucket

variable {K V : Type}

/-! ## Counts and entries of several buckets -/

theorem countAll_append (front rest : List (Bucket K V)) :
    countAll (front ++ rest) = countAll front + countAll rest := by
  induction front with
  | nil => exact (Nat.zero_add _).symm
  | cons child front ih => rw [List.cons_append, countAll, countAll, ih, Nat.add_assoc]

theorem leavesAll_append (front rest : List (Bucket K V)) :
    leavesAll (front ++ rest) = leavesAll front ++ leavesAll rest := by
  rw [leavesAll_eq_flatMap, leavesAll_eq_flatMap, leavesAll_eq_flatMap, List.flatMap_append]

theorem mem_leavesAll {children : List (Bucket K V)} {entry : Leaf K V} :
    entry ∈ leavesAll children ↔ ∃ child ∈ children, entry ∈ child.leaves := by
  rw [leavesAll_eq_flatMap, List.mem_flatMap]

theorem countAll_eq_length {children : List (Bucket K V)}
    (h : ∀ child ∈ children, child.count = child.leaves.length) :
    countAll children = (leavesAll children).length := by
  induction children with
  | nil => rfl
  | cons child children ih =>
    rw [countAll, leavesAll, List.length_append, h child List.mem_cons_self,
      ih fun other hother ↦ h other (List.mem_cons_of_mem _ hother)]

/-! ## Soundness -/

/-- Under the rotation, every entry of a bucket is sent to the slot. -/
def RoutedTo (rotation slot : UInt32) (bucket : Bucket K V) : Prop :=
  ∀ entry ∈ bucket.leaves, slotOf entry.hash rotation = slot

/-- The parts of every node agree with each other. -/
inductive Sound : Bucket K V → Prop where
  /-- A single entry is sound. -/
  | leaf (entry : Leaf K V) : Sound (.leaf entry)
  /-- A chain holds two entries or more, of one hash. -/
  | chain {stamp : Stamp} {hash : UInt32} {entries : List (Leaf K V)}
      (two_le : 2 ≤ entries.length) (hash_eq : ∀ entry ∈ entries, entry.hash = hash) :
      Sound (.chain stamp hash entries)
  /-- The children of a trie node stand in the order of the slots they are routed to. -/
  | trie {stamp : Stamp} {rotation occupancy : UInt32} {count : ℕ} {children : List (Bucket K V)}
      (rotation_lt : rotation < 32) (two_le : 2 ≤ children.length)
      (count_eq : count = countAll children)
      (routed : List.Forall₂ (RoutedTo rotation) (slots occupancy) children)
      (sound : ∀ child ∈ children, child.Sound) :
      Sound (.trie stamp rotation occupancy count children)

/-- The count at the top of a sound bucket is the number of its entries. -/
theorem Sound.count_eq_length {bucket : Bucket K V} (h : bucket.Sound) :
    bucket.count = bucket.leaves.length := by
  induction h with
  | leaf => rfl
  | chain => rfl
  | trie _ _ count_eq _ _ ih =>
    rw [count, leaves, count_eq, countAll_eq_length ih]

theorem Sound.of_mem {stamp : Stamp} {rotation occupancy : UInt32} {total : ℕ}
    {children : List (Bucket K V)} {child : Bucket K V}
    (h : (Bucket.trie stamp rotation occupancy total children).Sound) (hchild : child ∈ children) :
    child.Sound := by
  cases h with
  | trie _ _ _ _ sound => exact sound child hchild

/-- A sound bucket is not empty. -/
theorem Sound.exists_mem_leaves {bucket : Bucket K V} (h : bucket.Sound) :
    ∃ entry, entry ∈ bucket.leaves := by
  induction h with
  | leaf entry => exact ⟨entry, List.mem_singleton_self entry⟩
  | chain two_le =>
    exact List.exists_mem_of_length_pos (lt_of_lt_of_le Nat.two_pos two_le)
  | trie _ two_le _ _ _ ih =>
    obtain ⟨child, hchild⟩ := List.exists_mem_of_length_pos (lt_of_lt_of_le Nat.two_pos two_le)
    obtain ⟨entry, hentry⟩ := ih child hchild
    exact ⟨entry, mem_leavesAll.mpr ⟨child, hchild, hentry⟩⟩

/-! ## A node taken apart at a slot -/

/-- The children of a trie node, taken apart at a filled slot. -/
structure FilledAt (rotation occupancy slot : UInt32) (front : List (Bucket K V))
    (child : Bucket K V) (rest : List (Bucket K V)) : Prop where
  /-- The slot is one of the thirty-two. -/
  slot_lt : slot < 32
  /-- The slot is filled. -/
  holds : holds occupancy slot = true
  /-- The children of the slots below. -/
  front : List.Forall₂ (RoutedTo rotation) (below occupancy slot) front
  /-- The child of the slot. -/
  child : RoutedTo rotation slot child
  /-- The children of the slots above. -/
  rest : List.Forall₂ (RoutedTo rotation) (above occupancy slot) rest

/-- The children of a trie node, taken apart at a vacant slot. -/
structure VacantAt (rotation occupancy slot : UInt32) (front rest : List (Bucket K V)) : Prop where
  /-- The slot is one of the thirty-two. -/
  slot_lt : slot < 32
  /-- The slot is vacant. -/
  holds : holds occupancy slot = false
  /-- The children of the slots below. -/
  front : List.Forall₂ (RoutedTo rotation) (below occupancy slot) front
  /-- The children of the slots above. -/
  rest : List.Forall₂ (RoutedTo rotation) (above occupancy slot) rest

section TakenApart

variable {rotation occupancy slot : UInt32} {children front rest : List (Bucket K V)}
  {child : Bucket K V}

theorem exists_filledAt (h : List.Forall₂ (RoutedTo rotation) (slots occupancy) children)
    (hslot : slot < 32) (hholds : Bitmap.holds occupancy slot = true) :
    ∃ front child rest, children = front ++ child :: rest ∧
      FilledAt rotation occupancy slot front child rest := by
  obtain ⟨front, child, rest, hchildren, hfront, hchild, hrest⟩ :=
    Dense.exists_append_cons h hslot hholds
  exact ⟨front, child, rest, hchildren, hslot, hholds, hfront, hchild, hrest⟩

theorem exists_vacantAt (h : List.Forall₂ (RoutedTo rotation) (slots occupancy) children)
    (hslot : slot < 32) (hholds : Bitmap.holds occupancy slot = false) :
    ∃ front rest, children = front ++ rest ∧ VacantAt rotation occupancy slot front rest := by
  obtain ⟨front, rest, hchildren, hfront, hrest⟩ := Dense.exists_append h hholds
  exact ⟨front, rest, hchildren, hslot, hholds, hfront, hrest⟩

namespace FilledAt

theorem length_front (h : FilledAt rotation occupancy slot front child rest) :
    front.length = rank occupancy slot := Dense.length_eq_rank h.front h.slot_lt

theorem replace (h : FilledAt rotation occupancy slot front child rest) {new : Bucket K V}
    (hnew : RoutedTo rotation slot new) : FilledAt rotation occupancy slot front new rest :=
  { h with child := hnew }

theorem routed (h : FilledAt rotation occupancy slot front child rest) :
    List.Forall₂ (RoutedTo rotation) (slots occupancy) (front ++ child :: rest) := by
  rw [slots_eq_of_holds h.slot_lt h.holds]
  exact List.rel_append h.front (List.Forall₂.cons h.child h.rest)

theorem routed_vacate (h : FilledAt rotation occupancy slot front child rest) :
    List.Forall₂ (RoutedTo rotation) (slots (vacate occupancy slot)) (front ++ rest) := by
  rw [slots_vacate h.slot_lt]
  exact List.rel_append h.front h.rest

end FilledAt

namespace VacantAt

theorem length_front (h : VacantAt rotation occupancy slot front rest) :
    front.length = rank occupancy slot := Dense.length_eq_rank h.front h.slot_lt

theorem routed_fill (h : VacantAt rotation occupancy slot front rest)
    (hchild : RoutedTo rotation slot child) :
    List.Forall₂ (RoutedTo rotation) (slots (fill occupancy slot)) (front ++ child :: rest) := by
  rw [slots_fill h.slot_lt]
  exact List.rel_append h.front (List.Forall₂.cons hchild h.rest)

end VacantAt

private theorem slotOf_ne_of_forall₂ {l : List UInt32} (hl : ∀ other ∈ l, other ≠ slot)
    (h : List.Forall₂ (RoutedTo rotation) l children) {entry : Leaf K V}
    (hentry : entry ∈ leavesAll children) : slotOf entry.hash rotation ≠ slot := by
  induction h with
  | nil => exact absurd hentry List.not_mem_nil
  | @cons other child l children hchild _ ih =>
    rw [leavesAll, List.mem_append] at hentry
    rcases hentry with hentry | hentry
    · rw [hchild entry hentry]
      exact hl other List.mem_cons_self
    · exact ih (fun other hother ↦ hl other (List.mem_cons_of_mem _ hother)) hentry

private theorem slotOf_ne_of_front
    (h : List.Forall₂ (RoutedTo rotation) (below occupancy slot) front) {entry : Leaf K V}
    (hentry : entry ∈ leavesAll front) : slotOf entry.hash rotation ≠ slot :=
  slotOf_ne_of_forall₂ (fun _ hother ↦ ne_of_mem_below hother) h hentry

private theorem slotOf_ne_of_rest
    (h : List.Forall₂ (RoutedTo rotation) (above occupancy slot) rest) {entry : Leaf K V}
    (hentry : entry ∈ leavesAll rest) : slotOf entry.hash rotation ≠ slot :=
  slotOf_ne_of_forall₂ (fun _ hother ↦ ne_of_mem_above hother) h hentry

/-- Beside a filled slot there are only entries of other slots. -/
theorem FilledAt.slotOf_ne (h : FilledAt rotation occupancy slot front child rest)
    {entry : Leaf K V} (hentry : entry ∈ leavesAll front ∨ entry ∈ leavesAll rest) :
    slotOf entry.hash rotation ≠ slot :=
  hentry.elim (slotOf_ne_of_front h.front) (slotOf_ne_of_rest h.rest)

/-- Around a vacant slot there are only entries of other slots. -/
theorem VacantAt.slotOf_ne (h : VacantAt rotation occupancy slot front rest)
    {entry : Leaf K V} (hentry : entry ∈ leavesAll front ∨ entry ∈ leavesAll rest) :
    slotOf entry.hash rotation ≠ slot :=
  hentry.elim (slotOf_ne_of_front h.front) (slotOf_ne_of_rest h.rest)

/-! ## Nodes put together again -/

variable (stamp : Stamp)

theorem mkTrie_eq (hrouted : List.Forall₂ (RoutedTo rotation) (slots occupancy) children)
    {count : ℕ} (hcount : count = countAll children) :
    mkTrie stamp rotation occupancy count children
      = .ok (.trie stamp rotation occupancy (countAll children) children) := by
  rw [mkTrie, if_neg (not_not_intro (by rw [← hrouted.length_eq, length_slots])),
    if_neg (not_not_intro hcount), hcount]

theorem deduct_eq {total leaving : ℕ} (h : leaving ≤ total) :
    deduct total leaving = .ok (total - leaving) := if_pos h

theorem VacantAt.fillSlot_eq (h : VacantAt rotation occupancy slot front rest) {entry : Leaf K V}
    (hentry : slotOf entry.hash rotation = slot) :
    fillSlot stamp rotation occupancy (countAll (front ++ rest)) (front ++ rest) slot entry
      = .ok (.trie stamp rotation (fill occupancy slot) (countAll (front ++ .leaf entry :: rest))
          (front ++ .leaf entry :: rest)) := by
  have hchild : RoutedTo rotation slot (.leaf entry) := by
    intro other hother
    rw [List.mem_singleton.mp hother, hentry]
  rw [fillSlot, Dense.insert_append _ h.length_front]
  refine mkTrie_eq stamp (h.routed_fill hchild) ?_
  rw [countAll_append, countAll_append, countAll, count]
  omega

theorem FilledAt.replaceSlot_eq (h : FilledAt rotation occupancy slot front child rest)
    {new : Bucket K V} (hnew : RoutedTo rotation slot new) :
    replaceSlot stamp rotation occupancy (countAll (front ++ child :: rest))
        (front ++ child :: rest) slot child new
      = .ok (.trie stamp rotation occupancy (countAll (front ++ new :: rest))
          (front ++ new :: rest)) := by
  have hcount : ∀ other : Bucket K V,
      countAll (front ++ other :: rest) = countAll front + (other.count + countAll rest) := by
    intro other
    rw [countAll_append, countAll]
  rw [replaceSlot, deduct_eq (by rw [hcount]; omega), Dense.replace_append_cons _ _ h.length_front]
  refine mkTrie_eq stamp (h.replace hnew).routed ?_
  rw [hcount, hcount]
  omega

theorem FilledAt.vacateSlot_eq (h : FilledAt rotation occupancy slot front child rest)
    (htwo : 2 ≤ (front ++ rest).length) :
    vacateSlot stamp rotation occupancy (countAll (front ++ child :: rest))
        (front ++ child :: rest) slot child
      = .ok (.trie stamp rotation (vacate occupancy slot) (countAll (front ++ rest))
          (front ++ rest)) := by
  have hcount : countAll (front ++ child :: rest) = child.count + countAll (front ++ rest) := by
    rw [countAll_append, countAll_append, countAll]
    omega
  have hmk := mkTrie_eq stamp h.routed_vacate rfl
  rw [vacateSlot, Dense.erase_append_cons _ h.length_front, deduct_eq (by omega), hcount,
    Nat.add_sub_cancel_left]
  -- the code asks for a lone child first
  match hothers : front ++ rest, htwo with
  | _ :: _ :: _, _ =>
    rw [hothers] at hmk
    exact hmk

theorem FilledAt.vacateSlot_eq_of_singleton
    (h : FilledAt rotation occupancy slot front child rest) {other : Bucket K V}
    (hother : front ++ rest = [other]) (total : ℕ) :
    vacateSlot stamp rotation occupancy total (front ++ child :: rest) slot child
      = .ok other := by
  rw [vacateSlot, Dense.erase_append_cons _ h.length_front, hother]

end TakenApart

end Bucket

end RotaryTrie
