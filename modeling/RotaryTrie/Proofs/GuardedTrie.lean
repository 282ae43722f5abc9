import RotaryTrie.Proofs.Erasure
import RotaryTrie.Proofs.Guards

/-!
# Guarded walks through a trie

The search, the insertion and the erasure are gone through here in guarded steps: the rank of a slot
is computed with guarded words, every position is looked up in its list, and the one that stays of
two entries or children is found by a guarded difference. On a sound bucket none of these steps
meets a hazard, and the walks come to the same results as the plain ones.

The parts of a node agree in a sound bucket, so at each node this is a matter of one slot. The
lemmas about nodes take it apart there, as `FilledAt` and `VacantAt` do.
-/

set_option autoImplicit false

namespace RotaryTrie

variable {K V : Type}

namespace Guarded

/-! ## Nodes -/

/-- A trie node from its parts. -/
def mkTrie (stamp : Stamp) (rotation occupancy : UInt32) (count : ℕ)
    (children : List (Bucket K V)) : Except Hazard (Bucket K V) := do
  let width ← popcount occupancy
  if children.length ≠ width.toNat then .error (.fault .widthMismatch)
  else if count ≠ Bucket.countAll children then .error (.fault .countMismatch)
  else return .trie stamp rotation occupancy count children

/-- A trie node over two buckets whose hashes differ. -/
def split (stamp : Stamp) (suggested : UInt32) (first : Bucket K V) (firstHash : UInt32)
    (second : Bucket K V) (secondHash : UInt32) : Except Hazard (Bucket K V) :=
  match separating? suggested firstHash secondHash with
  | none => .error (.fault .inseparable)
  | some rotation => do
    let firstBit ← bit (slotOf firstHash rotation)
    let secondBit ← bit (slotOf secondHash rotation)
    mkTrie stamp rotation (firstBit ||| secondBit) (first.count + second.count)
      (if slotOf firstHash rotation < slotOf secondHash rotation then [first, second]
        else [second, first])

section Slot

variable (stamp : Stamp) (rotation occupancy : UInt32) (count : ℕ) (children : List (Bucket K V))
  (slot : UInt32)

/-- The trie node with an entry in an empty slot. -/
def fillSlot (entry : Leaf K V) : Except Hazard (Bucket K V) := do
  let index ← rank occupancy slot
  let grown ← insertItem children index (.leaf entry)
  let own ← bit slot
  mkTrie stamp rotation (occupancy ||| own) (count + 1) grown

/-- The trie node with another child in place of the one in a slot. -/
def replaceSlot (old new : Bucket K V) : Except Hazard (Bucket K V) := do
  let index ← rank occupancy slot
  let others ← lift (deduct count old.count)
  let replaced ← replaceItem children index new
  mkTrie stamp rotation occupancy (others + new.count) replaced

/-- The trie node without the child in a slot. Of two children, the other one is what is left. -/
def vacateSlot (old : Bucket K V) : Except Hazard (Bucket K V) := do
  let index ← rank occupancy slot
  if children.length = 1 then .error (.fault .onlyChild)
  else if children.length = 2 then
    opposite index >>= item children
  else
    let rest ← removeItem children index
    let others ← lift (deduct count old.count)
    let own ← bit slot
    mkTrie stamp rotation (occupancy &&& ~~~own) others rest

end Slot

theorem mkTrie_eq (stamp : Stamp) (rotation occupancy : UInt32) (count : ℕ)
    (children : List (Bucket K V)) :
    mkTrie stamp rotation occupancy count children
      = lift (Bucket.mkTrie stamp rotation occupancy count children) := by
  rw [mkTrie, popcount_eq, ok_bind, Bucket.mkTrie]
  by_cases hwidth : children.length ≠ (Bitmap.popcount occupancy).toNat
  · rw [if_pos hwidth, if_pos hwidth]
    rfl
  · by_cases hcount : count ≠ Bucket.countAll children
    · rw [if_neg hwidth, if_neg hwidth, if_pos hcount, if_pos hcount]
      rfl
    · rw [if_neg hwidth, if_neg hwidth, if_neg hcount, if_neg hcount]
      rfl

theorem split_eq (stamp : Stamp) (suggested : UInt32) (first : Bucket K V) (firstHash : UInt32)
    (second : Bucket K V) (secondHash : UInt32) :
    split stamp suggested first firstHash second secondHash
      = lift (Bucket.split stamp suggested first firstHash second secondHash) := by
  rw [split, Bucket.split]
  cases separating? suggested firstHash secondHash with
  | none => rfl
  | some rotation =>
    dsimp only
    rw [bit_eq (slotOf_lt _ _), bit_eq (slotOf_lt _ _), ok_bind, ok_bind, mkTrie_eq]

section TakenApart

variable {stamp : Stamp} {rotation occupancy slot : UInt32} {count : ℕ}
  {front rest : List (Bucket K V)} {child : Bucket K V}

theorem fillSlot_eq (h : Bucket.VacantAt rotation occupancy slot front rest) (entry : Leaf K V) :
    fillSlot stamp rotation occupancy count (front ++ rest) slot entry
      = lift (Bucket.fillSlot stamp rotation occupancy count (front ++ rest) slot entry) := by
  have hle : Bitmap.rank occupancy slot ≤ (front ++ rest).length := by
    rw [← h.length_front, List.length_append]
    exact Nat.le_add_right _ _
  rw [fillSlot, rank_eq _ h.slot_lt, ok_bind, insertItem_eq hle, ok_bind, bit_eq h.slot_lt, ok_bind,
    mkTrie_eq]
  rfl

variable (h : Bucket.FilledAt rotation occupancy slot front child rest)
include h

private theorem rank_lt_length : Bitmap.rank occupancy slot < (front ++ child :: rest).length := by
  rw [← h.length_front, List.length_append, List.length_cons]
  omega

theorem replaceSlot_eq (old new : Bucket K V) :
    replaceSlot stamp rotation occupancy count (front ++ child :: rest) slot old new
      = lift (Bucket.replaceSlot stamp rotation occupancy count (front ++ child :: rest) slot old
          new) := by
  rw [replaceSlot, rank_eq _ h.slot_lt, ok_bind, Bucket.replaceSlot]
  cases deduct count old.count with
  | error => rfl
  | ok others =>
    rw [lift_ok, ok_bind, replaceItem_eq (rank_lt_length h), ok_bind, mkTrie_eq]
    rfl

theorem vacateSlot_eq (two_le : 2 ≤ (front ++ child :: rest).length) (old : Bucket K V) :
    vacateSlot stamp rotation occupancy count (front ++ child :: rest) slot old
      = lift (Bucket.vacateSlot stamp rotation occupancy count (front ++ child :: rest) slot
          old) := by
  have herase : Dense.erase occupancy slot (front ++ child :: rest) = front ++ rest :=
    Dense.erase_append_cons child h.length_front
  rw [vacateSlot, rank_eq _ h.slot_lt, ok_bind, if_neg (by omega), Bucket.vacateSlot, herase]
  -- what is left without the child decides on both sides
  rcases hothers : front ++ rest with _ | ⟨other, _ | ⟨second, others⟩⟩
  · rw [Bucket.length_append_cons, hothers] at two_le
    exact absurd two_le (Nat.not_succ_le_self 1)
  · have hlength : (front ++ child :: rest).length = 2 := by
      rw [Bucket.length_append_cons, hothers]
      rfl
    rw [if_pos hlength]
    exact opposite_item_eq hlength (rank_lt_length h) (herase.trans hothers)
  · have hlength : (front ++ child :: rest).length ≠ 2 := by
      rw [Bucket.length_append_cons, hothers, List.length_cons, List.length_cons]
      omega
    rw [if_neg hlength, removeItem_eq (rank_lt_length h), ok_bind]
    cases deduct count old.count with
    | error => rfl
    | ok others' =>
      rw [lift_ok, ok_bind, bit_eq h.slot_lt, ok_bind, mkTrie_eq]
      exact congrArg (fun left ↦ lift (Bucket.mkTrie stamp rotation _ others' left))
        (herase.trans hothers)

end TakenApart

/-! ## Walks -/

section Walks

mutual

/-- The entry that a key belongs to. -/
def find (p : Probe K) : Bucket K V → Except Hazard (Option (Leaf K V))
  | .leaf entry => .ok (if p.meets entry then some entry else none)
  | .chain _ hash entries =>
    if hash ≠ p.hash then .ok none
    else .ok (entries.find? fun entry ↦ p.sameKey p.key entry.key)
  | .trie _ rotation occupancy _ children => do
    if ← holds occupancy (slotOf p.hash rotation) then
      let index ← rank occupancy (slotOf p.hash rotation)
      findAt p index children
    else
      return none

/-- The entry that a key belongs to in the child at a position. -/
def findAt (p : Probe K) : ℕ → List (Bucket K V) → Except Hazard (Option (Leaf K V))
  | _, [] => .error .outOfRange
  | 0, child :: _ => find p child
  | index + 1, _ :: children => findAt p index children

end

mutual

/-- Inserts an entry into a bucket that has `depth` trie nodes above it. -/
def insert (r : Insertion K V) (depth : ℕ) (suggested : UInt32) :
    Bucket K V → Except Hazard (Inserted K V)
  | .leaf stored =>
    if stored.hash ≠ r.entry.hash then do
      let grown ← split (r.stampAt depth) suggested (.leaf stored) stored.hash (.leaf r.entry)
        r.entry.hash
      return .changed grown
    else if r.sameKey stored.key r.entry.key then
      match r.verdict stored with
      | .keep => return .unchanged
      | .refuse => return .conflict
      | .replace => return .changed (.leaf r.entry)
    else do
      let grown ← lift (Bucket.mkChain (r.stampAt depth) [stored, r.entry])
      return .changed grown
  | .chain stamp hash entries =>
    if hash ≠ r.entry.hash then do
      let grown ← split (r.stampAt depth) suggested (.chain stamp hash entries) hash
        (.leaf r.entry) r.entry.hash
      return .changed grown
    else match entries.findIdx? fun entry ↦ r.sameKey r.entry.key entry.key with
      | none => do
        let grown ← lift (Bucket.mkChain (r.stampAt depth) (entries ++ [r.entry]))
        return .changed grown
      | some index => do
        let stored ← item entries index
        match r.verdict stored with
        | .keep => return .unchanged
        | .refuse => return .conflict
        | .replace => do
          let replaced ← replaceItem entries index r.entry
          let grown ← lift (Bucket.mkChain (r.stampAt depth) replaced)
          return .changed grown
  | .trie _ rotation occupancy count children => do
    if ← holds occupancy (slotOf r.entry.hash rotation) then
      let index ← rank occupancy (slotOf r.entry.hash rotation)
      let below ← add rotation bitsPerLevel
      match ← insertAt r (depth + 1) below index children with
      | (_, .unchanged) => return .unchanged
      | (_, .conflict) => return .conflict
      | (child, .changed grown) =>
        let new ← replaceSlot (r.stampAt depth) rotation occupancy count children
          (slotOf r.entry.hash rotation) child grown
        return .changed new
    else
      let new ← fillSlot (r.stampAt depth) rotation occupancy count children
        (slotOf r.entry.hash rotation) r.entry
      return .changed new

/-- Inserts an entry into the child at a position, which is returned along with the result. -/
def insertAt (r : Insertion K V) (depth : ℕ) (suggested : UInt32) :
    ℕ → List (Bucket K V) → Except Hazard (Bucket K V × Inserted K V)
  | _, [] => .error .outOfRange
  | 0, child :: _ => do
    let result ← insert r depth suggested child
    return (child, result)
  | index + 1, _ :: children => insertAt r depth suggested index children

end

mutual

/-- Erases a key from a bucket that has `depth` trie nodes above it. -/
def erase (p : Probe K) (write depth : ℕ) : Bucket K V → Except Hazard (Erased K V)
  | .leaf entry => .ok (if p.meets entry then .emptied else .unchanged)
  | .chain _ hash entries =>
    if hash ≠ p.hash then .ok .unchanged
    else match entries.findIdx? fun entry ↦ p.sameKey p.key entry.key with
      | none => .ok .unchanged
      | some index =>
        if entries.length = 2 then do
          let survivor ← opposite index >>= item entries
          return .changed (.leaf survivor)
        else do
          let rest ← removeItem entries index
          let left ← lift (Bucket.mkChain ⟨write, depth⟩ rest)
          return .changed left
  | .trie _ rotation occupancy count children => do
    if ← holds occupancy (slotOf p.hash rotation) then
      let index ← rank occupancy (slotOf p.hash rotation)
      match ← eraseAt p write (depth + 1) index children with
      | (_, .unchanged) => return .unchanged
      | (child, .emptied) =>
        let left ← vacateSlot ⟨write, depth⟩ rotation occupancy count children
          (slotOf p.hash rotation) child
        return .changed left
      | (child, .changed shrunk) =>
        let left ← replaceSlot ⟨write, depth⟩ rotation occupancy count children
          (slotOf p.hash rotation) child shrunk
        return .changed left
    else
      return .unchanged

/-- Erases a key from the child at a position, which is returned along with the result. -/
def eraseAt (p : Probe K) (write depth : ℕ) :
    ℕ → List (Bucket K V) → Except Hazard (Bucket K V × Erased K V)
  | _, [] => .error .outOfRange
  | 0, child :: _ => do
    let result ← erase p write depth child
    return (child, result)
  | index + 1, _ :: children => eraseAt p write depth index children

end

end Walks

/-! ### The child at a position -/

theorem findAt_eq (p : Probe K) (index : ℕ) (children : List (Bucket K V)) :
    findAt p index children = item children index >>= find p := by
  induction children generalizing index with
  | nil => rfl
  | cons child children ih =>
    cases index with
    | zero => rfl
    | succ index => exact ih index

theorem insertAt_eq (r : Insertion K V) (depth : ℕ) (suggested : UInt32) (index : ℕ)
    (children : List (Bucket K V)) :
    insertAt r depth suggested index children = do
      let child ← item children index
      let result ← insert r depth suggested child
      return (child, result) := by
  induction children generalizing index with
  | nil => rfl
  | cons child children ih =>
    cases index with
    | zero => rfl
    | succ index => exact ih index

theorem eraseAt_eq (p : Probe K) (write depth index : ℕ) (children : List (Bucket K V)) :
    eraseAt p write depth index children = do
      let child ← item children index
      let result ← erase p write depth child
      return (child, result) := by
  induction children generalizing index with
  | nil => rfl
  | cons child children ih =>
    cases index with
    | zero => rfl
    | succ index => exact ih index

/-! ### Chains -/

private theorem lift_map {α β : Type} (result : Except Fault α) (f : α → β) :
    lift (result.map f) = (do let a ← lift result; return f a) := by
  cases result <;> rfl

private theorem item_position {entries : List (Leaf K V)} (position : Fin entries.length) :
    item entries position = .ok (entries.get position) :=
  item_eq (List.getElem?_eq_getElem position.isLt)

theorem find_chain_eq (p : Probe K) (stamp : Stamp) (hash : UInt32) (entries : List (Leaf K V)) :
    find p (.chain stamp hash entries) = lift ((Bucket.chain stamp hash entries).find p) := by
  rw [find, Bucket.find]
  by_cases hhash : hash ≠ p.hash
  · rw [if_pos hhash, if_pos hhash]
    rfl
  · rw [if_neg hhash, if_neg hhash, List.find?_eq_map_findFinIdx?_getElem]
    rfl

theorem insert_leaf_eq (r : Insertion K V) (depth : ℕ) (suggested : UInt32) (stored : Leaf K V) :
    insert r depth suggested (.leaf stored)
      = lift ((Bucket.leaf stored).insert r depth suggested) := by
  rw [insert, Bucket.insert]
  by_cases hhash : stored.hash ≠ r.entry.hash
  · rw [if_pos hhash, if_pos hhash, split_eq, lift_map]
  · rw [if_neg hhash, if_neg hhash]
    by_cases hkey : r.sameKey stored.key r.entry.key = true
    · rw [if_pos hkey, if_pos hkey]
      cases r.verdict stored <;> rfl
    · rw [if_neg hkey, if_neg hkey, lift_map]

theorem insert_chain_eq (r : Insertion K V) (depth : ℕ) (suggested : UInt32) (stamp : Stamp)
    (hash : UInt32) (entries : List (Leaf K V)) :
    insert r depth suggested (.chain stamp hash entries)
      = lift ((Bucket.chain stamp hash entries).insert r depth suggested) := by
  rw [insert, Bucket.insert]
  by_cases hhash : hash ≠ r.entry.hash
  · rw [if_pos hhash, if_pos hhash, split_eq, lift_map]
  · rw [if_neg hhash, if_neg hhash, List.findIdx?_eq_map_findFinIdx?_val]
    change (match (r.probe.position? entries).map Fin.val with | none => _ | some index => _) = _
    cases r.probe.position? entries with
    | none => exact (lift_map _ _).symm
    | some position =>
      dsimp only [Option.map_some]
      rw [item_position, ok_bind]
      cases r.verdict (entries.get position) with
      | keep => rfl
      | refuse => rfl
      | replace =>
        dsimp only
        rw [replaceItem_eq position.isLt, ok_bind, lift_map]

theorem erase_chain_eq (p : Probe K) (write depth : ℕ) (stamp : Stamp) (hash : UInt32)
    {entries : List (Leaf K V)} (two_le : 2 ≤ entries.length) :
    erase p write depth (.chain stamp hash entries)
      = lift ((Bucket.chain stamp hash entries).erase p write depth) := by
  rw [erase, Bucket.erase]
  by_cases hhash : hash ≠ p.hash
  · rw [if_pos hhash, if_pos hhash]
    rfl
  · rw [if_neg hhash, if_neg hhash, List.findIdx?_eq_map_findFinIdx?_val]
    change (match (p.position? entries).map Fin.val with | none => _ | some index => _) = _
    cases p.position? entries with
    | none => rfl
    | some position =>
      have hlength := List.length_eraseIdx_of_lt position.isLt
      dsimp only [Option.map_some]
      rcases hleft : entries.eraseIdx position with _ | ⟨survivor, _ | ⟨second, rest⟩⟩
      · rw [hleft, List.length_nil] at hlength
        omega
      · have htwo : entries.length = 2 := by
          rw [hleft, List.length_singleton] at hlength
          omega
        rw [if_pos htwo, opposite_item_eq htwo position.isLt hleft]
        rfl
      · have htwo : entries.length ≠ 2 := by
          rw [hleft, List.length_cons, List.length_cons] at hlength
          omega
        rw [if_neg htwo, removeItem_eq position.isLt, ok_bind, hleft]
        exact (lift_map _ _).symm

/-! ### Nodes on the way -/

section Filled

variable {rotation occupancy : UInt32} {front rest : List (Bucket K V)} {child : Bucket K V}

theorem insert_eq_of_filledAt {r : Insertion K V}
    (h : Bucket.FilledAt rotation occupancy (slotOf r.entry.hash rotation) front child rest)
    (rotation_lt : rotation < 32) (stamp : Stamp) (count depth : ℕ) (suggested : UInt32)
    (hchild : insert r (depth + 1) (rotation + bitsPerLevel) child
      = lift (child.insert r (depth + 1) (rotation + bitsPerLevel))) :
    insert r depth suggested (.trie stamp rotation occupancy count (front ++ child :: rest))
      = lift ((Bucket.trie stamp rotation occupancy count (front ++ child :: rest)).insert r depth
          suggested) := by
  have hadd : rotation.toNat + bitsPerLevel.toNat < 2 ^ 32 := by
    have hlt := UInt32.lt_iff_toNat_lt.mp rotation_lt
    change rotation.toNat < 32 at hlt
    change rotation.toNat + 5 < 2 ^ 32
    omega
  rw [h.insert_eq, insert, holds_eq _ h.slot_lt, ok_bind, if_pos h.holds, rank_eq _ h.slot_lt,
    ok_bind, add_eq hadd, ok_bind, insertAt_eq, item_eq (Dense.getElem?_rank _ h.length_front),
    ok_bind, hchild]
  generalize child.insert r (depth + 1) (rotation + bitsPerLevel) = result
  match result with
  | .error _ => rfl
  | .ok .unchanged => rfl
  | .ok .conflict => rfl
  | .ok (.changed grown) =>
    dsimp only
    rw [lift_map, ← replaceSlot_eq h]
    rfl

theorem erase_eq_of_filledAt {p : Probe K}
    (h : Bucket.FilledAt rotation occupancy (slotOf p.hash rotation) front child rest)
    (two_le : 2 ≤ (front ++ child :: rest).length) (stamp : Stamp) (count write depth : ℕ)
    (hchild : erase p write (depth + 1) child = lift (child.erase p write (depth + 1))) :
    erase p write depth (.trie stamp rotation occupancy count (front ++ child :: rest))
      = lift ((Bucket.trie stamp rotation occupancy count (front ++ child :: rest)).erase p write
          depth) := by
  rw [h.erase_eq, erase, holds_eq _ h.slot_lt, ok_bind, if_pos h.holds, rank_eq _ h.slot_lt,
    ok_bind, eraseAt_eq, item_eq (Dense.getElem?_rank _ h.length_front), ok_bind, hchild]
  generalize child.erase p write (depth + 1) = result
  match result with
  | .error _ => rfl
  | .ok .unchanged => rfl
  | .ok .emptied =>
    dsimp only
    rw [lift_map, ← vacateSlot_eq h two_le]
    rfl
  | .ok (.changed shrunk) =>
    dsimp only
    rw [lift_map, ← replaceSlot_eq h]
    rfl

end Filled

end Guarded

/-! ## Sound buckets -/

namespace Bucket

variable {bucket : Bucket K V}

/-- **Search.** On a sound bucket a guarded search is a search. -/
theorem Sound.guarded_find_eq (h : bucket.Sound) (p : Probe K) :
    Guarded.find p bucket = Guarded.lift (bucket.find p) := by
  induction h with
  | leaf => rfl
  | chain => exact Guarded.find_chain_eq p _ _ _
  | @trie _ rotation occupancy _ children _ _ _ routed _ ih =>
    have hslot := slotOf_lt p.hash rotation
    rw [Guarded.find, Guarded.holds_eq _ hslot, Guarded.ok_bind, Bucket.find]
    cases hholds : Bitmap.holds occupancy (slotOf p.hash rotation) with
    | false => rfl
    | true =>
      obtain ⟨front, child, rest, rfl, filled⟩ := exists_filledAt routed hslot hholds
      have hitem : (front ++ child :: rest)[Bitmap.rank occupancy (slotOf p.hash rotation)]?
          = some child := Dense.getElem?_rank child filled.length_front
      rw [if_pos rfl, if_pos rfl, Guarded.rank_eq _ hslot, Guarded.ok_bind, Guarded.findAt_eq,
        Guarded.item_eq hitem, Guarded.ok_bind, findAt_eq, hitem]
      exact ih child (List.mem_append_right _ List.mem_cons_self)

/-- **Insertion.** On a sound bucket a guarded insertion is an insertion. -/
theorem Sound.guarded_insert_eq (h : bucket.Sound) (r : Insertion K V) (depth : ℕ)
    (suggested : UInt32) :
    Guarded.insert r depth suggested bucket
      = Guarded.lift (bucket.insert r depth suggested) := by
  induction h generalizing depth suggested with
  | leaf => exact Guarded.insert_leaf_eq r depth suggested _
  | chain => exact Guarded.insert_chain_eq r depth suggested _ _ _
  | @trie stamp rotation occupancy count children rotation_lt _ _ routed _ ih =>
    have hslot := slotOf_lt r.entry.hash rotation
    cases hholds : Bitmap.holds occupancy (slotOf r.entry.hash rotation) with
    | false =>
      obtain ⟨front, rest, rfl, vacant⟩ := exists_vacantAt routed hslot hholds
      rw [Guarded.insert, Guarded.holds_eq _ hslot, Guarded.ok_bind, Bucket.insert, hholds,
        if_neg Bool.false_ne_true, if_neg Bool.false_ne_true, Guarded.fillSlot_eq vacant,
        Guarded.lift_map]
    | true =>
      obtain ⟨front, child, rest, rfl, filled⟩ := exists_filledAt routed hslot hholds
      refine Guarded.insert_eq_of_filledAt filled rotation_lt stamp count depth suggested ?_
      exact ih child (List.mem_append_right _ List.mem_cons_self) _ _

/-- **Erasure.** On a sound bucket a guarded erasure is an erasure. -/
theorem Sound.guarded_erase_eq (h : bucket.Sound) (p : Probe K) (write depth : ℕ) :
    Guarded.erase p write depth bucket = Guarded.lift (bucket.erase p write depth) := by
  induction h generalizing depth with
  | leaf => rfl
  | chain two_le => exact Guarded.erase_chain_eq p write depth _ _ two_le
  | @trie stamp rotation occupancy count children _ two_le _ routed _ ih =>
    have hslot := slotOf_lt p.hash rotation
    cases hholds : Bitmap.holds occupancy (slotOf p.hash rotation) with
    | false =>
      rw [Guarded.erase, Guarded.holds_eq _ hslot, Guarded.ok_bind, Bucket.erase, hholds]
      rfl
    | true =>
      obtain ⟨front, child, rest, rfl, filled⟩ := exists_filledAt routed hslot hholds
      refine Guarded.erase_eq_of_filledAt filled two_le stamp count write depth ?_
      exact ih child (List.mem_append_right _ List.mem_cons_self) _

end Bucket

end RotaryTrie
