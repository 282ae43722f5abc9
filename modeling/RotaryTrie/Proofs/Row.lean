import RotaryTrie.Bucket.Find
import RotaryTrie.Proofs.Sound

/-!
# Rows

The *row* of a hash consists of the entries that have it, in the order of enumeration. In a sound
bucket these stand together, in one leaf or one chain, and which of the two it is can be told from
the length of the row. So looking up a key is a matter of its row and not of the trie around it:
`Probe.seek` finds the place of a key in a row, and `Sound.find_eq` says that a search comes to the
entry in that place.
-/

set_option autoImplicit false

namespace RotaryTrie

variable {K V : Type}

/-- The entries of a hash, in the order of a list. -/
def rowOf (hash : UInt32) (entries : List (Leaf K V)) : List (Leaf K V) :=
  entries.filter fun entry ↦ entry.hash == hash

section RowOf

variable {hash : UInt32} {entries : List (Leaf K V)}

theorem rowOf_append (front rest : List (Leaf K V)) :
    rowOf hash (front ++ rest) = rowOf hash front ++ rowOf hash rest := List.filter_append ..

theorem rowOf_eq_nil (h : ∀ entry ∈ entries, entry.hash ≠ hash) : rowOf hash entries = [] :=
  List.filter_eq_nil_iff.mpr fun entry hentry ↦ by
    rw [beq_iff_eq]
    exact h entry hentry

theorem rowOf_eq_self (h : ∀ entry ∈ entries, entry.hash = hash) : rowOf hash entries = entries :=
  List.filter_eq_self.mpr fun entry hentry ↦ beq_iff_eq.mpr (h entry hentry)

theorem mem_rowOf {entry : Leaf K V} :
    entry ∈ rowOf hash entries ↔ entry ∈ entries ∧ entry.hash = hash := by
  rw [rowOf, List.mem_filter, beq_iff_eq]

end RowOf

/-! ## Where a key belongs in a row -/

/-- The place in a row of the entry that a key belongs to. If there is a single entry, it is
compared with its own key first, and otherwise with the key sought first. -/
def Probe.seek (p : Probe K) : List (Leaf K V) → Option ℕ
  | [] => none
  | [entry] => if p.sameKey entry.key p.key then some 0 else none
  | row => row.findIdx? fun entry ↦ p.sameKey p.key entry.key

namespace Probe

variable (p : Probe K)

theorem seek_singleton (entry : Leaf K V) :
    p.seek [entry] = if p.sameKey entry.key p.key then some 0 else none := rfl

theorem seek_of_two_le {row : List (Leaf K V)} (h : 2 ≤ row.length) :
    p.seek row = row.findIdx? fun entry ↦ p.sameKey p.key entry.key := by
  match row, h with
  | _ :: _ :: _, _ => rfl

theorem seek_lt {row : List (Leaf K V)} {index : ℕ} (h : p.seek row = some index) :
    index < row.length := by
  match row with
  | [] => exact absurd h nofun
  | [entry] =>
    rw [seek_singleton] at h
    split at h
    · rw [← Option.some_inj.mp h]
      exact Nat.one_pos
    · exact absurd h nofun
  | first :: second :: rest =>
    rw [seek_of_two_le p (by simp)] at h
    exact (List.findIdx?_eq_some_iff_getElem.mp h).1

/-- A row taken apart at the place of a key. -/
theorem exists_append_of_seek {row : List (Leaf K V)} {index : ℕ} (h : p.seek row = some index) :
    ∃ before stored after, row = before ++ stored :: after ∧ before.length = index := by
  have hlt := p.seek_lt h
  exact ⟨row.take index, row[index], row.drop (index + 1),
    by rw [List.getElem_cons_drop, List.take_append_drop], List.length_take_of_le hlt.le⟩

/-- The entry in the place of a key is equal to it, compared in one of the two directions. -/
theorem sameKey_of_seek {before after : List (Leaf K V)} {stored : Leaf K V}
    (h : p.seek (before ++ stored :: after) = some before.length) :
    p.sameKey stored.key p.key = true ∨ p.sameKey p.key stored.key = true := by
  -- the length of the row decides on the direction
  by_cases htwo : 2 ≤ (before ++ stored :: after).length
  · right
    rw [seek_of_two_le p htwo] at h
    obtain ⟨hlt, hsame, -⟩ := List.findIdx?_eq_some_iff_getElem.mp h
    simpa using hsame
  · left
    rw [List.length_append, List.length_cons] at htwo
    obtain ⟨rfl, rfl⟩ : before = [] ∧ after = [] :=
      ⟨List.length_eq_zero_iff.mp (by omega), List.length_eq_zero_iff.mp (by omega)⟩
    rw [List.nil_append, seek_singleton] at h
    by_contra hne
    rw [if_neg hne] at h
    exact absurd h nofun

/-- The entry in the place of a key does not stand before that place, too. -/
theorem notMem_of_seek {stored : Leaf K V} {before after : List (Leaf K V)}
    (h : p.seek (before ++ stored :: after) = some before.length) : stored ∉ before := by
  intro hmem
  obtain ⟨i, hi, rfl⟩ := List.getElem_of_mem hmem
  -- there are two entries, so the search stops at the first one that compares as equal
  rw [seek_of_two_le p (by simp; omega), List.findIdx?_eq_some_iff_getElem] at h
  obtain ⟨hlt, hstored, hfirst⟩ := h
  have hne := hfirst i hi
  rw [List.getElem_append_left hi] at hne
  simp at hstored hne
  simp [hstored] at hne

/-- If a key has no place in a row, each entry is unequal to it in one of the two directions. -/
theorem sameKey_eq_false_of_seek {row : List (Leaf K V)} (h : p.seek row = none)
    {entry : Leaf K V} (hentry : entry ∈ row) :
    p.sameKey entry.key p.key = false ∨ p.sameKey p.key entry.key = false := by
  match row with
  | [] => exact absurd hentry List.not_mem_nil
  | [other] =>
    left
    rw [List.mem_singleton.mp hentry, ← Bool.not_eq_true]
    intro hsame
    rw [seek_singleton, if_pos hsame] at h
    exact absurd h nofun
  | first :: second :: rest =>
    right
    rw [seek_of_two_le p (by simp), List.findIdx?_eq_none_iff] at h
    exact h entry hentry

/-- The position in a chain and the place in its row are the same. -/
theorem position?_eq_map (entries : List (Leaf K V)) (h : 2 ≤ entries.length) :
    (p.position? entries).map Fin.val = p.seek entries := by
  rw [p.seek_of_two_le h, position?, List.findIdx?_eq_map_findFinIdx?_val]

end Probe

namespace Bucket

/-! ## The row of a hash in a bucket -/

/-- The entries of a hash in a bucket, in order. -/
def row (bucket : Bucket K V) (hash : UInt32) : List (Leaf K V) := rowOf hash bucket.leaves

section Routing

variable {rotation occupancy hash : UInt32} {front rest : List (Bucket K V)} {child : Bucket K V}

theorem FilledAt.rowOf_front
    (h : FilledAt rotation occupancy (slotOf hash rotation) front child rest) :
    rowOf hash (leavesAll front) = [] :=
  rowOf_eq_nil fun _ hentry heq ↦ h.slotOf_ne (Or.inl hentry) (by rw [heq])

theorem FilledAt.rowOf_rest
    (h : FilledAt rotation occupancy (slotOf hash rotation) front child rest) :
    rowOf hash (leavesAll rest) = [] :=
  rowOf_eq_nil fun _ hentry heq ↦ h.slotOf_ne (Or.inr hentry) (by rw [heq])

/-- The row of a hash at a node is its row at the child of the hash's slot. -/
theorem FilledAt.rowOf_eq
    (h : FilledAt rotation occupancy (slotOf hash rotation) front child rest) :
    rowOf hash (leavesAll (front ++ child :: rest)) = child.row hash := by
  rw [leavesAll_append, leavesAll, rowOf_append, rowOf_append, h.rowOf_front, h.rowOf_rest,
    List.nil_append, List.append_nil, row]

/-- A hash whose slot is vacant has no row. -/
theorem VacantAt.rowOf_eq_nil
    (h : VacantAt rotation occupancy (slotOf hash rotation) front rest) :
    rowOf hash (leavesAll (front ++ rest)) = [] := by
  refine RotaryTrie.rowOf_eq_nil fun entry hentry heq ↦ ?_
  rw [leavesAll_append, List.mem_append] at hentry
  exact h.slotOf_ne hentry (by rw [heq])

end Routing

theorem row_leaf_of_eq {entry : Leaf K V} {hash : UInt32} (h : entry.hash = hash) :
    (leaf entry).row hash = [entry] :=
  rowOf_eq_self fun _ hother ↦ List.mem_singleton.mp hother ▸ h

theorem row_leaf_of_ne {entry : Leaf K V} {hash : UInt32} (h : entry.hash ≠ hash) :
    (leaf entry).row hash = [] :=
  rowOf_eq_nil fun _ hother ↦ List.mem_singleton.mp hother ▸ h

theorem row_chain_self {stamp : Stamp} {hash : UInt32} {entries : List (Leaf K V)}
    (hash_eq : ∀ entry ∈ entries, entry.hash = hash) :
    (chain stamp hash entries).row hash = entries :=
  rowOf_eq_self hash_eq

theorem row_chain_of_ne {stamp : Stamp} {own hash : UInt32} {entries : List (Leaf K V)}
    (hash_eq : ∀ entry ∈ entries, entry.hash = own) (h : own ≠ hash) :
    (chain stamp own entries).row hash = [] :=
  rowOf_eq_nil fun entry hentry ↦ by
    rw [hash_eq entry hentry]
    exact h

/-! ## Searching -/

/-- **Search.** In a sound bucket a search comes to the entry in the key's place in its row, and to
no fault. -/
theorem Sound.find_eq {bucket : Bucket K V} (h : bucket.Sound) (p : Probe K) :
    bucket.find p
      = .ok ((p.seek (bucket.row p.hash)).bind fun index ↦ (bucket.row p.hash)[index]?) := by
  induction h with
  | leaf entry =>
    rw [find, Probe.meets]
    by_cases hhash : entry.hash = p.hash
    · rw [row_leaf_of_eq hhash, Probe.seek_singleton, beq_iff_eq.mpr hhash, Bool.true_and]
      split <;> rfl
    · rw [row_leaf_of_ne hhash, beq_eq_false_iff_ne.mpr hhash, Bool.false_and]
      rfl
  | @chain _ hash entries two_le hash_eq =>
    rw [find]
    by_cases hhash : hash = p.hash
    · rw [if_neg (not_not_intro hhash), ← hhash, row_chain_self hash_eq,
        ← p.position?_eq_map entries two_le]
      cases p.position? entries with
      | none => rfl
      | some position => simp
    · rw [if_pos hhash, row_chain_of_ne hash_eq hhash]
      rfl
  | @trie _ rotation occupancy _ children _ _ _ routed _ ih =>
    have hslot := slotOf_lt p.hash rotation
    rw [find, row, leaves]
    cases hholds : Bitmap.holds occupancy (slotOf p.hash rotation) with
    | true =>
      obtain ⟨front, child, rest, rfl, hat⟩ := exists_filledAt routed hslot hholds
      rw [if_pos rfl, findAt_eq, Dense.getElem?_rank _ hat.length_front, hat.rowOf_eq]
      exact ih child (List.mem_append_right _ List.mem_cons_self)
    | false =>
      obtain ⟨front, rest, rfl, hat⟩ := exists_vacantAt routed hslot hholds
      rw [if_neg Bool.false_ne_true, hat.rowOf_eq_nil]
      rfl

end Bucket

end RotaryTrie
