import RotaryTrie.Bucket.Erase
import RotaryTrie.Proofs.Insertion

/-!
# What an erasure does

Only a leaf can be emptied. `Removed` says what any other bucket looks like once one of its entries
has gone: a chain gets shorter, or becomes a leaf, and a node keeps a smaller child, loses a leaf,
or gives way to its other child. As for insertions, `Sound.exists_erase` says that an erasure on a
sound bucket always comes to one of these or changes nothing, and everything else follows from the
rules.
-/

set_option autoImplicit false

namespace RotaryTrie

open Bitmap

variable {K V : Type}

namespace Bucket

/-- An erasure takes out `stored`, which stands between `before` and `after` in its row, from a
bucket that has `depth` trie nodes above it and other entries. -/
inductive Removed (write : ℕ) (stored : Leaf K V) :
    List (Leaf K V) → List (Leaf K V) → ℕ → Bucket K V → Bucket K V → Prop where
  /-- The other entry of a chain of two becomes a leaf. -/
  | survivor {before after : List (Leaf K V)} {depth : ℕ} {stamp : Stamp} {other : Leaf K V}
      (alone : before ++ after = [other]) :
      Removed write stored before after depth
        (.chain stamp stored.hash (before ++ stored :: after)) (.leaf other)
  /-- A longer chain stays one. -/
  | chain {before after : List (Leaf K V)} {depth : ℕ} {stamp : Stamp}
      (two_le : 2 ≤ (before ++ after).length) :
      Removed write stored before after depth
        (.chain stamp stored.hash (before ++ stored :: after))
        (.chain ⟨write, depth⟩ stored.hash (before ++ after))
  /-- A node that loses a leaf gives way to its only other child. -/
  | collapse {depth : ℕ} {stamp : Stamp} {rotation occupancy : UInt32} {count : ℕ}
      {front rest : List (Bucket K V)} {other : Bucket K V}
      (filled : FilledAt rotation occupancy (slotOf stored.hash rotation) front (.leaf stored) rest)
      (alone : front ++ rest = [other]) :
      Removed write stored [] [] depth
        (.trie stamp rotation occupancy count (front ++ .leaf stored :: rest)) other
  /-- A node that loses a leaf goes on with its other children. -/
  | vacate {depth : ℕ} {stamp : Stamp} {rotation occupancy : UInt32} {count : ℕ}
      {front rest : List (Bucket K V)}
      (filled : FilledAt rotation occupancy (slotOf stored.hash rotation) front (.leaf stored) rest)
      (two_le : 2 ≤ (front ++ rest).length) :
      Removed write stored [] [] depth
        (.trie stamp rotation occupancy count (front ++ .leaf stored :: rest))
        (.trie ⟨write, depth⟩ rotation (Bitmap.vacate occupancy (slotOf stored.hash rotation))
          (countAll (front ++ rest)) (front ++ rest))
  /-- A node keeps a smaller child. -/
  | descend {before after : List (Leaf K V)} {depth : ℕ} {stamp : Stamp}
      {rotation occupancy : UInt32} {count : ℕ} {front rest : List (Bucket K V)}
      {child left : Bucket K V}
      (filled : FilledAt rotation occupancy (slotOf stored.hash rotation) front child rest)
      (below : Removed write stored before after (depth + 1) child left) :
      Removed write stored before after depth
        (.trie stamp rotation occupancy count (front ++ child :: rest))
        (.trie ⟨write, depth⟩ rotation occupancy (countAll (front ++ left :: rest))
          (front ++ left :: rest))

variable {write depth : ℕ} {stored : Leaf K V} {before after : List (Leaf K V)}
  {bucket left : Bucket K V}

/-! ## The sequence of entries -/

private theorem rowOf_of_chain {stamp : Stamp}
    (h : (Bucket.chain stamp stored.hash (before ++ stored :: after)).Sound) :
    rowOf stored.hash before = before ∧ rowOf stored.hash after = after := by
  cases h with
  | chain _ hash_eq =>
    rw [List.forall_mem_append, List.forall_mem_cons] at hash_eq
    exact ⟨rowOf_eq_self hash_eq.1, rowOf_eq_self hash_eq.2.2⟩

/-- An erasure takes the stored entry out of the sequence and leaves all others in place. -/
theorem Removed.exists_leaves (h : Removed write stored before after depth bucket left)
    (hsound : bucket.Sound) :
    ∃ l₁ l₂, bucket.leaves = l₁ ++ stored :: l₂ ∧ left.leaves = l₁ ++ l₂ ∧
      rowOf stored.hash l₁ = before ∧ rowOf stored.hash l₂ = after := by
  induction h with
  | @survivor before after _ _ _ alone =>
    exact ⟨before, after, rfl, alone.symm, rowOf_of_chain hsound⟩
  | @chain before after => exact ⟨before, after, rfl, rfl, rowOf_of_chain hsound⟩
  | @collapse _ _ _ _ _ front rest _ filled alone =>
    exact ⟨leavesAll front, leavesAll rest, leavesAll_append_leaf_cons front rest stored,
      leaves_of_alone alone, filled.rowOf_front, filled.rowOf_rest⟩
  | @vacate _ _ _ _ _ front rest filled =>
    exact ⟨leavesAll front, leavesAll rest, leavesAll_append_leaf_cons front rest stored,
      leavesAll_append front rest, filled.rowOf_front, filled.rowOf_rest⟩
  | @descend _ _ _ _ _ _ _ front rest _ _ filled _ ih =>
    obtain ⟨l₁, l₂, hchild, hleft, hbefore, hafter⟩ :=
      ih (hsound.of_mem (List.mem_append_right _ List.mem_cons_self))
    refine ⟨leavesAll front ++ l₁, l₂ ++ leavesAll rest, leavesAll_append_cons front rest hchild,
      leavesAll_append_cons front rest hleft, ?_, ?_⟩
    · rw [rowOf_append, filled.rowOf_front, hbefore, List.nil_append]
    · rw [rowOf_append, filled.rowOf_rest, hafter, List.append_nil]

/-! ## Soundness is kept -/

theorem Removed.routedTo (h : Removed write stored before after depth bucket left)
    (hsound : bucket.Sound) {rotation slot : UInt32} (hbucket : RoutedTo rotation slot bucket) :
    RoutedTo rotation slot left := by
  intro entry hentry
  obtain ⟨l₁, l₂, hleaves, hleft, -⟩ := h.exists_leaves hsound
  refine hbucket entry ?_
  rw [hleft, List.mem_append] at hentry
  rw [hleaves, List.mem_append, List.mem_cons]
  exact hentry.imp_right Or.inr

theorem Removed.sound (h : Removed write stored before after depth bucket left)
    (hsound : bucket.Sound) : left.Sound := by
  induction h with
  | survivor => exact .leaf _
  | chain two_le =>
    cases hsound with
    | chain _ hash_eq =>
      rw [List.forall_mem_append, List.forall_mem_cons] at hash_eq
      exact .chain two_le (List.forall_mem_append.mpr ⟨hash_eq.1, hash_eq.2.2⟩)
  | @collapse _ _ _ _ _ front rest other _ alone =>
    cases hsound with
    | trie _ _ _ _ sound =>
      refine (forall_mem_append_cons.mp sound).2 other ?_
      rw [alone]
      exact List.mem_singleton_self other
  | vacate filled two_le =>
    cases hsound with
    | trie rotation_lt _ _ _ sound =>
      exact .trie rotation_lt two_le rfl filled.routed_vacate (forall_mem_append_cons.mp sound).2
  | descend filled below ih =>
    have hchild := hsound.of_mem (List.mem_append_right _ List.mem_cons_self)
    exact hsound.replace filled (ih hchild) (below.routedTo hchild filled.child)

/-! ## What comes about -/

/-- The effect of an erasure, by the place of the key in its row. -/
inductive EraseOutcome (p : Probe K) (write depth : ℕ) (bucket : Bucket K V) :
    Erased K V → Prop where
  /-- The key is not there. -/
  | missing (seek_eq : p.seek (bucket.row p.hash) = none) :
      EraseOutcome p write depth bucket .unchanged
  /-- The bucket is a leaf with the key. -/
  | emptied {stored : Leaf K V} (leaf_eq : bucket = .leaf stored)
      (row_eq : bucket.row p.hash = [stored]) (seek_eq : p.seek (bucket.row p.hash) = some 0) :
      EraseOutcome p write depth bucket .emptied
  /-- The entry in the key's place is taken out. -/
  | removed {before after : List (Leaf K V)} {stored : Leaf K V} {left : Bucket K V}
      (row_eq : bucket.row p.hash = before ++ stored :: after)
      (seek_eq : p.seek (bucket.row p.hash) = some before.length)
      (removed : Removed write stored before after depth bucket left) :
      EraseOutcome p write depth bucket (.changed left)

theorem hash_eq_of_row_eq {hash : UInt32} (h : bucket.row hash = before ++ stored :: after) :
    stored.hash = hash := by
  have hstored : stored ∈ rowOf hash bucket.leaves := by
    rw [← row, h]
    exact List.mem_append_right _ List.mem_cons_self
  exact (mem_rowOf.mp hstored).2

private theorem exists_erase_leaf (p : Probe K) (write depth : ℕ) (stored : Leaf K V) :
    ∃ result, (leaf stored).erase p write depth = .ok result ∧
      EraseOutcome p write depth (.leaf stored) result := by
  rw [erase, Probe.meets]
  by_cases hhash : stored.hash = p.hash
  · have hrow := row_leaf_of_eq hhash
    rw [beq_iff_eq.mpr hhash, Bool.true_and]
    by_cases hkey : p.sameKey stored.key p.key = true
    · refine ⟨_, rfl, ?_⟩
      rw [if_pos hkey]
      refine .emptied rfl hrow ?_
      rw [hrow, Probe.seek_singleton, if_pos hkey]
    · refine ⟨_, rfl, ?_⟩
      rw [if_neg hkey]
      refine .missing ?_
      rw [hrow, Probe.seek_singleton, if_neg hkey]
  · refine ⟨_, rfl, ?_⟩
    rw [beq_eq_false_iff_ne.mpr hhash, Bool.false_and, if_neg Bool.false_ne_true]
    refine .missing ?_
    rw [row_leaf_of_ne hhash]
    rfl

private theorem exists_erase_chain (p : Probe K) (write depth : ℕ) {stamp : Stamp} {hash : UInt32}
    {entries : List (Leaf K V)} (two_le : 2 ≤ entries.length)
    (hash_eq : ∀ entry ∈ entries, entry.hash = hash) :
    ∃ result, (chain stamp hash entries).erase p write depth = .ok result ∧
      EraseOutcome p write depth (.chain stamp hash entries) result := by
  have hsound : (chain stamp hash entries).Sound := .chain two_le hash_eq
  rw [erase]
  by_cases hhash : hash = p.hash
  · subst hhash
    have hrow : (chain stamp p.hash entries).row p.hash = entries := row_chain_self hash_eq
    rw [if_neg (not_not_intro rfl)]
    cases hposition : p.position? entries with
    | none =>
      refine ⟨_, rfl, .missing ?_⟩
      rw [hrow, ← p.position?_eq_map entries two_le, hposition]
      rfl
    | some position =>
      obtain ⟨before, stored, after, hentries, hlength, -, hseek⟩ :=
        chain_at_position p two_le hposition
      have herase : entries.eraseIdx position = before ++ after := by
        rw [← hlength, hentries]
        exact eraseIdx_append_cons rfl stored after
      have hrow' := hrow.trans hentries
      have hstored := hash_eq_of_row_eq hrow'
      rw [← hrow] at hseek
      have hall : (before ++ after).length + 1 = entries.length := by
        rw [hentries, List.length_append, List.length_append, List.length_cons, Nat.add_assoc]
      simp only [herase]
      -- one entry is left as a leaf, and more of them as a chain
      match hothers : before ++ after with
      | [] =>
        rw [hothers] at hall
        rw [← hall] at two_le
        exact absurd two_le (Nat.not_succ_le_self 1)
      | [other] =>
        have hremoved : Removed write stored before after depth (.chain stamp p.hash entries)
            (.leaf other) := by
          rw [hentries, ← hstored]
          exact .survivor hothers
        exact ⟨_, rfl, .removed hrow' hseek hremoved⟩
      | first :: second :: others =>
        have hremoved : Removed write stored before after depth (.chain stamp p.hash entries)
            (.chain ⟨write, depth⟩ p.hash (before ++ after)) := by
          rw [hentries, ← hstored]
          refine .chain ?_
          rw [hothers]
          exact Nat.le_add_left 2 _
        have hchain := mkChain_eq_of_sound (hremoved.sound hsound)
        rw [hothers] at hchain hremoved
        simp only [hchain]
        exact ⟨_, rfl, .removed hrow' hseek hremoved⟩
  · refine ⟨_, if_pos hhash, .missing ?_⟩
    rw [row_chain_of_ne hash_eq hhash]
    rfl

/-- At a filled slot a node erases from the child. -/
theorem FilledAt.erase_eq {rotation occupancy : UInt32} {front rest : List (Bucket K V)}
    {child : Bucket K V} {p : Probe K}
    (h : FilledAt rotation occupancy (slotOf p.hash rotation) front child rest)
    (stamp : Stamp) (count write depth : ℕ) :
    (trie stamp rotation occupancy count (front ++ child :: rest)).erase p write depth =
      match child.erase p write (depth + 1) with
      | .error fault => .error fault
      | .ok .unchanged => .ok .unchanged
      | .ok .emptied =>
        (vacateSlot ⟨write, depth⟩ rotation occupancy count (front ++ child :: rest)
          (slotOf p.hash rotation) child).map .changed
      | .ok (.changed shrunk) =>
        (replaceSlot ⟨write, depth⟩ rotation occupancy count (front ++ child :: rest)
          (slotOf p.hash rotation) child shrunk).map .changed := by
  rw [erase, if_pos h.holds, eraseAt_eq, Dense.getElem?_rank _ h.length_front]
  dsimp only
  generalize child.erase p write (depth + 1) = result
  match result with
  | .error _ => rfl
  | .ok .unchanged => rfl
  | .ok .emptied => rfl
  | .ok (.changed _) => rfl

/-- A node that loses a leaf. -/
private theorem exists_vacateSlot {stamp : Stamp} {rotation occupancy hash : UInt32} {count : ℕ}
    {front rest : List (Bucket K V)} (write depth : ℕ)
    (h : (Bucket.trie stamp rotation occupancy count (front ++ .leaf stored :: rest)).Sound)
    (hhash : stored.hash = hash)
    (filled : FilledAt rotation occupancy (slotOf hash rotation) front (.leaf stored) rest) :
    ∃ left, vacateSlot ⟨write, depth⟩ rotation occupancy count (front ++ .leaf stored :: rest)
        (slotOf hash rotation) (.leaf stored) = .ok left ∧
      Removed write stored [] [] depth
        (.trie stamp rotation occupancy count (front ++ .leaf stored :: rest)) left := by
  subst hhash
  cases h with
  | trie _ two_le count_eq =>
    rw [length_append_cons] at two_le
    match hothers : front ++ rest with
    | [] =>
      rw [hothers] at two_le
      exact absurd two_le (Nat.not_succ_le_self 1)
    | [other] =>
      exact ⟨other, filled.vacateSlot_eq_of_singleton _ hothers count, .collapse filled hothers⟩
    | _ :: _ :: _ =>
      have htwo : 2 ≤ (front ++ rest).length := by
        rw [hothers]
        exact Nat.le_add_left 2 _
      rw [count_eq]
      exact ⟨_, filled.vacateSlot_eq _ htwo, .vacate filled htwo⟩

/-- **Erasure.** On a sound bucket an erasure has one of the effects, and no fault. -/
theorem Sound.exists_erase (h : bucket.Sound) (p : Probe K) (write depth : ℕ) :
    ∃ result, bucket.erase p write depth = .ok result ∧
      EraseOutcome p write depth bucket result := by
  induction h generalizing depth with
  | leaf stored => exact exists_erase_leaf p write depth stored
  | chain two_le hash_eq => exact exists_erase_chain p write depth two_le hash_eq
  | @trie stamp rotation occupancy count children rotation_lt two_le count_eq routed sound ih =>
    have hsound : (Bucket.trie stamp rotation occupancy count children).Sound :=
      .trie rotation_lt two_le count_eq routed sound
    have hslot := slotOf_lt p.hash rotation
    cases hholds : holds occupancy (slotOf p.hash rotation) with
    | false =>
      obtain ⟨front, rest, rfl, vacant⟩ := exists_vacantAt routed hslot hholds
      rw [erase, hholds, if_neg Bool.false_ne_true]
      refine ⟨_, rfl, .missing ?_⟩
      rw [row, leaves, vacant.rowOf_eq_nil]
      rfl
    | true =>
      obtain ⟨front, child, rest, rfl, filled⟩ := exists_filledAt routed hslot hholds
      obtain ⟨result, herase, houtcome⟩ :=
        ih child (List.mem_append_right _ List.mem_cons_self) (depth + 1)
      have hchild := hsound.of_mem (List.mem_append_right _ List.mem_cons_self)
      have hrow : (Bucket.trie stamp rotation occupancy count (front ++ child :: rest)).row p.hash
          = child.row p.hash := filled.rowOf_eq
      rw [filled.erase_eq, herase]
      cases houtcome with
      | missing seek_eq =>
        rw [← hrow] at seek_eq
        exact ⟨_, rfl, .missing seek_eq⟩
      | @emptied stored leaf_eq row_eq seek_eq =>
        subst leaf_eq
        replace row_eq : (Bucket.leaf stored).row p.hash = [] ++ stored :: [] := row_eq
        obtain ⟨left, hvacate, hremoved⟩ :=
          exists_vacateSlot write depth hsound (hash_eq_of_row_eq row_eq) filled
        rw [← hrow] at row_eq seek_eq
        simp only [hvacate]
        exact ⟨_, rfl, .removed row_eq seek_eq hremoved⟩
      | @removed _ _ stored left row_eq seek_eq removed =>
        have hreplace := hsound.replaceSlot_eq ⟨write, depth⟩ filled
          (removed.routedTo hchild filled.child)
        have hstored := hash_eq_of_row_eq row_eq
        rw [← hrow] at row_eq seek_eq
        simp only [hreplace]
        rw [← hstored] at filled
        exact ⟨_, rfl, .removed row_eq seek_eq (.descend filled removed)⟩

end Bucket

end RotaryTrie
