import RotaryTrie.Bucket.Insert
import RotaryTrie.Proofs.Row

/-!
# What an insertion does

`insert` has many branches, but only three kinds of effect: the new entry *joins* the bucket, it
*replaces* one that is there, or nothing is changed. `Joined` and `Replaced` say what the bucket
looks like afterwards, one rule for each place the new entry can come to and one for the nodes above
it. `Sound.exists_insert` says which of the effects comes about, and that there always is one: on a
sound bucket an insertion meets no fault.

Everything else about insertions follows from these rules and not from the code.

## Splits

A leaf or chain of another hash has to make room. The node that is built over it and the new entry
is seen here as a node with a single child that the entry is put into, so that it needs no
reasoning of its own.
-/

set_option autoImplicit false

namespace RotaryTrie

open Bitmap

variable {K V : Type}

namespace Bucket

/-- A new entry joins a bucket that has `depth` trie nodes above it. -/
inductive Joined (r : Insertion K V) : ℕ → Bucket K V → Bucket K V → Prop where
  /-- A leaf or chain of another hash and the entry become the children of a new node. -/
  | split {depth : ℕ} {bucket : Bucket K V} {hash rotation : UInt32}
      {front rest : List (Bucket K V)}
      (hash?_eq : bucket.hash? = some hash) (hash_ne : hash ≠ r.entry.hash)
      (rotation_lt : rotation < 32) (alone : front ++ rest = [bucket])
      (vacant : VacantAt rotation (bit (slotOf hash rotation)) (slotOf r.entry.hash rotation)
        front rest) :
      Joined r depth bucket
        (.trie (r.stampAt depth) rotation
          (fill (bit (slotOf hash rotation)) (slotOf r.entry.hash rotation))
          (countAll (front ++ .leaf r.entry :: rest)) (front ++ .leaf r.entry :: rest))
  /-- A leaf of the same hash and the entry become a chain. -/
  | pair {depth : ℕ} {stored : Leaf K V} (hash_eq : stored.hash = r.entry.hash) :
      Joined r depth (.leaf stored) (.chain (r.stampAt depth) r.entry.hash [stored, r.entry])
  /-- The entry comes to the end of a chain. -/
  | append {depth : ℕ} {stamp : Stamp} {entries : List (Leaf K V)} :
      Joined r depth (.chain stamp r.entry.hash entries)
        (.chain (r.stampAt depth) r.entry.hash (entries ++ [r.entry]))
  /-- The entry comes into a vacant slot of a node. -/
  | fill {depth : ℕ} {stamp : Stamp} {rotation occupancy : UInt32} {count : ℕ}
      {front rest : List (Bucket K V)}
      (vacant : VacantAt rotation occupancy (slotOf r.entry.hash rotation) front rest) :
      Joined r depth (.trie stamp rotation occupancy count (front ++ rest))
        (.trie (r.stampAt depth) rotation (Bitmap.fill occupancy (slotOf r.entry.hash rotation))
          (countAll (front ++ .leaf r.entry :: rest)) (front ++ .leaf r.entry :: rest))
  /-- The entry joins the child of its slot. -/
  | descend {depth : ℕ} {stamp : Stamp} {rotation occupancy : UInt32} {count : ℕ}
      {front rest : List (Bucket K V)} {child grown : Bucket K V}
      (filled : FilledAt rotation occupancy (slotOf r.entry.hash rotation) front child rest)
      (below : Joined r (depth + 1) child grown) :
      Joined r depth (.trie stamp rotation occupancy count (front ++ child :: rest))
        (.trie (r.stampAt depth) rotation occupancy (countAll (front ++ grown :: rest))
          (front ++ grown :: rest))

/-- A new entry takes the place of `stored`, which stands between `before` and `after` in its
row. -/
inductive Replaced (r : Insertion K V) (stored : Leaf K V) :
    List (Leaf K V) → List (Leaf K V) → ℕ → Bucket K V → Bucket K V → Prop where
  /-- In a leaf. -/
  | leaf {depth : ℕ} (hash_eq : stored.hash = r.entry.hash) :
      Replaced r stored [] [] depth (.leaf stored) (.leaf r.entry)
  /-- In a chain. -/
  | chain {before after : List (Leaf K V)} {depth : ℕ} {stamp : Stamp} :
      Replaced r stored before after depth
        (.chain stamp r.entry.hash (before ++ stored :: after))
        (.chain (r.stampAt depth) r.entry.hash (before ++ r.entry :: after))
  /-- In the child of its slot. -/
  | descend {before after : List (Leaf K V)} {depth : ℕ} {stamp : Stamp}
      {rotation occupancy : UInt32} {count : ℕ} {front rest : List (Bucket K V)}
      {child new : Bucket K V}
      (filled : FilledAt rotation occupancy (slotOf r.entry.hash rotation) front child rest)
      (below : Replaced r stored before after (depth + 1) child new) :
      Replaced r stored before after depth
        (.trie stamp rotation occupancy count (front ++ child :: rest))
        (.trie (r.stampAt depth) rotation occupancy (countAll (front ++ new :: rest))
          (front ++ new :: rest))

/-! ## The sequence of entries -/

/-- The hash of a leaf or chain is that of all its entries. -/
theorem Sound.hash_eq_of_hash? {bucket : Bucket K V} (h : bucket.Sound) {hash : UInt32}
    (hhash : bucket.hash? = some hash) : ∀ entry ∈ bucket.leaves, entry.hash = hash := by
  intro entry hentry
  cases h with
  | leaf stored =>
    rw [List.mem_singleton.mp hentry]
    exact Option.some_inj.mp hhash
  | chain _ hash_eq => exact (hash_eq entry hentry).trans (Option.some_inj.mp hhash)
  | trie => exact absurd hhash nofun

/-- The entries of a node, taken apart at some point of one of its children. -/
theorem leavesAll_append_cons (front rest : List (Bucket K V)) {child : Bucket K V}
    {l₁ l₂ : List (Leaf K V)} (h : child.leaves = l₁ ++ l₂) :
    leavesAll (front ++ child :: rest) = (leavesAll front ++ l₁) ++ (l₂ ++ leavesAll rest) := by
  rw [leavesAll_append, leavesAll, h, List.append_assoc, List.append_assoc]

theorem leavesAll_append_leaf_cons (front rest : List (Bucket K V)) (entry : Leaf K V) :
    leavesAll (front ++ .leaf entry :: rest) = leavesAll front ++ entry :: leavesAll rest := by
  rw [leavesAll_append, leavesAll]
  rfl

theorem leaves_of_alone {front rest : List (Bucket K V)} {bucket : Bucket K V}
    (h : front ++ rest = [bucket]) : bucket.leaves = leavesAll front ++ leavesAll rest := by
  rw [← leavesAll_append, h, leavesAll, leavesAll, List.append_nil]

variable {r : Insertion K V} {stored : Leaf K V} {before after : List (Leaf K V)} {depth : ℕ}
  {bucket new grown : Bucket K V}

/-- An entry that joins is put into the sequence at one point, behind all others of its hash. -/
theorem Joined.exists_leaves (h : Joined r depth bucket grown) :
    ∃ l₁ l₂, bucket.leaves = l₁ ++ l₂ ∧ grown.leaves = l₁ ++ r.entry :: l₂ ∧
      ∀ other ∈ l₂, other.hash ≠ r.entry.hash := by
  induction h with
  | @split _ bucket _ rotation front rest _ _ _ alone vacant =>
    refine ⟨leavesAll front, leavesAll rest, leaves_of_alone alone,
      leavesAll_append_leaf_cons front rest r.entry, fun other hother heq ↦ ?_⟩
    exact vacant.slotOf_ne (Or.inr hother) (by rw [heq])
  | @pair _ stored _ =>
    exact ⟨[stored], [], rfl, rfl, fun _ hother ↦ absurd hother List.not_mem_nil⟩
  | @append _ _ entries =>
    exact ⟨entries, [], (List.append_nil _).symm, rfl,
      fun _ hother ↦ absurd hother List.not_mem_nil⟩
  | @fill _ _ rotation _ _ front rest vacant =>
    refine ⟨leavesAll front, leavesAll rest, leavesAll_append _ _,
      leavesAll_append_leaf_cons front rest r.entry, fun other hother heq ↦ ?_⟩
    exact vacant.slotOf_ne (Or.inr hother) (by rw [heq])
  | @descend _ _ rotation _ _ front rest child grown filled _ ih =>
    obtain ⟨l₁, l₂, hchild, hgrown, hne⟩ := ih
    refine ⟨leavesAll front ++ l₁, l₂ ++ leavesAll rest, leavesAll_append_cons front rest hchild,
      leavesAll_append_cons front rest hgrown, ?_⟩
    -- what follows the entry does so in its child, or is in the child of another slot
    intro other hother heq
    rcases List.mem_append.mp hother with hother | hother
    · exact hne other hother heq
    · exact filled.slotOf_ne (Or.inr hother) (by rw [heq])

/-- A replacement exchanges the stored entry for the new one and leaves all others in place. -/
theorem Replaced.exists_leaves (h : Replaced r stored before after depth bucket new)
    (hsound : bucket.Sound) :
    stored.hash = r.entry.hash ∧ ∃ l₁ l₂, bucket.leaves = l₁ ++ stored :: l₂ ∧
      new.leaves = l₁ ++ r.entry :: l₂ ∧
      rowOf r.entry.hash l₁ = before ∧ rowOf r.entry.hash l₂ = after := by
  induction h with
  | leaf hash_eq => exact ⟨hash_eq, [], [], rfl, rfl, rfl, rfl⟩
  | @chain before after _ _ =>
    cases hsound with
    | chain _ hash_eq =>
      refine ⟨hash_eq stored (by simp), before, after, rfl, rfl, ?_, ?_⟩
      · exact rowOf_eq_self fun other hother ↦ hash_eq other (by simp [hother])
      · exact rowOf_eq_self fun other hother ↦ hash_eq other (by simp [hother])
  | @descend _ _ _ _ _ _ _ front rest _ _ filled _ ih =>
    obtain ⟨hhash, l₁, l₂, hchild, hnew, hbefore, hafter⟩ :=
      ih (hsound.of_mem (List.mem_append_right _ List.mem_cons_self))
    refine ⟨hhash, leavesAll front ++ l₁, l₂ ++ leavesAll rest,
      leavesAll_append_cons front rest hchild, leavesAll_append_cons front rest hnew, ?_, ?_⟩
    · rw [rowOf_append, filled.rowOf_front, hbefore, List.nil_append]
    · rw [rowOf_append, filled.rowOf_rest, hafter, List.append_nil]

theorem Joined.mem_leaves (h : Joined r depth bucket grown) {entry : Leaf K V} :
    entry ∈ grown.leaves ↔ entry = r.entry ∨ entry ∈ bucket.leaves := by
  obtain ⟨l₁, l₂, hbucket, hgrown, -⟩ := h.exists_leaves
  rw [hbucket, hgrown, List.mem_append, List.mem_cons, List.mem_append]
  exact or_left_comm

/-! ## Soundness is kept -/

theorem forall_mem_append_cons {α : Type} {P : α → Prop} {front rest : List α} {a : α} :
    (∀ other ∈ front ++ a :: rest, P other) ↔ P a ∧ ∀ other ∈ front ++ rest, P other := by
  simp only [List.forall_mem_append, List.forall_mem_cons]
  exact and_left_comm

theorem length_append_cons (front rest : List (Bucket K V)) (child : Bucket K V) :
    (front ++ child :: rest).length = (front ++ rest).length + 1 := by
  rw [List.length_append, List.length_cons, List.length_append, Nat.add_assoc]

private theorem routedTo_leaf (entry : Leaf K V) (rotation : UInt32) :
    RoutedTo rotation (slotOf entry.hash rotation) (.leaf entry) := by
  intro other hother
  rw [List.mem_singleton.mp hother]

/-- A sound node stays so when the child of one slot is exchanged for a sound one whose entries
belong there. -/
theorem Sound.replace {stamp stamp' : Stamp} {rotation occupancy slot : UInt32} {count : ℕ}
    {front rest : List (Bucket K V)} {child : Bucket K V}
    (h : (Bucket.trie stamp rotation occupancy count (front ++ child :: rest)).Sound)
    (filled : FilledAt rotation occupancy slot front child rest) (hnew : new.Sound)
    (hrouted : RoutedTo rotation slot new) :
    (Bucket.trie stamp' rotation occupancy (countAll (front ++ new :: rest))
      (front ++ new :: rest)).Sound := by
  cases h with
  | trie rotation_lt two_le _ _ sound =>
    refine .trie rotation_lt ?_ rfl (filled.replace hrouted).routed ?_
    · rw [length_append_cons] at two_le ⊢
      exact two_le
    · exact forall_mem_append_cons.mpr ⟨hnew, (forall_mem_append_cons.mp sound).2⟩

theorem Joined.routedTo (h : Joined r depth bucket grown) {rotation : UInt32}
    (hbucket : RoutedTo rotation (slotOf r.entry.hash rotation) bucket) :
    RoutedTo rotation (slotOf r.entry.hash rotation) grown := by
  intro entry hentry
  rcases h.mem_leaves.mp hentry with rfl | hentry
  · rfl
  · exact hbucket entry hentry

theorem Replaced.routedTo (h : Replaced r stored before after depth bucket new)
    (hsound : bucket.Sound) {rotation : UInt32}
    (hbucket : RoutedTo rotation (slotOf r.entry.hash rotation) bucket) :
    RoutedTo rotation (slotOf r.entry.hash rotation) new := by
  intro entry hentry
  obtain ⟨-, l₁, l₂, hleaves, hnew, -⟩ := h.exists_leaves hsound
  rw [hnew, List.mem_append, List.mem_cons, or_left_comm] at hentry
  rcases hentry with rfl | hentry
  · rfl
  · refine hbucket entry ?_
    rw [hleaves, List.mem_append, List.mem_cons]
    exact hentry.imp_right Or.inr

theorem Joined.sound (h : Joined r depth bucket grown) (hsound : bucket.Sound) : grown.Sound := by
  induction h with
  | split _ _ rotation_lt alone vacant =>
    refine .trie rotation_lt ?_ rfl (vacant.routed_fill (routedTo_leaf r.entry _)) ?_
    · rw [length_append_cons, alone]
      rfl
    · refine forall_mem_append_cons.mpr ⟨.leaf r.entry, fun other hother ↦ ?_⟩
      rw [alone] at hother
      rw [List.mem_singleton.mp hother]
      exact hsound
  | pair hash_eq =>
    exact .chain (Nat.le_refl 2)
      (List.forall_mem_cons.mpr ⟨hash_eq, List.forall_mem_singleton.mpr rfl⟩)
  | append =>
    cases hsound with
    | chain two_le hash_eq =>
      refine .chain ?_ (List.forall_mem_append.mpr ⟨hash_eq, fun other hother ↦ ?_⟩)
      · rw [List.length_append]
        exact Nat.le_add_right_of_le two_le
      · rw [List.mem_singleton.mp hother]
  | fill vacant =>
    cases hsound with
    | trie rotation_lt two_le _ _ sound =>
      refine .trie rotation_lt ?_ rfl (vacant.routed_fill (routedTo_leaf r.entry _)) ?_
      · rw [length_append_cons]
        exact Nat.le_succ_of_le two_le
      · exact forall_mem_append_cons.mpr ⟨.leaf r.entry, sound⟩
  | descend filled below ih =>
    have hchild := ih (hsound.of_mem (List.mem_append_right _ List.mem_cons_self))
    exact hsound.replace filled hchild (below.routedTo filled.child)

theorem Replaced.sound (h : Replaced r stored before after depth bucket new)
    (hsound : bucket.Sound) : new.Sound := by
  induction h with
  | leaf => exact .leaf r.entry
  | chain =>
    cases hsound with
    | chain two_le hash_eq =>
      refine .chain ?_ ?_
      · simpa using two_le
      · rw [List.forall_mem_append, List.forall_mem_cons] at hash_eq ⊢
        exact ⟨hash_eq.1, rfl, hash_eq.2.2⟩
  | @descend _ _ _ _ _ _ _ _ _ child new filled below ih =>
    have hchild := hsound.of_mem (List.mem_append_right _ List.mem_cons_self)
    exact hsound.replace filled (ih hchild) (below.routedTo hchild filled.child)

/-! ## What comes about -/

/-- The effect of an insertion, by the place of the key in its row and the verdict on the entry
there. -/
inductive InsertOutcome (r : Insertion K V) (depth : ℕ) (bucket : Bucket K V) :
    Inserted K V → Prop where
  /-- The key is not there, and the entry joins. -/
  | joined {grown : Bucket K V} (seek_eq : r.probe.seek (bucket.row r.entry.hash) = none)
      (joined : Joined r depth bucket grown) : InsertOutcome r depth bucket (.changed grown)
  /-- The key is there with an equal value. -/
  | kept {before after : List (Leaf K V)} {stored : Leaf K V}
      (row_eq : bucket.row r.entry.hash = before ++ stored :: after)
      (seek_eq : r.probe.seek (bucket.row r.entry.hash) = some before.length)
      (verdict_eq : r.verdict stored = .keep) : InsertOutcome r depth bucket .unchanged
  /-- The key is there with a different value, and that is not allowed. -/
  | refused {before after : List (Leaf K V)} {stored : Leaf K V}
      (row_eq : bucket.row r.entry.hash = before ++ stored :: after)
      (seek_eq : r.probe.seek (bucket.row r.entry.hash) = some before.length)
      (verdict_eq : r.verdict stored = .refuse) : InsertOutcome r depth bucket .conflict
  /-- The key is there with a different value, and the entry replaces the stored one. -/
  | replaced {before after : List (Leaf K V)} {stored : Leaf K V} {new : Bucket K V}
      (row_eq : bucket.row r.entry.hash = before ++ stored :: after)
      (seek_eq : r.probe.seek (bucket.row r.entry.hash) = some before.length)
      (verdict_eq : r.verdict stored = .replace)
      (replaced : Replaced r stored before after depth bucket new) :
      InsertOutcome r depth bucket (.changed new)

theorem mkChain_eq (stamp : Stamp) {hash : UInt32} {entries : List (Leaf K V)}
    (htwo : 2 ≤ entries.length) (hhash : ∀ entry ∈ entries, entry.hash = hash) :
    mkChain stamp entries = .ok (.chain stamp hash entries) := by
  match entries, htwo with
  | first :: second :: rest, _ =>
    have hfirst := hhash first List.mem_cons_self
    have hall : ((second :: rest).all fun entry ↦ entry.hash == first.hash) = true := by
      refine List.all_eq_true.mpr fun entry hentry ↦ beq_iff_eq.mpr ?_
      rw [hfirst, hhash entry (List.mem_cons_of_mem _ hentry)]
    rw [mkChain, if_pos hall, hfirst]

theorem mkChain_eq_of_sound {stamp : Stamp} {hash : UInt32} {entries : List (Leaf K V)}
    (h : (Bucket.chain stamp hash entries).Sound) :
    mkChain stamp entries = .ok (.chain stamp hash entries) := by
  cases h with
  | chain two_le hash_eq => exact mkChain_eq stamp two_le hash_eq

/-- Making room for an entry of another hash. -/
theorem exists_split (r : Insertion K V) (depth : ℕ) (suggested : UInt32) {hash : UInt32}
    (hsound : bucket.Sound) (hhash : bucket.hash? = some hash) (hne : hash ≠ r.entry.hash) :
    ∃ grown, split (r.stampAt depth) suggested bucket hash (.leaf r.entry) r.entry.hash
        = .ok grown ∧ Joined r depth bucket grown := by
  obtain ⟨rotation, hsearch, hrotation, hslot⟩ := exists_separating?_eq suggested hne
  have hlt := slotOf_lt hash rotation
  have hlt' := slotOf_lt r.entry.hash rotation
  have hbucket : RoutedTo rotation (slotOf hash rotation) bucket := by
    intro entry hentry
    rw [hsound.hash_eq_of_hash? hhash entry hentry]
  have hholds : holds (bit (slotOf hash rotation)) (slotOf r.entry.hash rotation) = false := by
    rw [holds_bit hlt hlt', beq_eq_false_iff_ne]
    exact hslot
  -- the bucket comes before the new entry or behind it, as their slots do
  obtain ⟨front, rest, halone, hchildren, hvacant⟩ : ∃ front rest, front ++ rest = [bucket] ∧
      (if slotOf hash rotation < slotOf r.entry.hash rotation then [bucket, .leaf r.entry]
        else [.leaf r.entry, bucket]) = front ++ .leaf r.entry :: rest ∧
      VacantAt rotation (bit (slotOf hash rotation)) (slotOf r.entry.hash rotation) front rest := by
    by_cases horder : slotOf hash rotation < slotOf r.entry.hash rotation
    · refine ⟨[bucket], [], rfl, if_pos horder, hlt', hholds, ?_, ?_⟩
      · rw [below_bit hlt, if_pos horder]
        exact .cons hbucket .nil
      · rw [above_bit hlt, if_neg (UInt32.lt_asymm horder)]
        exact .nil
    · have horder' := (UInt32.lt_or_lt_of_ne hslot).resolve_left horder
      refine ⟨[], [bucket], rfl, if_neg horder, hlt', hholds, ?_, ?_⟩
      · rw [below_bit hlt, if_neg horder]
        exact .nil
      · rw [above_bit hlt, if_pos horder']
        exact .cons hbucket .nil
  have hcount :
      bucket.count + (leaf r.entry).count = countAll (front ++ .leaf r.entry :: rest) := by
    rw [← hchildren]
    split
    · rfl
    · exact Nat.add_comm _ _
  refine ⟨_, ?_, .split hhash hne hrotation halone hvacant⟩
  rw [split, hsearch]
  change mkTrie _ _ (fill _ _) _ _ = _
  rw [hchildren]
  exact mkTrie_eq _ (hvacant.routed_fill (routedTo_leaf r.entry _)) hcount

private theorem exists_insert_leaf (r : Insertion K V) (depth : ℕ) (suggested : UInt32)
    (stored : Leaf K V) :
    ∃ result, (leaf stored).insert r depth suggested = .ok result ∧
      InsertOutcome r depth (.leaf stored) result := by
  rw [insert]
  by_cases hhash : stored.hash = r.entry.hash
  · have hrow : (leaf stored).row r.entry.hash = [] ++ stored :: [] := row_leaf_of_eq hhash
    rw [if_neg (not_not_intro hhash)]
    by_cases hkey : r.sameKey stored.key r.entry.key = true
    · have hseek : r.probe.seek ((leaf stored).row r.entry.hash) = some 0 := by
        rw [row_leaf_of_eq hhash, Probe.seek_singleton]
        exact if_pos hkey
      rw [if_pos hkey]
      cases hverdict : r.verdict stored with
      | keep => exact ⟨_, rfl, .kept hrow hseek hverdict⟩
      | refuse => exact ⟨_, rfl, .refused hrow hseek hverdict⟩
      | replace => exact ⟨_, rfl, .replaced hrow hseek hverdict (.leaf hhash)⟩
    · have hjoined : Joined r depth (.leaf stored)
          (.chain (r.stampAt depth) r.entry.hash [stored, r.entry]) := .pair hhash
      rw [if_neg hkey, mkChain_eq_of_sound (hjoined.sound (.leaf stored))]
      refine ⟨_, rfl, .joined ?_ hjoined⟩
      rw [row_leaf_of_eq hhash, Probe.seek_singleton]
      exact if_neg hkey
  · obtain ⟨grown, hsplit, hjoined⟩ := exists_split r depth suggested (.leaf stored) rfl hhash
    rw [if_pos hhash, hsplit]
    refine ⟨_, rfl, .joined ?_ hjoined⟩
    rw [row_leaf_of_ne hhash]
    rfl

/-- What a write meets at the place of its key in a chain. -/
theorem chain_at_position {entries : List (Leaf K V)} (p : Probe K)
    {position : Fin entries.length} (htwo : 2 ≤ entries.length)
    (h : p.position? entries = some position) :
    ∃ before stored after, entries = before ++ stored :: after ∧ before.length = position.val ∧
      entries.get position = stored ∧ p.seek entries = some before.length := by
  have hseek := p.position?_eq_map entries htwo
  rw [h] at hseek
  obtain ⟨before, stored, after, hentries, hlength⟩ := p.exists_append_of_seek hseek.symm
  refine ⟨before, stored, after, hentries, hlength, ?_, ?_⟩
  · rw [List.get_eq_getElem, ← Option.some_inj, ← List.getElem?_eq_getElem, ← hlength, hentries]
    exact getElem?_append_cons rfl stored after
  · rw [← hseek, hlength]
    rfl

private theorem exists_insert_chain (r : Insertion K V) (depth : ℕ) (suggested : UInt32)
    {stamp : Stamp} {hash : UInt32} {entries : List (Leaf K V)} (two_le : 2 ≤ entries.length)
    (hash_eq : ∀ entry ∈ entries, entry.hash = hash) :
    ∃ result, (chain stamp hash entries).insert r depth suggested = .ok result ∧
      InsertOutcome r depth (.chain stamp hash entries) result := by
  have hsound : (chain stamp hash entries).Sound := .chain two_le hash_eq
  rw [insert]
  by_cases hhash : hash = r.entry.hash
  · subst hhash
    have hrow : (chain stamp r.entry.hash entries).row r.entry.hash = entries :=
      row_chain_self hash_eq
    rw [if_neg (not_not_intro rfl)]
    cases hposition : r.probe.position? entries with
    | none =>
      have hjoined : Joined r depth (.chain stamp r.entry.hash entries)
          (.chain (r.stampAt depth) r.entry.hash (entries ++ [r.entry])) := .append
      have hchain := mkChain_eq_of_sound (hjoined.sound hsound)
      rw [hchain]
      refine ⟨_, rfl, .joined ?_ hjoined⟩
      rw [hrow, ← r.probe.position?_eq_map entries two_le, hposition]
      rfl
    | some position =>
      obtain ⟨before, stored, after, hentries, hlength, hstored, hseek⟩ :=
        chain_at_position r.probe two_le hposition
      rw [← hrow] at hseek
      simp only [hstored]
      cases hverdict : r.verdict stored with
      | keep => exact ⟨_, rfl, .kept (hrow.trans hentries) hseek hverdict⟩
      | refuse => exact ⟨_, rfl, .refused (hrow.trans hentries) hseek hverdict⟩
      | replace =>
        have hset : entries.set position r.entry = before ++ r.entry :: after := by
          rw [← hlength, hentries]
          exact set_append_cons rfl stored r.entry after
        have hreplaced : Replaced r stored before after depth (.chain stamp r.entry.hash entries)
            (.chain (r.stampAt depth) r.entry.hash (before ++ r.entry :: after)) := by
          rw [hentries]
          exact .chain
        have hchain := mkChain_eq_of_sound (hreplaced.sound hsound)
        simp only [hset, hchain]
        exact ⟨_, rfl, .replaced (hrow.trans hentries) hseek hverdict hreplaced⟩
  · obtain ⟨grown, hsplit, hjoined⟩ := exists_split r depth suggested hsound rfl hhash
    rw [if_pos hhash, hsplit]
    refine ⟨_, rfl, .joined ?_ hjoined⟩
    rw [row_chain_of_ne hash_eq hhash]
    rfl

/-- At a filled slot a node inserts into the child. -/
theorem FilledAt.insert_eq {rotation occupancy : UInt32} {front rest : List (Bucket K V)}
    {child : Bucket K V} {r : Insertion K V}
    (h : FilledAt rotation occupancy (slotOf r.entry.hash rotation) front child rest)
    (stamp : Stamp) (count depth : ℕ) (suggested : UInt32) :
    (trie stamp rotation occupancy count (front ++ child :: rest)).insert r depth suggested =
      match child.insert r (depth + 1) (rotation + bitsPerLevel) with
      | .error fault => .error fault
      | .ok .unchanged => .ok .unchanged
      | .ok .conflict => .ok .conflict
      | .ok (.changed grown) =>
        (replaceSlot (r.stampAt depth) rotation occupancy count (front ++ child :: rest)
          (slotOf r.entry.hash rotation) child grown).map .changed := by
  rw [insert, if_pos h.holds, insertAt_eq, Dense.getElem?_rank _ h.length_front]
  dsimp only
  -- the code pairs the result with the child, so the two sides only agree result by result
  generalize child.insert r (depth + 1) (rotation + bitsPerLevel) = result
  match result with
  | .error _ => rfl
  | .ok .unchanged => rfl
  | .ok .conflict => rfl
  | .ok (.changed _) => rfl

/-- A child that is not changed in its place can be exchanged. -/
theorem Sound.replaceSlot_eq {stamp : Stamp} {rotation occupancy slot : UInt32} {count : ℕ}
    {front rest : List (Bucket K V)} {child new : Bucket K V} (stamp' : Stamp)
    (h : (Bucket.trie stamp rotation occupancy count (front ++ child :: rest)).Sound)
    (filled : FilledAt rotation occupancy slot front child rest)
    (hrouted : RoutedTo rotation slot new) :
    replaceSlot stamp' rotation occupancy count (front ++ child :: rest) slot child new
      = .ok (.trie stamp' rotation occupancy (countAll (front ++ new :: rest))
          (front ++ new :: rest)) := by
  cases h with
  | trie _ _ count_eq => rw [count_eq, filled.replaceSlot_eq stamp' hrouted]

/-- **Insertion.** On a sound bucket an insertion has one of the effects, and no fault. -/
theorem Sound.exists_insert (h : bucket.Sound) (r : Insertion K V) (depth : ℕ)
    (suggested : UInt32) :
    ∃ result, bucket.insert r depth suggested = .ok result ∧
      InsertOutcome r depth bucket result := by
  induction h generalizing depth suggested with
  | leaf stored => exact exists_insert_leaf r depth suggested stored
  | chain two_le hash_eq => exact exists_insert_chain r depth suggested two_le hash_eq
  | @trie stamp rotation occupancy count children rotation_lt two_le count_eq routed sound ih =>
    have hsound : (Bucket.trie stamp rotation occupancy count children).Sound :=
      .trie rotation_lt two_le count_eq routed sound
    have hslot := slotOf_lt r.entry.hash rotation
    cases hholds : holds occupancy (slotOf r.entry.hash rotation) with
    | false =>
      obtain ⟨front, rest, rfl, vacant⟩ := exists_vacantAt routed hslot hholds
      rw [insert, hholds, if_neg Bool.false_ne_true, count_eq, vacant.fillSlot_eq _ rfl]
      refine ⟨_, rfl, .joined ?_ (.fill vacant)⟩
      rw [row, leaves, vacant.rowOf_eq_nil]
      rfl
    | true =>
      obtain ⟨front, child, rest, rfl, filled⟩ := exists_filledAt routed hslot hholds
      obtain ⟨result, hinsert, houtcome⟩ :=
        ih child (List.mem_append_right _ List.mem_cons_self) (depth + 1) (rotation + bitsPerLevel)
      have hchild := hsound.of_mem (List.mem_append_right _ List.mem_cons_self)
      -- the row is that of the child, so what comes about in the child does so in the node
      have hrow : (Bucket.trie stamp rotation occupancy count
          (front ++ child :: rest)).row r.entry.hash
          = child.row r.entry.hash := filled.rowOf_eq
      rw [filled.insert_eq, hinsert]
      cases houtcome with
      | joined seek_eq joined =>
        have hreplace := hsound.replaceSlot_eq (r.stampAt depth) filled
          (joined.routedTo filled.child)
        rw [← hrow] at seek_eq
        simp only [hreplace]
        exact ⟨_, rfl, .joined seek_eq (.descend filled joined)⟩
      | kept row_eq seek_eq verdict_eq =>
        rw [← hrow] at row_eq seek_eq
        exact ⟨_, rfl, .kept row_eq seek_eq verdict_eq⟩
      | refused row_eq seek_eq verdict_eq =>
        rw [← hrow] at row_eq seek_eq
        exact ⟨_, rfl, .refused row_eq seek_eq verdict_eq⟩
      | replaced row_eq seek_eq verdict_eq replaced =>
        have hreplace := hsound.replaceSlot_eq (r.stampAt depth) filled
          (replaced.routedTo hchild filled.child)
        rw [← hrow] at row_eq seek_eq
        simp only [hreplace]
        exact ⟨_, rfl, .replaced row_eq seek_eq verdict_eq (.descend filled replaced)⟩

end Bucket

end RotaryTrie
