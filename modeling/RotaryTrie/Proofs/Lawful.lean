import RotaryTrie.Catalog.Words
import RotaryTrie.Proofs.Edits

/-!
# Lawful comparisons of keys

If the comparison of keys is an equivalence among the keys of each hash, keys fall into classes:
two keys are the *same* if they have one hash and compare as equal. Nothing is asked of keys with
different hashes, which are not compared with each other.

A map under such a strategy has at most one entry of each class, and this makes it *regular*. Its
writes can then be described without places and rows: an insertion puts its entry in place of those
of the same class, and an erasure drops them.
-/

set_option autoImplicit false

namespace RotaryTrie

open Bucket

variable {κ ν K V : Type} [KeyStrategy κ K]

/-- Two keys have one hash and compare as equal. -/
def SameKey (s : κ) (a b : K) : Prop :=
  KeyStrategy.hash s a = KeyStrategy.hash s b ∧ KeyStrategy.equals s a b = true

instance (s : κ) (a b : K) : Decidable (SameKey s a b) := inferInstanceAs (Decidable (_ ∧ _))

/-- Among keys of one hash, the comparison is an equivalence. -/
structure LawfulKeys (s : κ) : Prop where
  /-- A key is equal to itself. -/
  refl : ∀ a, KeyStrategy.equals s a a = true
  /-- The order of two keys does not matter. -/
  symm : ∀ a b, KeyStrategy.hash s a = KeyStrategy.hash s b →
    KeyStrategy.equals s a b = true → KeyStrategy.equals s b a = true
  /-- Keys equal to a third one are equal. -/
  trans : ∀ a b c, KeyStrategy.hash s a = KeyStrategy.hash s b →
    KeyStrategy.hash s b = KeyStrategy.hash s c → KeyStrategy.equals s a b = true →
    KeyStrategy.equals s b c = true → KeyStrategy.equals s a c = true

namespace LawfulKeys

variable {s : κ} {a b c : K}

theorem sameKey_refl (h : LawfulKeys s) (a : K) : SameKey s a a := ⟨rfl, h.refl a⟩

theorem sameKey_symm (h : LawfulKeys s) (hab : SameKey s a b) : SameKey s b a :=
  ⟨hab.1.symm, h.symm a b hab.1 hab.2⟩

theorem sameKey_trans (h : LawfulKeys s) (hab : SameKey s a b) (hbc : SameKey s b c) :
    SameKey s a c :=
  ⟨hab.1.trans hbc.1, h.trans a b c hab.1 hbc.1 hab.2 hbc.2⟩

/-- The classes of keys. -/
def setoid (h : LawfulKeys s) : Setoid K where
  r := SameKey s
  iseqv := ⟨h.sameKey_refl, h.sameKey_symm, h.sameKey_trans⟩

theorem of_feature {α : Type} [DecidableEq α] (feature : K → α)
    (h : ∀ a b, KeyStrategy.equals s a b = (feature a == feature b)) : LawfulKeys s where
  refl a := by rw [h, beq_self_eq_true]
  symm a b _ hab := by
    rw [h, beq_iff_eq] at hab ⊢
    exact hab.symm
  trans a b c _ _ hab hbc := by
    rw [h, beq_iff_eq] at hab hbc ⊢
    exact hab.trans hbc

/-- Of the rules for number keys, only the one that compares by order is not lawful. -/
theorem of_wordRule {rule : WordRule} (hrule : rule ≠ .le) (tag : Option String) :
    LawfulKeys (⟨rule, tag⟩ : Named WordRule) := by
  cases rule with
  | mod10 | broken | brokenPairs => exact of_feature (fun a ↦ a % 10) fun _ _ ↦ rfl
  | le => exact absurd rfl hrule
  | _ => exact of_feature (fun a ↦ a) fun _ _ ↦ rfl

end LawfulKeys

namespace Map

/-- The comparison of keys is lawful, and no two entries have the same key. -/
structure Regular (m : Map κ ν K V) : Prop extends Sound m where
  /-- The comparison of keys. -/
  lawful : LawfulKeys m.strategies.key
  /-- The entries. -/
  distinct : m.leaves.Pairwise fun a b ↦ ¬ SameKey m.strategies.key a.key b.key

variable {m : Map κ ν K V} {write : ℕ} {key : K} {stored : Leaf K V}
  {before after : List (Leaf K V)}

/-! ## The place of a key -/

theorem Regular.sameKey_of_place (h : m.Regular) (row_eq : m.rowFor key = before ++ stored :: after)
    (place_eq : m.place key = some before.length) : SameKey m.strategies.key stored.key key := by
  obtain ⟨hstored, hhash⟩ := mem_leaves_of_rowFor_eq row_eq
  rw [h.hash_eq stored hstored] at hhash
  refine ⟨hhash, ?_⟩
  rw [place, row_eq] at place_eq
  rcases (m.probe key).sameKey_of_seek place_eq with hequals | hequals
  · exact hequals
  · exact h.lawful.symm key stored.key hhash.symm hequals

theorem Regular.not_sameKey_of_place (h : m.Regular) (place_eq : m.place key = none) :
    ∀ entry ∈ m.leaves, ¬ SameKey m.strategies.key entry.key key := by
  intro entry hentry hsame
  -- an entry with the same key has its hash, so it would be in the row
  have hrow : entry ∈ m.rowFor key :=
    mem_rowOf.mpr ⟨hentry, (h.hash_eq entry hentry).trans hsame.1⟩
  rcases (m.probe key).sameKey_eq_false_of_seek place_eq hrow with hequals | hequals
  · exact absurd hsame.2 (Bool.eq_false_iff.mp hequals)
  · exact absurd (h.lawful.sameKey_symm hsame).2 (Bool.eq_false_iff.mp hequals)

theorem Regular.not_sameKey_of_leaves_eq (h : m.Regular) {l₁ l₂ : List (Leaf K V)}
    (hleaves : m.leaves = l₁ ++ stored :: l₂) (hstored : SameKey m.strategies.key stored.key key) :
    ∀ entry ∈ l₁ ++ l₂, ¬ SameKey m.strategies.key entry.key key := by
  have hdistinct := h.distinct
  rw [hleaves, List.pairwise_middle fun hne hsame ↦ hne (h.lawful.sameKey_symm hsame),
    List.pairwise_cons] at hdistinct
  intro entry hentry hsame
  exact hdistinct.1 entry hentry
    (h.lawful.sameKey_trans hstored (h.lawful.sameKey_symm hsame))

/-- The entry that a key belongs to is the one with the same key. -/
theorem Regular.find?_eq_some_iff (h : m.Regular) (key : K) (entry : Leaf K V) :
    m.find? key = some entry ↔ entry ∈ m.leaves ∧ SameKey m.strategies.key entry.key key := by
  cases hplace : m.place key with
  | none =>
    rw [h.find?_eq_none hplace]
    refine iff_of_false nofun fun ⟨hentry, hsame⟩ ↦ ?_
    exact h.not_sameKey_of_place hplace entry hentry hsame
  | some index =>
    obtain ⟨before, stored, after, hrow, rfl⟩ := (m.probe key).exists_append_of_seek hplace
    have hsame := h.sameKey_of_place hrow hplace
    have hstored := (mem_leaves_of_rowFor_eq hrow).1
    -- besides the entry in the key's place, which has the same key, no other one has
    obtain ⟨l₁, l₂, hleaves⟩ := List.append_of_mem hstored
    rw [h.find?_eq_some hrow hplace, Option.some_inj]
    refine ⟨fun heq ↦ ?_, fun ⟨hentry, hsame'⟩ ↦ ?_⟩
    · rw [← heq]
      exact ⟨hstored, hsame⟩
    · rw [hleaves, List.mem_append, List.mem_cons, or_left_comm, ← List.mem_append] at hentry
      rcases hentry with rfl | hentry
      · rfl
      · exact absurd hsame' (h.not_sameKey_of_leaves_eq hleaves hsame entry hentry)

/-! ## Writes -/

private theorem mem_append_iff {α : Type} {P : α → Prop} {l₁ old l₂ : List α}
    (hold : ∀ x ∈ old, P x) (hne : ∀ x ∈ l₁ ++ l₂, ¬ P x) {x : α} :
    x ∈ l₁ ++ l₂ ↔ x ∈ l₁ ++ (old ++ l₂) ∧ ¬ P x := by
  refine ⟨fun hx ↦ ⟨?_, hne x hx⟩, fun ⟨hx, hnot⟩ ↦ ?_⟩
  · rw [List.mem_append] at hx ⊢
    exact hx.imp_right (List.mem_append_right old)
  · rw [List.mem_append, List.mem_append] at hx
    rw [List.mem_append]
    exact hx.imp_right fun hx ↦ hx.resolve_left fun hmem ↦ hnot (hold x hmem)

section Erase

variable {rest : Option (Bucket K V)}

theorem Regular.exists_leaves_of_erase (h : m.Regular) (houtcome : EraseOutcome m write key rest) :
    ∃ l₁ old l₂, m.leaves = l₁ ++ (old ++ l₂) ∧
      ({ m with root := rest } : Map κ ν K V).leaves = l₁ ++ l₂ ∧
      (∀ entry ∈ old, SameKey m.strategies.key entry.key key) ∧
      ∀ entry ∈ l₁ ++ l₂, ¬ SameKey m.strategies.key entry.key key := by
  cases houtcome with
  | missing place_eq =>
    refine ⟨m.leaves, [], [], (List.append_nil _).symm, (List.append_nil _).symm, nofun, ?_⟩
    rw [List.append_nil]
    exact h.not_sameKey_of_place place_eq
  | @dropped _ _ stored _ row_eq place_eq dropped =>
    have hsame := h.sameKey_of_place row_eq place_eq
    obtain ⟨l₁, l₂, hleaves, hrest, -⟩ := dropped.exists_leaves h.root
    exact ⟨l₁, [stored], l₂, hleaves, hrest, List.forall_mem_singleton.mpr hsame,
      h.not_sameKey_of_leaves_eq hleaves hsame⟩

theorem Regular.mem_leaves_of_erase (h : m.Regular) (houtcome : EraseOutcome m write key rest)
    {entry : Leaf K V} :
    entry ∈ ({ m with root := rest } : Map κ ν K V).leaves
      ↔ entry ∈ m.leaves ∧ ¬ SameKey m.strategies.key entry.key key := by
  obtain ⟨l₁, old, l₂, hleaves, hrest, hold, hne⟩ := h.exists_leaves_of_erase houtcome
  rw [hleaves, hrest]
  exact mem_append_iff hold hne

theorem Regular.erase (h : m.Regular) (houtcome : EraseOutcome m write key rest) :
    ({ m with root := rest } : Map κ ν K V).Regular := by
  obtain ⟨l₁, old, l₂, hleaves, hrest, -⟩ := h.exists_leaves_of_erase houtcome
  refine ⟨houtcome.sound h.toSound, h.lawful, ?_⟩
  have hdistinct := h.distinct
  rw [hleaves] at hdistinct
  rw [hrest]
  exact hdistinct.sublist ((List.sublist_append_right old l₂).append_left l₁)

/-- Erasing keys leaves the entries that have none of them. -/
theorem Regular.mem_leaves_eraseAll (h : m.Regular) (write : ℕ) {keys : List K} {entry : Leaf K V} :
    entry ∈ (m.eraseAll write keys).leaves
      ↔ entry ∈ m.leaves ∧ ∀ key ∈ keys, ¬ SameKey m.strategies.key entry.key key := by
  induction keys generalizing m write with
  | nil => exact ⟨fun hentry ↦ ⟨hentry, nofun⟩, And.left⟩
  | cons key keys ih =>
    obtain ⟨rest, herase, houtcome⟩ := h.exists_eraseRoot write key
    have hrest : m.erase write key = { m with root := rest } := by rw [Map.erase, herase]
    rw [h.eraseAll_cons, hrest, ih (h.erase houtcome), h.mem_leaves_of_erase houtcome, and_assoc,
      List.forall_mem_cons]

end Erase

section Insert

variable [ValueStrategy ν V] {policy : Policy} {value : V} {root : Bucket K V}

/-- An insertion that changes the trie puts the new entry in place of those with the same key. -/
theorem Regular.exists_leaves_of_insert (h : m.Regular)
    (houtcome : InsertOutcome m write key value policy (.changed root)) :
    ∃ l₁ old l₂, m.leaves = l₁ ++ (old ++ l₂) ∧
      root.leaves = l₁ ++ m.entryOf write key value :: l₂ ∧
      (∀ entry ∈ old, SameKey m.strategies.key entry.key key) ∧
      ∀ entry ∈ l₁ ++ l₂, ¬ SameKey m.strategies.key entry.key key := by
  cases houtcome with
  | entered place_eq entered =>
    obtain ⟨l₁, l₂, hleaves, hroot, -⟩ := entered.exists_leaves
    refine ⟨l₁, [], l₂, hleaves, hroot, nofun, ?_⟩
    rw [← hleaves]
    exact h.not_sameKey_of_place place_eq
  | @replaced _ _ stored _ _ row_eq place_eq equals_eq root_eq replaced =>
    have hsame := h.sameKey_of_place row_eq place_eq
    obtain ⟨-, l₁, l₂, hleaves, hroot, -⟩ := replaced.exists_leaves (h.root _ root_eq)
    rw [← leaves_of_root_eq root_eq] at hleaves
    exact ⟨l₁, [stored], l₂, hleaves, hroot, List.forall_mem_singleton.mpr hsame,
      h.not_sameKey_of_leaves_eq hleaves hsame⟩

theorem Regular.mem_leaves_of_insert (h : m.Regular)
    (houtcome : InsertOutcome m write key value policy (.changed root)) {entry : Leaf K V} :
    entry ∈ root.leaves ↔ entry = m.entryOf write key value ∨
      entry ∈ m.leaves ∧ ¬ SameKey m.strategies.key entry.key key := by
  obtain ⟨l₁, old, l₂, hleaves, hroot, hold, hne⟩ := h.exists_leaves_of_insert houtcome
  rw [hleaves, hroot, ← mem_append_iff hold hne, List.mem_append, List.mem_cons, List.mem_append]
  exact or_left_comm

theorem Regular.insert (h : m.Regular)
    (houtcome : InsertOutcome m write key value policy (.changed root)) :
    ({ m with root := some root } : Map κ ν K V).Regular := by
  obtain ⟨l₁, old, l₂, hleaves, hroot, -, hne⟩ := h.exists_leaves_of_insert houtcome
  refine ⟨houtcome.sound h.toSound, h.lawful, ?_⟩
  have hdistinct := h.distinct
  rw [hleaves] at hdistinct
  rw [leaves_of_root_eq rfl, hroot,
    List.pairwise_middle fun hne hsame ↦ hne (h.lawful.sameKey_symm hsame), List.pairwise_cons]
  exact ⟨fun entry hentry hsame ↦ hne entry hentry (h.lawful.sameKey_symm hsame),
    hdistinct.sublist ((List.sublist_append_right old l₂).append_left l₁)⟩

/-- Under a lawful comparison of keys, every map that is written is regular. -/
theorem Written.regular (h : m.Written) (hlawful : LawfulKeys m.strategies.key) : m.Regular := by
  induction h with
  | emptyUnder => exact ⟨⟨nofun, nofun⟩, hlawful, .nil⟩
  | insertion _ insert_eq ih => exact (ih hlawful).insert ((ih hlawful).insertOutcome insert_eq)
  | erasure _ erase_eq ih => exact (ih hlawful).erase ((ih hlawful).eraseOutcome erase_eq)
  | revalue hm key_eq ih =>
    rw [← key_eq] at hlawful
    have hregular := ih hlawful
    refine ⟨(Written.revalue hm key_eq).sound, ?_, ?_⟩
    · rw [← key_eq]
      exact hlawful
    · rw [← key_eq]
      exact hregular.distinct

/-! ## Edits -/

theorem EditOutcome.regular {made : Map κ ν K V} (houtcome : EditOutcome m write key made)
    (h : m.Regular) : made.Regular := by
  cases houtcome with
  | unchanged => exact h
  | inserted outcome => exact h.insert outcome
  | erased outcome => exact h.erase outcome

end Insert

end Map

end RotaryTrie
