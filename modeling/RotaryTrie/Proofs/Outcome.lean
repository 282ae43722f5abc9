import RotaryTrie.Map.Write
import RotaryTrie.Proofs.Erasure

/-!
# What the writes of a map come to

A map is *sound* if its trie is and every entry has the hash of its key. This module brings the
effects of an insertion and an erasure from buckets to maps, where the trie may also be absent.
`Map.Sound.exists_insert` and `Map.Sound.exists_eraseRoot` are the only facts about single writes
that the theory of maps rests on.
-/

set_option autoImplicit false

namespace RotaryTrie

open Bucket

variable {κ ν K V : Type}

namespace Map

/-! ## Entries and their rows -/

/-- The entries of a hash. -/
def row (m : Map κ ν K V) (hash : UInt32) : List (Leaf K V) := rowOf hash m.leaves

section Row

variable {m : Map κ ν K V}

theorem leaves_of_root_eq {bucket : Bucket K V} (h : m.root = some bucket) :
    m.leaves = bucket.leaves := by
  rw [leaves, h]
  rfl

theorem leaves_of_root_eq_none (h : m.root = none) : m.leaves = [] := by
  rw [leaves, h]
  rfl

theorem row_of_root_eq {bucket : Bucket K V} (h : m.root = some bucket) (hash : UInt32) :
    m.row hash = bucket.row hash := by
  rw [row, leaves_of_root_eq h, Bucket.row]

theorem row_of_root_eq_none (h : m.root = none) (hash : UInt32) : m.row hash = [] := by
  rw [row, leaves_of_root_eq_none h]
  rfl

end Row

/-! ## Effects -/

/-- A new entry joins a trie that may be absent. -/
inductive Entered (r : Insertion K V) : Option (Bucket K V) → Bucket K V → Prop where
  /-- The entry is the first one. -/
  | first : Entered r none (.leaf r.entry)
  /-- The entry joins others. -/
  | joined {bucket grown : Bucket K V} (joined : Joined r 0 bucket grown) :
      Entered r (some bucket) grown

/-- An entry is taken out of a trie, which may have held no other one. -/
inductive Dropped (write : ℕ) (stored : Leaf K V) :
    List (Leaf K V) → List (Leaf K V) → Option (Bucket K V) → Option (Bucket K V) → Prop where
  /-- The entry was the only one. -/
  | last : Dropped write stored [] [] (some (.leaf stored)) none
  /-- Others are left. -/
  | removed {before after : List (Leaf K V)} {bucket left : Bucket K V}
      (removed : Removed write stored before after 0 bucket left) :
      Dropped write stored before after (some bucket) (some left)

section Entered

variable {m : Map κ ν K V} {r : Insertion K V} {grown : Bucket K V}

/-- A new entry is put into the sequence at one point, behind all others of its hash. -/
theorem Entered.exists_leaves (h : Entered r m.root grown) :
    ∃ l₁ l₂, m.leaves = l₁ ++ l₂ ∧ grown.leaves = l₁ ++ r.entry :: l₂ ∧
      ∀ other ∈ l₂, other.hash ≠ r.entry.hash := by
  obtain ⟨root, _⟩ := m
  cases h with
  | first => exact ⟨[], [], rfl, rfl, nofun⟩
  | joined joined => exact joined.exists_leaves

theorem Entered.sound (hm : ∀ bucket, m.root = some bucket → bucket.Sound)
    (h : Entered r m.root grown) : grown.Sound := by
  obtain ⟨root, _⟩ := m
  cases h with
  | first => exact .leaf r.entry
  | joined joined => exact joined.sound (hm _ rfl)

end Entered

section Dropped

variable {m : Map κ ν K V} {write : ℕ} {stored : Leaf K V} {before after : List (Leaf K V)}
  {rest : Option (Bucket K V)}

/-- The stored entry is taken out of the sequence, and all others stay in place. -/
theorem Dropped.exists_leaves (hm : ∀ bucket, m.root = some bucket → bucket.Sound)
    (h : Dropped write stored before after m.root rest) :
    ∃ l₁ l₂, m.leaves = l₁ ++ stored :: l₂ ∧
      ({ m with root := rest } : Map κ ν K V).leaves = l₁ ++ l₂ ∧
      rowOf stored.hash l₁ = before ∧ rowOf stored.hash l₂ = after := by
  obtain ⟨root, _⟩ := m
  cases h with
  | last => exact ⟨[], [], rfl, rfl, rfl, rfl⟩
  | removed removed => exact removed.exists_leaves (hm _ rfl)

theorem Dropped.sound (hm : ∀ bucket, m.root = some bucket → bucket.Sound)
    (h : Dropped write stored before after m.root rest) :
    ∀ bucket, rest = some bucket → bucket.Sound := by
  obtain ⟨root, _⟩ := m
  cases h with
  | last => exact nofun
  | removed removed =>
    intro bucket hbucket
    rw [← Option.some_inj.mp hbucket]
    exact removed.sound (hm _ rfl)

end Dropped

/-! ## Sound maps -/

section Sound

variable [KeyStrategy κ K]

/-- The row of a key. -/
def rowFor (m : Map κ ν K V) (key : K) : List (Leaf K V) := m.row (m.probe key).hash

/-- The place of a key in its row. -/
def place (m : Map κ ν K V) (key : K) : Option ℕ := (m.probe key).seek (m.rowFor key)

/-- The trie is sound, and every entry has the hash that the key strategy gives its key. -/
structure Sound (m : Map κ ν K V) : Prop where
  /-- The trie. -/
  root : ∀ bucket, m.root = some bucket → bucket.Sound
  /-- The hashes. -/
  hash_eq : ∀ entry ∈ m.leaves, entry.hash = KeyStrategy.hash m.strategies.key entry.key

variable {m : Map κ ν K V}

theorem Sound.size_eq_length (h : m.Sound) : m.size = m.leaves.length := by
  cases hroot : m.root with
  | none =>
    rw [size, leaves_of_root_eq_none hroot, hroot]
    rfl
  | some bucket =>
    rw [size, leaves_of_root_eq hroot, hroot]
    exact (h.root bucket hroot).count_eq_length

theorem Sound.root_eq_none_iff (h : m.Sound) : m.root = none ↔ m.size = 0 := by
  rw [h.size_eq_length, List.length_eq_zero_iff]
  refine ⟨leaves_of_root_eq_none, fun hleaves ↦ ?_⟩
  cases hroot : m.root with
  | none => rfl
  | some bucket =>
    obtain ⟨entry, hentry⟩ := (h.root bucket hroot).exists_mem_leaves
    rw [← leaves_of_root_eq hroot, hleaves] at hentry
    exact absurd hentry List.not_mem_nil

theorem mem_leaves_of_rowFor_eq {key : K} {stored : Leaf K V} {before after : List (Leaf K V)}
    (h : m.rowFor key = before ++ stored :: after) :
    stored ∈ m.leaves ∧ stored.hash = KeyStrategy.hash m.strategies.key key := by
  have hstored : stored ∈ m.rowFor key := by
    rw [h]
    exact List.mem_append_right before List.mem_cons_self
  exact mem_rowOf.mp hstored

/-- **Search.** The entry that a key belongs to stands in the key's place in its row. -/
theorem Sound.find?_eq (h : m.Sound) (key : K) :
    m.find? key = (m.place key).bind fun index ↦ (m.rowFor key)[index]? := by
  rw [find?, search, place, rowFor]
  cases hroot : m.root with
  | none =>
    rw [row_of_root_eq_none hroot]
    rfl
  | some bucket =>
    rw [row_of_root_eq hroot]
    dsimp only
    rw [(h.root bucket hroot).find_eq]

theorem Sound.find?_eq_none (h : m.Sound) {key : K} (place_eq : m.place key = none) :
    m.find? key = none := by
  rw [h.find?_eq, place_eq]
  rfl

theorem Sound.find?_eq_some (h : m.Sound) {key : K} {stored : Leaf K V}
    {before after : List (Leaf K V)} (row_eq : m.rowFor key = before ++ stored :: after)
    (place_eq : m.place key = some before.length) : m.find? key = some stored := by
  rw [h.find?_eq, place_eq, Option.bind_some, row_eq]
  exact getElem?_append_cons rfl stored after

theorem Sound.hash_eq_of_find? (h : m.Sound) {key : K} {stored : Leaf K V}
    (hfind : m.find? key = some stored) :
    stored.hash = KeyStrategy.hash m.strategies.key key := by
  rw [h.find?_eq, Option.bind_eq_some_iff] at hfind
  obtain ⟨index, -, hindex⟩ := hfind
  exact (mem_rowOf.mp (List.mem_of_getElem? hindex)).2

theorem notMem_of_place {key : K} {stored : Leaf K V} {before after : List (Leaf K V)}
    (row_eq : m.rowFor key = before ++ stored :: after)
    (place_eq : m.place key = some before.length) : stored ∉ before := by
  rw [place, row_eq] at place_eq
  exact (m.probe key).notMem_of_seek place_eq

/-- The queries for a key answer as if this was the entry that it belongs to. -/
structure Answers (m : Map κ ν K V) (key : K) (found : Option (K × V)) : Prop where
  /-- The stored key and its value. -/
  getEntry?_eq : m.getEntry? key = found
  /-- The value. -/
  get?_eq : m.get? key = found.map Prod.snd
  /-- The stored key. -/
  getKey?_eq : m.getKey? key = found.map Prod.fst
  /-- Whether there is an entry. -/
  containsKey_eq : m.containsKey key = found.isSome
  /-- The value that should be there. -/
  item_eq : m.item key = found.elim (.error .keyNotFound) fun entry ↦ .ok entry.2
  /-- The value at an index. -/
  index_eq : m.index key = found.elim (.error .invalidIndex) fun entry ↦ .ok entry.2

/-- All queries follow the same search. -/
theorem answers_found (m : Map κ ν K V) (key : K) : m.Answers key (m.getEntry? key) := by
  refine ⟨rfl, ?_, ?_, ?_, ?_, ?_⟩
  all_goals
    simp only [get?, getEntry?, getKey?, containsKey, item, index]
    cases m.find? key <;> rfl

section Contains

variable [ValueStrategy ν V]

/-- A pair is there if the value of the entry that its key belongs to, compared with the given one,
is equal to it. -/
theorem contains_eq_true_iff (m : Map κ ν K V) (key : K) (value : V) :
    m.contains key value = true ↔ ∃ entry, m.getEntry? key = some entry ∧
      ValueStrategy.equals m.strategies.value entry.2 value = true := by
  rw [contains, (m.answers_found key).get?_eq, Option.any_map, Option.any_eq_true]

omit [KeyStrategy κ K] in
/-- A value is there if one of the stored values, compared with it, is equal to it. -/
theorem containsValue_eq_true_iff (m : Map κ ν K V) (value : V) :
    m.containsValue value = true ↔ ∃ entry ∈ m.pairs,
      ValueStrategy.equals m.strategies.value entry.2 value = true := by
  have hpairs : m.values = m.pairs.map Prod.snd := by
    rw [values, pairs, List.map_map]
    rfl
  rw [containsValue, hpairs, List.any_map, List.any_eq_true]
  exact Iff.rfl

end Contains

/-- The effect of an erasure on a map, by the place of the key in its row. -/
inductive EraseOutcome (m : Map κ ν K V) (write : ℕ) (key : K) : Option (Bucket K V) → Prop where
  /-- The key is not there. -/
  | missing (place_eq : m.place key = none) : EraseOutcome m write key m.root
  /-- The entry in the key's place is taken out. -/
  | dropped {before after : List (Leaf K V)} {stored : Leaf K V} {rest : Option (Bucket K V)}
      (row_eq : m.rowFor key = before ++ stored :: after)
      (place_eq : m.place key = some before.length)
      (dropped : Dropped write stored before after m.root rest) : EraseOutcome m write key rest

/-- **Erasure.** An erasure from a sound map has one of the effects, and no fault. -/
theorem Sound.exists_eraseRoot (h : m.Sound) (write : ℕ) (key : K) :
    ∃ rest, m.eraseRoot write key m.root = .ok rest ∧ EraseOutcome m write key rest := by
  cases hroot : m.root with
  | none =>
    refine ⟨none, rfl, ?_⟩
    rw [← hroot]
    refine .missing ?_
    rw [place, rowFor, row_of_root_eq_none hroot]
    rfl
  | some bucket =>
    obtain ⟨result, herase, houtcome⟩ := (h.root bucket hroot).exists_erase (m.probe key) write 0
    rw [eraseRoot, herase]
    cases houtcome with
    | missing seek_eq =>
      rw [← row_of_root_eq hroot] at seek_eq
      refine ⟨_, rfl, ?_⟩
      rw [← hroot]
      exact .missing seek_eq
    | @emptied stored leaf_eq row_eq seek_eq =>
      rw [← row_of_root_eq hroot] at row_eq seek_eq
      replace row_eq : m.rowFor key = [] ++ stored :: [] := row_eq
      refine ⟨_, rfl, .dropped row_eq seek_eq ?_⟩
      rw [hroot, leaf_eq]
      exact .last
    | removed row_eq seek_eq removed =>
      rw [← row_of_root_eq hroot] at row_eq seek_eq
      refine ⟨_, rfl, .dropped row_eq seek_eq ?_⟩
      rw [hroot]
      exact .removed removed

theorem Sound.eraseOutcome (h : m.Sound) {write : ℕ} {key : K} {rest : Option (Bucket K V)}
    (erase_eq : m.eraseRoot write key m.root = .ok rest) : EraseOutcome m write key rest := by
  obtain ⟨result, herase, houtcome⟩ := h.exists_eraseRoot write key
  rwa [Except.ok.inj (herase.symm.trans erase_eq)] at houtcome

theorem EraseOutcome.sound {write : ℕ} {key : K} {rest : Option (Bucket K V)}
    (h : EraseOutcome m write key rest) (hm : m.Sound) :
    ({ m with root := rest } : Map κ ν K V).Sound := by
  cases h with
  | missing => exact hm
  | dropped _ _ dropped =>
    obtain ⟨l₁, l₂, hleaves, hrest, -⟩ := dropped.exists_leaves hm.root
    refine ⟨dropped.sound hm.root, ?_⟩
    have hhash := hm.hash_eq
    rw [hleaves, List.forall_mem_append, List.forall_mem_cons] at hhash
    rw [hrest, List.forall_mem_append]
    exact ⟨hhash.1, hhash.2.2⟩

/-! ### Several erasures -/

/-- Only the strategies matter, and not the trie of the map itself. -/
theorem eraseRoots_withRoot (m : Map κ ν K V) (own : Option (Bucket K V)) (write : ℕ)
    (keys : List K) (root : Option (Bucket K V)) :
    ({ m with root := own } : Map κ ν K V).eraseRoots write keys root
      = m.eraseRoots write keys root := by
  induction keys generalizing write root with
  | nil => rfl
  | cons key keys ih =>
    cases root with
    | none => rfl
    | some bucket =>
      rw [eraseRoots, eraseRoots]
      simp only [ih]
      rfl

theorem Sound.exists_eraseRoots (h : m.Sound) (write : ℕ) (keys : List K) :
    ∃ rest, m.eraseRoots write keys m.root = .ok rest := by
  induction keys generalizing m write with
  | nil => exact ⟨m.root, rfl⟩
  | cons key keys ih =>
    cases hroot : m.root with
    | none => exact ⟨none, rfl⟩
    | some bucket =>
      obtain ⟨left, herase, houtcome⟩ := h.exists_eraseRoot write key
      obtain ⟨rest, hrest⟩ := ih (houtcome.sound h) (write + 1)
      rw [hroot] at herase
      rw [eraseRoots, herase]
      exact ⟨rest, (m.eraseRoots_withRoot left (write + 1) keys left).symm.trans hrest⟩

theorem eraseAll_of_root_eq_none (h : m.root = none) (write : ℕ) (keys : List K) :
    m.eraseAll write keys = m := by
  obtain ⟨_, _⟩ := m
  subst h
  cases keys <;> rfl

theorem Sound.eraseAll_cons (h : m.Sound) (write : ℕ) (key : K) (keys : List K) :
    m.eraseAll write (key :: keys) = (m.erase write key).eraseAll (write + 1) keys := by
  obtain ⟨left, herase, houtcome⟩ := h.exists_eraseRoot write key
  have hleft : m.erase write key = { m with root := left } := by rw [erase, herase]
  rw [hleft]
  -- without a trie no key is looked at, neither the first one nor the others
  cases hroot : m.root with
  | none =>
    rw [hroot] at herase
    rw [eraseAll_of_root_eq_none hroot, ← Except.ok.inj herase]
    rw [eraseAll_of_root_eq_none (m := { m with root := none }) rfl, ← hroot]
  | some bucket =>
    obtain ⟨rest, hrest⟩ := (houtcome.sound h).exists_eraseRoots (write + 1) keys
    have hrest' := (m.eraseRoots_withRoot left (write + 1) keys left).symm.trans hrest
    rw [hroot] at herase
    rw [eraseAll, eraseAll, hrest, hroot, eraseRoots, herase]
    dsimp only
    rw [hrest']

end Sound

/-! ## Insertions -/

section Insert

variable [KeyStrategy κ K] [ValueStrategy ν V]

/-- The entry of a pair, as a write brings it. -/
def entryOf (m : Map κ ν K V) (write : ℕ) (key : K) (value : V) : Leaf K V :=
  ⟨⟨write, 0⟩, KeyStrategy.hash m.strategies.key key, key, value⟩

/-- A pair on its way into the trie. -/
def insertion (m : Map κ ν K V) (policy : Policy) (write : ℕ) (key : K) (value : V) :
    Insertion K V where
  entry := m.entryOf write key value
  policy := policy
  sameKey := KeyStrategy.equals m.strategies.key
  sameValue := ValueStrategy.equals m.strategies.value

variable {m : Map κ ν K V} {policy : Policy} {write : ℕ} {key : K} {value : V}

theorem insert_of_root_eq {bucket : Bucket K V} (h : m.root = some bucket) :
    m.insert policy write key value
      = bucket.insert (m.insertion policy write key value) 0 0 := by
  rw [insert, h]
  rfl

theorem insert_of_root_eq_none (h : m.root = none) :
    m.insert policy write key value = .ok (.changed (.leaf (m.entryOf write key value))) := by
  rw [insert, h]
  rfl

/-- The effect of an insertion into a map, by the place of the key in its row and the comparison
of the values. -/
inductive InsertOutcome (m : Map κ ν K V) (write : ℕ) (key : K) (value : V) :
    Policy → Inserted K V → Prop where
  /-- The key is not there, and the entry joins. -/
  | entered {policy : Policy} {grown : Bucket K V} (place_eq : m.place key = none)
      (entered : Entered (m.insertion policy write key value) m.root grown) :
      InsertOutcome m write key value policy (.changed grown)
  /-- The key is there with an equal value. -/
  | kept {policy : Policy} {before after : List (Leaf K V)} {stored : Leaf K V}
      (row_eq : m.rowFor key = before ++ stored :: after)
      (place_eq : m.place key = some before.length)
      (equals_eq : ValueStrategy.equals m.strategies.value stored.value value = true) :
      InsertOutcome m write key value policy .unchanged
  /-- The key is there with a different value, and that is not allowed. -/
  | refused {before after : List (Leaf K V)} {stored : Leaf K V}
      (row_eq : m.rowFor key = before ++ stored :: after)
      (place_eq : m.place key = some before.length)
      (equals_eq : ValueStrategy.equals m.strategies.value stored.value value = false) :
      InsertOutcome m write key value .reject .conflict
  /-- The key is there with a different value, and the entry replaces the stored one. -/
  | replaced {before after : List (Leaf K V)} {stored : Leaf K V} {bucket new : Bucket K V}
      (row_eq : m.rowFor key = before ++ stored :: after)
      (place_eq : m.place key = some before.length)
      (equals_eq : ValueStrategy.equals m.strategies.value stored.value value = false)
      (root_eq : m.root = some bucket)
      (replaced : Replaced (m.insertion .overwrite write key value) stored before after 0 bucket
        new) :
      InsertOutcome m write key value .overwrite (.changed new)

private theorem verdict_insertion (stored : Leaf K V) :
    (m.insertion policy write key value).verdict stored =
      if ValueStrategy.equals m.strategies.value stored.value value then .keep
      else match policy with
        | .reject => .refuse
        | .overwrite => .replace := rfl

private theorem equals_eq_of_keep {stored : Leaf K V}
    (h : (m.insertion policy write key value).verdict stored = .keep) :
    ValueStrategy.equals m.strategies.value stored.value value = true := by
  by_contra hne
  rw [verdict_insertion, if_neg hne] at h
  cases policy <;> exact absurd h nofun

private theorem equals_eq_of_not_keep {stored : Leaf K V} {verdict : Verdict}
    (h : (m.insertion policy write key value).verdict stored = verdict) (hne : verdict ≠ .keep) :
    ValueStrategy.equals m.strategies.value stored.value value = false := by
  rw [← Bool.not_eq_true]
  intro hequals
  rw [verdict_insertion, if_pos hequals] at h
  exact hne h.symm

/-- **Insertion.** An insertion into a sound map has one of the effects, and no fault. -/
theorem Sound.exists_insert (h : m.Sound) (policy : Policy) (write : ℕ) (key : K) (value : V) :
    ∃ result, m.insert policy write key value = .ok result ∧
      InsertOutcome m write key value policy result := by
  cases hroot : m.root with
  | none =>
    refine ⟨_, insert_of_root_eq_none hroot, .entered ?_ ?_⟩
    · rw [place, rowFor, row_of_root_eq_none hroot]
      rfl
    · rw [hroot]
      exact .first
  | some bucket =>
    obtain ⟨result, hinsert, houtcome⟩ :=
      (h.root bucket hroot).exists_insert (m.insertion policy write key value) 0 0
    refine ⟨result, (insert_of_root_eq hroot).trans hinsert, ?_⟩
    cases houtcome with
    | joined seek_eq joined =>
      rw [← row_of_root_eq hroot] at seek_eq
      refine .entered seek_eq ?_
      rw [hroot]
      exact .joined joined
    | kept row_eq seek_eq verdict_eq =>
      rw [← row_of_root_eq hroot] at row_eq seek_eq
      exact .kept row_eq seek_eq (equals_eq_of_keep verdict_eq)
    | refused row_eq seek_eq verdict_eq =>
      rw [← row_of_root_eq hroot] at row_eq seek_eq
      have hequals := equals_eq_of_not_keep verdict_eq nofun
      rw [verdict_insertion, hequals] at verdict_eq
      cases policy with
      | reject => exact .refused row_eq seek_eq hequals
      | overwrite => exact absurd verdict_eq nofun
    | replaced row_eq seek_eq verdict_eq replaced =>
      rw [← row_of_root_eq hroot] at row_eq seek_eq
      have hequals := equals_eq_of_not_keep verdict_eq nofun
      rw [verdict_insertion, hequals] at verdict_eq
      cases policy with
      | reject => exact absurd verdict_eq nofun
      | overwrite => exact .replaced row_eq seek_eq hequals hroot replaced

/-- A pair is there exactly if there is nothing to do to write it, under either policy. -/
theorem Sound.contains_iff_insert_eq_unchanged (h : m.Sound) (policy : Policy) (write : ℕ) (key : K)
    (value : V) :
    m.contains key value = true ↔ m.insert policy write key value = .ok .unchanged := by
  obtain ⟨result, hinsert, houtcome⟩ := h.exists_insert policy write key value
  rw [hinsert, contains, get?]
  cases houtcome with
  | entered place_eq =>
    rw [h.find?_eq_none place_eq]
    exact iff_of_false Bool.false_ne_true (by simp)
  | kept row_eq place_eq equals_eq =>
    rw [h.find?_eq_some row_eq place_eq]
    exact iff_of_true equals_eq rfl
  | refused row_eq place_eq equals_eq =>
    rw [h.find?_eq_some row_eq place_eq]
    exact iff_of_false (ne_true_of_eq_false equals_eq) (by simp)
  | replaced row_eq place_eq equals_eq =>
    rw [h.find?_eq_some row_eq place_eq]
    exact iff_of_false (ne_true_of_eq_false equals_eq) (by simp)

theorem Sound.insertOutcome (h : m.Sound) {result : Inserted K V}
    (insert_eq : m.insert policy write key value = .ok result) :
    InsertOutcome m write key value policy result := by
  obtain ⟨other, hinsert, houtcome⟩ := h.exists_insert policy write key value
  rwa [Except.ok.inj (hinsert.symm.trans insert_eq)] at houtcome

theorem InsertOutcome.sound {root : Bucket K V}
    (h : InsertOutcome m write key value policy (.changed root)) (hm : m.Sound) :
    ({ m with root := some root } : Map κ ν K V).Sound := by
  cases h with
  | entered _ entered =>
    obtain ⟨l₁, l₂, hleaves, hroot, -⟩ := entered.exists_leaves
    refine ⟨fun bucket hbucket ↦ ?_, ?_⟩
    · rw [← Option.some_inj.mp hbucket]
      exact entered.sound hm.root
    · have hhash := hm.hash_eq
      rw [hleaves, List.forall_mem_append] at hhash
      rw [leaves_of_root_eq rfl, hroot, List.forall_mem_append, List.forall_mem_cons]
      exact ⟨hhash.1, rfl, hhash.2⟩
  | replaced _ _ _ root_eq replaced =>
    have hbucket := hm.root _ root_eq
    obtain ⟨-, l₁, l₂, hleaves, hroot, -⟩ := replaced.exists_leaves hbucket
    refine ⟨fun bucket hbucket' ↦ ?_, ?_⟩
    · rw [← Option.some_inj.mp hbucket']
      exact replaced.sound hbucket
    · have hhash := hm.hash_eq
      rw [leaves_of_root_eq root_eq, hleaves, List.forall_mem_append, List.forall_mem_cons]
        at hhash
      rw [leaves_of_root_eq rfl, hroot, List.forall_mem_append, List.forall_mem_cons]
      exact ⟨hhash.1, rfl, hhash.2.2⟩

end Insert

end Map

end RotaryTrie
