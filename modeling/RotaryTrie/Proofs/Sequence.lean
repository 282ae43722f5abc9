import RotaryTrie.Catalog.Words
import RotaryTrie.Proofs.Contents
import RotaryTrie.Proofs.Effects

/-!
# The sequence of entries

An enumeration goes through the entries in the order of the trie. That order is not the one in
which they were written, and a new node may put an entry anywhere. But it is stable: a write of one
key puts in, exchanges or takes out a single entry and leaves all others as they are and where they
are, whatever nodes are split, grown or collapsed on the way. `Map.Reachable.single_point` says
which of these it is, by what a search for the key finds.

An exchange does not even touch the nodes: the shape of the trie is the same before and after.
-/

set_option autoImplicit false

namespace RotaryTrie

section Lists

variable {α : Type}

/-- The second list is the first one with an item put in at one point. -/
def InsertedIn (item : α) (old new : List α) : Prop :=
  ∃ l₁ l₂, old = l₁ ++ l₂ ∧ new = l₁ ++ item :: l₂

/-- The second list is the first one with an item, where it first stands, exchanged for another. -/
def ExchangedIn (item other : α) (old new : List α) : Prop :=
  ∃ l₁ l₂, old = l₁ ++ item :: l₂ ∧ new = l₁ ++ other :: l₂ ∧ item ∉ l₁

/-- The second list is the first one without an item where it first stands. -/
def ErasedIn (item : α) (old new : List α) : Prop :=
  ∃ l₁ l₂, old = l₁ ++ item :: l₂ ∧ new = l₁ ++ l₂ ∧ item ∉ l₁

variable {item other x : α} {old new : List α}

theorem InsertedIn.mem_iff (h : InsertedIn item old new) : x ∈ new ↔ x = item ∨ x ∈ old := by
  obtain ⟨l₁, l₂, rfl, rfl⟩ := h
  simp only [List.mem_append, List.mem_cons]
  tauto

theorem ExchangedIn.mem_or_eq (h : ExchangedIn item other old new) (hx : x ∈ new) :
    x ∈ old ∨ x = other := by
  obtain ⟨l₁, l₂, rfl, rfl, -⟩ := h
  simp only [List.mem_append, List.mem_cons] at hx ⊢
  tauto

theorem ExchangedIn.mem_of_ne (h : ExchangedIn item other old new) (hx : x ∈ old) (hne : x ≠ item) :
    x ∈ new := by
  obtain ⟨l₁, l₂, rfl, rfl, -⟩ := h
  simp only [List.mem_append, List.mem_cons] at hx ⊢
  tauto

theorem ErasedIn.mem_of_mem (h : ErasedIn item old new) (hx : x ∈ new) : x ∈ old := by
  obtain ⟨l₁, l₂, rfl, rfl, -⟩ := h
  simp only [List.mem_append, List.mem_cons] at hx ⊢
  tauto

theorem ErasedIn.mem_of_ne (h : ErasedIn item old new) (hx : x ∈ old) (hne : x ≠ item) :
    x ∈ new := by
  obtain ⟨l₁, l₂, rfl, rfl, -⟩ := h
  simp only [List.mem_append, List.mem_cons] at hx ⊢
  tauto

end Lists

namespace Map

variable {κ ν K V : Type}

section Effects

variable {m : Map κ ν K V} {stored : Leaf K V} {before after : List (Leaf K V)}

theorem Entered.insertedIn {r : Insertion K V} {grown : Bucket K V} (h : Entered r m.root grown) :
    InsertedIn r.entry m.leaves grown.leaves := by
  obtain ⟨l₁, l₂, hleaves, hgrown, -⟩ := h.exists_leaves
  exact ⟨l₁, l₂, hleaves, hgrown⟩

private theorem notMem_of_rowOf {hash : UInt32} {entries row : List (Leaf K V)}
    (hrow : rowOf hash entries = row) (hhash : stored.hash = hash) (hstored : stored ∉ row) :
    stored ∉ entries := by
  intro hmem
  rw [← hrow] at hstored
  exact hstored (mem_rowOf.mpr ⟨hmem, hhash⟩)

theorem exchangedIn_of_replaced {r : Insertion K V} {bucket new : Bucket K V}
    (hbucket : bucket.Sound) (root_eq : m.root = some bucket)
    (h : Bucket.Replaced r stored before after 0 bucket new) (notMem : stored ∉ before) :
    ExchangedIn stored r.entry m.leaves new.leaves := by
  obtain ⟨hhash, l₁, l₂, hleaves, hnew, hrow, -⟩ := h.exists_leaves hbucket
  rw [leaves_of_root_eq root_eq]
  exact ⟨l₁, l₂, hleaves, hnew, notMem_of_rowOf hrow hhash notMem⟩

theorem Dropped.erasedIn {write : ℕ} {rest : Option (Bucket K V)}
    (hm : ∀ bucket, m.root = some bucket → bucket.Sound)
    (h : Dropped write stored before after m.root rest) (notMem : stored ∉ before) :
    ErasedIn stored m.leaves ({ m with root := rest } : Map κ ν K V).leaves := by
  obtain ⟨l₁, l₂, hleaves, hrest, hrow, -⟩ := h.exists_leaves hm
  exact ⟨l₁, l₂, hleaves, hrest, notMem_of_rowOf hrow rfl notMem⟩

end Effects

variable [KeyStrategy κ K]

/-- The entries are those of the first map without the one that the key belongs to, if there is
one. -/
def ErasesAt (m : Map κ ν K V) (key : K) (made : Map κ ν K V) : Prop :=
  match m.find? key with
  | none => made = m
  | some stored => ErasedIn stored m.leaves made.leaves

variable [ValueStrategy ν V]

/-- The entries are those of the first map with the pair written: at a new point, or in place of the
entry that the key belongs to. There, an equal value changes nothing, and a different one nothing
but this entry. -/
def WritesAt (m : Map κ ν K V) (write : ℕ) (key : K) (value : V) (made : Map κ ν K V) : Prop :=
  match m.find? key with
  | none => InsertedIn (m.entryOf write key value) m.leaves made.leaves
  | some stored =>
    if ValueStrategy.equals m.strategies.value stored.value value then made = m
    else ExchangedIn stored (m.entryOf write key value) m.leaves made.leaves ∧ made.shape = m.shape

variable {m made : Map κ ν K V} {write : ℕ} {edit : Edit K V} {key : K} {value : V}

/-- An edit with a pair writes it at one point. -/
theorem EditEffect.writesAt (h : EditEffect m write edit made) (hm : m.Sound)
    (hpair : edit.pair? = some (key, value)) : m.WritesAt write key value made := by
  rw [WritesAt]
  cases h with
  | kept pair?_eq find?_eq equals_eq =>
    obtain ⟨rfl, rfl⟩ := Prod.mk.inj (Option.some_inj.mp (pair?_eq.symm.trans hpair))
    simp [find?_eq, equals_eq]
  | entered pair?_eq find?_eq entered =>
    obtain ⟨rfl, rfl⟩ := Prod.mk.inj (Option.some_inj.mp (pair?_eq.symm.trans hpair))
    rw [find?_eq]
    exact entered.insertedIn
  | replaced find?_eq equals_eq notMem root_eq replaced =>
    obtain ⟨rfl, rfl⟩ := Prod.mk.inj (Option.some_inj.mp hpair)
    have hbucket := hm.root _ root_eq
    simp only [find?_eq, equals_eq, Bool.false_eq_true, if_false]
    exact ⟨exchangedIn_of_replaced hbucket root_eq replaced notMem,
      shape_of_replaced hbucket root_eq replaced⟩
  | missing => simp [Edit.pair?] at hpair
  | dropped => simp [Edit.pair?] at hpair

/-- An erasure takes one entry out, or none. -/
theorem EditEffect.erasesAt (h : EditEffect m write (.erase key) made) (hm : m.Sound) :
    m.ErasesAt key made := by
  rw [ErasesAt]
  cases h with
  | kept pair?_eq => simp [Edit.pair?] at pair?_eq
  | entered pair?_eq => simp [Edit.pair?] at pair?_eq
  | missing find?_eq => rw [find?_eq]
  | dropped find?_eq notMem dropped =>
    rw [find?_eq]
    exact dropped.erasedIn hm.root notMem

/-- **Stability.** Every write of a single key to a reachable map changes the sequence of entries at
one point or not at all. -/
theorem Reachable.single_point [DecidableEq κ] (h : m.Reachable) (write : ℕ) (key : K) (value : V) :
    m.WritesAt write key value (m.set write key value) ∧
      (∀ made, m.add write key value = .ok made → m.WritesAt write key value made) ∧
      m.ErasesAt key (m.erase write key) := by
  have hset : m.edit write (.set key value) = .ok (m.set write key value) := rfl
  have herase : m.edit write (.erase key) = .ok (m.erase write key) := rfl
  refine ⟨(h.sound.editEffect hset).writesAt h.sound rfl, fun made hmade ↦ ?_,
    (h.sound.editEffect herase).erasesAt h.sound⟩
  have hadd : m.edit write (.add key value) = .ok made := hmade
  exact (h.sound.editEffect hadd).writesAt h.sound rfl

/-- Five entries under two nodes, two of them in a chain. -/
def siblingWords : Map (Named WordRule) (Named IntegerRule) UInt32 Int32 :=
  (emptyUnder ⟨⟨.pairs, none⟩, ⟨.tens, none⟩⟩).setAll 0
    [(2, 10), (66, 20), (3, 30), (8, 40), (2050, 50)]

theorem single_point_siblingWords :
    siblingWords.pairs = [(2, 10), (3, 30), (2050, 50), (8, 40), (66, 20)] ∧
      (siblingWords.set 5 3 70).pairs = [(2, 10), (3, 70), (2050, 50), (8, 40), (66, 20)] ∧
      (siblingWords.erase 5 3).pairs = [(2, 10), (2050, 50), (8, 40), (66, 20)] ∧
      siblingWords.WritesAt 5 3 70 (siblingWords.set 5 3 70) ∧
      siblingWords.ErasesAt 3 (siblingWords.erase 5 3) := by
  have h : siblingWords.Reachable := .setAll (.emptyUnder _) 0 _
  obtain ⟨hset, -, herase⟩ := h.single_point 5 3 70
  exact ⟨by decide, by decide, by decide, hset, herase⟩

end Map

end RotaryTrie
