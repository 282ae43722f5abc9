import RotaryTrie.Proofs.Identity
import RotaryTrie.Proofs.Lawful
import RotaryTrie.Proofs.Renumbering
import RotaryTrie.Proofs.Sharing

/-!
# Erasures in succession

Keys can be erased one after the other by going from map to map, or by a loop that holds nothing but
the trie, ends as soon as there is none, and makes a map of what is left. Both build the same trie.
What takes more thought is when the result is the very map that they began with: the loop compares
nodes only once, its last one with the first, and not in every step.

For this it is not enough that each erasure makes another node of the root. Nodes come up to the
root as those above them collapse, so one that was further down all the time could be taken for the
old root in the end. It is not, because stamps go back on the way down: a map that is `BuiltOn`
another one has only cells of the other map and new ones, and of the former none but the root itself
is the same node as the root.

## Numbers

The two runs are compared under independent numbers, as they build their nodes independently. No law
of the strategies is needed, except that erasing all keys of a map leaves nothing.
-/

set_option autoImplicit false

namespace RotaryTrie

variable {κ ν K V : Type}

namespace Bucket

variable {clock : ℕ} {bucket cell : Bucket K V} {stamp : Stamp}

/-! ## A node and what is below it -/

/-- What comes after the top of a dated bucket comes after all that is in it. -/
theorem Dated.precedes_of_mem_cells (h : bucket.Dated clock) (htop : bucket.Precedes stamp)
    (hcell : cell ∈ bucket.cells) : cell.Precedes stamp := by
  induction h generalizing stamp with
  | leaf =>
    rw [List.mem_singleton.mp hcell]
    exact htop
  | chain =>
    -- neither a chain nor an entry of one is a trie node
    obtain rfl | ⟨entry, -, rfl⟩ := mem_cells_chain.mp hcell
    · exact htop
    · exact nofun
  | trie _ _ precedes ih =>
    rw [cells_trie] at hcell
    obtain rfl | hcell := List.mem_cons.mp hcell
    · exact htop
    · obtain ⟨child, hchild, hcell⟩ := List.mem_flatMap.mp hcell
      refine ih child hchild (fun top heq ↦ ?_) hcell
      exact (precedes child hchild top heq).trans (htop _ rfl)

theorem Dated.eq_of_mem_cells (h : bucket.Dated clock) (hcell : cell ∈ bucket.cells)
    (hsame : cell.sameNode bucket = true) : cell = bucket := by
  cases h with
  | leaf => exact List.mem_singleton.mp hcell
  | chain =>
    obtain heq | ⟨entry, -, rfl⟩ := mem_cells_chain.mp hcell
    · exact heq
    · cases hsame
  | trie _ dated precedes =>
    rw [cells_trie] at hcell
    obtain heq | hcell := List.mem_cons.mp hcell
    · exact heq
    · obtain ⟨child, hchild, hcell⟩ := List.mem_flatMap.mp hcell
      have hprecedes := (dated child hchild).precedes_of_mem_cells (precedes child hchild) hcell
      exact absurd (trieStamp?_eq_of_sameNode hsame) hprecedes.trieStamp?_ne

private theorem mem_of_mem_others {before after : List (Leaf K V)} {stored entry : Leaf K V}
    (h : entry ∈ before ++ after) : entry ∈ before ++ stored :: after :=
  ((List.sublist_cons_self stored after).append_left before).subset h

/-- What is left after an erasure consists of cells of the bucket and of new ones. -/
theorem Removed.mem_cells {write depth : ℕ} {stored : Leaf K V} {before after : List (Leaf K V)}
    {left : Bucket K V} (h : Removed write stored before after depth bucket left)
    (hcell : cell ∈ left.cells) : cell ∈ bucket.cells ∨ cell.stamp.write = write := by
  induction h with
  | @survivor before after _ _ other alone =>
    have hother : other ∈ before ++ after := by rw [alone, List.mem_singleton]
    rw [List.mem_singleton.mp hcell]
    exact .inl (leaf_mem_cells rfl (mem_of_mem_others hother))
  | @chain before after =>
    obtain rfl | ⟨entry, hentry, rfl⟩ := mem_cells_chain.mp hcell
    · exact .inr rfl
    · exact .inl (leaf_mem_cells rfl (mem_of_mem_others hentry))
  | collapse _ alone =>
    refine .inl (mem_cells_append_cons.mpr (.inr (.inr ?_)))
    rwa [alone, List.flatMap_singleton]
  | vacate =>
    rw [cells_trie] at hcell
    obtain rfl | hcell := List.mem_cons.mp hcell
    · exact .inr rfl
    · exact .inl (mem_cells_append_cons.mpr (.inr (.inr hcell)))
  | descend _ _ ih =>
    obtain rfl | hcell | hcell := mem_cells_append_cons.mp hcell
    · exact .inr rfl
    · exact (ih hcell).imp_left fun hcell ↦ mem_cells_append_cons.mpr (.inr (.inl hcell))
    · exact .inl (mem_cells_append_cons.mpr (.inr (.inr hcell)))

end Bucket

namespace Map

variable {m mid made : Map κ ν K V} {write later : ℕ} {key : K}

/-! ## Maps built on others -/

/-- A map consists of cells of another one and of what writes from the given number on built. -/
def BuiltOn (m : Map κ ν K V) (write : ℕ) (made : Map κ ν K V) : Prop :=
  ∀ cell ∈ made.cells, cell ∈ m.cells ∨ write ≤ cell.stamp.write

theorem BuiltOn.refl (m : Map κ ν K V) (write : ℕ) : m.BuiltOn write m := fun _ hcell ↦ .inl hcell

theorem BuiltOn.trans (h : m.BuiltOn write mid) (hle : write ≤ later)
    (h' : mid.BuiltOn later made) : m.BuiltOn write made := by
  intro cell hcell
  rcases h' cell hcell with hcell | hlater
  · exact h cell hcell
  · exact .inr (hle.trans hlater)

theorem BuiltOn.root_eq (h : m.BuiltOn write made) (hm : m.Dated write)
    (hsame : sameRoot made.root m.root = true) : made.root = m.root := by
  obtain ⟨_ | root, _⟩ := made
  · obtain ⟨_ | old, _⟩ := m
    · rfl
    · cases hsame
  · obtain ⟨_ | old, _⟩ := m
    · cases hsame
    · rcases h root root.self_mem_cells with hcell | hwrite
      · exact congrArg some ((hm old rfl).eq_of_mem_cells hcell hsame)
      · -- the old root was built before these writes
        rw [Bucket.stamp_eq_of_sameNode hsame] at hwrite
        exact absurd (hm old rfl).stamp_lt (Nat.not_lt.mpr hwrite)

theorem Dropped.builtOn {stored : Leaf K V} {before after : List (Leaf K V)}
    {rest : Option (Bucket K V)} (h : Dropped write stored before after m.root rest) :
    m.BuiltOn write { m with root := rest } := by
  obtain ⟨root, strategies⟩ := m
  cases h with
  | last => exact nofun
  | removed removed => exact fun cell hcell ↦ (removed.mem_cells hcell).imp_right Eq.ge

/-! ## From map to map -/

section Each

variable [KeyStrategy κ K]

/-- Erases keys one after the other, each from the map that the one before has left. -/
def eraseEach (m : Map κ ν K V) (write : ℕ) : List K → Map κ ν K V
  | [] => m
  | key :: keys => (m.erase write key).eraseEach (write + 1) keys

theorem eraseEach_append (m : Map κ ν K V) (write : ℕ) (before after : List K) :
    m.eraseEach write (before ++ after)
      = (m.eraseEach write before).eraseEach (write + before.length) after := by
  induction before generalizing m write with
  | nil => rfl
  | cons key before ih =>
    rw [List.cons_append, eraseEach, eraseEach, ih, List.length_cons, Nat.add_assoc,
      Nat.add_comm 1]

theorem eraseEach_of_isEmpty (h : m.isEmpty = true) (write : ℕ) (keys : List K) :
    m.eraseEach write keys = m := by
  obtain ⟨_ | _, _⟩ := m
  · induction keys generalizing write with
    | nil => rfl
    | cons key keys ih => exact ih (write + 1)
  · cases h

theorem strategies_erase (m : Map κ ν K V) (write : ℕ) (key : K) :
    (m.erase write key).strategies = m.strategies := by
  rw [erase]
  split <;> rfl

theorem strategies_eraseEach (m : Map κ ν K V) (write : ℕ) (keys : List K) :
    (m.eraseEach write keys).strategies = m.strategies := by
  induction keys generalizing m write with
  | nil => rfl
  | cons key keys ih => rw [eraseEach, ih, strategies_erase]

theorem eraseEach_renumber (g : ℕ → ℕ) (m : Map κ ν K V) {write next : ℕ}
    (hg : ∀ step, g (write + step) = next + step) (keys : List K) :
    (m.renumber g).eraseEach next keys = (m.eraseEach write keys).renumber g := by
  induction keys generalizing m write next with
  | nil => rfl
  | cons key keys ih =>
    have hfirst : g write = next := hg 0
    rw [eraseEach, eraseEach, ← ih, ← erase_renumber, hfirst]
    intro step
    rw [Nat.add_assoc, hg, Nat.add_assoc]

theorem eraseEach_eq_renumber (hm : m.Dated write) (next : ℕ) (keys : List K) :
    m.eraseEach next keys = (m.eraseEach write keys).renumber (shift write next) := by
  have hself : m.renumber (shift write next) = m := hm.renumber_eq fun _ ↦ shift_of_lt
  rw [← eraseEach_renumber _ m (shift_add write next), hself]

/-- Erases keys by identity, each from the map that the one before has left. -/
def eraseEachById (m : Map κ ν K V) (write : ℕ) : List K → Except Fault (Map κ ν K V)
  | [] => .ok m
  | key :: keys =>
    match m.eraseById write key with
    | .error fault => .error fault
    | .ok left => left.eraseEachById (write + 1) keys

end Each

/-! ## The loop -/

section Loop

variable [KeyStrategy κ K]

/-- Erases keys from a trie, one after the other, as long as there is one. What each erasure hands
up goes into the next as it is. -/
def eraseRootsById (m : Map κ ν K V) (write : ℕ) :
    List K → Option (Bucket K V) → Except Fault (Option (Bucket K V))
  | [], root => .ok root
  | _ :: _, none => .ok none
  | key :: keys, some root =>
    match root.eraseById (m.probe key) write 0 with
    | .error fault => .error fault
    | .ok rest => m.eraseRootsById (write + 1) keys rest

/-- Erases keys from the trie of a map, and makes a map of what is left. -/
def eraseAllById (m : Map κ ν K V) (write : ℕ) (keys : List K) : Except Fault (Map κ ν K V) :=
  (m.eraseRootsById write keys m.root).map m.wrap

end Loop

section Runs

variable [KeyStrategy κ K] [ValueStrategy ν V]

/-! ## What an erasure does -/

theorem Sound.sound_erase (h : m.Sound) (write : ℕ) (key : K) : (m.erase write key).Sound :=
  (h.editOutcome write (.erase key)).sound h

theorem Sound.dated_erase (h : m.Sound) (hm : m.Dated write) (key : K) :
    (m.erase write key).Dated (write + 1) := h.dated_edited hm (.erase key)

/-- Either the key is not found and nothing is done, or the entry that is found is dropped. -/
theorem Sound.erase_missing_or_dropped (h : m.Sound) (write : ℕ) (key : K) :
    m.containsKey key = false ∧ m.erase write key = m ∨
      m.containsKey key = true ∧ ∃ stored before after rest,
        Dropped write stored before after m.root rest ∧
        m.erase write key = { m with root := rest } := by
  have hedit : m.edit write (.erase key) = .ok (m.erase write key) := rfl
  generalize m.erase write key = made at hedit ⊢
  rw [containsKey]
  cases h.editEffect hedit with
  | kept pair?_eq => cases pair?_eq
  | entered pair?_eq => cases pair?_eq
  | missing find?_eq =>
    rw [find?_eq]
    exact .inl ⟨rfl, rfl⟩
  | dropped find?_eq _ dropped =>
    rw [find?_eq]
    exact .inr ⟨rfl, _, _, _, _, dropped, rfl⟩

/-- An erasure leaves the very map, or one with fewer entries. -/
theorem Sound.erase_cases (h : m.Sound) (write : ℕ) (key : K) :
    m.containsKey key = false ∧ m.erase write key = m ∨
      m.containsKey key = true ∧ (m.erase write key).leaves.length < m.leaves.length := by
  refine (h.erase_missing_or_dropped write key).imp_right ?_
  rintro ⟨hfound, stored, before, after, rest, dropped, hrest⟩
  refine ⟨hfound, ?_⟩
  obtain ⟨l₁, l₂, hleaves, hleft, -⟩ := dropped.exists_leaves h.root
  rw [hrest, hleft, hleaves, List.length_append, List.length_append, List.length_cons]
  omega

theorem Sound.builtOn_erase (h : m.Sound) (write : ℕ) (key : K) :
    m.BuiltOn write (m.erase write key) := by
  obtain ⟨-, hself⟩ | ⟨-, stored, before, after, rest, dropped, hrest⟩ :=
    h.erase_missing_or_dropped write key
  · rw [hself]
    exact .refl m write
  · rw [hrest]
    exact dropped.builtOn

/-! ## What several erasures do -/

theorem Sound.sound_eraseEach (h : m.Sound) (write : ℕ) (keys : List K) :
    (m.eraseEach write keys).Sound := by
  induction keys generalizing m write with
  | nil => exact h
  | cons key keys ih => exact ih (h.sound_erase write key) (write + 1)

theorem Sound.builtOn_eraseEach (h : m.Sound) (write : ℕ) (keys : List K) :
    m.BuiltOn write (m.eraseEach write keys) := by
  induction keys generalizing m write with
  | nil => exact .refl m write
  | cons key keys ih =>
    have hrest := ih (h.sound_erase write key) (write + 1)
    exact (h.builtOn_erase write key).trans (Nat.le_succ write) hrest

theorem Sound.length_leaves_eraseEach_le (h : m.Sound) (write : ℕ) (keys : List K) :
    (m.eraseEach write keys).leaves.length ≤ m.leaves.length := by
  induction keys generalizing m write with
  | nil => exact Nat.le_refl _
  | cons key keys ih =>
    refine (ih (h.sound_erase write key) (write + 1)).trans ?_
    obtain ⟨-, hself⟩ | ⟨-, hlt⟩ := h.erase_cases write key
    · rw [hself]
    · exact hlt.le

/-- Erasures one after the other leave the very map if and only if none of them finds its key. -/
theorem Sound.eraseEach_eq_self_iff (h : m.Sound) (write : ℕ) (keys : List K) :
    m.eraseEach write keys = m ↔ ∀ before key after, keys = before ++ key :: after →
      (m.eraseEach write before).containsKey key = false := by
  induction keys generalizing write with
  | nil =>
    refine iff_of_true rfl fun before key after heq ↦ ?_
    exact absurd heq.symm (List.append_ne_nil_of_right_ne_nil before (List.cons_ne_nil key after))
  | cons first keys ih =>
    obtain ⟨hmissing, hself⟩ | ⟨hfound, hlt⟩ := h.erase_cases write first
    · rw [eraseEach, hself, ih (write + 1)]
      constructor
      · rintro hkeys (_ | ⟨_, before⟩) key after heq
        · cases heq
          exact hmissing
        · cases heq
          rw [eraseEach, hself]
          exact hkeys before key after rfl
      · intro hkeys before key after heq
        have hbefore := hkeys (first :: before) key after (by rw [heq]; rfl)
        rwa [eraseEach, hself] at hbefore
    · refine iff_of_false (fun heq ↦ ?_) fun hkeys ↦ ?_
      · -- the entry that is erased first does not come back
        have hle := (h.sound_erase write first).length_leaves_eraseEach_le (write + 1) keys
        rw [← eraseEach, heq] at hle
        exact absurd hlt (Nat.not_lt.mpr hle)
      · have hfirst := hkeys [] first keys rfl
        rw [eraseEach, hfound] at hfirst
        cases hfirst

/-- The loop comes to what erasing from map to map comes to. -/
theorem Sound.eraseAll_eq_eraseEach (h : m.Sound) (write : ℕ) (keys : List K) :
    m.eraseAll write keys = m.eraseEach write keys := by
  induction keys generalizing m write with
  | nil => rfl
  | cons key keys ih => rw [h.eraseAll_cons, ih (h.sound_erase write key), eraseEach]

/-! ## The same by identity -/

theorem Sound.eraseEachById_eq (h : m.Sound) (hm : m.Dated write) (keys : List K) :
    m.eraseEachById write keys = .ok (m.eraseEach write keys) := by
  induction keys generalizing m write with
  | nil => rfl
  | cons key keys ih =>
    rw [eraseEachById, h.eraseById_eq hm]
    exact ih (h.sound_erase write key) (h.dated_erase hm key)

theorem Sound.eraseRootsById_eq {root : Option (Bucket K V)}
    (h : ({ m with root } : Map κ ν K V).Sound) (hm : ({ m with root } : Map κ ν K V).Dated write)
    (keys : List K) : m.eraseRootsById write keys root = m.eraseRoots write keys root := by
  -- the trie that is left so far goes along, and only the strategies of the map stay
  induction keys generalizing root write with
  | nil => rfl
  | cons key keys ih =>
    cases root with
    | none => rfl
    | some bucket =>
      obtain ⟨rest, herase, houtcome⟩ := h.exists_eraseRoot write key
      have hbucket : (bucket.erase (m.probe key) write 0).map (Erased.handUp bucket) = .ok rest :=
        (eraseRoot_some _ write key bucket).symm.trans herase
      have hrest : ({ m with root := some bucket } : Map κ ν K V).erase write key
          = { m with root := rest } := by rw [Map.erase, herase]
      rw [eraseRootsById, eraseRoots, (h.root bucket rfl).eraseById_eq _ (hm bucket rfl),
        eraseRoot_some, hbucket]
      refine ih (houtcome.sound h) ?_
      rw [← hrest]
      exact h.dated_erase hm key

theorem Sound.eraseEach_eq_self_of_sameRoot (h : m.Sound) (hm : m.Dated write) {keys : List K}
    (hsame : sameRoot (m.eraseEach write keys).root m.root = true) :
    m.eraseEach write keys = m := by
  have hroot := (h.builtOn_eraseEach write keys).root_eq hm hsame
  have hstrategies := m.strategies_eraseEach write keys
  generalize m.eraseEach write keys = made at hroot hstrategies ⊢
  obtain ⟨_, _⟩ := made
  obtain ⟨_, _⟩ := m
  cases hroot
  cases hstrategies
  rfl

/-- The loop that compares nodes comes to the same, although it does so only once. -/
theorem Sound.eraseAllById_eq (h : m.Sound) (hm : m.Dated write) (keys : List K) :
    m.eraseAllById write keys = .ok (m.eraseAll write keys) := by
  obtain ⟨rest, hrest⟩ := h.exists_eraseRoots write keys
  have hleft : m.eraseAll write keys = { m with root := rest } := by rw [eraseAll, hrest]
  rw [eraseAllById, Sound.eraseRootsById_eq (m := m) h hm, hrest]
  refine congrArg Except.ok ?_
  rw [wrap]
  split
  · next hsame =>
    rw [h.eraseAll_eq_eraseEach] at hleft ⊢
    refine (h.eraseEach_eq_self_of_sameRoot hm ?_).symm
    rw [hleft]
    exact hsame
  · exact hleft.symm

theorem Regular.isEmpty_eraseAll (h : m.Regular) (write : ℕ) {keys : List K}
    (hkeys : keys.Perm m.keys) : (m.eraseAll write keys).isEmpty = true := by
  have hleft : (m.eraseAll write keys).Sound := by
    rw [h.eraseAll_eq_eraseEach]
    exact h.toSound.sound_eraseEach write keys
  rw [isEmpty, Option.isNone_iff_eq_none]
  by_contra hne
  obtain ⟨root, hroot⟩ := Option.ne_none_iff_exists'.mp hne
  obtain ⟨entry, hentry⟩ := (hleft.root root hroot).exists_mem_leaves
  rw [← leaves_of_root_eq hroot, h.mem_leaves_eraseAll write] at hentry
  have hkey : entry.key ∈ keys := hkeys.mem_iff.mpr (List.mem_map_of_mem hentry.1)
  exact hentry.2 entry.key hkey (h.lawful.sameKey_refl entry.key)

/-! ## The two runs -/

variable [DecidableEq κ] [DecidableEq ν]

theorem Sound.sameSnapshot_eraseEach_iff (h : m.Sound) (hm : m.Dated write) (keys : List K) :
    (m.eraseEach write keys).sameSnapshot m = true ↔ m.eraseEach write keys = m := by
  constructor
  · intro hsame
    rw [sameSnapshot, Bool.and_eq_true] at hsame
    exact h.eraseEach_eq_self_of_sameRoot hm hsame.1
  · intro hself
    rw [hself]
    exact m.sameSnapshot_refl

omit [KeyStrategy κ K] [ValueStrategy ν V] in
theorem sameSnapshot_emptyUnder (h : m.isEmpty = true) :
    m.sameSnapshot (emptyUnder m.strategies) = true := by
  obtain ⟨_ | _, strategies⟩ := m
  · exact sameSnapshot_refl _
  · cases h

/-- What there is between erasing keys from a map in one loop, under numbers from `write` on, and
erasing them from map to map, under numbers from `next` on. -/
structure ErasesInTurn (m : Map κ ν K V) (write next : ℕ) (keys : List K) : Prop where
  /-- Both leave the same trie, apart from the identity of its nodes. -/
  layout_eq : (m.eraseAll write keys).layout = (m.eraseEach next keys).layout
  /-- Both keep the strategies. -/
  strategies_eq : (m.eraseAll write keys).strategies = m.strategies ∧
    (m.eraseEach next keys).strategies = m.strategies
  /-- Either both lead back to the snapshot that they began with, or none of them does. -/
  sameSnapshot_eq : (m.eraseAll write keys).sameSnapshot m = (m.eraseEach next keys).sameSnapshot m
  /-- They do so if none of the erasures from map to map finds its key. -/
  sameSnapshot_iff : (m.eraseAll write keys).sameSnapshot m = true ↔
    ∀ before key after, keys = before ++ key :: after →
      (m.eraseEach next before).containsKey key = false
  /-- Once there is no trie, the keys that are left make no difference to either. -/
  stop : ∀ before after, keys = before ++ after → (m.eraseEach next before).isEmpty = true →
    m.eraseEach next keys = m.eraseEach next before ∧
      m.eraseAll write keys = m.eraseAll write before
  /-- If nothing is left, this is what clearing the map leads to. -/
  sameSnapshot_clear : (m.eraseAll write keys).isEmpty = true →
    (m.eraseAll write keys).sameSnapshot m.clear = true
  /-- The loop may pass on nodes as they are handed up, and compare them in the end. -/
  eraseAllById_eq : m.eraseAllById write keys = .ok (m.eraseAll write keys)
  /-- From map to map, they may be compared every time. -/
  eraseEachById_eq : m.eraseEachById next keys = .ok (m.eraseEach next keys)
  /-- Under a lawful comparison of keys, nothing is left once all keys are erased, in any order. -/
  isEmpty_of_perm : LawfulKeys m.strategies.key → keys.Perm m.keys →
    (m.eraseAll write keys).isEmpty = true
  /-- For a map under the canonical strategies, this is the empty map. -/
  sameSnapshot_empty : LawfulKeys m.strategies.key → keys.Perm m.keys →
    m.strategies = .canonical → (m.eraseAll write keys).sameSnapshot empty = true

theorem Written.erasesInTurn_of_dated {clock next : ℕ} (h : m.Written) (hm : m.Dated clock)
    (hwrite : clock ≤ write) (hnext : clock ≤ next) (keys : List K) :
    m.ErasesInTurn write next keys := by
  have hsound := h.sound
  have hstrategies : (m.eraseAll write keys).strategies = m.strategies := by
    rw [hsound.eraseAll_eq_eraseEach, strategies_eraseEach]
  have hshift : ∀ keys, m.eraseEach next keys
      = (m.eraseAll write keys).renumber (shift write next) := by
    intro keys
    rw [hsound.eraseAll_eq_eraseEach]
    exact eraseEach_eq_renumber (hm.mono hwrite) next keys
  have hsame : (m.eraseAll write keys).sameSnapshot m = (m.eraseEach next keys).sameSnapshot m := by
    rw [hshift, hm.sameSnapshot_renumber]
    intro number early hearly
    exact shift_eq_iff (hearly.trans_le hwrite) (hearly.trans_le hnext)
  have hall : LawfulKeys m.strategies.key → keys.Perm m.keys →
      (m.eraseAll write keys).isEmpty = true :=
    fun hlawful hperm ↦ (h.regular hlawful).isEmpty_eraseAll write hperm
  refine ⟨?_, ⟨hstrategies, m.strategies_eraseEach next keys⟩, hsame, ?_, ?_, ?_,
    hsound.eraseAllById_eq (hm.mono hwrite) keys, hsound.eraseEachById_eq (hm.mono hnext) keys,
    hall, ?_⟩
  · rw [hshift, layout_renumber]
  · rw [hsame, hsound.sameSnapshot_eraseEach_iff (hm.mono hnext)]
    exact hsound.eraseEach_eq_self_iff next keys
  · rintro before after rfl hempty
    have hloop : (m.eraseEach write before).isEmpty = true := by
      rw [hshift, isEmpty, renumber, Option.isNone_map] at hempty
      rwa [hsound.eraseAll_eq_eraseEach] at hempty
    rw [hsound.eraseAll_eq_eraseEach, hsound.eraseAll_eq_eraseEach, eraseEach_append,
      eraseEach_append, eraseEach_of_isEmpty hempty, eraseEach_of_isEmpty hloop]
    exact ⟨rfl, rfl⟩
  · intro hempty
    have hself := sameSnapshot_emptyUnder hempty
    rwa [hstrategies] at hself
  · intro hlawful hperm hcanonical
    have hself := sameSnapshot_emptyUnder (hall hlawful hperm)
    rwa [hstrategies, hcanonical] at hself

end Runs

end Map

namespace Workspace

variable [KeyStrategy κ K] [ValueStrategy ν V] [DecidableEq κ] [DecidableEq ν]
  {w : Workspace κ ν K V} {m : Map κ ν K V}

/-- **Erasures in succession.** Erasing keys from a map of a workspace in one loop builds the same
trie as erasing them from map to map, and both lead back to the map in the same cases. -/
theorem Reached.erasesInTurn (h : w.Reached) {name : String} (hm : w.lookup name = .ok m)
    {write next : ℕ} (hwrite : w.clock ≤ write) (hnext : w.clock ≤ next) (keys : List K) :
    m.ErasesInTurn write next keys := by
  obtain ⟨entry, hentry, rfl⟩ := exists_mem_of_lookup hm
  have hwritten := (h.forall_reachable entry hentry).written
  exact hwritten.erasesInTurn_of_dated (h.forall_dated entry hentry) hwrite hnext keys

/-- A workspace with a map under the canonical strategies. -/
def canonicalWorkspace : Workspace (Named WordRule) (Named IntegerRule) UInt32 Int32 :=
  (opening "words" .canonical).store "words" (Map.empty.setAll 0 [(7, 1), (8, 2), (9, 3)]) 3

theorem reached_canonicalWorkspace : canonicalWorkspace.Reached := by
  have hempty : (opening "words" .canonical :
      Workspace (Named WordRule) (Named IntegerRule) UInt32 Int32).Reached := .opening _ _
  have hset : (opening "words" .canonical).perform "words"
      (.change "words" (.setAll [(7, 1), (8, 2), (9, 3)])) = .ok canonicalWorkspace := rfl
  exact hempty.perform hset

/-- The first key is erased and asked for once more, with one that is not there in between. -/
theorem erasesInTurn_afterCollapse :
    collapsedWords.ErasesInTurn 5 20 [33, 2, 33, 1] ∧
      (collapsedWords.eraseAll 5 [33, 2, 33, 1]).keys = [1057] ∧
      (collapsedWords.eraseAll 5 [2, 3, 2]).sameSnapshot collapsedWords = true ∧
      ∀ m, canonicalWorkspace.lookup "words" = .ok m →
        (m.eraseAll 3 m.keys.reverse).sameSnapshot Map.empty = true := by
  have hcollapsed : afterCollapse.lookup "collapsed" = .ok collapsedWords := rfl
  have hwrite : afterCollapse.clock ≤ 5 := by decide
  have hnext : afterCollapse.clock ≤ 20 := by decide
  refine ⟨reached_afterCollapse.erasesInTurn hcollapsed hwrite hnext _, by decide, by decide,
    fun m hm ↦ ?_⟩
  have hwords :=
    reached_canonicalWorkspace.erasesInTurn hm (Nat.le_refl 3) (Nat.le_refl 3) m.keys.reverse
  have hcanonical : m.strategies = .canonical := by
    cases hm
    rfl
  refine hwords.sameSnapshot_empty ?_ (List.reverse_perm _) hcanonical
  rw [hcanonical]
  exact .of_wordRule (by decide) none

end Workspace

end RotaryTrie
