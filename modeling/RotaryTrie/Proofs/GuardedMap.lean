import RotaryTrie.Catalog.Words
import RotaryTrie.Proofs.Enumeration
import RotaryTrie.Proofs.GuardedTrie
import RotaryTrie.Proofs.History

/-!
# Guarded operations

The operations and queries of maps are gone through here in guarded steps, the walks through the
trie as well as the enumerations by which entries are handed from one map to another. The plain
operations leave a map as it is where they meet a fault. The guarded ones report it, along with
every other hazard, so the two can only agree where there is none.

`Map.Unfailing` says of a map that they agree, whatever it is asked to do, and
`Map.Reachable.unfailing` that this holds of every reachable map. No law of the strategies enters:
what keeps the steps in range is the soundness of the trie, and that is a matter of hashes, slots
and counts alone.
-/

set_option autoImplicit false

namespace RotaryTrie

variable {κ ν K V : Type}

namespace Map

/-! ## Looking up and enumerating -/

section Single

variable [KeyStrategy κ K] (m : Map κ ν K V)

/-- The search for the entry that a key belongs to. -/
def guardedSearch (key : K) : Except Hazard (Option (Leaf K V)) :=
  match m.root with
  | none => return none
  | some root => Guarded.find (m.probe key) root

omit [KeyStrategy κ K] in
/-- The keys and values, enumerated until no entry comes any more. -/
def guardedPairs : Except Hazard (List (K × V)) := do
  let (leaves, _) ← Guarded.take (m.size + 1) m.traversal
  return leaves.reduceOption.map Leaf.pair

/-! ## One entry -/

/-- The insertion of a pair into the trie. -/
def guardedInsert [ValueStrategy ν V] (policy : Policy) (write : ℕ) (key : K) (value : V) :
    Except Hazard (Inserted K V) :=
  match m.root with
  | none => return .changed (.leaf (m.entryOf write key value))
  | some root => Guarded.insert (m.insertion policy write key value) 0 0 root

/-- Adds a pair. -/
def guardedAdd [ValueStrategy ν V] (write : ℕ) (key : K) (value : V) :
    Except Hazard (Except MapError (Map κ ν K V)) := do
  match ← m.guardedInsert .reject write key value with
  | .changed root => return .ok { m with root := some root }
  | .conflict => return .error .duplicateKey
  | .unchanged => return .ok m

/-- Sets the value of a key. -/
def guardedSet [ValueStrategy ν V] (write : ℕ) (key : K) (value : V) :
    Except Hazard (Map κ ν K V) := do
  match ← m.guardedInsert .overwrite write key value with
  | .changed root => return { m with root := some root }
  | .conflict | .unchanged => return m

/-- Erases a key from a trie that may be absent. -/
def guardedEraseRoot (write : ℕ) (key : K) :
    Option (Bucket K V) → Except Hazard (Option (Bucket K V))
  | none => return none
  | some root => do
    match ← Guarded.erase (m.probe key) write 0 root with
    | .unchanged => return some root
    | .emptied => return none
    | .changed rest => return some rest

/-- Erases a key. -/
def guardedErase (write : ℕ) (key : K) : Except Hazard (Map κ ν K V) := do
  let root ← m.guardedEraseRoot write key m.root
  return { m with root }

end Single

/-! ## Many entries -/

/-- Adds pairs one after the other, up to the first that cannot be added. -/
def guardedAddAll [KeyStrategy κ K] [ValueStrategy ν V] (m : Map κ ν K V) (write : ℕ) :
    List (K × V) → Except Hazard (Except MapError (Map κ ν K V))
  | [] => return .ok m
  | (key, value) :: pairs => do
    match ← m.guardedAdd write key value with
    | .error error => return .error error
    | .ok next => next.guardedAddAll (write + 1) pairs

/-- Sets pairs one after the other. -/
def guardedSetAll [KeyStrategy κ K] [ValueStrategy ν V] (m : Map κ ν K V) (write : ℕ) :
    List (K × V) → Except Hazard (Map κ ν K V)
  | [] => return m
  | (key, value) :: pairs => do
    let next ← m.guardedSet write key value
    next.guardedSetAll (write + 1) pairs

/-- Erases keys one after the other from a trie. -/
def guardedEraseRoots [KeyStrategy κ K] (m : Map κ ν K V) (write : ℕ) :
    List K → Option (Bucket K V) → Except Hazard (Option (Bucket K V))
  | [], root => return root
  | _ :: _, none => return none
  | key :: keys, some root => do
    let rest ← m.guardedEraseRoot write key (some root)
    m.guardedEraseRoots (write + 1) keys rest

/-- Erases keys one after the other. -/
def guardedEraseAll [KeyStrategy κ K] (m : Map κ ν K V) (write : ℕ) (keys : List K) :
    Except Hazard (Map κ ν K V) := do
  let root ← m.guardedEraseRoots write keys m.root
  return { m with root }

/-! ## Other strategies, other maps -/

section Transfer

variable [DecidableEq κ] [KeyStrategy κ K] [ValueStrategy ν V] (m : Map κ ν K V) (write : ℕ)

/-- The same entries under other strategies. -/
def guardedWithStrategies (strategies : Strategies κ ν) : Except Hazard (Map κ ν K V) :=
  if m.strategies.key = strategies.key then return { m with strategies }
  else do
    let pairs ← m.guardedPairs
    (emptyUnder strategies).guardedSetAll write pairs

/-- Adds the entries of another map. -/
def guardedAddFrom (other : Map κ ν K V) : Except Hazard (Except MapError (Map κ ν K V)) :=
  if m.isEmpty ∧ m.strategies.key = other.strategies.key then do
    let made ← other.guardedWithStrategies write m.strategies
    return .ok made
  else do
    let pairs ← other.guardedPairs
    m.guardedAddAll write pairs

/-- Sets the entries of another map. -/
def guardedSetFrom (other : Map κ ν K V) : Except Hazard (Map κ ν K V) :=
  if m.isEmpty then other.guardedWithStrategies write m.strategies
  else do
    let pairs ← other.guardedPairs
    m.guardedSetAll write pairs

end Transfer

/-! ## Sound maps -/

section Sound

variable [KeyStrategy κ K] {m : Map κ ν K V} (h : m.Sound)
include h

theorem Sound.guardedSearch_eq (key : K) : m.guardedSearch key = .ok (m.find? key) := by
  rw [guardedSearch, find?, search]
  cases hroot : m.root with
  | none => rfl
  | some root =>
    have hsound := h.root root hroot
    dsimp only
    rw [hsound.guarded_find_eq, hsound.find_eq]
    rfl

theorem Sound.balanced : m.traversal.Balanced := by
  rw [traversal]
  cases hroot : m.root with
  | none => exact Traversal.balanced_start_none
  | some root => exact Traversal.balanced_start (h.root root hroot)

omit [KeyStrategy κ K] h in
theorem pending_traversal (m : Map κ ν K V) : m.traversal.frames.pending = m.leaves := by
  rw [traversal]
  cases hroot : m.root with
  | none =>
    rw [leaves_of_root_eq_none hroot]
    rfl
  | some root => rw [leaves_of_root_eq hroot, Traversal.pending_start]

theorem Sound.guardedPairs_eq : m.guardedPairs = .ok m.pairs := by
  have hlength : m.traversal.frames.pending.length ≤ m.size + 1 := by
    rw [pending_traversal, h.size_eq_length]
    exact Nat.le_succ _
  rw [guardedPairs, Guarded.take_eq h.balanced, Guarded.ok_bind]
  dsimp only
  rw [Traversal.reduceOption_fst_take hlength, pending_traversal]
  rfl

theorem Sound.guardedEraseRoot_eq (write : ℕ) (key : K) :
    m.guardedEraseRoot write key m.root = Guarded.lift (m.eraseRoot write key m.root) := by
  cases hroot : m.root with
  | none => rfl
  | some root =>
    rw [guardedEraseRoot, (h.root root hroot).guarded_erase_eq, eraseRoot]
    cases root.erase (m.probe key) write 0 with
    | error => rfl
    | ok result => cases result <;> rfl

theorem Sound.guardedErase_eq (write : ℕ) (key : K) :
    m.guardedErase write key = .ok (m.erase write key) := by
  obtain ⟨rest, herase, -⟩ := h.exists_eraseRoot write key
  rw [guardedErase, h.guardedEraseRoot_eq, erase, herase]
  rfl

variable [ValueStrategy ν V]

theorem Sound.guardedInsert_eq (policy : Policy) (write : ℕ) (key : K) (value : V) :
    m.guardedInsert policy write key value
      = Guarded.lift (m.insert policy write key value) := by
  rw [guardedInsert]
  cases hroot : m.root with
  | none =>
    rw [insert_of_root_eq_none hroot]
    rfl
  | some root => rw [insert_of_root_eq hroot, ← (h.root root hroot).guarded_insert_eq]

theorem Sound.guardedAdd_eq (write : ℕ) (key : K) (value : V) :
    m.guardedAdd write key value = .ok (m.add write key value) := by
  obtain ⟨result, hinsert, -⟩ := h.exists_insert .reject write key value
  rw [guardedAdd, h.guardedInsert_eq, add, hinsert]
  cases result <;> rfl

theorem Sound.guardedSet_eq (write : ℕ) (key : K) (value : V) :
    m.guardedSet write key value = .ok (m.set write key value) := by
  obtain ⟨result, hinsert, -⟩ := h.exists_insert .overwrite write key value
  rw [guardedSet, h.guardedInsert_eq, set, hinsert]
  cases result <;> rfl

end Sound

/-! ## Runs of writes

A run goes on from one map to the next, so the hypothesis has to be one that writes keep. -/

section Runs

variable [KeyStrategy κ K] {m other : Map κ ν K V}

theorem Sound.guardedEraseRoots_eq (h : m.Sound) (write : ℕ) (keys : List K) :
    m.guardedEraseRoots write keys m.root
      = Guarded.lift (m.eraseRoots write keys m.root) := by
  suffices hrun : ∀ (root : Option (Bucket K V)) (write : ℕ),
      ({ m with root } : Map κ ν K V).Sound →
        m.guardedEraseRoots write keys root = Guarded.lift (m.eraseRoots write keys root) from
    hrun m.root write h
  -- the trie that is left so far goes along, and only the strategies of the map stay
  induction keys with
  | nil =>
    intro root write _
    rfl
  | cons key keys ih =>
    intro root write hroot
    cases root with
    | none => rfl
    | some bucket =>
      obtain ⟨left, herase, houtcome⟩ := hroot.exists_eraseRoot write key
      have hguarded := hroot.guardedEraseRoot_eq write key
      rw [herase] at hguarded
      replace herase : m.eraseRoot write key (some bucket) = .ok left := herase
      replace hguarded : m.guardedEraseRoot write key (some bucket) = .ok left := hguarded
      rw [guardedEraseRoots, hguarded, Guarded.ok_bind, eraseRoots, herase]
      exact ih left (write + 1) (houtcome.sound hroot)

theorem Sound.guardedEraseAll_eq (h : m.Sound) (write : ℕ) (keys : List K) :
    m.guardedEraseAll write keys = .ok (m.eraseAll write keys) := by
  obtain ⟨rest, herase⟩ := h.exists_eraseRoots write keys
  rw [guardedEraseAll, h.guardedEraseRoots_eq, eraseAll, herase]
  rfl

variable [ValueStrategy ν V]

theorem Written.guardedAddAll_eq (h : m.Written) (write : ℕ) (pairs : List (K × V)) :
    m.guardedAddAll write pairs = .ok (m.addAll write pairs) := by
  induction pairs generalizing m write with
  | nil => rfl
  | cons pair pairs ih =>
    rw [guardedAddAll, h.sound.guardedAdd_eq, Guarded.ok_bind, Map.addAll]
    cases hadd : m.add write pair.1 pair.2 with
    | error => rfl
    | ok next => exact ih (h.add hadd) (write + 1)

theorem Written.guardedSetAll_eq (h : m.Written) (write : ℕ) (pairs : List (K × V)) :
    m.guardedSetAll write pairs = .ok (m.setAll write pairs) := by
  induction pairs generalizing m write with
  | nil => rfl
  | cons pair pairs ih =>
    rw [guardedSetAll, h.sound.guardedSet_eq, Guarded.ok_bind]
    exact ih (h.set write pair.1 pair.2) (write + 1)

variable [DecidableEq κ]

theorem Sound.guardedWithStrategies_eq (h : m.Sound) (write : ℕ) (strategies : Strategies κ ν) :
    m.guardedWithStrategies write strategies = .ok (m.withStrategies write strategies) := by
  rw [guardedWithStrategies, withStrategies]
  by_cases hkey : m.strategies.key = strategies.key
  · rw [if_pos hkey, if_pos hkey]
    rfl
  · rw [if_neg hkey, if_neg hkey, h.guardedPairs_eq, Guarded.ok_bind]
    exact (Written.emptyUnder strategies).guardedSetAll_eq write m.pairs

theorem Written.guardedAddFrom_eq (h : m.Written) (hother : other.Sound) (write : ℕ) :
    m.guardedAddFrom write other = .ok (m.addFrom write other) := by
  rw [guardedAddFrom, Map.addFrom]
  by_cases htaken : m.isEmpty ∧ m.strategies.key = other.strategies.key
  · rw [if_pos htaken, if_pos htaken, hother.guardedWithStrategies_eq]
    rfl
  · rw [if_neg htaken, if_neg htaken, hother.guardedPairs_eq]
    exact h.guardedAddAll_eq write other.pairs

theorem Written.guardedSetFrom_eq (h : m.Written) (hother : other.Sound) (write : ℕ) :
    m.guardedSetFrom write other = .ok (m.setFrom write other) := by
  rw [guardedSetFrom, Map.setFrom]
  by_cases hempty : m.isEmpty
  · rw [if_pos hempty, if_pos hempty]
    exact hother.guardedWithStrategies_eq write m.strategies
  · rw [if_neg hempty, if_neg hempty, hother.guardedPairs_eq]
    exact h.guardedSetAll_eq write other.pairs

end Runs

end Map

/-! ## Counts -/

namespace Bucket

theorem count_le_countAll {children : List (Bucket K V)} {child : Bucket K V}
    (h : child ∈ children) : child.count ≤ countAll children := by
  obtain ⟨front, rest, rfl⟩ := List.append_of_mem h
  rw [countAll_append, countAll]
  omega

/-- No node counts more entries than the top does. -/
theorem Sound.count_le_of_mem_nodes {bucket node : Bucket K V} (h : bucket.Sound)
    (hnode : node ∈ bucket.nodes) : node.count ≤ bucket.count := by
  induction h with
  | leaf => rw [List.mem_singleton.mp hnode]
  | chain => rw [List.mem_singleton.mp hnode]
  | trie _ _ count_eq _ _ ih =>
    rw [nodes, List.mem_cons, nodesAll_eq_flatMap, List.mem_flatMap] at hnode
    rcases hnode with rfl | ⟨child, hchild, hnode⟩
    · exact Nat.le_refl _
    · rw [count, count_eq]
      exact (ih child hchild hnode).trans (count_le_countAll hchild)

end Bucket

namespace Map

variable [KeyStrategy κ K] {m : Map κ ν K V}

/-- A number that is large enough for the size of a map is so for all counts in it. -/
theorem Sound.count_le_size (h : m.Sound) {node : Bucket K V} (hnode : node ∈ m.nodes) :
    node.count ≤ m.size := by
  rw [nodes] at hnode
  rw [size]
  cases hroot : m.root with
  | none => simp [hroot] at hnode
  | some root =>
    rw [hroot] at hnode
    exact (h.root root hroot).count_le_of_mem_nodes hnode

/-! ## Reachable maps -/

variable [ValueStrategy ν V] [DecidableEq κ]

/-- No hazard is met whatever a map is asked to do: in guarded steps, the operations and queries
come to the results of the plain ones. -/
structure Unfailing (m : Map κ ν K V) : Prop where
  /-- The search that all queries for a key follow. -/
  search : ∀ key, m.guardedSearch key = .ok (m.find? key)
  /-- `Map.add`, whether it fails or not. -/
  add : ∀ write key value, m.guardedAdd write key value = .ok (m.add write key value)
  /-- `Map.set`. -/
  set : ∀ write key value, m.guardedSet write key value = .ok (m.set write key value)
  /-- `Map.erase`. -/
  erase : ∀ write key, m.guardedErase write key = .ok (m.erase write key)
  /-- `Map.addAll`, whether it fails or not. -/
  addAll : ∀ write pairs, m.guardedAddAll write pairs = .ok (m.addAll write pairs)
  /-- `Map.setAll`. -/
  setAll : ∀ write pairs, m.guardedSetAll write pairs = .ok (m.setAll write pairs)
  /-- `Map.eraseAll`. -/
  eraseAll : ∀ write keys, m.guardedEraseAll write keys = .ok (m.eraseAll write keys)
  /-- `Map.withStrategies`. -/
  withStrategies : ∀ write strategies,
    m.guardedWithStrategies write strategies = .ok (m.withStrategies write strategies)
  /-- `Map.addFrom`, whether it fails or not. -/
  addFrom : ∀ write (other : Map κ ν K V), other.Reachable →
    m.guardedAddFrom write other = .ok (m.addFrom write other)
  /-- `Map.setFrom`. -/
  setFrom : ∀ write (other : Map κ ν K V), other.Reachable →
    m.guardedSetFrom write other = .ok (m.setFrom write other)
  /-- Any number of calls to an enumeration of the entries. -/
  take : ∀ calls, Guarded.take calls m.traversal = .ok (m.traversal.take calls)
  /-- The same for an enumeration that begins at a bucket inside. -/
  inner_take : ∀ bucket ∈ m.nodes, ∀ calls,
    Guarded.take calls (.start (some bucket)) = .ok (Traversal.take calls (.start (some bucket)))
  /-- No count in the trie exceeds the size, so what is wide enough for the one is for the other. -/
  count_le : ∀ node ∈ m.nodes, node.count ≤ m.size

/-- **No hidden failure.** Every reachable map is unfailing, under any strategies. -/
theorem Reachable.unfailing (h : m.Reachable) : m.Unfailing where
  search := h.sound.guardedSearch_eq
  add := h.sound.guardedAdd_eq
  set := h.sound.guardedSet_eq
  erase := h.sound.guardedErase_eq
  addAll := h.written.guardedAddAll_eq
  setAll := h.written.guardedSetAll_eq
  eraseAll := h.sound.guardedEraseAll_eq
  withStrategies := h.sound.guardedWithStrategies_eq
  addFrom write _ hother := h.written.guardedAddFrom_eq hother.sound write
  setFrom write _ hother := h.written.guardedSetFrom_eq hother.sound write
  take := Guarded.take_eq h.sound.balanced
  inner_take _ hbucket :=
    Guarded.take_eq (Traversal.balanced_start (h.sound.sound_of_mem_nodes hbucket))
  count_le _ hnode := h.sound.count_le_size hnode

/-- Keys compared by an order, all in one chain, beside a map of keys that lie far apart. -/
def unruly : Map (Named WordRule) (Named IntegerRule) UInt32 Int32 :=
  (((emptyUnder ⟨⟨.broken, none⟩, ⟨.default, none⟩⟩).setAll 0
    [(2, 1), (12, 2), (34, 3), (1058, 4), (44, 5), (0x80000002, 6)]).erase 6 44).set 7 12 9

theorem unfailing_unruly :
    unruly.size = 5 ∧ unruly.Unfailing ∧ (unruly.withKeyStrategy 8 ⟨.le, none⟩).Unfailing := by
  have h : unruly.Reachable := .set (.erase (.setAll (.emptyUnder _) 0 _) 6 44) 7 12 9
  exact ⟨by decide, h.unfailing, (h.withKeyStrategy 8 _).unfailing⟩

end Map

end RotaryTrie
