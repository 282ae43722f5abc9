import RotaryTrie.Catalog.Words
import RotaryTrie.Proofs.Distinct

/-!
# From one map to another

The entries of a map are added to another one, or set in it, one after the other, unless the other
one is empty. An empty map takes over the whole trie if its key strategy is the same, without
looking at any entry. `Map.Reachable.transfers` says that this short cut cannot be noticed: it leads
to a map that *agrees* with the one that the long way leads to.

## Why the short cut is right

The long way writes pairs whose keys the comparison tells apart already, so by the lemmas about
distinct keys it sorts them into rows, and these are the rows of the trie that is taken over. The
comparison of values is never asked, which is why the two value strategies may differ. Of the
receiving map no law is needed, because what it has in common with the other one is the key
strategy.
-/

set_option autoImplicit false

namespace RotaryTrie

variable {κ ν K V : Type} [KeyStrategy κ K] [ValueStrategy ν V]

namespace Map

/-! ## Agreement -/

/-- Two maps cannot be told apart by what they are asked, only by how their tries are laid out. -/
structure Agrees (m other : Map κ ν K V) : Prop where
  /-- The strategies are the very same. -/
  strategies_eq : m.strategies = other.strategies
  /-- There are equally many entries. -/
  size_eq : m.size = other.size
  /-- For every hash, the same keys and values are stored, in the same order. -/
  rows_eq : ∀ hash, m.table.rows hash = other.table.rows hash
  /-- The same pairs are enumerated. -/
  perm : m.pairs.Perm other.pairs
  /-- Every key belongs to the same entry. -/
  getEntry?_eq : ∀ key, m.getEntry? key = other.getEntry? key
  /-- It has the same value. -/
  get?_eq : ∀ key, m.get? key = other.get? key
  /-- The stored key is the same. -/
  getKey?_eq : ∀ key, m.getKey? key = other.getKey? key
  /-- It is there or not in both. -/
  containsKey_eq : ∀ key, m.containsKey key = other.containsKey key
  /-- The value of a key compares alike. -/
  contains_eq : ∀ key value, m.contains key value = other.contains key value
  /-- Some value compares as equal in both or in none. -/
  containsValue_eq : ∀ value, m.containsValue value = other.containsValue value

/-- Two operations that are refused alike, or lead to maps that agree. -/
inductive AgreeOrRefuse :
    Except MapError (Map κ ν K V) → Except MapError (Map κ ν K V) → Prop where
  /-- Both are refused. -/
  | duplicateKey : AgreeOrRefuse (.error .duplicateKey) (.error .duplicateKey)
  /-- Both go through. -/
  | ok {m other : Map κ ν K V} (agrees : m.Agrees other) : AgreeOrRefuse (.ok m) (.ok other)

variable {m other a b : Map κ ν K V}

/-- Sound maps with the same table agree. -/
theorem Sound.agrees (h : m.Sound) (hother : other.Sound) (htable : m.table = other.table) :
    m.Agrees other := by
  have hstrategies : m.strategies = other.strategies := congrArg Table.strategies htable
  have hperm := h.perm_of_table_eq hother htable
  have hentry : ∀ key, m.getEntry? key = other.getEntry? key := by
    intro key
    have hfound := h.find?_table key
    rwa [htable, hother.find?_table, eq_comm] at hfound
  have hanswers : ∀ key, m.Answers key (other.getEntry? key) := by
    intro key
    rw [← hentry]
    exact m.answers_found key
  have hget : ∀ key, m.get? key = other.get? key := by
    intro key
    rw [(hanswers key).get?_eq, (other.answers_found key).get?_eq]
  refine ⟨hstrategies, ?_, congrFun (congrArg Table.rows htable), hperm, hentry, hget, ?_, ?_, ?_,
    ?_⟩
  · rw [h.size_eq_length, hother.size_eq_length, ← List.length_map (f := Leaf.pair),
      ← List.length_map (f := Leaf.pair)]
    exact hperm.length_eq
  · intro key
    rw [(hanswers key).getKey?_eq, (other.answers_found key).getKey?_eq]
  · intro key
    rw [(hanswers key).containsKey_eq, (other.answers_found key).containsKey_eq]
  · intro key value
    rw [contains, contains, hget, hstrategies]
  · intro value
    rw [Bool.eq_iff_iff, containsValue_eq_true_iff, containsValue_eq_true_iff, hstrategies]
    exact exists_congr fun entry ↦ and_congr_left' hperm.mem_iff

/-- Two operations that come to the same table, or to none, agree. -/
theorem agreeOrRefuse_of_map_table_eq {result long : Except MapError (Map κ ν K V)}
    (htable : result.map table = long.map table) (hresult : ∀ m, result = .ok m → m.Sound)
    (hlong : ∀ m, long = .ok m → m.Sound)
    (herror : ∀ error, long = .error error → error = .duplicateKey) :
    AgreeOrRefuse result long := by
  match result, long with
  | .ok m, .ok other =>
    exact .ok ((hresult m rfl).agrees (hlong other rfl) (Except.ok.inj htable))
  | .error error, .error other =>
    have heq : error = other := Except.error.inj htable
    rw [heq, herror other rfl]
    exact .duplicateKey
  | .ok _, .error _ => cases htable
  | .error _, .ok _ => cases htable

/-! ## What additions and settings leave alone -/

/-- The only reason to refuse an addition. -/
theorem eq_duplicateKey_of_add {write : ℕ} {key : K} {value : V} {error : MapError}
    (h : m.add write key value = .error error) : error = .duplicateKey := by
  rw [add] at h
  split at h
  · cases h
  · exact (Except.error.inj h).symm
  · cases h
  · cases h

theorem eq_duplicateKey_of_addAll {write : ℕ} {pairs : List (K × V)} {error : MapError}
    (h : m.addAll write pairs = .error error) : error = .duplicateKey := by
  induction pairs generalizing m write with
  | nil => cases h
  | cons pair pairs ih =>
    rw [addAll] at h
    split at h
    · rename_i refused hadd
      rw [← Except.error.inj h]
      exact eq_duplicateKey_of_add hadd
    · exact ih h

theorem strategies_add {write : ℕ} {key : K} {value : V} {made : Map κ ν K V}
    (h : m.add write key value = .ok made) : made.strategies = m.strategies := by
  rw [add] at h
  split at h
  · rw [← Except.ok.inj h]
  · cases h
  · rw [← Except.ok.inj h]
  · rw [← Except.ok.inj h]

theorem strategies_addAll {write : ℕ} {pairs : List (K × V)} {made : Map κ ν K V}
    (h : m.addAll write pairs = .ok made) : made.strategies = m.strategies := by
  induction pairs generalizing m write with
  | nil => rw [← Except.ok.inj h]
  | cons pair pairs ih =>
    rw [addAll] at h
    split at h
    · cases h
    · rename_i next hadd
      rw [ih h, strategies_add hadd]

theorem strategies_set (m : Map κ ν K V) (write : ℕ) (key : K) (value : V) :
    (m.set write key value).strategies = m.strategies := by
  rw [set]
  split <;> rfl

theorem strategies_setAll (m : Map κ ν K V) (write : ℕ) (pairs : List (K × V)) :
    (m.setAll write pairs).strategies = m.strategies := by
  induction pairs generalizing m write with
  | nil => rfl
  | cons pair pairs ih => rw [setAll, ih, strategies_set]

theorem strategies_withStrategies [DecidableEq κ] (m : Map κ ν K V) (write : ℕ)
    (strategies : Strategies κ ν) :
    (m.withStrategies write strategies).strategies = strategies := by
  rw [withStrategies]
  split
  · rfl
  · exact strategies_setAll _ write m.pairs

theorem strategies_addFrom [DecidableEq κ] {write : ℕ} {made : Map κ ν K V}
    (h : a.addFrom write b = .ok made) : made.strategies = a.strategies := by
  rw [addFrom] at h
  split at h
  · rw [← Except.ok.inj h, strategies_withStrategies]
  · exact strategies_addAll h

/-! ## The rows after a transfer -/

omit [ValueStrategy ν V] in
theorem table_of_root_eq_none (h : m.root = none) :
    m.table = Table.ofPairs m.strategies [] := by
  rw [table, leaves_of_root_eq_none h]
  rfl

/-- A trie that is taken over has the rows that its pairs are sorted into. -/
theorem Written.table_takenOver (h : m.Written) {strategies : Strategies κ ν}
    (key_eq : m.strategies.key = strategies.key) :
    ({ m with strategies } : Map κ ν K V).table = Table.ofPairs strategies m.pairs :=
  (h.revalue key_eq).sound.table_eq_ofPairs

variable [DecidableEq κ]

/-- Without entries of its own, a map comes to the same rows by taking over a trie as by setting
the pairs that it holds. -/
theorem Written.table_withStrategies (h : b.Written) (hlawful : LawfulKeys b.strategies.key)
    (strategies : Strategies κ ν) (write : ℕ) :
    (b.withStrategies write strategies).table
      = (Table.ofPairs strategies []).setAll b.pairs := by
  rw [Map.withStrategies]
  by_cases hkey : b.strategies.key = strategies.key
  · have hdistinct : DistinctKeys _ ([] ++ b.pairs) := (h.regular hlawful).distinctKeys
    rw [hkey] at hlawful hdistinct
    rw [if_pos hkey, h.table_takenOver hkey]
    exact (Table.setAll_ofPairs hlawful hdistinct).symm
  · rw [if_neg hkey, (Written.emptyUnder strategies).table_setAll]
    exact congrArg (fun t ↦ Table.setAll t b.pairs) (table_of_root_eq_none rfl)

theorem Written.table_setFrom (ha : a.Written) (hb : b.Written)
    (hlawful : LawfulKeys b.strategies.key) (write : ℕ) :
    (a.setFrom write b).table = a.table.setAll b.pairs := by
  rw [Map.setFrom]
  by_cases hempty : a.isEmpty = true
  · rw [if_pos hempty, hb.table_withStrategies hlawful,
      table_of_root_eq_none (Option.isNone_iff_eq_none.mp hempty)]
  · rw [if_neg hempty, ha.table_setAll]

theorem Written.table_addFrom (ha : a.Written) (hb : b.Written)
    (hlawful : LawfulKeys b.strategies.key) (write : ℕ) :
    (a.addFrom write b).map table = a.table.addAll b.pairs := by
  rw [Map.addFrom]
  by_cases htaken : a.isEmpty = true ∧ a.strategies.key = b.strategies.key
  · obtain ⟨hempty, hkey⟩ := htaken
    have hdistinct : DistinctKeys _ ([] ++ b.pairs) := (hb.regular hlawful).distinctKeys
    rw [← hkey] at hlawful hdistinct
    rw [if_pos ⟨hempty, hkey⟩, Map.withStrategies, if_pos hkey.symm,
      table_of_root_eq_none (Option.isNone_iff_eq_none.mp hempty)]
    refine (congrArg Except.ok (hb.table_takenOver hkey.symm)).trans ?_
    exact (Table.addAll_ofPairs hlawful hdistinct).symm
  · rw [if_neg htaken, ha.table_addAll]

/-! ## Both ways -/

/-- **Short cuts cannot be noticed.** The entries of one reachable map are set in another, or added
to it, with the same outcome as if they were written one after the other in the order of their
enumeration. The result has the receiver's strategies. If the receiver is empty and has the same
key strategy, its trie is the very one of the other map, and with both strategies the same, the
result is the other map itself. -/
theorem Reachable.transfers (ha : a.Reachable) (hb : b.Reachable)
    (hlawful : LawfulKeys b.strategies.key) (write next : ℕ) :
    (a.setFrom write b).Agrees (a.setAll next b.pairs) ∧
    AgreeOrRefuse (a.addFrom write b) (a.addAll next b.pairs) ∧
    (a.setFrom write b).strategies = a.strategies ∧
    (∀ made, a.addFrom write b = .ok made → made.strategies = a.strategies) ∧
    (a.isEmpty = true → a.strategies.key = b.strategies.key →
      a.setFrom write b = ⟨b.root, a.strategies⟩ ∧
      a.addFrom write b = .ok ⟨b.root, a.strategies⟩) ∧
    (a.isEmpty = true → a.strategies = b.strategies →
      a.setFrom write b = b ∧ a.addFrom write b = .ok b) := by
  have hset : (a.setFrom write b).Agrees (a.setAll next b.pairs) := by
    refine (ha.setFrom hb write).sound.agrees (ha.setAll next b.pairs).sound ?_
    rw [ha.written.table_setFrom hb.written hlawful, ha.written.table_setAll]
  have htaken : a.isEmpty = true → a.strategies.key = b.strategies.key →
      a.setFrom write b = ⟨b.root, a.strategies⟩ ∧
        a.addFrom write b = .ok ⟨b.root, a.strategies⟩ := by
    intro hempty hkey
    rw [Map.setFrom, if_pos hempty, Map.addFrom, if_pos ⟨hempty, hkey⟩, Map.withStrategies,
      if_pos hkey.symm]
    exact ⟨rfl, rfl⟩
  refine ⟨hset, ?_, ?_, fun made ↦ strategies_addFrom, htaken, ?_⟩
  · refine agreeOrRefuse_of_map_table_eq ?_ (fun made hmade ↦ (ha.addFrom hb hmade).sound)
      (fun made hmade ↦ (ha.addAll hmade).sound) fun error ↦ eq_duplicateKey_of_addAll
    rw [ha.written.table_addFrom hb.written hlawful, ha.written.table_addAll]
  · rw [hset.strategies_eq, strategies_setAll]
  · intro hempty hstrategies
    obtain ⟨hset, hadd⟩ := htaken hempty (congrArg Strategies.key hstrategies)
    rw [hset, hadd, hstrategies]
    exact ⟨rfl, rfl⟩

/-- Keys in two chains and a leaf, under values that compare by tens. -/
def giver : Map (Named WordRule) (Named IntegerRule) UInt32 Int32 :=
  (emptyUnder ⟨⟨.pairs, none⟩, ⟨.tens, none⟩⟩).setAll 0
    [(2, 10), (66, 20), (3, 30), (67, 40), (5, 11)]

/-- A receiver with some of these keys, one of them with another value. -/
def taker : Map (Named WordRule) (Named IntegerRule) UInt32 Int32 :=
  (emptyUnder ⟨⟨.mod10, none⟩, ⟨.default, none⟩⟩).setAll 5 [(12, 10), (4, 7)]

theorem transfers_giver :
    (taker.setFrom 7 giver).getKey? 2 = some 12 ∧ (taker.setFrom 7 giver).size = 6 ∧
      (taker.setFrom 7 giver).Agrees (taker.setAll 20 giver.pairs) ∧
      AgreeOrRefuse (taker.addFrom 7 giver) (taker.addAll 20 giver.pairs) ∧
      giver.clear.setFrom 7 giver = giver := by
  have hgiver : giver.Reachable := .setAll (.emptyUnder _) 0 _
  have htaker : taker.Reachable := .setAll (.emptyUnder _) 5 _
  have hlawful : LawfulKeys giver.strategies.key := .of_wordRule (by decide) none
  have h := htaker.transfers hgiver hlawful 7 20
  refine ⟨by decide, by decide, h.1, h.2.1, ?_⟩
  exact ((hgiver.clear.transfers hgiver hlawful 7 20).2.2.2.2.2 rfl rfl).1

end Map

end RotaryTrie
