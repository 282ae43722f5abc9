import Mathlib.Logic.Function.Basic
import RotaryTrie.Bucket.Layout
import RotaryTrie.Catalog.Words
import RotaryTrie.Proofs.History

/-!
# A map as a flat table

Forget the trie and keep, for every hash, the entries of that hash in order: this is the *table* of
a map. Each operation on a table is a few lines about one row. `Map.Reachable.simulates` says that
the operations on maps are those on tables, whatever the key strategy may be: the trie cannot be
seen from outside.

## No laws

The comparison of keys is not assumed to be symmetric or reflexive, nor to know of hashes. So it
matters that a key is compared with a lone entry in one direction and with several in the other,
and a table has to do the same.
-/

set_option autoImplicit false

namespace RotaryTrie

open Bucket

/-- The entries of a map by hash, and its strategies. -/
structure Table (κ ν K V : Type) where
  /-- The keys and values of every hash, in order. -/
  rows : UInt32 → List (K × V)
  /-- How keys and values are compared. -/
  strategies : Strategies κ ν

namespace Table

variable {κ ν K V : Type} (t : Table κ ν K V)

/-- The table with another row at a hash. -/
def putAt (hash : UInt32) (row : List (K × V)) : Table κ ν K V :=
  ⟨Function.update t.rows hash row, t.strategies⟩

variable [KeyStrategy κ K]

/-- The row of a key. -/
def rowFor (key : K) : List (K × V) := t.rows (KeyStrategy.hash t.strategies.key key)

/-- The place of a key in a row. A lone entry is compared with the key, and of several the first
one that the key compares with is taken. -/
def place (key : K) : List (K × V) → Option ℕ
  | [] => none
  | [entry] => if KeyStrategy.equals t.strategies.key entry.1 key then some 0 else none
  | row => row.findIdx? fun entry ↦ KeyStrategy.equals t.strategies.key key entry.1

/-- The entry that a key belongs to. -/
def find? (key : K) : Option (K × V) :=
  (t.place key (t.rowFor key)).bind fun index ↦ (t.rowFor key)[index]?

/-- The table with another row for a key. -/
def put (key : K) (row : List (K × V)) : Table κ ν K V :=
  t.putAt (KeyStrategy.hash t.strategies.key key) row

/-- Erases the entry that a key belongs to. -/
def erase (key : K) : Table κ ν K V :=
  match t.place key (t.rowFor key) with
  | none => t
  | some index => t.put key ((t.rowFor key).eraseIdx index)

/-- Erases keys one after the other. -/
def eraseAll (keys : List K) : Table κ ν K V :=
  keys.foldl (fun table key ↦ table.erase key) t

variable [ValueStrategy ν V]

/-- Whether the value in a place of a row is equal to the given one. -/
def agrees (row : List (K × V)) (index : ℕ) (value : V) : Bool :=
  row[index]?.any fun stored ↦ ValueStrategy.equals t.strategies.value stored.2 value

/-- Adds a pair. -/
def add (key : K) (value : V) : Except MapError (Table κ ν K V) :=
  match t.place key (t.rowFor key) with
  | none => .ok (t.put key (t.rowFor key ++ [(key, value)]))
  | some index => if t.agrees (t.rowFor key) index value then .ok t else .error .duplicateKey

/-- Sets the value of a key. -/
def set (key : K) (value : V) : Table κ ν K V :=
  match t.place key (t.rowFor key) with
  | none => t.put key (t.rowFor key ++ [(key, value)])
  | some index =>
    if t.agrees (t.rowFor key) index value then t
    else t.put key ((t.rowFor key).set index (key, value))

/-- Adds pairs one after the other, up to the first that cannot be added. -/
def addAll (pairs : List (K × V)) : Except MapError (Table κ ν K V) :=
  pairs.foldlM (fun table pair ↦ table.add pair.1 pair.2) t

/-- Sets pairs one after the other. -/
def setAll (pairs : List (K × V)) : Table κ ν K V :=
  pairs.foldl (fun table pair ↦ table.set pair.1 pair.2) t

end Table

variable {κ ν K V : Type}

/-! ## Rows of a sequence -/

/-- The keys and values of every hash, in the order of a list. -/
def rowsOf (entries : List (Leaf K V)) : UInt32 → List (K × V) :=
  fun hash ↦ (rowOf hash entries).map Leaf.pair

/-- Exchanging some neighbours of one hash changes the row of that hash only. -/
theorem rowsOf_exchange {hash : UInt32} (old new l₁ l₂ : List (Leaf K V))
    (hold : ∀ entry ∈ old, entry.hash = hash) (hnew : ∀ entry ∈ new, entry.hash = hash) :
    rowsOf (l₁ ++ (new ++ l₂))
      = Function.update (rowsOf (l₁ ++ (old ++ l₂))) hash
          ((rowOf hash l₁ ++ (new ++ rowOf hash l₂)).map Leaf.pair) := by
  funext other
  by_cases hother : other = hash
  · rw [hother, Function.update_self, rowsOf, rowOf_append, rowOf_append, rowOf_eq_self hnew]
  · -- neither the old nor the new ones are in another row
    have hne : ∀ {middle : List (Leaf K V)}, (∀ entry ∈ middle, entry.hash = hash) →
        rowOf other middle = [] := by
      intro middle hmiddle
      refine rowOf_eq_nil fun entry hentry ↦ ?_
      rw [hmiddle entry hentry]
      exact Ne.symm hother
    rw [Function.update_of_ne hother, rowsOf, rowsOf, rowOf_append, rowOf_append, rowOf_append,
      rowOf_append, hne hold, hne hnew]

namespace Map

/-- The entries of a map by hash. -/
def table (m : Map κ ν K V) : Table κ ν K V := ⟨rowsOf m.leaves, m.strategies⟩

/-! ## Effects on the table -/

section Effect

variable {m : Map κ ν K V} {r : Insertion K V} {stored : Leaf K V} {before after : List (Leaf K V)}

theorem table_of_leaves_eq {hash : UInt32} (old new : List (Leaf K V)) {l₁ l₂ : List (Leaf K V)}
    {root : Option (Bucket K V)} (hold : ∀ entry ∈ old, entry.hash = hash)
    (hnew : ∀ entry ∈ new, entry.hash = hash) (hleaves : m.leaves = l₁ ++ (old ++ l₂))
    (hroot : ({ m with root } : Map κ ν K V).leaves = l₁ ++ (new ++ l₂)) :
    ({ m with root } : Map κ ν K V).table
      = m.table.putAt hash ((rowOf hash l₁ ++ (new ++ rowOf hash l₂)).map Leaf.pair) := by
  rw [table, hroot, rowsOf_exchange old new l₁ l₂ hold hnew, ← hleaves]
  rfl

theorem Entered.table_eq {grown : Bucket K V} (h : Entered r m.root grown) :
    ({ m with root := some grown } : Map κ ν K V).table
      = m.table.putAt r.entry.hash (m.table.rows r.entry.hash ++ [r.entry.pair]) := by
  obtain ⟨l₁, l₂, hleaves, hgrown, hne⟩ := h.exists_leaves
  have hrow : m.table.rows r.entry.hash = (rowOf r.entry.hash l₁).map Leaf.pair := by
    change (rowOf r.entry.hash m.leaves).map Leaf.pair = _
    rw [hleaves, rowOf_append, rowOf_eq_nil hne, List.append_nil]
  have hroot : ({ m with root := some grown } : Map κ ν K V).leaves = l₁ ++ ([r.entry] ++ l₂) :=
    hgrown
  rw [table_of_leaves_eq [] [r.entry] nofun (List.forall_mem_singleton.mpr rfl) hleaves hroot,
    hrow, rowOf_eq_nil hne, List.append_nil, List.map_append]
  rfl

theorem table_of_replaced {bucket new : Bucket K V} (hbucket : bucket.Sound)
    (hroot : m.root = some bucket) (h : Replaced r stored before after 0 bucket new) :
    ({ m with root := some new } : Map κ ν K V).table
      = m.table.putAt r.entry.hash ((before ++ r.entry :: after).map Leaf.pair) := by
  obtain ⟨hhash, l₁, l₂, hleaves, hnew, rfl, rfl⟩ := h.exists_leaves hbucket
  rw [← leaves_of_root_eq hroot] at hleaves
  exact table_of_leaves_eq [stored] [r.entry] (List.forall_mem_singleton.mpr hhash)
    (List.forall_mem_singleton.mpr rfl) hleaves hnew

theorem Dropped.table_eq {write : ℕ} {rest : Option (Bucket K V)}
    (h : Dropped write stored before after m.root rest)
    (hm : ∀ bucket, m.root = some bucket → bucket.Sound) :
    ({ m with root := rest } : Map κ ν K V).table
      = m.table.putAt stored.hash ((before ++ after).map Leaf.pair) := by
  obtain ⟨l₁, l₂, hleaves, hrest, rfl, rfl⟩ := h.exists_leaves hm
  exact table_of_leaves_eq [stored] [] (List.forall_mem_singleton.mpr rfl) nofun hleaves hrest

end Effect

/-! ## Simulation -/

section Simulation

variable [KeyStrategy κ K] {m : Map κ ν K V}

theorem rowFor_table (m : Map κ ν K V) (key : K) :
    m.table.rowFor key = (m.rowFor key).map Leaf.pair := rfl

/-- The place of a key does not depend on the entries' identities. -/
theorem place_table (m : Map κ ν K V) (key : K) :
    m.table.place key (m.table.rowFor key) = m.place key := by
  rw [rowFor_table, place]
  rcases m.rowFor key with _ | ⟨first, _ | ⟨second, rest⟩⟩
  · rfl
  · rfl
  · rw [Probe.seek_of_two_le _ (by simp)]
    change List.findIdx? _ (List.map Leaf.pair (first :: second :: rest)) = _
    rw [List.findIdx?_map]
    rfl

theorem Sound.find?_table (h : m.Sound) (key : K) :
    m.table.find? key = (m.find? key).map Leaf.pair := by
  rw [h.find?_eq, Table.find?, place_table, rowFor_table, Option.map_bind]
  congr 1
  funext index
  exact List.getElem?_map

theorem Sound.table_erase (h : m.Sound) (write : ℕ) (key : K) :
    (m.erase write key).table = m.table.erase key := by
  obtain ⟨rest, herase, houtcome⟩ := h.exists_eraseRoot write key
  rw [erase, herase, Table.erase, place_table, rowFor_table]
  cases houtcome with
  | missing place_eq => rw [place_eq]
  | @dropped before after stored _ row_eq place_eq dropped =>
    rw [place_eq]
    dsimp only
    rw [dropped.table_eq h.root, (mem_leaves_of_rowFor_eq row_eq).2, row_eq, List.map_append,
      List.map_append, List.map_cons, eraseIdx_append_cons (List.length_map _)]
    rfl

section Insert

variable [ValueStrategy ν V] {key : K} {value : V} {before after : List (Leaf K V)}
  {stored : Leaf K V}

private theorem agrees_eq (h : m.rowFor key = before ++ stored :: after) :
    m.table.agrees (m.table.rowFor key) before.length value
      = ValueStrategy.equals m.strategies.value stored.value value := by
  have hstored : (m.table.rowFor key)[before.length]? = some stored.pair := by
    rw [rowFor_table, h, List.getElem?_map, getElem?_append_cons rfl]
    rfl
  rw [Table.agrees, hstored]
  rfl

theorem Sound.table_add (h : m.Sound) (write : ℕ) (key : K) (value : V) :
    (m.add write key value).map table = m.table.add key value := by
  obtain ⟨result, hinsert, houtcome⟩ := h.exists_insert .reject write key value
  rw [add, hinsert, Table.add, place_table]
  cases houtcome with
  | entered place_eq entered =>
    rw [place_eq]
    exact congrArg Except.ok entered.table_eq
  | kept row_eq place_eq equals_eq =>
    rw [place_eq]
    dsimp only
    rw [agrees_eq row_eq, if_pos equals_eq]
    rfl
  | refused row_eq place_eq equals_eq =>
    rw [place_eq]
    dsimp only
    rw [agrees_eq row_eq, equals_eq]
    rfl

theorem Sound.table_set (h : m.Sound) (write : ℕ) (key : K) (value : V) :
    (m.set write key value).table = m.table.set key value := by
  obtain ⟨result, hinsert, houtcome⟩ := h.exists_insert .overwrite write key value
  rw [set, hinsert, Table.set, place_table]
  cases houtcome with
  | entered place_eq entered =>
    rw [place_eq]
    exact entered.table_eq
  | kept row_eq place_eq equals_eq =>
    rw [place_eq]
    dsimp only
    rw [agrees_eq row_eq, if_pos equals_eq]
  | @replaced before after stored _ _ row_eq place_eq equals_eq root_eq replaced =>
    rw [place_eq]
    dsimp only
    rw [agrees_eq row_eq, equals_eq, if_neg Bool.false_ne_true,
      table_of_replaced (h.root _ root_eq) root_eq replaced, rowFor_table, row_eq,
      List.map_append, List.map_append, List.map_cons, List.map_cons,
      set_append_cons (List.length_map _)]
    rfl

end Insert

end Simulation

/-! ## Membership -/

section Membership

variable [ValueStrategy ν V] {m : Map κ ν K V}

/-- **Membership of a pair.** Whatever the strategies do, a pair is there if the table holds an
entry in the place of the key whose value, compared with the given one, is equal to it. -/
theorem Sound.contains_iff_table [KeyStrategy κ K] (h : m.Sound) (key : K) (value : V) :
    m.contains key value = true ↔ ∃ entry, m.table.find? key = some entry ∧
      ValueStrategy.equals m.table.strategies.value entry.2 value = true := by
  rw [contains_eq_true_iff, h.find?_table]
  exact Iff.rfl

/-- **Membership of a value.** A value is there if some row of the table holds a value which,
compared with the given one, is equal to it. -/
theorem containsValue_iff_table (m : Map κ ν K V) (value : V) :
    m.containsValue value = true ↔ ∃ hash, ∃ entry ∈ m.table.rows hash,
      ValueStrategy.equals m.table.strategies.value entry.2 value = true := by
  rw [containsValue_eq_true_iff]
  constructor
  · rintro ⟨_, hentry, hequals⟩
    obtain ⟨stored, hstored, rfl⟩ := List.mem_map.mp hentry
    exact ⟨stored.hash, _, List.mem_map_of_mem (mem_rowOf.mpr ⟨hstored, rfl⟩), hequals⟩
  · rintro ⟨hash, _, hentry, hequals⟩
    obtain ⟨stored, hstored, rfl⟩ := List.mem_map.mp hentry
    exact ⟨_, List.mem_map_of_mem (mem_rowOf.mp hstored).1, hequals⟩

end Membership

/-! ## Many entries -/

section Bulk

variable [KeyStrategy κ K] {m : Map κ ν K V}

theorem Written.table_eraseAll [ValueStrategy ν V] (h : m.Written) (write : ℕ) (keys : List K) :
    (m.eraseAll write keys).table = m.table.eraseAll keys := by
  induction keys generalizing m write with
  | nil => rfl
  | cons key keys ih =>
    rw [h.sound.eraseAll_cons, ih (h.erase write key), h.sound.table_erase]
    rfl

variable [ValueStrategy ν V]

theorem Written.table_addAll (h : m.Written) (write : ℕ) (pairs : List (K × V)) :
    (m.addAll write pairs).map table = m.table.addAll pairs := by
  induction pairs generalizing m write with
  | nil => rfl
  | cons pair pairs ih =>
    have hadd := h.sound.table_add write pair.1 pair.2
    rw [Map.addAll, Table.addAll, List.foldlM_cons, ← hadd]
    cases hmade : m.add write pair.1 pair.2 with
    | error error => rfl
    | ok made => exact ih (h.add hmade) (write + 1)

theorem Written.table_setAll (h : m.Written) (write : ℕ) (pairs : List (K × V)) :
    (m.setAll write pairs).table = m.table.setAll pairs := by
  induction pairs generalizing m write with
  | nil => rfl
  | cons pair pairs ih =>
    rw [Map.setAll, ih (h.set write pair.1 pair.2), h.sound.table_set]
    rfl

variable [DecidableEq κ]

/-- **Transparency.** Whatever the strategies do, the queries on a reachable map answer what its
table holds in the place of the key, and the writes change the table as they would change a flat
one: in the row of the key, at the place of the key or at the end. -/
theorem Reachable.simulates (h : m.Reachable) (write : ℕ) :
    (∀ key, m.Answers key (m.table.find? key)) ∧
    (∀ key value, (m.add write key value).map table = m.table.add key value ∧
      (m.set write key value).table = m.table.set key value ∧
      (m.erase write key).table = m.table.erase key) ∧
    (∀ pairs, (m.addAll write pairs).map table = m.table.addAll pairs ∧
      (m.setAll write pairs).table = m.table.setAll pairs) ∧
    ∀ keys, (m.eraseAll write keys).table = m.table.eraseAll keys := by
  have hsound := h.sound
  refine ⟨fun key ↦ ?_, fun key value ↦ ⟨hsound.table_add write key value,
    hsound.table_set write key value, hsound.table_erase write key⟩, fun pairs ↦
    ⟨h.written.table_addAll write pairs, h.written.table_setAll write pairs⟩,
    h.written.table_eraseAll write⟩
  rw [hsound.find?_table]
  exact m.answers_found key

end Bulk

/-- The strategy of keys that have the hash of their tens and are compared by order. -/
structure OrderedTens where
deriving DecidableEq

instance : KeyStrategy OrderedTens UInt32 where
  canonical := ⟨⟩
  hash _ key := key / 10
  equals _ first second := first ≤ second

/-- Two lone entries and a chain under two nodes, with keys and values compared by order. -/
def orderedWords : Map OrderedTens (Named IntegerRule) UInt32 Int32 :=
  (emptyUnder ⟨⟨⟩, ⟨.le, none⟩⟩).setAll 0 [(53, 30), (51, 10), (57, 70), (35, 3), (374, 4)]

theorem simulates_orderedWords :
    orderedWords.root.map Bucket.layout = some (.trie 0 40 5 [.leaf ⟨3, 35, 3⟩, .trie 5 3 4
      [.chain 5 [⟨5, 53, 30⟩, ⟨5, 51, 10⟩, ⟨5, 57, 70⟩], .leaf ⟨37, 374, 4⟩]]) ∧
      orderedWords.getEntry? 37 = some (35, 3) ∧ orderedWords.getEntry? 34 = none ∧
      orderedWords.getEntry? 52 = some (53, 30) ∧ orderedWords.getEntry? 58 = none ∧
      orderedWords.item 90 = .error .keyNotFound ∧
      (orderedWords.add 5 36 2).map table = .error .duplicateKey ∧
      (orderedWords.set 5 56 60).table.rows 5 = [(53, 30), (51, 10), (56, 60)] ∧
      (orderedWords.setAll 5 [(34, 8), (90, 1), (91, 0)]).table.rows 9 = [(91, 0)] ∧
      (orderedWords.eraseAll 5 [58, 52, 50, 58]).table.rows 5 = [] := by
  have h : orderedWords.Reachable := .setAll (.emptyUnder _) 0 _
  obtain ⟨hqueries, hwrites, hlists, herasures⟩ := h.simulates 5
  refine ⟨rfl, (hqueries 37).getEntry?_eq.trans (by decide),
    (hqueries 34).getEntry?_eq.trans (by decide), (hqueries 52).getEntry?_eq.trans (by decide),
    (hqueries 58).getEntry?_eq.trans (by decide), (hqueries 90).item_eq.trans (by decide),
    (hwrites 36 2).1.trans rfl, ?_, ?_, ?_⟩
  · rw [(hwrites 56 60).2.1]
    decide
  · rw [(hlists [(34, 8), (90, 1), (91, 0)]).2]
    decide
  · rw [herasures]
    decide

end Map

end RotaryTrie
