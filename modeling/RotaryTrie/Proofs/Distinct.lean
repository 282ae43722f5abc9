import Mathlib.Data.List.Count
import RotaryTrie.Proofs.Lawful
import RotaryTrie.Proofs.Table

/-!
# Pairs with distinct keys

Pairs whose keys are pairwise different do not meet when they are written into an empty table: each
one goes to the end of the row of its hash, whether it is added or set, and none is refused. What
they come to is the list itself, sorted into rows by `Table.ofPairs`.

The table of a sound map is its own enumeration sorted into rows. The rows of all hashes hold every
pair once, so two maps with the same table have the same pairs, in orders that differ only between
hashes.
-/

set_option autoImplicit false

namespace RotaryTrie

variable {κ ν K V : Type} [KeyStrategy κ K]

/-- No two pairs have the same key. -/
def DistinctKeys (s : κ) (pairs : List (K × V)) : Prop :=
  pairs.Pairwise fun a b ↦ ¬ SameKey s a.1 b.1

namespace Table

/-- The table of pairs that are taken to the rows of their hashes one after the other, whatever
their keys are. -/
def ofPairs (strategies : Strategies κ ν) (pairs : List (K × V)) : Table κ ν K V where
  rows hash := pairs.filter fun pair ↦ KeyStrategy.hash strategies.key pair.1 == hash
  strategies := strategies

variable {strategies : Strategies κ ν} {pairs before : List (K × V)} {key : K}

theorem mem_rowFor_ofPairs {entry : K × V} :
    entry ∈ (ofPairs strategies pairs).rowFor key ↔ entry ∈ pairs ∧
      KeyStrategy.hash strategies.key entry.1 = KeyStrategy.hash strategies.key key := by
  rw [rowFor, ofPairs, List.mem_filter, beq_iff_eq]

theorem ofPairs_concat (strategies : Strategies κ ν) (pairs : List (K × V)) (pair : K × V) :
    ofPairs strategies (pairs ++ [pair])
      = (ofPairs strategies pairs).put pair.1
          ((ofPairs strategies pairs).rowFor pair.1 ++ [pair]) := by
  rw [put, putAt, ofPairs]
  congr 1
  funext hash
  rw [List.filter_append]
  by_cases hhash : hash = KeyStrategy.hash strategies.key pair.1
  · subst hhash
    rw [ofPairs, Function.update_self, List.filter_singleton, beq_self_eq_true]
    rfl
  · rw [ofPairs, Function.update_of_ne hhash, List.filter_singleton,
      beq_false_of_ne (Ne.symm hhash)]
    exact List.append_nil _

/-- A key that compares with no entry of a row, in either direction, has no place there. -/
theorem place_eq_none (t : Table κ ν K V) {row : List (K × V)}
    (h : ∀ entry ∈ row, KeyStrategy.equals t.strategies.key entry.1 key = false ∧
      KeyStrategy.equals t.strategies.key key entry.1 = false) : t.place key row = none := by
  match row with
  | [] => rfl
  | [entry] =>
    rw [place, (h entry List.mem_cons_self).1]
    rfl
  | first :: second :: rest =>
    refine List.findIdx?_eq_none_iff.mpr fun entry hentry ↦ ?_
    rw [(h entry hentry).2]

variable (hlawful : LawfulKeys strategies.key)
include hlawful

theorem place_ofPairs_eq_none
    (h : ∀ entry ∈ pairs, ¬ SameKey strategies.key entry.1 key) :
    (ofPairs strategies pairs).place key ((ofPairs strategies pairs).rowFor key) = none := by
  refine place_eq_none _ fun entry hentry ↦ ?_
  obtain ⟨hmem, hhash⟩ := mem_rowFor_ofPairs.mp hentry
  constructor
  · rw [← Bool.not_eq_true]
    exact fun hequals ↦ h entry hmem ⟨hhash, hequals⟩
  · rw [← Bool.not_eq_true]
    exact fun hequals ↦ h entry hmem (hlawful.sameKey_symm ⟨hhash.symm, hequals⟩)

theorem place_ofPairs_of_distinctKeys {pair : K × V}
    (h : DistinctKeys strategies.key (before ++ pair :: pairs)) :
    (ofPairs strategies before).place pair.1 ((ofPairs strategies before).rowFor pair.1) = none :=
  place_ofPairs_eq_none hlawful fun entry hentry ↦
    (List.pairwise_append.mp h).2.2 entry hentry pair List.mem_cons_self

variable [ValueStrategy ν V]

/-- Setting pairs with distinct keys sorts them into rows. -/
theorem setAll_ofPairs (h : DistinctKeys strategies.key (before ++ pairs)) :
    (ofPairs strategies before).setAll pairs = ofPairs strategies (before ++ pairs) := by
  induction pairs generalizing before with
  | nil => rw [List.append_nil, setAll, List.foldl_nil]
  | cons pair pairs ih =>
    have hplace := place_ofPairs_of_distinctKeys hlawful h
    rw [List.append_cons] at h ⊢
    rw [← ih h, ofPairs_concat, setAll, List.foldl_cons, set, hplace]
    rfl

theorem addAll_ofPairs (h : DistinctKeys strategies.key (before ++ pairs)) :
    (ofPairs strategies before).addAll pairs = .ok (ofPairs strategies (before ++ pairs)) := by
  induction pairs generalizing before with
  | nil =>
    rw [List.append_nil]
    rfl
  | cons pair pairs ih =>
    have hplace := place_ofPairs_of_distinctKeys hlawful h
    rw [List.append_cons] at h ⊢
    rw [← ih h, ofPairs_concat, addAll, List.foldlM_cons, add, hplace]
    rfl

end Table

namespace Map

variable {m other : Map κ ν K V}

theorem Regular.distinctKeys (h : m.Regular) : DistinctKeys m.strategies.key m.pairs := by
  rw [DistinctKeys, pairs, List.pairwise_map]
  exact h.distinct

/-- The table of a sound map is its enumeration, sorted into rows. -/
theorem Sound.table_eq_ofPairs (h : m.Sound) :
    m.table = Table.ofPairs m.strategies m.pairs := by
  rw [table, Table.ofPairs]
  congr 1
  funext hash
  rw [rowsOf, rowOf, pairs, List.filter_map]
  refine congrArg (List.map Leaf.pair) (List.filter_congr fun entry hentry ↦ ?_)
  rw [h.hash_eq entry hentry]
  rfl

private theorem perm_of_filter_eq {α β : Type} [BEq β] [LawfulBEq β] (f : α → β) {l₁ l₂ : List α}
    (h : ∀ b, (l₁.filter fun a ↦ f a == b) = l₂.filter fun a ↦ f a == b) : l₁.Perm l₂ := by
  classical
  refine List.perm_iff_count.mpr fun a ↦ ?_
  -- all occurrences of an item are in the part that belongs to its value
  have hcount : ∀ l : List α, (l.filter fun other ↦ f other == f a).count a = l.count a :=
    fun l ↦ List.count_filter (beq_self_eq_true (f a))
  rw [← hcount l₁, h (f a), hcount l₂]

theorem Sound.perm_of_table_eq_ofPairs (h : m.Sound) {pairs : List (K × V)}
    (htable : m.table = Table.ofPairs m.strategies pairs) : m.pairs.Perm pairs := by
  rw [h.table_eq_ofPairs] at htable
  refine perm_of_filter_eq (fun pair ↦ KeyStrategy.hash m.strategies.key pair.1) fun hash ↦ ?_
  exact congrFun (congrArg Table.rows htable) hash

theorem Sound.perm_of_table_eq (h : m.Sound) (hother : other.Sound)
    (htable : m.table = other.table) : m.pairs.Perm other.pairs := by
  have hstrategies : m.strategies = other.strategies := congrArg Table.strategies htable
  refine h.perm_of_table_eq_ofPairs ?_
  rw [htable, hother.table_eq_ofPairs, hstrategies]

end Map

end RotaryTrie
