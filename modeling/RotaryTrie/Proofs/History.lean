import RotaryTrie.Proofs.Outcome
import RotaryTrie.Workspace

/-!
# Histories

`Map.Reachable` says which maps there are: those that finitely many operations of the library make
out of nothing, any number of maps being around at the same time. The maps of a workspace are of
this kind, whatever commands it has carried out.

## Fewer rules

All operations are made of four: the empty map, an insertion that changes the trie, an erasure, and
another comparison of values over the same trie. `Map.Written` has these as its rules, and an
invariant of maps is proved by induction on it. The first one is soundness, from which it follows
that the operations never meet a fault.
-/

set_option autoImplicit false

namespace RotaryTrie

variable {κ ν K V : Type} [KeyStrategy κ K] [ValueStrategy ν V]

namespace Map

/-- The maps that finitely many operations of the library make. -/
inductive Reachable [DecidableEq κ] : Map κ ν K V → Prop where
  /-- `Map.emptyUnder`. -/
  | emptyUnder (strategies : Strategies κ ν) : Reachable (emptyUnder strategies)
  /-- `Map.empty`. -/
  | empty : Reachable empty
  /-- `Map.ofList`. -/
  | ofList (write : ℕ) (pairs : List (K × V)) : Reachable (ofList write pairs)
  /-- `Map.add`, where it does not fail. -/
  | add {m made : Map κ ν K V} {write : ℕ} {key : K} {value : V} (h : Reachable m)
      (made_eq : m.add write key value = .ok made) : Reachable made
  /-- `Map.set`. -/
  | set {m : Map κ ν K V} (h : Reachable m) (write : ℕ) (key : K) (value : V) :
      Reachable (m.set write key value)
  /-- `Map.erase`. -/
  | erase {m : Map κ ν K V} (h : Reachable m) (write : ℕ) (key : K) : Reachable (m.erase write key)
  /-- `Map.addAll`, where it does not fail. -/
  | addAll {m made : Map κ ν K V} {write : ℕ} {pairs : List (K × V)} (h : Reachable m)
      (made_eq : m.addAll write pairs = .ok made) : Reachable made
  /-- `Map.setAll`. -/
  | setAll {m : Map κ ν K V} (h : Reachable m) (write : ℕ) (pairs : List (K × V)) :
      Reachable (m.setAll write pairs)
  /-- `Map.eraseAll`. -/
  | eraseAll {m : Map κ ν K V} (h : Reachable m) (write : ℕ) (keys : List K) :
      Reachable (m.eraseAll write keys)
  /-- `Map.clear`. -/
  | clear {m : Map κ ν K V} (h : Reachable m) : Reachable m.clear
  /-- `Map.withStrategies`. -/
  | withStrategies {m : Map κ ν K V} (h : Reachable m) (write : ℕ) (strategies : Strategies κ ν) :
      Reachable (m.withStrategies write strategies)
  /-- `Map.withKeyStrategy`. -/
  | withKeyStrategy {m : Map κ ν K V} (h : Reachable m) (write : ℕ) (key : κ) :
      Reachable (m.withKeyStrategy write key)
  /-- `Map.addFrom`, where it does not fail. -/
  | addFrom {m other made : Map κ ν K V} {write : ℕ} (h : Reachable m) (hother : Reachable other)
      (made_eq : m.addFrom write other = .ok made) : Reachable made
  /-- `Map.setFrom`. -/
  | setFrom {m other : Map κ ν K V} (h : Reachable m) (hother : Reachable other) (write : ℕ) :
      Reachable (m.setFrom write other)

/-- The maps that come about by single writes and by exchanging the value strategy. -/
inductive Written : Map κ ν K V → Prop where
  /-- Nothing is written yet. -/
  | emptyUnder (strategies : Strategies κ ν) : Written (emptyUnder strategies)
  /-- An insertion that changes the trie. -/
  | insertion {m : Map κ ν K V} {policy : Policy} {write : ℕ} {key : K} {value : V}
      {root : Bucket K V} (h : Written m)
      (insert_eq : m.insert policy write key value = .ok (.changed root)) :
      Written { m with root := some root }
  /-- An erasure. -/
  | erasure {m : Map κ ν K V} {write : ℕ} {key : K} {rest : Option (Bucket K V)} (h : Written m)
      (erase_eq : m.eraseRoot write key m.root = .ok rest) : Written { m with root := rest }
  /-- Other strategies that hash and compare keys as before. -/
  | revalue {m : Map κ ν K V} {strategies : Strategies κ ν} (h : Written m)
      (key_eq : m.strategies.key = strategies.key) : Written { m with strategies }

/-! ## Operations as writes -/

namespace Written

variable {m made other : Map κ ν K V}

theorem set (h : m.Written) (write : ℕ) (key : K) (value : V) :
    (m.set write key value).Written := by
  rw [Map.set]
  split
  · exact .insertion h ‹_›
  · exact h
  · exact h
  · exact h

theorem add {write : ℕ} {key : K} {value : V} (h : m.Written)
    (made_eq : m.add write key value = .ok made) : made.Written := by
  rw [Map.add] at made_eq
  split at made_eq
  · rw [← Except.ok.inj made_eq]
    exact .insertion h ‹_›
  · exact absurd made_eq nofun
  · rwa [← Except.ok.inj made_eq]
  · rwa [← Except.ok.inj made_eq]

theorem erase (h : m.Written) (write : ℕ) (key : K) : (m.erase write key).Written := by
  rw [Map.erase]
  split
  · exact .erasure h ‹_›
  · exact h

theorem setAll (h : m.Written) (write : ℕ) (pairs : List (K × V)) :
    (m.setAll write pairs).Written := by
  induction pairs generalizing m write with
  | nil => exact h
  | cons pair pairs ih => exact ih (h.set write pair.1 pair.2) (write + 1)

theorem addAll {write : ℕ} {pairs : List (K × V)} (h : m.Written)
    (made_eq : m.addAll write pairs = .ok made) : made.Written := by
  induction pairs generalizing m write with
  | nil => rwa [← Except.ok.inj made_eq]
  | cons pair pairs ih =>
    rw [Map.addAll] at made_eq
    split at made_eq
    · exact absurd made_eq nofun
    · exact ih (h.add ‹_›) made_eq

theorem eraseRoots {write : ℕ} {keys : List K} {root rest : Option (Bucket K V)}
    (h : ({ m with root } : Map κ ν K V).Written)
    (erase_eq : m.eraseRoots write keys root = .ok rest) :
    ({ m with root := rest } : Map κ ν K V).Written := by
  -- the trie that is left so far goes along, and only the strategies of the map stay
  induction keys generalizing write root with
  | nil => rwa [← Except.ok.inj erase_eq]
  | cons key keys ih =>
    cases root with
    | none => rwa [← Except.ok.inj erase_eq]
    | some bucket =>
      rw [Map.eraseRoots] at erase_eq
      split at erase_eq
      · cases erase_eq
      · rename_i left hleft
        exact ih (.erasure (m := { m with root := some bucket }) h hleft) erase_eq

theorem eraseAll (h : m.Written) (write : ℕ) (keys : List K) :
    (m.eraseAll write keys).Written := by
  rw [Map.eraseAll]
  split
  · exact Written.eraseRoots h ‹_›
  · exact h

variable [DecidableEq κ]

theorem withStrategies (h : m.Written) (write : ℕ) (strategies : Strategies κ ν) :
    (m.withStrategies write strategies).Written := by
  rw [Map.withStrategies]
  split
  · exact .revalue h ‹_›
  · exact (Written.emptyUnder strategies).setAll write m.pairs

theorem addFrom {write : ℕ} (h : m.Written) (hother : other.Written)
    (made_eq : m.addFrom write other = .ok made) : made.Written := by
  rw [Map.addFrom] at made_eq
  split at made_eq
  · rw [← Except.ok.inj made_eq]
    exact hother.withStrategies write m.strategies
  · exact h.addAll made_eq

theorem setFrom (h : m.Written) (hother : other.Written) (write : ℕ) :
    (m.setFrom write other).Written := by
  rw [Map.setFrom]
  split
  · exact hother.withStrategies write m.strategies
  · exact h.setAll write other.pairs

end Written

/-- Every reachable map comes about by single writes. -/
theorem Reachable.written [DecidableEq κ] {m : Map κ ν K V} (h : m.Reachable) : m.Written := by
  induction h with
  | emptyUnder strategies => exact .emptyUnder strategies
  | empty => exact .emptyUnder .canonical
  | ofList write pairs => exact (Written.emptyUnder .canonical).setAll write pairs
  | add _ made_eq ih => exact ih.add made_eq
  | set _ write key value ih => exact ih.set write key value
  | erase _ write key ih => exact ih.erase write key
  | addAll _ made_eq ih => exact ih.addAll made_eq
  | setAll _ write pairs ih => exact ih.setAll write pairs
  | eraseAll _ write keys ih => exact ih.eraseAll write keys
  | @clear m => exact .emptyUnder m.strategies
  | withStrategies _ write strategies ih => exact ih.withStrategies write strategies
  | withKeyStrategy _ write key ih => exact ih.withStrategies write _
  | addFrom _ _ made_eq ih hother => exact ih.addFrom hother made_eq
  | setFrom _ _ write ih hother => exact ih.setFrom hother write

/-! ## Soundness -/

/-- Whatever is written to a map, it is sound. -/
theorem Written.sound {m : Map κ ν K V} (h : m.Written) : m.Sound := by
  induction h with
  | emptyUnder => exact ⟨nofun, nofun⟩
  | insertion _ insert_eq ih => exact (ih.insertOutcome insert_eq).sound ih
  | erasure _ erase_eq ih => exact (ih.eraseOutcome erase_eq).sound ih
  | revalue _ key_eq ih =>
    refine ⟨ih.root, fun entry hentry ↦ ?_⟩
    rw [← key_eq]
    exact ih.hash_eq entry hentry

theorem Reachable.sound [DecidableEq κ] {m : Map κ ν K V} (h : m.Reachable) : m.Sound :=
  h.written.sound

end Map

/-! ## Workspaces -/

namespace Workspace

variable [DecidableEq κ]

/-- The workspaces that finitely many commands make of an opening one. -/
inductive Reached : Workspace κ ν K V → Prop where
  /-- Nothing has been done yet. -/
  | opening (name : String) (strategies : Strategies κ ν) : Reached (opening name strategies)
  /-- A command that does not fail. -/
  | perform {w next : Workspace κ ν K V} {target : String} {command : Command κ ν K V}
      (h : Reached w) (perform_eq : w.perform target command = .ok next) : Reached next

variable {w next : Workspace κ ν K V} {m made : Map κ ν K V}

theorem exists_of_bind_eq_ok {ε α β : Type} {result : Except ε α} {f : α → Except ε β}
    {b : β} (h : (result >>= f) = .ok b) : ∃ a, result = .ok a ∧ f a = .ok b := by
  cases result with
  | error _ => exact absurd h nofun
  | ok a => exact ⟨a, rfl, h⟩

theorem eq_ok_of_mapError {ε ε' α : Type} {result : Except ε α} {f : ε → ε'} {a : α}
    (h : result.mapError f = .ok a) : result = .ok a := by
  cases result with
  | error _ => exact absurd h nofun
  | ok _ => rw [Except.ok.inj h]

omit [KeyStrategy κ K] [ValueStrategy ν V] [DecidableEq κ] in
theorem exists_mem_of_lookup {name : String} (h : w.lookup name = .ok m) :
    ∃ entry ∈ w.maps, entry.2 = m := by
  rw [lookup] at h
  split at h
  · rename_i found hfound
    obtain ⟨before, after, hmaps, -⟩ := List.lookup_eq_some_iff.mp hfound
    refine ⟨(name, found), ?_, Except.ok.inj h⟩
    rw [hmaps]
    exact List.mem_append_right _ List.mem_cons_self
  · exact absurd h nofun

private theorem ok_pair_inj {ε α β : Type} {a b : α} {c d : β}
    (h : (Except.ok (a, c) : Except ε (α × β)) = .ok (b, d)) : a = b :=
  (Prod.mk.inj (Except.ok.inj h)).1

/-- A change makes a reachable map of a reachable one if the maps it may look up are reachable. -/
theorem reachable_of_changed {change : Change κ ν K V} {writes : ℕ}
    (hmaps : ∀ entry ∈ w.maps, entry.2.Reachable) (hm : m.Reachable)
    (h : w.changed m change = .ok (made, writes)) : made.Reachable := by
  have hlookup : ∀ {name other}, w.lookup name = .ok other → other.Reachable := by
    intro name other hother
    obtain ⟨entry, hentry, rfl⟩ := exists_mem_of_lookup hother
    exact hmaps entry hentry
  cases change with
  | add key value =>
    obtain ⟨grown, hgrown, hmade⟩ := exists_of_bind_eq_ok h
    rw [← ok_pair_inj hmade]
    exact .add hm (eq_ok_of_mapError hgrown)
  | set key value =>
    rw [← ok_pair_inj h]
    exact .set hm w.clock key value
  | erase key =>
    rw [← ok_pair_inj h]
    exact .erase hm w.clock key
  | addAll pairs =>
    obtain ⟨grown, hgrown, hmade⟩ := exists_of_bind_eq_ok h
    rw [← ok_pair_inj hmade]
    exact .addAll hm (eq_ok_of_mapError hgrown)
  | setAll pairs =>
    rw [← ok_pair_inj h]
    exact .setAll hm w.clock pairs
  | eraseAll keys =>
    rw [← ok_pair_inj h]
    exact .eraseAll hm w.clock keys
  | addFrom name =>
    obtain ⟨other, hother, h⟩ := exists_of_bind_eq_ok h
    obtain ⟨grown, hgrown, hmade⟩ := exists_of_bind_eq_ok h
    rw [← ok_pair_inj hmade]
    exact .addFrom hm (hlookup hother) (eq_ok_of_mapError hgrown)
  | setFrom name =>
    obtain ⟨other, hother, hmade⟩ := exists_of_bind_eq_ok h
    rw [← ok_pair_inj hmade]
    exact .setFrom hm (hlookup hother) w.clock
  | clear =>
    rw [← ok_pair_inj h]
    exact .clear hm
  | copy => rwa [← ok_pair_inj h]
  | withKeyStrategy key =>
    rw [← ok_pair_inj h]
    exact .withKeyStrategy hm w.clock key
  | withStrategies key? value? =>
    rw [← ok_pair_inj h]
    exact .withStrategies hm w.clock _

theorem reachable_of_made {command : Command κ ν K V} {writes : ℕ}
    (hmaps : ∀ entry ∈ w.maps, entry.2.Reachable) (h : w.made command = .ok (made, writes)) :
    made.Reachable := by
  cases command with
  | create strategies =>
    rw [← ok_pair_inj h]
    exact .emptyUnder strategies
  | ofList pairs =>
    rw [← ok_pair_inj h]
    exact .ofList w.clock pairs
  | change source change =>
    obtain ⟨m, hm, hmade⟩ := exists_of_bind_eq_ok h
    obtain ⟨entry, hentry, rfl⟩ := exists_mem_of_lookup hm
    exact reachable_of_changed hmaps (hmaps entry hentry) hmade

/-- A command keeps all maps of a workspace reachable. -/
theorem forall_reachable_of_perform {target : String} {command : Command κ ν K V}
    (hmaps : ∀ entry ∈ w.maps, entry.2.Reachable) (h : w.perform target command = .ok next) :
    ∀ entry ∈ next.maps, entry.2.Reachable := by
  obtain ⟨⟨made, writes⟩, hmade, hnext⟩ := exists_of_bind_eq_ok h
  rw [← Except.ok.inj hnext, store, List.forall_mem_cons]
  exact ⟨reachable_of_made hmaps hmade,
    fun entry hentry ↦ hmaps entry (List.mem_of_mem_filter hentry)⟩

/-- All maps of a workspace that commands lead to are reachable. -/
theorem Reached.forall_reachable (h : w.Reached) : ∀ entry ∈ w.maps, entry.2.Reachable := by
  induction h with
  | opening name strategies =>
    intro entry hentry
    rw [List.mem_singleton.mp hentry]
    exact .emptyUnder strategies
  | perform _ perform_eq ih => exact forall_reachable_of_perform ih perform_eq

end Workspace

end RotaryTrie
