import RotaryTrie.Proofs.Effects

/-!
# Stamps and the clock

Nodes are compared by their stamps, which works as long as no number is used for two writes. What
this means for a single trie is that it is *dated* by the clock: all of its nodes and entries were
built by earlier writes, and stamps go back on the way down. A write whose number is new keeps
its trie dated, by the clock after it, and whatever it builds is told from what was there before.

## Collapsing nodes

A trie node that gives way to its last child is not built by the write, so that its stamp is old
does not tell it from the node that it replaces. This is what the second half of being dated is for.
A child was built by an earlier write than its parent, or by the same write at a greater depth. As
this is an order, it also tells a node from all that is further down, which may come up to its
place by several writes.

The same is needed one level up. There a node is built over what is left of the child, and if that
was built by the same write, then one level further down. A bucket is *renewed* if it is dated,
differs from what it was, and comes before the nodes that the write may build above it.
-/

set_option autoImplicit false

namespace RotaryTrie

open Bitmap

variable {K V : Type}

/-! ## Stamps -/

/-- A stamp comes before another one if its write does, or if the same write gave it further
down. -/
def Stamp.Before (a b : Stamp) : Prop := a.write < b.write ∨ a.write = b.write ∧ b.depth < a.depth

namespace Stamp.Before

variable {a b c : Stamp}

theorem irrefl (a : Stamp) : ¬ a.Before a := by
  rintro (h | ⟨-, h⟩)
  · exact lt_irrefl _ h
  · exact lt_irrefl _ h

theorem trans (hab : a.Before b) (hbc : b.Before c) : a.Before c := by
  rw [Before] at *
  omega

end Stamp.Before

namespace Bucket

/-- The stamp of the top node. -/
def stamp : Bucket K V → Stamp
  | .leaf entry => entry.stamp
  | .chain stamp _ _ => stamp
  | .trie stamp _ _ _ _ => stamp

/-- The stamp of a trie node. -/
def trieStamp? : Bucket K V → Option Stamp
  | .trie stamp _ _ _ _ => some stamp
  | _ => none

theorem sameNode_refl (bucket : Bucket K V) : bucket.sameNode bucket = true := by
  cases bucket with
  | leaf => exact beq_self_eq_true _
  | chain => exact beq_self_eq_true _
  | trie => exact beq_self_eq_true _

theorem stamp_eq_of_sameNode {a b : Bucket K V} (h : a.sameNode b = true) : a.stamp = b.stamp := by
  cases a <;> cases b <;> first | exact beq_iff_eq.mp h | cases h

theorem trieStamp?_eq_of_sameNode {a b : Bucket K V} (h : a.sameNode b = true) :
    a.trieStamp? = b.trieStamp? := by
  cases a <;> cases b <;> first | rfl | exact congrArg some (beq_iff_eq.mp h) | cases h

theorem stamp_eq_of_trieStamp? {bucket : Bucket K V} {stamp : Stamp}
    (h : bucket.trieStamp? = some stamp) : bucket.stamp = stamp := by
  cases bucket with
  | leaf => cases h
  | chain => cases h
  | trie => exact Option.some_inj.mp h

/-- If the top node is a trie node, it was built before the given stamp. -/
def Precedes (bucket : Bucket K V) (stamp : Stamp) : Prop :=
  ∀ top, bucket.trieStamp? = some top → top.Before stamp

theorem Precedes.trieStamp?_ne {bucket : Bucket K V} {stamp : Stamp} (h : bucket.Precedes stamp) :
    bucket.trieStamp? ≠ some stamp := fun heq ↦ Stamp.Before.irrefl stamp (h stamp heq)

/-! ## Dated buckets -/

/-- All that is in a bucket was built before the write of the given number, and every child before
its parent. -/
inductive Dated (clock : ℕ) : Bucket K V → Prop where
  /-- An entry. -/
  | leaf {entry : Leaf K V} (lt : entry.stamp.write < clock) : Dated clock (.leaf entry)
  /-- A chain and its entries. -/
  | chain {stamp : Stamp} {hash : UInt32} {entries : List (Leaf K V)} (lt : stamp.write < clock)
      (entries_lt : ∀ entry ∈ entries, entry.stamp.write < clock) :
      Dated clock (.chain stamp hash entries)
  /-- A trie node and what is below it. -/
  | trie {stamp : Stamp} {rotation occupancy : UInt32} {count : ℕ} {children : List (Bucket K V)}
      (lt : stamp.write < clock) (dated : ∀ child ∈ children, child.Dated clock)
      (precedes : ∀ child ∈ children, child.Precedes stamp) :
      Dated clock (.trie stamp rotation occupancy count children)

namespace Dated

variable {clock later : ℕ} {bucket : Bucket K V}

theorem stamp_lt (h : bucket.Dated clock) : bucket.stamp.write < clock := by
  cases h with
  | leaf lt => exact lt
  | chain lt => exact lt
  | trie lt => exact lt

/-- What is dated stays so when time goes on. -/
theorem mono (h : bucket.Dated clock) (hle : clock ≤ later) : bucket.Dated later := by
  induction h with
  | leaf lt => exact .leaf (lt.trans_le hle)
  | chain lt entries_lt =>
    exact .chain (lt.trans_le hle) fun entry hentry ↦ (entries_lt entry hentry).trans_le hle
  | trie lt _ precedes ih => exact .trie (lt.trans_le hle) ih precedes

/-- A dated bucket was built before the nodes of a write that is still to come. -/
theorem precedes (h : bucket.Dated clock) (depth : ℕ) : bucket.Precedes ⟨clock, depth⟩ := by
  intro top heq
  rw [← stamp_eq_of_trieStamp? heq]
  exact .inl h.stamp_lt

end Dated

/-! ## What a write builds -/

/-- What a write of the given number makes of a bucket that has `depth` trie nodes above it. -/
structure Renewed (write depth : ℕ) (bucket made : Bucket K V) : Prop where
  /-- It is dated by the clock after the write. -/
  dated : made.Dated (write + 1)
  /-- It is another node. -/
  sameNode_eq : made.sameNode bucket = false
  /-- It comes before the nodes that the write may build above. -/
  precedes : ∀ above < depth, made.Precedes ⟨write, above⟩

section Built

variable {write depth : ℕ} {bucket made : Bucket K V} {rotation occupancy : UInt32} {count : ℕ}
  {children : List (Bucket K V)}

/-- A node that the write builds is a new one. -/
theorem Renewed.of_built (hbucket : bucket.Dated write) (dated : made.Dated (write + 1))
    (write_eq : made.stamp.write = write)
    (depth_eq : ∀ stamp, made.trieStamp? = some stamp → stamp.depth = depth) :
    Renewed write depth bucket made := by
  refine ⟨dated, ?_, fun above habove top heq ↦ .inr ⟨?_, ?_⟩⟩
  · rw [← Bool.not_eq_true]
    intro hsame
    have hlt := hbucket.stamp_lt
    rw [← stamp_eq_of_sameNode hsame, write_eq] at hlt
    exact lt_irrefl _ hlt
  · rw [← stamp_eq_of_trieStamp? heq, write_eq]
  · rwa [depth_eq top heq]

/-- A trie node that the write builds, over children that it found or renewed. -/
theorem Renewed.of_trie (hbucket : bucket.Dated write)
    (hchildren : ∀ child ∈ children, child.Dated (write + 1) ∧ child.Precedes ⟨write, depth⟩) :
    Renewed write depth bucket (.trie ⟨write, depth⟩ rotation occupancy count children) := by
  refine .of_built hbucket ?_ rfl fun stamp heq ↦ ?_
  · exact .trie (Nat.lt_succ_self write) (fun child hchild ↦ (hchildren child hchild).1)
      fun child hchild ↦ (hchildren child hchild).2
  · rw [← Option.some_inj.mp heq]

/-- Children that the write found. -/
theorem Dated.found (h : bucket.Dated write) (depth : ℕ) :
    bucket.Dated (write + 1) ∧ bucket.Precedes ⟨write, depth⟩ :=
  ⟨h.mono (Nat.le_succ write), h.precedes depth⟩

/-- A child that the write brings or renews. -/
theorem Renewed.found {child : Bucket K V} (h : Renewed write (depth + 1) child made) :
    made.Dated (write + 1) ∧ made.Precedes ⟨write, depth⟩ :=
  ⟨h.dated, h.precedes depth (Nat.lt_succ_self depth)⟩

variable {stamp : Stamp} {front rest : List (Bucket K V)} {child new : Bucket K V}

theorem Dated.forall_mem (h : (Bucket.trie stamp rotation occupancy count children).Dated write) :
    ∀ child ∈ children, child.Dated write := by
  cases h with
  | trie _ dated => exact dated

/-- A renewed child renews its parent. -/
theorem Renewed.descend {count' : ℕ}
    (h : (Bucket.trie stamp rotation occupancy count (front ++ child :: rest)).Dated write)
    (below : Renewed write (depth + 1) child new) :
    Renewed write depth (.trie stamp rotation occupancy count (front ++ child :: rest))
      (.trie ⟨write, depth⟩ rotation occupancy count' (front ++ new :: rest)) := by
  have hothers := (forall_mem_append_cons.mp h.forall_mem).2
  refine .of_trie h (forall_mem_append_cons.mpr ⟨below.found, ?_⟩)
  intro other hother
  exact (hothers other hother).found depth

/-- A leaf of the write beside children that it found. -/
theorem Renewed.of_leaf {entry : Leaf K V} (hbucket : bucket.Dated entry.stamp.write)
    (hothers : ∀ other ∈ front ++ rest, other.Dated entry.stamp.write) :
    Renewed entry.stamp.write depth bucket
      (.trie ⟨entry.stamp.write, depth⟩ rotation occupancy count
        (front ++ .leaf entry :: rest)) := by
  refine .of_trie hbucket (forall_mem_append_cons.mpr ⟨⟨.leaf (Nat.lt_succ_self _), nofun⟩, ?_⟩)
  intro other hother
  exact (hothers other hother).found depth

/-- A chain that the write builds. -/
theorem Renewed.of_chain {hash : UInt32} {entries : List (Leaf K V)} (hbucket : bucket.Dated write)
    (hentries : ∀ entry ∈ entries, entry.stamp.write < write + 1) :
    Renewed write depth bucket (.chain ⟨write, depth⟩ hash entries) :=
  .of_built hbucket (.chain (Nat.lt_succ_self write) hentries) rfl nofun

end Built

/-! ## The effects of writes -/

section Writes

variable {r : Insertion K V} {write depth : ℕ} {stored : Leaf K V} {before after : List (Leaf K V)}
  {bucket grown new left : Bucket K V}

theorem Dated.forall_mem_entries {clock : ℕ} {stamp : Stamp} {hash : UInt32}
    {entries : List (Leaf K V)} (h : (Bucket.chain stamp hash entries).Dated clock) :
    ∀ entry ∈ entries, entry.stamp.write < clock := by
  cases h with
  | chain _ entries_lt => exact entries_lt

theorem Joined.renewed (h : Joined r depth bucket grown)
    (hbucket : bucket.Dated r.entry.stamp.write) :
    Renewed r.entry.stamp.write depth bucket grown := by
  induction h with
  | split _ _ _ alone =>
    refine .of_leaf hbucket ?_
    rw [alone, List.forall_mem_singleton]
    exact hbucket
  | pair =>
    refine .of_chain hbucket ?_
    rw [List.forall_mem_cons, List.forall_mem_singleton]
    exact ⟨Nat.lt_succ_of_lt hbucket.stamp_lt, Nat.lt_succ_self _⟩
  | append =>
    refine .of_chain hbucket ?_
    rw [List.forall_mem_append, List.forall_mem_singleton]
    exact ⟨fun entry hentry ↦ Nat.lt_succ_of_lt (hbucket.forall_mem_entries entry hentry),
      Nat.lt_succ_self _⟩
  | fill => exact .of_leaf hbucket hbucket.forall_mem
  | descend _ _ ih =>
    have hchild := hbucket.forall_mem _ (List.mem_append_right _ List.mem_cons_self)
    exact (ih hchild).descend hbucket

theorem Replaced.renewed (h : Replaced r stored before after depth bucket new)
    (hbucket : bucket.Dated r.entry.stamp.write) :
    Renewed r.entry.stamp.write depth bucket new := by
  induction h with
  | leaf => exact .of_built hbucket (.leaf (Nat.lt_succ_self _)) rfl nofun
  | chain =>
    have hothers := (forall_mem_append_cons.mp hbucket.forall_mem_entries).2
    refine .of_chain hbucket (forall_mem_append_cons.mpr ⟨Nat.lt_succ_self _, ?_⟩)
    intro entry hentry
    exact Nat.lt_succ_of_lt (hothers entry hentry)
  | descend _ _ ih =>
    have hchild := hbucket.forall_mem _ (List.mem_append_right _ List.mem_cons_self)
    exact (ih hchild).descend hbucket

theorem Removed.renewed (h : Removed write stored before after depth bucket left)
    (hbucket : bucket.Dated write) : Renewed write depth bucket left := by
  induction h with
  | survivor alone =>
    have hothers := (forall_mem_append_cons.mp hbucket.forall_mem_entries).2
    rw [alone, List.forall_mem_singleton] at hothers
    exact ⟨.leaf (Nat.lt_succ_of_lt hothers), rfl, nofun⟩
  | chain =>
    have hothers := (forall_mem_append_cons.mp hbucket.forall_mem_entries).2
    refine .of_chain hbucket fun entry hentry ↦ ?_
    exact Nat.lt_succ_of_lt (hothers entry hentry)
  | collapse _ alone =>
    cases hbucket with
    | trie _ dated precedes =>
      replace dated := (forall_mem_append_cons.mp dated).2
      replace precedes := (forall_mem_append_cons.mp precedes).2
      rw [alone, List.forall_mem_singleton] at dated precedes
      refine ⟨dated.mono (Nat.le_succ _), ?_, fun above _ ↦ dated.precedes above⟩
      -- the last child is an old node, but not its parent
      rw [← Bool.not_eq_true]
      exact fun hsame ↦ precedes.trieStamp?_ne (trieStamp?_eq_of_sameNode hsame)
  | vacate =>
    have hothers := (forall_mem_append_cons.mp hbucket.forall_mem).2
    refine .of_trie hbucket fun child hchild ↦ ?_
    exact (hothers child hchild).found _
  | descend _ _ ih =>
    have hchild := hbucket.forall_mem _ (List.mem_append_right _ List.mem_cons_self)
    exact (ih hchild).descend hbucket

end Writes

end Bucket

/-! ## Maps -/

variable {κ ν : Type}

theorem sameRoot_refl (root : Option (Bucket K V)) : sameRoot root root = true := by
  cases root with
  | none => rfl
  | some bucket => exact bucket.sameNode_refl

namespace Map

/-- All that is in a map was built before the write of the given number. -/
def Dated (m : Map κ ν K V) (clock : ℕ) : Prop :=
  ∀ bucket, m.root = some bucket → bucket.Dated clock

/-- What a write of the given number makes of a map that it changes. -/
structure Renewed (m : Map κ ν K V) (write : ℕ) (made : Map κ ν K V) : Prop where
  /-- It is dated by the clock after the write. -/
  dated : made.Dated (write + 1)
  /-- Its root is another node, or one of the two is absent. -/
  sameRoot_eq : sameRoot made.root m.root = false
  /-- The strategies are kept. -/
  strategies_eq : made.strategies = m.strategies

variable {m made other : Map κ ν K V} {clock later write : ℕ}

theorem Dated.mono (h : m.Dated clock) (hle : clock ≤ later) : m.Dated later :=
  fun bucket hbucket ↦ (h bucket hbucket).mono hle

theorem dated_emptyUnder (strategies : Strategies κ ν) (clock : ℕ) :
    (emptyUnder strategies : Map κ ν K V).Dated clock := nofun

theorem Renewed.of_bucket {bucket new : Bucket K V} (hroot : m.root = some bucket)
    (h : bucket.Renewed write 0 new) : m.Renewed write { m with root := some new } where
  dated root hnew := by
    rw [← Option.some_inj.mp hnew]
    exact h.dated
  sameRoot_eq := by
    rw [hroot]
    exact h.sameNode_eq
  strategies_eq := rfl

theorem Entered.renewed {r : Insertion K V} {grown : Bucket K V} (h : Entered r m.root grown)
    (hm : m.Dated r.entry.stamp.write) :
    m.Renewed r.entry.stamp.write { m with root := some grown } := by
  obtain ⟨root, strategies⟩ := m
  cases h with
  | first =>
    refine ⟨fun bucket hbucket ↦ ?_, rfl, rfl⟩
    rw [← Option.some_inj.mp hbucket]
    exact .leaf (Nat.lt_succ_self _)
  | joined joined => exact .of_bucket rfl (joined.renewed (hm _ rfl))

theorem Dropped.renewed {stored : Leaf K V} {before after : List (Leaf K V)}
    {rest : Option (Bucket K V)} (h : Dropped write stored before after m.root rest)
    (hm : m.Dated write) : m.Renewed write { m with root := rest } := by
  obtain ⟨root, strategies⟩ := m
  cases h with
  | last => exact ⟨nofun, rfl, rfl⟩
  | removed removed => exact .of_bucket rfl (removed.renewed (hm _ rfl))

/-! ## Edits -/

section Edits

variable [KeyStrategy κ K] [ValueStrategy ν V] {edit : Edit K V}

/-- An edit is without effect: its key is there with an equal value, or is not there to be
erased. -/
def Keeps (m : Map κ ν K V) : Edit K V → Prop
  | .add key value | .set key value =>
    ∃ stored, m.get? key = some stored ∧
      ValueStrategy.equals m.strategies.value stored value = true
  | .erase key => m.containsKey key = false

private theorem keeps_of_pair? {key : K} {value : V} (pair?_eq : edit.pair? = some (key, value)) :
    m.Keeps edit ↔ ∃ stored, m.get? key = some stored ∧
      ValueStrategy.equals m.strategies.value stored value = true := by
  cases edit with
  | add =>
    cases pair?_eq
    exact Iff.rfl
  | set =>
    cases pair?_eq
    exact Iff.rfl
  | erase => cases pair?_eq

/-- An edit leaves the very map if it is without effect, and otherwise renews whatever is dated by
its number. -/
theorem EditEffect.eq_or_renews (heffect : EditEffect m write edit made) :
    made = m ∧ m.Keeps edit ∨ (m.Dated write → m.Renewed write made) ∧ ¬ m.Keeps edit := by
  cases heffect with
  | kept pair?_eq find?_eq equals_eq =>
    refine .inl ⟨rfl, (keeps_of_pair? pair?_eq).mpr ⟨_, ?_, equals_eq⟩⟩
    rw [get?, find?_eq]
    rfl
  | entered pair?_eq find?_eq entered =>
    refine .inr ⟨entered.renewed, fun hkeeps ↦ ?_⟩
    obtain ⟨stored, hstored, -⟩ := (keeps_of_pair? pair?_eq).mp hkeeps
    rw [get?, find?_eq] at hstored
    cases hstored
  | replaced find?_eq equals_eq _ root_eq replaced =>
    refine .inr ⟨fun hm ↦ .of_bucket root_eq (replaced.renewed (hm _ root_eq)), ?_⟩
    rintro ⟨stored, hstored, hequals⟩
    rw [get?, find?_eq] at hstored
    rw [← Option.some_inj.mp hstored, equals_eq] at hequals
    cases hequals
  | missing find?_eq =>
    refine .inl ⟨rfl, ?_⟩
    rw [Keeps, containsKey, find?_eq]
    rfl
  | dropped find?_eq _ dropped =>
    refine .inr ⟨dropped.renewed, fun hkeeps ↦ ?_⟩
    rw [Keeps, containsKey, find?_eq] at hkeeps
    cases hkeeps

theorem EditEffect.eq_or_renewed (heffect : EditEffect m write edit made) (hm : m.Dated write) :
    made = m ∧ m.Keeps edit ∨ m.Renewed write made ∧ ¬ m.Keeps edit :=
  heffect.eq_or_renews.imp_right fun h ↦ ⟨h.1 hm, h.2⟩

theorem EditEffect.eq_of_keeps (heffect : EditEffect m write edit made) (hkeeps : m.Keeps edit) :
    made = m := by
  obtain ⟨heq, -⟩ | ⟨-, hchanges⟩ := heffect.eq_or_renews
  · exact heq
  · exact absurd hkeeps hchanges

theorem EditEffect.dated (heffect : EditEffect m write edit made) (hm : m.Dated write) :
    made.Dated (write + 1) := by
  rcases heffect.eq_or_renewed hm with ⟨rfl, -⟩ | ⟨hrenewed, -⟩
  · exact hm.mono (Nat.le_succ write)
  · exact hrenewed.dated

/-! ## Runs of edits -/

theorem Sound.dated_edited (h : m.Sound) (hm : m.Dated write) (edit : Edit K V) :
    (m.edited write edit).Dated (write + 1) := by
  rw [edited]
  cases hmade : m.edit write edit with
  | error => exact hm.mono (Nat.le_succ write)
  | ok made => exact (h.editEffect hmade).dated hm

/-- Edits one after the other take one number each. -/
theorem Sound.dated_replay (h : m.Sound) (hm : m.Dated write) (edits : List (Edit K V)) :
    (m.replay write edits).Dated (write + edits.length) := by
  induction edits generalizing m write with
  | nil => exact hm
  | cons edit edits ih =>
    rw [List.length_cons, Nat.add_comm edits.length, ← Nat.add_assoc]
    exact ih ((h.editOutcome write edit).sound h) (h.dated_edited hm edit)

theorem setAll_eq_replay (m : Map κ ν K V) (write : ℕ) (pairs : List (K × V)) :
    m.setAll write pairs = m.replay write (pairs.map fun pair ↦ .set pair.1 pair.2) := by
  induction pairs generalizing m write with
  | nil => rfl
  | cons pair pairs ih => exact ih (m.set write pair.1 pair.2) (write + 1)

theorem eq_replay_of_addAll {pairs : List (K × V)} (h : m.addAll write pairs = .ok made) :
    made = m.replay write (pairs.map fun pair ↦ .add pair.1 pair.2) := by
  induction pairs generalizing m write with
  | nil => exact (Except.ok.inj h).symm
  | cons pair pairs ih =>
    rw [addAll] at h
    split at h
    · cases h
    · rename_i next hadd
      rw [ih h, List.map_cons, replay, edited, edit, hadd]

theorem Sound.dated_setAll (h : m.Sound) (hm : m.Dated write) (pairs : List (K × V)) :
    (m.setAll write pairs).Dated (write + pairs.length) := by
  rw [setAll_eq_replay]
  have hreplay := h.dated_replay hm (pairs.map fun pair ↦ .set pair.1 pair.2)
  rwa [List.length_map] at hreplay

theorem Sound.dated_addAll (h : m.Sound) (hm : m.Dated write) {pairs : List (K × V)}
    (made_eq : m.addAll write pairs = .ok made) : made.Dated (write + pairs.length) := by
  rw [eq_replay_of_addAll made_eq]
  have hreplay := h.dated_replay hm (pairs.map fun pair ↦ .add pair.1 pair.2)
  rwa [List.length_map] at hreplay

theorem Sound.dated_eraseAll (h : m.Sound) (hm : m.Dated write) (keys : List K) :
    (m.eraseAll write keys).Dated (write + keys.length) := by
  rw [h.eraseAll_eq_replay]
  have hreplay := h.dated_replay hm (keys.map .erase)
  rwa [List.length_map] at hreplay

variable [DecidableEq κ]

theorem Dated.withStrategies (hm : m.Dated write) (strategies : Strategies κ ν) :
    (m.withStrategies write strategies).Dated (write + m.pairs.length) := by
  rw [Map.withStrategies]
  split
  · exact hm.mono (Nat.le_add_right _ _)
  · exact (Written.emptyUnder strategies).sound.dated_setAll (dated_emptyUnder _ _) m.pairs

theorem Sound.dated_setFrom (h : m.Sound) (hm : m.Dated write) (hother : other.Dated write) :
    (m.setFrom write other).Dated (write + other.pairs.length) := by
  rw [setFrom]
  split
  · exact hother.withStrategies m.strategies
  · exact h.dated_setAll hm other.pairs

theorem Sound.dated_addFrom (h : m.Sound) (hm : m.Dated write) (hother : other.Dated write)
    (made_eq : m.addFrom write other = .ok made) : made.Dated (write + other.pairs.length) := by
  rw [addFrom] at made_eq
  split at made_eq
  · rw [← Except.ok.inj made_eq]
    exact hother.withStrategies m.strategies
  · exact h.dated_addAll hm made_eq

end Edits

end Map

/-! ## Workspaces -/

namespace Workspace

variable [DecidableEq κ] [KeyStrategy κ K] [ValueStrategy ν V] {w next : Workspace κ ν K V}
  {m made : Map κ ν K V} {writes : ℕ}

/-- A change takes as many numbers as are set aside for it. -/
theorem dated_of_changed {change : Change κ ν K V}
    (hmaps : ∀ entry ∈ w.maps, entry.2.Dated w.clock) (hsound : m.Sound) (hm : m.Dated w.clock)
    (h : w.changed m change = .ok (made, writes)) : made.Dated (w.clock + writes) := by
  have hlookup : ∀ {name other}, w.lookup name = .ok other → other.Dated w.clock := by
    intro name other hother
    obtain ⟨entry, hentry, rfl⟩ := exists_mem_of_lookup hother
    exact hmaps entry hentry
  cases change with
  | add key value =>
    obtain ⟨grown, hgrown, hmade⟩ := exists_of_bind_eq_ok h
    cases hmade
    have hedit : m.edit w.clock (.add key value) = .ok _ := eq_ok_of_mapError hgrown
    exact (hsound.editEffect hedit).dated hm
  | set key value =>
    cases h
    exact hsound.dated_edited hm (.set key value)
  | erase key =>
    cases h
    exact hsound.dated_edited hm (.erase key)
  | addAll pairs =>
    obtain ⟨grown, hgrown, hmade⟩ := exists_of_bind_eq_ok h
    cases hmade
    exact hsound.dated_addAll hm (eq_ok_of_mapError hgrown)
  | setAll pairs =>
    cases h
    exact hsound.dated_setAll hm pairs
  | eraseAll keys =>
    cases h
    exact hsound.dated_eraseAll hm keys
  | addFrom name =>
    obtain ⟨other, hother, h⟩ := exists_of_bind_eq_ok h
    obtain ⟨grown, hgrown, hmade⟩ := exists_of_bind_eq_ok h
    cases hmade
    exact hsound.dated_addFrom hm (hlookup hother) (eq_ok_of_mapError hgrown)
  | setFrom name =>
    obtain ⟨other, hother, hmade⟩ := exists_of_bind_eq_ok h
    cases hmade
    exact hsound.dated_setFrom hm (hlookup hother)
  | clear =>
    cases h
    exact Map.dated_emptyUnder _ _
  | copy =>
    cases h
    exact hm
  | withKeyStrategy key =>
    cases h
    exact hm.withStrategies _
  | withStrategies key? value? =>
    cases h
    exact hm.withStrategies _

theorem dated_of_made {command : Command κ ν K V} (hmaps : ∀ entry ∈ w.maps,
    entry.2.Sound ∧ entry.2.Dated w.clock) (h : w.made command = .ok (made, writes)) :
    made.Dated (w.clock + writes) := by
  cases command with
  | create strategies =>
    cases h
    exact Map.dated_emptyUnder _ _
  | ofList pairs =>
    cases h
    exact (Map.Written.emptyUnder .canonical).sound.dated_setAll (Map.dated_emptyUnder _ _) pairs
  | change source change =>
    obtain ⟨m, hm, hmade⟩ := exists_of_bind_eq_ok h
    obtain ⟨entry, hentry, rfl⟩ := exists_mem_of_lookup hm
    obtain ⟨hsound, hdated⟩ := hmaps entry hentry
    exact dated_of_changed (fun other hother ↦ (hmaps other hother).2) hsound hdated hmade

/-- All maps of a workspace that commands lead to are dated by its clock. -/
theorem Reached.forall_dated (h : w.Reached) : ∀ entry ∈ w.maps, entry.2.Dated w.clock := by
  induction h with
  | opening name strategies =>
    intro entry hentry
    rw [List.mem_singleton.mp hentry]
    exact Map.dated_emptyUnder _ _
  | @perform w _ target command reached perform_eq ih =>
    obtain ⟨⟨made, writes⟩, hmade, hnext⟩ := exists_of_bind_eq_ok perform_eq
    cases hnext
    have hmaps : ∀ entry ∈ w.maps, entry.2.Sound ∧ entry.2.Dated w.clock :=
      fun entry hentry ↦ ⟨(reached.forall_reachable entry hentry).sound, ih entry hentry⟩
    rw [store, List.forall_mem_cons]
    refine ⟨dated_of_made hmaps hmade, fun entry hentry ↦ ?_⟩
    exact (ih entry (List.mem_of_mem_filter hentry)).mono (Nat.le_add_right _ _)

end Workspace

end RotaryTrie
