import Mathlib.Data.List.InsertIdx
import RotaryTrie.Proofs.Clock
import RotaryTrie.Proofs.Pruning

/-!
# Renumbering writes

The numbers of writes name nodes and do nothing else. `Bucket.renumber` applies a function to all
numbers in a bucket, and a write under a renumbered stamp leads from a renumbered bucket to a
renumbered bucket. No property of the function is needed for that, as neither insertions nor
erasures compare stamps, and neither is soundness of the bucket or a law of the strategies.

Layouts do not show the numbers, so two runs that differ in their numbers only build the same
trie. Their results can still be compared by identity with what was there before if the function
keeps the numbers of earlier writes and does not take others for them. This is what `shift` is for:
it renumbers the writes from one point on as writes from another point on.
-/

set_option autoImplicit false

namespace RotaryTrie

variable {K V : Type} (g : ℕ → ℕ)

/-! ## What is renumbered -/

/-- The stamp with the function applied to its number. -/
def Stamp.renumber (stamp : Stamp) : Stamp := { stamp with write := g stamp.write }

/-- The entry with its stamp renumbered. -/
def Leaf.renumber (entry : Leaf K V) : Leaf K V := { entry with stamp := entry.stamp.renumber g }

namespace Bucket

mutual

/-- The bucket with all stamps renumbered. -/
def renumber : Bucket K V → Bucket K V
  | .leaf entry => .leaf (entry.renumber g)
  | .chain stamp hash entries => .chain (stamp.renumber g) hash (entries.map (Leaf.renumber g))
  | .trie stamp rotation occupancy count children =>
    .trie (stamp.renumber g) rotation occupancy count (renumberAll children)

/-- The buckets with all stamps renumbered. -/
def renumberAll : List (Bucket K V) → List (Bucket K V)
  | [] => []
  | child :: children => child.renumber :: renumberAll children

end

theorem renumberAll_eq_map (children : List (Bucket K V)) :
    renumberAll g children = children.map (renumber g) := by
  induction children with
  | nil => rfl
  | cons child children ih => simp [renumberAll, ih]

end Bucket

/-- The insertion with its entry renumbered. -/
def Insertion.renumber (r : Insertion K V) : Insertion K V :=
  { r with entry := r.entry.renumber g }

/-- The result with its bucket renumbered. -/
def Inserted.renumber : Inserted K V → Inserted K V
  | .unchanged => .unchanged
  | .conflict => .conflict
  | .changed bucket => .changed (bucket.renumber g)

/-- The result with its bucket renumbered. -/
def Erased.renumber : Erased K V → Erased K V
  | .unchanged => .unchanged
  | .emptied => .emptied
  | .changed bucket => .changed (bucket.renumber g)

/-! ## What does not show the numbers -/

theorem Probe.position?_map_renumber (p : Probe K) (entries : List (Leaf K V)) :
    p.position? (entries.map (Leaf.renumber g))
      = (p.position? entries).map (Fin.cast (List.length_map _).symm) := by
  apply Option.map_injective Fin.val_injective
  rw [position?, position?, Option.map_map, ← List.findIdx?_eq_map_findFinIdx?_val,
    List.findIdx?_map]
  exact List.findIdx?_eq_map_findFinIdx?_val

namespace Bucket

@[simp] theorem count_renumber (bucket : Bucket K V) :
    (bucket.renumber g).count = bucket.count := by
  cases bucket <;> simp [renumber, count]

theorem countAll_map_renumber (children : List (Bucket K V)) :
    countAll (children.map (renumber g)) = countAll children := by
  induction children with
  | nil => rfl
  | cons child children ih => simp [countAll, ih]

/-! ## Building nodes -/

section Build

variable (stamp : Stamp) (rotation occupancy : UInt32) (count : ℕ) (children : List (Bucket K V))
  (slot : UInt32)

theorem mkChain_renumber (entries : List (Leaf K V)) :
    mkChain (stamp.renumber g) (entries.map (Leaf.renumber g))
      = (mkChain stamp entries).map (renumber g) := by
  match entries with
  | [] => rfl
  | [_] => rfl
  | first :: second :: rest =>
    have hsame : ((second :: rest).map (Leaf.renumber g)).all
        (fun entry ↦ entry.hash == (first.renumber g).hash)
          = (second :: rest).all fun entry ↦ entry.hash == first.hash := List.all_map
    rw [List.map_cons, List.map_cons, mkChain, mkChain, ← List.map_cons, hsame]
    split
    · rfl
    · rfl

theorem mkTrie_renumber :
    mkTrie (stamp.renumber g) rotation occupancy count (children.map (renumber g))
      = (mkTrie stamp rotation occupancy count children).map (renumber g) := by
  rw [mkTrie, mkTrie, List.length_map, countAll_map_renumber]
  split
  · rfl
  · split
    · rfl
    · rw [Except.map, renumber, renumberAll_eq_map]

theorem split_renumber (suggested : UInt32) (first : Bucket K V) (firstHash : UInt32)
    (second : Bucket K V) (secondHash : UInt32) :
    split (stamp.renumber g) suggested (first.renumber g) firstHash (second.renumber g) secondHash
      = (split stamp suggested first firstHash second secondHash).map (renumber g) := by
  rw [split, split]
  cases separating? suggested firstHash secondHash with
  | none => rfl
  | some rotation =>
    dsimp only
    rw [count_renumber, count_renumber, ← mkTrie_renumber, apply_ite (List.map (renumber g))]
    rfl

theorem fillSlot_renumber (entry : Leaf K V) :
    fillSlot (stamp.renumber g) rotation occupancy count (children.map (renumber g)) slot
        (entry.renumber g)
      = (fillSlot stamp rotation occupancy count children slot entry).map (renumber g) := by
  rw [fillSlot, fillSlot, ← mkTrie_renumber, Dense.insert, Dense.insert, List.map_insertIdx]
  rfl

theorem replaceSlot_renumber (old new : Bucket K V) :
    replaceSlot (stamp.renumber g) rotation occupancy count (children.map (renumber g)) slot
        (old.renumber g) (new.renumber g)
      = (replaceSlot stamp rotation occupancy count children slot old new).map (renumber g) := by
  rw [replaceSlot, replaceSlot, count_renumber, count_renumber]
  cases deduct count old.count with
  | error => rfl
  | ok others =>
    dsimp only
    rw [← mkTrie_renumber, Dense.replace, Dense.replace, List.map_set]

theorem vacateSlot_renumber (old : Bucket K V) :
    vacateSlot (stamp.renumber g) rotation occupancy count (children.map (renumber g)) slot
        (old.renumber g)
      = (vacateSlot stamp rotation occupancy count children slot old).map (renumber g) := by
  have herase : Dense.erase occupancy slot (children.map (renumber g))
      = (Dense.erase occupancy slot children).map (renumber g) := List.eraseIdx_map ..
  rw [vacateSlot, vacateSlot, herase, count_renumber]
  rcases Dense.erase occupancy slot children with _ | ⟨first, _ | ⟨second, rest⟩⟩
  · rfl
  · rfl
  · dsimp only [List.map_cons]
    cases deduct count old.count with
    | error => rfl
    | ok others => exact mkTrie_renumber g stamp rotation _ others (first :: second :: rest)

end Build

/-! ## Insertions -/

/-- What holds of leaves and chains, and of a trie node if it holds of its children, holds of all
buckets. -/
@[elab_as_elim]
theorem structuralInduction {motive : Bucket K V → Prop} (leaf : ∀ entry, motive (.leaf entry))
    (chain : ∀ stamp hash entries, motive (.chain stamp hash entries))
    (trie : ∀ stamp rotation occupancy count children, (∀ child ∈ children, motive child) →
      motive (.trie stamp rotation occupancy count children)) (bucket : Bucket K V) :
    motive bucket :=
  @Bucket.rec K V motive (fun children ↦ ∀ child ∈ children, motive child) leaf chain trie nofun
    (fun _ _ hchild hchildren ↦ List.forall_mem_cons.mpr ⟨hchild, hchildren⟩) bucket

section Insert

variable (r : Insertion K V) (depth : ℕ) (suggested : UInt32)

private theorem map_changed_renumber (built : Except Fault (Bucket K V)) :
    (built.map (renumber g)).map .changed = (built.map .changed).map (Inserted.renumber g) := by
  cases built with
  | error => rfl
  | ok => rfl

private theorem insert_leaf_renumber (stored : Leaf K V) :
    (leaf (stored.renumber g)).insert (r.renumber g) depth suggested
      = ((leaf stored).insert r depth suggested).map (Inserted.renumber g) := by
  have hverdict : (r.renumber g).verdict (stored.renumber g) = r.verdict stored := rfl
  rw [insert, insert, hverdict]
  change (if stored.hash ≠ r.entry.hash then _
    else if r.sameKey stored.key r.entry.key then _ else _) = _
  split
  · rw [← map_changed_renumber, ← split_renumber]
    rfl
  · split
    · cases r.verdict stored <;> rfl
    · rw [← map_changed_renumber, ← mkChain_renumber]
      rfl

private theorem insert_chain_renumber (stamp : Stamp) (hash : UInt32) (entries : List (Leaf K V)) :
    (chain (stamp.renumber g) hash (entries.map (Leaf.renumber g))).insert (r.renumber g) depth
        suggested
      = ((chain stamp hash entries).insert r depth suggested).map (Inserted.renumber g) := by
  have hprobe : (r.renumber g).probe = r.probe := rfl
  rw [insert, insert, hprobe, r.probe.position?_map_renumber]
  change (if hash ≠ r.entry.hash then _ else _) = _
  split
  · rw [← map_changed_renumber, ← split_renumber, renumber]
    rfl
  · cases r.probe.position? entries with
    | none =>
      dsimp only [Option.map_none]
      rw [← map_changed_renumber, ← mkChain_renumber, List.map_append]
      rfl
    | some position =>
      have hstored : (entries.map (Leaf.renumber g)).get
          (Fin.cast (List.length_map _).symm position) = (entries.get position).renumber g :=
        List.getElem_map _
      have hverdict : (r.renumber g).verdict ((entries.get position).renumber g)
          = r.verdict (entries.get position) := rfl
      dsimp only [Option.map_some]
      rw [hstored, hverdict]
      cases r.verdict (entries.get position) with
      | keep => rfl
      | refuse => rfl
      | replace =>
        dsimp only
        rw [← map_changed_renumber, ← mkChain_renumber, List.map_set]
        rfl

/-- A renumbered insertion into a renumbered bucket comes to the renumbered result. -/
theorem insert_renumber (bucket : Bucket K V) :
    (bucket.renumber g).insert (r.renumber g) depth suggested
      = (bucket.insert r depth suggested).map (Inserted.renumber g) := by
  induction bucket using Bucket.structuralInduction generalizing depth suggested with
  | leaf stored => exact insert_leaf_renumber g r depth suggested stored
  | chain stamp hash entries => exact insert_chain_renumber g r depth suggested stamp hash entries
  | trie stamp rotation occupancy count children ih =>
    have hhash : (r.renumber g).entry.hash = r.entry.hash := rfl
    rw [renumber, insert, insert, hhash, renumberAll_eq_map]
    split
    · rw [insertAt_eq, insertAt_eq, List.getElem?_map]
      cases hchild : children[Bitmap.rank occupancy (slotOf r.entry.hash rotation)]? with
      | none => rfl
      | some child =>
        dsimp only [Option.map_some]
        rw [ih child (List.mem_of_getElem? hchild)]
        cases child.insert r (depth + 1) (rotation + bitsPerLevel) with
        | error => rfl
        | ok result =>
          cases result with
          | unchanged => rfl
          | conflict => rfl
          | changed grown =>
            have hslot := replaceSlot_renumber g (r.stampAt depth) rotation occupancy count children
              (slotOf r.entry.hash rotation) child grown
            exact (congrArg (Except.map Inserted.changed) hslot).trans (map_changed_renumber g _)
    · rw [← map_changed_renumber, ← fillSlot_renumber]
      rfl

end Insert

/-! ## Erasures -/

section Erase

variable (p : Probe K) (write depth : ℕ)

private theorem map_erased_renumber (built : Except Fault (Bucket K V)) :
    (built.map (renumber g)).map .changed = (built.map .changed).map (Erased.renumber g) := by
  cases built with
  | error => rfl
  | ok => rfl

private theorem erase_chain_renumber (stamp : Stamp) (hash : UInt32) (entries : List (Leaf K V)) :
    (chain (stamp.renumber g) hash (entries.map (Leaf.renumber g))).erase p (g write) depth
      = ((chain stamp hash entries).erase p write depth).map (Erased.renumber g) := by
  rw [erase, erase, p.position?_map_renumber]
  split
  · rfl
  · cases p.position? entries with
    | none => rfl
    | some position =>
      dsimp only [Option.map_some, Fin.val_cast]
      rw [List.eraseIdx_map]
      rcases entries.eraseIdx position with _ | ⟨first, _ | ⟨second, rest⟩⟩
      · rfl
      · rfl
      · have hchain := mkChain_renumber g ⟨write, depth⟩ (first :: second :: rest)
        exact (congrArg (Except.map Erased.changed) hchain).trans (map_erased_renumber g _)

/-- A renumbered erasure from a renumbered bucket comes to the renumbered result. -/
theorem erase_renumber (bucket : Bucket K V) :
    (bucket.renumber g).erase p (g write) depth
      = (bucket.erase p write depth).map (Erased.renumber g) := by
  induction bucket using Bucket.structuralInduction generalizing depth with
  | leaf stored =>
    have hmeets : p.meets (stored.renumber g) = p.meets stored := rfl
    rw [renumber, erase, erase, hmeets]
    split <;> rfl
  | chain stamp hash entries => exact erase_chain_renumber g p write depth stamp hash entries
  | trie stamp rotation occupancy count children ih =>
    rw [renumber, erase, erase, renumberAll_eq_map]
    split
    · rw [eraseAt_eq, eraseAt_eq, List.getElem?_map]
      cases hchild : children[Bitmap.rank occupancy (slotOf p.hash rotation)]? with
      | none => rfl
      | some child =>
        dsimp only [Option.map_some]
        rw [ih child (List.mem_of_getElem? hchild)]
        cases child.erase p write (depth + 1) with
        | error => rfl
        | ok result =>
          cases result with
          | unchanged => rfl
          | emptied =>
            have hslot := vacateSlot_renumber g ⟨write, depth⟩ rotation occupancy count children
              (slotOf p.hash rotation) child
            exact (congrArg (Except.map Erased.changed) hslot).trans (map_erased_renumber g _)
          | changed shrunk =>
            have hslot := replaceSlot_renumber g ⟨write, depth⟩ rotation occupancy count children
              (slotOf p.hash rotation) child shrunk
            exact (congrArg (Except.map Erased.changed) hslot).trans (map_erased_renumber g _)
    · rfl

end Erase

/-! ## What remains the same -/

/-- The layout does not show the numbers. -/
theorem layout_renumber (bucket : Bucket K V) : (bucket.renumber g).layout = bucket.layout := by
  induction bucket using Bucket.structuralInduction with
  | leaf => rfl
  | chain stamp hash entries =>
    rw [renumber, layout, layout, List.map_map]
    rfl
  | trie stamp rotation occupancy count children ih =>
    rw [renumber, layout, layout, layoutAll_eq_map, layoutAll_eq_map, renumberAll_eq_map,
      List.map_map]
    exact congrArg _ (List.map_congr_left ih)

variable {g}

/-- A bucket from before a write remains as it is if the function keeps the earlier numbers. -/
theorem Dated.renumber_eq {clock : ℕ} {bucket : Bucket K V} (h : bucket.Dated clock)
    (hg : ∀ number < clock, g number = number) : bucket.renumber g = bucket := by
  have hstamp : ∀ stamp : Stamp, stamp.write < clock → stamp.renumber g = stamp := by
    intro stamp hlt
    rw [Stamp.renumber, hg stamp.write hlt]
  have hentry : ∀ entry : Leaf K V, entry.stamp.write < clock → entry.renumber g = entry := by
    intro entry hlt
    rw [Leaf.renumber, hstamp entry.stamp hlt]
  induction h with
  | leaf lt => rw [renumber, hentry _ lt]
  | chain lt entries_lt =>
    rw [renumber, hstamp _ lt, List.map_congr_left fun entry h ↦ hentry entry (entries_lt entry h),
      List.map_id']
  | trie lt _ _ ih =>
    rw [renumber, hstamp _ lt, renumberAll_eq_map, List.map_congr_left ih, List.map_id']

/-- A node from before a write is the same node as another one before and after renumbering, if the
function does not take other numbers for those of earlier writes. -/
theorem Dated.sameNode_renumber {clock : ℕ} {old : Bucket K V} (h : old.Dated clock)
    (hg : ∀ number, ∀ early < clock, g number = early ↔ number = early) (bucket : Bucket K V) :
    (bucket.renumber g).sameNode old = bucket.sameNode old := by
  have hstamp : ∀ stamp : Stamp, (stamp.renumber g == old.stamp) = (stamp == old.stamp) := by
    rintro ⟨number, depth⟩
    have hlt := h.stamp_lt
    generalize old.stamp = stamp at hlt
    obtain ⟨early, _⟩ := stamp
    rw [Bool.eq_iff_iff, beq_iff_eq, beq_iff_eq]
    simp [Stamp.renumber, hg number early hlt]
  cases bucket with
  | leaf entry =>
    cases old with
    | leaf => exact hstamp entry.stamp
    | chain => rfl
    | trie => rfl
  | chain stamp =>
    cases old with
    | leaf => rfl
    | chain => exact hstamp stamp
    | trie => rfl
  | trie stamp =>
    cases old with
    | leaf => rfl
    | chain => rfl
    | trie => exact hstamp stamp

end Bucket

/-! ## Maps -/

namespace Map

variable {κ ν : Type}

/-- The map with all stamps renumbered. -/
def renumber (m : Map κ ν K V) : Map κ ν K V := { m with root := m.root.map (Bucket.renumber g) }

theorem layout_renumber (m : Map κ ν K V) : (m.renumber g).layout = m.layout := by
  rw [layout, layout, renumber, Option.map_map]
  exact congrArg (m.root.map ·) (funext (Bucket.layout_renumber g))

variable {g}

/-- A map from before a write remains as it is if the function keeps the earlier numbers. -/
theorem Dated.renumber_eq {m : Map κ ν K V} {clock : ℕ} (h : m.Dated clock)
    (hg : ∀ number < clock, g number = number) : m.renumber g = m := by
  obtain ⟨_ | bucket, strategies⟩ := m
  · rfl
  · rw [renumber, Option.map_some, (h bucket rfl).renumber_eq hg]

/-- Whether a map is the same snapshot as one from before does not change by renumbering. -/
theorem Dated.sameSnapshot_renumber [DecidableEq κ] [DecidableEq ν] {m : Map κ ν K V} {clock : ℕ}
    (h : m.Dated clock) (hg : ∀ number, ∀ early < clock, g number = early ↔ number = early)
    (made : Map κ ν K V) : (made.renumber g).sameSnapshot m = made.sameSnapshot m := by
  obtain ⟨_ | old, _⟩ := m
  · obtain ⟨_ | bucket, _⟩ := made <;> rfl
  · obtain ⟨_ | bucket, _⟩ := made
    · rfl
    · rw [sameSnapshot, sameSnapshot, renumber, Option.map_some, sameRoot, sameRoot,
        (h old rfl).sameNode_renumber hg]

variable [KeyStrategy κ K] [ValueStrategy ν V] (g) (m : Map κ ν K V)

theorem insert_renumber (policy : Policy) (write : ℕ) (key : K) (value : V) :
    (m.renumber g).insert policy (g write) key value
      = (m.insert policy write key value).map (Inserted.renumber g) := by
  cases hroot : m.root with
  | none =>
    rw [insert_of_root_eq_none hroot, insert_of_root_eq_none]
    · rfl
    · rw [renumber, hroot, Option.map_none]
  | some bucket =>
    rw [insert_of_root_eq hroot, insert_of_root_eq, ← Bucket.insert_renumber]
    · rfl
    · rw [renumber, hroot, Option.map_some]

theorem add_renumber (write : ℕ) (key : K) (value : V) :
    (m.renumber g).add (g write) key value = (m.add write key value).map (renumber g) := by
  rw [add, add, insert_renumber]
  rcases m.insert .reject write key value with _ | _ | _ | _ <;> rfl

theorem set_renumber (write : ℕ) (key : K) (value : V) :
    (m.renumber g).set (g write) key value = (m.set write key value).renumber g := by
  rw [set, set, insert_renumber]
  rcases m.insert .overwrite write key value with _ | _ | _ | _ <;> rfl

omit [ValueStrategy ν V] in
theorem eraseRoot_renumber (write : ℕ) (key : K) (root : Option (Bucket K V)) :
    (m.renumber g).eraseRoot (g write) key (root.map (Bucket.renumber g))
      = (m.eraseRoot write key root).map (Option.map (Bucket.renumber g)) := by
  have hprobe : (m.renumber g).probe key = m.probe key := rfl
  cases root with
  | none => rfl
  | some bucket =>
    rw [Option.map_some, eraseRoot, eraseRoot, hprobe, Bucket.erase_renumber]
    rcases bucket.erase (m.probe key) write 0 with _ | _ | _ | _ <;> rfl

omit [ValueStrategy ν V] in
theorem erase_renumber (write : ℕ) (key : K) :
    (m.renumber g).erase (g write) key = (m.erase write key).renumber g := by
  have hroot : (m.renumber g).root = m.root.map (Bucket.renumber g) := rfl
  rw [erase, erase, hroot, eraseRoot_renumber]
  rcases m.eraseRoot write key m.root with _ | _ <;> rfl

/-- Setting pairs under other numbers leads to the renumbered map. -/
theorem setAll_renumber {write next : ℕ} (hg : ∀ step, g (write + step) = next + step)
    (pairs : List (K × V)) :
    (m.renumber g).setAll next pairs = (m.setAll write pairs).renumber g := by
  induction pairs generalizing m write next with
  | nil => rfl
  | cons pair pairs ih =>
    have hfirst : g write = next := hg 0
    rw [setAll, setAll, ← ih, ← set_renumber, hfirst]
    intro step
    rw [Nat.add_assoc, hg, Nat.add_assoc]

end Map

/-! ## Writes from another point on -/

/-- The writes that have the numbers from `write` on get those from `next` on. -/
def shift (write next number : ℕ) : ℕ := if number < write then number else next + (number - write)

section Shift

variable {write next number early : ℕ}

theorem shift_of_lt (h : number < write) : shift write next number = number := if_pos h

theorem shift_add (write next step : ℕ) : shift write next (write + step) = next + step := by
  simp [shift]

/-- No number is taken for an early one. -/
theorem shift_eq_iff (hwrite : early < write) (hnext : early < next) :
    shift write next number = early ↔ number = early := by
  rw [shift]
  split
  · rfl
  · omega

end Shift

end RotaryTrie
