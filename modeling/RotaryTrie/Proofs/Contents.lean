import RotaryTrie.Proofs.Pruning

/-!
# Exchanging contents

An entry that replaces another one of the same hash changes no node but for the contents it holds.
`Layout.map` changes the contents of all entries of a layout at once. Two layouts that become equal
under it differ at most in what the function does not tell apart, and `Bucket.Replaced.map_prune_eq`
says this of the tries before and after a replacement.

With a function that forgets keys and values this means that the *shape* is kept: rotations,
occupancy words, counts, and the lengths of chains.
-/

set_option autoImplicit false

namespace RotaryTrie

variable {K V K' V' : Type}

namespace Layout

mutual

/-- The layout with a function applied to the contents of every entry. -/
def map (f : Content K V → Content K' V') : Layout K V → Layout K' V'
  | .leaf entry => .leaf (f entry)
  | .chain hash entries => .chain hash (entries.map f)
  | .trie rotation occupancy count children => .trie rotation occupancy count (mapAll f children)

/-- The layouts with a function applied to the contents of every entry. -/
def mapAll (f : Content K V → Content K' V') : List (Layout K V) → List (Layout K' V')
  | [] => []
  | child :: children => child.map f :: mapAll f children

end

variable (f : Content K V → Content K' V')

theorem mapAll_eq_map (children : List (Layout K V)) :
    mapAll f children = children.map (map f) := by
  induction children with
  | nil => rfl
  | cons child children ih => simp [mapAll, ih]

theorem count_map (l : Layout K V) : (l.map f).count = l.count := by
  cases l <;> simp [map, count]

theorem map_ofChain (hash : UInt32) (entries : List (Content K V)) :
    (ofChain hash entries).map (map f) = ofChain hash (entries.map f) := by
  match entries with
  | [] => rfl
  | [_] => rfl
  | _ :: _ :: _ => rfl

theorem map_ofParts (rotation : UInt32) (parts : List (UInt32 × Layout K V)) :
    (ofParts rotation parts).map (map f)
      = ofParts rotation (parts.map fun part ↦ (part.1, part.2.map f)) := by
  match parts with
  | [] => rfl
  | [_] => rfl
  | _ :: _ :: _ => simp [ofParts, map, mapAll_eq_map, count_map, Function.comp_def]

theorem map_parts (slots : List UInt32) (children : List (Option (Layout K V))) :
    (parts slots children).map (fun part ↦ (part.1, part.2.map f))
      = parts slots (children.map (Option.map (map f))) := by
  induction slots generalizing children with
  | nil => simp [parts]
  | cons slot slots ih => rcases children with _ | ⟨_ | child, children⟩ <;> simp [parts, ih]

end Layout

namespace Bucket

variable {r : Insertion K V} {stored : Leaf K V} {before after : List (Leaf K V)} {depth : ℕ}
  {bucket new : Bucket K V} {keep : Leaf K V → Bool} {f : Content K V → Content K' V'}

/-- A replacement cannot be seen by a function that takes the contents of the two entries for the
same, nor in a pruning that treats the two entries alike. -/
theorem Replaced.map_prune_eq (h : Replaced r stored before after depth bucket new)
    (hkeep : keep stored = keep r.entry) (hcontent : f stored.content = f r.entry.content) :
    (new.prune keep).map (Layout.map f) = (bucket.prune keep).map (Layout.map f) := by
  induction h with
  | leaf =>
    rw [prune, prune, hkeep]
    split
    · simp [Layout.map, hcontent]
    · rfl
  | chain =>
    rw [prune, prune, Layout.map_ofChain, Layout.map_ofChain]
    cases hstored : keep stored <;> simp [← hkeep, hstored, hcontent]
  | descend _ _ ih =>
    rw [prune, prune, Layout.map_ofParts, Layout.map_ofParts, Layout.map_parts, Layout.map_parts,
      pruneAll_append, pruneAll_append, pruneAll, pruneAll, List.map_append, List.map_append,
      List.map_cons, List.map_cons, ih]

private theorem mapAll_layoutAll_eq_self {f : Content K V → Content K V}
    {children : List (Bucket K V)} (h : ∀ child ∈ children, child.layout.map f = child.layout) :
    Layout.mapAll f (layoutAll children) = layoutAll children := by
  rw [Layout.mapAll_eq_map, layoutAll_eq_map, List.map_map]
  exact List.map_congr_left h

/-- A function that leaves the contents of all entries as they are does so with the layout. -/
theorem Sound.map_layout_eq_self {f : Content K V → Content K V} (h : bucket.Sound)
    (hf : ∀ entry ∈ bucket.leaves, f entry.content = entry.content) :
    bucket.layout.map f = bucket.layout := by
  induction h with
  | leaf entry => simpa [layout, Layout.map, leaves] using hf
  | chain => simpa [layout, Layout.map, leaves] using hf
  | trie _ _ _ _ _ ih =>
    rw [layout, Layout.map, mapAll_layoutAll_eq_self]
    intro child hchild
    refine ih child hchild fun entry hentry ↦ hf entry ?_
    exact mem_leavesAll.mpr ⟨child, hchild, hentry⟩

end Bucket

/-! ## Shapes -/

/-- The contents of an entry without its key and value. -/
def Content.blank (entry : Content K V) : Content Unit Unit := ⟨entry.hash, (), ()⟩

namespace Map

variable {κ ν : Type}

/-- The layout of a map's trie without keys and values. -/
def shape (m : Map κ ν K V) : Option (Layout Unit Unit) := m.layout.map (Layout.map Content.blank)

/-- A function that leaves the contents of all entries of a map as they are does so with its
layout. -/
theorem map_layout_eq_self {m : Map κ ν K V} {f : Content K V → Content K V}
    (hm : ∀ bucket, m.root = some bucket → bucket.Sound)
    (hf : ∀ entry ∈ m.leaves, f entry.content = entry.content) :
    m.layout.map (Layout.map f) = m.layout := by
  rw [layout]
  cases hroot : m.root with
  | none => rfl
  | some bucket =>
    rw [leaves_of_root_eq hroot] at hf
    exact congrArg some ((hm bucket hroot).map_layout_eq_self hf)

/-- A replacement keeps the shape. -/
theorem shape_of_replaced {m : Map κ ν K V} {r : Insertion K V} {stored : Leaf K V}
    {before after : List (Leaf K V)} {bucket new : Bucket K V} (hbucket : bucket.Sound)
    (root_eq : m.root = some bucket) (h : Bucket.Replaced r stored before after 0 bucket new) :
    ({ m with root := some new } : Map κ ν K V).shape = m.shape := by
  have hhash := (h.exists_leaves hbucket).1
  have hblank : stored.content.blank = r.entry.content.blank := by
    simp [Content.blank, Leaf.content, hhash]
  have hprune : (new.prune fun _ ↦ true).map (Layout.map Content.blank)
      = (bucket.prune fun _ ↦ true).map (Layout.map Content.blank) := h.map_prune_eq rfl hblank
  rw [(h.sound hbucket).prune_eq_self (by simp), hbucket.prune_eq_self (by simp)] at hprune
  rw [shape, shape, layout, layout, root_eq]
  exact hprune

end Map

end RotaryTrie
