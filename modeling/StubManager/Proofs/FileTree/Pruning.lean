import Mathlib.Data.List.Sort
import StubManager.Proofs.FileTree.Plain

/-!
# Pruned trees

`Node.prune` leaves entries of some names out of a tree, at every depth. Where entries are in order
a directory is known from what it has under each name (`ext_of_child?`).
-/

namespace StubManager.Node

/-- The tree without the entries of the given names, at every depth. -/
def prune (exclude : List String) : Node → Node
  | file data executable => file data executable
  | link target => link target
  | directory entries => directory (pruneEntries entries)
where
  /-- The entries of other names, pruned. -/
  pruneEntries : List (String × Node) → List (String × Node)
    | [] => []
    | (name, node) :: more =>
      if exclude.contains name then pruneEntries more
      else (name, node.prune exclude) :: pruneEntries more

open prune (pruneEntries)

variable {exclude : List String} {entries entries' : List (String × Node)}

theorem child?_pruneEntries (exclude : List String) (name : String)
    (entries : List (String × Node)) :
    child? name (pruneEntries exclude entries)
      = if exclude.contains name then none else (child? name entries).map (prune exclude) := by
  induction entries with
  | nil => simp [pruneEntries, child?]
  | cons entry entries ih =>
    obtain ⟨other, node⟩ := entry
    rw [pruneEntries, child?]
    by_cases hname : other = name
    · subst hname
      split
      · next hout => rw [ih, if_pos hout]
      · rw [child?, if_pos rfl, if_pos rfl, Option.map_some]
    · rw [if_neg hname]
      split
      · exact ih
      · rw [child?, if_neg hname, ih]

theorem pruneEntries_sublist (exclude : List String) (entries : List (String × Node)) :
    ((pruneEntries exclude entries).map Prod.fst).Sublist (entries.map Prod.fst) := by
  induction entries with
  | nil => exact .slnil
  | cons entry entries ih =>
    obtain ⟨name, node⟩ := entry
    rw [pruneEntries, List.map_cons]
    split
    · exact ih.cons _
    · exact ih.cons_cons _

/-- Nothing is left out of a tree for no names. -/
theorem prune_nil (node : Node) : node.prune [] = node := by
  induction node using prune.induct [] (fun entries => pruneEntries [] entries = entries) with
  | case1 data executable => rfl
  | case2 target => rfl
  | case3 entries ih => rw [prune, ih]
  | case4 => rfl
  | case5 name node entries hout => cases hout
  | case6 name node entries _ ihnode ihentries =>
    rw [pruneEntries, ihnode, ihentries]
    rfl

theorem mem_iff_child? (h : (entries.map Prod.fst).Pairwise (· < ·)) {entry : String × Node} :
    entry ∈ entries ↔ child? entry.1 entries = some entry.2 :=
  ⟨child?_of_mem h, mem_of_child?⟩

/-- Entry lists in order are the same if they have the same under each name. -/
theorem ext_of_child? (h : (entries.map Prod.fst).Pairwise (· < ·))
    (h' : (entries'.map Prod.fst).Pairwise (· < ·))
    (hsame : ∀ name, child? name entries = child? name entries') : entries = entries' := by
  have : Std.Irrefl fun a b : String × Node => a.1 < b.1 := ⟨fun a => String.lt_irrefl a.1⟩
  have : Std.Antisymm fun a b : String × Node => a.1 < b.1 :=
    ⟨fun _ _ hlt hgt => absurd hgt (String.lt_asymm hlt)⟩
  refine (List.pairwise_map.1 h).eq_of_mem_iff (List.pairwise_map.1 h') fun entry => ?_
  rw [mem_iff_child? h, mem_iff_child? h', hsame]

end StubManager.Node
