import Mathlib.Data.List.Nodup
import StubManager.Proofs.FileTree.Plain

/-!
# Tidy trees

A tree is tidy if it has no links and its directories hold their entries under proper names, each
once, in any order. Main statement: `Tidy.mem_descendants_iff`, the descendants of a tidy tree are
the nodes that names lead to.
-/

namespace StubManager.Node

open descendants (entryDescendants)

/-- A tree of files and directories, whatever order directories list their entries in. -/
structure Tidy (root : Node) : Prop where
  linkless : ∀ place target, root.get? place ≠ some (.link target)
  named : ∀ place entries, root.get? place = some (.directory entries) →
    ∀ entry ∈ entries, IsName entry.1
  distinct : ∀ place entries, root.get? place = some (.directory entries) →
    (entries.map Prod.fst).Nodup

theorem Plain.tidy {root : Node} (h : root.Plain) : root.Tidy where
  linkless := h.linkless
  named := h.named
  distinct place entries hentries := by
    refine (h.ordered place entries hentries).imp ?_
    rintro name _ hlt rfl
    exact String.lt_irrefl name hlt

variable {entries : List (String × Node)} {name : String} {node : Node}

theorem child?_of_mem_of_nodup (hdistinct : (entries.map Prod.fst).Nodup)
    (h : (name, node) ∈ entries) : child? name entries = some node := by
  induction entries with
  | nil => cases h
  | cons entry entries ih =>
    rw [List.map_cons, List.nodup_cons] at hdistinct
    obtain rfl | h := List.mem_cons.1 h
    · rw [child?, if_pos rfl]
    · have hne : entry.1 ≠ name := fun heq => hdistinct.1 (heq ▸ List.mem_map_of_mem h)
      rw [child?, if_neg hne, ih hdistinct.2 h]

namespace Tidy

theorem of_get? {root : Node} {place : List String} (h : root.Tidy)
    (hnode : root.get? place = some node) : node.Tidy := by
  have hsub : ∀ more, root.get? (place ++ more) = node.get? more := by
    intro more
    rw [get?_append, hnode, Option.bind_some]
  exact ⟨fun more target => hsub more ▸ h.linkless (place ++ more) target,
    fun more entries hentries => h.named (place ++ more) entries (hsub more ▸ hentries),
    fun more entries hentries => h.distinct (place ++ more) entries (hsub more ▸ hentries)⟩

theorem child (h : (directory entries).Tidy) (hchild : child? name entries = some node) :
    node.Tidy :=
  h.of_get? ((get?_singleton entries name).trans hchild)

end Tidy

/-- Below a node that holds no entries there is nothing else. -/
private theorem get?_bare {bare : Node} {place : List String} (h : bare.entries = [])
    (hnode : bare.get? place = some node) : node = bare := by
  cases place with
  | nil => exact (Option.some.inj hnode).symm
  | cons name place => simp [get?, h, child?] at hnode

theorem tidy_file (data : ByteArray) (executable : Bool) : (file data executable).Tidy where
  linkless place target h := by cases get?_bare rfl h
  named place entries h := by cases get?_bare rfl h
  distinct place entries h := by cases get?_bare rfl h

theorem tidy_directory_iff : (directory entries).Tidy ↔
    (∀ entry ∈ entries, IsName entry.1 ∧ entry.2.Tidy) ∧ (entries.map Prod.fst).Nodup := by
  constructor
  · intro h
    have hdistinct := h.distinct [] entries rfl
    exact ⟨fun entry hentry => ⟨h.named [] entries rfl entry hentry,
      h.child (child?_of_mem_of_nodup hdistinct hentry)⟩, hdistinct⟩
  · rintro ⟨hentries, hdistinct⟩
    have hsub : ∀ name place node, (directory entries).get? (name :: place) = some node →
        ∃ child : Node, child.Tidy ∧ child.get? place = some node := by
      intro name place node h
      rw [get?, Option.bind_eq_some_iff] at h
      obtain ⟨child, hchild, h⟩ := h
      exact ⟨child, (hentries _ (mem_of_child? hchild)).2, h⟩
    refine ⟨fun place target h => ?_, fun place es h => ?_, fun place es h => ?_⟩ <;>
      cases place with
      | nil =>
        cases h <;> first | exact hdistinct | exact fun entry hentry => (hentries entry hentry).1
      | cons name place =>
        obtain ⟨child, hchild, h⟩ := hsub _ _ _ h
        first
          | exact hchild.linkless _ _ h
          | exact hchild.named _ _ h
          | exact hchild.distinct _ _ h

/-! ## Descendants -/

theorem mem_entryDescendants_iff {names : List String} {n : Node} :
    (names, n) ∈ entryDescendants entries ↔ ∃ entry ∈ entries,
      names = [entry.1] ∧ n = entry.2 ∨
        ∃ more, names = entry.1 :: more ∧ (more, n) ∈ entry.2.descendants := by
  induction entries with
  | nil => simp [entryDescendants]
  | cons entry entries ih =>
    obtain ⟨name, node⟩ := entry
    rw [entryDescendants, List.cons_append, List.mem_cons, List.mem_append, ih,
      List.exists_mem_cons_iff]
    simp only [Prod.mk.injEq, List.mem_map, Prod.exists, or_assoc]
    refine or_congr_right (or_congr_left ⟨?_, ?_⟩)
    · rintro ⟨more, n, hmem, rfl, rfl⟩
      exact ⟨more, rfl, hmem⟩
    · rintro ⟨more, rfl, hmem⟩
      exact ⟨more, n, hmem, rfl, rfl⟩

namespace Tidy

/-- The descendants of a tidy node are the nodes that names lead to. -/
theorem mem_descendants_iff (h : node.Tidy) {names : List String} {n : Node} :
    (names, n) ∈ node.descendants ↔ names ≠ [] ∧ node.get? names = some n := by
  induction names generalizing node with
  | nil =>
    cases node with
    | directory entries =>
      rw [descendants, mem_entryDescendants_iff]
      simp
    | file data executable => simp [descendants]
    | link target => simp [descendants]
  | cons name names ih =>
    cases node with
    | file data executable => simp [descendants, get?, Node.entries, child?]
    | link target => simp [descendants, get?, Node.entries, child?]
    | directory entries =>
      have hdistinct := h.distinct [] entries rfl
      rw [descendants, mem_entryDescendants_iff, get?, Node.entries, Option.bind_eq_some_iff]
      constructor
      · rintro ⟨entry, hentry, ⟨heq, rfl⟩ | ⟨more, heq, hmem⟩⟩
        · obtain ⟨rfl, rfl⟩ := List.cons.inj heq
          exact ⟨by simp, entry.2, child?_of_mem_of_nodup hdistinct hentry, rfl⟩
        · obtain ⟨rfl, rfl⟩ := List.cons.inj heq
          have hchild := child?_of_mem_of_nodup hdistinct hentry
          exact ⟨by simp, entry.2, hchild, ((ih (h.child hchild)).1 hmem).2⟩
      · rintro ⟨-, child, hchild, hget⟩
        refine ⟨(name, child), mem_of_child? hchild, ?_⟩
        by_cases hnil : names = []
        · subst hnil
          exact .inl ⟨rfl, (Option.some.inj hget).symm⟩
        · exact .inr ⟨names, rfl, (ih (h.child hchild)).2 ⟨hnil, hget⟩⟩

/-- No two descendants of a tidy node have the same names. -/
theorem pairwise_descendants (h : node.Tidy) : node.descendants.Pairwise (·.1 ≠ ·.1) := by
  induction node using descendants.induct (fun entries => (directory entries).Tidy →
    (entryDescendants entries).Pairwise (·.1 ≠ ·.1)) with
  | case1 entries ih => exact ih h
  | case2 node hleaf =>
    cases node with
    | directory entries => exact absurd rfl (hleaf entries)
    | file data executable => exact .nil
    | link target => exact .nil
  | case3 => exact .nil
  | case4 name node entries ihnode ihentries htidy =>
    obtain ⟨hentries, hdistinct⟩ := tidy_directory_iff.1 htidy
    rw [List.forall_mem_cons] at hentries
    rw [List.map_cons, List.nodup_cons] at hdistinct
    have hrest := ihentries (tidy_directory_iff.2 ⟨hentries.2, hdistinct.2⟩)
    -- The names that lead to another entry start with another name.
    have hother : ∀ names n, (names, n) ∈ entryDescendants entries →
        ∀ more, names ≠ name :: more := by
      rintro names n hmem more rfl
      obtain ⟨entry, hentry, ⟨heq, -⟩ | ⟨more', heq, -⟩⟩ := mem_entryDescendants_iff.1 hmem
      all_goals
        have hname := List.mem_map_of_mem (f := Prod.fst) hentry
        rw [← (List.cons.inj heq).1] at hname
        exact hdistinct.1 hname
    rw [entryDescendants, List.cons_append, List.pairwise_cons, List.pairwise_append,
      List.pairwise_map]
    refine ⟨?_, (ihnode hentries.1.2).imp (by simp), hrest, ?_⟩
    · rintro ⟨names, n⟩ hmem heq
      obtain rfl : [name] = names := heq
      obtain hmem | hmem := List.mem_append.1 hmem
      · obtain ⟨⟨more, n⟩, hmore, heq⟩ := List.mem_map.1 hmem
        obtain ⟨hnames, rfl⟩ := Prod.mk.inj heq
        obtain rfl := (List.cons.inj hnames).2
        exact ((hentries.1.2.mem_descendants_iff).1 hmore).1 rfl
      · exact hother _ _ hmem [] rfl
    · rintro ⟨names, n⟩ hmem ⟨names', n'⟩ hmem' heq
      obtain ⟨⟨more, n⟩, -, heq'⟩ := List.mem_map.1 hmem
      obtain ⟨rfl, -⟩ := Prod.mk.inj heq'
      exact hother _ _ hmem' more heq.symm

end Tidy

end StubManager.Node
