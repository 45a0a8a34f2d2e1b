import StubManager.FileTree.Basic

/-!
# Plain trees

A tree is plain if it has no links and its directories hold their entries under proper names, in
order. `Plain.alter`: a change that puts a plain node under a proper name keeps a tree plain. In a
plain tree a change is also seen at its own place (`Plain.get?_alter_self`), while directories and
files that are neither at nor below it remain (`dirAt_alter_iff`, `get?_alter_eq_file_iff`).
-/

namespace StubManager

/-- Whether a text can be the name of an entry. -/
def IsName (name : String) : Prop := name ≠ "" ∧ name ≠ "." ∧ name ≠ ".." ∧ '/' ∉ name.toList

instance (name : String) : Decidable (IsName name) :=
  inferInstanceAs (Decidable (name ≠ "" ∧ name ≠ "." ∧ name ≠ ".." ∧ '/' ∉ name.toList))

namespace Node

/-- A tree of files and directories. -/
structure Plain (root : Node) : Prop where
  linkless : ∀ place target, root.get? place ≠ some (.link target)
  named : ∀ place entries, root.get? place = some (.directory entries) →
    ∀ entry ∈ entries, IsName entry.1
  ordered : ∀ place entries, root.get? place = some (.directory entries) →
    (entries.map Prod.fst).Pairwise (· < ·)

/-- Whether a list of names leads to a directory. -/
def DirAt (root : Node) (place : List String) : Prop :=
  ∃ entries, root.get? place = some (.directory entries)

/-- Whether a list of names leads to a file. -/
def FileAt (root : Node) (place : List String) : Prop :=
  ∃ data executable, root.get? place = some (.file data executable)

/-- Whether names lead from a node to a file of the given contents. -/
def HasFile (node : Node) (names : List String) (data : ByteArray) : Prop :=
  ∃ executable, node.get? names = some (.file data executable)

theorem get?_append (root : Node) (front back : List String) :
    root.get? (front ++ back) = (root.get? front).bind (·.get? back) := by
  induction front generalizing root with
  | nil => rfl
  | cons name front ih =>
    rw [List.cons_append, get?, get?, Option.bind_assoc]
    exact congrArg _ (funext ih)

theorem DirAt.of_append {root : Node} {front back : List String} (h : root.DirAt (front ++ back)) :
    root.DirAt front := by
  obtain ⟨entries, hentries⟩ := h
  rw [get?_append, Option.bind_eq_some_iff] at hentries
  obtain ⟨node, hnode, hentries⟩ := hentries
  cases node with
  | directory entries => exact ⟨entries, hnode⟩
  | file data executable => cases back <;> simp [get?, Node.entries, child?] at hentries
  | link target => cases back <;> simp [get?, Node.entries, child?] at hentries

theorem DirAt.of_below {root : Node} {front place : List String} (h : root.DirAt place)
    (hle : front <+: place) : root.DirAt front := by
  obtain ⟨back, rfl⟩ := hle
  exact h.of_append

/-- What stands in a directory is above every other node below it. -/
theorem dirAt_of_get? {root node : Node} {place : List String} {name : String}
    (h : root.get? (place ++ [name]) = some node) : root.DirAt place := by
  rw [get?_append, Option.bind_eq_some_iff] at h
  obtain ⟨parent, hparent, h⟩ := h
  cases parent with
  | directory entries => exact ⟨entries, hparent⟩
  | file data executable => simp [get?, Node.entries, child?] at h
  | link target => simp [get?, Node.entries, child?] at h

theorem DirAt.of_get? {root node : Node} {front place : List String}
    (h : root.get? place = some node) (hle : front <+: place) (hne : front ≠ place) :
    root.DirAt front := by
  obtain ⟨back, rfl⟩ := hle
  rcases List.eq_nil_or_concat back with rfl | ⟨back, name, rfl⟩
  · simp at hne
  · rw [List.concat_eq_append, ← List.append_assoc] at h
    exact (dirAt_of_get? h).of_append

theorem not_dirAt_of_none {root : Node} {place : List String} (h : root.get? place = none) :
    ¬ root.DirAt place := by
  rintro ⟨entries, hentries⟩
  rw [h] at hentries
  cases hentries

theorem not_fileAt_of_none {root : Node} {place : List String} (h : root.get? place = none) :
    ¬ root.FileAt place := by
  rintro ⟨data, mode, hfile⟩
  rw [h] at hfile
  cases hfile

theorem FileAt.not_dirAt {root : Node} {place : List String} (h : root.FileAt place) :
    ¬ root.DirAt place := by
  rintro ⟨entries, hentries⟩
  obtain ⟨data, executable, hfile⟩ := h
  rw [hfile] at hentries
  cases hentries

/-! ## Entries -/

theorem child?_eq_none_of_lt {name : String} {entries : List (String × Node)}
    (h : ∀ other ∈ entries.map Prod.fst, name < other) : child? name entries = none := by
  induction entries with
  | nil => rfl
  | cons entry entries ih =>
    rw [List.map_cons, List.forall_mem_cons] at h
    have hne : entry.1 ≠ name := fun heq => String.lt_irrefl name (heq ▸ h.1)
    rw [child?, if_neg hne, ih h.2]

theorem mem_of_child? {name : String} {node : Node} {entries : List (String × Node)}
    (h : child? name entries = some node) : (name, node) ∈ entries := by
  induction entries with
  | nil => cases h
  | cons entry entries ih =>
    rw [child?] at h
    split at h
    · next heq =>
      cases h
      subst heq
      exact List.mem_cons_self ..
    · exact List.mem_cons_of_mem _ (ih h)

theorem child?_of_mem {name : String} {node : Node} {entries : List (String × Node)}
    (hordered : (entries.map Prod.fst).Pairwise (· < ·)) (h : (name, node) ∈ entries) :
    child? name entries = some node := by
  induction entries with
  | nil => cases h
  | cons entry entries ih =>
    rw [List.map_cons, List.pairwise_cons] at hordered
    rw [List.mem_cons] at h
    obtain rfl | h := h
    · rw [child?, if_pos rfl]
    · have hlt : entry.1 < name := hordered.1 name (List.mem_map_of_mem h)
      have hne : entry.1 ≠ name := fun heq => String.lt_irrefl name (heq ▸ hlt)
      rw [child?, if_neg hne, ih hordered.2 h]

/-- In an ordered directory a change of an entry is seen under its name. -/
theorem child?_setChild_self {name : String} (node? : Option Node)
    {entries : List (String × Node)} (h : (entries.map Prod.fst).Pairwise (· < ·)) :
    child? name (setChild name node? entries) = node? := by
  cases node? with
  | some node => exact child?_setChild_some node entries
  | none =>
    induction entries with
    | nil => rfl
    | cons entry entries ih =>
      rw [List.map_cons, List.pairwise_cons] at h
      rw [setChild]
      split
      · next heq => exact child?_eq_none_of_lt (heq ▸ h.1)
      · next hne =>
        split
        · next hlt =>
          refine child?_eq_none_of_lt (List.forall_mem_cons.2 ⟨hlt, fun other hother => ?_⟩)
          exact String.lt_trans hlt (h.1 other hother)
        · rw [child?, if_neg hne, ih h.2]

theorem mem_setChild {name : String} {node? : Option Node} {entries : List (String × Node)}
    {entry : String × Node} (h : entry ∈ setChild name node? entries) :
    entry ∈ entries ∨ entry.1 = name ∧ node? = some entry.2 := by
  have hnew : entry ∈ node?.toList.map (name, ·) → entry.1 = name ∧ node? = some entry.2 := by
    intro h
    obtain ⟨node, hnode, rfl⟩ := List.mem_map.1 h
    exact ⟨rfl, Option.mem_toList.1 hnode⟩
  induction entries with
  | nil => exact .inr (hnew h)
  | cons first entries ih =>
    rw [setChild] at h
    split at h
    · obtain h | h := List.mem_append.1 h
      · exact .inr (hnew h)
      · exact .inl (List.mem_cons_of_mem _ h)
    · split at h
      · exact (List.mem_append.1 h).elim (fun h => .inr (hnew h)) .inl
      · obtain rfl | h := List.mem_cons.1 h
        · exact .inl (List.mem_cons_self ..)
        · exact (ih h).imp_left (List.mem_cons_of_mem _)

theorem ordered_setChild {name : String} (node? : Option Node) {entries : List (String × Node)}
    (h : (entries.map Prod.fst).Pairwise (· < ·)) :
    ((setChild name node? entries).map Prod.fst).Pairwise (· < ·) := by
  induction entries with
  | nil => cases node? <;> simp [setChild]
  | cons first entries ih =>
    rw [List.map_cons, List.pairwise_cons] at h
    rw [setChild]
    split
    · next heq =>
      subst heq
      cases node? with
      | none => exact h.2
      | some node => exact List.pairwise_cons.2 h
    · next hne =>
      split
      · next hlt =>
        cases node? with
        | none => exact List.pairwise_cons.2 h
        | some node =>
          refine List.pairwise_cons.2 ⟨List.forall_mem_cons.2 ⟨hlt, fun other hother => ?_⟩,
            List.pairwise_cons.2 h⟩
          exact String.lt_trans hlt (h.1 other hother)
      · next hnot =>
        refine List.pairwise_cons.2 ⟨fun other hother => ?_, ih h.2⟩
        obtain ⟨entry, hentry, rfl⟩ := List.mem_map.1 hother
        obtain hold | ⟨heq, -⟩ := mem_setChild hentry
        · exact h.1 _ (List.mem_map_of_mem hold)
        · rw [heq]
          grind

theorem setChild_setChild (name : String) (new : Node) (node? : Option Node)
    (entries : List (String × Node)) :
    setChild name node? (setChild name (some new) entries) = setChild name node? entries := by
  induction entries with
  | nil => simp [setChild]
  | cons first entries ih =>
    rw [setChild, setChild]
    split
    · simp [setChild]
    · next hne =>
      split
      · simp [setChild]
      · next hnot => rw [setChild, if_neg hne, if_neg hnot, ih]

/-- Taking out an entry that was not there before. -/
theorem setChild_none_setChild {name : String} (new : Node) {entries : List (String × Node)}
    (h : child? name entries = none) :
    setChild name none (setChild name (some new) entries) = entries := by
  rw [setChild_setChild]
  induction entries with
  | nil => rfl
  | cons first entries ih =>
    rw [child?] at h
    split at h
    · cases h
    · next hne =>
      rw [setChild, if_neg hne]
      split
      · rfl
      · rw [ih h]

theorem setChild_self {name : String} {node : Node} {entries : List (String × Node)}
    (hordered : (entries.map Prod.fst).Pairwise (· < ·)) (h : child? name entries = some node) :
    setChild name (some node) entries = entries := by
  induction entries with
  | nil => cases h
  | cons first entries ih =>
    rw [List.map_cons, List.pairwise_cons] at hordered
    rw [child?] at h
    split at h
    · next heq =>
      cases h
      subst heq
      simp [setChild]
    · next hne =>
      have hlt : first.1 < name := hordered.1 name (List.mem_map_of_mem (mem_of_child? h))
      rw [setChild, if_neg hne, if_neg (String.lt_asymm hlt), ih hordered.2 h]

/-! ## Plain trees -/

theorem Plain.of_get? {root node : Node} {place : List String} (h : root.Plain)
    (hnode : root.get? place = some node) : node.Plain := by
  have hsub : ∀ more, root.get? (place ++ more) = node.get? more := by
    intro more
    rw [get?_append, hnode, Option.bind_some]
  exact ⟨fun more target => hsub more ▸ h.linkless (place ++ more) target,
    fun more entries hentries => h.named (place ++ more) entries (hsub more ▸ hentries),
    fun more entries hentries => h.ordered (place ++ more) entries (hsub more ▸ hentries)⟩

/-- Below a node that holds no entries there is nothing else. -/
private theorem get?_leaf {node leaf : Node} {place : List String} (h : leaf.entries = [])
    (hnode : leaf.get? place = some node) : node = leaf := by
  cases place with
  | nil => exact (Option.some.inj hnode).symm
  | cons name place => simp [get?, h, child?] at hnode

theorem plain_file (data : ByteArray) (executable : Bool) : (file data executable).Plain := by
  refine ⟨fun place target h => ?_, fun place entries h => ?_, fun place entries h => ?_⟩
  · cases get?_leaf rfl h
  · cases get?_leaf rfl h
  · cases get?_leaf rfl h

theorem plain_directory_iff {entries : List (String × Node)} :
    (directory entries).Plain ↔ (∀ entry ∈ entries, IsName entry.1 ∧ entry.2.Plain) ∧
      (entries.map Prod.fst).Pairwise (· < ·) := by
  constructor
  · intro h
    have hordered := h.ordered [] entries rfl
    refine ⟨fun entry hentry => ⟨h.named [] entries rfl entry hentry, ?_⟩, hordered⟩
    have hchild : (directory entries).get? [entry.1] = some entry.2 := by
      rw [get?, Node.entries, child?_of_mem hordered hentry]
      rfl
    exact h.of_get? hchild
  · rintro ⟨hentries, hordered⟩
    have hsub : ∀ name place node, (directory entries).get? (name :: place) = some node →
        ∃ child : Node, child.Plain ∧ child.get? place = some node := by
      intro name place node h
      rw [get?, Option.bind_eq_some_iff] at h
      obtain ⟨child, hchild, h⟩ := h
      exact ⟨child, (hentries _ (mem_of_child? hchild)).2, h⟩
    refine ⟨fun place target h => ?_, fun place es h => ?_, fun place es h => ?_⟩ <;>
      cases place with
      | nil =>
        cases h <;> first | exact hordered | exact fun entry hentry => (hentries entry hentry).1
      | cons name place =>
        obtain ⟨child, hchild, h⟩ := hsub _ _ _ h
        first
          | exact hchild.linkless _ _ h
          | exact hchild.named _ _ h
          | exact hchild.ordered _ _ h

theorem plain_empty : (directory []).Plain := plain_directory_iff.2 ⟨by simp, by simp⟩

theorem Plain.child {entries : List (String × Node)} (h : (directory entries).Plain) {name : String}
    {node : Node} (hchild : child? name entries = some node) : node.Plain :=
  ((plain_directory_iff.1 h).1 _ (mem_of_child? hchild)).2

private theorem Plain.setChild {entries : List (String × Node)} (h : (directory entries).Plain)
    {name : String} {node? : Option Node}
    (hnode : ∀ node, node? = some node → IsName name ∧ node.Plain) :
    (directory (setChild name node? entries)).Plain := by
  obtain ⟨hentries, hordered⟩ := plain_directory_iff.1 h
  refine plain_directory_iff.2 ⟨fun entry hentry => ?_, ordered_setChild node? hordered⟩
  obtain hold | ⟨heq, hnew⟩ := mem_setChild hentry
  · exact hentries entry hold
  · rw [heq]
    exact hnode _ hnew

theorem Plain.isName {root node : Node} (h : root.Plain) {parent : List String} {name : String}
    (hnode : root.get? (parent ++ [name]) = some node) : IsName name := by
  obtain ⟨entries, hentries⟩ := dirAt_of_get? hnode
  rw [get?_append, hentries, Option.bind_some, get?, Option.bind_eq_some_iff] at hnode
  obtain ⟨child, hchild, -⟩ := hnode
  exact h.named parent entries hentries _ (mem_of_child? hchild)

/-- Where no directories are, trees of the same files have the same. -/
theorem Plain.get?_eq_of_files {root root' : Node} (h : root.Plain) (h' : root'.Plain)
    {place : List String} (hdir : ¬ root.DirAt place) (hdir' : ¬ root'.DirAt place)
    (hfile : ∀ data executable, root'.get? place = some (file data executable) ↔
      root.get? place = some (file data executable)) : root'.get? place = root.get? place := by
  cases hnode : root.get? place with
  | some node =>
    cases node with
    | file data executable => exact (hfile data executable).2 hnode
    | link target => exact absurd hnode (h.linkless _ _)
    | directory entries => exact absurd ⟨entries, hnode⟩ hdir
  | none =>
    cases hnode' : root'.get? place with
    | none => rfl
    | some node =>
      cases node with
      | file data executable =>
        rw [(hfile data executable).1 hnode'] at hnode
        cases hnode
      | link target => exact absurd hnode' (h'.linkless _ _)
      | directory entries => exact absurd ⟨entries, hnode'⟩ hdir'

/-! ## Changes of plain trees -/

theorem alter_cons {f : Option Node → Option Node} {name second : String} {place : List String}
    {entries : List (String × Node)} {child : Node} (h : child? name entries = some child) :
    (directory entries).alter f (name :: second :: place)
      = directory (setChild name (some (child.alter f (second :: place))) entries) := by
  simp only [alter, h]

theorem get?_singleton (entries : List (String × Node)) (name : String) :
    (directory entries).get? [name] = child? name entries := by
  rw [get?, Node.entries]
  cases child? name entries <;> rfl

/-- A plain node under a proper name keeps a tree plain. -/
theorem Plain.alter {root : Node} (h : root.Plain) {f : Option Node → Option Node}
    {place : List String} (hf : ∀ node, f (root.get? place) = some node →
      (∀ name, place.getLast? = some name → IsName name) ∧ node.Plain) :
    (root.alter f place).Plain := by
  induction place generalizing root with
  | nil => exact h
  | cons name place ih =>
    cases root with
    | file data executable => cases place <;> exact h
    | link target => cases place <;> exact h
    | directory entries =>
      cases place with
      | nil =>
        rw [get?_singleton] at hf
        exact h.setChild fun node hnode => (hf node hnode).imp_left fun hname => hname name rfl
      | cons second place =>
        cases hchild : child? name entries with
        | none => simpa only [Node.alter, hchild] using h
        | some child =>
          obtain ⟨hname, hplain⟩ := (plain_directory_iff.1 h).1 _ (mem_of_child? hchild)
          rw [get?, Node.entries, hchild, Option.bind_some] at hf
          rw [alter_cons hchild]
          refine h.setChild fun node hnode => ⟨hname, ?_⟩
          cases hnode
          refine ih hplain fun node hnode => (hf node hnode).imp_left fun hlast name hname => ?_
          exact hlast name (by rwa [List.getLast?_cons_cons])

/-- A change is seen at its own place. -/
theorem Plain.get?_alter_self {root : Node} (h : root.Plain) {f : Option Node → Option Node}
    {parent : List String} {name : String} (hparent : root.DirAt parent) :
    (root.alter f (parent ++ [name])).get? (parent ++ [name])
      = f (root.get? (parent ++ [name])) := by
  obtain ⟨entries, hentries⟩ := hparent
  induction parent generalizing root with
  | nil =>
    cases hentries
    have hordered := h.ordered [] entries rfl
    rw [List.nil_append, Node.alter, get?_singleton, get?_singleton,
      child?_setChild_self _ hordered]
  | cons first parent ih =>
    cases root with
    | file data executable => simp [get?, Node.entries, child?] at hentries
    | link target => simp [get?, Node.entries, child?] at hentries
    | directory es =>
      rw [get?, Node.entries, Option.bind_eq_some_iff] at hentries
      obtain ⟨child, hchild, hentries⟩ := hentries
      have hrec := ih (h.child hchild) hentries
      cases hplace : parent ++ [name] with
      | nil => simp at hplace
      | cons second more =>
        rw [hplace] at hrec
        rw [List.cons_append, hplace, alter_cons hchild, get?, get?, Node.entries, Node.entries,
          child?_setChild_some, hchild, Option.bind_some, Option.bind_some, hrec]

/-- What is above the place of a change changes in the same way. -/
theorem get?_alter_append (f : Option Node → Option Node) (root : Node) (front : List String)
    {back : List String} (hback : back ≠ []) :
    (root.alter f (front ++ back)).get? front = (root.get? front).map (·.alter f back) := by
  induction front generalizing root with
  | nil => rfl
  | cons name front ih =>
    obtain ⟨second, more, hplace⟩ : ∃ second more, front ++ back = second :: more :=
      List.exists_cons_of_ne_nil (by simp [hback])
    rw [hplace] at ih
    rw [List.cons_append, hplace]
    cases root with
    | file data executable => rfl
    | link target => rfl
    | directory entries =>
      cases hchild : child? name entries with
      | none => simp [Node.alter, hchild, get?, Node.entries]
      | some child =>
        rw [alter_cons hchild, get?, get?, Node.entries, Node.entries, child?_setChild_some, hchild,
          Option.bind_some, Option.bind_some, ih]

/-- What is neither at nor below the place of a change changes at most below itself. -/
theorem get?_alter_of_not_below (f : Option Node → Option Node) (root : Node)
    {place other : List String} (h : ¬ place <+: other) :
    ∃ back, (root.alter f place).get? other = (root.get? other).map (·.alter f back) := by
  by_cases habove : other <+: place
  · obtain ⟨back, rfl⟩ := habove
    refine ⟨back, get?_alter_append f root other ?_⟩
    rintro rfl
    exact h (by simp)
  · refine ⟨[], ?_⟩
    rw [get?_alter_of_disjoint f root h habove]
    cases root.get? other <;> rfl

/-- A change below a node leaves it a directory, a file or a link. -/
theorem exists_alter_directory (f : Option Node → Option Node) (place : List String)
    (entries : List (String × Node)) :
    ∃ entries', (directory entries).alter f place = directory entries' := by
  cases place with
  | nil => exact ⟨entries, rfl⟩
  | cons name place =>
    cases place with
    | nil => exact ⟨_, rfl⟩
    | cons second place =>
      cases hchild : child? name entries with
      | none => exact ⟨entries, by simp only [alter, hchild]⟩
      | some child => exact ⟨_, alter_cons hchild⟩

theorem alter_file (f : Option Node → Option Node) (place : List String) (data : ByteArray)
    (executable : Bool) : (file data executable).alter f place = file data executable := by
  cases place with
  | nil => rfl
  | cons name place => cases place <;> rfl

theorem alter_link (f : Option Node → Option Node) (place : List String) (target : String) :
    (link target).alter f place = link target := by
  cases place with
  | nil => rfl
  | cons name place => cases place <;> rfl

/-- The directories are the same but for those at and below the place of a change. -/
theorem dirAt_alter_iff {root : Node} {place other : List String} (f : Option Node → Option Node)
    (hbelow : ¬ place <+: other) : (root.alter f place).DirAt other ↔ root.DirAt other := by
  obtain ⟨back, hback⟩ := get?_alter_of_not_below f root hbelow
  rw [DirAt, DirAt, hback]
  cases root.get? other with
  | none => simp
  | some node =>
    cases node with
    | file data executable => simp [alter_file]
    | link target => simp [alter_link]
    | directory entries =>
      obtain ⟨entries', hentries'⟩ := exists_alter_directory f back entries
      simp [hentries']

/-- The files are the same but for those at and below the place of a change. -/
theorem get?_alter_eq_file_iff {root : Node} {place other : List String} (data : ByteArray)
    (executable : Bool) (f : Option Node → Option Node) (hbelow : ¬ place <+: other) :
    (root.alter f place).get? other = some (.file data executable) ↔
      root.get? other = some (.file data executable) := by
  obtain ⟨back, hback⟩ := get?_alter_of_not_below f root hbelow
  rw [hback]
  cases hnode : root.get? other with
  | none => simp
  | some node =>
    rw [Option.map_some]
    cases node with
    | file data executable => rw [alter_file]
    | link target => rw [alter_link]
    | directory entries =>
      obtain ⟨entries', hentries'⟩ := exists_alter_directory f back entries
      simp [hentries']

theorem get?_eq_none_of_not_dirAt {root : Node} {place other : List String}
    (h : ¬ root.DirAt place) (hle : place <+: other) (hne : place ≠ other) :
    root.get? other = none :=
  Option.eq_none_iff_forall_not_mem.2 fun _ hnode => h (DirAt.of_get? hnode hle hne)

/-- A change of an entry that is no directory before and after is seen at and above it only. -/
theorem get?_alter_of_leaf {root : Node} (hplain : root.Plain) {place other : List String}
    {f : Option Node → Option Node} (hbefore : ¬ root.DirAt place)
    (hafter : ∀ entries, f (root.get? place) ≠ some (directory entries))
    (hother : ¬ other <+: place) : (root.alter f place).get? other = root.get? other := by
  by_cases hbelow : place <+: other
  · have hne : place ≠ other := by
      rintro rfl
      exact hother (List.prefix_refl _)
    have hnot : ¬ (root.alter f place).DirAt place := by
      rcases List.eq_nil_or_concat place with rfl | ⟨parent, name, rfl⟩
      · exact hbefore
      · rintro hdir
        rw [List.concat_eq_append] at hdir hafter
        have hshort : ¬ parent ++ [name] <+: parent := fun h => by
          have := h.length_le
          rw [List.length_append, List.length_singleton] at this
          omega
        have hparent : root.DirAt parent := (dirAt_alter_iff f hshort).1 hdir.of_append
        obtain ⟨entries, hentries⟩ := hdir
        rw [hplain.get?_alter_self hparent] at hentries
        exact hafter entries hentries
    rw [get?_eq_none_of_not_dirAt hnot hbelow hne, get?_eq_none_of_not_dirAt hbefore hbelow hne]
  · exact get?_alter_of_disjoint f root hbelow hother

/-- Such a change leaves the files in all other places. -/
theorem hasFile_alter_of_leaf {root : Node} (hplain : root.Plain) {place other : List String}
    {f : Option Node → Option Node} (hbefore : ¬ root.DirAt place)
    (hafter : ∀ entries, f (root.get? place) ≠ some (directory entries)) (hne : place ≠ other)
    (data : ByteArray) : (root.alter f place).HasFile other data ↔ root.HasFile other data := by
  refine exists_congr fun executable => ?_
  by_cases hle : place <+: other
  · have hother : ¬ other <+: place := fun hle' => hne (hle.eq_of_length_le hle'.length_le)
    rw [get?_alter_of_leaf hplain hbefore hafter hother]
  · exact get?_alter_eq_file_iff data executable f hle

/-- What a file in the place of another changes. -/
theorem Plain.put_file {root : Node} (h : root.Plain) {parent : List String} {name : String}
    (hfile : root.FileAt (parent ++ [name])) (data : ByteArray) (executable : Bool) :
    (root.put (parent ++ [name]) (.file data executable)).Plain ∧
      (root.put (parent ++ [name]) (.file data executable)).get? (parent ++ [name])
        = some (.file data executable) ∧
      (∀ other, ¬ other <+: parent ++ [name] →
        (root.put (parent ++ [name]) (.file data executable)).get? other = root.get? other) ∧
      ∀ other, root.DirAt other →
        (root.put (parent ++ [name]) (.file data executable)).DirAt other := by
  have hnot := hfile.not_dirAt
  obtain ⟨old, mode, hold⟩ := hfile
  refine ⟨h.alter fun node hnode => ?_, h.get?_alter_self (dirAt_of_get? hold),
    fun other hother => get?_alter_of_leaf h hnot (fun entries => by simp) hother,
    fun other hother => (dirAt_alter_iff _ fun hle => hnot (hother.of_below hle)).2 hother⟩
  cases hnode
  exact ⟨by simpa using h.isName hold, plain_file _ _⟩

/-- Whether the directories of a tree hold their entries in the order of the names. -/
def Ordered (root : Node) : Prop :=
  ∀ place entries, root.get? place = some (.directory entries) →
    (entries.map Prod.fst).Pairwise (· < ·)

theorem Ordered.child {entries : List (String × Node)} (h : (directory entries).Ordered)
    {name : String} {node : Node} (hchild : child? name entries = some node) : node.Ordered := by
  intro place es hes
  refine h (name :: place) es ?_
  rw [get?, Node.entries, hchild, Option.bind_some, hes]

/-- Taking out what was put where nothing was leaves the tree as it was. -/
theorem Ordered.erase_put {root : Node} (h : root.Ordered) {parent : List String} {name : String}
    (hparent : root.DirAt parent) (hvacant : root.get? (parent ++ [name]) = none) (new : Node) :
    (root.put (parent ++ [name]) new).erase (parent ++ [name]) = root := by
  obtain ⟨entries, hentries⟩ := hparent
  induction parent generalizing root with
  | nil =>
    cases hentries
    rw [List.nil_append, get?_singleton] at hvacant
    rw [List.nil_append, put, erase, Node.alter, Node.alter, setChild_none_setChild new hvacant]
  | cons first parent ih =>
    cases root with
    | file data executable => simp [get?, Node.entries, child?] at hentries
    | link target => simp [get?, Node.entries, child?] at hentries
    | directory es =>
      rw [get?, Node.entries, Option.bind_eq_some_iff] at hentries
      obtain ⟨child, hchild, hentries⟩ := hentries
      rw [List.cons_append, get?, Node.entries, hchild, Option.bind_some] at hvacant
      have hrec := ih (h.child hchild) hvacant hentries
      cases hplace : parent ++ [name] with
      | nil => simp at hplace
      | cons second more =>
        rw [hplace, put, erase] at hrec
        rw [List.cons_append, hplace, put, erase, alter_cons hchild,
          alter_cons (child?_setChild_some _ _), setChild_setChild, hrec,
          setChild_self (h [] es rfl) hchild]

theorem Plain.erase_put {root : Node} (h : root.Plain) {parent : List String} {name : String}
    (hparent : root.DirAt parent) (hvacant : root.get? (parent ++ [name]) = none) (new : Node) :
    (root.put (parent ++ [name]) new).erase (parent ++ [name]) = root :=
  Ordered.erase_put h.ordered hparent hvacant new

end Node

end StubManager
