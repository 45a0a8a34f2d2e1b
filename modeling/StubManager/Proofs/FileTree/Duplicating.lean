import StubManager.Proofs.FileTree.Copying
import StubManager.Proofs.FileTree.Links
import StubManager.Proofs.FileTree.Tidy

/-!
# Copies beside links

Copies of tidy trees in worlds that may have links elsewhere and list entries in any order.
`Grown place w w'` says that on the way from `w` to `w'` the tree has grown at one place only. Main
statement: `duplicates_copyTreeWithin`, what a copy leaves at its place is plain and has the files
of the tree it was made of.
-/

namespace StubManager

open Node Running

/-- What stays as it is when a tree grows at one place. -/
structure Grown (place : List String) (w w' : World) : Prop where
  cwd : w'.cwd = w.cwd
  grows : w.root.Grows w'.root
  apart : ∀ other, ¬ place <+: other → ¬ other <+: place → w'.root.get? other = w.root.get? other
  /-- What is above the place stays plain if it was. -/
  plain : ∀ above node, above <+: place → above ≠ place → w.root.get? above = some node →
    node.Plain → ∃ node', w'.root.get? above = some node' ∧ node'.Plain

namespace Grown

variable {place : List String} {w w' w'' : World}

theorem trans (h : Grown place w w') (h' : Grown place w' w'') : Grown place w w'' where
  cwd := h'.cwd.trans h.cwd
  grows := h.grows.trans h'.grows
  apart other hbelow habove := (h'.apart other hbelow habove).trans (h.apart other hbelow habove)
  plain above node hle hne hnode hplain := by
    obtain ⟨node', hnode', hplain'⟩ := h.plain above node hle hne hnode hplain
    exact h'.plain above node' hle hne hnode' hplain'

/-- Growth below a place is growth at it. -/
theorem of_below {name : String} (h : Grown (place ++ [name]) w w') : Grown place w w' where
  cwd := h.cwd
  grows := h.grows
  apart other hbelow habove := by
    refine h.apart other (fun hle => hbelow ((List.prefix_append _ _).trans hle)) fun hle => ?_
    obtain heq | hle := List.prefix_concat_iff.1 hle
    · exact hbelow (heq ▸ List.prefix_append _ _)
    · exact habove hle
  plain above node hle hne := by
    refine h.plain above node (hle.trans (List.prefix_append _ _)) ?_
    rintro rfl
    exact not_concat_le _ _ hle

/-- A plain node where nothing was, or a file in the place of a file. -/
theorem put {parent : List String} {name : String} {new : Node} (hparent : w.root.DirAt parent)
    (hname : IsName name) (hnew : new.Plain)
    (hold : ∀ node, w.root.get? (parent ++ [name]) = some node →
      node.SameKind new ∧ node.isFile) :
    Grown (parent ++ [name]) w (w.put (parent ++ [name]) new) where
  cwd := rfl
  grows := grows_put hparent hold
  apart other hbelow habove := get?_alter_of_disjoint _ w.root hbelow habove
  plain above node hle hne hnode hplain := by
    obtain ⟨back, hback⟩ := hle
    have hback' : back ≠ [] := by
      rintro rfl
      exact hne (by rw [← hback, List.append_nil])
    refine ⟨node.alter (fun _ => some new) back, ?_, hplain.alter fun node' heq => ?_⟩
    · rw [World.put, Node.put, ← hback, get?_alter_append _ _ _ hback', hnode, Option.map_some]
    · cases heq
      refine ⟨fun last hlast => ?_, hnew⟩
      have := congrArg List.getLast? hback
      rw [List.getLast?_append_of_ne_nil _ hback', hlast, List.getLast?_concat] at this
      exact Option.some.inj this ▸ hname

end Grown

namespace Files

open World

variable {w w' : World} {source t : Path} {name : String} {s place : List String}

theorem exists_locate_of_find? {node : Node} (h : w.find? source = some node) :
    ∃ stop, w.locate true source = .ok stop := by
  rw [find?] at h
  split at h
  · next place hlocate => exact ⟨_, hlocate⟩
  · cases h

/-! ## Files -/

/-- A file that is copied is read before and after the target is emptied. -/
theorem of_copyFile {target : Path} (h : copyFile source target w = (.ok (), w')) :
    ∃ data mode w₁ again, w.find? source = some (.file data mode) ∧
      writeWith (some mode) target ByteArray.empty w = (.ok (), w₁) ∧
      read source w₁ = (.ok again, w₁) ∧ writeWith none target again w₁ = (.ok (), w') := by
  rw [copyFile, bind_apply, ask_apply] at h
  dsimp only at h
  split at h
  · rw [bind_eq_ok_iff] at h
    obtain ⟨_, w₁, hthrow, -⟩ := h
    cases hthrow
  rw [bind_eq_ok_iff] at h
  obtain ⟨data, w₁, hread, h⟩ := h
  obtain ⟨fault, heq⟩ | ⟨data', mode, hfind, heq⟩ := read_cases (w := w) source
  · rw [heq] at hread
    cases hread
  rw [heq] at hread
  cases hread
  rw [bind_apply, ask_apply] at h
  simp only [hfind] at h
  rw [bind_eq_ok_iff] at h
  obtain ⟨⟨⟩, w₂, hempty, h⟩ := h
  rw [bind_eq_ok_iff] at h
  obtain ⟨again, w₃, hagain, h⟩ := h
  obtain ⟨fault, heq⟩ | ⟨data'', mode', -, heq⟩ := read_cases (w := w₂) source
  · rw [heq] at hagain
    cases hagain
  · rw [heq] at hagain
    cases hagain
    exact ⟨_, mode, w₂, _, hfind, hempty, heq, h⟩

/-- A file that is written where nothing was. -/
theorem writeWith_of_vacant (ht : w.locate true t = .ok (.node place)) (hdir : w.root.DirAt place)
    (hname : IsName name) (hvacant : w.root.get? (place ++ [name]) = none)
    {executable : Option Bool} {data : ByteArray}
    (h : writeWith executable (t.join name) data w = (.ok (), w')) :
    Fits t name ∧ w' = w.put (place ++ [name]) (.file data (executable.getD false)) := by
  rw [writeWith, bind_apply, orFault_apply] at h
  cases hlocate : w.locate true (t.join name) with
  | error fault =>
    rw [hlocate] at h
    cases h
  | ok stop =>
    have hfits := fits_of_locate hname hlocate
    rw [locate_join_of_vacant ht hname hfits hdir hvacant] at h
    cases h
    exact ⟨hfits, rfl⟩

/-- A file that is written in the place of another. -/
theorem writeWith_of_file (ht : w.locate true t = .ok (.node place)) (hname : IsName name)
    (hfits : Fits t name) {old : ByteArray} {mode : Bool}
    (hold : w.root.get? (place ++ [name]) = some (.file old mode)) (executable : Option Bool)
    (data : ByteArray) :
    writeWith executable (t.join name) data w
      = (.ok (), w.put (place ++ [name]) (.file data (executable.getD mode))) := by
  rw [writeWith, bind_apply, orFault_apply, locate_join_of_node ht hname hfits hold (by simp)]
  simp only [bind_apply, get_apply, hold]
  rfl

/-- A tidy tree at the place of a path, without the excluded names, and a directory that holds
nothing yet under the name of its copy and does not lie in it. -/
structure Duplicable (exclude : List String) (w : World) (source t : Path) (name : String)
    (s place : List String) (node : Node) : Prop where
  located : w.locate true source = .ok (.node s)
  found : w.root.get? s = some node
  tidy : node.Tidy
  clear : ∀ names n, node.get? names = some n → ∀ name ∈ names, name ∉ exclude
  holder : w.locate true t = .ok (.node place)
  dir : w.root.DirAt place
  named : IsName name
  short : name.utf8ByteSize ≤ nameLimit
  vacant : w.root.get? (place ++ [name]) = none
  apart : ¬ s <+: place ++ [name]

theorem Duplicable.not_below {exclude : List String} {node : Node}
    (h : Duplicable exclude w source t name s place node) : ¬ place ++ [name] <+: s := by
  rintro ⟨back, rfl⟩
  have hfound := h.found
  rw [get?_append, h.vacant] at hfound
  cases hfound

/-- What an action leaves of a node at a place: the place fits, the tree has grown there and nowhere
else, and the node there is plain and has the same files. Its first names fit as well. -/
structure Duplicated (w w' : World) (t : Path) (name : String) (place : List String)
    (node node' : Node) : Prop where
  fits : Fits t name
  grown : Grown (place ++ [name]) w w'
  found : w'.root.get? (place ++ [name]) = some node'
  plain : node'.Plain
  same : ∀ names data, node.HasFile names data ↔ node'.HasFile names data
  first : ∀ first, (node.get? [first]).isSome → Fits (t.join name) first

/-- Whether an action that succeeds has made a copy. -/
def Duplicates (exclude : List String) (action : Path → Path → FileAction Unit) : Prop :=
  ∀ ⦃w w' : World⦄ ⦃source t : Path⦄ ⦃name : String⦄ ⦃s place : List String⦄ ⦃node : Node⦄,
    Duplicable exclude w source t name s place node →
    action source (t.join name) w = (.ok (), w') → ∃ node', Duplicated w w' t name place node node'

theorem duplicates_copyFile (exclude : List String) : Duplicates exclude copyFile := by
  intro w w' source t name s place node h hrun
  obtain ⟨data, mode, w₁, again, hfind, hempty, hagain, hwrite⟩ := of_copyFile hrun
  obtain rfl : node = .file data mode := by
    rw [find?, h.located] at hfind
    exact Option.some.inj (h.found.symm.trans hfind)
  obtain ⟨hfits, hw₁⟩ := writeWith_of_vacant h.holder h.dir h.named h.vacant hempty
  rw [Option.getD_some] at hw₁
  subst hw₁
  have hgrown : Grown (place ++ [name]) w (w.put (place ++ [name]) (.file ByteArray.empty mode)) :=
    .put h.dir h.named (plain_file _ _) (by simp [h.vacant])
  have hthere : (w.put (place ++ [name]) (.file ByteArray.empty mode)).root.get? (place ++ [name])
      = some (.file ByteArray.empty mode) := by
    obtain ⟨entries, hentries⟩ := h.dir
    exact get?_put _ hentries
  have hsource : (w.put (place ++ [name]) (.file ByteArray.empty mode)).find? source
      = some (.file data mode) := by
    rw [find?, locate_of_grows h.located hgrown.grows rfl]
    exact (hgrown.apart s h.not_below h.apart).trans h.found
  rw [read_of_find? hsource] at hagain
  cases hagain
  have hholder := locate_of_grows h.holder hgrown.grows rfl
  rw [writeWith_of_file hholder h.named hfits hthere] at hwrite
  cases hwrite
  refine ⟨.file data mode, hfits, hgrown.trans (.put (hgrown.grows.dirAt h.dir) h.named
    (plain_file _ _) fun node hnode => ?_), ?_, plain_file _ _, fun _ _ => Iff.rfl, ?_⟩
  · rw [hthere] at hnode
    cases hnode
    exact ⟨trivial, rfl⟩
  · obtain ⟨entries, hentries⟩ := hgrown.grows.dirAt h.dir
    exact get?_put _ hentries
  · simp [get?, Node.entries, child?]

/-! ## Directories -/

/-- A directory is made where nothing was, or not at all. -/
theorem of_makeDirectories {exclude : List String} {node : Node}
    (h : Duplicable exclude w source t name s place node)
    (hrun : makeDirectories (t.join name) w = (.ok (), w')) :
    Fits t name ∧ w' = w.put (place ++ [name]) (.directory []) := by
  have htext := Path.text_ne_of_endsWith h.named (Path.endsWith_join t h.named)
  rw [makeDirectories, Path.ancestors, makeFirst, if_neg htext, tryCatch_apply] at hrun
  by_cases hpath : pathFault? (t.join name) = none
  · have hfits : Fits t name := ⟨hpath, h.short⟩
    rw [makeDirectory, bind_apply, orFault_apply,
      locate_join_of_vacant h.holder h.named hfits h.dir h.vacant] at hrun
    cases hrun
    exact ⟨hfits, rfl⟩
  · obtain ⟨fault, hfault⟩ := Option.ne_none_iff_exists'.1 hpath
    have hlocate : ∀ followLast, w.locate followLast (t.join name) = .error fault := by
      intro followLast
      rw [locate, hfault]
    have hmissing : w.isDirectory (t.join name) = false := by
      rw [World.isDirectory, find?, hlocate]
      rfl
    have hkind : fault ≠ .notFound := by
      rintro rfl
      rw [pathFault?] at hfault
      simp only [htext, if_false] at hfault
      split at hfault
      · cases hfault
      · split at hfault <;> cases hfault
    rw [makeDirectory, bind_apply, orFault_apply, hlocate] at hrun
    dsimp only at hrun
    split at hrun
    · next heq => exact absurd rfl hkind
    · rw [unlessThere, bind_apply, ask_apply, hmissing] at hrun
      cases hrun

theorem hasFile_append {root node : Node} (h : root.get? place = some node) (names : List String)
    (data : ByteArray) : root.HasFile (place ++ names) data ↔ node.HasFile names data := by
  rw [HasFile, HasFile, get?_append, h]
  rfl

/-- How far the copy of a directory has come: it has the files below the names that are done, and
nothing under other names. -/
structure DuplicatedUpTo (entries : List (String × Node)) (w w' : World) (target : Path)
    (place done : List String) : Prop where
  grown : Grown place w w'
  dir : ∃ es, w'.root.get? place = some (directory es) ∧ (directory es).Plain
  same : ∀ name ∈ done, ∀ rest data, (directory entries).HasFile (name :: rest) data ↔
    w'.root.HasFile (place ++ name :: rest) data
  missing : ∀ name, name ∉ done → w'.root.get? (place ++ [name]) = none
  fits : ∀ name ∈ done, Fits target name

namespace DuplicatedUpTo

variable {entries : List (String × Node)} {target : Path} {done : List String} {w₁ w₂ : World}

theorem start (hgrown : Grown place w w₁) (h : w₁.root.get? place = some (directory [])) :
    DuplicatedUpTo entries w w₁ target place [] where
  grown := hgrown
  dir := ⟨[], h, plain_empty⟩
  same := by simp
  missing name _ := by
    rw [get?_append, h]
    rfl
  fits := by simp

theorem step {node node' : Node} (h : DuplicatedUpTo entries w w₁ target place done)
    (hdone : name ∉ done) (hnode : child? name entries = some node)
    (hcopy : Duplicated w₁ w₂ target name place node node') :
    DuplicatedUpTo entries w w₂ target place (done ++ [name]) := by
  -- What is under another name lies beside the new entry.
  have hbeside : ∀ other rest, other ≠ name →
      w₂.root.get? (place ++ other :: rest) = w₁.root.get? (place ++ other :: rest) := by
    intro other rest hne
    refine hcopy.grown.apart _ (fun hle => ?_) fun hle => ?_
    · rw [List.prefix_append_right_inj, List.cons_prefix_cons] at hle
      exact hne hle.1.symm
    · rw [List.prefix_append_right_inj, List.cons_prefix_cons] at hle
      exact hne hle.1
  refine ⟨h.grown.trans hcopy.grown.of_below, ?_, ?_, ?_, ?_⟩
  · obtain ⟨es, hes, hplain⟩ := h.dir
    obtain ⟨es', hes'⟩ := hcopy.grown.grows.dirAt ⟨es, hes⟩
    obtain ⟨node', hnode', hplain'⟩ := hcopy.grown.plain place _ (List.prefix_append _ _)
      (fun heq => not_concat_le place name (heq ▸ List.prefix_refl _)) hes hplain
    rw [hes'] at hnode'
    cases hnode'
    exact ⟨es', hes', hplain'⟩
  · intro other hother rest data
    by_cases hname : other = name
    · subst hname
      rw [List.append_cons, hasFile_append hcopy.found, ← hcopy.same, ← List.singleton_append,
        hasFile_append ((get?_singleton entries other).trans hnode)]
    · have hmem : other ∈ done := by simpa [hname] using hother
      rw [h.same other hmem, HasFile, HasFile, hbeside other rest hname]
  · intro other hother
    rw [List.mem_append, List.mem_singleton, not_or] at hother
    exact (hbeside other [] hother.2).trans (h.missing other hother.1)
  · exact List.forall_mem_append.2 ⟨h.fits, List.forall_mem_singleton.2 hcopy.fits⟩

/-- A copy of all entries is a copy of the directory. -/
theorem duplicated (h : DuplicatedUpTo entries w w₁ (t.join name) (place ++ [name])
      (entries.map Prod.fst)) (hfits : Fits t name) :
    ∃ node', Duplicated w w₁ t name place (directory entries) node' := by
  obtain ⟨es, hes, hplain⟩ := h.dir
  refine ⟨directory es, hfits, h.grown, hes, hplain, fun names data => ?_, fun first hfirst => ?_⟩
  · cases names with
    | nil => simp [HasFile, get?]
    | cons first rest =>
      rw [← hasFile_append hes]
      by_cases hmem : first ∈ entries.map Prod.fst
      · exact h.same first hmem rest data
      · have hnone : child? first entries = none := Option.eq_none_iff_forall_not_mem.2
          fun _ hnode => hmem (List.mem_map_of_mem (f := Prod.fst) (mem_of_child? hnode))
        have hmissing := h.missing first hmem
        rw [HasFile, HasFile, List.append_cons, get?_append _ (_ ++ [first]), hmissing, get?,
          Node.entries, hnone]
  · rw [get?_singleton, Option.isSome_iff_exists] at hfirst
    obtain ⟨node, hnode⟩ := hfirst
    exact h.fits first (List.mem_map_of_mem (f := Prod.fst) (mem_of_child? hnode))

end DuplicatedUpTo

/-- An entry of a tidy directory can be copied next. -/
theorem Duplicable.entry {exclude : List String} {entries : List (String × Node)} {node : Node}
    {next : String} {done : List String} {w₁ : World}
    (h : Duplicable exclude w source t name s place (directory entries)) (hfits : Fits t name)
    (hw₁ : DuplicatedUpTo entries w w₁ (t.join name) (place ++ [name]) done) (hdone : next ∉ done)
    (hnode : child? next entries = some node)
    (hlocate : ∃ stop, w₁.locate true (source.join next) = .ok stop) :
    Duplicable exclude w₁ (source.join next) (t.join name) next (s ++ [next]) (place ++ [name])
      node := by
  obtain ⟨stop, hlocate⟩ := hlocate
  have hget : (directory entries).get? [next] = some node :=
    (get?_singleton entries next).trans hnode
  have hname : IsName next := h.tidy.named [] entries rfl _ (mem_of_child? hnode)
  have hnext := fits_of_locate hname hlocate
  have htidy := h.tidy.child hnode
  have hfound : w₁.root.get? (s ++ [next]) = some node := by
    rw [hw₁.grown.apart (s ++ [next]), get?_append, h.found, Option.bind_some, hget]
    · simpa using not_le_append h.not_below h.apart [] [next]
    · simpa using not_le_append h.apart h.not_below [next] []
  obtain ⟨es, hes, -⟩ := hw₁.dir
  exact {
    located := locate_join_of_node (locate_of_grows h.located hw₁.grown.grows hw₁.grown.cwd) hname
      hnext hfound fun target heq => htidy.linkless [] target (congrArg some heq)
    found := hfound
    tidy := htidy
    clear := fun names n hn other hother => h.clear (next :: names) n
      (by rw [get?, Node.entries, hnode, Option.bind_some, hn]) other
      (List.mem_cons_of_mem _ hother)
    holder := locate_join_of_node (locate_of_grows h.holder hw₁.grown.grows hw₁.grown.cwd) h.named
      hfits hes (by simp)
    dir := ⟨es, hes⟩
    named := hname
    short := hnext.short
    vacant := hw₁.missing next hdone
    apart := not_le_append h.apart h.not_below _ _ }

theorem duplicates_copyTreeWithin (exclude : List String) (depth : Nat) :
    Duplicates exclude (copyTreeWithin exclude depth) := by
  induction depth with
  | zero =>
    intro w w' source t name s place node _ hrun
    cases hrun
  | succ depth ih =>
    intro w w' source t name s place node h hrun
    have hmissing : w.exists? (t.join name) = false := by
      rw [World.exists?, find?]
      cases hlocate : w.locate true (t.join name) with
      | error fault => rfl
      | ok stop =>
        have hfits := fits_of_locate h.named hlocate
        rw [locate_join_of_vacant h.holder h.named hfits h.dir h.vacant] at hlocate
        cases hlocate
        rfl
    rw [copyTreeWithin_apply hmissing, bind_eq_ok_iff] at hrun
    obtain ⟨⟨⟩, w₁, hmake, hrun⟩ := hrun
    obtain ⟨hfits, rfl⟩ := of_makeDirectories h hmake
    have hmade : Grown (place ++ [name]) w (w.put (place ++ [name]) (.directory [])) :=
      .put h.dir h.named plain_empty (by simp [h.vacant])
    have hnew : (w.put (place ++ [name]) (.directory [])).root.get? (place ++ [name])
        = some (.directory []) := by
      obtain ⟨entries, hentries⟩ := h.dir
      exact get?_put _ hentries
    rw [bind_eq_ok_iff] at hrun
    obtain ⟨names, w₂, hlist, hloop⟩ := hrun
    obtain ⟨rfl, entries, rfl, rfl⟩ : w₂ = w.put (place ++ [name]) (.directory []) ∧
        ∃ entries, node = .directory entries ∧ names = entries.map Prod.fst := by
      rw [list, bind_apply, orFault_apply, locate_of_grows h.located hmade.grows rfl] at hlist
      simp only [bind_apply, get_apply, (hmade.apart s h.not_below h.apart).trans h.found] at hlist
      cases node with
      | file data mode => cases hlist
      | link target => cases hlist
      | directory entries =>
        cases hlist
        exact ⟨rfl, entries, rfl, rfl⟩
    have hdistinct := h.tidy.distinct [] entries rfl
    refine DuplicatedUpTo.duplicated (w := w) ?_ hfits
    refine of_forM_eq_ok
      (P := fun done w₁ => DuplicatedUpTo entries w w₁ (t.join name) (place ++ [name]) done) hloop
      (.start hmade hnew) fun done next rest hnames w₁ w₂ hw₁ hrun => ?_
    obtain ⟨node, hentry⟩ : ∃ node, (next, node) ∈ entries := by
      have hmem : next ∈ entries.map Prod.fst := by simp [hnames]
      simpa using hmem
    have hnode : child? next entries = some node := child?_of_mem_of_nodup hdistinct hentry
    have hdone : next ∉ done := not_mem_of_nodup (hnames ▸ hdistinct)
    have hkept : next ∉ exclude :=
      h.clear [next] node ((get?_singleton entries next).trans hnode) next (by simp)
    have hnext (hlocate : ∃ stop, w₁.locate true (source.join next) = .ok stop) :=
      h.entry hfits hw₁ hdone hnode hlocate
    obtain ⟨hout, -⟩ | ⟨-, ⟨hdir, hcopy⟩ | ⟨-, hcopy⟩⟩ := of_copyEntry hrun
    · exact absurd (by simpa using hout) hkept
    · obtain ⟨es, hfind⟩ := isDirectory_iff.1 hdir
      obtain ⟨node', hcopied⟩ := ih (hnext (exists_locate_of_find? hfind)) hcopy
      exact hw₁.step hdone hnode hcopied
    · obtain ⟨data, mode, _, _, hfind, -⟩ := of_copyFile hcopy
      obtain ⟨node', hcopied⟩ :=
        duplicates_copyFile exclude (hnext (exists_locate_of_find? hfind)) hcopy
      exact hw₁.step hdone hnode hcopied

end Files

end StubManager
