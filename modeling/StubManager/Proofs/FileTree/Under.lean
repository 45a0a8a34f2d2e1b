import StubManager.Proofs.FileTree.Walking

/-!
# Paths below another

`p.Under base front entry` says that `p` goes from the path `base` straight down over the names
`front` to `entry`. It turns back only where `base` does, and leads to what is at its place.
-/

namespace StubManager.Path

/-- Whether a path goes straight down from another to an entry. -/
structure Under (base : Path) (front : List String) (entry : String) (p : Path) : Prop where
  isName : ∀ name ∈ front ++ [entry], IsName name
  names : p.names = base.names ++ (front ++ [entry])
  isAbsolute : p.isAbsolute = base.isAbsolute
  endsWith : p.EndsWith entry

namespace Under

variable {base p : Path} {front : List String} {entry : String}

theorem isName_entry (h : base.Under front entry p) : IsName entry := h.isName entry (by simp)

theorem join_self (base : Path) (h : IsName entry) : base.Under [] entry (base.join entry) :=
  ⟨by simpa using h, names_join base h, isAbsolute_join base h, endsWith_join base h⟩

theorem join (h : base.Under front entry p) {other : String} (hother : IsName other) :
    base.Under (front ++ [entry]) other (p.join other) where
  isName := by
    intro name hname
    obtain hname | hname := List.mem_append.1 hname
    · exact h.isName name hname
    · exact List.mem_singleton.1 hname ▸ hother
  names := by rw [names_join p hother, h.names, List.append_assoc]
  isAbsolute := (isAbsolute_join p hother).trans h.isAbsolute
  endsWith := endsWith_join p hother

theorem withFileName (h : base.Under front entry p) {other : String} (hother : IsName other) :
    base.Under front other (p.withFileName other) := by
  obtain ⟨hnames, habsolute, hends⟩ := withFileName_spec h.isName_entry h.endsWith hother
  refine ⟨fun name hname => ?_, ?_, habsolute.trans h.isAbsolute, hends⟩
  · obtain hname | hname := List.mem_append.1 hname
    · exact h.isName name (List.mem_append_left _ hname)
    · exact List.mem_singleton.1 hname ▸ hother
  · rw [hnames, h.names, ← List.append_assoc, List.dropLast_concat, List.append_assoc]

theorem fileName? (h : base.Under front entry p) : p.fileName? = some entry :=
  fileName?_of_endsWith h.isName_entry h.endsWith

theorem foldl_follow {names : List String} (h : ∀ name ∈ names, IsName name)
    (here : List String) : names.foldl follow here = here ++ names := by
  induction names generalizing here with
  | nil => simp
  | cons name names ih =>
    rw [List.forall_mem_cons] at h
    rw [List.foldl_cons, ih h.2, follow, if_neg (not_or.2 ⟨h.1.1, h.1.2.1⟩), if_neg h.1.2.2.1,
      List.append_assoc, List.singleton_append]

theorem place (h : base.Under front entry p) (cwd : List String) :
    p.place cwd = base.place cwd ++ (front ++ [entry]) := by
  rw [Path.place, h.names, List.foldl_append, start_eq h.isAbsolute, ← Path.place,
    foldl_follow h.isName]

theorem exists_place (h : base.Under front entry p) (cwd : List String) :
    ∃ parent, p.place cwd = parent ++ [entry] :=
  ⟨base.place cwd ++ front, by rw [h.place, List.append_assoc]⟩

theorem turnsAt (h : base.Under front entry p) {cwd turn : List String}
    (hturn : p.TurnsAt cwd turn) : base.TurnsAt cwd turn := by
  obtain ⟨way, hway, rfl⟩ := hturn
  refine ⟨way, ?_, by rw [start_eq h.isAbsolute]⟩
  rw [h.names] at hway
  obtain hle | ⟨more, hmore⟩ := List.prefix_or_prefix_of_prefix hway (List.prefix_append _ _)
  · exact hle
  · -- otherwise the turn is one of the names below
    rcases List.eq_nil_or_concat more with rfl | ⟨more, last, rfl⟩
    · rw [← hmore, List.append_nil]
    · rw [List.concat_eq_append, ← List.append_assoc] at hmore
      obtain ⟨-, hlast⟩ := List.append_inj' hmore rfl
      obtain rfl := (List.cons.inj hlast).1
      rw [← hmore, List.append_assoc, List.prefix_append_right_inj] at hway
      exact absurd rfl (h.isName ".." (hway.subset (by simp))).2.2.1

/-- Behind its base a path goes straight down. -/
theorem passes (h : base.Under front entry p) {cwd place : List String}
    (hplace : p.Passes cwd place) :
    base.Passes cwd place ∨ ∃ more, more <+: front ++ [entry] ∧ place = base.place cwd ++ more := by
  obtain ⟨way, hway, rfl⟩ := hplace
  rw [h.names] at hway
  rw [start_eq h.isAbsolute]
  obtain hle | ⟨more, rfl⟩ := List.prefix_or_prefix_of_prefix hway (List.prefix_append _ _)
  · exact .inl ⟨way, hle, rfl⟩
  · rw [List.prefix_append_right_inj] at hway
    refine .inr ⟨more, hway, ?_⟩
    rw [List.foldl_append, ← Path.place, foldl_follow fun name hname =>
      h.isName name (hway.subset hname)]

end Under

end StubManager.Path

namespace StubManager.World

variable {w : World} {base p : Path} {front : List String} {entry : String}

theorem find?_of_under (hplain : w.root.Plain) (h : base.Under front entry p)
    (hturns : ∀ turn, base.TurnsAt w.cwd turn → w.root.DirAt turn) (hvalid : Valid p) :
    w.find? p = w.root.get? (p.place w.cwd) :=
  find?_of_endsWith hplain h.isName_entry h.endsWith (fun _ hturn => hturns _ (h.turnsAt hturn))
    hvalid

end StubManager.World
