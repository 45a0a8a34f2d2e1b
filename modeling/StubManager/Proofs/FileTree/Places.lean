import Mathlib.Data.List.Infix
import Mathlib.Data.List.TakeWhile
import StubManager.FileTree.World
import StubManager.Proofs.FileTree.Plain

/-!
# Places of paths

Where there are no links a path leads to a place that its names alone determine: `Path.place`. On
its way it turns back wherever a name goes up (`Path.TurnsAt`). Main statements: how joining and
parents act on names (`names_join`, `names_parent?`), and that every place on the way lies above
the end or above a turn (`place_before_end`).
-/

namespace StubManager

open Text

namespace Text

theorem splitAt_append_separator (sep : Char) (front back : List Char) :
    splitAt sep (front ++ sep :: back) = splitAt sep front ++ splitAt sep back := by
  induction front with
  | nil => simp [splitAt]
  | cons c front ih =>
    rw [List.cons_append, splitAt, splitAt, ih]
    split
    · rfl
    · cases hsplit : splitAt sep front with
      | nil => exact absurd hsplit (splitAt_ne_nil sep front)
      | cons part more => rfl

theorem splitAt_of_not_mem {sep : Char} {text : List Char} (h : sep ∉ text) :
    splitAt sep text = [text] := by
  induction text with
  | nil => rfl
  | cons c text ih =>
    rw [List.mem_cons, not_or] at h
    rw [splitAt, if_neg (Ne.symm h.1), ih h.2]

theorem splitAt_intercalate {sep : Char} {first : List Char} {more : List (List Char)}
    (h : ∀ part ∈ first :: more, sep ∉ part) :
    splitAt sep ([sep].intercalate (first :: more)) = first :: more := by
  induction more generalizing first with
  | nil => simpa [List.intercalate] using splitAt_of_not_mem (h first (by simp))
  | cons second more ih =>
    rw [List.forall_mem_cons] at h
    have hcat : [sep].intercalate (first :: second :: more)
        = first ++ sep :: [sep].intercalate (second :: more) := by
      simp [List.intercalate]
    rw [hcat, splitAt_append_separator, splitAt_of_not_mem h.1, ih h.2]
    rfl

end Text

/-- One name further from a place. -/
def follow (here : List String) (name : String) : List String :=
  if name = "" ∨ name = "." then here else if name = ".." then here.dropLast else here ++ [name]

namespace Path

/-- The names of a path that lead somewhere: neither empty ones nor full stops. -/
def names (p : Path) : List String := (p.parts.filter isComponent).map String.ofList

/-- The place a path starts from. -/
def start (cwd : List String) (p : Path) : List String := if p.isAbsolute then [] else cwd

/-- The place a path leads to where there are no links. -/
def place (cwd : List String) (p : Path) : List String := p.names.foldl follow (p.start cwd)

/-- Whether a path goes up from a place on its way. -/
def TurnsAt (cwd : List String) (p : Path) (turn : List String) : Prop :=
  ∃ front, front ++ [".."] <+: p.names ∧ turn = front.foldl follow (p.start cwd)

theorem not_turnsAt_of_not_mem {p : Path} (h : ".." ∉ p.names) (cwd turn : List String) :
    ¬ p.TurnsAt cwd turn := by
  rintro ⟨front, hfront, -⟩
  exact h (hfront.mem (by simp))

theorem parts_ne_nil (p : Path) : p.parts ≠ [] := splitAt_ne_nil _ _

theorem mem_names {p : Path} {name : String} (h : name ∈ p.names) :
    name ≠ "" ∧ name ≠ "." ∧ '/' ∉ name.toList := by
  obtain ⟨part, hpart, rfl⟩ := List.mem_map.1 h
  obtain ⟨hmem, hcomponent⟩ := List.mem_filter.1 hpart
  rw [isComponent, Bool.and_eq_true, decide_eq_true_iff, decide_eq_true_iff] at hcomponent
  refine ⟨fun heq => hcomponent.1 ?_, fun heq => hcomponent.2 ?_, ?_⟩
  · rw [← String.toList_ofList (l := part), heq]
    rfl
  · rw [← String.toList_ofList (l := part), heq]
    rfl
  · rw [String.toList_ofList]
    exact not_mem_of_mem_splitAt hmem

theorem isAbsolute_iff {p : Path} : p.isAbsolute ↔ ∃ more, more ≠ [] ∧ p.parts = [] :: more := by
  rw [isAbsolute, parts]
  cases p.text.toList with
  | nil => simp [splitAt]
  | cons c text =>
    by_cases hc : c = '/'
    · subst hc
      simp [splitAt, splitAt_ne_nil]
    · rw [splitAt, if_neg hc]
      cases hsplit : splitAt '/' text with
      | nil => exact absurd hsplit (splitAt_ne_nil _ _)
      | cons part more => simp [hc]

theorem not_mem_of_mem_parts {p : Path} {part : List Char} (h : part ∈ p.parts) : '/' ∉ part :=
  not_mem_of_mem_splitAt h

/-- A path that consists of one name is that name. -/
theorem isName_of_plainName? {p : Path} {name : String} (h : p.plainName? = some name) :
    IsName name ∧ name = p.text := by
  rw [plainName?] at h
  split at h
  · next other hcomponents =>
    split at h
    · next htext =>
      cases h
      refine ⟨?_, htext⟩
      rw [components] at hcomponents
      split at hcomponents
      · cases hcomponents
      · next first more hparts =>
        dsimp only at hcomponents
        split at hcomponents
        · next hempty =>
          subst hempty
          split at hcomponents
          · cases hcomponents
          · next hrelative =>
            rw [isAbsolute_iff, hparts] at hrelative
            have hnone : more = [] := by
              by_contra hmore
              exact hrelative ⟨more, hmore, rfl⟩
            rw [hnone] at hcomponents
            cases hcomponents
        · next hempty =>
          split at hcomponents
          · cases hcomponents
          · next hdot =>
            obtain ⟨hname, -⟩ := List.cons.inj hcomponents
            rw [componentOf] at hname
            split at hname
            · cases hname
            · next hup =>
              cases hname
              rw [IsName, ← String.toList_inj.ne, ← String.toList_inj.ne, ← String.toList_inj.ne,
                String.toList_ofList]
              exact ⟨hempty, hdot, hup, not_mem_of_mem_parts (p := p) (by rw [hparts]; simp)⟩
    · cases h
  · cases h

/-! ## Joining -/

theorem isComponent_of_isName {name : String} (h : IsName name) : isComponent name.toList := by
  have hempty : name.toList ≠ [] := fun heq => h.1 (String.toList_inj.1 heq)
  have hdot : name.toList ≠ ['.'] := fun heq => h.2.1 (String.toList_inj.1 heq)
  simp [isComponent, hempty, hdot]

theorem not_isAbsolute_of_isName {name : String} (h : IsName name) :
    (Path.mk name).isAbsolute = false := by
  rw [← Bool.not_eq_true, isAbsolute_iff, parts, splitAt_of_not_mem h.2.2.2]
  simp

/-- A name is one part more, unless the path ends with a separator that it fills up. -/
theorem parts_join (p : Path) {name : String} (h : IsName name) :
    (p.join name).parts = p.parts ++ [name.toList] ∨
      ∃ front, p.parts = front ++ [[]] ∧ (p.join name).parts = front ++ [name.toList] := by
  have hname : splitAt '/' name.toList = [name.toList] := splitAt_of_not_mem h.2.2.2
  rw [join, not_isAbsolute_of_isName h, if_neg Bool.false_ne_true]
  split
  · next hends =>
    refine .inr ?_
    rw [Bool.or_eq_true, String.isEmpty_iff, beq_iff_eq, List.getLast?_eq_some_iff] at hends
    obtain hempty | ⟨front, hfront⟩ := hends
    · exact ⟨[], by simp [parts, hempty, splitAt], by simp [parts, hempty, hname]⟩
    · refine ⟨splitAt '/' front, ?_, ?_⟩
      · rw [parts, hfront, splitAt_append_separator]
        rfl
      · rw [parts, String.toList_append, hfront, List.append_assoc, List.singleton_append,
          splitAt_append_separator, hname]
  · refine .inl ?_
    rw [parts, String.toList_append, String.toList_append, List.append_assoc,
      show "/".toList = ['/'] from rfl, List.singleton_append, splitAt_append_separator, hname]
    rfl

theorem names_join (p : Path) {name : String} (h : IsName name) :
    (p.join name).names = p.names ++ [name] := by
  have hlast : [name.toList].filter isComponent = [name.toList] := by
    simp [isComponent_of_isName h]
  obtain heq | ⟨front, hfront, heq⟩ := parts_join p h
  · rw [names, heq, List.filter_append, hlast, names]
    simp
  · rw [names, heq, List.filter_append, hlast, names, hfront]
    simp [isComponent]

theorem isAbsolute_join (p : Path) {name : String} (h : IsName name) :
    (p.join name).isAbsolute = p.isAbsolute := by
  have hrelative := not_isAbsolute_of_isName h
  rw [join, hrelative, if_neg Bool.false_ne_true]
  cases htext : p.text.toList with
  | nil =>
    obtain hempty : p.text = "" := String.toList_inj.1 htext
    rw [isAbsolute] at hrelative
    simp [isAbsolute, hempty, hrelative]
  | cons c text => split <;> simp [isAbsolute, htext]

/-! ## Parents -/

private theorem splitLast_eq_some {p : Path} {front : List (List Char)} {last : List Char}
    (h : p.splitLast = some (front, last)) :
    (∃ back, p.parts = front ++ last :: back ∧ (∀ part ∈ back, isComponent part = false)) ∧
      (front = [] ∧ last ≠ [] ∨ front ≠ [] ∧ isComponent last) := by
  unfold splitLast at h
  split at h
  · cases h
  · next first more hparts =>
    have hback : ∀ part ∈ more.reverse.takeWhile (!isComponent ·), isComponent part = false :=
      fun part hpart => by simpa using List.mem_takeWhile_imp hpart
    have hmore := List.takeWhile_append_dropWhile (p := (!isComponent ·)) (l := more.reverse)
    have hnot := List.head?_dropWhile_not (!isComponent ·) more.reverse
    generalize more.reverse.takeWhile (!isComponent ·) = back at hback hmore
    rw [← List.reverse_eq_iff] at hmore
    split at h
    · next last' front' hdrop =>
      cases h
      rw [hdrop] at hmore hnot
      refine ⟨⟨back.reverse, ?_, ?_⟩, .inr ⟨by simp, by simpa using hnot⟩⟩
      · rw [hparts, ← hmore]
        simp
      · simpa using hback
    · next hdrop =>
      split at h
      · cases h
      · next hfirst =>
        cases h
        rw [hdrop, List.append_nil] at hmore
        refine ⟨⟨more, hparts, fun part hpart => hback part ?_⟩, .inl ⟨rfl, hfirst⟩⟩
        rw [← hmore] at hpart
        exact List.mem_reverse.1 hpart

private theorem filter_append_back {front back : List (List Char)}
    (h : ∀ part ∈ back, isComponent part = false) :
    (front ++ back).filter isComponent = front.filter isComponent := by
  have hnil : back.filter isComponent = [] :=
    List.filter_eq_nil_iff.2 fun part hpart => by simp [h part hpart]
  rw [List.filter_append, hnil, List.append_nil]

/-- Leaving out what does not count at the end of a list of parts. -/
private theorem exists_dropped (more : List (List Char)) :
    ∃ dropped, (more.reverse.dropWhile (!isComponent ·)).reverse ++ dropped = more ∧
      ∀ part ∈ dropped, isComponent part = false := by
  refine ⟨(more.reverse.takeWhile (!isComponent ·)).reverse, ?_, fun part hpart => ?_⟩
  · rw [← List.reverse_append, List.takeWhile_append_dropWhile, List.reverse_reverse]
  · simpa using List.mem_takeWhile_imp (List.mem_reverse.1 hpart)

/-- The path whose parts are given, the first of them empty for an absolute path. -/
private theorem parts_intercalate {first : List Char} {kept : List (List Char)}
    (h : ∀ part ∈ first :: kept, '/' ∉ part) (q : Path)
    (hq : q = ⟨if ['/'].intercalate (first :: kept) = [] then "/"
      else String.ofList (['/'].intercalate (first :: kept))⟩) :
    q.names = ((first :: kept).filter isComponent).map String.ofList ∧
      (q.isAbsolute ↔ first = []) := by
  have hsplit := splitAt_intercalate h
  generalize ['/'].intercalate (first :: kept) = text at hsplit hq
  subst hq
  by_cases htext : text = []
  · rw [htext, splitAt, List.cons.injEq] at hsplit
    rw [if_pos htext, ← hsplit.1, ← hsplit.2]
    exact ⟨rfl, by decide⟩
  · have hparts : parts ⟨String.ofList text⟩ = first :: kept := by
      rw [parts, String.toList_ofList, hsplit]
    rw [if_neg htext]
    refine ⟨by rw [names, hparts], ?_⟩
    rw [isAbsolute_iff, hparts]
    constructor
    · rintro ⟨_, _, heq⟩
      exact (List.cons.inj heq).1
    · intro hfirst
      refine ⟨kept, ?_, hfirst ▸ rfl⟩
      rintro rfl
      rw [← intercalate_splitAt '/' text, hsplit, hfirst] at htext
      exact htext rfl

/-- A parent goes by the names before the last, from the same start. -/
theorem names_parent? {p q : Path} (h : p.parent? = some q) :
    q.names = p.names.dropLast ∧ q.isAbsolute = p.isAbsolute := by
  unfold parent? at h
  split at h
  · cases h
  · next last hlast =>
    cases h
    obtain ⟨⟨back, hparts, hback⟩, ⟨-, hne⟩ | ⟨hfront, -⟩⟩ := splitLast_eq_some hlast
    · constructor
      · have hempty : (Path.mk "").names = [] := rfl
        rw [hempty, names, hparts, List.nil_append, ← List.singleton_append,
          filter_append_back hback]
        cases hlast : isComponent last <;> simp [hlast]
      · have hrelative : p.isAbsolute = false := by
          rw [← Bool.not_eq_true, isAbsolute_iff, hparts]
          simp [hne]
        rw [hrelative]
        rfl
    · exact absurd rfl hfront
  · next first more last hlast =>
    obtain ⟨⟨back, hparts, hback⟩, ⟨hfront, -⟩ | ⟨-, hlast⟩⟩ := splitLast_eq_some hlast
    · cases hfront
    obtain ⟨dropped, hmore, hdropped⟩ := exists_dropped more
    generalize (more.reverse.dropWhile (!isComponent ·)).reverse = kept at h hmore
    have hpart : ∀ part ∈ first :: kept, '/' ∉ part := by
      intro part hpart
      refine not_mem_of_mem_parts (p := p) ?_
      rw [hparts, ← hmore]
      grind
    obtain ⟨hnames, habsolute⟩ := parts_intercalate hpart q (Option.some.inj h).symm
    constructor
    · have hcut : (first :: more ++ last :: back).filter isComponent
          = (first :: kept).filter isComponent ++ [last] := by
        rw [List.append_cons, filter_append_back hback, List.filter_append, ← hmore,
          ← List.cons_append, filter_append_back hdropped]
        simp [hlast]
      rw [hnames, names, hparts, hcut, List.map_append, List.map_singleton, List.dropLast_concat]
    · rw [Bool.eq_iff_iff, habsolute, isAbsolute_iff, hparts]
      refine ⟨fun hfirst => ⟨more ++ last :: back, by simp, by simp [hfirst]⟩, ?_⟩
      rintro ⟨_, -, heq⟩
      exact (List.cons.inj heq).1

theorem isName_of_fileName? {p : Path} {name : String} (h : p.fileName? = some name) :
    IsName name := by
  unfold fileName? at h
  split at h
  · next front last hsplit =>
    obtain ⟨⟨back, hparts, -⟩, hkind⟩ := splitLast_eq_some hsplit
    have hslash : '/' ∉ last := not_mem_of_mem_parts (p := p) (by simp [hparts])
    have hne : last ≠ [] := by
      obtain ⟨-, hne⟩ | ⟨-, hcomponent⟩ := hkind
      · exact hne
      · simp only [isComponent, Bool.and_eq_true, decide_eq_true_eq] at hcomponent
        exact hcomponent.1
    split at h
    · cases h
    · next hdots =>
      cases h
      simp only [Bool.or_eq_true, decide_eq_true_eq, not_or] at hdots
      refine ⟨?_, ?_, ?_, by simpa using hslash⟩
      · exact fun heq => hne (String.ofList_injective heq)
      · exact fun heq => hdots.2 (String.ofList_injective heq)
      · exact fun heq => hdots.1 (String.ofList_injective heq)
  · cases h

/-- Whether the last part of a path is the given name. -/
def EndsWith (p : Path) (name : String) : Prop := p.parts.getLast? = some name.toList

theorem endsWith_join (p : Path) {name : String} (h : IsName name) :
    (p.join name).EndsWith name := by
  obtain heq | ⟨front, -, heq⟩ := parts_join p h <;> rw [EndsWith, heq, List.getLast?_concat]

/-- A path that ends with a name is written with it. -/
theorem text_ne_of_endsWith {p : Path} {name : String} (h : IsName name) (hp : p.EndsWith name) :
    p.text ≠ "" := by
  intro hempty
  rw [EndsWith, parts, hempty] at hp
  exact h.1 (String.toList_inj.1 (Option.some.inj hp).symm)

theorem splitLast_of_endsWith {p : Path} {name : String} (h : IsName name) (hp : p.EndsWith name) :
    ∃ front, p.splitLast = some (front, name.toList) := by
  obtain ⟨front, hparts⟩ := List.getLast?_eq_some_iff.1 hp
  have hcomponent := isComponent_of_isName h
  cases hsplit : p.splitLast with
  | some split =>
    obtain ⟨⟨back, hparts', hback⟩, -⟩ := splitLast_eq_some hsplit
    rcases List.eq_nil_or_concat back with rfl | ⟨back, last, rfl⟩
    · obtain ⟨-, hlast⟩ := List.append_inj' (hparts.symm.trans hparts') rfl
      exact ⟨split.1, congrArg some (Prod.ext rfl (List.cons.inj hlast).1.symm)⟩
    · have hlast : p.parts.getLast? = some last :=
        List.getLast?_eq_some_iff.2 ⟨split.1 ++ split.2 :: back, by simp [hparts']⟩
      rw [EndsWith, hlast, Option.some.injEq] at hp
      rw [← hp, hback last (by simp)] at hcomponent
      cases hcomponent
  | none =>
    unfold splitLast at hsplit
    split at hsplit
    · next hnil => exact absurd hnil p.parts_ne_nil
    · next first more hcons =>
      split at hsplit
      · cases hsplit
      · next hdrop =>
        split at hsplit
        · next hfirst =>
          rw [List.dropWhile_eq_nil_iff] at hdrop
          have hmem : name.toList ∈ first :: more := by
            rw [← hcons, hparts]
            simp
          obtain heq | hmem := List.mem_cons.1 hmem
          · rw [heq, hfirst] at hcomponent
            cases hcomponent
          · have := hdrop _ (List.mem_reverse.2 hmem)
            rw [hcomponent] at this
            cases this
        · cases hsplit

theorem fileName?_of_endsWith {p : Path} {name : String} (h : IsName name) (hp : p.EndsWith name) :
    p.fileName? = some name := by
  obtain ⟨front, hsplit⟩ := splitLast_of_endsWith h hp
  have hup : name.toList ≠ ['.', '.'] := fun heq => h.2.2.1 (String.toList_inj.1 heq)
  have hdot : name.toList ≠ ['.'] := fun heq => h.2.1 (String.toList_inj.1 heq)
  simp [fileName?, hsplit, hup, hdot]

theorem exists_parent? {p : Path} {name : String} (h : IsName name) (hp : p.EndsWith name) :
    ∃ q, p.parent? = some q := by
  obtain ⟨front, hsplit⟩ := splitLast_of_endsWith h hp
  cases front <;> simp [parent?, hsplit]

theorem names_of_endsWith {p : Path} {name : String} (hname : IsName name)
    (hends : p.EndsWith name) : p.names = p.names.dropLast ++ [name] := by
  obtain ⟨front, hparts⟩ := List.getLast?_eq_some_iff.1 hends
  have hlast : [name.toList].filter isComponent = [name.toList] := by
    simp [isComponent_of_isName hname]
  rw [names, hparts, List.filter_append, hlast]
  simp

/-- Exchanging the last name leaves the path before it alone. -/
theorem withFileName_spec {p : Path} {name other : String} (h : IsName name)
    (hp : p.EndsWith name) (hother : IsName other) :
    (p.withFileName other).names = p.names.dropLast ++ [other] ∧
      (p.withFileName other).isAbsolute = p.isAbsolute ∧
      (p.withFileName other).EndsWith other := by
  obtain ⟨parent, hparent⟩ := exists_parent? h hp
  obtain ⟨hnames, habsolute⟩ := names_parent? hparent
  have heq : p.withFileName other = parent.join other := by
    simp [withFileName, fileName?_of_endsWith h hp, hparent]
  rw [heq]
  exact ⟨by rw [names_join parent hother, hnames], by rw [isAbsolute_join parent hother, habsolute],
    endsWith_join parent hother⟩

theorem ancestors_spec {p q : Path} (h : q ∈ p.ancestors) :
    q.names <+: p.names ∧ q.isAbsolute = p.isAbsolute := by
  have hparents : ∀ fuel p, ∀ q ∈ parents fuel p,
      q.names <+: p.names ∧ q.isAbsolute = p.isAbsolute := by
    intro fuel
    induction fuel with
    | zero => simp [parents]
    | succ fuel ih =>
      intro p q hq
      rw [parents] at hq
      split at hq
      · cases hq
      · next parent hparent =>
        obtain ⟨hnames, habsolute⟩ := names_parent? hparent
        have hle : parent.names <+: p.names := hnames ▸ List.dropLast_prefix _
        obtain rfl | hq := List.mem_cons.1 hq
        · exact ⟨hle, habsolute⟩
        · obtain ⟨hnames', habsolute'⟩ := ih parent q hq
          exact ⟨hnames'.trans hle, habsolute'.trans habsolute⟩
  obtain rfl | h := List.mem_cons.1 h
  · exact ⟨List.prefix_refl _, rfl⟩
  · exact hparents _ _ _ h

/-! ## Places -/

theorem start_eq {p q : Path} (h : q.isAbsolute = p.isAbsolute) (cwd : List String) :
    q.start cwd = p.start cwd := by
  rw [start, start, h]

theorem place_of_names {p q : Path} {name : String} (hname : IsName name)
    (hnames : q.names = p.names ++ [name]) (habsolute : q.isAbsolute = p.isAbsolute)
    (cwd : List String) : q.place cwd = p.place cwd ++ [name] := by
  rw [place, hnames, List.foldl_append, start_eq habsolute, ← place, List.foldl_cons, follow,
    if_neg (not_or.2 ⟨hname.1, hname.2.1⟩), if_neg hname.2.2.1, List.foldl_nil]

theorem place_join (p : Path) {name : String} (h : IsName name) (cwd : List String) :
    (p.join name).place cwd = p.place cwd ++ [name] :=
  place_of_names h (names_join p h) (isAbsolute_join p h) cwd

/-- The name that a component stands for, if it leads somewhere. -/
def Component.name? : Component → Option String
  | .root | .here => none
  | .up => some ".."
  | .name text => some text

theorem filterMap_componentOf (parts : List (List Char)) :
    (parts.map componentOf).filterMap Component.name? = parts.map String.ofList := by
  induction parts with
  | nil => rfl
  | cons part parts ih =>
    have hpart : (componentOf part).name? = some (String.ofList part) := by
      rw [componentOf]
      split
      · next heq =>
        rw [heq]
        rfl
      · rfl
    rw [List.map_cons, List.filterMap_cons, hpart, ih, List.map_cons]

theorem componentOf_ne_root (part : List Char) : componentOf part ≠ .root := by
  rw [componentOf]
  split <;> simp

/-- The components of a path tell where it starts and by which names it goes. -/
theorem of_components (p : Path) : p.components.filterMap Component.name? = p.names ∧
    (p.components.head? = some .root ↔ p.isAbsolute) := by
  have habsolute := isAbsolute_iff (p := p)
  rw [components, names]
  split
  · next hnil => exact absurd hnil p.parts_ne_nil
  · next first more hparts =>
    rw [hparts] at habsolute
    dsimp only
    rw [List.filterMap_append, filterMap_componentOf, hparts, List.filter_cons]
    split
    · next hempty =>
      subst hempty
      split
      · next h => exact ⟨rfl, fun _ => h, fun _ => rfl⟩
      · next hrelative =>
        refine ⟨rfl, fun hhead => ?_, fun h => absurd h hrelative⟩
        cases hmore : more.filter isComponent with
        | nil => simp [hmore] at hhead
        | cons part rest =>
          rw [hmore, List.nil_append, List.map_cons, List.head?_cons, Option.some.injEq] at hhead
          exact absurd hhead (componentOf_ne_root part)
    · next hempty =>
      have hrelative : ¬ p.isAbsolute := by
        rw [habsolute]
        rintro ⟨_, -, heq⟩
        exact hempty (List.cons.inj heq).1
      split
      · next hdot =>
        subst hdot
        exact ⟨rfl, fun hhead => by simp at hhead, fun h => absurd h hrelative⟩
      · next hdot =>
        have hcomponent : isComponent first := by simp [isComponent, hempty, hdot]
        rw [if_pos hcomponent, ← List.map_singleton, filterMap_componentOf]
        refine ⟨rfl, fun hhead => ?_, fun h => absurd h hrelative⟩
        rw [List.map_singleton, List.singleton_append, List.head?_cons, Option.some.injEq] at hhead
        exact absurd hhead (componentOf_ne_root first)

/-- Paths of the same components lead to the same place. -/
theorem place_of_same {p q : Path} (h : p.same q) (cwd : List String) :
    p.place cwd = q.place cwd := by
  rw [same, beq_iff_eq] at h
  obtain ⟨hnames, habsolute⟩ := of_components p
  rw [h, (of_components q).1] at hnames
  rw [h, (of_components q).2] at habsolute
  rw [place, place, ← hnames, start_eq (Bool.eq_iff_iff.2 habsolute).symm]

theorem exists_place {p : Path} {name : String} (hname : IsName name) (hends : p.EndsWith name)
    (cwd : List String) : ∃ parent, p.place cwd = parent ++ [name] := by
  refine ⟨p.names.dropLast.foldl follow (p.start cwd), ?_⟩
  rw [place, names_of_endsWith hname hends, List.dropLast_concat, List.foldl_append]
  simp [follow, hname.1, hname.2.1, hname.2.2.1]

theorem TurnsAt.extend {p q : Path} {cwd turn : List String} (h : q.TurnsAt cwd turn)
    (hnames : q.names <+: p.names) (habsolute : q.isAbsolute = p.isAbsolute) :
    p.TurnsAt cwd turn := by
  obtain ⟨front, hfront, rfl⟩ := h
  exact ⟨front, hfront.trans hnames, by rw [start_eq habsolute]⟩

/-- A last name that is proper is no turn. -/
theorem TurnsAt.of_names {p q : Path} {cwd turn : List String} {name : String}
    (h : q.TurnsAt cwd turn) (hname : IsName name) (hnames : q.names = p.names ++ [name])
    (habsolute : q.isAbsolute = p.isAbsolute) : p.TurnsAt cwd turn := by
  obtain ⟨front, hfront, rfl⟩ := h
  refine ⟨front, ?_, by rw [start_eq habsolute]⟩
  rw [hnames, List.prefix_concat_iff] at hfront
  obtain heq | hfront := hfront
  · obtain ⟨-, hlast⟩ := List.append_inj' heq rfl
    exact absurd (List.cons.inj hlast).1.symm hname.2.2.1
  · exact hfront

theorem turnsAt_join {p : Path} {name : String} (h : IsName name) {cwd turn : List String} :
    (p.join name).TurnsAt cwd turn ↔ p.TurnsAt cwd turn :=
  ⟨fun hturn => hturn.of_names h (names_join p h) (isAbsolute_join p h), fun hturn =>
    hturn.extend (names_join p h ▸ List.prefix_append _ _) (isAbsolute_join p h).symm⟩

theorem foldl_follow_concat {name : String} (h : name ≠ "" ∧ name ≠ "." ∧ '/' ∉ name.toList)
    (hup : name ≠ "..") (here front : List String) :
    (front ++ [name]).foldl follow here = front.foldl follow here ++ [name] := by
  simp [follow, h.1, h.2.1, hup]

/-- A place on the way lies above a turn, or above the end and is not the end itself. -/
theorem place_before_end {p : Path} (cwd : List String) {front : List String} {name : String}
    {back : List String} (h : p.names = front ++ name :: back) :
    (∃ turn, p.TurnsAt cwd turn ∧ front.foldl follow (p.start cwd) <+: turn) ∨
      ∃ next, front.foldl follow (p.start cwd) ++ [next] <+: p.place cwd := by
  induction back generalizing front name with
  | nil =>
    by_cases hup : name = ".."
    · subst hup
      exact .inl ⟨_, ⟨front, h ▸ List.prefix_refl _, rfl⟩, List.prefix_refl _⟩
    · have hname : name ∈ p.names := by
        rw [h]
        simp
      refine .inr ⟨name, ?_⟩
      rw [place, h, foldl_follow_concat (mem_names hname) hup]
  | cons second back ih =>
    have hfurther : p.names = (front ++ [name]) ++ second :: back := by
      rw [h, List.append_assoc, List.singleton_append]
    by_cases hup : name = ".."
    · subst hup
      exact .inl ⟨_, ⟨front, hfurther ▸ List.prefix_append _ _, rfl⟩, List.prefix_refl _⟩
    · have hname : name ∈ p.names := by
        rw [h]
        simp
      have hnext := ih hfurther
      rw [foldl_follow_concat (mem_names hname) hup] at hnext
      obtain ⟨turn, hturn, hle⟩ | ⟨next, hle⟩ := hnext
      · exact .inl ⟨turn, hturn, (List.prefix_append _ _).trans hle⟩
      · exact .inr ⟨name, (List.prefix_append _ _).trans hle⟩

/-! ## Ways -/

/-- Whether a path goes over a place or to it. -/
def Passes (cwd : List String) (p : Path) (place : List String) : Prop :=
  ∃ way, way <+: p.names ∧ way.foldl follow (p.start cwd) = place

theorem passes_place (p : Path) (cwd : List String) : p.Passes cwd (p.place cwd) :=
  ⟨p.names, List.prefix_refl _, rfl⟩

theorem Passes.extend {p q : Path} {cwd place : List String} (h : q.Passes cwd place)
    (hnames : q.names <+: p.names) (habsolute : q.isAbsolute = p.isAbsolute) :
    p.Passes cwd place := by
  obtain ⟨way, hway, rfl⟩ := h
  exact ⟨way, hway.trans hnames, by rw [start_eq habsolute]⟩

theorem passes_of_ancestor {p q : Path} (h : q ∈ p.ancestors) (cwd : List String) :
    p.Passes cwd (q.place cwd) := by
  obtain ⟨hnames, habsolute⟩ := ancestors_spec h
  exact (passes_place q cwd).extend hnames habsolute

theorem passes_join {p : Path} {name : String} (h : IsName name) {cwd place : List String}
    (hplace : (p.join name).Passes cwd place) :
    p.Passes cwd place ∨ place = p.place cwd ++ [name] := by
  obtain ⟨way, hway, rfl⟩ := hplace
  rw [names_join p h, List.prefix_concat_iff] at hway
  obtain heq | hle := hway
  · right
    rw [← place_join p h cwd, heq, ← names_join p h]
    rfl
  · exact .inl ⟨way, hle, by rw [start_eq (isAbsolute_join p h)]⟩

/-- What a path goes over lies above one of its turns, or above its end. -/
theorem Passes.le {p : Path} {cwd place : List String} (h : p.Passes cwd place) :
    (∃ turn, p.TurnsAt cwd turn ∧ place <+: turn) ∨ place <+: p.place cwd := by
  obtain ⟨way, ⟨back, hback⟩, rfl⟩ := h
  cases back with
  | nil =>
    rw [List.append_nil] at hback
    exact .inr (hback ▸ List.prefix_refl _)
  | cons name back =>
    exact (place_before_end cwd hback.symm).imp_right fun ⟨_, hle⟩ =>
      (List.prefix_append _ _).trans hle

theorem Passes.le_of_straight {p : Path} {cwd place : List String} (h : p.Passes cwd place)
    (hstraight : ".." ∉ p.names) : place <+: p.place cwd :=
  h.le.resolve_left fun ⟨turn, hturn, _⟩ => not_turnsAt_of_not_mem hstraight cwd turn hturn

end Path

end StubManager
