import StubManager.Proofs.FileTree.Walking

/-!
# Frames

`Frame touched w w'` says that on the way from `w` to `w'` the tree changed at most at and below
the touched places, but for directories that were made above them. Frames compose (`Frame.trans`)
and widen (`Frame.mono`).
-/

namespace StubManager

open Node

/-- What stays as it is when a tree changes only at and below certain places. -/
structure Frame (touched : List String → Prop) (w w' : World) : Prop where
  cwd : w'.cwd = w.cwd
  plain : w.root.Plain → w'.root.Plain
  /-- Neither at or below nor above a touched place. -/
  apart : ∀ place, (∀ t, touched t → ¬ t <+: place ∧ ¬ place <+: t) →
    w'.root.get? place = w.root.get? place
  dir : ∀ place, (∀ t, touched t → ¬ t <+: place) → w.root.DirAt place → w'.root.DirAt place
  file : ∀ place data executable, (∀ t, touched t → ¬ t <+: place) →
    (w'.root.get? place = some (.file data executable) ↔
      w.root.get? place = some (.file data executable))

namespace Frame

variable {touched : List String → Prop} {w w' w'' : World}

theorem refl (touched : List String → Prop) (w : World) : Frame touched w w :=
  ⟨rfl, id, fun _ _ => rfl, fun _ _ h => h, fun _ _ _ _ => Iff.rfl⟩

theorem trans (h : Frame touched w w') (h' : Frame touched w' w'') : Frame touched w w'' where
  cwd := h'.cwd.trans h.cwd
  plain hplain := h'.plain (h.plain hplain)
  apart place hplace := (h'.apart place hplace).trans (h.apart place hplace)
  dir place hplace hdir := h'.dir place hplace (h.dir place hplace hdir)
  file place data executable hplace :=
    (h'.file place data executable hplace).trans (h.file place data executable hplace)

/-- A frame for places below those of another. -/
theorem mono {touched' : List String → Prop} (h : Frame touched w w')
    (hbelow : ∀ t, touched t → ∃ t', touched' t' ∧ t' <+: t) : Frame touched' w w' := by
  have hnot : ∀ place, (∀ t, touched' t → ¬ t <+: place) → ∀ t, touched t → ¬ t <+: place := by
    intro place hplace t ht hle
    obtain ⟨t', ht', hle'⟩ := hbelow t ht
    exact hplace t' ht' (hle'.trans hle)
  refine ⟨h.cwd, h.plain, fun place hplace => h.apart place fun t ht => ?_,
    fun place hplace => h.dir place (hnot place hplace),
    fun place data executable hplace => h.file place data executable (hnot place hplace)⟩
  obtain ⟨t', ht', hle⟩ := hbelow t ht
  refine ⟨hnot place (fun t ht => (hplace t ht).1) t ht, fun habove => ?_⟩
  obtain hle' | hle' := List.prefix_or_prefix_of_prefix habove hle
  · exact (hplace t' ht').2 hle'
  · exact (hplace t' ht').1 hle'

theorem of_root_eq (hroot : w'.root = w.root) (hcwd : w'.cwd = w.cwd) : Frame touched w w' :=
  ⟨hcwd, fun h => hroot ▸ h, fun _ _ => by rw [hroot], fun _ _ h => hroot ▸ h,
    fun _ _ _ _ => by rw [hroot]⟩

end Frame

namespace World

/-- The world with one entry changed. -/
def alter (w : World) (f : Option Node → Option Node) (place : List String) : World :=
  { w with root := w.root.alter f place }

theorem get?_alter_self {w : World} (hplain : w.root.Plain) {parent : List String} {name : String}
    (hparent : w.root.DirAt parent) (f : Option Node → Option Node) :
    (w.alter f (parent ++ [name])).root.get? (parent ++ [name])
      = f (w.root.get? (parent ++ [name])) := hplain.get?_alter_self hparent

theorem frame_alter {w : World} {f : Option Node → Option Node} {place : List String}
    (hf : ∀ node, f (w.root.get? place) = some node →
      (∀ name, place.getLast? = some name → IsName name) ∧ node.Plain) :
    Frame (· = place) w (w.alter f place) where
  cwd := rfl
  plain hplain := hplain.alter hf
  apart _ h := get?_alter_of_disjoint f w.root (h place rfl).1 (h place rfl).2
  dir _ h := (dirAt_alter_iff f (h place rfl)).2
  file _ data executable h := get?_alter_eq_file_iff data executable f (h place rfl)

end World

namespace Frame

variable {touched : List String → Prop} {w w' : World} {t place : List String}

theorem put (h : Frame touched w w') (ht : touched t) (hle : t <+: place) {node : Node}
    (hname : ∀ name, place.getLast? = some name → IsName name) (hnode : node.Plain) :
    Frame touched w (w'.put place node) := by
  refine h.trans ((World.frame_alter fun node' heq => ?_).mono fun _ heq => ⟨t, ht, heq ▸ hle⟩)
  cases heq
  exact ⟨hname, hnode⟩

theorem erase (h : Frame touched w w') (ht : touched t) (hle : t <+: place) :
    Frame touched w (w'.erase place) := by
  refine h.trans ((World.frame_alter fun node heq => ?_).mono fun _ heq => ⟨t, ht, heq ▸ hle⟩)
  cases heq

end Frame

namespace World

/-- Making a directory above a touched place. -/
theorem frame_makeDirectory {w : World} (hplain : w.root.Plain) {parent : List String}
    {name : String} (hname : IsName name) (hparent : w.root.DirAt parent)
    (hvacant : w.root.get? (parent ++ [name]) = none) {t : List String}
    (ht : parent ++ [name] <+: t) :
    Frame (· = t) w (w.put (parent ++ [name]) (.directory [])) := by
  have hframe : Frame (· = parent ++ [name]) w (w.put (parent ++ [name]) (.directory [])) :=
    frame_alter fun node hnode => by
      cases hnode
      exact ⟨by simpa using hname, plain_empty⟩
  have hnew : (w.put (parent ++ [name]) (.directory [])).root.get? (parent ++ [name])
      = some (.directory []) := hplain.get?_alter_self hparent
  have hbelow : ∀ place, parent ++ [name] <+: place → w.root.get? place = none := by
    rintro place ⟨back, rfl⟩
    rw [get?_append, hvacant, Option.bind_none]
  refine ⟨rfl, hframe.plain, fun place hplace => ?_, fun place hplace hdir => ?_,
    fun place data executable hplace => ?_⟩
  · obtain ⟨hnot, habove⟩ := hplace t rfl
    by_cases hmade : parent ++ [name] <+: place
    · rw [hbelow place hmade]
      obtain ⟨back, rfl⟩ := hmade
      cases back with
      | nil => exact absurd (by simpa using ht) habove
      | cons first back =>
        rw [get?_append, hnew]
        rfl
    · refine hframe.apart place fun _ heq => heq ▸ ⟨hmade, fun hle => ?_⟩
      exact habove (hle.trans ht)
  · refine hframe.dir place (fun _ heq hle => ?_) hdir
    exact not_dirAt_of_none (hbelow place (heq ▸ hle)) hdir
  · by_cases hmade : parent ++ [name] <+: place
    · rw [hbelow place hmade]
      obtain ⟨back, rfl⟩ := hmade
      rw [get?_append, hnew]
      cases back <;> simp [get?, Node.entries, child?]
    · exact hframe.file place data executable fun _ heq => heq ▸ hmade

end World

end StubManager
