import StubManager.Artifact

/-!
# What a text is called

What an artifact is called is told in messages only: a change makes one text of two artifacts that
differ in nothing else, or refuses both for the same cause (`apply_alike`).
-/

namespace StubManager

/-- Whether two results are related, or failures of the same cause. -/
def Agree {α β : Type} (R : α → β → Prop) : Except Failure α → Except Failure β → Prop
  | .ok a, .ok b => R a b
  | .error failure, .error failure' => failure.code = failure'.code
  | _, _ => False

namespace Agree

variable {α β γ δ : Type} {R : α → β → Prop} {S : γ → δ → Prop}

theorem refl (result : Except Failure α) : Agree Eq result result := by
  cases result <;> exact rfl

theorem bind {x : Except Failure α} {y : Except Failure β} {f : α → Except Failure γ}
    {g : β → Except Failure δ} (h : Agree R x y) (hf : ∀ a b, R a b → Agree S (f a) (g b)) :
    Agree S (x >>= f) (y >>= g) := by
  cases x with
  | error failure =>
    cases y with
    | error failure' => exact h
    | ok b => exact h.elim
  | ok a =>
    cases y with
    | error failure => exact h.elim
    | ok b => exact hf a b h

theorem map {x : Except Failure α} {y : Except Failure β} {f : α → γ} {g : β → δ}
    (h : Agree R x y) (hf : ∀ a b, R a b → S (f a) (g b)) : Agree S (x.map f) (y.map g) := by
  cases x with
  | error failure =>
    cases y with
    | error failure' => exact h
    | ok b => exact h.elim
  | ok a =>
    cases y with
    | error failure => exact h.elim
    | ok b => exact hf a b h

theorem foldlM {xs : List γ} {f : α → γ → Except Failure α} {g : β → γ → Except Failure β}
    (hf : ∀ c a b, R a b → Agree R (f a c) (g b c)) {a : α} {b : β} (h : R a b) :
    Agree R (xs.foldlM f a) (xs.foldlM g b) := by
  induction xs generalizing a b with
  | nil => exact h
  | cons c xs ih =>
    rw [List.foldlM_cons, List.foldlM_cons]
    exact (hf c a b h).bind fun _ _ hnext => ih hnext

end Agree

namespace Artifact

variable {a b : Artifact}

/-- Whether two artifacts differ at most in what they are called. -/
def Alike (a b : Artifact) : Prop := a.text = b.text ∧ a.anchor = b.anchor

theorem locate_alike (h : Alike a b) : Agree Eq a.locate b.locate := by
  obtain ⟨htext, hanchor⟩ := h
  rw [locate, locate, htext, hanchor]
  cases anchoredList? b.anchor.toList b.text.toList with
  | none => exact rfl
  | some inside =>
    dsimp only
    split <;> exact rfl

theorem removeValue_alike (value : String) (h : Alike a b) :
    Agree Alike (a.removeValue value) (b.removeValue value) := by
  refine (locate_alike h).bind ?_
  rintro list _ rfl
  split
  · exact ⟨rfl, h.2⟩
  · exact h

theorem addNode_alike (node : ChangeNode) (h : Alike a b) :
    Agree Alike (a.addNode node) (b.addNode node) := by
  refine (locate_alike h).bind ?_
  rintro list _ rfl
  split
  · exact h
  · exact ⟨rfl, h.2⟩

/-- A change does the same whatever the artifact is called, but for messages. -/
theorem apply_alike (change : ChangeSet) (h : Alike a b) :
    Agree Alike (a.apply change) (b.apply change) := by
  refine (Agree.refl change.validate).bind fun _ _ _ => (locate_alike h).bind fun _ _ _ => ?_
  have hremoved : Agree Alike
      (change.remove.foldlM (fun artifact node => artifact.removeValue node.value) a)
      (change.remove.foldlM (fun artifact node => artifact.removeValue node.value) b) :=
    Agree.foldlM (fun node _ _ => removeValue_alike node.value) h
  exact hremoved.bind fun _ _ hremoved => Agree.foldlM (fun node _ _ => addNode_alike node) hremoved

end Artifact

end StubManager
