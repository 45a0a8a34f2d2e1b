import StubManager.FileTree.Temporary
import StubManager.Proofs.FileTree.Frames

/-!
# What actions keep

How an action runs, step by step, and which properties of the state it keeps: `Keeps I x` says
that `x` leads from a state with the property `I` to one with it, whether `x` returns or fails.
-/

namespace StubManager

namespace Running

variable {σ ε ε' α β : Type}

theorem bind_apply (x : ExceptT ε (StateM σ) α) (f : α → ExceptT ε (StateM σ) β) (s : σ) :
    (x >>= f) s = match x s with
      | (.ok a, s') => f a s'
      | (.error e, s') => (.error e, s') := by
  change ExceptT.bind x f s = _
  simp only [ExceptT.bind, ExceptT.mk, bind, StateT.bind, ExceptT.bindCont]
  rcases x s with ⟨_ | _, _⟩ <;> rfl

/-- What holds after two actions one after the other; the second knows how the first ended. -/
theorem after_bind {P : σ → Prop} {x : ExceptT ε (StateM σ) α} {f : α → ExceptT ε (StateM σ) β}
    {s : σ} (hx : P (x s).2) (hf : ∀ a s', x s = (.ok a, s') → P s' → P (f a s').2) :
    P ((x >>= f) s).2 := by
  rw [bind_apply]
  generalize x s = step at hx hf
  obtain ⟨result, s'⟩ := step
  cases result with
  | error e => exact hx
  | ok a => exact hf a s' rfl hx

/-- Two actions one after the other succeed only if both do. -/
theorem bind_eq_ok_iff {x : ExceptT ε (StateM σ) α} {f : α → ExceptT ε (StateM σ) β} {s s'' : σ}
    {b : β} : (x >>= f) s = (.ok b, s'') ↔ ∃ a s', x s = (.ok a, s') ∧ f a s' = (.ok b, s'') := by
  rw [bind_apply]
  generalize x s = step
  obtain ⟨_ | a, s'⟩ := step
  · constructor
    · rintro ⟨⟩
    · rintro ⟨a, s', ⟨⟩, -⟩
  · constructor
    · exact fun h => ⟨a, s', rfl, h⟩
    · rintro ⟨_, _, ⟨⟩, h⟩
      exact h

theorem of_bind_eq_ok {x : ExceptT ε (StateM σ) α} {f : α → ExceptT ε (StateM σ) β} {s : σ} {b : β}
    (h : ((x >>= f) s).1 = .ok b) : ∃ a s', x s = (.ok a, s') ∧ (f a s').1 = .ok b := by
  obtain ⟨a, s', hx, hf⟩ := bind_eq_ok_iff.1 (Prod.ext h rfl)
  exact ⟨a, s', hx, by rw [hf]⟩

theorem of_error_eq_ok {P : Prop} {e : ε} {a : α} (h : (.error e : Except ε α) = .ok a) : P := by
  cases h

theorem ofExcept_apply (answer : Except ε α) (s : σ) :
    (MonadExcept.ofExcept answer : ExceptT ε (StateM σ) α) s = (answer, s) := by
  cases answer <;> rfl

/-- An answer that is only put in another form changes nothing. -/
theorem bind_pure_apply (x : ExceptT ε (StateM σ) α) (f : α → β) (s : σ) :
    ((x >>= fun a => pure (f a)) s).2 = (x s).2 := by
  rw [bind_apply]
  rcases x s with ⟨_ | _, _⟩ <;> rfl

theorem tryCatch_apply (x : ExceptT ε (StateM σ) α) (f : ε → ExceptT ε (StateM σ) α) (s : σ) :
    (tryCatch x f) s = match x s with
      | (.ok a, s') => (.ok a, s')
      | (.error e, s') => f e s' := by
  change ExceptT.tryCatch x f s = _
  simp only [ExceptT.tryCatch, ExceptT.mk, bind, StateT.bind]
  rcases x s with ⟨_ | _, _⟩ <;> rfl

theorem orElse_apply (x y : Action ε α) (w : World) :
    (x <|> y) w = match x w with
      | (.ok a, w') => (.ok a, w')
      | (.error _, w') => y w' := by
  change (tryCatch x fun _ => y) w = _
  rw [tryCatch_apply]
  rcases x w with ⟨_ | _, _⟩ <;> rfl

theorem get_apply (w : World) : (get : Action ε World) w = (.ok w, w) := rfl

theorem ask_apply (question : World → α) (w : World) :
    (Files.ask question : Action ε α) w = (.ok (question w), w) := rfl

theorem orFault_apply (answer : World → Except ε α) (w : World) :
    (Files.orFault answer : Action ε α) w = (answer w, w) := by
  simp only [Files.orFault, bind_apply, get_apply]
  cases answer w <;> rfl

theorem adapt_apply (f : ε → ε') (x : Action ε α) (w : World) :
    (ExceptT.adapt f x : Action ε' α) w = ((x w).1.mapError f, (x w).2) := rfl

theorem of_adapt_eq_ok {f : ε → ε'} {x : Action ε α} {w w' : World} {a : α}
    (h : (ExceptT.adapt f x : Action ε' α) w = (.ok a, w')) : x w = (.ok a, w') := by
  rw [adapt_apply] at h
  generalize x w = step at h
  obtain ⟨result, w₁⟩ := step
  cases result <;> cases h
  rfl

theorem stopping_apply (x : Files.FileAction α) (w : World) :
    (Files.stopping x w).2 = (x w).2 := rfl

theorem quietly_apply (x : Files.FileAction Unit) (w : World) : Files.quietly x w = (x w).2 := rfl

theorem run_apply (x : Action ε α) (w : World) :
    (liftM (ExceptT.run x) : Action ε' (Except ε α)) w = (.ok (x w).1, (x w).2) := rfl

end Running

open Running

section

variable {σ ε ε' α β : Type} {I : σ → Prop}

/-- Whether an action keeps a property of the state, however it ends. -/
def Keeps (I : σ → Prop) (x : ExceptT ε (StateM σ) α) : Prop := ∀ s, I s → I (x s).2

theorem keeps_pure (a : α) : Keeps I (pure a : ExceptT ε (StateM σ) α) := fun _ h => h

theorem keeps_throw (e : ε) : Keeps I (throw e : ExceptT ε (StateM σ) α) := fun _ h => h

theorem keeps_get {I : World → Prop} : Keeps I (get : Action ε World) := fun _ h => h

theorem keeps_ask {I : World → Prop} (question : World → α) :
    Keeps I (Files.ask question : Action ε α) := fun _ h => h

theorem keeps_orFault {I : World → Prop} (answer : World → Except ε α) :
    Keeps I (Files.orFault answer : Action ε α) := by
  intro w h
  rwa [orFault_apply]

namespace Keeps

theorem bind {x : ExceptT ε (StateM σ) α} {f : α → ExceptT ε (StateM σ) β} (hx : Keeps I x)
    (hf : ∀ s a, I s → (x s).1 = .ok a → Keeps I (f a)) : Keeps I (x >>= f) := fun s hs =>
  after_bind (hx s hs) fun a s' h hs' => hf s a hs (by rw [h]) s' hs'

theorem tryCatch {x : ExceptT ε (StateM σ) α} {f : ε → ExceptT ε (StateM σ) α} (hx : Keeps I x)
    (hf : ∀ e, Keeps I (f e)) : Keeps I (tryCatch x f) := by
  intro s hs
  have hstep := hx s hs
  rw [tryCatch_apply]
  generalize x s = step at hstep
  obtain ⟨result, s'⟩ := step
  cases result with
  | error e => exact hf e s' hstep
  | ok a => exact hstep

theorem adapt {I : World → Prop} {x : Action ε α} (hx : Keeps I x) (f : ε → ε') :
    Keeps I (ExceptT.adapt f x : Action ε' α) := hx

theorem run {I : World → Prop} {x : Action ε α} (hx : Keeps I x) :
    Keeps I (liftM (ExceptT.run x) : Action ε' (Except ε α)) := hx

theorem passing {I : World → Prop} {x : Files.FileAction Unit} (hx : Keeps I x) :
    Keeps I (Files.passing x) := hx

theorem forIn {xs : List α} {body : α → PUnit → ExceptT ε (StateM σ) (ForInStep PUnit)}
    (hbody : ∀ a ∈ xs, ∀ b, Keeps I (body a b)) (b : PUnit) : Keeps I (ForIn.forIn xs b body) := by
  induction xs with
  | nil => exact keeps_pure b
  | cons a xs ih =>
    rw [List.forall_mem_cons] at hbody
    rw [List.forIn_cons]
    refine (hbody.1 b).bind fun _ step _ _ => ?_
    cases step with
    | done b => exact keeps_pure b
    | yield b => exact ih hbody.2

end Keeps

end

end StubManager
