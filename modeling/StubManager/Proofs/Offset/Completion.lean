import StubManager.Proofs.Artifact.Editing
import StubManager.Proofs.Offset.Insertion

/-!
# Edits complete

No access of the editor to its text stops the program. For every text, anchor and change set the
checked edits come to what `Artifact.apply` and `Artifact.entries` come to:
`edits_complete`.
-/

namespace StubManager.Offset

/-! ## Steps that complete -/

section Steps

variable {α β γ : Type}

theorem run_bind {x : Checked α} {r : Except Failure β} {view : β → α}
    (hx : x.run = some (r.map view)) {f : α → Checked γ} {g : β → Except Failure γ}
    (hf : ∀ b, r = .ok b → (f (view b)).run = some (g b)) : (x >>= f).run = some (r >>= g) := by
  rw [ExceptT.run_bind, hx, Option.bind_eq_bind, Option.bind_some]
  cases r with
  | error failure => rfl
  | ok b => exact hf b rfl

/-- What is looked up without a fault is handed on. -/
theorem liftM_some_bind (a : α) (f : α → Checked β) :
    ((liftM (some a : Option α) : Checked α) >>= f) = f a := rfl

theorem run_ofExcept (r : Except Failure α) :
    (MonadExcept.ofExcept r : Checked α).run = some (r.map id) := by
  cases r <;> rfl

/-- A run of steps completes where each of them does, on what the steps before it can leave. -/
theorem run_foldlM {holds : β → Prop} {view : β → α} {f : α → γ → Checked α}
    {g : β → γ → Except Failure β}
    (hstep : ∀ b c, holds b → (f (view b) c).run = some ((g b c).map view))
    (hkeeps : ∀ b c b', holds b → g b c = .ok b' → holds b') (cs : List γ) {b : β} (hb : holds b) :
    (cs.foldlM f (view b)).run = some ((cs.foldlM g b).map view) ∧
      ∀ b', cs.foldlM g b = .ok b' → holds b' := by
  induction cs generalizing b with
  | nil =>
    refine ⟨rfl, ?_⟩
    rintro _ ⟨⟩
    exact hb
  | cons c cs ih =>
    rw [List.foldlM_cons, List.foldlM_cons]
    cases hg : g b c with
    | error failure =>
      have hfails : (f (view b) c).run = some (.error failure) := by rw [hstep b c hb, hg]; rfl
      refine ⟨?_, nofun⟩
      rw [ExceptT.run_bind, hfails]
      rfl
    | ok b' =>
      have hsucceeds : (f (view b) c).run = some (.ok (view b')) := by rw [hstep b c hb, hg]; rfl
      obtain ⟨hrun, hlast⟩ := ih (hkeeps b c b' hb hg)
      refine ⟨?_, hlast⟩
      rw [ExceptT.run_bind, hsucceeds]
      exact hrun

end Steps

/-! ## Locating and editing -/

/-- Whether an artifact differs from another one in its text only. -/
def Rewrites (artifact other : Artifact) : Prop :=
  other.anchor = artifact.anchor ∧ other.origin = artifact.origin

variable {artifact other : Artifact}

theorem run_locate (h : Rewrites artifact other) :
    (locate artifact other.text.toList).run = some (other.locate.map spanOf) := by
  simp only [locate, Artifact.locate, h.1, h.2, findAnchor?_eq]
  cases hfound : anchoredList? artifact.anchor.toList other.text.toList with
  | none => rfl
  | some inside =>
    obtain ⟨front, hfront⟩ := suffix_of_anchoredList? hfound
    have hbracket : bracketOf other.text.toList inside = byteLength front := by
      rw [← hfront, bracketOf_append]
    have hhead : other.text.toList.take (other.text.toList.length - inside.length)
        = front ++ ['['] := by
      have hlength : (front ++ '[' :: inside).length - inside.length = (front ++ ['[']).length := by
        simp only [List.length_append, List.length_cons, List.length_nil]
        omega
      rw [← hfront, hlength, List.append_cons front '[' inside, List.take_left]
    have hscan := scan?_eq front inside
    rw [hfront] at hscan
    simp only [hhead, Option.map_some, liftM_some_bind, hbracket, hscan]
    cases ListText.scan (front ++ ['[']) inside <;> rfl

theorem run_removeNode (h : Rewrites artifact other) (node : ChangeNode) :
    (removeNode artifact other.text.toList node).run
      = some ((other.removeValue node.value).map (·.text.toList)) := by
  rw [removeNode, ExceptT.run_bind, run_locate h]
  cases hlocate : other.locate with
  | error failure =>
    rw [Artifact.removeValue, hlocate]
    rfl
  | ok list =>
    obtain ⟨htiled, hrender, -⟩ := Artifact.locate_eq_ok_iff.1 hlocate
    obtain ⟨front, hhead⟩ := Artifact.exists_head_of_locate hlocate
    have hwithout := without?_eq htiled hhead node.value
    rw [hrender] at hwithout
    rw [Artifact.removeValue_eq hlocate]
    change (ExceptT.lift (without? other.text.toList (spanOf list) node.value)).run = _
    rw [ExceptT.run_lift, hwithout]
    simp [Artifact.withList, Except.map]

theorem addNode_eq {list : ListText} (h : other.locate = .ok list) (node : ChangeNode) :
    other.addNode node = .ok (if list.values.contains node.value then other
      else other.withList (list.append (node.render list.style).toList)) := by
  simp only [Artifact.addNode, h, bind, Except.bind]
  split <;> rfl

theorem run_addNode (h : Rewrites artifact other) (node : ChangeNode) :
    (addNode artifact other.text.toList node).run
      = some ((other.addNode node).map (·.text.toList)) := by
  rw [addNode, ExceptT.run_bind, run_locate h]
  cases hlocate : other.locate with
  | error failure =>
    rw [Artifact.addNode, hlocate]
    rfl
  | ok list =>
    obtain ⟨htiled, hrender, -⟩ := Artifact.locate_eq_ok_iff.1 hlocate
    obtain ⟨front, hhead⟩ := Artifact.exists_head_of_locate hlocate
    have hwith := with?_eq htiled hhead node
    rw [hrender] at hwith
    rw [addNode_eq hlocate]
    change (ExceptT.lift (with? other.text.toList (spanOf list) node)).run = _
    rw [ExceptT.run_lift, hwith]
    split
    · rfl
    · simp [Artifact.withList, Except.map]

theorem Rewrites.removeValue {result : Artifact} (h : Rewrites artifact other) {value : String}
    (hresult : other.removeValue value = .ok result) : Rewrites artifact result := by
  cases hlocate : other.locate with
  | error failure =>
    rw [Artifact.removeValue, hlocate] at hresult
    cases hresult
  | ok list =>
    rw [Artifact.removeValue_eq hlocate] at hresult
    cases hresult
    exact h

theorem Rewrites.addNode {result : Artifact} (h : Rewrites artifact other) {node : ChangeNode}
    (hresult : other.addNode node = .ok result) : Rewrites artifact result := by
  cases hlocate : other.locate with
  | error failure =>
    rw [Artifact.addNode, hlocate] at hresult
    cases hresult
  | ok list =>
    rw [addNode_eq hlocate] at hresult
    split at hresult
    all_goals
      cases hresult
      exact h

theorem Rewrites.withText {result : Artifact} (h : Rewrites artifact result) :
    { artifact with text := String.ofList result.text.toList } = result := by
  obtain ⟨text, anchor, origin⟩ := result
  obtain ⟨rfl, rfl⟩ := h
  rw [String.ofList_toList]

/-- For every artifact the editor completes, with a result or a failure: no slice is taken out of
order, outside of the text or within a character, no index is out of range and no difference is
negative. What it comes to is what the edits of the list come to. -/
theorem edits_complete (artifact : Artifact) :
    (∀ change, (apply artifact change).run = some (artifact.apply change)) ∧
      (entries artifact).run = some artifact.entries := by
  have hself : Rewrites artifact artifact := ⟨rfl, rfl⟩
  constructor
  · intro change
    refine run_bind (run_ofExcept _) fun _ _ => run_bind (run_locate hself) fun _ _ => ?_
    by_cases hempty : change.isEmpty
    · have hnone : change.add = [] ∧ change.remove = [] := by
        simpa [ChangeSet.isEmpty] using hempty
      rw [if_pos hempty, hnone.2, hnone.1]
      rfl
    rw [if_neg hempty]
    obtain ⟨hremove, hremoved⟩ := run_foldlM (fun _ node h => run_removeNode h node)
      (fun _ _ _ h hresult => h.removeValue hresult) change.remove hself
    refine run_bind hremove fun removed heq => ?_
    obtain ⟨hadd, hadded⟩ := run_foldlM (fun _ node h => run_addNode h node)
      (fun _ _ _ h hresult => h.addNode hresult) change.add (hremoved removed heq)
    rw [← bind_pure (change.add.foldlM Artifact.addNode removed)]
    refine run_bind hadd fun result hresult => ?_
    exact congrArg (some ∘ Except.ok) (hadded result hresult).withText
  · rw [entries, Artifact.entries, ExceptT.run_bind, run_locate hself]
    cases artifact.locate with
    | error failure => rfl
    | ok list => exact congrArg (some ∘ Except.ok) (map_value_itemsFrom _ _)

end StubManager.Offset
