import StubManager.Proofs.Json.Reading

/-!
# The value of one member of a document

`Json.ReadsAround` marks the place in a text where the value of a member is read, while the rest of
the document is read around it. Whatever is written in that place, the rest is read as before:
with a value there the document is read with that value (`ReadsAround.reads`), with anything else
there it is no document (`ReadsAround.rejects`).
-/

namespace StubManager.Json

/-- Whether a part of a document is read, apart from the value of one member, which is to be read at
`spot` with `behind` behind it. -/
inductive ReadsAround :
    List Char → (Value → Part) → (rest spot behind : List Char) → Prop where
  | here {text key more spot behind : List Char} (hkey : inside? text = some (key, more))
    (hcolon : skip more = ':' :: spot) :
    ReadsAround ('"' :: text) (.member key) behind spot behind
  | blank {c : Char} {text rest spot behind : List Char} {part : Value → Part} (hc : isSpace c)
    (h : ReadsAround text part rest spot behind) : ReadsAround (c :: text) part rest spot behind
  | array {text rest spot behind : List Char} {items : Value → List Value}
    (h : ReadsAround text (fun v => .items (items v)) rest spot behind) :
    ReadsAround ('[' :: text) (fun v => .value (.array (items v))) rest spot behind
  | object {text rest spot behind : List Char} {members : Value → List (List Char × Value)}
    (h : ReadsAround text (fun v => .members (members v)) rest spot behind) :
    ReadsAround ('\x7b' :: text) (fun v => .value (.object (members v))) rest spot behind
  | onlyItem {text more rest spot behind : List Char} {item : Value → Value}
    (h : ReadsAround text (fun v => .value (item v)) more spot behind)
    (hclose : skip more = ']' :: rest) :
    ReadsAround text (fun v => .items [item v]) rest spot behind
  | firstItem {text more next rest spot behind : List Char} {item : Value → Value}
    {items : List Value} (h : ReadsAround text (fun v => .value (item v)) more spot behind)
    (hcomma : skip more = ',' :: next) (hitems : Reads next (.items items) rest) :
    ReadsAround text (fun v => .items (item v :: items)) rest spot behind
  | laterItem {text more next rest spot behind : List Char} {item : Value}
    {items : Value → List Value} (hitem : Reads text (.value item) more)
    (hcomma : skip more = ',' :: next)
    (h : ReadsAround next (fun v => .items (items v)) rest spot behind) :
    ReadsAround text (fun v => .items (item :: items v)) rest spot behind
  | member {text key more next rest spot behind : List Char} {value : Value → Value}
    (hkey : inside? text = some (key, more)) (hcolon : skip more = ':' :: next)
    (h : ReadsAround next (fun v => .value (value v)) rest spot behind) :
    ReadsAround ('"' :: text) (fun v => .member key (value v)) rest spot behind
  | onlyMember {text key more rest spot behind : List Char} {value : Value → Value}
    (h : ReadsAround text (fun v => .member key (value v)) more spot behind)
    (hclose : skip more = '\x7d' :: rest) :
    ReadsAround text (fun v => .members [(key, value v)]) rest spot behind
  | firstMember {text key more next rest spot behind : List Char} {value : Value → Value}
    {members : List (List Char × Value)}
    (h : ReadsAround text (fun v => .member key (value v)) more spot behind)
    (hcomma : skip more = ',' :: next) (hmembers : Reads next (.members members) rest) :
    ReadsAround text (fun v => .members ((key, value v) :: members)) rest spot behind
  | laterMember {text key more next rest spot behind : List Char} {value : Value}
    {members : Value → List (List Char × Value)} (hmember : Reads text (.member key value) more)
    (hcomma : skip more = ',' :: next)
    (h : ReadsAround next (fun v => .members (members v)) rest spot behind) :
    ReadsAround text (fun v => .members ((key, value) :: members v)) rest spot behind

namespace ReadsAround

/-- A value in the place of the marked one is read as part of the whole. -/
theorem reads {text rest spot behind : List Char} {part : Value → Part} {v : Value}
    (h : ReadsAround text part rest spot behind) (hv : Reads spot (.value v) behind) :
    Reads text (part v) rest := by
  induction h with
  | here hkey hcolon => exact .member hkey hcolon hv
  | blank hc _ ih => exact .blank hc (ih hv)
  | array _ ih => exact .array (ih hv)
  | object _ ih => exact .object (ih hv)
  | onlyItem _ hclose ih => exact .lastItem (ih hv) hclose
  | firstItem _ hcomma hitems ih => exact .item (ih hv) hcomma hitems
  | laterItem hitem hcomma _ ih => exact .item hitem hcomma (ih hv)
  | member hkey hcolon _ ih => exact .member hkey hcolon (ih hv)
  | onlyMember _ hclose ih => exact .lastMember (ih hv) hclose
  | firstMember _ hcomma hmembers ih => exact .members (ih hv) hcomma hmembers
  | laterMember hmember hcomma _ ih => exact .members hmember hcomma (ih hv)

/-- The text up to the marked place does not depend on what is there. -/
theorem exists_front {text rest spot behind : List Char} {part : Value → Part}
    (h : ReadsAround text part rest spot behind) :
    ∃ front, text = front ++ spot ∧
      ∀ spot', ReadsAround (front ++ spot') part rest spot' behind := by
  induction h with
  | @here text key more spot behind hkey hcolon =>
    obtain ⟨rfl, hinside⟩ := of_inside? hkey
    obtain ⟨blanks, rfl, hskip⟩ := exists_blanks_of_skip hcolon
    refine ⟨'"' :: (key ++ '"' :: (blanks ++ [':'])), by simp, fun spot' => ?_⟩
    have hhere : ReadsAround ('"' :: (key ++ '"' :: (blanks ++ ':' :: spot'))) (.member key) behind
        spot' behind := .here (hinside _) (hskip spot')
    simpa using hhere
  | @blank c text rest spot behind part hc h ih =>
    obtain ⟨front, rfl, haround⟩ := ih
    exact ⟨c :: front, rfl, fun spot' => .blank hc (haround spot')⟩
  | @array text rest spot behind items h ih =>
    obtain ⟨front, rfl, haround⟩ := ih
    exact ⟨'[' :: front, rfl, fun spot' => .array (haround spot')⟩
  | @object text rest spot behind members h ih =>
    obtain ⟨front, rfl, haround⟩ := ih
    exact ⟨'\x7b' :: front, rfl, fun spot' => .object (haround spot')⟩
  | onlyItem _ hclose ih =>
    obtain ⟨front, rfl, haround⟩ := ih
    exact ⟨front, rfl, fun spot' => .onlyItem (haround spot') hclose⟩
  | firstItem _ hcomma hitems ih =>
    obtain ⟨front, rfl, haround⟩ := ih
    exact ⟨front, rfl, fun spot' => .firstItem (haround spot') hcomma hitems⟩
  | @laterItem text more next rest spot behind item items hitem hcomma h ih =>
    obtain ⟨front, rfl, hread⟩ := hitem.exists_front
    obtain ⟨blanks, rfl, hskip⟩ := exists_blanks_of_skip hcomma
    obtain ⟨front', rfl, haround⟩ := ih
    refine ⟨front ++ (blanks ++ ',' :: front'), by simp, fun spot' => ?_⟩
    have hread' := hread (blanks ++ ',' :: (front' ++ spot')) (by simp [List.head?_append])
    simpa using ReadsAround.laterItem hread' (hskip _) (haround spot')
  | @member text key more next rest spot behind value hkey hcolon h ih =>
    obtain ⟨rfl, hinside⟩ := of_inside? hkey
    obtain ⟨blanks, rfl, hskip⟩ := exists_blanks_of_skip hcolon
    obtain ⟨front, rfl, haround⟩ := ih
    refine ⟨'"' :: (key ++ '"' :: (blanks ++ ':' :: front)), by simp, fun spot' => ?_⟩
    simpa using ReadsAround.member (hinside _) (hskip _) (haround spot')
  | onlyMember _ hclose ih =>
    obtain ⟨front, rfl, haround⟩ := ih
    exact ⟨front, rfl, fun spot' => .onlyMember (haround spot') hclose⟩
  | firstMember _ hcomma hmembers ih =>
    obtain ⟨front, rfl, haround⟩ := ih
    exact ⟨front, rfl, fun spot' => .firstMember (haround spot') hcomma hmembers⟩
  | @laterMember text key more next rest spot behind value members hmember hcomma h ih =>
    obtain ⟨front, rfl, hread⟩ := hmember.exists_front
    obtain ⟨blanks, rfl, hskip⟩ := exists_blanks_of_skip hcomma
    obtain ⟨front', rfl, haround⟩ := ih
    refine ⟨front ++ (blanks ++ ',' :: front'), by simp, fun spot' => ?_⟩
    have hread' := hread (blanks ++ ',' :: (front' ++ spot')) (by simp [List.head?_append])
    simpa using ReadsAround.laterMember hread' (hskip _) (haround spot')

end ReadsAround

/-! ## What is not read -/

/-- Neither a closing bracket nor a closing brace starts a part of a document. -/
def Opens (text : List Char) : Prop := ∀ c rest, skip text = c :: rest → c ≠ ']' ∧ c ≠ '\x7d'

theorem Opens.of_cons {c : Char} (hspace : isSpace c = false) (hc : c ≠ ']' ∧ c ≠ '\x7d')
    (text : List Char) : Opens (c :: text) := by
  intro c' rest h
  rw [skip_cons_of_not hspace] at h
  rwa [← (List.cons.inj h).1]

theorem Opens.blank {c : Char} {text : List Char} (hc : isSpace c) (h : Opens text) :
    Opens (c :: text) := by
  intro c' rest hskip
  rw [skip_cons hc] at hskip
  exact h c' rest hskip

theorem Reads.opens {text rest : List Char} {part : Part} (h : Reads text part rest) :
    Opens text := by
  induction h with
  | blank hc _ ih => exact ih.blank hc
  | null | true | false | string | noItems | array | noMembers | object | member =>
    exact .of_cons rfl (by decide) _
  | @number text number rest h =>
    obtain ⟨c, more, rfl, hspace, hstart⟩ := exists_head_of_number? h
    obtain ⟨rfl, -⟩ := local_number? h
    simp only [List.mem_cons, not_or] at hstart
    exact .of_cons hspace ⟨hstart.2.2.1, hstart.2.2.2.2.1⟩ _
  | lastItem _ _ ih | item _ _ _ ih | lastMember _ _ ih | members _ _ _ ih => exact ih

theorem ReadsAround.opens {text rest spot behind : List Char} {part : Value → Part}
    (h : ReadsAround text part rest spot behind) : Opens text := by
  induction h with
  | blank hc _ ih => exact ih.blank hc
  | here | array | object | member => exact .of_cons rfl (by decide) _
  | onlyItem _ _ ih | firstItem _ _ _ ih | onlyMember _ _ ih | firstMember _ _ _ ih => exact ih
  | laterItem hitem => exact hitem.opens
  | laterMember hmember => exact hmember.opens

theorem Reads.of_blank {c : Char} {text rest : List Char} {part : Part} (hc : isSpace c)
    (h : Reads (c :: text) part rest) : Reads text part rest := by
  generalize htext : c :: text = whole at h
  induction h with
  | blank _ h => cases htext; exact h
  | null | true | false | string | noItems | array | noMembers | object | member =>
    cases htext
    exact absurd hc (by decide)
  | number h =>
    obtain ⟨c', more, rfl, hspace, -⟩ := exists_head_of_number? h
    obtain ⟨rfl, -⟩ := local_number? h
    cases htext
    rw [hspace] at hc
    cases hc
  | lastItem _ hclose ih => exact .lastItem (ih htext) hclose
  | item _ hcomma hitems ih => exact .item (ih htext) hcomma hitems
  | lastMember _ hclose ih => exact .lastMember (ih htext) hclose
  | members _ hcomma hmembers ih => exact .members (ih htext) hcomma hmembers

theorem reads_blanks_iff {blanks text rest : List Char} {part : Part}
    (hblanks : ∀ c ∈ blanks, isSpace c) :
    Reads (blanks ++ text) part rest ↔ Reads text part rest := by
  refine ⟨fun h => ?_, fun h => h.of_blanks hblanks⟩
  induction blanks with
  | nil => exact h
  | cons c blanks ih =>
    rw [List.forall_mem_cons] at hblanks
    exact ih hblanks.2 (h.of_blank hblanks.1)

theorem Reads.exists_item {text rest : List Char} {items : List Value}
    (h : Reads text (.items items) rest) :
    ∃ v more, Reads text (.value v) more ∧ ((skip more = ']' :: rest ∧ items = [v]) ∨
      ∃ next items', skip more = ',' :: next ∧ Reads next (.items items') rest ∧
        items = v :: items') := by
  generalize hpart : Part.items items = part at h
  induction h with
  | blank hc _ ih =>
    obtain ⟨v, more, hv, hmore⟩ := ih hpart
    exact ⟨v, more, .blank hc hv, hmore⟩
  | lastItem h hclose =>
    cases hpart
    exact ⟨_, _, h, .inl ⟨hclose, rfl⟩⟩
  | item h hcomma hitems =>
    cases hpart
    exact ⟨_, _, h, .inr ⟨_, _, hcomma, hitems, rfl⟩⟩
  | null | true | false | string | noItems | array | noMembers | object | member | number |
    lastMember | members => cases hpart

theorem Reads.exists_member {text rest : List Char} {members : List (List Char × Value)}
    (h : Reads text (.members members) rest) :
    ∃ key v more, Reads text (.member key v) more ∧
      ((skip more = '\x7d' :: rest ∧ members = [(key, v)]) ∨
      ∃ next members', skip more = ',' :: next ∧ Reads next (.members members') rest ∧
        members = (key, v) :: members') := by
  generalize hpart : Part.members members = part at h
  induction h with
  | blank hc _ ih =>
    obtain ⟨key, v, more, hv, hmore⟩ := ih hpart
    exact ⟨key, v, more, .blank hc hv, hmore⟩
  | lastMember h hclose =>
    cases hpart
    exact ⟨_, _, _, h, .inl ⟨hclose, rfl⟩⟩
  | members h hcomma hmembers =>
    cases hpart
    exact ⟨_, _, _, h, .inr ⟨_, _, hcomma, hmembers, rfl⟩⟩
  | null | true | false | string | noItems | array | noMembers | object | member | number |
    lastItem | item => cases hpart

theorem Reads.exists_string {text rest inside : List Char}
    (h : Reads text (.value (.string inside)) rest) :
    ∃ blanks quoted, (∀ c ∈ blanks, isSpace c) ∧ text = blanks ++ '"' :: quoted ∧
      inside? quoted = some (inside, rest) := by
  generalize hpart : Part.value (.string inside) = part at h
  induction h with
  | @blank c text rest part hc _ ih =>
    obtain ⟨blanks, quoted, hblanks, rfl, hquoted⟩ := ih hpart
    exact ⟨c :: blanks, quoted, List.forall_mem_cons.2 ⟨hc, hblanks⟩, rfl, hquoted⟩
  | string h =>
    cases hpart
    exact ⟨[], _, by simp, rfl, h⟩
  | null | true | false | noItems | array | noMembers | object | member | number | lastItem |
    item | lastMember | members => cases hpart

theorem Reads.exists_items {text rest : List Char} {v : Value}
    (h : Reads ('[' :: text) (.value v) rest) (hopens : Opens text) :
    ∃ items, Reads text (.items items) rest ∧ v = .array items := by
  cases h with
  | blank hc => cases hc
  | number h =>
    obtain ⟨c, more, rfl, -, hstart⟩ := exists_head_of_number? h
    cases (local_number? h).1
    exact absurd hstart (by decide)
  | noItems h => exact absurd rfl (hopens _ _ h).1
  | array h => exact ⟨_, h, rfl⟩

theorem Reads.exists_members {text rest : List Char} {v : Value}
    (h : Reads ('\x7b' :: text) (.value v) rest) (hopens : Opens text) :
    ∃ members, Reads text (.members members) rest ∧ v = .object members := by
  cases h with
  | blank hc => cases hc
  | number h =>
    obtain ⟨c, more, rfl, -, hstart⟩ := exists_head_of_number? h
    cases (local_number? h).1
    exact absurd hstart (by decide)
  | noMembers h => exact absurd rfl (hopens _ _ h).2
  | object h => exact ⟨_, h, rfl⟩

theorem Reads.member_unique {text rest rest' key key' : List Char} {v v' : Value}
    (h : Reads text (.member key v) rest) (h' : Reads text (.member key' v') rest') :
    key = key' ∧ v = v' ∧ rest = rest' := by
  obtain ⟨inner, more, next, hquote, hkey, hcolon, hread⟩ := h.parses _ (Nat.le_refl _)
  obtain ⟨inner', more', next', hquote', hkey', hcolon', hread'⟩ := h'.parses _ (Nat.le_refl _)
  simp_all [enough]

/-- Whether a text does not start with any part of the kind of the given one. -/
def Rejects (text : List Char) : Part → Prop
  | .value _ => ∀ v rest, ¬ Reads text (.value v) rest
  | .items _ => ∀ items rest, ¬ Reads text (.items items) rest
  | .member .. => ∀ key v rest, ¬ Reads text (.member key v) rest
  | .members _ => ∀ members rest, ¬ Reads text (.members members) rest

theorem Rejects.blank {c : Char} {text : List Char} {part : Part} (hc : isSpace c)
    (h : Rejects text part) : Rejects (c :: text) part := by
  cases part with
  | value => exact fun _ _ hread => h _ _ (hread.of_blank hc)
  | items => exact fun _ _ hread => h _ _ (hread.of_blank hc)
  | member => exact fun _ _ _ hread => h _ _ _ (hread.of_blank hc)
  | members => exact fun _ _ hread => h _ _ (hread.of_blank hc)

/-- Without a value in the marked place there is no whole. -/
theorem ReadsAround.rejects {text rest spot behind : List Char} {part : Value → Part}
    (h : ReadsAround text part rest spot behind) (hspot : ∀ v rest, ¬ Reads spot (.value v) rest)
    (v : Value) : Rejects text (part v) := by
  induction h with
  | here hkey hcolon =>
    intro key' v' rest hread
    cases hread with
    | blank hc => cases hc
    | member hkey' hcolon' h =>
      rw [hkey] at hkey'
      cases hkey'
      rw [hcolon] at hcolon'
      cases hcolon'
      exact hspot _ _ h
  | blank hc _ ih => exact (ih hspot).blank hc
  | array h ih =>
    intro v' rest hread
    obtain ⟨items, hitems, -⟩ := hread.exists_items h.opens
    exact ih hspot _ _ hitems
  | object h ih =>
    intro v' rest hread
    obtain ⟨members, hmembers, -⟩ := hread.exists_members h.opens
    exact ih hspot _ _ hmembers
  | onlyItem _ _ ih | firstItem _ _ _ ih =>
    intro items rest hread
    obtain ⟨v', more, hv, -⟩ := hread.exists_item
    exact ih hspot _ _ hv
  | laterItem hitem hcomma _ ih =>
    intro items rest hread
    obtain ⟨v', more, hv, hmore⟩ := hread.exists_item
    obtain ⟨-, rfl⟩ := hitem.value_unique hv
    rcases hmore with ⟨hclose, -⟩ | ⟨next, items', hcomma', hitems, -⟩
    · rw [hcomma] at hclose
      cases hclose
    · rw [hcomma] at hcomma'
      cases hcomma'
      exact ih hspot _ _ hitems
  | member hkey hcolon _ ih =>
    intro key' v' rest hread
    cases hread with
    | blank hc => cases hc
    | member hkey' hcolon' h =>
      rw [hkey] at hkey'
      cases hkey'
      rw [hcolon] at hcolon'
      cases hcolon'
      exact ih hspot _ _ h
  | onlyMember _ _ ih | firstMember _ _ _ ih =>
    intro members rest hread
    obtain ⟨key', v', more, hv, -⟩ := hread.exists_member
    exact ih hspot _ _ _ hv
  | laterMember hmember hcomma _ ih =>
    intro members rest hread
    obtain ⟨key', v', more, hv, hmore⟩ := hread.exists_member
    obtain ⟨-, -, rfl⟩ := hmember.member_unique hv
    rcases hmore with ⟨hclose, -⟩ | ⟨next, members', hcomma', hmembers, -⟩
    · rw [hcomma] at hclose
      cases hclose
    · rw [hcomma] at hcomma'
      cases hcomma'
      exact ih hspot _ _ hmembers

end StubManager.Json
