import Mathlib.Data.Option.Basic
import StubManager.Proofs.Yaml.Node
import StubManager.Proofs.Yaml.Thinning

/-!
# Lists of scalars inside of a document

What a document is put together from its tokens to does not depend on the scalars of a list between
brackets, but for the list itself (`ofTokens?_splice`). The steps on the tokens with the one list
follow those on the tokens with the other (`Follows`), with more fuel for more scalars.
-/

namespace StubManager.Yaml

namespace Compose

open Yaml.Node

variable {α β : Type}

/-! ## Lists of scalars -/

/-- The tokens of scalars behind another one, up to the closing bracket; `comma` says that the last
is followed by a comma. -/
def laterTokens (comma : Bool) : List (List Char × Bool) → List Token
  | [] => (if comma then [.flowEntry] else []) ++ [.flowSequenceEnd]
  | (text, plain) :: more => .flowEntry :: .scalar text plain :: laterTokens comma more

/-- The tokens of scalars behind the opening bracket, up to the closing one. -/
def listTokens (comma : Bool) : List (List Char × Bool) → List Token
  | [] => [.flowSequenceEnd]
  | (text, plain) :: more => .scalar text plain :: laterTokens comma more

/-- The node of a scalar. -/
def scalarNode (scalar : List Char × Bool) : Node := .scalar none none scalar.1 scalar.2

theorem thinItems_scalars (scalars : List (List Char × Bool)) :
    thin.thinItems (scalars.map scalarNode) = [] :=
  thinItems_of_loose (List.forall_mem_map.2 fun _ _ => rfl)

/-- Scalars behind another one are put together if there is fuel for them. -/
theorem flowItems_later {comma : Bool} {scalars : List (List Char × Bool)} {s : Composition}
    {rest : List Token} (h : s.tokens = laterTokens comma scalars ++ rest) (fuel : Nat) :
    flowItems false fuel s
      = if scalars.length < fuel then some (scalars.map scalarNode, { s with tokens := rest })
        else none := by
  obtain ⟨tokens, anchors, handles⟩ := s
  obtain rfl : tokens = _ := h
  induction scalars generalizing fuel with
  | nil =>
    cases fuel with
    | zero => rfl
    | succ fuel => cases comma <;> rfl
  | cons scalar scalars ih =>
    obtain ⟨text, plain⟩ := scalar
    match fuel with
    | 0 => rfl
    | 1 => rfl
    | fuel + 2 =>
      have hmore := ih (fuel + 1)
      have hstep : flowItems false (fuel + 2)
            ⟨laterTokens comma ((text, plain) :: scalars) ++ rest, anchors, handles⟩
          = (flowItems false (fuel + 1) ⟨laterTokens comma scalars ++ rest, anchors, handles⟩).bind
              fun read => some (.scalar none none text plain :: read.1, read.2) := rfl
      have hlength : ((text, plain) :: scalars).length < fuel + 2 ↔ scalars.length < fuel + 1 :=
        Nat.succ_lt_succ_iff
      simp only [hstep, hmore, hlength]
      split <;> rfl

theorem flowItems_list {comma : Bool} {scalars : List (List Char × Bool)} {s : Composition}
    {rest : List Token} (h : s.tokens = listTokens comma scalars ++ rest) (fuel : Nat) :
    flowItems true fuel s
      = if scalars.length < fuel then some (scalars.map scalarNode, { s with tokens := rest })
        else none := by
  obtain ⟨tokens, anchors, handles⟩ := s
  obtain rfl : tokens = _ := h
  match scalars, fuel with
  | [], 0 => rfl
  | [], fuel + 1 => rfl
  | _ :: _, 0 => rfl
  | _ :: _, 1 => rfl
  | (text, plain) :: scalars, fuel + 2 =>
    have hstep : flowItems true (fuel + 2)
          ⟨listTokens comma ((text, plain) :: scalars) ++ rest, anchors, handles⟩
        = (flowItems false (fuel + 1) ⟨laterTokens comma scalars ++ rest, anchors, handles⟩).bind
            fun read => some (.scalar none none text plain :: read.1, read.2) := rfl
    have hlength : ((text, plain) :: scalars).length < fuel + 2 ↔ scalars.length < fuel + 1 :=
      Nat.succ_lt_succ_iff
    simp only [hstep, flowItems_later (s := ⟨_, anchors, handles⟩) rfl, hlength]
    split <;> rfl

/-! ## Documents with another list -/

/-- A list that can be put in the place of another one, at the cost of some fuel. -/
def Replaces (extra : Nat) (old new : List Token) : Prop :=
  ∀ fuel s rest items after, s.tokens = old ++ rest → flowItems true fuel s = some (items, after) →
    ∃ items', AlikeItems items items' ∧
      flowItems true (fuel + extra) { s with tokens := new ++ rest } = some (items', after)

theorem replaces_of_scalars {comma comma' : Bool} {scalars scalars' : List (List Char × Bool)}
    {extra : Nat} (h : scalars'.length ≤ scalars.length + extra) :
    Replaces extra (listTokens comma scalars) (listTokens comma' scalars') := by
  intro fuel s rest items after htokens hitems
  rw [flowItems_list htokens] at hitems
  split at hitems
  · next hfuel =>
    cases hitems
    refine ⟨_, ?_, (flowItems_list rfl _).trans (if_pos (by omega))⟩
    rw [AlikeItems, thinItems_scalars, thinItems_scalars]
  · cases hitems

section

variable {extra : Nat} {old new : List Token} (hreplaces : Replaces extra old new)

/-- Tokens with one list or with the other in its place. The list may lie behind. -/
inductive SplicedTokens (old new : List Token) : List Token → List Token → Prop where
  | same (tokens : List Token) : SplicedTokens old new tokens tokens
  | list (rest : List Token) : SplicedTokens old new
      (.flowSequenceStart :: (old ++ rest)) (.flowSequenceStart :: (new ++ rest))
  | cons (token : Token) {tokens tokens' : List Token} (h : SplicedTokens old new tokens tokens') :
      SplicedTokens old new (token :: tokens) (token :: tokens')

/-- Two points on the way through such tokens. -/
structure Spliced (old new : List Token) (s s' : Composition) : Prop where
  tokens : SplicedTokens old new s.tokens s'.tokens
  anchors : s.anchors = s'.anchors
  handles : s.handles = s'.handles

theorem SplicedTokens.head? {tokens tokens' : List Token}
    (h : SplicedTokens old new tokens tokens') : tokens.head? = tokens'.head? := by
  cases h <;> rfl

theorem SplicedTokens.drop {tokens tokens' : List Token} (h : SplicedTokens old new tokens tokens')
    (hhead : tokens.head? ≠ some .flowSequenceStart) :
    SplicedTokens old new (tokens.drop 1) (tokens'.drop 1) := by
  cases h with
  | same tokens => exact .same _
  | list rest => exact absurd rfl hhead
  | cons token h => exact h

/-- What one step returns the other returns too, but for the list. -/
def Follows (old new : List Token) (related : α → α → Prop) (x x' : Compose α)
    (s s' : Composition) : Prop :=
  ∀ a t, x s = some (a, t) → ∃ a' t', x' s' = some (a', t') ∧ related a a' ∧ Spliced old new t t'

variable {related : α → α → Prop} {related' : β → β → Prop} {s s' : Composition}

theorem follows_failure {x' : Compose α} : Follows old new related failure x' s s' :=
  fun _ _ h => nomatch h

theorem follows_pure {a a' : α} (ha : related a a') (hs : Spliced old new s s') :
    Follows old new related (pure a) (pure a') s s' := by
  rintro _ _ ⟨⟩
  exact ⟨a', s', rfl, ha, hs⟩

theorem Follows.bind {x x' : Compose α} {f f' : α → Compose β}
    (h : Follows old new related x x' s s')
    (hf : ∀ a a' t t', related a a' → Spliced old new t t' →
      Follows old new related' (f a) (f' a') t t') :
    Follows old new related' (x >>= f) (x' >>= f') s s' := by
  rintro b t hb
  rw [bind_apply, Option.bind_eq_some_iff] at hb
  obtain ⟨⟨a, t₁⟩, hx, hf'⟩ := hb
  obtain ⟨a', t₁', hx', ha, ht⟩ := h a t₁ hx
  obtain ⟨b', t', hb', hrelated, ht'⟩ := hf a a' t₁ t₁' ha ht b t hf'
  exact ⟨b', t', by rw [bind_apply, hx']; exact hb', hrelated, ht'⟩

theorem Follows.then {x x' : Compose α} {f f' : α → Compose β}
    (h : Follows old new (· = ·) x x' s s')
    (hf : ∀ a t t', Spliced old new t t' → Follows old new related' (f a) (f' a) t t') :
    Follows old new related' (x >>= f) (x' >>= f') s s' := by
  refine h.bind fun a a' t t' heq ht => ?_
  subst heq
  exact hf a t t' ht

/-- The next token is the same. -/
theorem Follows.peek {f f' : Option Token → Compose β} (hs : Spliced old new s s')
    (h : Follows old new related' (f s.tokens.head?) (f' s.tokens.head?) s s') :
    Follows old new related' (peek >>= f) (peek >>= f') s s' := by
  intro b t hb
  obtain ⟨b', t', hb', hrelated⟩ := h b t hb
  rw [hs.tokens.head?] at hb'
  exact ⟨b', t', hb', hrelated⟩

theorem Follows.sees {f f' : Bool → Compose β} (hs : Spliced old new s s') (tokens : List Token)
    (h : Follows old new related' (f (s.tokens.head?.any tokens.contains))
      (f' (s.tokens.head?.any tokens.contains)) s s') :
    Follows old new related' (sees tokens >>= f) (sees tokens >>= f') s s' := by
  intro b t hb
  obtain ⟨b', t', hb', hrelated⟩ := h b t hb
  rw [hs.tokens.head?] at hb'
  exact ⟨b', t', hb', hrelated⟩

theorem Follows.skip {f f' : Unit → Compose β} (hs : Spliced old new s s')
    (hhead : s.tokens.head? ≠ some .flowSequenceStart)
    (h : ∀ t t', Spliced old new t t' → Follows old new related' (f ()) (f' ()) t t') :
    Follows old new related' (skip >>= f) (skip >>= f') s s' :=
  h _ _ ⟨hs.tokens.drop hhead, hs.anchors, hs.handles⟩

/-- Past one more token, which is all. -/
theorem follows_skip {a a' : α} (ha : related a a') (hs : Spliced old new s s')
    (hhead : s.tokens.head? ≠ some .flowSequenceStart) :
    Follows old new related (do skip; return a) (do skip; return a') s s' :=
  .skip hs hhead fun _ _ ht => follows_pure ha ht

theorem head?_ne_of_seen {tokens : List Token} (h : s.tokens.head?.any tokens.contains)
    (hstart : .flowSequenceStart ∉ tokens) : s.tokens.head? ≠ some .flowSequenceStart := by
  intro hhead
  rw [hhead] at h
  exact hstart (by simpa using h)

/-- Behind a comma, unless nothing is before. -/
theorem follows_comma {f f' : Unit → Compose β} (hs : Spliced old new s s') (first : Bool)
    (h : ∀ t t', Spliced old new t t' → Follows old new related' (f ()) (f' ()) t t') :
    Follows old new related'
      (if first then f () else do guard (← sees [.flowEntry]); let r ← skip; f r)
      (if first then f' () else do guard (← sees [.flowEntry]); let r ← skip; f' r) s s' := by
  split
  · exact h s s' hs
  · refine .sees hs [.flowEntry] ?_
    cases hseen : s.tokens.head?.any [Token.flowEntry].contains with
    | false => exact follows_failure
    | true => exact .skip hs (head?_ne_of_seen hseen (by simp)) h

/-- Behind the next token, whatever that is. -/
theorem Follows.behind {f f' : Unit → Compose β}
    (h : Follows old new related' (f ()) (f' ()) { s with tokens := s.tokens.drop 1 }
      { s' with tokens := s'.tokens.drop 1 }) :
    Follows old new related' (Compose.skip >>= f) (Compose.skip >>= f') s s' := h

/-- A step that only looks names up. -/
theorem follows_of_lookup {x : Compose α}
    {f : List (List Char × Nat) → List (List Char × List Char) → Option α}
    (hx : ∀ s, x s = (f s.anchors s.handles).map (·, s)) (hs : Spliced old new s s') :
    Follows old new (· = ·) x x s s' := by
  intro a t h
  rw [hx, Option.map_eq_some_iff] at h
  obtain ⟨b, hread, heq⟩ := h
  obtain ⟨rfl, rfl⟩ := Prod.mk.inj heq
  rw [hs.anchors, hs.handles] at hread
  exact ⟨b, s', by rw [hx, hread, Option.map_some], rfl, hs⟩

/-! ### Properties -/

theorem follows_anchorName? (hs : Spliced old new s s') :
    Follows old new (· = ·) anchorName? anchorName? s s' := by
  refine .peek hs ?_
  split
  · next name hhead => exact follows_skip rfl hs (by simp [hhead])
  · exact follows_pure rfl hs

theorem follows_tag? (hs : Spliced old new s s') :
    Follows old new (· = ·) tag? tag? s s' := by
  refine .peek hs ?_
  split
  · next name hhead => exact follows_skip rfl hs (by simp [hhead])
  · exact follows_pure rfl hs

theorem follows_anchor (hs : Spliced old new s s') (name : List Char) :
    Follows old new (· = ·) (anchor name) (anchor name) s s' := by
  obtain ⟨tokens, anchors, handles⟩ := s
  obtain ⟨tokens', anchors', handles'⟩ := s'
  obtain ⟨htokens, rfl, rfl⟩ := hs
  rintro _ _ ⟨⟩
  exact ⟨_, _, rfl, rfl, htokens, rfl, rfl⟩

theorem follows_number (hs : Spliced old new s s') (name : List Char) :
    Follows old new (· = ·) (number name) (number name) s s' := by
  refine follows_of_lookup (f := fun anchors _ => anchors.lookup name) (fun s => ?_) hs
  have hlift (n : Option Nat) : ((do return ← n) : Compose Nat) s = n.map (·, s) := by
    cases n <;> rfl
  exact hlift (s.anchors.lookup name)

theorem follows_resolveTag (hs : Spliced old new s s') (handle suffix : List Char) :
    Follows old new (· = ·) (resolveTag handle suffix) (resolveTag handle suffix) s s' := by
  rw [resolveTag]
  split
  · exact follows_pure rfl hs
  · refine follows_of_lookup (f := fun _ handles => (handles.lookup handle).map (· ++ suffix))
      (fun s => ?_) hs
    have hlift (text : Option (List Char)) :
        ((do return (← text) ++ suffix) : Compose (List Char)) s
          = (text.map (· ++ suffix)).map (·, s) := by
      cases text <;> rfl
    exact hlift (s.handles.lookup handle)

/-- Steps on what may be missing. -/
theorem follows_mapM {γ : Type} {f : γ → Compose α} (hs : Spliced old new s s')
    (hf : ∀ a, Follows old new (· = ·) (f a) (f a) s s') (o : Option γ) :
    Follows old new (· = ·) (o.mapM f) (o.mapM f) s s' := by
  cases o with
  | none => exact follows_pure rfl hs
  | some a => exact (hf a).bind fun b b' t t' hb ht => follows_pure (congrArg some hb) ht

theorem follows_properties (hs : Spliced old new s s') :
    Follows old new (· = ·) properties properties s s' := by
  unfold properties
  refine (follows_anchorName? hs).then fun early t t' ht => ?_
  refine (follows_tag? ht).then fun tag t t' ht => ?_
  extract_lets behind
  have hbehind (name : Option (List Char)) {t t' : Composition} (ht : Spliced old new t t') :
      Follows old new (· = ·) (behind name) (behind name) t t' :=
    (follows_mapM ht (fun (handle, suffix) => follows_resolveTag ht handle suffix) tag).then
      fun tag t t' ht => (follows_mapM ht (follows_anchor ht) name).then
        fun number t t' ht => follows_pure rfl ht
  clear_value behind
  split
  · exact (follows_anchorName? ht).then fun name t t' ht => hbehind name ht
  · exact hbehind early ht

/-! ### Nodes -/

theorem Follows.sequence {x x' : Compose (List Node)} (h : Follows old new AlikeItems x x' s s')
    (anchor : Option Nat) :
    Follows old new Alike (do return .sequence anchor (← x)) (do return .sequence anchor (← x'))
      s s' :=
  h.bind fun _ _ _ _ hitems ht => follows_pure (hitems.sequence anchor) ht

theorem Follows.mapping {x x' : Compose (List (Node × Node))}
    (h : Follows old new AlikeEntries x x' s s') (anchor : Option Nat) :
    Follows old new Alike (do return .mapping anchor (← x)) (do return .mapping anchor (← x'))
      s s' :=
  h.bind fun _ _ _ _ hentries ht => follows_pure (hentries.mapping anchor) ht

/-- One item in front of others. -/
theorem Follows.item {x x' : Compose Node} {more more' : Compose (List Node)}
    (h : Follows old new Alike x x' s s')
    (hmore : ∀ t t', Spliced old new t t' → Follows old new AlikeItems more more' t t') :
    Follows old new AlikeItems (do let item ← x; return item :: (← more))
      (do let item ← x'; return item :: (← more')) s s' :=
  h.bind fun _ _ t t' hitem ht => (hmore t t' ht).bind fun _ _ _ _ hitems ht =>
    follows_pure (hitem.cons hitems) ht

/-- One value with its key in front of other entries. -/
theorem Follows.entry {key key' : Node} {x x' : Compose Node}
    {more more' : Compose (List (Node × Node))} (hkey : key.Alike key')
    (h : Follows old new Alike x x' s s')
    (hmore : ∀ t t', Spliced old new t t' → Follows old new AlikeEntries more more' t t') :
    Follows old new AlikeEntries (do let value ← x; return (key, value) :: (← more))
      (do let value ← x'; return (key', value) :: (← more')) s s' :=
  h.bind fun _ _ t t' hvalue ht => (hmore t t' ht).bind fun _ _ _ _ hentries ht =>
    follows_pure (.cons hkey hvalue hentries) ht

/-- One value with its key as a mapping in front of other items. -/
theorem Follows.pair {key key' : Node} {x x' : Compose Node} {more more' : Compose (List Node)}
    (hkey : key.Alike key') (h : Follows old new Alike x x' s s')
    (hmore : ∀ t t', Spliced old new t t' → Follows old new AlikeItems more more' t t') :
    Follows old new AlikeItems
      (do let value ← x; return .mapping none [(key, value)] :: (← more))
      (do let value ← x'; return .mapping none [(key', value)] :: (← more')) s s' :=
  h.bind fun _ _ t t' hvalue ht => (hmore t t' ht).bind fun _ _ _ _ hitems ht =>
    have hentry : AlikeEntries [(key, _)] [(key', _)] := .cons hkey hvalue rfl
    follows_pure ((hentry.mapping none).cons hitems) ht

/-- What holds of the steps that put nodes together with some fuel. -/
structure FollowsAll (extra : Nat) (old new : List Token) (fuel : Nat) : Prop where
  node : ∀ {s s'}, Spliced old new s s' → ∀ block level, Follows old new Alike
    (node block level fuel) (node block level (fuel + extra)) s s'
  nodeUnless : ∀ {s s'}, Spliced old new s s' → ∀ ends block level, Follows old new Alike
    (nodeUnless ends block level fuel) (nodeUnless ends block level (fuel + extra)) s s'
  valueUnless : ∀ {s s'}, Spliced old new s s' → ∀ ends block, Follows old new Alike
    (valueUnless ends block fuel) (valueUnless ends block (fuel + extra)) s s'
  blockItems : ∀ {s s'}, Spliced old new s s' → Follows old new AlikeItems
    (blockItems fuel) (blockItems (fuel + extra)) s s'
  levelItems : ∀ {s s'}, Spliced old new s s' → Follows old new AlikeItems
    (levelItems fuel) (levelItems (fuel + extra)) s s'
  blockEntries : ∀ {s s'}, Spliced old new s s' → Follows old new AlikeEntries
    (blockEntries fuel) (blockEntries (fuel + extra)) s s'
  flowItems : ∀ {s s'}, Spliced old new s s' → ∀ first, Follows old new AlikeItems
    (flowItems first fuel) (flowItems first (fuel + extra)) s s'
  flowEntries : ∀ {s s'}, Spliced old new s s' → ∀ first, Follows old new AlikeEntries
    (flowEntries first fuel) (flowEntries first (fuel + extra)) s s'

theorem followsAll_zero : FollowsAll extra old new 0 := by
  constructor <;> intros <;> exact follows_failure

/-! One more step with what holds of the steps below it. -/

section

variable {fuel : Nat} (h : FollowsAll extra old new fuel) (hs : Spliced old new s s')

include h hs

include hreplaces in
theorem follows_flowItems (hhead : s.tokens.head? = some .flowSequenceStart) :
    Follows old new AlikeItems (flowItems true fuel) (flowItems true (fuel + extra))
      { s with tokens := s.tokens.drop 1 } { s' with tokens := s'.tokens.drop 1 } := by
  obtain ⟨tokens, anchors, handles⟩ := s
  obtain ⟨tokens', anchors', handles'⟩ := s'
  obtain ⟨htokens, rfl, rfl⟩ := hs
  cases htokens with
  | same =>
    have hs : Spliced old new ⟨tokens.drop 1, anchors, handles⟩ ⟨tokens.drop 1, anchors, handles⟩ :=
      ⟨.same _, rfl, rfl⟩
    exact h.flowItems hs true
  | cons token htokens =>
    have hs : Spliced old new ⟨_, anchors, handles⟩ ⟨_, anchors, handles⟩ := ⟨htokens, rfl, rfl⟩
    exact h.flowItems hs true
  | list rest =>
    intro items t hitems
    obtain ⟨items', halike, hitems'⟩ := hreplaces fuel _ rest items t rfl hitems
    exact ⟨items', t, hitems', halike, .same _, rfl, rfl⟩

include hreplaces in
theorem FollowsAll.node_succ (block level : Bool) : Follows old new Alike
    (Compose.node block level (fuel + 1)) (Compose.node block level (fuel + extra + 1)) s s' := by
  unfold Compose.node
  refine .peek hs ?_
  split
  · next name hhead =>
    exact .skip hs (by simp [hhead]) fun t t' ht =>
      (follows_number ht name).then fun number t t' ht => follows_pure rfl ht
  · refine (follows_properties hs).then fun (anchor, tag) t t' ht => .peek ht ?_
    split
    · next hhead => exact follows_skip rfl ht (by simp [hhead])
    · next hhead => exact .behind ((follows_flowItems hreplaces h ht hhead).sequence anchor)
    · next hhead =>
      exact .skip ht (by simp [hhead]) fun t t' ht => (h.flowEntries ht true).mapping anchor
    · next hstart _ =>
      split
      · exact (h.levelItems ht).sequence anchor
      · split
        · exact .skip ht hstart fun t t' ht => (h.blockItems ht).sequence anchor
        · split
          · exact .skip ht hstart fun t t' ht => (h.blockEntries ht).mapping anchor
          · split
            · exact follows_pure rfl ht
            · exact follows_failure

theorem FollowsAll.nodeUnless_succ (ends : List Token) (block level : Bool) :
    Follows old new Alike (Compose.nodeUnless ends block level (fuel + 1))
      (Compose.nodeUnless ends block level (fuel + extra + 1)) s s' := by
  unfold Compose.nodeUnless
  refine .sees hs ends ?_
  split
  · exact follows_pure rfl hs
  · exact h.node hs block level

theorem FollowsAll.valueUnless_succ (ends : List Token) (block : Bool) :
    Follows old new Alike (Compose.valueUnless ends block (fuel + 1))
      (Compose.valueUnless ends block (fuel + extra + 1)) s s' := by
  unfold Compose.valueUnless
  refine .sees hs [.value] ?_
  split
  · next hseen =>
    exact .skip hs (head?_ne_of_seen hseen (by simp)) fun t t' ht =>
      h.nodeUnless ht ends block block
  · exact follows_pure rfl hs

theorem FollowsAll.blockItems_succ : Follows old new AlikeItems
    (Compose.blockItems (fuel + 1)) (Compose.blockItems (fuel + extra + 1)) s s' := by
  unfold Compose.blockItems
  refine .peek hs ?_
  split
  · next hhead =>
    exact .skip hs (by simp [hhead]) fun t t' ht =>
      (h.nodeUnless ht _ true false).item fun t t' ht => h.blockItems ht
  · next hhead => exact follows_skip rfl hs (by simp [hhead])
  · exact follows_failure

theorem FollowsAll.levelItems_succ : Follows old new AlikeItems
    (Compose.levelItems (fuel + 1)) (Compose.levelItems (fuel + extra + 1)) s s' := by
  unfold Compose.levelItems
  refine .peek hs ?_
  split
  · next hhead =>
    exact .skip hs (by simp [hhead]) fun t t' ht =>
      (h.nodeUnless ht _ true false).item fun t t' ht => h.levelItems ht
  · exact follows_pure rfl hs

theorem FollowsAll.blockEntries_succ : Follows old new AlikeEntries
    (Compose.blockEntries (fuel + 1)) (Compose.blockEntries (fuel + extra + 1)) s s' := by
  unfold Compose.blockEntries
  refine .peek hs ?_
  split
  · next hhead =>
    refine .skip hs (by simp [hhead]) fun t t' ht => ?_
    refine (h.nodeUnless ht _ true true).bind fun key key' t t' hkey ht => ?_
    exact .entry hkey (h.valueUnless ht _ true) fun t t' ht => h.blockEntries ht
  · next hhead => exact follows_skip rfl hs (by simp [hhead])
  · exact follows_failure

theorem FollowsAll.flowItems_succ (first : Bool) : Follows old new AlikeItems
    (Compose.flowItems first (fuel + 1)) (Compose.flowItems first (fuel + extra + 1)) s s' := by
  unfold Compose.flowItems
  refine .sees hs [.flowSequenceEnd] ?_
  split
  · next hseen => exact follows_skip rfl hs (head?_ne_of_seen hseen (by simp))
  · refine follows_comma hs first fun t t' ht => .peek ht ?_
    split
    · next hhead => exact follows_skip rfl ht (by simp [hhead])
    · next hhead =>
      refine .skip ht (by simp [hhead]) fun t t' ht => .sees ht _ ?_
      split
      · next hseen =>
        exact .skip ht (head?_ne_of_seen hseen (by simp)) fun t t' ht =>
          .pair rfl (h.valueUnless ht _ false) fun t t' ht => h.flowItems ht false
      · exact (h.node ht false false).bind fun key key' t t' hkey ht =>
          .pair hkey (h.valueUnless ht _ false) fun t t' ht => h.flowItems ht false
    · exact (h.node ht false false).item fun t t' ht => h.flowItems ht false

theorem FollowsAll.flowEntries_succ (first : Bool) : Follows old new AlikeEntries
    (Compose.flowEntries first (fuel + 1)) (Compose.flowEntries first (fuel + extra + 1)) s s' := by
  unfold Compose.flowEntries
  refine .sees hs [.flowMappingEnd] ?_
  split
  · next hseen => exact follows_skip rfl hs (head?_ne_of_seen hseen (by simp))
  · refine follows_comma hs first fun t t' ht => .peek ht ?_
    split
    · next hhead => exact follows_skip rfl ht (by simp [hhead])
    · next hhead =>
      refine .skip ht (by simp [hhead]) fun t t' ht => ?_
      refine (h.nodeUnless ht _ false false).bind fun key key' t t' hkey ht => ?_
      exact .entry hkey (h.valueUnless ht _ false) fun t t' ht => h.flowEntries ht false
    · refine (h.node ht false false).bind fun key key' t t' hkey ht => ?_
      exact .entry hkey (follows_pure rfl ht) fun t t' ht => h.flowEntries ht false

end

include hreplaces in
theorem followsAll_succ {fuel : Nat} (h : FollowsAll extra old new fuel) :
    FollowsAll extra old new (fuel + 1) := by
  have hfuel : fuel + 1 + extra = fuel + extra + 1 := Nat.add_right_comm ..
  constructor <;> intro s s' hs <;> rw [hfuel]
  case node => exact h.node_succ hreplaces hs
  case nodeUnless => exact h.nodeUnless_succ hs
  case valueUnless => exact h.valueUnless_succ hs
  case blockItems => exact h.blockItems_succ hs
  case levelItems => exact h.levelItems_succ hs
  case blockEntries => exact h.blockEntries_succ hs
  case flowItems => exact h.flowItems_succ hs
  case flowEntries => exact h.flowEntries_succ hs

include hreplaces in
theorem followsAll (fuel : Nat) : FollowsAll extra old new fuel := by
  induction fuel with
  | zero => exact followsAll_zero
  | succ fuel ih => exact followsAll_succ hreplaces ih

/-! ### Documents -/

theorem follows_guard {p : Prop} [Decidable p] {f f' : Unit → Compose β}
    (h : p → Follows old new related' (f ()) (f' ()) s s') :
    Follows old new related' (guard p >>= f) (guard p >>= f') s s' := by
  by_cases hp : p
  · have hguard : (guard p : Compose Unit) = pure () := if_pos hp
    rw [hguard]
    exact h hp
  · have hguard : (guard p : Compose Unit) = failure := if_neg hp
    rw [hguard]
    exact follows_failure

/-- Handles that change. -/
theorem Follows.handles {f f' : Unit → Compose β} (hs : Spliced old new s s')
    (change : List (List Char × List Char) → List (List Char × List Char))
    (h : ∀ t t', Spliced old new t t' → t.tokens = s.tokens →
      Follows old new related' (f ()) (f' ()) t t') :
    Follows old new related'
      ((modify fun c => { c with handles := change c.handles }) >>= f)
      ((modify fun c => { c with handles := change c.handles }) >>= f') s s' :=
  h _ _ ⟨hs.tokens, hs.anchors, congrArg change hs.handles⟩ rfl

theorem follows_close (hs : Spliced old new s s') (fuel : Nat) :
    Follows old new (· = ·) (close fuel) (close (fuel + extra)) s s' := by
  induction fuel generalizing s s' with
  | zero => exact follows_failure
  | succ fuel ih =>
    rw [Nat.add_right_comm]
    unfold close
    refine .peek hs ?_
    split
    · exact follows_pure rfl hs
    · next hhead => exact .skip hs (by simp [hhead]) fun t t' ht => ih ht
    · exact follows_failure

theorem follows_directives (hs : Spliced old new s s') (version : Bool) (fuel : Nat) :
    Follows old new (· = ·) (directives version fuel) (directives version (fuel + extra)) s s' := by
  induction fuel generalizing s s' version with
  | zero => exact follows_failure
  | succ fuel ih =>
    rw [Nat.add_right_comm]
    unfold directives
    refine .peek hs ?_
    split
    · next hhead =>
      exact follows_guard fun _ => .skip hs (by simp [hhead]) fun t t' ht => ih ht true
    · next handle value hhead =>
      have hadd : Follows old new (· = ·)
          (do
            modify fun c => { c with handles := c.handles ++ [(handle, value)] }
            skip
            directives version fuel)
          (do
            modify fun c => { c with handles := c.handles ++ [(handle, value)] }
            skip
            directives version (fuel + extra)) s s' :=
        .handles hs (· ++ [(handle, value)]) fun t t' ht htokens =>
          .skip ht (by simp [htokens, hhead]) fun t t' ht => ih ht version
      intro b t hb
      change (guard (s.handles.lookup handle).isNone >>= fun _ => _ : Compose Unit) s = _ at hb
      change ∃ b' t', (guard (s'.handles.lookup handle).isNone >>= fun _ => _ : Compose Unit) s'
        = _ ∧ _
      rw [← hs.handles]
      exact follows_guard (fun _ => hadd) b t hb
    · exact follows_pure rfl hs

include hreplaces in
theorem follows_document (hs : Spliced old new s s') (fuel : Nat) :
    Follows old new (fun root root' => root.map thin = root'.map thin)
      (document fuel) (document (fuel + extra)) s s' := by
  have hnode {t t' : Composition} (ht : Spliced old new t t') :=
    (followsAll hreplaces fuel).node ht true false
  have hclose {root root' : Node} (hroot : root.Alike root') {t t' : Composition}
      (ht : Spliced old new t t') : Follows old new
        (fun root root' => root.map thin = root'.map thin)
        (do close fuel; return some root) (do close (fuel + extra); return some root') t t' :=
    (follows_close ht fuel).then fun _ t t' ht => follows_pure (congrArg some hroot) ht
  unfold document
  refine .peek hs ?_
  split
  case h_1 => exact follows_pure rfl hs
  case h_2 | h_3 | h_4 =>
    refine (follows_directives hs false fuel).then fun _ t t' ht => ?_
    refine .handles ht (· ++ commonHandles) fun t t' ht _ => ?_
    refine .sees ht _ (follows_guard fun hseen => ?_)
    refine .skip ht (head?_ne_of_seen hseen (by simp)) fun t t' ht => .peek ht ?_
    split
    case h_6 => exact (hnode ht).bind fun root root' t t' hroot ht => hclose hroot ht
    all_goals exact hclose rfl ht
  case h_5 =>
    refine .handles hs (fun _ => commonHandles) fun t t' ht _ => ?_
    exact (hnode ht).bind fun root root' t t' hroot ht => hclose hroot ht

end

end Compose

open Compose in
/-- A document with another list is the same but for loose scalars. -/
theorem ofTokens?_splice {before old new rest : List Token} {root : Option Node}
    (hreplaces : Replaces (4 * (new.length - old.length)) old new) (hle : old.length ≤ new.length)
    (h : Node.ofTokens? (before ++ .flowSequenceStart :: (old ++ rest)) = some root) :
    ∃ root', Node.ofTokens? (before ++ .flowSequenceStart :: (new ++ rest)) = some root' ∧
      root.map Node.thin = root'.map Node.thin := by
  have htokens : SplicedTokens old new (before ++ .flowSequenceStart :: (old ++ rest))
      (before ++ .flowSequenceStart :: (new ++ rest)) := by
    clear h
    induction before with
    | nil => exact .list rest
    | cons token before ih => exact .cons token ih
  have hspliced : Spliced old new ⟨before ++ .flowSequenceStart :: (old ++ rest), [], []⟩
      ⟨before ++ .flowSequenceStart :: (new ++ rest), [], []⟩ := ⟨htokens, rfl, rfl⟩
  rw [Node.ofTokens?, Option.map_eq_some_iff] at h
  obtain ⟨⟨_, t⟩, hdocument, rfl⟩ := h
  obtain ⟨root', t', hdocument', hroot, -⟩ :=
    follows_document hreplaces hspliced _ _ _ hdocument
  refine ⟨root', ?_, hroot⟩
  have hfuel : 4 * (before ++ Token.flowSequenceStart :: (new ++ rest)).length + 4
      = 4 * (before ++ Token.flowSequenceStart :: (old ++ rest)).length + 4
        + 4 * (new.length - old.length) := by
    simp only [List.length_append, List.length_cons]
    omega
  rw [Node.ofTokens?, hfuel, hdocument']
  rfl

end StubManager.Yaml
