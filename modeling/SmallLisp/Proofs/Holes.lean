import SmallLisp.Proofs.Direct

/-!
# Templates, in two phases

Quasiquotation walks over a template and evaluates as it copies: here an
operand, there a splice, and in between the parts that stay as they are.
What it comes to can be said in two phases that do not mix. First the live
holes of the template are worked off in the order in which they stand
(`holes`, `fetch`). Nothing of the template matters for that but the holes.
Then the values are put in, and nothing is evaluated any more (`Filled`).

Which holes are live is a matter of the level, which rises inside a
quasiquotation and falls inside an unquotation. A splice that is live needs
a list to be spliced into, and anywhere else it is a failure; it is met in
its turn, so that the holes before it are worked off and those behind it
are not.

The induction is over the template. Its invariant is that the walk over a
part of the template does what working off the holes of that part does, and
ends in that part filled (`Fetches`). Parts that stand next to each other
compose, because the values that they use are next to each other as well.
-/

namespace SmallLisp

theorem QuoteMark.name_of_ofName? {s : String} {m : QuoteMark}
    (h : ofName? s = some m) : m.name = s := by
  simpa using List.find?_some h

namespace Template

open Form (tagged? spliced?)

/-! ## Holes -/

/-- A place of a template that is not copied. -/
inductive Hole where
  /-- The value of the operand takes the place. -/
  | value (x : Value)
  /-- The elements of the list that the operand must be take the place. -/
  | elements (x : Value)
  /-- A splice that has no list to be spliced into. -/
  | stray

mutual

/-- The live holes of a template at a level, in the order in which they
stand. -/
def holes (level : Nat) : Value → List Hole
  | .list [.symbol name, x] =>
    match QuoteMark.ofName? name, level with
    | some .unquote, 0 => [.value x]
    | some .splice, 0 => [.stray]
    | some .unquote, level + 1 => holes level x
    | some .splice, level + 1 => holes level x
    | some .quasiquote, level => holes (level + 1) x
    | _, level => holesAmong level [.symbol name, x]
  | .list items => holesAmong level items
  | _ => []

/-- The live holes of the elements of a list that is copied as it is. -/
def holesAmong (level : Nat) : List Value → List Hole
  | [] => []
  | v :: vs =>
    match spliced? v, level with
    | some x, 0 => .elements x :: holesAmong level vs
    | _, _ => holes level v ++ holesAmong level vs

end

/-- Evaluates the operands of holes in order and answers their values. What
is to be spliced must be a list. -/
def fetch (ev : Valuation) (e : ScopeId) : List Hole → Eval (List Value)
  | [] => pure []
  | .value x :: hs => do
    let v ← ev x e
    let vs ← fetch ev e hs
    return v :: vs
  | .elements x :: hs => do
    let v ← ev x e
    let _ ← Eval.ofAnswer (Operand.list v)
    let vs ← fetch ev e hs
    return v :: vs
  | .stray :: _ => Eval.raise .spliceOutsideList

/-! ## Filling -/

/-- A list that is copied element by element: it is neither a
quasiquotation nor an unquotation. -/
def Plain (items : List Value) : Prop :=
  ∀ m x, Value.list items = .tagged m x → m = .quote

mutual

/-- `Filled level x vs y` says that `y` is the template `x` with the values
`vs` in the place of its holes. -/
inductive Filled : Nat → Value → List Value → Value → Prop where
  | atom {level : Nat} {x : Value} (h : ∀ items, x ≠ .list items) :
      Filled level x [] x
  | unquoted {x v : Value} : Filled 0 (.tagged .unquote x) [v] v
  | lowered {level : Nat} {m : QuoteMark} {x y : Value} {vs : List Value}
      (hm : m = .unquote ∨ m = .splice) (h : Filled level x vs y) :
      Filled (level + 1) (.tagged m x) vs (.tagged m y)
  | raised {level : Nat} {x y : Value} {vs : List Value}
      (h : Filled (level + 1) x vs y) :
      Filled level (.tagged .quasiquote x) vs (.tagged .quasiquote y)
  | list {level : Nat} {items vs ys : List Value} (hp : Plain items)
      (h : FilledAll level items vs ys) :
      Filled level (.list items) vs (.list ys)

/-- The same for the elements of a list that is copied element by
element. -/
inductive FilledAll : Nat → List Value → List Value → List Value → Prop where
  | nil {level : Nat} : FilledAll level [] [] []
  | spliced {x : Value} {items zs vs ys : List Value}
      (h : FilledAll 0 items vs ys) :
      FilledAll 0 (.tagged .splice x :: items) (.list zs :: vs) (zs ++ ys)
  | element {level : Nat} {x y : Value} {items vs ws ys : List Value}
      (hs : level = 0 → ∀ z, x ≠ .tagged .splice z)
      (hx : Filled level x vs y) (h : FilledAll level items ws ys) :
      FilledAll level (x :: items) (vs ++ ws) (y :: ys)

end

/-! ## Tags -/

theorem tagged?_tagged (m : QuoteMark) (x : Value) :
    tagged? [.symbol m.name, x] = some (m, x) := by
  simp [tagged?]

theorem eq_of_tagged? {items : List Value} {m : QuoteMark} {x : Value}
    (h : tagged? items = some (m, x)) : items = [.symbol m.name, x] := by
  unfold tagged? at h
  split at h
  · obtain ⟨m', hm, heq⟩ := Option.map_eq_some_iff.1 h
    cases heq
    rw [QuoteMark.name_of_ofName? hm]
  · cases h

theorem spliced?_eq_some_iff {v x : Value} :
    spliced? v = some x ↔ v = .tagged .splice x := by
  constructor
  · intro h
    unfold spliced? at h
    split at h
    · split at h
      · next ht =>
          cases h
          rw [eq_of_tagged? ht]
          rfl
      · cases h
    · cases h
  · rintro rfl
    rfl

theorem plain_or_tagged (items : List Value) :
    (∀ m x, tagged? items = some (m, x) → m = .quote) ∨
      ∃ (m : QuoteMark) (x : Value), m ≠ .quote ∧
        items = [.symbol m.name, x] := by
  cases ht : tagged? items with
  | none => exact .inl nofun
  | some tag =>
      obtain ⟨m, x⟩ := tag
      by_cases hm : m = .quote
      · left
        rintro _ _ ⟨⟩
        exact hm
      · exact .inr ⟨m, x, hm, eq_of_tagged? ht⟩

theorem plain_of_tagged? {items : List Value}
    (h : ∀ m x, tagged? items = some (m, x) → m = .quote) : Plain items := by
  intro m x heq
  cases heq
  exact h m x (tagged?_tagged m x)

theorem holes_of_plain {items : List Value} (h : Plain items) (level : Nat) :
    holes level (.list items) = holesAmong level items := by
  have hquote : ∀ {name x m}, items = [.symbol name, x] →
      QuoteMark.ofName? name = some m → m = .quote := by
    intro name x m heq hm
    refine h m x ?_
    rw [heq, ← QuoteMark.name_of_ofName? hm]
    rfl
  unfold holes
  split
  · next name x heq =>
      cases heq
      split
      · next hm => cases hquote rfl hm
      · next hm => cases hquote rfl hm
      · next hm => cases hquote rfl hm
      · next hm => cases hquote rfl hm
      · next hm => cases hquote rfl hm
      · rfl
  · next heq =>
      cases heq
      rfl
  · next hne => exact absurd rfl (hne items)

theorem template_of_plain {ev : Valuation} {e : ScopeId} {items : List Value}
    (h : ∀ m x, tagged? items = some (m, x) → m = .quote) (level : Nat) :
    Direct.template ev e level (.list items) = do
      return .list (← Direct.elements ev e level items) := by
  unfold Direct.template
  split
  · next ht => cases h _ _ ht
  · next ht => cases h _ _ ht
  · next ht => cases h _ _ ht
  · next ht => cases h _ _ ht
  · next ht => cases h _ _ ht
  · rfl

/-- A tagged list is copied by copying what is tagged. -/
theorem copies_tagged {ev : Valuation} {e : ScopeId} (level : Nat)
    (m : QuoteMark) (x : Value) :
    (do return Value.list (← Direct.copies ev e level [.symbol m.name, x])) = do
      return .tagged m (← Direct.template ev e level x) := by
  simp [Direct.copies, Direct.template, Value.tagged]

theorem template_raised {ev : Valuation} {e : ScopeId} (level : Nat)
    (x : Value) :
    Direct.template ev e level (.tagged .quasiquote x) = do
      return .tagged .quasiquote (← Direct.template ev e (level + 1) x) := by
  rw [← copies_tagged, Value.tagged]
  unfold Direct.template
  rw [tagged?_tagged]

theorem template_lowered {ev : Valuation} {e : ScopeId} {m : QuoteMark}
    (hm : m = .unquote ∨ m = .splice) (level : Nat) (x : Value) :
    Direct.template ev e (level + 1) (.tagged m x) = do
      return .tagged m (← Direct.template ev e level x) := by
  rw [← copies_tagged, Value.tagged]
  unfold Direct.template
  rw [tagged?_tagged]
  rcases hm with rfl | rfl
  · rfl
  · rfl

theorem holes_lowered {m : QuoteMark} (hm : m = .unquote ∨ m = .splice)
    (level : Nat) (x : Value) :
    holes (level + 1) (.tagged m x) = holes level x := by
  rcases hm with rfl | rfl
  · rfl
  · rfl

theorem holesAmong_element {level : Nat} {x : Value}
    (hs : level = 0 → ∀ z, x ≠ .tagged .splice z) (items : List Value) :
    holesAmong level (x :: items) =
      holes level x ++ holesAmong level items := by
  rw [holesAmong]
  exact fun z hz hlevel => hs hlevel z (spliced?_eq_some_iff.1 hz)

theorem elements_element {ev : Valuation} {e : ScopeId} {level : Nat}
    {x : Value} (hs : level = 0 → ∀ z, x ≠ .tagged .splice z)
    (items : List Value) :
    Direct.elements ev e level (x :: items) = do
      let y ← Direct.template ev e level x
      let ys ← Direct.elements ev e level items
      return y :: ys := by
  rw [Direct.elements]
  exact fun z hz hlevel => hs hlevel z (spliced?_eq_some_iff.1 hz)

theorem elements_spliced {ev : Valuation} {e : ScopeId} (x : Value)
    (items : List Value) :
    Direct.elements ev e 0 (.tagged .splice x :: items) = do
      let zs ← (do Eval.ofAnswer (Operand.list (← ev x e)))
      let ys ← Direct.elements ev e 0 items
      return zs ++ ys := by
  rw [bind_assoc, Direct.elements]
  rfl

/-! ## One phase after the other -/

section Fetching

variable {α β γ : Type} {ev : Valuation} {e : ScopeId}

theorem fetch_append (hs hs' : List Hole) :
    fetch ev e (hs ++ hs') = do
      let vs ← fetch ev e hs
      let ws ← fetch ev e hs'
      return vs ++ ws := by
  induction hs with
  | nil => simp [fetch]
  | cons h hs ih =>
      cases h with
      | value x => simp [fetch, ih]
      | elements x => simp [fetch, ih]
      | stray => rfl

/-- The computation does what working off the holes does, and `P` relates
the values of their operands to what it answers. -/
def Fetches (ev : Valuation) (e : ScopeId) (hs : List Hole)
    (P : List Value → α → Prop) (m : Eval α) : Prop :=
  ∀ st, match fetch ev e hs st with
    | .ok vs st' => ∃ a, m st = .ok a st' ∧ P vs a
    | .error err st' => m st = .error err st'

theorem Fetches.ok {hs : List Hole} {P : List Value → α → Prop} {m : Eval α}
    {st st' : State} {vs : List Value} (h : Fetches ev e hs P m)
    (hvs : fetch ev e hs st = .ok vs st') : ∃ a, m st = .ok a st' ∧ P vs a := by
  have hm := h st
  rw [hvs] at hm
  exact hm

theorem Fetches.error {hs : List Hole} {P : List Value → α → Prop}
    {m : Eval α} {st st' : State} {err : Abort} (h : Fetches ev e hs P m)
    (herr : fetch ev e hs st = .error err st') : m st = .error err st' := by
  have hm := h st
  rw [herr] at hm
  exact hm

theorem Fetches.of_ok {hs : List Hole} {P : List Value → α → Prop}
    {m : Eval α} {st st' : State} {a : α} (h : Fetches ev e hs P m)
    (ha : m st = .ok a st') :
    ∃ vs, fetch ev e hs st = .ok vs st' ∧ P vs a := by
  cases hfetch : fetch ev e hs st with
  | ok vs st'' =>
      obtain ⟨b, hb, hP⟩ := h.ok hfetch
      cases ha.symm.trans hb
      exact ⟨vs, rfl, hP⟩
  | error err st'' => cases ha.symm.trans (h.error hfetch)

theorem Fetches.error_iff {hs : List Hole} {P : List Value → α → Prop}
    {m : Eval α} {st st' : State} {err : Abort} (h : Fetches ev e hs P m) :
    m st = .error err st' ↔ fetch ev e hs st = .error err st' := by
  constructor
  · intro herr
    cases hfetch : fetch ev e hs st with
    | ok vs st'' =>
        obtain ⟨a, ha, -⟩ := h.ok hfetch
        cases ha.symm.trans herr
    | error err' st'' =>
        cases herr.symm.trans (h.error hfetch)
        rfl
  · exact h.error

theorem fetches_pure {P : List Value → α → Prop} {a : α} (h : P [] a) :
    Fetches ev e [] P (pure a) :=
  fun _ => ⟨a, rfl, h⟩

theorem Fetches.mono {hs : List Hole} {P Q : List Value → α → Prop}
    {m : Eval α} (h : Fetches ev e hs P m) (hPQ : ∀ vs a, P vs a → Q vs a) :
    Fetches ev e hs Q m := by
  intro st
  split
  · next vs st' hvs =>
      obtain ⟨a, ha, hP⟩ := h.ok hvs
      exact ⟨a, ha, hPQ vs a hP⟩
  · next err st' herr => exact h.error herr

theorem Fetches.map {hs : List Hole} {P : List Value → α → Prop}
    {Q : List Value → β → Prop} {m : Eval α} {f : α → β}
    (h : Fetches ev e hs P m) (hf : ∀ vs a, P vs a → Q vs (f a)) :
    Fetches ev e hs Q (do return f (← m)) := by
  intro st
  split
  · next vs st' hvs =>
      obtain ⟨a, ha, hP⟩ := h.ok hvs
      exact ⟨f a, Eval.bind_ok ha, hf vs a hP⟩
  · next err st' herr => exact Eval.bind_error (h.error herr)

theorem Fetches.append {hs hs' : List Hole} {P : List Value → α → Prop}
    {Q : List Value → β → Prop} {R : List Value → γ → Prop} {m : Eval α}
    {m' : Eval β} {f : α → β → γ} (h : Fetches ev e hs P m)
    (h' : Fetches ev e hs' Q m')
    (hf : ∀ vs ws a b, P vs a → Q ws b → R (vs ++ ws) (f a b)) :
    Fetches ev e (hs ++ hs') R (do
      let a ← m
      let b ← m'
      return f a b) := by
  intro st
  rw [fetch_append]
  cases hfetch : fetch ev e hs st with
  | error err st' =>
      rw [Eval.bind_error hfetch]
      exact Eval.bind_error (h.error hfetch)
  | ok vs st' =>
      obtain ⟨a, ha, hP⟩ := h.ok hfetch
      rw [Eval.bind_ok hfetch]
      cases hfetch' : fetch ev e hs' st' with
      | error err st'' =>
          rw [Eval.bind_error hfetch', Eval.bind_ok ha]
          exact Eval.bind_error (h'.error hfetch')
      | ok ws st'' =>
          obtain ⟨b, hb, hQ⟩ := h'.ok hfetch'
          rw [Eval.bind_ok hfetch', Eval.bind_ok ha]
          exact ⟨f a b, Eval.bind_ok hb, hf vs ws a b hP hQ⟩

theorem fetches_value (x : Value) :
    Fetches ev e [.value x] (fun vs v => vs = [v]) (ev x e) := by
  intro st
  have hfetch : fetch ev e [.value x] = do return [← ev x e] := by
    simp [fetch]
  rw [hfetch]
  cases hv : ev x e st with
  | ok v st' =>
      rw [Eval.bind_ok hv]
      exact ⟨v, rfl, rfl⟩
  | error err st' => rw [Eval.bind_error hv]

theorem fetches_elements (x : Value) :
    Fetches ev e [.elements x] (fun vs zs => vs = [.list zs]) (do
      Eval.ofAnswer (Operand.list (← ev x e))) := by
  intro st
  have hfetch : fetch ev e [.elements x] = do
      let v ← ev x e
      let _ ← Eval.ofAnswer (Operand.list v)
      return [v] := by
    simp [fetch]
  rw [hfetch]
  cases hv : ev x e st with
  | ok v st' =>
      rw [Eval.bind_ok hv, Eval.bind_ok hv]
      cases v
      case list zs => exact ⟨zs, rfl, rfl⟩
      all_goals rfl
  | error err st' =>
      rw [Eval.bind_error hv]
      exact Eval.bind_error hv

mutual

theorem fetches_template (level : Nat) (x : Value) :
    Fetches ev e (holes level x) (Filled level x)
      (Direct.template ev e level x) := by
  match x with
  | .nil | .bool _ | .int _ | .float _ | .str _ | .symbol _ | .builtin _
  | .lambda _ => exact fetches_pure (.atom nofun)
  | .list items =>
      rcases plain_or_tagged items with hp | ⟨m, x, hm, rfl⟩
      · have hplain := plain_of_tagged? hp
        rw [holes_of_plain hplain, template_of_plain hp]
        exact (fetches_among level items).map fun vs ys h => .list hplain h
      · change Fetches ev e (holes level (.tagged m x))
          (Filled level (.tagged m x))
          (Direct.template ev e level (.tagged m x))
        cases m with
        | quote => exact absurd rfl hm
        | quasiquote =>
            rw [template_raised]
            exact (fetches_template (level + 1) x).map fun vs y h => .raised h
        | unquote =>
            cases level with
            | zero =>
                refine (fetches_value x).mono fun vs v hv => ?_
                rw [hv]
                exact .unquoted
            | succ level =>
                rw [holes_lowered (.inl rfl), template_lowered (.inl rfl)]
                exact (fetches_template level x).map fun vs y h =>
                  .lowered (.inl rfl) h
        | splice =>
            cases level with
            | zero =>
                -- No list to be spliced into: the operand is left alone.
                exact fun st => rfl
            | succ level =>
                rw [holes_lowered (.inr rfl), template_lowered (.inr rfl)]
                exact (fetches_template level x).map fun vs y h =>
                  .lowered (.inr rfl) h
termination_by sizeOf x

theorem fetches_among (level : Nat) (items : List Value) :
    Fetches ev e (holesAmong level items) (FilledAll level items)
      (Direct.elements ev e level items) := by
  match items with
  | [] =>
      unfold holesAmong Direct.elements
      exact fetches_pure .nil
  | x :: items =>
      by_cases hs : level = 0 → ∀ z, x ≠ .tagged .splice z
      · rw [holesAmong_element hs, elements_element hs]
        refine (fetches_template level x).append (fetches_among level items) ?_
        exact fun vs ws y ys hy h => .element hs hy h
      · obtain ⟨rfl, z, rfl⟩ : level = 0 ∧ ∃ z, x = .tagged .splice z := by
          simpa using hs
        rw [elements_spliced]
        refine (fetches_elements z).append (fetches_among 0 items) ?_
        rintro _ ws zs ys rfl h
        exact .spliced h
termination_by sizeOf items

end

end Fetching

/-! ## One filling

What is put in, and in which place, is settled by the template: two fillings
from the same values are the same. The values are compared with an arbitrary
rest behind them, since where those of one element of a list end is only
known once the element is filled.
-/

theorem tagged_inj {m m' : QuoteMark} {x x' : Value}
    (h : Value.tagged m x = .tagged m' x') : m = m' ∧ x = x' := by
  have htag := tagged?_tagged m x
  rw [Value.list.inj h, tagged?_tagged] at htag
  cases htag
  exact ⟨rfl, rfl⟩

theorem Filled.of_atom {level : Nat} {x y : Value} {vs : List Value}
    (h : Filled level x vs y) (hx : ∀ items, x ≠ .list items) :
    vs = [] ∧ y = x := by
  cases h with
  | atom => exact ⟨rfl, rfl⟩
  | unquoted | lowered | raised | list => exact absurd rfl (hx _)

theorem Filled.of_plain {level : Nat} {items vs : List Value} {y : Value}
    (h : Filled level (.list items) vs y) (hp : Plain items) :
    ∃ ys, FilledAll level items vs ys ∧ y = .list ys := by
  generalize hx : Value.list items = x at h
  cases h with
  | atom ha => exact absurd hx.symm (ha items)
  | unquoted => cases hp _ _ hx
  | lowered hm => rcases hm with rfl | rfl <;> cases hp _ _ hx
  | raised => cases hp _ _ hx
  | list _ h =>
      cases hx
      exact ⟨_, h, rfl⟩

theorem Filled.of_tagged {level : Nat} {m : QuoteMark} {x y : Value}
    {vs : List Value} (h : Filled level (.tagged m x) vs y)
    (hm : m ≠ .quote) :
    (level = 0 ∧ m = .unquote ∧ vs = [y]) ∨
    (∃ k z, level = k + 1 ∧ (m = .unquote ∨ m = .splice) ∧
      Filled k x vs z ∧ y = .tagged m z) ∨
    ∃ z, m = .quasiquote ∧ Filled (level + 1) x vs z ∧
      y = .tagged .quasiquote z := by
  generalize ht : Value.tagged m x = t at h
  cases h with
  | atom ha => exact absurd ht.symm (ha _)
  | unquoted => exact .inl ⟨rfl, (tagged_inj ht).1, rfl⟩
  | lowered hm' h =>
      obtain ⟨rfl, rfl⟩ := tagged_inj ht
      exact .inr (.inl ⟨_, _, rfl, hm', h, rfl⟩)
  | raised h =>
      obtain ⟨rfl, rfl⟩ := tagged_inj ht
      exact .inr (.inr ⟨_, rfl, h, rfl⟩)
  | list hp => exact absurd (hp _ _ ht.symm) hm

mutual

theorem Filled.unique {level : Nat} {x y y' : Value}
    {vs vs' rest rest' : List Value} (h : Filled level x vs y)
    (h' : Filled level x vs' y') (hvs : vs ++ rest = vs' ++ rest') :
    vs = vs' ∧ y = y' := by
  match h with
  | .atom hx =>
      obtain ⟨rfl, rfl⟩ := h'.of_atom hx
      exact ⟨rfl, rfl⟩
  | .unquoted =>
      obtain ⟨-, -, rfl⟩ | ⟨_, _, hlevel, _⟩ | ⟨_, hm, _⟩ :=
        h'.of_tagged nofun
      · cases hvs
        exact ⟨rfl, rfl⟩
      · cases hlevel
      · cases hm
  | .lowered hm h =>
      have hq : ∀ m : QuoteMark, m = .unquote ∨ m = .splice → m ≠ .quote := by
        rintro _ (rfl | rfl) <;> exact nofun
      obtain ⟨hlevel, _⟩ | ⟨_, _, hlevel, -, hz, rfl⟩ | ⟨_, rfl, _⟩ :=
        h'.of_tagged (hq _ hm)
      · cases hlevel
      · cases hlevel
        obtain ⟨rfl, rfl⟩ := h.unique hz hvs
        exact ⟨rfl, rfl⟩
      · rcases hm with hm | hm <;> cases hm
  | .raised h =>
      obtain ⟨_, hm, _⟩ | ⟨_, _, _, hm, _⟩ | ⟨_, -, hz, rfl⟩ :=
        h'.of_tagged nofun
      · cases hm
      · rcases hm with hm | hm <;> cases hm
      · obtain ⟨rfl, rfl⟩ := h.unique hz hvs
        exact ⟨rfl, rfl⟩
  | .list hp h =>
      obtain ⟨_, hys, rfl⟩ := h'.of_plain hp
      obtain ⟨rfl, rfl⟩ := h.unique hys hvs
      exact ⟨rfl, rfl⟩

theorem FilledAll.unique {level : Nat} {items ys ys' : List Value}
    {vs vs' rest rest' : List Value} (h : FilledAll level items vs ys)
    (h' : FilledAll level items vs' ys') (hvs : vs ++ rest = vs' ++ rest') :
    vs = vs' ∧ ys = ys' := by
  match h with
  | .nil =>
      cases h'
      exact ⟨rfl, rfl⟩
  | .spliced h =>
      cases h' with
      | spliced hys =>
          obtain ⟨hzs, htail⟩ := List.cons.inj hvs
          cases hzs
          obtain ⟨rfl, rfl⟩ := h.unique hys htail
          exact ⟨rfl, rfl⟩
      | element hs => exact absurd rfl (hs rfl _)
  | .element hs hx h =>
      cases h' with
      | spliced => exact absurd rfl (hs rfl _)
      | element _ hy hys =>
          -- Both lists of values start with those of the element.
          rw [List.append_assoc, List.append_assoc] at hvs
          obtain ⟨rfl, rfl⟩ := hx.unique hy hvs
          obtain ⟨rfl, rfl⟩ := h.unique hys (List.append_cancel_left hvs)
          exact ⟨rfl, rfl⟩

end

mutual

theorem Filled.eq_of_nil {level : Nat} {x y : Value} {vs : List Value}
    (h : Filled level x vs y) (hvs : vs = []) : y = x := by
  match h with
  | .atom _ => rfl
  | .unquoted => cases hvs
  | .lowered _ h | .raised h => rw [h.eq_of_nil hvs]
  | .list _ h => rw [h.eq_of_nil hvs]

theorem FilledAll.eq_of_nil {level : Nat} {items vs ys : List Value}
    (h : FilledAll level items vs ys) (hvs : vs = []) : ys = items := by
  match h with
  | .nil => rfl
  | .spliced _ => cases hvs
  | .element _ hx h =>
      obtain ⟨hnil, hnil'⟩ := List.append_eq_nil_iff.1 hvs
      rw [hx.eq_of_nil hnil, h.eq_of_nil hnil']

end

section Ending

variable {α : Type} {ev : Nat → Valuation} {e : ScopeId} {hs : List Hole}
  {P : List Value → α → Prop} {f : Nat → Eval α}

theorem ends_ok_iff_of_fetches (h : ∀ n, Fetches (ev n) e hs P (f n))
    (hP : ∀ vs a b, P vs a → P vs b → a = b) {st st' : State} {a : α} :
    Ends f st (.ok a st') ↔
      ∃ vs, Ends (fun n => fetch (ev n) e hs) st (.ok vs st') ∧ P vs a := by
  constructor
  · rintro ⟨-, n, hn⟩
    obtain ⟨vs, hvs, ha⟩ := (h n).of_ok hn
    exact ⟨vs, ⟨id, n, hvs⟩, ha⟩
  · rintro ⟨vs, ⟨-, n, hn⟩, ha⟩
    obtain ⟨b, hb, hPb⟩ := (h n).ok hn
    rw [hP vs a b ha hPb]
    exact ⟨id, n, hb⟩

theorem ends_error_iff_of_fetches (h : ∀ n, Fetches (ev n) e hs P (f n))
    {st st' : State} {a : Abort} :
    Ends f st (.error a st') ↔
      Ends (fun n => fetch (ev n) e hs) st (.error a st') := by
  have hcut : Cut (.error a st' : EStateM.Result Abort State α) ↔
      Cut (.error a st' : EStateM.Result Abort State (List Value)) := by
    cases a <;> rfl
  unfold Ends
  rw [hcut]
  exact and_congr_right fun _ => exists_congr fun n => (h n).error_iff

end Ending

end Template

/-! ## Quasiquotation -/

theorem eval_quasiquote (n : Nat) (x : Value) (e : ScopeId) :
    eval (n + 1) (.tagged .quasiquote x) e =
      Direct.template (eval n) e 0 x := by
  rw [eval_succ]
  rfl

theorem quasiquote_ends_iff {x : Value} {e : ScopeId} {st : State}
    {r : EStateM.Result Abort State Value} :
    Ends (fun n => eval n (.tagged .quasiquote x) e) st r ↔
      Ends (fun n => Direct.template (eval n) e 0 x) st r :=
  ends_succ_iff rfl fun n => eval_quasiquote n x e

/-- A quasiquotation ends with a value exactly if working off the live holes
of its template ends with theirs, and then the value is the template filled
with them and the state is the one that the holes left. It ends with an error
exactly if working off the holes does. A template without live holes is its
own value, and the state stays as it is. -/
theorem quasiquote_fills_holes (x : Value) (e : ScopeId) (st : State) :
    (∀ v st', Ends (fun n => eval n (.tagged .quasiquote x) e) st (.ok v st') ↔
      ∃ vs, Ends (fun n => Template.fetch (eval n) e (Template.holes 0 x)) st
        (.ok vs st') ∧ Template.Filled 0 x vs v) ∧
    (∀ a st', Ends (fun n => eval n (.tagged .quasiquote x) e) st
        (.error a st') ↔
      Ends (fun n => Template.fetch (eval n) e (Template.holes 0 x)) st
        (.error a st')) ∧
    (Template.holes 0 x = [] →
      Ends (fun n => eval n (.tagged .quasiquote x) e) st (.ok x st)) := by
  have hfetches (n : Nat) : Template.Fetches (eval n) e (Template.holes 0 x)
      (Template.Filled 0 x) (Direct.template (eval n) e 0 x) :=
    Template.fetches_template 0 x
  refine ⟨fun v st' => ?_, fun a st' => ?_, fun hnil => ?_⟩
  · rw [quasiquote_ends_iff]
    refine Template.ends_ok_iff_of_fetches hfetches fun vs y y' hy hy' => ?_
    exact (hy.unique hy' (Eq.refl (vs ++ []))).2
  · rw [quasiquote_ends_iff]
    exact Template.ends_error_iff_of_fetches hfetches
  · rw [quasiquote_ends_iff]
    have hfetch : Template.fetch (eval 0) e (Template.holes 0 x) st =
        .ok [] st := by
      rw [hnil]
      rfl
    obtain ⟨y, hy, hfilled⟩ := (hfetches 0).ok hfetch
    rw [hfilled.eq_of_nil rfl] at hy
    exact ⟨id, 0, hy⟩

/-- A scope that counts. -/
def tally (n : Int64) : State :=
  ⟨(Store.empty.addScope none).define 0 "n" (.int n), ⟨"", false⟩⟩

/-- A template within a template, which has to be unquoted once more. -/
def nestedTemplate : Value :=
  .tagged .quasiquote (.tagged .unquote (.symbol "n"))

/-- The first hole counts, the second tells the count. -/
def countingTemplate : Value :=
  .list [.tagged .unquote (.list [.symbol "set!", .symbol "n", .int 2]),
    .tagged .unquote (.symbol "n"),
    .tagged .splice (.tagged .quote (.list [.int 7, .int 8])), nestedTemplate]

theorem counting_filled :
    Ends (fun n => eval n (.tagged .quasiquote countingTemplate) 0) (tally 1)
      (.ok (.list [.nil, .int 2, .int 7, .int 8, nestedTemplate]) (tally 2)) ∧
    Ends (fun n => eval n (.tagged .quasiquote nestedTemplate) 0) (tally 1)
      (.ok nestedTemplate (tally 1)) := by
  have hinner : Template.Filled 0 nestedTemplate [] nestedTemplate :=
    .raised (.lowered (.inl rfl) (.atom nofun))
  have hne (m : QuoteMark) {x : Value} (hm : m ≠ .splice) (_ : 0 = 0)
      (z : Value) : Value.tagged m x ≠ .tagged .splice z :=
    fun h => hm (Template.tagged_inj h).1
  have hfilled : Template.Filled 0 countingTemplate
      [.nil, .int 2, .list [.int 7, .int 8]]
      (.list [.nil, .int 2, .int 7, .int 8, nestedTemplate]) :=
    .list (fun _ _ h => nomatch h) <|
      .element (hne .unquote nofun) .unquoted <|
      .element (hne .unquote nofun) .unquoted <|
      .spliced <| .element (hne .quasiquote nofun) hinner .nil
  constructor
  · exact ((quasiquote_fills_holes countingTemplate 0 (tally 1)).1 _ _).2
      ⟨_, ⟨id, 2, rfl⟩, hfilled⟩
  · exact (quasiquote_fills_holes nestedTemplate 0 (tally 1)).2.2 rfl

end SmallLisp
