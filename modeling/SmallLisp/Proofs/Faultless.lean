import SmallLisp.Proofs.Sessions

/-!
# Nothing breaks down

The forms and the builtins take their operands apart without asking
whether they are there, divide without asking whether they can, and a
template counts its depth down without asking whether it is zero. Someone
has asked before. Where it had not been so the evaluator would break down,
with a `fault`, which is no error that a program could meet.

It does not happen: not for any program, whatever is called in whatever
way and with however many operands, and from no state at all. The checks
that stand in front of each operation are gone through in `Checks.lean`
and `Upkeep.lean`; here is what they come to.

The reader has one such place as well. The inside of a string is cut out
of its token by the bytes, from the second up to the last but one, and
that is where it starts and ends.
-/

namespace SmallLisp

open Text (width)

/-! ## Runs -/

section Runs

variable {α β : Type} {Q : α → Prop} {R : β → Prop}

/-- The run did not break down, and its value, if there is one, has the
property. -/
def SafeEnd (Q : α → Prop) : EStateM.Result Abort State α → Prop
  | .ok a _ => Q a
  | .error a _ => a ≠ .fault

/-- From no state does the computation break down. -/
def Safe (Q : α → Prop) (m : Eval α) : Prop :=
  ∀ st, SafeEnd Q (m st)

theorem SafeEnd.ne_fault {r : EStateM.Result Abort State α} (h : SafeEnd Q r)
    (st : State) : r ≠ .error .fault st := by
  rintro rfl
  exact h rfl

theorem Safe.bind {m : Eval α} {k : α → Eval β} (h : Safe Q m)
    (hk : ∀ a, Q a → Safe R (k a)) : Safe R (m >>= k) := by
  intro st
  have hm := h st
  cases hr : m st with
  | ok a st' =>
      rw [hr] at hm
      rw [Eval.bind_ok hr]
      exact hk a hm st'
  | error a st' =>
      rw [hr] at hm
      rw [Eval.bind_error hr]
      exact hm

theorem Safe.attempt {m : Eval α} (h : Safe Q m) :
    Safe (fun _ => True) (Eval.attempt m) := by
  intro st
  have hm := h st
  unfold Eval.attempt
  split
  · trivial
  · trivial
  · -- Errors of the program were caught; anything else goes through.
    next a st' _ hr =>
      rw [hr] at hm
      exact hm

end Runs

theorem Value.only_any (v : Value) :
    v.Only (fun _ => True) fun _ => True :=
  ⟨fun _ _ => trivial, fun _ _ => trivial⟩

/-- Computations that do not break down; it does not matter which scopes
and words come up. -/
def safety : Upkeep where
  World := Unit
  word _ := True
  grows _ _ := True
  link _ _ := True
  home _ _ := True
  Keeps _ Q m := Safe (Q ()) m
  grows_trans _ _ := trivial
  link_mono _ _ _ := trivial
  home_mono _ _ _ := trivial
  link_of_home _ := trivial
  keeps_pure hQ := fun _ => hQ
  keeps_raise := fun _ => nofun
  keeps_outOfFuel := fun _ => nofun
  keeps_bind h hk := h.bind fun a ha => hk () a trivial ha
  keeps_newScope _ := fun _ => trivial
  keeps_define _ _ := fun _ => trivial
  keeps_lookup := by
    intro _ e name _ st
    unfold Eval.lookup
    split
    · exact Value.only_any _
    · exact nofun
  keeps_assign := by
    intro _ e name v _ _ _ st
    unfold Eval.assign
    split
    · trivial
    · exact nofun
  keeps_newLambda _ _ := fun _ => Value.only_any _
  keeps_print := by
    intro _ text st
    unfold Eval.print
    split
    · exact nofun
    · trivial

theorem safe_evalSource (fuel : Nat) (e : ScopeId) (source : String) :
    Safe (fun _ => True) (Session.evalSource fuel e source) := by
  unfold Session.evalSource
  split
  · exact fun _ => trivial
  · next forms _ =>
      have hforms : Safe (safety.Good ()) (Session.evalForms fuel e forms) :=
        safety.keeps_evalForms (w := ()) fuel trivial
          fun x _ => Value.only_any x
      refine hforms.attempt.bind fun r _ => ?_
      cases r with
      | ok v => exact fun _ => trivial
      | error err => exact fun _ => trivial

/-! ## Strings -/

/-- The bytes of `cs` from number `start` up to `stop` are whole characters,
those of `inner`. -/
def Text.Slices (cs : List Char) (start stop : Nat) (inner : List Char) :
    Prop :=
  ∃ before after, cs = before ++ (inner ++ after) ∧
    width before = start ∧ start + width inner = stop

/-- No word means a string. -/
theorem Token.ofWord?_ne_str {cs : List Char} {s : String} :
    ofWord? cs ≠ some (.str s) := by
  unfold ofWord?
  split
  · next t hk =>
      rintro ⟨⟩
      unfold keyword? at hk
      split at hk <;> cases hk
  · split
    · cases Binary64.read? cs <;> nofun
    · split
      · cases (Integer.read? cs).bind Integer.narrow? <;> nofun
      · nofun

theorem slices_of_lexeme {c : Char} {cs slice rest : List Char} {s : String}
    (h : Token.lexeme c cs = .token (.str s) slice rest) :
    ∃ inner, Text.Slices slice 1 (width slice - 1) inner ∧
      s = String.ofList (Text.unescape inner) := by
  generalize ht : Token.str s = t at h
  cases Token.isLexeme_of_lexeme h with
  | single hs =>
      rw [← ht] at hs
      unfold Token.single? at hs
      split at hs <;> cases hs
  | splice => cases ht
  | unquote _ => cases ht
  | @string units _ _ =>
      cases ht
      refine ⟨units, ⟨['"'], ['"'], rfl, rfl, ?_⟩, rfl⟩
      have hquote : '"'.utf8Size = 1 := rfl
      rw [Text.width_cons, Text.width_append, Text.width_cons,
        Text.width_nil]
      omega
  | word hw =>
      subst ht
      exact absurd hw.meaning Token.ofWord?_ne_str

/-! ## Programs -/

/-- No evaluation, no call and no text that is worked through ends in a
fault, from whatever state; and the inside of every string token lies where
it is cut out. -/
theorem nothing_faults :
    (∀ (fuel : Nat) (x : Value) (e : ScopeId) (st st' : State),
      eval fuel x e st ≠ .error .fault st') ∧
    (∀ (fuel : Nat) (f : Value) (args : List Value) (st st' : State),
      call fuel f args st ≠ .error .fault st') ∧
    (∀ (fuel : Nat) (e : ScopeId) (source : String) (st st' : State),
      Session.evalSource fuel e source st ≠ .error .fault st') ∧
    (∀ (c : Char) (cs slice rest : List Char) (s : String),
      Token.lexeme c cs = .token (.str s) slice rest →
      ∃ inner, Text.Slices slice 1 (width slice - 1) inner ∧
        s = String.ofList (Text.unescape inner)) := by
  refine ⟨fun fuel x e st st' => ?_, fun fuel f args st st' => ?_,
    fun fuel e source st st' => ?_, fun c cs slice rest s => slices_of_lexeme⟩
  · have heval : Safe (safety.Good ()) (eval fuel x e) :=
      (safety.keeps_eval fuel).1 () x e trivial (Value.only_any x)
    exact (heval st).ne_fault st'
  · have hcall : Safe (safety.Good ()) (call fuel f args) :=
      (safety.keeps_eval fuel).2 () f args (Value.only_any f)
        fun v _ => Value.only_any v
    exact (hcall st).ne_fault st'
  · exact (safe_evalSource fuel e source st).ne_fault st'

/-- A string with a quote and a wide character in it is cut out whole. -/
theorem wideString_slices :
    Token.lexeme '"' ['\\', '"', 'é', '"', ')'] =
        .token (.str "\"é") ['"', '\\', '"', 'é', '"'] [')'] ∧
      width ['"', '\\', '"', 'é', '"'] = 6 ∧
      ∃ inner, Text.Slices ['"', '\\', '"', 'é', '"'] 1 5 inner ∧
        "\"é" = String.ofList (Text.unescape inner) := by
  have hlex : Token.lexeme '"' ['\\', '"', 'é', '"', ')'] =
      .token (.str "\"é") ['"', '\\', '"', 'é', '"'] [')'] := rfl
  exact ⟨hlex, rfl, nothing_faults.2.2.2 _ _ _ _ _ hlex⟩

end SmallLisp
