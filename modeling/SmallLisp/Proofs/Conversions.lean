import SmallLisp.Proofs.Endings
import SmallLisp.Proofs.Lexing
import SmallLisp.Session

/-!
# Numbers by way of their text

A number can be made a text with `str`, and a text a number with `int` or
`float`. The two directions do not share their rules. A text is written for
the reader of programs, and it is read back by rules of its own, which allow
for blanks around it, for a plus, and for an integer that is written as a
float.

On what `str` writes the rules agree, as long as the number is finite. There
are no blanks in it to be taken off (`trimChars_of_isWord`). An integer is
read as one, so that the way over the floats, which would lose digits, is not
taken, and a finite float is read as it was.

They do not agree on the infinities. These are written as the reader of
programs wants them, and spelled so a conversion does not know them.
-/

namespace SmallLisp

/-! ## Texts of numbers -/

/-- A word has no blanks to be taken off. -/
theorem trimChars_of_isWord {t : Token} {word : List Char}
    (h : Token.IsWord t word) : Text.trimChars word = word := by
  obtain ⟨-, hchars, -⟩ := h
  have hblank (cs : List Char) (hcs : ∀ c ∈ cs, c ∈ word) :
      cs.dropWhile Text.isBlank = cs := by
    cases cs with
    | nil => rfl
    | cons c cs =>
        have hc := hchars c (hcs c List.mem_cons_self)
        rw [List.dropWhile_cons_of_neg]
        simp [(Token.isWordChar_iff.1 hc).1]
  rw [Text.trimChars, hblank word fun c hc => hc,
    hblank word.reverse fun c hc => List.mem_reverse.1 hc,
    List.reverse_reverse]

theorem intOfText?_text (n : Int64) :
    Conversion.intOfText? (Integer.text n) = some n := by
  rw [Conversion.intOfText?, trimChars_of_isWord (Token.isWord_int n),
    Integer.read?_text, Option.some_or]

theorem floatOfText?_text {x : Float} (hx : x.isFinite = true) :
    Conversion.floatOfText? (Binary64.text .readable x) = some x := by
  have hlt := (Binary64.isFinite_iff x).1 hx
  have hnan := Binary64.isNaN_of_isFinite hx
  have htext : (Binary64.text .readable x).toList =
      (if Binary64.isNegative x = true then ['-'] else []) ++
        Binary64.finiteText (Binary64.magnitude x) := by
    simp only [Binary64.text]
    rw [if_neg (by omega), if_neg (by omega), String.toList_ofList]
  obtain ⟨hplain, hread⟩ := Binary64.finiteText_reads hlt
  rw [Conversion.floatOfText?, trimChars_of_isWord (Token.isWord_float hnan),
    htext, Binary64.read?_signed _ hplain hread,
    Binary64.ofMagnitude_magnitude]

theorem floatOfText?_text_of_infinite {x : Float} (hnan : x.isNaN = false)
    (hx : x.isFinite = false) :
    Conversion.floatOfText? (Binary64.text .readable x) = none := by
  have hle : ¬ Binary64.infinity < Binary64.magnitude x := by
    rw [← Binary64.isNaN_iff, hnan]
    simp
  have hge : ¬ Binary64.magnitude x < Binary64.infinity := by
    rw [← Binary64.isFinite_iff, hx]
    simp
  simp only [Binary64.text]
  rw [if_neg hle, if_pos (by omega)]
  split
  · decide
  · decide

/-! ## The builtins -/

theorem raw_int (n : Int64) : Value.raw (.int n) = Integer.text n := by
  simp [Value.raw, Value.text, Value.write]

theorem raw_float (x : Float) :
    Value.raw (.float x) = Binary64.text .readable x := by
  simp [Value.raw, Value.text, Value.write]

namespace Conversion

theorem toInt_raw (n : Int64) :
    toInt (.str (Value.raw (.int n))) = .ok (.int n) := by
  rw [raw_int, toInt, intOfText?_text]

theorem toFloat_raw {x : Float} (hx : x.isFinite = true) :
    toFloat (.str (Value.raw (.float x))) = .ok (.float x) := by
  rw [raw_float, toFloat, floatOfText?_text hx]

theorem toFloat_raw_of_infinite {x : Float} (hnan : x.isNaN = false)
    (hx : x.isFinite = false) :
    toFloat (.str (Value.raw (.float x))) =
      fail (.inconvertible (.str (Value.raw (.float x))) .float) := by
  rw [raw_float, toFloat, floatOfText?_text_of_infinite hnan hx]

end Conversion

namespace Builtin

theorem toStr_answers (v : Value) : toStr.Answers [v] (.ok (.str v.raw)) :=
  answers_of_run rfl fun _ => rfl

theorem toInt_answers (v : Value) :
    toInt.Answers [v] (Conversion.toInt v) :=
  answers_of_run rfl fun _ => rfl

theorem toFloat_answers (v : Value) :
    toFloat.Answers [v] (Conversion.toFloat v) :=
  answers_of_run rfl fun _ => rfl

end Builtin

/-! ## There and back -/

/-- The number is made a text, and the text is converted. -/
def respelled (convert : Builtin) (v : Value) : Value :=
  .list [.builtin convert, .list [.builtin .toStr, v]]

theorem alike_respelled {convert : Builtin} (v : Value) {a : Answer Value}
    (hs : v.kind ≠ .symbol) (hl : v.kind ≠ .list)
    (h : convert.Answers [.str v.raw] a) (e : ScopeId) :
    Alike (fun n => eval n (respelled convert v) e)
      fun _ => Eval.ofAnswer a := by
  have htext := (Builtin.toStr_answers v).denotes
    (.cons (denotes_self e hs hl) .nil)
  exact h.alike (.cons htext .nil)

theorem denotes_respelled_int (n : Int64) (e : ScopeId) :
    Value.Denotes e (respelled .toInt (.int n)) (.int n) := by
  have h := Builtin.toInt_answers (.str (Value.raw (.int n)))
  rw [Conversion.toInt_raw] at h
  exact alike_respelled (.int n) nofun nofun h e

theorem denotes_respelled_float {x : Float} (hx : x.isFinite = true)
    (e : ScopeId) :
    Value.Denotes e (respelled .toFloat (.float x)) (.float x) := by
  have h := Builtin.toFloat_answers (.str (Value.raw (.float x)))
  rw [Conversion.toFloat_raw hx] at h
  exact alike_respelled (.float x) nofun nofun h e

theorem alike_respelled_infinite {x : Float} (hnan : x.isNaN = false)
    (hx : x.isFinite = false) (e : ScopeId) :
    Alike (fun n => eval n (respelled .toFloat (.float x)) e) fun _ =>
      Eval.raise (.inconvertible (.str (Value.raw (.float x))) .float) := by
  have h := Builtin.toFloat_answers (.str (Value.raw (.float x)))
  rw [Conversion.toFloat_raw_of_infinite hnan hx] at h
  exact alike_respelled (.float x) nofun nofun h e

/-- An integer comes back from its text, and so does a finite float, which is
equal to itself. An infinity does not: its text is refused as one that spells
no float. -/
theorem numbers_from_text (e : ScopeId) :
    (∀ n : Int64, Value.Denotes e (respelled .toInt (.int n)) (.int n)) ∧
    (∀ x : Float, x.isFinite = true →
      Value.Denotes e (respelled .toFloat (.float x)) (.float x) ∧
        (x == x) = true) ∧
    ∀ x : Float, x.isNaN = false → x.isFinite = false →
      Alike (fun n => eval n (respelled .toFloat (.float x)) e) fun _ =>
        Eval.raise (.inconvertible (.str (Value.raw (.float x))) .float) := by
  refine ⟨fun n => ?_, fun x hx => ⟨?_, ?_⟩, fun x hnan hx => ?_⟩
  · exact denotes_respelled_int n e
  · exact denotes_respelled_float hx e
  · exact Binary64.beq_self (Binary64.isNaN_of_isFinite hx)
  · exact alike_respelled_infinite hnan hx e

/-- The double next to zero on the negative side. -/
def negativeGrain : Float := Binary64.ofMagnitude true 1

theorem extremes_from_text :
    Value.Denotes 0 (respelled .toInt (.int Int64.minValue))
        (.int Int64.minValue) ∧
      negativeGrain.isFinite = true ∧
      Value.Denotes 0 (respelled .toFloat (.float negativeGrain))
        (.float negativeGrain) := by
  obtain ⟨hint, hfloat, -⟩ := numbers_from_text 0
  have hfinite : negativeGrain.isFinite = true := by decide
  exact ⟨hint Int64.minValue, hfinite, (hfloat negativeGrain hfinite).1⟩

/-- The positive infinity. -/
def positiveInfinity : Float :=
  Binary64.ofMagnitude false Binary64.infinity

theorem infinity_not_from_text :
    positiveInfinity.isNaN = false ∧ ∀ (e : ScopeId) (y : Float),
      ¬ Value.Denotes e (respelled .toFloat (.float positiveInfinity))
        (.float y) := by
  have hnan : positiveInfinity.isNaN = false := by decide
  have hinfinite : positiveInfinity.isFinite = false := by decide
  refine ⟨hnan, fun e y hdenotes => ?_⟩
  have hends : Ends (fun _ => pure (Value.float y)) Session.blank
      (.ok (Value.float y) Session.blank) := ends_const_iff.2 ⟨id, rfl⟩
  have hraised := hdenotes.symm.trans
    (alike_respelled_infinite hnan hinfinite e)
  obtain ⟨-, heq⟩ := ends_const_iff.1 ((hraised _ _).1 hends)
  cases heq

end SmallLisp
