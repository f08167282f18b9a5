import SmallLisp.Proofs.Cutting
import SmallLisp.Proofs.Reading
import SmallLisp.Token.Balance

/-!
# Two counts of parentheses

The balance of a text is counted character by character, by a scan that
knows strings and comments and nothing else. The lexer cuts the same text
into tokens. On a text that has tokens the two agree: the balance is the
number of opening parentheses among the tokens less the number of closing
ones.

The two scans do not treat strings alike, since a backslash takes a newline
with it here and ends the string there. That makes no difference, because a
text with such a string has no tokens: inside the strings of a text that
has them, what the counting scan skips is unit by unit what the lexer skips
(`depthFrom_units`). Outside strings, it passes over layout, marks and
words because none of their characters means anything to it.
-/

namespace SmallLisp

open Token (Located IsLexeme IsUnits IsWord Cuts isWordChar openings closings)
open Text (Stops isLayout)

namespace Balance

/-- The characters that the count passes over in code. -/
def isIdle (c : Char) : Bool :=
  c != '(' && c != ')' && c != '"' && c != ';'

theorem isIdle_of_isLayout {c : Char} (h : isLayout c = true) :
    isIdle c = true := by
  simp only [isLayout, Bool.or_eq_true, beq_iff_eq] at h
  rcases h with (((rfl | rfl) | rfl) | rfl) | rfl <;> decide

theorem isIdle_of_isWordChar {c : Char} (h : isWordChar c = true) :
    isIdle c = true := by
  have hp := (Token.isWordChar_iff.1 h).2
  simp only [Token.isPunctuation, Bool.or_eq_false_iff, beq_eq_false_iff_ne]
    at hp
  obtain ⟨⟨⟨⟨⟨⟨ho, hc⟩, -⟩, -⟩, -⟩, hs⟩, hq⟩ := hp
  simp [isIdle, ho, hc, hs, hq]

theorem depthFrom_idle {c : Char} (h : isIdle c = true) (depth : Int)
    (cs : List Char) :
    depthFrom depth .code (c :: cs) = depthFrom depth .code cs := by
  simp only [isIdle, Bool.and_eq_true, bne_iff_ne] at h
  obtain ⟨⟨⟨ho, hc⟩, hq⟩, hs⟩ := h
  rw [depthFrom, if_neg ho, if_neg hc, if_neg hq, if_neg hs]

theorem depthFrom_idle_append {cs : List Char} (h : cs.all isIdle = true)
    (depth : Int) (rest : List Char) :
    depthFrom depth .code (cs ++ rest) = depthFrom depth .code rest := by
  induction cs with
  | nil => rfl
  | cons c cs ih =>
      rw [List.all_cons, Bool.and_eq_true] at h
      rw [List.cons_append, depthFrom_idle h.1, ih h.2]

theorem depthFrom_comment {cs rest : List Char} (hc : '\n' ∉ cs)
    (hr : Stops (· ≠ '\n') rest) (depth : Int) :
    depthFrom depth .comment (cs ++ rest) = depthFrom depth .code rest := by
  induction cs with
  | nil =>
      cases rest with
      | nil => rfl
      | cons c rest =>
          have hnl : c = '\n' := by simpa using hr c rfl
          rw [hnl]
          rfl
  | cons c cs ih =>
      have hne : c ≠ '\n' := fun heq => hc (by rw [heq]; simp)
      rw [List.cons_append, depthFrom, if_neg hne,
        ih fun hm => hc (List.mem_cons_of_mem c hm)]

theorem depthFrom_units {units : List Char} (h : IsUnits units) (depth : Int)
    (rest : List Char) :
    depthFrom depth .string (units ++ '"' :: rest) =
      depthFrom depth .code rest := by
  induction h with
  | nil =>
      cases rest with
      | nil => rfl
      | cons d rest => rfl
  | @plain c cs hq hb h ih =>
      obtain ⟨d, more, hmore⟩ : ∃ d more, cs ++ '"' :: rest = d :: more :=
        List.exists_cons_of_ne_nil (by simp)
      rw [← ih, List.cons_append, hmore, depthFrom, if_neg hb, if_neg hq]
  | escaped hn h ih =>
      rw [← ih, List.cons_append, List.cons_append, depthFrom, if_pos rfl]

/-- What a token adds to the depth. -/
def turn (t : Token) : Int :=
  (if t.isOpening = true then 1 else 0) - if t.isClosing = true then 1 else 0

theorem turn_of_ofWord? {word : List Char} {t : Token}
    (h : Token.ofWord? word = some t) : turn t = 0 := by
  unfold Token.ofWord? at h
  split at h
  · next t' hk =>
      cases h
      unfold Token.keyword? at hk
      split at hk <;> cases hk <;> rfl
  · split at h
    · obtain ⟨x, -, rfl⟩ := Option.map_eq_some_iff.1 h
      rfl
    · split at h
      · obtain ⟨n, -, rfl⟩ := Option.map_eq_some_iff.1 h
        rfl
      · cases h
        rfl

theorem depthFrom_lexeme {t : Token} {slice rest : List Char}
    (h : IsLexeme t slice rest) (depth : Int) :
    depthFrom depth .code (slice ++ rest) =
      depthFrom (depth + turn t) .code rest := by
  have hmark : ∀ m : QuoteMark, depth + turn (.mark m) = depth :=
    fun m => Int.add_zero depth
  cases h with
  | @single c _ _ h =>
      unfold Token.single? at h
      split at h <;> cases h
      · rfl
      · rfl
      · rw [hmark, depthFrom_idle_append (by decide)]
      · rw [hmark, depthFrom_idle_append (by decide)]
  | splice => rw [hmark, depthFrom_idle_append (by decide)]
  | unquote h => rw [hmark, depthFrom_idle_append (by decide)]
  | @string units _ h =>
      show depthFrom depth .string ((units ++ ['"']) ++ rest) =
        depthFrom (depth + 0) .code rest
      rw [List.append_assoc, List.singleton_append, depthFrom_units h,
        Int.add_zero]
  | word h hr hb =>
      have hidle : slice.all isIdle = true :=
        List.all_eq_true.2 fun c hc => isIdle_of_isWordChar (h.chars c hc)
      rw [depthFrom_idle_append hidle, turn_of_ofWord? h.meaning, Int.add_zero]

theorem depthFrom_cuts {pos : Nat} {cs : List Char} {ts : List Located}
    (h : Cuts pos cs ts) (depth : Int) :
    depthFrom depth .code cs = depth + openings ts - closings ts := by
  induction h generalizing depth with
  | nil =>
      show depth = depth + 0 - 0
      omega
  | layout hl h ih => rw [depthFrom_idle (isIdle_of_isLayout hl), ih]
  | comment hc hr h ih =>
      rw [← ih]
      exact depthFrom_comment hc hr depth
  | token ht h ih =>
      rw [depthFrom_lexeme ht, ih, Token.openings_cons, Token.closings_cons,
        turn]
      push_cast
      omega

theorem ofText_eq {source : String} {ts : List Located}
    (h : Token.scan source = .ok ts) :
    ofText source = (openings ts : Int) - closings ts := by
  rw [ofText, depthFrom_cuts (Token.scan_eq_ok_iff.1 h)]
  omega

end Balance

/-- Where a text has tokens its balance is the difference between their
numbers of opening and closing parentheses, and where it can be read that is
none. -/
theorem balance_counts_parentheses (source : String) :
    (∀ ts, Token.scan source = .ok ts →
      Balance.ofText source = (openings ts : Int) - closings ts) ∧
    (∀ vs, Value.read source = .ok vs → Balance.ofText source = 0) := by
  refine ⟨fun ts hts => Balance.ofText_eq hts, fun vs hvs => ?_⟩
  obtain ⟨ts, hscan, hparse⟩ := exists_of_bind_eq_ok hvs
  have hdepth := Reader.depth_advanceAll (parse_eq_ok_iff.1 hparse)
  change 0 + closings ts = 0 + openings ts at hdepth
  rw [Balance.ofText_eq hscan]
  omega

/-- A text with parentheses that do not count: two are in a string, before
and behind an escaped quote, and two are in a comment. -/
def guarded : String :=
  "(a\\\")\\\"(\" ; ((\n'b)"

/-- The tokens of `guarded`. -/
def guardedTokens : List Located :=
  [⟨.opening, ⟨0, 1⟩⟩, ⟨.symbol "a\\", ⟨1, 3⟩⟩, ⟨.str ")\"(", ⟨3, 9⟩⟩,
    ⟨.mark .quote, ⟨15, 16⟩⟩, ⟨.symbol "b", ⟨16, 17⟩⟩, ⟨.closing, ⟨17, 18⟩⟩]

theorem guarded_counted :
    Token.scan guarded = .ok guardedTokens ∧
    Balance.ofText guarded =
      (openings guardedTokens : Int) - closings guardedTokens ∧
    (∃ v, Value.read guarded = .ok [v]) ∧ Balance.ofText guarded = 0 := by
  have hscan : Token.scan guarded = .ok guardedTokens := by cbv
  have hread : Value.read guarded = .ok [.list [.symbol "a\\", .str ")\"(",
    .list [.symbol "quote", .symbol "b"]]] := by cbv
  obtain ⟨hcount, hzero⟩ := balance_counts_parentheses guarded
  exact ⟨hscan, hcount _ hscan, ⟨_, hread⟩, hzero _ hread⟩

end SmallLisp
