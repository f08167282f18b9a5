import SmallLisp.Failure.Reading
import SmallLisp.Text.Blank
import SmallLisp.Token

/-!
# Cutting text into tokens

Between tokens, layout and comments are skipped. A token is one of the
punctuation marks, a string, or a *word*: a run of characters that is as long
as possible, neither blank nor punctuation. What a word means depends on the
whole run, so `1+` and `true?` are symbols. In one case it also depends on
what follows: a number that breaks off after its exponent mark, such as `1e`,
is a symbol, but right before a blank outside ASCII it is no token at all.

The loop ends because every token takes at least one character: `lexeme`
splits its input into the token's slice and the rest (`append_of_lexeme`).
-/

namespace SmallLisp.Token

open Text (isBlank isLayout isWideBlank width)

/-- The characters that end a word, other than blanks. -/
def isPunctuation (c : Char) : Bool :=
  c == '(' || c == ')' || c == '\x27' || c == '\x60' || c == ',' || c == ';' ||
    c == '"'

/-- The characters that words are made of. -/
def isWordChar (c : Char) : Bool :=
  !isBlank c && !isPunctuation c

/-- The word without a leading minus. -/
def unsigned : List Char → List Char
  | '-' :: cs => cs
  | cs => cs

/-- Whether a word spells a finite float: digits with a point or an
exponent. -/
def isFloatWord (cs : List Char) : Bool :=
  Decimal.isPlain (unsigned cs)

/-- Whether a word spells a whole number. -/
def isIntWord (cs : List Char) : Bool :=
  Integer.isNumeral (unsigned cs)

/-- The words that are not classified by their shape. -/
def keyword? (word : String) : Option Token :=
  match word with
  | "nil" => some .nil
  | "true" => some (.bool true)
  | "false" => some (.bool false)
  | "+inf.0" => some (.float (Binary64.ofMagnitude false Binary64.infinity))
  | "-inf.0" => some (.float (Binary64.ofMagnitude true Binary64.infinity))
  | "+nan.0" =>
      some (.float (Binary64.ofMagnitude false (Binary64.infinity + 1)))
  | _ => none

/-- The meaning of a word. Only a whole number that does not fit 64 bits has
none. -/
def ofWord? (cs : List Char) : Option Token :=
  match keyword? (String.ofList cs) with
  | some t => some t
  | none =>
      if isFloatWord cs then (Binary64.read? cs).map .float
      else if isIntWord cs then
        ((Integer.read? cs).bind Integer.narrow?).map .int
      else some (.symbol (String.ofList cs))

/-- Whether a word, given what follows it, is a number that is broken off by a
wide blank. -/
def isBrokenNumber (word rest : List Char) : Bool :=
  Decimal.isCutShort (unsigned word) && rest.head?.any isWideBlank

/-- Splits the inside of a string into its complete units and what follows
them. A unit is a character other than the quote and the backslash, or a
backslash with a character other than the newline. -/
def splitUnits : List Char → List Char × List Char
  | [] => ([], [])
  | [c] => if c = '"' ∨ c = '\\' then ([], [c]) else ([c], [])
  | c :: d :: cs =>
      if c = '"' then ([], c :: d :: cs)
      else if c = '\\' then
        if d = '\n' then ([], c :: d :: cs)
        else
          let (units, rest) := splitUnits cs
          (c :: d :: units, rest)
      else
        let (units, rest) := splitUnits (d :: cs)
        (c :: units, rest)

/-- The outcome of looking for one token. -/
inductive Lexeme where
  | token (t : Token) (slice rest : List Char)
  | bad (slice : List Char)

/-- The string that starts with the quote before the given text. -/
def stringLexeme (cs : List Char) : Lexeme :=
  match splitUnits cs with
  | (units, '"' :: rest) =>
      .token (.str (String.ofList (Text.unescape units)))
        ('"' :: units ++ ['"']) rest
  | (units, _) => .bad ('"' :: units)

/-- The word that starts with a given character, or that character alone if it
starts none. -/
def wordLexeme (c : Char) (cs : List Char) : Lexeme :=
  if isWordChar c then
    let word := c :: cs.takeWhile isWordChar
    let rest := cs.dropWhile isWordChar
    if isBrokenNumber word rest then .bad word
    else
      match ofWord? word with
      | some t => .token t word rest
      | none => .bad word
  else .bad [c]

/-- The tokens that are one character, whatever follows it. -/
def single? : Char → Option Token
  | '(' => some .opening
  | ')' => some .closing
  | '\x27' => some (.mark .quote)
  | '\x60' => some (.mark .quasiquote)
  | _ => none

/-- The mark that starts with the comma before the given text. -/
def commaLexeme : List Char → Lexeme
  | '@' :: rest => .token (.mark .splice) [',', '@'] rest
  | rest => .token (.mark .unquote) [','] rest

/-- The token at the start of a text that starts with neither layout nor a
comment. -/
def lexeme (c : Char) (cs : List Char) : Lexeme :=
  match single? c with
  | some t => .token t [c] cs
  | none =>
      if c = ',' then commaLexeme cs
      else if c = '"' then stringLexeme cs
      else wordLexeme c cs

theorem append_splitUnits (cs : List Char) :
    (splitUnits cs).1 ++ (splitUnits cs).2 = cs := by
  fun_induction splitUnits cs <;> simp_all

section

variable {c : Char} {cs slice rest : List Char} {t : Token}

theorem append_of_stringLexeme (h : stringLexeme cs = .token t slice rest) :
    slice ++ rest = '"' :: cs ∧ slice ≠ [] := by
  have hsplit := append_splitUnits cs
  unfold stringLexeme at h
  split at h
  · next units tail hs =>
      injection h with _ hslice hrest
      rw [hs] at hsplit
      simp [← hslice, ← hrest, ← hsplit]
  · contradiction

theorem append_of_wordLexeme (h : wordLexeme c cs = .token t slice rest) :
    slice ++ rest = c :: cs ∧ slice ≠ [] := by
  simp only [wordLexeme] at h
  split at h
  · split at h
    · contradiction
    · split at h
      · injection h with _ hslice hrest
        simp [← hslice, ← hrest]
      · contradiction
  · contradiction

theorem append_of_commaLexeme (h : commaLexeme cs = .token t slice rest) :
    slice ++ rest = ',' :: cs ∧ slice ≠ [] := by
  unfold commaLexeme at h
  split at h <;> injection h with _ hslice hrest <;> simp [← hslice, ← hrest]

theorem append_of_lexeme (h : lexeme c cs = .token t slice rest) :
    slice ++ rest = c :: cs ∧ slice ≠ [] := by
  unfold lexeme at h
  split at h
  · injection h with _ hslice hrest
    simp [← hslice, ← hrest]
  · split at h
    · next hc => exact hc ▸ append_of_commaLexeme h
    · split at h
      · next hc => exact hc ▸ append_of_stringLexeme h
      · exact append_of_wordLexeme h

theorem length_of_lexeme (h : lexeme c cs = .token t slice rest) :
    rest.length < (c :: cs).length := by
  obtain ⟨e, hne⟩ := append_of_lexeme h
  have := congrArg List.length e
  have := List.length_pos_iff.2 hne
  simp at *
  omega

end

/-- The tokens of a text that starts at byte offset `pos`, after those of
`found`, which are in reverse. The first slice that is no token ends the
search. -/
def scanFrom (found : List Located) (pos : Nat) :
    List Char → Except ReadError (List Located)
  | [] => .ok found.reverse
  | c :: cs =>
      if isLayout c then scanFrom found (pos + c.utf8Size) cs
      else if c = ';' then
        scanFrom found (pos + width (c :: cs.takeWhile (· ≠ '\n')))
          (cs.dropWhile (· ≠ '\n'))
      else
        match _h : lexeme c cs with
        | .token t slice rest =>
            let span : Text.Span := ⟨pos, pos + width slice⟩
            scanFrom (⟨t, span⟩ :: found) span.stop rest
        | .bad slice =>
            .error (.badSlice (String.ofList slice) ⟨pos, pos + width slice⟩)
termination_by cs => cs.length
decreasing_by
  · simp
  · have := (List.dropWhile_sublist (l := cs) (· ≠ '\n')).length_le
    simp at *
    omega
  · exact length_of_lexeme _h

/-- The tokens of a source text. -/
def scan (source : String) : Except ReadError (List Located) :=
  scanFrom [] 0 source.toList

end SmallLisp.Token
