import SmallLisp.Text.Hidden

/-!
# Quoted text

A text is written between double quotes, with six characters escaped by name.
`quote` is the form that values are shown in; `dump` is the stricter form of
messages and structural dumps, which also writes hidden characters by number.
Reading goes through `unescape`, which knows the six names and keeps any other
escape as it stands.
-/

namespace SmallLisp.Text

/-- The letter that stands for a character after a backslash, if it has one. -/
def escapeName? : Char → Option Char
  | '"' => some '"'
  | '\\' => some '\\'
  | '\n' => some 'n'
  | '\t' => some 't'
  | '\r' => some 'r'
  | '\x00' => some '0'
  | _ => none

/-- The character that a letter after a backslash stands for, if it is one of
the six names. -/
def namedEscape? : Char → Option Char
  | '"' => some '"'
  | '\\' => some '\\'
  | 'n' => some '\n'
  | 't' => some '\t'
  | 'r' => some '\r'
  | '0' => some '\x00'
  | _ => none

theorem namedEscape?_escapeName? {c d : Char} (h : escapeName? c = some d) :
    namedEscape? d = some c := by
  unfold escapeName? at h
  split at h <;> simp only [Option.some.injEq, reduceCtorEq] at h <;>
    subst h <;> rfl

/-- One character as it stands inside a quoted text. -/
def escape (c : Char) : List Char :=
  match escapeName? c with
  | some name => ['\\', name]
  | none => [c]

/-- The characters of a text between double quotes. -/
def quoteChars (cs : List Char) : List Char :=
  '"' :: cs.flatMap escape ++ ['"']

/-- A text between double quotes, with the six named characters escaped. -/
def quote (s : String) : String :=
  String.ofList (quoteChars s.toList)

/-- One character as it stands in a dump: named, written by number, or
itself. -/
def dumpChar (c : Char) : List Char :=
  match escapeName? c with
  | some name => ['\\', name]
  | none =>
      if isHidden c then
        "\\u\x7b".toList ++ Nat.toDigits 16 c.toNat ++ ['\x7d']
      else [c]

/-- A text between double quotes, with hidden characters written by number. -/
def dump (s : String) : String :=
  String.ofList ('"' :: s.toList.flatMap dumpChar ++ ['"'])

/-- Undoes the six named escapes; any other backslash, with what follows it, is
kept. -/
def unescape : List Char → List Char
  | [] => []
  | [c] => [c]
  | c :: d :: rest =>
      if c = '\\' then
        match namedEscape? d with
        | some e => e :: unescape rest
        | none => c :: d :: unescape rest
      else c :: unescape (d :: rest)

end SmallLisp.Text
