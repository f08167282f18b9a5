/-!
# Whole numbers as text

Digits are read most significant first. The language keeps integers in 64
bits; a numeral outside that range is not read as an integer at all.
-/

namespace SmallLisp.Integer

/-- The characters `0` to `9`. -/
def isDigit (c : Char) : Bool :=
  '0' ≤ c && c ≤ '9'

/-- The number that a digit stands for. -/
def digitValue (c : Char) : Nat :=
  c.toNat - '0'.toNat

/-- Goes on reading digits after a part that has been read as `n`. -/
def readOn (n : Nat) (digits : List Char) : Nat :=
  digits.foldl (fun n c => 10 * n + digitValue c) n

theorem readOn_eq (n : Nat) (digits : List Char) :
    readOn n digits = n * Nat.pow 10 digits.length + readOn 0 digits := by
  induction digits generalizing n with
  | nil => simp [readOn]
  | cons c cs ih =>
      have step (m : Nat) :
          readOn m (c :: cs) = readOn (10 * m + digitValue c) cs := rfl
      have power :
          Nat.pow 10 (cs.length + 1) = Nat.pow 10 cs.length * 10 := rfl
      rw [step, step, ih, ih (10 * 0 + digitValue c), List.length_cons, power]
      grind

/-- The value of digits, read in two halves that are put together, and these
again in halves, as often as said. However often that is, the value is the
same; many halvings make the work on long numerals light. -/
def ofHalves : (halvings : Nat) → List Char → Nat
  | 0, digits => readOn 0 digits
  | halvings + 1, digits =>
      let front := digits.take (digits.length / 2)
      let back := digits.drop (digits.length / 2)
      ofHalves halvings front * Nat.pow 10 back.length + ofHalves halvings back

theorem ofHalves_eq (halvings : Nat) (digits : List Char) :
    ofHalves halvings digits = readOn 0 digits := by
  induction halvings generalizing digits with
  | zero => rfl
  | succ halvings ih =>
      have parts := List.take_append_drop (digits.length / 2) digits
      simp only [ofHalves, ih]
      rw [← readOn_eq]
      conv => rhs; rw [← parts]
      simp only [readOn, List.foldl_append]

/-- The value of a list of decimal digits. -/
def ofDigits (digits : List Char) : Nat :=
  ofHalves (digits.length.log2 - 6) digits

theorem ofDigits_eq (digits : List Char) : ofDigits digits = readOn 0 digits :=
  ofHalves_eq _ _

/-- Takes an optional sign off; the flag says whether it was a minus. -/
def splitSign : List Char → Bool × List Char
  | '-' :: cs => (true, cs)
  | '+' :: cs => (false, cs)
  | cs => (false, cs)

/-- Whether the characters are one or more digits. -/
def isNumeral (cs : List Char) : Bool :=
  !cs.isEmpty && cs.all isDigit

/-- Reads a numeral with an optional sign. -/
def read? (cs : List Char) : Option Int :=
  let (negative, digits) := splitSign cs
  if isNumeral digits then
    some (if negative then -(ofDigits digits : Int) else ofDigits digits)
  else none

/-- A whole number in 64 bits, if it fits. -/
def narrow? (n : Int) : Option Int64 :=
  if -9223372036854775808 ≤ n ∧ n ≤ 9223372036854775807 then
    some (Int64.ofInt n)
  else none

/-- The 64-bit integer nearest to a whole number. -/
def saturate (n : Int) : Int64 :=
  Int64.ofInt (max (-9223372036854775808) (min 9223372036854775807 n))

/-- The digits of a natural number. -/
def digits (n : Nat) : List Char :=
  Nat.toDigits 10 n

/-- The written form of a 64-bit integer: digits with a leading minus where
needed. -/
def text (n : Int64) : String :=
  let whole := n.toInt
  if whole < 0 then "-" ++ String.ofList (digits whole.natAbs)
  else String.ofList (digits whole.natAbs)

end SmallLisp.Integer
