import SmallLisp.Number.Binary64
import SmallLisp.Number.Integer

/-!
# Decimal numbers as text

`Decimal` is an exact decimal fraction. Reading turns text into one and rounds
it to the nearest double; writing looks for the fewest digits that read back.

Writing checks every candidate by reading it, so that whatever is written
reads back by construction. Seventeen digits always suffice; the exact
expansion that stands behind the search keeps the promise without having to
argue so.
-/

namespace SmallLisp

/-- The number `digits * 10 ^ exponent`. -/
structure Decimal where
  digits : Nat
  exponent : Int
deriving DecidableEq, Repr

namespace Decimal

open Integer (isDigit digitValue ofDigits splitSign isNumeral)

/-! ## Reading -/

/-- The magnitude of the nearest double. Exponents far outside the range of
doubles are cut short: what lies beyond is infinity or zero in any case. -/
def magnitude (d : Decimal) : Nat :=
  match d.exponent with
  | .ofNat e => Binary64.nearest (d.digits * Nat.pow 10 (min e 1100)) 1
  | .negSucc e =>
      Binary64.nearest d.digits
        (Nat.pow 10 (min (e + 1) (d.digits.log2 + 1100)))

/-- The size of an exponent. Digits are taken up while the value is below `2 ^
16`; those that are left over do not count, so that an exponent of any length
has a size of at most six digits. -/
def exponentSize (digits : List Char) : Nat :=
  digits.foldl
    (fun n c => if n < Nat.pow 2 16 then 10 * n + digitValue c else n) 0

/-- Reads the exponent mark, an optional sign and digits; nothing at all means
no exponent. -/
def readExponent? : List Char → Option Int
  | [] => some 0
  | c :: cs =>
      let (negative, digits) := splitSign cs
      if (c = 'e' ∨ c = 'E') ∧ isNumeral digits = true then
        some (if negative then -(exponentSize digits : Int)
          else exponentSize digits)
      else none

/-- The digits after a leading point, and what follows them. -/
def splitFraction : List Char → List Char × List Char
  | '.' :: cs => (cs.takeWhile isDigit, cs.dropWhile isDigit)
  | cs => ([], cs)

/-- Reads digits with an optional point among or around them and an optional
exponent. -/
def read? (cs : List Char) : Option Decimal :=
  let whole := cs.takeWhile isDigit
  let (fraction, rest) := splitFraction (cs.dropWhile isDigit)
  if whole.isEmpty && fraction.isEmpty then none
  else
    (readExponent? rest).map fun e =>
      ⟨ofDigits (whole ++ fraction), e - fraction.length⟩

/-- The magnitude that an unsigned decimal text stands for. -/
def readMagnitude? (cs : List Char) : Option Nat :=
  (read? cs).map magnitude

/-- Whether a text is digits, a point and digits, or either with an
exponent. -/
def isPlain (cs : List Char) : Bool :=
  let whole := cs.takeWhile isDigit
  let rest := cs.dropWhile isDigit
  let (fraction, tail) := splitFraction rest
  !whole.isEmpty && !rest.isEmpty &&
    (rest.head? != some '.' || !fraction.isEmpty)
    && (readExponent? tail).isSome

/-- Whether a text breaks off in its exponent: digits, perhaps a point and
digits, then the exponent mark and nothing more. -/
def isCutShort (cs : List Char) : Bool :=
  let whole := cs.takeWhile isDigit
  let rest := cs.dropWhile isDigit
  let (fraction, tail) := splitFraction rest
  !whole.isEmpty && (rest.head? != some '.' || !fraction.isEmpty)
    && (tail == ['e'] || tail == ['E'])

/-! ## Writing -/

/-- Drops the zeros at the end, which the place of the point makes up for. -/
def trimZeros (ds : List Char) : List Char :=
  (ds.reverse.dropWhile (· == '0')).reverse

/-- Writes significant digits, of which `scale` stand before the point; a
negative `scale` counts the zeros between the point and the first digit.
Numbers from a ten-thousandth up to, not including, ten to the sixteenth are
written by position, all others with an exponent. -/
def place (ds : List Char) (scale : Int) : List Char :=
  if -4 < scale ∧ scale ≤ 16 then
    if scale ≤ 0 then '0' :: '.' :: List.replicate scale.natAbs '0' ++ ds
    else
      let whole := ds.take scale.toNat
      let fraction := ds.drop scale.toNat
      whole ++ List.replicate (scale.toNat - ds.length) '0' ++ '.'
        :: (if fraction.isEmpty then ['0'] else fraction)
  else
    let point := if ds.length ≤ 1 then [] else ['.']
    let e := scale - 1
    ds.take 1 ++ point ++ ds.drop 1 ++ 'e'
      :: (if e < 0 then ['-'] else []) ++ Integer.digits e.natAbs

/-- The written form of a positive decimal. -/
def write (d : Decimal) : List Char :=
  let ds := Integer.digits d.digits
  place (trimZeros ds) (ds.length + d.exponent)

/-- The number of digits before the point of a number of grains, negative for
small ones. -/
def scale (grains : Nat) : Int :=
  (Integer.digits (grains * Nat.pow 10 400 / Nat.pow 2 1074)).length - 400

/-- The two neighbours of a number of grains among the decimals with `n`
significant digits, the nearer one first and the greater one first where they
are equally near. -/
def neighbours (grains : Nat) (scale : Int) (n : Nat) : List Decimal :=
  let exponent := scale - n
  let num := grains * Nat.pow 10 (-exponent).toNat
  let den := Nat.pow 2 1074 * Nat.pow 10 exponent.toNat
  let below : Decimal := ⟨num / den, exponent⟩
  let above : Decimal := ⟨num / den + 1, exponent⟩
  if 2 * (num % den) < den then [below, above] else [above, below]

/-- The exact value of a number of grains, digit for digit. -/
def exactText (grains : Nat) : List Char :=
  Integer.digits (grains * Nat.pow 5 1074) ++ "e-1074".toList

/-- The written form of a positive finite magnitude: the fewest digits that
read back. -/
def shortest (magnitude : Nat) : List Char :=
  let grains := Binary64.grains magnitude
  let places := scale grains
  let found := (List.range 17).findSome? fun i =>
    ((neighbours grains places (i + 1)).map write).find? fun text =>
      readMagnitude? text = some magnitude
  found.getD (exactText grains)

end Decimal

/-! ## Doubles -/

namespace Binary64

/-- How the values that are not finite are spelled. -/
structure Spelling where
  positiveInfinity : String
  negativeInfinity : String
  notANumber : String

/-- The spelling that the language reads back. -/
def Spelling.readable : Spelling := ⟨"+inf.0", "-inf.0", "+nan.0"⟩

/-- The spelling of structural dumps. -/
def Spelling.bare : Spelling := ⟨"inf", "-inf", "NaN"⟩

/-- The written form of a finite magnitude. -/
def finiteText (magnitude : Nat) : List Char :=
  if magnitude = 0 then "0.0".toList else Decimal.shortest magnitude

/-- The written form of a double. -/
def text (spelling : Spelling) (x : Float) : String :=
  let m := magnitude x
  if infinity < m then spelling.notANumber
  else if m = infinity then
    if isNegative x then spelling.negativeInfinity
    else spelling.positiveInfinity
  else String.ofList ((if isNegative x then ['-'] else []) ++ finiteText m)

/-- The magnitude named by a word, in any letter case. -/
def word? (cs : List Char) : Option Nat :=
  match String.ofList (cs.map Char.toLower) with
  | "inf" => some infinity
  | "infinity" => some infinity
  | "nan" => some (infinity + 1)
  | _ => none

/-- Reads a decimal number or one of the words, with an optional sign. -/
def read? (cs : List Char) : Option Float :=
  let (negative, body) := Integer.splitSign cs
  ((word? body).or (Decimal.readMagnitude? body)).map (ofMagnitude negative)

end Binary64

end SmallLisp
