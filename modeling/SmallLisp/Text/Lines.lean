/-!
# Lines of a byte stream

A line ends at a newline, which does not belong to it, and neither does a
return right before the newline. What follows the last newline is a line if it
is not empty. A line that is no UTF-8 has no text.
-/

namespace SmallLisp.Text

/-- A finished line, given in reverse, without a return at its end. -/
def finishLine : List UInt8 → List UInt8
  | 13 :: line => line.reverse
  | line => line.reverse

/-- The lines of a stream, after those of `found` and with the start of one in
`line`; both are in reverse. -/
def byteLinesFrom (found : List (List UInt8)) (line : List UInt8) :
    List UInt8 → List (List UInt8)
  | [] => (if line.isEmpty then found else line.reverse :: found).reverse
  | b :: bs =>
      if b = 10 then byteLinesFrom (finishLine line :: found) [] bs
      else byteLinesFrom found (b :: line) bs

/-- The text that bytes encode, if they are UTF-8. -/
def decode? (bytes : List UInt8) : Option String :=
  String.fromUTF8? ⟨bytes.toArray⟩

/-- The lines of a byte stream, each with its text if it has one. -/
def lines (stream : List UInt8) : List (Option String) :=
  (byteLinesFrom [] [] stream).map decode?

end SmallLisp.Text
