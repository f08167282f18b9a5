/-!
# Blank characters

Two classes matter. `isBlank` is the Unicode property White_Space: such a
character never belongs to a name, and trimming removes it. `isLayout` is the
smaller class that may stand between tokens; a blank outside it is an error
wherever it appears outside a string.
-/

namespace SmallLisp.Text

/-- The Unicode property White_Space. -/
def isBlank (c : Char) : Bool :=
  let n := c.toNat
  (9 ≤ n && n ≤ 13) || n == 0x20 || n == 0x85 || n == 0xA0 || n == 0x1680
    || (0x2000 ≤ n && n ≤ 0x200A) || n == 0x2028 || n == 0x2029 || n == 0x202F
    || n == 0x205F || n == 0x3000

/-- Space, tab, newline, return and form feed: the characters skipped between
tokens. -/
def isLayout (c : Char) : Bool :=
  c == ' ' || c == '\t' || c == '\n' || c == '\r' || c == '\x0c'

theorem isBlank_of_isLayout {c : Char} (h : isLayout c = true) :
    isBlank c = true := by
  simp only [isLayout, Bool.or_eq_true, beq_iff_eq] at h
  rcases h with (((rfl | rfl) | rfl) | rfl) | rfl <;> decide

/-- The blanks outside ASCII. -/
def isWideBlank (c : Char) : Bool :=
  isBlank c && 0x80 ≤ c.toNat

/-- Removes blanks from both ends. -/
def trimChars (cs : List Char) : List Char :=
  ((cs.dropWhile isBlank).reverse.dropWhile isBlank).reverse

end SmallLisp.Text
