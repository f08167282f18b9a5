/-!
# Stretches of source text

Positions are byte offsets into the UTF-8 form of the source, so that a span
means the same thing to every tool that looks at the file. Text itself is
handled as a list of characters; `width` converts between the two views.
-/

namespace SmallLisp.Text

/-- The number of bytes that the characters occupy in UTF-8. -/
def width (cs : List Char) : Nat :=
  cs.foldr (fun c n => c.utf8Size + n) 0

/-- A stretch of source text: the bytes from `start` up to, not including,
`stop`. -/
structure Span where
  start : Nat
  stop : Nat
deriving DecidableEq, Repr

namespace Span

/-- The empty span at an offset. -/
def point (offset : Nat) : Span :=
  ⟨offset, offset⟩

/-- The same stretch, seen from a text that has `k` more bytes in front. -/
def shift (k : Nat) (s : Span) : Span :=
  ⟨s.start + k, s.stop + k⟩

/-- The written form, as in `3..7`. -/
def text (s : Span) : String :=
  toString s.start ++ ".." ++ toString s.stop

end Span

@[simp] theorem width_nil : width [] = 0 := rfl

@[simp] theorem width_cons (c : Char) (cs : List Char) :
    width (c :: cs) = c.utf8Size + width cs := rfl

@[simp] theorem width_append (cs ds : List Char) :
    width (cs ++ ds) = width cs + width ds := by
  induction cs with
  | nil => simp
  | cons c cs ih =>
      rw [List.cons_append, width_cons, width_cons, ih, Nat.add_assoc]

end SmallLisp.Text
