/-!
# Cutting text at a separator and joining it again

`pieces` finds the separator from the left, without overlaps. An empty
separator cuts between all characters.
-/

namespace SmallLisp.Text

/-- The text after a leading copy of `sep`, if it starts with one. -/
def stripLead? : (sep text : List Char) → Option (List Char)
  | [], text => some text
  | _ :: _, [] => none
  | s :: sep, c :: text => if s = c then stripLead? sep text else none

theorem length_of_stripLead? {sep text rest : List Char}
    (h : stripLead? sep text = some rest) :
    rest.length + sep.length = text.length := by
  fun_induction stripLead? sep text with
  | case1 => simp_all
  | case2 => simp at h
  | case3 s sep text ih => have := ih h; simp; omega
  | case4 => simp at h

/-- The pieces of a text between copies of the separator `s :: sep`, where
`piece` holds the characters of the current piece, last one first, and `found`
the finished pieces, last one first. -/
def piecesFrom (s : Char) (sep : List Char) (found : List (List Char))
    (piece : List Char) : List Char → List (List Char)
  | [] => (piece.reverse :: found).reverse
  | c :: text =>
      match _h : stripLead? (s :: sep) (c :: text) with
      | some rest => piecesFrom s sep (piece.reverse :: found) [] rest
      | none => piecesFrom s sep found (c :: piece) text
termination_by text => text.length
decreasing_by
  · have := length_of_stripLead? _h
    simp at this ⊢
    omega
  · simp

/-- The pieces between separators, or the single characters for an empty
separator. -/
def pieces : (sep text : List Char) → List (List Char)
  | [], text => text.map ([·])
  | s :: sep, text => piecesFrom s sep [] [] text

/-- Cuts a text at a separator. -/
def split (text sep : String) : List String :=
  (pieces sep.toList text.toList).map String.ofList

/-- Joins texts with a separator between neighbours. -/
def join (parts : List String) (sep : String) : String :=
  sep.intercalate parts

end SmallLisp.Text
