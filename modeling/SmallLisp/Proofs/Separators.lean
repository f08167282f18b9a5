import SmallLisp.Proofs.Endings

/-!
# Cutting and joining undo each other

A text is cut at a separator by looking for it from the left and going on
behind it. A separator may overlap with a copy of itself, so where the cuts
are is not a matter of course, and `CutsAt` says it: every piece but the last
ends where the separator is found first, and it is not found in the last one.
The loop that cuts keeps to that (`piecesFrom_eq`), and its one invariant is
that no copy of the separator starts in the piece that it is working on.

Whatever is known about pieces follows from `CutsAt`. Put together with the
separator between them they make up the text, and none of them holds the
separator. There is also only one way to cut a text (`CutsAt.unique`). So
texts that were joined come apart again as they were whenever they are a way
to cut what they make up. For a separator of one character that none of them
holds this is the case; a longer one may be found across the place where a
text meets the separator.
-/

namespace SmallLisp

namespace Text

/-! ## Where a text is cut -/

/-- In front of `rest`, no copy of the separator starts within the piece. -/
def Clear (sep piece rest : List Char) : Prop :=
  ∀ i < piece.length, ¬ sep <+: (piece ++ rest).drop i

/-- The pieces of a text: the separator is looked for from the left, and
again in what is behind it. -/
inductive CutsAt (sep : List Char) : List Char → List (List Char) → Prop where
  | last {piece : List Char} (h : Clear sep piece []) :
      CutsAt sep piece [piece]
  | next {piece rest : List Char} {pieces : List (List Char)}
      (h : Clear sep piece (sep ++ rest)) (hrest : CutsAt sep rest pieces) :
      CutsAt sep (piece ++ (sep ++ rest)) (piece :: pieces)

variable {sep piece rest text : List Char} {pieces : List (List Char)}

theorem clear_nil : Clear sep [] rest := by
  intro i hi
  simp at hi

theorem Clear.snoc {c : Char} (h : Clear sep piece (c :: rest))
    (hc : ¬ sep <+: c :: rest) : Clear sep (piece ++ [c]) rest := by
  intro i hi
  have hsplit : piece ++ [c] ++ rest = piece ++ c :: rest := by simp
  rw [hsplit]
  rw [List.length_append, List.length_singleton] at hi
  rcases Nat.lt_or_eq_of_le (Nat.le_of_lt_succ hi) with hlt | rfl
  · exact h i hlt
  · rw [List.drop_left]
    exact hc

/-- A copy of the separator stands no earlier than behind a clear piece. -/
theorem Clear.length_le {before behind : List Char} (h : Clear sep piece rest)
    (heq : piece ++ rest = before ++ (sep ++ behind)) :
    piece.length ≤ before.length := by
  by_contra hlt
  refine h before.length (by omega) ?_
  rw [heq, List.drop_left]
  exact List.prefix_append sep behind

theorem Clear.not_infix (hsep : sep ≠ []) (h : Clear sep piece rest) :
    ¬ sep <:+: piece := by
  intro hinfix
  obtain ⟨before, behind, heq⟩ := hinfix
  have hwhole : piece ++ rest = before ++ (sep ++ (behind ++ rest)) := by
    rw [← heq]
    simp
  have hle := h.length_le hwhole
  have hpos := List.length_pos_iff.2 hsep
  have hlen := congrArg List.length heq
  simp only [List.length_append] at hlen
  omega

theorem clear_singleton {c : Char} (h : c ∉ piece) : Clear [c] piece rest := by
  intro i hi hstart
  rw [List.drop_append_of_le_length (by omega),
    List.drop_eq_getElem_cons hi, List.cons_append,
    List.cons_prefix_cons] at hstart
  exact h (hstart.1 ▸ List.getElem_mem hi)

/-! ## What pieces are like -/

namespace CutsAt

theorem ne_nil (h : CutsAt sep text pieces) : pieces ≠ [] := by
  cases h with
  | last _ => exact List.cons_ne_nil _ _
  | next _ _ => exact List.cons_ne_nil _ _

theorem intercalate_eq (h : CutsAt sep text pieces) :
    sep.intercalate pieces = text := by
  induction h with
  | last _ => exact List.intercalate_singleton
  | next _ hrest ih =>
      rw [List.intercalate_cons_of_ne_nil hrest.ne_nil, ih, List.append_assoc]

theorem not_infix (hsep : sep ≠ []) (h : CutsAt sep text pieces) :
    ∀ piece ∈ pieces, ¬ sep <:+: piece := by
  induction h with
  | last hclear =>
      intro p hp
      rw [List.mem_singleton.1 hp]
      exact hclear.not_infix hsep
  | next hclear _ ih =>
      intro p hp
      rcases List.mem_cons.1 hp with rfl | hp
      · exact hclear.not_infix hsep
      · exact ih p hp

/-- A text is cut in one way only. -/
theorem unique (hsep : sep ≠ []) {text' : List Char}
    {pieces' : List (List Char)} (h : CutsAt sep text pieces)
    (h' : CutsAt sep text' pieces') (heq : text = text') :
    pieces = pieces' := by
  have hpos := List.length_pos_iff.2 hsep
  induction h generalizing text' pieces' with
  | @last piece hclear =>
      cases h' with
      | last _ => rw [heq]
      | @next piece' rest' _ _ _ =>
          have hle := hclear.length_le (by rw [List.append_nil, heq])
          have hlen := congrArg List.length heq
          simp only [List.length_append] at hlen
          omega
  | @next piece rest pieces hclear _ ih =>
      cases h' with
      | last hclear' =>
          have hle := hclear'.length_le (by rw [List.append_nil, heq])
          have hlen := congrArg List.length heq
          simp only [List.length_append] at hlen
          omega
      | @next piece' rest' pieces' hclear' hrest' =>
          -- Neither of the two separators stands before the other.
          have hle := hclear.length_le heq
          have hle' := hclear'.length_le heq.symm
          obtain ⟨rfl, hbehind⟩ := List.append_inj heq (by omega)
          rw [ih hrest' (List.append_cancel_left hbehind)]

theorem of_not_mem {c : Char} {parts : List (List Char)} (hne : parts ≠ [])
    (h : ∀ p ∈ parts, c ∉ p) : CutsAt [c] ([c].intercalate parts) parts := by
  induction parts with
  | nil => exact absurd rfl hne
  | cons p ps ih =>
      have hp := h p List.mem_cons_self
      cases ps with
      | nil =>
          rw [List.intercalate_singleton]
          exact .last (clear_singleton hp)
      | cons q qs =>
          rw [List.intercalate_cons_cons, List.append_assoc]
          refine .next (clear_singleton hp) (ih (List.cons_ne_nil q qs) ?_)
          exact fun r hr => h r (List.mem_cons_of_mem p hr)

end CutsAt

/-! ## The loop -/

theorem stripLead?_eq_some_iff :
    stripLead? sep text = some rest ↔ text = sep ++ rest := by
  fun_induction stripLead? sep text with
  | case1 text => simp
  | case2 s sep => simp
  | case3 s sep text ih => simp [ih]
  | case4 s sep c text hne => simp [Ne.symm hne]

theorem piecesFrom_eq (s : Char) (sep : List Char)
    (found : List (List Char)) (piece text : List Char)
    (h : Clear (s :: sep) piece.reverse text) :
    ∃ pieces, piecesFrom s sep found piece text = found.reverse ++ pieces ∧
      CutsAt (s :: sep) (piece.reverse ++ text) pieces := by
  fun_induction piecesFrom s sep found piece text with
  | case1 found piece =>
      exact ⟨[piece.reverse], by simp, by simpa using CutsAt.last h⟩
  | case2 found piece c text rest hstrip ih =>
      rw [stripLead?_eq_some_iff] at hstrip
      simp only [List.unattach_reverse, List.unattach_attach] at ih
      obtain ⟨pieces, heq, hcuts⟩ := ih clear_nil
      rw [hstrip] at h ⊢
      refine ⟨piece.reverse :: pieces, ?_, .next h hcuts⟩
      rw [heq]
      simp
  | case3 found piece c text hstrip ih =>
      have hc : ¬ (s :: sep) <+: c :: text := by
        rintro ⟨rest, hrest⟩
        rw [stripLead?_eq_some_iff.2 hrest.symm] at hstrip
        cases hstrip
      have hclear := h.snoc hc
      rw [← List.reverse_cons] at hclear
      obtain ⟨pieces, heq, hcuts⟩ := ih hclear
      refine ⟨pieces, heq, ?_⟩
      simpa using hcuts

theorem cutsAt_pieces (hsep : sep ≠ []) (text : List Char) :
    CutsAt sep text (Text.pieces sep text) := by
  obtain ⟨s, sep, rfl⟩ := List.exists_cons_of_ne_nil hsep
  obtain ⟨pieces, heq, hcuts⟩ := piecesFrom_eq s sep [] [] text clear_nil
  rw [Text.pieces, heq]
  exact hcuts

/-- Without a separator the pieces are the characters. -/
theorem intercalate_characters (text : List Char) :
    [].intercalate (text.map ([·])) = text := by
  induction text with
  | nil => rfl
  | cons c cs ih =>
      cases cs with
      | nil => rfl
      | cons d ds =>
          simp only [List.map_cons, List.intercalate_cons_cons] at ih ⊢
          rw [ih]
          rfl

theorem intercalate_pieces (sep text : List Char) :
    sep.intercalate (Text.pieces sep text) = text := by
  cases sep with
  | nil => exact intercalate_characters text
  | cons s sep =>
      exact (cutsAt_pieces (List.cons_ne_nil s sep) text).intercalate_eq

/-! ## Texts -/

theorem map_toList_split (text sep : String) :
    (split text sep).map String.toList =
      Text.pieces sep.toList text.toList := by
  simp [split, Function.comp_def]

theorem join_split (text sep : String) : join (split text sep) sep = text := by
  rw [← String.toList_inj, join, String.toList_intercalate, map_toList_split,
    intercalate_pieces]

theorem cutsAt_split {sep : String} (hsep : sep ≠ "") (text : String) :
    CutsAt sep.toList text.toList ((split text sep).map String.toList) := by
  rw [map_toList_split]
  exact cutsAt_pieces (by simpa using hsep) text.toList

theorem split_empty (text : String) :
    split text "" = text.toList.map String.singleton := by
  simp only [split, String.toList_empty, Text.pieces, List.map_map]
  rfl

theorem split_join {c : Char} {parts : List String} (hne : parts ≠ [])
    (h : ∀ p ∈ parts, c ∉ p.toList) :
    split (join parts (String.singleton c)) (String.singleton c) = parts := by
  have hsep : String.singleton c ≠ "" := by simp
  have hcuts := cutsAt_split hsep (join parts (String.singleton c))
  have hparts : CutsAt [c] ([c].intercalate (parts.map String.toList))
      (parts.map String.toList) :=
    .of_not_mem (by simpa using hne) (by simpa using h)
  rw [join, String.toList_intercalate, String.toList_singleton] at hcuts
  have heq := hcuts.unique (List.cons_ne_nil c []) hparts rfl
  exact List.map_injective_iff.2 (fun _ _ => String.toList_inj.1) heq

end Text

/-! ## The builtins -/

/-- The list of texts. -/
def Value.texts (parts : List String) : Value :=
  .list (parts.map .str)

namespace Builtin

theorem split_answers (text sep : String) :
    split.Answers [.str text, .str sep]
      (.ok (.texts (Text.split text sep))) :=
  answers_of_run rfl fun _ => rfl

theorem join_answers (parts : List String) (sep : String) :
    join.Answers [.texts parts, .str sep]
      (.ok (.str (Text.join parts sep))) := by
  have hraw : (parts.map Value.str).map Value.raw = parts := by
    simp [Function.comp_def, Value.raw]
  refine answers_of_run rfl fun c => ?_
  show Eval.ofAnswer (.ok (Value.str (Text.join
    ((parts.map Value.str).map Value.raw) sep))) = _
  rw [hraw]

theorem len_answers (v : Value) :
    len.Answers [v] (.ok (.int (Int64.ofNat v.length))) :=
  answers_of_run rfl fun _ => rfl

end Builtin

section Forms

variable {e : ScopeId} {x : Value}

/-- Cuts what `x` comes to. -/
def splitForm (x : Value) (sep : String) : Value :=
  .list [.builtin .split, x, .str sep]

/-- Joins what `x` comes to. -/
def joinForm (x : Value) (sep : String) : Value :=
  .list [.builtin .join, x, .str sep]

/-- The length of what `x` comes to. -/
def lenForm (x : Value) : Value :=
  .list [.builtin .len, x]

theorem denotes_str (e : ScopeId) (s : String) :
    Value.Denotes e (.str s) (.str s) :=
  denotes_self e nofun nofun

theorem denotes_splitForm {text : String} (sep : String)
    (hx : Value.Denotes e x (.str text)) :
    Value.Denotes e (splitForm x sep) (.texts (Text.split text sep)) :=
  (Builtin.split_answers text sep).denotes
    (.cons hx (.cons (denotes_str e sep) .nil))

theorem denotes_joinForm {parts : List String} (sep : String)
    (hx : Value.Denotes e x (.texts parts)) :
    Value.Denotes e (joinForm x sep) (.str (Text.join parts sep)) :=
  (Builtin.join_answers parts sep).denotes
    (.cons hx (.cons (denotes_str e sep) .nil))

theorem denotes_lenForm {v : Value} (hx : Value.Denotes e x v) :
    Value.Denotes e (lenForm x) (.int (Int64.ofNat v.length)) :=
  (Builtin.len_answers v).denotes (.cons hx .nil)

end Forms

/-! ## There and back -/

/-- A text that was cut is the same text when it is joined again. A separator
that is not empty leaves at least one piece and is in none of them; without a
separator the pieces are the characters, as many as the text is long. Texts
that were joined by a character that is in none of them come apart again. -/
theorem split_and_join_inverse (e : ScopeId) :
    (∀ text sep : String,
      Value.Denotes e (joinForm (splitForm (.str text) sep) sep)
        (.str text)) ∧
    (∀ text sep : String, sep ≠ "" → ∃ parts ≠ [],
      Value.Denotes e (splitForm (.str text) sep) (.texts parts) ∧
        ∀ p ∈ parts, ¬ sep.toList <:+: p.toList) ∧
    (∀ text : String,
      Value.Denotes e (splitForm (.str text) "")
        (.texts (text.toList.map String.singleton)) ∧
      ∃ n, Value.Denotes e (lenForm (splitForm (.str text) "")) (.int n) ∧
        Value.Denotes e (lenForm (.str text)) (.int n)) ∧
    ∀ (c : Char) (parts : List String), parts ≠ [] →
      (∀ p ∈ parts, c ∉ p.toList) →
      Value.Denotes e
        (splitForm (joinForm (.tagged .quote (.texts parts))
          (String.singleton c)) (String.singleton c))
        (.texts parts) := by
  have hsplit (text sep : String) := denotes_splitForm sep (denotes_str e text)
  refine ⟨fun text sep => ?_, fun text sep hsep => ?_,
    fun text => ⟨?_, Int64.ofNat text.length, ?_, ?_⟩,
    fun c parts hne h => ?_⟩
  · have hjoin := denotes_joinForm sep (hsplit text sep)
    rwa [Text.join_split] at hjoin
  · have hcuts := Text.cutsAt_split hsep text
    have hpieces := hcuts.not_infix (by simpa using hsep)
    refine ⟨Text.split text sep, by simpa using hcuts.ne_nil, hsplit text sep,
      fun p hp => hpieces p.toList (List.mem_map_of_mem hp)⟩
  · rw [← Text.split_empty]
    exact hsplit text ""
  · have hlen := denotes_lenForm (hsplit text "")
    rw [Text.split_empty] at hlen
    simpa [Value.texts, Value.length, String.length_toList] using hlen
  · exact denotes_lenForm (denotes_str e text)
  · have hjoin := denotes_joinForm (String.singleton c)
      (denotes_quoted e (.texts parts))
    have hback := denotes_splitForm (String.singleton c) hjoin
    rwa [Text.split_join hne h] at hback

theorem overlapping_inverse :
    Value.Denotes 0 (joinForm (splitForm (.str "aaaba") "aa") "aa")
        (.str "aaaba") ∧
      (∃ parts ≠ [], Value.Denotes 0 (splitForm (.str "aaaba") "aa")
        (.texts parts) ∧ ∀ p ∈ parts, ¬ "aa".toList <:+: p.toList) ∧
      Value.Denotes 0
        (splitForm (joinForm (.tagged .quote (.texts ["", "é", ""]))
          (String.singleton ',')) (String.singleton ','))
        (.texts ["", "é", ""]) := by
  obtain ⟨hback, hpieces, -, hforth⟩ := split_and_join_inverse 0
  refine ⟨hback "aaaba" "aa", hpieces "aaaba" "aa" (by decide), ?_⟩
  exact hforth ',' ["", "é", ""] (by decide) (by decide)

end SmallLisp
