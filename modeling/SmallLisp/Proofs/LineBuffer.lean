import SmallLisp.Proofs.LineByLine

/-!
# The buffer of pending lines

Whatever lines are added to the buffer, program or not, none of their text
is lost, none is handed out twice or out of order, and what is handed out
ends outside every form.

The last point takes an argument. While the balance is positive the buffer
waits, and at balance zero it asks the reader whether a quote mark is still
without its datum. At a negative balance it asks no one. It need not: a text
that the reader calls unfinished has tokens that are all in place, so its
balance is the number of its open lists, and that is not negative
(`balance_nonneg_of_isIncomplete`).
-/

namespace SmallLisp

open Token (Located)

theorem isUnfinished_eq_false_iff {source : String} :
    isUnfinished source = false ↔
      ∀ e, Value.read source = .error e → e.isIncomplete = false := by
  rw [isUnfinished]
  cases Value.read source with
  | ok vs => simp
  | error e => simp

theorem balance_nonneg_of_isIncomplete {source : String} {e : ReadError}
    (h : Value.read source = .error e) (he : e.isIncomplete = true) :
    0 ≤ Balance.ofText source := by
  cases hscan : Token.scan source with
  | error e' =>
      rw [Value.read, hscan] at h
      cases h
      rw [not_isIncomplete_of_scanFrom hscan] at he
      cases he
  | ok ts =>
      rw [read_of_scan hscan] at h
      obtain ⟨q, hq⟩ := (isIncomplete_iff h).1 he
      rw [ofText_of_advanceAll hscan hq]
      omega

/-- Text that may be handed out: no parenthesis is open, and the reader does
not ask for more. -/
structure Ripe (input : String) : Prop where
  balance : Balance.ofText input ≤ 0
  finished : ∀ e, Value.read input = .error e → e.isIncomplete = false

/-- Text that has to wait: a parenthesis is open, or the reader asks for
more. -/
def Unripe (text : String) : Prop :=
  0 < Balance.ofText text ∨ isUnfinished text = true

/-! ## One line -/

/-- A line goes to the end of the buffer, and then all of the buffer waits
or all of it is handed out. -/
theorem gather_cases (pending line : String) :
    (gather pending line = .waiting (pending ++ line ++ "\n") ∧
      Unripe (pending ++ line ++ "\n")) ∨
    (gather pending line = .ready (pending ++ line ++ "\n") ∧
      Ripe (pending ++ line ++ "\n")) := by
  simp only [gather]
  generalize pending ++ line ++ "\n" = text
  by_cases hpos : 0 < Balance.ofText text
  · exact .inl ⟨if_pos hpos, .inl hpos⟩
  · rw [if_neg hpos]
    by_cases hopen : Balance.ofText text = 0 ∧ isUnfinished text = true
    · exact .inl ⟨if_pos hopen, .inr hopen.2⟩
    · refine .inr ⟨if_neg hopen, by omega, fun e he => ?_⟩
      by_cases hzero : Balance.ofText text = 0
      · have hfinished : isUnfinished text = false := by
          simpa [hzero] using hopen
        exact isUnfinished_eq_false_iff.1 hfinished e he
      · rw [← Bool.not_eq_true]
        intro hinc
        have := balance_nonneg_of_isIncomplete he hinc
        omega

/-! ## Any number of lines -/

/-- The inputs that are handed out, in order, when lines are added to the
pending ones, and what is pending in the end. -/
def gatherAll (pending : String) : List String → List String × String
  | [] => ([], pending)
  | line :: rest =>
    match gather pending line with
    | .ready input =>
      let (more, left) := gatherAll "" rest
      (input :: more, left)
    | .waiting text => gatherAll text rest

theorem gatherAll_waiting {pending line text : String}
    (h : gather pending line = .waiting text) (rest : List String) :
    gatherAll pending (line :: rest) = gatherAll text rest := by
  rw [gatherAll, h]

theorem gatherAll_ready {pending line input : String}
    (h : gather pending line = .ready input) (rest : List String) :
    gatherAll pending (line :: rest) =
      (input :: (gatherAll "" rest).1, (gatherAll "" rest).2) := by
  rw [gatherAll, h]

theorem join_gatherAll (pending : String) (lines : List String) :
    String.join (gatherAll pending lines).1 ++ (gatherAll pending lines).2 =
      pending ++ Text.unlines lines := by
  induction lines generalizing pending with
  | nil => simp [gatherAll, Text.unlines]
  | cons line rest ih =>
      have htext : pending ++ Text.unlines (line :: rest) =
          pending ++ line ++ "\n" ++ Text.unlines rest := by
        simp only [Text.unlines, String.append_assoc]
      rcases gather_cases pending line with ⟨hg, -⟩ | ⟨hg, -⟩
      · rw [gatherAll_waiting hg, ih, htext]
      · rw [gatherAll_ready hg, String.join_cons, String.append_assoc, ih,
          String.empty_append, htext]

theorem ripe_of_mem_gatherAll {pending : String} {lines : List String} :
    ∀ input ∈ (gatherAll pending lines).1, Ripe input := by
  induction lines generalizing pending with
  | nil => simp [gatherAll]
  | cons line rest ih =>
      intro input hin
      rcases gather_cases pending line with ⟨hg, -⟩ | ⟨hg, hripe⟩
      · rw [gatherAll_waiting hg] at hin
        exact ih input hin
      · rw [gatherAll_ready hg] at hin
        rcases List.mem_cons.1 hin with rfl | hin
        · exact hripe
        · exact ih input hin

theorem unripe_gatherAll {pending : String} (lines : List String)
    (h : pending = "" ∨ Unripe pending) :
    (gatherAll pending lines).2 = "" ∨ Unripe (gatherAll pending lines).2 := by
  induction lines generalizing pending with
  | nil => exact h
  | cons line rest ih =>
      rcases gather_cases pending line with ⟨hg, hunripe⟩ | ⟨hg, -⟩
      · rw [gatherAll_waiting hg]
        exact ih (.inr hunripe)
      · rw [gatherAll_ready hg]
        exact ih (.inl rfl)

/-- From an empty buffer on, whatever lines are added: the inputs handed out
and then the pending text are the lines one after the other. No input has an
open parenthesis, and none is reported as incomplete by the reader. Only
text that has to wait is still pending. -/
theorem buffer_loses_nothing (lines : List String) :
    String.join (gatherAll "" lines).1 ++ (gatherAll "" lines).2 =
        Text.unlines lines ∧
      (∀ input ∈ (gatherAll "" lines).1, Balance.ofText input ≤ 0 ∧
        ∀ e, Value.read input = .error e → e.isIncomplete = false) ∧
      ((gatherAll "" lines).2 = "" ∨ Unripe (gatherAll "" lines).2) := by
  refine ⟨?_, fun input hin => ?_, unripe_gatherAll lines (.inl rfl)⟩
  · rw [join_gatherAll, String.empty_append]
  · have hripe := ripe_of_mem_gatherAll input hin
    exact ⟨hripe.balance, hripe.finished⟩

/-- A form over two lines, a stray parenthesis in front of a quote mark, and
a mark that is left waiting. -/
def mixedLines : List String :=
  ["'(a", "\"(\") ; (", ") '", "b", "`"]

theorem mixedLines_buffered :
    gatherAll "" mixedLines =
      (["'(a\n\"(\") ; (\n", ") '\n", "b\n"], "`\n") ∧
    "'(a\n\"(\") ; (\n" ++ ") '\n" ++ "b\n" ++ "`\n" =
      Text.unlines mixedLines ∧
    Balance.ofText ") '\n" = -1 ∧
    ∃ e, Value.read ") '\n" = .error e ∧ e.isIncomplete = false := by
  have hrun : gatherAll "" mixedLines =
      (["'(a\n\"(\") ; (\n", ") '\n", "b\n"], "`\n") := by decide +kernel
  have hread : Value.read ") '\n" = .error (.strayClosing ⟨0, 1⟩) := by cbv
  obtain ⟨hjoin, hripe, -⟩ := buffer_loses_nothing mixedLines
  rw [hrun] at hjoin hripe
  obtain ⟨-, hfinished⟩ := hripe ") '\n" (by simp)
  exact ⟨hrun, hjoin, by decide +kernel, _, hread, hfinished _ hread⟩

end SmallLisp
