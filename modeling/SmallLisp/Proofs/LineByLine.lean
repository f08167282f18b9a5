import SmallLisp.Conversation
import SmallLisp.Proofs.Completion
import SmallLisp.Proofs.Parentheses

/-!
# A program given line by line

Lines are gathered until they make up whole forms, and then handed out. The
decision is made by two scans: the balance says whether a parenthesis is
open, and where none is the reader says whether a quote mark waits for its
datum. On the lines of a program the two together ask one question, whether
any form is open (`gather_of_advanceAll`). So what is handed out ends
between two forms, and nothing is held back that ends there.

The rest is bookkeeping. A program can be taken apart behind any line,
provided that no string runs over the end of the line: the tokens of the
lines so far are the first of its tokens (`ReadsInLines.split`), and where
they leave nothing open the other lines are a program of their own. From
this follows what a single line can turn out to be (`receive_cases`), and
by induction what all of them do.

That the inputs handed out are what a conversation works through, one after
the other, is `hearAll_eq`.
-/

namespace SmallLisp

open Token (Located Cuts IsLexeme StringsOnOneLine)
open Reader (Progress advanceAll start)
open Text (isBlank width)

/-! ## Lines -/

/-- The text that lines make up, each with a newline behind it. -/
def Text.unlines : List String → String
  | [] => ""
  | line :: rest => line ++ "\n" ++ unlines rest

/-- The lines that could be taken for commands. -/
def startsWithColon (line : String) : Prop :=
  (Text.trimChars line.toList).head? = some ':'

theorem Text.isBlank_of_trimChars {cs : List Char} (h : trimChars cs = []) :
    ∀ c ∈ cs, isBlank c = true := by
  rw [trimChars, List.reverse_eq_nil_iff, List.dropWhile_eq_nil_iff] at h
  intro c hc
  rw [← List.takeWhile_append_dropWhile (p := isBlank) (l := cs)] at hc
  rcases List.mem_append.1 hc with hc | hc
  · exact List.mem_takeWhile_imp hc
  · exact h c (List.mem_reverse.2 hc)

namespace Token

theorem IsLexeme.exists_not_isBlank {t : Token} {slice rest : List Char}
    (h : IsLexeme t slice rest) : ∃ c ∈ slice, isBlank c = false := by
  cases h with
  | @single c _ _ h =>
      refine ⟨c, by simp, ?_⟩
      unfold single? at h
      split at h
      · rfl
      · rfl
      · rfl
      · rfl
      · cases h
  | splice => exact ⟨',', by simp, rfl⟩
  | unquote => exact ⟨',', by simp, rfl⟩
  | string => exact ⟨'"', by simp, rfl⟩
  | word h =>
      obtain ⟨c, cs, rfl⟩ := List.exists_cons_of_ne_nil h.ne_nil
      exact ⟨c, by simp, (isWordChar_iff.1 (h.chars c (by simp))).1⟩

/-- A blank text that can be cut holds no token. -/
theorem Cuts.eq_nil_of_isBlank {pos : Nat} {cs : List Char}
    {ts : List Located} (h : Cuts pos cs ts)
    (hb : ∀ c ∈ cs, isBlank c = true) : ts = [] := by
  induction h with
  | nil => rfl
  | layout hl h ih => exact ih fun c hc => hb c (List.mem_cons_of_mem _ hc)
  | comment hc hr h ih => exact absurd (hb ';' (by simp)) (by decide)
  | token ht h ih =>
      obtain ⟨c, hc, hnot⟩ := ht.exists_not_isBlank
      rw [hb c (List.mem_append_left _ hc)] at hnot
      cases hnot

end Token

/-! ## Taking a program apart -/

/-- A text that is read as some forms, none of whose strings runs over the
end of a line. -/
structure ReadsInLines (source : String) (ts : List Located)
    (forms : List Value) : Prop where
  scan : Token.scan source = .ok ts
  parse : Value.parse ts = .ok forms
  strings : StringsOnOneLine 0 source.toList ts

/-- A program is taken apart behind a newline: the tokens before it are all
in place, and if they leave nothing open then what is behind it is a program
too. -/
theorem ReadsInLines.split {source more : String} {ts : List Located}
    {forms : List Value}
    (h : ReadsInLines (source ++ "\n" ++ more) ts forms) :
    ∃ us q, Cuts 0 source.toList us ∧ advanceAll start us = .ok q ∧
      (q.frames = [] → ∃ ws rest, ReadsInLines more ws rest ∧
        forms = q.forms.reverse ++ rest) := by
  have hcuts := Token.scan_eq_ok_iff.1 h.scan
  have hstrings := h.strings
  have hparse := h.parse
  rw [toList_append_newline] at hcuts hstrings
  obtain ⟨us, vs, rfl, hus, hvs⟩ := Token.cuts_split hcuts hstrings
  have hrun := parse_eq_ok_iff.1 hparse
  rw [Reader.advanceAll_append] at hrun
  obtain ⟨q, hq, -⟩ := exists_of_bind_eq_ok hrun
  refine ⟨us, q, hus, hq, fun hframes => ?_⟩
  obtain ⟨ws, rfl, hws⟩ := hvs.unshift 0 (width source.toList + 1) (by omega)
  have hdone : Value.parse us = .ok q.forms.reverse := by
    rw [parse_of_advanceAll hq, hframes]
    rfl
  obtain ⟨rest, hrest, hforms⟩ := (parse_append hdone).1 hparse
  refine ⟨ws, rest, ⟨Token.scan_eq_ok_iff.2 hws, ?_, ?_⟩, hforms⟩
  · rw [parse_eq_ok_iff] at hrest ⊢
    exact Reader.advanceAll_congr (by simp [Token.Located.shift]) hrest
  · have hwidth : 0 + width (source.toList ++ ['\n']) =
        0 + (width source.toList + 1) := by
      rw [Text.width_append]
      rfl
    rw [← List.singleton_append, ← List.append_assoc] at hstrings
    have hbehind := hstrings.suffix _ fun t ht => List.mem_append_right us ht
    rw [hwidth] at hbehind
    exact hbehind.unshift

/-! ## What is handed out -/

theorem isUnfinished_of_advanceAll {source : String} {ts : List Located}
    {q : Progress} (h : Token.scan source = .ok ts)
    (hq : advanceAll start ts = .ok q) :
    isUnfinished source = !q.frames.isEmpty := by
  rw [isUnfinished, read_of_scan h, parse_of_advanceAll hq]
  cases q.frames with
  | nil => rfl
  | cons f frames => rfl

theorem ofText_of_advanceAll {source : String} {ts : List Located}
    {q : Progress} (h : Token.scan source = .ok ts)
    (hq : advanceAll start ts = .ok q) : Balance.ofText source = q.depth := by
  have hdepth := Reader.depth_advanceAll hq
  change q.depth + _ = 0 + _ at hdepth
  rw [Balance.ofText_eq h]
  omega

/-- Where the tokens so far are all in place, lines are handed out when
nothing is open. -/
theorem gather_of_advanceAll {pending line : String} {ts : List Located}
    {q : Progress} (h : Token.scan (pending ++ line ++ "\n") = .ok ts)
    (hq : advanceAll start ts = .ok q) :
    gather pending line =
      if q.frames.isEmpty = true then .ready (pending ++ line ++ "\n")
      else .waiting (pending ++ line ++ "\n") := by
  simp only [gather]
  rw [ofText_of_advanceAll h hq, isUnfinished_of_advanceAll h hq]
  cases hframes : q.frames with
  | nil =>
      have hdepth : q.depth = 0 := by rw [Progress.depth, hframes]; rfl
      rw [hdepth]
      rfl
  | cons f frames =>
      by_cases hdepth : q.depth = 0
      · rw [hdepth]
        rfl
      · rw [if_pos (by omega)]
        rfl

theorem receive_of_not_startsWithColon {pending line : String}
    (h : ¬ startsWithColon line) :
    receive pending line =
      if pending = "" ∧ Text.trimChars line.toList = [] then .skipped
      else .gathered (gather pending line) := by
  rw [receive]
  by_cases hp : pending = ""
  · rw [if_pos (by rw [hp]; rfl)]
    split
    · next ht => rw [if_pos ⟨hp, ht⟩]
    · next cs ht => exact absurd (by rw [startsWithColon, ht]; rfl) h
    · next hnil _ => rw [if_neg fun hboth => hnil hboth.2]
  · rw [if_neg (by simpa using hp), if_neg fun hboth => hp hboth.1]

/-- What a line of a program turns out to be, and what is then left of the
program. -/
theorem receive_cases {pending line more : String} {ts : List Located}
    {forms : List Value}
    (h : ReadsInLines (pending ++ line ++ "\n" ++ more) ts forms)
    (hc : ¬ startsWithColon line) :
    (receive pending line = .skipped ∧ pending = "" ∧
      ∃ ws, ReadsInLines more ws forms) ∨
    (receive pending line = .gathered (.ready (pending ++ line ++ "\n")) ∧
      ∃ part ws rest, Value.read (pending ++ line ++ "\n") = .ok part ∧
        ReadsInLines more ws rest ∧ forms = part ++ rest) ∨
    (receive pending line = .gathered (.waiting (pending ++ line ++ "\n")) ∧
      isUnfinished (pending ++ line ++ "\n") = true) := by
  obtain ⟨us, q, hus, hq, hrest⟩ := h.split
  rw [receive_of_not_startsWithColon hc]
  by_cases hskip : pending = "" ∧ Text.trimChars line.toList = []
  · refine .inl ⟨if_pos hskip, hskip.1, ?_⟩
    rw [hskip.1, String.empty_append] at hus
    obtain rfl := hus.eq_nil_of_isBlank (Text.isBlank_of_trimChars hskip.2)
    cases hq
    obtain ⟨ws, rest, hws, rfl⟩ := hrest rfl
    exact ⟨ws, hws⟩
  · have hscan : Token.scan (pending ++ line ++ "\n") = .ok us := by
      have hcuts := hus.append_newline Cuts.nil
      rw [List.append_nil] at hcuts
      rw [Token.scan_eq_ok_iff, String.toList_append]
      exact hcuts
    rw [if_neg hskip, gather_of_advanceAll hscan hq]
    cases hframes : q.frames with
    | nil =>
        obtain ⟨ws, rest, hws, hforms⟩ := hrest hframes
        refine .inr (.inl ⟨rfl, q.forms.reverse, ws, rest, ?_, hws, hforms⟩)
        rw [read_of_scan hscan, parse_of_advanceAll hq, hframes]
        rfl
    | cons f frames =>
        refine .inr (.inr ⟨rfl, ?_⟩)
        rw [isUnfinished_of_advanceAll hscan hq, hframes]
        rfl

theorem inputs_of_readsInLines {lines : List String} {pending : String}
    {ts : List Located} {forms : List Value}
    (h : ReadsInLines (pending ++ Text.unlines lines) ts forms)
    (hp : pending = "" ∨ isUnfinished pending = true)
    (hc : ∀ line ∈ lines, ¬ startsWithColon line) :
    ∃ ins parts, inputs pending lines = (ins, "") ∧
      List.Forall₂ (fun input part => Value.read input = .ok part) ins parts ∧
      parts.flatten = forms := by
  induction lines generalizing pending ts forms with
  | nil =>
      rw [Text.unlines, String.append_empty] at h
      rcases hp with rfl | hp
      · have hnone :=
          (Token.scan_eq_ok_iff.1 h.scan).eq_nil_of_isBlank (by simp)
        have hforms := h.parse
        rw [hnone] at hforms
        cases hforms
        exact ⟨[], [], rfl, .nil, rfl⟩
      · rw [isUnfinished, read_of_scan h.scan, h.parse] at hp
        cases hp
  | cons line rest ih =>
      have hcs : ∀ l ∈ rest, ¬ startsWithColon l :=
        fun l hl => hc l (List.mem_cons_of_mem _ hl)
      have hfresh : ∀ {ws forms'}, ReadsInLines (Text.unlines rest) ws forms' →
          ReadsInLines ("" ++ Text.unlines rest) ws forms' := by
        intro ws forms' hws
        rw [String.empty_append]
        exact hws
      have htext : pending ++ Text.unlines (line :: rest) =
          pending ++ line ++ "\n" ++ Text.unlines rest := by
        simp only [Text.unlines, String.append_assoc]
      rw [htext] at h
      rcases receive_cases h (hc line (by simp)) with
        ⟨hr, rfl, ws, hws⟩ | ⟨hr, part, ws, forms', hread, hws, rfl⟩ |
          ⟨hr, hopen⟩
      · rw [inputs, hr]
        exact ih (hfresh hws) (.inl rfl) hcs
      · obtain ⟨ins, parts, hins, hparts, rfl⟩ := ih (hfresh hws) (.inl rfl) hcs
        refine ⟨(pending ++ line ++ "\n") :: ins, part :: parts, ?_,
          .cons hread hparts, rfl⟩
        rw [inputs, hr]
        simp only [hins]
      · rw [inputs, hr]
        exact ih h (.inr hopen) hcs

/-! ## The conversation -/

namespace Conversation

/-- Adds the report on a failure, if there is one. -/
def note (c : Conversation) : Option Failure → Conversation
  | some failure => c.complain (failure.report sourceName)
  | none => c

/-- Works through an input that has been handed out. -/
def answer (fuel : Nat) (e : ScopeId) (c : Conversation) (input : String) :
    Eval Conversation := do
  let failure ← showInput fuel e input
  return c.note failure

theorem note_pending (c : Conversation) (pending : String)
    (failure : Option Failure) :
    ({ c with pending } : Conversation).note failure =
      { c.note failure with pending } := by
  cases failure with
  | none => rfl
  | some failure => rfl

theorem note_ended (c : Conversation) (failure : Option Failure) :
    (c.note failure).ended = c.ended := by
  cases failure with
  | none => rfl
  | some failure => rfl

/-- What is pending makes no difference to the inputs that are worked
through. -/
theorem foldlM_answer_pending {fuel : Nat} {e : ScopeId} {pending : String}
    {k : Conversation → Eval Conversation}
    (hk : ∀ d, k { d with pending } = k d) (ins : List String)
    (c : Conversation) :
    ins.foldlM (answer fuel e) { c with pending } >>= k =
      ins.foldlM (answer fuel e) c >>= k := by
  induction ins generalizing c with
  | nil =>
      rw [List.foldlM_nil, List.foldlM_nil, pure_bind, pure_bind, hk]
  | cons input ins ih =>
      rw [List.foldlM_cons, List.foldlM_cons, answer, answer]
      simp only [bind_assoc, pure_bind, note_pending, ih]

theorem hear_waiting {fuel : Nat} {e : ScopeId} {c : Conversation}
    {line text : String}
    (h : receive c.pending line = .gathered (.waiting text)) :
    hear fuel e c line = pure { c with pending := text } := by
  rw [hear, h]

theorem hear_ready {fuel : Nat} {e : ScopeId} {c : Conversation}
    {line input : String}
    (h : receive c.pending line = .gathered (.ready input)) :
    hear fuel e c line = answer fuel e { c with pending := "" } input := by
  rw [hear, h]
  refine bind_congr fun failure => ?_
  cases failure with
  | none => rfl
  | some failure => rfl

/-- A conversation without commands works through the inputs that are handed
out, and then it is over. -/
theorem hearAll_eq {lines : List String}
    (hc : ∀ line ∈ lines, ¬ startsWithColon line) (fuel : Nat) (e : ScopeId)
    (c : Conversation) (hended : c.ended = false) :
    hearAll fuel e c (lines.map some) = do
      let d ← (inputs c.pending lines).1.foldlM (answer fuel e) c
      Eval.print farewell
      return { d with
        pending := (inputs c.pending lines).2, ended := true } := by
  induction lines generalizing c with
  | nil => rfl
  | cons line rest ih =>
      have hcs : ∀ l ∈ rest, ¬ startsWithColon l :=
        fun l hl => hc l (List.mem_cons_of_mem _ hl)
      have hgo : ¬ c.ended = true := by rw [hended]; simp
      rw [List.map_cons, hearAll, inputs]
      cases hr : receive c.pending line with
      | skipped =>
          have hhear : hear fuel e c line = pure c := by rw [hear, hr]
          rw [hhear, pure_bind, if_neg hgo]
          exact ih hcs c hended
      | command command =>
          rw [receive_of_not_startsWithColon (hc line (by simp))] at hr
          split at hr <;> cases hr
      | gathered g =>
          cases g with
          | waiting text =>
              rw [hear_waiting hr, pure_bind, if_neg hgo,
                ih hcs { c with pending := text } hended]
              exact foldlM_answer_pending (fun d => rfl) _ c
          | ready input =>
              rw [hear_ready hr]
              simp only [List.foldlM_cons, answer, bind_assoc, pure_bind]
              refine bind_congr fun failure => ?_
              have hended' :=
                (note_ended { c with pending := "" } failure).trans hended
              rw [if_neg (by rw [hended']; simp), ih hcs _ hended',
                note_pending]
              exact foldlM_answer_pending (fun d => rfl) _ (c.note failure)

end Conversation

/-- Whatever lines a program is broken into, provided that no line starts
with a colon and no string runs over the end of a line, the inputs that the
lines make up are read one by one as what the program is read as in one
piece. Nothing is left pending in the end, and a conversation works through
these inputs. -/
theorem lines_make_up_program {lines : List String} {ts : List Located}
    {forms : List Value}
    (hscan : Token.scan (Text.unlines lines) = .ok ts)
    (hread : Value.read (Text.unlines lines) = .ok forms)
    (hstrings : StringsOnOneLine 0 (Text.unlines lines).toList ts)
    (hcolon : ∀ line ∈ lines, ¬ startsWithColon line) :
    ∃ ins parts, inputs "" lines = (ins, "") ∧
      List.Forall₂ (fun input part => Value.read input = .ok part) ins parts ∧
      parts.flatten = forms ∧
      ∀ fuel e, Conversation.hearAll fuel e .start (lines.map some) = do
        let c ← ins.foldlM (Conversation.answer fuel e) .start
        Eval.print Conversation.farewell
        return { c with pending := "", ended := true } := by
  rw [read_of_scan hscan] at hread
  have hall : ReadsInLines ("" ++ Text.unlines lines) ts forms := by
    rw [String.empty_append]
    exact ⟨hscan, hread, hstrings⟩
  obtain ⟨ins, parts, hins, hparts, hforms⟩ :=
    inputs_of_readsInLines hall (.inl rfl) hcolon
  refine ⟨ins, parts, hins, hparts, hforms, fun fuel e => ?_⟩
  have hloop := Conversation.hearAll_eq hcolon fuel e .start rfl
  have hstart : Conversation.start.pending = "" := rfl
  rw [hstart, hins] at hloop
  exact hloop

/-- Two forms over six lines: a quote mark at the end of a line, a blank line
and a comment in the middle of a form, a blank line between forms. -/
def brokenLines : List String :=
  ["'", "", "(a ; (", "  \"\\n)\")", " ", "b"]

/-- The tokens of `brokenLines`. -/
def brokenTokens : List Located :=
  [⟨.mark .quote, ⟨0, 1⟩⟩, ⟨.opening, ⟨3, 4⟩⟩, ⟨.symbol "a", ⟨4, 5⟩⟩,
    ⟨.str "\n)", ⟨12, 17⟩⟩, ⟨.closing, ⟨17, 18⟩⟩, ⟨.symbol "b", ⟨21, 22⟩⟩]

/-- The forms of `brokenLines`. -/
def brokenForms : List Value :=
  [.list [.symbol "quote", .list [.symbol "a", .str "\n)"]], .symbol "b"]

theorem brokenLines_make_up :
    Token.scan (Text.unlines brokenLines) = .ok brokenTokens ∧
    Value.read (Text.unlines brokenLines) = .ok brokenForms ∧
    ∃ ins parts, inputs "" brokenLines = (ins, "") ∧
      List.Forall₂ (fun input part => Value.read input = .ok part) ins parts ∧
      parts.flatten = brokenForms := by
  have hscan : Token.scan (Text.unlines brokenLines) = .ok brokenTokens := by
    cbv
  have hread : Value.read (Text.unlines brokenLines) = .ok brokenForms := by
    cbv
  have hstrings :
      StringsOnOneLine 0 (Text.unlines brokenLines).toList brokenTokens := by
    intro t ht s hs
    simp only [brokenTokens, List.mem_cons, List.not_mem_nil, or_false] at ht
    rcases ht with rfl | rfl | rfl | rfl | rfl | rfl <;> cases hs
    decide +kernel
  have hcolon : ∀ line ∈ brokenLines, ¬ startsWithColon line := by
    intro line hline
    simp only [brokenLines, List.mem_cons, List.not_mem_nil, or_false] at hline
    unfold startsWithColon
    rcases hline with rfl | rfl | rfl | rfl | rfl | rfl <;> decide +kernel
  obtain ⟨ins, parts, hins, hparts, hforms, -⟩ :=
    lines_make_up_program hscan hread hstrings hcolon
  exact ⟨hscan, hread, ins, parts, hins, hparts, hforms⟩

end SmallLisp
