import SmallLisp.Proofs.Cutting
import SmallLisp.Proofs.Grammar

/-!
# Unfinished texts

A text that has tokens and cannot be read is reported as unfinished, or as
wrong. The report is right both times: an unfinished text is one that more
text behind a newline can mend, and a wrong one is beyond mending.

An unfinished text is mended by a datum, in case a quote mark waits for
one, and by as many closing parentheses as there are open lists
(`mending`). The datum does no harm where nothing waits for it: it becomes
an element of the innermost list. That the tokens of the two texts can be
put together is the work of the newline. That nothing mends a wrong text
follows from reading being a fold: a token that is out of place stays so,
whatever comes behind it.
-/

namespace SmallLisp

open Token (Located Cuts IsLexeme scanFrom)
open Reader (Progress advanceAll start stopOf)
open Text (Stops stops_nil stops_cons width)

/-- Text that fills what waits for a datum and closes `n` lists. -/
def mending (n : Nat) : List Char :=
  "nil".toList ++ List.replicate n ')'

theorem exists_cuts_closings (n pos : Nat) :
    ∃ us, Cuts pos (List.replicate n ')') us ∧
      us.map (·.token) = List.replicate n .closing := by
  induction n generalizing pos with
  | zero => exact ⟨[], .nil, rfl⟩
  | succ n ih =>
      obtain ⟨us, hus, htokens⟩ := ih (pos + width [')'])
      have hlex : IsLexeme .closing [')'] (List.replicate n ')') := .single rfl
      refine ⟨_, .token hlex hus, ?_⟩
      rw [List.map_cons, htokens]
      rfl

theorem exists_cuts_mending (n pos : Nat) :
    ∃ us, Cuts pos (mending n) us ∧
      us.map (·.token) = .nil :: List.replicate n .closing := by
  obtain ⟨us, hus, htokens⟩ := exists_cuts_closings n (pos + width "nil".toList)
  have hstops : Stops Token.isWordChar (List.replicate n ')') := by
    cases n with
    | zero => exact stops_nil
    | succ n => exact stops_cons (by decide)
  have hlex : IsLexeme .nil "nil".toList (List.replicate n ')') :=
    .word Token.isWord_nil hstops rfl
  refine ⟨_, .token hlex hus, ?_⟩
  rw [List.map_cons, htokens]

theorem toList_append_newline (source more : String) :
    (source ++ "\n" ++ more).toList = source.toList ++ '\n' :: more.toList := by
  simp

/-- Behind a newline the tokens of a text come behind those before it. -/
theorem scan_append_newline {source more : String} {ts ws : List Located}
    (h : Token.scan source = .ok ts)
    (hw : Token.scan (source ++ "\n" ++ more) = .ok ws) :
    ∃ us, ws = ts ++ us := by
  rw [Token.scan, toList_append_newline,
    (Token.scan_eq_ok_iff.1 h).scanFrom_append_newline] at hw
  obtain ⟨us, hws, -⟩ := Token.cuts_of_scanFrom hw
  exact ⟨us, by simpa using hws⟩

theorem exists_mending {source : String} {ts : List Located} {q : Progress}
    (h : Token.scan source = .ok ts) (hq : advanceAll start ts = .ok q) :
    ∃ more vs, Value.read (source ++ "\n" ++ more) = .ok vs := by
  obtain ⟨n, ds, hds⟩ := (makesUp_start hq).complete (.atom .nil)
  obtain ⟨us, hus, htokens⟩ :=
    exists_cuts_mending n (0 + width source.toList + 1)
  have hscan : Token.scan (source ++ "\n" ++ String.ofList (mending n)) =
      .ok (ts ++ us) := by
    rw [Token.scan_eq_ok_iff, toList_append_newline, String.toList_ofList]
    exact (Token.scan_eq_ok_iff.1 h).append_newline hus
  have hderived : Datum.tokensAll ds = (ts ++ us).map (·.token) := by
    rw [hds, List.map_append, htokens]
    rfl
  refine ⟨String.ofList (mending n), Datum.values ds, ?_⟩
  rw [read_of_scan hscan]
  exact parse_of_derivation ⟨ds, hderived⟩

theorem advanceAll_of_mended {source more : String} {ts : List Located}
    {vs : List Value} (h : Token.scan source = .ok ts)
    (hm : Value.read (source ++ "\n" ++ more) = .ok vs) :
    ∃ q, advanceAll start ts = .ok q := by
  obtain ⟨ws, hw, hparse⟩ := exists_of_bind_eq_ok hm
  obtain ⟨us, rfl⟩ := scan_append_newline h hw
  rw [parse_eq_ok_iff, Reader.advanceAll_append] at hparse
  obtain ⟨q, hq, -⟩ := exists_of_bind_eq_ok hparse
  exact ⟨q, hq⟩

/-- An error is reported as incomplete when the tokens are in place and
leave something open. -/
theorem isIncomplete_iff {ts : List Located} {e : ReadError}
    (h : Value.parse ts = .error e) :
    e.isIncomplete = true ↔ ∃ q, advanceAll start ts = .ok q := by
  rcases parse_eq_error_iff.1 h with herr | ⟨q, hq, -, rfl⟩
  · obtain ⟨us, t, vs, q, -, -, ht⟩ := Reader.advanceAll_eq_error herr
    obtain ⟨-, rfl⟩ := Reader.advance_eq_error ht
    simp [ReadError.isIncomplete, herr]
  · simp [ReadError.isIncomplete, hq]

theorem span_of_isIncomplete {ts : List Located} {e : ReadError}
    (h : Value.parse ts = .error e) (he : e.isIncomplete = true) :
    ∃ t, ts.getLast? = some t ∧ e.span = .point t.span.stop := by
  rcases parse_eq_error_iff.1 h with herr | ⟨q, hq, hopen, rfl⟩
  · obtain ⟨q, hq⟩ := (isIncomplete_iff h).1 he
    rw [herr] at hq
    cases hq
  · rcases List.eq_nil_or_concat ts with rfl | ⟨us, t, rfl⟩
    · cases hq
      exact absurd rfl hopen
    · refine ⟨t, by simp, ?_⟩
      rw [ReadError.span, List.concat_eq_append, Reader.stopOf_append]

theorem not_isIncomplete_of_scanFrom {found : List Located} {pos : Nat}
    {cs : List Char} {e : ReadError} (h : scanFrom found pos cs = .error e) :
    e.isIncomplete = false := by
  fun_induction scanFrom found pos cs with
  | case1 => cases h
  | case2 found pos c cs hl ih => exact ih h
  | case3 found pos cs hl ih => exact ih h
  | case4 found pos c cs hl hs t slice rest hlex span ih => exact ih h
  | case5 found pos c cs hl hs slice hlex =>
      cases h
      rfl

/-- A text with tokens is reported as incomplete exactly when it cannot be
read and can be with more text behind a newline; the report is about the
end of its last token. A text without tokens is not reported so. -/
theorem incomplete_iff_mendable (source : String) :
    (∀ ts, Token.scan source = .ok ts →
      ((∃ e, Value.read source = .error e ∧ e.isIncomplete = true) ↔
        (∃ e, Value.read source = .error e) ∧
          ∃ more vs, Value.read (source ++ "\n" ++ more) = .ok vs) ∧
      ∀ e, Value.read source = .error e → e.isIncomplete = true →
        ∃ t, ts.getLast? = some t ∧ e.span = .point t.span.stop) ∧
    (∀ e, Token.scan source = .error e →
      Value.read source = .error e ∧ e.isIncomplete = false) := by
  refine ⟨fun ts hts => ?_, fun e he => ⟨?_, not_isIncomplete_of_scanFrom he⟩⟩
  · rw [read_of_scan hts]
    refine ⟨⟨?_, ?_⟩, fun e => span_of_isIncomplete⟩
    · rintro ⟨e, he, hinc⟩
      obtain ⟨q, hq⟩ := (isIncomplete_iff he).1 hinc
      exact ⟨⟨e, he⟩, exists_mending hts hq⟩
    · rintro ⟨⟨e, he⟩, more, vs, hmore⟩
      exact ⟨e, he, (isIncomplete_iff he).2 (advanceAll_of_mended hts hmore)⟩
  · rw [Value.read, he]
    rfl

/-- A list with a quote mark at its end, behind which only a comment
follows. -/
def dangling : String :=
  "(a ,@ ; )"

theorem dangling_mendable :
    (∃ ts, Token.scan dangling = .ok ts) ∧
    (∃ more vs, Value.read (dangling ++ "\n" ++ more) = .ok vs) ∧
    (∃ e, Value.read dangling = .error e ∧ e.span = .point 5) ∧
    Value.read "(\"" = .error (.badSlice "\"" ⟨1, 2⟩) := by
  have hscan : Token.scan dangling = .ok [⟨.opening, ⟨0, 1⟩⟩,
    ⟨.symbol "a", ⟨1, 2⟩⟩, ⟨.mark .splice, ⟨3, 5⟩⟩] := by cbv
  have hread : Value.read dangling = .error (.unfinished 5) := by cbv
  have hbad : Token.scan "(\"" = .error (.badSlice "\"" ⟨1, 2⟩) := by cbv
  obtain ⟨hmend, hspan⟩ := (incomplete_iff_mendable dangling).1 _ hscan
  obtain ⟨t, ht, hpoint⟩ := hspan _ hread rfl
  cases ht
  exact ⟨⟨_, hscan⟩, (hmend.1 ⟨_, hread, rfl⟩).2, ⟨_, hread, hpoint⟩,
    ((incomplete_iff_mendable "(\"").2 _ hbad).1⟩

end SmallLisp
