import SmallLisp.Proofs.Lexing

/-!
# Cutting a text, said without the loop

`Cuts` says which tokens a whole text is cut into, with their places:
layout and comments are passed over, a lexeme is recorded. A scan succeeds
exactly where `Cuts` holds (`scanFrom_eq_ok_iff`), so whatever is proved by
induction over `Cuts` is a fact about every text that has tokens.

The end of a line is where cutting comes apart. Whether a slice is a token
depends on the next character only, and a newline there is as good as the
end of the text (`IsLexeme.of_head`). So a text with tokens can be put in
front of a newline and anything else without changing its own tokens
(`Cuts.scanFrom_append_newline`). The converse needs care with strings, the
only tokens that can run over a newline: where none does, a text that is
cut as a whole is cut line by line (`cuts_split`).
-/

namespace SmallLisp

namespace Text

theorem stops_append {p : Char → Bool} {cs ds : List Char} (hc : Stops p cs)
    (hd : Stops p ds) : Stops p (cs ++ ds) := by
  cases cs with
  | nil => exact hd
  | cons c cs => exact hc

/-- Two ways to take a text apart, one of them at a newline: what lies in
front and holds no newline lies in front of that newline. -/
theorem split_before_newline {front rest cs ds : List Char}
    (hf : '\n' ∉ front) (h : front ++ rest = cs ++ '\n' :: ds) :
    ∃ cs', cs = front ++ cs' ∧ rest = cs' ++ '\n' :: ds := by
  rcases List.append_eq_append_iff.1 h with ⟨cs', hcs, hrest⟩ | ⟨b, hb, hds⟩
  · exact ⟨cs', hcs, hrest⟩
  · cases b with
    | nil => exact ⟨[], by simpa using hb.symm, by simpa using hds.symm⟩
    | cons d b =>
        obtain ⟨rfl, -⟩ := List.cons.inj hds
        exact absurd (by rw [hb]; simp) hf

/-- The characters that a span covers in a text that starts at offset
`pos`. -/
def Span.covered (s : Span) (pos : Nat) : List Char → List Char
  | [] => []
  | c :: cs =>
    if s.start ≤ pos ∧ pos < s.stop then
      c :: s.covered (pos + c.utf8Size) cs
    else s.covered (pos + c.utf8Size) cs

theorem Span.covered_append (s : Span) (pos : Nat) (cs ds : List Char) :
    s.covered pos (cs ++ ds) =
      s.covered pos cs ++ s.covered (pos + width cs) ds := by
  induction cs generalizing pos with
  | nil => rfl
  | cons c cs ih =>
      rw [List.cons_append, covered, covered, ih, width_cons, ← Nat.add_assoc]
      split
      · rfl
      · rfl

theorem Span.covered_shift (s : Span) (k pos : Nat) (cs : List Char) :
    (s.shift k).covered (pos + k) cs = s.covered pos cs := by
  induction cs generalizing pos with
  | nil => rfl
  | cons c cs ih =>
      have hpos : pos + k + c.utf8Size = pos + c.utf8Size + k := by omega
      have hin : (s.shift k).start ≤ pos + k ∧ pos + k < (s.shift k).stop ↔
          s.start ≤ pos ∧ pos < s.stop := by
        show s.start + k ≤ pos + k ∧ pos + k < s.stop + k ↔ _
        omega
      rw [covered, covered, hpos, ih]
      simp only [hin]

/-- A span that ends where a text does covers the text from its start
on. -/
theorem Span.covered_self {start pos : Nat} (cs : List Char)
    (h : start ≤ pos) :
    Span.covered ⟨start, pos + width cs⟩ pos cs = cs := by
  induction cs generalizing pos with
  | nil => rfl
  | cons c cs ih =>
      have hsize := c.utf8Size_pos
      rw [width_cons, ← Nat.add_assoc, covered, ih (by omega), if_pos]
      show start ≤ pos ∧ pos < pos + c.utf8Size + width cs
      omega

end Text

namespace Token

open Text (Stops stops_nil stops_cons stops_dropWhile takeWhile_append_stops
  dropWhile_append_stops isLayout width)

/-! ## In front of a newline -/

/-- A newline, and the end of the text, are as good as anything that may
stand behind a token. -/
theorem IsLexeme.of_head {t : Token} {slice rest rest' : List Char}
    (h : IsLexeme t slice rest)
    (hr : ∀ c, rest'.head? = some c → rest.head? = some c ∨ c = '\n') :
    IsLexeme t slice rest' := by
  cases h with
  | single h => exact .single h
  | splice => exact .splice
  | unquote h =>
      refine .unquote fun hhead => ?_
      rcases hr _ hhead with hsame | hnl
      · exact h hsame
      · cases hnl
  | string h => exact .string h
  | word h hs hb =>
      refine .word h (fun c hc => ?_) ?_
      · rcases hr c hc with hsame | rfl
        · exact hs c hsame
        · decide
      · rw [isBrokenNumber, Bool.and_eq_false_iff] at hb ⊢
        refine hb.imp_right fun hb => ?_
        cases hhead : rest'.head? with
        | none => rfl
        | some c =>
            rcases hr c hhead with hsame | rfl
            · rw [hsame] at hb
              exact hb
            · decide

theorem IsLexeme.append {t : Token} {slice rest more : List Char}
    (h : IsLexeme t slice rest) (hm : Stops (· ≠ '\n') more) :
    IsLexeme t slice (rest ++ more) := by
  refine h.of_head fun c hc => ?_
  cases rest with
  | nil => exact .inr (by simpa using hm c hc)
  | cons d rest => exact .inl hc

theorem IsLexeme.of_append {t : Token} {slice rest more : List Char}
    (h : IsLexeme t slice (rest ++ more)) : IsLexeme t slice rest := by
  refine h.of_head fun c hc => ?_
  cases rest with
  | nil => cases hc
  | cons d rest => exact .inl hc

/-- Only a string can run over a newline. -/
theorem IsLexeme.newline_not_mem {t : Token} {slice rest : List Char}
    (h : IsLexeme t slice rest)
    (hs : ∀ s, t = .str s → '\n' ∉ slice) : '\n' ∉ slice := by
  cases h with
  | @single c _ _ h =>
      intro hc
      rw [← List.mem_singleton.1 hc] at h
      cases h
  | splice => decide
  | unquote => decide
  | string h => exact hs _ rfl
  | word h => exact fun hc => absurd (h.chars _ hc) (by decide)

/-! ## A whole text -/

/-- The tokens that a text is cut into which starts at offset `pos`. -/
inductive Cuts : Nat → List Char → List Located → Prop where
  | nil {pos : Nat} : Cuts pos [] []
  | layout {pos : Nat} {c : Char} {cs : List Char} {ts : List Located}
      (hl : isLayout c = true) (h : Cuts (pos + c.utf8Size) cs ts) :
      Cuts pos (c :: cs) ts
  | comment {pos : Nat} {cs rest : List Char} {ts : List Located}
      (hc : '\n' ∉ cs) (hr : Stops (· ≠ '\n') rest)
      (h : Cuts (pos + width (';' :: cs)) rest ts) :
      Cuts pos (';' :: cs ++ rest) ts
  | token {pos : Nat} {t : Token} {slice rest : List Char}
      {ts : List Located} (ht : IsLexeme t slice rest)
      (h : Cuts (pos + width slice) rest ts) :
      Cuts pos (slice ++ rest) (⟨t, ⟨pos, pos + width slice⟩⟩ :: ts)

theorem scanFrom_comment {found : List Located} {pos : Nat}
    {cs rest : List Char} (hc : '\n' ∉ cs) (hr : Stops (· ≠ '\n') rest) :
    scanFrom found pos (';' :: cs ++ rest) =
      scanFrom found (pos + width (';' :: cs)) rest := by
  have hp : ∀ c ∈ cs, (decide (c ≠ '\n')) = true := by
    intro c hm
    rw [decide_eq_true_eq]
    rintro rfl
    exact hc hm
  rw [List.cons_append, scanFrom, if_neg (by decide), if_pos rfl,
    takeWhile_append_stops hp hr, dropWhile_append_stops hp hr]

/-- A text that is cut is scanned token by token, in front of nothing or of
a newline. -/
theorem Cuts.scanFrom_append {pos : Nat} {cs : List Char} {ts : List Located}
    (h : Cuts pos cs ts) {more : List Char} (hm : Stops (· ≠ '\n') more)
    (found : List Located) :
    scanFrom found pos (cs ++ more) =
      scanFrom (ts.reverse ++ found) (pos + width cs) more := by
  induction h generalizing found with
  | nil => rfl
  | layout hl h ih =>
      rw [List.cons_append, scanFrom_layout hl, ih, Text.width_cons,
        Nat.add_assoc]
  | comment hc hr h ih =>
      rw [List.append_assoc, scanFrom_comment hc (Text.stops_append hr hm), ih,
        Text.width_append, Nat.add_assoc]
  | token ht h ih =>
      rw [List.append_assoc, scanFrom_lexeme (ht.append hm), ih,
        Text.width_append, Nat.add_assoc, List.reverse_cons, List.append_assoc]
      rfl

theorem cuts_of_scanFrom {found ts : List Located} {pos : Nat}
    {cs : List Char} (h : scanFrom found pos cs = .ok ts) :
    ∃ us, ts = found.reverse ++ us ∧ Cuts pos cs us := by
  fun_induction scanFrom found pos cs with
  | case1 found pos =>
      cases h
      exact ⟨[], by simp, .nil⟩
  | case2 found pos c cs hl ih =>
      obtain ⟨us, hts, hcuts⟩ := ih h
      exact ⟨us, hts, .layout hl hcuts⟩
  | case3 found pos cs hl ih =>
      obtain ⟨us, hts, hcuts⟩ := ih h
      refine ⟨us, hts, ?_⟩
      have hline := List.takeWhile_append_dropWhile (p := (· ≠ '\n')) (l := cs)
      rw [← hline, ← List.cons_append]
      refine .comment (fun hm => ?_) (stops_dropWhile _ _) ?_
      · have := List.mem_takeWhile_imp hm
        simp at this
      · exact hcuts
  | case4 found pos c cs hl hs t slice rest hlex span ih =>
      obtain ⟨us, hts, hcuts⟩ := ih h
      refine ⟨⟨t, span⟩ :: us, by simpa using hts, ?_⟩
      rw [← (append_of_lexeme hlex).1]
      exact .token (isLexeme_of_lexeme hlex) hcuts
  | case5 found pos c cs hl hs slice hlex => cases h

theorem scanFrom_eq_ok_iff {found ts : List Located} {pos : Nat}
    {cs : List Char} :
    scanFrom found pos cs = .ok ts ↔
      ∃ us, ts = found.reverse ++ us ∧ Cuts pos cs us := by
  refine ⟨cuts_of_scanFrom, ?_⟩
  rintro ⟨us, rfl, hcuts⟩
  have hscan := hcuts.scanFrom_append stops_nil found
  rw [List.append_nil] at hscan
  rw [hscan, scanFrom]
  simp

theorem scan_eq_ok_iff {source : String} {ts : List Located} :
    scan source = .ok ts ↔ Cuts 0 source.toList ts := by
  rw [scan, scanFrom_eq_ok_iff]
  simp

/-- Behind a newline the scan goes on as if it had just started. -/
theorem Cuts.scanFrom_append_newline {pos : Nat} {cs : List Char}
    {ts : List Located} (h : Cuts pos cs ts) (found : List Located)
    (ds : List Char) :
    scanFrom found pos (cs ++ '\n' :: ds) =
      scanFrom (ts.reverse ++ found) (pos + width cs + 1) ds := by
  rw [h.scanFrom_append (stops_cons (by decide)) found,
    scanFrom_layout (by decide)]
  rfl

theorem Cuts.append_newline {pos : Nat} {cs ds : List Char}
    {ts us : List Located} (h : Cuts pos cs ts)
    (h' : Cuts (pos + width cs + 1) ds us) :
    Cuts pos (cs ++ '\n' :: ds) (ts ++ us) := by
  obtain ⟨ws, hws, hcuts⟩ := cuts_of_scanFrom
    ((h.scanFrom_append_newline [] ds).trans
      (scanFrom_eq_ok_iff.2 ⟨us, rfl, h'⟩))
  simp only [List.append_nil, List.reverse_reverse, List.reverse_nil,
    List.nil_append] at hws
  rw [hws]
  exact hcuts

/-! ## Line by line -/

/-- The strings among these tokens, cut from a text that starts at offset
`pos`, hold no newline. -/
def StringsOnOneLine (pos : Nat) (cs : List Char) (ts : List Located) :
    Prop :=
  ∀ t ∈ ts, ∀ s, t.token = .str s → '\n' ∉ t.span.covered pos cs

theorem StringsOnOneLine.suffix {pos : Nat} {ds : List Char}
    {ts us : List Located} (cs : List Char)
    (h : StringsOnOneLine pos (cs ++ ds) ts) (hu : ∀ t ∈ us, t ∈ ts) :
    StringsOnOneLine (pos + width cs) ds us := by
  intro t ht s hs hm
  have hnot := h t (hu t ht) s hs
  rw [Text.Span.covered_append] at hnot
  exact hnot (List.mem_append_right _ hm)

theorem cuts_split {pos : Nat} {cs ds : List Char} {ts : List Located}
    (h : Cuts pos (cs ++ '\n' :: ds) ts)
    (hs : StringsOnOneLine pos (cs ++ '\n' :: ds) ts) :
    ∃ us vs, ts = us ++ vs ∧ Cuts pos cs us ∧
      Cuts (pos + width cs + 1) ds vs := by
  generalize hall : cs ++ '\n' :: ds = all at h hs
  induction h generalizing cs with
  | nil => simp at hall
  | @layout pos c rest ts hl h ih =>
      cases cs with
      | nil =>
          obtain ⟨rfl, rfl⟩ := List.cons.inj hall
          exact ⟨[], ts, rfl, .nil, h⟩
      | cons d cs =>
          obtain ⟨rfl, rfl⟩ := List.cons.inj hall
          obtain ⟨us, vs, hts, hus, hvs⟩ :=
            ih rfl (hs.suffix [d] fun t ht => ht)
          refine ⟨us, vs, hts, .layout hl hus, ?_⟩
          rw [Text.width_cons, ← Nat.add_assoc]
          exact hvs
  | @comment pos note rest ts hc hr h ih =>
      obtain ⟨cs', rfl, hrest⟩ := Text.split_before_newline
        (by simpa using hc) hall.symm
      obtain ⟨us, vs, hts, hus, hvs⟩ :=
        ih hrest.symm (hs.suffix _ fun t ht => ht)
      refine ⟨us, vs, hts, .comment hc (fun c hcs => ?_) hus, ?_⟩
      · refine hr c ?_
        rw [hrest]
        cases cs' with
        | nil => cases hcs
        | cons d cs' => exact hcs
      · rw [Text.width_append, ← Nat.add_assoc]
        exact hvs
  | @token pos t slice rest ts ht h ih =>
      have hnot : '\n' ∉ slice := by
        refine ht.newline_not_mem fun s hts => ?_
        have hcov := hs _ List.mem_cons_self s hts
        rw [Text.Span.covered_append,
          Text.Span.covered_self _ (Nat.le_refl pos)] at hcov
        exact fun hm => hcov (List.mem_append_left _ hm)
      obtain ⟨cs', rfl, hrest⟩ := Text.split_before_newline hnot hall.symm
      obtain ⟨us, vs, hts, hus, hvs⟩ :=
        ih hrest.symm (hs.suffix _ fun t ht => List.mem_cons_of_mem _ ht)
      refine ⟨_ :: us, vs, by rw [hts]; rfl, .token ?_ hus, ?_⟩
      · rw [hrest] at ht
        exact ht.of_append
      · rw [Text.width_append, ← Nat.add_assoc]
        exact hvs

/-- The same token, seen from a text that has `k` more bytes in front. -/
def Located.shift (k : Nat) (t : Located) : Located :=
  ⟨t.token, t.span.shift k⟩

/-- Where a text starts moves its tokens and does nothing else. -/
theorem Cuts.unshift {start : Nat} {cs : List Char} {ts : List Located}
    (h : Cuts start cs ts) (pos k : Nat) (hstart : start = pos + k) :
    ∃ us, ts = us.map (Located.shift k) ∧ Cuts pos cs us := by
  induction h generalizing pos with
  | nil => exact ⟨[], rfl, .nil⟩
  | layout hl h ih =>
      obtain ⟨us, hts, hus⟩ := ih _ (by rw [hstart, Nat.add_right_comm])
      exact ⟨us, hts, .layout hl hus⟩
  | comment hc hr h ih =>
      obtain ⟨us, hts, hus⟩ := ih _ (by rw [hstart, Nat.add_right_comm])
      exact ⟨us, hts, .comment hc hr hus⟩
  | @token start t slice rest ts ht h ih =>
      obtain ⟨us, hts, hus⟩ := ih _ (by rw [hstart, Nat.add_right_comm])
      refine ⟨⟨t, ⟨pos, pos + width slice⟩⟩ :: us, ?_, .token ht hus⟩
      rw [hts, List.map_cons, hstart, Nat.add_right_comm]
      rfl

theorem StringsOnOneLine.unshift {pos k : Nat} {cs : List Char}
    {ts : List Located}
    (h : StringsOnOneLine (pos + k) cs (ts.map (Located.shift k))) :
    StringsOnOneLine pos cs ts := by
  intro t ht s hs
  have hnot := h (t.shift k) (List.mem_map_of_mem ht) s hs
  change '\n' ∉ (t.span.shift k).covered (pos + k) cs at hnot
  rw [Text.Span.covered_shift] at hnot
  exact hnot

end Token

end SmallLisp
