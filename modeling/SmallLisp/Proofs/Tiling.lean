import SmallLisp.Proofs.Cutting

/-!
# Tokens tile the source

Every byte of a text is accounted for once. The tokens stand at increasing
places, each on whole characters, and what is left between them is layout
and comments. Each token would be found in its slice if there were nothing
else, and a word ends only where no word could go on. `Tiles` says all this.

A text that has no tokens is tiled up to the slice that the error names.
There are three things that such a slice can be by the rules of the
language (`IsMisfit`): a whole number too big for 64 bits, a string that
does not end, a blank that is no layout. And there is a fourth that the
rules do not foresee. A number that breaks off after its exponent mark is
a symbol, but in front of a blank outside ASCII it is taken for a mistake
(`isBrokenNumber`), although there it could stand as a symbol as well as
anywhere else.
-/

namespace SmallLisp

open Text (Stops stops_dropWhile isBlank isLayout width)

namespace Text

/-- In a text that starts at offset `pos` the span takes in whole
characters, those of `inner`; `front` stands before them and `back` behind
them. -/
structure Span.Divides (s : Span) (pos : Nat)
    (cs front inner back : List Char) : Prop where
  text : cs = front ++ (inner ++ back)
  start : s.start = pos + width front
  stop : s.stop = s.start + width inner

theorem Span.Divides.behind {s : Span} {pos : Nat}
    {cs front inner back : List Char} (lead : List Char)
    (h : s.Divides (pos + width lead) cs front inner back) :
    s.Divides pos (lead ++ cs) (lead ++ front) inner back where
  text := by rw [h.text, List.append_assoc]
  start := by rw [h.start, width_append, Nat.add_assoc]
  stop := h.stop

theorem width_pos {cs : List Char} (h : cs ≠ []) : 0 < width cs :=
  Nat.pos_of_ne_zero (mt Token.eq_nil_of_width_eq_zero h)

end Text

theorem Integer.exists_read?_signed {digits : List Char} (negative : Bool)
    (h : isNumeral digits = true) :
    ∃ n, read? ((if negative = true then ['-'] else []) ++ digits) =
      some n := by
  have hsign : splitSign ((if negative = true then ['-'] else []) ++ digits) =
      (negative, digits) := by
    cases negative with
    | true => rfl
    | false =>
        obtain ⟨hne, hdigits⟩ := isNumeral_iff.1 h
        obtain ⟨c, cs, rfl⟩ := List.exists_cons_of_ne_nil hne
        exact splitSign_of_isDigit (hdigits c (by simp))
  simp only [read?, hsign]
  rw [if_pos h]
  exact ⟨_, rfl⟩

theorem Decimal.exists_readMagnitude?_of_isPlain {cs : List Char}
    (h : isPlain cs = true) : ∃ m, readMagnitude? cs = some m := by
  simp only [isPlain, Bool.and_eq_true] at h
  obtain ⟨⟨⟨hwhole, -⟩, -⟩, hexponent⟩ := h
  obtain ⟨e, he⟩ := Option.isSome_iff_exists.1 hexponent
  have hdigits : ¬ ((cs.takeWhile Integer.isDigit).isEmpty &&
      (splitFraction (cs.dropWhile Integer.isDigit)).1.isEmpty) = true := by
    simp only [Bool.not_eq_true'] at hwhole
    simp [hwhole]
  simp only [readMagnitude?, read?]
  rw [if_neg hdigits, he]
  exact ⟨_, rfl⟩

namespace Token

/-! ## The parts of a text -/

/-- Layout and comments, with `back` behind them. A comment runs from its
semicolon up to a newline or the end of the text. -/
inductive IsGap (back : List Char) : List Char → Prop where
  | nil : IsGap back []
  | layout {c : Char} {gap : List Char} (hl : isLayout c = true)
      (h : IsGap back gap) : IsGap back (c :: gap)
  | comment {note gap : List Char} (hn : '\n' ∉ note)
      (hs : Stops (· ≠ '\n') (gap ++ back)) (h : IsGap back gap) :
      IsGap back (';' :: note ++ gap)

/-- The stretches before, between and behind tokens, from one offset to
another. -/
def gaps (pos stop : Nat) : List Located → List Text.Span
  | [] => [⟨pos, stop⟩]
  | t :: ts => ⟨pos, t.span.start⟩ :: gaps t.span.stop stop ts

/-- Numbers, keywords and symbols. -/
def isWord : Token → Bool
  | nil | bool _ | int _ | float _ | symbol _ => true
  | opening | closing | mark _ | str _ => false

/-- The slice of a token, with `back` behind it: read alone it is that
token, and no word could go on behind a word. -/
structure IsTile (t : Token) (slice back : List Char) : Prop where
  alone : scan (String.ofList slice) = .ok [⟨t, ⟨0, width slice⟩⟩]
  whole : t.isWord = true →
    ∀ c, back.head? = some c → isBlank c = true ∨ isPunctuation c = true

/-- The tokens, each in its place, and the gaps around them make up the
text, which starts at offset `pos` and has `behind` behind it. -/
structure Tiles (pos : Nat) (cs behind : List Char) (ts : List Located) :
    Prop where
  nonempty : ∀ t ∈ ts, t.span.start < t.span.stop
  ordered : ts.Pairwise fun t u => t.span.stop ≤ u.span.start
  slices : ∀ t ∈ ts, ∃ front slice back,
    t.span.Divides pos cs front slice back ∧
      IsTile t.token slice (back ++ behind)
  gaps : ∀ s ∈ gaps pos (pos + width cs) ts, ∃ front gap back,
    s.Divides pos cs front gap back ∧ IsGap (back ++ behind) gap

/-! ## Texts with tokens -/

theorem IsLexeme.isTile {t : Token} {slice back : List Char}
    (h : IsLexeme t slice back) : IsTile t slice back where
  alone := by
    have halone : IsLexeme t slice [] := h.of_head nofun
    have hscan : scanFrom [] 0 (slice ++ []) =
        scanFrom [⟨t, ⟨0, 0 + width slice⟩⟩] (0 + width slice) [] :=
      scanFrom_lexeme halone
    rw [List.append_nil, scanFrom] at hscan
    rw [scan, String.toList_ofList, hscan, Nat.zero_add]
    rfl
  whole hw c hc := by
    cases h with
    | single h =>
        unfold single? at h
        split at h <;> cases h <;> cases hw
    | splice => cases hw
    | unquote => cases hw
    | string => cases hw
    | word h hr hb =>
        have hnot := hr c hc
        simp only [isWordChar, Bool.and_eq_false_iff, Bool.not_eq_false']
          at hnot
        exact hnot

theorem tiles_nil {pos : Nat} {behind : List Char} :
    Tiles pos [] behind [] := by
  refine ⟨nofun, .nil, nofun, fun s hs => ?_⟩
  rw [List.mem_singleton.1 hs]
  exact ⟨[], [], [], ⟨rfl, rfl, rfl⟩, .nil⟩

theorem Tiles.token {pos : Nat} {slice cs behind : List Char} {t : Token}
    {ts : List Located} (ht : IsLexeme t slice (cs ++ behind))
    (h : Tiles (pos + width slice) cs behind ts) :
    Tiles pos (slice ++ cs) behind
      (⟨t, ⟨pos, pos + width slice⟩⟩ :: ts) where
  nonempty := by
    have hpos := Text.width_pos ht.ne_nil
    intro u hu
    rcases List.mem_cons.1 hu with rfl | hu
    · show pos < pos + width slice
      omega
    · exact h.nonempty u hu
  ordered := by
    refine List.pairwise_cons.2 ⟨fun u hu => ?_, h.ordered⟩
    obtain ⟨front, _, _, hdiv, -⟩ := h.slices u hu
    rw [hdiv.start]
    exact Nat.le_add_right _ _
  slices := by
    intro u hu
    rcases List.mem_cons.1 hu with rfl | hu
    · exact ⟨[], slice, cs, ⟨rfl, rfl, rfl⟩, ht.isTile⟩
    · obtain ⟨front, inner, back, hdiv, htile⟩ := h.slices u hu
      exact ⟨_, inner, back, hdiv.behind slice, htile⟩
  gaps := by
    intro s hs
    rcases List.mem_cons.1 hs with rfl | hs
    · exact ⟨[], [], slice ++ cs, ⟨rfl, rfl, rfl⟩, .nil⟩
    · rw [Text.width_append, ← Nat.add_assoc] at hs
      obtain ⟨front, gap, back, hdiv, hgap⟩ := h.gaps s hs
      exact ⟨_, gap, back, hdiv.behind slice, hgap⟩

/-- Only the first gap depends on where the text starts. -/
theorem exists_gaps_eq (stop : Nat) (ts : List Located) :
    ∃ first others, ∀ pos, gaps pos stop ts = ⟨pos, first⟩ :: others := by
  cases ts with
  | nil => exact ⟨_, _, fun _ => rfl⟩
  | cons t ts => exact ⟨_, _, fun _ => rfl⟩

/-- More layout in front goes to the first gap. -/
theorem Tiles.lead {pos : Nat} {lead cs behind : List Char}
    {ts : List Located}
    (hlead : ∀ gap back, cs = gap ++ back → IsGap (back ++ behind) gap →
      IsGap (back ++ behind) (lead ++ gap))
    (h : Tiles (pos + width lead) cs behind ts) :
    Tiles pos (lead ++ cs) behind ts where
  nonempty := h.nonempty
  ordered := h.ordered
  slices := by
    intro t ht
    obtain ⟨front, slice, back, hdiv, htile⟩ := h.slices t ht
    exact ⟨_, slice, back, hdiv.behind lead, htile⟩
  gaps := by
    obtain ⟨first, others, hgaps⟩ :=
      exists_gaps_eq (pos + width lead + width cs) ts
    have hcovered := h.gaps
    rw [Text.width_append, ← Nat.add_assoc, hgaps]
    rw [hgaps] at hcovered
    intro s hs
    rcases List.mem_cons.1 hs with rfl | hs
    · obtain ⟨front, gap, back, hdiv, hgap⟩ :=
        hcovered ⟨pos + width lead, first⟩ (.head _)
      have hstart := hdiv.start
      have hstop := hdiv.stop
      dsimp only at hstart hstop
      obtain rfl : front = [] := eq_nil_of_width_eq_zero (by omega)
      refine ⟨[], lead ++ gap, back, ⟨?_, rfl, ?_⟩,
        hlead gap back hdiv.text hgap⟩
      · rw [hdiv.text]
        simp
      · rw [Text.width_append]
        show first = pos + (width lead + width gap)
        omega
    · obtain ⟨front, gap, back, hdiv, hgap⟩ := hcovered s (.tail _ hs)
      exact ⟨_, gap, back, hdiv.behind lead, hgap⟩

theorem Tiles.layout {pos : Nat} {c : Char} {cs behind : List Char}
    {ts : List Located} (hl : isLayout c = true)
    (h : Tiles (pos + c.utf8Size) cs behind ts) :
    Tiles pos (c :: cs) behind ts :=
  @Tiles.lead pos [c] cs behind ts (fun _ _ _ hgap => .layout hl hgap) h

theorem Tiles.comment {pos : Nat} {note cs behind : List Char}
    {ts : List Located} (hn : '\n' ∉ note)
    (hs : Stops (· ≠ '\n') (cs ++ behind))
    (h : Tiles (pos + width (';' :: note)) cs behind ts) :
    Tiles pos (';' :: note ++ cs) behind ts := by
  refine Tiles.lead (fun gap back hcs hgap => .comment hn ?_ hgap) h
  rw [hcs, List.append_assoc] at hs
  exact hs

theorem Cuts.tiles {pos : Nat} {cs : List Char} {ts : List Located}
    (h : Cuts pos cs ts) : Tiles pos cs [] ts := by
  induction h with
  | nil => exact tiles_nil
  | layout hl _ ih => exact .layout hl ih
  | comment hc hr _ ih => exact .comment hc ((List.append_nil _).symm ▸ hr) ih
  | token ht _ ih => exact .token ((List.append_nil _).symm ▸ ht) ih

/-! ## Texts without -/

/-- What cannot be a token, with `back` behind it: a whole number outside 64
bits; the quote and the complete units of a string, as many as there are,
that does not end behind them; a blank that is no layout. -/
inductive IsMisfit (back : List Char) : List Char → Prop where
  | number {word : List Char} {n : Int} (hw : isIntWord word = true)
      (hn : Integer.read? word = some n) (hout : n < -2 ^ 63 ∨ 2 ^ 63 ≤ n)
      (hs : Stops isWordChar back) : IsMisfit back word
  | string {units : List Char} (hu : IsUnits units)
      (hmax : ∀ more rest, back = more ++ rest → IsUnits more → more = [])
      (hq : back.head? ≠ some '"') : IsMisfit back ('"' :: units)
  | blank {c : Char} (hb : isBlank c = true) (hl : isLayout c = false) :
      IsMisfit back [c]

/-- What stands behind the complete units of a string: nothing, a quote, or
a backslash that escapes nothing. -/
theorem splitUnits_rest (cs : List Char) :
    (splitUnits cs).2 = [] ∨ (∃ rest, (splitUnits cs).2 = '"' :: rest) ∨
      (splitUnits cs).2 = ['\\'] ∨
      ∃ rest, (splitUnits cs).2 = '\\' :: '\n' :: rest := by
  fun_induction splitUnits cs with
  | case1 => exact .inl rfl
  | case2 c h =>
      rcases h with rfl | rfl
      · exact .inr (.inl ⟨[], rfl⟩)
      · exact .inr (.inr (.inl rfl))
  | case3 => exact .inl rfl
  | case4 d cs => exact .inr (.inl ⟨d :: cs, rfl⟩)
  | case5 cs => exact .inr (.inr (.inr ⟨cs, rfl⟩))
  | case6 d cs hn units rest hsplit hq ih =>
      rw [hsplit] at ih
      exact ih
  | case7 c d cs hq hb units rest hsplit ih =>
      rw [hsplit] at ih
      exact ih

theorem eq_nil_of_splitUnits (cs : List Char) {more rest : List Char}
    (h : (splitUnits cs).2 = more ++ rest) (hm : IsUnits more) :
    more = [] := by
  cases hm with
  | nil => rfl
  | plain hq hb hm =>
      rcases splitUnits_rest cs with hr | ⟨after, hr⟩ | hr | ⟨after, hr⟩ <;>
        rw [hr] at h
      · cases h
      · exact absurd (List.cons.inj h).1.symm hq
      · exact absurd (List.cons.inj h).1.symm hb
      · exact absurd (List.cons.inj h).1.symm hb
  | escaped hn hm =>
      rcases splitUnits_rest cs with hr | ⟨after, hr⟩ | hr | ⟨after, hr⟩ <;>
        rw [hr] at h
      · cases h
      · cases h
      · cases h
      · exact absurd (List.cons.inj (List.cons.inj h).2).1.symm hn

/-- A word is what is left of it without a minus, with a minus in front or
without. -/
theorem exists_sign (word : List Char) :
    ∃ negative : Bool,
      word = (if negative = true then ['-'] else []) ++ unsigned word := by
  unfold unsigned
  split
  · exact ⟨true, rfl⟩
  · exact ⟨false, rfl⟩

theorem exists_read?_of_isFloatWord {word : List Char}
    (h : isFloatWord word = true) : ∃ x, Binary64.read? word = some x := by
  obtain ⟨negative, hword⟩ := exists_sign word
  obtain ⟨m, hm⟩ := Decimal.exists_readMagnitude?_of_isPlain h
  rw [hword, Binary64.read?_signed negative h hm]
  exact ⟨_, rfl⟩

theorem exists_read?_of_isIntWord {word : List Char}
    (h : isIntWord word = true) : ∃ n, Integer.read? word = some n := by
  obtain ⟨negative, hword⟩ := exists_sign word
  rw [hword]
  exact Integer.exists_read?_signed negative h

theorem isMisfit_of_ofWord? {word back : List Char}
    (h : ofWord? word = none) (hs : Stops isWordChar back) :
    IsMisfit back word := by
  unfold ofWord? at h
  split at h
  · cases h
  · split at h
    · next hfloat =>
        obtain ⟨x, hx⟩ := exists_read?_of_isFloatWord hfloat
        rw [hx] at h
        cases h
    · split at h
      · next hint =>
          obtain ⟨n, hn⟩ := exists_read?_of_isIntWord hint
          refine .number hint hn ?_ hs
          rw [hn, Option.map_eq_none_iff, Option.bind_some,
            Integer.narrow?] at h
          split at h
          · cases h
          · omega
      · cases h

theorem isMisfit_of_stringLexeme {cs slice : List Char}
    (h : stringLexeme cs = .bad slice) :
    ∃ back, '"' :: cs = slice ++ back ∧ IsMisfit back slice := by
  have hunits := isUnits_splitUnits cs
  have hsplit := append_splitUnits cs
  have hmax := @eq_nil_of_splitUnits cs
  unfold stringLexeme at h
  split at h
  · cases h
  · next units rest hnot hs =>
      cases h
      rw [hs] at hunits hsplit hmax
      refine ⟨rest, by rw [← hsplit]; rfl, .string hunits ?_ fun hq => ?_⟩
      · exact fun more after hr => hmax hr
      · cases rest with
        | nil => cases hq
        | cons c rest =>
            cases hq
            exact hnot rest rfl

theorem isMisfit_of_wordLexeme {c : Char} {cs slice : List Char}
    (hl : isLayout c = false) (hp : isPunctuation c = false)
    (h : wordLexeme c cs = .bad slice) :
    ∃ back, c :: cs = slice ++ back ∧
      (IsMisfit back slice ∨ isBrokenNumber slice back = true) := by
  have hcut := List.takeWhile_append_dropWhile (p := isWordChar) (l := cs)
  simp only [wordLexeme] at h
  split at h
  · refine ⟨cs.dropWhile isWordChar, ?_⟩
    split at h
    · next hbroken =>
        cases h
        exact ⟨by rw [List.cons_append, hcut], .inr hbroken⟩
    · split at h
      · cases h
      · next hnone =>
          cases h
          refine ⟨by rw [List.cons_append, hcut], .inl ?_⟩
          exact isMisfit_of_ofWord? hnone (stops_dropWhile _ _)
  · next hc =>
      cases h
      have hb : isBlank c = true := by simpa [isWordChar, hp] using hc
      exact ⟨cs, rfl, .inl (.blank hb hl)⟩

theorem not_isPunctuation {c : Char} (h : single? c = none) (hc : c ≠ ',')
    (hs : c ≠ ';') (hq : c ≠ '"') : isPunctuation c = false := by
  have hne : ∀ d t, single? d = some t → c ≠ d := by
    rintro d t hd rfl
    rw [hd] at h
    cases h
  simp only [isPunctuation, Bool.or_eq_false_iff, beq_eq_false_iff_ne]
  exact ⟨⟨⟨⟨⟨⟨hne _ _ rfl, hne _ _ rfl⟩, hne _ _ rfl⟩, hne _ _ rfl⟩, hc⟩, hs⟩,
    hq⟩

/-- Where no token is found there is a misfit, or a number that is broken
off by a wide blank. -/
theorem isMisfit_of_lexeme {c : Char} {cs slice : List Char}
    (hl : isLayout c = false) (hs : c ≠ ';') (h : lexeme c cs = .bad slice) :
    ∃ back, c :: cs = slice ++ back ∧
      (IsMisfit back slice ∨ isBrokenNumber slice back = true) := by
  unfold lexeme at h
  split at h
  · cases h
  · next hsingle =>
      split at h
      · unfold commaLexeme at h
        split at h <;> cases h
      · next hcomma =>
          split at h
          · next hquote =>
              obtain ⟨back, hcs, hmis⟩ := isMisfit_of_stringLexeme h
              exact ⟨back, hquote ▸ hcs, .inl hmis⟩
          · next hquote =>
              exact isMisfit_of_wordLexeme hl
                (not_isPunctuation hsingle hcomma hs hquote) h

theorem IsMisfit.ne_nil {back slice : List Char} (h : IsMisfit back slice) :
    slice ≠ [] := by
  cases h with
  | number hw =>
      rintro rfl
      cases hw
  | string => simp
  | blank => simp

theorem ne_nil_of_isBrokenNumber {slice back : List Char}
    (h : isBrokenNumber slice back = true) : slice ≠ [] := by
  rintro rfl
  cases h

theorem exists_of_scanFrom_error {found : List Located} {pos : Nat}
    {cs : List Char} {e : ReadError} (h : scanFrom found pos cs = .error e) :
    ∃ front slice back ts s, s.Divides pos cs front slice back ∧
      e = .badSlice (String.ofList slice) s ∧
      Tiles pos front (slice ++ back) ts ∧
      (IsMisfit back slice ∨ isBrokenNumber slice back = true) := by
  fun_induction scanFrom found pos cs with
  | case1 => cases h
  | case2 found pos c cs hl ih =>
      obtain ⟨front, slice, back, ts, s, hdiv, he, htiles, hmis⟩ := ih h
      exact ⟨c :: front, slice, back, ts, s, hdiv.behind [c], he,
        htiles.layout hl, hmis⟩
  | case3 found pos cs hl ih =>
      obtain ⟨front, slice, back, ts, s, hdiv, he, htiles, hmis⟩ := ih h
      have hline := List.takeWhile_append_dropWhile (p := (· ≠ '\n')) (l := cs)
      refine ⟨_, slice, back, ts, s, ?_, he, htiles.comment ?_ ?_, hmis⟩
      · have hall := hdiv.behind (';' :: cs.takeWhile (· ≠ '\n'))
        rw [List.cons_append, hline] at hall
        exact hall
      · intro hm
        have := List.mem_takeWhile_imp hm
        simp at this
      · have hstops := stops_dropWhile (· ≠ '\n') cs
        rw [hdiv.text] at hstops
        exact hstops
  | case4 found pos c cs hl hs t slice rest hlex span ih =>
      obtain ⟨front, bad, back, ts, s, hdiv, he, htiles, hmis⟩ := ih h
      have hlexeme := isLexeme_of_lexeme hlex
      rw [hdiv.text] at hlexeme
      refine ⟨slice ++ front, bad, back, _, s, ?_, he, htiles.token hlexeme,
        hmis⟩
      rw [← (append_of_lexeme hlex).1]
      exact hdiv.behind slice
  | case5 found pos c cs hl hs slice hlex =>
      cases h
      obtain ⟨back, hcs, hmis⟩ := isMisfit_of_lexeme (by simpa using hl) hs hlex
      exact ⟨[], slice, back, [], _, ⟨hcs, rfl, rfl⟩, rfl, tiles_nil, hmis⟩

end Token

/-- A text that has tokens is tiled by them. A text that has none is tiled
up to a slice on whole characters, not empty, that the error names; the
slice is no token by the rules of the language, or it is a number that is
broken off by a blank outside ASCII. -/
theorem tokens_tile_source (source : String) :
    (∀ ts, Token.scan source = .ok ts →
      Token.Tiles 0 source.toList [] ts) ∧
    (∀ e, Token.scan source = .error e → ∃ front slice back ts,
      e = .badSlice (String.ofList slice) e.span ∧
      e.span.Divides 0 source.toList front slice back ∧
      e.span.start < e.span.stop ∧
      Token.Tiles 0 front (slice ++ back) ts ∧
      (Token.IsMisfit back slice ∨
        Token.isBrokenNumber slice back = true)) := by
  refine ⟨fun ts hts => (Token.scan_eq_ok_iff.1 hts).tiles, fun e he => ?_⟩
  obtain ⟨front, slice, back, ts, s, hdiv, rfl, htiles, hmis⟩ :=
    Token.exists_of_scanFrom_error he
  have hpos : 0 < width slice := Text.width_pos
    (hmis.elim Token.IsMisfit.ne_nil Token.ne_nil_of_isBrokenNumber)
  have hstop := hdiv.stop
  refine ⟨front, slice, back, ts, rfl, hdiv, ?_, htiles, hmis⟩
  show s.start < s.stop
  omega

/-- Wide characters in a symbol and in a comment, and a word that starts like
a number. -/
def tiled : String :=
  "('é ;é(\n\"\\\")\"-1+"

/-- The tokens of `tiled`. -/
def tiledTokens : List Token.Located :=
  [⟨.opening, ⟨0, 1⟩⟩, ⟨.mark .quote, ⟨1, 2⟩⟩, ⟨.symbol "é", ⟨2, 4⟩⟩,
    ⟨.str "\")", ⟨10, 15⟩⟩, ⟨.symbol "-1+", ⟨15, 18⟩⟩]

theorem tiled_by_tokens :
    Token.scan tiled = .ok tiledTokens ∧
    Token.Tiles 0 tiled.toList [] tiledTokens ∧
    Token.scan "é \"b\\" = .error (.badSlice "\"b" ⟨3, 5⟩) ∧
    ∃ front slice back ts,
      Text.Span.Divides ⟨3, 5⟩ 0 "é \"b\\".toList front slice back ∧
      Token.Tiles 0 front (slice ++ back) ts := by
  have hscan : Token.scan tiled = .ok tiledTokens := by cbv
  have hbad : Token.scan "é \"b\\" = .error (.badSlice "\"b" ⟨3, 5⟩) := by
    cbv
  obtain ⟨front, slice, back, ts, -, hdiv, -, htiles, -⟩ :=
    (tokens_tile_source "é \"b\\").2 _ hbad
  exact ⟨hscan, (tokens_tile_source tiled).1 _ hscan, hbad, front, slice, back,
    ts, hdiv, htiles⟩

/-- A number that breaks off, in front of a space that does not break
lines. -/
def brokenOff : String :=
  "1e\u00a0"

/-- The error on `brokenOff` is not about anything that cannot be a token:
alone, its slice is a symbol. -/
theorem brokenOff_is_no_misfit :
    ∃ e, Token.scan brokenOff = .error e ∧
      ¬ (∃ front slice back, e = .badSlice (String.ofList slice) e.span ∧
        e.span.Divides 0 brokenOff.toList front slice back ∧
        Token.IsMisfit back slice) ∧
      Token.scan "1e" = .ok [⟨.symbol "1e", e.span⟩] := by
  have hscan : Token.scan brokenOff = .error (.badSlice "1e" ⟨0, 2⟩) := by cbv
  refine ⟨_, hscan, ?_, by cbv⟩
  rintro ⟨front, slice, back, he, -, hmis⟩
  injection he with hslice
  have hchars : slice = ['1', 'e'] := by
    rw [← String.toList_ofList (l := slice), ← hslice]
    rfl
  rw [hchars] at hmis
  cases hmis with
  | number hw => revert hw; decide

end SmallLisp
