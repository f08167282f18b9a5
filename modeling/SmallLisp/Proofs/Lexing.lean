import SmallLisp.Proofs.Numerals
import SmallLisp.Token.Lexer

/-!
# What a stretch of text is read as, wherever it stands

The lexer looks at the text from a given place on. `IsLexeme` says what it
can find there, with a rule for each kind of token: a token, its slice,
and what may stand behind the slice. A scan that meets a lexeme records
its token and goes on behind it (`scanFrom_lexeme`), and records nothing
else (`isLexeme_of_lexeme`).

For a string it makes no difference what stands behind it. For a word it
does, since the word must end there. A word that is followed by nothing,
by a blank or by punctuation is read by itself: the same token, whatever
comes later and whatever came before. `Delimited` is that condition on
what follows.

The symbols come with a converse. A symbol token is only ever cut from a
word that would be read as that symbol if it stood alone
(`isName_of_scan`), so the names that a program can get hold of by
reading are exactly those that can be read again.
-/

namespace SmallLisp.Token

open Text (Stops stops_nil stops_cons stops_dropWhile takeWhile_append_stops
  dropWhile_append_stops isBlank isLayout isWideBlank width)

/-! ## Word characters -/

theorem isWordChar_iff {c : Char} :
    isWordChar c = true ↔ isBlank c = false ∧ isPunctuation c = false := by
  simp [isWordChar]

theorem not_isLayout_of_isWordChar {c : Char} (h : isWordChar c = true) :
    isLayout c = false := by
  cases hl : isLayout c with
  | false => rfl
  | true =>
      rw [(isWordChar_iff.1 h).1.symm, Text.isBlank_of_isLayout hl]

theorem ne_of_isWordChar {c d : Char} (h : isWordChar c = true)
    (hd : isWordChar d = false) : c ≠ d := by
  rintro rfl
  rw [h] at hd
  cases hd

theorem single?_of_isWordChar {c : Char} (h : isWordChar c = true) :
    single? c = none := by
  unfold single?
  split
  · exact absurd rfl (ne_of_isWordChar h (by decide))
  · exact absurd rfl (ne_of_isWordChar h (by decide))
  · exact absurd rfl (ne_of_isWordChar h (by decide))
  · exact absurd rfl (ne_of_isWordChar h (by decide))
  · rfl

theorem lexeme_of_isWordChar {c : Char} {cs : List Char}
    (h : isWordChar c = true) : lexeme c cs = wordLexeme c cs := by
  rw [lexeme, single?_of_isWordChar h]
  simp only []
  rw [if_neg (ne_of_isWordChar h (by decide)),
    if_neg (ne_of_isWordChar h (by decide))]

theorem isWordChar_of_isDecimalChar {c : Char} (h : Decimal.IsDecimalChar c) :
    isWordChar c = true := by
  rcases h with h | h
  · simp only [Integer.isDigit, Bool.and_eq_true, decide_eq_true_eq,
      Char.le_def, UInt32.le_iff_toNat_le] at h
    have hn : 48 ≤ c.toNat ∧ c.toNat ≤ 57 := h
    have hp : isPunctuation c = false := by
      simp only [isPunctuation, Bool.or_eq_false_iff, beq_eq_false_iff_ne]
      refine ⟨⟨⟨⟨⟨⟨?_, ?_⟩, ?_⟩, ?_⟩, ?_⟩, ?_⟩, ?_⟩ <;>
        (rintro rfl; revert hn; decide)
    have hb : isBlank c = false := by
      simp only [isBlank, Bool.or_eq_false_iff, Bool.and_eq_false_iff,
        decide_eq_false_iff_not, beq_eq_false_iff_ne]
      omega
    exact isWordChar_iff.2 ⟨hb, hp⟩
  · have hall : ['.', 'e', 'E', '+', '-'].all isWordChar = true := by decide
    exact List.all_eq_true.1 hall c h

/-! ## The inside of a string -/

/-- Complete units, one after the other. -/
inductive IsUnits : List Char → Prop where
  | nil : IsUnits []
  | plain {c : Char} {cs : List Char} (hq : c ≠ '"') (hb : c ≠ '\\')
      (h : IsUnits cs) : IsUnits (c :: cs)
  | escaped {c : Char} {cs : List Char} (hn : c ≠ '\n') (h : IsUnits cs) :
      IsUnits ('\\' :: c :: cs)

theorem isUnits_splitUnits (cs : List Char) : IsUnits (splitUnits cs).1 := by
  fun_induction splitUnits cs with
  | case1 => exact .nil
  | case2 => exact .nil
  | case3 c h =>
      rw [not_or] at h
      exact .plain h.1 h.2 .nil
  | case4 => exact .nil
  | case5 => exact .nil
  | case6 d cs hn units rest hsplit hq ih =>
      rw [hsplit] at ih
      exact .escaped hn ih
  | case7 c d cs hq hb units rest hsplit ih =>
      rw [hsplit] at ih
      exact .plain hq hb ih

theorem splitUnits_of_isUnits {units : List Char} (h : IsUnits units)
    (rest : List Char) :
    splitUnits (units ++ '"' :: rest) = (units, '"' :: rest) := by
  induction h with
  | nil =>
      cases rest with
      | nil => rfl
      | cons d rest => rfl
  | @plain c cs hq hb h ih =>
      obtain ⟨d, more, hmore⟩ : ∃ d more, cs ++ '"' :: rest = d :: more :=
        List.exists_cons_of_ne_nil (by simp)
      rw [hmore] at ih
      rw [List.cons_append, hmore, splitUnits, if_neg hq, if_neg hb, ih]
  | @escaped c cs hn h ih =>
      rw [List.cons_append, List.cons_append, splitUnits, if_neg (by decide),
        if_pos rfl, if_neg hn, ih]

/-! ## One token at a time -/

/-- A word that stands alone: nothing but word characters, with a meaning. -/
structure IsWord (t : Token) (word : List Char) : Prop where
  ne_nil : word ≠ []
  chars : ∀ c ∈ word, isWordChar c = true
  meaning : ofWord? word = some t

theorem isWord_of_all {t : Token} {word : List Char} (h : word ≠ [])
    (hc : word.all isWordChar = true) (hm : ofWord? word = some t) :
    IsWord t word :=
  ⟨h, List.all_eq_true.1 hc, hm⟩

/-- A token, its slice, and a text that the slice can be cut from the front
of. -/
inductive IsLexeme : Token → List Char → List Char → Prop where
  | single {c : Char} {t : Token} {rest : List Char}
      (h : single? c = some t) : IsLexeme t [c] rest
  | splice {rest : List Char} : IsLexeme (.mark .splice) [',', '@'] rest
  | unquote {rest : List Char} (h : rest.head? ≠ some '@') :
      IsLexeme (.mark .unquote) [','] rest
  | string {units rest : List Char} (h : IsUnits units) :
      IsLexeme (.str (String.ofList (Text.unescape units)))
        ('"' :: (units ++ ['"'])) rest
  | word {t : Token} {word rest : List Char} (h : IsWord t word)
      (hr : Stops isWordChar rest) (hb : isBrokenNumber word rest = false) :
      IsLexeme t word rest

theorem isLexeme_of_stringLexeme {cs slice rest : List Char} {t : Token}
    (h : stringLexeme cs = .token t slice rest) : IsLexeme t slice rest := by
  have hunits := isUnits_splitUnits cs
  unfold stringLexeme at h
  split at h
  · next units tail hs =>
      rw [hs] at hunits
      cases h
      exact .string hunits
  · cases h

theorem isLexeme_of_wordLexeme {c : Char} {cs slice rest : List Char}
    {t : Token} (h : wordLexeme c cs = .token t slice rest) :
    IsLexeme t slice rest := by
  simp only [wordLexeme] at h
  split at h
  · next hc =>
      split at h
      · cases h
      · next hb =>
          split at h
          · next t ht =>
              cases h
              refine .word ⟨by simp, fun d hd => ?_, ht⟩
                (stops_dropWhile _ _) (by simpa using hb)
              rcases List.mem_cons.1 hd with rfl | hd
              · exact hc
              · exact List.mem_takeWhile_imp hd
          · cases h
  · cases h

theorem isLexeme_of_commaLexeme {cs slice rest : List Char} {t : Token}
    (h : commaLexeme cs = .token t slice rest) : IsLexeme t slice rest := by
  unfold commaLexeme at h
  split at h
  · cases h
    exact .splice
  · next hne =>
      cases h
      refine .unquote fun hhead => ?_
      cases cs with
      | nil => cases hhead
      | cons d cs =>
          cases hhead
          exact hne cs rfl

theorem isLexeme_of_lexeme {c : Char} {cs slice rest : List Char} {t : Token}
    (h : lexeme c cs = .token t slice rest) : IsLexeme t slice rest := by
  unfold lexeme at h
  split at h
  · next t ht =>
      cases h
      exact .single ht
  · split at h
    · exact isLexeme_of_commaLexeme h
    · split at h
      · exact isLexeme_of_stringLexeme h
      · exact isLexeme_of_wordLexeme h

theorem wordLexeme_of_stops {t : Token} {c : Char} {cs rest : List Char}
    (h : IsWord t (c :: cs)) (hr : Stops isWordChar rest)
    (hb : isBrokenNumber (c :: cs) rest = false) :
    wordLexeme c (cs ++ rest) = .token t (c :: cs) rest := by
  have hcs : ∀ d ∈ cs, isWordChar d = true :=
    fun d hd => h.chars d (List.mem_cons_of_mem c hd)
  simp only [wordLexeme, takeWhile_append_stops hcs hr,
    dropWhile_append_stops hcs hr]
  rw [if_pos (h.chars c (by simp)), hb, h.meaning]
  rfl

theorem not_isLayout_of_single? {c : Char} {t : Token}
    (h : single? c = some t) : isLayout c = false ∧ c ≠ ';' := by
  unfold single? at h
  split at h
  · decide
  · decide
  · decide
  · decide
  · cases h

theorem IsLexeme.ne_nil {t : Token} {slice rest : List Char}
    (h : IsLexeme t slice rest) : slice ≠ [] := by
  cases h with
  | word h => exact h.ne_nil
  | _ => simp

/-- A lexeme starts with neither layout nor a comment, and is found where
it starts. -/
theorem IsLexeme.lexeme {t : Token} {c : Char} {cs rest : List Char}
    (h : IsLexeme t (c :: cs) rest) :
    isLayout c = false ∧ c ≠ ';' ∧
      lexeme c (cs ++ rest) = .token t (c :: cs) rest := by
  cases h with
  | single h =>
      obtain ⟨hl, hs⟩ := not_isLayout_of_single? h
      refine ⟨hl, hs, ?_⟩
      rw [Token.lexeme, h]
      rfl
  | splice => exact ⟨by decide, by decide, rfl⟩
  | unquote h =>
      refine ⟨by decide, by decide, ?_⟩
      show commaLexeme rest = _
      unfold commaLexeme
      split
      · exact absurd rfl h
      · rfl
  | @string units _ h =>
      refine ⟨by decide, by decide, ?_⟩
      show stringLexeme _ = _
      rw [stringLexeme, List.append_assoc, List.singleton_append,
        splitUnits_of_isUnits h]
      rfl
  | word h hr hb =>
      have hc := h.chars c (by simp)
      exact ⟨not_isLayout_of_isWordChar hc, ne_of_isWordChar hc (by decide),
        (lexeme_of_isWordChar hc).trans (wordLexeme_of_stops h hr hb)⟩

theorem scanFrom_layout {c : Char} {cs : List Char} {found : List Located}
    {pos : Nat} (h : isLayout c = true) :
    scanFrom found pos (c :: cs) = scanFrom found (pos + c.utf8Size) cs := by
  rw [scanFrom, if_pos h]

theorem scanFrom_token {c : Char} {cs : List Char} {found : List Located}
    {pos : Nat} {t : Token} {slice rest : List Char}
    (hl : isLayout c = false) (hs : c ≠ ';')
    (h : lexeme c cs = .token t slice rest) :
    scanFrom found pos (c :: cs) =
      scanFrom (⟨t, ⟨pos, pos + width slice⟩⟩ :: found) (pos + width slice)
        rest := by
  rw [scanFrom, if_neg (by simp [hl]), if_neg hs]
  split
  · next t' slice' rest' h' =>
      rw [h] at h'
      cases h'
      rfl
  · next slice' h' =>
      rw [h] at h'
      cases h'

theorem scanFrom_lexeme {found : List Located} {pos : Nat} {t : Token}
    {slice rest : List Char} (h : IsLexeme t slice rest) :
    scanFrom found pos (slice ++ rest) =
      scanFrom (⟨t, ⟨pos, pos + width slice⟩⟩ :: found) (pos + width slice)
        rest := by
  obtain ⟨c, cs, rfl⟩ := List.exists_cons_of_ne_nil h.ne_nil
  obtain ⟨hl, hs, hlex⟩ := h.lexeme
  exact scanFrom_token hl hs hlex

/-- What may follow a word without changing how the word is read. -/
def Delimited (rest : List Char) : Prop :=
  Stops isWordChar rest ∧ Stops isWideBlank rest

theorem delimited_nil : Delimited [] := ⟨stops_nil, stops_nil⟩

theorem delimited_cons {c : Char} {rest : List Char}
    (hw : isWordChar c = false) (hb : isWideBlank c = false) :
    Delimited (c :: rest) :=
  ⟨stops_cons hw, stops_cons hb⟩

theorem scanFrom_word {t : Token} {word rest : List Char}
    {found : List Located} {pos : Nat} (h : IsWord t word)
    (hr : Delimited rest) :
    scanFrom found pos (word ++ rest) =
      scanFrom (⟨t, ⟨pos, pos + width word⟩⟩ :: found) (pos + width word)
        rest := by
  have hbroken : isBrokenNumber word rest = false := by
    rw [isBrokenNumber, Bool.and_eq_false_iff]
    right
    cases rest with
    | nil => rfl
    | cons d rest => exact hr.2 d rfl
  exact scanFrom_lexeme (.word h hr.1 hbroken)

/-! ## Numbers and keywords -/

theorem keyword?_eq_none {cs : List Char}
    (h : cs ∉ ["nil".toList, "true".toList, "false".toList, "+inf.0".toList,
      "-inf.0".toList, "+nan.0".toList]) :
    keyword? (String.ofList cs) = none := by
  have hne : ∀ {s : String}, String.ofList cs = s → cs = s.toList := by
    intro s heq
    rw [← heq, String.toList_ofList]
  unfold keyword?
  split
  · next heq => exact absurd (by rw [hne heq]; decide) h
  · next heq => exact absurd (by rw [hne heq]; decide) h
  · next heq => exact absurd (by rw [hne heq]; decide) h
  · next heq => exact absurd (by rw [hne heq]; decide) h
  · next heq => exact absurd (by rw [hne heq]; decide) h
  · next heq => exact absurd (by rw [hne heq]; decide) h
  · rfl

theorem keyword?_of_isDigit {c : Char} {cs : List Char} (negative : Bool)
    (h : Integer.isDigit c = true) :
    keyword? (String.ofList ((if negative = true then ['-'] else []) ++
      c :: cs)) = none := by
  apply keyword?_eq_none
  cases negative with
  | true =>
      have hi : c ≠ 'i' := by rintro rfl; simp [Integer.isDigit] at h
      simp [hi]
  | false =>
      have hne : ∀ d, Integer.isDigit d = false → c ≠ d := by
        rintro d hd rfl
        rw [h] at hd
        cases hd
      simp [hne 'n' rfl, hne 't' rfl, hne 'f' rfl, hne '+' rfl, hne '-' rfl]

theorem unsigned_of_isDigit {c : Char} {cs : List Char} (negative : Bool)
    (h : Integer.isDigit c = true) :
    unsigned ((if negative = true then ['-'] else []) ++ c :: cs) =
      c :: cs := by
  cases negative with
  | true => rfl
  | false =>
      unfold unsigned
      split
      · next heq =>
          simp only [Bool.false_eq_true, if_false, List.nil_append,
            List.cons.injEq] at heq
          rw [heq.1] at h
          simp [Integer.isDigit] at h
      · rfl

theorem isWord_nil : IsWord .nil ("nil".toList) :=
  isWord_of_all (by decide) (by decide) rfl

theorem isWord_bool (b : Bool) :
    IsWord (.bool b) (if b = true then "true" else "false").toList := by
  cases b with
  | true => exact isWord_of_all (by decide) (by decide) rfl
  | false => exact isWord_of_all (by decide) (by decide) rfl

/-- The characters of a signed stretch of decimal characters are word
characters. -/
theorem isWordChar_signed {cs : List Char} (negative : Bool)
    (h : ∀ c ∈ cs, Decimal.IsDecimalChar c) :
    ∀ c ∈ (if negative = true then ['-'] else []) ++ cs,
      isWordChar c = true := by
  intro c hc
  rcases List.mem_append.1 hc with hc | hc
  · cases negative with
    | true =>
        rw [List.mem_singleton.1 hc]
        decide
    | false => cases hc
  · exact isWordChar_of_isDecimalChar (h c hc)

theorem isWord_int (n : Int64) : IsWord (.int n) (Integer.text n).toList := by
  have hread := Integer.read?_text n
  rw [Integer.toList_text] at hread ⊢
  have hd := Integer.digits_digits n.toInt.natAbs
  have hnum := Integer.isNumeral_digits n.toInt.natAbs
  have hrest : (Integer.digits n.toInt.natAbs).dropWhile Integer.isDigit = [] :=
    List.dropWhile_eq_nil_iff.2 hd
  obtain ⟨c, cs, h⟩ :=
    List.exists_cons_of_ne_nil (Integer.digits_ne_nil n.toInt.natAbs)
  rw [h] at hread hd hnum hrest ⊢
  have hc : Integer.isDigit c = true := hd c (by simp)
  refine ⟨by simp, isWordChar_signed _ fun d hm => .inl (hd d hm), ?_⟩
  have hfloat : Decimal.isPlain (c :: cs) = false := by
    simp [Decimal.isPlain, hrest]
  rw [ofWord?, keyword?_of_isDigit _ hc, isFloatWord, isIntWord,
    unsigned_of_isDigit _ hc, hfloat, hnum, hread]
  rfl

theorem isWord_float {x : Float} (hx : x.isNaN = false) :
    IsWord (.float x) (Binary64.text .readable x).toList := by
  have hle : ¬ Binary64.infinity < Binary64.magnitude x := by
    rw [← Binary64.isNaN_iff, hx]
    simp
  have hback := Binary64.ofMagnitude_magnitude x
  simp only [Binary64.text]
  rw [if_neg hle]
  split
  · next hinf =>
      rw [hinf] at hback
      split
      · next hneg =>
          rw [hneg] at hback
          rw [← hback]
          exact isWord_of_all (by decide) (by decide) rfl
      · next hneg =>
          rw [Bool.not_eq_true] at hneg
          rw [hneg] at hback
          rw [← hback]
          exact isWord_of_all (by decide) (by decide) rfl
  · next hfin =>
      obtain ⟨hplain, hmag⟩ :=
        Binary64.finiteText_reads (m := Binary64.magnitude x) (by omega)
      have hread := Binary64.read?_signed (Binary64.isNegative x) hplain hmag
      rw [hback] at hread
      have hchars := Decimal.isDecimalChar_of_isPlain hplain
      obtain ⟨c, cs, h, hc⟩ := Decimal.exists_digit_of_isPlain hplain
      rw [String.toList_ofList]
      rw [h] at hread hchars hplain ⊢
      refine ⟨by simp, isWordChar_signed _ hchars, ?_⟩
      rw [ofWord?, keyword?_of_isDigit _ hc, isFloatWord,
        unsigned_of_isDigit _ hc, hplain, hread]
      rfl

/-! ## Strings -/

theorem escapeName?_eq_none {c : Char} (h : Text.escapeName? c = none) :
    c ≠ '"' ∧ c ≠ '\\' := by
  constructor <;> (rintro rfl; cases h)

theorem escapeName?_ne_newline {c d : Char} (h : Text.escapeName? c = some d) :
    d ≠ '\n' := by
  rintro rfl
  have hback := Text.namedEscape?_escapeName? h
  cases hback

theorem isUnits_escape (c : Char) {cs : List Char} (h : IsUnits cs) :
    IsUnits (Text.escape c ++ cs) := by
  unfold Text.escape
  cases hc : Text.escapeName? c with
  | some name => exact .escaped (escapeName?_ne_newline hc) h
  | none =>
      obtain ⟨hq, hb⟩ := escapeName?_eq_none hc
      exact .plain hq hb h

theorem isUnits_flatMap_escape (cs : List Char) :
    IsUnits (cs.flatMap Text.escape) := by
  induction cs with
  | nil => exact .nil
  | cons c cs ih =>
      rw [List.flatMap_cons]
      exact isUnits_escape c ih

theorem unescape_escape (c : Char) (more : List Char) :
    Text.unescape (Text.escape c ++ more) = c :: Text.unescape more := by
  unfold Text.escape
  cases hc : Text.escapeName? c with
  | some name =>
      simp only [List.cons_append, List.nil_append]
      rw [Text.unescape, if_pos rfl, Text.namedEscape?_escapeName? hc]
  | none =>
      obtain ⟨-, hb⟩ := escapeName?_eq_none hc
      cases more with
      | nil => rfl
      | cons d more =>
          simp only [List.cons_append, List.nil_append]
          rw [Text.unescape, if_neg hb]

/-- Escaping loses nothing. -/
theorem unescape_flatMap_escape (cs : List Char) :
    Text.unescape (cs.flatMap Text.escape) = cs := by
  induction cs with
  | nil => rfl
  | cons c cs ih => rw [List.flatMap_cons, unescape_escape, ih]

theorem scanFrom_quote {s : String} {rest : List Char} {found : List Located}
    {pos : Nat} :
    scanFrom found pos ((Text.quote s).toList ++ rest) =
      scanFrom (⟨.str s, ⟨pos, pos + width (Text.quote s).toList⟩⟩ :: found)
        (pos + width (Text.quote s).toList) rest := by
  have hquote : (Text.quote s).toList =
      '"' :: (s.toList.flatMap Text.escape ++ ['"']) := by
    simp [Text.quote, Text.quoteChars]
  have hlex : IsLexeme (.str s) (Text.quote s).toList rest := by
    have hunits : IsLexeme _ _ rest :=
      .string (isUnits_flatMap_escape s.toList)
    rw [unescape_flatMap_escape, String.ofList_toList] at hunits
    rw [hquote]
    exact hunits
  exact scanFrom_lexeme hlex

/-! ## Names -/

/-- A text that is read as one symbol, which is the whole of it. -/
def IsName (name : String) : Prop :=
  ∃ n, scan name = .ok [⟨.symbol n, ⟨0, width name.toList⟩⟩]

theorem eq_of_ofWord? {cs : List Char} {n : String}
    (h : ofWord? cs = some (.symbol n)) : n = String.ofList cs := by
  unfold ofWord? at h
  split at h
  · next t hk =>
      cases h
      unfold keyword? at hk
      split at hk <;> cases hk
  · split at h
    · cases hr : Binary64.read? cs with
      | none => rw [hr] at h; cases h
      | some x => rw [hr] at h; cases h
    · split at h
      · cases hr : (Integer.read? cs).bind Integer.narrow? with
        | none => rw [hr] at h; cases h
        | some x => rw [hr] at h; cases h
      · cases h
        rfl

theorem isWord_of_lexeme {c : Char} {cs : List Char} {n : String}
    {slice rest : List Char}
    (h : lexeme c cs = .token (.symbol n) slice rest) :
    IsWord (.symbol n) slice := by
  generalize ht : Token.symbol n = t at h ⊢
  cases isLexeme_of_lexeme h with
  | single hs =>
      rw [← ht] at hs
      unfold single? at hs
      split at hs <;> cases hs
  | splice => cases ht
  | unquote => cases ht
  | string => cases ht
  | word hw => exact hw

theorem isName_of_isWord {n : String} {word : List Char}
    (h : IsWord (.symbol n) word) : IsName n := by
  have hn := eq_of_ofWord? h.meaning
  subst hn
  have hscan : scanFrom [] 0 (word ++ []) = _ := scanFrom_word h delimited_nil
  rw [List.append_nil] at hscan
  refine ⟨String.ofList word, ?_⟩
  rw [scan, String.toList_ofList, hscan, scanFrom]
  simp

/-- Every token found is cut from the text by `lexeme`, no earlier than
where the scan started. -/
theorem scanFrom_ok {found : List Located} {pos : Nat} {cs : List Char}
    {ts : List Located} (h : scanFrom found pos cs = .ok ts) :
    ∃ more, ts = found.reverse ++ more ∧ ∀ t ∈ more, pos ≤ t.span.start ∧
      ∃ c ds slice rest, lexeme c ds = .token t.token slice rest := by
  fun_induction scanFrom found pos cs with
  | case1 found pos =>
      cases h
      exact ⟨[], by simp, by simp⟩
  | case2 found pos c cs hl ih =>
      obtain ⟨more, hts, hmore⟩ := ih h
      refine ⟨more, hts, fun t ht => ?_⟩
      obtain ⟨hpos, hlex⟩ := hmore t ht
      exact ⟨by omega, hlex⟩
  | case3 found pos cs hl ih =>
      obtain ⟨more, hts, hmore⟩ := ih h
      refine ⟨more, hts, fun t ht => ?_⟩
      obtain ⟨hpos, hlex⟩ := hmore t ht
      exact ⟨by omega, hlex⟩
  | case4 found pos c cs hl hs t slice rest hlex span ih =>
      obtain ⟨more, hts, hmore⟩ := ih h
      refine ⟨⟨t, span⟩ :: more, by simpa using hts, fun u hu => ?_⟩
      rcases List.mem_cons.1 hu with rfl | hu
      · exact ⟨Nat.le_refl pos, c, cs, slice, rest, hlex⟩
      · obtain ⟨hpos, hcut⟩ := hmore u hu
        have hstop : span.stop = pos + width slice := rfl
        exact ⟨by omega, hcut⟩
  | case5 found pos c cs hl hs slice hlex => cases h

theorem isName_of_scan {source : String} {ts : List Located} {t : Located}
    {n : String} (h : scan source = .ok ts) (ht : t ∈ ts)
    (hn : t.token = .symbol n) : IsName n := by
  obtain ⟨more, hts, hmore⟩ := scanFrom_ok h
  rw [List.reverse_nil, List.nil_append] at hts
  rw [hts] at ht
  obtain ⟨-, c, ds, slice, rest, hlex⟩ := hmore t ht
  rw [hn] at hlex
  exact isName_of_isWord (isWord_of_lexeme hlex)

theorem eq_nil_of_width_eq_zero {cs : List Char} (h : width cs = 0) :
    cs = [] := by
  cases cs with
  | nil => rfl
  | cons c cs =>
      have := c.utf8Size_pos
      rw [Text.width_cons] at h
      omega

/-- A text whose only token starts at its first byte starts with that
token. -/
theorem lexeme_of_scanFrom {c : Char} {cs : List Char} {t : Token}
    {stop : Nat}
    (h : scanFrom [] 0 (c :: cs) = .ok [⟨t, ⟨0, stop⟩⟩]) :
    ∃ slice rest, lexeme c cs = .token t slice rest ∧ stop = width slice := by
  have hlate : ∀ {pos : Nat} {ds : List Char},
      scanFrom [] pos ds = .ok [⟨t, ⟨0, stop⟩⟩] → pos = 0 := by
    intro pos ds hscan
    obtain ⟨more, hts, hmore⟩ := scanFrom_ok hscan
    rw [List.reverse_nil, List.nil_append] at hts
    obtain ⟨hpos, -⟩ := hmore ⟨t, ⟨0, stop⟩⟩ (by rw [← hts]; simp)
    exact Nat.le_zero.1 hpos
  have hsize := c.utf8Size_pos
  rw [scanFrom] at h
  split at h
  · have := hlate h
    omega
  · split at h
    · have := hlate h
      rw [Text.width_cons] at this
      omega
    · split at h
      · next t' slice rest hlex =>
          obtain ⟨more, hts, -⟩ := scanFrom_ok h
          simp only [List.reverse_cons, List.reverse_nil, List.nil_append,
            List.cons_append, List.cons.injEq] at hts
          obtain ⟨htok, -⟩ := hts
          cases htok
          exact ⟨slice, rest, hlex, by omega⟩
      · cases h

/-- A name is a word. -/
theorem isWord_of_isName {name : String} (h : IsName name) :
    IsWord (.symbol name) name.toList := by
  obtain ⟨n, h⟩ := h
  rw [scan] at h
  cases hname : name.toList with
  | nil =>
      rw [hname, scanFrom] at h
      cases h
  | cons c cs =>
      rw [hname] at h
      obtain ⟨slice, rest, hlex, hwidth⟩ := lexeme_of_scanFrom h
      have hcut := (append_of_lexeme hlex).1
      have hrest : rest = [] := by
        apply eq_nil_of_width_eq_zero
        rw [← hcut, Text.width_append] at hwidth
        omega
      rw [hrest, List.append_nil] at hcut
      have hword := isWord_of_lexeme hlex
      have hn : n = name := by
        rw [eq_of_ofWord? hword.meaning, hcut, ← hname, String.ofList_toList]
      rw [← hcut, ← hn]
      exact hword

end SmallLisp.Token
