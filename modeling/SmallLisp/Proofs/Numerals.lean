import Mathlib
import SmallLisp.Proofs.Doubles

/-!
# Written numbers read back

Integers are written digit by digit and read digit by digit, so that the
two agree is a fact about positional notation.

Decimals are written by search: of the candidates with one, two, up to
seventeen digits the first is taken that reads back. What is left to show
is that a text comes out in any case and has the shape of a decimal. When
the search fails, the exact value is written out, digit for digit, and
reading it back is exact arithmetic (`readMagnitude?_exactText`). When it
succeeds, the candidate reads back by the test it passed, and it has the
shape because a number that is not zero has a digit other than zero to
put in front (`isPlain_write`).

The one candidate without such a digit is zero itself, and zero never
passes the test: it reads as zero, whatever its exponent.
-/

namespace SmallLisp

/-! ## Stretches of digits -/

namespace Text

/-- The characters that satisfy `p` end before these. -/
def Stops (p : Char → Bool) (cs : List Char) : Prop :=
  ∀ c, cs.head? = some c → p c = false

theorem stops_nil {p : Char → Bool} : Stops p [] := by
  intro c h; cases h

theorem stops_cons {p : Char → Bool} {c : Char} {cs : List Char}
    (h : p c = false) : Stops p (c :: cs) := by
  intro d hd; cases hd; exact h

theorem stops_dropWhile (p : Char → Bool) (cs : List Char) :
    Stops p (cs.dropWhile p) := by
  intro c hc
  have hnot := List.head?_dropWhile_not p cs
  rw [hc] at hnot
  exact hnot

theorem takeWhile_append_stops {p : Char → Bool} {cs rest : List Char}
    (hp : ∀ c ∈ cs, p c = true) (hr : Stops p rest) :
    (cs ++ rest).takeWhile p = cs := by
  rw [List.takeWhile_append_of_pos hp]
  cases rest with
  | nil => simp
  | cons c rest => rw [List.takeWhile_cons, hr c rfl]; simp

theorem dropWhile_append_stops {p : Char → Bool} {cs rest : List Char}
    (hp : ∀ c ∈ cs, p c = true) (hr : Stops p rest) :
    (cs ++ rest).dropWhile p = rest := by
  rw [List.dropWhile_append_of_pos hp]
  cases rest with
  | nil => rfl
  | cons c rest => rw [List.dropWhile_cons, hr c rfl]; simp

end Text

/-! ## Integers -/

namespace Integer

/-- Nothing but digits. -/
def Digits (cs : List Char) : Prop := ∀ c ∈ cs, isDigit c = true

theorem Digits.append {cs ds : List Char} (hc : Digits cs) (hd : Digits ds) :
    Digits (cs ++ ds) := by
  intro c h
  rcases List.mem_append.1 h with h | h
  · exact hc c h
  · exact hd c h

theorem digits_replicate_zero (k : Nat) : Digits (List.replicate k '0') := by
  intro c h
  rw [List.eq_of_mem_replicate h]
  rfl

theorem digits_digits (n : Nat) : Digits (digits n) := by
  intro c h
  have hd := Nat.isDigit_of_mem_toDigits (by omega) (by omega) h
  simpa [Char.isDigit, isDigit, Char.le_def, UInt32.le_iff_toNat_le] using hd

theorem digits_ne_nil (n : Nat) : digits n ≠ [] := Nat.toDigits_ne_nil

theorem ofDigits_digits (n : Nat) : ofDigits (digits n) = n := by
  rw [ofDigits_eq]
  exact Nat.ofDigitChars_ten_toDigits

theorem isNumeral_iff {cs : List Char} :
    isNumeral cs = true ↔ cs ≠ [] ∧ Digits cs := by
  simp [isNumeral, Digits]

theorem isNumeral_digits (n : Nat) : isNumeral (digits n) = true :=
  isNumeral_iff.2 ⟨digits_ne_nil n, digits_digits n⟩

theorem splitSign_of_isDigit {c : Char} {cs : List Char}
    (h : isDigit c = true) : splitSign (c :: cs) = (false, c :: cs) := by
  unfold splitSign
  split
  · next heq => cases heq; simp [isDigit] at h
  · next heq => cases heq; simp [isDigit] at h
  · rfl

theorem splitSign_digits (n : Nat) :
    splitSign (digits n) = (false, digits n) := by
  have hd := digits_digits n
  obtain ⟨c, cs, h⟩ := List.exists_cons_of_ne_nil (digits_ne_nil n)
  rw [h] at hd ⊢
  exact splitSign_of_isDigit (hd c (by simp))

theorem read?_digits (n : Nat) : read? (digits n) = some (n : Int) := by
  simp only [read?, splitSign_digits]
  rw [if_pos (isNumeral_digits n), ofDigits_digits]
  rfl

theorem read?_minus_digits (n : Nat) :
    read? ('-' :: digits n) = some (-(n : Int)) := by
  simp only [read?, splitSign]
  rw [if_pos (isNumeral_digits n), ofDigits_digits]
  rfl

theorem toList_text (n : Int64) :
    (text n).toList = (if decide (n.toInt < 0) = true then ['-'] else []) ++
      digits n.toInt.natAbs := by
  simp only [text, decide_eq_true_eq]
  split <;> simp

/-- A 64-bit integer reads back from its written form. -/
theorem read?_text (n : Int64) :
    (read? (text n).toList).bind narrow? = some n := by
  have hlo := n.le_toInt
  have hhi := n.toInt_lt
  have hread : read? (text n).toList = some n.toInt := by
    rw [toList_text]
    by_cases hneg : n.toInt < 0
    · rw [if_pos (by simpa using hneg)]
      show read? ('-' :: digits n.toInt.natAbs) = _
      rw [read?_minus_digits]
      congr 1
      omega
    · rw [if_neg (by simpa using hneg), List.nil_append, read?_digits]
      congr 1
      omega
  rw [hread, Option.bind_some, narrow?, if_pos (by omega),
    Int64.ofInt_toInt]

end Integer

/-! ## Rounding an exact value -/

namespace Binary64

theorem roundDiv_mul {q den : Nat} (hden : 0 < den) :
    roundDiv (q * den) den = q := by
  simp only [roundDiv, Nat.mul_mod_left, Nat.mul_div_cancel _ hden]
  rw [if_pos (by omega)]

/-- The significand and the doublings that a magnitude stands for: together
they make up its grains, and the doublings are those that rounding finds. -/
theorem grains_eq (m : Nat) :
    ∃ q, m = ((grains m).log2 - 52) * 2 ^ 52 + q ∧
      grains m = q * 2 ^ ((grains m).log2 - 52) := by
  by_cases hsub : m < 2 ^ 52
  · have hg : grains m = m := if_pos hsub
    have hlog : m.log2 - 52 = 0 := by
      rcases Nat.eq_zero_or_pos m with rfl | hpos
      · rfl
      · have := (Nat.log2_lt (by omega)).2 hsub
        omega
    rw [hg, hlog]
    exact ⟨m, by omega, by omega⟩
  · have hg : grains m = (m % 2 ^ 52 + 2 ^ 52) * 2 ^ (m / 2 ^ 52 - 1) :=
      if_neg hsub
    have hlog : (grains m).log2 = 52 + (m / 2 ^ 52 - 1) := by
      have hpos := Nat.two_pow_pos (m / 2 ^ 52 - 1)
      rw [hg, Nat.log2_eq_iff (Nat.mul_ne_zero (by omega) (by omega)),
        Nat.add_right_comm, Nat.pow_add, Nat.pow_add 2 (52 + 1)]
      exact ⟨Nat.mul_le_mul_right _ (by omega),
        Nat.mul_lt_mul_of_pos_right (by omega) hpos⟩
    rw [hlog, Nat.add_sub_cancel_left]
    refine ⟨m % 2 ^ 52 + 2 ^ 52, ?_, hg⟩
    omega

theorem nearest_grains {num den m : Nat} (hden : 0 < den)
    (h : num * 2 ^ 1074 = grains m * den) (hm : m < infinity) :
    nearest num den = m := by
  obtain ⟨q, hq, hgr⟩ := grains_eq m
  simp only [nearest, Nat.pow_eq, h, Nat.mul_div_cancel _ hden]
  generalize (grains m).log2 - 52 = s at hq hgr
  have hsplit : grains m * den = q * (den * 2 ^ s) := by
    rw [hgr]
    ac_rfl
  rw [hsplit, roundDiv_mul (Nat.mul_pos hden (Nat.two_pow_pos s)), ← hq]
  exact Nat.min_eq_left (Nat.le_of_lt hm)

theorem nearest_zero (den : Nat) : nearest 0 den = 0 := by
  have hround : roundDiv 0 (den * Nat.pow 2 0) = 0 := by
    simp only [roundDiv, Nat.zero_div, Nat.zero_mod]
    split
    · rfl
    · split <;> omega
  simp only [nearest, Nat.zero_mul, Nat.zero_div, Nat.log2_zero,
    Nat.zero_sub, hround, Nat.zero_add, Nat.zero_min]

end Binary64

/-! ## The shape of a written decimal -/

namespace Decimal

open Integer (isDigit Digits ofDigits splitSign isNumeral
  digits_replicate_zero)
open Text (Stops stops_nil stops_cons takeWhile_append_stops
  dropWhile_append_stops)

theorem splitFraction_point {fraction tail : List Char}
    (hd : Digits fraction) (ht : Stops isDigit tail) :
    splitFraction ('.' :: (fraction ++ tail)) = (fraction, tail) := by
  rw [splitFraction, takeWhile_append_stops hd ht,
    dropWhile_append_stops hd ht]

theorem isPlain_point {whole fraction tail : List Char} (hw : whole ≠ [])
    (hwd : Digits whole) (hf : fraction ≠ []) (hfd : Digits fraction)
    (ht : Stops isDigit tail) (he : (readExponent? tail).isSome = true) :
    isPlain (whole ++ '.' :: (fraction ++ tail)) = true := by
  have hstop : Stops isDigit ('.' :: (fraction ++ tail)) := stops_cons rfl
  simp only [isPlain, takeWhile_append_stops hwd hstop,
    dropWhile_append_stops hwd hstop, splitFraction_point hfd ht, he]
  simp [hw, hf]

theorem isPlain_exponent {whole tail : List Char} (hw : whole ≠ [])
    (hwd : Digits whole) (he : (readExponent? ('e' :: tail)).isSome = true) :
    isPlain (whole ++ 'e' :: tail) = true := by
  have hstop : Stops isDigit ('e' :: tail) := stops_cons rfl
  have hsplit : splitFraction ('e' :: tail) = ([], 'e' :: tail) := rfl
  simp only [isPlain, takeWhile_append_stops hwd hstop,
    dropWhile_append_stops hwd hstop, hsplit, he]
  simp [hw]

theorem readExponent?_digits (negative : Bool) (n : Nat) :
    (readExponent? ('e' :: ((if negative = true then ['-'] else []) ++
      Integer.digits n))).isSome = true := by
  have hnum := Integer.isNumeral_digits n
  cases negative with
  | true => simp [readExponent?, splitSign, hnum]
  | false => simp [readExponent?, Integer.splitSign_digits, hnum]

/-- Significant digits are placed so that the text is a plain decimal,
provided that there is one. -/
theorem isPlain_place {ds : List Char} (hne : ds ≠ []) (hd : Digits ds)
    (scale : Int) : isPlain (place ds scale) = true := by
  have htake : ∀ k, Digits (ds.take k) :=
    fun k c hc => hd c (List.mem_of_mem_take hc)
  have hdrop : ∀ k, Digits (ds.drop k) :=
    fun k c hc => hd c (List.mem_of_mem_drop hc)
  simp only [place]
  split
  · split
    · -- Between the point and the digits stand zeros.
      have h := isPlain_point (List.cons_ne_nil '0' [])
        (digits_replicate_zero 1)
        (List.append_ne_nil_of_right_ne_nil _ hne)
        ((digits_replicate_zero scale.natAbs).append hd) stops_nil rfl
      simpa using h
    · -- The point stands among the digits, or zeros lead up to it.
      have hwhole : ds.take scale.toNat ++
          List.replicate (scale.toNat - ds.length) '0' ≠ [] :=
        List.append_ne_nil_of_left_ne_nil (by simp [hne]; omega) _
      have hw := (htake scale.toNat).append
        (digits_replicate_zero (scale.toNat - ds.length))
      split
      · have h := isPlain_point hwhole hw (List.cons_ne_nil '0' [])
          (digits_replicate_zero 1) stops_nil rfl
        simpa using h
      · next hfrac =>
          have h := isPlain_point hwhole hw (by simpa using hfrac)
            (hdrop scale.toNat) stops_nil rfl
          simpa using h
  · -- One digit, perhaps a point and more, and the exponent.
    have hfirst : ds.take 1 ≠ [] := by simp [hne]
    have he := readExponent?_digits (decide (scale - 1 < 0)) (scale - 1).natAbs
    split
    · next hone =>
        have h := isPlain_exponent hfirst (htake 1) he
        have hnil : ds.drop 1 = [] := List.drop_of_length_le hone
        simpa [hnil] using h
    · next hmore =>
        have hrest : ds.drop 1 ≠ [] := by
          intro hnil
          have := List.drop_eq_nil_iff.1 hnil
          omega
        have h := isPlain_point hfirst (htake 1) hrest (hdrop 1)
          (stops_cons rfl) he
        simpa using h

/-! ## Zero never stands in for another number -/

theorem ofDigits_zeros {ds : List Char} (h : ∀ c ∈ ds, c = '0') :
    ofDigits ds = 0 := by
  rw [Integer.ofDigits_eq, List.eq_replicate_of_mem h]
  show Nat.ofDigitChars 10 (List.replicate ds.length '0') 0 = 0
  rw [Nat.ofDigitChars_replicate_zero]
  rfl

theorem trimZeros_ne_nil {n : Nat} (hn : n ≠ 0) :
    trimZeros (Integer.digits n) ≠ [] := by
  intro h
  have hall : ∀ c ∈ Integer.digits n, c = '0' := by
    intro c hc
    rw [trimZeros, List.reverse_eq_nil_iff, List.dropWhile_eq_nil_iff] at h
    simpa using h c (List.mem_reverse.2 hc)
  have hzero := ofDigits_zeros hall
  rw [Integer.ofDigits_digits] at hzero
  exact hn hzero

theorem digits_trimZeros (n : Nat) : Digits (trimZeros (Integer.digits n)) := by
  intro c hc
  have hmem : c ∈ (Integer.digits n).reverse :=
    (List.dropWhile_sublist _).subset (List.mem_reverse.1 hc)
  exact Integer.digits_digits n c (List.mem_reverse.1 hmem)

theorem read?_zeros_point {d : Decimal} (j k : Nat)
    (h : read? (List.replicate j '0' ++ '.' :: List.replicate k '0') = some d) :
    d.digits = 0 := by
  have hstop : Stops isDigit ('.' :: List.replicate k '0') := stops_cons rfl
  have hfrac := splitFraction_point (digits_replicate_zero k) stops_nil
  rw [List.append_nil] at hfrac
  simp only [read?, takeWhile_append_stops (digits_replicate_zero j) hstop,
    dropWhile_append_stops (digits_replicate_zero j) hstop, hfrac] at h
  split at h
  · cases h
  · rw [readExponent?, Option.map_some, Option.some.injEq] at h
    rw [← h]
    apply ofDigits_zeros
    intro c hc
    rcases List.mem_append.1 hc with hc | hc
    · exact List.eq_of_mem_replicate hc
    · exact List.eq_of_mem_replicate hc

theorem read?_place_nil {d : Decimal} {scale : Int}
    (h : read? (place [] scale) = some d) : d.digits = 0 := by
  simp only [place] at h
  split at h
  · split at h
    · exact read?_zeros_point 1 scale.natAbs (by simpa using h)
    · exact read?_zeros_point scale.toNat 1 (by simpa using h)
  · -- Without a digit before the exponent there is no number.
    have hnone : ∀ cs, read? ('e' :: cs) = none := fun cs => rfl
    have hall : ∀ cs, read? (List.take 1 [] ++ [] ++ List.drop 1 [] ++
        'e' :: cs) = none := hnone
    rw [List.length_nil, if_pos (Nat.zero_le 1), List.append_assoc] at h
    exact absurd (h.symm.trans (hall _)) nofun

theorem magnitude_zero (e : Int) : magnitude ⟨0, e⟩ = 0 := by
  cases e with
  | ofNat e => simp only [magnitude, Nat.zero_mul, Binary64.nearest_zero]
  | negSucc e => simp only [magnitude, Binary64.nearest_zero]

/-- A candidate that reads as a number other than zero is plain. -/
theorem isPlain_write {d : Decimal} {m : Nat} (hm : m ≠ 0)
    (h : readMagnitude? (write d) = some m) : isPlain (write d) = true := by
  rcases Nat.eq_zero_or_pos d.digits with hz | hpos
  · exfalso
    have htrim : trimZeros (Integer.digits d.digits) = [] := by
      rw [hz]; rfl
    simp only [readMagnitude?, write, htrim, Option.map_eq_some_iff] at h
    obtain ⟨r, hr, hmag⟩ := h
    obtain ⟨rd, re⟩ := r
    have hrd : rd = 0 := read?_place_nil hr
    rw [hrd, magnitude_zero] at hmag
    exact hm hmag.symm
  · exact isPlain_place (trimZeros_ne_nil (by omega)) (digits_trimZeros _) _

/-! ## The exact value -/

theorem read?_scaled (n : Nat) :
    read? (Integer.digits n ++ "e-1074".toList) = some ⟨n, -1074⟩ := by
  have hstop : Stops isDigit ("e-1074".toList) := stops_cons rfl
  have hd := Integer.digits_digits n
  have hexp : readExponent? ("e-1074".toList) = some (-1074) := by decide
  have hsplit : splitFraction ("e-1074".toList) = ([], "e-1074".toList) := rfl
  simp only [read?, takeWhile_append_stops hd hstop,
    dropWhile_append_stops hd hstop, hsplit, hexp, List.append_nil,
    Integer.ofDigits_digits]
  rw [if_neg (by simp [Integer.digits_ne_nil])]
  rfl

theorem magnitude_scaled (n : Nat) :
    magnitude ⟨n, -1074⟩ = Binary64.nearest n (10 ^ 1074) := by
  show Binary64.nearest n (10 ^ min 1074 (n.log2 + 1100)) = _
  rw [Nat.min_eq_left (by omega)]

theorem readMagnitude?_exactText {m : Nat} (hm : m < Binary64.infinity) :
    readMagnitude? (exactText (Binary64.grains m)) = some m := by
  have hpos : ∀ k, 0 < 10 ^ k := fun k => Nat.pow_pos (by omega)
  have hten : ∀ g k, g * Nat.pow 5 k * 2 ^ k = g * 10 ^ k := by
    intro g k
    rw [Nat.pow_eq, Nat.mul_assoc, ← Nat.mul_pow]
  have hgrains := hten (Binary64.grains m) 1074
  rw [readMagnitude?, exactText, read?_scaled, Option.map_some,
    magnitude_scaled, Binary64.nearest_grains (hpos 1074) hgrains hm]

theorem isPlain_exactText (g : Nat) : isPlain (exactText g) = true := by
  rw [exactText]
  generalize g * Nat.pow 5 1074 = n
  exact isPlain_exponent (Integer.digits_ne_nil n) (Integer.digits_digits n) rfl

/-! ## The shortest text -/

/-- What is written for a positive finite magnitude is plain and reads
back. -/
theorem shortest_reads {m : Nat} (hpos : m ≠ 0) (hm : m < Binary64.infinity) :
    isPlain (shortest m) = true ∧ readMagnitude? (shortest m) = some m := by
  simp only [shortest]
  cases hfound : (List.range 17).findSome? fun i =>
      ((neighbours (Binary64.grains m) (scale (Binary64.grains m)) (i + 1)).map
        write).find? fun text => readMagnitude? text = some m with
  | none =>
      rw [Option.getD_none]
      exact ⟨isPlain_exactText _, readMagnitude?_exactText hm⟩
  | some text =>
      rw [Option.getD_some]
      obtain ⟨i, -, hi⟩ := List.exists_of_findSome?_eq_some hfound
      have hread : readMagnitude? text = some m := by
        simpa using List.find?_some hi
      obtain ⟨d, -, rfl⟩ := List.mem_map.1 (List.mem_of_find?_eq_some hi)
      exact ⟨isPlain_write hpos hread, hread⟩

/-! ## The characters of a plain decimal -/

theorem exists_digit_of_isPlain {cs : List Char} (h : isPlain cs = true) :
    ∃ c rest, cs = c :: rest ∧ isDigit c = true := by
  simp only [isPlain, Bool.and_eq_true] at h
  have hwhole := h.1.1.1
  cases cs with
  | nil => simp at hwhole
  | cons c rest =>
      refine ⟨c, rest, rfl, ?_⟩
      rw [List.takeWhile_cons] at hwhole
      split at hwhole
      · next hc => exact hc
      · simp at hwhole

/-- The characters that decimals are written with. -/
def IsDecimalChar (c : Char) : Prop :=
  isDigit c = true ∨ c ∈ ['.', 'e', 'E', '+', '-']

theorem isDecimalChar_of_splitSign {cs : List Char}
    (h : ∀ c ∈ (splitSign cs).2, IsDecimalChar c) :
    ∀ c ∈ cs, IsDecimalChar c := by
  intro c hc
  unfold splitSign at h
  split at h
  · rcases List.mem_cons.1 hc with rfl | hc
    · exact .inr (by decide)
    · exact h c hc
  · rcases List.mem_cons.1 hc with rfl | hc
    · exact .inr (by decide)
    · exact h c hc
  · exact h c hc

theorem isDecimalChar_of_readExponent? {cs : List Char}
    (h : (readExponent? cs).isSome = true) : ∀ c ∈ cs, IsDecimalChar c := by
  cases cs with
  | nil => intro c hc; cases hc
  | cons d ds =>
      simp only [readExponent?] at h
      split at h
      · next hd =>
          obtain ⟨hmark, hnum⟩ := hd
          have hds : ∀ c ∈ ds, IsDecimalChar c :=
            isDecimalChar_of_splitSign fun c hc =>
              .inl ((Integer.isNumeral_iff.1 hnum).2 c hc)
          intro c hc
          rcases List.mem_cons.1 hc with rfl | hc
          · rcases hmark with rfl | rfl <;> exact .inr (by decide)
          · exact hds c hc
      · cases h

theorem isDecimalChar_of_splitFraction {cs : List Char}
    (h : ∀ c ∈ (splitFraction cs).2, IsDecimalChar c) :
    ∀ c ∈ cs, IsDecimalChar c := by
  intro c hc
  unfold splitFraction at h
  split at h
  · next ds =>
      rcases List.mem_cons.1 hc with rfl | hc
      · exact .inr (by decide)
      · rw [← List.takeWhile_append_dropWhile (p := isDigit) (l := ds)] at hc
        rcases List.mem_append.1 hc with hc | hc
        · exact .inl (List.mem_takeWhile_imp hc)
        · exact h c hc
  · exact h c hc

theorem isDecimalChar_of_isPlain {cs : List Char} (h : isPlain cs = true) :
    ∀ c ∈ cs, IsDecimalChar c := by
  simp only [isPlain, Bool.and_eq_true] at h
  have hrest := isDecimalChar_of_splitFraction
    (isDecimalChar_of_readExponent? h.2)
  intro c hc
  rw [← List.takeWhile_append_dropWhile (p := isDigit) (l := cs)] at hc
  rcases List.mem_append.1 hc with hc | hc
  · exact .inl (List.mem_takeWhile_imp hc)
  · exact hrest c hc

end Decimal

/-! ## Doubles -/

namespace Binary64

open Integer (isDigit splitSign)

theorem finiteText_reads {m : Nat} (hm : m < infinity) :
    Decimal.isPlain (finiteText m) = true ∧
      Decimal.readMagnitude? (finiteText m) = some m := by
  unfold finiteText
  split
  · next hz =>
      subst hz
      have hread : Decimal.read? ("0.0".toList) = some ⟨0, -1⟩ := by decide
      refine ⟨by decide, ?_⟩
      rw [Decimal.readMagnitude?, hread, Option.map_some,
        Decimal.magnitude_zero]
  · next hz => exact Decimal.shortest_reads hz hm

theorem word?_of_isDigit {c : Char} {cs : List Char} (h : isDigit c = true) :
    word? (c :: cs) = none := by
  have hlower : c.toLower = c := by
    simp only [isDigit, Bool.and_eq_true, decide_eq_true_eq] at h
    rw [Char.toLower, dif_neg]
    rintro ⟨hge, -⟩
    exact absurd (UInt32.le_trans hge h.2) (by decide)
  have hlead : ∀ d ds, c ≠ d →
      String.ofList ((c :: cs).map Char.toLower) ≠ String.ofList (d :: ds) := by
    intro d ds hne heq
    have := congrArg String.toList heq
    rw [String.toList_ofList, String.toList_ofList, List.map_cons,
      hlower] at this
    exact hne (List.cons.inj this).1
  have hi : c ≠ 'i' := by rintro rfl; simp [isDigit] at h
  have hn : c ≠ 'n' := by rintro rfl; simp [isDigit] at h
  unfold word?
  split
  · next heq => exact absurd heq (hlead 'i' _ hi)
  · next heq => exact absurd heq (hlead 'i' _ hi)
  · next heq => exact absurd heq (hlead 'n' _ hn)
  · rfl

/-- A plain decimal, with a minus in front or without, reads as the double
of that sign and the magnitude of the decimal. -/
theorem read?_signed {cs : List Char} {m : Nat} (negative : Bool)
    (hp : Decimal.isPlain cs = true)
    (hm : Decimal.readMagnitude? cs = some m) :
    read? ((if negative = true then ['-'] else []) ++ cs) =
      some (ofMagnitude negative m) := by
  obtain ⟨c, rest, rfl, hc⟩ := Decimal.exists_digit_of_isPlain hp
  have hsign : splitSign ((if negative = true then ['-'] else []) ++ c :: rest)
      = (negative, c :: rest) := by
    cases negative with
    | true => rfl
    | false => exact Integer.splitSign_of_isDigit hc
  simp only [read?, hsign, word?_of_isDigit hc, hm, Option.none_or,
    Option.map_some]

end Binary64

end SmallLisp
