import SmallLisp.Proofs.Completion
import SmallLisp.Proofs.Tiling

/-!
# Two texts with a newline between them

Reading does not look over a newline. Put two texts one behind the other,
with a newline between them: if the first has tokens, then the tokens of the
whole are those of the first and then those of the second, moved by what
stands before them. If the second has none, the whole fails as the second
does, at the place that this is in the whole. Forms follow the tokens.

That the first text keeps its tokens is shown in `Cutting.lean`. What is
added here is the other side. A scan that starts later, behind tokens that
are already found, does what it would do at the start, and all that differs
is where its findings are said to be (`scanFrom_behind`).
-/

namespace SmallLisp

open Token (Located scanFrom)
open Text (width)

namespace ReadError

/-- The same error, seen from a text that has `k` more bytes in front. -/
def shift (k : Nat) : ReadError → ReadError
  | badSlice slice s => badSlice slice (s.shift k)
  | strayClosing s => strayClosing (s.shift k)
  | unfinished offset => unfinished (offset + k)

@[simp] theorem message_shift (k : Nat) (e : ReadError) :
    (e.shift k).message = e.message := by
  cases e <;> rfl

@[simp] theorem span_shift (k : Nat) (e : ReadError) :
    (e.shift k).span = e.span.shift k := by
  cases e <;> rfl

end ReadError

namespace Token

/-- What a scan comes to when the text stands behind another one, which has
`k` bytes and the tokens of `before`. -/
def behind (before : List Located) (k : Nat) :
    Except ReadError (List Located) → Except ReadError (List Located)
  | .ok ts => .ok (before ++ ts.map (Located.shift k))
  | .error e => .error (e.shift k)

theorem scanFrom_behind (before : List Located) (k : Nat)
    (found : List Located) (pos : Nat) (cs : List Char) :
    scanFrom (found.map (Located.shift k) ++ before.reverse) (pos + k) cs =
      behind before k (scanFrom found pos cs) := by
  fun_induction scanFrom found pos cs with
  | case1 found pos =>
      rw [scanFrom, behind, List.reverse_append, List.reverse_reverse,
        List.map_reverse]
  | case2 found pos c cs hl ih =>
      rw [scanFrom_layout hl, ← ih, Nat.add_right_comm]
  | case3 found pos cs hl ih =>
      rw [scanFrom, if_neg hl, if_pos rfl, ← ih, Nat.add_right_comm]
  | case4 found pos c cs hl hs t slice rest hlex span ih =>
      rw [scanFrom_token (by simpa using hl) hs hlex, ← ih,
        Nat.add_right_comm]
      rfl
  | case5 found pos c cs hl hs slice hlex =>
      rw [scanFrom, if_neg hl, if_neg hs]
      split
      · next hlex' =>
          rw [hlex] at hlex'
          cases hlex'
      · next hlex' =>
          rw [hlex] at hlex'
          cases hlex'
          rw [Nat.add_right_comm]
          rfl

theorem scan_append {source : String} {ts : List Located}
    (h : scan source = .ok ts) (more : String) :
    scan (source ++ "\n" ++ more) =
      behind ts (width source.toList + 1) (scan more) := by
  rw [scan, toList_append_newline,
    (scan_eq_ok_iff.1 h).scanFrom_append_newline, List.append_nil, scan,
    ← scanFrom_behind]
  rw [List.map_nil, List.nil_append, Nat.add_assoc]

end Token

theorem parse_shift {ts : List Located} {vs : List Value}
    (h : Value.parse ts = .ok vs) (k : Nat) :
    Value.parse (ts.map (Located.shift k)) = .ok vs := by
  rw [parse_eq_ok_iff] at h ⊢
  exact Reader.advanceAll_congr (by simp [Located.shift]) h

theorem read_append {source more : String} {vs ws : List Value}
    (hv : Value.read source = .ok vs) (hw : Value.read more = .ok ws) :
    Value.read (source ++ "\n" ++ more) = .ok (vs ++ ws) := by
  obtain ⟨ts, hts, hvs⟩ := exists_of_bind_eq_ok hv
  obtain ⟨us, hus, hws⟩ := exists_of_bind_eq_ok hw
  have hscan := Token.scan_append hts more
  rw [hus] at hscan
  rw [read_of_scan hscan]
  exact (parse_append hvs).2 ⟨ws, parse_shift hws _, rfl⟩

/-- Where the first of two texts has tokens, a newline between them keeps
them apart: the tokens of the second come behind those of the first, or the
second fails with the message it has alone; its places move by the bytes in
front. If both are read, so are the two together. -/
theorem reading_composes_at_newline {source : String} {ts : List Located}
    (h : Token.scan source = .ok ts) (more : String) :
    (∀ us, Token.scan more = .ok us →
      Token.scan (source ++ "\n" ++ more) =
        .ok (ts ++ us.map (Located.shift (width source.toList + 1)))) ∧
    (∀ e, Token.scan more = .error e →
      ∃ e', Token.scan (source ++ "\n" ++ more) = .error e' ∧
        e'.stage = .lexer ∧ e'.message = e.message ∧
        e'.span = e.span.shift (width source.toList + 1)) ∧
    (∀ vs ws, Value.read source = .ok vs → Value.read more = .ok ws →
      Value.read (source ++ "\n" ++ more) = .ok (vs ++ ws)) := by
  have hscan := Token.scan_append h more
  refine ⟨fun us hus => ?_, fun e he => ?_, fun vs ws => read_append⟩
  · rw [hscan, hus]
    rfl
  · rw [he] at hscan
    refine ⟨_, hscan, ?_, e.message_shift _, e.span_shift _⟩
    obtain ⟨_, _, _, _, _, -, rfl, -⟩ := Token.exists_of_scanFrom_error he
    rfl

/-- A quoted symbol with a wide character, and a comment up to the end. -/
def noted : String :=
  "'é ; ("

/-- The tokens of `noted`. -/
def notedTokens : List Located :=
  [⟨.mark .quote, ⟨0, 1⟩⟩, ⟨.symbol "é", ⟨1, 3⟩⟩]

theorem noted_composes :
    Token.scan noted = .ok notedTokens ∧
    Token.scan (noted ++ "\n" ++ "(x)") =
      .ok (notedTokens ++ [⟨.opening, ⟨8, 9⟩⟩, ⟨.symbol "x", ⟨9, 10⟩⟩,
        ⟨.closing, ⟨10, 11⟩⟩]) ∧
    (∃ e, Token.scan (noted ++ "\n" ++ "\"a") = .error e ∧
      e.message = (ReadError.badSlice "\"a" ⟨0, 2⟩).message ∧
      e.span = ⟨8, 10⟩) ∧
    Value.read (noted ++ "\n" ++ "(x)") =
      .ok [.tagged .quote (.symbol "é"), .list [.symbol "x"]] := by
  have hscan : Token.scan noted = .ok notedTokens := by cbv
  have hmore : Token.scan "(x)" = .ok [⟨.opening, ⟨0, 1⟩⟩,
    ⟨.symbol "x", ⟨1, 2⟩⟩, ⟨.closing, ⟨2, 3⟩⟩] := by cbv
  have hbad : Token.scan "\"a" = .error (.badSlice "\"a" ⟨0, 2⟩) := by cbv
  have hread : Value.read noted = .ok [.tagged .quote (.symbol "é")] := by cbv
  have hreadMore : Value.read "(x)" = .ok [.list [.symbol "x"]] := by cbv
  obtain ⟨htokens, -, hforms⟩ := reading_composes_at_newline hscan "(x)"
  obtain ⟨e, he, -, hmessage, hspan⟩ :=
    (reading_composes_at_newline hscan "\"a").2.1 _ hbad
  exact ⟨hscan, htokens _ hmore, ⟨e, he, hmessage, hspan⟩,
    hforms _ _ hread hreadMore⟩

end SmallLisp
