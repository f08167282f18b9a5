import SmallLisp.Proofs.Reading
import SmallLisp.Proofs.RoundTrip

/-!
# The grammar of the reader

A program is a sequence of data; a datum is an atom, a parenthesised
sequence of data, or a quote mark before a datum. `Datum` has a constructor
for each of these rules, so that a value of the type is a parse tree: it
spells a sequence of tokens and denotes a value. A `Derivation` of some
tokens is a list of trees that spells them.

The reader knows nothing of trees. What connects the two is `MakesUp`: the
tokens read so far spell the finished forms, and then, form by form, what
has been read of the open ones. Every step of the reader keeps it
(`makesUp_advance`). At the end of a program it is a derivation. Anywhere
before the end it shows how to go on: whatever is open can be filled with
one datum and closed (`MakesUp.complete`). So as long as the reader has
not failed there is a program that starts with what it has read, and when
it fails there is none, because a program is read to its end
(`parse_of_derivation`).
-/

namespace SmallLisp

open Token (Located)
open Reader (Frame Progress advance advanceAll deliver start stopOf)

/-! ## Parse trees -/

/-- A datum without parts. -/
inductive Atom where
  | nil
  | bool (b : Bool)
  | int (n : Int64)
  | float (x : Float)
  | str (s : String)
  | symbol (name : String)

namespace Atom

/-- The token that an atom is written as. -/
def token : Atom → Token
  | nil => .nil
  | bool b => .bool b
  | int n => .int n
  | float x => .float x
  | str s => .str s
  | symbol name => .symbol name

/-- The value that an atom denotes. -/
def value : Atom → Value
  | nil => .nil
  | bool b => .bool b
  | int n => .int n
  | float x => .float x
  | str s => .str s
  | symbol name => .symbol name

theorem token_inj {a b : Atom} (h : a.token = b.token) : a = b := by
  cases a <;> cases b <;> cases h <;> rfl

theorem token_ne_opening (a : Atom) : a.token ≠ .opening := by
  cases a <;> simp [token]

theorem token_ne_closing (a : Atom) : a.token ≠ .closing := by
  cases a <;> simp [token]

theorem token_ne_mark (a : Atom) (m : QuoteMark) : a.token ≠ .mark m := by
  cases a <;> simp [token]

theorem advance_token (a : Atom) (p : Progress) (s : Text.Span) :
    advance p ⟨a.token, s⟩ = .ok (deliver a.value p.forms p.frames) := by
  cases a <;> rfl

end Atom

/-- The parse tree of a datum. -/
inductive Datum where
  | atom (a : Atom)
  | list (items : List Datum)
  | marked (m : QuoteMark) (d : Datum)

namespace Datum

mutual

/-- The tokens that a datum is written as. -/
def tokens : Datum → List Token
  | atom a => [a.token]
  | list items => .opening :: (tokensAll items ++ [.closing])
  | marked m d => .mark m :: d.tokens

/-- The tokens of a sequence of data. -/
def tokensAll : List Datum → List Token
  | [] => []
  | d :: ds => d.tokens ++ tokensAll ds

end

mutual

/-- The value that a datum denotes. -/
def value : Datum → Value
  | atom a => a.value
  | list items => .list (values items)
  | marked m d => .list [.symbol m.name, d.value]

/-- The values of a sequence of data. -/
def values : List Datum → List Value
  | [] => []
  | d :: ds => d.value :: values ds

end

theorem tokensAll_append (ds es : List Datum) :
    tokensAll (ds ++ es) = tokensAll ds ++ tokensAll es := by
  induction ds with
  | nil => rfl
  | cons d ds ih =>
      rw [List.cons_append, tokensAll, tokensAll, ih, List.append_assoc]

theorem tokensAll_singleton (d : Datum) : tokensAll [d] = d.tokens := by
  rw [tokensAll, tokensAll, List.append_nil]

theorem values_append (ds es : List Datum) :
    values (ds ++ es) = values ds ++ values es := by
  induction ds with
  | nil => rfl
  | cons d ds ih =>
      rw [List.cons_append, values, values, ih, List.cons_append]

theorem exists_tokens_eq_cons (d : Datum) :
    ∃ t ts, d.tokens = t :: ts ∧ t ≠ .closing := by
  cases d with
  | atom a => exact ⟨a.token, [], by rw [tokens], a.token_ne_closing⟩
  | list items => exact ⟨_, _, by rw [tokens], by simp⟩
  | marked m d => exact ⟨_, _, by rw [tokens], by simp⟩

/-! ## No two trees for one spelling -/

mutual

theorem tokens_append_inj (d e : Datum) {xs ys : List Token}
    (h : d.tokens ++ xs = e.tokens ++ ys) : d = e ∧ xs = ys := by
  match d, e with
  | .atom a, .atom b =>
      rw [tokens, tokens] at h
      obtain ⟨hab, hxs⟩ := List.cons.inj h
      exact ⟨congrArg _ (Atom.token_inj hab), hxs⟩
  | .atom a, .list es =>
      rw [tokens, tokens] at h
      exact absurd (List.cons.inj h).1 a.token_ne_opening
  | .atom a, .marked m e =>
      rw [tokens, tokens] at h
      exact absurd (List.cons.inj h).1 (a.token_ne_mark m)
  | .list ds, .atom b =>
      rw [tokens, tokens] at h
      exact absurd (List.cons.inj h).1.symm b.token_ne_opening
  | .list ds, .list es =>
      rw [tokens, tokens, List.cons_append, List.cons_append,
        List.append_assoc, List.append_assoc] at h
      obtain ⟨hds, hxs⟩ := tokensAll_append_inj ds es (List.cons.inj h).2
      exact ⟨congrArg _ hds, hxs⟩
  | .list ds, .marked m e =>
      rw [tokens, tokens] at h
      cases (List.cons.inj h).1
  | .marked m d, .atom b =>
      rw [tokens, tokens] at h
      exact absurd (List.cons.inj h).1.symm (b.token_ne_mark m)
  | .marked m d, .list es =>
      rw [tokens, tokens] at h
      cases (List.cons.inj h).1
  | .marked m d, .marked n e =>
      rw [tokens, tokens, List.cons_append, List.cons_append] at h
      obtain ⟨hmn, hrest⟩ := List.cons.inj h
      obtain ⟨hd, hxs⟩ := tokens_append_inj d e hrest
      cases hmn
      exact ⟨congrArg _ hd, hxs⟩

theorem tokensAll_append_inj (ds es : List Datum) {xs ys : List Token}
    (h : tokensAll ds ++ .closing :: xs = tokensAll es ++ .closing :: ys) :
    ds = es ∧ xs = ys := by
  match ds, es with
  | [], [] => exact ⟨rfl, (List.cons.inj h).2⟩
  | [], e :: es =>
      obtain ⟨t, ts, ht, hne⟩ := exists_tokens_eq_cons e
      rw [tokensAll, tokensAll, ht] at h
      exact absurd (List.cons.inj h).1.symm hne
  | d :: ds, [] =>
      obtain ⟨t, ts, ht, hne⟩ := exists_tokens_eq_cons d
      rw [tokensAll, tokensAll, ht] at h
      exact absurd (List.cons.inj h).1 hne
  | d :: ds, e :: es =>
      rw [tokensAll, tokensAll, List.append_assoc, List.append_assoc] at h
      obtain ⟨hd, hrest⟩ := tokens_append_inj d e h
      obtain ⟨hds, hxs⟩ := tokensAll_append_inj ds es hrest
      exact ⟨by rw [hd, hds], hxs⟩

end

theorem tokensAll_inj {ds es : List Datum} (h : tokensAll ds = tokensAll es) :
    ds = es :=
  (tokensAll_append_inj ds es (congrArg (· ++ [.closing]) h)).1

end Datum

/-! ## Derivations -/

/-- A way to derive tokens from the grammar: the parse trees of a program
that is written as these tokens. -/
structure Derivation (ts : List Located) where
  data : List Datum
  tokens_eq : Datum.tokensAll data = ts.map (·.token)

/-- The values of the forms that a derivation makes out. -/
def Derivation.values {ts : List Located} (d : Derivation ts) : List Value :=
  Datum.values d.data

/-- Some program starts with these tokens. -/
def Viable (ts : List Located) : Prop :=
  ∃ more, Nonempty (Derivation (ts ++ more))

/-- Up to token `k` there is a program that starts with the tokens, and with
token `k` there is none. -/
structure BreaksAt (ts : List Located) (k : Nat) : Prop where
  before : ∀ j ≤ k, Viable (ts.take j)
  after : ¬ Viable (ts.take (k + 1))

theorem subsingleton_derivation (ts : List Located) :
    Subsingleton (Derivation ts) := by
  refine ⟨fun ⟨ds, hds⟩ ⟨es, hes⟩ => ?_⟩
  obtain rfl := Datum.tokensAll_inj (hds.trans hes.symm)
  rfl

theorem Viable.of_append {ts us : List Located} (h : Viable (ts ++ us)) :
    Viable ts := by
  obtain ⟨more, hmore⟩ := h
  exact ⟨us ++ more, by rw [← List.append_assoc]; exact hmore⟩

theorem Viable.take {ts : List Located} (h : Viable ts) (k : Nat) :
    Viable (ts.take k) := by
  rw [← List.take_append_drop k ts] at h
  exact h.of_append

theorem Derivation.viable {ts : List Located} (d : Derivation ts) :
    Viable ts := ⟨[], by rw [List.append_nil]; exact ⟨d⟩⟩

theorem BreaksAt.unique {ts : List Located} {j k : Nat} (hj : BreaksAt ts j)
    (hk : BreaksAt ts k) : j = k := by
  rcases Nat.lt_trichotomy j k with hlt | heq | hlt
  · exact absurd (hk.before (j + 1) hlt) hj.after
  · exact heq
  · exact absurd (hj.before (k + 1) hlt) hk.after

/-! ## A program is read to its end -/

theorem spells_mark {ts : List Located} {v : Value} {m : QuoteMark}
    (s : Text.Span) (h : Spells ts v) :
    Spells (⟨.mark m, s⟩ :: ts) (Value.tagged m v) := by
  intro p last more
  obtain ⟨last', h⟩ := h ⟨.mark m :: p.frames, p.forms⟩ s.stop more
  exact ⟨last', h⟩

mutual

theorem spells_datum (d : Datum) {ts : List Located}
    (h : ts.map (·.token) = d.tokens) : Spells ts d.value := by
  match d with
  | .atom a =>
      rw [Datum.tokens, List.map_eq_singleton_iff] at h
      obtain ⟨⟨t, s⟩, rfl, ht⟩ := h
      change t = a.token at ht
      rw [ht, Datum.value]
      exact spells_atom s fun p => a.advance_token p s
  | .list ds =>
      rw [Datum.tokens, List.map_eq_cons_iff] at h
      obtain ⟨⟨t, s⟩, us, rfl, ht, hus⟩ := h
      obtain ⟨ts, vs, rfl, hts, hvs⟩ := List.map_eq_append_iff.1 hus
      obtain ⟨⟨t', s'⟩, rfl, ht'⟩ := List.map_eq_singleton_iff.1 hvs
      change t = .opening at ht
      change t' = .closing at ht'
      rw [ht, ht', Datum.value]
      exact spells_list s s' (spellsAll_data ds hts)
  | .marked m d =>
      rw [Datum.tokens, List.map_eq_cons_iff] at h
      obtain ⟨⟨t, s⟩, us, rfl, ht, hus⟩ := h
      change t = .mark m at ht
      rw [ht, Datum.value]
      exact spells_mark s (spells_datum d hus)

theorem spellsAll_data (ds : List Datum) {ts : List Located}
    (h : ts.map (·.token) = Datum.tokensAll ds) :
    SpellsAll ts (Datum.values ds) := by
  match ds with
  | [] =>
      rw [Datum.tokensAll, List.map_eq_nil_iff] at h
      rw [h]
      exact spellsAll_nil
  | d :: ds =>
      rw [Datum.tokensAll, List.map_eq_append_iff] at h
      obtain ⟨us, vs, rfl, hus, hvs⟩ := h
      exact spellsAll_cons (spells_datum d hus) (spellsAll_data ds hvs)

end

theorem parseFrom_data (ds : List Datum) {ts : List Located}
    (h : ts.map (·.token) = Datum.tokensAll ds) (forms : List Value)
    (last : Nat) :
    Reader.parseFrom ⟨[], forms⟩ last ts =
      .ok (forms.reverse ++ Datum.values ds) := by
  induction ds generalizing ts forms last with
  | nil =>
      rw [Datum.tokensAll, List.map_eq_nil_iff] at h
      rw [h, Datum.values, List.append_nil]
      rfl
  | cons d ds ih =>
      rw [Datum.tokensAll, List.map_eq_append_iff] at h
      obtain ⟨us, vs, rfl, hus, hvs⟩ := h
      obtain ⟨last', hread⟩ := spells_datum d hus ⟨[], forms⟩ last vs
      rw [hread, deliver, ih hvs, Datum.values, List.reverse_cons,
        List.append_assoc]
      rfl

theorem parse_of_derivation {ts : List Located} (d : Derivation ts) :
    Value.parse ts = .ok d.values :=
  parseFrom_data d.data d.tokens_eq.symm [] 0

/-! ## What has been read -/

/-- The tokens that lead to some open forms behind some finished ones: what
the finished forms are written as, and then the start of each open form,
outermost first. -/
inductive MakesUp : List Token → List Frame → List Value → Prop where
  | forms (ds : List Datum) :
      MakesUp (Datum.tokensAll ds) [] (Datum.values ds).reverse
  | list {ts : List Token} {frames : List Frame} {forms : List Value}
      (h : MakesUp ts frames forms) (ds : List Datum) :
      MakesUp (ts ++ .opening :: Datum.tokensAll ds)
        (.list (Datum.values ds).reverse :: frames) forms
  | mark {ts : List Token} {frames : List Frame} {forms : List Value}
      (h : MakesUp ts frames forms) (m : QuoteMark) :
      MakesUp (ts ++ [.mark m]) (.mark m :: frames) forms

theorem makesUp_deliver {ts : List Token} {frames : List Frame}
    {forms : List Value} (h : MakesUp ts frames forms) (d : Datum) :
    MakesUp (ts ++ d.tokens) (deliver d.value forms frames).frames
      (deliver d.value forms frames).forms := by
  induction h generalizing d with
  | forms ds =>
      have hds := MakesUp.forms (ds ++ [d])
      rw [Datum.tokensAll_append, Datum.tokensAll_singleton,
        Datum.values_append, List.reverse_append] at hds
      exact hds
  | @list ts frames forms h ds ih =>
      have hds := MakesUp.list h (ds ++ [d])
      rw [Datum.tokensAll_append, Datum.tokensAll_singleton,
        Datum.values_append, List.reverse_append, ← List.cons_append,
        ← List.append_assoc] at hds
      exact hds
  | mark h m ih =>
      have hd := ih (.marked m d)
      rw [Datum.tokens, Datum.value] at hd
      rw [List.append_assoc]
      exact hd

theorem makesUp_advance {ts : List Token} {p q : Progress} {t : Located}
    (h : MakesUp ts p.frames p.forms) (hq : advance p t = .ok q) :
    MakesUp (ts ++ [t.token]) q.frames q.forms := by
  have hatom : ∀ a : Atom, MakesUp (ts ++ [a.token])
      (deliver a.value p.forms p.frames).frames
      (deliver a.value p.forms p.frames).forms := by
    intro a
    have ha := makesUp_deliver h (.atom a)
    rw [Datum.tokens, Datum.value] at ha
    exact ha
  obtain ⟨t, s⟩ := t
  cases t with
  | opening => cases hq; exact .list h []
  | mark m => cases hq; exact .mark h m
  | closing =>
      obtain ⟨frames, forms⟩ := p
      cases h with
      | forms ds => cases hq
      | mark h m => cases hq
      | @list ts frames _ h ds =>
          cases hq
          have hlist := makesUp_deliver h (.list ds)
          rw [Datum.tokens, Datum.value, ← List.cons_append,
            ← List.append_assoc] at hlist
          rw [List.reverse_reverse]
          exact hlist
  | nil => cases hq; exact hatom .nil
  | bool b => cases hq; exact hatom (.bool b)
  | int n => cases hq; exact hatom (.int n)
  | float x => cases hq; exact hatom (.float x)
  | str s => cases hq; exact hatom (.str s)
  | symbol n => cases hq; exact hatom (.symbol n)

theorem makesUp_advanceAll {ts : List Token} {p q : Progress}
    {us : List Located} (h : MakesUp ts p.frames p.forms)
    (hq : advanceAll p us = .ok q) :
    MakesUp (ts ++ us.map (·.token)) q.frames q.forms := by
  induction us generalizing ts p with
  | nil =>
      cases hq
      rw [List.map_nil, List.append_nil]
      exact h
  | cons u us ih =>
      obtain ⟨p', hu, hus⟩ := exists_of_bind_eq_ok hq
      have hrest := ih (makesUp_advance h hu) hus
      rw [List.append_assoc] at hrest
      exact hrest

theorem makesUp_start {q : Progress} {ts : List Located}
    (h : advanceAll start ts = .ok q) :
    MakesUp (ts.map (·.token)) q.frames q.forms := by
  have hnone : MakesUp [] start.frames start.forms := .forms []
  exact makesUp_advanceAll hnone h

/-- What is open can be filled with any datum and closed. -/
theorem MakesUp.complete {ts : List Token} {frames : List Frame}
    {forms : List Value} (h : MakesUp ts frames forms) (d : Datum) :
    ∃ n ds, Datum.tokensAll ds =
      ts ++ (d.tokens ++ List.replicate n .closing) := by
  induction h generalizing d with
  | forms ds =>
      refine ⟨0, ds ++ [d], ?_⟩
      rw [Datum.tokensAll_append, Datum.tokensAll_singleton,
        List.replicate_zero, List.append_nil]
  | list h ds ih =>
      obtain ⟨n, es, hes⟩ := ih (.list (ds ++ [d]))
      refine ⟨n + 1, es, ?_⟩
      rw [hes, Datum.tokens, Datum.tokensAll_append, Datum.tokensAll_singleton,
        List.replicate_succ]
      simp
  | mark h m ih =>
      obtain ⟨n, es, hes⟩ := ih (.marked m d)
      refine ⟨n, es, ?_⟩
      rw [hes, Datum.tokens]
      simp

theorem derivation_of_parse {ts : List Located} {vs : List Value}
    (h : Value.parse ts = .ok vs) : ∃ d : Derivation ts, d.values = vs := by
  have hall := makesUp_start (parse_eq_ok_iff.1 h)
  generalize htokens : ts.map (·.token) = tokens at hall
  generalize hforms : vs.reverse = forms at hall
  cases hall with
  | forms ds =>
      refine ⟨⟨ds, htokens.symm⟩, ?_⟩
      exact (List.reverse_injective hforms).symm

theorem viable_of_advanceAll {ts : List Located} {q : Progress}
    (h : advanceAll start ts = .ok q) : Viable ts := by
  obtain ⟨n, ds, hds⟩ := (makesUp_start h).complete (.atom .nil)
  refine ⟨(Datum.tokens (.atom .nil) ++ List.replicate n Token.closing).map
    fun t => ⟨t, .point 0⟩, ⟨⟨ds, ?_⟩⟩⟩
  rw [hds, List.map_append, List.map_map]
  congr 1
  exact (List.map_id _).symm

theorem not_viable_of_advance {ts : List Located} {t : Located} {q : Progress}
    {e : ReadError} (h : advanceAll start ts = .ok q)
    (ht : advance q t = .error e) : ¬ Viable (ts ++ [t]) := by
  rintro ⟨more, ⟨d⟩⟩
  have hparse := parse_eq_ok_iff.1 (parse_of_derivation d)
  rw [Reader.advanceAll_append, Reader.advanceAll_append, h] at hparse
  obtain ⟨q', hq', -⟩ := exists_of_bind_eq_ok hparse
  change advanceAll q [t] = _ at hq'
  rw [advanceAll, ht] at hq'
  cases hq'

/-! ## Failure -/

/-- The ways to fail: with the first token that no program goes on with, or
at the end of what is no program but could become one. -/
theorem parse_fails {ts : List Located} {e : ReadError}
    (h : Value.parse ts = .error e) :
    (∃ k t, ts[k]? = some t ∧ t.token = .closing ∧ BreaksAt ts k ∧
      e = .strayClosing t.span) ∨
    (Viable ts ∧ IsEmpty (Derivation ts) ∧ e = .unfinished (stopOf 0 ts)) := by
  rcases parse_eq_error_iff.1 h with herr | ⟨q, hq, -, he⟩
  · obtain ⟨us, t, vs, q, rfl, hus, ht⟩ := Reader.advanceAll_eq_error herr
    obtain ⟨hclosing, he⟩ := Reader.advance_eq_error ht
    refine .inl ⟨us.length, t, by simp, hclosing, ⟨fun j hj => ?_, ?_⟩, he⟩
    · rw [List.take_append_of_le_length hj]
      exact (viable_of_advanceAll hus).take j
    · rw [List.take_length_add_append]
      exact not_viable_of_advance hus ht
  · refine .inr ⟨viable_of_advanceAll hq, ⟨fun d => ?_⟩, he⟩
    rw [parse_of_derivation d] at h
    cases h

/-- The reader accepts exactly what the grammar derives, in the one way that
the grammar derives it. It rejects what no program starts with at the first
token that shows this, always a closing parenthesis, and only what some
program starts with as unfinished. -/
theorem parse_follows_grammar (ts : List Located) :
    (∀ vs, Value.parse ts = .ok vs ↔ ∃ d : Derivation ts, d.values = vs) ∧
    Subsingleton (Derivation ts) ∧
    (∀ e, Value.parse ts = .error e ↔
      (∃ k t, ts[k]? = some t ∧ t.token = .closing ∧ BreaksAt ts k ∧
        e = .strayClosing t.span) ∨
      (Viable ts ∧ IsEmpty (Derivation ts) ∧
        e = .unfinished (stopOf 0 ts))) := by
  refine ⟨fun vs => ⟨derivation_of_parse, ?_⟩, subsingleton_derivation ts,
    fun e => ⟨parse_fails, fun he => ?_⟩⟩
  · rintro ⟨d, rfl⟩
    exact parse_of_derivation d
  · cases hparse : Value.parse ts with
    | ok vs =>
        obtain ⟨d, -⟩ := derivation_of_parse hparse
        rcases he with ⟨k, t, -, -, hk, -⟩ | ⟨-, hnone, -⟩
        · exact absurd (d.viable.take (k + 1)) hk.after
        · exact hnone.elim d
    | error e' =>
        rcases parse_fails hparse with
          ⟨k', t', ht', -, hk', rfl⟩ | ⟨hv', -, rfl⟩
        · rcases he with ⟨k, t, ht, -, hk, rfl⟩ | ⟨hv, -, -⟩
          · obtain rfl := hk.unique hk'
            rw [ht] at ht'
            cases ht'
            rfl
          · exact absurd (hv.take (k' + 1)) hk'.after
        · rcases he with ⟨k, t, -, -, hk, -⟩ | ⟨-, -, rfl⟩
          · exact absurd (hv'.take (k + 1)) hk.after
          · rfl

end SmallLisp
