import SmallLisp.Proofs.Lexing
import SmallLisp.Value.Printer
import SmallLisp.Value.Reader

/-!
# Data read back from their written form

What is shown to the user can be typed in again. For data without
functions this holds without exception (`read_text`): the written form
of a datum is read as one form, and that form is the datum.

Two scans have to agree. The lexer must find the tokens that the printer
had in mind, which it does because the printer puts a space or a closing
parenthesis behind every atom; and the reader must nest them the way they
were nested, which it does because a datum leaves the open forms around it
alone. `Spells` says the second of a stretch of tokens, and
`scans_datum` finds such a stretch for every datum in front of
everything that may follow it. One induction over the datum carries both.

The converse bounds what reading can produce (`isDatum_of_read`): nothing
but data, whose names all come from single words.
-/

namespace SmallLisp

open Token (IsName IsWord Delimited Located scanFrom)
open Text (width)

/-! ## Data -/

/-- A value without functions, whose names are names and whose floats are
admitted. -/
inductive Value.IsDatum (admits : Float → Prop) : Value → Prop where
  | nil : IsDatum admits .nil
  | bool (b : Bool) : IsDatum admits (.bool b)
  | int (n : Int64) : IsDatum admits (.int n)
  | float {x : Float} (h : admits x) : IsDatum admits (.float x)
  | str (s : String) : IsDatum admits (.str s)
  | symbol {name : String} (h : IsName name) : IsDatum admits (.symbol name)
  | list {items : List Value} (h : ∀ v ∈ items, IsDatum admits v) :
      IsDatum admits (.list items)

/-! ## The printer -/

namespace Value

mutual

theorem toList_write (out : String) (v : Value) :
    (v.write out).toList = out.toList ++ v.text.toList := by
  match v with
  | nil | bool _ | int _ | float _ | str _ | symbol _ | list [] | lambda _ =>
      simp [text, write]
  | builtin b => simp [text, write]
  | list (v :: vs) =>
      rw [text, write, write, String.toList_push, String.toList_push,
        toList_writeRest _ vs, toList_writeRest _ vs, toList_write _ v,
        toList_write _ v]
      simp

theorem toList_writeRest (out : String) (vs : List Value) :
    (writeRest out vs).toList =
      out.toList ++ vs.flatMap fun v => ' ' :: v.text.toList := by
  match vs with
  | [] => simp [writeRest]
  | v :: vs =>
      rw [writeRest, toList_writeRest _ vs, toList_write _ v]
      simp

end

theorem toList_text_cons (v : Value) (vs : List Value) :
    (list (v :: vs)).text.toList =
      '(' :: (v.text.toList ++
        ((vs.flatMap fun w => ' ' :: w.text.toList) ++ [')'])) := by
  rw [text, write, String.toList_push, toList_writeRest, toList_write]
  simp

end Value

/-! ## The reader -/

/-- Tokens that the reader takes for the value `v`, wherever it meets
them. -/
def Spells (ts : List Located) (v : Value) : Prop :=
  ∀ (p : Reader.Progress) (last : Nat) (more : List Located), ∃ last',
    Reader.parseFrom p last (ts ++ more) =
      Reader.parseFrom (Reader.deliver v p.forms p.frames) last' more

theorem parseFrom_cons {p q : Reader.Progress} {last : Nat} {t : Located}
    {ts : List Located} (h : Reader.advance p t = .ok q) :
    Reader.parseFrom p last (t :: ts) = Reader.parseFrom q t.span.stop ts := by
  rw [Reader.parseFrom, h]

/-- Tokens that add the given values to the innermost open list. -/
def SpellsAll (ts : List Located) (vs : List Value) : Prop :=
  ∀ (items : List Value) (frames : List Reader.Frame) (forms : List Value)
    (last : Nat) (more : List Located), ∃ last',
    Reader.parseFrom ⟨.list items :: frames, forms⟩ last (ts ++ more) =
      Reader.parseFrom ⟨.list (vs.reverse ++ items) :: frames, forms⟩ last'
        more

theorem spellsAll_nil : SpellsAll [] [] := by
  intro items frames forms last more
  exact ⟨last, rfl⟩

theorem spellsAll_cons {ts us : List Located} {v : Value} {vs : List Value}
    (ht : Spells ts v) (hu : SpellsAll us vs) :
    SpellsAll (ts ++ us) (v :: vs) := by
  intro items frames forms last more
  obtain ⟨last', ht⟩ := ht ⟨.list items :: frames, forms⟩ last (us ++ more)
  obtain ⟨last'', hu⟩ := hu (v :: items) frames forms last' more
  refine ⟨last'', ?_⟩
  rw [List.append_assoc, ht, Reader.deliver, hu]
  simp

theorem spells_list {ts : List Located} {vs : List Value}
    (s s' : Text.Span) (h : SpellsAll ts vs) :
    Spells (⟨.opening, s⟩ :: (ts ++ [⟨.closing, s'⟩])) (.list vs) := by
  intro p last more
  obtain ⟨last', h⟩ := h [] p.frames p.forms s.stop (⟨.closing, s'⟩ :: more)
  refine ⟨s'.stop, ?_⟩
  have hopen : Reader.advance p ⟨.opening, s⟩ =
      .ok ⟨.list [] :: p.frames, p.forms⟩ := rfl
  have hclose : Reader.advance ⟨.list (vs.reverse ++ []) :: p.frames, p.forms⟩
      ⟨.closing, s'⟩ = .ok (Reader.deliver (.list vs) p.forms p.frames) := by
    simp [Reader.advance]
  rw [List.cons_append, parseFrom_cons hopen, List.append_assoc,
    List.singleton_append, h, parseFrom_cons hclose]

/-! ## Scanning what was printed -/

/-- In front of whatever may follow it, the written form of `v` is scanned
as tokens that spell `v`. -/
def Scans (v : Value) : Prop :=
  ∀ (rest : List Char), Delimited rest → ∀ pos : Nat, ∃ ts, Spells ts v ∧
    ∀ found, scanFrom found pos (v.text.toList ++ rest) =
      scanFrom (ts.reverse ++ found) (pos + width v.text.toList) rest

theorem spells_atom {t : Token} {v : Value} (s : Text.Span)
    (h : ∀ p, Reader.advance p ⟨t, s⟩ =
      .ok (Reader.deliver v p.forms p.frames)) :
    Spells [⟨t, s⟩] v := by
  intro p last more
  exact ⟨s.stop, parseFrom_cons (h p)⟩

theorem scans_word {t : Token} {v : Value} (hw : IsWord t v.text.toList)
    (h : ∀ p s, Reader.advance p ⟨t, s⟩ =
      .ok (Reader.deliver v p.forms p.frames)) : Scans v := by
  intro rest hrest pos
  refine ⟨[⟨t, ⟨pos, pos + width v.text.toList⟩⟩], spells_atom _ fun p => h p _,
    fun found => ?_⟩
  exact Token.scanFrom_word hw hrest

theorem scans_str (s : String) : Scans (.str s) := by
  intro rest hrest pos
  have htext : (Value.str s).text.toList = (Text.quote s).toList := by
    simp [Value.text, Value.write]
  rw [htext]
  exact ⟨[⟨.str s, ⟨pos, pos + width (Text.quote s).toList⟩⟩],
    spells_atom _ fun _ => rfl, fun found => Token.scanFrom_quote⟩

theorem scanFrom_opening {found : List Located} {pos : Nat}
    {rest : List Char} :
    scanFrom found pos ('(' :: rest) =
      scanFrom (⟨.opening, ⟨pos, pos + 1⟩⟩ :: found) (pos + 1) rest := by
  have hlex : Token.lexeme '(' rest = .token .opening ['('] rest := rfl
  exact Token.scanFrom_token rfl (by decide) hlex

theorem scanFrom_closing {found : List Located} {pos : Nat}
    {rest : List Char} :
    scanFrom found pos (')' :: rest) =
      scanFrom (⟨.closing, ⟨pos, pos + 1⟩⟩ :: found) (pos + 1) rest := by
  have hlex : Token.lexeme ')' rest = .token .closing [')'] rest := rfl
  exact Token.scanFrom_token rfl (by decide) hlex

theorem scanFrom_space {found : List Located} {pos : Nat} {rest : List Char} :
    scanFrom found pos (' ' :: rest) = scanFrom found (pos + 1) rest :=
  Token.scanFrom_layout rfl

theorem delimited_rest (vs : List Value) (rest : List Char) :
    Delimited ((vs.flatMap fun v => ' ' :: v.text.toList) ++ ')' :: rest) := by
  cases vs with
  | nil => exact Token.delimited_cons (by decide) (by decide)
  | cons v vs => exact Token.delimited_cons (by decide) (by decide)

/-- The elements behind the first, up to the closing parenthesis. -/
theorem scanFrom_writeRest {vs : List Value} (h : ∀ v ∈ vs, Scans v)
    (rest : List Char) :
    ∀ pos : Nat, ∃ ts, SpellsAll ts vs ∧ ∀ found,
      scanFrom found pos
          ((vs.flatMap fun v => ' ' :: v.text.toList) ++ ')' :: rest) =
        scanFrom (ts.reverse ++ found)
          (pos + width (vs.flatMap fun v => ' ' :: v.text.toList))
          (')' :: rest) := by
  induction vs with
  | nil =>
      intro pos
      exact ⟨[], spellsAll_nil, fun found => rfl⟩
  | cons v vs ih =>
      intro pos
      obtain ⟨ts, hts, hscan⟩ := h v (by simp) _ (delimited_rest vs rest)
        (pos + 1)
      obtain ⟨us, hus, hscans⟩ := ih (fun w hw => h w (by simp [hw]))
        (pos + 1 + width v.text.toList)
      refine ⟨ts ++ us, spellsAll_cons hts hus, fun found => ?_⟩
      rw [List.flatMap_cons, List.append_assoc, List.cons_append,
        scanFrom_space, hscan, hscans, Text.width_append, Text.width_cons,
        List.reverse_append, List.append_assoc]
      congr 1
      show _ = pos + (1 + width v.text.toList + _)
      omega

theorem scans_list {vs : List Value} (h : ∀ v ∈ vs, Scans v) :
    Scans (.list vs) := by
  intro rest hrest pos
  cases vs with
  | nil =>
      refine ⟨[⟨.opening, ⟨pos, pos + 1⟩⟩, ⟨.closing, ⟨pos + 1, pos + 1 + 1⟩⟩],
        spells_list _ _ spellsAll_nil, fun found => ?_⟩
      show scanFrom found pos ('(' :: ')' :: rest) = _
      rw [scanFrom_opening, scanFrom_closing]
      rfl
  | cons v vs =>
      obtain ⟨ts, hts, hscan⟩ := h v (by simp) _ (delimited_rest vs rest)
        (pos + 1)
      have hvs : ∀ w ∈ vs, Scans w := fun w hw => h w (by simp [hw])
      obtain ⟨us, hus, hscans⟩ :=
        scanFrom_writeRest hvs rest (pos + 1 + width v.text.toList)
      obtain ⟨stop, hstop⟩ : ∃ stop, stop = pos + 1 + width v.text.toList +
        width (vs.flatMap fun w => ' ' :: w.text.toList) := ⟨_, rfl⟩
      rw [← hstop] at hscans
      have hwidth : pos + width (Value.list (v :: vs)).text.toList =
          stop + 1 := by
        have hparens : '('.utf8Size = 1 ∧ ')'.utf8Size = 1 := by decide
        rw [Value.toList_text_cons, Text.width_cons, Text.width_append,
          Text.width_append, Text.width_cons, Text.width_nil]
        omega
      refine ⟨⟨.opening, ⟨pos, pos + 1⟩⟩ ::
          (ts ++ us ++ [⟨.closing, ⟨stop, stop + 1⟩⟩]),
        spells_list _ _ (spellsAll_cons hts hus), fun found => ?_⟩
      rw [hwidth, Value.toList_text_cons, List.cons_append, List.append_assoc,
        List.append_assoc, List.singleton_append, scanFrom_opening, hscan,
        hscans, scanFrom_closing]
      simp

/-- The two scans agree on every datum. -/
theorem scans_datum {v : Value}
    (h : v.IsDatum fun x => x.isNaN = false) : Scans v := by
  induction h with
  | nil => exact scans_word Token.isWord_nil fun _ _ => rfl
  | bool b =>
      have hw : IsWord (.bool b) (Value.bool b).text.toList := by
        simpa [Value.text, Value.write] using Token.isWord_bool b
      exact scans_word hw fun _ _ => rfl
  | int n =>
      have hw : IsWord (.int n) (Value.int n).text.toList := by
        simpa [Value.text, Value.write] using Token.isWord_int n
      exact scans_word hw fun _ _ => rfl
  | @float x hx =>
      have hw : IsWord (.float x) (Value.float x).text.toList := by
        simpa [Value.text, Value.write] using Token.isWord_float hx
      exact scans_word hw fun _ _ => rfl
  | str s => exact scans_str s
  | @symbol name hn =>
      have hw : IsWord (.symbol name) (Value.symbol name).text.toList := by
        simpa [Value.text, Value.write] using Token.isWord_of_isName hn
      exact scans_word hw fun _ _ => rfl
  | list _ ih => exact scans_list ih

theorem read_text {v : Value} (h : v.IsDatum fun x => x.isNaN = false) :
    Value.read v.text = .ok [v] := by
  obtain ⟨ts, hspell, hscan⟩ := scans_datum h [] Token.delimited_nil 0
  have htokens : Token.scan v.text = .ok ts := by
    have hall := hscan []
    rw [List.append_nil] at hall
    rw [Token.scan, hall, scanFrom]
    simp
  obtain ⟨last, hparse⟩ := hspell ⟨[], []⟩ 0 []
  rw [List.append_nil] at hparse
  rw [Value.read, htokens]
  show Value.parse ts = _
  rw [Value.parse, hparse]
  rfl

/-! ## Equality -/

mutual

theorem same_self {v : Value} (h : v.IsDatum fun x => x.isNaN = false) :
    v.same v = true := by
  match v, h with
  | .nil, _ => rfl
  | .bool b, _ => simp [Value.same]
  | .int n, _ => simp [Value.same]
  | .float x, .float hx => rw [Value.same]; exact Binary64.beq_self hx
  | .str s, _ => simp [Value.same]
  | .symbol n, _ => simp [Value.same]
  | .list vs, .list hvs => rw [Value.same]; exact sameAll_self hvs

theorem sameAll_self {vs : List Value}
    (h : ∀ v ∈ vs, v.IsDatum fun x => x.isNaN = false) :
    Value.sameAll vs vs = true := by
  match vs with
  | [] => rfl
  | v :: vs =>
      rw [Value.sameAll, same_self (h v (by simp)),
        sameAll_self fun w hw => h w (by simp [hw])]
      rfl

end

/-! ## What reading can produce -/

theorem isName_mark (m : QuoteMark) : IsName m.name := by
  have h : IsWord (.symbol m.name) m.name.toList := by
    cases m with
    | quote => exact Token.isWord_of_all (by decide) (by decide) rfl
    | quasiquote => exact Token.isWord_of_all (by decide) (by decide) rfl
    | unquote => exact Token.isWord_of_all (by decide) (by decide) rfl
    | splice => exact Token.isWord_of_all (by decide) (by decide) rfl
  exact Token.isName_of_isWord h

/-- The elements that an open form has so far. -/
def Reader.Frame.items : Reader.Frame → List Value
  | .list items => items
  | .mark _ => []

/-- A reader that has met nothing but data. -/
structure Reader.Progress.HoldsData (p : Reader.Progress) : Prop where
  forms : ∀ v ∈ p.forms, v.IsDatum fun _ => True
  frames : ∀ f ∈ p.frames, ∀ v ∈ f.items, v.IsDatum fun _ => True

theorem holdsData_deliver {v : Value} {frames : List Reader.Frame}
    {forms : List Value} (hv : v.IsDatum fun _ => True)
    (hp : Reader.Progress.HoldsData ⟨frames, forms⟩) :
    (Reader.deliver v forms frames).HoldsData := by
  induction frames generalizing v with
  | nil =>
      refine ⟨fun w hw => ?_, hp.frames⟩
      rcases List.mem_cons.1 hw with rfl | hw
      · exact hv
      · exact hp.forms w hw
  | cons f frames ih =>
      cases f with
      | list items =>
          refine ⟨hp.forms, fun f hf w hw => ?_⟩
          rcases List.mem_cons.1 hf with rfl | hf
          · rcases List.mem_cons.1 hw with rfl | hw
            · exact hv
            · exact hp.frames (.list items) (by simp) w hw
          · exact hp.frames f (by simp [hf]) w hw
      | mark m =>
          refine ih (.list fun w hw => ?_)
            ⟨hp.forms, fun f hf => hp.frames f (by simp [hf])⟩
          rcases List.mem_cons.1 hw with rfl | hw
          · exact .symbol (isName_mark m)
          · rw [List.mem_singleton.1 hw]
            exact hv

theorem holdsData_open {p : Reader.Progress} {f : Reader.Frame}
    (hp : p.HoldsData) (hf : f.items = []) :
    Reader.Progress.HoldsData ⟨f :: p.frames, p.forms⟩ := by
  refine ⟨hp.forms, fun g hg v hv => ?_⟩
  rcases List.mem_cons.1 hg with rfl | hg
  · rw [hf] at hv
    cases hv
  · exact hp.frames g hg v hv

theorem holdsData_advance {p q : Reader.Progress} {t : Located}
    (hp : p.HoldsData) (ht : ∀ n, t.token = .symbol n → IsName n)
    (h : Reader.advance p t = .ok q) : q.HoldsData := by
  unfold Reader.advance at h
  split at h
  · cases h; exact holdsData_open hp rfl
  · cases h; exact holdsData_open hp rfl
  · split at h
    · next items frames hframes =>
        cases h
        have hitems := hp.frames (.list items) (by rw [hframes]; simp)
        refine holdsData_deliver (.list fun v hv => ?_)
          ⟨hp.forms, fun f hf => hp.frames f (by rw [hframes]; simp [hf])⟩
        exact hitems v (List.mem_reverse.1 hv)
    · cases h
  · cases h; exact holdsData_deliver .nil hp
  · cases h; exact holdsData_deliver (.bool _) hp
  · cases h; exact holdsData_deliver (.int _) hp
  · cases h; exact holdsData_deliver (.float trivial) hp
  · cases h; exact holdsData_deliver (.str _) hp
  · next n hn => cases h; exact holdsData_deliver (.symbol (ht n hn)) hp

theorem isDatum_of_parseFrom {ts : List Located} {p : Reader.Progress}
    {last : Nat} {forms : List Value} (hp : p.HoldsData)
    (hts : ∀ t ∈ ts, ∀ n, t.token = .symbol n → IsName n)
    (h : Reader.parseFrom p last ts = .ok forms) :
    ∀ v ∈ forms, v.IsDatum fun _ => True := by
  induction ts generalizing p last with
  | nil =>
      rw [Reader.parseFrom] at h
      split at h
      · cases h
        exact fun v hv => hp.forms v (List.mem_reverse.1 hv)
      · cases h
  | cons t ts ih =>
      rw [Reader.parseFrom] at h
      split at h
      · next q hq =>
          exact ih (holdsData_advance hp (hts t (by simp)) hq)
            (fun u hu => hts u (by simp [hu])) h
      · cases h

theorem isDatum_of_read {source : String} {forms : List Value}
    (h : Value.read source = .ok forms) :
    ∀ v ∈ forms, v.IsDatum fun _ => True := by
  rw [Value.read] at h
  cases hscan : Token.scan source with
  | error e => rw [hscan] at h; cases h
  | ok ts =>
      rw [hscan] at h
      exact isDatum_of_parseFrom ⟨by simp, by simp⟩
        (fun t ht n hn => Token.isName_of_scan hscan ht hn) h

/-- The written form of a datum without values that are no number is read
as one form, which is that datum and equal to it; and reading produces
nothing but data. -/
theorem data_roundTrip :
    (∀ v : Value, (v.IsDatum fun x => x.isNaN = false) →
      Value.read v.text = .ok [v] ∧ (v == v) = true) ∧
    (∀ (source : String) (forms : List Value),
      Value.read source = .ok forms →
        ∀ v ∈ forms, v.IsDatum fun _ => True) :=
  ⟨fun _ h => ⟨read_text h, same_self h⟩, fun _ _ h => isDatum_of_read h⟩

/-- A datum with everything that could go wrong in it: a symbol that starts
like a number, the least integer, infinity, and a text full of escapes. -/
def hardDatum : Value :=
  .list [.symbol "1+", .int (-9223372036854775808),
    .float (Binary64.ofMagnitude true Binary64.infinity),
    .list [.str "a\"b\\n\n\x00é", .list [], .nil], .bool false]

theorem hardDatum_isDatum : hardDatum.IsDatum fun x => x.isNaN = false := by
  have hword : IsWord (.symbol "1+") ['1', '+'] :=
    Token.isWord_of_all (by decide) (by decide) rfl
  refine .list fun v hv => ?_
  simp only [List.mem_cons, List.not_mem_nil, or_false] at hv
  rcases hv with rfl | rfl | rfl | rfl | rfl
  · exact .symbol (Token.isName_of_isWord hword)
  · exact .int _
  · exact .float (by decide)
  · refine .list fun w hw => ?_
    simp only [List.mem_cons, List.not_mem_nil, or_false] at hw
    rcases hw with rfl | rfl | rfl
    · exact .str _
    · exact .list (by simp)
    · exact .nil
  · exact .bool false

theorem hardDatum_roundTrip :
    Value.read hardDatum.text = .ok [hardDatum] ∧
      (hardDatum == hardDatum) = true ∧ hardDatum.IsDatum fun _ => True := by
  obtain ⟨hread, hself⟩ := data_roundTrip.1 hardDatum hardDatum_isDatum
  exact ⟨hread, hself, data_roundTrip.2 _ _ hread hardDatum (by simp)⟩

end SmallLisp
