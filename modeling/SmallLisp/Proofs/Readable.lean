import SmallLisp.Proofs.Sessions

/-!
# Answers can be typed in again

Programs take lists apart and put them together, and the result may be
shown to the user or evaluated in its turn. Since symbols are only ever
passed on, those that a session meets all come from texts that were read.
No operation makes a symbol out of a text, nor a new symbol out of others;
one that did would make data that cannot be written.

So the symbols in a store that a session reaches, in the bodies of its
functions too, and those in its answers are names, each of them a token.
An answer without functions is then a datum, and what holds of data holds
of it: its written form is read as one form, equal to the answer. Only a
float that is no number is not equal to anything.
-/

namespace SmallLisp

open Token (IsName)

/-- A value without functions whose symbols are names is a datum. -/
theorem Value.isDatum_of_within {admits : Float → Prop} {v : Value}
    (hname : ∀ n, (symbol n).Within v → IsName n)
    (hdata : ∀ w : Value, w.Within v → w.isCallable = false)
    (hfloat : ∀ x, (float x).Within v → admits x) : v.IsDatum admits := by
  match v with
  | .nil => exact .nil
  | .bool b => exact .bool b
  | .int n => exact .int n
  | .float x => exact .float (hfloat x .refl)
  | .str s => exact .str s
  | .symbol n => exact .symbol (hname n .refl)
  | .builtin b => cases hdata _ .refl
  | .lambda f => cases hdata _ .refl
  | .list items =>
      refine .list fun w hw => isDatum_of_within ?_ ?_ ?_
      · exact fun n hn => hname n (.item hw hn)
      · exact fun u hu => hdata u (.item hw hu)
      · exact fun x hx => hfloat x (.item hw hx)

/-! ## The discipline -/

/-- The symbols in the store and in what comes up are names. -/
def naming : Discipline where
  word := IsName
  holds s := ∀ i name v, s.Binds i name v → v.Only (fun _ => True) IsName
  grows _ _ := True
  link _ _ := True
  home _ _ := True
  grows_refl _ := trivial
  grows_trans _ _ := trivial
  link_mono _ _ _ := trivial
  home_mono _ _ _ := trivial
  link_of_home _ := trivial
  addScope := by
    intro s e hs _
    refine ⟨fun i name v hv => ?_, trivial, trivial⟩
    exact hs i name v (Store.binds_of_addScope hv)
  define hs _ hv := ⟨Store.forall_binds_define hs hv, trivial⟩
  assign := by
    intro s e name v s' _ hs _ hv h
    obtain ⟨owner, rfl⟩ := Store.exists_define_of_assign h
    exact ⟨Store.forall_binds_define hs hv, trivial⟩
  get := by
    intro s e name v hs _ h
    obtain ⟨i, hb⟩ := Store.exists_binds_of_get? h
    exact hs i name v hb
  newLambda hs := ⟨hs, trivial⟩

theorem naming_starts : naming.Starts where
  word _ hn := hn
  holds := by
    intro i name v hv
    obtain ⟨b, rfl⟩ := Session.builtin_of_binds_fresh hv
    exact Value.only_builtin
  home := trivial

/-! ## Sessions -/

/-- The symbols in the values that a session binds or answers are names,
and the written form of an answer that holds neither a function nor a
float that is no number is read as one form, equal to the answer. -/
theorem answers_read_back {s : Store} (h : Session.Reached s) :
    (∀ i name v, s.Binds i name v →
      ∀ n, (Value.symbol n).Within v → IsName n) ∧
    ∀ v, Session.Answered s v →
      (∀ n, (Value.symbol n).Within v → IsName n) ∧
      ((∀ w : Value, w.Within v → w.isCallable = false) →
        (∀ x, (Value.float x).Within v → x.isNaN = false) →
        Value.read v.text = .ok [v] ∧ (v == v) = true) := by
  refine ⟨fun i name v hv => ?_, fun v hv => ?_⟩
  · exact ((naming_starts.kept_of_reached h).1 i name v hv).words
  · have hname := (naming_starts.good_of_answered hv).words
    refine ⟨hname, fun hdata hfloat => ?_⟩
    have hdatum := Value.isDatum_of_within hname hdata hfloat
    exact ⟨read_text hdatum, same_self hdatum⟩

/-- A template with a list spliced into it. -/
def splicing : Value :=
  .tagged .quasiquote (.list [.symbol "1+",
    .tagged .splice (.tagged .quote (.list [.symbol "n", .str "\""]))])

/-- What the template comes to. -/
def spliced : Value :=
  .list [.symbol "1+", .symbol "n", .str "\""]

theorem splicing_isDatum {admits : Float → Prop} :
    splicing.IsDatum admits := by
  have hmark : ∀ (m : QuoteMark) {v : Value}, v.IsDatum admits →
      (Value.tagged m v).IsDatum admits := fun m v hv =>
    .list (by simp [hv, Value.IsDatum.symbol (isName_mark m)])
  have hname : ∀ n ∈ ["1+", "n"], (Value.symbol n).IsDatum admits := by
    intro n hn
    suffices hw : Token.IsWord (.symbol n) n.toList from
      .symbol (Token.isName_of_isWord hw)
    simp only [List.mem_cons, List.not_mem_nil, or_false] at hn
    rcases hn with rfl | rfl
    all_goals exact Token.isWord_of_all (by decide) (by decide) rfl
  simp only [List.forall_mem_cons] at hname
  have hlist : (Value.list [.symbol "n", .str "\""]).IsDatum admits :=
    .list (by simp [hname, Value.IsDatum.str])
  have hsplice := hmark .splice (hmark .quote hlist)
  exact hmark .quasiquote (.list (by simp [hname, hsplice]))

theorem spliced_answered (st : State) (h : Session.Reached st.store) :
    Session.Answered st.store spliced :=
  .form h (read_text splicing_isDatum) (List.mem_singleton_self _) 3 rfl

theorem spliced_reads_back :
    Session.Answered Session.fresh.store spliced ∧
      Value.read spliced.text = .ok [spliced] := by
  have hanswered := spliced_answered Session.fresh .fresh
  refine ⟨hanswered, ?_⟩
  have hparts : ∀ w, w.Within spliced →
      w = spliced ∨ w ∈ [.symbol "1+", .symbol "n", .str "\""] := by
    intro w hw
    cases hw with
    | refl => exact .inl rfl
    | item hv hw =>
        refine .inr ?_
        simp only [List.mem_cons, List.not_mem_nil, or_false] at hv
        rcases hv with rfl | rfl | rfl
        all_goals
          cases hw
          simp
  obtain ⟨-, hread⟩ :=
    (answers_read_back hanswered.reached).2 spliced hanswered
  refine (hread (fun w hw => ?_) fun x hx => ?_).1
  · rcases hparts w hw with rfl | hw
    · rfl
    · simp only [List.mem_cons, List.not_mem_nil, or_false] at hw
      rcases hw with rfl | rfl | rfl <;> rfl
  · rcases hparts _ hx with heq | hx
    · cases heq
    · simp at hx

end SmallLisp
