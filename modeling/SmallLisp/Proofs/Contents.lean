import SmallLisp.Library

/-!
# What values hold

A value has other values inside it: the elements of a list, the forms in
the body of a lambda. Two sorts of parts matter to everything said about
stores. A lambda refers to the scope it was made in, and a symbol can be
evaluated. `Only` bounds both.

The builtins that compute from their operands alone make up neither: what
their answer holds was in an operand. They are looked at one by one,
through `Gives`, which says what an operation answers if it answers.
-/

namespace SmallLisp

/-! ## Parts -/

namespace Value

/-- `w` is `v` itself or a part of it, however deep. -/
inductive Within (w : Value) : Value → Prop where
  | refl : Within w w
  | item {v : Value} {items : List Value} (h : v ∈ items) (hw : Within w v) :
      Within w (.list items)
  | body {v : Value} {f : Lambda Value} (h : v ∈ f.body) (hw : Within w v) :
      Within w (.lambda f)

/-- The lambdas inside a value were made in scopes that `link` admits, and
the symbols inside it are admitted by `word`. -/
structure Only (link : ScopeId → Prop) (word : String → Prop)
    (v : Value) : Prop where
  scopes : ∀ f, Within (.lambda f) v → link f.scope
  words : ∀ n, Within (.symbol n) v → word n

variable {link link' : ScopeId → Prop} {word : String → Prop}

theorem Only.mono {v : Value} (hl : ∀ e, link e → link' e)
    (h : v.Only link word) : v.Only link' word :=
  ⟨fun f hf => hl _ (h.scopes f hf), h.words⟩

theorem only_list {items : List Value} :
    (list items).Only link word ↔ ∀ v ∈ items, v.Only link word := by
  constructor
  · intro h v hv
    exact ⟨fun f hf => h.scopes f (.item hv hf),
      fun n hn => h.words n (.item hv hn)⟩
  · intro h
    refine ⟨fun f hf => ?_, fun n hn => ?_⟩
    · cases hf with
      | item hv hf => exact (h _ hv).scopes f hf
    · cases hn with
      | item hv hn => exact (h _ hv).words n hn

theorem only_lambda {f : Lambda Value} :
    (lambda f).Only link word ↔
      link f.scope ∧ ∀ v ∈ f.body, v.Only link word := by
  constructor
  · intro h
    refine ⟨h.scopes f .refl, fun v hv => ?_⟩
    exact ⟨fun g hg => h.scopes g (.body hv hg),
      fun n hn => h.words n (.body hv hn)⟩
  · rintro ⟨hs, h⟩
    refine ⟨fun g hg => ?_, fun n hn => ?_⟩
    · cases hg with
      | refl => exact hs
      | body hv hg => exact (h _ hv).scopes g hg
    · cases hn with
      | body hv hn => exact (h _ hv).words n hn

theorem only_symbol {name : String} :
    (symbol name).Only link word ↔ word name := by
  constructor
  · intro h
    exact h.words name .refl
  · intro h
    refine ⟨fun f hf => ?_, fun n hn => ?_⟩
    · cases hf
    · cases hn with
      | refl => exact h

@[simp] theorem only_nil : nil.Only link word := ⟨nofun, nofun⟩

@[simp] theorem only_bool {b : Bool} : (bool b).Only link word := ⟨nofun, nofun⟩

@[simp] theorem only_int {n : Int64} : (int n).Only link word := ⟨nofun, nofun⟩

@[simp] theorem only_float {x : Float} : (float x).Only link word :=
  ⟨nofun, nofun⟩

@[simp] theorem only_str {s : String} : (str s).Only link word := ⟨nofun, nofun⟩

@[simp] theorem only_builtin {b : Builtin} : (builtin b).Only link word :=
  ⟨nofun, nofun⟩

end Value

/-! ## Answers -/

/-- If the operation answers, then with something that has the property. -/
def Gives {α : Type} (Q : α → Prop) (a : Answer α) : Prop :=
  ∀ r, a = .ok r → Q r

section Answers

variable {α β : Type} {P : α → Prop} {Q : β → Prop}

theorem gives_ok {b : β} (h : Q b) : Gives Q (.ok b) := by
  intro r hr
  cases hr
  exact h

theorem gives_error {a : Abort} : Gives Q (.error a) := by
  intro r hr
  cases hr

theorem gives_any {a : Answer α} : Gives (fun _ => True) a :=
  fun _ _ => trivial

theorem Gives.map {a : Answer α} {f : α → β} (h : Gives P a)
    (hf : ∀ x, P x → Q (f x)) : Gives Q (a.map f) := by
  cases a with
  | error e => exact gives_error
  | ok x => exact gives_ok (hf x (h x rfl))

theorem Gives.bind {a : Answer α} {f : α → Answer β} (h : Gives P a)
    (hf : ∀ x, P x → Gives Q (f x)) : Gives Q (a >>= f) := by
  cases a with
  | error e => exact gives_error
  | ok x => exact hf x (h x rfl)

theorem gives_mapM {f : α → Answer β} {xs : List α}
    (h : ∀ x ∈ xs, Gives Q (f x)) :
    Gives (fun ys => ∀ y ∈ ys, Q y) (xs.mapM f) := by
  induction xs with
  | nil =>
      rw [List.mapM_nil]
      refine gives_ok fun y hy => ?_
      cases hy
  | cons x xs ih =>
      rw [List.mapM_cons]
      refine (h x (by simp)).bind fun y hy => ?_
      refine (ih fun z hz => h z (by simp [hz])).bind fun ys hys => ?_
      refine gives_ok fun z hz => ?_
      rcases List.mem_cons.1 hz with rfl | hz
      · exact hy
      · exact hys z hz

end Answers

/-! ## The builtins that compute -/

section Builtins

variable {link : ScopeId → Prop} {word : String → Prop} {args : List Value}

theorem gives_operandList {v : Value} (h : v.Only link word) :
    Gives (fun items => ∀ w ∈ items, w.Only link word)
      (Operand.list v) := by
  cases v
  case list items => exact gives_ok (Value.only_list.1 h)
  all_goals exact gives_error

theorem gives_callable {v : Value} (h : v.Only link word) :
    Gives (Value.Only link word) (Operand.callable v) := by
  unfold Operand.callable
  split
  · exact gives_ok h
  · exact gives_error

theorem gives_intDiv :
    Gives (Value.Only link word) (Arithmetic.intDiv args) := by
  refine gives_any.bind fun ns _ => ?_
  split
  · exact gives_ok Value.only_int
  · exact gives_any.bind fun n _ => gives_ok Value.only_int
  · exact gives_any.bind fun n _ => gives_ok Value.only_int

theorem gives_intRem :
    Gives (Value.Only link word) (Arithmetic.intRem args) := by
  unfold Arithmetic.intRem
  split
  · refine gives_any.bind fun a _ => gives_any.bind fun b _ => ?_
    split
    · exact gives_error
    · exact gives_any.bind fun n _ => gives_ok Value.only_int
  · exact gives_error

theorem gives_abs :
    Gives (Value.Only link word) (Arithmetic.abs args) := by
  unfold Arithmetic.abs
  split
  · exact gives_ok Value.only_int
  · exact gives_ok Value.only_float
  · exact gives_error
  · exact gives_error

theorem gives_extremum {p : Int64 → Int64 → Bool} {q : Float → Float → Bool} :
    Gives (Value.Only link word) (Arithmetic.extremum p q args) := by
  unfold Arithmetic.extremum
  split
  · refine gives_any.map fun ns _ => ?_
    cases Arithmetic.best p ns <;> simp
  · refine gives_any.map fun xs _ => ?_
    cases Arithmetic.best q xs <;> simp

theorem gives_chain {accepts : Ordering → Bool} :
    Gives (Value.Only link word) (Comparison.chain accepts args) := by
  fun_induction Comparison.chain accepts args with
  | case1 v w rest ih =>
      refine gives_any.bind fun o _ => ?_
      split
      · split
        · exact ih
        · exact gives_ok Value.only_bool
      · exact gives_ok Value.only_bool
  | case2 => exact gives_ok Value.only_bool

theorem gives_notEqual :
    Gives (Value.Only link word) (Comparison.notEqual args) := by
  unfold Comparison.notEqual
  split
  · exact gives_ok Value.only_bool
  · exact gives_error

theorem gives_not :
    Gives (Value.Only link word) (Comparison.not args) := by
  unfold Comparison.not
  split
  · exact gives_ok Value.only_bool
  · exact gives_error

theorem gives_ask {question : Value → Bool} :
    Gives (Value.Only link word) (Inspection.ask question args) := by
  unfold Inspection.ask
  split
  · exact gives_ok Value.only_bool
  · exact gives_error

theorem gives_raise :
    Gives (Value.Only link word) (Inspection.raise args) := by
  unfold Inspection.raise
  split
  · exact gives_error
  · exact gives_error

theorem gives_typeOf :
    Gives (Value.Only link word) (Inspection.typeOf args) := by
  unfold Inspection.typeOf
  split
  · exact gives_ok Value.only_str
  · exact gives_error

theorem gives_toInt {v : Value} :
    Gives (Value.Only link word) (Conversion.toInt v) := by
  unfold Conversion.toInt
  split
  · exact gives_ok Value.only_int
  · exact gives_ok Value.only_int
  · exact gives_ok Value.only_int
  · split
    · exact gives_ok Value.only_int
    · exact gives_error
  · exact gives_error

theorem gives_toFloat {v : Value} :
    Gives (Value.Only link word) (Conversion.toFloat v) := by
  unfold Conversion.toFloat
  split
  · exact gives_ok Value.only_float
  · exact gives_ok Value.only_float
  · exact gives_ok Value.only_float
  · split
    · exact gives_ok Value.only_float
    · exact gives_error
  · exact gives_error

theorem gives_each {convert : Value → Answer Value}
    (h : ∀ v, Gives (Value.Only link word) (convert v)) :
    Gives (Value.Only link word) (Conversion.each convert args) := by
  unfold Conversion.each
  split
  · exact h _
  · exact (gives_mapM fun v _ => h v).map fun vs => Value.only_list.2

theorem gives_cons (h : ∀ v ∈ args, v.Only link word) :
    Gives (Value.Only link word) (Sequence.cons args) := by
  unfold Sequence.cons
  split
  · next v w =>
      refine (gives_operandList (h w (by simp))).map fun items hitems => ?_
      refine Value.only_list.2 fun u hu => ?_
      rcases List.mem_cons.1 hu with rfl | hu
      · exact h u (by simp)
      · exact hitems u hu
  · exact gives_error

theorem gives_conj (h : ∀ v ∈ args, v.Only link word) :
    Gives (Value.Only link word) (Sequence.conj args) := by
  unfold Sequence.conj
  split
  · next v more =>
      refine (gives_operandList (h v (by simp))).map fun items hitems => ?_
      refine Value.only_list.2 fun u hu => ?_
      rcases List.mem_append.1 hu with hu | hu
      · exact hitems u hu
      · exact h u (by simp [hu])
  · exact gives_error

theorem gives_concat (h : ∀ v ∈ args, v.Only link word) :
    Gives (Value.Only link word) (Sequence.concat args) := by
  unfold Sequence.concat
  split
  · exact gives_any.map fun texts _ => Value.only_str
  · refine (gives_mapM fun v hv => gives_operandList (h v hv)).map
      fun lists hlists => ?_
    refine Value.only_list.2 fun u hu => ?_
    obtain ⟨items, hitems, hu⟩ := List.mem_flatten.1 hu
    exact hlists items hitems u hu

/-- A list operand answered by some of its elements. -/
theorem gives_sublist {v : Value} {pick : List Value → List Value}
    (hpick : ∀ items, ∀ u ∈ pick items, u ∈ items)
    (h : v.Only link word) :
    Gives (Value.Only link word)
      ((Operand.list v).map fun items => Value.list (pick items)) :=
  (gives_operandList h).map fun items hitems =>
    Value.only_list.2 fun u hu => hitems u (hpick items u hu)

/-- A list operand answered by one of its elements, if there is one. -/
theorem gives_element {v : Value} {pick : List Value → Option Value}
    (hpick : ∀ items, ∀ u ∈ pick items, u ∈ items)
    (h : v.Only link word) :
    Gives (Value.Only link word)
      ((Operand.list v).map fun items => (pick items).getD .nil) := by
  refine (gives_operandList h).map fun items hitems => ?_
  cases hu : pick items with
  | none => exact Value.only_nil
  | some u => exact hitems u (hpick items u hu)

theorem gives_reverse (h : ∀ v ∈ args, v.Only link word) :
    Gives (Value.Only link word) (Sequence.reverse args) := by
  unfold Sequence.reverse
  split
  · exact gives_sublist (fun _ _ => List.mem_reverse.1) (h _ (by simp))
  · exact gives_error

theorem gives_rest (h : ∀ v ∈ args, v.Only link word) :
    Gives (Value.Only link word) (Sequence.rest args) := by
  unfold Sequence.rest
  split
  · exact gives_sublist (fun _ _ => List.mem_of_mem_tail) (h _ (by simp))
  · exact gives_error

theorem gives_upTo {stop : Nat} {items : List Value}
    (h : ∀ v ∈ items, v.Only link word) :
    Gives (fun front => ∀ v ∈ front, v.Only link word)
      (Sequence.upTo stop items) := by
  unfold Sequence.upTo
  split
  · exact gives_ok fun v hv => h v (List.mem_of_mem_take hv)
  · exact gives_error

theorem gives_init (h : ∀ v ∈ args, v.Only link word) :
    Gives (Value.Only link word) (Sequence.init args) := by
  unfold Sequence.init
  split
  · refine (gives_operandList (h _ (by simp))).bind fun items hitems => ?_
    refine (gives_upTo hitems).bind fun front hfront => ?_
    exact gives_ok (Value.only_list.2 hfront)
  · exact gives_error

theorem gives_first (h : ∀ v ∈ args, v.Only link word) :
    Gives (Value.Only link word) (Sequence.first args) := by
  unfold Sequence.first
  split
  · exact gives_element (fun _ _ => List.mem_of_mem_head?) (h _ (by simp))
  · exact gives_error

theorem gives_last (h : ∀ v ∈ args, v.Only link word) :
    Gives (Value.Only link word) (Sequence.last args) := by
  unfold Sequence.last
  split
  · exact gives_element (fun _ _ => List.mem_of_getLast?) (h _ (by simp))
  · exact gives_error

theorem gives_nth (h : ∀ v ∈ args, v.Only link word) :
    Gives (Value.Only link word) (Sequence.nth args) := by
  unfold Sequence.nth
  split
  · refine (gives_operandList (h _ (by simp))).bind fun items hitems => ?_
    refine gives_any.bind fun index _ => ?_
    dsimp only
    split
    · next u hu =>
        refine gives_ok (hitems u ?_)
        split at hu
        · cases hu
        · exact List.mem_of_getElem? hu
    · exact gives_error
  · exact gives_error

theorem gives_len :
    Gives (Value.Only link word) (Sequence.len args) := by
  unfold Sequence.len
  split
  · exact gives_ok Value.only_int
  · exact gives_error

theorem only_rangeFrom {found : List Value} {n stop step : Int64}
    (h : ∀ v ∈ found, v.Only link word) :
    ∀ v ∈ Sequence.rangeFrom found n stop step, v.Only link word := by
  fun_induction Sequence.rangeFrom found n stop step with
  | case1 found n hb next hnext ih =>
      refine ih fun v hv => ?_
      rcases List.mem_cons.1 hv with rfl | hv
      · exact Value.only_int
      · exact h v hv
  | case2 found n hb hnext =>
      intro v hv
      rcases List.mem_cons.1 (List.mem_reverse.1 hv) with rfl | hv
      · exact Value.only_int
      · exact h v hv
  | case3 found n hb =>
      intro v hv
      exact h v (List.mem_reverse.1 hv)

theorem gives_range :
    Gives (Value.Only link word) (Sequence.range args) := by
  refine gives_any.bind fun ns _ => ?_
  split
  · split
    · exact gives_error
    · exact gives_ok (Value.only_list.2 (only_rangeFrom nofun))
  · exact gives_error

theorem gives_split :
    Gives (Value.Only link word) (Sequence.split args) := by
  unfold Sequence.split
  split
  · refine gives_any.bind fun text _ => gives_any.bind fun sep _ => ?_
    refine gives_ok (Value.only_list.2 fun v hv => ?_)
    obtain ⟨piece, _, rfl⟩ := List.mem_map.1 hv
    exact Value.only_str
  · exact gives_error

theorem gives_join :
    Gives (Value.Only link word) (Sequence.join args) := by
  unfold Sequence.join
  split
  · exact gives_any.bind fun items _ => gives_any.bind fun sep _ =>
      gives_ok Value.only_str
  · exact gives_error

end Builtins

end SmallLisp
