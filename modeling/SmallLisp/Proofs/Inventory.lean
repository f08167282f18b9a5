import Mathlib.Data.List.Nodup
import SmallLisp.Proofs.Scoping
import SmallLisp.Proofs.Sessions

/-!
# What the user has changed

A session can list those bindings of its root scope that are the user's
own. It keeps no record of them. A builtin under its own name is taken to be
the library's binding and left out; whatever else the root scope binds is
listed.

This comes to the same as asking what has changed since the session was
fresh. No two builtins share a name, so a builtin under its own name is the
one that was bound there at the start, and an alias of it is not. And no
evaluation takes a name away from a scope, so what the library has bound
stays bound, to whatever value: that is had from `Scoping.lean`, for a
program that may assign and define wherever it likes.

The names are listed in the order of their characters. That this is the
order of their bytes has to do with how characters are encoded
(`utf8_lt_utf8`): more bytes begin with a greater one, and among as many
bytes the digits of the character stand from front to back.
-/

namespace SmallLisp

/-! ## The order of bytes -/

/-- The bytes of a text. -/
def utf8 (text : String) : List UInt8 :=
  text.toUTF8.data.toList

theorem utf8_eq_flatMap (text : String) :
    utf8 text = text.toList.flatMap String.utf8EncodeChar := by
  rw [utf8, String.toUTF8_eq_toByteArray, ← String.utf8Encode_toList,
    List.utf8Encode, List.data_toByteArray, List.toList_toArray]

theorem ofNat_cons_lt {a b : Nat} {r r' : List UInt8} (hb : b < 256)
    (h : a < b ∨ a = b ∧ r < r') :
    UInt8.ofNat a :: r < UInt8.ofNat b :: r' := by
  rw [List.cons_lt_cons_iff]
  rcases h with h | ⟨rfl, h⟩
  · left
    rw [UInt8.lt_iff_toNat_lt, UInt8.toNat_ofNat', UInt8.toNat_ofNat']
    omega
  · exact .inr ⟨rfl, h⟩

/-- A byte with the last digit of a number decides once the digits in front
agree, and what follows decides if the numbers do. -/
theorem digit_cons_lt {a b k m : Nat} {r r' : List UInt8} (hk : 0 < k)
    (hm : k + m ≤ 256) (hle : a ≤ b) (hfront : a / k = b / k)
    (hr : a = b → r < r') :
    UInt8.ofNat (a % k + m) :: r < UInt8.ofNat (b % k + m) :: r' := by
  have hlast : b % k < k := Nat.mod_lt b hk
  have ha := Nat.div_add_mod a k
  have hb := Nat.div_add_mod b k
  rw [hfront] at ha
  refine ofNat_cons_lt (by omega) ?_
  rcases Nat.lt_or_eq_of_le hle with hlt | heq
  · exact .inl (by omega)
  · exact .inr ⟨by rw [heq], hr heq⟩

theorem utf8EncodeChar_append_lt {c d : Char} (h : c < d)
    (r r' : List UInt8) :
    String.utf8EncodeChar c ++ r < String.utf8EncodeChar d ++ r' := by
  have hd : d.val.toNat < 1114112 := by
    rcases d.valid with hlow | hhigh
    · exact Nat.lt_trans hlow (by decide)
    · exact hhigh.2
  have hcd : c.val.toNat < d.val.toNat := h
  rw [String.utf8EncodeChar, String.utf8EncodeChar]
  generalize c.val.toNat = v at hcd ⊢
  generalize d.val.toNat = w at hcd hd ⊢
  have hdiv : ∀ k, v / k ≤ w / k := fun k =>
    Nat.div_le_div_right (Nat.le_of_lt hcd)
  have hlast : v / 64 = w / 64 →
      UInt8.ofNat (v % 64 + 128) :: r < UInt8.ofNat (w % 64 + 128) :: r' :=
    fun h1 => digit_cons_lt (by decide) (by decide) (Nat.le_of_lt hcd) h1
      fun heq => absurd heq (Nat.ne_of_lt hcd)
  split_ifs
  -- The lesser character takes no more bytes, and if it takes fewer, or
  -- both take one, the first byte decides.
  all_goals first
    | omega
    | exact ofNat_cons_lt (by omega) (.inl (by omega))
    | skip
  -- Two bytes, three and four, where the digits decide.
  · exact digit_cons_lt (by decide) (by decide) (hdiv 64) (by omega) hlast
  · refine digit_cons_lt (by decide) (by decide) (hdiv 4096) (by omega)
      fun h2 => ?_
    exact digit_cons_lt (by decide) (by decide) (hdiv 64) (by omega) hlast
  · refine digit_cons_lt (by decide) (by decide) (hdiv 262144) (by omega)
      fun h3 => ?_
    refine digit_cons_lt (by decide) (by decide) (hdiv 4096) (by omega)
      fun h2 => ?_
    exact digit_cons_lt (by decide) (by decide) (hdiv 64) (by omega) hlast

theorem utf8_lt_utf8 {a b : String} (h : a < b) : utf8 a < utf8 b := by
  rw [String.lt_iff_toList_lt] at h
  rw [utf8_eq_flatMap, utf8_eq_flatMap]
  generalize a.toList = cs at h ⊢
  generalize b.toList = ds at h ⊢
  induction h with
  | nil =>
      obtain ⟨x, xs, hx⟩ :=
        List.exists_cons_of_ne_nil String.utf8EncodeChar_ne_nil
      rw [List.flatMap_nil, List.flatMap_cons, hx]
      exact List.nil_lt_cons _ _
  | rel h => exact utf8EncodeChar_append_lt h _ _
  | cons _ ih => exact List.append_left_lt ih

/-! ## Entries and bindings -/

theorem mem_entries_iff {n : String} {v : Value}
    {entries : List (String × Value)}
    (hs : (entries.map Prod.fst).Pairwise (· < ·)) :
    (n, v) ∈ entries ↔ entries.lookup n = some v := by
  induction entries with
  | nil => simp
  | cons entry rest ih =>
      obtain ⟨m, w⟩ := entry
      rw [List.map_cons, List.pairwise_cons] at hs
      rw [List.mem_cons, ih hs.2, List.lookup_cons, Prod.mk.injEq]
      by_cases hm : n = m
      · subst hm
        -- The names behind are greater, so none of them is this one.
        have hrest : rest.lookup n = none := by
          rw [← Option.not_isSome_iff_eq_none, isSome_lookup]
          exact fun hn => String.lt_irrefl n (hs.1 n hn)
        simp [hrest, eq_comm]
      · simp [hm, beq_eq_false_iff_ne.2 hm]

namespace Store

variable {s t : Store} {e i : ScopeId} {name m : String} {v w : Value}

theorem binds_define_self_iff {sc : Scope} (hsc : s.scopes[e]? = some sc) :
    (s.define e name v).Binds e m w ↔
      m = name ∧ w = v ∨ m ≠ name ∧ s.Binds e m w := by
  simp only [Binds, getElem?_define_self hsc, hsc, Option.some.injEq,
    exists_eq_left', Bindings.get?_insert]
  by_cases hm : m = name
  · simp [hm, eq_comm]
  · simp [hm]

theorem get?_of_binds (h : s.Binds e name v) : s.get? e name = some v := by
  obtain ⟨sc, hsc, hv⟩ := h
  simp only [get?, getWithin, hsc, hv]

theorem NamesKept.exists_binds {own : ScopeId → Prop}
    (h : s.NamesKept own t) (hv : s.Binds i name v) :
    ∃ w, t.Binds i name w := by
  obtain ⟨sc, hsc, hget⟩ := hv
  obtain ⟨sc', hsc', hkept⟩ := h i sc hsc
  have hname : name ∈ sc.bindings.names :=
    (sc.bindings.mem_names name).2 (by rw [hget]; rfl)
  have hsome := (sc'.bindings.mem_names name).1 (hkept.grow name hname)
  obtain ⟨w, hw⟩ := Option.isSome_iff_exists.1 hsome
  exact ⟨w, sc', hsc', hw⟩

end Store

/-! ## The library's bindings -/

theorem Builtin.name_injective : Function.Injective Builtin.name := by
  have hnodup : (Builtin.all.map Builtin.name).Nodup := by decide +kernel
  intro b b' h
  exact List.inj_on_of_nodup_map hnodup b.mem_all b'.mem_all h

namespace Session

variable {e : ScopeId} {s : Store} {n : String} {v : Value}

theorem binds_installed_iff {bs : List Builtin} {sc : Scope}
    (hsc : s.scopes[e]? = some sc) :
    (installed e bs s).Binds e n v ↔
      (∃ b ∈ bs, b.name = n ∧ v = .builtin b) ∨
        (∀ b ∈ bs, b.name ≠ n) ∧ s.Binds e n v := by
  induction bs generalizing s sc with
  | nil => simp [installed]
  | cons b bs ih =>
      show (installed e bs (s.define e b.name (.builtin b))).Binds e n v ↔ _
      rw [ih (Store.getElem?_define_self hsc),
        Store.binds_define_self_iff hsc]
      -- A builtin whose name comes up again is the same one.
      have hagain : ∀ b' ∈ bs, b'.name = b.name → b' = b :=
        fun b' _ h => Builtin.name_injective h
      grind

/-- A fresh session binds every builtin to its name, and nothing else. -/
theorem binds_fresh_iff :
    fresh.store.Binds root n v ↔
      ∃ b : Builtin, b.name = n ∧ v = .builtin b := by
  have hroot : (Store.empty.addScope none).scopes[root]? =
      some ⟨.empty, none⟩ := rfl
  have hnone : ¬ (Store.empty.addScope none).Binds root n v := by
    rintro ⟨sc, hsc, hv⟩
    cases hsc
    cases hv
  rw [fresh_store, binds_installed_iff hroot]
  constructor
  · rintro (⟨b, -, hb⟩ | ⟨-, hv⟩)
    · exact ⟨b, hb⟩
    · exact absurd hv hnone
  · rintro ⟨b, hb⟩
    exact .inl ⟨b, b.mem_all, hb⟩

theorem isLibraryBinding_iff :
    isLibraryBinding (n, v) = true ↔ fresh.store.Binds root n v := by
  rw [binds_fresh_iff]
  cases v with
  | builtin b =>
      simp only [isLibraryBinding, beq_iff_eq, Value.builtin.injEq]
      exact ⟨fun h => ⟨b, h, rfl⟩, fun ⟨b', h, hb⟩ => hb ▸ h⟩
  | _ => simp [isLibraryBinding]

theorem mem_userBindings_iff :
    (n, v) ∈ userBindings s root ↔
      s.Binds root n v ∧ ¬ fresh.store.Binds root n v := by
  rw [← isLibraryBinding_iff, userBindings]
  split
  · next sc hsc =>
      simp [Store.Binds, hsc, Bindings.get?,
        mem_entries_iff sc.bindings.sorted]
  · next hsc => simp [Store.Binds, hsc]

theorem pairwise_userBindings :
    ((userBindings s e).map Prod.fst).Pairwise (· < ·) := by
  rw [userBindings]
  split
  · next sc _ =>
      exact sc.bindings.sorted.sublist (List.filter_sublist.map Prod.fst)
  · exact .nil

/-! ## Stores that evaluations lead to -/

/-- The stores that evaluations lead to from a fresh session, whichever way
they end. Unlike those of `Reached` they need not be evaluations of what
was read: any value may be evaluated, in any scope, and any value called. -/
inductive Led : Store → Prop where
  | fresh : Led fresh.store
  | form {st : State} (h : Led st.store) (fuel : Nat) (x : Value)
      (e : ScopeId) : Led (storeAfter (eval fuel x e st))
  | call {st : State} (h : Led st.store) (fuel : Nat) (f : Value)
      (args : List Value) : Led (storeAfter (call fuel f args st))
  | text {st : State} (h : Led st.store) (fuel : Nat) (source : String)
      (e : ScopeId) : Led (storeAfter (evalSource fuel e source st))

/-- The discipline of a program that may assign and that may define names
in every scope. -/
def unrestricted : Discipline :=
  scoping (fun _ => True) True 0

theorem exists_binds_storeAfter {α : Type} {Q : Store → α → Prop}
    {m : Eval α} {st : State} {i : ScopeId}
    (h : unrestricted.Keeps st.store Q m) (hv : st.store.Binds i n v) :
    ∃ w, (storeAfter (m st)).Binds i n w := by
  have hs : unrestricted.holds st.store :=
    ⟨Nat.zero_le _, fun _ _ w _ => only_of_assigns w⟩
  obtain ⟨-, hkept, -⟩ := h.storeAfter hs
  exact hkept.exists_binds hv

theorem Led.exists_binds (h : Led s) {i : ScopeId}
    (hv : Session.fresh.store.Binds i n v) : ∃ w, s.Binds i n w := by
  induction h with
  | fresh => exact ⟨v, hv⟩
  | @form st _ fuel x e ih =>
      obtain ⟨w, hw⟩ := ih
      have hkeeps := (unrestricted.keeps_eval fuel).1 st.store x e
        (.inl trivial) (only_of_assigns x)
      exact exists_binds_storeAfter hkeeps hw
  | @call st _ fuel f args ih =>
      obtain ⟨w, hw⟩ := ih
      have hkeeps := (unrestricted.keeps_eval fuel).2 st.store f args
        (only_of_assigns f) fun v _ => only_of_assigns v
      exact exists_binds_storeAfter hkeeps hw
  | @text st _ fuel source e ih =>
      obtain ⟨w, hw⟩ := ih
      have hkeeps := Discipline.keeps_evalSource (D := unrestricted)
        (s := st.store) (e := e) (fun _ _ => .inl trivial) fuel source
        (.inl trivial)
      exact exists_binds_storeAfter hkeeps hw

end Session

/-! ## The list of changes -/

open Session

/-- Wherever evaluations have led to, the root scope still binds every name
of the library, and the user's bindings are listed by the bytes of their
names, each once: what the root scope binds now and did not bind when it
was fresh. So a builtin under the name of a builtin is listed unless it is
that same one. -/
theorem user_bindings_are_changes {s : Store} (h : Led s) :
    (∀ b ∈ Builtin.all, ∃ v, s.Binds root b.name v) ∧
    ((userBindings s root).map fun p => utf8 p.1).Pairwise (· < ·) ∧
    (∀ n v, (n, v) ∈ userBindings s root ↔
      s.Binds root n v ∧ ¬ fresh.store.Binds root n v) ∧
    ∀ b b' : Builtin, s.Binds root b.name (.builtin b') →
      ((b.name, .builtin b') ∈ userBindings s root ↔ b' ≠ b) := by
  refine ⟨fun b _ => ?_, ?_, fun n v => mem_userBindings_iff,
    fun b b' hb => ?_⟩
  · exact h.exists_binds (binds_fresh_iff.2 ⟨b, rfl, rfl⟩)
  · have hnames : ((userBindings s root).map Prod.fst).Pairwise (· < ·) :=
      pairwise_userBindings
    rw [List.pairwise_map] at hnames ⊢
    exact hnames.imp utf8_lt_utf8
  · rw [mem_userBindings_iff, and_iff_right hb, binds_fresh_iff,
      not_iff_not]
    constructor
    · rintro ⟨b'', hname, heq⟩
      cases heq
      exact Builtin.name_injective hname
    · rintro rfl
      exact ⟨b', rfl, rfl⟩

/-- Binds the name of a builtin to another one that does the same. -/
def aliasing : Value :=
  .list [.symbol "def", .symbol "head", .symbol "first"]

theorem storeAfter_aliasing {st : State} {v : Value}
    (h : st.store.Binds root "first" v) :
    storeAfter (eval 2 aliasing root st) =
      st.store.define root "head" v := by
  have hlookup : Eval.lookup root "first" st = .ok v st := by
    rw [Eval.lookup, Store.get?_of_binds h]
  have hvalue : Direct.defined (eval 1) "head" (.symbol "first") root st =
      .ok v st :=
    (congrFun (eval_succ 0 (.symbol "first") root) st).trans hlookup
  rw [eval_succ]
  show storeAfter (Direct.defForm (eval 1) [.symbol "head",
    .symbol "first"] root st) = _
  exact congrArg storeAfter ((Eval.bind_ok rfl).trans
    ((Eval.bind_ok rfl).trans (Eval.bind_ok hvalue)))

theorem alias_listed :
    ("head", .builtin .first) ∈
        userBindings (storeAfter (eval 2 aliasing root fresh)) root ∧
      ("first", .builtin .first) ∉
        userBindings (storeAfter (eval 2 aliasing root fresh)) root := by
  have hfirst : fresh.store.Binds root "first" (.builtin .first) :=
    binds_fresh_iff.2 ⟨.first, rfl, rfl⟩
  have ⟨sc, hsc, _⟩ := hfirst
  have hbinds : ∀ m w,
      (storeAfter (eval 2 aliasing root fresh)).Binds root m w ↔
        m = "head" ∧ w = .builtin .first ∨
          m ≠ "head" ∧ fresh.store.Binds root m w := by
    rw [storeAfter_aliasing hfirst]
    exact fun m w => Store.binds_define_self_iff hsc
  obtain ⟨-, -, -, hlisted⟩ :=
    user_bindings_are_changes (.form .fresh 2 aliasing root)
  constructor
  · have hhead := (hbinds "head" _).2 (.inl ⟨rfl, rfl⟩)
    exact (hlisted .head .first hhead).2 nofun
  · have hkept := (hbinds "first" _).2 (.inr ⟨by decide, hfirst⟩)
    exact fun hmem => (hlisted .first .first hkept).1 hmem rfl

end SmallLisp
