import Mathlib
import SmallLisp.Value.Reader

/-!
# The reader, token by token

The reader is a fold: every token turns the progress made so far into
another one, or is out of place. `advanceAll` is that fold, and `parse`
only looks at where it ends: at the forms if nothing is open, at the place
of the last token if something is (`parse_eq_ok_iff`,
`parse_eq_error_iff`).

Two things about a step are used again and again. It changes the number of
open lists by one for a parenthesis and not at all for any other token
(`depth_advance`), and it neither reads nor moves the forms that are
finished (`advance_behind`), so that behind a finished form the reader is
as good as new (`parse_append`).
-/

namespace SmallLisp

open Token (Located)

/-! ## Parentheses among tokens -/

namespace Token

def isOpening : Token → Bool
  | opening => true
  | _ => false

def isClosing : Token → Bool
  | closing => true
  | _ => false

/-- The number of opening parentheses. -/
def openings (ts : List Located) : Nat :=
  ts.countP (·.token.isOpening)

/-- The number of closing parentheses. -/
def closings (ts : List Located) : Nat :=
  ts.countP (·.token.isClosing)

theorem openings_cons (t : Located) (ts : List Located) :
    openings (t :: ts) =
      openings ts + if t.token.isOpening = true then 1 else 0 :=
  List.countP_cons

theorem closings_cons (t : Located) (ts : List Located) :
    closings (t :: ts) =
      closings ts + if t.token.isClosing = true then 1 else 0 :=
  List.countP_cons

end Token

theorem exists_of_bind_eq_ok {α β : Type} {x : Except ReadError α}
    {f : α → Except ReadError β} {b : β} (h : x.bind f = .ok b) :
    ∃ a, x = .ok a ∧ f a = .ok b := by
  cases x with
  | error e => cases h
  | ok a => exact ⟨a, rfl, h⟩

namespace Reader

/-! ## One token -/

def Frame.isList : Frame → Bool
  | .list _ => true
  | .mark _ => false

/-- The number of open lists. -/
def Progress.depth (p : Progress) : Nat :=
  p.frames.countP Frame.isList

/-- The same progress, with other forms finished before it. -/
def Progress.behind (base : List Value) (p : Progress) : Progress :=
  ⟨p.frames, p.forms ++ base⟩

theorem depth_deliver (v : Value) (forms : List Value) (frames : List Frame) :
    (deliver v forms frames).depth = frames.countP Frame.isList := by
  induction frames generalizing v with
  | nil => rfl
  | cons f frames ih =>
      cases f with
      | list items =>
          show (Frame.list (v :: items) :: frames).countP _ = _
          rw [List.countP_cons, List.countP_cons]
          rfl
      | mark m =>
          rw [deliver, ih, List.countP_cons]
          rfl

theorem deliver_behind (v : Value) (forms base : List Value)
    (frames : List Frame) :
    deliver v (forms ++ base) frames =
      (deliver v forms frames).behind base := by
  induction frames generalizing v with
  | nil => rfl
  | cons f frames ih =>
      cases f with
      | list items => rfl
      | mark m => exact ih _

theorem depth_advance {p q : Progress} {t : Located}
    (h : advance p t = .ok q) :
    q.depth + (if t.token.isClosing = true then 1 else 0) =
      p.depth + (if t.token.isOpening = true then 1 else 0) := by
  unfold advance at h
  split at h
  · next ht =>
      cases h
      rw [ht]
      show (Frame.list [] :: p.frames).countP _ + 0 = _
      rw [List.countP_cons]
      rfl
  · next m ht =>
      cases h
      rw [ht]
      show (Frame.mark m :: p.frames).countP _ + 0 = _
      rw [List.countP_cons]
      rfl
  · next ht =>
      split at h
      · next items frames hframes =>
          cases h
          rw [ht, depth_deliver, Progress.depth, hframes, List.countP_cons]
          rfl
      · cases h
  all_goals
    next ht =>
      cases h
      rw [ht, depth_deliver]
      rfl

theorem advance_behind (p : Progress) (t : Located) (base : List Value) :
    advance (p.behind base) t = (advance p t).map (Progress.behind base) := by
  unfold advance
  split
  · rfl
  · rfl
  · cases hframes : p.frames with
    | nil => simp only [Progress.behind, hframes, Except.map]
    | cons f frames =>
        cases f with
        | list items =>
            simp only [Progress.behind, hframes, deliver_behind, Except.map]
        | mark m => simp only [Progress.behind, hframes, Except.map]
  all_goals simp only [Progress.behind, deliver_behind, Except.map]

/-- Only a closing parenthesis can be out of place. -/
theorem advance_eq_error {p : Progress} {t : Located} {e : ReadError}
    (h : advance p t = .error e) :
    t.token = .closing ∧ e = .strayClosing t.span := by
  unfold advance at h
  split at h
  · cases h
  · cases h
  · next ht =>
      split at h
      · cases h
      · cases h
        exact ⟨ht, rfl⟩
  all_goals cases h

theorem advance_congr {p q : Progress} {t u : Located}
    (h : t.token = u.token) (hq : advance p t = .ok q) :
    advance p u = .ok q := by
  unfold advance at hq ⊢
  rw [← h]
  split at hq
  · exact hq
  · exact hq
  · split at hq
    · exact hq
    · cases hq
  all_goals exact hq

/-! ## Many tokens -/

/-- Takes tokens up to the first that is out of place. -/
def advanceAll (p : Progress) : List Located → Except ReadError Progress
  | [] => .ok p
  | t :: ts => (advance p t).bind fun q => advanceAll q ts

/-- The progress before any token. -/
def start : Progress := ⟨[], []⟩

/-- Where the last of some tokens ends, `last` if there are none. -/
def stopOf (last : Nat) : List Located → Nat
  | [] => last
  | t :: ts => stopOf t.span.stop ts

theorem advanceAll_cons {p q : Progress} {t : Located} {ts : List Located}
    (h : advance p t = .ok q) : advanceAll p (t :: ts) = advanceAll q ts := by
  rw [advanceAll, h]
  rfl

theorem advanceAll_append (p : Progress) (ts us : List Located) :
    advanceAll p (ts ++ us) =
      (advanceAll p ts).bind fun q => advanceAll q us := by
  induction ts generalizing p with
  | nil => rfl
  | cons t ts ih =>
      rw [List.cons_append, advanceAll, advanceAll]
      cases advance p t with
      | error e => rfl
      | ok q => exact ih q

/-- A run that fails has come as far as the token that is out of place. -/
theorem advanceAll_eq_error {p : Progress} {ts : List Located} {e : ReadError}
    (h : advanceAll p ts = .error e) :
    ∃ us t vs q, ts = us ++ t :: vs ∧ advanceAll p us = .ok q ∧
      advance q t = .error e := by
  induction ts generalizing p with
  | nil => cases h
  | cons t ts ih =>
      cases ht : advance p t with
      | error e' =>
          rw [advanceAll, ht] at h
          cases h
          exact ⟨[], t, ts, p, rfl, rfl, ht⟩
      | ok p' =>
          rw [advanceAll_cons ht] at h
          obtain ⟨us, u, vs, q, rfl, hus, hu⟩ := ih h
          exact ⟨t :: us, u, vs, q, rfl, by rw [advanceAll_cons ht, hus], hu⟩

theorem advanceAll_congr {p q : Progress} {ts us : List Located}
    (h : ts.map (·.token) = us.map (·.token))
    (hq : advanceAll p ts = .ok q) : advanceAll p us = .ok q := by
  induction ts generalizing p us with
  | nil =>
      rw [List.map_nil, eq_comm, List.map_eq_nil_iff] at h
      rw [h]
      exact hq
  | cons t ts ih =>
      rw [List.map_cons, eq_comm, List.map_eq_cons_iff] at h
      obtain ⟨u, us, rfl, hu, hus⟩ := h
      obtain ⟨p', ht, hts⟩ := exists_of_bind_eq_ok hq
      rw [advanceAll_cons (advance_congr hu.symm ht)]
      exact ih hus.symm hts

theorem depth_advanceAll {p q : Progress} {ts : List Located}
    (h : advanceAll p ts = .ok q) :
    q.depth + Token.closings ts = p.depth + Token.openings ts := by
  induction ts generalizing p with
  | nil =>
      cases h
      rfl
  | cons t ts ih =>
      obtain ⟨p', ht, hts⟩ := exists_of_bind_eq_ok h
      have hstep := depth_advance ht
      have hrest := ih hts
      rw [Token.openings_cons, Token.closings_cons]
      omega

theorem advanceAll_behind (p : Progress) (ts : List Located)
    (base : List Value) :
    advanceAll (p.behind base) ts =
      (advanceAll p ts).map (Progress.behind base) := by
  induction ts generalizing p with
  | nil => rfl
  | cons t ts ih =>
      rw [advanceAll, advanceAll, advance_behind]
      cases advance p t with
      | error e => rfl
      | ok q => exact ih q

/-! ## Where the fold ends -/

theorem parseFrom_eq (p : Progress) (last : Nat) (ts : List Located) :
    parseFrom p last ts = (advanceAll p ts).bind fun q =>
      if q.frames.isEmpty = true then .ok q.forms.reverse
      else .error (.unfinished (stopOf last ts)) := by
  induction ts generalizing p last with
  | nil => rfl
  | cons t ts ih =>
      rw [parseFrom, advanceAll]
      cases advance p t with
      | error e => rfl
      | ok q => exact ih q t.span.stop

theorem stopOf_append (last : Nat) (ts : List Located) (t : Located) :
    stopOf last (ts ++ [t]) = t.span.stop := by
  induction ts generalizing last with
  | nil => rfl
  | cons u ts ih => exact ih u.span.stop

end Reader

open Reader

theorem parse_eq (ts : List Located) :
    Value.parse ts = (advanceAll start ts).bind fun q =>
      if q.frames.isEmpty = true then .ok q.forms.reverse
      else .error (.unfinished (stopOf 0 ts)) :=
  parseFrom_eq start 0 ts

theorem parse_of_advanceAll {ts : List Located} {q : Progress}
    (h : advanceAll start ts = .ok q) :
    Value.parse ts = if q.frames.isEmpty = true then .ok q.forms.reverse
      else .error (.unfinished (stopOf 0 ts)) := by
  rw [parse_eq, h]
  rfl

theorem parse_eq_ok_iff {ts : List Located} {vs : List Value} :
    Value.parse ts = .ok vs ↔ advanceAll start ts = .ok ⟨[], vs.reverse⟩ := by
  constructor
  · intro h
    rw [parse_eq] at h
    obtain ⟨⟨frames, forms⟩, hq, hforms⟩ := exists_of_bind_eq_ok h
    cases frames with
    | nil =>
        cases hforms
        rw [hq, List.reverse_reverse]
    | cons f frames => cases hforms
  · intro h
    rw [parse_of_advanceAll h, List.reverse_reverse]
    rfl

theorem parse_eq_error_iff {ts : List Located} {e : ReadError} :
    Value.parse ts = .error e ↔ advanceAll start ts = .error e ∨
      ∃ q, advanceAll start ts = .ok q ∧ q.frames ≠ [] ∧
        e = .unfinished (stopOf 0 ts) := by
  rw [parse_eq]
  cases advanceAll start ts with
  | error e' =>
      show Except.error e' = Except.error e ↔ _
      simp
  | ok q =>
      obtain ⟨frames, forms⟩ := q
      cases frames with
      | nil => simp [Except.bind]
      | cons f frames => simp [Except.bind, eq_comm]

/-- Behind finished forms the reader is as good as new. -/
theorem parse_append {ts us : List Located} {vs ws : List Value}
    (h : Value.parse ts = .ok vs) :
    Value.parse (ts ++ us) = .ok ws ↔
      ∃ ws', Value.parse us = .ok ws' ∧ ws = vs ++ ws' := by
  rw [parse_eq_ok_iff] at h
  rw [parse_eq_ok_iff, advanceAll_append, h]
  change advanceAll (start.behind vs.reverse) us = _ ↔ _
  rw [advanceAll_behind]
  constructor
  · intro hws
    cases hq : advanceAll start us with
    | error e =>
        rw [hq] at hws
        cases hws
    | ok q =>
        obtain ⟨frames, forms⟩ := q
        rw [hq] at hws
        injection hws with hws
        injection hws with hframes hforms
        change frames = [] at hframes
        change forms ++ vs.reverse = ws.reverse at hforms
        refine ⟨forms.reverse, ?_, ?_⟩
        · rw [parse_eq_ok_iff, hq, hframes, List.reverse_reverse]
        · rw [← List.reverse_reverse ws, ← hforms, List.reverse_append,
            List.reverse_reverse]
  · rintro ⟨ws', hws', rfl⟩
    rw [parse_eq_ok_iff.1 hws', List.reverse_append]
    rfl

theorem read_of_scan {source : String} {ts : List Located}
    (h : Token.scan source = .ok ts) :
    Value.read source = Value.parse ts := by
  rw [Value.read, h]
  rfl

end SmallLisp
