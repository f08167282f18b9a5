import SmallLisp.CommandLine
import SmallLisp.Proofs.Evaluating
import SmallLisp.Proofs.RoundTrip
import SmallLisp.Proofs.Sessions

/-!
# Tasks in a process follow tasks

From evaluation to what the program is started for. Between the forms of a
text nothing is held but the forms and the scope that they are evaluated in,
and an error that is handed out as a result has given up what was held when
it came about (`attempt_follows`). So a process that has performed its task,
and is not killed, ends in the state of the plain session with nothing held
at all (`session_follows`).
-/

namespace SmallLisp.Process

open Memory

variable {α β : Type} {p : Process} {J : Multiset Ref} {e : ScopeId}

/-! ## Errors as results -/

/-- Two results of which both are errors, and the same, or neither is one. -/
inductive Outcomes {ε : Type} (J : Multiset Ref)
    (post : α → β → Process → Prop) :
    Except ε α → Except ε β → Process → Prop where
  | ok {a : α} {b : β} {p : Process} (h : post a b p) :
      Outcomes J post (.ok a) (.ok b) p
  | error {p : Process} (err : ε) (hp : p.Holding J) :
      Outcomes J post (.error err) (.error err) p

theorem unwind_follows {base : List Ref} {K : Multiset Ref}
    (hp : p.Holding K) (hbase : (base : Multiset Ref) = J) (hJ : J ≤ K) :
    Follows J p (Run.unwind base) (pure ()) fun _ _ p' => p'.Holding J := by
  refine dropAll_follows (base.foldl List.erase p.held) (hp.of_eq ?_)
  rw [coe_foldl_erase, hp.held, hbase, tsub_add_cancel_of_le hJ]

theorem attempt_follows {c : Run α} {q : Eval β}
    {post : α → β → Process → Prop} (hp : p.Holding J)
    (h : Follows J p c q post) :
    Follows J p (Run.attempt c) (Eval.attempt q) (Outcomes J post) := by
  unfold Follows at h
  cases hcp : c p with
  | ok a p' =>
      rw [hcp] at h
      obtain ⟨b, hb, hlead, hpost⟩ := h
      unfold Follows
      simp only [Run.attempt, Eval.attempt, hcp, hb]
      exact ⟨_, rfl, hlead, .ok hpost⟩
  | error ending p' =>
      rw [hcp] at h
      cases ending with
      | killed reports =>
          simp only [Follows, Run.attempt, hcp]
          exact h
      | abort a =>
          obtain ⟨hq, hlead, K, hp', hJ⟩ := h
          cases a with
          | failed err =>
              refine .start (d := Run.unwind p.held >>= fun _ =>
                  pure (.error err)) (r := pure (.error err)) p' ?_ ?_
                hlead ?_
              · simp only [Run.attempt, hcp, Bind.bind, EStateM.bind]
                split <;> simp_all [Pure.pure, EStateM.pure]
              · simp only [Eval.attempt, hq]
                rfl
              · exact .silent le_rfl (unwind_follows hp' hp.held hJ)
                  fun _ p₁ _ hp₁ => .pure (.error err hp₁)
          | _ =>
              simp only [Follows, Run.attempt, Eval.attempt, hcp, hq, true_and]
              exact ⟨hlead, K, hp', hJ⟩

theorem reporting_follows {c : Run α} {q : Eval β}
    {post : α → β → Process → Prop} {H : Multiset Ref}
    (reports : List String) (h : Follows H p c q post) :
    Follows H p (Run.reporting reports c) q post := by
  unfold Follows at h ⊢
  unfold Run.reporting
  cases hcp : c p with
  | ok a p' => rwa [hcp] at h
  | error ending p' =>
      rw [hcp] at h
      cases ending <;> exact h

/-! ## A new session -/

theorem holding_blank (room : Nat) : (blank room).Holding 0 :=
  ⟨exact_empty, mirrors_empty, rfl⟩

theorem install_follows (bs : List Builtin) (hp : p.Holding J)
    (he : p.memory.Guards J ⟨.scope, e⟩) :
    Follows J p (install e bs) (Session.install e bs)
      fun _ _ p' => p'.Holding J := by
  induction bs generalizing p with
  | nil => exact .pure hp
  | cons b bs ih =>
      refine .bind le_rfl (define_follows (hp.of_eq ?_) (.plain _) he)
        fun _ _ p₁ h₁ hp₁ => ih hp₁ (he.keeps h₁.keeps)
      exact (zero_add J).symm

theorem newRoot_follows (hp : p.Holding J) :
    Follows J p newRoot Session.newRoot
      fun e e' p' => e = e' ∧ p'.Holding ({⟨.scope, e⟩} + J) := by
  refine .bind le_rfl (openScope_follows hp nofun) fun e e' p₁ _ hopened => ?_
  obtain ⟨rfl, hp₁⟩ := hopened
  exact .bind (Multiset.le_add_left ..)
    (install_follows Builtin.all hp₁ guards_scope)
    fun _ _ p₂ _ hp₂ => .pure ⟨rfl, hp₂⟩

/-! ## Texts -/

theorem evalFormsFrom_follows {forms : List Placed} {last : Placed}
    {v : Value} (fuel : Nat) (hlast : Yields J last v p)
    (hforms : p.memory.AnchoredAll J forms)
    (he : p.memory.Guards J ⟨.scope, e⟩) :
    Follows J p (evalFormsFrom fuel e last forms)
      (Session.evalFormsFrom fuel e v (Placed.values forms)) (Yields J) := by
  have hle : J ≤ last.claim + J := Multiset.le_add_left ..
  induction forms generalizing p last v with
  | nil => exact .pure hlast
  | cons x xs ih =>
      obtain ⟨hx, hxs⟩ := hforms.of_cons
      refine .bind hle ((eval_follows fuel).1.eval hlast.holding (hx.of_le hle)
        (he.of_le hle)) fun y w p₁ h₁ hy => ?_
      refine .silent le_rfl (hy.drop_follows (drops_cell last.cell))
        fun _ p₂ h₂ hy₂ => ?_
      have hkeep := (h₁.mono hle).keeps.trans h₂.keeps
      exact ih hy₂ (hxs.keeps hkeep) (he.keeps hkeep)
        (Multiset.le_add_left ..)

/-- What a text is read as has no lambda inside it. -/
theorem fresh_of_read {source : String} {forms : List Value}
    (h : Value.read source = .ok forms) : ∀ v ∈ forms, Fresh v :=
  fun v hv => (isDatum_of_read h v hv).only fun _ _ => trivial

/-- The forms of a text are kept, and so is the scope that they will be
evaluated in. -/
structure Loaded (J : Multiset Ref) (e : ScopeId) (forms : List Value)
    (cells : List Cell) (p : Process) : Prop where
  holding : p.Holding (Cell.claims cells + J)
  anchored : p.memory.AnchoredAll (Cell.claims cells + J)
    (forms.zipWith Placed.mk cells)
  values : Placed.values (forms.zipWith Placed.mk cells) = forms
  scope : p.memory.Guards (Cell.claims cells + J) ⟨.scope, e⟩

theorem loadForms_follows {forms : List Value} (hp : p.Holding J)
    (hforms : ∀ v ∈ forms, Fresh v)
    (he : p.memory.Guards J ⟨.scope, e⟩) :
    Follows J p (Run.loadFrom [] forms) (pure ())
      fun cells _ p' => Loaded J e forms cells p' := by
  have hnone : p.Holding (Cell.claims [] + J) := hp.of_eq (zero_add J).symm
  refine (loadFrom_follows hnone .nil forms hforms).mono
    (Multiset.le_add_left ..) fun cells _ p' hlead hloaded => ?_
  obtain ⟨hreads, hp'⟩ := hloaded
  refine ⟨hp', anchoredAll_zipWith hreads fun _ hc _ hr => ?_,
    values_zipWith hreads, ?_⟩
  · exact .held (Multiset.mem_add.2 (.inl (mem_claims hc hr)))
  · have hlead' := hlead.mono (Multiset.le_add_left J _)
    exact (he.keeps hlead'.keeps).of_le (Multiset.le_add_left ..)

theorem evalForms_follows {forms : List Value} (fuel : Nat)
    (hp : p.Holding J) (hforms : ∀ v ∈ forms, Fresh v)
    (he : p.memory.Guards J ⟨.scope, e⟩) :
    Follows J p (evalForms fuel e forms) (Session.evalForms fuel e forms)
      (Yields J) := by
  refine .silent le_rfl (loadForms_follows hp hforms he)
    fun cells p₁ _ h => ?_
  have hlast : Yields (Cell.claims cells + J) .nil .nil p₁ :=
    ⟨rfl, .plain .nil, h.holding.of_eq (zero_add _).symm⟩
  have heval := evalFormsFrom_follows fuel hlast h.anchored h.scope
  rw [h.values] at heval
  refine .of_bind_pure (.bind (Multiset.le_add_left ..) heval
    fun y v p₂ _ hy => ?_)
  exact .silent le_rfl (hy.drop_follows (drops_refs (Cell.refs cells)))
    fun _ p₃ _ hy₃ => .pure hy₃

theorem evalSource_follows (fuel : Nat) (source : String) (hp : p.Holding J)
    (he : p.memory.Guards J ⟨.scope, e⟩) :
    Follows J p (evalSource fuel e source)
      (Session.evalSource fuel e source) (Outcomes J (Yields J)) := by
  unfold evalSource Session.evalSource
  cases hread : Value.read source with
  | error err => exact .pure (.error _ hp)
  | ok forms =>
      have heval := evalForms_follows fuel hp (fresh_of_read hread) he
      refine .bind le_rfl (attempt_follows hp heval) fun a b p₁ _ h => ?_
      cases h with
      | ok hy => exact .pure (.ok hy)
      | error err hp₁ => exact .pure (.error _ hp₁)

/-! ## Conversations -/

theorem talk_follows {q : Eval α} (hp : p.Holding J) (hq : LeavesStore q) :
    Follows J p (Run.plainly q) q fun a b p' => a = b ∧ p'.Holding J := by
  have h : Follows J p (Run.plainly q >>= pure) (q >>= pure)
      fun a b p' => a = b ∧ p'.Holding J :=
    .talk hp le_rfl hq fun a st _ hp' => .pure ⟨rfl, hp'⟩
  rwa [bind_pure, bind_pure] at h

theorem showForms_follows {forms : List Placed} (fuel : Nat)
    (hp : p.Holding J) (hforms : p.memory.AnchoredAll J forms)
    (he : p.memory.Guards J ⟨.scope, e⟩) :
    Follows J p (showForms fuel e forms)
      (Conversation.showForms fuel e (Placed.values forms))
      fun err err' p' => err = err' ∧ p'.Holding J := by
  induction forms generalizing p with
  | nil => exact .pure ⟨rfl, hp⟩
  | cons x xs ih =>
      obtain ⟨hx, hxs⟩ := hforms.of_cons
      have heval := (eval_follows fuel).1.eval hp hx he
      refine .bind le_rfl (attempt_follows hp heval) fun a b p₁ h₁ h => ?_
      cases h with
      | error err hp₁ => exact .pure ⟨rfl, hp₁⟩
      | @ok y v _ hy =>
          have hrest {q : Process} (h₂ : Leads J p₁ q)
              (hq : q.Holding (y.claim + J)) :
              Follows J q (do Run.dropCell y.cell; showForms fuel e xs)
                (Conversation.showForms fuel e (Placed.values xs))
                fun err err' p' => err = err' ∧ p'.Holding J := by
            refine .silent le_rfl (dropCell_follows hq) fun _ p₃ h₃ hp₃ => ?_
            have hkeep := (h₁.trans h₂).trans h₃
            exact ih hp₃ (hxs.keeps hkeep.keeps) (he.keeps hkeep.keeps)
          dsimp only
          rw [hy.value]
          cases v with
          | nil => exact hrest (.refl J p₁) hy.holding
          | _ =>
              exact .talk hy.holding (Multiset.le_add_left ..)
                (leavesStore_print _) fun _ _ _ hq =>
                  hrest ⟨.refl J _, rfl⟩ hq

theorem showInput_follows (fuel : Nat) (input : String) (hp : p.Holding J)
    (he : p.memory.Guards J ⟨.scope, e⟩) :
    Follows J p (showInput fuel e input) (Conversation.showInput fuel e input)
      fun err err' p' => err = err' ∧ p'.Holding J := by
  unfold showInput Conversation.showInput
  cases hread : Value.read input with
  | error err => exact .pure ⟨rfl, hp⟩
  | ok forms =>
      refine .silent le_rfl (loadForms_follows hp (fresh_of_read hread) he)
        fun cells p₁ _ h => ?_
      have hshow := showForms_follows fuel h.holding h.anchored h.scope
      rw [h.values] at hshow
      refine .bind (Multiset.le_add_left ..) hshow fun err err' p₂ _ hend => ?_
      obtain ⟨rfl, hp₂⟩ := hend
      exact .silent le_rfl (dropAll_follows (Cell.refs cells) hp₂)
        fun _ p₃ _ hp₃ => .pure ⟨rfl, hp₃⟩

theorem leavesStore_obey (c : Conversation) (command : Command) :
    LeavesStore (c.obey e command) := by
  cases command with
  | bindings =>
      exact LeavesStore.bind (fun _ => rfl) fun _ =>
        (leavesStore_print _).bind fun _ => leavesStore_pure _
  | _ => exact (leavesStore_print _).bind fun _ => leavesStore_pure _

theorem hear_follows (fuel : Nat) (c : Conversation) (line : String)
    (hp : p.Holding J) (he : p.memory.Guards J ⟨.scope, e⟩) :
    Follows J p (hear fuel e c line) (c.hear fuel e line)
      fun c c' p' => c = c' ∧ p'.Holding J := by
  unfold hear Conversation.hear
  cases receive c.pending line with
  | skipped => exact .pure ⟨rfl, hp⟩
  | command command => exact talk_follows hp (leavesStore_obey c command)
  | gathered g =>
      cases g with
      | waiting pending => exact .pure ⟨rfl, hp⟩
      | ready input =>
          refine .bind le_rfl (showInput_follows fuel input hp he)
            fun err err' p₁ _ h => ?_
          obtain ⟨rfl, hp₁⟩ := h
          cases err with
          | some failure => exact .pure ⟨rfl, hp₁⟩
          | none => exact .pure ⟨rfl, hp₁⟩

theorem hearAll_follows (fuel : Nat) (c : Conversation)
    (lines : List (Option String)) (hp : p.Holding J)
    (he : p.memory.Guards J ⟨.scope, e⟩) :
    Follows J p (hearAll fuel e c lines) (c.hearAll fuel e lines)
      fun c c' p' => c = c' ∧ p'.Holding J := by
  induction lines generalizing c p with
  | nil =>
      exact .talk hp le_rfl (leavesStore_print _)
        fun _ _ _ hp' => .pure ⟨rfl, hp'⟩
  | cons line lines ih =>
      cases line with
      | none => exact .pure ⟨rfl, hp⟩
      | some line =>
          refine .bind le_rfl (reporting_follows _
            (hear_follows fuel c line hp he)) fun c₁ c₂ p₁ h₁ h => ?_
          obtain ⟨rfl, hp₁⟩ := h
          split
          · exact .pure ⟨rfl, hp₁⟩
          · exact ih c₁ hp₁ (he.keeps h₁.keeps)

theorem hold_follows (fuel : Nat) (lines : List (Option String))
    (hp : p.Holding J) (he : p.memory.Guards J ⟨.scope, e⟩) :
    Follows J p (hold fuel e lines) (Conversation.hold fuel e lines)
      fun reports reports' p' => reports = reports' ∧ p'.Holding J := by
  refine .talk hp le_rfl (leavesStore_print _) fun _ st _ hp₁ => ?_
  refine .bind le_rfl (hearAll_follows fuel .start lines hp₁ he)
    fun c c' p₂ _ h => ?_
  obtain ⟨rfl, hp₂⟩ := h
  exact .pure ⟨rfl, hp₂⟩

/-! ## Tasks -/

open CommandLine

theorem leavesStore_showTokens (fuel : Nat) (s : Surroundings)
    (path : String) :
    LeavesStore (perform fuel e s (.showTokens path)) := by
  simp only [perform]
  split
  · exact leavesStore_pure _
  · split
    · exact leavesStore_pure _
    · exact (leavesStore_print _).bind fun _ => leavesStore_pure _

theorem carryOut_follows (fuel : Nat) (s : Surroundings) (task : Task)
    (hp : p.Holding J) (he : p.memory.Guards J ⟨.scope, e⟩) :
    Follows J p (carryOut fuel e s task) (perform fuel e s task)
      fun v v' p' => v = v' ∧ p'.Holding J := by
  cases task with
  | converse =>
      refine .bind le_rfl (hold_follows fuel (Text.lines s.input) hp he)
        fun reports reports' p₁ _ h => ?_
      obtain ⟨rfl, hp₁⟩ := h
      exact .pure ⟨rfl, hp₁⟩
  | runFile path =>
      simp only [carryOut, perform]
      cases s.source path with
      | error failure => exact .pure ⟨rfl, hp⟩
      | ok source =>
          refine .bind le_rfl (evalSource_follows fuel source hp he)
            fun a b p₁ _ h => ?_
          cases h with
          | error failure hp₁ => exact .pure ⟨rfl, hp₁⟩
          | ok hx =>
              exact .silent le_rfl (dropCell_follows hx.holding)
                fun _ p₂ _ hp₂ => .pure ⟨rfl, hp₂⟩
  | evalText source =>
      refine .bind le_rfl (evalSource_follows fuel source hp he)
        fun a b p₁ _ h => ?_
      cases h with
      | error failure hp₁ => exact .pure ⟨rfl, hp₁⟩
      | ok hx =>
          dsimp only
          rw [hx.value]
          refine .talk hx.holding (Multiset.le_add_left ..)
            (leavesStore_print _) fun _ st _ hp₁ => ?_
          exact .silent le_rfl (dropCell_follows hp₁)
            fun _ p₂ _ hp₂ => .pure ⟨rfl, hp₂⟩
  | showTokens path =>
      exact talk_follows hp (leavesStore_showTokens fuel s path)
  | showVersion =>
      exact talk_follows hp
        ((leavesStore_print _).bind fun _ => leavesStore_pure _)

/-- A task in a session of its own. -/
theorem session_follows (fuel : Nat) (s : Surroundings) (task : Task)
    (hp : p.Holding 0) :
    Follows 0 p (session fuel s task)
      (Session.newRoot >>= fun e => perform fuel e s task)
      fun v v' p' => v = v' ∧ p'.Holding 0 := by
  refine .bind le_rfl (newRoot_follows hp) fun e e' p₁ _ hroot => ?_
  obtain ⟨rfl, hp₁⟩ := hroot
  refine .of_bind_pure (.bind (Multiset.zero_le _)
    (carryOut_follows fuel s task hp₁ guards_scope) fun v v' p₂ _ h => ?_)
  obtain ⟨rfl, hp₂⟩ := h
  exact .silent le_rfl (reporting_follows _ (drop_follows hp₂))
    fun _ p₃ _ hp₃ => .pure ⟨rfl, hp₃⟩

end SmallLisp.Process
