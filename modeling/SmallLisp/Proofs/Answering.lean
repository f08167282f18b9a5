import SmallLisp.Process.Library
import SmallLisp.Proofs.Checks
import SmallLisp.Proofs.Handling

/-!
# The builtins in a process

Most builtins compute an answer from the values of their operands and then
keep it. Where the answer comes from is looked up in the memory
(`Process.origin`), apart from what it is, so the two have to fit
(`Originates`): the cells that are put together stand for the elements of
the list that was answered, and what is made anew has no lambda in it.

The builtins that call do the same calls as without memory, and every value
they pass on is held for the one they pass it to.
-/

namespace SmallLisp

namespace Process

open Memory

variable {p : Process} {m : Memory} {F H J : Multiset Ref}
  {x y : Placed} {xs ys : List Placed} {v : Value} {vs : List Value}

/-! ## Operands -/

theorem value_of_operandList {items : List Value}
    (h : Operand.list v = .ok items) : v = .list items := by
  cases v with
  | list vs =>
      cases h
      rfl
  | _ => cases h

theorem eq_of_callable {w : Value} (h : Operand.callable v = .ok w) :
    w = v := by
  unfold Operand.callable at h
  split at h
  · cases h
    rfl
  · cases h

theorem accepts_of_checkArity {name : String} {arity : Arity} {n : Nat}
    {u : Unit} (h : checkArity name arity n = .ok u) :
    arity.accepts n = true := by
  unfold checkArity at h
  split at h
  · assumption
  · cases h

/-- The elements of a list, one by one. -/
theorem exists_items (hx : m.Anchored J x) (hv : x.value = .list vs) :
    ∃ ys, m.AnchoredAll J ys ∧ Placed.values ys = vs ∧
      Placed.cells ys = m.cells x.cell := by
  obtain ⟨hs, hguards⟩ := hx.items hv
  exact ⟨_, anchoredAll_zipWith hs hguards, values_zipWith hs,
    cells_zipWith hs⟩

/-! ## Keeping an answer -/

/-- What an answer is put together from is kept and stands for it. -/
def Originates (m : Memory) (J : Multiset Ref) (v : Value) : Origin → Prop
  | .list cells => ∃ ys, m.AnchoredAll J ys ∧ v = .list (Placed.values ys) ∧
      cells = Placed.cells ys
  | .cell c => m.Anchored J ⟨v, c⟩
  | .new => Fresh v

theorem guards_of_mem_refs {r : Ref} (hys : m.AnchoredAll J ys)
    (hr : r ∈ Cell.refs (Placed.cells ys)) : m.Guards J r := by
  obtain ⟨c, hc, hr⟩ := List.mem_filterMap.1 hr
  obtain ⟨y, hy, rfl⟩ := List.mem_map.1 hc
  exact (hys y hy).guards r hr

/-- Several values that are kept are taken hold of. -/
theorem copyAll_refs_follows (hp : p.Holding J)
    (hys : p.memory.AnchoredAll J ys) :
    Follows J p (Run.copyAll (Placed.refs ys)) (pure ())
      fun _ _ p' => YieldsAll J ys (Placed.values ys) p' := by
  refine (copyAll_follows (Placed.refs ys) hp fun r hr =>
    guards_of_mem_refs hys hr).mono le_rfl fun _ _ p' hlead hp' => ?_
  exact ⟨rfl, (hys.keeps hlead.keeps).readsAll, hp'⟩

theorem copyValue_follows (hp : p.Holding J) (hx : p.memory.Anchored J x) :
    Follows J p (Run.copyCell x.cell) (pure ())
      fun _ _ p' => Yields J x x.value p' := by
  refine (copyCell_follows hp fun r hr =>
    hp.live (hx.guards r hr)).mono le_rfl fun _ _ p' hlead hp' => ?_
  exact ⟨rfl, (hx.keeps hlead.keeps).reads, hp'⟩

theorem settle_follows {o : Origin} (hp : p.Holding J)
    (ho : Originates p.memory J v o) :
    Follows J p (settle v o) (pure v) (Yields J) := by
  cases o with
  | list cells =>
      obtain ⟨ys, hys, rfl, rfl⟩ := ho
      refine .silent le_rfl (copyAll_refs_follows hp hys) ?_
      exact fun _ p₁ _ hp₁ => gather_follows hp₁
  | cell c =>
      refine .silent le_rfl (copyValue_follows hp ho) ?_
      exact fun _ p₁ _ hp₁ => .pure hp₁
  | new =>
      refine .silent le_rfl (load_follows hp v ho) fun c p₁ _ hc => ?_
      exact .pure ⟨rfl, hc.1, hc.2⟩

/-! ## Where answers come from -/

section Origins

variable {o : Origin}

/-- A list operand answered by something made from its elements. -/
theorem gives_items {f : List Value → Value} (hx : m.Anchored J x)
    (hf : ∀ ys, m.AnchoredAll J ys → Placed.cells ys = m.cells x.cell →
      Originates m J (f (Placed.values ys)) o) :
    Gives (fun v => Originates m J v o)
      ((Operand.list x.value).map f) := by
  refine Gives.map (P := fun vs => x.value = .list vs)
    (fun vs hvs => value_of_operandList hvs) fun vs hvs => ?_
  obtain ⟨ys, hys, rfl, hcells⟩ := exists_items hx hvs
  exact hf ys hys hcells

theorem anchored_nil : m.Anchored J .nil :=
  ⟨.plain .nil, nofun⟩

/-- One of several values that are kept, or `nil`. -/
theorem anchored_getD {oy : Option Placed}
    (h : ∀ y, oy = some y → m.Anchored J y) :
    m.Anchored J ⟨(oy.map Placed.value).getD .nil,
      (oy.map Placed.cell).getD (.plain .nil)⟩ := by
  cases oy with
  | none => exact anchored_nil
  | some y => exact h y rfl

theorem originates_cons (h : m.AnchoredAll J [x, y]) :
    Gives (fun v => Originates m J v (.list (x.cell :: m.cells y.cell)))
      (Sequence.cons [x.value, y.value]) := by
  refine gives_items (h y (by simp)) fun ys hys hcells => ?_
  refine ⟨x :: ys, List.forall_mem_cons.2 ⟨h x (by simp), hys⟩, rfl, ?_⟩
  rw [← hcells]
  rfl

theorem originates_conj (h : m.AnchoredAll J (x :: xs)) :
    Gives (fun v => Originates m J v
        (.list (m.cells x.cell ++ Placed.cells xs)))
      (Sequence.conj (x.value :: Placed.values xs)) := by
  obtain ⟨hx, hxs⟩ := h.of_cons
  refine gives_items hx fun ys hys hcells => ?_
  refine ⟨ys ++ xs, List.forall_mem_append.2 ⟨hys, hxs⟩, ?_, ?_⟩
  · exact congrArg Value.list List.map_append.symm
  · rw [← hcells]
    exact List.map_append.symm

theorem originates_reverse (h : m.AnchoredAll J [x]) :
    Gives (fun v => Originates m J v (.list (m.cells x.cell).reverse))
      (Sequence.reverse [x.value]) := by
  refine gives_items (h x (by simp)) fun ys hys hcells => ?_
  refine ⟨ys.reverse, fun y hy => hys y (List.mem_reverse.1 hy), ?_, ?_⟩
  · exact congrArg Value.list List.map_reverse.symm
  · rw [← hcells]
    exact List.map_reverse.symm

theorem originates_rest (h : m.AnchoredAll J [x]) :
    Gives (fun v => Originates m J v (.list (m.cells x.cell).tail))
      (Sequence.rest [x.value]) := by
  refine gives_items (h x (by simp)) fun ys hys hcells => ?_
  refine ⟨ys.tail, fun y hy => hys y (List.mem_of_mem_tail hy), ?_, ?_⟩
  · exact congrArg Value.list List.map_tail.symm
  · rw [← hcells]
    exact List.map_tail.symm

theorem originates_init (h : m.AnchoredAll J [x]) :
    Gives (fun v => Originates m J v (.list ((m.cells x.cell).take
        ((m.cells x.cell).length - 1))))
      (Sequence.init [x.value]) := by
  refine Gives.bind (P := fun vs => x.value = .list vs)
    (fun vs hvs => value_of_operandList hvs) fun vs hvs => ?_
  obtain ⟨ys, hys, rfl, hcells⟩ := exists_items (h x (by simp)) hvs
  refine Gives.bind (P := fun front => front =
    (Placed.values ys).take (ys.length - 1)) ?_ fun front hfront => ?_
  · intro front hfront
    rw [Placed.length_values] at hfront
    unfold Sequence.upTo at hfront
    split at hfront
    · cases hfront
      rfl
    · cases hfront
  · refine gives_ok ⟨ys.take (ys.length - 1),
      fun y hy => hys y (List.mem_of_mem_take hy), ?_, ?_⟩
    · rw [hfront]
      exact congrArg Value.list List.map_take.symm
    · rw [← hcells, Placed.cells, List.length_map]
      exact List.map_take.symm

theorem originates_first (h : m.AnchoredAll J [x]) :
    Gives (fun v => Originates m J v
        (.cell ((m.cells x.cell).head?.getD (.plain .nil))))
      (Sequence.first [x.value]) := by
  refine gives_items (h x (by simp)) fun ys hys hcells => ?_
  have hfirst := anchored_getD fun y hy => hys y (List.mem_of_mem_head? hy)
  rw [← List.head?_map, ← List.head?_map] at hfirst
  rw [← hcells]
  exact hfirst

theorem originates_last (h : m.AnchoredAll J [x]) :
    Gives (fun v => Originates m J v
        (.cell ((m.cells x.cell).getLast?.getD (.plain .nil))))
      (Sequence.last [x.value]) := by
  refine gives_items (h x (by simp)) fun ys hys hcells => ?_
  have hlast := anchored_getD fun y hy => hys y (List.mem_of_getLast? hy)
  rw [← List.getLast?_map, ← List.getLast?_map] at hlast
  rw [← hcells]
  exact hlast

theorem originates_nth (h : m.AnchoredAll J [x, y]) :
    Gives (fun v => Originates m J v (origin m .nth [x, y]))
      (Sequence.nth [x.value, y.value]) := by
  refine Gives.bind (P := fun vs => x.value = .list vs)
    (fun vs hvs => value_of_operandList hvs) fun vs hvs => ?_
  obtain ⟨ys, hys, rfl, hcells⟩ := exists_items (h x (by simp)) hvs
  refine Gives.bind (P := fun n => y.value = .int n) ?_ fun n hn => ?_
  · intro n hn
    cases hy : y.value with
    | int k =>
        rw [hy] at hn
        cases hn
        rfl
    | _ =>
        rw [hy] at hn
        cases hn
  · simp only [origin, hn]
    split
    · next item hitem =>
        refine gives_ok ?_
        split at hitem
        · cases hitem
        · have hfound := anchored_getD
            fun y (hy : ys[n.toInt.toNat]? = some y) =>
              hys y (List.mem_of_getElem? hy)
          rw [← List.getElem?_map, ← List.getElem?_map] at hfound
          rw [← hcells]
          show m.Anchored J ⟨item, _⟩
          rw [Placed.values] at hitem
          rw [hitem] at hfound
          exact hfound
    · exact gives_error

theorem gives_lists (h : m.AnchoredAll J xs) :
    Gives (fun lists => ∃ ys, m.AnchoredAll J ys ∧
        Placed.values ys = lists.flatten ∧
        Placed.cells ys = xs.flatMap fun x => m.cells x.cell)
      ((Placed.values xs).mapM Operand.list) := by
  induction xs with
  | nil => exact gives_ok ⟨[], nofun, rfl, rfl⟩
  | cons x xs ih =>
      obtain ⟨hx, hxs⟩ := h.of_cons
      rw [Placed.values_cons, List.mapM_cons]
      refine Gives.bind (P := fun vs => x.value = .list vs)
        (fun vs hvs => value_of_operandList hvs) fun vs hvs => ?_
      refine (ih hxs).bind fun lists hlists => ?_
      obtain ⟨zs, hzs, hvalues, hcells⟩ := hlists
      obtain ⟨ys, hys, rfl, hcells'⟩ := exists_items hx hvs
      refine gives_ok ⟨ys ++ zs, List.forall_mem_append.2 ⟨hys, hzs⟩, ?_, ?_⟩
      · rw [List.flatten_cons, ← hvalues]
        exact List.map_append
      · rw [List.flatMap_cons, ← hcells, ← hcells']
        exact List.map_append

theorem originates_concat (h : m.AnchoredAll J xs) :
    Gives (fun v => Originates m J v (origin m .concat xs))
      (Sequence.concat (Placed.values xs)) := by
  have hempty : (Placed.values xs).isEmpty = xs.isEmpty := by
    cases xs <;> rfl
  unfold Sequence.concat
  simp only [origin, hempty]
  split
  · exact gives_any.map fun texts _ => Value.only_str
  · refine (gives_lists h).map fun lists hlists => ?_
    obtain ⟨ys, hys, hvalues, hcells⟩ := hlists
    exact ⟨ys, hys, congrArg Value.list hvalues.symm, hcells.symm⟩

end Origins

/-! ## Builtins that call -/

/-- Calls in the process follow calls without memory. The operands are taken
over, and the function is kept meanwhile. -/
def FollowsCall (call : Caller) (call' : Library.Caller) : Prop :=
  ∀ {p : Process} {J : Multiset Ref} {f : Placed} {xs : List Placed}
    {vs : List Value}, YieldsAll J xs vs p → p.memory.Anchored J f →
    Follows J p (call f xs) (call' f.value vs) (Yields J)

variable {call : Caller} {call' : Library.Caller} {f item : Placed}
  {items found : List Placed}

theorem yieldsAll_nil (hp : p.Holding J) : YieldsAll J [] [] p :=
  ⟨rfl, .nil, hp.of_eq (zero_add J).symm⟩

/-- One more value behind those that are held. -/
theorem Yields.cons {p' : Process} (hx : Yields (Placed.claims xs + J) x v p')
    (hxs : YieldsAll J xs vs p) (h : Leads (Placed.claims xs + J) p p') :
    YieldsAll J (x :: xs) (v :: vs) p' where
  values := by
    rw [Placed.values_cons, hx.value, hxs.values]
  reads := .cons hx.reads (h.readsAll hxs.reads)
  holding := hx.holding.of_eq (by rw [Placed.claims_cons, add_assoc])

theorem YieldsAll.reverse (h : YieldsAll J xs vs p) :
    YieldsAll J xs.reverse vs.reverse p where
  values := by
    rw [← h.values]
    exact List.map_reverse
  reads := by
    have hreads := h.reads.reverse
    rwa [Placed.cells, ← List.map_reverse, Placed.values,
      ← List.map_reverse] at hreads
  holding := h.holding.of_eq (by rw [Placed.claims_reverse])

/-- An item is copied and passed on. -/
theorem callItem_follows (hcall : FollowsCall call call')
    (hp : p.Holding J) (hf : p.memory.Anchored J f)
    (hitem : p.memory.Anchored J item) :
    Follows J p (do Run.copyCell item.cell; call f [item])
      (call' f.value [item.value]) (Yields J) := by
  refine .silent le_rfl (copyValue_follows hp hitem) fun _ p₁ h₁ hcopy => ?_
  refine hcall ?_ (hf.keeps h₁.keeps)
  exact ⟨rfl, .cons hcopy.reads .nil, hcopy.holding.of_eq (by simp)⟩

theorem mapItems_follows (hcall : FollowsCall call call')
    (hfound : YieldsAll J found vs p) (hf : p.memory.Anchored J f)
    (hitems : p.memory.AnchoredAll J items) :
    Follows J p (mapItems call f found items)
      (Library.mapItems call' f.value vs (Placed.values items))
      (YieldsAll J) := by
  induction items generalizing p found vs with
  | nil => exact .pure hfound.reverse
  | cons item items ih =>
      obtain ⟨hitem, hitems⟩ := hitems.of_cons
      have hle : J ≤ Placed.claims found + J := Multiset.le_add_left ..
      rw [mapItems, ← bind_assoc]
      refine .bind hle (callItem_follows hcall hfound.holding
        (hf.of_le hle) (hitem.of_le hle)) fun x v p₁ h₁ hx => ?_
      have hkeep := (h₁.mono hle).keeps
      exact ih (hx.cons hfound h₁) (hf.keeps hkeep) (hitems.keeps hkeep)

theorem filterItems_follows (hcall : FollowsCall call call')
    (hfound : YieldsAll J found vs p) (hf : p.memory.Anchored J f)
    (hitems : p.memory.AnchoredAll J items) :
    Follows J p (filterItems call f found items)
      (Library.filterItems call' f.value vs (Placed.values items))
      (YieldsAll J) := by
  induction items generalizing p found vs with
  | nil => exact .pure hfound.reverse
  | cons item items ih =>
      obtain ⟨hitem, hitems⟩ := hitems.of_cons
      have hle : J ≤ Placed.claims found + J := Multiset.le_add_left ..
      rw [filterItems, ← bind_assoc]
      refine .bind hle (callItem_follows hcall hfound.holding
        (hf.of_le hle) (hitem.of_le hle)) fun x v p₁ h₁ hx => ?_
      refine .silent hle (dropCell_follows hx.holding) fun _ p₂ h₂ hp₂ => ?_
      have h₁₂ := h₁.trans h₂
      have hkeep := (h₁₂.mono hle).keeps
      have hfound₂ : YieldsAll J found vs p₂ :=
        ⟨hfound.values, h₁₂.readsAll hfound.reads, hp₂⟩
      rw [hx.value]
      split
      · have hitem₂ := (hitem.keeps hkeep).of_le hle
        refine .silent hle (copyValue_follows hp₂ hitem₂) ?_
        intro _ p₃ h₃ hcopy
        have hkeep₃ := hkeep.trans (h₃.mono hle).keeps
        exact ih (hcopy.cons hfound₂ h₃) (hf.keeps hkeep₃)
          (hitems.keeps hkeep₃)
      · exact ih hfound₂ (hf.keeps hkeep) (hitems.keeps hkeep)

theorem reduceItems_follows (hcall : FollowsCall call call')
    (hx : Yields J x v p) (hf : p.memory.Anchored J f)
    (hitems : p.memory.AnchoredAll J items) :
    Follows J p (reduceItems call f x items)
      (Library.reduceItems call' f.value v (Placed.values items))
      (Yields J) := by
  induction items generalizing p x v with
  | nil => exact .pure hx
  | cons item items ih =>
      obtain ⟨hitem, hitems⟩ := hitems.of_cons
      have hle : J ≤ x.claim + J := Multiset.le_add_left ..
      refine .silent hle (copyValue_follows hx.holding (hitem.of_le hle)) ?_
      intro _ p₁ h₁ hcopy
      have hkeep := (h₁.mono hle).keeps
      have hargs : YieldsAll J [x, item] [v, item.value] p₁ := by
        refine ⟨?_, ?_, hcopy.holding.of_eq ?_⟩
        · rw [← hx.value]
          rfl
        · exact .cons (hx.anchored.keeps h₁.keeps).reads
            (.cons hcopy.reads .nil)
        · simp only [Placed.claims_cons, Placed.claims_nil]
          abel
      exact .bind le_rfl (hcall hargs (hf.keeps hkeep)) fun y w p₂ h₂ hy =>
        ih hy ((hf.keeps hkeep).keeps h₂.keeps)
          ((hitems.keeps hkeep).keeps h₂.keeps)

/-! ## All builtins -/

/-- The function and the list that the builtins which call are given. -/
theorem functionAndList_follows {k : List Placed → Run Placed}
    {k' : Value → List Value → Eval Value} (hp : p.Holding J)
    (hx : p.memory.Anchored J x)
    (hk : ∀ ys, p.memory.AnchoredAll J ys →
      Follows J p (k ys) (k' f.value (Placed.values ys)) (Yields J)) :
    Follows J p (do
      let _ ← Run.plainly (.ofAnswer (Operand.callable f.value))
      let items ← Run.plainly (.ofAnswer (Operand.list x.value))
      let items ← Run.parts items x.cell
      k items) (do
      let g ← Eval.ofAnswer (Operand.callable f.value)
      let items ← Eval.ofAnswer (Operand.list x.value)
      k' g items) (Yields J) := by
  refine .answer hp le_rfl fun g hg => .answer hp le_rfl fun vs hvs => ?_
  obtain ⟨hys, hvalues⟩ := hx.parts (value_of_operandList hvs)
  refine .parts ?_
  have hrest := hk _ hys
  rwa [hvalues, ← eq_of_callable hg] at hrest

theorem applyList_follows (hcall : FollowsCall call call')
    (hp : p.Holding J) (hxs : p.memory.AnchoredAll J [f, x]) :
    Follows J p (applyList call [f, x])
      (Library.applyList call' [f.value, x.value]) (Yields J) := by
  obtain ⟨hf, hx⟩ := hxs.of_cons
  refine functionAndList_follows hp hx.of_cons.1 fun ys hys => ?_
  refine .silent le_rfl (copyAll_refs_follows hp hys) fun _ p₁ h₁ hcopy => ?_
  exact hcall hcopy (hf.keeps h₁.keeps)

theorem map_follows (hcall : FollowsCall call call')
    (hp : p.Holding J) (hxs : p.memory.AnchoredAll J [f, x]) :
    Follows J p (map call [f, x])
      (Library.map call' [f.value, x.value]) (Yields J) := by
  obtain ⟨hf, hx⟩ := hxs.of_cons
  refine functionAndList_follows hp hx.of_cons.1 fun ys hys => ?_
  exact .bind le_rfl (mapItems_follows hcall (yieldsAll_nil hp) hf hys)
    fun _ _ p₁ _ hmapped => gather_follows hmapped

theorem filter_follows (hcall : FollowsCall call call')
    (hp : p.Holding J) (hxs : p.memory.AnchoredAll J [f, x]) :
    Follows J p (filter call [f, x])
      (Library.filter call' [f.value, x.value]) (Yields J) := by
  obtain ⟨hf, hx⟩ := hxs.of_cons
  refine functionAndList_follows hp hx.of_cons.1 fun ys hys => ?_
  exact .bind le_rfl (filterItems_follows hcall (yieldsAll_nil hp) hf hys)
    fun _ _ p₁ _ hfiltered => gather_follows hfiltered

theorem reduce_follows (hcall : FollowsCall call call')
    (hp : p.Holding J) (hxs : p.memory.AnchoredAll J [f, x, y]) :
    Follows J p (reduce call [f, x, y])
      (Library.reduce call' [f.value, x.value, y.value]) (Yields J) := by
  obtain ⟨hf, hxy⟩ := hxs.of_cons
  obtain ⟨hx, hy⟩ := hxy.of_cons
  refine functionAndList_follows hp hy.of_cons.1 fun ys hys => ?_
  refine .silent le_rfl (copyValue_follows hp hx) fun _ p₁ h₁ hcopy => ?_
  exact reduceItems_follows hcall hcopy (hf.keeps h₁.keeps)
    (hys.keeps h₁.keeps)

/-- A builtin that only computes. -/
theorem computed_follows {a : Answer Value} {o : Memory → Origin}
    (hp : p.Holding J)
    (h : Gives (fun v => Originates p.memory J v (o p.memory)) a) :
    Follows J p (do
      let v ← Run.plainly (.ofAnswer a)
      settle v (← Run.look o)) (.ofAnswer a) (Yields J) := by
  refine .of_bind_pure (.answer hp le_rfl fun v hv => .look ?_)
  exact settle_follows hp (h v hv)

theorem leavesStore_printAll (ending : String) (vs : List Value) :
    LeavesStore (Library.printAll ending vs) :=
  (leavesStore_print _).bind fun _ => leavesStore_pure _

theorem eq_nil_of_printAll {ending : String} {v : Value} {st st' : State}
    (h : Library.printAll ending vs st = .ok v st') : v = .nil := by
  simp only [Library.printAll, Bind.bind, EStateM.bind] at h
  split at h <;> cases h
  rfl

theorem printAll_follows {ending : String} {o : Memory → Origin}
    (hp : p.Holding J) (ho : ∀ m, o m = .new) :
    Follows J p (do
      let v ← Run.plainly (Library.printAll ending vs)
      settle v (← Run.look o)) (Library.printAll ending vs) (Yields J) := by
  refine .of_bind_pure (.talk hp le_rfl (leavesStore_printAll ending vs)
    fun v st hst hp' => .look ?_)
  rw [ho, eq_nil_of_printAll hst]
  exact settle_follows hp' Value.only_nil

theorem runBuiltin_follows (hcall : FollowsCall call call') (b : Builtin)
    (hp : p.Holding J) (hxs : p.memory.AnchoredAll J xs)
    (ha : b.arity.accepts xs.length = true) :
    Follows J p (runBuiltin call b xs)
      (Library.run call' b (Placed.values xs)) (Yields J) := by
  cases b with
  | apply =>
      obtain ⟨f, x, rfl⟩ := exists_of_exactly_two ha
      exact applyList_follows hcall hp hxs
  | map =>
      obtain ⟨f, x, rfl⟩ := exists_of_exactly_two ha
      exact map_follows hcall hp hxs
  | filter =>
      obtain ⟨f, x, rfl⟩ := exists_of_exactly_two ha
      exact filter_follows hcall hp hxs
  | reduce =>
      obtain ⟨f, x, y, rfl⟩ := exists_of_exactly_three ha
      exact reduce_follows hcall hp hxs
  | print | println => exact printAll_follows hp fun _ => rfl
  | list =>
      exact computed_follows (a := .ok _) hp (gives_ok ⟨xs, hxs, rfl, rfl⟩)
  | equal | and | or =>
      exact computed_follows (a := .ok _) hp (gives_ok Value.only_bool)
  | add | mul =>
      exact computed_follows hp (gives_any.map fun _ _ => Value.only_float)
  | sub | div =>
      refine computed_follows hp (gives_any.map fun _ _ => ?_)
      split <;> exact Value.only_float
  | intAdd | intMul =>
      exact computed_follows hp (gives_any.map fun _ _ => Value.only_int)
  | intSub =>
      refine computed_follows hp (gives_any.map fun _ _ => ?_)
      split <;> exact Value.only_int
  | intDiv => exact computed_follows hp gives_intDiv
  | intRem => exact computed_follows hp gives_intRem
  | abs => exact computed_follows hp gives_abs
  | min | max => exact computed_follows hp gives_extremum
  | less | greater | lessEq | greaterEq =>
      exact computed_follows hp gives_chain
  | notEqual => exact computed_follows hp gives_notEqual
  | not => exact computed_follows hp gives_not
  | toInt => exact computed_follows hp (gives_each fun _ => gives_toInt)
  | toFloat => exact computed_follows hp (gives_each fun _ => gives_toFloat)
  | toStr =>
      exact computed_follows hp
        (gives_each fun _ => gives_ok Value.only_str)
  | cons =>
      obtain ⟨x, y, rfl⟩ := exists_of_exactly_two ha
      exact computed_follows hp (originates_cons hxs)
  | conj =>
      obtain ⟨x, more, rfl⟩ := exists_of_atLeast ha
      exact computed_follows hp (originates_conj hxs)
  | concat => exact computed_follows hp (originates_concat hxs)
  | reverse =>
      obtain ⟨x, rfl⟩ := exists_of_exactly_one ha
      exact computed_follows hp (originates_reverse hxs)
  | first | head =>
      obtain ⟨x, rfl⟩ := exists_of_exactly_one ha
      exact computed_follows hp (originates_first hxs)
  | rest | tail =>
      obtain ⟨x, rfl⟩ := exists_of_exactly_one ha
      exact computed_follows hp (originates_rest hxs)
  | init =>
      obtain ⟨x, rfl⟩ := exists_of_exactly_one ha
      exact computed_follows hp (originates_init hxs)
  | last =>
      obtain ⟨x, rfl⟩ := exists_of_exactly_one ha
      exact computed_follows hp (originates_last hxs)
  | nth =>
      obtain ⟨x, y, rfl⟩ := exists_of_exactly_two ha
      exact computed_follows hp (originates_nth hxs)
  | len => exact computed_follows hp gives_len
  | range => exact computed_follows hp gives_range
  | split => exact computed_follows hp gives_split
  | join => exact computed_follows hp gives_join
  | isNil | isBool | isInt | isFloat | isNumber | isStr | isSymbol | isList
  | isAtom | isFn | isEmpty | isTrue =>
      exact computed_follows hp gives_ask
  | error => exact computed_follows hp gives_raise
  | typeOf => exact computed_follows hp gives_typeOf

theorem applyBuiltin_follows (hcall : FollowsCall call call') (b : Builtin)
    (hp : p.Holding J) (hxs : p.memory.AnchoredAll J xs) :
    Follows J p (applyBuiltin call b xs)
      (Library.apply call' b (Placed.values xs)) (Yields J) := by
  unfold Library.apply
  rw [Placed.length_values]
  refine .answer hp le_rfl fun _ ha => ?_
  exact runBuiltin_follows hcall b hp hxs (accepts_of_checkArity ha)

end Process

end SmallLisp
