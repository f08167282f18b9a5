import SmallLisp.Memory

/-!
# Counts that are exact

A node has counted every reference to it. What a reference is kept in makes
no difference to that, so counts stay exact when a reference is moved from
a node to the outside or back. They stay exact, too, when a node is added
or taken away, as long as the references that it holds are taken from the
outside or handed back there. `Exact.write` is the arithmetic of it, and
the operations on the memory follow one by one.

Whether counts are exact can be checked: it is enough to look at the
references that occur anywhere (`exact_iff_forall_mem`).
-/

namespace SmallLisp

namespace Cell

@[simp] theorem refs_nil : refs [] = [] := rfl

@[simp] theorem refs_cons (c : Cell) (cs : List Cell) :
    refs (c :: cs) = c.ref?.toList ++ refs cs := by
  cases h : c.ref? <;> simp [refs, h]

/-- Of values that have been moved out, nothing refers anywhere. -/
@[simp] theorem refs_map_nil (cs : List Cell) :
    refs (cs.map fun _ => .plain .nil) = [] := by
  induction cs with
  | nil => rfl
  | cons c cs ih => exact ih

end Cell

namespace Node

/-! What has been moved out of a node, and what it still holds. -/

theorem refs_list (items : List Cell) : (Node.list items).refs =
    Cell.refs items ++ (Node.list items).hollow.refs := by
  simp only [refs, hollow, Cell.refs_map_nil, List.append_nil]

theorem refs_lambda (body : List Cell) (s : Nat) :
    (Node.lambda body s).refs =
      Cell.refs body ++ (Node.lambda body s).hollow.refs := by
  simp only [refs, hollow, Cell.refs_map_nil, List.nil_append]

theorem refs_scope (bindings : List (String × Cell)) (parent : Option Nat) :
    (Node.scope bindings parent).refs =
      (Node.scope bindings parent).refs ++
        (Node.scope bindings parent).hollow.refs :=
  (List.append_nil _).symm

end Node

namespace Memory

variable {m m' m'' : Memory} {r s : Ref} {rs rs' ks ks' hs hs' : List Ref}

/-! ## Exact counts -/

theorem refsTo_write {e : Entry r.kind} (h : m.get? r = some e)
    (o : Option (Entry r.kind)) :
    (m.write r o).refsTo s + e.node.refs.count s =
      m.refsTo s + o.elim 0 fun e => e.node.refs.count s :=
  total_write _ h o

theorem count_write_self {e : Entry r.kind} (h : m.get? r = some e)
    (o : Option (Entry r.kind)) :
    (m.write r o).count r = o.elim 0 Entry.count := by
  rw [count, get?_write_self h]

theorem count_write_of_ne (o : Option (Entry r.kind)) (h : r ≠ s) :
    (m.write r o).count s = m.count s := by
  rw [count, count, get?_write_of_ne o h]

theorem alter_eq {e : Entry r.kind} (h : m.get? r = some e)
    (f : Entry r.kind → Entry r.kind) :
    m.alter r f = m.write r (some (f e)) := by
  simp [alter, h]

/-- The references in one node are among all of them. -/
theorem count_refs_le_refsTo {e : Entry r.kind} (h : m.get? r = some e)
    (s : Ref) : e.node.refs.count s ≤ m.refsTo s := by
  have := refsTo_write (s := s) h none
  rw [Option.elim_none] at this
  omega

/-- What is referred to from somewhere is there. -/
theorem Exact.exists_get? (h : m.Exact hs)
    (hr : 0 < m.refsTo r + hs.count r) :
    ∃ e, m.get? r = some e ∧ 0 < e.count := by
  rw [← h r] at hr
  cases he : m.get? r with
  | none => simp [count, he] at hr
  | some e =>
      rw [count_of_get? he] at hr
      exact ⟨e, rfl, hr⟩

theorem exact_empty : Memory.empty.Exact [] := by
  intro r
  obtain ⟨k, i⟩ := r
  cases k with
  | list => rfl
  | lambda => rfl
  | scope => rfl

theorem Exact.exists_of_held (h : m.Exact hs) (hr : r ∈ hs) :
    ∃ e, m.get? r = some e ∧ 0 < e.count :=
  h.exists_get? (Nat.lt_add_left _ (List.count_pos_iff.2 hr))

theorem Exact.exists_of_ref {e : Entry s.kind} (h : m.Exact hs)
    (he : m.get? s = some e) (hr : r ∈ e.node.refs) :
    ∃ e', m.get? r = some e' ∧ 0 < e'.count := by
  refine h.exists_get? (Nat.lt_add_right _ ?_)
  exact Nat.lt_of_lt_of_le (List.count_pos_iff.2 hr)
    (count_refs_le_refsTo he r)

/-- What is held outside or in a node is there. -/
theorem Exact.exists_node? (h : m.Exact hs)
    (hr : r ∈ hs ∨ ∃ q, m.Holds q r) : ∃ x, m.node? r = some x := by
  obtain ⟨e, he, -⟩ : ∃ e, m.get? r = some e ∧ 0 < e.count := by
    rcases hr with hr | ⟨q, x, hx, hr⟩
    · exact h.exists_of_held hr
    · obtain ⟨e, he, rfl⟩ := Option.map_eq_some_iff.1 hx
      exact h.exists_of_ref he hr
  exact ⟨e.node, by rw [node?, he, Option.map_some]⟩

/-- A node to which the only reference is held does not hold itself. -/
theorem Exact.not_mem_refs {e : Entry r.kind} (h : m.Exact (r :: hs))
    (he : m.get? r = some e) (hc : e.count = 1) : r ∉ e.node.refs := by
  intro hmem
  have hself := h r
  have hrefs := count_refs_le_refsTo he r
  have hpos := List.count_pos_iff.2 hmem
  rw [count_of_get? he, List.count_cons_self] at hself
  omega

theorem Exact.perm (h : m.Exact hs) (hp : hs.Perm hs') : m.Exact hs' := by
  intro s
  rw [h s, hp.count_eq]

/-- Counts stay exact if a node is replaced and the references that go or
come make up for it: for other nodes in number, for the node itself
together with what it has counted. -/
theorem Exact.write {e : Entry r.kind} (h : m.Exact hs)
    (he : m.get? r = some e) {o : Option (Entry r.kind)}
    (hself : o.elim 0 Entry.count + (e.node.refs.count r + hs.count r) =
      e.count + ((o.elim 0 fun e => e.node.refs.count r) + hs'.count r))
    (hother : ∀ s, r ≠ s → e.node.refs.count s + hs.count s =
      (o.elim 0 fun e => e.node.refs.count s) + hs'.count s) :
    (m.write r o).Exact hs' := by
  intro s
  have hs := h s
  have hrefs := refsTo_write (s := s) he o
  by_cases hrs : r = s
  · subst hrs
    rw [count_write_self he]
    rw [count_of_get? he] at hs
    omega
  · rw [count_write_of_ne _ hrs]
    have := hother s hrs
    omega

theorem Exact.lose (h : m.Exact (r :: hs)) : (m.lose r).Exact hs := by
  obtain ⟨e, he, hpos⟩ := h.exists_of_held (List.mem_cons_self ..)
  rw [Memory.lose, alter_eq he]
  refine h.write he ?_ fun s hrs => ?_
  · simp only [Option.elim_some, List.count_cons_self]
    omega
  · simp only [Option.elim_some, List.count_cons_of_ne hrs]

/-- The last reference to a node is exchanged for those that the node
holds. -/
theorem Exact.erase {e : Entry r.kind} (h : m.Exact (r :: hs))
    (he : m.get? r = some e) (hc : e.count = 1) :
    (m.erase r).Exact (e.node.refs ++ hs) := by
  refine h.write he ?_ fun s hrs => ?_
  · simp only [Option.elim_none, List.count_cons_self, List.count_append]
    omega
  · simp only [Option.elim_none, List.count_cons_of_ne hrs,
      List.count_append]
    omega

/-- References that are moved out of a node are held afterwards. -/
theorem Exact.hollow {e : Entry r.kind} {out : List Ref} (h : m.Exact hs)
    (he : m.get? r = some e)
    (hout : e.node.refs = out ++ e.node.hollow.refs) :
    (m.hollow r).Exact (out ++ hs) := by
  rw [Memory.hollow, alter_eq he]
  refine h.write he ?_ fun s _ => ?_
  all_goals
    simp only [Option.elim_some, hout, List.count_append]
    omega

/-! ## References that are copied, nodes that are added -/

theorem Exact.share {e : Entry r.kind} (h : m.Exact hs)
    (he : m.get? r = some e) : (m.share r).Exact (r :: hs) := by
  rw [Memory.share, alter_eq he]
  refine h.write he ?_ fun s hrs => ?_
  · simp only [Option.elim_some, List.count_cons_self]
    omega
  · simp only [Option.elim_some, List.count_cons_of_ne hrs]

theorem total_add (f : (k : NodeKind) → Entry k → Nat) {k : NodeKind}
    (x : Node k) : (m.add x).total f = m.total f + f k ⟨1, x⟩ := by
  have hself : total.sumOf (m.add x) f k =
      total.sumOf m f k + f k ⟨1, x⟩ := by
    simp only [total.sumOf, table_add_self, Array.toList_push]
    exact sumBy_concat ..
  have hne {l : NodeKind} (h : k ≠ l) :
      total.sumOf (m.add x) f l = total.sumOf m f l := by
    rw [total.sumOf, table_add_of_ne x h, total.sumOf]
  unfold total
  cases k with
  | list =>
      rw [hself, hne (l := .lambda) (by simp), hne (l := .scope) (by simp)]
      omega
  | lambda =>
      rw [hself, hne (l := .list) (by simp), hne (l := .scope) (by simp)]
      omega
  | scope =>
      rw [hself, hne (l := .list) (by simp), hne (l := .lambda) (by simp)]
      omega

theorem get?_next {k : NodeKind} : m.get? (m.next k) = none := by
  show ((m.table k)[(m.table k).size]?).join = none
  rw [Array.getElem?_eq_none (Nat.le_refl _)]
  rfl

theorem get?_add_next {k : NodeKind} (x : Node k) :
    (m.add x).get? (m.next k) = some ⟨1, x⟩ := by
  show (((m.add x).table k)[(m.table k).size]?).join = some ⟨1, x⟩
  rw [table_add_self, Array.getElem?_push_size]
  rfl

theorem get?_add_of_ne {k : NodeKind} (x : Node k) (h : m.next k ≠ r) :
    (m.add x).get? r = m.get? r := by
  obtain ⟨l, i⟩ := r
  unfold get?
  by_cases hk : k = l
  · subst hk
    have hi : i ≠ (m.table k).size := fun hi => h (hi ▸ rfl)
    simp only [table_add_self, Array.getElem?_push, if_neg hi]
  · simp only [table_add_of_ne x hk]

/-- A node takes in the references that it holds, and there is one reference
to it. -/
theorem Exact.add {k : NodeKind} {x : Node k} (h : m.Exact (x.refs ++ hs)) :
    (m.add x).Exact (m.next k :: hs) := by
  intro s
  have hs := h s
  have hrefs : (m.add x).refsTo s = m.refsTo s + x.refs.count s :=
    total_add _ x
  rw [List.count_append] at hs
  by_cases hnext : m.next k = s
  · subst hnext
    rw [count, get?_next, Option.elim_none] at hs
    rw [count_of_get? (get?_add_next x), List.count_cons_self]
    dsimp only
    omega
  · rw [count, get?_add_of_ne x hnext, List.count_cons_of_ne hnext]
    rw [count] at hs
    omega

/-- A value is moved into a scope, and one that it replaces is moved out. -/
theorem Exact.bind {id n : Nat} {bindings : List (String × Cell)}
    {parent : Option Nat} {c : Cell} (name : String)
    (h : m.Exact (c.ref?.toList ++ hs))
    (he : m.get? ⟨.scope, id⟩ = some ⟨n, .scope bindings parent⟩) :
    (m.bind id name c).Exact
      (Cell.refs ((bindings.filter (·.1 = name)).map Prod.snd) ++ hs) := by
  have hsplit (s : Ref) : (Cell.refs (bindings.map Prod.snd)).count s =
      (Cell.refs ((bindings.filter (·.1 = name)).map Prod.snd)).count s +
      (Cell.refs ((bindings.filter (·.1 ≠ name)).map Prod.snd)).count s := by
    have hp := ((List.filter_append_perm (fun b => decide (b.1 = name))
      bindings).map Prod.snd).filterMap Cell.ref?
    rw [Cell.refs, ← hp.count_eq, List.map_append, List.filterMap_append,
      List.count_append]
    simp only [decide_not, Cell.refs]
  rw [Memory.bind, alter_eq he]
  refine h.write he ?_ fun s _ => ?_
  all_goals
    simp only [Option.elim_some, Node.refs, List.map_cons, Cell.refs_cons,
      List.count_append, hsplit]
    omega

/-! ## Checking -/

/-- The references that occur anywhere. -/
def mentioned (m : Memory) (held : List Ref) : List Ref :=
  of .list ++ of .lambda ++ of .scope ++ held
where
  of (k : NodeKind) : List Ref :=
    (List.range (m.table k).size).map (Ref.mk k) ++
      (m.table k).toList.flatMap fun o => o.elim [] fun e => e.node.refs

theorem mem_mentioned_of_kind {k : NodeKind} (h : r ∈ mentioned.of m k) :
    r ∈ m.mentioned hs := by
  cases k <;> simp [mentioned, h]

theorem count_eq_zero_of_not_mem (h : r ∉ m.mentioned hs) :
    m.count r = 0 := by
  cases he : m.get? r with
  | none => simp [count, he]
  | some e =>
      refine absurd (mem_mentioned_of_kind (k := r.kind) ?_) h
      refine List.mem_append_left _ (List.mem_map.2 ⟨r.id, ?_, rfl⟩)
      exact List.mem_range.2 (lt_of_get? he)

theorem refsTo_eq_zero_of_not_mem (h : r ∉ m.mentioned hs) :
    m.refsTo r = 0 := by
  have hsum (k : NodeKind) :
      total.sumOf m (fun _ e => e.node.refs.count r) k = 0 := by
    refine sumBy_eq_zero _ _ fun o ho => ?_
    cases o with
    | none => rfl
    | some e =>
        refine List.count_eq_zero.2 fun hr => h ?_
        refine mem_mentioned_of_kind (k := k) (List.mem_append_right _ ?_)
        exact List.mem_flatMap.2 ⟨some e, ho, hr⟩
  simp [refsTo, total, hsum]

/-- Counts are exact if they are for the references that occur. -/
theorem exact_iff_forall_mem : m.Exact hs ↔
    ∀ r ∈ m.mentioned hs, m.count r = m.refsTo r + hs.count r := by
  refine ⟨fun h r _ => h r, fun h r => ?_⟩
  by_cases hr : r ∈ m.mentioned hs
  · exact h r hr
  · have hout : r ∉ hs := fun hm => hr (List.mem_append_right _ hm)
    rw [count_eq_zero_of_not_mem hr, refsTo_eq_zero_of_not_mem hr,
      List.count_eq_zero.2 hout]

instance : Decidable (m.Exact hs) :=
  decidable_of_iff _ exact_iff_forall_mem.symm

end Memory

end SmallLisp
