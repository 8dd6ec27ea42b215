/-
  The nodes that are emitted, in the order in which they are, where ids are
  distinct.

  * `Graph.Live`: the nodes that matter, those with links and the root.
  * `Graph.IsSchedule`: an order of the live nodes in which producers come
    before their consumers.
  * `assemble_eq_ok_iff_schedule`: a compilation emits the nodes of a schedule.
  * `Emitted.operation?_self`, `Emitted.operation?_ne`: a node is bound to the
    operation that is emitted for it, and stays bound to it.
-/
import Shading.Proofs.Plan
import Shading.Proofs.Stage

namespace Shading

namespace Graph

variable {g : Graph} {r : Node} {ns : List Node}

/-- A node matters if a link begins or ends at it, or if it is the root and has
    something to emit. -/
def Live (g : Graph) (r n : Node) : Prop :=
  n ∈ g.nodes ∧ (g.isLinked n.id = true ∨ n = r ∧ r.kind.isOutput = false)

/-- An order of the nodes that matter. -/
structure IsSchedule (g : Graph) (r : Node) (ns : List Node) : Prop where
  nodup : ns.Nodup
  mem_iff : ∀ n, n ∈ ns ↔ g.Live r n
  sorted : ∀ before n after, ns = before ++ n :: after → ∀ l ∈ g.links, l.target.node = n.id →
    ∃ m ∈ before, m.id = l.source.node

/-- The linked nodes in their order, and the root after them if it has no links
    and something to emit. -/
def schedule (g : Graph) (r : Node) (ns : List Node) : List Node :=
  ns ++ if r.kind.isOutput || g.isLinked r.id then [] else [r]

theorem IsOrder.schedule (h : g.IsOrder ns) (hr : r ∈ g.nodes) :
    g.IsSchedule r (g.schedule r ns) := by
  unfold Graph.schedule
  by_cases hout : (r.kind.isOutput || g.isLinked r.id) = true
  · rw [if_pos hout, List.append_nil]
    refine ⟨h.nodup, fun n => ?_, h.sorted⟩
    rw [h.mem_iff, Live]
    refine and_congr_right fun _ => ⟨Or.inl, ?_⟩
    rintro (hlinked | ⟨rfl, hvalue⟩)
    · exact hlinked
    · simpa [hvalue] using hout
  · rw [if_neg hout]
    rw [Bool.not_eq_true, Bool.or_eq_false_iff] at hout
    have hnot : r ∉ ns := by
      rw [h.mem_iff, hout.2]
      simp
    refine ⟨h.nodup.append (List.nodup_singleton r) ?_, fun n => ?_, ?_⟩
    · rw [List.disjoint_singleton]; exact hnot
    · rw [List.mem_append, h.mem_iff, List.mem_singleton, Live]
      constructor
      · rintro (⟨hn, hlinked⟩ | rfl)
        · exact ⟨hn, Or.inl hlinked⟩
        · exact ⟨hr, Or.inr ⟨rfl, hout.1⟩⟩
      · rintro ⟨hn, hlinked | ⟨rfl, -⟩⟩
        · exact Or.inl ⟨hn, hlinked⟩
        · exact Or.inr rfl
    · intro before n after hsplit l hl htarget
      rcases eq_or_of_concat_eq hsplit with ⟨-, rfl⟩ | ⟨rest, hinit⟩
      · -- no link ends at the root itself
        have hlinked : g.isLinked n.id = true := isLinked_iff.2 ⟨l, hl, Or.inr htarget⟩
        rw [hout.2] at hlinked
        cases hlinked
      · exact h.sorted before n rest hinit l hl htarget

/-- The nodes from which a node reads are done. -/
def Ready (g : Graph) (done : List Node) (n : Node) : Prop :=
  ∀ i l, g.linkInto? n i = some l → ∃ producer ∈ done, g.node? l.source.node = some producer

/-- In a schedule the nodes from which a node reads come before it. -/
theorem IsSchedule.ready (h : g.IsSchedule r ns) (hids : g.DistinctIds)
    {before after : List Node} {n : Node} (hsplit : ns = before ++ n :: after) :
    g.Ready before n := by
  intro i l hl
  obtain ⟨hmem, htarget⟩ := mem_of_linkInto? hl
  obtain ⟨m, hm, hid⟩ := h.sorted before n after hsplit l hmem htarget
  have hlive := (h.mem_iff m).1 (hsplit ▸ List.mem_append_left _ hm)
  exact ⟨m, hm, hid ▸ hids.node? hlive.1⟩

theorem IsSchedule.ready_of_closed (h : g.IsSchedule r ns) (hclosed : g.Closed) (n : Node) :
    g.Ready ns n := by
  intro i l hl
  obtain ⟨hmem, -⟩ := mem_of_linkInto? hl
  obtain ⟨m, hm⟩ := exists_node?.2 (hclosed l hmem).1
  obtain ⟨hnode, hid⟩ := mem_of_node? hm
  refine ⟨m, (h.mem_iff m).2 ⟨hnode, Or.inl (isLinked_iff.2 ⟨l, hmem, Or.inl hid.symm⟩)⟩, hm⟩

/-- In a schedule a node has another id than the nodes before it. -/
theorem IsSchedule.id_ne (h : g.IsSchedule r ns) (hids : g.DistinctIds)
    {before after : List Node} {n m : Node} (hsplit : ns = before ++ n :: after)
    (hm : m ∈ before) : m.id ≠ n.id := by
  intro hid
  have hmlive := (h.mem_iff m).1 (hsplit ▸ List.mem_append_left _ hm)
  have hnlive := (h.mem_iff n).1 (by rw [hsplit]; simp)
  have hmn := hids.eq_of_id hmlive.1 hnlive.1 hid
  have hnodup := h.nodup
  rw [hsplit, List.nodup_append] at hnodup
  exact hnodup.2.2 m hm n (by simp) hmn

/-- In a schedule nothing up to a node reads of that node. -/
theorem IsSchedule.source_ne (h : g.IsSchedule r ns) (hids : g.DistinctIds)
    {before after : List Node} {n m : Node} (hsplit : ns = before ++ n :: after)
    (hm : m ∈ before ++ [n]) {i : Nat} {l : Link} (hl : g.linkInto? m i = some l) :
    l.source.node ≠ n.id := by
  obtain ⟨hmem, htarget⟩ := mem_of_linkInto? hl
  obtain ⟨init, rest, hinit⟩ := List.append_of_mem hm
  have hsplit' : ns = init ++ m :: (rest ++ after) := by
    rw [hsplit, ← List.singleton_append, ← List.append_assoc, hinit]
    simp
  obtain ⟨p, hp, hid⟩ := h.sorted init m _ hsplit' l hmem htarget
  have hbefore : p ∈ before := by
    rcases eq_or_of_concat_eq hinit with ⟨rfl, -⟩ | ⟨_, hlonger⟩
    · exact hp
    · rw [hlonger]
      exact List.mem_append_left _ hp
  rw [← hid]
  exact h.id_ne hids hsplit hbefore

end Graph

/-! ## Bindings -/

/-- The operation to which an emission binds its node. -/
def Emission.bound? (t : SymbolTable) (n : Node) : Emission → Option Operation
  | .nothing => none
  | .stageInput i => t.operations[i]?
  | em => em.operation? t n

/-- A node with an operation of its own is bound to it. -/
theorem Emission.bound?_of_operation? {em : Emission} {t : SymbolTable} {n : Node} {o : Operation}
    (h : em.operation? t n = some o) : em.bound? t n = some o := by
  cases em with
  | nothing | stageInput => cases h
  | sample | value | effect | synonym => exact h

namespace Compilation

variable {c c' : Compilation} {g : Graph} {n : Node} {em : Emission}

/-- Only for the stage output nothing is emitted. -/
theorem Made.isSome_index? {xs : List Operand} (h : c.Made n xs em) (t : SymbolTable) :
    (em.index? t).isSome = !n.kind.isOutput := by
  cases h with
  | sample hk | operator hk | convert hk | mask hk | pack hk | split hk | constant hk | input hk
  | output hk | call hk | voidCall hk => rw [hk]; rfl
  | declaredCall hk =>
    rw [hk]
    unfold Emission.ofCall
    dsimp only
    split <;> rfl

/-- Only the stage input makes its node stand for it. -/
theorem Made.isStageInput_iff {xs : List Operand} (h : c.Made n xs em) :
    em.isStageInput = true ↔ n.kind = .input := by
  cases h with
  | sample hk | operator hk | convert hk | mask hk | pack hk | split hk | constant hk | input hk
  | output hk | call hk | voidCall hk => simp [hk, Emission.isStageInput, Emission.ofCall]
  | declaredCall hk =>
    rename_i function type source
    cases c.typeOf? type <;> simp [hk, Emission.isStageInput, Emission.ofCall]

theorem Emitted.isBound (h : c.Emitted n em c') (id : String) :
    c'.isBound id = (c.isBound id || (n.id == id && (em.index? c.table).isSome)) := by
  unfold Compilation.isBound Dict.contains
  rw [h.bindings]
  by_cases hid : n.id = id
  · subst hid
    rw [Emission.get?_bind_self]
    cases em.index? c.table <;> simp
  · rw [Emission.get?_bind_ne (Ne.symm hid)]
    simp [hid]

/-- The nodes that are bound after a run are those that emit something. -/
theorem isBound_run {ns : List Node} (hr : ∀ n ∈ ns, c.table.Reserves n)
    (h : emitAll g c ns = (c', none)) (id : String) :
    c'.isBound id = (c.isBound id || ns.any fun n => n.id == id && !n.kind.isOutput) := by
  refine run_induct (motive := fun done d => d.isBound id =
    (c.isBound id || done.any fun n => n.id == id && !n.kind.isOutput)) hr h (by simp) ?_
  intro done n rest d em d' _ hd hplan hem
  obtain ⟨xs, -, hmade⟩ := plan_eq_ok_iff.1 hplan
  rw [hem.isBound, hd, hmade.isSome_index?, List.any_append, List.any_cons, List.any_nil,
    Bool.or_false, Bool.or_assoc]

/-- A node is bound to the operation that is emitted for it. -/
theorem Emitted.operation?_self (h : c.Emitted n em c') {o : Operation}
    (ho : em.bound? c.table n = some o) :
    ∃ o', c'.operation? n.id = some o' ∧ o'.bare = o.bare := by
  have hops : ∀ i : Nat, (c'.table.operations[i]?).map Operation.bare =
      (c.table.operations.map Operation.bare ++ (em.operation? c.table n).toList)[i]? := by
    intro i
    rw [← List.getElem?_map, h.operations]
  rw [← Option.map_eq_some_iff, Compilation.operation?, h.bindings, Emission.get?_bind_self]
  cases em with
  | nothing => cases ho
  | stageInput i =>
    simp only [Emission.index?, Option.some_or, Option.bind_some, hops]
    simp only [Emission.bound?] at ho
    simp [Emission.operation?, Emission.form?, ho]
  | sample | value | effect | synonym =>
    simp only [Emission.index?, Option.some_or, Option.bind_some, hops]
    cases ho
    simp [Emission.operation?, Emission.form?, Operation.bare]

/-- Other nodes stay bound to their operations. -/
theorem Emitted.operation?_ne (h : c.Emitted n em c') {id : String} (hid : id ≠ n.id)
    {o : Operation} (ho : c.operation? id = some o) :
    ∃ o', c'.operation? id = some o' ∧ o'.bare = o.bare := by
  obtain ⟨i, hi, ho⟩ := Option.bind_eq_some_iff.1 ho
  have hget : c'.bindings.get? id = some i := by
    rw [h.bindings, Emission.get?_bind_ne hid, hi]
  have hlt := (List.getElem?_eq_some_iff.1 ho).1
  have hop : (c'.table.operations[i]?).map Operation.bare = some o.bare := by
    rw [← List.getElem?_map, h.operations, List.getElem?_append_left (by simpa using hlt),
      List.getElem?_map, ho]
    rfl
  obtain ⟨o', ho', hbare⟩ := Option.map_eq_some_iff.1 hop
  exact ⟨o', by rw [Compilation.operation?, hget]; exact ho', hbare⟩

/-- What is read of an operation stays as it is. -/
theorem Emitted.readAt (h : c.Emitted n em c') {o o' : Operation} (ho : o'.bare = o.bare)
    (producer : Node) (type : ValueType) (pin : Option Pin) :
    c'.readAt producer o' type pin = c.readAt producer o type pin := by
  rw [readAt_eq, readAt_eq, member?_congr h.registry ((Follows.refl c).step h).struct?]
  simp only [wholeValue, h.inline, Operation.reference_of_bare ho, Operation.expansion_of_bare ho,
    Operation.name_of_bare ho]

/-- What a node reads stays as it is, unless it reads of the node that is
    emitted. -/
theorem Emitted.operandNo (h : c.Emitted n em c') {m : Node} {i : Nat} {x : Operand}
    (hm : ∀ l, g.linkInto? m i = some l → l.source.node ≠ n.id)
    (hx : c.operandNo g m i = .ok x) : c'.operandNo g m i = .ok x := by
  rw [operandNo_eq_ok_iff] at hx ⊢
  rcases hx with ⟨hnone, rfl⟩ | ⟨l, producer, hl, hproducer, hx⟩
  · refine Or.inl ⟨hnone, ?_⟩
    simp only [unlinked, defaultOperand, typeOf?, h.registry]
  · obtain ⟨o, type, ho, ht, rfl⟩ := valueOf_eq_ok_iff.1 hx
    have hid := (Graph.mem_of_node? hproducer).2
    obtain ⟨o', ho', hbare⟩ := h.operation?_ne (hid ▸ hm l hl) ho
    have ht' : o'.type? = some type := (Operation.type?_of_bare hbare).trans ht
    exact Or.inr ⟨l, producer, hl, hproducer, valueOf_eq_ok_iff.2
      ⟨o', type, ho', ht', (h.readAt hbare producer type _).symm⟩⟩

end Compilation

/-! ## Compilations -/

namespace Compiler

variable {ρ : Type} (k : Compiler ρ) (g : Graph) (root : String) (e : EntryPoint)

/-- **Where ids are distinct, a compilation emits the nodes of a schedule,** and
    then writes the body. -/
theorem assemble_eq_ok_iff_schedule (hbefore : ∀ hook ∈ k.before, hook.Proper)
    (hids : g.DistinctIds) {c : Compilation} {b : Body} :
    k.assemble g root e = .ok (c, b) ↔
      (∃ t, (k.start e).table.reserveMethods g.nodes = (t, none)) ∧
      ∃ r ns d, g.node? root = some r ∧ g.order = .ok ns ∧
        Compilation.emitAll g (k.stage g e) (g.schedule r ns) = (d, none) ∧
        d.body g r e.name k.options.semantic = (c, b) ∧ b.failure = none := by
  rw [assemble_eq_ok_iff]
  refine and_congr_right fun hreserve => ?_
  have hreserves := k.stage_reserves g e hbefore hreserve
  -- the root is bound after the linked nodes exactly if it is one of them
  have hbound : ∀ {r ns d}, g.node? root = some r → g.order = .ok ns →
      Compilation.emitAll g (k.stage g e) ns = (d, none) →
      (r.kind.isOutput || d.isBound r.id) = (r.kind.isOutput || g.isLinked r.id) := by
    intro r ns d hr horder hrun
    have hmem := (Graph.mem_of_node? hr).1
    have hord := Graph.order_isOrder hids horder
    have hns : ∀ n ∈ ns, (k.stage g e).table.Reserves n :=
      fun n hn => hreserves n (Graph.mem_of_order horder hn)
    cases hout : r.kind.isOutput with
    | true => rfl
    | false =>
      rw [Bool.false_or, Bool.false_or, Compilation.isBound_run hns hrun]
      have hstage : (k.stage g e).isBound r.id = false := rfl
      rw [hstage, Bool.false_or, Bool.eq_iff_iff, List.any_eq_true]
      constructor
      · rintro ⟨n, hn, hid⟩
        rw [Bool.and_eq_true, beq_iff_eq] at hid
        exact hid.1 ▸ ((hord.mem_iff n).1 hn).2
      · intro hlinked
        exact ⟨r, (hord.mem_iff r).2 ⟨hmem, hlinked⟩, by simp [hout]⟩
  simp only [Graph.node_eq_ok_iff, Compilation.emitRoot_eq_none_iff]
  constructor
  · rintro ⟨r, ns, d, d', hr, horder, hrun, hroot, hbody⟩
    refine ⟨r, ns, d', hr, horder, ?_, hbody⟩
    rw [hbound hr horder hrun] at hroot
    rw [Graph.schedule, Compilation.emitAll_append, hrun]
    exact hroot
  · rintro ⟨r, ns, d', hr, horder, hrun, hbody⟩
    rw [Graph.schedule, Compilation.emitAll_append] at hrun
    cases hd : Compilation.emitAll g (k.stage g e) ns with
    | mk d f =>
      rw [hd] at hrun
      cases f with
      | some f => cases hrun
      | none =>
        refine ⟨r, ns, d, d', hr, horder, hd, ?_, hbody⟩
        rw [hbound hr horder hd]
        exact hrun

end Compiler

end Shading
