/-
  The operations of a compilation and the nodes they are for, where ids are
  distinct.

  * `NodeKind.isOperation`: the nodes for which an operation is added, all but
    the stage input and the stage output.
  * `Compilation.Inventory`: there is one operation for each such node, in the
    order of the nodes, to which the node is bound.  Every node keeps that
    (`Inventory.step`).
  * `operations_match_nodes`: so it is at the end of a compilation, and without
    inlining each operation but those of splits has its statement.
-/
import Shading.Proofs.Statements

namespace Shading

namespace NodeKind

/-- Whether a node is the stage input. -/
def isInput : NodeKind → Bool
  | input => true
  | _ => false

/-- Whether an operation is added for a node. -/
def isOperation (k : NodeKind) : Bool := !k.isInput && !k.isOutput

end NodeKind

/-- The node of an operation, and whether the definition is empty. -/
def Operation.entry (o : Operation) : Option String × Bool :=
  (o.node, o.definitionText.isEmpty)

theorem Operation.isSome_statement? (o : Operation) :
    o.statement?.isSome = !o.definitionText.isEmpty := by
  obtain ⟨node, form, refs, consumers⟩ := o
  cases form with
  | value name type definition inlinable | effect call =>
    unfold statement? emits
    cases (Operation.definitionText _).isEmpty <;> rfl
  | synonym target type => rfl

/-- The entry of the operation for a node: only a split defines nothing. -/
def Node.entry (n : Node) : Option String × Bool :=
  (some n.id, n.kind.isSplit)

/-- An element of a filtered list at whose end one more is added. -/
theorem getElem?_filter_concat {α : Type} {p : α → Bool} {as : List α} {a b : α} {i : Nat}
    (h : ((as ++ [a]).filter p)[i]? = some b) :
    ((as.filter p)[i]? = some b ∧ b ∈ as) ∨ (i = (as.filter p).length ∧ b = a ∧ p a = true) := by
  rw [List.filter_append] at h
  rcases Nat.lt_or_ge i (as.filter p).length with hi | hi
  · rw [List.getElem?_append_left hi] at h
    exact Or.inl ⟨h, (List.mem_filter.1 (List.mem_of_getElem? h)).1⟩
  · rw [List.getElem?_append_right hi] at h
    have hmem := List.mem_filter.1 (List.mem_of_getElem? h)
    obtain rfl : b = a := by simpa using hmem.1
    have hlt := (List.getElem?_eq_some_iff.1 h).1
    have hle : ([b].filter p).length ≤ 1 := List.length_filter_le _ _
    exact Or.inr ⟨by omega, rfl, hmem.2⟩

theorem forall₂_filterMap {α β γ : Type} {R : α → β → Prop} {p : α → Bool} {f : β → Option γ}
    {as : List α} {bs : List β} (h : List.Forall₂ R as bs)
    (hf : ∀ a b, R a b → (f b).isSome = p a) :
    List.Forall₂ (fun a c => ∃ b, R a b ∧ f b = some c) (as.filter p) (bs.filterMap f) := by
  induction h with
  | nil => exact .nil
  | cons hab _ ih =>
    have hsome := hf _ _ hab
    cases hc : f _ with
    | none =>
      rw [hc] at hsome
      rw [List.filter_cons_of_neg (by simp [← hsome]), List.filterMap_cons_none hc]
      exact ih
    | some c =>
      rw [hc] at hsome
      rw [List.filter_cons_of_pos (by simp [← hsome]), List.filterMap_cons_some hc]
      exact .cons ⟨_, hab, hc⟩ ih

namespace Compilation

variable {c d d' : Compilation} {g : Graph} {n : Node} {em : Emission}

/-! ## One node -/

theorem Made.index?_eq {xs : List Operand} (h : c.Made n xs em) (t : SymbolTable) :
    em.index? t =
      if n.kind.isOutput then none
      else if n.kind.isInput then c.inputVar else some t.operations.length := by
  cases h with
  | input hk hnode hvar => rw [hk, hvar]; rfl
  | sample hk | operator hk | convert hk | mask hk | pack hk | split hk | constant hk | output hk
  | call hk | voidCall hk => rw [hk]; rfl
  | declaredCall hk =>
    rw [hk]
    unfold Emission.ofCall
    dsimp only
    split <;> rfl

theorem Made.operation?_eq_none {xs : List Operand} (h : c.Made n xs em) (t : SymbolTable) :
    em.operation? t n = none ↔ n.kind.isOperation = false := by
  cases h with
  | sample hk | operator hk | convert hk | mask hk | pack hk | split hk | constant hk | input hk
  | output hk | call hk | voidCall hk =>
    rw [hk]
    simp [Emission.operation?, Emission.form?, Emission.ofCall, NodeKind.isOperation,
      NodeKind.isInput, NodeKind.isOutput]
  | declaredCall hk =>
    rename_i function type source
    rw [hk]
    cases c.typeOf? type <;>
      simp [Emission.operation?, Emission.form?, Emission.ofCall, NodeKind.isOperation,
        NodeKind.isInput, NodeKind.isOutput]

/-- The operation that is added for a node has its entry. -/
theorem Made.entry {xs : List Operand} (h : c.Made n xs em) {t : SymbolTable} {o : Operation}
    (ho : em.operation? t n = some o) : o.entry = n.entry := by
  have hnode : o.node = some n.id := by
    obtain ⟨form, -, rfl⟩ := Option.map_eq_some_iff.1 ho
    rfl
  rw [Operation.entry, Operation.isEmpty_definitionText (h.writable ho), hnode, h.isSynonym_eq ho,
    Node.entry]

/-! ## All nodes -/

/-- After the nodes `ns` there is one operation for each of them that has one,
    after that of the stage input, and the nodes are bound to these. -/
structure Inventory (ns : List Node) (d : Compilation) : Prop where
  inputVar : d.inputVar = some 0
  operations : d.table.operations.map Operation.entry =
    (none, true) :: (ns.filter (·.kind.isOperation)).map Node.entry
  bound : ∀ i n, (ns.filter (·.kind.isOperation))[i]? = some n →
    d.bindings.get? n.id = some (i + 1)
  stageInput : ∀ n ∈ ns, n.kind.isInput = true → d.bindings.get? n.id = some 0
  only : ∀ id i, d.bindings.get? id = some i → ∃ n ∈ ns, n.id = id ∧ n.kind.isOutput = false

theorem map_entry_bare (os : List Operation) :
    (os.map Operation.bare).map Operation.entry = os.map Operation.entry := by
  rw [List.map_map]
  rfl

theorem Emitted.entries (hplan : c.plan g n = .ok em) (hem : c.Emitted n em d) :
    d.table.operations.map Operation.entry =
      c.table.operations.map Operation.entry ++
        ([n].filter (·.kind.isOperation)).map Node.entry := by
  obtain ⟨xs, -, hmade⟩ := plan_eq_ok_iff.1 hplan
  have hnone := hmade.operation?_eq_none c.table
  rw [← map_entry_bare, hem.operations, List.map_append, map_entry_bare]
  congr 1
  cases ho : em.operation? c.table n with
  | none => simp [hnone.1 ho]
  | some o =>
    have hop : n.kind.isOperation = true := by
      rw [← Bool.not_eq_false, ← hnone, ho]
      simp
    simp [hop, hmade.entry ho]

theorem Inventory.length_operations {ns : List Node} (h : d.Inventory ns) :
    d.table.operations.length = (ns.filter (·.kind.isOperation)).length + 1 := by
  simpa using congrArg List.length h.operations

/-- **A node that is emitted keeps the inventory.** -/
theorem Inventory.step {done : List Node} (h : d.Inventory done) (hne : ∀ m ∈ done, m.id ≠ n.id)
    (hplan : d.plan g n = .ok em) (hem : d.Emitted n em d') : d'.Inventory (done ++ [n]) := by
  obtain ⟨xs, -, hmade⟩ := plan_eq_ok_iff.1 hplan
  have hindex := hmade.index?_eq d.table
  rw [h.inputVar, h.length_operations] at hindex
  -- what the new binding leaves as it is
  have hother : ∀ id, id ≠ n.id → d'.bindings.get? id = d.bindings.get? id := by
    intro id hid
    rw [hem.bindings, Emission.get?_bind_ne hid]
  have hself : ∀ i, em.index? d.table = some i → d'.bindings.get? n.id = some i := by
    intro i hi
    rw [hem.bindings, Emission.get?_bind_self, hi, Option.some_or]
  constructor
  case inputVar => rw [hem.inputVar, h.inputVar]
  case operations => rw [hem.entries hplan, h.operations, List.filter_append, List.map_append,
    List.cons_append]
  case bound =>
    intro i m hm
    rcases getElem?_filter_concat hm with ⟨hold, hmem⟩ | ⟨rfl, rfl, hop⟩
    · rw [hother _ (hne m hmem), h.bound i m hold]
    · rw [NodeKind.isOperation, Bool.and_eq_true, Bool.not_eq_true', Bool.not_eq_true'] at hop
      rw [hop.1, hop.2] at hindex
      exact hself _ hindex
  case stageInput =>
    intro m hm hinput
    rw [List.mem_append, List.mem_singleton] at hm
    rcases hm with hm | rfl
    · rw [hother _ (hne m hm), h.stageInput m hm hinput]
    · have hout : m.kind.isOutput = false := by
        revert hinput
        cases m.kind <;> simp [NodeKind.isInput, NodeKind.isOutput]
      rw [hinput, hout] at hindex
      exact hself _ hindex
  case only =>
    intro id i hi
    by_cases hid : id = n.id
    · refine ⟨n, by simp, hid.symm, ?_⟩
      by_contra hout
      rw [Bool.not_eq_false] at hout
      rw [hid, hem.bindings, Emission.get?_bind_self, hindex, hout] at hi
      obtain ⟨m, hm, hmid, -⟩ := h.only n.id i hi
      exact hne m hm hmid
    · rw [hother id hid] at hi
      obtain ⟨m, hm, hmid, hout⟩ := h.only id i hi
      exact ⟨m, List.mem_append_left _ hm, hmid, hout⟩

/-- Each node that has an operation is bound to the one in its place. -/
theorem Inventory.operation? {ns : List Node} (h : d.Inventory ns) {i : Nat} {n : Node}
    (hn : (ns.filter (·.kind.isOperation))[i]? = some n) :
    ∃ o, d.table.operations[i + 1]? = some o ∧ d.operation? n.id = some o ∧ o.entry = n.entry := by
  have hentry : (d.table.operations[i + 1]?).map Operation.entry = some n.entry := by
    rw [← List.getElem?_map, h.operations, List.getElem?_cons_succ, List.getElem?_map, hn,
      Option.map_some]
  obtain ⟨o, ho, hentry⟩ := Option.map_eq_some_iff.1 hentry
  refine ⟨o, ho, ?_, hentry⟩
  rw [Compilation.operation?, h.bound i n hn, Option.bind_some, ho]

theorem operation?_closed (id : String) : d.closed.operation? id = d.operation? id := by
  obtain ⟨identifiers, hclosed⟩ := d.closed_eq
  rw [hclosed]
  rfl

theorem Inventory.closed {ns : List Node} (h : d.Inventory ns) : d.closed.Inventory ns := by
  obtain ⟨identifiers, hclosed⟩ := d.closed_eq
  rw [hclosed]
  exact ⟨h.inputVar, h.operations, h.bound, h.stageInput, h.only⟩

end Compilation

/-! ## Statements -/

namespace Compiler.Trace

open Compilation

variable {ρ : Type} {k : Compiler ρ} {g : Graph} {e : EntryPoint} {r : Node} {ns : List Node}
  {d : Compilation} {xs : List Operand} (h : k.Trace g e r ns d xs)
include h

theorem inventory : d.Inventory ns := by
  have hops := stage_operations_of_nil h.noHooks h.reserved
  refine run_induct (motive := fun done d => d.Inventory done) h.reserves h.run ?_ ?_
  · constructor
    case inputVar =>
      have hlen := congrArg List.length hops
      rw [k.stage_operations g e, List.length_append] at hlen
      rw [stage_inputVar]
      congr 1
      exact Nat.add_right_cancel hlen
    case operations => rw [hops]; rfl
    case bound => simp
    case stageInput => simp
    case only => simp
  · intro done n rest d em d' hns hd hplan hem
    exact hd.step (fun m hm => h.schedule.id_ne h.distinctIds hns hm) hplan hem

/-- The operations after that of the stage input are those of the nodes. -/
theorem forall₂_operations {o : Operation} {os : List Operation}
    (hops : d.table.operations = o :: os) :
    List.Forall₂ (fun n o => d.operation? n.id = some o ∧ o.entry = n.entry)
      (ns.filter (·.kind.isOperation)) os := by
  have hlen := h.inventory.length_operations
  rw [hops, List.length_cons, Nat.add_right_cancel_iff] at hlen
  refine List.forall₂_iff_get.2 ⟨hlen.symm, fun i hi hi' => ?_⟩
  obtain ⟨o', ho', hbound, hentry⟩ := h.inventory.operation? (List.getElem?_eq_getElem hi)
  rw [hops, List.getElem?_cons_succ] at ho'
  obtain ⟨_, rfl⟩ := List.getElem?_eq_some_iff.1 ho'
  exact ⟨hbound, hentry⟩

/-- Without inlining, the operations of nodes but of splits have one statement
    each. -/
theorem forall₂_statements (hinline : k.options.inline = false) :
    List.Forall₂ (fun n s => ∃ o, d.operation? n.id = some o ∧ o.statement? = some s)
      ((ns.filter (·.kind.isOperation)).filter (!·.kind.isSplit)) d.statements := by
  obtain ⟨o, os, hops, hstage, -⟩ := List.map_eq_cons_iff.1 h.inventory.operations
  have hstatements : d.statements = os.filterMap Operation.statement? := by
    have hkept : ∀ o ∈ d.table.operations, (!d.isSubstituted o) = true := by
      intro o _
      rw [isSubstituted, h.inline, hinline]
      rfl
    have hnone : o.statement? = none := by
      rw [← Option.not_isSome_iff_eq_none, o.isSome_statement?]
      simp [show o.definitionText.isEmpty = true from congrArg Prod.snd hstage]
    rw [Compilation.statements, List.filter_eq_self.2 hkept, hops, List.filterMap_cons_none hnone]
  rw [hstatements]
  refine (forall₂_filterMap (h.forall₂_operations hops) ?_).imp ?_
  · rintro n o ⟨-, hentry⟩
    have hempty : o.definitionText.isEmpty = n.kind.isSplit := congrArg Prod.snd hentry
    rw [o.isSome_statement?, hempty]
  · rintro n s ⟨o, ⟨hbound, -⟩, hs⟩
    exact ⟨o, hbound, hs⟩

end Compiler.Trace

/-- **There is one operation for each node that has one, none lost and none
    twice.**  Where ids are distinct, the operations of a compilation without
    hooks are that of the stage input and those of the nodes that matter, in
    their order; and without inlining each of these but those of splits has its
    statement in the body, in the same order.  The statements are the lines of
    the body, which stands after the header. -/
theorem operations_match_nodes {ρ : Type} (k : Compiler ρ) (hbefore : k.before = [])
    (hafter : k.after = []) (g : Graph) (hids : g.DistinctIds) (root : String) (e : EntryPoint)
    {s : Shader} (hok : (k.generate g root e).result = .ok s) :
    ∃ c b r ns, k.assemble g root e = .ok (c, b) ∧ s = Compiler.shader c b ∧
      s.source = (c.table.header .empty).text ++ b.text ∧
      (k.generate g root e).compiler.compilation = c ∧
      g.node? root = some r ∧ g.order = .ok ns ∧ g.IsSchedule r (g.schedule r ns) ∧
      c.Inventory (g.schedule r ns) ∧
      (k.options.inline = false →
        ∃ lines closing, b.statements = lines ++ closing ∧
          (∀ st ∈ closing, st.isClosing = true) ∧
          List.Forall₂ (fun n st => ∃ o, c.operation? n.id = some o ∧ o.statement? = some st)
            (((g.schedule r ns).filter (·.kind.isOperation)).filter (!·.kind.isSplit)) lines) := by
  obtain ⟨c, b, hassemble, hs⟩ := (k.generate_eq_ok_iff g root e hafter).1 hok
  obtain ⟨r, ns, d, xs, hroot, horder, htrace, hstatements, rfl⟩ :=
    Compiler.exists_trace hbefore hids hassemble
  refine ⟨_, b, r, ns, hassemble, hs, hs ▸ Compiler.source_of_assemble hassemble,
    k.generate_compilation_of_ok g root e hafter hassemble, hroot, horder, htrace.schedule,
    htrace.inventory.closed, fun hinline => ?_⟩
  refine ⟨d.statements, d.closing xs, hstatements,
    fun st hst => Compilation.isClosing_of_mem_closing hst, ?_⟩
  simpa only [Compilation.operation?_closed] using htrace.forall₂_statements hinline

/-- The sample, in which four nodes have operations and three of these have
    statements. -/
theorem operations_match_nodes_halfRed :
    ∃ c b r ns closing,
      (Sample.compiler false []).assemble Sample.halfRed "out" Sample.pixel = .ok (c, b) ∧
      Sample.halfRed.order = .ok ns ∧ c.Inventory (Sample.halfRed.schedule r ns) ∧
      c.table.operations.map Operation.entry =
        [(none, true), (some "tex", false), (some "parts", true), (some "half", false),
          (some "mul", false)] ∧
      ∃ lines, b.statements = lines ++ closing ∧ (∀ st ∈ closing, st.isClosing = true) ∧
        List.Forall₂ (fun n st => ∃ o, c.operation? n.id = some o ∧ o.statement? = some st)
          (((Sample.halfRed.schedule r ns).filter (·.kind.isOperation)).filter (!·.kind.isSplit))
          lines := by
  obtain ⟨s, hs⟩ := Sample.exists_ok (r := ((Sample.compiler false []).generate Sample.halfRed "out"
    Sample.pixel).result) (by decide +kernel)
  obtain ⟨c, b, r, ns, hok, -, -, -, -, horder, -, hinventory, hlines⟩ :=
    operations_match_nodes (Sample.compiler false []) rfl rfl Sample.halfRed
      Sample.halfRed_distinctIds "out" Sample.pixel hs
  obtain ⟨lines, closing, hsplit, hclosing, hforall⟩ := hlines rfl
  have hentries : ((Sample.compiler false []).assemble Sample.halfRed "out" Sample.pixel).map
      (fun p => p.1.table.operations.map Operation.entry) =
      .ok [(none, true), (some "tex", false), (some "parts", true), (some "half", false),
        (some "mul", false)] := by decide +kernel
  rw [hok] at hentries
  exact ⟨c, b, r, ns, closing, hok, horder, hinventory, Except.ok.inj hentries, lines, hsplit,
    hclosing, hforall⟩

end Shading
