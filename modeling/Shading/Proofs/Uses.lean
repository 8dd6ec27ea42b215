/-
  The uses of values that are counted, where ids are distinct and no vector is
  split.

  * `NodeKind.counts`: the nodes that count what they read.
  * `Graph.uses`: the uses of the value of a node, said of the graph alone.
  * `SymbolTable.Named`: no two operations that can be read have one name.  So a
    use that is noted for a name is a use of the one operation of that name
    (`noteAll_eq_map`).
  * `Compilation.Credited`: each operation has as its consumers the nodes that
    read its name.  Every node keeps that (`Credited.step`).
  * `uses_exact`: at the end of a compilation the consumers of the operation of
    a node are its uses.
-/
import Shading.Proofs.Acceptance
import Shading.Proofs.Footprint

namespace Shading

/-- Whether a node counts the uses of what it reads. -/
def NodeKind.counts : NodeKind → Bool
  | .texture | .operator .. | .call .. | .voidCall _ | .convert _ | .mask .. | .pack _ => true
  | .declaredCall .. | .split _ | .constant _ | .input | .output => false

/-- What a node is called as a consumer whose operation has a given name: by this
    name, or by its id if it is done for its effect. -/
def Node.consumerLabel (n : Node) (name : String) : String :=
  match n.kind with
  | .voidCall _ => n.id
  | _ => name

/-- The uses of the value of a node: the nodes that read it and count that, each
    with the indices of the pins at which it does. -/
def Graph.uses (g : Graph) (r : TypeRegistry) (ns : List Node) (id : String) :
    List (Node × Nat) :=
  (ns.filter (·.kind.counts)).flatMap fun m =>
    ((m.slots r).filter fun i => (g.linkInto? m i).any (·.source.node == id)).map (m, ·)

theorem Graph.mem_uses {g : Graph} {r : TypeRegistry} {ns : List Node} {id : String} {m : Node}
    {i : Nat} :
    (m, i) ∈ g.uses r ns id ↔ m ∈ ns ∧ m.kind.counts = true ∧ i ∈ m.slots r ∧
      ∃ l, g.linkInto? m i = some l ∧ l.source.node = id := by
  simp only [uses, List.mem_flatMap, List.mem_filter, List.mem_map, Prod.mk.injEq,
    Option.any_eq_true, beq_iff_eq]
  constructor
  · rintro ⟨_, ⟨hm, hcounts⟩, _, ⟨hi, hl⟩, rfl, rfl⟩
    exact ⟨hm, hcounts, hi, hl⟩
  · rintro ⟨hm, hcounts, hi, hl⟩
    exact ⟨m, ⟨hm, hcounts⟩, i, ⟨hi, hl⟩, rfl, rfl⟩

theorem Node.nodup_slots (r : TypeRegistry) (n : Node) : (n.slots r).Nodup := by
  unfold slots
  cases n.kind with
  | call | voidCall | declaredCall | pack => exact List.nodup_range
  | texture | operator | convert | mask | split | constant | input | output => simp

theorem Graph.nodup_uses {g : Graph} {r : TypeRegistry} {ns : List Node} (h : ns.Nodup)
    (id : String) : (g.uses r ns id).Nodup := by
  refine List.nodup_flatMap.2 ⟨fun m _ => ?_, (h.filter _).imp fun hne => ?_⟩
  · exact ((m.nodup_slots r).filter _).map fun i j hij => congrArg Prod.snd hij
  · rintro ⟨m, i⟩ hm hm'
    obtain ⟨_, -, heq⟩ := List.mem_map.1 hm
    obtain ⟨_, -, heq'⟩ := List.mem_map.1 hm'
    exact hne ((congrArg Prod.fst heq).trans (congrArg Prod.fst heq').symm)

/-! ## Uses that are noted for names -/

/-- No two of the operations that have names have the same. -/
def NamesApart (os : List Operation) : Prop :=
  (os.map Operation.name).Pairwise fun a b => a = b → a = ""

/-- The operation with one more use by a consumer for each time that its name is
    among `names`. -/
def Operation.credit (consumer : String) (names : List String) (o : Operation) : Operation :=
  { o with
    refs := o.refs + names.count o.name
    consumers := o.consumers ++ List.replicate (names.count o.name) consumer }

namespace Operation

variable {consumer : String} {names : List String} {o : Operation}

@[simp]
theorem name_credit : (o.credit consumer names).name = o.name := rfl

theorem label_of_name_ne (h : o.name ≠ "") : o.label = o.name :=
  if_neg (by simpa using h)

theorem credit_of_notMem (h : o.name ∉ names) : o.credit consumer names = o := by
  simp [credit, List.count_eq_zero.2 h]

theorem credit_self : o.credit consumer [o.name] = o.addConsumer consumer := by
  simp only [credit, addConsumer, List.count_singleton_self, List.replicate_one]

theorem credit_credit (name : String) :
    (o.credit consumer [name]).credit consumer names = o.credit consumer (name :: names) := by
  have hcount : (name :: names).count o.name = [name].count o.name + names.count o.name := by
    rw [← List.count_append]
    rfl
  rw [credit, credit, credit, hcount, ← List.replicate_append_replicate, ← List.append_assoc,
    ← Nat.add_assoc]
  rfl

end Operation

theorem NamesApart.map_credit {os : List Operation} (h : NamesApart os) (consumer : String)
    (names : List String) : NamesApart (os.map (Operation.credit consumer names)) := by
  unfold NamesApart
  rw [List.map_map]
  exact h

namespace SymbolTable

variable {consumer : String} {os : List Operation}

/-- The first operation of a name is the only one. -/
theorem noteUse_eq_map {name : String} (h : NamesApart os) (hname : name ≠ "") :
    noteUse name consumer os = os.map (Operation.credit consumer [name]) := by
  induction os with
  | nil => rfl
  | cons o rest ih =>
    obtain ⟨hfirst, hrest⟩ := List.pairwise_cons.1 h
    rw [noteUse, List.map_cons]
    split
    · rename_i ho
      subst ho
      have hothers : ∀ o' ∈ rest, o'.credit consumer [o.name] = o' := by
        intro o' ho'
        refine Operation.credit_of_notMem fun hmem => hname ?_
        exact hfirst _ (List.mem_map_of_mem ho') (List.mem_singleton.1 hmem).symm
      rw [Operation.credit_self, List.map_congr_left hothers, List.map_id']
    · rename_i ho
      rw [ih hrest, Operation.credit_of_notMem (by simpa using ho)]

/-- **Uses that are noted for names go to the operations of these names.** -/
theorem noteAll_eq_map {names : List String} (h : NamesApart os) (hnames : "" ∉ names) :
    noteAll consumer names os = os.map (Operation.credit consumer names) := by
  induction names generalizing os with
  | nil =>
    have hsame : ∀ o ∈ os, o.credit consumer [] = o := fun o _ =>
      Operation.credit_of_notMem List.not_mem_nil
    rw [List.map_congr_left hsame, List.map_id']
    rfl
  | cons name rest ih =>
    rw [List.mem_cons, not_or] at hnames
    have hstep : noteAll consumer (name :: rest) os =
        noteAll consumer rest (noteUse name consumer os) := rfl
    rw [hstep, noteUse_eq_map h (Ne.symm hnames.1), ih (h.map_credit _ _) hnames.2, List.map_map]
    exact List.map_congr_left fun o _ => Operation.credit_credit name

end SymbolTable

namespace Compilation

variable {c d d' : Compilation} {g : Graph} {n : Node} {em : Emission}

/-! ## Names along a run -/

/-- The names of operations are apart and taken, and operations with values have
    one. -/
structure Named (d : Compilation) : Prop where
  apart : NamesApart d.table.operations
  taken : ∀ o ∈ d.table.operations, o.name ≠ "" → d.table.taken o.name = true
  typed : ∀ o ∈ d.table.operations, o.type?.isSome = true → o.name ≠ ""

/-- Only a split has a name that is not its own. -/
theorem Made.name_of_not_split {xs : List Operand} (h : c.Made n xs em)
    (hsplit : n.kind.isSplit = false) {t : SymbolTable} {o : Operation}
    (ho : em.operation? t n = some o) :
    o.name ∈ em.names t n ∨ (o.name = "" ∧ o.type? = none) := by
  have hsyn := h.isSynonym_eq ho
  rw [hsplit] at hsyn
  cases hf : o.form with
  | value name type definition inlinable =>
    refine Or.inl (List.mem_append_left _ ?_)
    simp [ho, Operation.ownName?, Operation.name, hf]
  | effect call => exact Or.inr (by simp [Operation.name, Operation.type?, hf])
  | synonym target type => simp [Operation.isSynonym, hf] at hsyn

theorem Emitted.map_name (hem : d.Emitted n em d') :
    d'.table.operations.map Operation.name =
      (d.table.operations ++ (em.operation? d.table n).toList).map Operation.name := by
  have hbare : ∀ os : List Operation,
      (os.map Operation.bare).map Operation.name = os.map Operation.name := by
    intro os
    rw [List.map_map]
    rfl
  rw [← hbare, hem.operations, List.map_append, hbare, List.map_append]

/-- An operation after a node was there before, or is that of the node. -/
theorem Emitted.mem_operations (hem : d.Emitted n em d') {o : Operation}
    (ho : o ∈ d'.table.operations) :
    (∃ o' ∈ d.table.operations, o'.bare = o.bare) ∨ em.operation? d.table n = some o.bare := by
  have hmem : o.bare ∈ d'.table.operations.map Operation.bare := List.mem_map_of_mem ho
  rw [hem.operations, List.mem_append, List.mem_map, Option.mem_toList] at hmem
  exact hmem

/-- **A node keeps the names of operations apart.** -/
theorem Named.step (h : d.Named) (hsplit : n.kind.isSplit = false) (hplan : d.plan g n = .ok em)
    (hem : d.Emitted n em d') : d'.Named := by
  obtain ⟨xs, -, hmade⟩ := plan_eq_ok_iff.1 hplan
  have hfresh := (em.names_fresh (t := d.table) (n := n)).2
  constructor
  case apart =>
    unfold NamesApart
    rw [hem.map_name, List.map_append, List.pairwise_append]
    refine ⟨h.apart, ?_, ?_⟩
    · cases em.operation? d.table n <;> simp
    · intro a ha b hb hab
      obtain ⟨o, ho, rfl⟩ := List.mem_map.1 ha
      obtain ⟨o', ho', rfl⟩ := List.mem_map.1 hb
      rw [Option.mem_toList] at ho'
      rcases hmade.name_of_not_split hsplit ho' with hname | ⟨hnone, -⟩
      · -- the name of the node is new, and all others are taken
        by_contra hne
        have htaken := h.taken o ho hne
        rw [hab, (hfresh _ hname).2] at htaken
        cases htaken
      · rw [hab, hnone]
  case taken =>
    intro o ho hne
    rcases hem.mem_operations ho with ⟨o', ho', hbare⟩ | hnew
    · have hname := Operation.name_of_bare hbare
      exact hem.taken (Or.inl (hname ▸ h.taken o' ho' (hname ▸ hne)))
    · rcases hmade.name_of_not_split hsplit hnew with hname | ⟨hnone, -⟩
      · exact hem.taken (Or.inr hname)
      · exact absurd hnone hne
  case typed =>
    intro o ho htype
    rcases hem.mem_operations ho with ⟨o', ho', hbare⟩ | hnew
    · have hname := Operation.name_of_bare hbare
      have htype' := Operation.type?_of_bare hbare
      exact hname ▸ h.typed o' ho' (htype' ▸ htype)
    · rcases hmade.name_of_not_split hsplit hnew with hname | ⟨-, hnone⟩
      · exact Text.ne_empty_of_isIdent (hfresh _ hname).1
      · have hvoid : o.type? = none := hnone
        rw [hvoid] at htype
        cases htype

/-! ## What is read -/

theorem source_readAt (producer : Node) (o : Operation) (type : ValueType) (pin : Option Pin) :
    (c.readAt producer o type pin).source = some o.name := by
  rw [readAt_eq]
  split <;> rfl

theorem source_unlinked (n : Node) (i : Nat) : (c.unlinked n i).source = none := by
  unfold unlinked
  split <;> rfl

/-- An operand that is read of an operation comes through a link from its
    node. -/
theorem source_eq_some_iff {m : Node} {i : Nat} {x : Operand} (hx : d.operandNo g m i = .ok x)
    {name : String} :
    x.source = some name ↔
      ∃ l o, g.linkInto? m i = some l ∧ d.operation? l.source.node = some o ∧
        o.type?.isSome = true ∧ o.name = name := by
  rcases operandNo_eq_ok_iff.1 hx with ⟨hnone, rfl⟩ | ⟨l, producer, hl, hproducer, hx⟩
  · simp [source_unlinked, hnone]
  · obtain ⟨o, type, ho, htype, rfl⟩ := valueOf_eq_ok_iff.1 hx
    rw [(Graph.mem_of_node? hproducer).2] at ho
    simp [source_readAt, hl, ho, htype]

/-- The names of the operations that a node reads, pin by pin. -/
def sources (d : Compilation) (g : Graph) (m : Node) : List String :=
  (m.slots d.registry).filterMap fun i => (d.operandNo g m i).toOption.bind Operand.source

theorem sources_eq {xs : List Operand}
    (hxs : List.Forall₂ (fun i x => d.operandNo g n i = .ok x) (n.slots d.registry) xs) :
    d.sources g n = xs.filterMap Operand.source := by
  unfold sources
  generalize n.slots d.registry = is at hxs
  induction hxs with
  | nil => rfl
  | cons hx _ ih => rw [List.filterMap_cons, List.filterMap_cons, hx, ih]; rfl

theorem exists_of_mem_sources {m : Node} {name : String} (h : name ∈ d.sources g m) :
    ∃ o ∈ d.table.operations, o.type?.isSome = true ∧ o.name = name := by
  obtain ⟨i, -, hi⟩ := List.mem_filterMap.1 h
  cases hx : d.operandNo g m i with
  | error cause => rw [hx] at hi; cases hi
  | ok x =>
    rw [hx] at hi
    obtain ⟨l, o, -, ho, htype, hname⟩ := (source_eq_some_iff hx).1 hi
    obtain ⟨j, -, hj⟩ := Option.bind_eq_some_iff.1 ho
    exact ⟨o, List.mem_of_getElem? hj, htype, hname⟩

theorem Emitted.sources {m : Node} (hem : d.Emitted n em d')
    (hsource : ∀ i l, g.linkInto? m i = some l → l.source.node ≠ n.id)
    (hread : ∀ i ∈ m.slots d.registry, ∃ x, d.operandNo g m i = .ok x) :
    d'.sources g m = d.sources g m := by
  unfold Compilation.sources
  rw [hem.registry]
  refine List.filterMap_congr fun i hi => ?_
  obtain ⟨x, hx⟩ := hread i hi
  rw [hx, hem.operandNo (hsource i) hx]

/-! ## Who reads it -/

/-- What a node is called as a consumer. -/
def consumerName (d : Compilation) (n : Node) : String :=
  n.consumerLabel (((d.operation? n.id).map Operation.name).getD "")

theorem consumerName_eq {o : Operation} (ho : d.operation? n.id = some o) :
    d.consumerName n = n.consumerLabel o.name := by
  rw [consumerName, ho, Option.map_some, Option.getD_some]

/-- Where a node notes uses, it is called what it is called as a consumer. -/
theorem Made.label {xs : List Operand} (h : c.Made n xs em) (hcounts : n.kind.counts = true)
    {t : SymbolTable} {o : Operation} (ho : em.operation? t n = some o) :
    o.label = n.consumerLabel o.name := by
  have hw := h.writable ho
  unfold Node.consumerLabel
  cases h with
  | voidCall hk =>
    rw [hk]
    cases ho
    rfl
  | sample hk | operator hk | call hk | convert hk | mask hk | pack hk =>
    rw [hk]
    cases ho
    exact Operation.label_of_name_ne hw.1
  | declaredCall hk | split hk | constant hk | input hk | output hk =>
    rw [hk] at hcounts
    cases hcounts

theorem Made.counted {xs : List Operand} (h : c.Made n xs em) :
    em.counted = if n.kind.counts then xs else [] := by
  cases h with
  | sample hk | operator hk | call hk | voidCall hk | convert hk | mask hk | pack hk | split hk
  | constant hk | input hk | output hk => rw [hk]; rfl
  | declaredCall hk =>
    rename_i function type source
    rw [hk]
    cases c.typeOf? type <;> rfl

/-- The operation of a node that counts its uses. -/
theorem Emitted.consumer {xs : List Operand} (hmade : d.Made n xs em) (hem : d.Emitted n em d')
    (hcounts : n.kind.counts = true) :
    ∃ o, d'.operation? n.id = some o ∧ em.consumer d.table n = d'.consumerName n := by
  have hoperation : n.kind.isOperation = true := by
    revert hcounts
    cases n.kind <;>
      simp [NodeKind.counts, NodeKind.isOperation, NodeKind.isInput, NodeKind.isOutput]
  have hsome : em.operation? d.table n ≠ none := by
    rw [Ne, hmade.operation?_eq_none, hoperation]
    simp
  obtain ⟨o, ho⟩ := Option.ne_none_iff_exists'.1 hsome
  obtain ⟨o', ho', hbare⟩ := hem.operation?_self (Emission.bound?_of_operation? ho)
  refine ⟨o', ho', ?_⟩
  rw [consumerName_eq ho', Operation.name_of_bare hbare, Emission.consumer, ho, Option.map_some,
    Option.getD_some, hmade.label hcounts ho]

/-- Other nodes are still called the same. -/
theorem Emitted.consumer_ne {m : Node} {o : Operation} (hem : d.Emitted n em d')
    (hid : m.id ≠ n.id) (ho : d.operation? m.id = some o) :
    ∃ o', d'.operation? m.id = some o' ∧ d'.consumerName m = d.consumerName m := by
  obtain ⟨o', ho', hbare⟩ := hem.operation?_ne hid ho
  refine ⟨o', ho', ?_⟩
  rw [consumerName_eq ho, consumerName_eq ho', Operation.name_of_bare hbare]

/-! ## Consumers along a run -/

/-- What emitting a node does to the operations, with the record of uses. -/
theorem emit_operations {i : Option Nat} (hr : d.table.Reserves n)
    (h : d.emit g n = (d', .ok i)) :
    ∃ em, d.plan g n = .ok em ∧ d.Emitted n em d' ∧
      d'.table.operations =
        SymbolTable.noteAll (em.consumer d.table n) (em.counted.filterMap Operand.source)
          (d.table.operations ++ (em.operation? d.table n).toList) := by
  obtain ⟨em, hplan, hem⟩ := emit_ok hr h
  obtain ⟨c, em', hdeclare, hplan', happly⟩ := emit_eq_ok_iff.1 h
  rw [declare_eq d n hr] at hdeclare
  cases hdeclare
  rw [(d.sameView_withFunctions (d.table.functionsWith n)).plan rfl rfl g n, hplan] at hplan'
  cases hplan'
  refine ⟨em, hplan, hem, ?_⟩
  have hids : (d.withFunctions (d.table.functionsWith n)).table.identifiers =
    d.table.identifiers := rfl
  have hops := apply_operations (d.withFunctions (d.table.functionsWith n)) n em
  rw [happly, Emission.consumer, Emission.operation?_congr hids] at hops
  exact hops

/-- The consumers that read a name, use by use. -/
def usesNamed (d : Compilation) (g : Graph) (ns : List Node) (name : String) : List String :=
  (ns.filter (·.kind.counts)).flatMap fun m =>
    List.replicate ((d.sources g m).count name) (d.consumerName m)

/-- After the nodes `ns` the consumers of each operation are those that read its
    name, and are counted. -/
structure Credited (g : Graph) (ns : List Node) (d : Compilation) : Prop where
  bound : ∀ m ∈ ns, m.kind.counts = true → ∃ o, d.operation? m.id = some o
  read : ∀ m ∈ ns, ∀ i ∈ m.slots d.registry, ∃ x, d.operandNo g m i = .ok x
  consumers : ∀ o ∈ d.table.operations, o.consumers = d.usesNamed g ns o.name
  refs : ∀ o ∈ d.table.operations, o.refs = o.consumers.length

variable {done : List Node}

theorem usesNamed_concat
    (hsources : ∀ m ∈ done, d'.sources g m = d.sources g m)
    (hconsumers : ∀ m ∈ done, m.kind.counts = true → d'.consumerName m = d.consumerName m)
    (name : String) :
    d'.usesNamed g (done ++ [n]) name = d.usesNamed g done name ++
      List.replicate ((if n.kind.counts then d'.sources g n else []).count name)
        (d'.consumerName n) := by
  unfold usesNamed
  rw [List.filter_append, List.flatMap_append]
  congr 1
  · refine List.flatMap_congr fun m hm => ?_
    obtain ⟨hm, hcounts⟩ := List.mem_filter.1 hm
    rw [hsources m hm, hconsumers m hm hcounts]
  · cases h : n.kind.counts <;> simp [h]

/-- Nobody has read the name that an operation is given. -/
theorem usesNamed_new (hnamed : d.Named) {o : Operation}
    (hapart : NamesApart (d.table.operations ++ [o])) : d.usesNamed g done o.name = [] := by
  unfold usesNamed
  rw [List.flatMap_eq_nil_iff]
  intro m _
  rw [List.replicate_eq_nil_iff, List.count_eq_zero]
  intro hmem
  obtain ⟨o', ho', htype, hname⟩ := exists_of_mem_sources hmem
  rw [NamesApart, List.map_append, List.pairwise_append] at hapart
  exact hnamed.typed o' ho' htype
    (hapart.2.2 o'.name (List.mem_map_of_mem ho') o.name (by simp) hname)

/-- What has no type is not read, so the empty name is not. -/
theorem Named.empty_not_mem_sources (h : d.Named) (m : Node) : "" ∉ d.sources g m := by
  intro hmem
  obtain ⟨o, ho, htype, hname⟩ := exists_of_mem_sources hmem
  exact h.typed o ho htype hname

/-- The operation of a node begins with no consumers, as nobody has read it. -/
theorem Credited.consumers_with (h : d.Credited g done) (hnamed : d.Named)
    (hapart : NamesApart (d.table.operations ++ (em.operation? d.table n).toList)) {o : Operation}
    (ho : o ∈ d.table.operations ++ (em.operation? d.table n).toList) :
    o.consumers = d.usesNamed g done o.name := by
  rcases List.mem_append.1 ho with hold | hnew
  · exact h.consumers o hold
  · rw [Option.mem_toList] at hnew
    rw [hnew] at hapart
    rw [usesNamed_new hnamed hapart]
    obtain ⟨form, -, rfl⟩ := Option.map_eq_some_iff.1 hnew
    rfl

/-- **A node that is emitted keeps the credits.** -/
theorem Credited.step (h : d.Credited g done) (hnamed : d.Named) (hnamed' : d'.Named)
    (hne : ∀ m ∈ done, m.id ≠ n.id)
    (hsource : ∀ m ∈ done ++ [n], ∀ i l, g.linkInto? m i = some l → l.source.node ≠ n.id)
    (hplan : d.plan g n = .ok em) (hem : d.Emitted n em d')
    (hops : d'.table.operations =
      SymbolTable.noteAll (em.consumer d.table n) (em.counted.filterMap Operand.source)
        (d.table.operations ++ (em.operation? d.table n).toList)) :
    d'.Credited g (done ++ [n]) := by
  obtain ⟨xs, hxs, hmade⟩ := plan_eq_ok_iff.1 hplan
  have hread : ∀ m ∈ done ++ [n], ∀ i ∈ m.slots d.registry, ∃ x, d.operandNo g m i = .ok x := by
    intro m hm
    rw [List.mem_append, List.mem_singleton] at hm
    rcases hm with hm | rfl
    · exact h.read m hm
    · exact operandsNo_isOk_iff.1 ⟨xs, operandsNo_eq_ok_iff.2 hxs⟩
  have hsources : ∀ m ∈ done ++ [n], d'.sources g m = d.sources g m := fun m hm =>
    hem.sources (hsource m hm) (hread m hm)
  have hconsumers : ∀ m ∈ done, m.kind.counts = true → ∃ o, d'.operation? m.id = some o ∧
      d'.consumerName m = d.consumerName m := by
    intro m hm hcounts
    obtain ⟨o, ho⟩ := h.bound m hm hcounts
    exact hem.consumer_ne (hne m hm) ho
  constructor
  case bound =>
    intro m hm hcounts
    rw [List.mem_append, List.mem_singleton] at hm
    rcases hm with hm | rfl
    · obtain ⟨o, ho, -⟩ := hconsumers m hm hcounts
      exact ⟨o, ho⟩
    · obtain ⟨o, ho, -⟩ := hem.consumer hmade hcounts
      exact ⟨o, ho⟩
  case read =>
    intro m hm i hi
    rw [hem.registry] at hi
    obtain ⟨x, hx⟩ := hread m hm i hi
    exact ⟨x, hem.operandNo (hsource m hm i) hx⟩
  case consumers =>
    -- the uses that are noted are those of the names that the node reads
    have hnames : em.counted.filterMap Operand.source =
        if n.kind.counts then d'.sources g n else [] := by
      rw [hmade.counted, hsources n (by simp), sources_eq hxs]
      split <;> rfl
    have hapart : NamesApart (d.table.operations ++ (em.operation? d.table n).toList) := by
      rw [NamesApart, ← hem.map_name]
      exact hnamed'.apart
    have hnone : "" ∉ em.counted.filterMap Operand.source := by
      rw [hnames]
      split
      · exact hnamed'.empty_not_mem_sources n
      · exact List.not_mem_nil
    intro o' ho'
    rw [hops, SymbolTable.noteAll_eq_map hapart hnone] at ho'
    obtain ⟨o, ho, rfl⟩ := List.mem_map.1 ho'
    rw [Operation.name_credit, usesNamed_concat (fun m hm => hsources m (by simp [hm]))
      (fun m hm hcounts => (hconsumers m hm hcounts).elim fun _ hm => hm.2),
      ← h.consumers_with hnamed hapart ho, ← hnames]
    by_cases hcounts : n.kind.counts = true
    · obtain ⟨-, -, hlabel⟩ := hem.consumer hmade hcounts
      rw [← hlabel]
      rfl
    · rw [hmade.counted, if_neg hcounts]
      rfl

  case refs =>
    rw [hops]
    refine SymbolTable.refs_noteAll (List.forall_mem_append.2 ⟨h.refs, fun o ho => ?_⟩)
    obtain ⟨form, -, rfl⟩ := Option.map_eq_some_iff.1 (Option.mem_toList.1 ho)
    rfl

/-! ## The nodes that are read -/

/-- Where there is one stage input, no two nodes are bound to one operation. -/
theorem Inventory.id_eq {ns : List Node} (h : d.Inventory ns)
    (hone : ∀ n ∈ ns, ∀ m ∈ ns, n.kind = .input → m.kind = .input → n = m) {id id' : String}
    {i : Nat} (hid : d.bindings.get? id = some i) (hid' : d.bindings.get? id' = some i) :
    id = id' := by
  -- a node is the stage input and bound to the first operation, or bound to one after it
  have hplace : ∀ id, d.bindings.get? id = some i → ∃ n ∈ ns, n.id = id ∧
      ((n.kind = .input ∧ i = 0) ∨
        ∃ j, (ns.filter (·.kind.isOperation))[j]? = some n ∧ i = j + 1) := by
    intro id hid
    obtain ⟨n, hn, rfl, hout⟩ := h.only id i hid
    refine ⟨n, hn, rfl, ?_⟩
    by_cases hinput : n.kind = .input
    · rw [h.stageInput n hn (by rw [hinput]; rfl)] at hid
      exact Or.inl ⟨hinput, (Option.some.inj hid).symm⟩
    · have hop : n.kind.isOperation = true := by
        revert hinput hout
        cases n.kind <;> simp [NodeKind.isOperation, NodeKind.isInput, NodeKind.isOutput]
      have hmem : n ∈ ns.filter (·.kind.isOperation) := List.mem_filter.2 ⟨hn, hop⟩
      obtain ⟨j, hj⟩ := List.mem_iff_getElem?.1 hmem
      rw [h.bound j n hj] at hid
      exact Or.inr ⟨j, hj, (Option.some.inj hid).symm⟩
  obtain ⟨n, hn, rfl, hplaced⟩ := hplace id hid
  obtain ⟨m, hm, rfl, hplaced'⟩ := hplace id' hid'
  rcases hplaced with ⟨hinput, rfl⟩ | ⟨j, hj, rfl⟩ <;>
    rcases hplaced' with ⟨hinput', hi⟩ | ⟨j', hj', hi⟩
  · rw [hone n hn m hm hinput hinput']
  · cases hi
  · cases hi
  · cases hi
    rw [hj] at hj'
    rw [Option.some.inj hj']

/-- A node is bound to an operation, if it has something to emit. -/
theorem Inventory.exists_operation {ns : List Node} (h : d.Inventory ns) (hn : n ∈ ns)
    (hout : n.kind.isOutput = false) :
    ∃ o, d.operation? n.id = some o ∧ (n.kind = .input → d.inputOperation? = some o) := by
  by_cases hinput : n.kind.isInput = true
  · have hlt : 0 < d.table.operations.length := by rw [h.length_operations]; omega
    have hget := List.getElem?_eq_getElem hlt
    refine ⟨d.table.operations[0], ?_, fun _ => ?_⟩
    · rw [Compilation.operation?, h.stageInput n hn hinput, Option.bind_some, hget]
    · rw [inputOperation?, h.inputVar, Option.bind_some, hget]
  · have hop : n.kind.isOperation = true := by
      rw [NodeKind.isOperation, hout]
      simpa using hinput
    have hmem : n ∈ ns.filter (·.kind.isOperation) := List.mem_filter.2 ⟨hn, hop⟩
    obtain ⟨i, hi⟩ := List.mem_iff_getElem?.1 hmem
    obtain ⟨o, -, ho, -⟩ := h.operation? hi
    refine ⟨o, ho, fun hk => ?_⟩
    rw [hk] at hinput
    exact absurd rfl hinput

/-- Nodes whose operations have one name are the same. -/
theorem Named.id_eq {ns : List Node} (hnamed : d.Named) (h : d.Inventory ns)
    (hone : ∀ n ∈ ns, ∀ m ∈ ns, n.kind = .input → m.kind = .input → n = m) {id id' : String}
    {o o' : Operation} (ho : d.operation? id = some o) (ho' : d.operation? id' = some o')
    (hname : o.name = o'.name) (hne : o.name ≠ "") : id = id' := by
  obtain ⟨i, hi, ho⟩ := Option.bind_eq_some_iff.1 ho
  obtain ⟨j, hj, ho'⟩ := Option.bind_eq_some_iff.1 ho'
  obtain ⟨hlt, hget⟩ := List.getElem?_eq_some_iff.1 ho
  obtain ⟨hlt', hget'⟩ := List.getElem?_eq_some_iff.1 ho'
  have hapart := List.pairwise_iff_getElem.1 hnamed.apart
  simp only [List.length_map, List.getElem_map] at hapart
  rcases Nat.lt_trichotomy i j with hij | rfl | hij
  · exact absurd (hapart i j hlt hlt' hij (by rw [hget, hget', hname])) (by rw [hget]; exact hne)
  · exact h.id_eq hone hi hj
  · exact absurd (hapart j i hlt' hlt hij (by rw [hget, hget', hname]))
      (by rw [hget', ← hname]; exact hne)

/-- **The consumers that read the name of an operation are the uses of its
    node.** -/
theorem Credited.usesNamed_eq {ns : List Node} (h : d.Credited g ns) (hnamed : d.Named)
    (hinventory : d.Inventory ns)
    (hone : ∀ n ∈ ns, ∀ m ∈ ns, n.kind = .input → m.kind = .input → n = m) {o : Operation}
    (ho : d.operation? n.id = some o) :
    d.usesNamed g ns o.name = (g.uses d.registry ns n.id).map fun u => d.consumerName u.1 := by
  unfold usesNamed Graph.uses
  rw [List.map_flatMap]
  refine List.flatMap_congr fun m hm => ?_
  have hmem := (List.mem_filter.1 hm).1
  rw [List.map_map, Compilation.sources, List.count_filterMap]
  have hconst : ((fun u : Node × Nat => d.consumerName u.1) ∘ fun i => (m, i)) =
      fun _ => d.consumerName m := rfl
  rw [hconst, List.map_const', ← List.countP_eq_length_filter]
  congr 1
  refine List.countP_congr fun i hi => ?_
  obtain ⟨x, hx⟩ := h.read m hmem i hi
  have hbind : (d.operandNo g m i).toOption.bind Operand.source = x.source := by rw [hx]; rfl
  rw [hbind, beq_iff_eq, source_eq_some_iff hx]
  simp only [Option.any_eq_true, beq_iff_eq]
  constructor
  · rintro ⟨l, o', hl, ho', htype, hname⟩
    obtain ⟨j, -, hj⟩ := Option.bind_eq_some_iff.1 ho'
    have hne := hnamed.typed o' (List.mem_of_getElem? hj) htype
    exact ⟨l, hl, hnamed.id_eq hinventory hone ho' ho hname hne⟩
  · rintro ⟨l, hl, hid⟩
    rcases operandNo_eq_ok_iff.1 hx with ⟨hnone, -⟩ | ⟨l', producer, hl', hproducer, hx⟩
    · rw [hl] at hnone
      cases hnone
    · rw [hl] at hl'
      cases hl'
      obtain ⟨o', type, ho', htype, -⟩ := valueOf_eq_ok_iff.1 hx
      rw [(Graph.mem_of_node? hproducer).2, hid, ho] at ho'
      cases ho'
      exact ⟨l, o, hl, hid ▸ ho, by rw [htype]; rfl, rfl⟩

end Compilation

namespace Compiler.Trace

open Compilation

variable {ρ : Type} {k : Compiler ρ} {g : Graph} {e : EntryPoint} {r : Node} {ns : List Node}
  {d : Compilation} {xs : List Operand} (h : k.Trace g e r ns d xs)
include h

theorem credited (hsplit : ∀ n ∈ g.nodes, n.kind.isSplit = false) : d.Named ∧ d.Credited g ns := by
  have hops := stage_operations_of_nil h.noHooks h.reserved
  refine run_steps (motive := fun done d => d.Named ∧ d.Credited g done) h.run ⟨?_, ?_⟩ ?_
  · have hne := Text.ne_empty_of_isIdent (k.isIdent_stageVariable g e)
    constructor
    case apart => rw [NamesApart, hops]; exact List.pairwise_singleton _ _
    case taken =>
      rw [hops]
      intro o ho _
      rw [List.mem_singleton.1 ho]
      exact k.taken_stage g e (k.proper_of_nil h.noHooks) h.reserved _ (by simp)
    case typed =>
      rw [hops]
      intro o ho _
      rw [List.mem_singleton.1 ho]
      exact hne
  · constructor
    case bound => simp
    case read => simp
    case consumers | refs =>
      rw [hops]
      intro o ho
      rw [List.mem_singleton.1 ho]
      rfl
  · rintro done n rest d i d' hns hdone ⟨hnamed, hcredited⟩ hemit
    have hn : n ∈ ns := by simp [hns]
    have hfollows := run_follows (fun m hm => h.reserves m (by simp [hns, hm])) hdone
    obtain ⟨em, hplan, hem, hops⟩ := emit_operations (hfollows.reserves (h.reserves n hn)) hemit
    have hnamed' := hnamed.step (hsplit n (h.mem_nodes hn)) hplan hem
    refine ⟨hnamed', hcredited.step hnamed hnamed' ?_ ?_ hplan hem hops⟩
    · exact fun m hm => h.schedule.id_ne h.distinctIds hns hm
    · exact fun m hm i l hl => h.schedule.source_ne h.distinctIds hns hm hl

theorem consumers_eq (hsplit : ∀ n ∈ g.nodes, n.kind.isSplit = false) {n : Node} {o : Operation}
    (ho : d.operation? n.id = some o) :
    o.consumers =
      (g.uses k.compilation.registry ns n.id).map (fun u => d.closed.consumerName u.1) ∧
    o.refs = o.consumers.length := by
  obtain ⟨hnamed, hcredited⟩ := h.credited hsplit
  obtain ⟨-, -, hone⟩ := run_emittable h.noHooks h.distinctIds h.reserved h.schedule h.run
  have hregistry : d.registry = k.compilation.registry := h.follows.registry
  have hclosed : ∀ m, d.closed.consumerName m = d.consumerName m := fun m => by
    rw [consumerName, consumerName, operation?_closed]
  obtain ⟨i, -, hi⟩ := Option.bind_eq_some_iff.1 ho
  have hmem := List.mem_of_getElem? hi
  refine ⟨?_, hcredited.refs o hmem⟩
  rw [hcredited.consumers o hmem, hcredited.usesNamed_eq hnamed h.inventory hone ho, hregistry]
  exact List.map_congr_left fun u _ => (hclosed u.1).symm

end Compiler.Trace

/-- **The uses that are counted are those that there are.**  Where ids are
    distinct and no vector is split, at the end of a compilation without hooks
    each node that matters has an operation (the stage input that of its
    variable), whose consumers are the nodes that read it and count that, once
    for each pin, in the order of the nodes and of their pins.  What declared
    calls and the root read is not counted. -/
theorem uses_exact {ρ : Type} (k : Compiler ρ) (hbefore : k.before = []) (hafter : k.after = [])
    (g : Graph) (hids : g.DistinctIds) (hsplit : ∀ n ∈ g.nodes, n.kind.isSplit = false)
    (root : String) (e : EntryPoint) {s : Shader} (hok : (k.generate g root e).result = .ok s) :
    ∃ c b r ns, k.assemble g root e = .ok (c, b) ∧ s = Compiler.shader c b ∧
      (k.generate g root e).compiler.compilation = c ∧
      g.node? root = some r ∧ g.order = .ok ns ∧ g.IsSchedule r (g.schedule r ns) ∧
      ∀ n ∈ g.schedule r ns, n.kind.isOutput = false →
        ∃ o, c.operation? n.id = some o ∧ (n.kind = .input → c.inputOperation? = some o) ∧
          o.consumers = (g.uses k.compilation.registry (g.schedule r ns) n.id).map
            (fun u => c.consumerName u.1) ∧
          o.refs = (g.uses k.compilation.registry (g.schedule r ns) n.id).length ∧
          (g.uses k.compilation.registry (g.schedule r ns) n.id).Nodup ∧
          ∀ m i, (m, i) ∈ g.uses k.compilation.registry (g.schedule r ns) n.id ↔
            g.Live r m ∧ m.kind.counts = true ∧ i ∈ m.slots k.compilation.registry ∧
              ∃ l, g.linkInto? m i = some l ∧ l.source.node = n.id := by
  obtain ⟨c, b, hassemble, hs⟩ := (k.generate_eq_ok_iff g root e hafter).1 hok
  obtain ⟨r, ns, d, xs, hroot, horder, htrace, -, rfl⟩ :=
    Compiler.exists_trace hbefore hids hassemble
  refine ⟨_, b, r, ns, hassemble, hs, k.generate_compilation_of_ok g root e hafter hassemble, hroot,
    horder, htrace.schedule, fun n hn hout => ?_⟩
  obtain ⟨o, ho, hinput⟩ := htrace.inventory.closed.exists_operation hn hout
  obtain ⟨hconsumers, hrefs⟩ :=
    htrace.consumers_eq hsplit (Compilation.operation?_closed n.id ▸ ho)
  refine ⟨o, ho, hinput, hconsumers, ?_, Graph.nodup_uses htrace.schedule.nodup _, fun m i => ?_⟩
  · rw [hrefs, hconsumers, List.length_map]
  · rw [Graph.mem_uses, htrace.schedule.mem_iff]

namespace Sample

/-- A sample of a texture. -/
def color : Node :=
  ⟨"tex", "Albedo", .texture,
    [⟨"at", "", .input, none, none⟩, ⟨"rgba", "", .output, none, none⟩]⟩

/-- A call for its effect. -/
def tested : Node := ⟨"test", "", .voidCall "clip", [⟨"x", "", .input, none, none⟩]⟩

/-- A product. -/
def squared : Node :=
  ⟨"mul", "square", .operator "*" "float",
    [⟨"a", "", .input, none, none⟩, ⟨"b", "", .input, none, none⟩,
      ⟨"ab", "", .output, none, none⟩]⟩

/-- A color that is tested, passed on to a function that comes along, and
    squared. -/
def shared : Graph where
  nodes :=
    [⟨"in", "", .input, [⟨"uv", "", .output, none, none⟩]⟩, color, tested,
      ⟨"own", "", .declaredCall "f" none "void f(float4 x);", [⟨"x", "", .input, none, none⟩]⟩,
      squared, ⟨"out", "", .output, [⟨"shade", "", .input, none, none⟩]⟩]
  links :=
    [⟨"1", ⟨"in", "uv"⟩, ⟨"tex", "at"⟩⟩, ⟨"2", ⟨"tex", "rgba"⟩, ⟨"test", "x"⟩⟩,
      ⟨"3", ⟨"tex", "rgba"⟩, ⟨"own", "x"⟩⟩, ⟨"4", ⟨"tex", "rgba"⟩, ⟨"mul", "a"⟩⟩,
      ⟨"5", ⟨"tex", "rgba"⟩, ⟨"mul", "b"⟩⟩, ⟨"6", ⟨"mul", "ab"⟩, ⟨"out", "shade"⟩⟩]

theorem shared_distinctIds : shared.DistinctIds := by
  unfold Graph.DistinctIds
  decide

end Sample

/-- The sample, in which four pins read the color, and three of them count. -/
theorem uses_exact_shared :
    ∃ c b o, (Sample.compiler true []).assemble Sample.shared "out" Sample.pixel = .ok (c, b) ∧
      c.operation? "tex" = some o ∧ o.consumers = ["test", "square", "square"] ∧ o.refs = 3 := by
  obtain ⟨s, hs⟩ := Sample.exists_ok (r := ((Sample.compiler true []).generate Sample.shared "out"
    Sample.pixel).result) (by decide +kernel)
  obtain ⟨c, b, r, ns, hok, -, -, hroot, horder, -, hnodes⟩ :=
    uses_exact (Sample.compiler true []) rfl rfl Sample.shared Sample.shared_distinctIds (by decide)
      "out" Sample.pixel hs
  have hsorted : Sample.shared.order = .ok Sample.shared.nodes := rfl
  cases hsorted.symm.trans horder
  have hschedule : Sample.shared.schedule r Sample.shared.nodes = Sample.shared.nodes := by
    cases hroot
    rfl
  rw [hschedule] at hnodes
  obtain ⟨o, ho, -, hconsumers, hrefs, -, -⟩ :=
    hnodes Sample.color (by simp [Sample.shared]) rfl
  have huses : Sample.shared.uses (Sample.compiler true []).compilation.registry
      Sample.shared.nodes Sample.color.id =
      [(Sample.tested, 0), (Sample.squared, 0), (Sample.squared, 1)] := by decide
  have hname : ((Sample.compiler true []).assemble Sample.shared "out" Sample.pixel).map
      (fun p => p.1.consumerName Sample.squared) = .ok "square" := by decide +kernel
  rw [hok] at hname
  have hsquare : c.consumerName Sample.squared = "square" := Except.ok.inj hname
  rw [huses] at hconsumers hrefs
  refine ⟨c, b, o, hok, ho, ?_, hrefs⟩
  simp only [hconsumers, List.map_cons, List.map_nil, hsquare]
  rfl

end Shading
