/-
  Which functions have their names taken by variables of the body.

  * `Compiler.Reserved`: the names that mean something before any node is
    emitted.  They are the names taken in the stage (`taken_stage_iff`), so
    nothing that is made up has one of them.  `Compiler.Known`: those that the
    stage input finds taken (`taken_inputTable_iff`).
  * `Node.asks`: the names that a node asks for, for its value and for its texture
    and sampler.  Once the node is emitted they are taken (`taken_of_asks`).
  * `taken_run`: names are taken in a run only by what is made up in it, and by
    the texts that splits stand for (`Compilation.Aliases`).
  * `of_asked_run`: a name that is asked for is given away if it is not taken in
    the stage.
  * `callee_shadowed_unless_reserved`: so a function that is called keeps its
    name if that is reserved, and loses it as soon as a node asks for it if it
    is not.
-/
import Shading.Proofs.Functions

namespace Shading

open Text
open SymbolTable (declaredNames)

/-! ## Names that mean something beforehand -/

namespace Compiler

variable {ρ : Type} (k : Compiler ρ) (g : Graph) (e : EntryPoint)

/-- The names that mean something before the stage input has its variable:
    those that hooks have taken, keywords, the entry point, the struct of the
    stage input, and the functions that nodes declare. -/
def Known (name : String) : Prop :=
  name ∈ k.keywords ∨ name = e.name ∨ name = e.input.name ∨ name ∈ declaredNames g.nodes ∨
    (runHooks k.before .empty).1.taken name = true

/-- The names that mean something before any node is emitted: the known ones, the
    variable of the stage input, and the struct that is returned. -/
def Reserved (name : String) : Prop :=
  k.Known g e name ∨ name = k.stageVariable g e ∨
    (e.outputType.isStruct = true ∧ name = e.output.name)

section
variable (h : ∀ hook ∈ k.before, hook.Proper)
  (hr : ∃ t, (k.start e).table.reserveMethods g.nodes = (t, none))
include h hr

theorem taken_inputTable_iff (name : String) :
    (k.inputTable g e).taken name = true ↔ k.Known g e name := by
  obtain ⟨t, ht⟩ := hr
  rw [k.taken_inputTable g e h ht name, taken_start]
  simp only [Bool.or_eq_true, beq_iff_eq, List.contains_iff_mem, Known, eq_comm (b := name)]
  tauto

/-- **The names taken in the stage are the reserved ones.** -/
theorem taken_stage_iff (name : String) :
    (k.stage g e).table.taken name = true ↔ k.Reserved g e name := by
  constructor
  · intro htaken
    have hadd : ((k.inputTable g e).addOperation (k.stageOperation g e)).taken name = true →
        k.Known g e name ∨ name = k.stageVariable g e := by
      rw [SymbolTable.taken_addOperation, stageOperation_name, Bool.or_eq_true, Bool.and_eq_true,
        beq_iff_eq, k.taken_inputTable_iff g e h hr]
      rintro (⟨-, rfl⟩ | hknown)
      · exact Or.inr rfl
      · exact Or.inl hknown
    rw [stage_table] at htaken
    split at htaken
    · rename_i hnamed
      rw [Bool.and_eq_true] at hnamed
      rw [SymbolTable.taken_addStageStruct, Bool.or_eq_true, beq_iff_eq] at htaken
      rcases htaken with rfl | htaken
      · exact Or.inr (Or.inr ⟨hnamed.1, rfl⟩)
      · exact (hadd htaken).imp id Or.inl
    · exact (hadd htaken).imp id Or.inl
  · intro hname
    refine k.taken_stage g e h hr name ?_
    simp only [Reserved, Known] at hname
    tauto

end

end Compiler

/-! ## Names that nodes ask for -/

theorem Text.not_isDigit_of_first {c : Char} (h : (c.isAlpha || c == '_') = true) :
    c.isDigit = false := by
  rw [Bool.or_eq_true, beq_iff_eq] at h
  rcases h with h | rfl
  · change (decide ('A'.val ≤ c.val ∧ c.val ≤ 'Z'.val) ||
      (decide ('a'.val ≤ c.val) && decide (c.val ≤ 'z'.val))) = true at h
    simp only [Bool.or_eq_true, Bool.and_eq_true, decide_eq_true_eq,
      UInt32.le_iff_toNat_le] at h
    simp only [Char.isDigit, Bool.and_eq_false_iff, decide_eq_false_iff_not, ge_iff_le,
      UInt32.le_iff_toNat_le]
    have hA : 'A'.val.toNat = 65 := rfl
    have ha : 'a'.val.toNat = 97 := rfl
    have h9 : '9'.val.toNat = 57 := rfl
    omega
  · rfl

/-- Where a name is blank, an identifier to fall back on is asked for as it
    is. -/
theorem Text.baseName_of_blank {name fallback : String} (hblank : squash name = [])
    (hident : isIdent fallback = true) : baseName name fallback = fallback := by
  have hword := List.all_eq_true.1 (all_isWord_of_isIdent hident)
  unfold isIdent at hident
  split at hident
  · cases hident
  · rename_i c rest hchars
    simp only [Bool.and_eq_true] at hident
    have hsame : (fallback.toList.map fun x => if isWord x then x else '_') = c :: rest := by
      rw [← hchars]
      conv_rhs => rw [← List.map_id fallback.toList]
      exact List.map_congr_left fun x hx => by simp [hword x hx]
    unfold baseName ident identChars
    rw [hblank]
    simp only [hsame, not_isDigit_of_first hident.1, Bool.false_eq_true, if_false]
    rw [← hchars, String.ofList_toList]

/-- The names that a node asks for: that of its value, if it has one, and those
    of the texture and the sampler that it brings along. -/
def Node.asks (r : TypeRegistry) (n : Node) : List String :=
  match n.kind with
  | .texture =>
    ["Srv" ++ Compilation.resourceName n, "Sampler" ++ Compilation.resourceName n,
      baseName n.name "texture"]
  | .operator .. => [baseName n.name "op"]
  | .call function _ => [baseName n.name function]
  | .declaredCall function type _ =>
    ((type.bind r.parse?).map fun _ => baseName n.name function).toList
  | .convert _ => [baseName n.name "convert"]
  | .mask .. => [baseName n.name "mask"]
  | .pack _ => [baseName n.name "pack"]
  | .constant _ => [baseName n.name "constant"]
  | .voidCall _ | .split _ | .input | .output => []

namespace Emission

variable {t : SymbolTable} {n : Node} {em : Emission}

/-- The names that an emission asks for. -/
def asked (n : Node) : Emission → List String
  | .sample _ =>
    ["Srv" ++ Compilation.resourceName n, "Sampler" ++ Compilation.resourceName n,
      baseName n.name "texture"]
  | .value fallback .. => [baseName n.name fallback]
  | .nothing | .stageInput _ | .effect .. | .synonym .. => []

/-- A name that is asked for is given away where it is not taken. -/
theorem eq_freshName_or_taken (t : SymbolTable) (base : String) :
    base = t.freshName base ∨ t.taken base = true := by
  by_cases ht : t.taken base = true
  · exact Or.inr ht
  · exact Or.inl (SymbolTable.freshName_of_not_taken (by simpa using ht)).symm

/-- Texture, sampler and value are named one after the other, so a name that one
    of them asks for may be given to one before it. -/
theorem of_asked_sample {coords : Operand} {base : String} (h : base ∈ (sample coords).asked n) :
    base = textureName t n ∨ base = samplerName t n ∨
      base = ((sample coords).resources t n).freshName (baseName n.name "texture") ∨
      t.taken base = true := by
  simp only [asked, List.mem_cons, List.not_mem_nil, or_false] at h
  rcases h with rfl | rfl | rfl
  · exact (eq_freshName_or_taken t _).imp id fun ht => Or.inr (Or.inr ht)
  · rcases eq_freshName_or_taken (withTexture t n) _ with hfresh | ht
    · exact Or.inr (Or.inl hfresh)
    · rw [taken_withTexture, Bool.or_eq_true, beq_iff_eq] at ht
      exact ht.imp Eq.symm fun ht => Or.inr (Or.inr ht)
  · rcases eq_freshName_or_taken ((sample coords).resources t n) _ with hfresh | ht
    · exact Or.inr (Or.inr (Or.inl hfresh))
    · rw [taken_resources_sample, Bool.or_eq_true, Bool.or_eq_true, beq_iff_eq, beq_iff_eq] at ht
      rcases ht with ht | ht | ht
      · exact Or.inr (Or.inl ht.symm)
      · exact Or.inl ht.symm
      · exact Or.inr (Or.inr (Or.inr ht))

/-- A name that is asked for is taken afterwards, be it by another. -/
theorem taken_asked {base : String} (h : base ∈ em.asked n) :
    (em.install t n).taken base = true := by
  apply taken_install
  cases em with
  | nothing | stageInput | effect | synonym => cases h
  | value fallback type definition counted =>
    rw [List.mem_singleton.1 h]
    refine (eq_freshName_or_taken t _).symm.imp id fun hfresh => ?_
    simp [names, operation?, form?, Operation.ownName?, ← hfresh]
  | sample coords =>
    have hgiven := of_asked_sample (t := t) h
    simp only [names, operation?, form?, Operation.ownName?, Option.map_some, Option.bind_some,
      Option.toList_some, List.mem_append, List.mem_cons, List.not_mem_nil, or_false]
    tauto

/-- A name that is taken after an emission was taken before, or is made up, or
    is the text of a synonym. -/
theorem of_taken_install {name : String} (h : (em.install t n).taken name = true) :
    t.taken name = true ∨ name ∈ em.names t n ∨
      ∃ o, em.operation? t n = some o ∧ o.isSynonym = true ∧ o.name = name := by
  cases em with
  | nothing | stageInput => exact Or.inl h
  | value fallback type definition counted =>
    simp only [install, operation?, form?, Option.map_some, SymbolTable.taken_addOperation,
      resources, Bool.or_eq_true, Bool.and_eq_true, beq_iff_eq, Operation.name] at h
    rcases h with ⟨-, rfl⟩ | h
    · exact Or.inr (Or.inl (by simp [names, operation?, form?, Operation.ownName?]))
    · exact Or.inl h
  | effect call counted =>
    simp only [install, operation?, form?, Option.map_some, SymbolTable.taken_addOperation,
      resources, Bool.or_eq_true, Bool.and_eq_true, Operation.name] at h
    rcases h with ⟨h, -⟩ | h
    · cases h
    · exact Or.inl h
  | synonym target type =>
    simp only [install, operation?, form?, Option.map_some, SymbolTable.taken_addOperation,
      resources, Bool.or_eq_true, Bool.and_eq_true, beq_iff_eq] at h
    rcases h with ⟨-, h⟩ | h
    · exact Or.inr (Or.inr ⟨_, rfl, rfl, h⟩)
    · exact Or.inl h
  | sample coords =>
    simp only [install, operation?, form?, Option.map_some, SymbolTable.taken_addOperation,
      taken_resources_sample, Bool.or_eq_true, Bool.and_eq_true, beq_iff_eq, Operation.name] at h
    rcases h with ⟨-, rfl⟩ | rfl | rfl | h
    · exact Or.inr (Or.inl (by simp [names, operation?, form?, Operation.ownName?]))
    · exact Or.inr (Or.inl (by simp [names]))
    · exact Or.inr (Or.inl (by simp [names]))
    · exact Or.inl h

end Emission

namespace Compilation

variable {c c' : Compilation} {g : Graph} {n : Node} {em : Emission}

theorem Made.asked {xs : List Operand} (h : c.Made n xs em) :
    em.asked n = n.asks c.registry := by
  unfold Node.asks
  cases h with
  | declaredCall hk =>
    rename_i function type source
    rw [hk]
    cases htype : type.bind c.registry.parse? with
    | none => simp [Emission.ofCall, typeOf?, htype, Emission.asked]
    | some => simp [Emission.ofCall, typeOf?, htype, Emission.asked]
  | sample hk | operator hk | call hk | voidCall hk | convert hk | mask hk | pack hk | split hk
  | constant hk | input hk | output hk => rw [hk]; rfl

/-- A name that a node asks for is taken once the node is emitted. -/
theorem taken_of_asks {ns : List Node} (hr : ∀ n ∈ ns, c.table.Reserves n)
    (h : emitAll g c ns = (c', none)) {base : String}
    (hbase : ∃ n ∈ ns, base ∈ n.asks c.registry) : c'.table.taken base = true := by
  have hall : c.Follows c' ∧ ((∃ n ∈ ns, base ∈ n.asks c.registry) →
      c'.table.taken base = true) := by
    refine run_induct (motive := fun done d => c.Follows d ∧
      ((∃ n ∈ done, base ∈ n.asks c.registry) → d.table.taken base = true)) hr h
      ⟨.refl c, by simp⟩ ?_
    rintro done n rest d em d' - ⟨hfollows, hd⟩ hplan hem
    obtain ⟨xs, -, hmade⟩ := plan_eq_ok_iff.1 hplan
    refine ⟨hfollows.step hem, ?_⟩
    rintro ⟨m, hm, hasks⟩
    rw [List.mem_append, List.mem_singleton] at hm
    rcases hm with hm | rfl
    · exact hem.taken (Or.inl (hd ⟨m, hm, hasks⟩))
    · rw [← hfollows.registry, ← hmade.asked] at hasks
      have := Emission.taken_asked (t := d.table) hasks
      rwa [SymbolTable.taken, ← hem.identifiers] at this
  exact hall.2 hbase

/-- A split among nodes stands for a text, and has it taken. -/
def Aliases (c : Compilation) (ns : List Node) (text : String) : Prop :=
  ∃ n ∈ ns, n.kind.isSplit = true ∧
    ∃ o ∈ c.table.operations, o.node = some n.id ∧ o.isSynonym = true ∧ o.name = text

theorem Aliases.of_bare {ns : List Node} (hn : n ∈ ns) (hsplit : n.kind.isSplit = true)
    {o : Operation} (ho : o ∈ c.table.operations.map Operation.bare) (hnode : o.node = some n.id)
    (hsynonym : o.isSynonym = true) : c.Aliases ns o.name := by
  obtain ⟨o', ho', rfl⟩ := List.mem_map.1 ho
  exact ⟨n, hn, hsplit, o', ho', hnode, hsynonym, rfl⟩

theorem Aliases.mem_synonyms {ns : List Node} {text : String} (h : c.Aliases ns text) :
    text ∈ (c.table.operations.filter Operation.isSynonym).map Operation.name := by
  obtain ⟨-, -, -, o, ho, -, hsynonym, rfl⟩ := h
  exact List.mem_map_of_mem (List.mem_filter.2 ⟨ho, hsynonym⟩)

theorem Aliases.step {done : List Node} {text : String} (h : c.Aliases done text)
    (hem : c.Emitted n em c') : c'.Aliases (done ++ [n]) text := by
  obtain ⟨m, hm, hsplit, o, ho, hnode, hsynonym, rfl⟩ := h
  refine .of_bare (o := o.bare) (List.mem_append_left _ hm) hsplit ?_ hnode hsynonym
  rw [hem.operations]
  exact List.mem_append_left _ (List.mem_map_of_mem ho)

/-- **What takes names in a run:** the names that are made up in it, and the
    texts that splits stand for. -/
theorem taken_run {ns : List Node} (hr : ∀ n ∈ ns, c.table.Reserves n)
    (h : emitAll g c ns = (c', none)) {name : String} (hname : c'.table.taken name = true) :
    c.table.taken name = true ∨ name ∈ c.table.coined c'.table ∨ c'.Aliases ns name := by
  have hall : SymbolTable.Coined c.table c'.table ∧ (c'.table.taken name = true →
      c.table.taken name = true ∨ name ∈ c.table.coined c'.table ∨ c'.Aliases ns name) := by
    refine run_induct (motive := fun done d => SymbolTable.Coined c.table d.table ∧
      (d.table.taken name = true → c.table.taken name = true ∨ name ∈ c.table.coined d.table ∨
        d.Aliases done name)) hr h ⟨.refl _, Or.inl⟩ ?_
    rintro done n rest d em d' - ⟨hcoined, hd⟩ hplan hem
    refine ⟨hcoined.step hem, fun htaken => ?_⟩
    have hperm := SymbolTable.coined_perm hcoined hem.operations hem.resourceViews hem.samplers
    rw [SymbolTable.taken, hem.identifiers] at htaken
    rw [hperm.mem_iff, List.mem_append]
    rcases Emission.of_taken_install htaken with hbefore | hmade | ⟨o, ho, hsynonym, htext⟩
    · rcases hd hbefore with hstart | hold | halias
      · exact Or.inl hstart
      · exact Or.inr (Or.inl (Or.inr hold))
      · exact Or.inr (Or.inr (halias.step hem))
    · exact Or.inr (Or.inl (Or.inl hmade))
    · obtain ⟨xs, -, hmade⟩ := plan_eq_ok_iff.1 hplan
      subst htext
      refine Or.inr (Or.inr (.of_bare (n := n) (by simp) (hmade.isSynonym_eq ho ▸ hsynonym) ?_ ?_
        hsynonym))
      · rw [hem.operations]
        exact List.mem_append_right _ (by simp [ho])
      · obtain ⟨form, -, rfl⟩ := Option.map_eq_some_iff.1 ho
        rfl
  exact hall.2 hname

end Compilation

/-! ## Variables of the body -/

/-- The variable that a statement brings into the body. -/
def Statement.local? : Statement → Option String
  | define _ name _ | introduce _ name => some name
  | perform _ | assign .. | result _ => none

/-- The variables of a body. -/
def Body.locals (b : Body) : List String :=
  b.statements.filterMap Statement.local?

/-- The function that a node calls by its name. -/
def NodeKind.callee? : NodeKind → Option String
  | .call function _ | .voidCall function | .declaredCall function _ _ => some function
  | _ => none

theorem Operation.Written.local? {o : Operation} {st : Statement} (h : o.Written st) :
    st.local? = o.ownName? := by
  cases h with
  | define hf | perform hf =>
    rw [ownName?, hf]
    rfl

namespace Compiler

open Compilation

variable {ρ : Type} {k : Compiler ρ} {g : Graph} {e : EntryPoint} {r : Node} {ns : List Node}
  {d : Compilation} {xs : List Operand} {b : Body}

/-- A name is asked for: by a node, or by the variable in which a struct is
    returned. -/
def Asked (k : Compiler ρ) (e : EntryPoint) (ns : List Node) (name : String) : Prop :=
  (∃ n ∈ ns, name ∈ n.asks k.compilation.registry) ∨
    (e.outputType.isStruct = true ∧ e.outputType.name ≠ e.input.name ∧
      name = baseName e.outputType.name "output")

section
variable (hr : ∀ n ∈ ns, (k.stage g e).table.Reserves n)
  (hrun : emitAll g (k.stage g e) ns = (d, none))
  (hb : b.statements = d.statements ++ d.closing xs)
include hr hrun hb

/-- Where definitions do not stand in place of names, what has a name that is
    made up is declared: as a variable, a texture or a sampler. -/
theorem declared_of_coined (hinline : k.options.inline = false) {name : String}
    (hname : name ∈ k.coined g e d.closed b) :
    name ∈ b.locals ∨ name ∈ d.table.resourceViews.map View.name ∨
      name ∈ d.table.samplers.map Sampler.name := by
  rw [Compiler.coined, coined_closed, SymbolTable.coined] at hname
  simp only [List.mem_append] at hname
  rcases hname with ((hname | hname) | hname) | hname
  · obtain ⟨o, ho, hown⟩ := List.mem_filterMap.1 hname
    obtain ⟨added, hadded, hwritable⟩ := writable_run hr hrun
    have hnew : o.bare ∈ added := by
      have hmem := List.mem_map_of_mem (f := Operation.bare) ho
      rwa [List.map_drop, hadded, List.drop_left' (by simp)] at hmem
    have hwritten : o.Writable := hwritable o.bare hnew
    obtain ⟨st, hst⟩ : ∃ st, o.Written st := by
      cases hf : o.form with
      | value => exact ⟨_, .define hf⟩
      | effect | synonym => simp [Operation.ownName?, hf] at hown
    have hsub : d.isSubstituted o = false := by
      rw [isSubstituted, (run_follows hr hrun).inline, k.stage_inline, hinline, Bool.false_and]
    refine Or.inl (List.mem_filterMap.2 ⟨st, ?_, hst.local?.trans hown⟩)
    rw [hb]
    refine List.mem_append_left _ (List.mem_filterMap.2 ⟨o, ?_, ?_⟩)
    · exact List.mem_filter.2 ⟨List.mem_of_mem_drop ho, by rw [hsub]; rfl⟩
    · rw [Operation.statement?_eq hwritten]
      exact Operation.written?_eq_some_iff.2 hst
  · rw [List.map_drop] at hname
    exact Or.inr (Or.inl (List.mem_of_mem_drop hname))
  · rw [List.map_drop] at hname
    exact Or.inr (Or.inr (List.mem_of_mem_drop hname))
  · obtain ⟨st, hst, hintro⟩ := List.mem_filterMap.1 hname
    refine Or.inl (List.mem_filterMap.2 ⟨st, hst, ?_⟩)
    cases st <;> simp_all [Statement.introduced?, Statement.local?]

/-- **A name that is asked for is given away** if it is not taken before: to a
    value, a texture, a sampler or the variable in which a struct is returned,
    unless a split stands for it. -/
theorem of_asked_run {name : String} (hname : k.Asked e ns name) :
    (k.stage g e).table.taken name = true ∨ name ∈ k.coined g e d.closed b ∨
      d.Aliases ns name := by
  by_cases htaken : d.table.taken name = true
  · refine (taken_run hr hrun htaken).imp id (Or.imp ?_ id)
    exact fun hmade => List.mem_append_left _ (by rwa [coined_closed])
  · rcases hname with ⟨n, hn, hnode⟩ | ⟨hstruct, hother, rfl⟩
    · exact absurd (taken_of_asks hr hrun ⟨n, hn, hnode⟩) htaken
    · -- nothing has the name yet when the variable for the struct is introduced
      have hfollows := run_follows hr hrun
      have htype := hfollows.outputType.trans (k.stage_outputType g e)
      have hinput := hfollows.input.trans (k.stage_input g e)
      refine Or.inr (Or.inl (List.mem_append_right _ ?_))
      rw [introduced_eq hb, htype, hinput]
      rw [Bool.not_eq_true] at htaken
      simp [hstruct, hother, outputName_eq, htype, hinput,
        SymbolTable.freshName_of_not_taken htaken]

end

section
variable (h : k.Passage g e r ns d xs) (hb : b.statements = d.statements ++ d.closing xs)
include h hb

/-- The variables of a body are names of operations, and the variable in which a
    struct is returned. -/
theorem Passage.mem_locals {name : String} (hname : name ∈ b.locals) :
    name ∈ k.coined g e d.closed b := by
  obtain ⟨st, hst, hlocal⟩ := List.mem_filterMap.1 hname
  have hmem := hst
  rw [hb, List.mem_append, h.statements] at hst
  rw [Compiler.coined, coined_closed, coined_stage h.noHooks h.reserved h.follows]
  simp only [List.mem_append]
  rcases hst with hst | hst
  · obtain ⟨o, ho, hwritten⟩ := List.mem_filterMap.1 hst
    rw [(Compilation.written?_eq_some_iff.1 hwritten).2.local?] at hlocal
    exact Or.inl (Or.inl (Or.inl (List.mem_filterMap.2 ⟨o, ho, hlocal⟩)))
  · have hclosing := isClosing_of_mem_closing hst
    refine Or.inr (List.mem_filterMap.2 ⟨st, hmem, ?_⟩)
    cases st <;> simp_all [Statement.isClosing, Statement.local?, Statement.introduced?]

/-- **No variable has a reserved name.** -/
theorem Passage.not_reserved {name : String} (hname : name ∈ b.locals) :
    ¬ k.Reserved g e name := by
  have hfresh := (coined_fresh h.coined hb (h.mem_locals hb hname)).2
  rw [← k.taken_stage_iff g e (k.proper_of_nil h.noHooks) h.reserved, hfresh]
  simp

/-- Without hooks, and where definitions do not stand in place of names, a name
    that is asked for and not reserved is given away to a variable, a texture
    or a sampler. -/
theorem Passage.of_asked (hinline : k.options.inline = false) {name : String}
    (hname : k.Asked e ns name) (hfree : ¬ k.Reserved g e name) :
    name ∈ b.locals ∨ name ∈ d.table.resourceViews.map View.name ∨
      name ∈ d.table.samplers.map Sampler.name ∨ d.Aliases ns name := by
  rcases of_asked_run h.reserves h.run hb hname with htaken | hcoined | halias
  · have hproper := k.proper_of_nil h.noHooks
    exact absurd ((k.taken_stage_iff g e hproper h.reserved name).1 htaken) hfree
  · rcases declared_of_coined h.reserves h.run hb hinline hcoined with hlocal | hview | hsampler
    · exact Or.inl hlocal
    · exact Or.inr (Or.inl hview)
    · exact Or.inr (Or.inr (Or.inl hsampler))
  · exact Or.inr (Or.inr (Or.inr halias))

end

end Compiler

/-- **Variables and the functions that are called.**  No variable has the name of
    a function that is called if that name is reserved, as keywords and the
    functions that nodes declare are.  Any other function loses its name as
    soon as it is asked for, to a variable, a texture or a sampler, unless a split
    stands for it; and a call without a name that has a value asks for that of
    its own function. -/
theorem callee_shadowed_unless_reserved {ρ : Type} (k : Compiler ρ) (hbefore : k.before = [])
    (hafter : k.after = []) (hinline : k.options.inline = false) (g : Graph) (root : String)
    (e : EntryPoint) {s : Shader} (h : (k.generate g root e).result = .ok s) :
    ∃ c b r ns, k.assemble g root e = .ok (c, b) ∧ s = Compiler.shader c b ∧
      g.node? root = some r ∧ g.order = .ok ns ∧
      ∀ n ∈ Graph.emitted r ns, ∀ f, n.kind.callee? = some f →
        (k.Reserved g e f → f ∉ b.locals) ∧
        (¬ k.Reserved g e f → k.Asked e (Graph.emitted r ns) f →
          f ∈ b.locals ∨ f ∈ c.table.resourceViews.map View.name ∨
            f ∈ c.table.samplers.map Sampler.name ∨ c.Aliases (Graph.emitted r ns) f) ∧
        (∀ type, n.kind = .call f type → squash n.name = [] → isIdent f = true →
          k.Asked e (Graph.emitted r ns) f) := by
  obtain ⟨c, b, hok, rfl⟩ := (k.generate_eq_ok_iff g root e hafter).1 h
  obtain ⟨r, ns, d, xs, hroot, horder, hpass, hb, rfl⟩ := Compiler.exists_passage hbefore hok
  refine ⟨d.closed, b, r, ns, hok, rfl, hroot, horder, fun n hn f _ => ⟨?_, ?_, ?_⟩⟩
  · exact fun hreserved hlocal => hpass.not_reserved hb hlocal hreserved
  · intro hfree hasked
    obtain ⟨identifiers, hclosed⟩ := d.closed_eq
    rw [hclosed]
    exact hpass.of_asked hb hinline hasked hfree
  · intro type hk hblank hident
    refine Or.inl ⟨n, hn, ?_⟩
    simp [Node.asks, hk, baseName_of_blank hblank hident]

/-- A call of a keyword keeps its function from variables.  One of a function that
    nobody knows does not: its own variable gets the name. -/
theorem callee_shadowed_unless_reserved_single :
    (∃ c b, (Sample.compiler false []).assemble (Sample.single (.call "float" "float")) "out"
      Sample.pixel = .ok (c, b) ∧ "float" ∉ b.locals) ∧
    ∃ c b, (Sample.compiler false []).assemble (Sample.single (.call "shade" "float")) "out"
      Sample.pixel = .ok (c, b) ∧ "shade" ∈ b.locals := by
  constructor
  · obtain ⟨s, hs⟩ := Sample.exists_ok (r := ((Sample.compiler false []).generate
      (Sample.single (.call "float" "float")) "out" Sample.pixel).result) (by decide +kernel)
    obtain ⟨c, b, r, ns, hok, -, -, horder, hcalls⟩ := callee_shadowed_unless_reserved
      (Sample.compiler false []) rfl rfl rfl _ "out" Sample.pixel hs
    rw [Sample.single_order] at horder
    cases horder
    obtain ⟨hkept, -⟩ := hcalls _ (List.mem_append_left _ (List.mem_cons_self ..)) "float" rfl
    exact ⟨c, b, hok, hkept (Or.inl (Or.inl (by decide)))⟩
  · obtain ⟨s, hs⟩ := Sample.exists_ok (r := ((Sample.compiler false []).generate
      (Sample.single (.call "shade" "float")) "out" Sample.pixel).result) (by decide +kernel)
    obtain ⟨c, b, r, ns, hok, -, -, horder, hcalls⟩ := callee_shadowed_unless_reserved
      (Sample.compiler false []) rfl rfl rfl _ "out" Sample.pixel hs
    rw [Sample.single_order] at horder
    cases horder
    obtain ⟨-, hlost, hasks⟩ :=
      hcalls _ (List.mem_append_left _ (List.mem_cons_self ..)) "shade" rfl
    have hfree : ¬ (Sample.compiler false []).Reserved (Sample.single (.call "shade" "float"))
        Sample.pixel "shade" := by
      simp only [Compiler.Reserved, Compiler.Known]
      decide +kernel
    -- there is no texture, no sampler and no split
    have htable : ((Sample.compiler false []).assemble (Sample.single (.call "shade" "float")) "out"
        Sample.pixel).map (fun p => (p.1.table.resourceViews.map View.name,
          p.1.table.samplers.map Sampler.name,
          (p.1.table.operations.filter Operation.isSynonym).map Operation.name)) =
        .ok ([], [], ["varying"]) := by decide +kernel
    rw [hok] at htable
    simp only [Except.map, Except.ok.injEq, Prod.mk.injEq] at htable
    obtain ⟨hviews, hsamplers, hsynonyms⟩ := htable
    refine ⟨c, b, hok, ?_⟩
    rcases hlost hfree (hasks "float" rfl rfl (by decide)) with
      hlocal | hview | hsampler | halias
    · exact hlocal
    · simp [hviews] at hview
    · simp [hsamplers] at hsampler
    · have hmem := halias.mem_synonyms
      simp [hsynonyms] at hmem

/-- So a variable may have the name of the very function that gives it its
    value. -/
theorem callee_shadowed_by_its_value :
    ((Sample.compiler false []).assemble (Sample.single (.call "shade" "float")) "out"
      Sample.pixel).map (·.2.statements.map Statement.render) =
      .ok ["float shade = shade();", "Pixel pixel;", "pixel.shade = shade;", "return pixel;"] := by
  decide +kernel

end Shading
