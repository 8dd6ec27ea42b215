/-
  The names that a compiler makes up for values, textures, samplers and the
  variable of the stage output.

  * `Emission.names`: the names that one emission makes up.  They are
    identifiers, differ from each other, and were not taken before
    (`names_fresh`).
  * `SymbolTable.Coined`: the same of all names that came in between two tables,
    kept by every node (`Coined.step`).
  * `coined_names_fresh`: the names of a whole compilation are identifiers,
    differ from each other, and are none of the names that mean something else.
-/
import Shading.Proofs.Body
import Shading.Proofs.Stage

namespace Shading

open Text

/-- The name that an operation has for itself; a synonym has none. -/
def Operation.ownName? (o : Operation) : Option String :=
  match o.form with
  | .value name .. => some name
  | _ => none

theorem Operation.ownName?_of_canInline (o : Operation) (h : o.canInline = true) :
    o.bare.ownName? = some o.name := by
  cases hf : o.form <;> simp [canInline, hf] at h
  simp [ownName?, bare, name, hf]

/-- The variable that a statement introduces without a value. -/
def Statement.introduced? : Statement → Option String
  | .introduce _ name => some name
  | _ => none

/-- The variables that a body introduces without a value. -/
def Body.introduced (b : Body) : List String :=
  b.statements.filterMap Statement.introduced?

/-- The names of the values, textures and samplers that came in between the
    tables `s` and `t`. -/
def SymbolTable.coined (s t : SymbolTable) : List String :=
  (t.operations.drop s.operations.length).filterMap Operation.ownName? ++
    (t.resourceViews.drop s.resourceViews.length).map View.name ++
    (t.samplers.drop s.samplers.length).map Sampler.name

/-! ## One emission -/

namespace Emission

/-- The names that an emission makes up. -/
def names (t : SymbolTable) (n : Node) (em : Emission) : List String :=
  ((em.operation? t n).bind Operation.ownName?).toList ++
    match em with
    | .sample _ => [textureName t n, samplerName t n]
    | _ => []

variable {t : SymbolTable} {n : Node}

theorem taken_withTexture (name : String) :
    (withTexture t n).taken name = (textureName t n == name || t.taken name) :=
  SymbolTable.taken_claim t _ name

theorem taken_resources_sample (coords : Operand) (name : String) :
    ((Emission.sample coords).resources t n).taken name =
      (samplerName t n == name || (textureName t n == name || t.taken name)) := by
  rw [← taken_withTexture]
  exact SymbolTable.taken_claim _ _ name

/-- The names that an emission makes up differ from each other, and were not
    taken before. -/
theorem names_fresh (em : Emission) :
    (em.names t n).Nodup ∧ ∀ name ∈ em.names t n, isIdent name ∧ t.taken name = false := by
  cases em with
  | nothing | stageInput | effect | synonym =>
    simp [names, operation?, form?, Operation.ownName?]
  | value fallback type definition counted =>
    simp only [names, operation?, form?, Option.map_some, Option.bind_some, Operation.ownName?,
      Option.toList_some, List.append_nil, List.nodup_singleton, List.mem_singleton, forall_eq,
      true_and]
    exact ⟨t.isIdent_freshName (isIdent_baseName _ _), t.freshName_not_taken _⟩
  | sample coords =>
    have hword : isIdent "Srv" ∧ isIdent "Sampler" := by decide
    have htexture := t.freshName_not_taken ("Srv" ++ Compilation.resourceName n)
    have hsampler := (withTexture t n).freshName_not_taken
      ("Sampler" ++ Compilation.resourceName n)
    have hvalue := ((Emission.sample coords).resources t n).freshName_not_taken
      (baseName n.name "texture")
    rw [taken_withTexture, Bool.or_eq_false_iff] at hsampler
    rw [taken_resources_sample, Bool.or_eq_false_iff, Bool.or_eq_false_iff] at hvalue
    simp only [beq_eq_false_iff_ne, ne_eq] at hsampler hvalue
    simp only [names, operation?, form?, Option.map_some, Option.bind_some, Operation.ownName?,
      Option.toList_some, List.singleton_append, List.nodup_cons, List.mem_cons, List.not_mem_nil,
      or_false, not_or, not_false_eq_true, List.nodup_nil, and_true, forall_eq_or_imp, forall_eq]
    refine ⟨⟨⟨fun h => hvalue.2.1 h.symm, fun h => hvalue.1 h.symm⟩, fun h => hsampler.1 h⟩,
      ⟨?_, hvalue.2.2⟩, ⟨?_, htexture⟩, ?_, hsampler.2⟩
    · exact SymbolTable.isIdent_freshName _ (isIdent_baseName _ _)
    · exact t.isIdent_freshName (isIdent_resourceName _ hword.1 n)
    · exact SymbolTable.isIdent_freshName _ (isIdent_resourceName _ hword.2 n)

/-- After an emission the names that it makes up are taken, and those taken
    before still are. -/
theorem taken_install {em : Emission} {name : String}
    (h : t.taken name = true ∨ name ∈ em.names t n) : (em.install t n).taken name = true := by
  have hident : ∀ name ∈ em.names t n, name.isEmpty = false := by
    intro name hname
    have := ne_empty_of_isIdent (em.names_fresh.2 name hname).1
    simpa using this
  cases em with
  | nothing | stageInput =>
    simp only [names, operation?, form?, Option.map_none, Option.bind_none, Option.toList_none,
      List.append_nil, List.not_mem_nil, or_false] at h
    exact h
  | value fallback type definition counted =>
    simp only [install, operation?, form?, Option.map_some, SymbolTable.taken_addOperation,
      resources, Bool.or_eq_true, Bool.and_eq_true, beq_iff_eq]
    simp only [names, operation?, form?, Option.map_some, Option.bind_some, Operation.ownName?,
      Option.toList_some, List.append_nil, List.mem_singleton, forall_eq] at h hident
    refine h.elim Or.inr fun h => Or.inl ⟨?_, h.symm⟩
    simp only [Operation.name, hident, Bool.not_false]
  | effect | synonym =>
    simp only [names, operation?, form?, Option.map_some, Option.bind_some, Operation.ownName?,
      Option.toList_none, List.append_nil, List.not_mem_nil, or_false] at h
    simp only [install, operation?, form?, Option.map_some, SymbolTable.taken_addOperation,
      resources, h, Bool.or_true]
  | sample coords =>
    simp only [install, operation?, form?, Option.map_some, SymbolTable.taken_addOperation,
      taken_resources_sample, Bool.or_eq_true, Bool.and_eq_true, beq_iff_eq]
    simp only [names, operation?, form?, Option.map_some, Option.bind_some, Operation.ownName?,
      Option.toList_some, List.singleton_append, List.mem_cons, List.not_mem_nil, or_false,
      forall_eq_or_imp, forall_eq] at h hident
    rcases h with h | h | h | h
    · exact Or.inr (Or.inr (Or.inr h))
    · exact Or.inl ⟨by simp only [Operation.name, hident.1, Bool.not_false], h.symm⟩
    · exact Or.inr (Or.inr (Or.inl h.symm))
    · exact Or.inr (Or.inl h.symm)

end Emission

theorem Compilation.Emitted.taken {c c' : Compilation} {n : Node} {em : Emission}
    (hem : c.Emitted n em c') {name : String}
    (h : c.table.taken name = true ∨ name ∈ em.names c.table n) :
    c'.table.taken name = true := by
  have := Emission.taken_install h
  rwa [SymbolTable.taken, ← hem.identifiers] at this

/-! ## All names of a run -/

namespace SymbolTable

/-- The names that came in between two tables are identifiers, differ from each
    other, and were not taken before but are now. -/
structure Coined (s t : SymbolTable) : Prop where
  operations : s.operations.length ≤ t.operations.length
  resourceViews : s.resourceViews.length ≤ t.resourceViews.length
  samplers : s.samplers.length ≤ t.samplers.length
  nodup : (s.coined t).Nodup
  ident : ∀ name ∈ s.coined t, isIdent name = true
  fresh : ∀ name ∈ s.coined t, s.taken name = false
  taken : ∀ name ∈ s.coined t, t.taken name = true
  kept : ∀ name, s.taken name = true → t.taken name = true

theorem Coined.refl (s : SymbolTable) : Coined s s := by
  have h : s.coined s = [] := by simp [coined]
  constructor <;> simp [h]

theorem filterMap_ownName?_bare (os : List Operation) :
    (os.map Operation.bare).filterMap Operation.ownName? = os.filterMap Operation.ownName? := by
  rw [List.filterMap_map]
  rfl

/-- The names that come in with an emission are added to those before. -/
theorem coined_perm {s t t' : SymbolTable} {n : Node} {em : Emission} (h : Coined s t)
    (hops : t'.operations.map Operation.bare =
      t.operations.map Operation.bare ++ (em.operation? t n).toList)
    (hviews : t'.resourceViews = (em.resources t n).resourceViews)
    (hsamplers : t'.samplers = (em.resources t n).samplers) :
    (s.coined t').Perm (em.names t n ++ s.coined t) := by
  have hvalues : (t'.operations.drop s.operations.length).filterMap Operation.ownName? =
      (t.operations.drop s.operations.length).filterMap Operation.ownName? ++
        ((em.operation? t n).bind Operation.ownName?).toList := by
    rw [← filterMap_ownName?_bare, List.map_drop, hops,
      List.drop_append_of_le_length (by simpa using h.operations), List.filterMap_append,
      ← List.map_drop, filterMap_ownName?_bare]
    congr 1
    cases em.operation? t n with
    | none => rfl
    | some o => cases ho : o.ownName? <;> simp [ho]
  unfold coined
  rw [hvalues, hviews, hsamplers, List.perm_iff_count]
  intro name
  cases em with
  | sample coords =>
    rw [Emission.resourceViews_sample, Emission.samplers_sample,
      List.drop_append_of_le_length h.resourceViews, List.drop_append_of_le_length h.samplers]
    simp only [Emission.names, Emission.texture, Emission.sampler, List.map_append, List.map_cons,
      List.map_nil, List.count_append, List.count_cons, List.count_nil]
    omega
  | nothing | stageInput | value | effect | synonym =>
    simp only [Emission.names, Emission.resources, List.count_append, List.count_nil]
    omega

/-- **A node keeps the names apart.** -/
theorem Coined.step {s : SymbolTable} {c c' : Compilation} {n : Node} {em : Emission}
    (h : Coined s c.table) (hem : c.Emitted n em c') : Coined s c'.table := by
  have hperm := coined_perm h hem.operations hem.resourceViews hem.samplers
  obtain ⟨hnodup, hnames⟩ := em.names_fresh (t := c.table) (n := n)
  have hfresh : ∀ name ∈ em.names c.table n, s.taken name = false := by
    intro name hname
    by_contra hs
    have := h.kept name (by simpa using hs)
    rw [(hnames name hname).2] at this
    cases this
  have hmem : ∀ name ∈ s.coined c'.table, name ∈ em.names c.table n ∨ name ∈ s.coined c.table :=
    fun name hname => List.mem_append.1 (hperm.mem_iff.1 hname)
  have hlen := congrArg List.length hem.operations
  rw [List.length_append, List.length_map, List.length_map] at hlen
  constructor
  case operations => exact h.operations.trans (by omega)
  case resourceViews =>
    rw [hem.resourceViews]
    exact h.resourceViews.trans (em.resourceViews_resources _ n).length_le
  case samplers =>
    rw [hem.samplers]
    exact h.samplers.trans (em.samplers_resources _ n).length_le
  case nodup =>
    rw [hperm.nodup_iff, List.nodup_append]
    refine ⟨hnodup, h.nodup, fun a ha b hb hab => ?_⟩
    have := h.taken b hb
    rw [← hab, (hnames a ha).2] at this
    cases this
  case ident =>
    exact fun name hname => (hmem name hname).elim (fun h => (hnames name h).1) (h.ident name)
  case fresh => exact fun name hname => (hmem name hname).elim (hfresh name) (h.fresh name)
  case taken =>
    intro name hname
    exact hem.taken ((hmem name hname).elim Or.inr fun h' => Or.inl (h.taken name h'))
  case kept => exact fun name hname => hem.taken (Or.inl (h.kept name hname))

theorem coined_run {g : Graph} {c c' : Compilation} {ns : List Node}
    (hr : ∀ n ∈ ns, c.table.Reserves n) (h : Compilation.emitAll g c ns = (c', none)) :
    Coined c.table c'.table :=
  Compilation.run_induct (motive := fun _ d => Coined c.table d.table) hr h (.refl c.table)
    fun _ _ _ _ _ _ _ hd _ hem => hd.step hem

end SymbolTable

/-- Two operations of one name are the same. -/
theorem eq_of_ownName? {os : List Operation} (h : (os.filterMap Operation.ownName?).Nodup)
    {o o' : Operation} (ho : o ∈ os) (ho' : o' ∈ os) {name : String}
    (hn : o.ownName? = some name) (hn' : o'.ownName? = some name) : o = o' := by
  by_contra hne
  have hsymm : Std.Symm fun a b : Operation =>
      ∀ x, a.ownName? = some x → ∀ y, b.ownName? = some y → x ≠ y :=
    ⟨fun a b hab x hx y hy => (hab y hy x hx).symm⟩
  exact (List.pairwise_filterMap.1 h).forall ho ho' hne name hn name hn' rfl

namespace Compiler

variable {ρ : Type} {k : Compiler ρ} {g : Graph} {e : EntryPoint} {d : Compilation}

/-- Without hooks all names of values, textures and samplers are made up. -/
theorem coined_stage (h : k.before = [])
    (hr : ∃ t, (k.start e).table.reserveMethods g.nodes = (t, none))
    (hd : (k.stage g e).Follows d) :
    (k.stage g e).table.coined d.table =
      (d.table.operations.map Operation.bare).filterMap Operation.ownName? ++
        d.table.resourceViews.map View.name ++ d.table.samplers.map Sampler.name := by
  obtain ⟨-, hviews, hsamplers⟩ := stage_resources_of_nil h hr
  have hops := stage_operations_of_nil h hr
  unfold SymbolTable.coined
  simp only [hviews, hsamplers, List.length_nil, List.drop_zero]
  congr 2
  -- the stage input is the first operation, and has no name of its own
  obtain ⟨rest, hrest⟩ := hd.operations
  rw [← SymbolTable.filterMap_ownName?_bare, List.map_drop, ← hrest, hops]
  rfl

/-- The name of an operation of its own is taken, and is not that of the stage
    input. -/
theorem ownName_ne_stageVariable (h : k.before = [])
    (hr : ∃ t, (k.start e).table.reserveMethods g.nodes = (t, none))
    (hd : (k.stage g e).Follows d) (hcoined : SymbolTable.Coined (k.stage g e).table d.table)
    {o : Operation} (ho : o ∈ d.table.operations.map Operation.bare) {name : String}
    (hname : o.ownName? = some name) :
    name ≠ k.stageVariable g e ∧ d.table.taken name = true := by
  have hmem : name ∈ (k.stage g e).table.coined d.table := by
    rw [coined_stage h hr hd]
    exact List.mem_append_left _ (List.mem_append_left _ (List.mem_filterMap.2 ⟨o, ho, hname⟩))
  refine ⟨fun heq => ?_, hcoined.taken name hmem⟩
  have htaken := k.taken_stage g e (k.proper_of_nil h) hr name (Or.inr (Or.inr (Or.inl heq)))
  rw [hcoined.fresh name hmem] at htaken
  cases htaken

end Compiler

/-! ## The whole compilation -/

namespace Compilation

theorem introduced?_statement? {o : Operation} {s : Statement} (h : o.statement? = some s) :
    s.introduced? = none := by
  unfold Operation.statement? at h
  split at h
  · cases h
  · split at h
    · cases h; split <;> rfl
    · cases h; rfl
    · cases h

theorem introduced_statements (c : Compilation) :
    c.statements.filterMap Statement.introduced? = [] := by
  rw [List.filterMap_eq_nil_iff]
  intro s hs
  obtain ⟨o, -, ho⟩ := List.mem_filterMap.1 hs
  exact introduced?_statement? ho

/-- The only variable without a value is that in which a struct is returned. -/
theorem introduced_eq {d : Compilation} {b : Body} {xs : List Operand}
    (h : b.statements = d.statements ++ d.closing xs) :
    b.introduced = if d.outputType.isStruct && d.outputType.name != d.input.name then
      [d.outputName] else [] := by
  have hassigned : ∀ (name : String) (fields : List Field) (xs : List Operand),
      (assigned name fields xs).filterMap Statement.introduced? = [] := by
    intro name fields xs
    rw [List.filterMap_eq_nil_iff]
    intro s hs
    obtain ⟨f, -, x, -, rfl⟩ := mem_assigned hs
    rfl
  rw [Body.introduced, h, List.filterMap_append, introduced_statements, List.nil_append, closing]
  cases d.outputType.isStruct with
  | true =>
    simp only [if_true, List.filterMap_append, hassigned, List.append_nil, Bool.true_and,
      introduction_eq, bne_iff_ne]
    by_cases hname : d.outputType.name = d.input.name <;> simp [hname, Statement.introduced?]
  | false =>
    simp only [Bool.false_eq_true, if_false, Bool.false_and, List.filterMap_eq_nil_iff]
    intro s hs
    obtain ⟨x, -, rfl⟩ := List.mem_map.1 hs
    rfl

/-- The variable in which a struct is returned is found in a table that has all
    other names. -/
theorem introduced_fresh {d : Compilation} {b : Body} {xs : List Operand}
    (h : b.statements = d.statements ++ d.closing xs) :
    b.introduced.Nodup ∧
      ∀ name ∈ b.introduced, isIdent name = true ∧ d.table.taken name = false := by
  rw [introduced_eq h]
  split
  · rename_i hnew
    rw [Bool.and_eq_true, bne_iff_ne] at hnew
    refine ⟨List.nodup_singleton _, fun name hname => ?_⟩
    rw [List.mem_singleton.1 hname, outputName_eq, if_neg hnew.2]
    exact ⟨d.table.isIdent_freshName (isIdent_baseName _ _), d.table.freshName_not_taken _⟩
  · exact ⟨List.nodup_nil, fun name hname => nomatch hname⟩

theorem coined_closed (c : Compilation) (s : SymbolTable) :
    s.coined c.closed.table = s.coined c.table := by
  unfold closed outputVariable
  split
  · split <;> rfl
  · rfl

end Compilation

/-- The names that a compiler makes up once the stage is set up: of values, of
    textures, of samplers, and of the variable in which a struct is returned. -/
def Compiler.coined {ρ : Type} (k : Compiler ρ) (g : Graph) (e : EntryPoint) (c : Compilation)
    (b : Body) : List String :=
  (k.stage g e).table.coined c.table ++ b.introduced

section
variable {ρ : Type} {k : Compiler ρ} {g : Graph} {e : EntryPoint} {d : Compilation} {b : Body}
  {xs : List Operand} (h : SymbolTable.Coined (k.stage g e).table d.table)
  (hb : b.statements = d.statements ++ d.closing xs)
include h hb

/-- The names that a compiler makes up differ from each other. -/
theorem Compiler.coined_nodup : (k.coined g e d.closed b).Nodup := by
  obtain ⟨hnodup, hlast⟩ := Compilation.introduced_fresh hb
  unfold Compiler.coined
  rw [Compilation.coined_closed, List.nodup_append]
  refine ⟨h.nodup, hnodup, fun a ha a' ha' haa' => ?_⟩
  have := h.taken a ha
  rw [haa', (hlast a' ha').2] at this
  cases this

/-- The names that a compiler makes up are not taken when the stage is set up. -/
theorem Compiler.coined_fresh {name : String} (hname : name ∈ k.coined g e d.closed b) :
    isIdent name = true ∧ (k.stage g e).table.taken name = false := by
  have hlast := (Compilation.introduced_fresh hb).2
  rcases List.mem_append.1 hname with hname | hname
  · rw [Compilation.coined_closed] at hname
    exact ⟨h.ident name hname, h.fresh name hname⟩
  · refine ⟨(hlast name hname).1, ?_⟩
    by_contra hs
    have := h.kept name (by simpa using hs)
    rw [(hlast name hname).2] at this
    cases this

end

/-- **The names that a compiler makes up are identifiers, differ from each
    other, and are none of the names that mean something else:** keywords, the
    entry point, the stage input and the structs of the stage, functions that
    nodes declare, and whatever hooks have taken. -/
theorem coined_names_fresh {ρ : Type} (k : Compiler ρ)
    (hbefore : ∀ hook ∈ k.before, hook.Proper) (hafter : k.after = []) (g : Graph)
    (root : String) (e : EntryPoint) {s : Shader} (h : (k.generate g root e).result = .ok s) :
    ∃ c b, k.assemble g root e = .ok (c, b) ∧ s = Compiler.shader c b ∧
      (k.coined g e c b).Nodup ∧
      ∀ name ∈ k.coined g e c b,
        isIdent name = true ∧ name ∉ k.keywords ∧ name ≠ e.name ∧ name ≠ c.inputName ∧
        name ≠ e.input.name ∧ (e.outputType.isStruct = true → name ≠ e.output.name) ∧
        name ∉ SymbolTable.declaredNames g.nodes ∧
        (runHooks k.before .empty).1.taken name = false := by
  obtain ⟨c, b, hok, rfl⟩ := (k.generate_eq_ok_iff g root e hafter).1 h
  obtain ⟨hreserve, r, ns, d, hmem, hrun, hbody, hfail⟩ := k.assemble_run g root e hok
  obtain ⟨xs, -, -, hstatements, rfl⟩ := Compilation.body_ok hbody hfail
  have hreserves := k.stage_reserves g e hbefore hreserve
  have hns : ∀ n ∈ ns, (k.stage g e).table.Reserves n := fun n hn => hreserves n (hmem n hn)
  have hcoined := SymbolTable.coined_run hns hrun
  have hinput : d.closed.inputName = k.stageVariable g e := by
    rw [Compilation.inputName_closed]
    exact (Compilation.run_follows hns hrun).inputName (k.stage_inputOperation? g e)
  refine ⟨d.closed, b, hok, rfl, Compiler.coined_nodup hcoined hstatements, fun name hname => ?_⟩
  obtain ⟨hident, htaken⟩ := Compiler.coined_fresh hcoined hstatements hname
  have hmeans := mt (k.taken_stage g e hbefore hreserve name) (by simp [htaken])
  simp only [not_or, not_and, Bool.not_eq_true] at hmeans
  obtain ⟨hkeyword, hentry, hvariable, hin, hout, hfunction, hhook⟩ := hmeans
  exact ⟨hident, hkeyword, hentry, hinput ▸ hvariable, hin, hout, hfunction, hhook⟩

/-- A hook has taken the name that two nodes ask for. -/
theorem coined_names_fresh_halfRed :
    ∃ c b, (Sample.compiler false ["x"]).assemble Sample.halfRed "out" Sample.pixel = .ok (c, b) ∧
      (Sample.compiler false ["x"]).coined Sample.halfRed Sample.pixel c b =
        ["albedo", "x0", "x1", "SrvAlbedo", "SamplerAlbedo", "pixel"] ∧
      ∀ name ∈ (Sample.compiler false ["x"]).coined Sample.halfRed Sample.pixel c b,
        isIdent name = true ∧ name ≠ c.inputName ∧
          (runHooks (Sample.compiler false ["x"]).before .empty).1.taken name = false := by
  obtain ⟨s, hs⟩ := Sample.exists_ok (r := ((Sample.compiler false ["x"]).generate
    Sample.halfRed "out" Sample.pixel).result) (by decide +kernel)
  obtain ⟨c, b, hok, -, -, hnames⟩ := coined_names_fresh (Sample.compiler false ["x"])
    (Sample.compiler_proper _ _) rfl Sample.halfRed "out" Sample.pixel hs
  have hlist : ((Sample.compiler false ["x"]).assemble Sample.halfRed "out" Sample.pixel).map
      (fun r => (Sample.compiler false ["x"]).coined Sample.halfRed Sample.pixel r.1 r.2) =
      .ok ["albedo", "x0", "x1", "SrvAlbedo", "SamplerAlbedo", "pixel"] := by decide +kernel
  rw [hok] at hlist
  refine ⟨c, b, hok, Except.ok.inj hlist, fun name hname => ?_⟩
  obtain ⟨hident, -, -, hinput, -, -, -, hhook⟩ := hnames name hname
  exact ⟨hident, hinput, hhook⟩

end Shading
