/-
  Definitions in place of names.

  * `Compilation.inlined?`: the definition that may stand in place of a name.
  * `Compilation.expanded`: an expression with such definitions put in place
    until none is left.
  * `Trace.expands`: this is what a compiler writes that puts definitions in
    place itself, up to names.
  * `inlining_expands`: the body with definitions in place of names is the body
    without, expanded.
-/
import Shading.Proofs.Acceptance
import Shading.Proofs.Parallel
import Shading.Proofs.Scope

namespace Shading

/-! ## Keys and values at the same places -/

section
variable {α β γ : Type}

/-- The keys in a list, with the values at the same places of another. -/
def pairing (key : α → Option String) (value : β → Option γ) (as : List α) (bs : List β) :
    List (String × γ) :=
  (as.zip bs).filterMap fun p => (key p.1).bind fun n => (value p.2).map (n, ·)

theorem keys_pairing (key : α → Option String) (value : β → Option γ) (as : List α)
    (bs : List β) :
    ((pairing key value as bs).map Prod.fst).Sublist (as.filterMap key) := by
  unfold pairing
  induction as generalizing bs with
  | nil => simp
  | cons a as ih =>
    cases bs with
    | nil => simp
    | cons b bs =>
      rw [List.zip_cons_cons, List.filterMap_cons, List.filterMap_cons]
      cases ha : key a with
      | none => exact ih bs
      | some n =>
        cases hb : value b with
        | none => exact (ih bs).cons n
        | some y => exact (ih bs).cons_cons n

theorem mem_pairing {key : α → Option String} {value : β → Option γ} {as : List α}
    {bs : List β} {i : Nat} {a : α} {b : β} {n : String} {y : γ}
    (ha : as[i]? = some a) (hb : bs[i]? = some b) (hkey : key a = some n)
    (hvalue : value b = some y) : (n, y) ∈ pairing key value as bs := by
  refine List.mem_filterMap.2 ⟨(a, b), List.mem_of_getElem? (i := i) ?_, by simp [hkey, hvalue]⟩
  rw [List.getElem?_zip_eq_some]
  exact ⟨ha, hb⟩

theorem lookup_eq_some {l : List (String × γ)} (h : (l.map Prod.fst).Nodup) {n : String} {y : γ}
    (hmem : (n, y) ∈ l) : l.lookup n = some y := by
  induction l with
  | nil => cases hmem
  | cons p l ih =>
    obtain ⟨m, z⟩ := p
    rw [List.map_cons, List.nodup_cons] at h
    rcases List.mem_cons.1 hmem with heq | hmem
    · cases heq
      exact List.lookup_cons_self
    · have hne : n ≠ m := fun heq => h.1 (heq ▸ List.mem_map.2 ⟨_, hmem, rfl⟩)
      rw [List.lookup_cons, beq_false_of_ne hne]
      exact ih h.2 hmem

end

theorem filterMap_eq_of_forall₂ {α β γ : Type} {R : α → β → Prop} {φ : α → Option γ}
    {ψ : β → Option γ} (hR : ∀ a b, R a b → φ a = ψ b) {as : List α} {bs : List β}
    (h : List.Forall₂ R as bs) : as.filterMap φ = bs.filterMap ψ := by
  induction h with
  | nil => rfl
  | cons hab _ ih => rw [List.filterMap_cons, List.filterMap_cons, hR _ _ hab, ih]

theorem map_eq_of_getElem? {α β γ : Type} {φ : α → γ} {ψ : β → γ} {as : List α} {bs : List β}
    (hlen : bs.length = as.length)
    (h : ∀ (i : Nat) a b, as[i]? = some a → bs[i]? = some b → φ a = ψ b) :
    as.map φ = bs.map ψ := by
  refine List.ext_getElem (by simp [hlen]) fun i hi hi' => ?_
  rw [List.getElem_map, List.getElem_map]
  exact h i _ _ (List.getElem?_eq_getElem _) (List.getElem?_eq_getElem _)

/-! ## What is put in place -/

namespace Statement

/-- The statement with other expressions and names. -/
def map (value : Expr → Expr) (ρ : String → String) : Statement → Statement
  | define type name e => define type (ρ name) (value e)
  | perform e => perform (value e)
  | introduce type name => introduce type (ρ name)
  | assign name field e => assign (ρ name) field (value e)
  | result e => result (value e)

/-- The statement without grouping parentheses. -/
def tree : Statement → Statement :=
  map Expr.tree id

end Statement

namespace Compilation

/-- The definition that may stand in place of a name. -/
def inlined? (c : Compilation) (name : String) : Option Expr :=
  (c.table.operations.find? fun o => o.canInline && o.name == name).bind fun o =>
    o.definition?.map Expr.tree

/-- The expression with definitions in place of names, until none is left. -/
def expanded (c : Compilation) (e : Expr) : Expr :=
  (Expr.substitute c.inlined?)^[c.table.operations.length] e.tree

/-- Whether a statement stays where definitions are in place of names. -/
def keeps (c : Compilation) : Statement → Bool
  | .define _ name _ => (c.inlined? name).isNone
  | _ => true

theorem inlined?_closed (d : Compilation) : d.closed.inlined? = d.inlined? := by
  funext name
  simp only [inlined?, operations_closed]

theorem expanded_closed (d : Compilation) : d.closed.expanded = d.expanded := by
  funext e
  simp only [expanded, inlined?_closed, operations_closed]

theorem keeps_closed (d : Compilation) : d.closed.keeps = d.keeps := by
  funext st
  cases st <;> simp only [keeps, inlined?_closed]

variable {d : Compilation} {name : String}

theorem expanded_name (h : d.inlined? name = none) : d.expanded (.name name) = .name name :=
  Expr.iterate_substitute_name h _

/-- What stands in place of the name of an operation. -/
theorem inlined?_eq
    (h : ((d.table.operations.map Operation.bare).filterMap Operation.ownName?).Nodup)
    {o : Operation} (ho : o ∈ d.table.operations.map Operation.bare)
    (hname : o.ownName? = some name) :
    d.inlined? name = if o.canInline then o.definition?.map Expr.tree else none := by
  unfold inlined?
  cases hfind : d.table.operations.find? fun o => o.canInline && o.name == name with
  | some o' =>
    have hp := List.find?_some hfind
    rw [Bool.and_eq_true, beq_iff_eq] at hp
    have hbare := eq_of_ownName? h ho (List.mem_map_of_mem (List.mem_of_find?_eq_some hfind)) hname
      (o'.ownName?_of_canInline hp.1 ▸ congrArg some hp.2)
    rw [hbare]
    exact (if_pos hp.1).symm
  | none =>
    obtain ⟨o', ho', rfl⟩ := List.mem_map.1 ho
    have hp := List.find?_eq_none.1 hfind o' ho'
    have hcan : o'.bare.canInline = false := by
      by_contra hcan
      have hcan : o'.canInline = true := eq_true_of_ne_false hcan
      have hown := (o'.ownName?_of_canInline hcan).symm.trans hname
      exact hp (by simp [hcan, Option.some.inj hown])
    rw [hcan]
    rfl

/-- Nothing stands in place of a name that no operation has. -/
theorem inlined?_eq_none
    (h : ∀ o ∈ d.table.operations.map Operation.bare, o.ownName? ≠ some name) :
    d.inlined? name = none := by
  have hfind : (d.table.operations.find? fun o => o.canInline && o.name == name) = none := by
    rw [List.find?_eq_none]
    intro o ho hp
    rw [Bool.and_eq_true, beq_iff_eq] at hp
    exact h o.bare (List.mem_map_of_mem ho) (o.ownName?_of_canInline hp.1 ▸ congrArg some hp.2)
  rw [inlined?, hfind]
  rfl

end Compilation

/-! ## Two compilations of a graph -/

namespace Compilation

/-- The statements that return the stage output, with other expressions and
    names. -/
theorem closing_map {d d' : Compilation} {value : Expr → Expr} {ρ : String → String}
    {xs xs' : List Operand} (hinput : d'.input = d.input) (hout : d'.output = d.output)
    (htype : d'.outputType = d.outputType)
    (hname : d.outputType.isStruct = true →
      ρ d.outputName = d'.outputName ∧ value (.name d.outputName) = .name d'.outputName)
    (hxs : List.Forall₂ (fun x x' => value x.expr = x'.expr.tree) xs xs') :
    (d'.closing xs').map Statement.tree = (d.closing xs).map (.map value ρ) := by
  unfold closing
  rw [htype, hout]
  cases hs : d.outputType.isStruct with
  | true =>
    obtain ⟨hρ, hvalue⟩ := hname hs
    have hassigned : ∀ fields : List Field,
        (assigned d'.outputName fields xs').map Statement.tree =
          (assigned d.outputName fields xs).map (.map value ρ) := by
      induction hxs with
      | nil => simp [assigned]
      | cons hx _ ih =>
        intro fields
        cases fields with
        | nil => rfl
        | cons field rest =>
          have := ih rest
          simp only [assigned, List.zipWith_cons_cons, List.map_cons] at this ⊢
          rw [this]
          simp only [Statement.tree, Statement.map, id, hρ, hx]
    simp only [if_true, List.map_append, hassigned, introduction_eq, htype, hinput]
    split <;> simp [Statement.tree, Statement.map, Expr.tree, hρ, hvalue]
  | false =>
    simp only [Bool.false_eq_true, if_false, List.map_map]
    induction hxs with
    | nil => rfl
    | cons hx _ ih =>
      rw [List.map_cons, List.map_cons, ih]
      simp only [Function.comp_apply, Statement.tree, Statement.map, hx]

/-- What stands in the statement of an operation. -/
theorem definition?_of_written? {d : Compilation} {o : Operation} {st : Statement}
    (h : d.written? o = some st) {x : Expr} (hx : st.value? = some x) : o.definition? = some x := by
  obtain ⟨-, hwritten⟩ := written?_eq_some_iff.1 h
  cases hwritten with
  | define hf | perform hf =>
    cases hx
    rw [Operation.definition?, hf]

/-- What stands in the statements that return the stage output. -/
theorem value?_of_mem_closing {d : Compilation} {xs : List Operand} {st : Statement}
    (h : st ∈ d.closing xs) {x : Expr} (hx : st.value? = some x) :
    (∃ y ∈ xs, x = y.expr) ∨ d.outputType.isStruct = true ∧ x = .name d.outputName := by
  cases mem_closing_cases h with
  | introduce => cases hx
  | assign _ _ hy | value hy => exact Or.inl ⟨_, hy, (Option.some.inj hx).symm⟩
  | struct hs => exact Or.inr ⟨hs, (Option.some.inj hx).symm⟩

end Compilation

namespace Operation.Matches

variable {f : String → Expr} {ρ : String → String} {o o' : Operation} {name : String}

theorem replaced_of_canInline (h : o.Matches f ρ o') (hname : o.ownName? = some name)
    (hi : o.canInline = true) :
    ∃ e, o.definition? = some e ∧ f name = e.tree.bind f ρ := by
  cases h with
  | value ho ho' he _ hf =>
    simp only [Operation.ownName?, ho, Option.some.injEq] at hname
    refine ⟨_, by rw [Operation.definition?, ho], ?_⟩
    have hi' : o'.canInline = true := by
      simpa only [Operation.canInline, ho, ho'] using hi
    rw [← hname, hf, Operation.expansion, ho']
    simp only [hi', if_true, Expr.tree_operand]
    exact he
  | effect ho => simp [Operation.ownName?, ho] at hname
  | synonym ho => simp [Operation.ownName?, ho] at hname

theorem replaced_of_not_canInline (h : o.Matches f ρ o') (hname : o.ownName? = some name)
    (hi : o.canInline = false) : f name = .name (ρ name) := by
  have hi' := h.canInline.trans hi
  cases h with
  | value ho ho' _ hρ hf =>
    simp only [Operation.ownName?, ho, Option.some.injEq] at hname
    rw [← hname, hf, hρ, Operation.expansion, ho']
    simp only [hi', Bool.false_eq_true, if_false, Operation.reference, ho', Expr.tree]
  | effect ho => simp [Operation.ownName?, ho] at hname
  | synonym ho => simp [Operation.ownName?, ho] at hname

theorem ownName? (h : o.Matches f ρ o') : o.ownName?.map ρ = o'.ownName? := by
  cases h with
  | value ho ho' _ hρ => simp [Operation.ownName?, ho, ho', hρ]
  | effect ho ho' | synonym ho ho' => simp [Operation.ownName?, ho, ho']

end Operation.Matches

namespace Compilation

/-- The names of values, with what stands in their place in another
    compilation. -/
def replacements (d d' : Compilation) : List (String × Expr) :=
  pairing Operation.ownName? (fun o => some o.expansion.tree)
    (d.table.operations.map Operation.bare) (d'.table.operations.map Operation.bare)

/-- The names of values, textures, samplers and variables, with those at the same
    places in another compilation and its body. -/
def renamings (d d' : Compilation) (b b' : Body) : List (String × String) :=
  pairing Operation.ownName? Operation.ownName?
      (d.table.operations.map Operation.bare) (d'.table.operations.map Operation.bare) ++
    pairing (some ∘ View.name) (some ∘ View.name) d.table.resourceViews d'.table.resourceViews ++
    pairing (some ∘ Sampler.name) (some ∘ Sampler.name) d.table.samplers d'.table.samplers ++
    pairing some some b.introduced b'.introduced

/-- What stands in place of a name in another compilation. -/
def replaced (d d' : Compilation) (name : String) : Expr :=
  ((replacements d d').lookup name).getD (.name name)

/-- The name at the same place in another compilation. -/
def renamed (d d' : Compilation) (b b' : Body) (name : String) : String :=
  ((renamings d d' b b').lookup name).getD name

end Compilation

namespace Compiler

open Compilation

variable {κ : Type} {k k' : Compiler κ} {g : Graph} {e : EntryPoint} {r : Node} {ns : List Node}
  {d d' : Compilation} {xs xs' : List Operand} {b b' : Body}
  {f : String → Expr} {ρ : String → String}

namespace Trace

/-- Without hooks, all names that are made up. -/
theorem coined_eq (h : k.Trace g e r ns d xs) :
    k.coined g e d.closed b =
      (d.table.operations.map Operation.bare).filterMap Operation.ownName? ++
        d.table.resourceViews.map View.name ++ d.table.samplers.map Sampler.name ++
        b.introduced := by
  rw [Compiler.coined, coined_closed, coined_stage h.noHooks h.reserved h.follows]

theorem stageVariable_not_mem (h : k.Trace g e r ns d xs)
    (hb : b.statements = d.statements ++ d.closing xs) :
    k.stageVariable g e ∉ k.coined g e d.closed b := by
  intro hmem
  have htaken := k.taken_stage g e (k.proper_of_nil h.noHooks) h.reserved (k.stageVariable g e)
    (Or.inr (Or.inr (Or.inl rfl)))
  rw [(coined_fresh h.coined hb hmem).2] at htaken
  cases htaken

theorem keys_renamings (h : k.Trace g e r ns d xs) :
    ((renamings d d' b b').map Prod.fst).Sublist (k.coined g e d.closed b) := by
  rw [h.coined_eq, renamings, List.map_append, List.map_append, List.map_append]
  refine (((keys_pairing _ _ _ _).append ?_).append ?_).append ?_
  · simpa only [List.filterMap_eq_map] using keys_pairing (some ∘ View.name) (some ∘ View.name)
      d.table.resourceViews d'.table.resourceViews
  · simpa only [List.filterMap_eq_map] using keys_pairing (some ∘ Sampler.name)
      (some ∘ Sampler.name) d.table.samplers d'.table.samplers
  · simpa only [List.filterMap_some] using keys_pairing some some b.introduced b'.introduced

section
variable (h : k.Trace g e r ns d xs) (hb : b.statements = d.statements ++ d.closing xs)
  (d' : Compilation) (b' : Body)
include h hb

theorem renamed_of_mem {name name' : String} (hmem : (name, name') ∈ renamings d d' b b') :
    renamed d d' b b' name = name' := by
  rw [renamed, lookup_eq_some (h.keys_renamings.nodup (coined_nodup h.coined hb)) hmem]
  rfl

/-- **Names are replaced by what stands at the same places.** -/
theorem translates : Translates (replaced d d') (renamed d d' b b') d d' := by
  constructor
  · intro i o o' name name' ho ho' hname hname'
    constructor
    · refine h.renamed_of_mem hb d' b' ?_
      simp only [renamings, List.mem_append]
      exact Or.inl (Or.inl (Or.inl (mem_pairing ho ho' hname hname')))
    · have hnodup : ((replacements d d').map Prod.fst).Nodup :=
        (keys_pairing _ _ _ _).nodup h.ownNames_nodup
      rw [replaced, lookup_eq_some hnodup (mem_pairing ho ho' hname rfl)]
      rfl
  · intro i v v' hv hv'
    refine h.renamed_of_mem hb d' b' ?_
    simp only [renamings, List.mem_append]
    exact Or.inl (Or.inl (Or.inr (mem_pairing hv hv' rfl rfl)))
  · intro i s s' hs hs'
    refine h.renamed_of_mem hb d' b' ?_
    simp only [renamings, List.mem_append]
    exact Or.inl (Or.inr (mem_pairing hs hs' rfl rfl))

theorem renamed_introduced {i : Nat} {name name' : String} (hname : b.introduced[i]? = some name)
    (hname' : b'.introduced[i]? = some name') : renamed d d' b b' name = name' := by
  refine h.renamed_of_mem hb d' b' ?_
  simp only [renamings, List.mem_append]
  exact Or.inr (mem_pairing hname hname' rfl rfl)

/-- The stage input keeps its name, and nothing stands in its place. -/
theorem stageVariable_kept :
    replaced d d' (k.stageVariable g e) = .name (k.stageVariable g e) ∧
      renamed d d' b b' (k.stageVariable g e) = k.stageVariable g e := by
  have hfresh := h.stageVariable_not_mem hb
  have hown : ((replacements d d').map Prod.fst).Sublist (k.coined g e d.closed b) := by
    rw [h.coined_eq, List.append_assoc, List.append_assoc]
    exact (keys_pairing _ _ _ _).trans (List.sublist_append_left _ _)
  have hnone : ∀ {γ : Type} (l : List (String × γ)),
      (l.map Prod.fst).Sublist (k.coined g e d.closed b) →
      l.lookup (k.stageVariable g e) = none := by
    intro γ l hl
    rw [List.lookup_eq_none_iff]
    intro p hp
    refine bne_iff_ne.2 fun heq => hfresh ?_
    rw [heq]
    exact hl.subset (List.mem_map_of_mem hp)
  rw [replaced, renamed, hnone _ hown, hnone _ h.keys_renamings]
  exact ⟨rfl, rfl⟩

end

/-- **The two runs are parallel.** -/
theorem parallel (h : (k.setInline false).Trace g e r ns d xs)
    (h' : (k.setInline true).Trace g e r ns d' xs') (ht : Translates f ρ d d')
    (hinput : f ((k.setInline false).stageVariable g e) =
      .name ((k.setInline false).stageVariable g e)) : Parallel f ρ ns d d' := by
  refine run_induct₂ (motive := Parallel f ρ) h.reserves h'.reserves h.run h'.run ?_ ?_
  · constructor
    case operations =>
      rw [stage_operations_of_nil h.noHooks h.reserved, stage_operations_of_nil h'.noHooks
        h'.reserved]
      exact .cons (.synonym rfl rfl hinput.symm) .nil
    case aliased => exact fun n hn => nomatch hn
    all_goals first | rfl | exact fun _ => rfl
  · intro done n rest s em s₁ s' em' s₁' hsplit hs hplan hem hplan' hem' hfollows hfollows'
    exact hs.step (h.schedule.ready h.distinctIds hsplit)
      (fun m hm => h.schedule.id_ne h.distinctIds hsplit hm) hplan hem hplan' hem'
      (ht.of_follows hfollows hfollows')

/-- No operation has the name of the stage input for itself. -/
theorem inlined?_stageVariable (h : k.Trace g e r ns d xs) :
    d.inlined? (k.stageVariable g e) = none :=
  inlined?_eq_none fun _ ho hname => (h.ownName_ne_input ho hname).1 rfl

theorem visible_of_mem (h : k.Trace g e r ns d xs) (hinline : k.options.inline = false)
    {o : Operation} (ho : o ∈ d.table.operations.map Operation.bare) :
    ∀ leaf ∈ o.leaves, Visible g (k.stageVariable g e) false
      (d.table.operations.map Operation.bare) leaf := by
  obtain ⟨o, hmem, rfl⟩ := List.mem_map.1 ho
  intro leaf hleaf
  have := h.run_scoped.1.visible hmem hleaf
  rwa [h.inline, hinline] at this

section
variable (h : k.Trace g e r ns d xs) (hinline : k.options.inline = false)
  (hp : Parallel f ρ ns d d')
  (hinput : f (k.stageVariable g e) = .name (k.stageVariable g e))
  (hkept : ρ (k.stageVariable g e) = k.stageVariable g e)
include h hinline hp hinput hkept

/-- What is visible after `k` operations expands in as many substitutions. -/
theorem expands_of_visible {i : Nat} {before after : List Operation}
    (hsplit : d.table.operations.map Operation.bare = before ++ after) (hi : before.length ≤ i)
    {x : Expr} (hx : ∀ leaf ∈ x.leaves, Visible g (k.stageVariable g e) false before leaf) :
    Expr.Expands d.inlined? f ρ i x := by
  have hscoped := h.run_scoped.1
  have hfalse : d.inline = false := h.inline.trans hinline
  -- a definition that is put in place stands before the name
  induction i using Nat.strong_induction_on generalizing before after x with
  | _ i ih =>
    refine .of_names fun n hn => ?_
    generalize hl : Leaf.name n = leaf at hn
    cases hx leaf hn with
    | input => cases hl; exact .of_none h.inlined?_stageVariable (by rw [hinput, hkept])
    | literal => cases hl
    | own ho hname _ =>
      rename_i o m _
      cases hl
      have hmem : o ∈ d.table.operations.map Operation.bare := by
        rw [hsplit]; exact List.mem_append_left _ ho
      obtain ⟨j, hj⟩ := List.getElem?_of_mem hmem
      obtain ⟨o', -, hmatch⟩ := forall₂_getElem? hp.operations hj
      have hdef := inlined?_eq h.ownNames_nodup hmem hname
      cases hcan : o.canInline with
      | false =>
        rw [hcan] at hdef
        exact .of_none hdef (hmatch.replaced_of_not_canInline hname hcan)
      | true =>
        obtain ⟨definition, hdefinition, hf⟩ := hmatch.replaced_of_canInline hname hcan
        rw [hcan, if_pos rfl, hdefinition] at hdef
        obtain ⟨l₁, l₂, rfl⟩ := List.append_of_mem ho
        rw [List.append_assoc, List.cons_append] at hsplit
        rw [List.length_append, List.length_cons] at hi
        obtain ⟨j, rfl⟩ : ∃ j, i = j + 1 := ⟨i - 1, by omega⟩
        refine .of_some hdef (ih j (by omega) hsplit (by omega) fun leaf hleaf => ?_) hf
        rw [Expr.leaves_tree] at hleaf
        have := hscoped l₁ o _ hsplit leaf (o.leaves_of_definition? hdefinition ▸ hleaf)
        rwa [hfalse] at this

/-- **What a compilation writes expands to what the other writes.** -/
theorem expands {x : Expr} (hx : ∀ leaf ∈ x.leaves, Visible g (k.stageVariable g e) false
      (d.table.operations.map Operation.bare) leaf) :
    (d.expanded x).rename ρ = x.tree.bind f ρ ∧
      ∀ n, .name n ∈ (d.expanded x).leaves → d.inlined? n = none := by
  have := h.expands_of_visible hinline hp hinput hkept
    (List.append_nil (d.table.operations.map Operation.bare)).symm
    (Nat.le_of_eq (List.length_map ..)) (x := x.tree) (by rwa [Expr.leaves_tree])
  exact ⟨this.eq, this.rest⟩

/-- The statements of operations, expanded. -/
theorem statements_expand (h' : k'.Trace g e r ns d' xs') :
    d'.statements.map Statement.tree =
      (d.statements.filter d.keeps).map (.map (fun x => (d.expanded x).rename ρ) ρ) := by
  rw [h.statements, h'.statements, List.map_filterMap, List.filter_filterMap, List.map_filterMap]
  symm
  refine filterMap_eq_of_forall₂
    (R := fun o o' => o ∈ d.table.operations.map Operation.bare ∧ o.Matches f ρ o') ?_
    ((List.forall₂_and_left _ _).2 ⟨fun o ho => ho, hp.operations⟩)
  rintro o o' ⟨ho, hmatch⟩
  have hvisible := h.visible_of_mem hinline ho
  have hcan := hmatch.canInline
  cases hmatch with
  | value hf hf' hx hname _ =>
    rename_i name name' type x x' i _
    have hown : o.ownName? = some name := by rw [Operation.ownName?, hf]
    have hdef := inlined?_eq h.ownNames_nodup ho hown
    have hexp := (h.expands hinline hp hinput hkept (x := x)
      (by simpa only [Operation.leaves, hf] using hvisible)).1.trans hx.symm
    cases hi : o.canInline with
    | true =>
      rw [hi, if_pos rfl, Operation.definition?, hf] at hdef
      rw [hi] at hcan
      simp [written?, isSubstituted, hp.named, hp.inlined, hcan, Operation.written?, hf, keeps,
        hdef]
    | false =>
      rw [hi] at hdef hcan
      simp [written?, isSubstituted, hp.named, hcan, Operation.written?, hf, hf', keeps, hdef,
        Statement.map, Statement.tree, hexp, hname]
  | effect hf hf' hx =>
    rename_i x x'
    have hexp := (h.expands hinline hp hinput hkept (x := x)
      (by simpa only [Operation.leaves, hf] using hvisible)).1.trans hx.symm
    simp [written?, isSubstituted, Operation.canInline, Operation.written?, hf, hf', keeps,
      Statement.map, Statement.tree, hexp]
  | synonym hf hf' =>
    simp [written?, isSubstituted, Operation.canInline, Operation.written?, hf, hf']

end

/-- The values of the root match. -/
theorem values_match (h : k.Trace g e r ns d xs) (h' : k'.Trace g e r ns d' xs')
    (hp : Parallel f ρ ns d d') : List.Forall₂ (Operand.Matches f ρ) xs xs' := by
  have htype : d'.outputType = d.outputType := h'.outputType.trans h.outputType.symm
  have hlen : xs.length = xs'.length := by
    rw [h.length_values, h'.length_values, resultCount, resultCount, htype, h.output, h'.output]
  refine List.forall₂_iff_get.2 ⟨hlen, fun i hi hi' => ?_⟩
  obtain ⟨x', hx', hmatch⟩ := hp.rootValue (h.schedule.ready_of_closed h.closed r)
    h.root_mem_schedule htype (h.values i _ (List.getElem?_eq_getElem hi))
  have hget := h'.values i _ (List.getElem?_eq_getElem hi')
  rw [hx'] at hget
  rw [Except.ok.inj hget] at hmatch
  exact hmatch

/-! ## Whole bodies -/

section
variable (h : (k.setInline false).Trace g e r ns d xs)
  (h' : (k.setInline true).Trace g e r ns d' xs')
  (hb : b.statements = d.statements ++ d.closing xs)
  (hb' : b'.statements = d'.statements ++ d'.closing xs')
include h h' hb

theorem parallel_renamed (b' : Body) : Parallel (replaced d d') (renamed d d' b b') ns d d' :=
  h.parallel h' (h.translates hb d' b') (h.stageVariable_kept hb d' b').1

include hb'

/-- The names that are made up correspond. -/
theorem coined_renamed :
    ((k.setInline false).coined g e d.closed b).map (renamed d d' b b') =
      (k.setInline true).coined g e d'.closed b' := by
  have hp := h.parallel_renamed h' hb b'
  have ht := h.translates hb d' b'
  have hintroduced : b'.introduced.length = b.introduced.length := by
    rw [introduced_eq hb, introduced_eq hb', h.outputType, h'.outputType, h.input, h'.input]
    split <;> simp
  rw [h.coined_eq, h'.coined_eq, List.map_append, List.map_append, List.map_append, List.map_map,
    List.map_map, List.map_filterMap, ← List.map_id b'.introduced]
  congr 1
  · congr 1
    · congr 1
      · exact filterMap_eq_of_forall₂ (fun _ _ hmatch => hmatch.ownName?) hp.operations
      · exact map_eq_of_getElem? hp.views ht.view
    · exact map_eq_of_getElem? hp.samplers ht.sampler
  · exact map_eq_of_getElem? hintroduced fun i _ _ => h.renamed_introduced hb d' b'

/-- The variable in which a struct is returned is renamed to that of the other
    body, and nothing stands in its place. -/
theorem outputName_kept (hs : d.outputType.isStruct = true) :
    renamed d d' b b' d.outputName = d'.outputName ∧ d.inlined? d.outputName = none := by
  have hintroduced := introduced_eq hb
  have hintroduced' := introduced_eq hb'
  rw [hs, h.outputType, h.input] at hintroduced
  rw [h'.outputType, ← h.outputType, hs, h.outputType, h'.input] at hintroduced'
  -- a struct with the name of the stage input's is returned in its variable
  by_cases hname : e.outputType.name = e.input.name
  · have hin : d.outputName = (k.setInline false).stageVariable g e := by
      rw [outputName_eq, h.outputType, h.input, if_pos hname, h.inputName]
    have hin' : d'.outputName = (k.setInline true).stageVariable g e := by
      rw [outputName_eq, h'.outputType, h'.input, if_pos hname, h'.inputName]
    rw [hin, hin']
    exact ⟨(h.stageVariable_kept hb d' b').2, h.inlined?_stageVariable⟩
  · rw [if_pos (by simpa using hname)] at hintroduced hintroduced'
    refine ⟨h.renamed_introduced hb d' b' (i := 0) (by rw [hintroduced]; rfl)
      (by rw [hintroduced']; rfl), inlined?_eq_none fun o ho hown => ?_⟩
    have hfresh := ((introduced_fresh hb).2 d.outputName (by rw [hintroduced]; simp)).2
    rw [(h.ownName_ne_input ho hown).2] at hfresh
    cases hfresh

/-- **The body with definitions in place of names is the body without,
    expanded.** -/
theorem body_expand :
    b'.statements.map Statement.tree = (b.statements.filter d.keeps).map
      (.map (fun x => (d.expanded x).rename (renamed d d' b b')) (renamed d d' b b')) := by
  have hp := h.parallel_renamed h' hb b'
  obtain ⟨hinput, hkept⟩ := h.stageVariable_kept hb d' b'
  have hclosing : (d.closing xs).filter d.keeps = d.closing xs := by
    rw [List.filter_eq_self]
    intro st hst
    cases st with
    | define => exact absurd hst define_not_mem_closing
    | perform | introduce | assign | result => rfl
  rw [hb, hb', List.map_append, List.filter_append, List.map_append, hclosing]
  congr 1
  · exact h.statements_expand rfl hp hinput hkept h'
  · refine closing_map (h'.input.trans h.input.symm) (h'.output.trans h.output.symm)
      (h'.outputType.trans h.outputType.symm) (fun hs => ?_) ?_
    · obtain ⟨hname, hnone⟩ := h.outputName_kept h' hb hb' hs
      refine ⟨hname, ?_⟩
      rw [expanded_name hnone, Expr.rename, Expr.bind, hname]
    · refine List.Forall₂.imp (fun x x' hx => ?_) ((List.forall₂_and_left _ _).2
        ⟨fun x (hx : x ∈ xs) => hx, h.values_match h' hp⟩)
      have hvisible := fun leaf (hleaf : leaf ∈ x.expr.leaves) => h.visible_value hx.1 hleaf
      rw [h.inline] at hvisible
      exact (h.expands rfl hp hinput hkept hvisible).1.trans hx.2.expr.symm

/-- Expansion leaves no name for which a definition may stand. -/
theorem expanded_rest {st : Statement} (hst : st ∈ b.statements) {x : Expr}
    (hx : st.value? = some x) {n : String} (hn : .name n ∈ (d.expanded x).leaves) :
    d.inlined? n = none := by
  have hp := h.parallel_renamed h' hb b'
  obtain ⟨hinput, hkept⟩ := h.stageVariable_kept hb d' b'
  have hrest : ∀ y : Expr, (∀ leaf ∈ y.leaves, Visible g ((k.setInline false).stageVariable g e)
      false (d.table.operations.map Operation.bare) leaf) → .name n ∈ (d.expanded y).leaves →
      d.inlined? n = none := fun y hy => (h.expands rfl hp hinput hkept hy).2 n
  have hvalue : ∀ y ∈ xs, .name n ∈ (d.expanded y.expr).leaves → d.inlined? n = none := by
    intro y hy
    have hvisible := fun leaf (hleaf : leaf ∈ y.expr.leaves) => h.visible_value hy hleaf
    rw [h.inline] at hvisible
    exact hrest y.expr hvisible
  rw [hb, List.mem_append, h.statements] at hst
  -- a statement is that of an operation, or one of those that return the values
  rcases hst with hst | hst
  · obtain ⟨o, ho, hwritten⟩ := List.mem_filterMap.1 hst
    have hdef := definition?_of_written? hwritten hx
    refine hrest x ?_ hn
    rw [o.leaves_of_definition? hdef]
    exact h.visible_of_mem rfl ho
  · rcases value?_of_mem_closing hst hx with ⟨y, hy, rfl⟩ | ⟨hs, rfl⟩
    · exact hvalue y hy hn
    · have hnone := (h.outputName_kept h' hb hb' hs).2
      rw [expanded_name hnone, Expr.leaves, List.mem_singleton] at hn
      exact Leaf.name.inj hn ▸ hnone

end

end Trace

end Compiler

/-- The body `b'` is `b` with definitions in place of the names that `c` says,
    until none is left, and with other names. -/
structure Body.ExpandsTo (c : Compilation) (names : List String) (b : Body)
    (names' : List String) (b' : Body) (rename : String → String) : Prop where
  renames : names.map rename = names'
  injective : ∀ a ∈ names, ∀ a' ∈ names, rename a = rename a' → a = a'
  statements : b'.statements.map Statement.tree =
    (b.statements.filter c.keeps).map (.map (fun x => (c.expanded x).rename rename) rename)
  rest : ∀ st ∈ b.statements, ∀ x, st.value? = some x → ∀ n, .name n ∈ (c.expanded x).leaves →
    c.inlined? n = none

/-- **To inline is to expand, and nothing else.**  Where ids are distinct, a
    graph compiles with definitions in place of names exactly if it does without;
    and the body is then that without, expanded, up to the names that are made
    up.  In both texts the body stands after the header. -/
theorem inlining_expands {ρ : Type} (k : Compiler ρ) (hbefore : k.before = [])
    (hafter : k.after = []) (g : Graph) (hids : g.DistinctIds) (root : String) (e : EntryPoint)
    (inline : Bool) {s : Shader} (h : ((k.setInline inline).generate g root e).result = .ok s) :
    ∃ c b c' b' rename,
      (k.setInline false).assemble g root e = .ok (c, b) ∧
      ((k.setInline false).generate g root e).result = .ok (Compiler.shader c b) ∧
      (k.setInline true).assemble g root e = .ok (c', b') ∧
      ((k.setInline true).generate g root e).result = .ok (Compiler.shader c' b') ∧
      (Compiler.shader c b).source = (c.table.header .empty).text ++ b.text ∧
      (Compiler.shader c' b').source = (c'.table.header .empty).text ++ b'.text ∧
      b.ExpandsTo c (c.inputName :: (k.setInline false).coined g e c b)
        (c'.inputName :: (k.setInline true).coined g e c' b') b' rename := by
  obtain ⟨c₀, b₀, hok₀, -⟩ := ((k.setInline inline).generate_eq_ok_iff g root e hafter).1 h
  have hacceptable : g.Acceptable k.keywords k.compilation.registry e root :=
    ((k.setInline inline).assemble_isOk_iff hbefore g hids root e).1 ⟨c₀, b₀, hok₀⟩
  -- whether a graph is acceptable does not depend on where definitions stand
  obtain ⟨c, b, hok⟩ :=
    ((k.setInline false).assemble_isOk_iff hbefore g hids root e).2 hacceptable
  obtain ⟨c', b', hok'⟩ :=
    ((k.setInline true).assemble_isOk_iff hbefore g hids root e).2 hacceptable
  refine ⟨c, b, c', b', ?_⟩
  obtain ⟨r, ns, d, xs, hroot, horder, htrace, hb, rfl⟩ :=
    Compiler.exists_trace (k := k.setInline false) hbefore hids hok
  obtain ⟨r', ns', d', xs', hroot', horder', htrace', hb', rfl⟩ :=
    Compiler.exists_trace (k := k.setInline true) hbefore hids hok'
  cases hroot.symm.trans hroot'
  cases horder.symm.trans horder'
  have hnames : (d.closed.inputName :: (k.setInline false).coined g e d.closed b).map
      (Compilation.renamed d d' b b') =
      d'.closed.inputName :: (k.setInline true).coined g e d'.closed b' := by
    rw [List.map_cons, htrace.coined_renamed htrace' hb hb', d.inputName_closed,
      d'.inputName_closed, htrace.inputName, htrace'.inputName,
      (htrace.stageVariable_kept hb d' b').2]
    rfl
  refine ⟨Compilation.renamed d d' b b', hok, ?_, hok', ?_, Compiler.source_of_assemble hok,
    Compiler.source_of_assemble hok', hnames, ?_, ?_, ?_⟩
  · exact ((k.setInline false).generate_eq_ok_iff g root e hafter).2 ⟨_, _, hok, rfl⟩
  · exact ((k.setInline true).generate_eq_ok_iff g root e hafter).2 ⟨_, _, hok', rfl⟩
  · refine fun a ha a' ha' => List.inj_on_of_nodup_map ?_ ha ha'
    rw [hnames, List.nodup_cons, d'.inputName_closed, htrace'.inputName]
    exact ⟨htrace'.stageVariable_not_mem hb', Compiler.coined_nodup htrace'.coined hb'⟩
  · rw [Compilation.keeps_closed, Compilation.expanded_closed]
    exact htrace.body_expand htrace' hb hb'
  · rw [Compilation.expanded_closed, Compilation.inlined?_closed]
    exact fun st hst x hx n hn => htrace.expanded_rest htrace' hb hb' hst hx hn

/-- The sample, where every definition can be put in place. -/
theorem inlining_expands_halfRed :
    ∃ c b c' b' rename,
      ((Sample.compiler false []).setInline false).assemble Sample.halfRed "out" Sample.pixel =
        .ok (c, b) ∧
      ((Sample.compiler false []).setInline true).assemble Sample.halfRed "out" Sample.pixel =
        .ok (c', b') ∧
      b.statements.map Statement.render =
        ["float4 albedo = SrvAlbedo.Sample(SamplerAlbedo, varying.uv);", "float x = 0.5;",
          "float x0 = albedo.r * x;", "Pixel pixel;", "pixel.shade = x0;", "return pixel;"] ∧
      b'.statements.map Statement.render =
        ["Pixel pixel;",
          "pixel.shade = (SrvAlbedo.Sample(SamplerAlbedo, varying.uv).r * 0.5);",
          "return pixel;"] ∧
      b'.statements.map Statement.tree = (b.statements.filter c.keeps).map
        (.map (fun x => (c.expanded x).rename rename) rename) := by
  obtain ⟨s, hs⟩ := Sample.exists_ok (r := (((Sample.compiler false []).setInline false).generate
    Sample.halfRed "out" Sample.pixel).result) (by decide +kernel)
  obtain ⟨c, b, c', b', rename, hok, -, hok', -, -, -, hexpands⟩ := inlining_expands
    (Sample.compiler false []) rfl rfl Sample.halfRed Sample.halfRed_distinctIds "out" Sample.pixel
    false hs
  have hnamed : (((Sample.compiler false []).setInline false).assemble Sample.halfRed "out"
      Sample.pixel).map (fun r => r.2.statements.map Statement.render) =
      .ok ["float4 albedo = SrvAlbedo.Sample(SamplerAlbedo, varying.uv);", "float x = 0.5;",
        "float x0 = albedo.r * x;", "Pixel pixel;", "pixel.shade = x0;", "return pixel;"] := by
    decide +kernel
  have hinlined : (((Sample.compiler false []).setInline true).assemble Sample.halfRed "out"
      Sample.pixel).map (fun r => r.2.statements.map Statement.render) =
      .ok ["Pixel pixel;",
        "pixel.shade = (SrvAlbedo.Sample(SamplerAlbedo, varying.uv).r * 0.5);",
        "return pixel;"] := by decide +kernel
  rw [hok] at hnamed
  rw [hok'] at hinlined
  exact ⟨c, b, c', b', rename, hok, hok', Except.ok.inj hnamed, Except.ok.inj hinlined,
    hexpands.statements⟩

end Shading
