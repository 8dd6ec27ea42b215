/-
  The functions that come along with a graph, each defined once and in front of
  the entry point.

  * `Node.function?`: the function that a node brings along.
  * `Function.firsts`: the first function of each name.  Of one name there is at
    most one (`filter_firsts`).
  * `functions_eq_firsts`: a run defines the first function of each name among
    those of its nodes.
  * `defineMethod_isOk`: a function whose name is taken for it can be defined.
  * `functions_defined_once`: so it is in a compilation, whose text has these
    functions right before the entry point that calls them.
-/
import Shading.Proofs.Calls
import Shading.Proofs.Functions
import Shading.Proofs.Header

namespace Shading

open SymbolTable (declaredNames mem_declaredNames)

/-- The function that a node brings along. -/
def Node.function? (n : Node) : Option Function :=
  match n.kind with
  | .declaredCall function _ source => some ⟨function, source⟩
  | _ => none

theorem Node.function?_eq_some_iff {n : Node} {f : Function} :
    n.function? = some f ↔ ∃ type?, n.kind = .declaredCall f.name type? f.source := by
  unfold function?
  cases n.kind with
  | declaredCall function type? source =>
    constructor
    · rintro ⟨⟩
      exact ⟨type?, rfl⟩
    · rintro ⟨_, ⟨⟩⟩
      rfl
  | _ => simp

namespace Function

/-- The functions of a list without those whose names occur before. -/
def firsts : List Function → List Function
  | [] => []
  | f :: fs => f :: (firsts fs).filter (·.name != f.name)

theorem firsts_sublist (fs : List Function) : (firsts fs).Sublist fs := by
  induction fs with
  | nil => exact .slnil
  | cons f fs ih => exact (List.filter_sublist.trans ih).cons_cons f

/-- **Of each name there is the first function, and no other.** -/
theorem filter_firsts (fs : List Function) (name : String) :
    (firsts fs).filter (·.name == name) = (fs.find? (·.name == name)).toList := by
  induction fs with
  | nil => rfl
  | cons f fs ih =>
    rw [firsts, List.filter_cons, List.find?_cons, List.filter_filter]
    by_cases hf : f.name = name
    · subst hf
      have hnone : ∀ f' ∈ firsts fs, ¬ ((f'.name == f.name && f'.name != f.name) = true) := by
        simp
      rw [List.filter_eq_nil_iff.2 hnone]
      simp
    · have hsame : ∀ f' : Function,
          (f'.name == name && f'.name != f.name) = (f'.name == name) := by
        intro f'
        by_cases hname : f'.name = name
        · simp [hname, Ne.symm hf]
        · simp [hname]
      simp only [hsame, ih, beq_false_of_ne hf, Bool.false_eq_true, if_false]

theorem any_firsts (fs : List Function) (name : String) :
    (firsts fs).any (·.name == name) = fs.any (·.name == name) := by
  rw [← List.isSome_find?, ← List.isSome_find?, ← List.head?_filter, filter_firsts]
  cases fs.find? (·.name == name) <;> rfl

/-- A function after others counts if its name is new. -/
theorem firsts_concat (fs : List Function) (f : Function) :
    firsts (fs ++ [f]) = if fs.any (·.name == f.name) then firsts fs else firsts fs ++ [f] := by
  induction fs with
  | nil => rfl
  | cons f' fs ih =>
    rw [List.cons_append, firsts, firsts, ih, List.any_cons]
    by_cases hany : fs.any (·.name == f.name) = true
    · simp [hany]
    · by_cases hf : f'.name = f.name
      · simp [hany, hf]
      · simp [hany, hf, Ne.symm hf]

end Function

/-! ## The functions of a run -/

theorem SymbolTable.functionsWith_eq {t : SymbolTable} {fs : List Function}
    (h : t.functions = Function.firsts fs) (n : Node) :
    t.functionsWith n = Function.firsts (fs ++ n.function?.toList) := by
  unfold functionsWith Node.function?
  cases n.kind with
  | declaredCall function type? source =>
    rw [Option.toList_some, Function.firsts_concat, ← Function.any_firsts, ← h]
    rfl
  | _ => rw [Option.toList_none, List.append_nil, ← h]

/-- **A run defines the first function of each name.** -/
theorem Compilation.functions_eq_firsts {g : Graph} {c c' : Compilation} {ns : List Node}
    (hr : ∀ n ∈ ns, c.table.Reserves n) (hnone : c.table.functions = [])
    (h : emitAll g c ns = (c', none)) :
    c'.table.functions = Function.firsts (ns.filterMap Node.function?) := by
  refine run_induct (motive := fun done d => d.table.functions =
    Function.firsts (done.filterMap Node.function?)) hr h hnone ?_
  intro done n rest d em d' _ hd _ hem
  have hone : [n].filterMap Node.function? = n.function?.toList := by
    cases hf : n.function? <;> simp [hf]
  rw [hem.functions, SymbolTable.functionsWith_eq hd, List.filterMap_append, hone]

/-- A function whose name is taken for it can be defined. -/
theorem SymbolTable.defineMethod_isOk {t : SymbolTable} {name : String}
    (h : t.methods.contains name = true) (source : String) :
    ∃ new t', (defineMethod name source).run t = .ok new t' := by
  rw [run_defineMethod, reserveMethod_eq_ok_iff.2 (.inl ⟨h, rfl⟩)]
  split <;> exact ⟨_, _, rfl⟩

namespace Compiler

open Compilation

variable {ρ : Type} {k : Compiler ρ} {g : Graph} {e : EntryPoint}

/-- Wherever a run comes to, each function of the graph can be defined. -/
theorem defineMethod_isOk (h : k.before = [])
    (hr : ∃ t, (k.start e).table.reserveMethods g.nodes = (t, none)) {ns : List Node}
    (hns : ∀ n ∈ ns, n ∈ g.nodes) {d : Compilation}
    (hrun : emitAll g (k.stage g e) ns = (d, none)) {n : Node} (hn : n ∈ g.nodes) {f : Function}
    (hf : n.function? = some f) :
    ∃ new t', (SymbolTable.defineMethod f.name f.source).run d.table = .ok new t' := by
  have hreserves := k.stage_reserves g e (k.proper_of_nil h) hr
  have hfollows := run_follows (fun m hm => hreserves m (hns m hm)) hrun
  obtain ⟨type?, hk⟩ := Node.function?_eq_some_iff.1 hf
  have htaken := hfollows.reserves (hreserves n hn) f.name type? f.source hk
  exact SymbolTable.defineMethod_isOk htaken f.source

namespace Trace

variable {r : Node} {ns : List Node} {d : Compilation} {xs : List Operand}
  (h : k.Trace g e r ns d xs)
include h

theorem functions_eq :
    d.closed.table.functions = Function.firsts (ns.filterMap Node.function?) := by
  have hnone := (stage_declarations_of_nil h.noHooks h.reserved).2
  have hfunctions := functions_eq_firsts h.reserves hnone h.run
  obtain ⟨identifiers, hclosed⟩ := d.closed_eq
  rw [hclosed]
  exact hfunctions

/-- A name under which a node declares a function has one definition. -/
theorem filter_functions {name : String} (hname : name ∈ declaredNames ns) :
    ∃ f, d.closed.table.functions.filter (·.name == name) = [f] ∧
      (ns.filterMap Node.function?).find? (·.name == name) = some f := by
  rw [h.functions_eq, Function.filter_firsts]
  obtain ⟨n, hn, type?, source, hk⟩ := mem_declaredNames.1 hname
  have hmem : (⟨name, source⟩ : Function) ∈ ns.filterMap Node.function? :=
    List.mem_filterMap.2 ⟨n, hn, Node.function?_eq_some_iff.2 ⟨type?, hk⟩⟩
  cases hfind : (ns.filterMap Node.function?).find? (·.name == name) with
  | none => simpa using List.find?_eq_none.1 hfind _ hmem
  | some f => exact ⟨f, rfl, rfl⟩

end Trace

end Compiler

/-- **Functions are defined once, and before they are called.**  In a compilation
    without hooks no function fails to be defined once the names of all are
    reserved, wherever that has come to.  Where ids are distinct and it
    succeeds, its functions are those of the nodes that matter, in their order,
    the first of each name.  So each function that such a node declares, and that
    its call calls, has one definition, which stands in front of the body; and no
    other node has its function defined. -/
theorem functions_defined_once {ρ : Type} (k : Compiler ρ) (hbefore : k.before = [])
    (hafter : k.after = []) (g : Graph) (root : String) (e : EntryPoint) :
    (∀ t, (k.start e).table.reserveMethods g.nodes = (t, none) →
      ∀ ns d, (∀ n ∈ ns, n ∈ g.nodes) → Compilation.emitAll g (k.stage g e) ns = (d, none) →
        ∀ n ∈ g.nodes, ∀ f, n.function? = some f →
          ∃ new t', (SymbolTable.defineMethod f.name f.source).run d.table = .ok new t') ∧
    (g.DistinctIds → ∀ s, (k.generate g root e).result = .ok s →
      ∃ c b r ns, k.assemble g root e = .ok (c, b) ∧ s = Compiler.shader c b ∧
        (k.generate g root e).compiler.compilation = c ∧
        g.node? root = some r ∧ g.order = .ok ns ∧ g.IsSchedule r (g.schedule r ns) ∧
        c.table.functions = Function.firsts ((g.schedule r ns).filterMap Node.function?) ∧
        (∀ function ∈ declaredNames (g.schedule r ns),
          ∃ f, c.table.functions.filter (·.name == function) = [f] ∧
            ((g.schedule r ns).filterMap Node.function?).find? (·.name == function) = some f) ∧
        (∀ f ∈ c.table.functions, ∃ n, g.Live r n ∧ n.function? = some f) ∧
        s.source = (({ c.table with functions := [] } : SymbolTable).header .empty).text ++
          Source.listed "// Functions" (c.table.functions.map Function.text) ++ b.text) := by
  constructor
  · intro t ht ns d hns hrun n hn f hf
    exact Compiler.defineMethod_isOk hbefore ⟨t, ht⟩ hns hrun hn hf
  · intro hids s hok
    obtain ⟨c, b, hassemble, rfl⟩ := (k.generate_eq_ok_iff g root e hafter).1 hok
    obtain ⟨r, ns, d, xs, hroot, horder, htrace, -, rfl⟩ :=
      Compiler.exists_trace hbefore hids hassemble
    obtain ⟨-, -, -, -, -, -, -, -, hfail⟩ := k.assemble_root g root e hassemble
    refine ⟨_, b, r, ns, hassemble, rfl, k.generate_compilation_of_ok g root e hafter hassemble,
      hroot, horder, htrace.schedule, htrace.functions_eq,
      fun function => htrace.filter_functions, ?_, sourceText_functions _ b hfail⟩
    intro f hf
    rw [htrace.functions_eq] at hf
    obtain ⟨n, hn, hfn⟩ := List.mem_filterMap.1 ((Function.firsts_sublist _).subset hf)
    exact ⟨n, (htrace.schedule.mem_iff n).1 hn, hfn⟩

namespace Sample

/-- A call of a function with a given source. -/
def noise (id function source : String) : Node :=
  ⟨id, "", .declaredCall function (some "float") source,
    [⟨"x", "", .input, none, none⟩, ⟨"is", "", .output, none, none⟩]⟩

/-- A call of a function, of whose value the same is called again, with another
    source; and a call without links of one more. -/
def noises : Graph where
  nodes :=
    [noise "late" "noise" "float noise(float y);", noise "lone" "hiss" "float hiss(float x);",
      noise "soon" "noise" "float noise(float x);",
      ⟨"out", "", .output, [⟨"shade", "", .input, none, none⟩]⟩]
  links := [⟨"1", ⟨"soon", "is"⟩, ⟨"late", "x"⟩⟩, ⟨"2", ⟨"late", "is"⟩, ⟨"out", "shade"⟩⟩]

theorem noises_distinctIds : noises.DistinctIds := by
  unfold Graph.DistinctIds
  decide

end Sample

/-- The sample, in which the function that is emitted first is defined, not the
    one that is listed first, nor that of the node without links. -/
theorem functions_defined_once_noises :
    (∃ new t, (SymbolTable.defineMethod "hiss" "float hiss(float x);").run
      ((Sample.compiler false []).stage Sample.noises Sample.pixel).table = .ok new t) ∧
    ∃ s c b, ((Sample.compiler false []).generate Sample.noises "out" Sample.pixel).result = .ok s ∧
      (Sample.compiler false []).assemble Sample.noises "out" Sample.pixel = .ok (c, b) ∧
      c.table.functions = [⟨"noise", "float noise(float x);"⟩] ∧
      ∃ front, s.source = front ++ "// Functions\nfloat noise(float x);\n\n" ++ b.text := by
  obtain ⟨hdefine, hgenerate⟩ := functions_defined_once (Sample.compiler false []) rfl rfl
    Sample.noises "out" Sample.pixel
  constructor
  · have hreserved : (((Sample.compiler false []).start Sample.pixel).table.reserveMethods
        Sample.noises.nodes).2 = none := by decide +kernel
    exact hdefine _ (Prod.ext rfl hreserved) [] _ (by simp) rfl
      (Sample.noise "lone" "hiss" "float hiss(float x);") (by simp [Sample.noises]) _ rfl
  · obtain ⟨s, hs⟩ := Sample.exists_ok (r := ((Sample.compiler false []).generate Sample.noises
      "out" Sample.pixel).result) (by decide +kernel)
    obtain ⟨c, b, r, ns, hok, -, -, hroot, horder, -, hfunctions, -, -, hsource⟩ :=
      hgenerate Sample.noises_distinctIds s hs
    have hfirsts : Function.firsts ((Sample.noises.schedule r ns).filterMap Node.function?) =
        [⟨"noise", "float noise(float x);"⟩] := by
      cases hroot
      cases horder
      rfl
    rw [hfirsts] at hfunctions
    have htext : Source.listed "// Functions" (c.table.functions.map Function.text) =
        "// Functions\nfloat noise(float x);\n\n" := by
      rw [hfunctions]
      decide +kernel
    rw [htext] at hsource
    exact ⟨s, c, b, hs, hok, hfunctions, _, hsource⟩

end Shading
