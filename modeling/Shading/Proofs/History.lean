/-
  A compiler does not remember what it has compiled.

  * `Call`: what may be asked of a compiler; `Compiler.afterCalls` is what calls
    leave, whether they succeed or fail.
  * `Compiler.Kin`: two compilers know the same types and keywords.  Calls keep a
    compiler kin to what it was (`kin_afterCalls`).
  * `Kin.generate`, `Kin.compile`: compilers that are kin compile alike, for a
    compilation reads nothing else of its compiler but the options.
  * `calls_forgotten`: so a compiler works as if it had just been built.
-/
import Shading.Proofs.Stage
import Shading.Request.Basic

namespace Shading

/-- What may be asked of a compiler. -/
inductive Call where
  | generate (g : Graph) (root : String) (e : EntryPoint)
  | compile (q : Request)
  | setInline (inline : Bool)

namespace SymbolTable

/-- The order of names that are taken does not matter, nor how often they are
    taken. -/
theorem claimAll_congr (t : SymbolTable) {names names' : List String}
    (h : ∀ name, name ∈ names' ↔ name ∈ names) : t.claimAll names' = t.claimAll names := by
  have hids : (t.claimAll names').identifiers = (t.claimAll names).identifiers := by
    apply Std.ExtTreeSet.ext_contains
    intro name
    have hmem : names'.contains name = names.contains name := by
      simp [List.contains_eq_mem, h name]
    exact (taken_claimAll t names' name).trans (hmem ▸ (taken_claimAll t names name).symm)
  rw [claimAll_eq t names', claimAll_eq t names, hids]

end SymbolTable

/-! ## What a compilation never changes -/

namespace Compilation

variable (c : Compilation) (g : Graph) (n : Node)

theorem registry_apply (em : Emission) : (c.apply n em).1.registry = c.registry :=
  -- who uses what is recorded in the table
  (congrArg Compilation.registry (bare_apply c n em)).trans (by cases em <;> rfl)

theorem registry_declare {d : Compilation} (h : c.declare n = .ok d) :
    d.registry = c.registry := by
  rcases declare_eq_ok_iff.1 h with ⟨_, _, _, _, t, -, -, rfl⟩ | ⟨-, rfl⟩ <;> rfl

theorem registry_emit : (c.emit g n).1.registry = c.registry := by
  rw [emit_eq]
  cases hd : c.declare n with
  | error e => rfl
  | ok d =>
    have hregistry := c.registry_declare n hd
    dsimp only
    cases d.plan g n with
    | error e => exact hregistry
    | ok em => exact (d.registry_apply n em).trans hregistry

theorem registry_emitAll (ns : List Node) : (emitAll g c ns).1.registry = c.registry := by
  induction ns generalizing c with
  | nil => rfl
  | cons n rest ih =>
    have hemit := c.registry_emit g n
    rw [emitAll]
    cases hr : c.emit g n with
    | mk d r =>
      rw [hr] at hemit
      cases r with
      | error e => exact hemit
      | ok i => exact (ih d).trans hemit

theorem registry_emitRoot : (c.emitRoot g n).1.registry = c.registry := by
  have hemit := c.registry_emit g n
  unfold emitRoot
  split
  · rfl
  · cases hr : c.emit g n with
    | mk d r =>
      rw [hr] at hemit
      cases r <;> exact hemit

theorem registry_emitNodes (ns : List Node) : (c.emitNodes g ns n).1.registry = c.registry := by
  have hall := c.registry_emitAll g ns
  unfold emitNodes
  cases hd : emitAll g c ns with
  | mk d f =>
    rw [hd] at hall
    cases f with
    | some f => exact hall
    | none =>
      have hroot := d.registry_emitRoot g n
      dsimp only
      cases hs : d.emitRoot g n with
      | mk s f =>
        rw [hs] at hroot
        cases f <;> exact hroot.trans hall

/-- A compilation keeps its registry, however far it comes. -/
theorem registry_build (root : String) (e : EntryPoint) :
    (c.build g root e).1.registry = c.registry := by
  unfold build
  cases c.table.reserveMethods g.nodes with
  | mk t f =>
    cases f with
    | some f => rfl
    | none =>
      dsimp only
      cases g.node root with
      | error cause => rfl
      | ok r =>
        cases g.order with
        | error cause => rfl
        | ok ns => exact registry_emitNodes (({ c with table := t }).defineStage e) g r ns

theorem registry_outputVariable : c.outputVariable.1.registry = c.registry := by
  unfold outputVariable
  split <;> rfl

theorem registry_body (root : Node) (entry semantic : String) :
    (c.body g root entry semantic).1.registry = c.registry := by
  have hvariable := c.registry_outputVariable
  unfold body returning
  split
  · cases hv : c.outputVariable with
    | mk d v =>
      rw [hv] at hvariable
      dsimp only
      cases d.assignments g root v.1 0 d.output.fields with
      | mk written failure => cases failure <;> exact hvariable
  · cases c.rootValue g root 0 <;> rfl

end Compilation

/-! ## Calls -/

namespace Compiler

variable {ρ : Type} {k k' : Compiler ρ}

/-- The compiler after a call. -/
def afterCall (k : Compiler ρ) : Call → Compiler ρ
  | .generate g root e => (k.generate g root e).compiler
  | .compile q => (k.compile q).compiler
  | .setInline inline => k.setInline inline

/-- The compiler after calls, one after the other. -/
def afterCalls (k : Compiler ρ) (calls : List Call) : Compiler ρ :=
  calls.foldl afterCall k

/-- A compiler just built, with the types of a registry and with given words for
    keywords. -/
def built (registry : TypeRegistry) (words : List String) : Compiler ρ :=
  { new registry with keywords := words }

/-- The compiler with other options. -/
def withOptions (k : Compiler ρ) (options : Options) : Compiler ρ :=
  { k with options := options }

/-- Two compilers know the same types and keywords, and have the same hooks. -/
structure Kin (k k' : Compiler ρ) : Prop where
  registry : k'.compilation.registry = k.compilation.registry
  keywords : ∀ word, word ∈ k'.keywords ↔ word ∈ k.keywords
  before : k'.before = k.before
  after : k'.after = k.after

/-- Two compilations come to the same shader or failure, and leave the same
    state behind: tables, slots and all. -/
structure Outcome.Same (o o' : Outcome ρ) : Prop where
  result : o'.result = o.result
  compilation : o'.compiler.compilation = o.compiler.compilation

theorem Kin.refl (k : Compiler ρ) : k.Kin k :=
  ⟨rfl, fun _ => Iff.rfl, rfl, rfl⟩

theorem Kin.trans {k'' : Compiler ρ} (h : k.Kin k') (h' : k'.Kin k'') : k.Kin k'' where
  registry := h'.registry.trans h.registry
  keywords word := (h'.keywords word).trans (h.keywords word)
  before := h'.before.trans h.before
  after := h'.after.trans h.after

theorem kin_withOptions (k : Compiler ρ) (options : Options) : k.Kin (k.withOptions options) :=
  ⟨rfl, fun _ => Iff.rfl, rfl, rfl⟩

/-- Whatever becomes of a compilation, its compiler stays kin. -/
theorem kin_generate (k : Compiler ρ) (g : Graph) (root : String) (e : EntryPoint) :
    k.Kin (k.generate g root e).compiler := by
  have hbuild : ((k.start e).build g root e).1.registry = k.compilation.registry :=
    Compilation.registry_build _ g root e
  rw [generate_eq]
  cases hb : (k.start e).build g root e with
  | mk c r =>
    rw [hb] at hbuild
    cases r with
    | error f => exact ⟨hbuild, fun _ => Iff.rfl, rfl, rfl⟩
    | ok r =>
      refine ⟨?_, fun _ => Iff.rfl, rfl, rfl⟩
      exact (Compilation.registry_body _ g r e.name k.options.semantic).trans hbuild

theorem kin_afterCall (k : Compiler ρ) (call : Call) : k.Kin (k.afterCall call) := by
  cases call with
  | generate g root e => exact k.kin_generate g root e
  | compile q => exact (k.kin_withOptions q.options).trans (kin_generate _ _ _ _)
  | setInline inline => exact k.kin_withOptions _

/-- **Calls change nothing that a compiler knows.** -/
theorem kin_afterCalls (k : Compiler ρ) (calls : List Call) : k.Kin (k.afterCalls calls) := by
  unfold afterCalls
  induction calls generalizing k with
  | nil => exact .refl k
  | cons call rest ih => exact (k.kin_afterCall call).trans (ih _)

namespace Kin

variable (h : k.Kin k')
include h

theorem withOptions (options : Options) : (k.withOptions options).Kin (k'.withOptions options) :=
  ⟨h.registry, h.keywords, h.before, h.after⟩

/-- Compilations begin alike, whatever was compiled before. -/
theorem start (hoptions : k'.options = k.options) (e : EntryPoint) : k'.start e = k.start e := by
  unfold Compiler.start Compilation.start Compilation.restart
  rw [h.registry, h.before, hoptions, SymbolTable.claimAll_congr _ h.keywords]

theorem generate (hoptions : k'.options = k.options) (g : Graph) (root : String) (e : EntryPoint) :
    (k.generate g root e).Same (k'.generate g root e) := by
  rw [generate_eq k, generate_eq k', h.start hoptions]
  cases (k.start e).build g root e with
  | mk c r =>
    cases r with
    | error f => exact ⟨rfl, rfl⟩
    | ok r =>
      dsimp only
      rw [h.after, hoptions]
      exact ⟨rfl, rfl⟩

theorem compile (q : Request) : (k.compile q).Same (k'.compile q) := by
  unfold Compiler.compile
  rw [h.registry]
  exact (h.withOptions q.options).generate rfl _ _ _

end Kin

end Compiler

/-- **A compiler does not remember what it has compiled.**  After any calls, each
    of which may have failed at any point, it compiles a request, and a graph
    under given options, as a compiler does that was just built with the same
    types and words, in whatever order and however often the words are given. -/
theorem calls_forgotten {ρ : Type} (k : Compiler ρ) (hbefore : k.before = [])
    (hafter : k.after = []) (calls : List Call) (words : List String)
    (hwords : ∀ word, word ∈ words ↔ word ∈ k.keywords) :
    (∀ q, ((Compiler.built k.compilation.registry words).compile q).Same
      ((k.afterCalls calls).compile q)) ∧
    ∀ options g root e,
      (((Compiler.built k.compilation.registry words).withOptions options).generate g root e).Same
        (((k.afterCalls calls).withOptions options).generate g root e) := by
  have hbuilt : (Compiler.built k.compilation.registry words).Kin k :=
    ⟨rfl, fun word => (hwords word).symm, hbefore, hafter⟩
  have hkin := hbuilt.trans (k.kin_afterCalls calls)
  exact ⟨hkin.compile, fun options g root e => (hkin.withOptions options).generate rfl g root e⟩

namespace Sample

/-- A request for the sample. -/
def request (g : Graph) : Request where
  version := "1"
  entryName := "main"
  root := "out"
  input := ⟨"Varying", [⟨"uv", "float", none⟩]⟩
  output := ⟨"Pixel", [⟨"shade", "float", none⟩]⟩
  definesInput := true
  definesOutput := true
  options := ⟨false, "SV_TARGET"⟩
  graph := g

/-- Calls that fail, change the options, and succeed. -/
def calls : List Call :=
  [.compile (request looped), .setInline true, .generate halfRed "out" pixel,
    .generate halfRed "absent" pixel]

end Sample

/-- The sample after such calls, with its keywords given anew. -/
theorem calls_forgotten_halfRed :
    (∀ word, word ∈ ["return", "float", "return"] ↔ word ∈ (Sample.compiler false []).keywords) ∧
    ∃ s,
      ((Compiler.built (ρ := Unit) (Sample.compiler false []).compilation.registry
        ["return", "float", "return"]).compile (Sample.request Sample.halfRed)).result = .ok s ∧
      (((Sample.compiler false []).afterCalls Sample.calls).compile
        (Sample.request Sample.halfRed)).result = .ok s := by
  have hwords : ∀ word, word ∈ ["return", "float", "return"] ↔
      word ∈ (Sample.compiler false []).keywords := by
    intro word
    simp only [Sample.compiler, List.mem_cons, List.not_mem_nil, or_false]
    tauto
  refine ⟨hwords, ?_⟩
  obtain ⟨s, hs⟩ := Sample.exists_ok
    (r := ((Compiler.built (ρ := Unit) (Sample.compiler false []).compilation.registry
      ["return", "float", "return"]).compile (Sample.request Sample.halfRed)).result)
    (by decide +kernel)
  have hforgotten := calls_forgotten (Sample.compiler false []) rfl rfl Sample.calls
    ["return", "float", "return"] hwords
  exact ⟨s, hs, (hforgotten.1 (Sample.request Sample.halfRed)).result.trans hs⟩

end Shading
