/-
  The types of operators that stand in place of their names.

  A variable has its declared type, whatever its value has, for to give it a
  value is to convert the value.  Where the definition stands in place of the
  variable nothing converts it.

  * `ValueType.Fits`: operands of which an operator makes a value of a type.
  * `Retains`: operands of which it makes one after their casts, or an
    expression that is cast as a whole.
  * `retains_iff`: an operator retains its type exactly if its operands are cast
    or fit as they are, for it is never cast as a whole.
  * `inlined_operator_retains_iff`: the same of all operators of a compilation.
-/
import Shading.Proofs.Expressions
import Shading.Proofs.Statements

namespace Shading

namespace ValueType

/-- An operator that works by components makes a value of type `type` of
    operands of types `a` and `b`: both are of that type, or one is and the
    other is a scalar. -/
def Fits (a b type : ValueType) : Prop :=
  (a.same type = true ∧ b.same type = true) ∨ (a.isScalar = true ∧ b.same type = true) ∨
    (b.isScalar = true ∧ a.same type = true)

/-- The type of an operand of type `a` after a cast to `type`, if there is
    one. -/
def afterCast (a type : ValueType) (cast? : Option String) : ValueType :=
  if cast?.isSome then type else a

theorem same_afterCast {a type : ValueType} {cast? : Option String}
    (h : a.castFrom type = .ok cast?) : (a.afterCast type cast?).same type = true := by
  unfold castFrom at h
  split at h
  · cases h
  · split at h
    · cases h
      assumption
    · unfold castTarget at h
      split at h
      · cases h
      · cases h
        simp [afterCast, same]

end ValueType

/-- What stands in place of the name of an operator has the type of the
    operator, where its operands have types `a` and `b` after their casts. -/
def Retains (type a b : ValueType) (e : Expr) : Prop :=
  a.Fits b type ∨ ∃ inner, e.tree = .cast type.name inner

namespace Compilation

open ValueType

/-- **An operator retains its type exactly if its operands are cast or fit as
    they are.** -/
theorem retains_iff {a b type : ValueType} {left right : Option String}
    (h : Casts a b type left right) (op : String) (x y : Expr) :
    Retains type (a.afterCast type left) (b.afterCast type right) (Expr.binary op x y).operand ↔
      a.needCast b = true ∨ a.Fits b type := by
  have hwhole : ¬ ∃ inner, (Expr.binary op x y).operand.tree = .cast type.name inner := by
    rw [Expr.tree_operand, Expr.tree]
    simp
  unfold Casts at h
  split at h
  · rename_i hneed
    simp only [hneed, true_or, iff_true]
    exact Or.inl (Or.inl ⟨same_afterCast h.1, same_afterCast h.2⟩)
  · rename_i hneed
    obtain ⟨rfl, rfl⟩ := h
    rw [Retains, or_iff_left hwhole]
    simp [hneed, afterCast]

variable {c c' : Compilation} {g : Graph}

/-- A value that stands in place of its name is read as it is, and as one of its
    declared type. -/
theorem valueOf_of_isSubstituted {producer : Node} {o : Operation} {type : ValueType}
    (hsub : c.isSubstituted o = true) (ho : c.operation? producer.id = some o)
    (ht : o.type? = some type) (hsplit : producer.kind.isSplit = false) (pin : Option Pin) :
    c.valueOf producer pin = .ok ⟨o.expansion, type, some o.name⟩ := by
  simp only [isSubstituted, Bool.and_eq_true] at hsub
  have hwhole : c.member? producer type pin = none := by
    rw [Option.eq_none_iff_forall_ne_some]
    intro m hm
    have := canInline_of_member? hm ht (by simp [hsplit])
    rw [hsub.2] at this
    cases this
  refine valueOf_eq_ok_iff.2 ⟨o, type, ho, ht, ?_⟩
  simp [readAt_eq, hwhole, wholeValue, hsub.1]

/-- A run goes through each of its nodes. -/
theorem run_through {before after : List Node} {n : Node}
    (hr : ∀ m ∈ before ++ n :: after, c.table.Reserves m)
    (h : emitAll g c (before ++ n :: after) = (c', none)) :
    ∃ d em d', emitAll g c before = (d, none) ∧ d.plan g n = .ok em ∧ d.Emitted n em d' ∧
      c.Follows d ∧ d'.Follows c' := by
  rw [emitAll_append] at h
  cases hbefore : emitAll g c before with
  | mk d failure =>
    rw [hbefore] at h
    cases failure with
    | some f => cases h
    | none =>
      obtain ⟨d', i, hemit, hafter⟩ := emitAll_cons_eq_none_iff.1 h
      have hfollows := run_follows (fun m hm => hr m (List.mem_append_left _ hm)) hbefore
      have hrest : ∀ m ∈ n :: after, d.table.Reserves m := fun m hm =>
        hfollows.reserves (hr m (List.mem_append_right _ hm))
      obtain ⟨em, hplan, hem⟩ := emit_ok (hrest n (by simp)) hemit
      exact ⟨d, em, d', rfl, hplan, hem, hfollows,
        run_follows (fun m hm => hem.reserves (hrest m (List.mem_cons_of_mem _ hm))) hafter⟩

/-- The operation `o` of a node is an operator between what the node has read,
    and stands in place of its name. -/
structure Operates (c : Compilation) (n : Node) (op : String) (type : ValueType) (x y : Operand)
    (left right : Option String) (o : Operation) : Prop where
  mem : o ∈ c.table.operations
  node : o.node = some n.id
  type? : o.type? = some type
  casts : Casts x.type y.type type left right
  definition? : o.definition? = some (.binary op (x.expr.castTo left) (y.expr.castTo right))
  substituted : c.isSubstituted o = true

theorem Operates.expansion {n : Node} {op : String} {type : ValueType} {x y : Operand}
    {left right : Option String} {o : Operation} (h : c.Operates n op type x y left right o) :
    o.expansion = (Expr.binary op (x.expr.castTo left) (y.expr.castTo right)).operand := by
  have hinline := h.substituted
  have hdef := h.definition?
  simp only [isSubstituted, Bool.and_eq_true] at hinline
  cases hf : o.form <;>
    simp_all [Operation.expansion, Operation.definition?, Operation.canInline]

/-- What is emitted for an operator. -/
theorem Made.operates {n : Node} {op text : String} {xs : List Operand} {em : Emission}
    (h : c.Made n xs em) (hk : n.kind = .operator op text) :
    ∃ x y left right, xs = [x, y] ∧
      Casts x.type y.type (c.registry.parse text) left right ∧
      em = .value "op" (c.registry.parse text)
        (.binary op (x.expr.castTo left) (y.expr.castTo right)) [x, y] := by
  cases h with
  | operator hk' hcasts =>
    cases hk.symm.trans hk'
    exact ⟨_, _, _, _, rfl, hcasts, rfl⟩
  | sample hk' | call hk' | voidCall hk' | declaredCall hk' | convert hk' | mask hk' | pack hk'
  | split hk' | constant hk' | input hk' | output hk' => cases hk.symm.trans hk'

end Compilation

namespace Compiler

open Compilation

variable {ρ : Type} {k : Compiler ρ} {g : Graph} {e : EntryPoint} {r : Node} {d : Compilation}
  {xs : List Operand}

/-- The operation of an operator that is emitted, and what the operator reads
    when it is. -/
theorem Passage.operates {before after : List Node} {n : Node} {op text : String}
    (h : k.Passage g e r (before ++ n :: after) d xs) (hinline : k.options.inline = true)
    (hk : n.kind = .operator op text)
    (hvalue : (k.compilation.registry.parse text).isStruct = false) :
    ∃ d₀ x y left right o, emitAll g (k.stage g e) before = (d₀, none) ∧
      d₀.operandNo g n 0 = .ok x ∧ d₀.operandNo g n 1 = .ok y ∧
      d.closed.Operates n op (k.compilation.registry.parse text) x y left right o := by
  obtain ⟨d₀, em, d₁, hbefore, hplan, hem, hstart, hend⟩ := run_through h.reserves h.run
  have hregistry : d₀.registry = k.compilation.registry := hstart.registry
  obtain ⟨ys, hreads, hmade⟩ := plan_eq_ok_iff.1 hplan
  obtain ⟨x, y, left, right, rfl, hcasts, rfl⟩ := hmade.operates hk
  rw [hregistry] at hcasts hem
  have hslots : n.slots d₀.registry = [0, 1] := by simp [Node.slots, hk]
  rw [hslots] at hreads
  obtain ⟨x', y', hx, hy, hxy⟩ := operandsNo_pair (operandsNo_eq_ok_iff.2 hreads)
  cases hxy
  -- the operation is the last one after this node, and stays in the table
  obtain ⟨o, ho, hbare⟩ : ∃ o ∈ d.table.operations, o.bare = ⟨some n.id,
      .value (d₀.table.freshName (Text.baseName n.name "op")) (k.compilation.registry.parse text)
        (.binary op (x.expr.castTo left) (y.expr.castTo right)) true, 0, []⟩ := by
    refine List.mem_map.1 (hend.operations.subset ?_)
    rw [hem.operations]
    exact List.mem_append_right _ (List.mem_singleton_self _)
  have hform : o.form = .value (d₀.table.freshName (Text.baseName n.name "op"))
      (k.compilation.registry.parse text)
      (.binary op (x.expr.castTo left) (y.expr.castTo right)) true :=
    congrArg Operation.form hbare
  refine ⟨d₀, x, y, left, right, o, hbefore, hx, hy, ?_⟩
  constructor
  case mem => rwa [operations_closed]
  case node => exact congrArg Operation.node hbare
  case type? => simp [Operation.type?, hform]
  case casts => exact hcasts
  case definition? => simp [Operation.definition?, hform]
  case substituted =>
    rw [isSubstituted_closed]
    simp [isSubstituted, h.inline, hinline, Operation.canInline, hform, hvalue]

end Compiler

/-- **Which operators have their declared types where they stand in place of
    their names.**  Wherever the value of an operator is read, the operator
    itself is read, as a value of its declared type.  It is of that type exactly
    if its operands are cast, which they are if they differ in type and neither
    is a scalar, or if they fit the type as they are. -/
theorem inlined_operator_retains_iff {ρ : Type} (k : Compiler ρ) (hbefore : k.before = [])
    (hafter : k.after = []) (hinline : k.options.inline = true) (g : Graph) (root : String)
    (e : EntryPoint) {s : Shader} (h : (k.generate g root e).result = .ok s) :
    ∃ c b r ns, k.assemble g root e = .ok (c, b) ∧ s = Compiler.shader c b ∧
      g.node? root = some r ∧ g.order = .ok ns ∧
      ∀ before n after op text, Graph.emitted r ns = before ++ n :: after →
        n.kind = .operator op text → (k.compilation.registry.parse text).isStruct = false →
        ∃ d x y left right o, Compilation.emitAll g (k.stage g e) before = (d, none) ∧
          d.operandNo g n 0 = .ok x ∧ d.operandNo g n 1 = .ok y ∧
          c.Operates n op (k.compilation.registry.parse text) x y left right o ∧
          (∀ (d' : Compilation) producer pin o', d'.inline = true →
            d'.operation? producer.id = some o' → o'.bare = o.bare →
            producer.kind.isSplit = false → d'.valueOf producer pin =
              .ok ⟨o.expansion, k.compilation.registry.parse text, some o.name⟩) ∧
          (Retains (k.compilation.registry.parse text)
              (x.type.afterCast (k.compilation.registry.parse text) left)
              (y.type.afterCast (k.compilation.registry.parse text) right) o.expansion ↔
            x.type.needCast y.type = true ∨
              x.type.Fits y.type (k.compilation.registry.parse text)) := by
  obtain ⟨c, b, hok, rfl⟩ := (k.generate_eq_ok_iff g root e hafter).1 h
  obtain ⟨r, ns, d, xs, hroot, horder, hpass, -, rfl⟩ := Compiler.exists_passage hbefore hok
  refine ⟨d.closed, b, r, ns, hok, rfl, hroot, horder, ?_⟩
  intro before n after op text hsplit hk hvalue
  rw [hsplit] at hpass
  obtain ⟨d₀, x, y, left, right, o, hrun, hx, hy, ho⟩ := hpass.operates hinline hk hvalue
  refine ⟨d₀, x, y, left, right, o, hrun, hx, hy, ho, ?_, ?_⟩
  · intro d' producer pin o' hd' ho' hbare hproducer
    have hexpansion : o'.expansion = o.expansion := by
      simpa using congrArg Operation.expansion hbare
    have hname : o'.name = o.name := by
      simpa using congrArg Operation.name hbare
    have htype : o'.type? = o.type? := by
      simpa using congrArg Operation.type? hbare
    have hsub : d'.isSubstituted o' = true := by
      have hform : o'.bare.form = o.bare.form := congrArg Operation.form hbare
      change o'.form = o.form at hform
      have := ho.substituted
      simp only [Compilation.isSubstituted, Bool.and_eq_true] at this ⊢
      simpa [hd', Operation.canInline, hform] using this.2
    rw [Compilation.valueOf_of_isSubstituted hsub ho' (htype.trans ho.type?) hproducer pin,
      hexpansion, hname]
  · rw [ho.expansion]
    exact Compilation.retains_iff ho.casts op _ _

namespace Sample

/-- A product with a declared type of three components. -/
def productNode : Node :=
  ⟨"mul", "", .operator "*" "float3",
    [⟨"x", "", .input, none, none⟩, ⟨"y", "", .input, none, none⟩, ⟨"xy", "", .output, none, none⟩]⟩

/-- The product of two fields of the stage input, and one more component. -/
def product : Graph where
  nodes :=
    [⟨"in", "", .input, [⟨"a", "", .output, none, none⟩, ⟨"b", "", .output, none, none⟩]⟩,
      productNode,
      ⟨"wide", "", .convert ⟨0x3f800000⟩,
        [⟨"of", "", .input, none, none⟩, ⟨"is", "", .output, none, none⟩]⟩,
      ⟨"out", "", .output, [⟨"color", "", .input, none, none⟩]⟩]
  links :=
    [⟨"1", ⟨"in", "a"⟩, ⟨"mul", "x"⟩⟩, ⟨"2", ⟨"in", "b"⟩, ⟨"mul", "y"⟩⟩,
      ⟨"3", ⟨"mul", "xy"⟩, ⟨"wide", "of"⟩⟩, ⟨"4", ⟨"wide", "is"⟩, ⟨"out", "color"⟩⟩]

/-- An entry point whose input has two vectors of four components. -/
def tinted : EntryPoint where
  name := "main"
  input := ⟨"Varying", [⟨"a", .floats 4⟩, ⟨"b", .floats 4⟩]⟩
  output := ⟨"Pixel", [⟨"color", .floats 4⟩]⟩
  definesInput := true
  definesOutput := true

/-- The compiler of samples, which knows vectors of three components too. -/
def vectorCompiler (inline : Bool) : Compiler Unit :=
  { compiler inline [] with
    compilation := .fresh ⟨⟨[("float", .floats 1), ("float3", .floats 3)]⟩⟩ }

theorem not_fits_product : ¬ ((ValueType.floats 4).needCast (.floats 4) = true ∨
    (ValueType.floats 4).Fits (.floats 4) (.floats 3)) := by
  unfold ValueType.Fits
  decide

end Sample

/-- The product of the sample is not of its declared type. -/
theorem inlined_operator_retains_iff_product :
    ∃ c b, (Sample.vectorCompiler true).assemble Sample.product "out" Sample.tinted = .ok (c, b) ∧
      ∃ x y left right o, c.Operates Sample.productNode "*" (.floats 3) x y left right o ∧
        ¬ Retains (.floats 3) (x.type.afterCast (.floats 3) left)
          (y.type.afterCast (.floats 3) right) o.expansion := by
  obtain ⟨s, hs⟩ := Sample.exists_ok (r := ((Sample.vectorCompiler true).generate
    Sample.product "out" Sample.tinted).result) (by decide +kernel)
  obtain ⟨c, b, r, ns, hok, -, -, horder, hall⟩ := inlined_operator_retains_iff
    (Sample.vectorCompiler true) rfl rfl rfl Sample.product "out" Sample.tinted hs
  have hnodes : Sample.product.order = .ok Sample.product.nodes := rfl
  rw [hnodes] at horder
  cases horder
  obtain ⟨d, x, y, left, right, o, hrun, hx, hy, ho, -, hiff⟩ := hall
    (Sample.product.nodes.take 1) Sample.productNode _ "*" "float3" rfl rfl (by decide)
  have htypes : ∀ i < 2, ((Compilation.emitAll Sample.product
      ((Sample.vectorCompiler true).stage Sample.product Sample.tinted)
      (Sample.product.nodes.take 1)).1.operandNo Sample.product Sample.productNode i).map
      (·.type) = .ok (.floats 4) := by decide +kernel
  rw [hrun] at htypes
  have htx := htypes 0 (by decide)
  have hty := htypes 1 (by decide)
  simp only [hx, Except.map, Except.ok.injEq] at htx
  simp only [hy, Except.map, Except.ok.injEq] at hty
  refine ⟨c, b, hok, x, y, left, right, o, ho, fun hretains => Sample.not_fits_product ?_⟩
  have hfits := hiff.1 hretains
  rw [htx, hty] at hfits
  exact hfits

/-- So an operator in place of its name may be of another type than the one it
    is read as: here a product of four components, where three are declared and
    room is made for one more. -/
theorem inlined_product_another_type :
    ((Sample.vectorCompiler false).assemble Sample.product "out" Sample.tinted).map
      (·.2.statements.map Statement.render) =
      .ok ["float3 op = varying.a * varying.b;", "float4 convert = float4(op, 1.0);",
        "Pixel pixel;", "pixel.color = convert;", "return pixel;"] ∧
    ((Sample.vectorCompiler true).assemble Sample.product "out" Sample.tinted).map
      (·.2.statements.map Statement.render) =
      .ok ["Pixel pixel;", "pixel.color = float4((varying.a * varying.b), 1.0);",
        "return pixel;"] ∧
    ((Sample.vectorCompiler true).assemble Sample.product "out" Sample.tinted).map
      (fun r => [0, 1].map fun i =>
        (r.1.operandNo Sample.product Sample.productNode i).toOption.map (·.type)) =
      .ok [some (.floats 4), some (.floats 4)] ∧
    ∀ left right, ¬ Retains (.floats 3) (.floats 4) (.floats 4)
      (Expr.binary "*" left right).operand := by
  refine ⟨by decide +kernel, by decide +kernel, by decide +kernel, fun left right hretains => ?_⟩
  have hcasts : Compilation.Casts (.floats 4) (.floats 4) (.floats 3) none none := ⟨rfl, rfl⟩
  exact Sample.not_fits_product ((Compilation.retains_iff hcasts "*" left right).1 hretains)

end Shading
