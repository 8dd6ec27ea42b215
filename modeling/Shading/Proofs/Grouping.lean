/-
  Brackets and operands.

  * `Expr.texts`: the texts of an expression.  The expression is balanced if they
    are (`balanced_render`).  As an operand it has only characters of names,
    numbers and member accesses outside its parentheses (`tight_operand`).
  * `Operation.Grouped`: the same for an operation and for what reads its value.
    Every node keeps it (`Grouped.step`), if its own texts are balanced
    (`Node.texts`).
  * `brackets_and_operands_kept`: so where all texts of a request are balanced,
    its source is, and no operator takes apart an operand that comes through a
    link.
-/
import Shading.Proofs.Brackets
import Shading.Proofs.Declared
import Shading.Proofs.History

namespace Shading

open Text

/-! ## Expressions -/

namespace Expr

mutual

/-- The texts of an expression. -/
def texts : Expr → List String
  | literal text => [text]
  | name n => [n]
  | member e field => field :: e.texts
  | group e => e.texts
  | cast type e => type :: e.texts
  | binary op left right => op :: (left.texts ++ right.texts)
  | call function args => function :: textsAll args
  | sample texture sampler coords => texture :: sampler :: coords.texts

/-- The texts of expressions. -/
def textsAll : List Expr → List String
  | [] => []
  | e :: rest => e.texts ++ textsAll rest

end

theorem textsAll_eq (es : List Expr) : textsAll es = es.flatMap texts := by
  induction es with
  | nil => rfl
  | cons e rest ih => rw [textsAll, ih, List.flatMap_cons]

theorem renderAll_eq (es : List Expr) : renderAll es = es.map render := by
  induction es with
  | nil => rfl
  | cons e rest ih => rw [renderAll, ih, List.map_cons]

@[simp]
theorem texts_operand (e : Expr) : e.operand.texts = e.texts := by
  rw [operand]
  split
  · rfl
  · rw [texts]

@[simp]
theorem texts_castTo (type? : Option String) (e : Expr) :
    (e.castTo type?).texts = type?.toList ++ e.texts := by
  cases type? with
  | none => rfl
  | some type => rw [castTo, texts]; rfl

/-- **An expression is balanced** if its texts are. -/
theorem balanced_render {e : Expr} (h : ∀ text ∈ e.texts, Balanced text) : Balanced e.render := by
  induction e using Expr.induction with
  | literal text | name text =>
    rw [texts, List.forall_mem_singleton] at h
    rwa [render]
  | member e field ih =>
    rw [texts, List.forall_mem_cons] at h
    rw [render]
    exact ((ih h.2).append (by decide)).append h.1
  | group e ih =>
    rw [texts] at h
    rw [render]
    exact (ih h).parens
  | cast type e ih =>
    rw [texts, List.forall_mem_cons] at h
    rw [render]
    exact h.1.parens.append (ih h.2)
  | binary op left right ihl ihr =>
    rw [texts, List.forall_mem_cons, List.forall_mem_append] at h
    obtain ⟨hop, hleft, hright⟩ := h
    have hblank : Balanced " " := by decide
    rw [render]
    exact ((((ihl hleft).append hblank).append hop).append hblank).append (ihr hright)
  | call function args ih =>
    rw [texts, List.forall_mem_cons, textsAll_eq] at h
    obtain ⟨hfunction, hargs⟩ := h
    rw [render, renderAll_eq]
    refine hfunction.group (Balanced.intercalate (by decide) fun text htext => ?_)
    obtain ⟨e, he, rfl⟩ := List.mem_map.1 htext
    exact ih e he fun text htext => hargs text (List.mem_flatMap.2 ⟨e, he, htext⟩)
  | sample texture sampler coords ih =>
    rw [texts, List.forall_mem_cons, List.forall_mem_cons] at h
    obtain ⟨htexture, hsampler, hcoords⟩ := h
    have hmethod : Balanced ".Sample" := by decide
    have hcomma : Balanced ", " := by decide
    have hopen : ".Sample(" = ".Sample" ++ "(" := by decide
    have hall := (htexture.append hmethod).group ((hsampler.append hcomma).append (ih hcoords))
    rw [render, hopen]
    simpa only [String.append_assoc] using hall

/-- **An operand is not taken apart** by what stands around it. -/
theorem tight_operand {e : Expr} (h : Balanced e.render) : Tight e.operand.render := by
  rw [operand]
  split
  · rename_i hatomic
    exact tight_of_isAtomic hatomic
  · rw [render]
    exact tight_group h

theorem tight_member {e : Expr} (h : Balanced e.render) (ht : Tight e.render) {field : String}
    (hf : field.toList.all isWord = true) : Tight (member e field).render := by
  have hdot : Tight "." := by decide
  rw [render]
  exact (ht.append h hdot).append (h.append (by decide)) (tight_of_isWord hf)

end Expr

/-! ## Operations -/

namespace Operation

/-- The texts of an operation. -/
def texts (o : Operation) : List String :=
  match o.form with
  | .value name type definition _ => name :: type.name :: definition.texts
  | .effect call => call.texts
  | .synonym target _ => target.texts

/-- An operation is balanced, and nothing takes apart what reads its value. -/
structure Grouped (o : Operation) : Prop where
  texts : ∀ text ∈ o.texts, Balanced text
  reference : Tight o.reference.render

variable {o : Operation} {type : ValueType}

theorem grouped_value {name : String} {definition : Expr} (hname : isIdent name = true)
    (htype : Balanced type.name) (hdefinition : ∀ text ∈ definition.texts, Balanced text)
    (node : Option String) (inlinable : Bool) :
    Grouped ⟨node, .value name type definition inlinable, 0, []⟩ where
  texts := by
    simp only [texts, List.forall_mem_cons]
    exact ⟨balanced_of_isIdent hname, htype, hdefinition⟩
  reference := tight_of_isWord (all_isWord_of_isIdent hname)

theorem grouped_effect {call : Expr} (h : ∀ text ∈ call.texts, Balanced text)
    (node : Option String) : Grouped ⟨node, .effect call, 0, []⟩ where
  texts := h
  reference := by
    show Tight ""
    decide

theorem texts_reference (ht : o.type? = some type) : o.reference.texts ⊆ o.texts := by
  cases hf : o.form with
  | value => simp [reference, texts, hf, Expr.texts]
  | effect => simp [type?, hf] at ht
  | synonym => simp [reference, texts, hf]

theorem texts_expansion (ht : o.type? = some type) : o.expansion.texts ⊆ o.texts := by
  cases hf : o.form with
  | value name type' definition inlinable =>
    simp only [expansion, hf]
    split
    · intro text htext
      rw [Expr.texts_operand] at htext
      simp [texts, hf, htext]
    · exact texts_reference ht
  | effect | synonym =>
    simp only [expansion, hf]
    exact texts_reference ht

theorem Grouped.expansion (h : o.Grouped) : Tight o.expansion.render := by
  cases hf : o.form with
  | value name type' definition inlinable =>
    simp only [Operation.expansion, hf]
    split
    · have htexts := h.texts
      simp only [Operation.texts, hf, List.forall_mem_cons] at htexts
      exact Expr.tight_operand (Expr.balanced_render htexts.2.2)
    · exact h.reference
  | effect | synonym =>
    simp only [Operation.expansion, hf]
    exact h.reference

theorem Grouped.definitionText (h : o.Grouped) : Balanced o.definitionText := by
  have htexts := h.texts
  cases hf : o.form with
  | value name type' definition inlinable =>
    simp only [Operation.texts, hf, List.forall_mem_cons] at htexts
    simpa only [Operation.definitionText, definition?, hf] using Expr.balanced_render htexts.2.2
  | effect call =>
    simp only [Operation.texts, hf] at htexts
    simpa only [Operation.definitionText, definition?, hf] using Expr.balanced_render htexts
  | synonym =>
    simp only [Operation.definitionText, definition?, hf]
    decide

theorem Grouped.written {st : Statement} (h : o.Grouped) (hst : o.Written st) :
    Balanced st.render := by
  have htexts := h.texts
  cases hst with
  | define hf =>
    simp only [Operation.texts, hf, List.forall_mem_cons] at htexts
    obtain ⟨hname, htype, hdefinition⟩ := htexts
    exact ((((htype.append (by decide)).append hname).append (by decide)).append
      (Expr.balanced_render hdefinition)).append (by decide)
  | perform hf =>
    simp only [Operation.texts, hf] at htexts
    exact (Expr.balanced_render htexts).append (by decide)

end Operation

/-! ## Authored texts -/

/-- The texts of a pin. -/
def Pin.texts (p : Pin) : List String :=
  p.label :: (p.type?.toList ++ p.default?.toList)

/-- The texts of a kind of node. -/
def NodeKind.texts : NodeKind → List String
  | .operator op type => [op, type]
  | .call function type => [function, type]
  | .voidCall function => [function]
  | .declaredCall function type? source => function :: source :: type?.toList
  | .mask components type => [components, type]
  | .pack type | .split type | .constant type => [type]
  | .texture | .convert _ | .input | .output => []

/-- The texts of a node that may stand in source as they are.  Its name is none
    of them. -/
def Node.texts (n : Node) : List String :=
  n.kind.texts ++ n.pins.flatMap Pin.texts

/-- All pins of a graph have labels that can stand in identifiers. -/
def Graph.LabelledByWords (g : Graph) : Prop :=
  ∀ n ∈ g.nodes, ∀ p ∈ n.pins, p.label.toList.all isWord = true

/-- The texts of the types of a registry. -/
def TypeRegistry.texts (r : TypeRegistry) : List String :=
  r.types.values.flatMap ValueType.texts

/-- The texts of an entry point. -/
def EntryPoint.texts (e : EntryPoint) : List String :=
  e.name :: (e.input.texts ++ e.output.texts)

/-- The texts of a stage signature. -/
def Signature.texts (s : Signature) : List String :=
  s.name :: s.fields.flatMap fun f => f.name :: f.type :: f.semantic.toList

/-- The texts of a request that may stand in source as they are. -/
def Request.texts (q : Request) : List String :=
  q.entryName :: q.options.semantic ::
    (q.input.texts ++ q.output.texts ++ q.graph.nodes.flatMap Node.texts)

namespace TypeRegistry

variable {r : TypeRegistry} (hr : ∀ text ∈ r.texts, Balanced text)
include hr

theorem balanced_parse {text : String} (h : Balanced text) :
    ∀ text' ∈ (r.parse text).texts, Balanced text' := by
  rw [parse]
  cases hget : r.types.get? (key (trim text)) with
  | none =>
    intro text' htext'
    rw [Option.getD_none, ValueType.texts, List.mem_cons] at htext'
    rcases htext' with rfl | hsemantic
    · exact h.trim
    · cases hsemantic
  | some type =>
    intro text' htext'
    obtain ⟨before, after, hentries, -⟩ := List.lookup_eq_some_iff.1 hget
    have hvalue : type ∈ r.types.values := by simp [Dict.values, hentries]
    exact hr text' (List.mem_flatMap.2 ⟨type, hvalue, htext'⟩)

theorem balanced_parse_name {text : String} (h : Balanced text) :
    Balanced (r.parse text).name :=
  balanced_parse hr h _ (List.mem_cons_self ..)

theorem balanced_parse? {text : String} (h : Balanced text) {type : ValueType}
    (ht : r.parse? text = some type) : Balanced type.name := by
  obtain ⟨content, hcontent, rfl⟩ := Option.map_eq_some_iff.1 ht
  exact balanced_parse_name hr (h.content hcontent)

theorem balanced_struct {s : Signature} (h : ∀ text ∈ s.texts, Balanced text) :
    ∀ text ∈ (s.struct r).texts, Balanced text := by
  rw [Signature.texts, List.forall_mem_cons] at h
  rw [Signature.struct, Struct.texts, List.forall_mem_cons]
  refine ⟨h.1, fun text htext => ?_⟩
  rw [List.flatMap_map, List.mem_flatMap] at htext
  obtain ⟨f, hf, htext⟩ := htext
  have htexts : ∀ text ∈ f.name :: f.type :: f.semantic.toList, Balanced text :=
    fun text htext => h.2 text (List.mem_flatMap.2 ⟨f, hf, htext⟩)
  rw [List.forall_mem_cons, List.forall_mem_cons] at htexts
  obtain ⟨hname, htype, hsemantic⟩ := htexts
  have hparsed := balanced_parse hr htype
  rw [Field.texts, List.mem_cons] at htext
  rcases htext with rfl | htext
  · exact hname
  · dsimp only at htext
    split at htext
    · rename_i semantic hs
      -- only numeric types take the semantic of the field
      have hown : Balanced semantic := hsemantic semantic (by simp [hs])
      cases htype' : r.parse f.type with
      | numeric shape other =>
        simp only [htype', ValueType.withSemantic, ValueType.texts, ValueType.semantic,
          Option.toList_some, List.mem_cons, List.not_mem_nil, or_false] at htext
        rcases htext with rfl | rfl
        · exact hparsed _ (by rw [htype']; exact List.mem_cons_self ..)
        · exact hown
      | resource | struct =>
        rw [htype'] at htext hparsed
        exact hparsed text htext
    · exact hparsed text htext

end TypeRegistry

theorem Shape.all_isWord_name (shape : Shape) : shape.name.toList.all isWord = true := by
  have hscalar : ∀ s : Scalar, s.name.toList.all isWord = true := by
    intro s
    cases s <;> decide
  have hx : "x".toList.all isWord = true := by decide
  cases shape with
  | scalar s => exact hscalar s
  | vector s size =>
    rw [name, String.toList_append, List.all_append, hscalar, all_isWord_numeral]
    rfl
  | matrix s rows cols =>
    simp only [name, String.toList_append, List.all_append, hscalar, all_isWord_numeral, hx,
      Bool.and_self]

/-- The names of the standard types have no brackets. -/
theorem TypeRegistry.balanced_standard : ∀ text ∈ standard.texts, Balanced text := by
  intro text htext
  obtain ⟨type, hvalue, htext⟩ := List.mem_flatMap.1 htext
  obtain ⟨entry, hentry, rfl⟩ := List.mem_map.1 hvalue
  obtain ⟨type, hbuiltin, rfl⟩ := List.mem_map.1 hentry
  rcases builtin_cases hbuiltin with ⟨shape, rfl, -⟩ | ⟨r, rfl⟩
  · obtain rfl := List.mem_singleton.1 htext
    exact balanced_of_isWord shape.all_isWord_name
  · obtain rfl := List.mem_singleton.1 htext
    cases r <;> decide

theorem balanced_floats (size : Nat) : Balanced (ValueType.floats size).name := by
  rw [ValueType.floats]
  split
  · decide
  · exact Balanced.append (s := "float") (by decide) (balanced_of_isWord (all_isWord_numeral size))

/-! ## Numbers -/

namespace Number

/-- A number is written with digits. -/
theorem places_digits (c : Nat) (k : Int) :
    (places c k).1.all isWord = true ∧ (places c k).2.all isWord = true := by
  have hzero : isWord '0' = true := by decide
  have hdigits : ∀ ch ∈ Nat.toDigits 10 c, isWord ch = true := fun ch => isWord_of_mem_toDigits
  have hzeros : ∀ (m : Nat), ∀ ch ∈ List.replicate m '0', isWord ch = true := fun m ch hch =>
    (List.eq_of_mem_replicate hch) ▸ hzero
  rw [places]
  simp only [List.all_eq_true]
  split
  · refine ⟨?_, by simpa using hzero⟩
    rw [List.forall_mem_append]
    exact ⟨hdigits, hzeros _⟩
  · have hpadded : ∀ m : Nat, ∀ ch ∈ List.replicate m '0' ++ Nat.toDigits 10 c,
        isWord ch = true := fun m => List.forall_mem_append.2 ⟨hzeros m, hdigits⟩
    rw [List.splitAt_eq]
    exact ⟨fun ch hch => hpadded _ ch (List.mem_of_mem_take hch),
      fun ch hch => hpadded _ ch (List.mem_of_mem_drop hch)⟩

theorem balanced_positional (c : Nat) (k : Int) : Balanced (positional c k) := by
  obtain ⟨hwhole, hfraction⟩ := places_digits c k
  rw [positional]
  refine (Balanced.append (balanced_of_isWord ?_) (by decide)).append (balanced_of_isWord ?_)
  · rwa [String.toList_ofList]
  · rwa [String.toList_ofList]

theorem balanced_literal (x : Single) : Balanced x.literal := by
  rw [Single.literal]
  split
  · rw [Format.text]
    refine Balanced.append ?_ (balanced_positional _ _)
    split <;> decide
  · decide

end Number

theorem Emission.balanced_textureName (t : SymbolTable) (n : Node) : Balanced (textureName t n) :=
  balanced_of_isIdent (t.isIdent_freshName (isIdent_resourceName "Srv" (by decide) n))

theorem Emission.balanced_samplerName (t : SymbolTable) (n : Node) : Balanced (samplerName t n) :=
  balanced_of_isIdent <|
    (withTexture t n).isIdent_freshName (isIdent_resourceName "Sampler" (by decide) n)

/-! ## What nodes read -/

namespace Node

variable {n : Node} (h : ∀ text ∈ n.texts, Balanced text)
include h

theorem balanced_pin {p : Pin} (hp : p ∈ n.pins) : ∀ text ∈ p.texts, Balanced text :=
  fun text htext => h text (List.mem_append_right _ (List.mem_flatMap.2 ⟨p, hp, htext⟩))

theorem balanced_label (id : String) (p : Pin) (hp : n.pin? id = some p) : Balanced p.label :=
  balanced_pin h (List.mem_of_find?_eq_some hp) _ (List.mem_cons_self ..)

/-- The default value of a pin, or zero. -/
theorem balanced_default {p : Pin} (hp : p ∈ n.pins) :
    Balanced ((p.default?.bind content).getD "0") := by
  cases hdefault : p.default?.bind content with
  | none => decide
  | some text =>
    obtain ⟨text', htext', hcontent⟩ := Option.bind_eq_some_iff.1 hdefault
    exact (balanced_pin h hp text' (by simp [Pin.texts, htext'])).content hcontent

end Node

namespace Compilation

variable {c d d' : Compilation} {g : Graph} {n : Node} {em : Emission} {xs : List Operand}

/-- A member has the label of the pin that selects it. -/
theorem label_of_member? {producer : Node} {type : ValueType} {pin : Option Pin}
    {m : String × ValueType} (h : c.member? producer type pin = some m) :
    ∃ p, pin = some p ∧ m.1 = p.label := by
  obtain ⟨p, hp, h⟩ := Option.bind_eq_some_iff.1 h
  refine ⟨p, hp, ?_⟩
  split at h
  · cases h
    rfl
  · split at h
    · split at h
      · obtain ⟨f, hf, rfl⟩ := Option.map_eq_some_iff.1 h
        have hname := List.find?_some hf
        exact beq_iff_eq.1 hname
      · cases h
        rfl
    · cases h

section
variable (hd : ∀ o ∈ d.table.operations, o.Grouped)
include hd

theorem balanced_valueOf {producer : Node} {pin : Option Pin}
    (hpin : ∀ p, pin = some p → Balanced p.label) {x : Operand}
    (hx : d.valueOf producer pin = .ok x) : ∀ text ∈ x.expr.texts, Balanced text := by
  obtain ⟨o, type, ho, htype, rfl⟩ := valueOf_eq_ok_iff.1 hx
  obtain ⟨i, -, hi⟩ := Option.bind_eq_some_iff.1 ho
  have hgrouped := hd o (List.mem_of_getElem? hi)
  intro text htext
  rw [readAt_eq] at htext
  split at htext
  · rename_i m hm
    obtain ⟨p, hp, hlabel⟩ := label_of_member? hm
    rw [Expr.texts, List.mem_cons] at htext
    rcases htext with rfl | htext
    · rw [hlabel]
      exact hpin p hp
    · exact hgrouped.texts text (Operation.texts_reference htype htext)
  · rw [wholeValue] at htext
    split at htext
    · exact hgrouped.texts text (Operation.texts_expansion htype htext)
    · exact hgrouped.texts text (Operation.texts_reference htype htext)

/-- **What is read through an output pin** is not taken apart, if the label of
    the pin is a word. -/
theorem tight_valueOf {producer : Node} {pin : Option Pin}
    (hpin : ∀ p, pin = some p → p.label.toList.all isWord = true) {x : Operand}
    (hx : d.valueOf producer pin = .ok x) : Tight x.expr.render := by
  obtain ⟨o, type, ho, htype, rfl⟩ := valueOf_eq_ok_iff.1 hx
  obtain ⟨i, -, hi⟩ := Option.bind_eq_some_iff.1 ho
  have hgrouped := hd o (List.mem_of_getElem? hi)
  rw [readAt_eq]
  -- a member is selected of the reference, which has no operator outside parentheses
  split
  · rename_i m hm
    obtain ⟨p, hp, hlabel⟩ := label_of_member? hm
    have hreference : Balanced o.reference.render := Expr.balanced_render fun text htext =>
      hgrouped.texts text (Operation.texts_reference htype htext)
    refine Expr.tight_member hreference hgrouped.reference ?_
    rw [hlabel]
    exact hpin p hp
  · rw [wholeValue]
    split
    · exact hgrouped.expansion
    · exact hgrouped.reference

end

theorem balanced_unlinked (hn : ∀ text ∈ n.texts, Balanced text) (i : Nat) :
    ∀ text ∈ (c.unlinked n i).expr.texts, Balanced text := by
  rw [unlinked]
  split
  · rename_i p hp
    have hmem : p ∈ n.pins := (List.mem_filter.1 (List.mem_of_getElem? hp)).1
    rw [defaultOperand, Operand.literal, Expr.texts, List.forall_mem_singleton]
    exact Node.balanced_default hn hmem
  · rw [Operand.literal, Expr.texts, List.forall_mem_singleton]
    decide

section
variable (hd : ∀ o ∈ d.table.operations, o.Grouped)
include hd

theorem balanced_operandNo (hg : ∀ n ∈ g.nodes, ∀ text ∈ n.texts, Balanced text)
    (hn : n ∈ g.nodes) {i : Nat} {x : Operand} (hx : d.operandNo g n i = .ok x) :
    ∀ text ∈ x.expr.texts, Balanced text := by
  rcases operandNo_eq_ok_iff.1 hx with ⟨-, rfl⟩ | ⟨l, producer, -, hproducer, hvalue⟩
  · exact balanced_unlinked (hg n hn) i
  · have hp := hg producer (Graph.mem_of_node? hproducer).1
    exact balanced_valueOf hd (Node.balanced_label hp _) hvalue

theorem balanced_rootValue (hg : ∀ n ∈ g.nodes, ∀ text ∈ n.texts, Balanced text)
    (hn : n ∈ g.nodes) {i : Nat} {x : Operand} (hx : d.rootValue g n i = .ok x) :
    ∀ text ∈ x.expr.texts, Balanced text := by
  rw [rootValue] at hx
  split at hx
  · exact balanced_valueOf hd (fun p hp => by cases hp) hx
  · exact balanced_operandNo hd hg hn hx

theorem tight_operandNo (hg : g.LabelledByWords) {i : Nat} {x : Operand}
    (hl : (g.linkInto? n i).isSome = true) (hx : d.operandNo g n i = .ok x) :
    Tight x.expr.render := by
  rcases operandNo_eq_ok_iff.1 hx with ⟨hnone, -⟩ | ⟨l, producer, -, hproducer, hvalue⟩
  · rw [hnone] at hl
    cases hl
  · refine tight_valueOf hd (fun p hp => ?_) hvalue
    exact hg producer (Graph.mem_of_node? hproducer).1 p (List.mem_of_find?_eq_some hp)

theorem tight_rootValue (hg : g.LabelledByWords) {i : Nat} {x : Operand}
    (hl : (g.linkInto? n i).isSome = true) (hx : d.rootValue g n i = .ok x) :
    Tight x.expr.render := by
  rw [rootValue] at hx
  split at hx
  · exact tight_valueOf hd (fun p hp => by cases hp) hx
  · exact tight_operandNo hd hg hl hx

end

/-! ## What nodes make -/

theorem balanced_constantText (hn : ∀ text ∈ n.texts, Balanced text) :
    Balanced (constantText n) := by
  rw [constantText]
  cases hp : n.outputs.head? with
  | none => decide
  | some p =>
    have hmem : p ∈ n.pins := (List.mem_filter.1 (List.mem_of_head? hp)).1
    exact Node.balanced_default hn hmem

theorem balanced_constantType? {r : TypeRegistry} (hr : ∀ text ∈ r.texts, Balanced text)
    (hn : ∀ text ∈ n.texts, Balanced text) {text : String} (htext : Balanced text)
    {type : ValueType} (h : constantType? r n text = some type) : Balanced type.name := by
  rw [constantType?, Option.or_eq_some_iff] at h
  rcases h with htype | ⟨-, hpin⟩
  · exact TypeRegistry.balanced_parse? hr htext htype
  · obtain ⟨text', hbind, htype⟩ := Option.bind_eq_some_iff.1 hpin
    obtain ⟨p, hp, hptype⟩ := Option.bind_eq_some_iff.1 hbind
    have hmem : p ∈ n.pins := (List.mem_filter.1 (List.mem_of_head? hp)).1
    have htext' := Node.balanced_pin hn hmem text' (by simp [Pin.texts, hptype])
    exact TypeRegistry.balanced_parse? hr htext' htype

theorem balanced_args {xs : List Operand} (hxs : ∀ x ∈ xs, ∀ text ∈ x.expr.texts, Balanced text) :
    ∀ text ∈ Expr.textsAll (xs.map (·.expr)), Balanced text := by
  intro text htext
  rw [Expr.textsAll_eq, List.flatMap_map, List.mem_flatMap] at htext
  obtain ⟨x, hx, htext⟩ := htext
  exact hxs x hx text htext

/-- **What is made for a node** is balanced, if the texts of the node and what it
    reads are. -/
theorem Made.grouped (h : c.Made n xs em) (hr : ∀ text ∈ c.registry.texts, Balanced text)
    (hn : ∀ text ∈ n.texts, Balanced text)
    (hxs : ∀ x ∈ xs, ∀ text ∈ x.expr.texts, Balanced text) {t : SymbolTable} {o : Operation}
    (ho : em.operation? t n = some o) : o.Grouped := by
  have hname : ∀ (t : SymbolTable) (fallback : String),
      isIdent (t.freshName (baseName n.name fallback)) = true := fun t fallback =>
    t.isIdent_freshName (isIdent_baseName n.name fallback)
  have hkind : ∀ text ∈ n.kind.texts, Balanced text := fun text htext =>
    hn text (List.mem_append_left _ htext)
  cases h with
  | sample hk =>
    cases ho
    refine Operation.grouped_value (hname _ _) (balanced_floats 4) ?_ _ _
    simp only [Expr.texts, List.forall_mem_cons]
    exact ⟨Emission.balanced_textureName t n, Emission.balanced_samplerName t n,
      hxs _ (List.mem_singleton_self _)⟩
  | operator hk hcasts =>
    rename_i op type x y left right
    cases ho
    simp only [hk, NodeKind.texts, List.forall_mem_cons] at hkind
    obtain ⟨hop, htype, -⟩ := hkind
    have hparsed := TypeRegistry.balanced_parse_name hr htype
    -- operands are only cast to the type of the operator
    have hcast : ∀ name ∈ left.toList ++ right.toList, Balanced name := by
      intro name hmem
      rw [(hcasts.mem_iff.1 hmem).2]
      exact hparsed
    refine Operation.grouped_value (hname _ _) hparsed ?_ _ _
    simp only [Expr.texts, Expr.texts_castTo, List.forall_mem_cons, List.forall_mem_append]
    rw [List.forall_mem_append] at hcast
    exact ⟨hop, ⟨hcast.1, hxs x (by simp)⟩, hcast.2, hxs y (by simp)⟩
  | call hk =>
    cases ho
    simp only [hk, NodeKind.texts, List.forall_mem_cons] at hkind
    obtain ⟨hfunction, htype, -⟩ := hkind
    refine Operation.grouped_value (hname _ _) (TypeRegistry.balanced_parse_name hr htype) ?_ _ _
    rw [Expr.texts, List.forall_mem_cons]
    exact ⟨hfunction, balanced_args hxs⟩
  | voidCall hk =>
    cases ho
    simp only [hk, NodeKind.texts, List.forall_mem_singleton] at hkind
    refine Operation.grouped_effect ?_ _
    rw [Expr.texts, List.forall_mem_cons]
    exact ⟨hkind, balanced_args hxs⟩
  | declaredCall hk =>
    rename_i function type? source
    simp only [hk, NodeKind.texts, List.forall_mem_cons] at hkind
    obtain ⟨hfunction, -, htype⟩ := hkind
    have hcall : ∀ text ∈ (Expr.call function (xs.map (·.expr))).texts, Balanced text := by
      rw [Expr.texts, List.forall_mem_cons]
      exact ⟨hfunction, balanced_args hxs⟩
    cases hparsed : c.typeOf? type? with
    | none =>
      rw [hparsed] at ho
      cases ho
      exact Operation.grouped_effect hcall _
    | some type =>
      rw [hparsed] at ho
      cases ho
      obtain ⟨text, htext, hparse⟩ := Option.bind_eq_some_iff.1 hparsed
      have htype' := TypeRegistry.balanced_parse? hr (htype text (by simp [htext])) hparse
      exact Operation.grouped_value (hname _ _) htype' hcall _ _
  | convert hk =>
    rename_i last x
    cases ho
    refine Operation.grouped_value (hname _ _) (balanced_floats 4) ?_ _ _
    have hfunction : Balanced "float4" := by decide
    simp only [Expr.texts, Expr.textsAll, List.forall_mem_cons, List.forall_mem_append]
    exact ⟨hfunction, hxs x (by simp), ⟨Number.balanced_literal last, by simp⟩, by simp⟩
  | mask hk =>
    rename_i components type size x ha
    cases ho
    simp only [hk, NodeKind.texts, List.forall_mem_cons] at hkind
    refine Operation.grouped_value (hname _ _) (balanced_floats size) ?_ _ _
    simp only [Expr.texts, Expr.texts_operand, List.forall_mem_cons]
    exact ⟨hkind.1, hxs x (by simp)⟩
  | pack hk =>
    rename_i type size ha
    cases ho
    refine Operation.grouped_value (hname _ _) (balanced_floats size) ?_ _ _
    simp only [Expr.texts, List.forall_mem_cons]
    exact ⟨balanced_floats size, balanced_args hxs⟩
  | split hk =>
    rename_i type x
    cases ho
    have htexts := hxs x (by simp)
    refine ⟨?_, Expr.tight_operand (Expr.balanced_render htexts)⟩
    simpa only [Operation.texts, Expr.texts_operand] using htexts
  | constant hk ht =>
    rename_i type t'
    cases ho
    simp only [hk, NodeKind.texts, List.forall_mem_singleton] at hkind
    refine Operation.grouped_value (hname _ _) (balanced_constantType? hr hn hkind ht) ?_ _ _
    rw [Expr.texts, List.forall_mem_singleton]
    exact balanced_constantText hn
  | input | output => cases ho

/-! ## Runs -/

/-- All operations of a compilation are grouped, and all texts in its
    declarations are balanced. -/
structure Grouped (d : Compilation) : Prop where
  operations : ∀ o ∈ d.table.operations, o.Grouped
  texts : ∀ text ∈ d.table.texts, Balanced text

theorem grouped_of_bare {os : List Operation}
    (h : ∀ o ∈ os.map Operation.bare, o.Grouped) : ∀ o ∈ os, o.Grouped := fun o ho =>
  have hbare := h o.bare (List.mem_map.2 ⟨o, ho, rfl⟩)
  ⟨hbare.texts, hbare.reference⟩

/-- The texture and the sampler that are added for a node. -/
theorem balanced_resources (em : Emission) (n : Node) {t : SymbolTable}
    (ht : (∀ text ∈ t.resourceViews.flatMap View.texts, Balanced text) ∧
      ∀ text ∈ t.samplers.flatMap Sampler.texts, Balanced text) :
    (∀ text ∈ (em.resources t n).resourceViews.flatMap View.texts, Balanced text) ∧
      ∀ text ∈ (em.resources t n).samplers.flatMap Sampler.texts, Balanced text := by
  cases em with
  | nothing | stageInput | value | effect | synonym => exact ht
  | sample x =>
    have htype : Balanced (ValueType.resource .texture2D).name := by decide
    have htype' : Balanced (ValueType.resource .samplerState).name := by decide
    rw [Emission.resourceViews_sample, Emission.samplers_sample, List.flatMap_append,
      List.flatMap_append, List.forall_mem_append, List.forall_mem_append, List.flatMap_singleton,
      List.flatMap_singleton]
    refine ⟨⟨ht.1, ?_⟩, ht.2, ?_⟩
    · simp only [View.texts, Emission.texture, Option.map_some, Option.toList_some,
        List.forall_mem_cons]
      exact ⟨Emission.balanced_textureName t n, htype, balanced_floats 4, by simp⟩
    · simp only [Sampler.texts, Emission.sampler, List.forall_mem_cons]
      exact ⟨Emission.balanced_samplerName t n, htype', by simp⟩

theorem balanced_functionsWith {t : SymbolTable} (hn : ∀ text ∈ n.texts, Balanced text)
    (ht : ∀ text ∈ t.functions.map Function.source, Balanced text) :
    ∀ text ∈ (t.functionsWith n).map Function.source, Balanced text := by
  rw [SymbolTable.functionsWith]
  split
  · rename_i function type? source hk
    have hsource : Balanced source := hn source (by simp [Node.texts, hk, NodeKind.texts])
    split
    · exact ht
    · rw [List.map_append, List.forall_mem_append]
      exact ⟨ht, by simpa using hsource⟩
  · exact ht

/-- **Every node keeps brackets and operands.** -/
theorem Grouped.step (h : d.Grouped) (hr : ∀ text ∈ d.registry.texts, Balanced text)
    (hg : ∀ n ∈ g.nodes, ∀ text ∈ n.texts, Balanced text) (hn : n ∈ g.nodes)
    (hplan : d.plan g n = .ok em) (hem : d.Emitted n em d') : d'.Grouped := by
  obtain ⟨xs, hxs, hmade⟩ := plan_eq_ok_iff.1 hplan
  -- operations read each other, so what the node reads has the texts of earlier ones
  have hread : ∀ x ∈ xs, ∀ text ∈ x.expr.texts, Balanced text := by
    intro x hx
    obtain ⟨i, hi⟩ := exists_operandNo_of_mem hxs hx
    exact balanced_operandNo h.operations hg hn hi
  constructor
  · refine grouped_of_bare fun o ho => ?_
    rw [hem.operations, List.mem_append, Option.mem_toList] at ho
    rcases ho with ho | ho
    · obtain ⟨o', ho', rfl⟩ := List.mem_map.1 ho
      exact ⟨(h.operations o' ho').texts, (h.operations o' ho').reference⟩
    · exact hmade.grouped hr (hg n hn) hread ho
  · have htexts := h.texts
    simp only [SymbolTable.texts, List.forall_mem_append] at htexts ⊢
    obtain ⟨⟨⟨⟨⟨haccess, hresources⟩, hsamplers⟩, hstructs⟩, hbuffers⟩, hfunctions⟩ := htexts
    rw [hem.accessViews, hem.resourceViews, hem.samplers, hem.structs, hem.constantBuffers,
      hem.functions]
    obtain ⟨hresources', hsamplers'⟩ := balanced_resources em n ⟨hresources, hsamplers⟩
    exact ⟨⟨⟨⟨⟨haccess, hresources'⟩, hsamplers'⟩, hstructs⟩, hbuffers⟩,
      balanced_functionsWith (hg n hn) hfunctions⟩

theorem grouped_run {ns : List Node} (hreserves : ∀ n ∈ ns, c.table.Reserves n)
    (hns : ∀ n ∈ ns, n ∈ g.nodes) (hr : ∀ text ∈ c.registry.texts, Balanced text)
    (hg : ∀ n ∈ g.nodes, ∀ text ∈ n.texts, Balanced text) (hc : c.Grouped)
    (h : emitAll g c ns = (d, none)) : d.Grouped := by
  have hall : c.Follows d ∧ d.Grouped := by
    refine run_induct (motive := fun _ d => c.Follows d ∧ d.Grouped) hreserves h
      ⟨.refl c, hc⟩ ?_
    rintro done n rest d em d' hsplit ⟨hfollows, hd⟩ hplan hem
    have hn : n ∈ g.nodes := hns n (by simp [hsplit])
    refine ⟨hfollows.step hem, hd.step ?_ hg hn hplan hem⟩
    rwa [hfollows.registry]
  exact hall.2

end Compilation

/-! ## Whole compilations -/

theorem EntryPoint.balanced_outputType {e : EntryPoint}
    (h : ∀ text ∈ e.output.texts, Balanced text) : Balanced e.outputType.name := by
  rw [Struct.texts, List.forall_mem_cons] at h
  have hbare : ∀ type : ValueType, type.bare.name = type.name := fun type => by cases type <;> rfl
  rw [outputType]
  split
  · rename_i f hfields
    split
    · rw [hbare]
      exact h.2 _ (by simp [hfields, Field.texts, ValueType.texts])
    · exact h.1
  · exact h.1

/-- The statements that return the stage output. -/
theorem Compilation.balanced_closing {d : Compilation} {xs : List Operand}
    (htype : Balanced d.outputType.name) (hname : Balanced d.outputName)
    (hfields : ∀ f ∈ d.output.fields, Balanced f.name)
    (hxs : ∀ x ∈ xs, Balanced x.expr.render) : ∀ st ∈ d.closing xs, Balanced st.render := by
  intro st hst
  have hreturn : Balanced "return " := by decide
  cases mem_closing_cases hst with
  | introduce => exact ((htype.append (by decide)).append hname).append (by decide)
  | assign _ hf hx =>
    exact ((((hname.append (by decide)).append (hfields _ hf)).append (by decide)).append
      (hxs _ hx)).append (by decide)
  | struct => exact (hreturn.append hname).append (by decide)
  | value hx => exact (hreturn.append (hxs _ hx)).append (by decide)

namespace Compiler

open Compilation

variable {ρ : Type} {k : Compiler ρ} {g : Graph} {e : EntryPoint} {r : Node} {ns : List Node}
  {d : Compilation} {xs : List Operand} {b : Body}

/-- Without hooks the stage has balanced texts if the entry point has. -/
theorem grouped_stage (h : k.before = [])
    (hr : ∃ t, (k.start e).table.reserveMethods g.nodes = (t, none))
    (he : ∀ text ∈ e.texts, Balanced text) : (k.stage g e).Grouped := by
  rw [EntryPoint.texts, List.forall_mem_cons, List.forall_mem_append] at he
  obtain ⟨-, hinput, houtput⟩ := he
  obtain ⟨haccess, hresources, hsamplers⟩ := stage_resources_of_nil h hr
  obtain ⟨hbuffers, hfunctions⟩ := stage_declarations_of_nil h hr
  have hword := all_isWord_of_isIdent (k.isIdent_stageVariable g e)
  constructor
  · intro o ho
    rw [stage_operations_of_nil h hr, List.mem_singleton] at ho
    subst ho
    refine ⟨?_, tight_of_isWord hword⟩
    simp only [stageOperation, Operation.texts, Expr.texts, List.forall_mem_singleton]
    exact balanced_of_isWord hword
  · intro text htext
    simp only [SymbolTable.texts, haccess, hresources, hsamplers, hbuffers, hfunctions,
      List.flatMap_nil, List.nil_append, List.map_nil, List.append_nil, List.mem_flatMap] at htext
    obtain ⟨s, hs, htext⟩ := htext
    rcases mem_stage_structs h hr hs with rfl | rfl
    · exact hinput text htext
    · exact houtput text htext

namespace Passage

variable (h : k.Passage g e r ns d xs) (he : ∀ text ∈ e.texts, Balanced text)
include h

theorem balanced_inputName : Balanced d.inputName := by
  rw [h.follows.inputName (k.stage_inputOperation? g e)]
  exact balanced_of_isIdent (k.isIdent_stageVariable g e)

theorem balanced_outputName : Balanced d.outputName := by
  rw [outputName_eq]
  split
  · exact h.balanced_inputName
  · exact balanced_of_isIdent (d.table.isIdent_freshName (isIdent_baseName _ _))

include he

theorem balanced_outputType : Balanced d.outputType.name := by
  rw [h.follows.outputType]
  exact EntryPoint.balanced_outputType fun text htext =>
    he text (List.mem_cons_of_mem _ (List.mem_append_right _ htext))

theorem balanced_signature {semantic : String} (hs : Balanced semantic) :
    Balanced (d.signature e.name semantic) := by
  have htype := h.balanced_outputType he
  rw [EntryPoint.texts, List.forall_mem_cons, List.forall_mem_append] at he
  obtain ⟨hname, hinput, -⟩ := he
  have hstruct : Balanced d.input.name := by
    rw [h.follows.input]
    exact hinput _ (List.mem_cons_self ..)
  have hblank : Balanced " " := by decide
  have hhead := ((htype.append hblank).append hname).group
    ((hstruct.append hblank).append h.balanced_inputName)
  rw [← String.append_assoc, ← String.append_assoc] at hhead
  rw [signature]
  split
  · exact hhead
  · exact (hhead.append (by decide)).append hs

variable (hr : ∀ text ∈ k.compilation.registry.texts, Balanced text)
  (hg : ∀ n ∈ g.nodes, ∀ text ∈ n.texts, Balanced text)
include hr hg

/-- **At every point of a run** brackets and operands are kept. -/
theorem grouped {before after : List Node} {d₀ : Compilation} (hns : ns = before ++ after)
    (hrun : emitAll g (k.stage g e) before = (d₀, none)) : d₀.Grouped := by
  have hsub : ∀ n ∈ before, n ∈ ns := fun n hn => by simp [hns, hn]
  exact grouped_run (fun n hn => h.reserves n (hsub n hn)) (fun n hn => h.mem_nodes n (hsub n hn))
    hr hg (grouped_stage h.noHooks h.reserved he) hrun

theorem balanced_statements (hroot : r ∈ g.nodes)
    (hb : b.statements = d.statements ++ d.closing xs) :
    ∀ st ∈ b.statements, Balanced st.render := by
  have hd := h.grouped he hr hg (List.append_nil ns).symm h.run
  intro st hst
  rw [hb, h.statements, List.mem_append] at hst
  rcases hst with hst | hst
  · obtain ⟨o, ho, hwritten⟩ := List.mem_filterMap.1 hst
    obtain ⟨o', ho', rfl⟩ := List.mem_map.1 ho
    have hgrouped : o'.bare.Grouped :=
      ⟨(hd.operations o' ho').texts, (hd.operations o' ho').reference⟩
    exact hgrouped.written (Compilation.written?_eq_some_iff.1 hwritten).2
  · refine balanced_closing (h.balanced_outputType he) h.balanced_outputName ?_ ?_ st hst
    · intro f hf
      rw [h.follows.output, Compiler.stage_output] at hf
      exact he _ <| List.mem_cons_of_mem _ <| List.mem_append_right _ <| List.mem_cons_of_mem _ <|
        List.mem_flatMap.2 ⟨f, hf, List.mem_cons_self ..⟩
    · intro x hx
      obtain ⟨i, hi⟩ := List.getElem?_of_mem hx
      exact Expr.balanced_render (balanced_rootValue hd.operations hg hroot (h.values i x hi))

end Passage

end Compiler

/-! ## All requests -/

/-- **Brackets and operands are kept.**  Where all texts of a request and of the
    types of the compiler are balanced, so are the source that is made without
    hooks, the definitions of all operations, and what any node reads at any
    point of the run.  If pins are labelled by words, what is read through a link
    has only characters of names, numbers and member accesses outside its
    parentheses, so no operator can take it apart. -/
theorem brackets_and_operands_kept {ρ : Type} (k : Compiler ρ) (hbefore : k.before = [])
    (hafter : k.after = []) (hr : ∀ text ∈ k.compilation.registry.texts, Balanced text)
    (q : Request) (hq : ∀ text ∈ q.texts, Balanced text) {s : Shader}
    (h : (k.compile q).result = .ok s) :
    Balanced s.source ∧
      ∃ c b r ns, (k.withOptions q.options).assemble q.graph q.root
          (q.entryPoint k.compilation.registry) = .ok (c, b) ∧ s = Compiler.shader c b ∧
        q.graph.node? q.root = some r ∧ q.graph.order = .ok ns ∧
        (∀ o ∈ c.table.operations, Balanced o.definitionText) ∧
        ∀ before after d, Graph.emitted r ns = before ++ after →
          Compilation.emitAll q.graph ((k.withOptions q.options).stage q.graph
            (q.entryPoint k.compilation.registry)) before = (d, none) →
          ∀ n ∈ q.graph.nodes, ∀ i x,
            d.operandNo q.graph n i = .ok x ∨ d.rootValue q.graph n i = .ok x →
            Balanced x.expr.render ∧
              (q.graph.LabelledByWords → (q.graph.linkInto? n i).isSome = true →
                Tight x.expr.render) := by
  simp only [Request.texts, List.forall_mem_cons, List.forall_mem_append] at hq
  obtain ⟨hentry, hsemantic, ⟨hinput, houtput⟩, hnodes⟩ := hq
  have he : ∀ text ∈ (q.entryPoint k.compilation.registry).texts, Balanced text := by
    simp only [EntryPoint.texts, Request.entryPoint, List.forall_mem_cons, List.forall_mem_append]
    exact ⟨hentry, TypeRegistry.balanced_struct hr hinput, TypeRegistry.balanced_struct hr houtput⟩
  have hg : ∀ n ∈ q.graph.nodes, ∀ text ∈ n.texts, Balanced text := fun n hn text htext =>
    hnodes text (List.mem_flatMap.2 ⟨n, hn, htext⟩)
  obtain ⟨c, b, hok, rfl⟩ :=
    (Compiler.generate_eq_ok_iff (k.withOptions q.options) _ _ _ hafter).1 h
  obtain ⟨-, _, _, _, -, -, -, hfailure⟩ := Compiler.assemble_run _ _ _ _ hok
  obtain ⟨hreserve, r, ns, d, xs, hroot, horder, hmem, hrun, hlen, hxs, hsignature, hstatements,
    rfl⟩ := Compiler.assemble_emitted ((k.withOptions q.options).proper_of_nil hbefore) hok
  have hpass : (k.withOptions q.options).Passage q.graph
      (q.entryPoint k.compilation.registry) r (Graph.emitted r ns) d xs :=
    ⟨hbefore, hreserve, hmem, hrun, hlen, hxs⟩
  have hd := hpass.grouped he hr hg (List.append_nil _).symm hrun
  refine ⟨?_, d.closed, b, r, ns, hok, rfl, hroot, horder, fun o ho => ?_, ?_⟩
  · refine balanced_sourceText ?_ hfailure ?_ ?_
    · obtain ⟨identifiers, hclosed⟩ := d.closed_eq
      rw [hclosed]
      exact hd.texts
    · rw [hsignature]
      exact hpass.balanced_signature he hsemantic
    · exact hpass.balanced_statements he hr hg (Graph.mem_of_node? hroot).1 hstatements
  · rw [d.operations_closed] at ho
    exact (hd.operations o ho).definitionText
  · intro before after d₀ hsplit hrun₀ n hn i x hx
    have hd₀ := (hpass.grouped he hr hg hsplit hrun₀).operations
    rcases hx with hx | hx
    · exact ⟨Expr.balanced_render (Compilation.balanced_operandNo hd₀ hg hn hx),
        fun hlabels hlink => Compilation.tight_operandNo hd₀ hlabels hlink hx⟩
    · exact ⟨Expr.balanced_render (Compilation.balanced_rootValue hd₀ hg hn hx),
        fun hlabels hlink => Compilation.tight_rootValue hd₀ hlabels hlink hx⟩

namespace Sample

/-- The stage output of one field. -/
def lit : Node := ⟨"out", "", .output, [⟨"lit", "", .input, none, none⟩]⟩

/-- Either of two fields of the stage input, and a comparison. -/
def eitherAnd : Graph where
  nodes :=
    [⟨"in", "", .input, [⟨"a", "", .output, none, none⟩, ⟨"b", "", .output, none, none⟩]⟩,
      ⟨"either", "", .operator "||" "bool",
        [⟨"x", "", .input, none, none⟩, ⟨"y", "", .input, none, none⟩,
          ⟨"xy", "", .output, none, none⟩]⟩,
      ⟨"both", "", .operator "&&" "bool",
        [⟨"x", "", .input, none, none⟩, ⟨"y", "", .input, none, some "(1 > 0)"⟩,
          ⟨"xy", "", .output, none, none⟩]⟩,
      lit]
  links :=
    [⟨"1", ⟨"in", "a"⟩, ⟨"either", "x"⟩⟩, ⟨"2", ⟨"in", "b"⟩, ⟨"either", "y"⟩⟩,
      ⟨"3", ⟨"either", "xy"⟩, ⟨"both", "x"⟩⟩, ⟨"4", ⟨"both", "xy"⟩, ⟨"out", "lit"⟩⟩]

/-- A request to inline all of the graph. -/
def eitherAndRequest : Request where
  version := ""
  entryName := "main"
  root := "out"
  input := ⟨"Varying", [⟨"a", "bool", none⟩, ⟨"b", "bool", none⟩]⟩
  output := ⟨"Pixel", [⟨"lit", "bool", none⟩]⟩
  definesInput := true
  definesOutput := true
  options := ⟨true, "SV_TARGET"⟩
  graph := eitherAnd

/-- The compilation of all nodes of the graph. -/
def eitherAndRun : Compilation × Option Failure :=
  Compilation.emitAll eitherAnd ((standardCompiler.withOptions eitherAndRequest.options).stage
    eitherAnd (eitherAndRequest.entryPoint .standard)) eitherAnd.nodes

end Sample

/-- An operator whose operand is an operator. -/
theorem brackets_and_operands_kept_eitherAnd :
    (∃ s, (Sample.standardCompiler.compile Sample.eitherAndRequest).result = .ok s ∧
      Balanced s.source) ∧
      ∃ x, Sample.eitherAndRun.1.operandNo Sample.eitherAnd Sample.lit 0 = .ok x ∧
        x.expr.render = "((varying.a || varying.b) && (1 > 0))" ∧ Tight x.expr.render := by
  obtain ⟨s, hs⟩ := Sample.exists_ok
    (r := (Sample.standardCompiler.compile Sample.eitherAndRequest).result) (by decide +kernel)
  have htexts : ∀ text ∈ Sample.eitherAndRequest.texts, Balanced text := by decide +kernel
  have hlabels : Sample.eitherAnd.LabelledByWords := by
    unfold Graph.LabelledByWords
    decide +kernel
  obtain ⟨hsource, c, b, r, ns, -, -, hroot, horder, -, hread⟩ := brackets_and_operands_kept
    Sample.standardCompiler rfl rfl TypeRegistry.balanced_standard Sample.eitherAndRequest htexts hs
  have hnodes : Graph.emitted r ns = Sample.eitherAnd.nodes ++ [] := by
    have hlit : Sample.eitherAnd.node? "out" = some Sample.lit := by decide +kernel
    have hall : Sample.eitherAnd.order = .ok Sample.eitherAnd.nodes := by decide +kernel
    cases hroot.symm.trans hlit
    cases horder.symm.trans hall
    rfl
  have hrun : Sample.eitherAndRun = (Sample.eitherAndRun.1, none) := by
    have hnone : Sample.eitherAndRun.2 = none := Option.isNone_iff_eq_none.1 (by decide +kernel)
    rw [← hnone]
  have hrender : (Sample.eitherAndRun.1.operandNo Sample.eitherAnd Sample.lit 0).map
      (·.expr.render) = .ok "((varying.a || varying.b) && (1 > 0))" := by
    decide +kernel
  obtain ⟨x, hx, hx'⟩ := Compilation.map_eq_ok_iff.1 hrender
  have htight := (hread _ _ _ hnodes hrun Sample.lit (by decide) 0 x (Or.inl hx)).2 hlabels
    (by decide)
  exact ⟨⟨s, hs, hsource⟩, x, hx, hx', htight⟩

end Shading
