/-
  Brackets in the source text.

  * `Source.Adds`: the characters that a step adds to a text, but for blanks.
    A block adds its lines in braces (`adds_fieldBlock`).
  * `SymbolTable.texts`: the texts that stand in the declarations of a table.
    The declarations are balanced if these are (`nested_header`).
  * `balanced_sourceText`: so is a source, if the statements of its body are
    balanced as well.
-/
import Shading.Proofs.Header
import Shading.Proofs.Texts

namespace Shading

open Text

/-! ## What is added to a text -/

namespace Source

/-- A step adds characters to a text; blanks do not count. -/
def Adds (f : Source → Source) (cs : List Char) : Prop :=
  ∀ s, squash (f s).text = squash s.text ++ cs

theorem Adds.comp {f f' : Source → Source} {cs cs' : List Char} (h : Adds f cs)
    (h' : Adds f' cs') : Adds (fun s => f' (f s)) (cs ++ cs') := by
  intro s
  rw [h' (f s), h s, List.append_assoc]

theorem squash_indent (depth : Nat) : squash (indent depth) = [] := by
  induction depth with
  | zero => rfl
  | succ depth ih =>
    rw [indent, squash_append, ih]
    decide

theorem adds_line (text : String) : Adds (·.line text) (squash text) := by
  intro s
  have hend : squash "\n" = [] := by decide
  simp only [line, squash_append, squash_indent, hend, List.append_nil]

theorem adds_blank : Adds blank [] := by
  intro s
  have hend : squash "\n" = [] := by decide
  rw [blank, squash_append, hend]

theorem adds_foldl {α : Type} {write : α → Source → Source} {added : α → List Char}
    (h : ∀ a, Adds (write a) (added a)) (items : List α) :
    Adds (fun s => items.foldl (fun out item => write item out) s) (items.flatMap added) := by
  induction items with
  | nil => exact fun s => (List.append_nil _).symm
  | cons a rest ih => exact (h a).comp ih

theorem adds_lines (texts : List String) : Adds (·.lines texts) (texts.flatMap squash) :=
  adds_foldl adds_line texts

theorem adds_openBlock (header : String) :
    Adds (·.openBlock header) (squash header ++ [Bracket.brace.opening]) := by
  have hopen : squash "\x7b" = [Bracket.brace.opening] := by decide
  intro s
  have hlines := (adds_line header).comp (adds_line "\x7b") s
  rwa [hopen] at hlines

theorem adds_closeBlock (closer : String) : Adds (·.closeBlock closer) (squash closer) := fun s =>
  adds_line closer { s with depth := s.depth - 1 }

/-- A block adds its lines, in braces. -/
theorem adds_fieldBlock (header : String) (fields : List Field) :
    Adds (·.fieldBlock header fields) (squash header ++
      (Bracket.brace.opening :: (fields.flatMap (fun f => squash f.declaration) ++
        [Bracket.brace.closing]) ++ [';'])) := by
  have hblock := ((adds_openBlock header).comp (adds_lines (fields.map Field.declaration))).comp
    (adds_closeBlock "\x7d;")
  have hcloser : squash "\x7d;" = [Bracket.brace.closing, ';'] := by decide
  rw [hcloser, List.flatMap_map] at hblock
  intro s
  simpa only [fieldBlock, List.append_assoc, List.cons_append, List.nil_append] using hblock s

/-- A section adds its title and its items. -/
theorem adds_section {α : Type} {write : α → Source → Source} {added : α → List Char}
    (h : ∀ a, Adds (write a) (added a)) (title : String) (items : List α) :
    Adds (SymbolTable.writeSection title items write)
      (if items.isEmpty then [] else squash title ++ items.flatMap added) := by
  intro s
  rw [SymbolTable.writeSection]
  split
  · exact (List.append_nil _).symm
  · have hall := ((adds_line title).comp (adds_foldl h items)).comp adds_blank s
    simpa using hall

end Source

open Source

/-! ## Texts of declarations -/

/-- The texts that may stand in source for a type. -/
def ValueType.texts (type : ValueType) : List String :=
  type.name :: type.semantic.toList

/-- The texts of a field. -/
def Field.texts (f : Field) : List String :=
  f.name :: f.type.texts

/-- The texts of a struct. -/
def Struct.texts (s : Struct) : List String :=
  s.name :: s.fields.flatMap Field.texts

/-- The texts of a view. -/
def View.texts (v : View) : List String :=
  v.name :: v.type.name :: (v.element.map ValueType.name).toList

/-- The texts of a sampler. -/
def Sampler.texts (s : Sampler) : List String :=
  [s.name, s.type.name]

/-- The texts of a constant buffer. -/
def ConstantBuffer.texts (b : ConstantBuffer) : List String :=
  b.name :: b.fields.flatMap Field.texts

/-- The texts that stand in the declarations of a table. -/
def SymbolTable.texts (t : SymbolTable) : List String :=
  t.accessViews.flatMap View.texts ++ t.resourceViews.flatMap View.texts ++
    t.samplers.flatMap Sampler.texts ++ t.structs.flatMap Struct.texts ++
    t.constantBuffers.flatMap ConstantBuffer.texts ++ t.functions.map Function.source

theorem balanced_register {kind : String} (h : Balanced kind) (slot : UInt32) :
    Balanced (register kind slot) := by
  have hword : Balanced "register" := by decide
  have hgroup := hword.group (h.append (balanced_of_isWord (all_isWord_numeral slot.toNat)))
  have hopen : "register(" = "register" ++ "(" := by decide
  rwa [← hopen, ← String.append_assoc] at hgroup

theorem Field.balanced_declaration {f : Field} (h : ∀ text ∈ f.texts, Balanced text) :
    Balanced f.declaration := by
  simp only [texts, ValueType.texts, List.forall_mem_cons] at h
  obtain ⟨hname, htype, hsemantic⟩ := h
  have hhead : Balanced (f.type.name ++ " " ++ f.name) :=
    (htype.append (by decide)).append hname
  rw [declaration]
  split
  · rename_i semantic hs
    exact ((hhead.append (by decide)).append (hsemantic semantic (by simp [hs]))).append (by decide)
  · exact hhead.append (by decide)

theorem View.balanced_declaration {v : View} (h : ∀ text ∈ v.texts, Balanced text) {kind : String}
    (hk : Balanced kind) : Balanced (v.declaration kind) := by
  simp only [texts, List.forall_mem_cons] at h
  obtain ⟨hname, htype, helement⟩ := h
  have htypeName : Balanced v.typeName := by
    rw [typeName]
    split
    · rename_i element hs
      exact ((htype.append (by decide)).append (helement _ (by simp [hs]))).append (by decide)
    · exact htype
  rw [declaration]
  exact ((((htypeName.append (by decide)).append hname).append (by decide)).append
    (balanced_register hk v.slot)).append (by decide)

theorem Sampler.balanced_declaration {s : Sampler} (h : ∀ text ∈ s.texts, Balanced text) :
    Balanced s.declaration := by
  simp only [texts, List.forall_mem_cons] at h
  obtain ⟨hname, htype, -⟩ := h
  rw [declaration]
  exact ((((htype.append (by decide)).append hname).append (by decide)).append
    (balanced_register (by decide) s.slot)).append (by decide)

theorem adds_view (kind : String) (v : View) :
    Adds (v.write kind) (squash (v.declaration kind)) := adds_line _

theorem adds_sampler (s : Sampler) : Adds s.write (squash s.declaration) := adds_line _

theorem adds_function (f : Function) : Adds f.write (squash f.source) := by
  rw [← flatMap_squash_trimmedLines]
  exact adds_lines _

/-- The characters of a block of fields. -/
def blockChars (header : String) (fields : List Field) : List Char :=
  squash header ++ (Bracket.brace.opening :: (fields.flatMap (fun f => squash f.declaration) ++
    [Bracket.brace.closing]) ++ [';'])

/-- A block is nested if its head and its lines are. -/
theorem nested_blockChars {header : String} (h : Balanced header) {fields : List Field}
    (hf : ∀ text ∈ fields.flatMap Field.texts, Balanced text) :
    Nested (blockChars header fields) := by
  have hlines : Nested (fields.flatMap fun f => squash f.declaration) :=
    Nested.flatMap fun f hmem => balanced_iff_squash.1 <|
      Field.balanced_declaration fun text htext => hf text (List.mem_flatMap.2 ⟨f, hmem, htext⟩)
  have hend : Nested [';'] := by decide
  exact (balanced_iff_squash.1 h).append ((hlines.wrap .brace).append hend)

theorem adds_struct (s : Struct) : Adds s.write (blockChars ("struct " ++ s.name) s.fields) :=
  adds_fieldBlock _ _

theorem adds_buffer (b : ConstantBuffer) :
    Adds b.write (blockChars ("cbuffer " ++ b.name ++ " : " ++ register "b" b.slot) b.fields) :=
  adds_fieldBlock _ _

/-! ## The source -/

/-- A step adds a text that is balanced. -/
def Source.Balances (f : Source → Source) : Prop :=
  ∃ cs, Adds f cs ∧ Nested cs

namespace Source

theorem Balances.comp {f f' : Source → Source} (h : Balances f) (h' : Balances f') :
    Balances (fun s => f' (f s)) := by
  obtain ⟨cs, hadds, hnested⟩ := h
  obtain ⟨cs', hadds', hnested'⟩ := h'
  exact ⟨cs ++ cs', hadds.comp hadds', hnested.append hnested'⟩

theorem Balances.text {f : Source → Source} (h : Balances f) {s : Source} (hs : Balanced s.text) :
    Balanced (f s).text := by
  obtain ⟨cs, hadds, hnested⟩ := h
  rw [balanced_iff_squash, hadds s]
  exact (balanced_iff_squash.1 hs).append hnested

theorem balances_section {α : Type} {write : α → Source → Source} {added : α → List Char}
    (h : ∀ a, Adds (write a) (added a)) {title : String} (ht : Balanced title) {items : List α}
    (hi : ∀ a ∈ items, Nested (added a)) :
    Balances (SymbolTable.writeSection title items write) := by
  refine ⟨_, adds_section h title items, ?_⟩
  split
  · exact nested_nil
  · exact (balanced_iff_squash.1 ht).append (Nested.flatMap hi)

end Source

/-- **The declarations of a table** are balanced if their texts are. -/
theorem SymbolTable.balances_header {t : SymbolTable} (h : ∀ text ∈ t.texts, Balanced text) :
    Balances t.header := by
  simp only [texts, List.forall_mem_append] at h
  obtain ⟨⟨⟨⟨⟨haccess, hresources⟩, hsamplers⟩, hstructs⟩, hbuffers⟩, hfunctions⟩ := h
  -- both kinds of views are declared alike, in registers of different kinds
  have hviews : ∀ (kind title : String) (views : List View), Balanced kind → Balanced title →
      (∀ text ∈ views.flatMap View.texts, Balanced text) →
      Balances (writeSection title views (·.write kind)) := by
    intro kind title views hkind htitle hviews
    refine balances_section (adds_view kind) htitle fun v hv => ?_
    refine balanced_iff_squash.1 (View.balanced_declaration (fun text htext => ?_) hkind)
    exact hviews text (List.mem_flatMap.2 ⟨v, hv, htext⟩)
  have hsamplers : Balances (writeSection "// Samplers" t.samplers Sampler.write) := by
    refine balances_section adds_sampler (by decide) fun s hs => ?_
    refine balanced_iff_squash.1 (Sampler.balanced_declaration fun text htext => ?_)
    exact hsamplers text (List.mem_flatMap.2 ⟨s, hs, htext⟩)
  have hstructs : Balances (writeSection "// Structures" t.structs Struct.write) := by
    refine balances_section adds_struct (by decide) fun s hs => ?_
    have htexts : ∀ text ∈ s.texts, Balanced text := fun text htext =>
      hstructs text (List.mem_flatMap.2 ⟨s, hs, htext⟩)
    rw [Struct.texts, List.forall_mem_cons] at htexts
    exact nested_blockChars (Balanced.append (by decide) htexts.1) htexts.2
  have hbuffers :
      Balances (writeSection "// Constant Buffers" t.constantBuffers ConstantBuffer.write) := by
    refine balances_section adds_buffer (by decide) fun b hb => ?_
    have htexts : ∀ text ∈ b.texts, Balanced text := fun text htext =>
      hbuffers text (List.mem_flatMap.2 ⟨b, hb, htext⟩)
    rw [ConstantBuffer.texts, List.forall_mem_cons] at htexts
    refine nested_blockChars ?_ htexts.2
    exact ((Balanced.append (by decide) htexts.1).append (by decide)).append
      (balanced_register (by decide) b.slot)
  have hfunctions : Balances (writeSection "// Functions" t.functions Function.write) := by
    refine balances_section adds_function (by decide) fun f hf => ?_
    exact balanced_iff_squash.1 (hfunctions f.source (List.mem_map.2 ⟨f, hf, rfl⟩))
  exact ((((((hviews "u" _ _ (by decide) (by decide) haccess).comp
    (hviews "t" _ _ (by decide) (by decide) hresources)).comp hsamplers).comp hstructs).comp
      hbuffers).comp hfunctions)

/-- A body is balanced if its head and its statements are. -/
theorem Body.balances_write {b : Body} (hf : b.failure = none) (hsignature : Balanced b.signature)
    (hs : ∀ st ∈ b.statements, Balanced st.render) : Balances b.write := by
  have hadds := ((adds_openBlock b.signature).comp
    (adds_lines (b.statements.map Statement.render))).comp (adds_closeBlock "\x7d")
  have hcloser : squash "\x7d" = [Bracket.brace.closing] := by decide
  have hwrite : b.write = fun s => (((s.openBlock b.signature).lines
      (b.statements.map Statement.render)).closeBlock "\x7d") := by
    funext s
    simp [write, hf]
  have hlines : Nested (b.statements.flatMap fun st => squash st.render) :=
    Nested.flatMap fun st hst => balanced_iff_squash.1 (hs st hst)
  refine ⟨_, hwrite ▸ hadds, ?_⟩
  have hnested := (balanced_iff_squash.1 hsignature).append (hlines.wrap .brace)
  simpa [hcloser, List.flatMap_map] using hnested

/-- **A source is balanced** if the texts of its declarations and the statements
    of its body are. -/
theorem balanced_sourceText {t : SymbolTable} {b : Body} (ht : ∀ text ∈ t.texts, Balanced text)
    (hf : b.failure = none) (hsignature : Balanced b.signature)
    (hs : ∀ st ∈ b.statements, Balanced st.render) : Balanced (Compiler.sourceText t b) :=
  ((SymbolTable.balances_header ht).comp (Body.balances_write hf hsignature hs)).text
    (s := Source.empty) (by decide)

end Shading
