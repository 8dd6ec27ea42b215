/-
  The slots of textures and samplers, where ids are distinct.

  * `Compilation.Slotted`: each texture node has the slot of its place in the
    order in which they are emitted, and samples the texture and the sampler in
    that place.  Every node keeps that (`Slotted.step`).  Slots have 32 bits, so
    up to so many textures have slots of their own.
  * `slots_agree`: so it is at the end of a compilation, where the slots are
    those that the text declares.
-/
import Shading.Proofs.Header
import Shading.Proofs.Inventory

namespace Shading

namespace NodeKind

/-- Whether a node samples a texture. -/
def isTexture : NodeKind → Bool
  | texture => true
  | _ => false

theorem isTexture_iff {k : NodeKind} : k.isTexture = true ↔ k = texture := by
  cases k <;> simp [isTexture]

end NodeKind

theorem Dict.entries_insert {α : Type} {d : Dict α} {key : String} (a : α) (h : key ∉ d.keys) :
    (d.insert key a).entries = d.entries ++ [(key, a)] := by
  have hput : ∀ entries : List (String × α), key ∉ entries.map Prod.fst →
      put key a entries = entries ++ [(key, a)] := by
    intro entries
    induction entries with
    | nil => intro _; rfl
    | cons p rest ih =>
      intro hp
      rw [List.map_cons, List.mem_cons, not_or] at hp
      rw [put, if_neg (Ne.symm hp.1), ih hp.2]
      rfl
  exact hput d.entries h

theorem getElem?_of_prefix {α : Type} {as bs : List α} (h : as <+: bs) {i : Nat} {a : α}
    (ha : as[i]? = some a) : bs[i]? = some a := by
  obtain ⟨hi, rfl⟩ := List.getElem?_eq_some_iff.1 ha
  exact List.prefix_iff_getElem?.1 h i hi

/-- Only a sample brings resources along. -/
theorem Emission.resources_of_not_sample (em : Emission) (h : em.isSample = false)
    (t : SymbolTable) (n : Node) : em.resources t n = t := by
  cases em with
  | sample => cases h
  | nothing | stageInput | value | effect | synonym => rfl

namespace Compilation

variable {c d d' : Compilation} {g : Graph} {n : Node} {em : Emission}

/-- A texture node samples the texture and the sampler in a place, which is its
    slot, where its coordinates are what it reads at its first pin. -/
structure Samples (d : Compilation) (g : Graph) (n : Node) (place : Nat) (v : View) (w : Sampler)
    (x : Operand) : Prop where
  textureSlot : d.textureSlots.get? n.id = some place.toUInt32
  texture : d.table.resourceViews[place]? = some v
  sampler : d.table.samplers[place]? = some w
  coords : d.operandNo g n 0 = .ok x
  definition : (d.operation? n.id).bind Operation.definition? =
    some (.sample v.name w.name x.expr)

/-- After the nodes `ns` the texture nodes among them have the slots from zero
    on, in their order. -/
structure Slotted (g : Graph) (ns : List Node) (d : Compilation) : Prop where
  textureSlots : d.textureSlots.entries =
    ((ns.filter (·.kind.isTexture)).map (·.id)).zipIdx.map (Prod.map id Nat.toUInt32)
  samplerSlots : d.samplerSlots = d.textureSlots
  resourceViews : d.table.resourceViews.map View.slot =
    (List.range (ns.filter (·.kind.isTexture)).length).map Nat.toUInt32
  samplers : d.table.samplers.map Sampler.slot =
    (List.range (ns.filter (·.kind.isTexture)).length).map Nat.toUInt32
  samples : ∀ i n, (ns.filter (·.kind.isTexture))[i]? = some n → ∃ v w x, d.Samples g n i v w x

/-! ## One node -/

theorem Made.isSample {xs : List Operand} (h : c.Made n xs em) :
    em.isSample = n.kind.isTexture := by
  cases h with
  | sample hk | operator hk | convert hk | mask hk | pack hk | split hk | constant hk | input hk
  | output hk | call hk | voidCall hk => rw [hk]; rfl
  | declaredCall hk =>
    rename_i function type source
    rw [hk]
    cases c.typeOf? type <;> rfl

theorem Made.of_texture {xs : List Operand} (h : c.Made n xs em) (hn : n.kind = .texture) :
    ∃ x, xs = [x] ∧ em = .sample x := by
  cases h with
  | sample => exact ⟨_, rfl, rfl⟩
  | operator hk | convert hk | mask hk | pack hk | split hk | constant hk | input hk | output hk
  | call hk | voidCall hk | declaredCall hk => rw [hn] at hk; cases hk

/-- Textures keep their slots and what they sample. -/
theorem Samples.step {m : Node} {i : Nat} {v : View} {w : Sampler} {x : Operand}
    (h : d.Samples g m i v w x) (hem : d.Emitted n em d') (hne : m.id ≠ n.id)
    (hsource : ∀ l, g.linkInto? m 0 = some l → l.source.node ≠ n.id) : d'.Samples g m i v w x := by
  have hfollows := (Follows.refl d).step hem
  constructor
  case textureSlot =>
    rw [hem.textureSlots]
    split
    · rw [Dict.get?_insert, if_neg hne, h.textureSlot]
    · exact h.textureSlot
  case texture => exact getElem?_of_prefix hfollows.resourceViews h.texture
  case sampler => exact getElem?_of_prefix hfollows.samplers h.sampler
  case coords => exact hem.operandNo hsource h.coords
  case definition =>
    obtain ⟨o, ho, hdef⟩ := Option.bind_eq_some_iff.1 h.definition
    obtain ⟨o', ho', hbare⟩ := hem.operation?_ne hne ho
    rw [ho', Option.bind_some, Operation.definition?_of_bare hbare, hdef]

/-- A texture node samples what is added for it. -/
theorem Samples.of_emitted {place : Nat} (hviews : d.table.resourceViews.length = place)
    (hsamplers : d.table.samplers.length = place) {x : Operand} (hx : d.operandNo g n 0 = .ok x)
    (hsource : ∀ l, g.linkInto? n 0 = some l → l.source.node ≠ n.id)
    (hem : d.Emitted n (.sample x) d') :
    d'.Samples g n place (Emission.texture d.table n) (Emission.sampler d.table n) x := by
  subst hviews
  constructor
  case textureSlot =>
    rw [hem.textureSlots, Emission.isSample, if_pos rfl, Dict.get?_insert, if_pos rfl]
  case texture =>
    rw [hem.resourceViews, Emission.resourceViews_sample, List.getElem?_concat_length]
  case sampler =>
    rw [hem.samplers, Emission.samplers_sample, ← hsamplers, List.getElem?_concat_length]
  case coords => exact hem.operandNo hsource hx
  case definition =>
    obtain ⟨o, ho, hbare⟩ := hem.operation?_self rfl
    rw [ho, Option.bind_some, Operation.definition?_of_bare hbare]
    rfl

variable {done : List Node}

theorem Slotted.length_resourceViews (h : d.Slotted g done) :
    d.table.resourceViews.length = (done.filter (·.kind.isTexture)).length := by
  simpa using congrArg List.length h.resourceViews

theorem Slotted.length_samplers (h : d.Slotted g done) :
    d.table.samplers.length = (done.filter (·.kind.isTexture)).length := by
  simpa using congrArg List.length h.samplers

theorem Slotted.keys (h : d.Slotted g done) :
    d.textureSlots.keys = (done.filter (·.kind.isTexture)).map (·.id) := by
  have hfst : Prod.fst ∘ Prod.map (id : String → String) Nat.toUInt32 = Prod.fst := rfl
  rw [Dict.keys, h.textureSlots, List.map_map, hfst, List.zipIdx_map_fst]

/-- Up to the number of slots each texture has one of its own. -/
theorem Slotted.entries (h : d.Slotted g done)
    (hcount : (done.filter (·.kind.isTexture)).length ≤ UInt32.size) :
    d.textureSlots.entries.map (Prod.map id UInt32.toNat) =
      ((done.filter (·.kind.isTexture)).map (·.id)).zipIdx := by
  rw [h.textureSlots, List.map_map]
  refine (List.map_congr_left fun p hp => ?_).trans (List.map_id _)
  have hlt := (List.mem_zipIdx hp).2.1
  rw [List.length_map] at hlt
  have hslot : p.2 < UInt32.size := Nat.lt_of_lt_of_le (by omega) hcount
  exact Prod.ext rfl (UInt32.toNat_ofNat_of_lt' hslot)

/-- **A node that is emitted keeps the slots.** -/
theorem Slotted.step (h : d.Slotted g done) (hne : ∀ m ∈ done, m.id ≠ n.id)
    (hsource : ∀ m ∈ done ++ [n], ∀ l, g.linkInto? m 0 = some l → l.source.node ≠ n.id)
    (hplan : d.plan g n = .ok em) (hem : d.Emitted n em d') : d'.Slotted g (done ++ [n]) := by
  obtain ⟨xs, hxs, hmade⟩ := plan_eq_ok_iff.1 hplan
  have hsample := hmade.isSample
  -- the textures before this node
  have hold : ∀ i m, (done.filter (·.kind.isTexture))[i]? = some m → m ∈ done →
      ∃ v w x, d'.Samples g m i v w x := by
    intro i m hm hmem
    obtain ⟨v, w, x, hsamples⟩ := h.samples i m hm
    exact ⟨v, w, x, hsamples.step hem (hne m hmem) (hsource m (List.mem_append_left _ hmem))⟩
  by_cases htexture : n.kind.isTexture = true
  · have hfilter : (done ++ [n]).filter (·.kind.isTexture) =
        done.filter (·.kind.isTexture) ++ [n] := by
      simp [htexture]
    have hkey : n.id ∉ d.textureSlots.keys := by
      rw [h.keys, List.mem_map]
      rintro ⟨m, hm, hid⟩
      exact hne m (List.mem_filter.1 hm).1 hid
    obtain ⟨x, rfl, rfl⟩ := hmade.of_texture (NodeKind.isTexture_iff.1 htexture)
    rw [Node.slots, NodeKind.isTexture_iff.1 htexture, List.forall₂_cons] at hxs
    have hlast := Samples.of_emitted h.length_resourceViews h.length_samplers hxs.1
      (hsource n (by simp)) hem
    constructor
    case textureSlots =>
      rw [hem.textureSlots, Emission.isSample, if_pos rfl, Dict.entries_insert _ hkey, hfilter,
        h.textureSlots, h.length_resourceViews, List.map_append, List.zipIdx_append,
        List.map_append]
      simp
    case samplerSlots =>
      rw [hem.textureSlots, hem.samplerSlots, h.samplerSlots, h.length_resourceViews,
        h.length_samplers]
    case resourceViews =>
      rw [hem.resourceViews, Emission.resourceViews_sample, List.map_append, h.resourceViews,
        hfilter, List.length_append, List.range_add]
      simp [Emission.texture, h.length_resourceViews]
    case samplers =>
      rw [hem.samplers, Emission.samplers_sample, List.map_append, h.samplers, hfilter,
        List.length_append, List.range_add]
      simp [Emission.sampler, h.length_samplers]
    case samples =>
      intro i m hm
      rcases getElem?_filter_concat hm with ⟨hm, hmem⟩ | ⟨rfl, rfl, -⟩
      · exact hold i m hm hmem
      · exact ⟨_, _, x, hlast⟩
  · have hfilter : (done ++ [n]).filter (·.kind.isTexture) = done.filter (·.kind.isTexture) := by
      simp [htexture]
    rw [Bool.not_eq_true] at htexture
    rw [htexture] at hsample
    have hresources := em.resources_of_not_sample hsample d.table n
    constructor
    case textureSlots =>
      rw [hem.textureSlots, hsample, hfilter]
      exact h.textureSlots
    case samplerSlots =>
      rw [hem.textureSlots, hem.samplerSlots, hsample]
      exact h.samplerSlots
    case resourceViews => rw [hem.resourceViews, hresources, hfilter, h.resourceViews]
    case samplers => rw [hem.samplers, hresources, hfilter, h.samplers]
    case samples =>
      intro i m hm
      rw [hfilter] at hm
      exact hold i m hm (List.mem_filter.1 (List.mem_of_getElem? hm)).1

theorem Slotted.closed {ns : List Node} (h : d.Slotted g ns) : d.closed.Slotted g ns := by
  obtain ⟨identifiers, hclosed⟩ := d.closed_eq
  rw [hclosed]
  refine ⟨h.textureSlots, h.samplerSlots, h.resourceViews, h.samplers, fun i n hn => ?_⟩
  obtain ⟨v, w, x, hs⟩ := h.samples i n hn
  exact ⟨v, w, x, hs.textureSlot, hs.texture, hs.sampler, hs.coords, hs.definition⟩

/-- The text of what a texture node defines, and the slots of its resources. -/
theorem Slotted.texture {ns : List Node} (h : d.Slotted g ns) {i : Nat} {n : Node}
    (hn : (ns.filter (·.kind.isTexture))[i]? = some n) :
    ∃ v w x o, d.Samples g n i v w x ∧ v.slot = i.toUInt32 ∧ w.slot = i.toUInt32 ∧
      d.operation? n.id = some o ∧
      o.definitionText = v.name ++ ".Sample(" ++ w.name ++ ", " ++ x.expr.render ++ ")" := by
  obtain ⟨v, w, x, hs⟩ := h.samples i n hn
  obtain ⟨o, ho, hdef⟩ := Option.bind_eq_some_iff.1 hs.definition
  have hi := (List.getElem?_eq_some_iff.1 hn).1
  have hview := congrArg (·[i]?) h.resourceViews
  have hsampler := congrArg (·[i]?) h.samplers
  simp only [List.getElem?_map, hs.texture, hs.sampler, Option.map_some, List.getElem?_range hi,
    Option.some.injEq] at hview hsampler
  refine ⟨v, w, x, o, hs, hview, hsampler, ho, ?_⟩
  rw [Operation.definitionText, hdef]
  rfl

end Compilation

namespace Compiler.Trace

open Compilation

variable {ρ : Type} {k : Compiler ρ} {g : Graph} {e : EntryPoint} {r : Node} {ns : List Node}
  {d : Compilation} {xs : List Operand} (h : k.Trace g e r ns d xs)
include h

theorem accessViews : d.table.accessViews = [] :=
  h.follows.accessViews.trans (stage_resources_of_nil h.noHooks h.reserved).1

end Compiler.Trace

end Shading
