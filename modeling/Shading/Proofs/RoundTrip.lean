/-
  Reading a request from its own text gives the request back.

  The text of a request spells its JSON value (`spells_render`), if its numbers
  are finite and so have a text.  The members of that value are the fields of
  the records that are read, each of them once, so that every record is read
  field by field (`Record.Reads.field`).
-/
import Shading.Proofs.Decimals
import Shading.Proofs.Rendering
import Shading.Proofs.Variants
import Shading.Request.Decode
import Shading.Request.Encode

namespace Shading

namespace Json

open Number

/-! ## Numerals -/

theorem toDigits_head {c : Nat} (h : 0 < c) :
    ∃ d ds, Nat.toDigits 10 c = d :: ds ∧ (digitOf d).val ≠ 0 := by
  induction c using Nat.strongRecOn with
  | _ c ih =>
    by_cases hc : c < 10
    · refine ⟨c.digitChar, [], Nat.toDigits_of_lt_base hc, ?_⟩
      have hdigit : ∀ n, n < 10 → 0 < n → (digitOf n.digitChar).val ≠ 0 := by decide
      exact hdigit c hc h
    · obtain ⟨d, ds, hds, hd⟩ := ih (c / 10) (by omega) (by omega)
      refine ⟨d, ds ++ [(c % 10).digitChar], ?_, hd⟩
      rw [Nat.toDigits_of_base_le (by omega) (by omega), hds]
      rfl

namespace Numeral

theorem proper_ofDecimal (negative : Bool) {c : Nat} {k : Int} (h : c = 0 → k = 0) :
    (ofDecimal negative c k).Proper := by
  refine ⟨?_, fun _ _ he => by cases he⟩
  by_cases hc : c = 0
  · obtain rfl := hc
    obtain rfl := h rfl
    exact ⟨digitOf '0', [], rfl, fun _ => rfl⟩
  · obtain ⟨d, ds, hds, hd⟩ := toDigits_head (Nat.pos_of_ne_zero hc)
    by_cases hk : 0 ≤ k
    · refine ⟨digitOf d, (ds ++ List.replicate k.toNat '0').map digitOf, ?_, fun h => absurd h hd⟩
      simp [ofDecimal, places, hk, hds]
    · have hwhole : (ofDecimal negative c k).whole =
          ((List.replicate ((-k).toNat + 1 - (ds.length + 1)) '0' ++ d :: ds).take
            ((-k).toNat + 1 - (ds.length + 1) + (ds.length + 1) - (-k).toNat)).map digitOf := by
        simp only [ofDecimal, places, hk, if_false, List.splitAt_eq, hds, List.length_append,
          List.length_replicate, List.length_cons]
      by_cases hlong : (-k).toNat ≤ ds.length
      · -- no zeros are put in front of the digits
        obtain ⟨n, hn⟩ : ∃ n, ds.length + 1 - (-k).toNat = n + 1 :=
          ⟨ds.length - (-k).toNat, by omega⟩
        rw [show (-k).toNat + 1 - (ds.length + 1) = 0 by omega, Nat.zero_add, hn] at hwhole
        exact ⟨digitOf d, (ds.take n).map digitOf, hwhole, fun h => absurd h hd⟩
      · -- the one digit before the point is a zero
        obtain ⟨n, hn⟩ : ∃ n, (-k).toNat + 1 - (ds.length + 1) = n + 1 :=
          ⟨(-k).toNat - ds.length - 1, by omega⟩
        rw [show (-k).toNat + 1 - (ds.length + 1) + (ds.length + 1) - (-k).toNat = 1 by omega,
          hn] at hwhole
        exact ⟨digitOf '0', [], hwhole, fun _ => rfl⟩

theorem proper_ofSingle {x : Single} (h : x.isFinite = true) : (ofSingle x).Proper := by
  by_cases hzero : x.magnitude.mantissa = 0
  · rw [ofSingle_zero hzero]
    exact proper_ofDecimal _ fun _ => rfl
  · obtain ⟨hlow, hhigh, hmin, hmax⟩ := widened_spec (Single.holds_magnitude h) hzero
    obtain ⟨c, k, heq, hc, -⟩ := shortest_spec hlow hhigh hmin hmax
    rw [ofSingle_widened hzero, heq]
    exact proper_ofDecimal _ fun hzero => absurd hzero (Nat.ne_of_gt hc)

end Numeral

theorem properItems_map {α : Type} {f : α → Json} {as : List α} (h : ∀ a ∈ as, Proper (f a)) :
    ProperItems (as.map f) := by
  induction as with
  | nil => trivial
  | cons a as ih =>
    exact ⟨h a (List.mem_cons_self ..), ih fun b hb => h b (List.mem_cons_of_mem _ hb)⟩

theorem proper_optionalText (o : Option String) : Proper (.optionalText o) := by
  cases o <;> trivial

/-! ## Readers -/

/-- The members of an object as a reader meets them. -/
def entries (ms : List (String × Json)) : List (Quoted × Draft) :=
  ms.map fun m => (.ok m.1, Draft.ofJson m.2)

theorem Draft.ofJson_object (ms : List (String × Json)) :
    Draft.ofJson (.object ms) = .objectOf (entries ms) := by
  have hmembers : Members.ofJson ms = .closed (entries ms) := by
    induction ms with
    | nil => rfl
    | cons m ms ih =>
      rw [Members.ofJson, ih]
      rfl
  rw [Draft.ofJson, hmembers, Draft.objectOf]

theorem Draft.ofJson_array (vs : List Json) :
    Draft.ofJson (.array vs) = .arrayOf (vs.map Draft.ofJson) := by
  have hitems : Items.ofJson vs = .closed (vs.map Draft.ofJson) := by
    induction vs with
    | nil => rfl
    | cons v vs ih =>
      rw [Items.ofJson, ih]
      rfl
  rw [Draft.ofJson, hitems, Draft.arrayOf]

theorem passable_entries (names : List String) (ms : List (String × Json)) :
    Passable names (entries ms) := by
  intro m hm
  obtain ⟨⟨name, v⟩, -, rfl⟩ := List.mem_map.1 hm
  exact ⟨name, rfl, fun _ => Draft.skip?_of_isWhole _ (Draft.isWhole_ofJson v)⟩

@[simp] theorem Reader.string_ofJson (s : String) : Reader.string (.ofJson (.string s)) = .ok s :=
  rfl

@[simp] theorem Reader.bool_ofJson (b : Bool) : Reader.bool (.ofJson (.bool b)) = .ok b :=
  rfl

@[simp] theorem Reader.option_ofJson (o : Option String) :
    Reader.string.option (.ofJson (.optionalText o)) = .ok o := by
  cases o <;> rfl

theorem Reader.single_ofSingle {x : Single} (h : x.isFinite = true) :
    Reader.single (.ofJson (.ofSingle x)) = .ok x := by
  obtain ⟨hrange, hvalue⟩ := Numeral.toSingle_ofSingle h
  rw [Json.ofSingle, if_pos h]
  simp only [Draft.ofJson, Reader.single, hrange, if_true, hvalue]

theorem Reader.items_closed {α : Type} {r : Reader α} {f : α → Draft} {as : List α}
    (h : ∀ a ∈ as, r (f a) = .ok a) : items r (.closed (as.map f)) = .ok as := by
  induction as with
  | nil => rfl
  | cons a as ih =>
    exact bind_ok_iff.2 ⟨a, h a (List.mem_cons_self ..), bind_ok_iff.2
      ⟨as, ih fun b hb => h b (List.mem_cons_of_mem _ hb), rfl⟩⟩

theorem Reader.list_ofJson {α : Type} {r : Reader α} {f : α → Json} {as : List α}
    (h : ∀ a ∈ as, r (.ofJson (f a)) = .ok a) : r.list (.ofJson (.array (as.map f))) = .ok as := by
  rw [Draft.ofJson_array, List.map_map]
  exact items_closed h

namespace Record

variable {α β : Type}

theorem Reads.ofJson {p : Record α} {ms : List (String × Json)} {a : α} (h : p.Reads (entries ms) a)
    (expected : String) : p.read expected (.ofJson (.object ms)) = .ok a := by
  rw [Draft.ofJson_object]
  exact h

theorem reads_entries_const (a : α) (ms : List (String × Json)) : (const a).Reads (entries ms) a :=
  reads_const.2 ⟨passable_entries [] ms, rfl⟩

/-- One more field, which is read from the only member of its name. -/
theorem Reads.field {p : Record (α → β)} [p.Lawful] {name : String} {r : Reader α} [r.Strict]
    {absent : Option α} {ms : List (String × Json)} {f : α → β} {a : α}
    (hp : p.Reads (entries ms) f) (hname : name ∉ p.names)
    (hread : (valuesOf name (entries ms)).map r = [.ok a]) :
    (p.apply (fieldOr name r absent)).Reads (entries ms) (f a) := by
  have hne : ∀ key ∈ p.names, key ∉ (fieldOr name r absent).names := by
    intro key hkey hmem
    obtain rfl : key = name := List.mem_singleton.1 hmem
    exact hname hkey
  obtain ⟨v, hv, hr⟩ := List.map_eq_singleton_iff.1 hread
  exact (reads_apply hne).2
    ⟨f, a, hp, reads_fieldOr.2 ⟨passable_entries _ ms, .inr ⟨v, hv, hr⟩⟩, rfl⟩

end Record

end Json

open Json (Draft Reader Record Proper entries)

namespace Signature

theorem Field.proper_toJson (f : Field) : Proper f.toJson :=
  ⟨trivial, trivial, Json.proper_optionalText _, trivial⟩

@[simp] theorem Field.read_toJson (f : Field) (expected : String) :
    Field.record.read expected (.ofJson f.toJson) = .ok f := by
  refine Record.Reads.ofJson ?_ expected
  exact (Record.reads_entries_const Field.mk _)
    |>.field (by simp) (by simp [entries])
    |>.field (by simp) (by simp [entries])
    |>.field (by simp) (by simp [entries])

theorem proper_toJson (s : Signature) : Proper s.toJson :=
  ⟨trivial, Json.properItems_map fun f _ => f.proper_toJson, trivial⟩

@[simp] theorem read_toJson (s : Signature) (expected : String) :
    Signature.record.read expected (.ofJson s.toJson) = .ok s := by
  have hfields : (Reader.list (Field.record.read "struct FieldDesc"))
      (.ofJson (.array (s.fields.map Field.toJson))) = .ok s.fields :=
    Reader.list_ofJson fun f _ => f.read_toJson _
  refine Record.Reads.ofJson ?_ expected
  exact (Record.reads_entries_const Signature.mk _)
    |>.field (by simp) (by simp [entries])
    |>.field (by simp) (by simp [entries, hfields])

end Signature

theorem Options.proper_toJson (o : Options) : Proper o.toJson :=
  ⟨trivial, trivial, trivial⟩

@[simp] theorem Options.read_toJson (o : Options) (expected : String) :
    Options.record.read expected (.ofJson o.toJson) = .ok o := by
  refine Record.Reads.ofJson ?_ expected
  exact (Record.reads_entries_const Options.mk _)
    |>.field (by simp) (by simp [entries])
    |>.field (by simp) (by simp [entries])

/-! ## Graphs -/

theorem Pin.proper_toJson (p : Pin) : Proper p.toJson := by
  have hside : Proper p.side.toJson := by
    cases p.side <;> trivial
  exact ⟨trivial, trivial, hside, Json.proper_optionalText _, Json.proper_optionalText _, trivial⟩

@[simp] theorem PinSide.read_toJson (s : PinSide) :
    Reader.choice PinSide.cases (.ofJson s.toJson) = .ok s := by
  cases s <;> rfl

@[simp] theorem Pin.read_toJson (p : Pin) (expected : String) :
    Pin.record.read expected (.ofJson p.toJson) = .ok p := by
  refine Record.Reads.ofJson ?_ expected
  exact (Record.reads_entries_const Pin.mk _)
    |>.field (by simp) (by simp [entries])
    |>.field (by simp) (by simp [entries])
    |>.field (by simp) (by simp [entries])
    |>.field (by simp) (by simp [entries])
    |>.field (by simp) (by simp [entries])

namespace NodeKind

instance : NodeKind.read.Strict :=
  inferInstanceAs (Reader.Strict (Json.Variant.read _ _ _ _))

/-- The number of a conversion is finite. -/
def IsFinite (k : NodeKind) : Prop :=
  ∀ x, k = .convert x → x.isFinite = true

theorem proper_toJson {k : NodeKind} (h : k.IsFinite) : Proper k.toJson := by
  have hfields : Json.ProperMembers k.fields := by
    cases k with
    | convert x =>
      have hfinite := h x rfl
      refine ⟨?_, trivial⟩
      rw [Json.ofSingle, if_pos hfinite]
      exact Json.Numeral.proper_ofSingle hfinite
    | declaredCall function type source =>
      exact ⟨trivial, Json.proper_optionalText _, trivial, trivial⟩
    | texture | input | output => trivial
    | voidCall _ | pack _ | split _ | constant _ => exact ⟨trivial, trivial⟩
    | operator _ _ | call _ _ | mask _ _ => exact ⟨trivial, trivial, trivial⟩
  exact ⟨trivial, hfields⟩

theorem sound_fields {k : NodeKind} (h : k.IsFinite) :
    ∀ m ∈ entries k.fields, ∃ key, m.1 = .ok key ∧ key ≠ "type" ∧ m.2.sound? nesting = none := by
  cases k with
  | convert x =>
    have hfinite := h x rfl
    have hrange := (Json.Numeral.toSingle_ofSingle hfinite).1
    simp [entries, fields, Json.ofSingle, hfinite, Draft.ofJson, Draft.sound?, hrange]
  | declaredCall function type source =>
    cases type <;> simp [entries, fields, Json.optionalText, Draft.ofJson, Draft.sound?]
  | _ => simp [entries, fields, Draft.ofJson, Draft.sound?]

/-- The fields of a kind are read as that kind. -/
theorem variant_fields {k : NodeKind} (h : k.IsFinite) :
    ∃ v, cases.lookup k.label = some v ∧ v (.members (.closed (entries k.fields))) = .ok k := by
  cases k with
  | texture => exact ⟨_, rfl, rfl⟩
  | input => exact ⟨_, rfl, rfl⟩
  | output => exact ⟨_, rfl, rfl⟩
  | operator op type =>
    refine ⟨_, rfl, ?_⟩
    exact (Record.reads_entries_const NodeKind.operator _)
      |>.field (by simp) (by simp [entries, fields])
      |>.field (by simp) (by simp [entries, fields])
  | call function type =>
    refine ⟨_, rfl, ?_⟩
    exact (Record.reads_entries_const NodeKind.call _)
      |>.field (by simp) (by simp [entries, fields])
      |>.field (by simp) (by simp [entries, fields])
  | voidCall function =>
    refine ⟨_, rfl, ?_⟩
    exact (Record.reads_entries_const NodeKind.voidCall _)
      |>.field (by simp) (by simp [entries, fields])
  | declaredCall function type source =>
    refine ⟨_, rfl, ?_⟩
    exact (Record.reads_entries_const NodeKind.declaredCall _)
      |>.field (by simp) (by simp [entries, fields])
      |>.field (by simp) (by simp [entries, fields])
      |>.field (by simp) (by simp [entries, fields])
  | convert x =>
    refine ⟨_, rfl, ?_⟩
    exact (Record.reads_entries_const NodeKind.convert _)
      |>.field (by simp) (by simp [entries, fields, Reader.single_ofSingle (h x rfl)])
  | mask components type =>
    refine ⟨_, rfl, ?_⟩
    exact (Record.reads_entries_const NodeKind.mask _)
      |>.field (by simp) (by simp [entries, fields])
      |>.field (by simp) (by simp [entries, fields])
  | pack type =>
    refine ⟨_, rfl, ?_⟩
    exact (Record.reads_entries_const NodeKind.pack _)
      |>.field (by simp) (by simp [entries, fields])
  | split type =>
    refine ⟨_, rfl, ?_⟩
    exact (Record.reads_entries_const NodeKind.split _)
      |>.field (by simp) (by simp [entries, fields])
  | constant type =>
    refine ⟨_, rfl, ?_⟩
    exact (Record.reads_entries_const NodeKind.constant _)
      |>.field (by simp) (by simp [entries, fields])

theorem read_toJson {k : NodeKind} (h : k.IsFinite) : NodeKind.read (.ofJson k.toJson) = .ok k := by
  obtain ⟨v, hv, hread⟩ := variant_fields h
  have hsound := sound_fields h
  have hvalues : Json.valuesOf "type" (entries k.fields) = [] := by
    rw [Json.valuesOf, List.filterMap_eq_nil_iff]
    intro m hm
    obtain ⟨key, hkey, hne, -⟩ := hsound m hm
    simp [hkey, hne]
  have hothers : Json.others "type" (entries k.fields) = entries k.fields := by
    refine List.filter_eq_self.2 fun m hm => ?_
    obtain ⟨key, hkey, hne, -⟩ := hsound m hm
    simp [Json.isNamed, hkey, hne]
  have hentries : entries (("type", .string k.label) :: k.fields) =
      (.ok "type", .string (.ok k.label)) :: entries k.fields := rfl
  rw [toJson, Draft.ofJson_object, hentries]
  refine Json.Variant.read_object_iff.2 ⟨k.label, v, ?_, hv, ?_, ?_⟩
  · rw [Json.valuesOf_cons, if_pos rfl, hvalues]
  · refine Json.soundBeside_cons.2 ⟨fun hne => absurd rfl hne, fun m hm => ?_⟩
    obtain ⟨key, hkey, -, hm⟩ := hsound m hm
    exact ⟨key, hkey, fun _ => hm⟩
  · rw [Json.others_cons, if_pos rfl, hothers]
    exact hread

end NodeKind

theorem Node.proper_toJson {n : Node} (h : n.kind.IsFinite) : Proper n.toJson :=
  ⟨trivial, trivial, NodeKind.proper_toJson h, Json.properItems_map fun p _ => p.proper_toJson,
    trivial⟩

theorem Node.read_toJson {n : Node} (h : n.kind.IsFinite) (expected : String) :
    Node.record.read expected (.ofJson n.toJson) = .ok n := by
  have hpins : (Reader.list (Pin.record.read "struct Pin"))
      (.ofJson (.array (n.pins.map Pin.toJson))) = .ok n.pins :=
    Reader.list_ofJson fun p _ => p.read_toJson _
  refine Record.Reads.ofJson ?_ expected
  exact (Record.reads_entries_const Node.mk _)
    |>.field (by simp) (by simp [entries])
    |>.field (by simp) (by simp [entries])
    |>.field (by simp) (by simp [entries, NodeKind.read_toJson h])
    |>.field (by simp) (by simp [entries, hpins])

theorem Endpoint.proper_toJson (e : Endpoint) : Proper e.toJson :=
  ⟨trivial, trivial, trivial⟩

@[simp] theorem Endpoint.read_toJson (e : Endpoint) (expected : String) :
    Endpoint.record.read expected (.ofJson e.toJson) = .ok e := by
  refine Record.Reads.ofJson ?_ expected
  exact (Record.reads_entries_const Endpoint.mk _)
    |>.field (by simp) (by simp [entries])
    |>.field (by simp) (by simp [entries])

theorem Link.proper_toJson (l : Link) : Proper l.toJson :=
  ⟨trivial, l.source.proper_toJson, l.target.proper_toJson, trivial⟩

@[simp] theorem Link.read_toJson (l : Link) (expected : String) :
    Link.record.read expected (.ofJson l.toJson) = .ok l := by
  refine Record.Reads.ofJson ?_ expected
  exact (Record.reads_entries_const Link.mk _)
    |>.field (by simp) (by simp [entries])
    |>.field (by simp) (by simp [entries])
    |>.field (by simp) (by simp [entries])

/-- The numbers of all conversions are finite. -/
def Graph.IsFinite (g : Graph) : Prop :=
  ∀ n ∈ g.nodes, n.kind.IsFinite

theorem Graph.proper_toJson {g : Graph} (h : g.IsFinite) : Proper g.toJson :=
  ⟨Json.properItems_map fun n hn => n.proper_toJson (h n hn),
    Json.properItems_map fun l _ => l.proper_toJson, trivial⟩

theorem Graph.read_toJson {g : Graph} (h : g.IsFinite) (expected : String) :
    Graph.record.read expected (.ofJson g.toJson) = .ok g := by
  have hnodes : (Reader.list (Node.record.read "struct Node"))
      (.ofJson (.array (g.nodes.map Node.toJson))) = .ok g.nodes :=
    Reader.list_ofJson fun n hn => Node.read_toJson (h n hn) _
  have hlinks : (Reader.list (Link.record.read "struct Link"))
      (.ofJson (.array (g.links.map Link.toJson))) = .ok g.links :=
    Reader.list_ofJson fun l _ => l.read_toJson _
  refine Record.Reads.ofJson ?_ expected
  exact (Record.reads_entries_const Graph.mk _)
    |>.field (by simp) (by simp [entries, hnodes])
    |>.field (by simp) (by simp [entries, hlinks])

/-! ## Requests -/

namespace Request

theorem proper_toJson {q : Request} (h : q.graph.IsFinite) : Proper q.toJson :=
  ⟨trivial, trivial, trivial, q.input.proper_toJson, q.output.proper_toJson, trivial, trivial,
    q.options.proper_toJson, Graph.proper_toJson h, trivial⟩

theorem read_toJson {q : Request} (h : q.graph.IsFinite) (expected : String) :
    Request.record.read expected (.ofJson q.toJson) = .ok q := by
  refine Record.Reads.ofJson ?_ expected
  exact (Record.reads_entries_const Request.mk _)
    |>.field (by simp) (by simp [entries])
    |>.field (by simp) (by simp [entries])
    |>.field (by simp) (by simp [entries])
    |>.field (by simp) (by simp [entries])
    |>.field (by simp) (by simp [entries])
    |>.field (by simp) (by simp [entries])
    |>.field (by simp) (by simp [entries])
    |>.field (by simp) (by simp [entries])
    |>.field (by simp) (by simp [entries, Graph.read_toJson h])

end Request

/-- What a record is read from depends on nothing but the value that the text
    spells. -/
theorem Json.Spells.record_ofText {α : Type} {p : Record α} {text : String} {d : Draft}
    (h : Json.Spells text d) (expected : String) :
    p.ofText expected text = p.read expected d := by
  rw [Record.ofText, (Json.spells_iff.1 h).1]
  cases p.read expected d <;> rfl

/-- Reading the text of a request gives the request. -/
theorem Request.ofText_render (q : Request)
    (h : ∀ n ∈ q.graph.nodes, ∀ x, n.kind = .convert x → x.isFinite = true) :
    Request.ofText q.toJson.render = .ok q := by
  rw [Request.ofText, (Json.spells_render (proper_toJson h)).record_ofText]
  exact read_toJson h _

/-- A request with a conversion, with and without its optional texts. -/
def Request.tinted : Request where
  version := "1.0"
  entryName := "main"
  root := "out"
  input := ⟨"Vertex", []⟩
  output := ⟨"Pixel", [⟨"color", "float4", some "SV_Target"⟩, ⟨"depth", "float", none⟩]⟩
  definesInput := true
  definesOutput := false
  options := ⟨true, "say \"hi\"\n"⟩
  graph := ⟨[⟨"tint", "Tint", .declaredCall "tint" none "float3 tint();", []⟩,
    ⟨"wide", "", .convert ⟨0x3DCCCCCD⟩, [⟨"x", "", .input, some "float3", none⟩]⟩],
    [⟨"l", ⟨"tint", "o"⟩, ⟨"wide", "x"⟩⟩]⟩

theorem Request.ofText_render_tinted :
    Request.ofText Request.tinted.toJson.render = .ok Request.tinted := by
  refine Request.ofText_render _ fun n hn x hx => ?_
  rcases List.mem_cons.1 hn with rfl | hn
  · cases hx
  · obtain rfl := List.mem_singleton.1 hn
    cases hx
    rfl

end Shading
