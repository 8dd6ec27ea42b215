/-
  How often calls are written.

  * `Graph.reads`, `Graph.returns`: how often a node, and the stage output, read
    the value of another node.
  * `Graph.copies`: how often what is made for a node is written.  Once, if it
    has a statement; otherwise once for each copy of each of its readers
    (`IsSchedule.copies_eq`).
  * `sum_copies`: counting the calls of statements counts those of nodes, as
    often as they are copied.
  * `calls_written_copies`: the calls in a body.
-/
import Mathlib.Algebra.BigOperators.Group.Finset.Basic
import Mathlib.Algebra.BigOperators.Ring.List
import Mathlib.Algebra.Ring.Nat
import Shading.Proofs.Calls

namespace Shading

/-! ## Readers -/

namespace Graph

/-- How many of the input pins `is` of a node are linked to the node with a
    given id. -/
def linksFrom (g : Graph) (n : Node) (is : List Nat) (id : String) : Nat :=
  is.countP fun i => (g.linkInto? n i).any (·.source.node == id)

/-- How often a node reads the value of the node with a given id. -/
def reads (g : Graph) (r : TypeRegistry) (n : Node) (id : String) : Nat :=
  g.linksFrom n (n.slots r) id

/-- How often the value of the node with a given id is returned. -/
def returns (g : Graph) (e : EntryPoint) (root : Node) (id : String) : Nat :=
  g.linksFrom root (rootSlots e root) id +
    if !e.outputType.isStruct && !root.kind.isOutput && root.id == id then 1 else 0

section

variable (g : Graph) (r : TypeRegistry) (e : EntryPoint) (inline : Bool) (root : Node)

/-- How often the value of the node with a given id is read in what is written
    for the nodes `ns`, in their order, and returned.  A node that stands alone
    is written once, any other wherever the nodes after it read it. -/
def demand : List Node → String → Nat
  | [], id => g.returns e root id
  | m :: rest, id =>
    demand rest id +
      (if m.standsAlone r e inline then 1 else demand rest m.id) * g.reads r m id

/-- How often what is made for a node is written. -/
def copies (ns : List Node) (n : Node) : Nat :=
  if n.standsAlone r e inline then 1 else g.demand r e inline root ns n.id

end

variable {g : Graph} {r : TypeRegistry} {e : EntryPoint} {inline : Bool} {root : Node}
  {ns : List Node}

theorem demand_append {before after : List Node} {id : String}
    (h : ∀ m ∈ before, g.reads r m id = 0) :
    g.demand r e inline root (before ++ after) id = g.demand r e inline root after id := by
  induction before with
  | nil => rfl
  | cons m before ih =>
    rw [List.forall_mem_cons] at h
    rw [List.cons_append, demand, ih h.2, h.1, Nat.mul_zero, Nat.add_zero]

/-- In a schedule nothing up to a node reads that node. -/
theorem IsSchedule.reads_eq_zero (h : g.IsSchedule root ns) (hids : g.DistinctIds)
    {before after : List Node} {n m : Node} (hsplit : ns = before ++ n :: after)
    (hm : m ∈ before ++ [n]) : g.reads r m n.id = 0 := by
  refine List.countP_eq_zero.2 fun i _ => ?_
  cases hl : g.linkInto? m i with
  | none => simp
  | some l => simpa using h.source_ne hids hsplit hm hl

/-- No other node of a schedule has the id of a node. -/
theorem IsSchedule.sum_eq (h : g.IsSchedule root ns) (hids : g.DistinctIds) {m : Node}
    (hm : m ∈ ns) (f : Node → Nat) :
    (ns.map fun n => (if m.id = n.id then 1 else 0) * f n).sum = f m := by
  have hother : ∀ n, n ≠ m → n ∈ ns → (if m.id = n.id then 1 else 0) * f n = 0 := by
    intro n hne hn
    rw [if_neg, Nat.zero_mul]
    intro hid
    exact hne (hids.eq_of_id ((h.mem_iff n).1 hn).1 ((h.mem_iff m).1 hm).1 hid.symm)
  classical
  rw [List.sum_map_eq_nsmul_single m _ hother, List.count_eq_one_of_mem h.nodup hm]
  simp

theorem IsSchedule.copies_eq_ite (h : g.IsSchedule root ns) (hids : g.DistinctIds)
    {before after : List Node} {n : Node} (hsplit : ns = before ++ n :: after) :
    g.copies r e inline root ns n =
      if n.standsAlone r e inline then 1 else g.demand r e inline root after n.id := by
  have hlist : ns = (before ++ [n]) ++ after := by simp [hsplit]
  rw [copies, hlist, demand_append fun m hm => h.reads_eq_zero hids hsplit hm]

theorem IsSchedule.demand_eq (h : g.IsSchedule root ns) (hids : g.DistinctIds) (id : String) :
    g.demand r e inline root ns id =
      g.returns e root id +
        (ns.map fun m => g.copies r e inline root ns m * g.reads r m id).sum := by
  have key : ∀ after before : List Node, ns = before ++ after →
      g.demand r e inline root after id = g.returns e root id +
        (after.map fun m => g.copies r e inline root ns m * g.reads r m id).sum := by
    intro after
    induction after with
    | nil => intro _ _; rfl
    | cons m after ih =>
      intro before hsplit
      rw [demand, ← h.copies_eq_ite hids hsplit, ih (before ++ [m]) (by simp [hsplit]),
        List.map_cons, List.sum_cons]
      omega
  exact key ns [] rfl

/-- **What is made for a node is written once, or wherever the node is read.** -/
theorem IsSchedule.copies_eq (h : g.IsSchedule root ns) (hids : g.DistinctIds) (n : Node) :
    g.copies r e inline root ns n =
      if n.standsAlone r e inline then 1
      else g.returns e root n.id +
        (ns.map fun m => g.copies r e inline root ns m * g.reads r m n.id).sum := by
  rw [← h.demand_eq hids, copies]

end Graph

/-! ## Counting -/

/-- Items are counted where they are put down.  Each of `ns` has items `own` of
    its own and those that it gets from others, `links` times each; it puts all
    of them down itself, or hands them on.  In the end everyone's own items are
    put down as often as they have been copied. -/
theorem sum_copies {α : Type} (ns : List α) (links : α → α → Nat)
    {all own held copies returned : α → Nat} {alone : α → Bool}
    (hall : ∀ n ∈ ns, all n = own n + (ns.map fun m => links n m * held m).sum)
    (hheld : ∀ n ∈ ns, held n = if alone n then 0 else all n)
    (hcopies : ∀ n ∈ ns, copies n =
      if alone n then 1 else returned n + (ns.map fun m => copies m * links m n).sum) :
    (ns.map fun n => if alone n then all n else 0).sum +
        (ns.map fun n => returned n * held n).sum =
      (ns.map fun n => copies n * own n).sum := by
  have hone : ∀ n ∈ ns,
      (if alone n then all n else 0) + returned n * held n +
          (ns.map fun m => copies m * links m n * held n).sum =
        copies n * own n + (ns.map fun m => copies n * links n m * held m).sum := by
    intro n hn
    have hgets : (ns.map fun m => copies n * links n m * held m).sum =
        copies n * (ns.map fun m => links n m * held m).sum := by
      rw [← List.sum_map_mul_left]
      simp only [Nat.mul_assoc]
    rw [List.sum_map_mul_right, hgets, ← Nat.mul_add, ← hall n hn, hcopies n hn, hheld n hn]
    cases alone n with
    | true => simp
    | false => simp [Nat.add_mul]
  have htotal := congrArg List.sum (List.map_congr_left hone)
  rw [List.sum_map_add, List.sum_map_add, List.sum_map_add] at htotal
  -- what is handed on is what is got
  have hswap : (ns.map fun n => (ns.map fun m => copies m * links m n * held n).sum).sum =
      (ns.map fun n => (ns.map fun m => copies n * links n m * held m).sum).sum := by
    have := Multiset.sum_map_sum_map (ns : Multiset α) (ns : Multiset α)
      (f := fun n m => copies m * links m n * held n)
    simpa only [Multiset.map_coe, Multiset.sum_coe] using this
  omega

namespace Compilation

variable {e : EntryPoint} {g : Graph} {root n : Node} {ns : List Node} {d : Compilation}

/-- The calls in what a node reads, counted by the nodes that it reads. -/
theorem countP_slotCalls (p : Expr → Bool) (hids : g.DistinctIds) (hns : g.IsSchedule root ns)
    (hready : g.Ready ns n) (is : List Nat) :
    (is.flatMap (d.slotCalls g n)).countP p =
      (ns.map fun m => g.linksFrom n is m.id * (d.heldCalls m.id).countP p).sum := by
  have hslot : ∀ i, (d.slotCalls g n i).countP p =
      (ns.map fun m => g.linksFrom n [i] m.id * (d.heldCalls m.id).countP p).sum := by
    intro i
    unfold slotCalls Graph.linksFrom
    cases hl : g.linkInto? n i with
    | none => simp [hl]
    | some l =>
      obtain ⟨m, hm, hnode⟩ := hready i l hl
      have hid := (Graph.mem_of_node? hnode).2
      simpa [hl, ← hid, List.countP_singleton] using
        (hns.sum_eq hids hm fun m => (d.heldCalls m.id).countP p).symm
  induction is with
  | nil => simp [Graph.linksFrom]
  | cons i is ih =>
    have hcons : ∀ id, g.linksFrom n (i :: is) id = g.linksFrom n [i] id + g.linksFrom n is id := by
      intro id
      rw [← List.singleton_append, Graph.linksFrom, List.countP_append]
      rfl
    simp only [List.flatMap_cons, List.countP_append, hcons, Nat.add_mul, List.sum_map_add, ih,
      hslot]

end Compilation

namespace Compiler.Trace

open Compilation

variable {ρ : Type} {k : Compiler ρ} {g : Graph} {e : EntryPoint} {r : Node} {ns : List Node}
  {d : Compilation} {xs : List Operand} (h : k.Trace g e r ns d xs)
include h

theorem registry : d.registry = k.compilation.registry := h.follows.registry

/-- The calls in what the root returns, counted by the nodes that it reads. -/
theorem countP_values (p : Expr → Bool) :
    ((Graph.rootSlots e r).flatMap (d.slotCalls g r) ++
        if !e.outputType.isStruct && !r.kind.isOutput then d.heldCalls r.id else []).countP p =
      (ns.map fun n => g.returns e r n.id * (d.heldCalls n.id).countP p).sum := by
  rw [List.countP_append, countP_slotCalls p h.distinctIds h.schedule
    (h.schedule.ready_of_closed h.closed r)]
  simp only [Graph.returns, Nat.add_mul, List.sum_map_add, Nat.add_left_cancel_iff]
  cases hvalue : !e.outputType.isStruct && !r.kind.isOutput with
  | false => simp
  | true =>
    rw [Bool.and_eq_true, Bool.not_eq_true', Bool.not_eq_true'] at hvalue
    simpa using (h.schedule.sum_eq h.distinctIds (h.root_mem_schedule hvalue.2)
      fun n => (d.heldCalls n.id).countP p).symm

/-- **The calls in a body are those of nodes, as often as these are copied.** -/
theorem calls_perm {b : Body} (hb : b.statements = d.statements ++ d.closing xs) :
    b.calls.Perm (ns.flatMap fun n =>
      (List.replicate (g.copies k.compilation.registry e k.options.inline r ns n)
        (d.ownCallsOf n.id)).flatten) := by
  have hcount : ∀ p, b.calls.countP p = (ns.map fun n =>
      g.copies k.compilation.registry e k.options.inline r ns n *
        (d.ownCallsOf n.id).countP p).sum := by
    intro p
    have hcalls := h.body_calls hb
    rw [h.registry, h.inline] at hcalls
    rw [hcalls, List.countP_append, h.countP_values, List.countP_flatMap]
    simp only [Function.comp_def, apply_ite (List.countP p), List.countP_nil]
    refine sum_copies ns (fun n m => g.reads k.compilation.registry n m.id) ?_ ?_ ?_
    · intro n hn
      rw [(h.tally hn).calls, List.countP_append, countP_slotCalls p h.distinctIds h.schedule
        (h.schedule.ready_of_closed h.closed n), h.registry]
      rfl
    · intro n hn
      rw [(h.tally hn).held, h.registry, h.inline, apply_ite (List.countP p), List.countP_nil]
    · intro n _
      exact h.schedule.copies_eq h.distinctIds n
  classical
  refine List.perm_iff_count.2 fun a => ?_
  rw [List.count_eq_countP, List.count_eq_countP, hcount, List.countP_flatMap]
  simp only [Function.comp_def, List.countP_flatten, List.map_replicate, List.sum_replicate_nat]

theorem declared_ownCalls {n : Node} (hn : n ∈ ns) {function : String} {type : Option String}
    {source : String} (hk : n.kind = .declaredCall function type source) :
    ∃ args, d.ownCallsOf n.id = [.call function args] := by
  obtain ⟨o, ho, hcomposition⟩ := h.composed n hn (by rw [hk]; rfl)
  rw [ownCallsOf, ho]
  exact hcomposition.declared function type source hk

end Compiler.Trace

/-- **How often calls are written.**  Where ids are distinct, the calls in a body
    without hooks are those of the nodes that matter, a declared function's among
    them, each as often as its node is copied.  Without inlining each is written
    once, and so is with inlining that of a struct or for its effect.  With
    inlining a node of any other type is copied wherever it is read: never if it
    is not, and more than once if it is read by two others, or by one that is
    itself copied. -/
theorem calls_written_copies {ρ : Type} (k : Compiler ρ) (hbefore : k.before = [])
    (hafter : k.after = []) (g : Graph) (hids : g.DistinctIds) (root : String) (e : EntryPoint)
    {s : Shader} (hok : (k.generate g root e).result = .ok s) :
    ∃ c b r ns, k.assemble g root e = .ok (c, b) ∧ s = Compiler.shader c b ∧
      s.source = (c.table.header .empty).text ++ b.text ∧
      g.node? root = some r ∧ g.order = .ok ns ∧ g.IsSchedule r (g.schedule r ns) ∧
      let copies := g.copies k.compilation.registry e k.options.inline r (g.schedule r ns)
      b.calls.Perm ((g.schedule r ns).flatMap fun n =>
        (List.replicate (copies n) (c.ownCallsOf n.id)).flatten) ∧
      ∀ n ∈ g.schedule r ns,
        (copies n = if n.standsAlone k.compilation.registry e k.options.inline then 1
          else g.returns e r n.id + ((g.schedule r ns).map fun m =>
            copies m * g.reads k.compilation.registry m n.id).sum) ∧
        ∀ function type source, n.kind = .declaredCall function type source →
          (∃ args, c.ownCallsOf n.id = [.call function args]) ∧
          (k.options.inline = false ∨
            (type.bind k.compilation.registry.parse?).all ValueType.isStruct = true →
            copies n = 1) := by
  obtain ⟨c, b, hassemble, hs⟩ := (k.generate_eq_ok_iff g root e hafter).1 hok
  obtain ⟨r, ns, d, xs, hroot, horder, htrace, hstatements, rfl⟩ :=
    Compiler.exists_trace hbefore hids hassemble
  have hown : ∀ id, d.closed.ownCallsOf id = d.ownCallsOf id := fun id => by
    rw [Compilation.ownCallsOf, Compilation.operation?_closed, Compilation.ownCallsOf]
  refine ⟨_, b, r, ns, hassemble, hs, hs ▸ Compiler.source_of_assemble hassemble, hroot, horder,
    htrace.schedule, ?_, fun n hn => ⟨?_, ?_⟩⟩
  · simp only [hown]
    exact htrace.calls_perm hstatements
  · exact htrace.schedule.copies_eq hids n
  · intro function type source hk
    rw [hown]
    refine ⟨htrace.declared_ownCalls hn hk, fun honce => ?_⟩
    have halone : n.standsAlone k.compilation.registry e k.options.inline = true := by
      rcases honce with hinline | hstruct
      · simp [Node.standsAlone, hk, hinline, NodeKind.isSplit]
      · simp [Node.standsAlone, Node.ownType?, hk, hstruct, NodeKind.isSplit]
    rw [Graph.copies, if_pos halone]

namespace Sample

/-- A call of a declared function, without arguments. -/
def draw (id function : String) : Node :=
  ⟨id, "", .declaredCall function (some "float") "", [⟨"is", "", .output, none, none⟩]⟩

/-- A stage output with three pins. -/
def drawn : Node :=
  ⟨"out", "", .output, [⟨"a", "", .input, none, none⟩, ⟨"b", "", .input, none, none⟩,
    ⟨"c", "", .input, none, none⟩]⟩

/-- Two calls, one for the first two pins and one for the third. -/
def draws : Graph where
  nodes := [draw "twice" "next", draw "never" "skip", drawn]
  links :=
    [⟨"1", ⟨"twice", "is"⟩, ⟨"out", "a"⟩⟩, ⟨"2", ⟨"twice", "is"⟩, ⟨"out", "b"⟩⟩,
      ⟨"3", ⟨"never", "is"⟩, ⟨"out", "c"⟩⟩]

theorem draws_distinctIds : draws.DistinctIds := by
  unfold Graph.DistinctIds
  decide

/-- An entry point with two fields to return. -/
def pair : EntryPoint where
  name := "main"
  input := ⟨"Varying", []⟩
  output := ⟨"Pixel", [⟨"a", .floats 1⟩, ⟨"b", .floats 1⟩]⟩
  definesInput := true
  definesOutput := true

end Sample

/-- With inlining, the call for two fields is written twice, and the other one
    never. -/
theorem calls_written_copies_draws :
    ∃ c b args, (Sample.compiler true []).assemble Sample.draws "out" Sample.pair = .ok (c, b) ∧
      b.calls.Perm [.call "next" args, .call "next" args] := by
  obtain ⟨s, hs⟩ := Sample.exists_ok (r := ((Sample.compiler true []).generate
    Sample.draws "out" Sample.pair).result) (by decide +kernel)
  obtain ⟨c, b, r, ns, hok, -, -, hroot, horder, -, hperm, hnodes⟩ := calls_written_copies
    (Sample.compiler true []) rfl rfl Sample.draws Sample.draws_distinctIds "out" Sample.pair hs
  have hout : Sample.draws.node? "out" = some Sample.drawn := rfl
  have hsorted : Sample.draws.order = .ok Sample.draws.nodes := rfl
  cases hout.symm.trans hroot
  cases hsorted.symm.trans horder
  have hschedule : Sample.draws.schedule Sample.drawn Sample.draws.nodes =
      [Sample.draw "twice" "next", Sample.draw "never" "skip", Sample.drawn] := rfl
  rw [hschedule] at hperm hnodes
  obtain ⟨⟨args, hargs⟩, -⟩ := (hnodes (Sample.draw "twice" "next") (by simp)).2 _ _ _ rfl
  -- the stage output has no calls
  have hlength : ((Sample.compiler true []).assemble Sample.draws "out" Sample.pair).map
      (fun r => (r.1.ownCallsOf "out").length) = .ok 0 := by decide +kernel
  rw [hok] at hlength
  have hempty : c.ownCallsOf Sample.drawn.id = [] :=
    List.length_eq_zero_iff.1 (Except.ok.inj hlength)
  have hcopies : [Sample.draw "twice" "next", Sample.draw "never" "skip"].map
      (Sample.draws.copies (Sample.compiler true []).compilation.registry Sample.pair
        (Sample.compiler true []).options.inline Sample.drawn
        [Sample.draw "twice" "next", Sample.draw "never" "skip", Sample.drawn]) = [2, 0] := by
    decide
  rw [List.map_cons, List.map_cons, List.map_nil, List.cons.injEq, List.cons.injEq] at hcopies
  refine ⟨c, b, args, hok, ?_⟩
  simpa [hcopies, hargs, hempty, List.replicate] using hperm

/-- So a call of a declared function may be made more than once, and not at all:
    here `next` is called for each of two fields, and `skip` for none. -/
theorem declared_call_written_twice :
    ((Sample.compiler false []).assemble Sample.draws "out" Sample.pair).map
      (·.2.statements.map Statement.render) =
      .ok ["float next0 = next();", "float skip0 = skip();", "Pixel pixel;", "pixel.a = next0;",
        "pixel.b = next0;", "return pixel;"] ∧
    ((Sample.compiler true []).assemble Sample.draws "out" Sample.pair).map
      (·.2.statements.map Statement.render) =
      .ok ["Pixel pixel;", "pixel.a = next();", "pixel.b = next();", "return pixel;"] := by
  refine ⟨by decide +kernel, by decide +kernel⟩

end Shading
