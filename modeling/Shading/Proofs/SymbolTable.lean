/-
  Symbol tables and what may be done to them.

  * `SymbolTable.Change`: the operations through which a table is changed.  A
    hook that only uses these is `Proper`, and keeps what they keep
    (`runHooks_induct`).
  * `SymbolTable.Lawful`: the names taken for functions are taken.  Changes keep
    a table lawful, hence so do hooks (`lawful_runHooks`).
  * `Reserved`: the table after the names of the functions of nodes are taken
    (`reserveMethods_spec`), which fails exactly if one of them means something
    else (`reserveMethods_isOk_iff`).
-/
import Mathlib.Logic.Relation
import Shading.Proofs.Names

namespace Shading

namespace SymbolTable

/-! ## Changes -/

/-- One change of a table through its operations. -/
inductive Change : SymbolTable → SymbolTable → Prop
  | claim (t name) : Change t (t.claim name)
  | addOperation (t o) : Change t (t.addOperation o)
  | addStruct (t s) : Change t (t.addStruct s)
  | addResourceView (t name type element) : Change t (t.addResourceView name type element)
  | addAccessView (t name type element) : Change t (t.addAccessView name type element)
  | addSampler (t name type) : Change t (t.addSampler name type)
  | addConstantBuffer (t name fields) : Change t (t.addConstantBuffer name fields)
  | reserveMethod {t t' name} : (reserveMethod name).run t = .ok () t' → Change t t'
  | defineMethod {t t' name source new} :
    (defineMethod name source).run t = .ok new t' → Change t t'
  | addUse (t name consumer) : Change t (t.addUse name consumer)
  | clear (t) : Change t .empty

/-- The names taken for functions are among the names taken. -/
def Lawful (t : SymbolTable) : Prop :=
  ∀ name, t.methods.contains name = true → t.taken name = true

theorem lawful_empty : Lawful .empty := by
  intro name h
  simp [empty] at h

theorem Lawful.of_taken {t t' : SymbolTable} (h : t.Lawful) (hm : t'.methods = t.methods)
    (ht : ∀ name, t.taken name = true → t'.taken name = true) : t'.Lawful :=
  fun name hname => ht name (h name (hm ▸ hname))

theorem contains_insert (s : Std.ExtTreeSet String) (a b : String) :
    (s.insert a).contains b = (a == b || s.contains b) :=
  taken_claim ⟨s, ∅, [], [], [], [], [], [], []⟩ a b

theorem taken_of_taken_claim {t : SymbolTable} {a b : String} (h : t.taken b = true) :
    (t.claim a).taken b = true := by
  rw [taken_claim, h, Bool.or_true]

theorem run_reserveMethod (t : SymbolTable) (name : String) :
    (reserveMethod name).run t =
      if t.methods.contains name then .ok () t
      else if t.taken name then .error (.nameTaken name) t
      else .ok () { t.claim name with methods := t.methods.insert name } := by
  simp only [reserveMethod, EStateM.run_bind, EStateM.run_get]
  split
  · rfl
  · split <;> rfl

/-- A name can be taken for a function if it is so already or not taken. -/
theorem reserveMethod_eq_ok_iff {t t' : SymbolTable} {name : String} :
    (reserveMethod name).run t = .ok () t' ↔
      (t.methods.contains name = true ∧ t = t') ∨
      (t.methods.contains name = false ∧ t.taken name = false ∧
        { t.claim name with methods := t.methods.insert name } = t') := by
  rw [run_reserveMethod]
  by_cases hm : t.methods.contains name = true
  · simp [hm]
  · by_cases ht : t.taken name = true
    · simp [hm, ht]
    · simp [hm, ht]

/-- A name that means something else is refused before the table is changed. -/
theorem reserveMethod_eq_error_iff {t t' : SymbolTable} {name : String} {cause : Cause} :
    (reserveMethod name).run t = .error cause t' ↔
      (t.methods.contains name = false ∧ t.taken name = true) ∧
        cause = .nameTaken name ∧ t = t' := by
  rw [run_reserveMethod]
  by_cases hm : t.methods.contains name = true
  · simp [hm]
  · by_cases ht : t.taken name = true
    · simp [hm, ht, eq_comm]
    · simp [hm, ht]

theorem run_defineMethod (t : SymbolTable) (name source : String) :
    (defineMethod name source).run t =
      if t.hasFunction name then .ok false t
      else
        match (reserveMethod name).run t with
        | .ok _ u => .ok true { u with functions := u.functions ++ [⟨name, source⟩] }
        | .error cause u => .error cause u := by
  simp only [defineMethod, EStateM.run_bind, EStateM.run_get]
  split
  · rfl
  · rw [EStateM.run_bind]
    cases (reserveMethod name).run t <;> rfl

theorem defineMethod_eq_ok_iff {t t' : SymbolTable} {name source : String} {new : Bool} :
    (defineMethod name source).run t = .ok new t' ↔
      (t.hasFunction name = true ∧ new = false ∧ t = t') ∨
      (t.hasFunction name = false ∧ new = true ∧ ∃ u, (reserveMethod name).run t = .ok () u ∧
        { u with functions := u.functions ++ [⟨name, source⟩] } = t') := by
  rw [run_defineMethod]
  by_cases hf : t.hasFunction name = true
  · simp [hf, eq_comm]
  · cases (reserveMethod name).run t <;> simp [hf, eq_comm]

theorem defineMethod_eq_error_iff {t t' : SymbolTable} {name source : String} {cause : Cause} :
    (defineMethod name source).run t = .error cause t' ↔
      t.hasFunction name = false ∧ (reserveMethod name).run t = .error cause t' := by
  rw [run_defineMethod]
  by_cases hf : t.hasFunction name = true
  · simp [hf]
  · cases (reserveMethod name).run t <;> simp [hf]

/-- A function that is refused leaves the table as it was. -/
theorem eq_of_defineMethod_error {t t' : SymbolTable} {name source : String} {cause : Cause}
    (h : (defineMethod name source).run t = .error cause t') : t = t' :=
  (reserveMethod_eq_error_iff.1 (defineMethod_eq_error_iff.1 h).2).2.2

/-- What a table is after names of functions are taken. -/
structure Reserved (t : SymbolTable) (names : List String) (t' : SymbolTable) : Prop where
  eq : t' = { t with identifiers := t'.identifiers, methods := t'.methods }
  taken : ∀ name, t'.taken name = (t.taken name || names.contains name)
  methods : ∀ name, t'.methods.contains name = (t.methods.contains name || names.contains name)

theorem Reserved.refl (t : SymbolTable) : Reserved t [] t :=
  ⟨rfl, by simp, by simp⟩

theorem Reserved.trans {t u t' : SymbolTable} {names more : List String} (h : Reserved t names u)
    (h' : Reserved u more t') : Reserved t (names ++ more) t' := by
  refine ⟨?_, fun x => ?_, fun x => ?_⟩
  · rw [h'.eq, h.eq]
  · rw [h'.taken, h.taken, List.contains_append, Bool.or_assoc]
  · rw [h'.methods, h.methods, List.contains_append, Bool.or_assoc]

theorem Reserved.lawful {t t' : SymbolTable} {names : List String} (h : Reserved t names t')
    (hl : t.Lawful) : t'.Lawful := by
  intro name hname
  rw [h.methods, Bool.or_eq_true] at hname
  rw [h.taken, Bool.or_eq_true]
  exact hname.imp (hl name) id

theorem reserveMethod_spec {t u : SymbolTable} {name : String} (h : t.Lawful)
    (hu : (reserveMethod name).run t = .ok () u) : Reserved t [name] u := by
  rcases reserveMethod_eq_ok_iff.1 hu with ⟨hm, rfl⟩ | ⟨-, -, rfl⟩
  · refine ⟨rfl, fun x => ?_, fun x => ?_⟩
    · by_cases hx : x = name
      · simp [hx, h name hm]
      · simp [hx]
    · by_cases hx : x = name
      · simp [hx, hm]
      · simp [hx]
  · refine ⟨rfl, fun x => ?_, fun x => ?_⟩
    · rw [Bool.or_comm, List.contains_cons, List.contains_nil, Bool.or_false, BEq.comm]
      exact taken_claim t name x
    · rw [Bool.or_comm, List.contains_cons, List.contains_nil, Bool.or_false, BEq.comm]
      exact contains_insert t.methods name x

/-- **Changes keep a table lawful.** -/
theorem Change.lawful {t t' : SymbolTable} (hc : Change t t') (h : t.Lawful) : t'.Lawful := by
  cases hc with
  | claim | addStruct | addResourceView | addAccessView | addSampler | addConstantBuffer =>
    exact h.of_taken rfl fun _ => taken_of_taken_claim
  | addOperation o =>
    refine h.of_taken (by rw [SymbolTable.addOperation]; split <;> rfl) fun name hname => ?_
    rw [taken_addOperation, hname, Bool.or_true]
  | reserveMethod hr => exact (reserveMethod_spec h hr).lawful h
  | defineMethod hd =>
    rcases defineMethod_eq_ok_iff.1 hd with ⟨-, -, rfl⟩ | ⟨-, -, u, hu, rfl⟩
    · exact h
    · exact ((reserveMethod_spec h hu).lawful h).of_taken rfl fun _ => id
  | addUse => exact h
  | clear => exact lawful_empty

end SymbolTable

/-- A hook that changes a table only through the operations of tables. -/
def Hook.Proper {ρ : Type} (hook : Hook ρ) : Prop :=
  ∀ t, Relation.ReflTransGen SymbolTable.Change t (hook t).1

/-- What every change of a table keeps, hooks keep. -/
theorem runHooks_induct {ρ : Type} {motive : SymbolTable → Prop} {hooks : List (Hook ρ)}
    (hp : ∀ hook ∈ hooks, hook.Proper)
    (step : ∀ t t', SymbolTable.Change t t' → motive t → motive t') {t : SymbolTable}
    (h : motive t) : motive (runHooks hooks t).1 := by
  induction hooks generalizing t with
  | nil => exact h
  | cons hook rest ih =>
    refine ih (fun hook' hmem => hp hook' (List.mem_cons_of_mem _ hmem)) ?_
    have hsteps := hp hook (by simp) t
    generalize (hook t).1 = t' at hsteps
    induction hsteps with
    | refl => exact h
    | tail _ hc ih => exact step _ _ hc ih

theorem lawful_runHooks {ρ : Type} {hooks : List (Hook ρ)} (hp : ∀ hook ∈ hooks, hook.Proper)
    {t : SymbolTable} (h : t.Lawful) : (runHooks hooks t).1.Lawful :=
  runHooks_induct hp (fun _ _ hc => hc.lawful) h

/-! ## Reserving functions -/

namespace SymbolTable

/-- The functions that nodes bring along. -/
def declaredNames (nodes : List Node) : List String :=
  nodes.filterMap fun n =>
    match n.kind with
    | .declaredCall function _ _ => some function
    | _ => none

theorem mem_declaredNames {nodes : List Node} {function : String} :
    function ∈ declaredNames nodes ↔
      ∃ n ∈ nodes, ∃ type? source, n.kind = .declaredCall function type? source := by
  unfold declaredNames
  rw [List.mem_filterMap]
  refine exists_congr fun n => and_congr_right fun _ => ?_
  cases n.kind <;> simp [eq_comm]

/-- Taking names for functions, as far as it goes well. -/
theorem reserveMethods_spec {t t' : SymbolTable} {nodes : List Node} (h : t.Lawful)
    (hr : t.reserveMethods nodes = (t', none)) : Reserved t (declaredNames nodes) t' := by
  induction nodes generalizing t with
  | nil => cases hr; exact .refl _
  | cons n rest ih =>
    unfold reserveMethods at hr
    cases hk : n.kind with
    | declaredCall function type? source =>
      simp only [hk] at hr
      have hnames : declaredNames (n :: rest) = function :: declaredNames rest := by
        simp [declaredNames, hk]
      cases hu : (reserveMethod function).run t with
      | error e u => rw [hu] at hr; cases hr
      | ok _ u =>
        rw [hu] at hr
        have hstep := reserveMethod_spec h hu
        rw [hnames]
        exact hstep.trans (ih (hstep.lawful h) hr)
    | _ =>
      simp only [hk] at hr
      have hnames : declaredNames (n :: rest) = declaredNames rest := by simp [declaredNames, hk]
      rw [hnames]
      exact ih h hr

/-- **The names of functions can be taken exactly if none of them means
    something else.** -/
theorem reserveMethods_isOk_iff {t : SymbolTable} {nodes : List Node} (h : t.Lawful) :
    (∃ t', t.reserveMethods nodes = (t', none)) ↔
      ∀ function ∈ declaredNames nodes,
        t.methods.contains function = true ∨ t.taken function = false := by
  induction nodes generalizing t with
  | nil => simp [reserveMethods, declaredNames]
  | cons n rest ih =>
    unfold reserveMethods
    cases hk : n.kind with
    | declaredCall function type? source =>
      have hnames : declaredNames (n :: rest) = function :: declaredNames rest := by
        simp [declaredNames, hk]
      rw [hnames, List.forall_mem_cons]
      cases hu : (reserveMethod function).run t with
      | error e u =>
        simp only [hu, Prod.mk.injEq, reduceCtorEq, and_false, exists_false, false_iff]
        rintro ⟨hf, -⟩
        obtain ⟨⟨hm, ht⟩, -⟩ := reserveMethod_eq_error_iff.1 hu
        simp [hm, ht] at hf
      | ok _ u =>
        have hstep := reserveMethod_spec h hu
        have hself : t.methods.contains function = true ∨ t.taken function = false :=
          (reserveMethod_eq_ok_iff.1 hu).imp And.left fun hn => hn.2.1
        simp only [hu]
        rw [ih (hstep.lawful h)]
        simp only [hself, true_and, hstep.methods, hstep.taken]
        -- the name just taken is a function's, all others are as before
        refine forall₂_congr fun f _ => ?_
        by_cases hf : f = function
        · subst hf; simpa using hself
        · simp [hf]
    | _ =>
      have hnames : declaredNames (n :: rest) = declaredNames rest := by simp [declaredNames, hk]
      rw [hnames]
      exact ih h

theorem operations_reserveMethods (t : SymbolTable) (nodes : List Node) :
    (t.reserveMethods nodes).1.operations = t.operations := by
  induction nodes generalizing t with
  | nil => rfl
  | cons n rest ih =>
    rw [reserveMethods]
    cases n.kind with
    | declaredCall function type? source =>
      dsimp only
      cases hu : (reserveMethod function).run t with
      | error cause u =>
        obtain ⟨-, -, rfl⟩ := reserveMethod_eq_error_iff.1 hu
        rfl
      | ok _ u =>
        have hsame : u.operations = t.operations := by
          rcases reserveMethod_eq_ok_iff.1 hu with ⟨-, rfl⟩ | ⟨-, -, rfl⟩ <;> rfl
        exact (ih u).trans hsame
    | _ => exact ih t

end SymbolTable

end Shading
