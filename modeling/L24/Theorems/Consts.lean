import L24.Theorems.Scopes

/-! Constants: an assignment to a local constant is rejected; global variables are assigned whatever they were
    declared as. -/

namespace L24
open Ir Relation

/-! ### Local constants -/

/-- The parameters are variables. -/
def Visit.VarParams (v : Visit) : Prop := ∀ scope, v.ctx.locals.getLast? = some scope → ∀ d ∈ scope, d.ty = .var

section Consts
variable {node : EntryNode} {c : Ctx} {s t : State} {x : String} {v : Value} {a : AllocaInst}

variable [ConstantFolder]

theorem Enters.varParams {v w : Visit} (hv : Enters v w) (h : v.VarParams) (hk : v.Keyed) : w.VarParams := by
  obtain ⟨-, hd⟩ := hk
  cases hv with
  | func => simp [Visit.VarParams, Ctx.inFunc]
  | @nextParam i x p ps b c s t w a ha hdef =>
    obtain ⟨scope, hc⟩ := hd
    have hl : (c.declare (p.declared x a)).locals = [p.declared x a :: scope] := by rw [Ctx.declare, hc]
    intro sc hsc d hd
    rw [hl] at hsc
    simp only [List.getLast?_singleton, Option.some.injEq] at hsc
    subst hsc
    rcases List.mem_cons.mp hd with rfl | hd
    · rfl
    · exact h scope (congrArg List.getLast? hc) d hd
  | @nextLocalDef d ds is c s t w w' size vs a hi ha hdef =>
    unfold Visit.VarParams at h ⊢
    rcases hc : c.locals with _ | ⟨scope, _ | ⟨scope', outer⟩⟩
    · simp [hc] at hd
    · simp [hc] at hd
    · simp only [hc, List.getLast?_cons_cons] at h
      simpa [Ctx.declare, hc, List.getLast?_cons_cons] using h
  | @items is c s =>
    unfold Visit.VarParams at h ⊢
    cases hc : c.locals with
    | nil => exact absurd hc hd
    | cons scope outer =>
      rw [hc] at h
      simpa [Ctx.push, hc, List.getLast?_cons_cons] using h
  | _ => exact h

theorem Visited.varParams {v : Visit} (h : Visited node v) : v.VarParams := by
  induction h with
  | refl => simp [Visit.VarParams]
  | tail hv hw ih => exact hw.varParams ih (Visited.keyed hv)

omit [ConstantFolder] in
/-- A search that ends at a constant, in scopes of which only the last one, of variables, has keys of its own. -/
theorem findSome_const : ∀ {scopes : List (List LocalDecl)}, (∀ scope ∈ scopes.dropLast, ∀ d ∈ scope, d.key = d.ident) →
    (∀ scope, scopes.getLast? = some scope → ∀ d ∈ scope, d.ty = .var) →
    ((scopes.map (·.map LocalDecl.entry)).findSome? (List.lookup x) = some (.constVal a) ↔
      ∃ d, scopes.findSome? (·.find? (·.ident == x)) = some d ∧ d.ty = .const ∧ d.alloca = a)
  | [], _, _ => by simp
  | [scope], _, hv => by
    have hv := hv scope rfl
    have hl : List.lookup x (scope.map LocalDecl.entry) ≠ some (.constVal a) := by
      intro h
      obtain ⟨l, r, h, -⟩ := List.lookup_eq_some_iff.mp h
      have hm : (x, NamedValue.constVal a) ∈ scope.map LocalDecl.entry := by simp [h]
      obtain ⟨d, hd, he⟩ := List.mem_map.mp hm
      simp [LocalDecl.entry, hv d hd, ValType.named] at he
    rw [List.map_singleton, List.findSome?_singleton, List.findSome?_singleton]
    refine ⟨fun h => absurd h hl, ?_⟩
    rintro ⟨d, hd, hc, -⟩
    rw [hv d (List.mem_of_find?_eq_some hd)] at hc
    cases hc
  | scope :: scope' :: scopes, hk, hv => by
    have ih := findSome_const (fun sc hsc => hk sc (List.mem_cons_of_mem _ hsc)) hv
    rw [List.map_cons, List.findSome?_cons, List.findSome?_cons, lookup_entries_find (hk scope List.mem_cons_self)]
    cases hf : scope.find? (·.ident == x) with
    | none => exact ih
    | some d =>
      simp only [Option.map_some, Option.some.injEq, exists_eq_left']
      cases hd : d.ty <;> simp [ValType.named]

/-- A search ends at a local constant exactly if the name is bound to one. -/
theorem Visited.lookup_const {C : GenCall} (h : Visited node ⟨C, c, s⟩) (x : String) :
    s.lookup x = some (.constVal a) ↔ ∃ d, c.resolve x = some (.local d) ∧ d.ty = .const ∧ d.alloca = a := by
  have hm : (c.locals.map (·.map LocalDecl.entry)).findSome? (List.lookup x) = some (.constVal a) ↔
      ∃ d, c.local? x = some d ∧ d.ty = .const ∧ d.alloca = a :=
    findSome_const (Visited.keyed h).keys (Visited.varParams h)
  rw [State.lookup, (Visited.valid h).matched.locals, hm]
  unfold Ctx.resolve
  cases c.local? x with
  | some d => simp
  | none => cases c.global? x <;> simp

/-- Where the search ends at a local constant nothing is generated. -/
theorem setValue_constVal {sub : Option Value} (h : s.lookup x = some (.constVal a)) :
    setValue x v sub s = .error (.logError (x ++ " is a const")) (s.log (.assign x sub.isSome (s.storage? x))) := by
  have hl : (s.log (.assign x sub.isSome (s.storage? x))).lookup x = s.lookup x := rfl
  unfold setValue
  rw [bind_of_ok (a := ⟨⟩) (modify_ok.mpr rfl), bind_of_ok (get_ok.mpr ⟨rfl, rfl⟩), hl, h]
  rfl

/-- Elsewhere an assignment is rejected only where the name has no storage. -/
theorem setValue_logs {sub : Option Value} {msg : String} (h : ∀ a, s.lookup x ≠ some (.constVal a))
    (he : setValue x v sub s = .error (.logError msg) t) : msg = undeclared x ∧ s.storage? x = none := by
  have hl : (s.log (.assign x sub.isSome (s.storage? x))).lookup x = s.lookup x := rfl
  unfold setValue at he
  rw [bind_of_ok (a := ⟨⟩) (modify_ok.mpr rfl), bind_of_ok (get_ok.mpr ⟨rfl, rfl⟩), hl] at he
  cases hx : s.lookup x with
  | none =>
    rw [hx] at he
    cases hg : s.global? x with
    | none =>
      have hg' : (s.log (.assign x sub.isSome (s.storage? x))).global? x = none := hg
      have hstop := (EStateM.Result.error.inj ((setGlobalValue_error hg').symm.trans he)).1
      exact ⟨(Stop.logError.inj hstop).symm, by simp [State.storage?, hx, hg]⟩
    | some g => exact absurd he (setGlobalValue_not_logs hg)
  | some nv =>
    rw [hx] at he
    cases nv with
    | constVal a => exact absurd hx (h a)
    | varVal a => exact absurd he unlogged_createSetValueInst.not_logs

end Consts

/-! ### Assignments -/

section
variable [ConstantFolder]

/-- The value and the subscript of an assignment have been generated, in this order. -/
def GenAssign (sub : Option ExprNode) (e : ExprNode) (s : State) (v : Value) (idx : Option Value) (u : State) : Prop :=
  ∃ t, codeGenExp e s = .ok v t ∧ codeGenSubIdx sub t = .ok idx u

/-- The stop at the value or at the subscript of an assignment, if there is one. -/
def assignStop? (sub : Option ExprNode) (e : ExprNode) (s : State) : Option Stop :=
  match e.core.form s, sub with
  | .error stop, _ => some stop
  | .ok _, none => none
  | .ok _, some i => match i.core.form s with
    | .error stop => some stop
    | .ok _ => none

/-- An assignment to a constant stops with `LogError`, and nothing is stored; one to a variable or a parameter is not
    rejected as one to a constant. -/
structure ConstProtected (x : String) (sub : Option ExprNode) (e : ExprNode) (c : Ctx) (s : State) : Prop where
  const : ∀ {b : Binding}, c.resolve x = some b → b.ty = .const → Logs (codeGenStmt (.assign x sub e)) s ∧
    ∀ {v : Value} {idx : Option Value} {u : State}, GenAssign sub e s v idx u →
      ∃ w, setValue x v idx u = .error (.logError (x ++ " is a const")) w ∧ w.blocks = u.blocks
  var : ∀ {b : Binding}, c.resolve x = some b → b.ty = .var → ∀ {v : Value} {idx : Option Value} {u : State},
    GenAssign sub e s v idx u → ∀ w, setValue x v idx u ≠ .error (.logError (x ++ " is a const")) w

section Assign
variable {node : EntryNode} {c : Ctx} {s t : State} {x : String} {sub : Option ExprNode} {e : ExprNode}

theorem codeGenStmt_assign : codeGenStmt (.assign x sub e) = (do
    let v ← codeGenExp e
    let idx ← codeGenSubIdx sub
    L24.setValue x v idx) := by
  rw [codeGenStmt]
  rfl

theorem GenAssign.run {v : Value} {idx : Option Value} (h : GenAssign sub e s v idx t) :
    codeGenStmt (.assign x sub e) s = L24.setValue x v idx t := by
  obtain ⟨u, hv, hi⟩ := h
  rw [codeGenStmt_assign, bind_of_ok hv, bind_of_ok hi]

/-- The value and the subscript are generated, or one of them stops code generation. -/
theorem assign_operands (sub : Option ExprNode) (e : ExprNode) (s : State) : match assignStop? sub e s with
    | some stop => (∀ x, StopsWith (codeGenStmt (.assign x sub e)) stop s) ∧ ∀ v idx u, ¬ GenAssign sub e s v idx u
    | none => ∃ v idx u, GenAssign sub e s v idx u := by
  have hm := codeGenExp_makes (s := s) e
  unfold assignStop?
  cases he : e.core.form s with
  | error stop =>
    rw [he] at hm
    refine ⟨fun x => ?_, ?_⟩
    · rw [codeGenStmt_assign]
      exact StopsWith.bind hm
    · rintro v idx u ⟨t, hv, -⟩
      exact absurd hv (StopsWith.not_ok hm)
  | ok f =>
    rw [he] at hm
    obtain ⟨v, t, hv, -, is, em⟩ := hm
    cases sub with
    | none => exact ⟨v, none, t, t, hv, rfl⟩
    | some i =>
      have hi := codeGenExp_makes (s := t) i
      rw [em.sameScope.form] at hi
      cases hif : i.core.form s with
      | error stop =>
        rw [hif] at hi
        have hsub : StopsWith (codeGenSubIdx (some i)) stop t := StopsWith.bind hi
        simp only [hif]
        refine ⟨fun x => ?_, ?_⟩
        · rw [codeGenStmt_assign]
          exact StopsWith.of_ok hv (StopsWith.bind hsub)
        · rintro w idx u ⟨t', hw, hidx⟩
          obtain ⟨rfl, rfl⟩ := EStateM.Result.ok.inj (hv.symm.trans hw)
          exact absurd hidx hsub.not_ok
      | ok g =>
        rw [hif] at hi
        obtain ⟨w, u, hw, -⟩ := hi
        simp only [hif]
        exact ⟨v, some w, u, t, hv, (bind_of_ok hw).trans rfl⟩

theorem assignStop?_stops {stop : Stop} (h : assignStop? sub e s = some stop) :
    StopsWith (codeGenStmt (.assign x sub e)) stop s := by
  have ho := assign_operands sub e s
  rw [h] at ho
  exact ho.1 x

theorem GenAssign.not_stops {v : Value} {idx : Option Value} (hg : GenAssign sub e s v idx t) :
    assignStop? sub e s = none := by
  have ho := assign_operands sub e s
  cases h : assignStop? sub e s with
  | none => rfl
  | some stop =>
    rw [h] at ho
    exact absurd hg (ho.2 _ _ _)

/-- Where the assignment itself is generated. -/
theorem GenAssign.visited {v : Value} {idx : Option Value} (hv : Visited node ⟨.stmt (.assign x sub e), c, s⟩)
    (h : GenAssign sub e s v idx t) : Visited node ⟨.setValue x v idx, c, t⟩ := by
  obtain ⟨u, he, hi⟩ := h
  exact hv.tail (.setValue he hi)

/-- What is bound has storage. -/
theorem Visited.storage_ne {C : GenCall} {d : GlobalDecl} (h : Visited node ⟨C, c, s⟩)
    (hr : c.resolve x = some (.global d)) :
    s.storage? x ≠ none := by
  obtain ⟨-, g, hg⟩ := (Visited.valid h).matched.resolve_global hr
  unfold State.storage?
  cases s.lookup x <;> simp [hg]

/-- The assignment to a global constant is not rejected: it is protected only where its operands are. -/
theorem ConstProtected.stops {d : GlobalDecl} (hv : Visited node ⟨.stmt (.assign x sub e), c, s⟩)
    (h : ConstProtected x sub e c s) (hr : c.resolve x = some (.global d)) (hd : d.ty = .const) :
    assignStop? sub e s ≠ none := by
  intro hstop
  have ho := assign_operands sub e s
  rw [hstop] at ho
  obtain ⟨v, idx, u, hg⟩ := ho
  have hu := hg.visited hv
  have hconst : ∀ a, u.lookup x ≠ some (.constVal a) := by
    intro a ha
    obtain ⟨d', hr', -⟩ := (hu.lookup_const x).mp ha
    rw [hr] at hr'
    cases hr'
  obtain ⟨msg, w, hl⟩ := (h.const hr hd).1
  rw [hg.run] at hl
  exact hu.storage_ne hr (setValue_logs hconst hl).2

end Assign

/-- Constants are protected exactly where the operands of an assignment to one are generated or rejected with
    `LogError`, and where those of an assignment to a global one are rejected. -/
theorem constProtected_iff {node : EntryNode} {x : String} {sub : Option ExprNode} {e : ExprNode} {c : Ctx} {s : State}
    (hv : Visited node ⟨.stmt (.assign x sub e), c, s⟩) :
    ConstProtected x sub e c s ↔ ∀ b, c.resolve x = some b → b.ty = .const →
      (∀ stop, assignStop? sub e s = some stop → stop.isLogged = true) ∧
      ((∃ d, b = .global d) → assignStop? sub e s ≠ none) := by
  constructor
  · intro h b hr hb
    constructor
    · intro stop hstop
      exact (assignStop?_stops hstop).logs_iff.mp (h.const hr hb).1
    · rintro ⟨d, rfl⟩
      exact h.stops hv hr hb
  · intro h
    constructor
    · intro b hr hb
      obtain ⟨hlogged, hglobal⟩ := h b hr hb
      -- A global constant is written wherever its operands are generated, so they have to stop; a local one is
      -- not.
      cases b with
      | global d =>
        obtain ⟨stop, hstop⟩ := Option.ne_none_iff_exists'.mp (hglobal ⟨d, rfl⟩)
        refine ⟨(assignStop?_stops hstop).logs_iff.mpr (hlogged stop hstop), fun hg => ?_⟩
        rw [hg.not_stops] at hstop
        cases hstop
      | «local» d =>
        have hset : ∀ {v : Value} {idx : Option Value} {u : State}, GenAssign sub e s v idx u →
            ∃ w, setValue x v idx u = .error (.logError (x ++ " is a const")) w ∧ w.blocks = u.blocks := by
          intro v idx u hg
          have hl := ((hg.visited hv).lookup_const x).mpr ⟨d, hr, hb, rfl⟩
          exact ⟨_, setValue_constVal hl, rfl⟩
        refine ⟨?_, hset⟩
        have ho := assign_operands sub e s
        cases hstop : assignStop? sub e s with
        | some stop => exact (assignStop?_stops hstop).logs_iff.mpr (hlogged stop hstop)
        | none =>
          rw [hstop] at ho
          obtain ⟨v, idx, u, hg⟩ := ho
          obtain ⟨w, hw, -⟩ := hset hg
          exact ⟨_, w, hg.run.trans hw⟩
    · intro b hr hb v idx u hg w hw
      have hu := hg.visited hv
      -- Only the storage of a constant local variable is refused as constant.
      by_cases hc : ∃ a, u.lookup x = some (.constVal a)
      · obtain ⟨a, ha⟩ := hc
        obtain ⟨d, hr', hd, -⟩ := (hu.lookup_const x).mp ha
        rw [hr] at hr'
        cases hr'
        exact absurd (hb.symm.trans hd) (by simp)
      · have hmsg := (setValue_logs (fun a ha => hc ⟨a, ha⟩) hw).1
        exact const_ne_undeclared x hmsg

end

section
attribute [local instance] ConstantFolder.symbolic

/-- The declaration of a global `c` with the value 1. -/
def declaredOne : ValType → DeclNode
  | .const => .constDecl ⟨.int, [⟨"c", .exp (NumberNode.toExpr ⟨1⟩), none⟩]⟩
  | .var => .varDecl ⟨.int, [⟨"c", some (.exp (NumberNode.toExpr ⟨1⟩)), none⟩]⟩

/-- The declaration, and `int main() { c = 2; }` -/
def assignedGlobal (ty : ValType) : EntryNode :=
  ⟨.progFunc (.decl (declaredOne ty)) ⟨.int, "main", [], [.stmt (.assign "c" none (NumberNode.toExpr ⟨2⟩))]⟩⟩

/-- The context of the assignment. -/
def assignedGlobalCtx (ty : ValType) : Ctx := ((({} : Ctx).declareGlobal ⟨"c", ty⟩).inFunc).push

theorem assignedGlobal_visited (ty : ValType) :
    ∃ s, Visited (assignedGlobal ty) ⟨.stmt (.assign "c" none (NumberNode.toExpr ⟨2⟩)), assignedGlobalCtx ty, s⟩ := by
  let d : Def := ⟨ty, "c", some (.exp (NumberNode.toExpr ⟨1⟩)), none⟩
  have hd : (declaredOne ty).defs = [d] := by cases ty <;> rfl
  have h₁ : Visited (assignedGlobal ty) ⟨.items [d] [.func ⟨.int, "main", [],
      [.stmt (.assign "c" none (NumberNode.toExpr ⟨2⟩))]⟩], {}, State.library⟩ := by
    rw [← hd]
    exact .tail .refl .decl
  have hg : ∃ t, d.gen State.library = .ok () t := ⟨_, rfl⟩
  obtain ⟨t, hg⟩ := hg
  have hfree : t.function? "main" = none := by
    obtain ⟨g, tr, -, -, -, rfl, -⟩ := Def.gen_global rfl hg
    have hl : State.library.function? "main" = none := by decide +kernel
    exact hl
  have h₂ := (h₁.tail (.nextGlobalDef hg)).tail (.func hfree)
  exact ⟨_, ((h₂.tail .block).tail .items).tail .blockStmt⟩

/-- A global variable is assigned. -/
theorem varAssigned_protected : ∃ s, Visited (assignedGlobal .var) ⟨.stmt (.assign "c" none (NumberNode.toExpr ⟨2⟩)),
    assignedGlobalCtx .var, s⟩ ∧ ConstProtected "c" none (NumberNode.toExpr ⟨2⟩) (assignedGlobalCtx .var) s := by
  obtain ⟨s, hv⟩ := assignedGlobal_visited .var
  refine ⟨s, hv, (constProtected_iff hv).mpr fun b hr hb => ?_⟩
  cases hr
  cases hb

/-- The assignment to a global constant is accepted, and stores into it. -/
theorem constAssigned_stored :
    (assignedGlobal .const).final?.map (fun s => s.blocks 0) = some [.load 0 .i64 (.const (.global "c" .i64)),
      .store (.const (.int 2)) (.const (.global "c" .i64)), .ret none] ∧
    ¬ ∀ (node : EntryNode) x sub e c s, Visited node ⟨.stmt (.assign x sub e), c, s⟩ → ConstProtected x sub e c s := by
  refine ⟨by decide +kernel, fun h => ?_⟩
  obtain ⟨s, hv⟩ := assignedGlobal_visited .const
  have hnone : assignStop? none (NumberNode.toExpr ⟨2⟩) s = none := rfl
  exact (h _ _ _ _ _ _ hv).stops hv rfl rfl hnone

end

end L24
