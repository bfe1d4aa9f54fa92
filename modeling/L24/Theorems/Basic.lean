import L24.CodeGen

/-! Running the generator: what it means that a step of the generator ends normally, and the
    generation of expressions without their layers. -/

namespace L24
open Ir

section Run
variable {α β : Type}

theorem bind_ok {m : CG α} {f : α → CG β} {s t : State} {b : β} :
    (m >>= f) s = .ok b t ↔ ∃ a u, m s = .ok a u ∧ f a u = .ok b t := by
  show EStateM.bind m f s = .ok b t ↔ _
  unfold EStateM.bind
  cases hm : m s with
  | ok a u =>
    constructor
    · exact fun h => ⟨a, u, rfl, h⟩
    · rintro ⟨a', u', h, h'⟩
      cases h
      exact h'
  | error e u => simp

theorem pure_ok {a b : α} {s t : State} : (pure a : CG α) s = .ok b t ↔ b = a ∧ t = s := by
  show EStateM.Result.ok a s = .ok b t ↔ _
  simp [eq_comm]

theorem get_ok {a s t : State} : (get : CG State) s = .ok a t ↔ a = s ∧ t = s := pure_ok

theorem set_ok {u s t : State} {a : PUnit} : (set u : CG PUnit) s = .ok a t ↔ t = u := by
  show EStateM.Result.ok PUnit.unit u = .ok a t ↔ _
  simp [eq_comm]

theorem modify_ok {f : State → State} {s t : State} {a : PUnit} :
    (modify f : CG PUnit) s = .ok a t ↔ t = f s := by
  show EStateM.Result.ok PUnit.unit (f s) = .ok a t ↔ _
  simp [eq_comm]

theorem throw_ok {e : Stop} {s t : State} {a : α} : (throw e : CG α) s = .ok a t ↔ False := by
  show EStateM.Result.error e s = .ok a t ↔ _
  simp

theorem logError_ok {msg : String} {s t : State} {a : α} : (logError msg : CG α) s = .ok a t ↔ False := throw_ok

theorem unreachable_ok {s t : State} {a : α} : (unreachable : CG α) s = .ok a t ↔ False := throw_ok

theorem deref_ok {o : Option α} {s t : State} {a : α} : deref o s = .ok a t ↔ o = some a ∧ t = s := by
  cases o with
  | none => simp [deref, nullDeref, throw_ok]
  | some b => simp [deref, pure_ok, eq_comm]

theorem discard_ok {m : CG α} {s t : State} {a : Unit} : (discard m) s = .ok a t ↔ ∃ b, m s = .ok b t := by
  show (m >>= fun _ => pure ()) s = .ok a t ↔ _
  rw [bind_ok]
  constructor
  · rintro ⟨b, u, hb, hp⟩
    obtain ⟨-, rfl⟩ := pure_ok.mp hp
    exact ⟨b, hb⟩
  · rintro ⟨b, hb⟩
    exact ⟨b, t, hb, rfl⟩

theorem bind_of_ok {m : CG α} {f : α → CG β} {s u : State} {a : α} (h : m s = .ok a u) : (m >>= f) s = f a u := by
  show EStateM.bind m f s = _
  rw [EStateM.bind, h]

theorem bind_of_error {m : CG α} {f : α → CG β} {s u : State} {e : Stop} (h : m s = .error e u) :
    (m >>= f) s = .error e u := by
  show EStateM.bind m f s = _
  rw [EStateM.bind, h]

theorem bind_error {m : CG α} {f : α → CG β} {s u : State} {e : Stop} : (m >>= f) s = .error e u ↔
    m s = .error e u ∨ ∃ a w, m s = .ok a w ∧ f a w = .error e u := by
  cases h : m s with
  | ok a w =>
    rw [bind_of_ok h]
    constructor
    · exact fun hf => Or.inr ⟨a, w, rfl, hf⟩
    · rintro (h | ⟨b, v, h, hf⟩)
      · cases h
      · cases h
        exact hf
  | error e' w =>
    rw [bind_of_error h]
    simp

theorem discard_error {m : CG α} {s u : State} {e : Stop} : (discard m) s = .error e u ↔ m s = .error e u := by
  show (m >>= fun _ => pure ()) s = _ ↔ _
  cases h : m s with
  | ok a w =>
    rw [bind_of_ok h]
    constructor <;> (intro h; cases h)
  | error e' w => rw [bind_of_error h]; simp

theorem seq_ok {m : CG PUnit} {k : CG β} {s t : State} {b : β} :
    (m >>= fun _ => k) s = .ok b t ↔ ∃ u, m s = .ok ⟨⟩ u ∧ k u = .ok b t := by
  rw [bind_ok]
  exact ⟨fun ⟨_, u, h⟩ => ⟨u, h⟩, fun ⟨u, h⟩ => ⟨_, u, h⟩⟩

/-- A step that reads the state. -/
theorem get_bind {k : State → CG β} {s : State} : ((get : CG State) >>= k) s = k s s := rfl

end Run

/-! ### Expressions without their layers -/

variable [ConstantFolder]

mutual

/-- Generation of an expression, by its core. -/
def genExp : Exp → CG Value
  | .number v => pure (.const (.int v))
  | .name x => getValue x none
  | .index x e => do
    let i ← genExp e
    getValue x (some i)
  | .call f args => do
    let func ← requireFunction f
    if func.params.length ≠ args.length then
      logError (argumentsNumber func args.length)
    let vs ← genExps args
    createCall func vs ("call_" ++ f)
  | .unary op e => do
    let val ← genExp e
    match op with
    | .plus => pure val
    | .minus => createNeg val
    | .not => booleanToInt (← createICmp .eq (.const (.int 0)) val)
  | .arith op a b => do
    let lv ← genExp a
    let rv ← genExp b
    createBinOp op lv rv
  | .cmp p a b => do
    let lv ← genExp a
    let rv ← genExp b
    booleanToInt (← createICmp p lv rv)
  | .land a b => do
    let lv ← intToBoolean (← genExp a)
    let rv ← intToBoolean (← genExp b)
    booleanToInt (← createLogicalAnd lv rv)
  | .lor a b => do
    let lv ← intToBoolean (← genExp a)
    let rv ← intToBoolean (← genExp b)
    booleanToInt (← createLogicalOr lv rv)

/-- The arguments of a call, without their layers. -/
def genExps : List Exp → CG (List Value)
  | [] => pure []
  | e :: es => do
    let v ← genExp e
    let vs ← genExps es
    pure (v :: vs)

end

omit [ConstantFolder] in
theorem length_coreArgs : ∀ es : List ExprNode, (coreArgs es).length = es.length
  | [] => by simp [coreArgs]
  | e :: es => by simp [coreArgs, length_coreArgs es]

mutual

/-- The generator looks at an expression's core only. -/
theorem codeGenExp_core : ∀ e : ExprNode, codeGenExp e = genExp e.core
  | .mk l => by rw [codeGenExp, ExprNode.core, codeGenLorExp_core]

theorem codeGenLorExp_core : ∀ e : LorExprNode, codeGenLorExp e = genExp e.core
  | .land l => by rw [codeGenLorExp, LorExprNode.core, codeGenLandExp_core]
  | .lor a b => by rw [codeGenLorExp, LorExprNode.core, genExp, codeGenLorExp_core, codeGenLandExp_core]

theorem codeGenLandExp_core : ∀ e : LandExprNode, codeGenLandExp e = genExp e.core
  | .eq e => by rw [codeGenLandExp, LandExprNode.core, codeGenEqExp_core]
  | .land a b => by rw [codeGenLandExp, LandExprNode.core, genExp, codeGenLandExp_core, codeGenEqExp_core]

theorem codeGenEqExp_core : ∀ e : EqExprNode, codeGenEqExp e = genExp e.core
  | .rel r => by rw [codeGenEqExp, EqExprNode.core, codeGenRelExp_core]
  | .eq op a b => by
    rw [codeGenEqExp, EqExprNode.core, genExp, codeGenEqExp_core, codeGenRelExp_core]
    cases op <;> rfl

theorem codeGenRelExp_core : ∀ e : RelExprNode, codeGenRelExp e = genExp e.core
  | .add a => by rw [codeGenRelExp, RelExprNode.core, codeGenAddExp_core]
  | .rel op a b => by
    rw [codeGenRelExp, RelExprNode.core, genExp, codeGenRelExp_core, codeGenAddExp_core]
    cases op <;> rfl

theorem codeGenAddExp_core : ∀ e : AddExprNode, codeGenAddExp e = genExp e.core
  | .mul m => by rw [codeGenAddExp, AddExprNode.core, codeGenMulExp_core]
  | .add op a b => by
    rw [codeGenAddExp, AddExprNode.core, genExp, codeGenAddExp_core, codeGenMulExp_core]
    cases op <;> rfl

theorem codeGenMulExp_core : ∀ e : MulExprNode, codeGenMulExp e = genExp e.core
  | .unary u => by rw [codeGenMulExp, MulExprNode.core, codeGenUnaryExp_core]
  | .mul op a b => by
    rw [codeGenMulExp, MulExprNode.core, genExp, codeGenMulExp_core, codeGenUnaryExp_core]
    cases op <;> rfl

theorem codeGenUnaryExp_core : ∀ e : UnaryExprNode, codeGenUnaryExp e = genExp e.core
  | .primary p => by rw [codeGenUnaryExp, UnaryExprNode.core, codeGenPrimaryExp_core]
  | .unary op e => by
    cases op <;> simp only [codeGenUnaryExp, UnaryExprNode.core, genExp, codeGenUnaryExp_core]
  | .call f args => by
    rw [codeGenUnaryExp, UnaryExprNode.core, genExp, codeGenExps_core, length_coreArgs]

theorem codeGenPrimaryExp_core : ∀ e : PrimExprNode, codeGenPrimaryExp e = genExp e.core
  | .expr e => by rw [codeGenPrimaryExp, PrimExprNode.core, codeGenExp_core]
  | .number n => by rw [codeGenPrimaryExp, PrimExprNode.core, codeGenNumber, genExp]
  | .lVal l => by rw [codeGenPrimaryExp, PrimExprNode.core, codeGenLVal_core]

theorem codeGenLVal_core : ∀ e : LValNode, codeGenLVal e = genExp e.core
  | .mk x none => by rw [codeGenLVal, LValNode.core, genExp]
  | .mk x (some e) => by rw [codeGenLVal, LValNode.core, genExp, codeGenExp_core]

theorem codeGenExps_core : ∀ es : List ExprNode, codeGenExps es = genExps (coreArgs es)
  | [] => by rw [codeGenExps, coreArgs, genExps]
  | e :: es => by rw [codeGenExps, coreArgs, genExps, codeGenExp_core, codeGenExps_core]

end

end L24
