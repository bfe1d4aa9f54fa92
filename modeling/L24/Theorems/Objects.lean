import L24.Theorems.Initialisers
import L24.Theorems.Kinds

/-! What a run of the generator leaves of the module's objects, also a run that stops: expressions and statements add
    no function, and expressions add no global variable. -/

namespace L24
open Ir Relation

/-! ### What a run leaves as it is, also one that stops -/

/-- The names of the module's functions, and its global variables. -/
def State.objects (s : State) : List String × List GlobalVariable := (s.functions.map (·.name), s.globals)

/-- The names of the functions of the module. -/
def State.functionNames (s : State) : List String := s.functions.map (·.name)

/-- Where the run ends or stops, `f` is what it was. -/
def Leaves {α γ : Type} (f : State → γ) (m : CG α) (s : State) : Prop :=
  match m s with
  | .ok _ t => f t = f s
  | .error _ t => f t = f s

section Leaves
variable {α β γ : Type} {f : State → γ} {m : CG α} {k : α → CG β} {s t : State}

theorem Leaves.of_ok {a : α} (h : m s = .ok a t) (hf : f t = f s) : Leaves f m s := by
  unfold Leaves
  rw [h]
  exact hf

theorem Leaves.of_error {e : Stop} (h : m s = .error e t) (hf : f t = f s) : Leaves f m s := by
  unfold Leaves
  rw [h]
  exact hf

theorem Leaves.ok {a : α} (hm : Leaves f m s) (h : m s = .ok a t) : f t = f s := by
  unfold Leaves at hm
  rwa [h] at hm

theorem Leaves.error {e : Stop} (hm : Leaves f m s) (h : m s = .error e t) : f t = f s := by
  unfold Leaves at hm
  rwa [h] at hm

theorem Leaves.bind (hm : Leaves f m s) (hk : ∀ a t, m s = .ok a t → Leaves f (k a) t) : Leaves f (m >>= k) s := by
  cases h : m s with
  | error e u => exact .of_error (bind_of_error h) (hm.error h)
  | ok a u =>
    have hu := hm.ok h
    cases hr : k a u with
    | ok b w => exact .of_ok ((bind_of_ok h).trans hr) (((hk a u h).ok hr).trans hu)
    | error e w => exact .of_error ((bind_of_ok h).trans hr) (((hk a u h).error hr).trans hu)

theorem Leaves.pure (a : α) : Leaves f (Pure.pure a : CG α) s := .of_ok rfl rfl

theorem leaves_logError {msg : String} : Leaves f (logError msg : CG α) s := .of_error rfl rfl

theorem leaves_deref {o : Option α} : Leaves f (deref o) s := by
  cases o with
  | none => exact .of_error rfl rfl
  | some a => exact .pure a

theorem leaves_get : Leaves f (get : CG State) s := .of_ok rfl rfl

theorem leaves_getInsertBlock : Leaves f getInsertBlock s := leaves_get.bind fun _ _ _ => leaves_deref

theorem Emits.leaves {a : α} {is : List Inst} (h : m s = .ok a t) (e : Emits s is t) : Leaves State.objects m s := by
  refine .of_ok h ?_
  rw [State.objects, State.objects, e.functions, e.globals]

theorem Makes.leaves {δ : Type} {form : α → δ} {d : δ} (h : Makes form m (.ok d) s) : Leaves State.objects m s := by
  obtain ⟨v, u, hv, -, is, e⟩ := h
  exact Emits.leaves hv e

/-- Only the names of the functions. -/
theorem Leaves.functionNames (h : Leaves State.objects m s) : Leaves State.functionNames m s := by
  cases hm : m s with
  | ok a t => exact .of_ok hm (congrArg Prod.fst (h.ok hm))
  | error e t => exact .of_error hm (congrArg Prod.fst (h.error hm))

end Leaves

/-! ### Expressions -/

section Expressions
variable {s : State}

theorem append_objects (s : State) (is : List Inst) : (s.append is).objects = s.objects := by
  unfold State.append
  split <;> rfl

theorem leaves_emit {ty : Ty} {mk : Reg → Inst} : Leaves State.objects (emit ty mk) s :=
  .of_ok rfl (append_objects s [mk s.nextReg])

theorem leaves_insert {i : Inst} : Leaves State.objects (insert i) s := .of_ok rfl (append_objects s [i])

theorem leaves_createLoad {ty : Ty} {p : Value} : Leaves State.objects (createLoad ty p) s :=
  leaves_getInsertBlock.bind fun _ _ _ => leaves_emit

theorem leaves_createStore {v p : Value} : Leaves State.objects (createStore v p) s := by
  refine leaves_getInsertBlock.bind fun _ _ _ => ?_
  split
  · exact .of_error rfl rfl
  · exact leaves_insert

variable [ConstantFolder]

theorem leaves_createGEP {ty : Ty} {p i j : Value} : Leaves State.objects (createGEP ty p i j) s := by
  obtain ⟨v, u, is, h, e⟩ := createGEP_total (s := s) ty p i j
  exact Emits.leaves h e

theorem elementPtr_leaves (a : AllocaInst) (i : Value) : Leaves State.objects (elementPtr a i) s := by
  unfold elementPtr
  split
  · exact leaves_createGEP
  · exact leaves_createLoad.bind fun _ _ _ => leaves_emit

theorem createGetValueInst_leaves (a : AllocaInst) (sub : Option Value) :
    Leaves State.objects (createGetValueInst a sub) s := by
  cases sub with
  | some i => exact (elementPtr_leaves a i).bind fun _ _ _ => leaves_createLoad
  | none =>
    obtain ⟨slot, ty⟩ := a
    cases ty with
    | array n elt =>
      show Leaves State.objects
        (createGEP (.array n elt) (.alloca slot (.array n elt)) (.const (.int 0)) (.const (.int 0))) s
      exact leaves_createGEP
    | _ => exact leaves_createLoad

theorem createNeg_leaves (v : Value) : Leaves State.objects (createNeg v) s := by
  unfold createNeg
  split
  · exact .of_error rfl rfl
  · exact (createBinOp_makes .sub (.const (nullValue v.ty)) v).leaves

omit [ConstantFolder] in
theorem leaves_requireGlobal {x : String} : Leaves State.objects (requireGlobal x) s := by
  refine leaves_get.bind fun w t _ => ?_
  cases w.global? x with
  | none => exact leaves_logError
  | some g => exact .pure g

omit [ConstantFolder] in
theorem leaves_requireFunction {x : String} : Leaves State.objects (requireFunction x) s := by
  refine leaves_get.bind fun w t _ => ?_
  cases w.function? x with
  | none => exact leaves_logError
  | some g => exact .pure g

theorem getGlobalValue_leaves (x : String) (sub : Option Value) : Leaves State.objects (getGlobalValue x sub) s := by
  refine leaves_requireGlobal.bind fun g t _ => ?_
  cases sub with
  | some i => exact leaves_createGEP.bind fun _ _ _ => leaves_createLoad
  | none =>
    refine leaves_get.bind fun w u _ => ?_
    cases w.namedValues.isEmpty with
    | true => exact leaves_deref.bind fun _ _ _ => .pure _
    | false => exact leaves_createLoad

theorem getValue_leaves (x : String) (sub : Option Value) : Leaves State.objects (getValue x sub) s := by
  refine Leaves.bind (.of_ok rfl rfl) fun _ t _ => leaves_get.bind fun w u _ => ?_
  cases w.lookup x with
  | none => exact getGlobalValue_leaves x sub
  | some nv => exact createGetValueInst_leaves nv.alloca sub

theorem intToBoolean_leaves (v : Value) : Leaves State.objects (intToBoolean v) s := (intToBoolean_makes v).leaves

mutual

/-- The generation of an expression adds nothing to the module but instructions. -/
theorem genExp_leaves : ∀ (e : Exp) {s : State}, Leaves State.objects (genExp e) s
  | .number v, s => by
    rw [genExp]
    exact .pure _
  | .name x, s => by
    rw [genExp]
    exact getValue_leaves x none
  | .index x e, s => by
    rw [genExp]
    exact (genExp_leaves e).bind fun v _ _ => getValue_leaves x (some v)
  | .call f args, s => by
    rw [genExp]
    refine leaves_requireFunction.bind fun func t _ => ?_
    by_cases hl : func.params.length = args.length
    · rw [if_neg (not_not_intro hl)]
      exact (genExps_leaves args).bind fun _ _ _ => leaves_emit
    · rw [if_pos hl]
      exact leaves_logError.bind fun _ _ _ => (genExps_leaves args).bind fun _ _ _ => leaves_emit
  | .unary op e, s => by
    rw [genExp]
    refine (genExp_leaves e).bind fun v _ _ => ?_
    cases op with
    | plus => exact .pure v
    | minus => exact createNeg_leaves v
    | not => exact (createICmp_intCast _ _ _).leaves
  | .arith op a b, s => by
    rw [genExp]
    exact (genExp_leaves a).bind fun v _ _ => (genExp_leaves b).bind fun w _ _ => (createBinOp_makes op v w).leaves
  | .cmp p a b, s => by
    rw [genExp]
    exact (genExp_leaves a).bind fun v _ _ => (genExp_leaves b).bind fun w _ _ => (createICmp_intCast p v w).leaves
  | .land a b, s => by
    rw [genExp]
    exact (genExp_leaves a).bind fun v _ _ => (intToBoolean_leaves v).bind fun l _ _ =>
      (genExp_leaves b).bind fun w _ _ =>
      (intToBoolean_leaves w).bind fun r _ _ => (createSelect_intCast l r (.const (.bool false))).leaves
  | .lor a b, s => by
    rw [genExp]
    exact (genExp_leaves a).bind fun v _ _ => (intToBoolean_leaves v).bind fun l _ _ =>
      (genExp_leaves b).bind fun w _ _ =>
      (intToBoolean_leaves w).bind fun r _ _ => (createSelect_intCast l (.const (.bool true)) r).leaves

theorem genExps_leaves : ∀ (es : List Exp) {s : State}, Leaves State.objects (genExps es) s
  | [], s => by
    rw [genExps]
    exact .pure _
  | e :: es, s => by
    rw [genExps]
    exact (genExp_leaves e).bind fun _ _ _ => (genExps_leaves es).bind fun _ _ _ => .pure _

end

theorem codeGenExp_leaves (e : ExprNode) : Leaves State.objects (codeGenExp e) s := by
  rw [codeGenExp_core]
  exact genExp_leaves e.core

theorem initVal_leaves (init : Option InitValNode) (idx : Nat) : Leaves State.objects (initVal init idx) s := by
  cases init with
  | none => exact .pure _
  | some init =>
    unfold initVal
    simp only []
    split
    · exact .pure _
    · split
      · exact leaves_deref.bind fun _ _ _ => .pure _
      · exact leaves_deref.bind fun e _ _ => codeGenExp_leaves e

theorem initVals_leaves (init : Option InitValNode) :
    ∀ (n idx : Nat) {s : State}, Leaves State.objects (initVals init idx n) s
  | 0, _, _ => .pure _
  | n + 1, idx, _ => (initVal_leaves init idx).bind fun _ _ _ => (initVals_leaves init n (idx + 1)).bind fun _ _ _ =>
      .pure _

theorem getInitVals_leaves (init : Option InitValNode) (size : Option Value) :
    Leaves State.objects (getInitVals init size) s := by
  cases size with
  | none => exact initVals_leaves init 1 0
  | some sz =>
    refine leaves_deref.bind fun n t _ => ?_
    by_cases hn : n = 0
    · rw [if_pos hn]
      exact leaves_logError.bind fun _ _ _ => initVals_leaves init _ 0
    · rw [if_neg hn]
      exact initVals_leaves init _ 0

end Expressions

/-! ### Definitions and statements -/

section Statements
variable {s : State}

theorem append_functionNames (s : State) (is : List Inst) : (s.append is).functionNames = s.functionNames :=
  congrArg Prod.fst (append_objects s is)

theorem leaves_modify {g : State → State} (h : (g s).functionNames = s.functionNames) :
    Leaves State.functionNames (modify g : CG PUnit) s := .of_ok (a := ⟨⟩) (modify_ok.mpr rfl) h

theorem leaves_createBr {l : Label} : Leaves State.functionNames (createBr l) s :=
    .of_ok rfl (append_functionNames s [.br l])

theorem leaves_createBlock : Leaves State.functionNames createBlock s := .of_ok rfl rfl

theorem leaves_enterBlock {func : Nat} {l : Label} : Leaves State.functionNames (enterBlock func l) s :=
  leaves_modify (map_modify_of_eq (g := FunctionObj.name) (f := fun o => { o with layout := o.layout ++ [l] })
    (fun _ => rfl)
    s.functions func)

theorem createEntryBlockAlloca_leaves {func : Nat} {size : Option Value} {isPtr : Bool} :
    Leaves State.functionNames (createEntryBlockAlloca func size isPtr) s := by
  refine leaves_get.bind fun w t hw => leaves_deref.bind fun entry u hu => ?_
  obtain ⟨rfl, rfl⟩ := get_ok.mp hw
  obtain ⟨-, rfl⟩ := deref_ok.mp hu
  cases size with
  | none => exact .of_ok rfl rfl
  | some sz =>
    refine leaves_deref.bind fun n w hw => ?_
    obtain ⟨-, rfl⟩ := deref_ok.mp hw
    exact .of_ok rfl rfl

variable [ConstantFolder]

theorem storeElements_leaves (a : AllocaInst) : ∀ (vals : List Value) (idx : Nat) {s : State},
    Leaves State.objects (storeElements a idx vals) s
  | [], _, _ => .pure _
  | _ :: vals, idx, _ => 
    leaves_createGEP.bind fun _ _ _ => leaves_createStore.bind fun _ _ _ => storeElements_leaves a vals (idx + 1)

theorem createDefineValueInst_leaves {vals : List Value} {size : Option Value} {isPtr : Bool} :
    Leaves State.functionNames (createDefineValueInst vals size isPtr) s := by
  refine leaves_getInsertBlock.bind fun p _ _ => createEntryBlockAlloca_leaves.bind fun a _ _ => ?_
  cases size with
  | none => exact leaves_deref.bind fun _ _ _ => leaves_createStore.functionNames.bind fun _ _ _ => .pure _
  | some sz => exact (storeElements_leaves a vals 0).functionNames.bind fun _ _ _ => .pure _

omit [ConstantFolder] in
theorem insertGlobal_leaves {α : Type} {x : String} {ty : Ty} {o : Option α} {mk : α → Const} :
    Leaves State.functionNames (do
      getOrInsertGlobal x ty
      let val ← deref o
      let g ← deref ((← get).global? x)
      modify (·.setInitializer g.name (mk val)) : CG Unit) s := by
  refine Leaves.bind (leaves_modify ?_) fun _ _ _ => leaves_deref.bind fun v _ _ => leaves_get.bind fun w _ _ =>
    leaves_deref.bind fun g _ _ => leaves_modify rfl
  split <;> rfl

omit [ConstantFolder] in
theorem defineGlobalValue_leaves {x : String} {vals : List Value} {size : Option Value} :
    Leaves State.functionNames (defineGlobalValue x vals size) s := by
  refine leaves_get.bind fun w t _ => ?_
  by_cases hg : (w.global? x).isSome = true
  · rw [if_pos hg]
    cases size with
    | none => exact leaves_logError.bind fun _ _ _ => insertGlobal_leaves
    | some sz => exact leaves_logError.bind fun _ _ _ => leaves_deref.bind fun _ _ _ => insertGlobal_leaves
  · rw [if_neg hg]
    cases size with
    | none => exact insertGlobal_leaves
    | some sz => exact leaves_deref.bind fun _ _ _ => insertGlobal_leaves

theorem defineValue_leaves {x : String} {ty : ValType} {vals : List Value} {size : Option Value} {isPtr : Bool} :
    Leaves State.functionNames (defineValue x ty vals size isPtr) s := by
  refine leaves_get.bind fun w t _ => ?_
  cases w.namedValues with
  | nil => exact defineGlobalValue_leaves.bind fun _ _ _ => leaves_modify rfl
  | cons layer outer =>
    by_cases hl : (layer.lookup x).isNone = true
    · simp only [if_pos hl]
      exact createDefineValueInst_leaves.bind fun a _ _ => leaves_modify rfl
    · simp only [if_neg hl]
      exact leaves_logError

theorem Def.gen_leaves (d : Def) : Leaves State.functionNames d.gen s := by
  cases hd : d.exp with
  | none =>
    rw [Def.gen_none hd]
    exact (getInitVals_leaves d.init none).functionNames.bind fun _ _ _ => defineValue_leaves
  | some e =>
    rw [Def.gen_some hd]
    exact (codeGenExp_leaves e).functionNames.bind fun sz _ _ =>
      (getInitVals_leaves d.init (some sz)).functionNames.bind fun _ _ _ => defineValue_leaves

omit [ConstantFolder] in
theorem forM_leaves {α γ : Type} {f : State → γ} {m : α → CG PUnit} (hm : ∀ a s, Leaves f (m a) s) :
    ∀ (l : List α) {s : State},
    Leaves f (l.forM m) s
  | [], _ => .pure _
  | a :: l, s => by
    rw [List.forM_eq_forM, List.forM_cons]
    exact (hm a s).bind fun _ _ _ => forM_leaves hm l

theorem codeGenDecl_leaves (d : DeclNode) : Leaves State.functionNames (codeGenDecl d) s := by
  rw [codeGenDecl_defs]
  exact forM_leaves (fun d _ => d.gen_leaves) d.defs

omit [ConstantFolder] in
theorem leaves_backIs {isa : Inst → Bool} : Leaves State.functionNames (backIs isa) s := by
  refine leaves_getInsertBlock.bind fun p t _ => leaves_get.bind fun w u hw => ?_
  obtain ⟨rfl, rfl⟩ := get_ok.mp hw
  split
  · exact .pure _
  · exact .of_ok rfl rfl

omit [ConstantFolder] in
theorem leaves_createBrUnlessBranch {l : Label} : Leaves State.functionNames (createBrUnlessBranch l) s := by
  refine leaves_backIs.bind fun b _ _ => ?_
  cases b with
  | true => exact .pure _
  | false => exact leaves_createBr

omit [ConstantFolder] in
theorem leaves_createRetUnlessReturn : Leaves State.functionNames createRetUnlessReturn s := by
  refine leaves_backIs.bind fun b _ _ => ?_
  cases b with
  | true => exact .pure _
  | false => exact leaves_insert.functionNames

theorem leaves_cond {e : ExprNode} {k : Value → CG Unit} (hk : ∀ c s, Leaves State.functionNames (k c) s) :
    Leaves State.functionNames (do
      let cond ← codeGenExp e
      let cond ← intToBoolean cond
      k cond) s :=
  (codeGenExp_leaves e).functionNames.bind fun v _ _ => (intToBoolean_leaves v).functionNames.bind fun c t _ => hk c t

theorem codeGenIfStmt_leaves {e : ExprNode} {m n : CG Unit} (hm : ∀ s, Leaves State.functionNames m s)
    (hn : ∀ s, Leaves State.functionNames n s) : Leaves State.functionNames (codeGenIfStmt e m n) s :=
  leaves_cond fun _ _ => leaves_getInsertBlock.bind fun _ _ _ => leaves_createBlock.bind fun _ _ _ =>
    leaves_createBlock.bind fun _ _ _ => leaves_createBlock.bind fun _ _ _ =>
      leaves_insert.functionNames.bind fun _ _ _ =>
    leaves_enterBlock.bind fun _ _ _ => (hm _).bind fun _ _ _ => leaves_createBrUnlessBranch.bind fun _ _ _ =>
    leaves_enterBlock.bind fun _ _ _ => (hn _).bind fun _ _ _ => leaves_createBrUnlessBranch.bind fun _ _ _ =>
    leaves_enterBlock

theorem codeGenWhileStmt_leaves {e : ExprNode} {m : CG Unit} (hm : ∀ s, Leaves State.functionNames m s) :
    Leaves State.functionNames (codeGenWhileStmt e m) s :=
  leaves_getInsertBlock.bind fun _ _ _ => leaves_createBlock.bind fun _ _ _ => leaves_createBlock.bind fun _ _ _ =>
    leaves_createBlock.bind fun _ _ _ => (leaves_modify rfl).bind fun _ _ _ => leaves_createBr.bind fun _ _ _ =>
    leaves_enterBlock.bind fun _ _ _ => leaves_cond fun _ _ => leaves_insert.functionNames.bind fun _ _ _ =>
    leaves_enterBlock.bind fun _ _ _ => (hm _).bind fun _ _ _ => leaves_createBrUnlessBranch.bind fun _ _ _ =>
    leaves_enterBlock.bind fun _ _ _ => leaves_modify rfl

omit [ConstantFolder] in
theorem leaves_innermostLoop : Leaves State.functionNames innermostLoop s := by
  refine leaves_get.bind fun w _ _ => ?_
  cases w.nestedBlocks with
  | nil => exact leaves_logError
  | cons loop _ => exact .pure loop

theorem codeGenSubIdx_leaves (sub : Option ExprNode) : Leaves State.objects (codeGenSubIdx sub) s := by
  cases sub with
  | none => exact .pure _
  | some e => exact (codeGenExp_leaves e).bind fun _ _ _ => .pure _

theorem createSetValueInst_leaves (a : AllocaInst) (v : Value) (sub : Option Value) :
    Leaves State.objects (createSetValueInst a v sub) s := by
  cases sub with
  | none => exact leaves_createStore
  | some i => exact (elementPtr_leaves a i).bind fun _ _ _ => leaves_createStore

theorem setGlobalValue_leaves (x : String) (v : Value) (sub : Option Value) :
    Leaves State.functionNames (setGlobalValue x v sub) s := by
  refine leaves_requireGlobal.functionNames.bind fun g t _ => ?_
  cases sub with
  | some i => exact leaves_createGEP.functionNames.bind fun _ _ _ => leaves_createStore.functionNames
  | none =>
    refine leaves_get.bind fun w u _ => ?_
    cases hw : w.namedValues.isEmpty with
    | true => exact leaves_deref.bind fun _ _ _ => leaves_modify rfl
    | false => exact leaves_createLoad.functionNames.bind fun _ _ _ => leaves_createStore.functionNames

theorem setValue_leaves (x : String) (v : Value) (sub : Option Value) :
    Leaves State.functionNames (setValue x v sub) s := by
  refine (leaves_modify rfl).bind fun _ _ _ => leaves_get.bind fun w _ _ => ?_
  cases w.lookup x with
  | none => exact setGlobalValue_leaves x v sub
  | some nv => cases nv with
    | varVal a => exact (createSetValueInst_leaves a v sub).functionNames
    | constVal a => exact leaves_logError

mutual

/-- The generation of a statement adds no function. -/
theorem codeGenStmt_leaves : ∀ (st : StmtNode) {s : State}, Leaves State.functionNames (codeGenStmt st) s
  | .block items, s => by
    rw [codeGenStmt]
    exact (leaves_modify rfl).bind fun _ _ _ => (codeGenBlockItems_leaves items).bind fun _ _ _ => leaves_modify rfl
  | .ifStmt e a none, s => by
    rw [codeGenStmt]
    exact codeGenIfStmt_leaves (fun _ => codeGenStmt_leaves a) fun _ => .pure _
  | .ifStmt e a (some b), s => by
    rw [codeGenStmt]
    exact codeGenIfStmt_leaves (fun _ => codeGenStmt_leaves a) fun _ => codeGenStmt_leaves b
  | .whileStmt e a, s => by
    rw [codeGenStmt]
    exact codeGenWhileStmt_leaves fun _ => codeGenStmt_leaves a
  | .continueStmt, s => by
    rw [codeGenStmt]
    exact leaves_innermostLoop.bind fun _ _ _ => leaves_createBr
  | .breakStmt, s => by
    rw [codeGenStmt]
    exact leaves_innermostLoop.bind fun _ _ _ => leaves_createBr
  | .ret none, s => by
    rw [codeGenStmt]
    exact leaves_insert.functionNames
  | .ret (some e), s => by
    rw [codeGenStmt]
    exact (codeGenExp_leaves e).functionNames.bind fun _ _ _ => leaves_insert.functionNames
  | .expr none, s => by
    rw [codeGenStmt]
    exact .pure _
  | .expr (some e), s => by
    rw [codeGenStmt]
    exact (codeGenExp_leaves e).functionNames.bind fun _ _ _ => .pure _
  | .assign x sub e, s => by
    rw [codeGenStmt]
    exact (codeGenExp_leaves e).functionNames.bind fun v _ _ =>
      (codeGenSubIdx_leaves sub).functionNames.bind fun i _ _ =>
      setValue_leaves x v i

theorem codeGenBlockItems_leaves : ∀ (items : List BlockItemNode) {s : State},
    Leaves State.functionNames (codeGenBlockItems items) s
  | [], s => by
    rw [codeGenBlockItems]
    exact .pure _
  | .decl d :: items, s => by
    rw [codeGenBlockItems, codeGenBlockItem]
    exact (codeGenDecl_leaves d).bind fun _ _ _ => codeGenBlockItems_leaves items
  | .stmt st :: items, s => by
    rw [codeGenBlockItems, codeGenBlockItem]
    exact (codeGenStmt_leaves st).bind fun _ _ _ => codeGenBlockItems_leaves items

end

theorem defineParams_leaves : ∀ (ps : List (String × FParamType)) (i : Nat) {s : State},
    Leaves State.functionNames (defineParams i ps) s
  | [], _, _ => .pure _
  | (_, _) :: ps, i, _ => defineValue_leaves.bind fun _ _ _ => defineParams_leaves ps (i + 1)

/-- Behind its start the generation of a function adds no other one, whether it ends or stops. -/
theorem body_leaves {i : Nat} {ps : List (String × FuncFParamNode)} {block : List BlockItemNode} :
    Leaves State.functionNames (GenCall.body i ps block).run s :=
  (defineParams_leaves _ i).bind fun _ _ _ => Leaves.bind
    ((codeGenBlock_stmt block).symm ▸ codeGenStmt_leaves _) fun _ _ _ =>
    leaves_createRetUnlessReturn.bind fun _ _ _ => leaves_modify rfl

end Statements

end L24
