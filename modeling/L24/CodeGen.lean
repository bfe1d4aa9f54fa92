import L24.Context

/-! Code generation (`src/backend/code_gen.{h,cpp}`), function by function. A `codeGen` function whose
    result no caller reads returns nothing here. `codeGenExp` has a value for every node, so the early
    exits for a null condition are not there. -/

namespace L24
open Ir

section
variable [ConstantFolder]

/-- `intToBoolean`: zero is false. -/
def intToBoolean (val : Value) : CG Value := createICmp .ne (.const (.int 0)) val

/-- `booleanToInt`. -/
def booleanToInt (val : Value) : CG Value := createIntCast val

/-- `getFunction(ident)`, or `LogError`. -/
def requireFunction (ident : String) : CG FunctionObj := do
  match (← get).function? ident with
  | some f => return f
  | none => logError ("unknown function " ++ ident)

/-- The message for a call of `func` with `n` arguments. -/
def argumentsNumber (func : FunctionObj) (n : Nat) : String :=
  "Incorrect arguments number, expect " ++ toString func.params.length ++ " get " ++ toString n

/-- `codeGenNumber`: `ConstantInt::get` at 64 bits. -/
def codeGenNumber (node : NumberNode) : CG Value := pure (.const (.int node.intLiteral))

mutual

/-- `codeGenExp`. -/
def codeGenExp : ExprNode → CG Value
  | .mk lorExpr => codeGenLorExp lorExpr

/-- `codeGenLorExp`. Both operands are generated, and made boolean each behind its own code. -/
def codeGenLorExp : LorExprNode → CG Value
  | .land landExpr => codeGenLandExp landExpr
  | .lor lorExpr landExpr => do
    let lv ← intToBoolean (← codeGenLorExp lorExpr)
    let rv ← intToBoolean (← codeGenLandExp landExpr)
    booleanToInt (← createLogicalOr lv rv)

/-- `codeGenLandExp`, likewise. -/
def codeGenLandExp : LandExprNode → CG Value
  | .eq eqExpr => codeGenEqExp eqExpr
  | .land landExpr eqExpr => do
    let lv ← intToBoolean (← codeGenLandExp landExpr)
    let rv ← intToBoolean (← codeGenEqExp eqExpr)
    booleanToInt (← createLogicalAnd lv rv)

/-- `codeGenEqExp`. -/
def codeGenEqExp : EqExprNode → CG Value
  | .rel relExpr => codeGenRelExp relExpr
  | .eq op eqExpr relExpr => do
    let lv ← codeGenEqExp eqExpr
    let rv ← codeGenRelExp relExpr
    match op with
    | .eq => booleanToInt (← createICmp .eq lv rv)
    | .notEq => booleanToInt (← createICmp .ne lv rv)

/-- `codeGenRelExp`. -/
def codeGenRelExp : RelExprNode → CG Value
  | .add addExpr => codeGenAddExp addExpr
  | .rel op relExpr addExpr => do
    let lv ← codeGenRelExp relExpr
    let rv ← codeGenAddExp addExpr
    match op with
    | .less => booleanToInt (← createICmp .slt lv rv)
    | .greater => booleanToInt (← createICmp .sgt lv rv)
    | .lessEq => booleanToInt (← createICmp .sle lv rv)
    | .greaterEq => booleanToInt (← createICmp .sge lv rv)

/-- `codeGenAddExp`. -/
def codeGenAddExp : AddExprNode → CG Value
  | .mul mulExpr => codeGenMulExp mulExpr
  | .add op addExpr mulExpr => do
    let lv ← codeGenAddExp addExpr
    let rv ← codeGenMulExp mulExpr
    match op with
    | .plus => createBinOp .add lv rv
    | .minus => createBinOp .sub lv rv

/-- `codeGenMulExp`. -/
def codeGenMulExp : MulExprNode → CG Value
  | .unary unaryExpr => codeGenUnaryExp unaryExpr
  | .mul op mulExpr unaryExpr => do
    let lv ← codeGenMulExp mulExpr
    let rv ← codeGenUnaryExp unaryExpr
    match op with
    | .star => createBinOp .mul lv rv
    | .slash => createBinOp .sdiv lv rv
    | .percentage => createBinOp .srem lv rv

/-- `codeGenUnaryExp`. A call counts its arguments before it generates them; what types they have is not asked. -/
def codeGenUnaryExp : UnaryExprNode → CG Value
  | .primary primaryExpr => codeGenPrimaryExp primaryExpr
  | .unary op unaryExpr => do
    let val ← codeGenUnaryExp unaryExpr
    match op with
    | .plus => pure val
    | .minus => createNeg val
    | .not => booleanToInt (← createICmp .eq (.const (.int 0)) val)
  | .call funcIdent funcRParams => do
    let func ← requireFunction funcIdent
    if func.params.length ≠ funcRParams.length then
      logError (argumentsNumber func funcRParams.length)
    let argsV ← codeGenExps funcRParams
    createCall func argsV ("call_" ++ funcIdent)

/-- `codeGenPrimaryExp`. -/
def codeGenPrimaryExp : PrimExprNode → CG Value
  | .expr expr => codeGenExp expr
  | .number number => codeGenNumber number
  | .lVal lVal => codeGenLVal lVal

/-- `codeGenLVal` where the name is read. -/
def codeGenLVal : LValNode → CG Value
  | .mk ident none => getValue ident none
  | .mk ident (some exp) => do
    let subIdx ← codeGenExp exp
    getValue ident (some subIdx)

/-- The loop over the arguments of a call. -/
def codeGenExps : List ExprNode → CG (List Value)
  | [] => pure []
  | e :: es => do
    let v ← codeGenExp e
    let vs ← codeGenExps es
    pure (v :: vs)

end

/-! ### Declarations -/

/-- `getInitInt`: what an element without an initial value gets. -/
def getInitInt : Value := .const (.int 0)

/-- A character of a string literal, widened as `char` is: with its sign. -/
def charValue (c : BitVec 8) : Value := .const (.int (c.signExtend 64))

/-- The initial value number `idx`. -/
def initVal (node : Option InitValNode) (idx : Nat) : CG Value :=
  match node with
  | none => pure getInitInt
  | some node =>
    let expSize := max node.exps.length node.stringLiteral.length
    if expSize ≤ idx then pure getInitInt
    else if node.exps.isEmpty then do
      return charValue (← deref node.stringLiteral[idx]?)
    else do
      codeGenExp (← deref node.exps[idx]?)

/-- The loop of `getInitVals`, from `idx` on for `n` more values. -/
def initVals (node : Option InitValNode) : (idx n : Nat) → CG (List Value)
  | _, 0 => pure []
  | idx, n + 1 => do
    let v ← initVal node idx
    let vs ← initVals node (idx + 1) n
    pure (v :: vs)

/-- `getInitVals`: one value of a scalar, or as many as the size says. A negative size asks for none. -/
def getInitVals (node : Option InitValNode) (arraySize : Option Value) : CG (List Value) := do
  match arraySize with
  | none => initVals node 0 1
  | some arraySize =>
    let size ← deref arraySize.sextValue?
    if size = 0 then
      logError "You can't define a array with size 0"
    initVals node 0 size.toInt.toNat

/-- `codeGenConstDef` and `codeGenVarDef`, which differ in the `ValType` alone. -/
def codeGenDef (ty : ValType) (ident : String) (init : Option InitValNode) (exp : Option ExprNode) : CG Unit := do
  match exp with
  | some exp =>
    let arraySize ← codeGenExp exp
    let vals ← getInitVals init (some arraySize)
    defineValue ident ty vals (some arraySize) false
  | none =>
    let vals ← getInitVals init none
    defineValue ident ty vals none false

/-- `codeGenConstDef`. -/
def codeGenConstDef (node : ConstDefNode) : CG Unit := codeGenDef .const node.ident (some node.initVal) node.exp

/-- `codeGenVarDef`. -/
def codeGenVarDef (node : VarDefNode) : CG Unit := codeGenDef .var node.ident node.initVal node.exp

/-- `codeGenDecl`. The keyword of the declaration is not looked at. -/
def codeGenDecl : DeclNode → CG Unit
  | .constDecl node => node.constDefs.forM codeGenConstDef
  | .varDecl node => node.varDefs.forM codeGenVarDef

/-! ### Statements -/

/-- "prevent two branch insts": a branch to `target` unless the block ends with a branch. -/
def createBrUnlessBranch (target : Label) : CG Unit := do
  if !(← backIs Inst.isBranch) then
    createBr target

/-- One message for both statements. -/
def breakMessage : String := "syntax error: continue/break must exist in a loop"

/-- The blocks of the innermost loop: for `continue`, and for `break`. -/
def innermostLoop : CG (Label × Label) := do
  match (← get).nestedBlocks with
  | loop :: _ => return loop
  | [] => logError breakMessage

/-- The statements of a block, in a layer of their own. -/
def inNewLayer (items : CG Unit) : CG Unit := do
  pushNamedValuesLayer
  items
  popNamedValuesLayer

/-- `codeGenIfStmt`, with the generation of its branches. -/
def codeGenIfStmt (expr : ExprNode) (ifStmt elseStmt : CG Unit) : CG Unit := do
  let cond ← codeGenExp expr
  let cond ← intToBoolean cond
  let func := (← getInsertBlock).func
  let thenBB ← createBlock
  let elseBB ← createBlock
  let mergeBB ← createBlock
  createCondBr cond thenBB elseBB
  enterBlock func thenBB
  ifStmt
  createBrUnlessBranch mergeBB
  enterBlock func elseBB
  elseStmt
  createBrUnlessBranch mergeBB
  enterBlock func mergeBB

/-- The loop becomes the innermost one. -/
def pushNestedBlocks (loopBB afterBB : Label) : CG Unit :=
  modify fun s => { s with nestedBlocks := (loopBB, afterBB) :: s.nestedBlocks }

/-- The innermost loop is left. -/
def popNestedBlocks : CG Unit := modify fun s => { s with nestedBlocks := s.nestedBlocks.tail }

/-- `codeGenWhileStmt`, with the generation of its body. -/
def codeGenWhileStmt (expr : ExprNode) (whileStmt : CG Unit) : CG Unit := do
  let func := (← getInsertBlock).func
  let loopBB ← createBlock
  let bodyBB ← createBlock
  let afterBB ← createBlock
  pushNestedBlocks loopBB afterBB
  createBr loopBB
  enterBlock func loopBB
  let cond ← codeGenExp expr
  let cond ← intToBoolean cond
  createCondBr cond bodyBB afterBB
  enterBlock func bodyBB
  whileStmt
  createBrUnlessBranch loopBB
  enterBlock func afterBB
  popNestedBlocks

/-- `codeGenContinue`. The block goes on behind the branch. -/
def codeGenContinue : CG Unit := do
  let loop ← innermostLoop
  createBr loop.1

/-- `codeGenBreak`, likewise. -/
def codeGenBreak : CG Unit := do
  let loop ← innermostLoop
  createBr loop.2

/-- `codeGenRet`. The result type of the function is not asked. -/
def codeGenRet : Option ExprNode → CG Unit
  | none => createRetVoid
  | some expr => do
    let newVal ← codeGenExp expr
    createRet newVal

/-- An expression statement, or an empty one. -/
def codeGenExprStmt : Option ExprNode → CG Unit
  | none => pure ()
  | some expr => discard (codeGenExp expr)

/-- The subscript of the target of an assignment. -/
def codeGenSubIdx : Option ExprNode → CG (Option Value)
  | none => pure none
  | some expr => do
    let idx ← codeGenExp expr
    return some idx

/-- An assignment: the value first, then the subscript. -/
def codeGenAssign (lVal : String) (subIdx : Option ExprNode) (expr : ExprNode) : CG Unit := do
  let newVal ← codeGenExp expr
  let idx ← codeGenSubIdx subIdx
  setValue lVal newVal idx

mutual

/-- `codeGenStmt`. -/
def codeGenStmt : StmtNode → CG Unit
  | .block block => inNewLayer (codeGenBlockItems block)
  | .ifStmt expr ifStmt (some elseStmt) => codeGenIfStmt expr (codeGenStmt ifStmt) (codeGenStmt elseStmt)
  | .ifStmt expr ifStmt none => codeGenIfStmt expr (codeGenStmt ifStmt) (pure ())
  | .whileStmt expr whileStmt => codeGenWhileStmt expr (codeGenStmt whileStmt)
  | .continueStmt => codeGenContinue
  | .breakStmt => codeGenBreak
  | .ret expr => codeGenRet expr
  | .expr expr => codeGenExprStmt expr
  | .assign lVal subIdx expr => codeGenAssign lVal subIdx expr

/-- `codeGenBlockItem`. -/
def codeGenBlockItem : BlockItemNode → CG Unit
  | .decl decl => codeGenDecl decl
  | .stmt stmt => codeGenStmt stmt

/-- The items of a block, one after the other. -/
def codeGenBlockItems : List BlockItemNode → CG Unit
  | [] => pure ()
  | item :: items => do
    codeGenBlockItem item
    codeGenBlockItems items

end

section

-- The equations of the two recursions are derived here, once for all the proofs that rewrite with them.
attribute [local simp] codeGenExp codeGenLorExp codeGenLandExp codeGenEqExp codeGenRelExp codeGenAddExp
  codeGenMulExp codeGenUnaryExp codeGenPrimaryExp codeGenLVal codeGenExps codeGenStmt codeGenBlockItem
  codeGenBlockItems

end

/-- `codeGenBlock`. -/
def codeGenBlock (block : List BlockItemNode) : CG Unit := inNewLayer (codeGenBlockItems block)

/-! ### Functions and programs -/

/-- A parameter is a pointer unless its keyword is `int`. -/
def FParamType.isPtr (t : FParamType) : Bool := t != .int

/-- The type that the parameter gets. -/
def FParamType.ty (t : FParamType) : Ty := if t.isPtr then .ptr else .i64

/-- The result type: nothing unless the keyword is `int`. -/
def FuncType.retTy (t : FuncType) : Ty := if t = .int then .i64 else .void

/-- `setName` of one more argument, given the names so far and the `LastUnique` of the function's symbol table. -/
def setName (named : List String × Nat) (ident : String) : List String × Nat :=
  let unique := uniqueName "" named.1 named.2 ident
  (named.1 ++ [unique.1], unique.2)

/-- The names of the arguments after `setName`, which gives a suffix to a name that is taken. -/
def argNames (idents : List String) : List String := (idents.foldl setName ([], 0)).1

/-- Define the arguments from number `i` on, in the parameter layer. -/
def defineParams : (i : Nat) → List (String × FParamType) → CG Unit
  | _, [] => pure ()
  | i, (name, type) :: params => do
    defineValue name .var [.arg i type.ty] none type.isPtr
    defineParams (i + 1) params

/-- "if the last instruction is not a return inst, append one". -/
def createRetUnlessReturn : CG Unit := do
  if !(← backIs Inst.isReturn) then
    createRetVoid

/-- `codeGenFunc`. The names of the parameters are those that the arguments have after `setName`. -/
def codeGenFunc (node : FuncNode) : CG Unit := do
  if ((← get).function? node.ident).isSome then
    logError "function can't be redefined"
  let func ← createFunction node.ident node.type.retTy (node.param.map (·.type.ty))
  let bb ← createBlock
  enterBlock func bb
  pushNamedValuesLayer
  defineParams 0 ((argNames (node.param.map (·.ident))).zip (node.param.map (·.type)))
  codeGenBlock node.block
  createRetUnlessReturn
  popNamedValuesLayer

/-- A declaration outside all functions, or a function. -/
def codeGenTopItem : TopItem → CG Unit
  | .decl decl => codeGenDecl decl
  | .func func => codeGenFunc func

/-- `codeGenProgram`: what stands in front is generated first. -/
def codeGenProgram : ProgNode → CG Unit
  | .decl decl => codeGenDecl decl
  | .func func => codeGenFunc func
  | .progDecl prog decl => do
    codeGenProgram prog
    codeGenDecl decl
  | .progFunc prog func => do
    codeGenProgram prog
    codeGenFunc func

/-- `codeGenEntry`, up to the module that it prints. -/
def codeGenEntry (node : EntryNode) : CG Unit := do
  codeGenStandardLibrary
  codeGenProgram node.prog

/-- Code generation of a whole program, from a fresh context. -/
def compile (node : EntryNode) : EStateM.Result Stop State Unit := codeGenEntry node {}

/-- `codeGenEntry` runs to its end, with `s` the context it leaves: no `LogError`, no null pointer. -/
def Accepts (node : EntryNode) (s : State) : Prop := compile node = .ok () s

/-- The context an accepted program leaves. -/
def EntryNode.final? (node : EntryNode) : Option State :=
  match compile node with
  | .ok _ s => some s
  | .error _ _ => none

theorem final?_eq_some {node : EntryNode} {s : State} : node.final? = some s ↔ Accepts node s := by
  unfold EntryNode.final? Accepts
  cases compile node <;> simp

end

end L24
