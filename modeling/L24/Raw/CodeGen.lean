import L24.CodeGen
import L24.Raw.Builder

/-! Code generation on the AST as the C++ code has it (`src/backend/code_gen.cpp`): every `dynamic_pointer_cast` may
    give null, and so may every `llvm::Value *` of an expression. -/

namespace L24.Raw
open Ir

variable [ConstantFolder]

/-- How generation ends early: as on the AST proper, or because a node that the code reads is null or of another class,
    or because a null value of an expression is used. -/
inductive GenStop
  | stop (s : L24.Stop)
  | nullNode
  | nullValue
  deriving DecidableEq, Repr

/-- The context, and what only this layer can see. -/
structure GenState where
  ctx : State := {}
  /-- Ghost: a null condition ended an `if` or a `while` statement early. -/
  earlyExit : Bool := false
  /-- Ghost: an operator field that a branch was taken on held none of the operators. -/
  oddOperator : Bool := false
  /-- Ghost: a cast that may give null gave it for a node of another class. -/
  failedCast : Bool := false

/-- Code generation on nodes that may be null. -/
abbrev Gen := EStateM GenStop GenState

/-- What the context and the IR builder do, which no null node or value reaches. -/
def lift {α : Type} (m : CG α) : Gen α := fun s =>
  match m s.ctx with
  | .ok a c => .ok a { s with ctx := c }
  | .error e c => .error (.stop e) { s with ctx := c }

instance : MonadLift CG Gen := ⟨lift⟩

/-- A member of a null pointer is used: of a cast that failed, for one. -/
def nullNode {α : Type} : Gen α := throw .nullNode

/-- An `llvm::Value *` that is used. -/
def value : Option Value → Gen Value
  | some v => return v
  | none => throw .nullValue

/-- The operator is not one of those that the branches are for. -/
def oddOperator : Gen Unit := modify fun s => { s with oddOperator := true }

/-- The value of a node that has one. -/
def result (m : Gen Value) : Gen (Option Value) := do
  let v ← m
  return some v

/-- The instruction of two operands that are there. -/
def createBinOp (op : BinOp) (lv rv : Option Value) : Gen (Option Value) := result do
  let lv ← value lv
  let rv ← value rv
  L24.createBinOp op lv rv

/-- `booleanToInt` of a comparison. -/
def createICmpInt (pred : Pred) (lv rv : Option Value) : Gen (Option Value) := result do
  let lv ← value lv
  let rv ← value rv
  booleanToInt (← createICmp pred lv rv)

/-- `intToBoolean` of a value that is there. -/
def intToBoolean (val : Option Value) : Gen Value := do
  let val ← value val
  L24.intToBoolean val

/-- `unary_op->_op`. -/
def operator : Node → Gen String
  | .unaryOp op => return op
  | _ => nullNode

/-- `codeGenNumber`. -/
def codeGenNumber : Node → Gen (Option Value)
  | .number intLiteral => return some (.const (.int intLiteral))
  | _ => nullNode

mutual

/-- `codeGenExp`. The functions of the layers ask which of their children are there. -/
def codeGenExp : Node → Gen (Option Value)
  | .expr lorExpr => codeGenLorExp lorExpr
  | _ => nullNode

def codeGenLorExp : Node → Gen (Option Value)
  | .lorExpr landExpr lorExpr =>
    if landExpr.isSome && lorExpr.isSome then result do
      let lv ← intToBoolean (← codeGenLorExp lorExpr)
      let rv ← intToBoolean (← codeGenLandExp landExpr)
      booleanToInt (← createLogicalOr lv rv)
    else codeGenLandExp landExpr
  | _ => nullNode

def codeGenLandExp : Node → Gen (Option Value)
  | .landExpr eqExpr landExpr =>
    if landExpr.isSome && eqExpr.isSome then result do
      let lv ← intToBoolean (← codeGenLandExp landExpr)
      let rv ← intToBoolean (← codeGenEqExp eqExpr)
      booleanToInt (← createLogicalAnd lv rv)
    else codeGenEqExp eqExpr
  | _ => nullNode

def codeGenEqExp : Node → Gen (Option Value)
  | .eqExpr op relExpr eqExpr =>
    if eqExpr.isSome && relExpr.isSome then do
      let lv ← codeGenEqExp eqExpr
      let rv ← codeGenRelExp relExpr
      if op = "==" then createICmpInt .eq lv rv
      else do
        if op ≠ "!=" then oddOperator
        createICmpInt .ne lv rv
    else codeGenRelExp relExpr
  | _ => nullNode

def codeGenRelExp : Node → Gen (Option Value)
  | .relExpr op addExpr relExpr =>
    if relExpr.isSome && addExpr.isSome then do
      let lv ← codeGenRelExp relExpr
      let rv ← codeGenAddExp addExpr
      if op = "<" then createICmpInt .slt lv rv
      else if op = ">" then createICmpInt .sgt lv rv
      else if op = "<=" then createICmpInt .sle lv rv
      else do
        if op ≠ ">=" then oddOperator
        createICmpInt .sge lv rv
    else codeGenAddExp addExpr
  | _ => nullNode

/-- Behind a `switch` that knows no such operator, the right operand is generated once more. -/
def codeGenAddExp : Node → Gen (Option Value)
  | .addExpr op mulExpr addExpr =>
    if op ≠ '\x00' then do
      let lv ← codeGenAddExp addExpr
      let rv ← codeGenMulExp mulExpr
      if op = '+' then createBinOp .add lv rv
      else if op = '-' then createBinOp .sub lv rv
      else do
        oddOperator
        codeGenMulExp mulExpr
    else codeGenMulExp mulExpr
  | _ => nullNode

def codeGenMulExp : Node → Gen (Option Value)
  | .mulExpr op unaryExpr mulExpr =>
    if op ≠ '\x00' then do
      let lv ← codeGenMulExp mulExpr
      let rv ← codeGenUnaryExp unaryExpr
      if op = '*' then createBinOp .mul lv rv
      else if op = '/' then createBinOp .sdiv lv rv
      else if op = '%' then createBinOp .srem lv rv
      else do
        oddOperator
        codeGenUnaryExp unaryExpr
    else codeGenUnaryExp unaryExpr
  | _ => nullNode

/-- `codeGenUnaryExp`. -/
def codeGenUnaryExp : Node → Gen (Option Value)
  | .unaryExpr primaryExpr unaryOp unaryExpr funcIdent funcRParams =>
    if primaryExpr.isSome then codeGenPrimaryExp primaryExpr
    else if unaryExpr.isSome && unaryOp.isSome then do
      let op ← operator unaryOp
      let val ← codeGenUnaryExp unaryExpr
      if op = "+" then return val
      else if op = "-" then result do createNeg (← value val)
      else if op = "!" then createICmpInt .eq (some (.const (.int 0))) val
      else do
        oddOperator
        return none
    else do
      let func ← requireFunction funcIdent
      codeGenCall func funcIdent funcRParams
  | _ => nullNode

/-- The arguments of a call and the call. -/
def codeGenCall (func : FunctionObj) (funcIdent : String) : Node → Gen (Option Value)
  | .funcRParams exps => do
    if func.params.length ≠ exps.length then
      logError (argumentsNumber func exps.length)
    let argsV ← codeGenExps exps
    result do createCall func (← argsV.mapM value) ("call_" ++ funcIdent)
  | _ => nullNode

def codeGenPrimaryExp : Node → Gen (Option Value)
  | .primExpr expr number lVal =>
    if expr.isSome then codeGenExp expr
    else if number.isSome then codeGenNumber number
    else if lVal.isSome then codeGenLVal lVal
    else return none
  | _ => nullNode

/-- A subscript whose value is null is no subscript. -/
def codeGenLVal : Node → Gen (Option Value)
  | .lVal ident exp => do
    let subIdx ← if exp.isSome then codeGenExp exp else pure none
    result (getValue ident subIdx)
  | _ => nullNode

/-- The arguments of a call; each may be null. -/
def codeGenExps : List Node → Gen (List (Option Value))
  | [] => return []
  | e :: es => do
    let v ← codeGenExp e
    let vs ← codeGenExps es
    return v :: vs

end

/-- The value of an expression that may be missing. -/
def codeGenOptional (exp : Node) : Gen (Option Value) := if exp.isSome then codeGenExp exp else return none

/-! ### Declarations -/

/-- A cast gives null for a node that is there. -/
def failedCast : Gen Unit := modify fun s => { s with failedCast := true }

/-- `dynamic_pointer_cast<InitValNode>`, of which null is a definition without an initialiser. -/
def initValNode : Node → Gen (Option (List (BitVec 8) × List Node))
  | .initVal _ stringLiteral exp => return some (stringLiteral, exp)
  | .null => return none
  | _ => do
    failedCast
    return none

/-- The initial value number `idx`. -/
def initVal (node : Option (List (BitVec 8) × List Node)) (idx : Nat) : Gen (Option Value) :=
  match node with
  | none => return some getInitInt
  | some (stringLiteral, exp) =>
    let expSize := max exp.length stringLiteral.length
    if expSize ≤ idx then return some getInitInt
    else if exp.isEmpty then result do
      return charValue (← deref stringLiteral[idx]?)
    else do
      codeGenExp (exp.getD idx .null)

/-- The loop of `getInitVals`, from `idx` on for `n` more values. -/
def initVals (node : Option (List (BitVec 8) × List Node)) : (idx n : Nat) → Gen (List (Option Value))
  | _, 0 => return []
  | idx, n + 1 => do
    let v ← initVal node idx
    let vs ← initVals node (idx + 1) n
    return v :: vs

/-- `getInitVals`. -/
def getInitVals (node : Option (List (BitVec 8) × List Node)) (arraySize : Option Value) : Gen (List (Option Value)) :=
    do
  match arraySize with
  | none => initVals node 0 1
  | some arraySize =>
    let size ← deref arraySize.sextValue?
    if size = 0 then
      logError "You can't define a array with size 0"
    initVals node 0 size.toInt.toNat

/-- What `codeGenConstDef` and `codeGenVarDef` do with the members of their node. An array size whose value is null is
    no array size. -/
def codeGenDef (ty : ValType) (ident : String) (init exp : Node) : Gen Unit := do
  let init ← initValNode init
  let arraySize ← codeGenOptional exp
  let vals ← getInitVals init arraySize
  defineValue ident ty (← vals.mapM value) arraySize false

/-- `codeGenConstDef`. -/
def codeGenConstDef : Node → Gen Unit
  | .constDef ident initVal exp => codeGenDef .const ident initVal exp
  | _ => nullNode

/-- `codeGenVarDef`. -/
def codeGenVarDef : Node → Gen Unit
  | .varDef ident initVal exp => codeGenDef .var ident initVal exp
  | _ => nullNode

/-- `codeGenConstDecl`. -/
def codeGenConstDecl : Node → Gen Unit
  | .constDecl _ constDefs => constDefs.forM codeGenConstDef
  | _ => nullNode

/-- `codeGenVarDecl`. -/
def codeGenVarDecl : Node → Gen Unit
  | .varDecl _ varDefs => varDefs.forM codeGenVarDef
  | _ => nullNode

/-- `codeGenDecl`. -/
def codeGenDecl : Node → Gen Unit
  | .decl constDecl varDecl => if constDecl.isSome then codeGenConstDecl constDecl else codeGenVarDecl varDecl
  | _ => nullNode

/-! ### Statements -/

/-- A statement is given up since its condition is null. -/
def earlyExit : Gen Unit := modify fun s => { s with earlyExit := true }

/-- `codeGenIfStmt`, with the generation of its condition and branches. A null condition ends it. -/
def codeGenIfStmt (expr : Gen (Option Value)) (ifStmt elseStmt : Gen Unit) : Gen Unit := do
  match ← expr with
  | none => earlyExit
  | some cond =>
    let cond ← L24.intToBoolean cond
    let func := (← getInsertBlock).func
    let thenBB ← createBlock
    let elseBB ← createBlock
    let mergeBB ← createBlock
    createCondBr cond thenBB elseBB
    enterBlock func thenBB
    ifStmt
    createBrUnlessBranch mergeBB
    enterBlock func elseBB
    elseStmt
    createBrUnlessBranch mergeBB
    enterBlock func mergeBB

/-- `codeGenWhileStmt`, with the generation of its condition and body. A null condition ends it, in a block that the
    other two never join. -/
def codeGenWhileStmt (expr : Gen (Option Value)) (whileStmt : Gen Unit) : Gen Unit := do
  let func := (← getInsertBlock).func
  let loopBB ← createBlock
  let bodyBB ← createBlock
  let afterBB ← createBlock
  pushNestedBlocks loopBB afterBB
  createBr loopBB
  enterBlock func loopBB
  match ← expr with
  | none => do
    earlyExit
    popNestedBlocks
  | some cond =>
    let cond ← L24.intToBoolean cond
    createCondBr cond bodyBB afterBB
    enterBlock func bodyBB
    whileStmt
    createBrUnlessBranch loopBB
    enterBlock func afterBB
    popNestedBlocks

/-- `CreateRet` of a null value returns nothing. -/
def createRet : Option Value → Gen Unit
  | some v => L24.createRet v
  | none => createRetVoid

mutual

/-- `codeGenStmt`, by the flags and children of the node. -/
def codeGenStmt : Node → Gen Unit
  | .stmt isRetStmt isContinueStmt isBreakStmt lVal subIdx expr block ifStmt elseStmt whileStmt =>
    if block.isSome then codeGenBlock block
    else if ifStmt.isSome then
      codeGenIfStmt (codeGenExp expr) (codeGenStmt ifStmt) (if elseStmt.isSome then codeGenStmt elseStmt else pure ())
    else if whileStmt.isSome then codeGenWhileStmt (codeGenExp expr) (codeGenStmt whileStmt)
    else if isBreakStmt || isContinueStmt then
      if isContinueStmt then codeGenContinue else codeGenBreak
    else if expr.isSome then do
      let newVal ← codeGenExp expr
      if isRetStmt then createRet newVal
      else if lVal = "" then pure ()
      else do
        let idx ← codeGenOptional subIdx
        setValue lVal (← value newVal) idx
    else if isRetStmt then createRetVoid
    else pure ()
  | _ => nullNode

/-- `codeGenBlock`. -/
def codeGenBlock : Node → Gen Unit
  | .block blockItems => do
    pushNamedValuesLayer
    codeGenBlockItems blockItems
    popNamedValuesLayer
  | _ => nullNode

/-- The items of a block. -/
def codeGenBlockItems : List Node → Gen Unit
  | [] => return
  | item :: items => do
    codeGenBlockItem item
    codeGenBlockItems items

/-- `codeGenBlockItem`. -/
def codeGenBlockItem : Node → Gen Unit
  | .blockItem decl stmt => if decl.isSome then codeGenDecl decl else codeGenStmt stmt
  | _ => nullNode

end

/-! ### Functions and programs -/

/-- A parameter's type and name. -/
def funcFParamNode : Node → Gen (String × String)
  | .funcFParam type ident => return (type, ident)
  | _ => nullNode

/-- The parameters of a function. -/
def funcFParamsNode : Node → Gen (List Node)
  | .funcFParams params => return params
  | _ => nullNode

/-- Define the arguments from number `i` on: name, and whether it is a pointer. -/
def defineArgs : (i : Nat) → List (String × Bool) → CG Unit
  | _, [] => return
  | i, (name, isPtr) :: args => do
    defineValue name .var [.arg i (if isPtr then .ptr else .i64)] none isPtr
    defineArgs (i + 1) args

/-- `codeGenFunc`. -/
def codeGenFunc : Node → Gen Unit
  | .func type ident block param => do
    let ctx ← (get : CG State)
    if (ctx.function? ident).isSome then
      logError "function can't be redefined"
    let params ← (← funcFParamsNode param).mapM funcFParamNode
    let isPtrVec := params.map fun p => p.1 != "int"
    let types : List Ty := isPtrVec.map fun isPtr => if isPtr then .ptr else .i64
    let func ← createFunction ident (if type = "int" then .i64 else .void) types
    let bb ← createBlock
    enterBlock func bb
    pushNamedValuesLayer
    defineArgs 0 ((argNames (params.map (·.2))).zip isPtrVec)
    codeGenBlock block
    createRetUnlessReturn
    popNamedValuesLayer
  | _ => nullNode

/-- `codeGenProgram`. -/
def codeGenProgram : Node → Gen Unit
  | .prog decl func prog => do
    if prog.isSome then codeGenProgram prog
    if decl.isSome then codeGenDecl decl
    if func.isSome then codeGenFunc func
  | _ => nullNode

/-- The library comes first, then the members of the node. -/
def codeGenEntry (node : Node) : Gen Unit := do
  codeGenStandardLibrary
  match node with
  | .entry prog => codeGenProgram prog
  | _ => nullNode

/-- Code generation of a whole program, from a fresh context. -/
def compile (node : Node) : EStateM.Result GenStop GenState Unit := codeGenEntry node {}

end L24.Raw
