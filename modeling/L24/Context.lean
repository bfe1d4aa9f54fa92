import L24.Ast

/-! The state of code generation: the module, the IR builder and the scope tables of `CodeGenContext`
    (`src/backend/code_gen_ctx.{h,cpp}`).

    A basic block is an object of its own: `blocks` holds the instructions of each, a function its
    blocks in order, and a block that `BasicBlock::Create` made without a function is in no function's
    list. The vectors `_nested_named_values` and `_nested_blocks` are lists with `back()` at the head. -/

namespace L24
open Ir

/-- How generation ends early: `LogError` prints the message and exits; `nullDeref` stands for a null
    pointer that the code dereferences (a failed `dyn_cast`, a missing global, a missing insertion block);
    `unreachable` for `llvm_unreachable`, at a value of type `void` whose size or null value LLVM asks for. -/
inductive Stop
  | logError (msg : String)
  | nullDeref
  | unreachable
  deriving DecidableEq, Repr

/-- An `llvm::AllocaInst *`: which one, and its allocated type. -/
structure AllocaInst where
  slot : Slot
  ty : Ty
  deriving DecidableEq, Repr

/-- The address that an alloca yields. -/
def AllocaInst.value (a : AllocaInst) : Value := .alloca a.slot a.ty

/-- `L24Type::ValType`, as `defineValue` gets it. -/
inductive ValType
  | const | var
  deriving DecidableEq, Repr

/-- `std::variant<L24Type::ConstVal, L24Type::VarVal>`. -/
inductive NamedValue
  | constVal (a : AllocaInst)
  | varVal (a : AllocaInst)
  deriving DecidableEq, Repr

/-- The alloca in either alternative. -/
def NamedValue.alloca : NamedValue → AllocaInst
  | .constVal a => a
  | .varVal a => a

/-- One map of `_nested_named_values`. -/
abbrev Layer := List (String × NamedValue)

/-- An `llvm::Function` with the blocks that were inserted into it. -/
structure FunctionObj where
  name : String
  retTy : Ty
  params : List Ty
  layout : List Label

/-- Where the builder inserts: at the end of `block`, a block of the function at index `func`. -/
structure InsertPoint where
  func : Nat
  block : Label
  deriving DecidableEq, Repr

/-- The storage a name stands for. -/
inductive Storage
  | local (a : AllocaInst)
  | global (name : String)
  deriving DecidableEq, Repr

/-- What happens to the scope tables, and whether a name that is looked up has a subscript. A lookup that finds nothing
    has no storage. -/
inductive ScopeEvent
  | push
  | pop
  | define (ident : String) (ty : ValType) (st : Storage)
  | read (ident : String) (sub : Bool) (st : Option Storage)
  | assign (ident : String) (sub : Bool) (st : Option Storage)
  deriving DecidableEq, Repr

/-- The state of code generation: what `CodeGenContext` and the LLVM objects behind it hold. -/
structure State where
  functions : List FunctionObj := []
  globals : List GlobalVariable := []
  blocks : Label → List Inst := fun _ => []
  insertPoint : Option InsertPoint := none
  namedValues : List Layer := []
  nestedBlocks : List (Label × Label) := []
  /-- `LastUnique` of the module's symbol table: the last number that made a name fresh. -/
  lastUnique : Nat := 0
  nextReg : Nat := 0
  nextSlot : Nat := 0
  nextLabel : Nat := 0
  /-- Ghost: what happened to the scope tables, oldest first. The code has no such field. -/
  trace : List ScopeEvent := []
  /-- Ghost: `back()` was read on a block without instructions. -/
  emptyBack : Bool := false

namespace State

/-- The module, read off the objects. -/
def toModule (s : State) : Module :=
  { functions := s.functions.map fun f =>
      { name := f.name, retTy := f.retTy, params := f.params, blocks := f.layout.map fun l => (l, s.blocks l) }
    globals := s.globals }

/-- The names in the module's symbol table: functions and global variables share it. -/
def symbols (s : State) : List String := s.functions.map (·.name) ++ s.globals.map (·.name)

/-- The name that a new function or global variable gets, and the `LastUnique` behind it. -/
def uniqueName (s : State) (name : String) : String × Nat := Ir.uniqueName "." s.symbols s.lastUnique name

/-- `getNamedValue`, cast to a function. -/
def function? (s : State) (name : String) : Option FunctionObj := s.functions.find? (·.name == name)

/-- `getNamedValue`, cast to a global variable. -/
def global? (s : State) (name : String) : Option GlobalVariable := s.globals.find? (·.name == name)

/-- The innermost layer that has the name, as the search from `getCurrentLayer()` down finds it. -/
def lookup (s : State) (ident : String) : Option NamedValue := s.namedValues.findSome? (List.lookup ident)

/-- Put `is` at the end of the insertion block; without an insertion block they are placed nowhere. -/
def append (s : State) (is : List Inst) : State :=
  match s.insertPoint with
  | none => s
  | some p => { s with blocks := Function.update s.blocks p.block (s.blocks p.block ++ is) }

/-- Insert an instruction with a fresh result. -/
def emit (s : State) (mk : Reg → Inst) : State := { s.append [mk s.nextReg] with nextReg := s.nextReg + 1 }

/-- Insert an alloca with a fresh slot at the begin of the block `entry`. -/
def emitAlloca (s : State) (entry : Label) (ty : Ty) (count : Option Value) : State :=
  { s with
    blocks := Function.update s.blocks entry (.alloca s.nextSlot ty count :: s.blocks entry)
    nextSlot := s.nextSlot + 1 }

/-- Insert a block at the end of a function. -/
def appendBlock (s : State) (func : Nat) (l : Label) : State :=
  { s with functions := s.functions.modify func fun f => { f with layout := f.layout ++ [l] } }

/-- Record what happens to the scope tables. -/
def log (s : State) (e : ScopeEvent) : State := { s with trace := s.trace ++ [e] }

/-- An empty layer on top. -/
def pushLayer (s : State) : State := { s with namedValues := [] :: s.namedValues }

/-- The top layer taken off. -/
def popLayer (s : State) : State := { s with namedValues := s.namedValues.tail }

/-- Add a name to the current layer. -/
def bind (s : State) (ident : String) (v : NamedValue) : State :=
  { s with namedValues := match s.namedValues with
      | [] => []
      | layer :: outer => ((ident, v) :: layer) :: outer }

/-- `setInitializer` of the global variable `name`. -/
def setInitializer (s : State) (name : String) (c : Const) : State :=
  { s with globals := s.globals.map fun g => if g.name = name then { g with init := some c } else g }

/-- The storage a lookup addresses: the search in the layers, then the module's global variables. -/
def storage? (s : State) (ident : String) : Option Storage :=
  match s.lookup ident with
  | some v => some (.local v.alloca)
  | none => (s.global? ident).map fun g => .global g.name

end State

/-- Code generation: a state, kept also where it stops. -/
abbrev CG := EStateM Stop State

/-- `LogError`: the message is printed, and the process exits. -/
def logError {α : Type} (msg : String) : CG α := throw (.logError msg)

/-- A null pointer is used. -/
def nullDeref {α : Type} : CG α := throw .nullDeref

/-- `llvm_unreachable`: LLVM has no answer for what it is given. -/
def unreachable {α : Type} : CG α := throw .unreachable

/-- The value of a cast pointer that the code dereferences. -/
def deref {α : Type} : Option α → CG α
  | some a => pure a
  | none => nullDeref

/-! ### The IR builder -/

/-- `GetInsertBlock()`, dereferenced. -/
def getInsertBlock : CG InsertPoint := do deref (← get).insertPoint

/-- Insert an instruction without a result at the end of the insertion block. -/
def insert (i : Inst) : CG Unit := modify (·.append [i])

/-- Insert an instruction with a result of type `ty`. -/
def emit (ty : Ty) (mk : Reg → Inst) : CG Value := do
  let s ← get
  set (s.emit mk)
  return .inst s.nextReg ty

/-- A load asks the insertion block for the data layout. -/
def createLoad (ty : Ty) (p : Value) : CG Value := do
  let _ ← getInsertBlock
  emit ty (.load · ty p)

/-- A store asks the insertion block for the data layout, and the data layout for the alignment of the value's type. -/
def createStore (v p : Value) : CG Unit := do
  let _ ← getInsertBlock
  if v.ty = .void then unreachable
  insert (.store v p)

/-- `Constant::getNullValue`, which no void value has. -/
def nullValue : Ty → Const
  | .i64 => .int 0
  | .i1 => .bool false
  | ty => .zero ty

section Folding
variable [ConstantFolder]

/-- `CreateAdd` and its like: constants are folded, anything else becomes an instruction. -/
def createBinOp (op : BinOp) (a b : Value) : CG Value :=
  match a, b with
  | .const c, .const d => pure (.const (op.fold c d))
  | _, _ => emit a.ty (.binop · op a b)

/-- `CreateNeg`: the difference from the null value of the type. -/
def createNeg (v : Value) : CG Value := do
  if v.ty = .void then unreachable
  createBinOp .sub (.const (nullValue v.ty)) v

/-- `CreateICmp`, whose result is one bit. -/
def createICmp (pred : Pred) (a b : Value) : CG Value :=
  match a, b with
  | .const c, .const d => pure (.const (pred.fold c d))
  | _, _ => emit .i1 (.icmp · pred a b)

/-- `CreateSelect`, which folds three constants only. -/
def createSelect (c t f : Value) : CG Value :=
  match c, t, f with
  | .const c, .const t, .const f => pure (.const (foldSelect c t f))
  | _, _, _ => emit t.ty (.select · c t f)

/-- `CreateLogicalOr` is a select: both operands have been generated before. -/
def createLogicalOr (a b : Value) : CG Value := createSelect a (.const (.bool true)) b

/-- `CreateLogicalAnd`, likewise. -/
def createLogicalAnd (a b : Value) : CG Value := createSelect a b (.const (.bool false))

/-- `CreateIntCast` to `i64`, unsigned. -/
def createIntCast (v : Value) : CG Value :=
  if v.ty = .i64 then pure v
  else match v with
    | .const c => pure (.const (foldZExt .i64 c))
    | _ => emit .i64 (.zext · v .i64)

/-- `CreateGEP` with two indices. A constant address with constant indices is folded. -/
def createGEP (srcTy : Ty) (p i j : Value) : CG Value :=
  match p, i, j with
  | .const p, .const i, .const j => pure (.const (foldGEP srcTy p i j))
  | _, _, _ => emit .ptr (.gep · srcTy p [i, j])

end Folding

/-- `CreateInBoundsGEP` with one index; its pointer is a loaded one, so nothing folds. -/
def createInBoundsGEP (srcTy : Ty) (p i : Value) : CG Value := emit .ptr (.gep · srcTy p [i])

/-- `CreateCall` of a function that was found, with the name of its result. -/
def createCall (f : FunctionObj) (args : List Value) (name : String) : CG Value :=
  emit f.retTy (.call · f.name f.retTy args name)

/-- `CreateBr`. -/
def createBr (l : Label) : CG Unit := insert (.br l)

/-- `CreateCondBr`. -/
def createCondBr (c : Value) (t f : Label) : CG Unit := insert (.condBr c t f)

/-- `CreateRet`. -/
def createRet (v : Value) : CG Unit := insert (.ret (some v))

/-- `CreateRetVoid`. -/
def createRetVoid : CG Unit := insert (.ret none)

/-- `BasicBlock::Create` without a function. -/
def createBlock : CG Label := do
  let s ← get
  set { s with nextLabel := s.nextLabel + 1 }
  return s.nextLabel

/-- `func->insert(func->end(), bb)` and `SetInsertPoint(bb)`. -/
def enterBlock (func : Nat) (l : Label) : CG Unit :=
  modify fun s => { s.appendBlock func l with insertPoint := some ⟨func, l⟩ }

/-- `isa<...>(GetInsertBlock()->back())`. Reading `back()` of a block without instructions is undefined
    behaviour; here it is an instruction of no class, and `emptyBack` records it. -/
def backIs (isa : Inst → Bool) : CG Bool := do
  let p ← getInsertBlock
  let s ← get
  match (s.blocks p.block).getLast? with
  | some i => return isa i
  | none =>
    set { s with emptyBack := true }
    return false

/-- `Function::Create`: a name that is taken gets a suffix. The result is the function's index. -/
def createFunction (name : String) (retTy : Ty) (params : List Ty) : CG Nat := do
  let s ← get
  let unique := s.uniqueName name
  let f : FunctionObj := { name := unique.1, retTy, params, layout := [] }
  set { s with functions := s.functions ++ [f], lastUnique := unique.2 }
  return s.functions.length

/-- `getOrInsertGlobal`: a new variable unless there is one of that name. -/
def getOrInsertGlobal (name : String) (ty : Ty) : CG Unit :=
  modify fun s => match s.global? name with
    | some _ => s
    | none =>
      let unique := s.uniqueName name
      let g : GlobalVariable := { name := unique.1, valueTy := ty, init := none }
      { s with globals := s.globals ++ [g], lastUnique := unique.2 }

/-! ### The scope tables -/

/-- `pushNamedValuesLayer`, and the trace remembers it. -/
def pushNamedValuesLayer : CG Unit := modify fun s => s.pushLayer.log .push

/-- `popNamedValuesLayer`. -/
def popNamedValuesLayer : CG Unit := modify fun s => s.popLayer.log .pop

/-- `CreateEntryBlockAlloca`: an alloca at the begin of the entry block of the current function. -/
def createEntryBlockAlloca (func : Nat) (arraySize : Option Value) (isPtr : Bool) : CG AllocaInst := do
  let s ← get
  let entry ← deref (s.functions[func]?.bind (·.layout.head?))
  let ty : Ty := if isPtr then .ptr else .i64
  match arraySize with
  | none =>
    set (s.emitAlloca entry ty none)
    return ⟨s.nextSlot, ty⟩
  | some arraySize =>
    let size ← deref arraySize.sextValue?
    set (s.emitAlloca entry (.array size.toNat ty) (some arraySize))
    return ⟨s.nextSlot, .array size.toNat ty⟩

section Access
variable [ConstantFolder]

/-- Store `vals` into the elements of an array from index `idx` on. -/
def storeElements (alloca : AllocaInst) : Nat → List Value → CG Unit
  | _, [] => pure ()
  | idx, val :: vals => do
    let ptr ← createGEP alloca.ty alloca.value (.const (.int 0)) (.const (.int (.ofNat 64 idx)))
    createStore val ptr
    storeElements alloca (idx + 1) vals

/-- `createDefineValueInst`: the alloca of a local variable, and the stores of its initial values. -/
def createDefineValueInst (vals : List Value) (arraySize : Option Value) (isPtr : Bool) : CG AllocaInst := do
  let p ← getInsertBlock
  let alloca ← createEntryBlockAlloca p.func arraySize isPtr
  match arraySize with
  | none =>
    createStore (← deref vals.head?) alloca.value
    return alloca
  | some _ =>
    storeElements alloca 0 vals
    return alloca

/-- The address of element `subIdx`: of the array itself, or of the array a pointer parameter points to. -/
def elementPtr (alloca : AllocaInst) (subIdx : Value) : CG Value :=
  match alloca.ty with
  | .array _ _ => createGEP alloca.ty alloca.value (.const (.int 0)) subIdx
  | _ => do
    let base ← createLoad .ptr alloca.value
    createInBoundsGEP .i64 base subIdx

/-- `createSetValueInst`: the store into a variable or into one of its elements. -/
def createSetValueInst (alloca : AllocaInst) (val : Value) : Option Value → CG Unit
  | none => createStore val alloca.value
  | some subIdx => do
    let ptr ← elementPtr alloca subIdx
    createStore val ptr

/-- `createGetValueInst`. An array without a subscript is the address of its first element. -/
def createGetValueInst (alloca : AllocaInst) : Option Value → CG Value
  | none => match alloca.ty with
    | .array _ _ => createGEP alloca.ty alloca.value (.const (.int 0)) (.const (.int 0))
    | _ => createLoad alloca.ty alloca.value
  | some subIdx => do
    let ptr ← elementPtr alloca subIdx
    createLoad .i64 ptr

end Access

/-- The initial value of a global: all of `vals` must be `ConstantInt`s. -/
def constantInts (vals : List Value) : CG (List (BitVec 64)) := deref (vals.mapM (·.sextValue?))

/-- `ConstantArray::get`: without values, the null value of the type. -/
def constantArray (ty : Ty) : List (BitVec 64) → Const
  | [] => .zero ty
  | vals => .array vals

/-- `defineGlobalValue`. The name is looked up among the global variables only, so a function of that name is no
    obstacle. -/
def defineGlobalValue (ident : String) (vals : List Value) (arraySize : Option Value) : CG Unit := do
  if ((← get).global? ident).isSome then
    logError ("redefine global var/const: " ++ ident)
  match arraySize with
  | none =>
    getOrInsertGlobal ident .i64
    let val ← deref (vals.head?.bind (·.sextValue?))
    let g ← deref ((← get).global? ident)
    modify (·.setInitializer g.name (.int val))
  | some arraySize =>
    let size ← deref arraySize.sextValue?
    getOrInsertGlobal ident (.array size.toNat .i64)
    let init ← constantInts vals
    let g ← deref ((← get).global? ident)
    modify (·.setInitializer g.name (constantArray (.array size.toNat .i64) init))

section Access
variable [ConstantFolder]

/-- `defineValue`: outside all layers it defines a global variable, else a name of the current layer. -/
def defineValue (ident : String) (ty : ValType) (vals : List Value) (arraySize : Option Value) (isPtr : Bool) :
    CG Unit := do
  match (← get).namedValues with
  | [] =>
    defineGlobalValue ident vals arraySize
    modify (·.log (.define ident ty (.global ident)))
  | layer :: _ =>
    if (layer.lookup ident).isNone then
      let alloca ← createDefineValueInst vals arraySize isPtr
      modify fun s => (s.bind ident (match ty with
        | .const => .constVal alloca
        | .var => .varVal alloca)).log (.define ident ty (.local alloca))
    else
      logError "this ident has been defined"

/-- The global variable of that name, or `LogError`. -/
def requireGlobal (ident : String) : CG GlobalVariable := do
  match (← get).global? ident with
  | some key => return key
  | none => logError ("global var/const: " ++ ident ++ " doesn't exist")

/-- The address of element `subIdx` of a global. The first index is `ConstantInt::get(ty, 0)` at the
    variable's own type `ty`, as `setGlobalValue` and `getGlobalValue` write it. -/
def globalElementPtr (key : GlobalVariable) (subIdx : Value) : CG Value :=
  let firstVal : Const := if key.valueTy = .i64 then .int 0 else .illInt
  createGEP key.valueTy (.const (.global key.name key.valueTy)) (.const firstVal) subIdx

/-- `setGlobalValue`. Whether the variable is a constant is not asked; the loaded old value is not used. -/
def setGlobalValue (ident : String) (val : Value) (subIdx : Option Value) : CG Unit := do
  let key ← requireGlobal ident
  match subIdx with
  | none =>
    if (← get).namedValues.isEmpty then
      let v ← deref val.sextValue?
      modify (·.setInitializer key.name (.int v))
    else
      let _ ← createLoad key.valueTy (.const (.global key.name key.valueTy))
      createStore val (.const (.global key.name key.valueTy))
  | some subIdx =>
    let ptr ← globalElementPtr key subIdx
    createStore val ptr

/-- `getGlobalValue`. An element is loaded with the type of the whole array. -/
def getGlobalValue (ident : String) (subIdx : Option Value) : CG Value := do
  let key ← requireGlobal ident
  match subIdx with
  | none =>
    if (← get).namedValues.isEmpty then
      return .const (← deref key.init)
    else
      createLoad key.valueTy (.const (.global key.name key.valueTy))
  | some subIdx =>
    let ptr ← globalElementPtr key subIdx
    createLoad key.valueTy ptr

/-- `setValue` with `ValType::VAR`, the only type it is called with. -/
def setValue (ident : String) (val : Value) (subIdx : Option Value) : CG Unit := do
  modify fun s => s.log (.assign ident subIdx.isSome (s.storage? ident))
  match (← get).lookup ident with
  | none => setGlobalValue ident val subIdx
  | some (.varVal alloca) => createSetValueInst alloca val subIdx
  | some (.constVal _) => logError (ident ++ " is a const")

/-- `getValue` with `ValType::ANY`, the only type it is called with: both alternatives are read alike. -/
def getValue (ident : String) (subIdx : Option Value) : CG Value := do
  modify fun s => s.log (.read ident subIdx.isSome (s.storage? ident))
  match (← get).lookup ident with
  | none => getGlobalValue ident subIdx
  | some v => createGetValueInst v.alloca subIdx

end Access

/-! ### The standard library -/

/-- The library functions, with their result and parameter types. -/
def standardLibrary : List (String × Ty × List Ty) :=
  [("getint", .i64, []),
   ("putint", .void, [.i64]),
   ("getch", .i64, []),
   ("putch", .void, [.i64]),
   ("putarray", .void, [.i64, .ptr]),
   ("getarray", .i64, [.ptr]),
   ("print", .void, [.i64, .ptr]),
   ("scan", .i64, [.ptr]),
   ("printStr", .void, [.i64, .ptr]),
   ("plusStrStr", .void, [.ptr, .ptr, .i64, .i64, .ptr]),
   ("mulStrNum", .void, [.ptr, .i64, .i64, .ptr]),
   ("plusStrNum", .void, [.ptr, .i64, .i64, .ptr])]

/-- `codeGenStandardLibrary` declares them in this order. -/
def codeGenStandardLibrary : CG Unit :=
  standardLibrary.forM fun (name, retTy, params) => discard (createFunction name retTy params)

end L24
