import L24.Lib.Steps
import L24.Context

/-! The meaning of programs with `int` scalars and local arrays, by structure: what expressions evaluate to,
    how statements change the scopes, and what functions return. `&&` and `||` evaluate both operands.
    The fuel bounds the depth of calls and the iterations of each loop. -/

namespace L24
open Ir Steps

/-- What a name stands for in a scope. -/
inductive Cell
  | scalar (v : BitVec 64)
  | array (vs : List (BitVec 64))
  deriving DecidableEq, Repr

/-- The names of a block. -/
abbrev Scope := List (String × Cell)

/-- The open scopes, the innermost first. -/
abbrev Scopes := List Scope

/-- The innermost cell of that name. -/
def Scopes.lookup (sc : Scopes) (x : String) : Option Cell := sc.findSome? (List.lookup x)

/-- Change the innermost entry of `x`. -/
def Scope.set (x : String) (c : Cell) : Scope → Scope
  | [] => []
  | (y, d) :: scope => if x = y then (y, c) :: scope else (y, d) :: Scope.set x c scope

/-- The innermost cell of that name, changed. -/
def Scopes.set (x : String) (c : Cell) : Scopes → Scopes
  | [] => []
  | scope :: outer => if (List.lookup x scope).isSome then scope.set x c :: outer else scope :: Scopes.set x c outer

/-- Add a name to the innermost scope. -/
def Scopes.define (x : String) (c : Cell) : Scopes → Scopes
  | [] => []
  | scope :: outer => ((x, c) :: scope) :: outer

/-- The global scalars, and what the library functions work on. -/
structure World (W : Type) where
  globals : String → Option (BitVec 64)
  ext : W

/-- What the library functions do. The value counts for functions with a result only. -/
abbrev Library (W : Type) := String → List (BitVec 64) → W → Option (BitVec 64 × W)

variable {W : Type}

/-- What a call does. -/
abbrev Calls (W : Type) := String → List (BitVec 64) → World W → Res (Option (BitVec 64) × World W)

/-- The program has no meaning here. -/
def wrong {α : Type} : Res α := .error .wrong

/-- The value of something that must have one. -/
def value : Option (BitVec 64) × World W → Res (BitVec 64 × World W)
  | (some v, w) => .ok (v, w)
  | (none, _) => wrong

/-- A value that an operation may not have. -/
def defined {α : Type} (o : Option α) : Res α :=
  match o with
  | some a => .ok a
  | none => wrong

/-- The value of a sign, and of `!`. -/
def UnaryOp.eval : UnaryOp → BitVec 64 → BitVec 64
  | .plus, v => v
  | .minus, v => -v
  | .not, v => boolToInt (v == 0)

/-- The element `i` of an array. -/
def element (vs : List (BitVec 64)) (i : BitVec 64) : Option (BitVec 64) :=
  if 0 ≤ i.toInt then vs[i.toInt.toNat]? else none

/-- The array with the element `i` changed. -/
def setElement (vs : List (BitVec 64)) (i v : BitVec 64) : Option (List (BitVec 64)) :=
  if 0 ≤ i.toInt ∧ i.toInt.toNat < vs.length then some (vs.set i.toInt.toNat v) else none

/-- A scalar variable: a local one, or else a global one. -/
def readScalar (sc : Scopes) (x : String) (w : World W) : Option (BitVec 64) :=
  match sc.lookup x with
  | some (.scalar v) => some v
  | some (.array _) => none
  | none => w.globals x

/-- An element of a local array. -/
def readElement (sc : Scopes) (x : String) (i : BitVec 64) : Option (BitVec 64) :=
  match sc.lookup x with
  | some (.array vs) => element vs i
  | _ => none

mutual

/-- The value of an expression, and the world after its calls. Operands are evaluated from left to right, both
    those of `&&` and `||` too. -/
def evalExp (call : Calls W) (sc : Scopes) : Exp → World W → Res (Option (BitVec 64) × World W)
  | .number v, w => .ok (some v, w)
  | .name x, w => do
    let v ← defined (readScalar sc x w)
    .ok (some v, w)
  | .index x e, w => do
    let (i, w) ← value (← evalExp call sc e w)
    let v ← defined (readElement sc x i)
    .ok (some v, w)
  | .call f args, w => do
    let (vs, w) ← evalExps call sc args w
    call f vs w
  | .unary op e, w => do
    let (v, w) ← value (← evalExp call sc e w)
    .ok (some (op.eval v), w)
  | .arith op a b, w => do
    let (x, w) ← value (← evalExp call sc a w)
    let (y, w) ← value (← evalExp call sc b w)
    let z ← defined (op.eval x y)
    .ok (some z, w)
  | .cmp p a b, w => do
    let (x, w) ← value (← evalExp call sc a w)
    let (y, w) ← value (← evalExp call sc b w)
    .ok (some (boolToInt (p.eval x y)), w)
  | .land a b, w => do
    let (x, w) ← value (← evalExp call sc a w)
    let (y, w) ← value (← evalExp call sc b w)
    .ok (some (boolToInt (x != 0 && y != 0)), w)
  | .lor a b, w => do
    let (x, w) ← value (← evalExp call sc a w)
    let (y, w) ← value (← evalExp call sc b w)
    .ok (some (boolToInt (x != 0 || y != 0)), w)

/-- The arguments of a call, from left to right. -/
def evalExps (call : Calls W) (sc : Scopes) : List Exp → World W → Res (List (BitVec 64) × World W)
  | [], w => .ok ([], w)
  | e :: es, w => do
    let (v, w) ← value (← evalExp call sc e w)
    let (vs, w) ← evalExps call sc es w
    .ok (v :: vs, w)

end

/-! ### Statements -/

/-- The state of a running function. -/
structure Env (W : Type) where
  scopes : Scopes
  world : World W

/-- How a statement ends. -/
inductive Outcome
  | normal
  | brk
  | cont
  | ret (v : Option (BitVec 64))
  deriving DecidableEq, Repr

/-- Evaluate an expression that must have a value. -/
def Env.eval (call : Calls W) (env : Env W) (e : ExprNode) : Res (BitVec 64 × Env W) := do
  let (v, w) ← value (← evalExp call env.scopes e.core env.world)
  .ok (v, { env with world := w })

/-- The initial value number `idx`: the listed expression or character, or zero behind the last one. -/
def evalInit (call : Calls W) (init : Option InitValNode) (idx : Nat) (env : Env W) : Res (BitVec 64 × Env W) :=
  match init with
  | none => .ok (0, env)
  | some init => match init.exps[idx]?, init.stringLiteral[idx]? with
    | some e, _ => env.eval call e
    | none, some c => .ok (c.signExtend 64, env)
    | none, none => .ok (0, env)

/-- The initial values from number `idx` on, `n` of them. -/
def evalInits (call : Calls W) (init : Option InitValNode) : (idx n : Nat) → Env W → Res (List (BitVec 64) × Env W)
  | _, 0, env => .ok ([], env)
  | idx, n + 1, env => do
    let (v, env) ← evalInit call init idx env
    let (vs, env) ← evalInits call init (idx + 1) n env
    .ok (v :: vs, env)

/-- The size of an array: a positive literal. -/
def literalSize (e : ExprNode) : Option Nat :=
  match e.core with
  | .number n => if 0 < n.toInt then some n.toInt.toNat else none
  | _ => none

/-- A definition: the name is in scope behind it. -/
def execDef (call : Calls W) (x : String) (init : Option InitValNode) (size : Option ExprNode) (env : Env W) :
    Res (Env W) := do
  match size with
  | none =>
    let (v, env) ← evalInit call init 0 env
    .ok { env with scopes := env.scopes.define x (.scalar v) }
  | some e =>
    let n ← defined (literalSize e)
    let (vs, env) ← evalInits call init 0 n env
    .ok { env with scopes := env.scopes.define x (.array vs) }

/-- The definitions of a const declaration, in their order. -/
def execConstDefs (call : Calls W) : List ConstDefNode → Env W → Res (Env W)
  | [], env => .ok env
  | d :: ds, env => do
    let env ← execDef call d.ident (some d.initVal) d.exp env
    execConstDefs call ds env

/-- The definitions of a var declaration, in their order. -/
def execVarDefs (call : Calls W) : List VarDefNode → Env W → Res (Env W)
  | [], env => .ok env
  | d :: ds, env => do
    let env ← execDef call d.ident d.initVal d.exp env
    execVarDefs call ds env

/-- A declaration in a block. -/
def execDecl (call : Calls W) (d : DeclNode) (env : Env W) : Res (Env W) :=
  match d with
  | .constDecl d => execConstDefs call d.constDefs env
  | .varDecl d => execVarDefs call d.varDefs env

/-- Assign to a scalar: the innermost local of that name, or the global. -/
def Env.assign (env : Env W) (x : String) (v : BitVec 64) : Option (Env W) :=
  match env.scopes.lookup x with
  | some (.scalar _) => some { env with scopes := env.scopes.set x (.scalar v) }
  | some (.array _) => none
  | none => (env.world.globals x).map fun _ =>
    { env with world := { env.world with globals := Function.update env.world.globals x (some v) } }

/-- Assign to an element of an array. -/
def Env.assignElement (env : Env W) (x : String) (i v : BitVec 64) : Option (Env W) :=
  match env.scopes.lookup x with
  | some (.array vs) => (setElement vs i v).map fun vs' => { env with scopes := env.scopes.set x (.array vs') }
  | _ => none

/-- An assignment: the value is evaluated first, then the subscript. -/
def execAssign (call : Calls W) (x : String) (sub : Option ExprNode) (e : ExprNode) (env : Env W) : Res (Env W) := do
  let (v, env) ← env.eval call e
  match sub with
  | none => defined (env.assign x v)
  | some sub =>
    let (i, env) ← env.eval call sub
    defined (env.assignElement x i v)

/-- A loop with a bound on its iterations. -/
def loop (cond : Env W → Res (BitVec 64 × Env W)) (body : Env W → Res (Outcome × Env W)) :
    Nat → Env W → Res (Outcome × Env W)
  | 0, _ => .error .timeout
  | n + 1, env => do
    let (v, env) ← cond env
    if v = 0 then .ok (.normal, env)
    else
      let (o, env) ← body env
      match o with
      | .normal | .cont => loop cond body n env
      | .brk => .ok (.normal, env)
      | .ret v => .ok (.ret v, env)

/-- A block is entered. -/
def Env.push (env : Env W) : Env W := { env with scopes := [] :: env.scopes }

/-- A block is left. -/
def Env.pop (env : Env W) : Env W := { env with scopes := env.scopes.tail }

mutual

/-- Execute a statement with fuel `n` for each loop. -/
def execStmt (call : Calls W) (n : Nat) : StmtNode → Env W → Res (Outcome × Env W)
  | .block items, env => do
    let (o, env) ← execItems call n items env.push
    .ok (o, env.pop)
  | .ifStmt e thenStmt elseStmt, env => do
    let (v, env) ← env.eval call e
    if v ≠ 0 then execStmt call n thenStmt env else execElse call n elseStmt env
  | .whileStmt e body, env => loop (Env.eval call · e) (execStmt call n body) n env
  | .continueStmt, env => .ok (.cont, env)
  | .breakStmt, env => .ok (.brk, env)
  | .ret none, env => .ok (.ret none, env)
  | .ret (some e), env => do
    let (v, env) ← env.eval call e
    .ok (.ret (some v), env)
  | .expr none, env => .ok (.normal, env)
  | .expr (some e), env => do
    let (_, w) ← evalExp call env.scopes e.core env.world
    .ok (.normal, { env with world := w })
  | .assign x sub e, env => do
    let env ← execAssign call x sub e env
    .ok (.normal, env)

/-- The else branch, if there is one. -/
def execElse (call : Calls W) (n : Nat) : Option StmtNode → Env W → Res (Outcome × Env W)
  | none, env => .ok (.normal, env)
  | some st, env => execStmt call n st env

/-- An item of a block. -/
def execItem (call : Calls W) (n : Nat) : BlockItemNode → Env W → Res (Outcome × Env W)
  | .decl d, env => do
    let env ← execDecl call d env
    .ok (.normal, env)
  | .stmt st, env => execStmt call n st env

/-- The items of a block, up to the first one that does not end normally. -/
def execItems (call : Calls W) (n : Nat) : List BlockItemNode → Env W → Res (Outcome × Env W)
  | [], env => .ok (.normal, env)
  | item :: items, env => do
    let (o, env) ← execItem call n item env
    match o with
    | .normal => execItems call n items env
    | o => .ok (o, env)

end

/-! ### Functions -/

/-- The function among the top-level items. -/
def TopItem.func? : TopItem → Option FuncNode
  | .func f => some f
  | .decl _ => none

/-- The functions of a program. -/
def EntryNode.funcs (node : EntryNode) : List FuncNode := node.prog.items.filterMap TopItem.func?

/-- What a function with the result type `t` returns when its body ends so. A `return` without a value, or no
    `return`, leaves it without a result. -/
def Outcome.result (t : FuncType) : Outcome → Res (Option (BitVec 64))
  | .normal | .ret none => .ok none
  | .ret (some v) => if t = .int then .ok (some v) else wrong
  | .brk | .cont => wrong

/-- What a library function returns, by its declared result type. -/
def libraryResult (f : String) (v : BitVec 64) : Option (BitVec 64) :=
  match standardLibrary.lookup f with
  | some (.i64, _) => some v
  | _ => none

/-- A call of a function with `int` parameters, which form a scope around the body. -/
def callFunc (call : Calls W) (n : Nat) (g : FuncNode) (args : List (BitVec 64)) (w : World W) :
    Res (Option (BitVec 64) × World W) :=
  if g.param.length = args.length ∧ ∀ p ∈ g.param, p.type = .int then do
    let scope : Scope := ((g.param.map (·.ident)).zip (args.map .scalar)).reverse
    let (o, env) ← execStmt call n (.block g.block) { scopes := [scope], world := w }
    let v ← o.result g.type
    .ok (v, env.world)
  else wrong

/-- A call of a library function. -/
def callLibrary (lib : Library W) (f : String) (args : List (BitVec 64)) (w : World W) :
    Res (Option (BitVec 64) × World W) := do
  let (v, ext) ← defined (lib f args w.ext)
  .ok (libraryResult f v, { w with ext })

/-- A call of a function of the program, or of a library function. -/
def callAt (lib : Library W) (node : EntryNode) : Nat → Calls W
  | 0, _, _, _ => .error .timeout
  | n + 1, f, args, w => match node.funcs.find? (·.ident == f) with
    | some g => callFunc (callAt lib node n) n g args w
    | none => callLibrary lib f args w

end L24
