import L24.Theorems.Stmt
import L24.Flow

/-! What the builder makes of an expression, read off the expression, the scope tables and the module: whether
    code generation stops there, and how, and otherwise whether the value is a constant, and which one, or the
    result of an instruction, and of which type. -/

namespace L24
open Ir

/-- The stop is a `LogError`. -/
def Stop.isLogged : Stop → Bool
  | .logError _ => true
  | .nullDeref | .unreachable => false

/-- A value without its register: the constant itself, or the type of an instruction's result. -/
inductive Form
  | const (c : Const)
  | inst (ty : Ty)
  deriving DecidableEq, Repr

/-- The form of a value; arguments and allocas are no values of expressions. -/
def Form.of : Value → Form
  | .const c => .const c
  | v => .inst v.ty

namespace Form

/-- The type of the value. -/
def ty : Form → Ty
  | .const c => c.ty
  | .inst ty => ty

/-- `dyn_cast<ConstantInt>`, where it succeeds. -/
def int? : Form → Option (BitVec 64)
  | .const c => (Value.const c).sextValue?
  | .inst _ => none

/-! ### The operations of the builder -/

section
variable [ConstantFolder]

/-- `createBinOp`, on forms. -/
def binOp (op : BinOp) : Form → Form → Form
  | .const c, .const d => .const (op.fold c d)
  | a, _ => .inst a.ty

/-- The negation of a value; void has no null value. -/
def neg (a : Form) : Except Stop Form :=
  if a.ty = .void then .error .unreachable else .ok (binOp .sub (.const (nullValue a.ty)) a)

/-- `createICmp`, on forms. -/
def iCmp (p : Pred) : Form → Form → Form
  | .const c, .const d => .const (p.fold c d)
  | _, _ => .inst .i1

/-- `createSelect`, on forms. -/
def select : Form → Form → Form → Form
  | .const c, .const t, .const f => .const (foldSelect c t f)
  | _, t, _ => .inst t.ty

/-- `createIntCast`, on forms. -/
def intCast (a : Form) : Form :=
  if a.ty = .i64 then a
  else match a with
    | .const c => .const (foldZExt .i64 c)
    | .inst _ => .inst .i64

/-- `intToBoolean`, on forms. -/
def toBoolean (a : Form) : Form := iCmp .ne (.const (.int 0)) a

end

end Form

/-- The form of a load, for which there must be an insertion block. -/
def State.loadForm (s : State) (ty : Ty) : Except Stop Form :=
  if s.insertPoint.isSome then .ok (.inst ty) else .error .nullDeref

/-- The form of a read: of a name, or of an element. Outside all functions a name of a global is its initialiser. -/
def State.valueForm (s : State) (x : String) (sub : Bool) : Except Stop Form :=
  match s.lookup x with
  | some nv =>
    if sub then s.loadForm .i64
    else match nv.alloca.ty with
      | .array _ _ => .ok (.inst .ptr)
      | ty => s.loadForm ty
  | none => match s.global? x with
    | none => .error (.logError ("global var/const: " ++ x ++ " doesn't exist"))
    | some g =>
      if sub then s.loadForm g.valueTy
      else if s.namedValues.isEmpty then match g.init with
        | some c => .ok (.const c)
        | none => .error .nullDeref
      else s.loadForm g.valueTy

section
variable [ConstantFolder]

mutual

/-- The form of an expression's value, or the stop in its code generation. -/
def Exp.form (s : State) : Exp → Except Stop Form
  | .number v => .ok (.const (.int v))
  | .name x => s.valueForm x false
  | .index x e => do
    let _ ← e.form s
    s.valueForm x true
  | .call f args =>
    match s.function? f with
    | none => .error (.logError ("unknown function " ++ f))
    | some func =>
      if func.params.length ≠ args.length then .error (.logError (argumentsNumber func args.length))
      else do
        let _ ← argForms s args
        .ok (.inst func.retTy)
  | .unary op e => do
    let a ← e.form s
    match op with
    | .plus => .ok a
    | .minus => a.neg
    | .not => .ok (Form.iCmp .eq (.const (.int 0)) a).intCast
  | .arith op a b => do
    let a ← a.form s
    let b ← b.form s
    .ok (Form.binOp op a b)
  | .cmp p a b => do
    let a ← a.form s
    let b ← b.form s
    .ok (Form.iCmp p a b).intCast
  | .land a b => do
    let a ← a.form s
    let b ← b.form s
    .ok (Form.select a.toBoolean b.toBoolean (.const (.bool false))).intCast
  | .lor a b => do
    let a ← a.form s
    let b ← b.form s
    .ok (Form.select a.toBoolean (.const (.bool true)) b.toBoolean).intCast

/-- The forms of the arguments of a call, or what stops their generation. -/
def argForms (s : State) : List Exp → Except Stop (List Form)
  | [] => .ok []
  | e :: es => do
    let f ← e.form s
    let fs ← argForms s es
    .ok (f :: fs)

end

/-- The form of the initial value number `idx`. -/
def initForm (s : State) (init : Option InitValNode) (idx : Nat) : Except Stop Form :=
  match init with
  | none => .ok (.const (.int 0))
  | some init => match init.exps[idx]?, init.stringLiteral[idx]? with
    | some e, _ => e.core.form s
    | none, some c => .ok (.const (.int (c.signExtend 64)))
    | none, none => .ok (.const (.int 0))

/-- The forms of the initial values from number `idx` on, `n` of them. -/
def initForms (s : State) (init : Option InitValNode) : (idx n : Nat) → Except Stop (List Form)
  | _, 0 => .ok []
  | idx, n + 1 => do
    let f ← initForm s init idx
    let fs ← initForms s init (idx + 1) n
    .ok (f :: fs)

/-- The size of an array, and the forms of as many initial values. -/
def Def.arrayForms (d : Def) (s : State) (size : Form) : Except Stop (Option (BitVec 64) × List Form) :=
  match size.int? with
  | none => .error .nullDeref
  | some n =>
    if n = 0 then .error (.logError "You can't define a array with size 0")
    else do
      let fs ← initForms s d.init 0 n.toInt.toNat
      .ok (some n, fs)

/-- The size of an array and the forms of the initial values, as far as they are generated. -/
def Def.forms (d : Def) (s : State) : Except Stop (Option (BitVec 64) × List Form) :=
  match d.exp with
  | none => do
    let fs ← initForms s d.init 0 1
    .ok (none, fs)
  | some e => do
    let size ← e.core.form s
    d.arrayForms s size

/-- The variable that a definition outside all functions makes behind the variables `globals`, if it is accepted: its
    size and its initial values fold then, and nothing else of the state goes into them. -/
def Def.globalVariable (d : Def) (globals : List GlobalVariable) : GlobalVariable :=
  match d.forms { globals } with
  | .ok (none, fs) => ⟨d.ident, .i64, (fs.head?.bind Form.int?).map .int⟩
  | .ok (some n, fs) =>
    ⟨d.ident, .array n.toNat .i64, (fs.mapM Form.int?).map (constantArray (.array n.toNat .i64))⟩
  | .error _ => ⟨d.ident, .i64, none⟩

end

end L24
