import Mathlib.Logic.Function.Basic

/-! A small LLVM IR: types, constants, values, instructions, functions and modules, and the constant
    folding of the IR builder. Objects that LLVM links by pointers carry numbers: an instruction's
    result is a `Reg`, an alloca a `Slot`, a basic block a `Label`. What LLVM does is the behaviour of
    LLVM 18; where it depends on the version or on code that expects well-typed operands, it is a
    parameter (`ConstantFolder`). -/

namespace Ir

/-- A result of an instruction. -/
abbrev Reg := Nat
/-- An alloca. -/
abbrev Slot := Nat
/-- A basic block. -/
abbrev Label := Nat

/-- First-class types. Pointers are opaque. `i0` is no type of the language: an integer of no bits, which
    `ConstantInt::get` makes at a type that is not an integer type. -/
inductive Ty
  | void
  | i0
  | i1
  | i64
  | ptr
  | array (n : Nat) (elt : Ty)
  deriving DecidableEq, Repr

/-- The number of 8-byte cells a value of the type takes in memory. -/
def Ty.cells : Ty → Nat
  | .void | .i0 => 0
  | .i1 | .i64 | .ptr => 1
  | .array n elt => n * elt.cells

/-- `BinaryOperator`s. All are signed. -/
inductive BinOp
  | add | sub | mul | sdiv | srem
  deriving DecidableEq, Repr

/-- `CmpInst::Predicate`. -/
inductive Pred
  | eq | ne | slt | sgt | sle | sge
  deriving DecidableEq, Repr

/-- Constants. An array of zeros is an `array` here too; the other constants that the folder may give are
    `expr`, of which only the type is read. -/
inductive Const
  | int (v : BitVec 64)
  | bool (b : Bool)
  /-- `ConstantInt::get(ty, 0)` at a type that is no integer type: the zero of no bits. -/
  | illInt
  | poison (ty : Ty)
  /-- `Constant::getNullValue` of a type that is no integer type. -/
  | zero (ty : Ty)
  | array (elts : List (BitVec 64))
  | global (name : String) (valueTy : Ty)
  | gep (srcTy : Ty) (base i j : Const)
  | expr (ty : Ty)
  deriving DecidableEq, Repr

/-- The type of a constant. Addresses are opaque pointers. -/
def Const.ty : Const → Ty
  | .int _ => .i64
  | .bool _ => .i1
  | .illInt => .i0
  | .poison ty => ty
  | .zero ty => ty
  | .array elts => .array elts.length .i64
  | .global _ _ => .ptr
  | .gep _ _ _ _ => .ptr
  | .expr ty => ty

/-- Operands. An alloca carries its allocated type (`AllocaInst::getAllocatedType`). -/
inductive Value
  | const (c : Const)
  | arg (i : Nat) (ty : Ty)
  | alloca (s : Slot) (ty : Ty)
  | inst (r : Reg) (ty : Ty)
  deriving DecidableEq, Repr

/-- The type of an operand. -/
def Value.ty : Value → Ty
  | .const c => c.ty
  | .arg _ ty => ty
  | .alloca _ _ => .ptr
  | .inst _ ty => ty

/-- `isa<Constant>`. -/
def Value.isConst : Value → Bool
  | .const _ => true
  | _ => false

/-- `dyn_cast<ConstantInt>(v)->getSExtValue()`, where the cast succeeds. -/
def Value.sextValue? : Value → Option (BitVec 64)
  | .const (.int v) => some v
  | .const (.bool b) => some (if b then -1 else 0)
  | _ => none

/-- Instructions, each with the result that it defines. -/
inductive Inst
  | alloca (s : Slot) (ty : Ty) (count : Option Value)
  | load (r : Reg) (ty : Ty) (ptr : Value)
  | store (val ptr : Value)
  | gep (r : Reg) (srcTy : Ty) (ptr : Value) (idx : List Value)
  | binop (r : Reg) (op : BinOp) (a b : Value)
  | icmp (r : Reg) (pred : Pred) (a b : Value)
  | select (r : Reg) (c t f : Value)
  | zext (r : Reg) (val : Value) (ty : Ty)
  | call (r : Reg) (callee : String) (retTy : Ty) (args : List Value) (name : String)
  | br (target : Label)
  | condBr (cond : Value) (thenBB elseBB : Label)
  | ret (val : Option Value)
  deriving DecidableEq, Repr

namespace Inst

/-- `isa<BranchInst>`. -/
def isBranch : Inst → Bool
  | .br _ | .condBr _ _ _ => true
  | _ => false

/-- `isa<ReturnInst>`. -/
def isReturn : Inst → Bool
  | .ret _ => true
  | _ => false

/-- An instruction that ends a block. -/
def isTerminator (i : Inst) : Bool := i.isBranch || i.isReturn

/-- `isa<AllocaInst>`. -/
def isAlloca : Inst → Bool
  | .alloca _ _ _ => true
  | _ => false

/-- The blocks a branch goes to. -/
def targets : Inst → List Label
  | .br l => [l]
  | .condBr _ t f => [t, f]
  | _ => []

/-- The slot an alloca defines. -/
def slot? : Inst → Option Slot
  | .alloca s _ _ => some s
  | _ => none

end Inst

/-- A function: a declaration has no blocks; otherwise the first block is the entry. -/
structure Function where
  name : String
  retTy : Ty
  params : List Ty
  blocks : List (Label × List Inst)

/-- A global variable with the type of its value; without an initialiser it is a declaration. -/
structure GlobalVariable where
  name : String
  valueTy : Ty
  init : Option Const

/-- A module: what the compiler prints. -/
structure Module where
  functions : List Function
  globals : List GlobalVariable

/-- The instructions of a block. -/
def Function.block? (f : Function) (l : Label) : Option (List Inst) := f.blocks.lookup l

/-- The function of that name. -/
def Module.function? (m : Module) (name : String) : Option Function :=
  m.functions.find? (·.name == name)

/-! ### Integer semantics of the operations -/

/-- 64-bit arithmetic; a division by zero and `INT64_MIN / -1` have no value. -/
def BinOp.eval : BinOp → BitVec 64 → BitVec 64 → Option (BitVec 64)
  | .add, x, y => some (x + y)
  | .sub, x, y => some (x - y)
  | .mul, x, y => some (x * y)
  | .sdiv, x, y => if y = 0 ∨ x = BitVec.intMin 64 ∧ y = -1 then none else some (x.sdiv y)
  | .srem, x, y => if y = 0 ∨ x = BitVec.intMin 64 ∧ y = -1 then none else some (x.srem y)

/-- Comparisons as the predicates name them. -/
def Pred.eval : Pred → BitVec 64 → BitVec 64 → Bool
  | .eq, x, y => x == y
  | .ne, x, y => x != y
  | .slt, x, y => x.slt y
  | .sgt, x, y => y.slt x
  | .sle, x, y => x.sle y
  | .sge, x, y => y.sle x

/-- `zext`. -/
def boolToInt (b : Bool) : BitVec 64 := if b then 1 else 0

/-! ### Constant folding

The builder folds an operation exactly when all its operands are constants. -/

/-- The folder on constants other than integers and poison, that is on arrays and on addresses with an index that is
    not zero: what LLVM makes of them is not part of this model, except for the type. -/
class ConstantFolder where
  binOp : BinOp → Const → Const → Const
  iCmp : Pred → Const → Const → Const
  select : Const → Const → Const → Const
  zExt : Ty → Const → Const
  gep (srcTy : Ty) (base i j : Const) : Const
  binOp_ty (op : BinOp) {c d : Const} (h : c.ty = d.ty) : (binOp op c d).ty = c.ty
  iCmp_ty (p : Pred) (c d : Const) : (iCmp p c d).ty = .i1
  select_ty (c : Const) {t f : Const} (h : t.ty = f.ty) : (select c t f).ty = t.ty
  zExt_ty (ty : Ty) (c : Const) : (zExt ty c).ty = ty
  gep_ty (srcTy : Ty) (base i j : Const) : (gep srcTy base i j).ty = .ptr

/-- A folder that computes nothing: each operation stays an expression. -/
@[reducible] def ConstantFolder.symbolic : ConstantFolder where
  binOp _ c _ := .expr c.ty
  iCmp _ _ _ := .expr .i1
  select _ t _ := .expr t.ty
  zExt ty _ := .expr ty
  gep := .gep
  binOp_ty _ _ _ _ := rfl
  iCmp_ty _ _ _ := rfl
  select_ty _ _ _ _ := rfl
  zExt_ty _ _ := rfl
  gep_ty _ _ _ _ := rfl

/-- Arithmetic on integers; poison spreads. -/
def BinOp.fold? (op : BinOp) : Const → Const → Option Const
  | .int x, .int y => some (match op.eval x y with
    | some z => .int z
    | none => .poison .i64)
  | .int _, .poison _ => some (.poison .i64)
  | .poison ty, .int _ | .poison ty, .poison _ => some (.poison ty)
  | _, _ => none

/-- A comparison of integers; poison spreads. -/
def Pred.fold? (p : Pred) : Const → Const → Option Const
  | .int x, .int y => some (.bool (p.eval x y))
  | .int _, .poison _ | .poison _, .int _ | .poison _, .poison _ => some (.poison .i1)
  | _, _ => none

/-- A choice by a boolean; poison spreads. -/
def foldSelect? : Const → Const → Const → Option Const
  | .bool b, t, f => some (if b then t else f)
  | .poison _, t, _ => some (.poison t.ty)
  | _, _, _ => none

/-- A boolean as an integer; poison spreads. -/
def foldZExt? (ty : Ty) : Const → Option Const
  | .bool b => some (.int (boolToInt b))
  | .poison _ => some (.poison ty)
  | _ => none

/-- `isNullValue()`, or `isa<UndefValue>`: a poison value is undefined. -/
def Const.isZero : Const → Bool
  | .int v => v == 0
  | .bool b => !b
  | .illInt | .poison _ | .zero _ => true
  | .array elts => elts.all (· == 0)
  | .global _ _ | .gep _ _ _ _ | .expr _ => false

/-- An address whose indices are all zero is the base itself, and one of another element of the array stays as it is. An
    index outside of the array LLVM 18 moves into the index in front; later versions leave it. -/
def foldGEP? (srcTy : Ty) (base i j : Const) : Option Const :=
  if i.isZero then
    if j.isZero then some base
    else match srcTy, j with
      | .array n _, .int k => if k.toNat < n then some (.gep srcTy base i j) else none
      | _, _ => none
  else none

section Fold
variable [ConstantFolder]

/-- The constant that an operation on constants becomes: computed where the result is known, else as the folder
    has it. The other operations are alike. -/
def BinOp.fold (op : BinOp) (c d : Const) : Const := (op.fold? c d).getD (ConstantFolder.binOp op c d)

def Pred.fold (p : Pred) (c d : Const) : Const := (p.fold? c d).getD (ConstantFolder.iCmp p c d)

def foldSelect (c t f : Const) : Const := (foldSelect? c t f).getD (ConstantFolder.select c t f)

def foldZExt (ty : Ty) (c : Const) : Const := (foldZExt? ty c).getD (ConstantFolder.zExt ty c)

/-- The address of an element of a constant address. -/
def foldGEP (srcTy : Ty) (base i j : Const) : Const :=
  (foldGEP? srcTy base i j).getD (ConstantFolder.gep srcTy base i j)

/-! The folder computes with integers and booleans. -/

theorem BinOp.fold_int (op : BinOp) (x y : BitVec 64) : op.fold (.int x) (.int y) = (match op.eval x y with
    | some z => .int z
    | none => .poison .i64) := rfl

theorem BinOp.fold_eval {op : BinOp} {x y z : BitVec 64} (h : op.eval x y = some z) :
    op.fold (.int x) (.int y) = .int z := by
  rw [BinOp.fold_int, h]

@[simp] theorem Pred.fold_int (p : Pred) (x y : BitVec 64) : p.fold (.int x) (.int y) = .bool (p.eval x y) := rfl

@[simp] theorem foldSelect_bool (b : Bool) (t f : Const) : foldSelect (.bool b) t f = if b then t else f := rfl

@[simp] theorem foldZExt_bool (ty : Ty) (b : Bool) : foldZExt ty (.bool b) = .int (boolToInt b) := rfl

end Fold

/-! ### Fresh names -/

/-- `makeUniqueName`: the name a value gets in a symbol table, and the table's `LastUnique` behind it. A name that is
    taken gets the first later number as a suffix that makes it fresh. -/
def uniqueName (sep : String) (taken : List String) (lastUnique : Nat) (name : String) : String × Nat :=
  if name ∈ taken then
    let number := ((List.range' (lastUnique + 1) (taken.length + 1)).find? fun k =>
      name ++ sep ++ toString k ∉ taken).getD lastUnique
    (name ++ sep ++ toString number, number)
  else (name, lastUnique)

end Ir
