import L24.Ir.Syntax

/-! The machine that runs the IR: one step per instruction, with an explicit stack of frames.

    Memory is a set of blocks of 8-byte cells: one block for each global variable, and one for each
    executed alloca. A block is executed in order, and the first terminator leaves it. A step that has
    no meaning (an operand of the wrong kind, an address outside its block, a division by zero, a
    missing block or function) is no step: the machine is stuck. -/

namespace Ir

/-- A block of memory: the storage of a global variable, or the `n`-th one an alloca made. -/
inductive Blk
  | global (name : String)
  | stack (n : Nat)
  deriving DecidableEq, Repr

/-- Run-time values. An aggregate is a loaded array; no instruction here takes one apart. -/
inductive Val
  | int (v : BitVec 64)
  | bool (b : Bool)
  | ptr (b : Blk) (off : Int)
  | agg (ty : Ty)
  | undef
  deriving DecidableEq, Repr

/-- An integer as a number of elements. -/
def Val.count? : Val → Option Nat
  | .int v => some v.toNat
  | .bool b => some b.toNat
  | _ => none

/-- A value that is an integer. -/
def Val.int? : Val → Option (BitVec 64)
  | .int v => some v
  | _ => none

/-- Memory: the cells of each block. -/
structure Mem where
  cells : Blk → List Val
  /-- The number of blocks that allocas made so far. -/
  next : Nat

namespace Mem

/-- The cell at an address, if the address lies inside its block. -/
def cell? (m : Mem) (b : Blk) (off : Int) : Option Val :=
  if 0 ≤ off then (m.cells b)[off.toNat]? else none

/-- Loading at a scalar type reads a cell that holds such a value; at an array type, an aggregate. -/
def load (m : Mem) (ty : Ty) (b : Blk) (off : Int) : Option Val :=
  match ty, m.cell? b off with
  | .i64, some (.int v) => some (.int v)
  | .ptr, some (.ptr b' o) => some (.ptr b' o)
  | .i64, some .undef | .ptr, some .undef => some .undef
  | .array n elt, some _ => some (.agg (.array n elt))
  | _, _ => none

/-- Memory with one cell changed. -/
def put (m : Mem) (b : Blk) (i : Nat) (v : Val) : Mem :=
  { m with cells := Function.update m.cells b ((m.cells b).set i v) }

/-- Storing writes a cell that is there. -/
def store (m : Mem) (b : Blk) (off : Int) (v : Val) : Option Mem :=
  if 0 ≤ off ∧ off.toNat < (m.cells b).length then some (m.put b off.toNat v) else none

/-- A fresh block of `n` cells. -/
def alloc (m : Mem) (n : Nat) : Mem :=
  { cells := Function.update m.cells (.stack m.next) (List.replicate n .undef), next := m.next + 1 }

section
variable {m : Mem} {b b' : Blk} {i : Nat} {v : Val}

@[simp] theorem put_next : (m.put b i v).next = m.next := rfl

@[simp] theorem put_cells_self : (m.put b i v).cells b = (m.cells b).set i v := Function.update_self ..

theorem put_cells_of_ne (h : b' ≠ b) : (m.put b i v).cells b' = m.cells b' := Function.update_of_ne h ..

theorem put_length : ((m.put b i v).cells b').length = (m.cells b').length := by
  by_cases h : b' = b
  · rw [h, put_cells_self, List.length_set]
  · rw [put_cells_of_ne h]

theorem alloc_cells_self {n : Nat} : (m.alloc n).cells (.stack m.next) = List.replicate n .undef :=
  Function.update_self ..

theorem alloc_cells_of_ne {n : Nat} (h : b ≠ .stack m.next) : (m.alloc n).cells b = m.cells b :=
  Function.update_of_ne h ..

theorem store_eq {off : Int} (h₀ : 0 ≤ off) (h : off.toNat < (m.cells b).length) :
    m.store b off v = some (m.put b off.toNat v) := if_pos ⟨h₀, h⟩

end

/-- The cells of a global variable when the program starts. Initialisers are integers, arrays of them, and the null
    value of an array. -/
def initialCells (g : GlobalVariable) : List Val :=
  match g.init with
  | none => List.replicate g.valueTy.cells .undef
  | some (.int v) => [.int v]
  | some (.array elts) => elts.map .int
  | some (.zero ty) => List.replicate ty.cells (.int 0)
  | some _ => []

/-- Memory when the program starts. -/
def initial (globals : List GlobalVariable) : Mem where
  cells
    | .global x => ((globals.find? (·.name == x)).map initialCells).getD []
    | .stack _ => []
  next := 0

end Mem

/-- An activation of a function: what is left of the current block, and where the caller wants the
    result (`dest`). -/
structure Frame where
  func : Function
  args : List Val
  regs : Reg → Option Val
  slots : Slot → Option Nat
  code : List Inst
  dest : Reg

namespace Frame

/-- The frame with one more result. -/
def setReg (fr : Frame) (r : Reg) (v : Val) : Frame := { fr with regs := Function.update fr.regs r (some v) }

/-- The frame in which an alloca has its block. -/
def setSlot (fr : Frame) (s : Slot) (b : Nat) : Frame := { fr with slots := Function.update fr.slots s (some b) }

end Frame

/-- The value of a constant. The zero of no bits counts as an index, and there it is zero. -/
def Const.eval : Const → Val
  | .int v => .int v
  | .bool b => .bool b
  | .illInt => .int 0
  | .poison _ | .expr _ => .undef
  | .zero (.array n elt) => .agg (.array n elt)
  | .zero _ => .undef
  | .array elts => .agg (.array elts.length .i64)
  | .gep srcTy base i j =>
    match base.eval, i.eval, j.eval, srcTy with
    | .ptr b o, .int x, .int y, .array n elt =>
      .ptr b (o + x.toInt * (n * elt.cells) + y.toInt * elt.cells)
    | _, _, _, _ => .undef
  | .global name _ => .ptr (.global name) 0

/-- The value of an operand in a frame, if it has one. -/
def Frame.eval (fr : Frame) : Value → Option Val
  | .const c => some c.eval
  | .arg i _ => fr.args[i]?
  | .alloca s _ => (fr.slots s).map fun n => .ptr (.stack n) 0
  | .inst r _ => fr.regs r

/-- The address a `getelementptr` computes: one index steps over whole elements of `srcTy`, a second
    one into an array. -/
def gepOffset (srcTy : Ty) : List Val → Option Int
  | [.int x] => some (x.toInt * srcTy.cells)
  | [.int x, .int y] => match srcTy with
    | .array n elt => some (x.toInt * (n * elt.cells) + y.toInt * elt.cells)
    | _ => none
  | _ => none

/-- What functions without a body do: they get their arguments, and may change memory and the world. -/
abbrev Ext (W : Type) := String → List Val → Mem → W → Option (Option Val × Mem × W)

/-- A state of the machine: the running frame above those that wait, or the end. -/
inductive Config (W : Type)
  | run (fr : Frame) (stack : List Frame) (mem : Mem) (w : W)
  | done (result : Option Val) (mem : Mem) (w : W)

variable {W : Type}

/-- The frame that a call of `f` starts. -/
def Frame.enter (f : Function) (args : List Val) (code : List Inst) (dest : Reg) : Frame :=
  { func := f, args, regs := fun _ => none, slots := fun _ => none, code, dest }

/-- Leave the current frame with `result`. -/
def Config.leave (fr : Frame) (stack : List Frame) (mem : Mem) (w : W) (result : Option Val) : Config W :=
  match stack with
  | [] => .done result mem w
  | caller :: rest => .run (match result with
    | some v => caller.setReg fr.dest v
    | none => caller) rest mem w

/-- Call the function `callee`: a new frame for a definition, `ext` for a declaration. -/
def Config.call (M : Module) (ext : Ext W) (fr : Frame) (stack : List Frame) (mem : Mem) (w : W) (r : Reg)
    (callee : String) (args : List Val) : Option (Config W) :=
  match M.function? callee with
  | none => none
  | some f => match f.blocks with
    | [] => (ext callee args mem w).map fun (v, mem', w') =>
      .run (match v with
        | some v => fr.setReg r v
        | none => fr) stack mem' w'
    | (_, code) :: _ => some (.run (Frame.enter f args code r) (fr :: stack) mem w)

/-- The configuration that starts the function `name`. -/
def Config.start (M : Module) (name : String) (args : List Val) (mem : Mem) (w : W) : Option (Config W) :=
  (M.function? name).bind fun f => f.blocks.head?.map fun b => .run (Frame.enter f args b.2 0) [] mem w

/-- The frame at the start of another block. -/
def Frame.jump (fr : Frame) (l : Label) : Option Frame :=
  (fr.func.block? l).map fun code => { fr with code }

/-- Execute the instruction `i`; `fr` already stands behind it. -/
def exec (M : Module) (ext : Ext W) (i : Inst) (fr : Frame) (stack : List Frame) (mem : Mem) (w : W) :
    Option (Config W) :=
  match i with
  | .alloca s ty none => some (.run (fr.setSlot s mem.next) stack (mem.alloc ty.cells) w)
  | .alloca s ty (some count) => ((fr.eval count).bind Val.count?).map fun n =>
    .run (fr.setSlot s mem.next) stack (mem.alloc (ty.cells * n)) w
  | .load r ty p => match fr.eval p with
    | some (.ptr b o) => (mem.load ty b o).map fun v => .run (fr.setReg r v) stack mem w
    | _ => none
  | .store v p => match fr.eval v, fr.eval p with
    | some x, some (.ptr b o) => (mem.store b o x).map fun mem' => .run fr stack mem' w
    | _, _ => none
  | .gep r srcTy p idx => match fr.eval p, (idx.mapM fr.eval).bind (gepOffset srcTy) with
    | some (.ptr b o), some d => some (.run (fr.setReg r (.ptr b (o + d))) stack mem w)
    | _, _ => none
  | .binop r op a b => match fr.eval a, fr.eval b with
    | some (.int x), some (.int y) => (op.eval x y).map fun z => .run (fr.setReg r (.int z)) stack mem w
    | _, _ => none
  | .icmp r p a b => match fr.eval a, fr.eval b with
    | some (.int x), some (.int y) => some (.run (fr.setReg r (.bool (p.eval x y))) stack mem w)
    | _, _ => none
  | .select r c t f => match fr.eval c, fr.eval t, fr.eval f with
    | some (.bool b), some x, some y => some (.run (fr.setReg r (if b then x else y)) stack mem w)
    | _, _, _ => none
  | .zext r v _ => match fr.eval v with
    | some (.bool b) => some (.run (fr.setReg r (.int (boolToInt b))) stack mem w)
    | _ => none
  | .call r callee _ args _ => (args.mapM fr.eval).bind fun vs => Config.call M ext fr stack mem w r callee vs
  | .br l => (fr.jump l).map fun fr' => .run fr' stack mem w
  | .condBr c t f => match fr.eval c with
    | some (.bool b) => (fr.jump (if b then t else f)).map fun fr' => .run fr' stack mem w
    | _ => none
  | .ret none => some (.leave fr stack mem w none)
  | .ret (some v) => (fr.eval v).map fun x => .leave fr stack mem w (some x)

/-- One step: execute the next instruction of the current block. -/
def step (M : Module) (ext : Ext W) : Config W → Option (Config W)
  | .run fr stack mem w => match fr.code with
    | [] => none
    | i :: rest => exec M ext i { fr with code := rest } stack mem w
  | .done _ _ _ => none

end Ir
