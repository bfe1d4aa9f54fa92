import L24.Theorems.Basic

/-! How statements leave the block they are generated in: a static analysis of the source. Only expressions
    without names and calls generate nothing (the builder folds them), so whether an instruction is put
    behind a jump can be read off the syntax. -/

namespace L24
open Ir

/-! ### Literal expressions -/

/-- An expression of numbers and operators only. -/
def Exp.literal : Exp → Bool
  | .number _ => true
  | .name _ | .index _ _ | .call _ _ => false
  | .unary _ e => e.literal
  | .arith _ a b | .cmp _ a b | .land a b | .lor a b => a.literal && b.literal

section Fold
variable [ConstantFolder]

/-- `booleanToInt` of a constant. -/
def foldBooleanToInt (c : Const) : Const := if c.ty = .i64 then c else foldZExt .i64 c

/-- `intToBoolean` of a constant. -/
def foldIntToBoolean (c : Const) : Const := Pred.ne.fold (.int 0) c

end Fold

section Literal
-- A literal expression has integers and poison only, so it does not matter which folder there is.
attribute [local instance] ConstantFolder.symbolic

/-- The constant the builder folds a literal expression to. -/
def Exp.fold : Exp → Const
  | .number v => .int v
  | .unary .plus e => e.fold
  | .unary .minus e => BinOp.sub.fold (nullValue e.fold.ty) e.fold
  | .unary .not e => foldBooleanToInt (Pred.eq.fold (.int 0) e.fold)
  | .arith op a b => op.fold a.fold b.fold
  | .cmp p a b => foldBooleanToInt (p.fold a.fold b.fold)
  | .land a b => foldBooleanToInt (foldSelect (foldIntToBoolean a.fold) (foldIntToBoolean b.fold) (.bool false))
  | .lor a b => foldBooleanToInt (foldSelect (foldIntToBoolean a.fold) (.bool true) (foldIntToBoolean b.fold))
  | .name _ | .index _ _ | .call _ _ => .expr .i64

end Literal

/-- The number of elements of an array with a literal size: none for a negative one. -/
def arrayElements (size : Exp) : Nat :=
  match (Value.const size.fold).sextValue? with
  | some n => n.toInt.toNat
  | none => 0

/-! ### Endings -/

/-- How a block ends so far: without a terminator, with a branch, with a return, or with a terminator
    that something stands behind, in this block or in one left before. -/
inductive Ending
  | falls | branches | returns | broken
  deriving DecidableEq, Repr

namespace Ending

/-- An instruction is put behind. -/
def emit : Ending → Ending
  | falls => falls
  | _ => broken

/-- The terminator `last` is put behind. -/
def terminate : (k last : Ending) → Ending
  | falls, last => last
  | _, _ => broken

/-- A branch to the next block is put behind, unless there is one: only a return or a broken block is
    not closed well. -/
def closes : Ending → Bool
  | falls | branches => true
  | _ => false

end Ending

/-- An expression leaves the block as it is where it generates no instruction. -/
def Exp.ending (e : Exp) (k : Ending) : Ending := if e.literal then k else k.emit

/-- A definition stores its initial values, so it generates something unless its size is negative. -/
def defEnding (exp : Option ExprNode) (k : Ending) : Ending :=
  match exp with
  | none => k.emit
  | some e => if arrayElements e.core = 0 then k else k.emit

/-- The definitions of a declaration, one after the other. -/
def DeclNode.ending (d : DeclNode) (k : Ending) : Ending :=
  match d with
  | .constDecl d => d.constDefs.foldl (fun k def' => defEnding def'.exp k) k
  | .varDecl d => d.varDefs.foldl (fun k def' => defEnding def'.exp k) k

/-- An `if` whose parts end so. -/
def ifEnding (cond thenStmt elseStmt : Ending) : Ending :=
  if cond = .branches ∧ thenStmt.closes ∧ elseStmt.closes then .falls else .broken

/-- A `while` whose parts end so. -/
def whileEnding (head body : Ending) : Ending :=
  if head = .branches ∧ body.closes then .falls else .broken

mutual

/-- How the current block ends behind a statement, if it ends as `k` says before it. -/
def StmtNode.ending : StmtNode → Ending → Ending
  | .block items, k => itemsEnding items k
  | .ifStmt e thenStmt (some elseStmt), k =>
    ifEnding ((e.core.ending k).terminate .branches) (thenStmt.ending .falls) (elseStmt.ending .falls)
  | .ifStmt e thenStmt none, k => ifEnding ((e.core.ending k).terminate .branches) (thenStmt.ending .falls) .falls
  | .whileStmt _ body, k => whileEnding (k.terminate .branches) (body.ending .falls)
  | .continueStmt, k => k.terminate .branches
  | .breakStmt, k => k.terminate .branches
  | .ret _, k => k.terminate .returns
  | .expr none, k => k
  | .expr (some e), k => e.core.ending k
  | .assign _ _ _, k => k.emit

def BlockItemNode.ending : BlockItemNode → Ending → Ending
  | .decl d, k => d.ending k
  | .stmt st, k => st.ending k

/-- How the block ends behind the items. -/
def itemsEnding : List BlockItemNode → Ending → Ending
  | [], k => k
  | item :: items, k => itemsEnding items (item.ending k)

end

section

-- As for code generation, the equations are derived once.
attribute [local simp] StmtNode.ending BlockItemNode.ending itemsEnding

end

/-- A function whose blocks all end where their first terminator stands: no part of it is broken, and its
    last block does not end with a branch. -/
def FuncNode.endsWell (node : FuncNode) : Bool :=
  match itemsEnding node.block .falls with
  | .falls | .returns => true
  | _ => false

/-- A declaration has no blocks. -/
def TopItem.endsWell : TopItem → Bool
  | .decl _ => true
  | .func node => node.endsWell

/-- Every function of the program ends well. -/
def EntryNode.endsWell (node : EntryNode) : Bool := node.prog.items.all TopItem.endsWell

end L24
