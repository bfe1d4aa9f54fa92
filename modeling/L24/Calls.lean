import L24.Theorems.Stmt

/-! Which functions the source calls where, and which functions have loops. -/

namespace L24

mutual

/-- The functions that an expression calls. -/
def Exp.calls : Exp → List String
  | .number _ | .name _ => []
  | .index _ e => e.calls
  | .call f args => f :: expsCalls args
  | .unary _ e => e.calls
  | .arith _ a b | .cmp _ a b | .land a b | .lor a b => a.calls ++ b.calls

/-- The functions that the expressions call. -/
def expsCalls : List Exp → List String
  | [] => []
  | e :: es => e.calls ++ expsCalls es

end

/-- The functions that a node calls. -/
def ExprNode.calls (e : ExprNode) : List String := e.core.calls

/-- The functions that an initialiser calls. -/
def InitValNode.calls (n : InitValNode) : List String := n.exps.flatMap ExprNode.calls

/-- A part that may be missing. -/
def optionalCalls {α : Type} (calls : α → List String) (o : Option α) : List String := (o.map calls).getD []

/-- The functions that a definition calls, those in its size first. -/
def Def.calls (d : Def) : List String := optionalCalls ExprNode.calls d.exp ++ optionalCalls InitValNode.calls d.init

mutual

/-- The functions that a statement calls. -/
def StmtNode.calls : StmtNode → List String
  | .block items => itemsCalls items
  | .ifStmt e a none => e.calls ++ a.calls
  | .ifStmt e a (some b) => e.calls ++ a.calls ++ b.calls
  | .whileStmt e body => e.calls ++ body.calls
  | .ret e | .expr e => optionalCalls ExprNode.calls e
  | .assign _ sub e => e.calls ++ optionalCalls ExprNode.calls sub
  | .continueStmt | .breakStmt => []

def BlockItemNode.calls : BlockItemNode → List String
  | .decl d => d.defs.flatMap Def.calls
  | .stmt st => st.calls

/-- The functions that the items of a block call. -/
def itemsCalls : List BlockItemNode → List String
  | [] => []
  | item :: items => item.calls ++ itemsCalls items

end

/-- The functions that a function calls. -/
def FuncNode.calls (f : FuncNode) : List String := itemsCalls f.block

/-- Each function calls only functions before it, the first of which are `known`. -/
def callsEarlier : (known : List String) → List TopItem → Bool
  | _, [] => true
  | known, .decl _ :: items => callsEarlier known items
  | known, .func f :: items => f.calls.all (· ∈ known) && callsEarlier (f.ident :: known) items

/-- No function of the program calls itself. -/
def EntryNode.callsEarlier (node : EntryNode) : Bool :=
  L24.callsEarlier (standardLibrary.map (·.1)) node.prog.items

mutual

/-- There is no loop in the statement. -/
def StmtNode.loopFree : StmtNode → Bool
  | .block items => itemsLoopFree items
  | .ifStmt _ a none => a.loopFree
  | .ifStmt _ a (some b) => a.loopFree && b.loopFree
  | .whileStmt _ _ => false
  | .continueStmt | .breakStmt | .ret _ | .expr _ | .assign _ _ _ => true

def BlockItemNode.loopFree : BlockItemNode → Bool
  | .decl _ => true
  | .stmt st => st.loopFree

/-- No item has a loop. -/
def itemsLoopFree : List BlockItemNode → Bool
  | [] => true
  | item :: items => item.loopFree && itemsLoopFree items

end

/-- The function has no loop. -/
def FuncNode.loopFree (f : FuncNode) : Bool := itemsLoopFree f.block

end L24
