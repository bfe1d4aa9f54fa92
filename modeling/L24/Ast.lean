import L24.Ir.Syntax

/-! The abstract syntax tree (`src/frontend/ast.h`) in the shapes `ASTBuilder` gives it. A node class
    whose alternatives are told apart by which children are present has one constructor for each. -/

namespace L24
open Ir

/-- `FuncNode::_type`: the text of the return type's keyword. -/
inductive FuncType
  | int | char | void
  deriving DecidableEq, Repr

/-- `FuncFParamNode::_type`: the keyword's text, or "pointer" for `x[]`. -/
inductive FParamType
  | int | char | pointer
  deriving DecidableEq, Repr

/-- `_b_type` of a declaration. -/
inductive BType
  | int | char
  deriving DecidableEq, Repr

/-- `_unary_op`: the text of a sign or of `!`. -/
inductive UnaryOp
  | plus | minus | not
  deriving DecidableEq, Repr

/-- `_op` of a product, a quotient or a remainder. -/
inductive MulOp
  | star | slash | percentage
  deriving DecidableEq, Repr

/-- `_op` of a sum or a difference. -/
inductive AddOp
  | plus | minus
  deriving DecidableEq, Repr

/-- `_op` of an order comparison. -/
inductive RelOp
  | less | greater | lessEq | greaterEq
  deriving DecidableEq, Repr

/-- `_op` of `==` and `!=`. -/
inductive EqOp
  | eq | notEq
  deriving DecidableEq, Repr

/-- `_int_literal`, a `long long`. -/
structure NumberNode where
  intLiteral : BitVec 64
  deriving DecidableEq, Repr

mutual

/-- `ExprNode`, the top of the layers. -/
inductive ExprNode
  | mk (lorExpr : LorExprNode)

/-- `LorExprNode`: its operand alone, or a disjunction. The layers below are alike. -/
inductive LorExprNode
  | land (landExpr : LandExprNode)
  | lor (lorExpr : LorExprNode) (landExpr : LandExprNode)

inductive LandExprNode
  | eq (eqExpr : EqExprNode)
  | land (landExpr : LandExprNode) (eqExpr : EqExprNode)

inductive EqExprNode
  | rel (relExpr : RelExprNode)
  | eq (op : EqOp) (eqExpr : EqExprNode) (relExpr : RelExprNode)

inductive RelExprNode
  | add (addExpr : AddExprNode)
  | rel (op : RelOp) (relExpr : RelExprNode) (addExpr : AddExprNode)

inductive AddExprNode
  | mul (mulExpr : MulExprNode)
  | add (op : AddOp) (addExpr : AddExprNode) (mulExpr : MulExprNode)

inductive MulExprNode
  | unary (unaryExpr : UnaryExprNode)
  | mul (op : MulOp) (mulExpr : MulExprNode) (unaryExpr : UnaryExprNode)

/-- `UnaryExprNode`: a primary expression, a unary operator, or a call with its arguments. -/
inductive UnaryExprNode
  | primary (primaryExpr : PrimExprNode)
  | unary (unaryOp : UnaryOp) (unaryExpr : UnaryExprNode)
  | call (funcIdent : String) (funcRParams : List ExprNode)

/-- `PrimExprNode`: an expression in parentheses, a number, or a name. -/
inductive PrimExprNode
  | expr (expr : ExprNode)
  | number (number : NumberNode)
  | lVal (lVal : LValNode)

/-- `LValNode`: a name, perhaps with a subscript. -/
inductive LValNode
  | mk (ident : String) (exp : Option ExprNode)

end

/-- A node of a deep layer as an expression, through nodes that hand their one child on. -/
def UnaryExprNode.toExpr (u : UnaryExprNode) : ExprNode :=
  .mk (.land (.eq (.rel (.add (.mul (.unary u))))))

/-- A primary expression as an expression. -/
def PrimExprNode.toExpr (p : PrimExprNode) : ExprNode := (UnaryExprNode.primary p).toExpr

/-- A number as an expression. -/
def NumberNode.toExpr (n : NumberNode) : ExprNode := (PrimExprNode.number n).toExpr

/-- A name as an expression. -/
def LValNode.toExpr (l : LValNode) : ExprNode := (PrimExprNode.lVal l).toExpr

/-- An initialiser: one expression, a brace list, or the bytes of a string literal without its quotes. -/
inductive InitValNode
  | exp (e : ExprNode)
  | list (es : List ExprNode)
  | string (bytes : List (BitVec 8))

/-- `_exp`. -/
def InitValNode.exps : InitValNode → List ExprNode
  | .exp e => [e]
  | .list es => es
  | .string _ => []

/-- `_string_literal`. -/
def InitValNode.stringLiteral : InitValNode → List (BitVec 8)
  | .string bytes => bytes
  | _ => []

/-- `x = init` or `x[exp] = init` in a const declaration. -/
structure ConstDefNode where
  ident : String
  initVal : InitValNode
  exp : Option ExprNode

/-- `x`, `x[exp]`, and either with an initialiser, in a var declaration. -/
structure VarDefNode where
  ident : String
  initVal : Option InitValNode
  exp : Option ExprNode

/-- `const int` or `const char` with the definitions behind it. -/
structure ConstDeclNode where
  bType : BType
  constDefs : List ConstDefNode

/-- `int` or `char` with the definitions behind it. -/
structure VarDeclNode where
  bType : BType
  varDefs : List VarDefNode

/-- `DeclNode`, one of the two. -/
inductive DeclNode
  | constDecl (constDecl : ConstDeclNode)
  | varDecl (varDecl : VarDeclNode)

mutual

/-- `StmtNode`. An assignment keeps the name of its target and the subscript, if any. -/
inductive StmtNode
  | block (block : List BlockItemNode)
  | ifStmt (expr : ExprNode) (ifStmt : StmtNode) (elseStmt : Option StmtNode)
  | whileStmt (expr : ExprNode) (whileStmt : StmtNode)
  | continueStmt
  | breakStmt
  | ret (expr : Option ExprNode)
  | expr (expr : Option ExprNode)
  | assign (lVal : String) (subIdx : Option ExprNode) (expr : ExprNode)

/-- What stands in a block. -/
inductive BlockItemNode
  | decl (decl : DeclNode)
  | stmt (stmt : StmtNode)

end

/-- A formal parameter. -/
structure FuncFParamNode where
  type : FParamType
  ident : String
  deriving DecidableEq, Repr

/-- A function: its result type and name, its parameters, and the items of its block. -/
structure FuncNode where
  type : FuncType
  ident : String
  param : List FuncFParamNode
  block : List BlockItemNode

/-- `ProgNode`, a list that grows at its right end. -/
inductive ProgNode
  | decl (decl : DeclNode)
  | func (func : FuncNode)
  | progDecl (prog : ProgNode) (decl : DeclNode)
  | progFunc (prog : ProgNode) (func : FuncNode)

/-- `EntryNode`, the root of the tree. -/
structure EntryNode where
  prog : ProgNode

/-- A top-level item of a program. -/
inductive TopItem
  | decl (decl : DeclNode)
  | func (func : FuncNode)

/-- The top-level items of a program, in source order. -/
def ProgNode.items : ProgNode → List TopItem
  | .decl d => [.decl d]
  | .func f => [.func f]
  | .progDecl p d => p.items ++ [.decl d]
  | .progFunc p f => p.items ++ [.func f]

/-! ### Expressions without their layers

The node classes of expressions follow the precedence levels of the grammar, and most nodes only hand
their one child on. `Exp` is what is left without such nodes; the evaluation of an expression and every
induction over expressions is about it. -/

/-- An expression without layers. -/
inductive Exp
  | number (v : BitVec 64)
  | name (ident : String)
  | index (ident : String) (sub : Exp)
  | call (func : String) (args : List Exp)
  | unary (op : UnaryOp) (e : Exp)
  | arith (op : BinOp) (a b : Exp)
  | cmp (pred : Pred) (a b : Exp)
  | land (a b : Exp)
  | lor (a b : Exp)

/-- The instruction of an operator. -/
def MulOp.binOp : MulOp → BinOp
  | .star => .mul
  | .slash => .sdiv
  | .percentage => .srem

def AddOp.binOp : AddOp → BinOp
  | .plus => .add
  | .minus => .sub

/-- The signed comparison of an operator. -/
def RelOp.pred : RelOp → Pred
  | .less => .slt
  | .greater => .sgt
  | .lessEq => .sle
  | .greaterEq => .sge

def EqOp.pred : EqOp → Pred
  | .eq => .eq
  | .notEq => .ne

mutual

/-- The expression of a node: what hands its child on is left out. -/
def ExprNode.core : ExprNode → Exp
  | .mk l => l.core

def LorExprNode.core : LorExprNode → Exp
  | .land l => l.core
  | .lor a b => .lor a.core b.core

def LandExprNode.core : LandExprNode → Exp
  | .eq e => e.core
  | .land a b => .land a.core b.core

def EqExprNode.core : EqExprNode → Exp
  | .rel r => r.core
  | .eq op a b => .cmp op.pred a.core b.core

def RelExprNode.core : RelExprNode → Exp
  | .add a => a.core
  | .rel op a b => .cmp op.pred a.core b.core

def AddExprNode.core : AddExprNode → Exp
  | .mul m => m.core
  | .add op a b => .arith op.binOp a.core b.core

def MulExprNode.core : MulExprNode → Exp
  | .unary u => u.core
  | .mul op a b => .arith op.binOp a.core b.core

def UnaryExprNode.core : UnaryExprNode → Exp
  | .primary p => p.core
  | .unary op e => .unary op e.core
  | .call f args => .call f (coreArgs args)

def PrimExprNode.core : PrimExprNode → Exp
  | .expr e => e.core
  | .number n => .number n.intLiteral
  | .lVal l => l.core

def LValNode.core : LValNode → Exp
  | .mk ident none => .name ident
  | .mk ident (some e) => .index ident e.core

/-- The expressions of the arguments, in their order. -/
def coreArgs : List ExprNode → List Exp
  | [] => []
  | e :: es => e.core :: coreArgs es

end

end L24
