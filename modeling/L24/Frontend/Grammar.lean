import L24.Ast
import L24.Frontend.Token

/-! The parser rules of the grammar (`grammar/l24.g4`): the parse trees of each rule, and the tokens they derive. -/

namespace L24.Tree
open TokenType

/-! ### Parse trees -/

mutual

/-- `lOrExp`. -/
inductive Exp
  | mk (lOrExp : LOrExp)

/-- `lAndExp | lOrExp '||' lAndExp`. -/
inductive LOrExp
  | lAndExp (lAndExp : LAndExp)
  | logicalOr (lOrExp : LOrExp) (lAndExp : LAndExp)

/-- `eqExp | lAndExp '&&' eqExp`. -/
inductive LAndExp
  | eqExp (eqExp : EqExp)
  | logicalAnd (lAndExp : LAndExp) (eqExp : EqExp)

/-- `relExp | eqExp '==' relExp | eqExp '!=' relExp`. -/
inductive EqExp
  | relExp (relExp : RelExp)
  | eq (eqExp : EqExp) (relExp : RelExp)
  | notEq (eqExp : EqExp) (relExp : RelExp)

/-- `addExp`, or a comparison of a `relExp` with it. -/
inductive RelExp
  | addExp (addExp : AddExp)
  | less (relExp : RelExp) (addExp : AddExp)
  | greater (relExp : RelExp) (addExp : AddExp)
  | lessEq (relExp : RelExp) (addExp : AddExp)
  | greaterEq (relExp : RelExp) (addExp : AddExp)

/-- `mulExp | addExp '+' mulExp | addExp '-' mulExp`. -/
inductive AddExp
  | mulExp (mulExp : MulExp)
  | plus (addExp : AddExp) (mulExp : MulExp)
  | minus (addExp : AddExp) (mulExp : MulExp)

/-- `unaryExp | mulExp '*' unaryExp | mulExp '/' unaryExp | mulExp '%' unaryExp`. -/
inductive MulExp
  | unaryExp (unaryExp : UnaryExp)
  | star (mulExp : MulExp) (unaryExp : UnaryExp)
  | slash (mulExp : MulExp) (unaryExp : UnaryExp)
  | percentage (mulExp : MulExp) (unaryExp : UnaryExp)

/-- `primaryExp | unaryOp unaryExp | Ident '(' (funcRParams)? ')'`. -/
inductive UnaryExp
  | primaryExp (primaryExp : PrimaryExp)
  | unaryOp (unaryOp : UnaryOp) (unaryExp : UnaryExp)
  | call (ident : String) (funcRParams : Option FuncRParams)

/-- `exp (',' exp)*`. -/
inductive FuncRParams
  | mk (exp : Exp) (exps : List Exp)

/-- `'(' exp ')' | number | lVal`. -/
inductive PrimaryExp
  | paren (exp : Exp)
  | number (intLiteral : String)
  | lVal (lVal : LVal)

/-- `Ident ('[' exp ']')?`. -/
inductive LVal
  | mk (ident : String) (exp : Option Exp)

end

/-- A brace list of `initVal` is `none`, or its first expression and the others. -/
inductive InitVal
  | exp (exp : Exp)
  | list (exps : Option (Exp × List Exp))
  | string (stringLiteral : String)

/-- `Ident ('[' exp ']')? '=' initVal`. -/
structure ConstDef where
  ident : String
  exp : Option Exp
  initVal : InitVal

/-- `Ident ('[' exp ']')? '=' initVal | Ident ('[' exp ']')?`. -/
structure VarDef where
  ident : String
  exp : Option Exp
  initVal : Option InitVal

/-- `'const' bType constDef (',' constDef)* ';'`. -/
structure ConstDecl where
  bType : BType
  constDef : ConstDef
  constDefs : List ConstDef

/-- `bType varDef (',' varDef)* ';'`. -/
structure VarDecl where
  bType : BType
  varDef : VarDef
  varDefs : List VarDef

/-- `constDecl | varDecl`. -/
inductive Decl
  | constDecl (constDecl : ConstDecl)
  | varDecl (varDecl : VarDecl)

mutual

/-- The alternatives of `stmt`, in their order. -/
inductive Stmt
  | ret (exp : Option Exp)
  | assign (lVal : LVal) (exp : Exp)
  | exp (exp : Option Exp)
  | block (block : Block)
  | ifStmt (exp : Exp) (stmt : Stmt) (elseStmt : Option Stmt)
  | whileStmt (exp : Exp) (stmt : Stmt)
  | continueStmt
  | breakStmt

/-- `'{' (blockItem)* '}'`. -/
inductive Block
  | mk (blockItems : List BlockItem)

/-- `decl | stmt`. -/
inductive BlockItem
  | decl (decl : Decl)
  | stmt (stmt : Stmt)

end

/-- `Int Ident ('[' ']')?`. -/
structure FuncFParam where
  type : BType
  ident : String
  isArray : Bool

/-- `funcFParam (',' funcFParam)*`. -/
structure FuncFParams where
  funcFParam : FuncFParam
  funcFParams : List FuncFParam

/-- The type of `Int Ident ...`, or `none` for `'void' Ident ...`. -/
structure Func where
  type : Option BType
  ident : String
  funcFParams : Option FuncFParams
  block : Block

/-- `decl | func | program decl | program func`. -/
inductive Program
  | decl (decl : Decl)
  | func (func : Func)
  | progDecl (program : Program) (decl : Decl)
  | progFunc (program : Program) (func : Func)

/-- `program`, and no `EOF` behind it. -/
structure Entry where
  program : Program

/-! ### Derived tokens -/

/-- An identifier. -/
def identToken (text : String) : Token := ⟨.Ident, text⟩

/-- The token of the rule `Int : 'int' | 'char'`. -/
def bTypeToken : BType → Token
  | .int => ⟨.Int, "int"⟩
  | .char => ⟨.Int, "char"⟩

/-- The token of a `unaryOp`. -/
def unaryOpToken : UnaryOp → Token
  | .plus => Plus.token
  | .minus => Minus.token
  | .not => Not.token

/-- `'[' x ']'`. -/
def subscript (x : List Token) : List Token := LeftSqrBr.token :: x ++ [RightSqrBr.token]

/-- `'(' x ')'`. -/
def parens (x : List Token) : List Token := LeftParen.token :: x ++ [RightParen.token]

/-- `(',' x)*`. -/
def commaTail {α : Type} (tokens : α → List Token) (xs : List α) : List Token :=
    xs.flatMap fun x => Comm.token :: tokens x

mutual

/-- The tokens that a tree derives, one function for each rule. -/
def Exp.tokens : Exp → List Token
  | .mk e => e.tokens

def LOrExp.tokens : LOrExp → List Token
  | .lAndExp e => e.tokens
  | .logicalOr a b => a.tokens ++ LogicalOr.token :: b.tokens

def LAndExp.tokens : LAndExp → List Token
  | .eqExp e => e.tokens
  | .logicalAnd a b => a.tokens ++ LogicalAnd.token :: b.tokens

def EqExp.tokens : EqExp → List Token
  | .relExp e => e.tokens
  | .eq a b => a.tokens ++ Eq.token :: b.tokens
  | .notEq a b => a.tokens ++ NotEq.token :: b.tokens

def RelExp.tokens : RelExp → List Token
  | .addExp e => e.tokens
  | .less a b => a.tokens ++ Less.token :: b.tokens
  | .greater a b => a.tokens ++ Greater.token :: b.tokens
  | .lessEq a b => a.tokens ++ LessEq.token :: b.tokens
  | .greaterEq a b => a.tokens ++ GreaterEq.token :: b.tokens

def AddExp.tokens : AddExp → List Token
  | .mulExp e => e.tokens
  | .plus a b => a.tokens ++ Plus.token :: b.tokens
  | .minus a b => a.tokens ++ Minus.token :: b.tokens

def MulExp.tokens : MulExp → List Token
  | .unaryExp e => e.tokens
  | .star a b => a.tokens ++ Star.token :: b.tokens
  | .slash a b => a.tokens ++ Slash.token :: b.tokens
  | .percentage a b => a.tokens ++ Percentage.token :: b.tokens

def UnaryExp.tokens : UnaryExp → List Token
  | .primaryExp e => e.tokens
  | .unaryOp op e => unaryOpToken op :: e.tokens
  | .call ident none => identToken ident :: parens []
  | .call ident (some ps) => identToken ident :: parens ps.tokens

def FuncRParams.tokens : FuncRParams → List Token
  | .mk e es => e.tokens ++ expsTail es

/-- `(',' exp)*`. -/
def expsTail : List Exp → List Token
  | [] => []
  | e :: es => Comm.token :: e.tokens ++ expsTail es

def PrimaryExp.tokens : PrimaryExp → List Token
  | .paren e => parens e.tokens
  | .number text => [⟨.IntLiteral, text⟩]
  | .lVal l => l.tokens

def LVal.tokens : LVal → List Token
  | .mk ident none => [identToken ident]
  | .mk ident (some e) => identToken ident :: subscript e.tokens

end

/-- `('[' exp ']')?`. -/
def subscriptTokens : Option Exp → List Token
  | none => []
  | some e => subscript e.tokens

/-- `(exp)?`. -/
def expTokens : Option Exp → List Token
  | none => []
  | some e => e.tokens

def InitVal.tokens : InitVal → List Token
  | .exp e => e.tokens
  | .list none => [LeftBrace.token, RightBrace.token]
  | .list (some (e, es)) => LeftBrace.token :: (e.tokens ++ expsTail es) ++ [RightBrace.token]
  | .string text => [⟨.StringLiteral, text⟩]

def ConstDef.tokens (d : ConstDef) : List Token :=
  identToken d.ident :: subscriptTokens d.exp ++ Assign.token :: d.initVal.tokens

/-- `('=' initVal)?`. -/
def initTokens : Option InitVal → List Token
  | none => []
  | some v => Assign.token :: v.tokens

def VarDef.tokens (d : VarDef) : List Token := identToken d.ident :: subscriptTokens d.exp ++ initTokens d.initVal

def ConstDecl.tokens (d : ConstDecl) : List Token :=
  TokenType.Const.token :: bTypeToken d.bType :: d.constDef.tokens ++ commaTail ConstDef.tokens d.constDefs ++
    [SemiColon.token]

def VarDecl.tokens (d : VarDecl) : List Token :=
  bTypeToken d.bType :: d.varDef.tokens ++ commaTail VarDef.tokens d.varDefs ++ [SemiColon.token]

def Decl.tokens : Decl → List Token
  | .constDecl d => d.tokens
  | .varDecl d => d.tokens

mutual

def Stmt.tokens : Stmt → List Token
  | .ret e => Return.token :: expTokens e ++ [SemiColon.token]
  | .assign l e => l.tokens ++ Assign.token :: e.tokens ++ [SemiColon.token]
  | .exp e => expTokens e ++ [SemiColon.token]
  | .block b => b.tokens
  | .ifStmt e s none => If.token :: parens e.tokens ++ Then.token :: s.tokens ++ [End.token]
  | .ifStmt e s (some t) =>
    If.token :: parens e.tokens ++ Then.token :: s.tokens ++ Else.token :: t.tokens ++ [End.token]
  | .whileStmt e s => While.token :: parens e.tokens ++ s.tokens
  | .continueStmt => [Continue.token, SemiColon.token]
  | .breakStmt => [Break.token, SemiColon.token]

def Block.tokens : Block → List Token
  | .mk items => LeftBrace.token :: itemsTokens items ++ [RightBrace.token]

/-- `(blockItem)*`. -/
def itemsTokens : List BlockItem → List Token
  | [] => []
  | item :: items => item.tokens ++ itemsTokens items

def BlockItem.tokens : BlockItem → List Token
  | .decl d => d.tokens
  | .stmt s => s.tokens

end

def FuncFParam.tokens (p : FuncFParam) : List Token :=
  bTypeToken p.type :: identToken p.ident :: if p.isArray then subscript [] else []

def FuncFParams.tokens (ps : FuncFParams) : List Token :=
  ps.funcFParam.tokens ++ commaTail FuncFParam.tokens ps.funcFParams

/-- `(funcFParams)?`. -/
def paramTokens : Option FuncFParams → List Token
  | none => []
  | some ps => ps.tokens

/-- The token in front of a function's name. -/
def funcTypeToken : Option BType → Token
  | some t => bTypeToken t
  | none => Void.token

def Func.tokens (f : Func) : List Token :=
  funcTypeToken f.type :: identToken f.ident :: parens (paramTokens f.funcFParams) ++ f.block.tokens

def Program.tokens : Program → List Token
  | .decl d => d.tokens
  | .func f => f.tokens
  | .progDecl p d => p.tokens ++ d.tokens
  | .progFunc p f => p.tokens ++ f.tokens

/-- The tokens of the whole program. -/
def Entry.tokens (e : Entry) : List Token := e.program.tokens

end L24.Tree
