import L24.Frontend.Grammar

/-! `ASTBuilder` (`src/frontend/ast_builder.cpp`): from parse trees to the abstract syntax. An integer literal is the
    one thing that can stop it: `std::stoll` throws an exception, which nobody catches. -/

namespace L24
open L24.Tree

/-- How building ends early: with a reported error, or with an exception that nobody catches. -/
inductive BuildStop
  | buildError (msg : String)
  | outOfRange
  deriving DecidableEq, Repr

/-- Building a tree, which `stoll` may stop. -/
abbrev Build := Except BuildStop

/-- The number that decimal digits denote. -/
def decimal (text : String) : Nat := text.toList.foldl (fun n c => 10 * n + (c.toNat - '0'.toNat)) 0

/-- `std::stoll` of decimal digits: what does not fit into a `long long` throws. -/
def stoll (text : String) : Build (BitVec 64) :=
  if decimal text < 0x8000000000000000 then pure (.ofNat 64 (decimal text)) else throw .outOfRange

/-- `NumberNode(int literal)`: the argument becomes an `int`, and the field a `long long` again. -/
def NumberNode.ofLongLong (v : BitVec 64) : NumberNode := ⟨(v.setWidth 32).signExtend 64⟩

/-- `visitNumber`: `stoll` of the literal. -/
def visitNumber (intLiteral : String) : Build NumberNode := do
  let v ← stoll intLiteral
  return .ofLongLong v

mutual

/-- `visitExp`. The visitors of the layers hand a single child on. -/
def visitExp : Tree.Exp → Build ExprNode
  | .mk lOrExp => do
    let lorExpr ← visitLOrExp lOrExp
    return .mk lorExpr

def visitLOrExp : LOrExp → Build LorExprNode
  | .lAndExp e => do
    let landExpr ← visitLAndExp e
    return .land landExpr
  | .logicalOr lOrExp lAndExp => do
    let landExpr ← visitLAndExp lAndExp
    let lorExpr ← visitLOrExp lOrExp
    return .lor lorExpr landExpr

def visitLAndExp : LAndExp → Build LandExprNode
  | .eqExp e => do
    let eqExpr ← visitEqExp e
    return .eq eqExpr
  | .logicalAnd lAndExp eqExp => do
    let landExpr ← visitLAndExp lAndExp
    let eqExpr ← visitEqExp eqExp
    return .land landExpr eqExpr

def visitEqExp : EqExp → Build EqExprNode
  | .relExp e => do
    let relExpr ← visitRelExp e
    return .rel relExpr
  | .eq eqExp relExp => do
    let relExpr ← visitRelExp relExp
    let eqExpr ← visitEqExp eqExp
    return .eq .eq eqExpr relExpr
  | .notEq eqExp relExp => do
    let relExpr ← visitRelExp relExp
    let eqExpr ← visitEqExp eqExp
    return .eq .notEq eqExpr relExpr

def visitRelExp : RelExp → Build RelExprNode
  | .addExp e => do
    let addExpr ← visitAddExp e
    return .add addExpr
  | .less relExp addExp => do
    let addExpr ← visitAddExp addExp
    let relExpr ← visitRelExp relExp
    return .rel .less relExpr addExpr
  | .greater relExp addExp => do
    let addExpr ← visitAddExp addExp
    let relExpr ← visitRelExp relExp
    return .rel .greater relExpr addExpr
  | .lessEq relExp addExp => do
    let addExpr ← visitAddExp addExp
    let relExpr ← visitRelExp relExp
    return .rel .lessEq relExpr addExpr
  | .greaterEq relExp addExp => do
    let addExpr ← visitAddExp addExp
    let relExpr ← visitRelExp relExp
    return .rel .greaterEq relExpr addExpr

def visitAddExp : AddExp → Build AddExprNode
  | .mulExp e => do
    let mulExpr ← visitMulExp e
    return .mul mulExpr
  | .plus addExp mulExp => do
    let addExpr ← visitAddExp addExp
    let mulExpr ← visitMulExp mulExp
    return .add .plus addExpr mulExpr
  | .minus addExp mulExp => do
    let addExpr ← visitAddExp addExp
    let mulExpr ← visitMulExp mulExp
    return .add .minus addExpr mulExpr

def visitMulExp : MulExp → Build MulExprNode
  | .unaryExp e => do
    let unaryExpr ← visitUnaryExp e
    return .unary unaryExpr
  | .star mulExp unaryExp => do
    let unaryExpr ← visitUnaryExp unaryExp
    let mulExpr ← visitMulExp mulExp
    return .mul .star mulExpr unaryExpr
  | .slash mulExp unaryExp => do
    let unaryExpr ← visitUnaryExp unaryExp
    let mulExpr ← visitMulExp mulExp
    return .mul .slash mulExpr unaryExpr
  | .percentage mulExp unaryExp => do
    let unaryExpr ← visitUnaryExp unaryExp
    let mulExpr ← visitMulExp mulExp
    return .mul .percentage mulExpr unaryExpr

/-- `visitUnaryExp`: a call without arguments has an empty list of them. -/
def visitUnaryExp : UnaryExp → Build UnaryExprNode
  | .primaryExp e => do
    let primaryExpr ← visitPrimaryExp e
    return .primary primaryExpr
  | .unaryOp op e => do
    let unaryExpr ← visitUnaryExp e
    return .unary op unaryExpr
  | .call ident none => return .call ident []
  | .call ident (some ps) => do
    let exps ← visitFuncRParams ps
    return .call ident exps

/-- `visitFuncRParams`. -/
def visitFuncRParams : FuncRParams → Build (List ExprNode)
  | .mk e es => do
    let expr ← visitExp e
    let exprs ← visitExps es
    return expr :: exprs

/-- The expressions of a list, in their order. -/
def visitExps : List Tree.Exp → Build (List ExprNode)
  | [] => return []
  | e :: es => do
    let expr ← visitExp e
    let exprs ← visitExps es
    return expr :: exprs

/-- `visitPrimaryExp`. -/
def visitPrimaryExp : PrimaryExp → Build PrimExprNode
  | .paren e => do
    let expr ← visitExp e
    return .expr expr
  | .number intLiteral => do
    let number ← visitNumber intLiteral
    return .number number
  | .lVal l => do
    let lVal ← visitLVal l
    return .lVal lVal

/-- `visitLVal`. -/
def visitLVal : LVal → Build LValNode
  | .mk ident none => return .mk ident none
  | .mk ident (some e) => do
    let exp ← visitExp e
    return .mk ident (some exp)

end

/-- `if (ctx->exp()) ... visitExp(ctx->exp())`. -/
def visitExp? : Option Tree.Exp → Build (Option ExprNode)
  | none => return none
  | some e => do
    let expr ← visitExp e
    return some expr

/-- The bytes of a string literal: `substr(1, length - 2)` of its UTF-8 text leaves out the quotes. -/
def literalBytes (text : String) : List (BitVec 8) :=
  let bytes := text.toList.flatMap String.utf8EncodeChar
  ((bytes.drop 1).take (bytes.length - 2)).map UInt8.toBitVec

/-- `visitInitVal`: the quotes of a string literal are cut off. -/
def visitInitVal : InitVal → Build InitValNode
  | .exp e => do
    let expr ← visitExp e
    return .exp expr
  | .list none => return .list []
  | .list (some (e, es)) => do
    let exprs ← visitExps (e :: es)
    return .list exprs
  | .string text => return .string (literalBytes text)

/-- `visitConstDef`. -/
def visitConstDef (d : ConstDef) : Build ConstDefNode := do
  let initVal ← visitInitVal d.initVal
  let exp ← visitExp? d.exp
  return { ident := d.ident, initVal, exp }

/-- `visitVarDef`. -/
def visitVarDef (d : VarDef) : Build VarDefNode := do
  let initVal ← d.initVal.mapM visitInitVal
  let exp ← visitExp? d.exp
  return { ident := d.ident, initVal, exp }

/-- `visitConstDecl`. -/
def visitConstDecl (d : ConstDecl) : Build ConstDeclNode := do
  let constDefs ← (d.constDef :: d.constDefs).mapM visitConstDef
  return { bType := d.bType, constDefs }

/-- `visitVarDecl`. -/
def visitVarDecl (d : VarDecl) : Build VarDeclNode := do
  let varDefs ← (d.varDef :: d.varDefs).mapM visitVarDef
  return { bType := d.bType, varDefs }

/-- `visitDecl`. -/
def visitDecl : Decl → Build DeclNode
  | .constDecl d => do
    let constDecl ← visitConstDecl d
    return .constDecl constDecl
  | .varDecl d => do
    let varDecl ← visitVarDecl d
    return .varDecl varDecl

mutual

/-- `visitStmt`. -/
def visitStmt : Stmt → Build StmtNode
  | .ret e => do
    let expr ← visitExp? e
    return .ret expr
  | .assign (.mk ident sub) e => do
    let subIdx ← visitExp? sub
    let expr ← visitExp e
    return .assign ident subIdx expr
  | .exp e => do
    let expr ← visitExp? e
    return .expr expr
  | .block b => do
    let block ← visitBlock b
    return .block block
  | .ifStmt e s none => do
    let expr ← visitExp e
    let ifStmt ← visitStmt s
    return .ifStmt expr ifStmt none
  | .ifStmt e s (some t) => do
    let expr ← visitExp e
    let ifStmt ← visitStmt s
    let elseStmt ← visitStmt t
    return .ifStmt expr ifStmt (some elseStmt)
  | .whileStmt e s => do
    let expr ← visitExp e
    let whileStmt ← visitStmt s
    return .whileStmt expr whileStmt
  | .continueStmt => return .continueStmt
  | .breakStmt => return .breakStmt

/-- `visitBlock`: the items of the block. -/
def visitBlock : Block → Build (List BlockItemNode)
  | .mk items => visitBlockItems items

def visitBlockItems : List BlockItem → Build (List BlockItemNode)
  | [] => return []
  | item :: items => do
    let blockItem ← visitBlockItem item
    let blockItems ← visitBlockItems items
    return blockItem :: blockItems

def visitBlockItem : BlockItem → Build BlockItemNode
  | .decl d => do
    let decl ← visitDecl d
    return .decl decl
  | .stmt s => do
    let stmt ← visitStmt s
    return .stmt stmt

end

/-- `_type` of a function: the keyword's text. -/
def visitFuncType : Option BType → FuncType
  | some .int => .int
  | some .char => .char
  | none => .void

/-- `visitFuncFParam`: the keyword is kept for a scalar only. -/
def visitFuncFParam (p : FuncFParam) : FuncFParamNode where
  type := if p.isArray then .pointer else match p.type with
    | .int => .int
    | .char => .char
  ident := p.ident

/-- `visitFuncFParams`; without the rule there are no parameters. -/
def visitFuncFParams : Option FuncFParams → List FuncFParamNode
  | none => []
  | some ps => (ps.funcFParam :: ps.funcFParams).map visitFuncFParam

/-- `visitFunc`. -/
def visitFunc (f : Func) : Build FuncNode := do
  let block ← visitBlock f.block
  return { type := visitFuncType f.type, ident := f.ident, param := visitFuncFParams f.funcFParams, block }

/-- `visitProgram`. The last item is visited before the program in front of it. -/
def visitProgram : Program → Build ProgNode
  | .decl d => do
    let decl ← visitDecl d
    return .decl decl
  | .func f => do
    let func ← visitFunc f
    return .func func
  | .progDecl p d => do
    let decl ← visitDecl d
    let prog ← visitProgram p
    return .progDecl prog decl
  | .progFunc p f => do
    let func ← visitFunc f
    let prog ← visitProgram p
    return .progFunc prog func

/-- `visitEntry`. -/
def visitEntry (e : Entry) : Build EntryNode := do
  let prog ← visitProgram e.program
  return ⟨prog⟩

/-- `ASTBuilder::build`. -/
def build (e : Entry) : Build EntryNode := visitEntry e

end L24
