import L24.Frontend.Builder

/-! `ASTBuilder` and the AST as the C++ code has them: a context is what its accessors return, a child of a node is a
    `std::shared_ptr<ASTNode>`, and both may be null. Nothing here says which children are there. -/

namespace L24.Raw

/-- A `TerminalNode *`: its text, or null. -/
abbrev Terminal := Option String

/-- A context of the parse tree with what its accessors return; `null` is the null pointer. A visitor gets contexts of
    its own rule only, by their static types. -/
inductive Context
  | null
  | entry (program : Context)
  | program (func decl program : Context)
  | func (int void ident : Terminal) (funcFParams block : Context)
  | funcFParams (funcFParam : List Context)
  | funcFParam (leftSqrBr int ident : Terminal)
  | funcRParams (exp : List Context)
  | block (blockItem : List Context)
  | blockItem (decl stmt : Context)
  | decl (constDecl varDecl : Context)
  | constDecl (bType : Context) (constDef : List Context)
  | varDecl (bType : Context) (varDef : List Context)
  | bType (int : Terminal)
  | constDef (ident : Terminal) (exp initVal : Context)
  | varDef (ident : Terminal) (exp initVal : Context)
  | initVal (leftBrace stringLiteral : Terminal) (exp : List Context)
  | stmt (return_ continue_ break_ if_ while_ : Terminal) (lVal exp block : Context) (stmt : List Context)
  | exp (lOrExp : Context)
  | lOrExp (lAndExp lOrExp : Context)
  | lAndExp (lAndExp eqExp : Context)
  | eqExp (eq notEq : Terminal) (eqExp relExp : Context)
  | relExp (less greater lessEq greaterEq : Terminal) (relExp addExp : Context)
  | addExp (plus minus : Terminal) (addExp mulExp : Context)
  | mulExp (slash star percentage : Terminal) (mulExp unaryExp : Context)
  | unaryExp (primaryExp unaryOp unaryExp : Context) (ident : Terminal) (funcRParams : Context)
  | unaryOp (minus plus not : Terminal)
  | primaryExp (exp number lVal : Context)
  | number (intLiteral : Terminal)
  | lVal (ident : Terminal) (exp : Context)

/-- `if (ctx->...())`. -/
def Context.isSome : Context → Bool
  | .null => false
  | _ => true

/-- What a `std::shared_ptr<ASTNode>` points to, by the class of the object; `null` is the null pointer. -/
inductive Node
  | null
  | entry (prog : Node)
  | prog (decl func prog : Node)
  | func (type ident : String) (block param : Node)
  | funcFParams (params : List Node)
  | funcFParam (type ident : String)
  | funcRParams (exps : List Node)
  | block (blockItems : List Node)
  | blockItem (decl stmt : Node)
  | decl (constDecl varDecl : Node)
  | constDecl (bType : String) (constDefs : List Node)
  | varDecl (bType : String) (varDefs : List Node)
  | constDef (ident : String) (initVal exp : Node)
  | varDef (ident : String) (initVal exp : Node)
  | initVal (isArray : Bool) (stringLiteral : List (BitVec 8)) (exp : List Node)
  | lVal (ident : String) (exp : Node)
  | stmt (isRetStmt isContinueStmt isBreakStmt : Bool) (lVal : String)
      (subIdx expr block ifStmt elseStmt whileStmt : Node)
  | expr (lorExpr : Node)
  | lorExpr (landExpr lorExpr : Node)
  | landExpr (eqExpr landExpr : Node)
  | eqExpr (op : String) (relExpr eqExpr : Node)
  | relExpr (op : String) (addExpr relExpr : Node)
  | addExpr (op : Char) (mulExpr addExpr : Node)
  | mulExpr (op : Char) (unaryExpr mulExpr : Node)
  | unaryExpr (primaryExpr unaryOp unaryExpr : Node) (funcIdent : String) (funcRParams : Node)
  | unaryOp (op : String)
  | primExpr (expr number lVal : Node)
  | number (intLiteral : BitVec 64)

/-- `if (node->...)`. -/
def Node.isSome : Node → Bool
  | .null => false
  | _ => true

/-- How building goes wrong: a null pointer (or a missing element of a vector) is used, or an exception that nobody
    catches is thrown. -/
inductive Fault
  | nullPointer
  | invalidArgument
  | outOfRange
  deriving DecidableEq, Repr

/-- Building, on contexts that may be null. -/
abbrev Build := Except Fault

/-- A null pointer is used. -/
def nullPointer {α : Type} : Build α := throw .nullPointer

/-- `terminal->getText()`. -/
def getText : Terminal → Build String
  | some text => return text
  | none => nullPointer

/-- `terminal->getText()[0]`, the character `'\0'` at the end of an empty text. -/
def getChar (t : Terminal) : Build Char := do
  let text ← getText t
  return text.toList.headD '\x00'

/-- `std::stoll`: the digits at the start, if there are any. -/
def stoll (text : String) : Build (BitVec 64) :=
  let digits := text.toList.takeWhile isDigit
  if digits.isEmpty then throw .invalidArgument
  else match L24.stoll (String.ofList digits) with
    | .ok v => return v
    | .error _ => throw .outOfRange

/-- `text.substr(1, text.length() - 2)`. -/
def unquote (text : String) : Build (List (BitVec 8)) :=
  if text = "" then throw .outOfRange else return literalBytes text

/-- `visitNumber`. -/
def visitNumber : Context → Build Node
  | .number intLiteral => do
    let v ← stoll (← getText intLiteral)
    return .number (NumberNode.ofLongLong v).intLiteral
  | _ => nullPointer

/-- `BuildError` only reports: the node stays null. -/
def visitUnaryOp : Context → Build Node
  | .unaryOp minus plus not =>
    if minus.isSome then return .unaryOp (← getText minus)
    else if plus.isSome then return .unaryOp (← getText plus)
    else if not.isSome then return .unaryOp (← getText not)
    else return .null
  | _ => nullPointer

mutual

/-- `visitExp`. The visitors take their branches by which children are there, as the code does. -/
def visitExp : Context → Build Node
  | .exp lOrExp => do
    let lorExpr ← visitLOrExp lOrExp
    return .expr lorExpr
  | _ => nullPointer

def visitLOrExp : Context → Build Node
  | .lOrExp lAndExp lOrExp =>
    if lAndExp.isSome && lOrExp.isSome then do
      let landExpr ← visitLAndExp lAndExp
      let lorExpr ← visitLOrExp lOrExp
      return .lorExpr landExpr lorExpr
    else do
      let landExpr ← visitLAndExp lAndExp
      return .lorExpr landExpr .null
  | _ => nullPointer

def visitLAndExp : Context → Build Node
  | .lAndExp lAndExp eqExp =>
    if lAndExp.isSome && eqExp.isSome then do
      let landExpr ← visitLAndExp lAndExp
      let eqExpr ← visitEqExp eqExp
      return .landExpr eqExpr landExpr
    else do
      let eqExpr ← visitEqExp eqExp
      return .landExpr eqExpr .null
  | _ => nullPointer

def visitEqExp : Context → Build Node
  | .eqExp eq notEq eqExp relExp =>
    if eqExp.isSome && relExp.isSome then do
      let op ← if eq.isSome then getText eq else getText notEq
      let relExpr ← visitRelExp relExp
      let eqExpr ← visitEqExp eqExp
      return .eqExpr op relExpr eqExpr
    else do
      let relExpr ← visitRelExp relExp
      return .eqExpr "" relExpr .null
  | _ => nullPointer

def visitRelExp : Context → Build Node
  | .relExp less greater lessEq greaterEq relExp addExp =>
    if relExp.isSome && addExp.isSome then do
      let op ←
        if less.isSome then getText less
        else if greater.isSome then getText greater
        else if lessEq.isSome then getText lessEq
        else getText greaterEq
      let addExpr ← visitAddExp addExp
      let relExpr ← visitRelExp relExp
      return .relExpr op addExpr relExpr
    else do
      let addExpr ← visitAddExp addExp
      return .relExpr "" addExpr .null
  | _ => nullPointer

def visitAddExp : Context → Build Node
  | .addExp plus minus addExp mulExp =>
    if plus.isSome || minus.isSome then do
      let op ← if plus.isSome then getChar plus else getChar minus
      let addExpr ← visitAddExp addExp
      let mulExpr ← visitMulExp mulExp
      return .addExpr op mulExpr addExpr
    else do
      let mulExpr ← visitMulExp mulExp
      return .addExpr '\x00' mulExpr .null
  | _ => nullPointer

def visitMulExp : Context → Build Node
  | .mulExp slash star percentage mulExp unaryExp =>
    if slash.isSome || star.isSome || percentage.isSome then do
      let op ←
        if slash.isSome then getChar slash
        else if star.isSome then getChar star
        else getChar percentage
      let unaryExpr ← visitUnaryExp unaryExp
      let mulExpr ← visitMulExp mulExp
      return .mulExpr op unaryExpr mulExpr
    else do
      let unaryExpr ← visitUnaryExp unaryExp
      return .mulExpr '\x00' unaryExpr .null
  | _ => nullPointer

def visitUnaryExp : Context → Build Node
  | .unaryExp primaryExp unaryOp unaryExp ident funcRParams =>
    if primaryExp.isSome then do
      let primaryExpr ← visitPrimaryExp primaryExp
      return .unaryExpr primaryExpr .null .null "" .null
    else if unaryExp.isSome && unaryOp.isSome then do
      let op ← visitUnaryOp unaryOp
      let unaryExpr ← visitUnaryExp unaryExp
      return .unaryExpr .null op unaryExpr "" .null
    else do
      let funcIdent ← getText ident
      let params ← visitFuncRParams funcRParams
      return .unaryExpr .null .null .null funcIdent params
  | _ => nullPointer

/-- `visitFuncRParams`. -/
def visitFuncRParams : Context → Build Node
  | .null => return .funcRParams []
  | .funcRParams exp => do
    let exps ← visitExps exp
    return .funcRParams exps
  | _ => nullPointer

/-- The expressions of a list, in their order. -/
def visitExps : List Context → Build (List Node)
  | [] => return []
  | e :: es => do
    let expr ← visitExp e
    let exprs ← visitExps es
    return expr :: exprs

def visitPrimaryExp : Context → Build Node
  | .primaryExp exp number lVal =>
    if exp.isSome then do
      let expr ← visitExp exp
      return .primExpr expr .null .null
    else if number.isSome then do
      let number ← visitNumber number
      return .primExpr .null number .null
    else do
      let lVal ← visitLVal lVal
      return .primExpr .null .null lVal
  | _ => nullPointer

/-- `visitLVal`. -/
def visitLVal : Context → Build Node
  | .lVal ident exp => do
    let ident ← getText ident
    let exp ← if exp.isSome then visitExp exp else pure .null
    return .lVal ident exp
  | _ => nullPointer

end

/-! ### Declarations -/

/-- `if (ctx) ... visit(ctx)`: the member stays null without a context. -/
def visitOptional (visit : Context → Build Node) (ctx : Context) : Build Node :=
  if ctx.isSome then visit ctx else return .null

/-- `visitInitVal`: a brace list, a string, or one expression. -/
def visitInitVal : Context → Build Node
  | .initVal leftBrace stringLiteral exp => do
    let isArray := leftBrace.isSome || stringLiteral.isSome
    let bytes ← if stringLiteral.isSome then unquote (← getText stringLiteral) else pure []
    let exps ← visitExps exp
    return .initVal isArray bytes exps
  | _ => nullPointer

def visitConstDef : Context → Build Node
  | .constDef ident exp initVal => do
    let ident ← getText ident
    let init ← visitInitVal initVal
    let exp ← visitOptional visitExp exp
    return .constDef ident init exp
  | _ => nullPointer

def visitVarDef : Context → Build Node
  | .varDef ident exp initVal => do
    let ident ← getText ident
    let init ← visitOptional visitInitVal initVal
    let exp ← visitOptional visitExp exp
    return .varDef ident init exp
  | _ => nullPointer

/-- `ctx->bType()->Int()->getText()`. -/
def visitBType : Context → Build String
  | .bType int => getText int
  | _ => nullPointer

def visitConstDecl : Context → Build Node
  | .constDecl bType constDef => do
    let bType ← visitBType bType
    let constDefs ← constDef.mapM visitConstDef
    return .constDecl bType constDefs
  | _ => nullPointer

def visitVarDecl : Context → Build Node
  | .varDecl bType varDef => do
    let bType ← visitBType bType
    let varDefs ← varDef.mapM visitVarDef
    return .varDecl bType varDefs
  | _ => nullPointer

def visitDecl : Context → Build Node
  | .decl constDecl varDecl =>
    if constDecl.isSome then do
      let constDecl ← visitConstDecl constDecl
      return .decl constDecl .null
    else do
      let varDecl ← visitVarDecl varDecl
      return .decl .null varDecl
  | _ => nullPointer

/-! ### Statements -/

/-- The name and the subscript of `ctx->lVal()`, if there is one. -/
def visitTarget : Context → Build (String × Node)
  | .null => return ("", .null)
  | .lVal ident exp => do
    let ident ← getText ident
    let subIdx ← visitOptional visitExp exp
    return (ident, subIdx)
  | _ => nullPointer

mutual

/-- `visitStmt`, by the keywords and children that are there. -/
def visitStmt : Context → Build Node
  | .stmt return_ continue_ break_ if_ while_ lVal exp block stmt =>
    let isRetStmt := return_.isSome
    if block.isSome then do
      let block ← visitBlock block
      return .stmt isRetStmt false false "" .null .null block .null .null .null
    else if continue_.isSome then
      return .stmt isRetStmt true false "" .null .null .null .null .null .null
    else if break_.isSome then
      return .stmt isRetStmt false true "" .null .null .null .null .null .null
    else do
      let (name, subIdx) ← visitTarget lVal
      let expr ← visitOptional visitExp exp
      let ifStmts ← if if_.isSome then visitBranches stmt else pure (.null, .null)
      let whileStmt ← if while_.isSome then visitFirst stmt else pure .null
      return .stmt isRetStmt false false name subIdx expr .null ifStmts.1 ifStmts.2 whileStmt
  | _ => nullPointer

/-- `ctx->stmt()[0]`, and `ctx->stmt()[1]` if there are two. -/
def visitBranches : List Context → Build (Node × Node)
  | [] => nullPointer
  | [s, e] => do
    let ifStmt ← visitStmt s
    let elseStmt ← visitStmt e
    return (ifStmt, elseStmt)
  | s :: _ => do
    let ifStmt ← visitStmt s
    return (ifStmt, .null)

/-- `ctx->stmt()[0]`. -/
def visitFirst : List Context → Build Node
  | [] => nullPointer
  | s :: _ => visitStmt s

/-- `visitBlock`. -/
def visitBlock : Context → Build Node
  | .block blockItem => do
    let blockItems ← visitBlockItems blockItem
    return .block blockItems
  | _ => nullPointer

def visitBlockItems : List Context → Build (List Node)
  | [] => return []
  | item :: items => do
    let blockItem ← visitBlockItem item
    let blockItems ← visitBlockItems items
    return blockItem :: blockItems

def visitBlockItem : Context → Build Node
  | .blockItem decl stmt =>
    if decl.isSome then do
      let decl ← visitDecl decl
      return .blockItem decl .null
    else do
      let stmt ← visitStmt stmt
      return .blockItem .null stmt
  | _ => nullPointer

end

/-! ### Functions and programs -/

def visitFuncFParam : Context → Build Node
  | .funcFParam leftSqrBr int ident => do
    let type ← if leftSqrBr.isSome then pure "pointer" else getText int
    let ident ← getText ident
    return .funcFParam type ident
  | _ => nullPointer

def visitFuncFParams : Context → Build Node
  | .null => return .funcFParams []
  | .funcFParams funcFParam => do
    let params ← funcFParam.mapM visitFuncFParam
    return .funcFParams params
  | _ => nullPointer

/-- `visitFunc`. -/
def visitFunc : Context → Build Node
  | .func int void ident funcFParams block => do
    let type ← if int.isSome then getText int else getText void
    let ident ← getText ident
    let param ← visitFuncFParams funcFParams
    let block ← visitBlock block
    return .func type ident block param
  | _ => nullPointer

/-- `visitProgram`. An item that is there is visited before the program in front of it. -/
def visitProgram : Context → Build Node
  | .program func decl program => do
    let func ← visitOptional visitFunc func
    let decl ← visitOptional visitDecl decl
    let prog ← if program.isSome then visitProgram program else pure .null
    return .prog decl func prog
  | _ => nullPointer

/-- `visitEntry`. -/
def visitEntry : Context → Build Node
  | .entry program => do
    let prog ← visitProgram program
    return .entry prog
  | _ => nullPointer

/-- `ASTBuilder::build`. -/
def build (entry : Context) : Build Node := visitEntry entry

end L24.Raw
