import L24.Frontend.Lexing
import L24.Raw.Builder

/-! The shapes that parse trees and the AST have where every pointer may be null: the context of a parse tree of the
    grammar, the node of each class of the AST proper, and that the builder makes the one of the other. -/

namespace L24
open TokenType Raw

/-! ### Nodes -/

/-- The text of the operator. -/
def UnaryOp.text (op : UnaryOp) : String := (Tree.unaryOpToken op).text

/-- The first character of the operator. -/
def AddOp.char : AddOp → Char
  | .plus => '+'
  | .minus => '-'

def MulOp.char : MulOp → Char
  | .star => '*'
  | .slash => '/'
  | .percentage => '%'

mutual

/-- The object of a node, one function for each class. Children that the class does not have here are null. -/
def ExprNode.toNode : ExprNode → Node
  | .mk e => .expr e.toNode

def LorExprNode.toNode : LorExprNode → Node
  | .land e => .lorExpr e.toNode .null
  | .lor a b => .lorExpr b.toNode a.toNode

def LandExprNode.toNode : LandExprNode → Node
  | .eq e => .landExpr e.toNode .null
  | .land a b => .landExpr b.toNode a.toNode

def EqExprNode.toNode : EqExprNode → Node
  | .rel e => .eqExpr "" e.toNode .null
  | .eq op a b => .eqExpr op.token.text b.toNode a.toNode

def RelExprNode.toNode : RelExprNode → Node
  | .add e => .relExpr "" e.toNode .null
  | .rel op a b => .relExpr op.token.text b.toNode a.toNode

def AddExprNode.toNode : AddExprNode → Node
  | .mul e => .addExpr '\x00' e.toNode .null
  | .add op a b => .addExpr op.char b.toNode a.toNode

def MulExprNode.toNode : MulExprNode → Node
  | .unary e => .mulExpr '\x00' e.toNode .null
  | .mul op a b => .mulExpr op.char b.toNode a.toNode

def UnaryExprNode.toNode : UnaryExprNode → Node
  | .primary e => .unaryExpr e.toNode .null .null "" .null
  | .unary op e => .unaryExpr .null (.unaryOp op.text) e.toNode "" .null
  | .call ident es => .unaryExpr .null .null .null ident (.funcRParams (exprNodes es))

/-- The objects of a list. -/
def exprNodes : List ExprNode → List Node
  | [] => []
  | e :: es => e.toNode :: exprNodes es

def PrimExprNode.toNode : PrimExprNode → Node
  | .expr e => .primExpr e.toNode .null .null
  | .number n => .primExpr .null (.number n.intLiteral) .null
  | .lVal l => .primExpr .null .null l.toNode

def LValNode.toNode : LValNode → Node
  | .mk ident none => .lVal ident .null
  | .mk ident (some e) => .lVal ident e.toNode

end

/-- The object of an expression, or null. -/
def exprNode? : Option ExprNode → Node
  | none => .null
  | some e => e.toNode

def InitValNode.toNode : InitValNode → Node
  | .exp e => .initVal false [] [e.toNode]
  | .list es => .initVal true [] (exprNodes es)
  | .string bytes => .initVal true bytes []

/-- The object of an initialiser, or null. -/
def initValNode? : Option InitValNode → Node
  | none => .null
  | some v => v.toNode

/-- The text of the keyword. -/
def BType.text (t : BType) : String := (Tree.bTypeToken t).text

def ConstDefNode.toNode (d : ConstDefNode) : Node := .constDef d.ident d.initVal.toNode (exprNode? d.exp)

def VarDefNode.toNode (d : VarDefNode) : Node := .varDef d.ident (initValNode? d.initVal) (exprNode? d.exp)

def DeclNode.toNode : DeclNode → Node
  | .constDecl d => .decl (.constDecl d.bType.text (d.constDefs.map ConstDefNode.toNode)) .null
  | .varDecl d => .decl .null (.varDecl d.bType.text (d.varDefs.map VarDefNode.toNode))

mutual

/-- The object of a statement. -/
def StmtNode.toNode : StmtNode → Node
  | .block items => .stmt false false false "" .null .null (.block (itemNodes items)) .null .null .null
  | .ifStmt e s none => .stmt false false false "" .null e.toNode .null s.toNode .null .null
  | .ifStmt e s (some t) => .stmt false false false "" .null e.toNode .null s.toNode t.toNode .null
  | .whileStmt e s => .stmt false false false "" .null e.toNode .null .null .null s.toNode
  | .continueStmt => .stmt false true false "" .null .null .null .null .null .null
  | .breakStmt => .stmt false false true "" .null .null .null .null .null .null
  | .ret e => .stmt true false false "" .null (exprNode? e) .null .null .null .null
  | .expr e => .stmt false false false "" .null (exprNode? e) .null .null .null .null
  | .assign lVal subIdx e => .stmt false false false lVal (exprNode? subIdx) e.toNode .null .null .null .null

/-- The objects of the items of a block. -/
def itemNodes : List BlockItemNode → List Node
  | [] => []
  | item :: items => item.toNode :: itemNodes items

def BlockItemNode.toNode : BlockItemNode → Node
  | .decl d => .blockItem d.toNode .null
  | .stmt s => .blockItem .null s.toNode

end

/-- `_type`, as text. -/
def FuncType.text : FuncType → String
  | .int => "int"
  | .char => "char"
  | .void => "void"

/-- `_type` of a parameter, as text. -/
def FParamType.text : FParamType → String
  | .int => "int"
  | .char => "char"
  | .pointer => "pointer"

def FuncFParamNode.toNode (p : FuncFParamNode) : Node := .funcFParam p.type.text p.ident

def FuncNode.toNode (f : FuncNode) : Node :=
  .func f.type.text f.ident (.block (itemNodes f.block)) (.funcFParams (f.param.map FuncFParamNode.toNode))

def ProgNode.toNode : ProgNode → Node
  | .decl d => .prog d.toNode .null .null
  | .func f => .prog .null f.toNode .null
  | .progDecl p d => .prog d.toNode .null p.toNode
  | .progFunc p f => .prog .null f.toNode p.toNode

/-- The object of the root. -/
def EntryNode.toNode (e : EntryNode) : Node := .entry e.prog.toNode

/-! ### Contexts -/

namespace Tree

/-- The context of an operator. -/
def unaryOpCtx : UnaryOp → Context
  | .minus => .unaryOp (some Minus.literal) none none
  | .plus => .unaryOp none (some Plus.literal) none
  | .not => .unaryOp none none (some Not.literal)

mutual

/-- The context of a tree, one function for each rule. -/
def Exp.ctx : Exp → Context
  | .mk e => .exp e.ctx

def LOrExp.ctx : LOrExp → Context
  | .lAndExp e => .lOrExp e.ctx .null
  | .logicalOr a b => .lOrExp b.ctx a.ctx

def LAndExp.ctx : LAndExp → Context
  | .eqExp e => .lAndExp .null e.ctx
  | .logicalAnd a b => .lAndExp a.ctx b.ctx

def EqExp.ctx : EqExp → Context
  | .relExp e => .eqExp none none .null e.ctx
  | .eq a b => .eqExp (some Eq.literal) none a.ctx b.ctx
  | .notEq a b => .eqExp none (some NotEq.literal) a.ctx b.ctx

def RelExp.ctx : RelExp → Context
  | .addExp e => .relExp none none none none .null e.ctx
  | .less a b => .relExp (some Less.literal) none none none a.ctx b.ctx
  | .greater a b => .relExp none (some Greater.literal) none none a.ctx b.ctx
  | .lessEq a b => .relExp none none (some LessEq.literal) none a.ctx b.ctx
  | .greaterEq a b => .relExp none none none (some GreaterEq.literal) a.ctx b.ctx

def AddExp.ctx : AddExp → Context
  | .mulExp e => .addExp none none .null e.ctx
  | .plus a b => .addExp (some Plus.literal) none a.ctx b.ctx
  | .minus a b => .addExp none (some Minus.literal) a.ctx b.ctx

def MulExp.ctx : MulExp → Context
  | .unaryExp e => .mulExp none none none .null e.ctx
  | .star a b => .mulExp none (some Star.literal) none a.ctx b.ctx
  | .slash a b => .mulExp (some Slash.literal) none none a.ctx b.ctx
  | .percentage a b => .mulExp none none (some Percentage.literal) a.ctx b.ctx

def UnaryExp.ctx : UnaryExp → Context
  | .primaryExp e => .unaryExp e.ctx .null .null none .null
  | .unaryOp op e => .unaryExp .null (unaryOpCtx op) e.ctx none .null
  | .call ident none => .unaryExp .null .null .null (some ident) .null
  | .call ident (some ps) => .unaryExp .null .null .null (some ident) ps.ctx

def FuncRParams.ctx : FuncRParams → Context
  | .mk e es => .funcRParams (e.ctx :: expCtxs es)

/-- The contexts of a list. -/
def expCtxs : List Exp → List Context
  | [] => []
  | e :: es => e.ctx :: expCtxs es

def PrimaryExp.ctx : PrimaryExp → Context
  | .paren e => .primaryExp e.ctx .null .null
  | .number text => .primaryExp .null (.number (some text)) .null
  | .lVal l => .primaryExp .null .null l.ctx

def LVal.ctx : LVal → Context
  | .mk ident none => .lVal (some ident) .null
  | .mk ident (some e) => .lVal (some ident) e.ctx

end

/-- The context of an expression, or null. -/
def expCtx? : Option Exp → Context
  | none => .null
  | some e => e.ctx

def InitVal.ctx : InitVal → Context
  | .exp e => .initVal none none [e.ctx]
  | .list none => .initVal (some LeftBrace.literal) none []
  | .list (some (e, es)) => .initVal (some LeftBrace.literal) none (e.ctx :: expCtxs es)
  | .string text => .initVal none (some text) []

/-- The context of an initialiser, or null. -/
def initValCtx? : Option InitVal → Context
  | none => .null
  | some v => v.ctx

/-- The context of a keyword. -/
def bTypeCtx (t : BType) : Context := .bType (some t.text)

def ConstDef.ctx (d : ConstDef) : Context := .constDef (some d.ident) (expCtx? d.exp) d.initVal.ctx

def VarDef.ctx (d : VarDef) : Context := .varDef (some d.ident) (expCtx? d.exp) (initValCtx? d.initVal)

def Decl.ctx : Decl → Context
  | .constDecl d => .decl (.constDecl (bTypeCtx d.bType) ((d.constDef :: d.constDefs).map ConstDef.ctx)) .null
  | .varDecl d => .decl .null (.varDecl (bTypeCtx d.bType) ((d.varDef :: d.varDefs).map VarDef.ctx))

mutual

/-- The context of a statement. -/
def Stmt.ctx : Stmt → Context
  | .ret e => .stmt (some Return.literal) none none none none .null (expCtx? e) .null []
  | .assign l e => .stmt none none none none none l.ctx e.ctx .null []
  | .exp e => .stmt none none none none none .null (expCtx? e) .null []
  | .block b => .stmt none none none none none .null .null b.ctx []
  | .ifStmt e s none => .stmt none none none (some If.literal) none .null e.ctx .null [s.ctx]
  | .ifStmt e s (some t) => .stmt none none none (some If.literal) none .null e.ctx .null [s.ctx, t.ctx]
  | .whileStmt e s => .stmt none none none none (some While.literal) .null e.ctx .null [s.ctx]
  | .continueStmt => .stmt none (some Continue.literal) none none none .null .null .null []
  | .breakStmt => .stmt none none (some Break.literal) none none .null .null .null []

def Block.ctx : Block → Context
  | .mk items => .block (itemCtxs items)

/-- The contexts of the items of a block. -/
def itemCtxs : List BlockItem → List Context
  | [] => []
  | item :: items => item.ctx :: itemCtxs items

def BlockItem.ctx : BlockItem → Context
  | .decl d => .blockItem d.ctx .null
  | .stmt s => .blockItem .null s.ctx

end

def FuncFParam.ctx (p : FuncFParam) : Context :=
  .funcFParam (if p.isArray then some LeftSqrBr.literal else none) (some p.type.text) (some p.ident)

/-- The context of the parameters, or null. -/
def paramsCtx? : Option FuncFParams → Context
  | none => .null
  | some ps => .funcFParams ((ps.funcFParam :: ps.funcFParams).map FuncFParam.ctx)

def Func.ctx (f : Func) : Context :=
  .func (f.type.map BType.text) (if f.type.isSome then none else some Void.literal) (some f.ident)
    (paramsCtx? f.funcFParams) f.block.ctx

def Program.ctx : Program → Context
  | .decl d => .program .null d.ctx .null
  | .func f => .program f.ctx .null .null
  | .progDecl p d => .program .null d.ctx p.ctx
  | .progFunc p f => .program f.ctx .null p.ctx

/-- The context of the whole tree. -/
def Entry.ctx (e : Entry) : Context := .entry e.program.ctx

end Tree

/-! ### Building -/

/-- What the builder of the AST proper gives, as the one with null pointers gives it. -/
def raise {α : Type} : L24.Build α → Raw.Build α
  | .ok a => .ok a
  | .error .outOfRange => .error .outOfRange
  | .error (.buildError _) => .error .nullPointer

section Raise
variable {α β γ : Type}

@[simp] theorem raise_pure (a : α) : raise (pure a) = pure a := rfl

@[simp] theorem raise_bind (m : L24.Build α) (f : α → L24.Build β) :
    raise (m >>= f) = raise m >>= fun a => raise (f a) := by
  rcases m with (_ | _) | a <;> rfl

@[simp] theorem raise_map (m : L24.Build α) (f : α → β) : raise (f <$> m) = f <$> raise m := by
  rcases m with (_ | _) | a <;> rfl

end Raise

/-- The tokens are such as the lexer makes. -/
def AllLexed (xs : List Token) : Prop := ∀ k ∈ xs, k.Lexed

/-- So are those of every parse tree without error nodes. -/
theorem parse_allLexed {entry : List Token → Option Tree.Entry} {skip : List Char → Nat} {text : List Char}
    {t : Tree.Entry}
    (ha : Antlr entry) (h : parse entry skip text = some t) : AllLexed t.tokens := by
  obtain ⟨rest, htoks, -⟩ := ha.sound _ _ h
  intro k hk
  refine @defaultTokens_lexed skip text k ?_
  rw [htoks]
  exact List.mem_append_left _ hk

section AllLexed
variable {k : Token} {xs ys : List Token}

theorem AllLexed.append (h : AllLexed (xs ++ ys)) : AllLexed xs ∧ AllLexed ys := List.forall_mem_append.mp h

theorem AllLexed.head (h : AllLexed (k :: xs)) : k.Lexed := (List.forall_mem_cons.mp h).1

theorem AllLexed.tail (h : AllLexed (k :: xs)) : AllLexed xs := (List.forall_mem_cons.mp h).2

theorem AllLexed.bin (h : AllLexed (xs ++ k :: ys)) : AllLexed xs ∧ AllLexed ys := ⟨h.append.1, h.append.2.tail⟩

theorem AllLexed.parens (h : AllLexed (Tree.parens xs)) : AllLexed xs := h.append.1.tail

theorem AllLexed.subscript (h : AllLexed (Tree.subscript xs)) : AllLexed xs := h.append.1.tail

end AllLexed

theorem stoll_digits {text : String} (h : Token.Lexed ⟨.IntLiteral, text⟩) :
    Raw.stoll text = raise (L24.stoll text) := by
  have hall : text.toList.takeWhile isDigit = text.toList := by
    have := @List.takeWhile_append_of_pos _ isDigit text.toList [] h.digits
    simpa using this
  have hne : text.toList ≠ [] := by
    obtain ⟨c, cs, htext, -⟩ := @Munch.run_all _ _ isDigit isDigit h
    simp [htext]
  simp only [Raw.stoll, hall, List.isEmpty_iff, hne, if_false, String.ofList_toList]
  unfold L24.stoll
  by_cases hdec : decimal text < 0x8000000000000000
  · rw [if_pos hdec]
    rfl
  · rw [if_neg hdec]
    rfl

namespace Tree
open L24

section Present

@[simp] theorem isSome_null : Context.null.isSome = false := rfl

@[simp] theorem LOrExp.isSome_ctx (e : LOrExp) : e.ctx.isSome = true := by cases e <;> rw [LOrExp.ctx] <;> rfl

@[simp] theorem LAndExp.isSome_ctx (e : LAndExp) : e.ctx.isSome = true := by cases e <;> rw [LAndExp.ctx] <;> rfl

@[simp] theorem EqExp.isSome_ctx (e : EqExp) : e.ctx.isSome = true := by cases e <;> rw [EqExp.ctx] <;> rfl

@[simp] theorem RelExp.isSome_ctx (e : RelExp) : e.ctx.isSome = true := by cases e <;> rw [RelExp.ctx] <;> rfl

@[simp] theorem AddExp.isSome_ctx (e : AddExp) : e.ctx.isSome = true := by cases e <;> rw [AddExp.ctx] <;> rfl

@[simp] theorem Exp.isSome_ctx (e : Exp) : e.ctx.isSome = true := by
  cases e
  rw [Exp.ctx]
  rfl

@[simp] theorem PrimaryExp.isSome_ctx (e : PrimaryExp) : e.ctx.isSome = true := by
  cases e <;> rw [PrimaryExp.ctx] <;> rfl

@[simp] theorem UnaryExp.isSome_ctx (e : UnaryExp) : e.ctx.isSome = true := by
  rcases e with e | ⟨op, e⟩ | ⟨ident, _ | ps⟩ <;> rw [UnaryExp.ctx] <;> rfl

@[simp] theorem isSome_unaryOpCtx (op : UnaryOp) : (unaryOpCtx op).isSome = true := by cases op <;> rfl

@[simp] theorem isSome_number (t : Raw.Terminal) : (Context.number t).isSome = true := rfl

end Present

theorem visit_unaryOpCtx (op : UnaryOp) : Raw.visitUnaryOp (unaryOpCtx op) = pure (.unaryOp op.text) := by
  cases op <;> rfl

mutual

theorem Exp.visit_ctx : ∀ e : Exp, AllLexed e.tokens → Raw.visitExp e.ctx = ExprNode.toNode <$> raise (visitExp e)
  | .mk e, h => by
    rw [Exp.tokens] at h
    simp [Exp.ctx, Raw.visitExp, visitExp, e.visit_ctx h, ExprNode.toNode]

theorem LOrExp.visit_ctx : ∀ e : LOrExp, AllLexed e.tokens →
    Raw.visitLOrExp e.ctx = LorExprNode.toNode <$> raise (visitLOrExp e)
  | .lAndExp e, h => by
    rw [LOrExp.tokens] at h
    simp [LOrExp.ctx, Raw.visitLOrExp, visitLOrExp, e.visit_ctx h, LorExprNode.toNode]
  | .logicalOr a b, h => by
    rw [LOrExp.tokens] at h
    simp [LOrExp.ctx, Raw.visitLOrExp, visitLOrExp, a.visit_ctx h.bin.1, b.visit_ctx h.bin.2, LorExprNode.toNode]

theorem LAndExp.visit_ctx : ∀ e : LAndExp, AllLexed e.tokens →
    Raw.visitLAndExp e.ctx = LandExprNode.toNode <$> raise (visitLAndExp e)
  | .eqExp e, h => by
    rw [LAndExp.tokens] at h
    simp [LAndExp.ctx, Raw.visitLAndExp, visitLAndExp, e.visit_ctx h, LandExprNode.toNode]
  | .logicalAnd a b, h => by
    rw [LAndExp.tokens] at h
    simp [LAndExp.ctx, Raw.visitLAndExp, visitLAndExp, a.visit_ctx h.bin.1, b.visit_ctx h.bin.2, LandExprNode.toNode]

theorem EqExp.visit_ctx : ∀ e : EqExp, AllLexed e.tokens →
    Raw.visitEqExp e.ctx = EqExprNode.toNode <$> raise (visitEqExp e)
  | .relExp e, h => by
    rw [EqExp.tokens] at h
    simp [EqExp.ctx, Raw.visitEqExp, visitEqExp, e.visit_ctx h, EqExprNode.toNode]
  | .eq a b, h | .notEq a b, h => by
    rw [EqExp.tokens] at h
    simp [EqExp.ctx, Raw.visitEqExp, visitEqExp, a.visit_ctx h.bin.1, b.visit_ctx h.bin.2, EqExprNode.toNode, getText,
      EqOp.token, TokenType.token]

theorem RelExp.visit_ctx : ∀ e : RelExp, AllLexed e.tokens →
    Raw.visitRelExp e.ctx = RelExprNode.toNode <$> raise (visitRelExp e)
  | .addExp e, h => by
    rw [RelExp.tokens] at h
    simp [RelExp.ctx, Raw.visitRelExp, visitRelExp, e.visit_ctx h, RelExprNode.toNode]
  | .less a b, h | .greater a b, h | .lessEq a b, h | .greaterEq a b, h => by
    rw [RelExp.tokens] at h
    simp [RelExp.ctx, Raw.visitRelExp, visitRelExp, a.visit_ctx h.bin.1, b.visit_ctx h.bin.2, RelExprNode.toNode,
      getText,
      RelOp.token, TokenType.token]

theorem AddExp.visit_ctx : ∀ e : AddExp, AllLexed e.tokens →
    Raw.visitAddExp e.ctx = AddExprNode.toNode <$> raise (visitAddExp e)
  | .mulExp e, h => by
    rw [AddExp.tokens] at h
    simp [AddExp.ctx, Raw.visitAddExp, visitAddExp, e.visit_ctx h, AddExprNode.toNode]
  | .plus a b, h | .minus a b, h => by
    rw [AddExp.tokens] at h
    simp [AddExp.ctx, Raw.visitAddExp, visitAddExp, a.visit_ctx h.bin.1, b.visit_ctx h.bin.2, AddExprNode.toNode,
      getChar,
      getText, AddOp.char, TokenType.literal]

theorem MulExp.visit_ctx : ∀ e : MulExp, AllLexed e.tokens →
    Raw.visitMulExp e.ctx = MulExprNode.toNode <$> raise (visitMulExp e)
  | .unaryExp e, h => by
    rw [MulExp.tokens] at h
    simp [MulExp.ctx, Raw.visitMulExp, visitMulExp, e.visit_ctx h, MulExprNode.toNode]
  | .star a b, h | .slash a b, h | .percentage a b, h => by
    rw [MulExp.tokens] at h
    simp [MulExp.ctx, Raw.visitMulExp, visitMulExp, a.visit_ctx h.bin.1, b.visit_ctx h.bin.2, MulExprNode.toNode,
      getChar,
      getText, MulOp.char, TokenType.literal]

theorem UnaryExp.visit_ctx : ∀ e : UnaryExp, AllLexed e.tokens →
    Raw.visitUnaryExp e.ctx = UnaryExprNode.toNode <$> raise (visitUnaryExp e)
  | .primaryExp e, h => by
    rw [UnaryExp.tokens] at h
    simp [UnaryExp.ctx, Raw.visitUnaryExp, visitUnaryExp, e.visit_ctx h, UnaryExprNode.toNode]
  | .unaryOp op e, h => by
    rw [UnaryExp.tokens] at h
    simp [UnaryExp.ctx, Raw.visitUnaryExp, visitUnaryExp, e.visit_ctx h.tail, UnaryExprNode.toNode, visit_unaryOpCtx]
  | .call ident none, h => by
    simp [UnaryExp.ctx, Raw.visitUnaryExp, visitUnaryExp, UnaryExprNode.toNode, getText, Raw.visitFuncRParams,
      exprNodes]
  | .call ident (some ps), h => by
    rw [UnaryExp.tokens] at h
    simp [UnaryExp.ctx, Raw.visitUnaryExp, visitUnaryExp, UnaryExprNode.toNode, getText, ps.visit_ctx h.tail.parens]

theorem FuncRParams.visit_ctx : ∀ ps : FuncRParams, AllLexed ps.tokens →
    Raw.visitFuncRParams ps.ctx = (fun es => .funcRParams (exprNodes es)) <$> raise (visitFuncRParams ps)
  | .mk e es, h => by
    rw [FuncRParams.tokens] at h
    simp [FuncRParams.ctx, Raw.visitFuncRParams, Raw.visitExps, visitFuncRParams, e.visit_ctx h.append.1,
      visitExps_ctx es h.append.2, exprNodes]

theorem visitExps_ctx : ∀ es : List Exp, AllLexed (expsTail es) →
    Raw.visitExps (expCtxs es) = exprNodes <$> raise (visitExps es)
  | [], _ => rfl
  | e :: es, h => by
    rw [expsTail] at h
    simp [expCtxs, Raw.visitExps, visitExps, e.visit_ctx h.append.1.tail, visitExps_ctx es h.append.2, exprNodes]

theorem PrimaryExp.visit_ctx : ∀ e : PrimaryExp, AllLexed e.tokens →
    Raw.visitPrimaryExp e.ctx = PrimExprNode.toNode <$> raise (visitPrimaryExp e)
  | .paren e, h => by
    rw [PrimaryExp.tokens] at h
    simp [PrimaryExp.ctx, Raw.visitPrimaryExp, visitPrimaryExp, e.visit_ctx h.parens, PrimExprNode.toNode]
  | .number text, h => by
    rw [PrimaryExp.tokens] at h
    simp [PrimaryExp.ctx, Raw.visitPrimaryExp, visitPrimaryExp, PrimExprNode.toNode, Raw.visitNumber, visitNumber,
      getText,
      stoll_digits h.head]
  | .lVal l, h => by
    rw [PrimaryExp.tokens] at h
    simp [PrimaryExp.ctx, Raw.visitPrimaryExp, visitPrimaryExp, l.visit_ctx h, PrimExprNode.toNode]

theorem LVal.visit_ctx : ∀ l : LVal, AllLexed l.tokens → Raw.visitLVal l.ctx = LValNode.toNode <$> raise (visitLVal l)
  | .mk ident none, _ => rfl
  | .mk ident (some e), h => by
    rw [LVal.tokens] at h
    simp [LVal.ctx, Raw.visitLVal, visitLVal, e.visit_ctx h.tail.subscript, LValNode.toNode, getText]

end

theorem visit_expCtx? (e : Option Exp) (h : AllLexed (expTokens e)) :
    visitOptional Raw.visitExp (expCtx? e) = exprNode? <$> raise (visitExp? e) := by
  cases e with
  | none => rfl
  | some e => simp [expCtx?, visitOptional, visitExp?, e.visit_ctx h, exprNode?]

/-! ### Declarations -/

theorem AllLexed.subscriptTokens {e : Option Exp} (h : AllLexed (Tree.subscriptTokens e)) : AllLexed (expTokens e) := by
  cases e with
  | none => exact h
  | some e => exact AllLexed.subscript h

theorem InitVal.visit_ctx (v : InitVal) (h : AllLexed v.tokens) :
    Raw.visitInitVal v.ctx = InitValNode.toNode <$> raise (visitInitVal v) := by
  rcases v with e | (_ | ⟨e, es⟩) | text
  · simp [InitVal.ctx, Raw.visitInitVal, Raw.visitExps, visitInitVal, e.visit_ctx h, InitValNode.toNode]
  · rfl
  · have hexps : AllLexed (e.tokens ++ expsTail es) := h.append.1.tail
    simp [InitVal.ctx, Raw.visitInitVal, Raw.visitExps, visitInitVal, visitExps, e.visit_ctx hexps.append.1,
      visitExps_ctx es hexps.append.2, InitValNode.toNode, exprNodes]
  · have hne : text ≠ "" := by
      obtain ⟨body, htext⟩ := Token.Lexed.quoted h.head
      rintro rfl
      cases htext
    simp [InitVal.ctx, Raw.visitInitVal, Raw.visitExps, visitInitVal, InitValNode.toNode, getText, unquote, hne]

@[simp] theorem InitVal.isSome_ctx (v : InitVal) : v.ctx.isSome = true := by
  rcases v with e | (_ | ⟨e, es⟩) | text <;> rfl

theorem ConstDef.visit_ctx (d : ConstDef) (h : AllLexed d.tokens) :
    Raw.visitConstDef d.ctx = ConstDefNode.toNode <$> raise (visitConstDef d) := by
  have hinit : AllLexed (Assign.token :: d.initVal.tokens) := h.append.2
  have hsub := visit_expCtx? d.exp (AllLexed.subscriptTokens h.append.1.tail)
  simp [ConstDef.ctx, Raw.visitConstDef, visitConstDef, getText, d.initVal.visit_ctx hinit.tail, hsub,
    ConstDefNode.toNode]

theorem visit_initValCtx? (v : Option InitVal) (h : AllLexed (initTokens v)) :
    visitOptional Raw.visitInitVal (initValCtx? v) = initValNode? <$> raise (v.mapM visitInitVal) := by
  cases v with
  | none => rfl
  | some v => simp [initValCtx?, visitOptional, v.visit_ctx h.tail, initValNode?]

theorem VarDef.visit_ctx (d : VarDef) (h : AllLexed d.tokens) :
    Raw.visitVarDef d.ctx = VarDefNode.toNode <$> raise (visitVarDef d) := by
  have hinit := visit_initValCtx? d.initVal h.append.2
  have hsub := visit_expCtx? d.exp (AllLexed.subscriptTokens h.append.1.tail)
  simp [VarDef.ctx, Raw.visitVarDef, visitVarDef, getText, hinit, hsub, VarDefNode.toNode]

theorem mapM_visit_ctx {α β : Type} {ctx : α → Context} {raw : Context → Raw.Build Node} {visit : α → L24.Build β}
    {toNode : β → Node} {xs : List α} (h : ∀ x ∈ xs, raw (ctx x) = toNode <$> raise (visit x)) :
    (xs.map ctx).mapM raw = List.map toNode <$> raise (xs.mapM visit) := by
  induction xs with
  | nil => rfl
  | cons x xs ih =>
    obtain ⟨hx, hxs⟩ := List.forall_mem_cons.mp h
    simp [List.mapM_cons, hx, ih hxs]

theorem AllLexed.commaTail {α : Type} {tokens : α → List Token} {xs : List α}
    (h : AllLexed (Tree.commaTail tokens xs)) :
    ∀ x ∈ xs, AllLexed (tokens x) := by
  intro x hx k hk
  exact h k (List.mem_flatMap.mpr ⟨x, hx, List.mem_cons_of_mem _ hk⟩)

theorem Decl.visit_ctx (d : Decl) (h : AllLexed d.tokens) :
    Raw.visitDecl d.ctx = DeclNode.toNode <$> raise (visitDecl d) := by
  cases d with
  | constDecl d =>
    have hdefs : AllLexed (d.constDef.tokens ++ commaTail ConstDef.tokens d.constDefs) := h.append.1.tail.tail
    have hall : ∀ x ∈ d.constDef :: d.constDefs,
        Raw.visitConstDef x.ctx = ConstDefNode.toNode <$> raise (visitConstDef x) :=
      List.forall_mem_cons.mpr ⟨d.constDef.visit_ctx hdefs.append.1,
        fun x hx => x.visit_ctx (AllLexed.commaTail hdefs.append.2 x hx)⟩
    have hmap := mapM_visit_ctx hall
    have hpresent : ∀ b cs, (Context.constDecl b cs).isSome = true := fun _ _ => rfl
    simp only [Decl.ctx, Raw.visitDecl, hpresent, if_true, Raw.visitConstDecl, visitDecl, visitConstDecl, hmap]
    simp [bTypeCtx, visitBType, getText, DeclNode.toNode]
  | varDecl d =>
    have hdefs : AllLexed (d.varDef.tokens ++ commaTail VarDef.tokens d.varDefs) := h.append.1.tail
    have hall : ∀ x ∈ d.varDef :: d.varDefs, Raw.visitVarDef x.ctx = VarDefNode.toNode <$> raise (visitVarDef x) :=
      List.forall_mem_cons.mpr ⟨d.varDef.visit_ctx hdefs.append.1,
        fun x hx => x.visit_ctx (AllLexed.commaTail hdefs.append.2 x hx)⟩
    have hmap := mapM_visit_ctx hall
    simp only [Decl.ctx, Raw.visitDecl, isSome_null, Bool.false_eq_true, if_false, Raw.visitVarDecl, visitDecl,
      visitVarDecl, hmap]
    simp [bTypeCtx, visitBType, getText, DeclNode.toNode]

/-! ### Statements and functions -/

section Present

@[simp] theorem Decl.isSome_ctx (d : Decl) : d.ctx.isSome = true := by cases d <;> rfl

@[simp] theorem Block.isSome_ctx (b : Block) : b.ctx.isSome = true := by
  cases b
  rw [Block.ctx]
  rfl

@[simp] theorem Stmt.isSome_ctx (s : Stmt) : s.ctx.isSome = true := by
  rcases s with e | ⟨l, e⟩ | e | b | ⟨e, s, _ | t⟩ | ⟨e, s⟩ | _ | _ <;> rw [Stmt.ctx] <;> rfl

@[simp] theorem Func.isSome_ctx (f : Func) : f.ctx.isSome = true := rfl

@[simp] theorem Program.isSome_ctx (p : Program) : p.ctx.isSome = true := by cases p <;> rw [Program.ctx] <;> rfl

end Present

/-- The target of an assignment: its name, and its subscript or null. -/
theorem visitTarget_ctx (ident : String) (sub : Option Exp) (h : AllLexed (LVal.mk ident sub).tokens) :
    visitTarget (LVal.mk ident sub).ctx = (fun e => (ident, exprNode? e)) <$> raise (visitExp? sub) := by
  cases sub with
  | none => rfl
  | some e =>
    rw [LVal.tokens] at h
    simp [LVal.ctx, visitTarget, getText, visitOptional, visitExp?, e.visit_ctx h.tail.subscript, exprNode?]

mutual

theorem Stmt.visit_ctx : ∀ s : Stmt, AllLexed s.tokens → Raw.visitStmt s.ctx = StmtNode.toNode <$> raise (visitStmt s)
  | .ret e, h => by
    rw [Stmt.tokens] at h
    simp [Stmt.ctx, Raw.visitStmt, visitStmt, visitTarget, visit_expCtx? e h.append.1.tail, StmtNode.toNode]
  | .assign (.mk ident sub) e, h => by
    rw [Stmt.tokens] at h
    simp [Stmt.ctx, Raw.visitStmt, visitStmt, visitTarget_ctx ident sub h.append.1.append.1, visitOptional,
      e.visit_ctx h.append.1.append.2.tail, StmtNode.toNode]
  | .exp e, h => by
    rw [Stmt.tokens] at h
    simp [Stmt.ctx, Raw.visitStmt, visitStmt, visitTarget, visit_expCtx? e h.append.1, StmtNode.toNode]
  | .block b, h => by
    rw [Stmt.tokens] at h
    simp [Stmt.ctx, Raw.visitStmt, visitStmt, b.visit_ctx h, StmtNode.toNode]
  | .ifStmt e s none, h => by
    rw [Stmt.tokens] at h
    obtain ⟨he, hs⟩ := h.append.1.bin
    simp [Stmt.ctx, Raw.visitStmt, visitStmt, visitTarget, visitOptional, Raw.visitBranches, e.visit_ctx he.tail.parens,
      s.visit_ctx hs, StmtNode.toNode]
  | .ifStmt e s (some t), h => by
    rw [Stmt.tokens] at h
    obtain ⟨hthen, ht⟩ := h.append.1.bin
    obtain ⟨he, hs⟩ := hthen.bin
    simp [Stmt.ctx, Raw.visitStmt, visitStmt, visitTarget, visitOptional, Raw.visitBranches, e.visit_ctx he.tail.parens,
      s.visit_ctx hs, t.visit_ctx ht, StmtNode.toNode]
  | .whileStmt e s, h => by
    rw [Stmt.tokens] at h
    simp [Stmt.ctx, Raw.visitStmt, visitStmt, visitTarget, visitOptional, Raw.visitFirst,
      e.visit_ctx h.append.1.tail.parens, s.visit_ctx h.append.2, StmtNode.toNode]
  | .continueStmt, _ => rfl
  | .breakStmt, _ => rfl

theorem Block.visit_ctx : ∀ b : Block, AllLexed b.tokens →
    Raw.visitBlock b.ctx = (fun items => .block (itemNodes items)) <$> raise (visitBlock b)
  | .mk items, h => by
    rw [Block.tokens] at h
    simp [Block.ctx, Raw.visitBlock, visitBlock, visitItems_ctx items h.append.1.tail]

theorem visitItems_ctx : ∀ items : List BlockItem, AllLexed (itemsTokens items) →
    Raw.visitBlockItems (itemCtxs items) = itemNodes <$> raise (visitBlockItems items)
  | [], _ => rfl
  | item :: items, h => by
    rw [itemsTokens] at h
    simp [itemCtxs, Raw.visitBlockItems, visitBlockItems, item.visit_ctx h.append.1, visitItems_ctx items h.append.2,
      itemNodes]

theorem BlockItem.visit_ctx : ∀ item : BlockItem, AllLexed item.tokens →
    Raw.visitBlockItem item.ctx = BlockItemNode.toNode <$> raise (visitBlockItem item)
  | .decl d, h => by
    rw [BlockItem.tokens] at h
    simp [BlockItem.ctx, Raw.visitBlockItem, visitBlockItem, d.visit_ctx h, BlockItemNode.toNode]
  | .stmt s, h => by
    rw [BlockItem.tokens] at h
    simp [BlockItem.ctx, Raw.visitBlockItem, visitBlockItem, s.visit_ctx h, BlockItemNode.toNode]

end

theorem FuncFParam.visit_ctx (p : FuncFParam) : Raw.visitFuncFParam p.ctx = pure (visitFuncFParam p).toNode := by
  rcases p with ⟨_ | _, ident, _ | _⟩ <;> rfl

theorem visitParams_ctx (ps : Option FuncFParams) :
    Raw.visitFuncFParams (paramsCtx? ps) = pure (.funcFParams ((visitFuncFParams ps).map FuncFParamNode.toNode)) := by
  cases ps with
  | none => rfl
  | some ps =>
    have hall : ∀ qs : List FuncFParam, (qs.map FuncFParam.ctx).mapM Raw.visitFuncFParam =
        (pure ((qs.map visitFuncFParam).map FuncFParamNode.toNode) : Raw.Build (List Node)) := by
      intro qs
      induction qs with
      | nil => rfl
      | cons q qs ih => simp [List.mapM_cons, FuncFParam.visit_ctx, ih]
    simp only [paramsCtx?, Raw.visitFuncFParams, hall, visitFuncFParams]
    rfl

theorem Func.visit_ctx (f : Func) (h : AllLexed f.tokens) :
    Raw.visitFunc f.ctx = FuncNode.toNode <$> raise (visitFunc f) := by
  rcases f with ⟨_ | _ | _, ident, ps, b⟩ <;>
    simp [Func.ctx, Raw.visitFunc, visitFunc, getText, visitParams_ctx, b.visit_ctx h.append.2, FuncNode.toNode,
      visitFuncType, FuncType.text, BType.text, bTypeToken, TokenType.literal]

theorem Program.visit_ctx (p : Program) (h : AllLexed p.tokens) :
    Raw.visitProgram p.ctx = ProgNode.toNode <$> raise (visitProgram p) := by
  induction p with
  | decl d =>
    rw [Program.tokens] at h
    simp [Program.ctx, Raw.visitProgram, visitProgram, visitOptional, d.visit_ctx h, ProgNode.toNode]
  | func f =>
    rw [Program.tokens] at h
    simp [Program.ctx, Raw.visitProgram, visitProgram, visitOptional, f.visit_ctx h, ProgNode.toNode]
  | progDecl p d ih =>
    rw [Program.tokens] at h
    simp [Program.ctx, Raw.visitProgram, visitProgram, visitOptional, d.visit_ctx h.append.2, ih h.append.1,
      ProgNode.toNode]
  | progFunc p f ih =>
    rw [Program.tokens] at h
    simp [Program.ctx, Raw.visitProgram, visitProgram, visitOptional, f.visit_ctx h.append.2, ih h.append.1,
      ProgNode.toNode]

/-- The builder gives the node of the AST proper, and meets no null pointer. -/
theorem Entry.build_ctx (t : Entry) (h : AllLexed t.tokens) :
    Raw.build t.ctx = EntryNode.toNode <$> raise (build t) := by
  simp [Entry.ctx, Raw.build, Raw.visitEntry, build, visitEntry, t.program.visit_ctx h, EntryNode.toNode]

end Tree

end L24
