import L24.Raw.CodeGen
import L24.Raw.Shape

/-! Code generation on the nodes that the builder makes: it never uses a null node or a null value, and does what code
    generation on the AST proper does. -/

namespace L24
open Ir TokenType Raw

section Lift
variable {α β : Type}

@[simp] theorem lift_pure (a : α) : lift (pure a) = pure a := rfl

@[simp] theorem lift_bind (m : CG α) (f : α → CG β) : lift (m >>= f) = lift m >>= fun a => lift (f a) := by
  funext s
  simp only [lift, bind, EStateM.bind]
  cases m s.ctx <;> rfl

@[simp] theorem lift_map (m : CG α) (f : α → β) : lift (f <$> m) = f <$> lift m := by
  funext s
  simp only [lift, Functor.map, EStateM.map]
  cases m s.ctx <;> rfl

@[simp] theorem lift_discard (m : CG α) : lift (discard m) = discard (lift m) := lift_map m _

@[simp] theorem liftM_eq (m : CG α) : (liftM m : Gen α) = lift m := rfl

@[simp] theorem monadLift_eq (m : CG α) : (monadLift m : Gen α) = lift m := rfl

@[simp] theorem value_some (v : Value) : Raw.value (some v) = pure v := rfl

@[simp] theorem result_eq (m : Gen Value) : result m = some <$> m := by simp [result]

@[simp] theorem lift_ite {p : Prop} [Decidable p] (m n : CG α) :
    lift (if p then m else n) = if p then lift m else lift n := by
  split <;> rfl

@[simp] theorem mapM_value (vs : List Value) : vs.mapM (Raw.value ∘ some) = pure vs := by
  induction vs with
  | nil => rfl
  | cons v vs ih => simp [List.mapM_cons, ih]

end Lift

section Present

@[simp] theorem isSome_nullNode : Node.null.isSome = false := rfl

@[simp] theorem ExprNode.isSome_toNode (e : ExprNode) : e.toNode.isSome = true := by
  cases e
  rw [ExprNode.toNode]
  rfl

@[simp] theorem LorExprNode.isSome_toNode (e : LorExprNode) : e.toNode.isSome = true := by
  cases e <;> rw [LorExprNode.toNode] <;> rfl

@[simp] theorem LandExprNode.isSome_toNode (e : LandExprNode) : e.toNode.isSome = true := by
  cases e <;> rw [LandExprNode.toNode] <;> rfl

@[simp] theorem EqExprNode.isSome_toNode (e : EqExprNode) : e.toNode.isSome = true := by
  cases e <;> rw [EqExprNode.toNode] <;> rfl

@[simp] theorem RelExprNode.isSome_toNode (e : RelExprNode) : e.toNode.isSome = true := by
  cases e <;> rw [RelExprNode.toNode] <;> rfl

@[simp] theorem AddExprNode.isSome_toNode (e : AddExprNode) : e.toNode.isSome = true := by
  cases e <;> rw [AddExprNode.toNode] <;> rfl

@[simp] theorem UnaryExprNode.isSome_toNode (e : UnaryExprNode) : e.toNode.isSome = true := by
  cases e <;> rw [UnaryExprNode.toNode] <;> rfl

@[simp] theorem PrimExprNode.isSome_toNode (e : PrimExprNode) : e.toNode.isSome = true := by
  cases e <;> rw [PrimExprNode.toNode] <;> rfl

@[simp] theorem LValNode.isSome_toNode (e : LValNode) : e.toNode.isSome = true := by
  rcases e with ⟨ident, _ | e⟩ <;> rw [LValNode.toNode] <;> rfl

@[simp] theorem isSome_unaryOp (op : String) : (Node.unaryOp op).isSome = true := rfl

@[simp] theorem isSome_numberNode (v : BitVec 64) : (Node.number v).isSome = true := rfl

end Present

/-! ### Expressions -/

@[simp] theorem length_exprNodes (es : List ExprNode) : (exprNodes es).length = es.length := by
  induction es with
  | nil => rfl
  | cons e es ih => simp [exprNodes, ih]

section
variable [ConstantFolder]

mutual

theorem ExprNode.gen_toNode : ∀ e : ExprNode, Raw.codeGenExp e.toNode = some <$> lift (codeGenExp e)
  | .mk e => by simp [ExprNode.toNode, Raw.codeGenExp, codeGenExp, e.gen_toNode]

theorem LorExprNode.gen_toNode : ∀ e : LorExprNode, Raw.codeGenLorExp e.toNode = some <$> lift (codeGenLorExp e)
  | .land e => by simp [LorExprNode.toNode, Raw.codeGenLorExp, codeGenLorExp, e.gen_toNode]
  | .lor a b => by
    simp [LorExprNode.toNode, Raw.codeGenLorExp, codeGenLorExp, a.gen_toNode, b.gen_toNode, Raw.intToBoolean]

theorem LandExprNode.gen_toNode : ∀ e : LandExprNode, Raw.codeGenLandExp e.toNode = some <$> lift (codeGenLandExp e)
  | .eq e => by simp [LandExprNode.toNode, Raw.codeGenLandExp, codeGenLandExp, e.gen_toNode]
  | .land a b => by
    simp [LandExprNode.toNode, Raw.codeGenLandExp, codeGenLandExp, a.gen_toNode, b.gen_toNode, Raw.intToBoolean]

theorem EqExprNode.gen_toNode : ∀ e : EqExprNode, Raw.codeGenEqExp e.toNode = some <$> lift (codeGenEqExp e)
  | .rel e => by simp [EqExprNode.toNode, Raw.codeGenEqExp, codeGenEqExp, e.gen_toNode]
  | .eq op a b => by
    cases op <;> simp [EqExprNode.toNode, Raw.codeGenEqExp, codeGenEqExp, a.gen_toNode, b.gen_toNode, createICmpInt,
      EqOp.token, TokenType.token, TokenType.literal]

theorem RelExprNode.gen_toNode : ∀ e : RelExprNode, Raw.codeGenRelExp e.toNode = some <$> lift (codeGenRelExp e)
  | .add e => by simp [RelExprNode.toNode, Raw.codeGenRelExp, codeGenRelExp, e.gen_toNode]
  | .rel op a b => by
    cases op <;> simp [RelExprNode.toNode, Raw.codeGenRelExp, codeGenRelExp, a.gen_toNode, b.gen_toNode, createICmpInt,
      RelOp.token, TokenType.token, TokenType.literal]

theorem AddExprNode.gen_toNode : ∀ e : AddExprNode, Raw.codeGenAddExp e.toNode = some <$> lift (codeGenAddExp e)
  | .mul e => by simp [AddExprNode.toNode, Raw.codeGenAddExp, codeGenAddExp, e.gen_toNode]
  | .add op a b => by
    cases op <;> simp [AddExprNode.toNode, Raw.codeGenAddExp, codeGenAddExp, a.gen_toNode, b.gen_toNode,
      Raw.createBinOp,
      AddOp.char]

theorem MulExprNode.gen_toNode : ∀ e : MulExprNode, Raw.codeGenMulExp e.toNode = some <$> lift (codeGenMulExp e)
  | .unary e => by simp [MulExprNode.toNode, Raw.codeGenMulExp, codeGenMulExp, e.gen_toNode]
  | .mul op a b => by
    cases op <;> simp [MulExprNode.toNode, Raw.codeGenMulExp, codeGenMulExp, a.gen_toNode, b.gen_toNode,
      Raw.createBinOp,
      MulOp.char]

theorem UnaryExprNode.gen_toNode : ∀ e : UnaryExprNode, Raw.codeGenUnaryExp e.toNode = some <$> lift (codeGenUnaryExp e)
  | .primary e => by simp [UnaryExprNode.toNode, Raw.codeGenUnaryExp, codeGenUnaryExp, e.gen_toNode]
  | .unary op e => by
    cases op <;> simp [UnaryExprNode.toNode, Raw.codeGenUnaryExp, codeGenUnaryExp, e.gen_toNode, operator, UnaryOp.text,
      Tree.unaryOpToken, TokenType.token, TokenType.literal, createICmpInt]
  | .call ident es => by
    simp [UnaryExprNode.toNode, Raw.codeGenUnaryExp, codeGenUnaryExp, codeGenCall, exprNodes_gen es]
    refine bind_congr fun func => ?_
    split <;> simp

theorem exprNodes_gen : ∀ es : List ExprNode, Raw.codeGenExps (exprNodes es) = List.map some <$> lift (codeGenExps es)
  | [] => rfl
  | e :: es => by simp [exprNodes, Raw.codeGenExps, codeGenExps, e.gen_toNode, exprNodes_gen es]

theorem PrimExprNode.gen_toNode :
    ∀ e : PrimExprNode, Raw.codeGenPrimaryExp e.toNode = some <$> lift (codeGenPrimaryExp e)
  | .expr e => by simp [PrimExprNode.toNode, Raw.codeGenPrimaryExp, codeGenPrimaryExp, e.gen_toNode]
  | .number n => by
    simp [PrimExprNode.toNode, Raw.codeGenPrimaryExp, codeGenPrimaryExp, Raw.codeGenNumber, codeGenNumber]
  | .lVal l => by simp [PrimExprNode.toNode, Raw.codeGenPrimaryExp, codeGenPrimaryExp, l.gen_toNode]

theorem LValNode.gen_toNode : ∀ l : LValNode, Raw.codeGenLVal l.toNode = some <$> lift (codeGenLVal l)
  | .mk ident none => by simp [LValNode.toNode, Raw.codeGenLVal, codeGenLVal]
  | .mk ident (some e) => by simp [LValNode.toNode, Raw.codeGenLVal, codeGenLVal, e.gen_toNode]

end

omit [ConstantFolder] in
theorem exprNodes_eq (es : List ExprNode) : exprNodes es = es.map ExprNode.toNode := by
  induction es with
  | nil => rfl
  | cons e es ih => simp [exprNodes, ih]

/-! ### Declarations -/

theorem gen_exprNode? (e : Option ExprNode) : codeGenOptional (exprNode? e) = lift (codeGenSubIdx e) := by
  cases e with
  | none => rfl
  | some e => simp [exprNode?, codeGenOptional, codeGenSubIdx, e.gen_toNode]

/-- An initialiser as the generator reads it. -/
def initParts (init : Option InitValNode) : Option (List (BitVec 8) × List Node) :=
  init.map fun v => (v.stringLiteral, exprNodes v.exps)

omit [ConstantFolder] in
theorem initValNode_eq (init : Option InitValNode) : initValNode (initValNode? init) = pure (initParts init) := by
  rcases init with _ | (e | es | bytes) <;> rfl

omit [ConstantFolder] in
/-- The expressions and the bytes of a string literal are never both there. -/
theorem InitValNode.lt_exps {v : InitValNode} {idx : Nat} (hidx : ¬ max v.exps.length v.stringLiteral.length ≤ idx)
    (he : v.exps.isEmpty = false) : idx < v.exps.length := by
  cases v <;> simp_all [InitValNode.exps, InitValNode.stringLiteral]

theorem initVal_gen (init : Option InitValNode) (idx : Nat) :
    Raw.initVal (initParts init) idx = some <$> lift (initVal init idx) := by
  cases init with
  | none => rfl
  | some v =>
    simp only [initParts, Option.map_some, Raw.initVal, initVal, length_exprNodes]
    split
    · rfl
    · rename_i hidx
      cases he : v.exps.isEmpty with
      | true =>
        simp [List.isEmpty_iff.mp he, exprNodes]
      | false =>
        have hlt := InitValNode.lt_exps hidx he
        have hempty : (exprNodes v.exps).isEmpty = false := by simpa [exprNodes_eq] using he
        have hget : (exprNodes v.exps).getD idx .null = (v.exps[idx]).toNode := by simp [exprNodes_eq, List.getD, hlt]
        rw [if_neg (by simp [hempty]), if_neg (by simp), hget, ExprNode.gen_toNode]
        simp [hlt, deref]

theorem initVals_gen (init : Option InitValNode) (idx n : Nat) :
    Raw.initVals (initParts init) idx n = List.map some <$> lift (initVals init idx n) := by
  induction n generalizing idx with
  | zero => rfl
  | succ n ih => simp [Raw.initVals, initVals, initVal_gen, ih]

theorem getInitVals_gen (init : Option InitValNode) (arraySize : Option Value) :
    Raw.getInitVals (initParts init) arraySize = List.map some <$> lift (getInitVals init arraySize) := by
  cases arraySize with
  | none => exact initVals_gen init 0 1
  | some arraySize =>
    simp only [Raw.getInitVals, getInitVals, initVals_gen, liftM_eq, lift_bind, map_bind]
    refine bind_congr fun size => ?_
    split <;> simp

theorem codeGenDef_gen (ty : ValType) (ident : String) (init : Option InitValNode) (exp : Option ExprNode) :
    Raw.codeGenDef ty ident (initValNode? init) (exprNode? exp) = lift (codeGenDef ty ident init exp) := by
  simp only [Raw.codeGenDef, gen_exprNode?, initValNode_eq, pure_bind, getInitVals_gen]
  cases exp <;> simp [codeGenSubIdx, codeGenDef]

omit [ConstantFolder] in
theorem forM_gen {α : Type} {toNode : α → Node} {raw : Node → Gen Unit} {gen : α → CG Unit}
    (h : ∀ a, raw (toNode a) = lift (gen a)) (as : List α) : (as.map toNode).forM raw = lift (as.forM gen) := by
  induction as with
  | nil => rfl
  | cons a as ih => simp only [List.map_cons, List.forM_eq_forM, List.forM_cons, lift_bind, h] at ih ⊢; simp only [ih]

theorem DeclNode.gen_toNode (d : DeclNode) : Raw.codeGenDecl d.toNode = lift (codeGenDecl d) := by
  cases d with
  | constDecl d => exact forM_gen (fun d => codeGenDef_gen .const d.ident (some d.initVal) d.exp) d.constDefs
  | varDecl d => exact forM_gen (fun d => codeGenDef_gen .var d.ident d.initVal d.exp) d.varDefs

/-! ### Statements -/

section Present

omit [ConstantFolder] in
@[simp] theorem DeclNode.isSome_toNode (d : DeclNode) : d.toNode.isSome = true := by cases d <;> rfl

omit [ConstantFolder] in
@[simp] theorem StmtNode.isSome_toNode (s : StmtNode) : s.toNode.isSome = true := by
  rcases s with items | ⟨e, s, _ | t⟩ | ⟨e, s⟩ | _ | _ | e | e | ⟨l, i, e⟩ <;> rw [StmtNode.toNode] <;> rfl

omit [ConstantFolder] in
@[simp] theorem FuncNode.isSome_toNode (f : FuncNode) : f.toNode.isSome = true := rfl

omit [ConstantFolder] in
@[simp] theorem ProgNode.isSome_toNode (p : ProgNode) : p.toNode.isSome = true := by
  cases p <;> rw [ProgNode.toNode] <;> rfl

omit [ConstantFolder] in
@[simp] theorem isSome_block (items : List Node) : (Node.block items).isSome = true := rfl

omit [ConstantFolder] in
@[simp] theorem isSome_exprNode?_none : (exprNode? none).isSome = false := rfl

omit [ConstantFolder] in
@[simp] theorem isSome_exprNode?_some (e : ExprNode) : (exprNode? (some e)).isSome = true := e.isSome_toNode

end Present

theorem codeGenIfStmt_gen {expr : Gen (Option Value)} {e : ExprNode} {ifStmt elseStmt : CG Unit}
    (h : expr = some <$> lift (codeGenExp e)) : Raw.codeGenIfStmt expr (lift ifStmt) (lift elseStmt) =
      lift (L24.codeGenIfStmt e ifStmt elseStmt) := by
  rw [h]
  simp [Raw.codeGenIfStmt, L24.codeGenIfStmt]

theorem codeGenWhileStmt_gen {expr : Gen (Option Value)} {e : ExprNode} {whileStmt : CG Unit}
    (h : expr = some <$> lift (codeGenExp e)) : Raw.codeGenWhileStmt expr (lift whileStmt) =
      lift (L24.codeGenWhileStmt e whileStmt) := by
  rw [h]
  simp [Raw.codeGenWhileStmt, L24.codeGenWhileStmt]

omit [ConstantFolder] in
/-- The lexer makes no empty identifier, so an assignment is not taken for an expression statement. -/
theorem Token.Lexed.ident_ne {text : String} (h : Token.Lexed ⟨.Ident, text⟩) : text ≠ "" := by
  obtain ⟨c, cs, htext, -⟩ := @Munch.run_all _ _ isIdentStart isIdentPart h
  rintro rfl
  cases htext

mutual

theorem Tree.Stmt.gen_visit : ∀ (s : Tree.Stmt) {n : StmtNode}, AllLexed s.tokens → visitStmt s = .ok n →
    Raw.codeGenStmt n.toNode = lift (codeGenStmt n)
  | .ret e, n, _, hn => by
    rw [visitStmt] at hn
    obtain ⟨e', -, hn⟩ := bind_eq_ok hn
    obtain rfl := Except.ok.inj hn
    cases e' with
    | none => simp [StmtNode.toNode, Raw.codeGenStmt, codeGenStmt, codeGenRet]
    | some e' => simp [StmtNode.toNode, Raw.codeGenStmt, codeGenStmt, codeGenRet, exprNode?, e'.gen_toNode,
        Raw.createRet]
  | .assign (.mk ident sub) e, n, h, hn => by
    rw [Tree.Stmt.tokens] at h
    rw [visitStmt] at hn
    obtain ⟨sub', -, hn⟩ := bind_eq_ok hn
    obtain ⟨e', -, hn⟩ := bind_eq_ok hn
    obtain rfl := Except.ok.inj hn
    have hlval : AllLexed (Tree.LVal.mk ident sub).tokens := h.append.1.append.1
    -- The code takes a target to be there if its name is not empty; an identifier never is.
    have hne : ident ≠ "" := by
      cases sub <;> exact hlval.head.ident_ne
    simp [StmtNode.toNode, Raw.codeGenStmt, codeGenStmt, codeGenAssign, e'.gen_toNode, hne, gen_exprNode?]
  | .exp e, n, _, hn => by
    rw [visitStmt] at hn
    obtain ⟨e', -, hn⟩ := bind_eq_ok hn
    obtain rfl := Except.ok.inj hn
    cases e' with
    | none => simp [StmtNode.toNode, Raw.codeGenStmt, codeGenStmt, codeGenExprStmt]
    | some e' =>
      simp [StmtNode.toNode, Raw.codeGenStmt, codeGenStmt, codeGenExprStmt, exprNode?, e'.gen_toNode]
      rfl
  | .block b, n, h, hn => by
    rw [Tree.Stmt.tokens] at h
    rw [visitStmt] at hn
    obtain ⟨items, hitems, hn⟩ := bind_eq_ok hn
    obtain rfl := Except.ok.inj hn
    simp [StmtNode.toNode, Raw.codeGenStmt, codeGenStmt, Raw.codeGenBlock, inNewLayer, b.gen_visit h hitems]
  | .ifStmt e s none, n, h, hn => by
    rw [Tree.Stmt.tokens] at h
    rw [visitStmt] at hn
    obtain ⟨e', -, hn⟩ := bind_eq_ok hn
    obtain ⟨s', hs', hn⟩ := bind_eq_ok hn
    obtain rfl := Except.ok.inj hn
    have hs := s.gen_visit h.append.1.bin.2 hs'
    have := @codeGenIfStmt_gen _ _ _ (codeGenStmt s') (pure ()) e'.gen_toNode
    simpa [StmtNode.toNode, Raw.codeGenStmt, codeGenStmt, hs] using this
  | .ifStmt e s (some t), n, h, hn => by
    rw [Tree.Stmt.tokens] at h
    rw [visitStmt] at hn
    obtain ⟨e', -, hn⟩ := bind_eq_ok hn
    obtain ⟨s', hs', hn⟩ := bind_eq_ok hn
    obtain ⟨t', ht', hn⟩ := bind_eq_ok hn
    obtain rfl := Except.ok.inj hn
    obtain ⟨hthen, helse⟩ := h.append.1.bin
    have hs := s.gen_visit hthen.bin.2 hs'
    have ht := t.gen_visit helse ht'
    have := @codeGenIfStmt_gen _ _ _ (codeGenStmt s') (codeGenStmt t') e'.gen_toNode
    simpa [StmtNode.toNode, Raw.codeGenStmt, codeGenStmt, hs, ht] using this
  | .whileStmt e s, n, h, hn => by
    rw [Tree.Stmt.tokens] at h
    rw [visitStmt] at hn
    obtain ⟨e', -, hn⟩ := bind_eq_ok hn
    obtain ⟨s', hs', hn⟩ := bind_eq_ok hn
    obtain rfl := Except.ok.inj hn
    have hs := s.gen_visit h.append.2 hs'
    have := @codeGenWhileStmt_gen _ _ _ (codeGenStmt s') e'.gen_toNode
    simpa [StmtNode.toNode, Raw.codeGenStmt, codeGenStmt, hs] using this
  | .continueStmt, n, _, hn => by
    obtain rfl := Except.ok.inj hn
    simp [StmtNode.toNode, Raw.codeGenStmt, codeGenStmt]
  | .breakStmt, n, _, hn => by
    obtain rfl := Except.ok.inj hn
    simp [StmtNode.toNode, Raw.codeGenStmt, codeGenStmt]

theorem Tree.Block.gen_visit : ∀ (b : Tree.Block) {items : List BlockItemNode}, AllLexed b.tokens →
    visitBlock b = .ok items → Raw.codeGenBlockItems (itemNodes items) = lift (codeGenBlockItems items)
  | .mk bs, items, h, hitems => by
    rw [Tree.Block.tokens] at h
    rw [visitBlock] at hitems
    exact itemNodes_gen bs h.append.1.tail hitems

theorem itemNodes_gen : ∀ (bs : List Tree.BlockItem) {items : List BlockItemNode}, AllLexed (Tree.itemsTokens bs) →
    visitBlockItems bs = .ok items → Raw.codeGenBlockItems (itemNodes items) = lift (codeGenBlockItems items)
  | [], items, _, hitems => by
    obtain rfl := Except.ok.inj hitems
    rfl
  | b :: bs, items, h, hitems => by
    rw [Tree.itemsTokens] at h
    rw [visitBlockItems] at hitems
    obtain ⟨item, hitem, hitems⟩ := bind_eq_ok hitems
    obtain ⟨rest, hrest, hitems⟩ := bind_eq_ok hitems
    obtain rfl := Except.ok.inj hitems
    simp [itemNodes, Raw.codeGenBlockItems, codeGenBlockItems, b.gen_visit h.append.1 hitem,
      itemNodes_gen bs h.append.2 hrest]

theorem Tree.BlockItem.gen_visit : ∀ (b : Tree.BlockItem) {item : BlockItemNode}, AllLexed b.tokens →
    visitBlockItem b = .ok item → Raw.codeGenBlockItem item.toNode = lift (codeGenBlockItem item)
  | .decl d, item, _, hitem => by
    rw [visitBlockItem] at hitem
    obtain ⟨d', -, hitem⟩ := bind_eq_ok hitem
    obtain rfl := Except.ok.inj hitem
    simp [BlockItemNode.toNode, Raw.codeGenBlockItem, codeGenBlockItem, d'.gen_toNode]
  | .stmt s, item, h, hitem => by
    rw [Tree.BlockItem.tokens] at h
    rw [visitBlockItem] at hitem
    obtain ⟨s', hs', hitem⟩ := bind_eq_ok hitem
    obtain rfl := Except.ok.inj hitem
    simp [BlockItemNode.toNode, Raw.codeGenBlockItem, codeGenBlockItem, s.gen_visit h hs']

end

/-! ### Functions and programs -/

omit [ConstantFolder] in
theorem mapM_funcFParamNode (ps : List FuncFParamNode) :
    (ps.map FuncFParamNode.toNode).mapM funcFParamNode = pure (ps.map fun p => (p.type.text, p.ident)) := by
  induction ps with
  | nil => rfl
  | cons p ps ih => simp [List.mapM_cons, FuncFParamNode.toNode, funcFParamNode, ih]

omit [ConstantFolder] in
theorem FParamType.isPtr_text (t : FParamType) : (t.text != "int") = t.isPtr := by cases t <;> rfl

omit [ConstantFolder] in
theorem FuncType.retTy_text (t : FuncType) :
    (if t.text = "int" then Ty.i64 else Ty.void) = t.retTy := by cases t <;> rfl

theorem defineArgs_eq (i : Nat) (params : List (String × FParamType)) :
    defineArgs i (params.map fun p => (p.1, p.2.isPtr)) = defineParams i params := by
  induction params generalizing i with
  | nil => rfl
  | cons p params ih => simp [defineArgs, defineParams, ih, FParamType.ty]

/-- The parameters as the two loops of `codeGenFunc` read them. -/
theorem defineArgs_params (ps : List FuncFParamNode) (names : List String) :
    defineArgs 0 (names.zip (ps.map (·.type.isPtr))) = defineParams 0 (names.zip (ps.map (·.type))) := by
  have hptrs : ps.map (·.type.isPtr) = (ps.map (·.type)).map FParamType.isPtr := by simp
  rw [← defineArgs_eq, hptrs, List.zip_map_right]
  rfl

theorem Tree.Func.gen_visit (f : Tree.Func) {g : FuncNode} (h : AllLexed f.tokens) (hg : visitFunc f = .ok g) :
    Raw.codeGenFunc g.toNode = lift (codeGenFunc g) := by
  obtain ⟨block, hblock, hg⟩ := bind_eq_ok hg
  obtain rfl := Except.ok.inj hg
  have hbody := f.block.gen_visit h.append.2 hblock
  have htypes : (visitFuncFParams f.funcFParams).map (fun p => if p.type.isPtr then Ty.ptr else .i64) =
      (visitFuncFParams f.funcFParams).map (·.type.ty) := rfl
  simp only [FuncNode.toNode, Raw.codeGenFunc, codeGenFunc, funcFParamsNode, pure_bind, mapM_funcFParamNode,
    List.map_map,
    Function.comp_def, FParamType.isPtr_text, FuncType.retTy_text, htypes, defineArgs_params, Raw.codeGenBlock, hbody]
  simp [codeGenBlock, inNewLayer]

theorem Tree.Program.gen_visit (p : Tree.Program) {n : ProgNode} (h : AllLexed p.tokens) (hn : visitProgram p = .ok n) :
    Raw.codeGenProgram n.toNode = lift (codeGenProgram n) := by
  induction p generalizing n with
  | decl d =>
    rw [visitProgram] at hn
    obtain ⟨d', -, hn⟩ := bind_eq_ok hn
    obtain rfl := Except.ok.inj hn
    simp [ProgNode.toNode, Raw.codeGenProgram, codeGenProgram, d'.gen_toNode]
  | func f =>
    rw [Tree.Program.tokens] at h
    rw [visitProgram] at hn
    obtain ⟨f', hf, hn⟩ := bind_eq_ok hn
    obtain rfl := Except.ok.inj hn
    simp [ProgNode.toNode, Raw.codeGenProgram, codeGenProgram, f.gen_visit h hf]
  | progDecl p d ih =>
    rw [Tree.Program.tokens] at h
    rw [visitProgram] at hn
    obtain ⟨d', -, hn⟩ := bind_eq_ok hn
    obtain ⟨p', hp, hn⟩ := bind_eq_ok hn
    obtain rfl := Except.ok.inj hn
    simp [ProgNode.toNode, Raw.codeGenProgram, codeGenProgram, d'.gen_toNode, ih h.append.1 hp]
  | progFunc p f ih =>
    rw [Tree.Program.tokens] at h
    rw [visitProgram] at hn
    obtain ⟨f', hf, hn⟩ := bind_eq_ok hn
    obtain ⟨p', hp, hn⟩ := bind_eq_ok hn
    obtain rfl := Except.ok.inj hn
    simp [ProgNode.toNode, Raw.codeGenProgram, codeGenProgram, f.gen_visit h.append.2 hf, ih h.append.1 hp]

/-- Code generation reads of a built AST what the AST proper has. -/
theorem Tree.Entry.gen_build (t : Tree.Entry) {n : EntryNode} (h : AllLexed t.tokens) (hn : build t = .ok n) :
    Raw.codeGenEntry n.toNode = lift (codeGenEntry n) := by
  obtain ⟨p, hp, hn⟩ := bind_eq_ok hn
  obtain rfl := Except.ok.inj hn
  have hprog := t.program.gen_visit h hp
  simp [EntryNode.toNode, Raw.codeGenEntry, codeGenEntry, hprog]

/-! ### No null pointer, no null value -/

/-- The state that a run ends in. -/
def Raw.last {α : Type} : EStateM.Result GenStop GenState α → GenState
  | .ok _ s => s
  | .error _ s => s

/-- What a run never meets where the nodes have the shapes that the code relies on: a null child, or one of another
    class, that it reads, a null value that it uses, an operator that it does not know, a condition without a value. -/
structure Raw.Agreed {α : Type} (r : EStateM.Result GenStop GenState α) : Prop where
  nullNode : ∀ s, r ≠ .error .nullNode s
  nullValue : ∀ s, r ≠ .error .nullValue s
  failedCast : (Raw.last r).failedCast = false
  oddOperator : (Raw.last r).oddOperator = false
  earlyExit : (Raw.last r).earlyExit = false

omit [ConstantFolder] in
/-- What the context and the IR builder do leaves the ghosts as they are. -/
theorem agreed_lift {α : Type} (m : CG α) {s : GenState} (hc : s.failedCast = false) (ho : s.oddOperator = false)
    (he : s.earlyExit = false) : Agreed (lift m s) := by
  unfold lift
  cases m s.ctx with
  | ok a c =>
    refine ⟨?_, ?_, hc, ho, he⟩ <;> intro t h <;> cases h
  | error e c =>
    refine ⟨?_, ?_, hc, ho, he⟩ <;> intro t h <;> cases h

omit [ConstantFolder] in
theorem exists_of_raise {α : Type} {m : L24.Build α} {a : α} (h : raise m = .ok a) : m = .ok a := by
  rcases m with (_ | _) | a' <;> cases h
  rfl

omit [ConstantFolder] in
theorem exists_of_map_ok {α β : Type} {m : Raw.Build α} {f : α → β} {b : β} (h : f <$> m = .ok b) :
    ∃ a, m = .ok a ∧ f a = b := by
  cases m with
  | error _ => cases h
  | ok a => exact ⟨a, rfl, Except.ok.inj h⟩

omit [ConstantFolder] in
/-- A value of an expression is never null. -/
theorem isSome_of_map_ok {m : Gen Value} {s s' : GenState} {v : Option Value} (h : (some <$> m) s = .ok v s') :
    v.isSome = true := by
  simp only [Functor.map, EStateM.map] at h
  cases hm : m s with
  | ok a t =>
    rw [hm] at h
    cases h
    rfl
  | error e t =>
    rw [hm] at h
    cases h

/-- The builder and the generator agree on the shape of every AST. -/
theorem Tree.Entry.shape_agreed (t : Tree.Entry) (h : AllLexed t.tokens) :
    (∀ node, Raw.build t.ctx = .ok node → Agreed (Raw.compile node)) ∧
      ∀ e : Tree.Exp, AllLexed e.tokens → ∀ node, Raw.visitExp e.ctx = .ok node →
        ∀ s v s', Raw.codeGenExp node s = .ok v s' → v.isSome = true := by
  constructor
  · intro node hnode
    rw [t.build_ctx h] at hnode
    obtain ⟨ast, hast, rfl⟩ := exists_of_map_ok hnode
    have hrun := t.gen_build h (exists_of_raise hast)
    rw [Raw.compile, hrun]
    exact agreed_lift _ rfl rfl rfl
  · intro e he node hnode s v s' hv
    rw [e.visit_ctx he] at hnode
    obtain ⟨expr, -, rfl⟩ := exists_of_map_ok hnode
    rw [expr.gen_toNode] at hv
    exact isSome_of_map_ok hv

end

section
attribute [local instance] ConstantFolder.symbolic

/-- `int main(){while(!0)break;return 1;}` -/
def brokenLoop : Tree.Entry :=
  let operand (e : Tree.UnaryExp) : Tree.Exp := .mk (.lAndExp (.eqExp (.relExp (.addExp (.mulExp (.unaryExp e))))))
  let cond : Tree.Exp := operand (.unaryOp .not (.primaryExp (.number "0")))
  ⟨.func ⟨some .int, "main", none, .mk [.stmt (.whileStmt cond .breakStmt),
    .stmt (.ret (some (operand (.primaryExp (.number "1")))))]⟩⟩

theorem brokenLoop_shape_agreed : ∃ node, Raw.build brokenLoop.ctx = .ok node ∧ Agreed (Raw.compile node) := by
  have h : AllLexed brokenLoop.tokens := by
    have : ∀ k ∈ brokenLoop.tokens, k.Lexed := by decide +kernel
    exact this
  obtain ⟨node, hnode⟩ : ∃ node, Raw.build brokenLoop.ctx = .ok node := ⟨_, rfl⟩
  exact ⟨node, hnode, (brokenLoop.shape_agreed h).1 node hnode⟩

end

end L24
