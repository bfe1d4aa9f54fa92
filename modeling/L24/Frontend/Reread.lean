import L24.Frontend.Lexing
import L24.Frontend.Unambiguous

/-! Reading a printed syntax tree: the lexer, the parser and the builder together give back the tree that was printed,
    however the tokens are separated in the text. -/

namespace L24
open L24.Tree TokenType

/-! ### What can be printed -/

/-- A string with the bytes of some characters; an empty one prints as an empty list. -/
def InitValNode.Quotable : InitValNode → Prop
  | .string bytes => ∃ chars : List Char, chars ≠ [] ∧ bytes = (chars.flatMap String.utf8EncodeChar).map UInt8.toBitVec
  | _ => True

/-- A declaration has a definition. -/
def DeclNode.Complete : DeclNode → Prop
  | .constDecl d => d.constDefs ≠ [] ∧ ∀ k ∈ d.constDefs, k.initVal.Quotable
  | .varDecl d => d.varDefs ≠ [] ∧ ∀ k ∈ d.varDefs, ∀ v, k.initVal = some v → v.Quotable

mutual

/-- No declaration in the statement is empty. -/
def StmtNode.Complete : StmtNode → Prop
  | .block items => itemsComplete items
  | .ifStmt _ s none => s.Complete
  | .ifStmt _ s (some t) => s.Complete ∧ t.Complete
  | .whileStmt _ s => s.Complete
  | _ => True

/-- The same for the items of a block. -/
def itemsComplete : List BlockItemNode → Prop
  | [] => True
  | item :: items => item.Complete ∧ itemsComplete items

def BlockItemNode.Complete : BlockItemNode → Prop
  | .decl d => d.Complete
  | .stmt s => s.Complete

end

/-- No declaration of the program is empty. -/
def ProgNode.Complete : ProgNode → Prop
  | .decl d => d.Complete
  | .func f => itemsComplete f.block
  | .progDecl p d => p.Complete ∧ d.Complete
  | .progFunc p f => p.Complete ∧ itemsComplete f.block

/-- The numbers in the tokens fit into an `int`. -/
def Small (toks : List Token) : Prop := ∀ k ∈ toks, k.type = .IntLiteral → decimal k.text < 0x80000000

/-- A syntax tree that has a text: its names are identifiers, its numbers are literals that the builder keeps, its
    strings are literals, and each declaration has a definition. -/
structure EntryNode.Printable (node : EntryNode) : Prop where
  plain : ∀ k ∈ node.print, k.Plain
  small : Small node.print
  complete : node.prog.Complete

/-! ### From nodes to parse trees -/

/-- Some parse tree of the tokens is built into `a`. -/
def Reads {τ α : Type} (visit : τ → Build α) (tokens : τ → List Token) (a : α) (toks : List Token) : Prop :=
  ∃ t, visit t = .ok a ∧ tokens t = toks

section Reads
variable {xs ys : List Token} {k : Token}

theorem Small.append (h : Small (xs ++ ys)) : Small xs ∧ Small ys := List.forall_mem_append.mp h

theorem Small.tail (h : Small (k :: xs)) : Small xs := (List.forall_mem_cons.mp h).2

theorem Small.bin (h : Small (xs ++ k :: ys)) : Small xs ∧ Small ys := ⟨h.append.1, h.append.2.tail⟩

theorem Small.parens (h : Small (parens xs)) : Small xs := h.append.1.tail

theorem Small.subscript (h : Small (subscript xs)) : Small xs := h.append.1.tail

end Reads

theorem decimal_toString (n : Nat) : decimal (toString n) = n := by
  have h : digitsValue (Nat.toDigits 10 n) = n := Nat.ofDigitChars_toDigits (by decide) (by decide)
  rw [← Nat.toList_repr] at h
  exact h

theorem visitNumber_reads (n : NumberNode) (h : Small n.print) : visitNumber (toString n.intLiteral.toNat) = .ok n := by
  have hlt : n.intLiteral.toNat < 0x80000000 := by
    have := h _ (List.mem_singleton_self _) rfl
    rwa [decimal_toString] at this
  have hdec : decimal (toString n.intLiteral.toNat) = n.intLiteral.toNat := decimal_toString _
  rw [visitNumber_ok (by omega), hdec]
  refine congrArg Except.ok ?_
  have hval := (ofLongLong_eq_iff (n := n.intLiteral.toNat) (by omega)).mpr hlt
  rw [BitVec.ofNat_toNat, BitVec.setWidth_eq] at hval ⊢
  exact congrArg NumberNode.mk hval

mutual

theorem ExprNode.reads : ∀ e : ExprNode, Small e.print → Reads visitExp Exp.tokens e e.print
  | .mk e, h => by
    rw [ExprNode.print] at h ⊢
    obtain ⟨t, ht, hp⟩ := e.reads h
    exact ⟨.mk t, by rw [visitExp, ht]; rfl, by rw [Exp.tokens, hp]⟩

theorem LorExprNode.reads : ∀ e : LorExprNode, Small e.print → Reads visitLOrExp LOrExp.tokens e e.print
  | .land e, h => by
    rw [LorExprNode.print] at h ⊢
    obtain ⟨t, ht, hp⟩ := e.reads h
    exact ⟨.lAndExp t, by rw [visitLOrExp, ht]; rfl, by rw [LOrExp.tokens, hp]⟩
  | .lor a b, h => by
    rw [LorExprNode.print] at h ⊢
    obtain ⟨t, ht, hp⟩ := a.reads h.bin.1
    obtain ⟨u, hu, hq⟩ := b.reads h.bin.2
    exact ⟨.logicalOr t u, by rw [visitLOrExp, ht, hu]; rfl, by rw [LOrExp.tokens, hp, hq]⟩

theorem LandExprNode.reads : ∀ e : LandExprNode, Small e.print → Reads visitLAndExp LAndExp.tokens e e.print
  | .eq e, h => by
    rw [LandExprNode.print] at h ⊢
    obtain ⟨t, ht, hp⟩ := e.reads h
    exact ⟨.eqExp t, by rw [visitLAndExp, ht]; rfl, by rw [LAndExp.tokens, hp]⟩
  | .land a b, h => by
    rw [LandExprNode.print] at h ⊢
    obtain ⟨t, ht, hp⟩ := a.reads h.bin.1
    obtain ⟨u, hu, hq⟩ := b.reads h.bin.2
    exact ⟨.logicalAnd t u, by rw [visitLAndExp, ht, hu]; rfl, by rw [LAndExp.tokens, hp, hq]⟩

theorem EqExprNode.reads : ∀ e : EqExprNode, Small e.print → Reads visitEqExp EqExp.tokens e e.print
  | .rel e, h => by
    rw [EqExprNode.print] at h ⊢
    obtain ⟨t, ht, hp⟩ := e.reads h
    exact ⟨.relExp t, by rw [visitEqExp, ht]; rfl, by rw [EqExp.tokens, hp]⟩
  | .eq op a b, h => by
    rw [EqExprNode.print] at h ⊢
    obtain ⟨t, ht, hp⟩ := a.reads h.bin.1
    obtain ⟨u, hu, hq⟩ := b.reads h.bin.2
    cases op with
    | eq => exact ⟨.eq t u, by rw [visitEqExp, ht, hu]; rfl, by rw [EqExp.tokens, hp, hq]; rfl⟩
    | notEq => exact ⟨.notEq t u, by rw [visitEqExp, ht, hu]; rfl, by rw [EqExp.tokens, hp, hq]; rfl⟩

theorem RelExprNode.reads : ∀ e : RelExprNode, Small e.print → Reads visitRelExp RelExp.tokens e e.print
  | .add e, h => by
    rw [RelExprNode.print] at h ⊢
    obtain ⟨t, ht, hp⟩ := e.reads h
    exact ⟨.addExp t, by rw [visitRelExp, ht]; rfl, by rw [RelExp.tokens, hp]⟩
  | .rel op a b, h => by
    rw [RelExprNode.print] at h ⊢
    obtain ⟨t, ht, hp⟩ := a.reads h.bin.1
    obtain ⟨u, hu, hq⟩ := b.reads h.bin.2
    cases op with
    | less => exact ⟨.less t u, by rw [visitRelExp, ht, hu]; rfl, by rw [RelExp.tokens, hp, hq]; rfl⟩
    | greater => exact ⟨.greater t u, by rw [visitRelExp, ht, hu]; rfl, by rw [RelExp.tokens, hp, hq]; rfl⟩
    | lessEq => exact ⟨.lessEq t u, by rw [visitRelExp, ht, hu]; rfl, by rw [RelExp.tokens, hp, hq]; rfl⟩
    | greaterEq => exact ⟨.greaterEq t u, by rw [visitRelExp, ht, hu]; rfl, by rw [RelExp.tokens, hp, hq]; rfl⟩

theorem AddExprNode.reads : ∀ e : AddExprNode, Small e.print → Reads visitAddExp AddExp.tokens e e.print
  | .mul e, h => by
    rw [AddExprNode.print] at h ⊢
    obtain ⟨t, ht, hp⟩ := e.reads h
    exact ⟨.mulExp t, by rw [visitAddExp, ht]; rfl, by rw [AddExp.tokens, hp]⟩
  | .add op a b, h => by
    rw [AddExprNode.print] at h ⊢
    obtain ⟨t, ht, hp⟩ := a.reads h.bin.1
    obtain ⟨u, hu, hq⟩ := b.reads h.bin.2
    cases op with
    | plus => exact ⟨.plus t u, by rw [visitAddExp, ht, hu]; rfl, by rw [AddExp.tokens, hp, hq]; rfl⟩
    | minus => exact ⟨.minus t u, by rw [visitAddExp, ht, hu]; rfl, by rw [AddExp.tokens, hp, hq]; rfl⟩

theorem MulExprNode.reads : ∀ e : MulExprNode, Small e.print → Reads visitMulExp MulExp.tokens e e.print
  | .unary e, h => by
    rw [MulExprNode.print] at h ⊢
    obtain ⟨t, ht, hp⟩ := e.reads h
    exact ⟨.unaryExp t, by rw [visitMulExp, ht]; rfl, by rw [MulExp.tokens, hp]⟩
  | .mul op a b, h => by
    rw [MulExprNode.print] at h ⊢
    obtain ⟨t, ht, hp⟩ := a.reads h.bin.1
    obtain ⟨u, hu, hq⟩ := b.reads h.bin.2
    cases op with
    | star => exact ⟨.star t u, by rw [visitMulExp, ht, hu]; rfl, by rw [MulExp.tokens, hp, hq]; rfl⟩
    | slash => exact ⟨.slash t u, by rw [visitMulExp, ht, hu]; rfl, by rw [MulExp.tokens, hp, hq]; rfl⟩
    | percentage => exact ⟨.percentage t u, by rw [visitMulExp, ht, hu]; rfl, by rw [MulExp.tokens, hp, hq]; rfl⟩

theorem UnaryExprNode.reads : ∀ e : UnaryExprNode, Small e.print → Reads visitUnaryExp UnaryExp.tokens e e.print
  | .primary e, h => by
    rw [UnaryExprNode.print] at h ⊢
    obtain ⟨t, ht, hp⟩ := e.reads h
    exact ⟨.primaryExp t, by rw [visitUnaryExp, ht]; rfl, by rw [UnaryExp.tokens, hp]⟩
  | .unary op e, h => by
    rw [UnaryExprNode.print] at h ⊢
    obtain ⟨t, ht, hp⟩ := e.reads h.tail
    exact ⟨.unaryOp op t, by rw [visitUnaryExp, ht]; rfl, by rw [UnaryExp.tokens, hp]⟩
  | .call f [], h => by
    rw [UnaryExprNode.print, printExps]
    exact ⟨.call f none, by rw [visitUnaryExp]; rfl, by rw [UnaryExp.tokens]⟩
  | .call f (e :: es), h => by
    rw [UnaryExprNode.print, printExps] at h ⊢
    obtain ⟨t, ht, hp⟩ := e.reads h.tail.parens.append.1
    obtain ⟨ts, hts, hps⟩ := printExpsTail_reads es h.tail.parens.append.2
    refine ⟨.call f (some (.mk t ts)), ?_, ?_⟩
    · rw [visitUnaryExp, visitFuncRParams, ht, hts]
      rfl
    · rw [UnaryExp.tokens, FuncRParams.tokens, hp, hps]

theorem PrimExprNode.reads : ∀ e : PrimExprNode, Small e.print → Reads visitPrimaryExp PrimaryExp.tokens e e.print
  | .expr e, h => by
    rw [PrimExprNode.print] at h ⊢
    obtain ⟨t, ht, hp⟩ := e.reads h.parens
    exact ⟨.paren t, by rw [visitPrimaryExp, ht]; rfl, by rw [PrimaryExp.tokens, hp]⟩
  | .number n, h => by
    rw [PrimExprNode.print] at h ⊢
    exact ⟨.number (toString n.intLiteral.toNat), by rw [visitPrimaryExp, visitNumber_reads n h]; rfl,
      by rw [PrimaryExp.tokens]; rfl⟩
  | .lVal l, h => by
    rw [PrimExprNode.print] at h ⊢
    obtain ⟨t, ht, hp⟩ := l.reads h
    exact ⟨.lVal t, by rw [visitPrimaryExp, ht]; rfl, by rw [PrimaryExp.tokens, hp]⟩

theorem LValNode.reads : ∀ l : LValNode, Small l.print → Reads visitLVal LVal.tokens l l.print
  | .mk x none, _ => by
    rw [LValNode.print]
    exact ⟨.mk x none, by rw [visitLVal]; rfl, by rw [LVal.tokens]⟩
  | .mk x (some e), h => by
    rw [LValNode.print] at h ⊢
    obtain ⟨t, ht, hp⟩ := e.reads h.tail.subscript
    exact ⟨.mk x (some t), by rw [visitLVal, ht]; rfl, by rw [LVal.tokens, hp]⟩

theorem printExpsTail_reads : ∀ es : List ExprNode, Small (printExpsTail es) →
    Reads visitExps Tree.expsTail es (printExpsTail es)
  | [], _ => by
    rw [printExpsTail]
    exact ⟨[], by rw [visitExps]; rfl, by rw [Tree.expsTail]⟩
  | e :: es, h => by
    rw [printExpsTail] at h ⊢
    obtain ⟨t, ht, hp⟩ := e.reads h.append.1.tail
    obtain ⟨ts, hts, hps⟩ := printExpsTail_reads es h.append.2
    exact ⟨t :: ts, by rw [visitExps, ht, hts]; rfl, by rw [Tree.expsTail, hp, hps]⟩

end

theorem printSubscript_reads (e : Option ExprNode) (h : Small (printSubscript e)) :
    Reads visitExp? subscriptTokens e (printSubscript e) := by
  cases e with
  | none => exact ⟨none, rfl, rfl⟩
  | some e =>
    obtain ⟨t, ht, hp⟩ := e.reads h.subscript
    exact ⟨some t, by rw [visitExp?, ht]; rfl, by rw [subscriptTokens, hp, printSubscript]⟩

theorem printExp?_reads (e : Option ExprNode) (h : Small (printExp? e)) :
    Reads visitExp? expTokens e (printExp? e) := by
  cases e with
  | none => exact ⟨none, rfl, rfl⟩
  | some e =>
    obtain ⟨t, ht, hp⟩ := e.reads h
    exact ⟨some t, by rw [visitExp?, ht]; rfl, by rw [expTokens, hp, printExp?]⟩

/-! ### Declarations -/

/-- The literal of a string has its bytes. -/
theorem literalBytes_quoted_utf8 {chars : List Char} :
    literalBytes (quoted ((chars.flatMap String.utf8EncodeChar).map UInt8.toBitVec)) =
      (chars.flatMap String.utf8EncodeChar).map UInt8.toBitVec := by
  have hbytes : ((chars.flatMap String.utf8EncodeChar).map UInt8.toBitVec).map UInt8.ofBitVec =
      chars.flatMap String.utf8EncodeChar := by simp [Function.comp_def]
  have hutf8 : (chars.flatMap String.utf8EncodeChar).toByteArray = chars.utf8Encode := rfl
  refine literalBytes_quoted ?_
  rw [quoted, hbytes, hutf8, List.utf8Decode?_utf8Encode, String.toList_ofList]
  rfl

theorem InitValNode.reads (v : InitValNode) (h : Small v.print) (hq : v.Quotable) :
    Reads visitInitVal InitVal.tokens v v.print := by
  cases v with
  | exp e =>
    obtain ⟨t, ht, hp⟩ := e.reads h
    exact ⟨.exp t, by rw [visitInitVal, ht]; rfl, hp⟩
  | list es =>
    cases es with
    | nil => exact ⟨.list none, rfl, rfl⟩
    | cons e es =>
      rw [InitValNode.print, printExps] at h ⊢
      obtain ⟨t, ht, hp⟩ := e.reads h.append.1.tail.append.1
      obtain ⟨ts, hts, hps⟩ := printExpsTail_reads es h.append.1.tail.append.2
      refine ⟨.list (some (t, ts)), ?_, ?_⟩
      · rw [visitInitVal, visitExps, ht, hts]
        rfl
      · rw [InitVal.tokens, hp, hps]
  | string bytes =>
    obtain ⟨chars, hne, rfl⟩ := hq
    refine ⟨.string (quoted ((chars.flatMap String.utf8EncodeChar).map UInt8.toBitVec)), ?_, ?_⟩
    · rw [visitInitVal, literalBytes_quoted_utf8]
      rfl
    · obtain ⟨c, cs, rfl⟩ := List.exists_cons_of_ne_nil hne
      have hbytes : ((c :: cs).flatMap String.utf8EncodeChar).map UInt8.toBitVec ≠ [] := by
        simp [String.utf8EncodeChar_ne_nil]
      rw [InitValNode.print, printString, if_neg hbytes, InitVal.tokens]

theorem ConstDefNode.reads (d : ConstDefNode) (h : Small d.print) (hq : d.initVal.Quotable) :
    Reads visitConstDef ConstDef.tokens d d.print := by
  rw [ConstDefNode.print] at h ⊢
  obtain ⟨v, hv, hp⟩ := d.initVal.reads h.bin.2 hq
  obtain ⟨e, he, hs⟩ := printSubscript_reads d.exp h.bin.1.tail
  refine ⟨⟨d.ident, e, v⟩, ?_, ?_⟩
  · rw [visitConstDef, hv, he]
    rfl
  · rw [ConstDef.tokens, hp, hs]

theorem VarDefNode.reads (d : VarDefNode) (h : Small d.print) (hq : ∀ v, d.initVal = some v → v.Quotable) :
    Reads visitVarDef VarDef.tokens d d.print := by
  rw [VarDefNode.print] at h ⊢
  obtain ⟨e, he, hs⟩ := printSubscript_reads d.exp h.append.1.tail
  obtain ⟨v, hv, hp⟩ : ∃ v : Option InitVal, v.mapM visitInitVal = .ok d.initVal ∧
      initTokens v = printInit d.initVal := by
    cases hd : d.initVal with
    | none => exact ⟨none, rfl, rfl⟩
    | some v =>
      have hsmall := h.append.2
      rw [hd] at hsmall
      obtain ⟨u, hu, hp⟩ := v.reads hsmall.tail (hq v hd)
      exact ⟨some u, by rw [Option.mapM_some, hu]; rfl, by rw [initTokens, hp, printInit]⟩
  refine ⟨⟨d.ident, e, v⟩, ?_, ?_⟩
  · rw [visitVarDef, hv, he]
    rfl
  · rw [VarDef.tokens, hp, hs]

/-- The trees of the elements of a list. -/
theorem mapM_reads {τ α : Type} {visit : τ → Build α} {tokens : τ → List Token} {print : α → List Token} :
    ∀ {as : List α}, (∀ a ∈ as, Reads visit tokens a (print a)) →
      ∃ ts : List τ, ts.mapM visit = .ok as ∧ commaTail tokens ts = commaTail print as
  | [], _ => ⟨[], rfl, rfl⟩
  | a :: as, h => by
    obtain ⟨t, ht, hp⟩ := h a List.mem_cons_self
    obtain ⟨ts, hts, hps⟩ := mapM_reads fun b hb => h b (List.mem_cons_of_mem _ hb)
    refine ⟨t :: ts, ?_, ?_⟩
    · rw [List.mapM_cons, ht, hts]
      rfl
    · unfold commaTail at hps ⊢
      rw [List.flatMap_cons, List.flatMap_cons, hp, hps]

/-- The trees of a list that is not empty. -/
theorem commaList_reads {τ α : Type} {visit : τ → Build α} {tokens : τ → List Token} {print : α → List Token}
    {as : List α} (hne : as ≠ []) (h : ∀ a ∈ as, Reads visit tokens a (print a)) :
    ∃ (t : τ) (ts : List τ), (t :: ts).mapM visit = .ok as ∧ tokens t ++ commaTail tokens ts = commaList print as := by
  obtain ⟨a, as, rfl⟩ := List.exists_cons_of_ne_nil hne
  obtain ⟨t, ht, hp⟩ := h a List.mem_cons_self
  obtain ⟨ts, hts, hps⟩ := mapM_reads fun b hb => h b (List.mem_cons_of_mem _ hb)
  refine ⟨t, ts, ?_, by rw [hp, hps, commaList]⟩
  rw [List.mapM_cons, ht, hts]
  rfl

theorem Small.commaList {α : Type} {print : α → List Token} {as : List α} (h : Small (commaList print as)) :
    ∀ a ∈ as, Small (print a) := by
  cases as with
  | nil => exact fun a ha => nomatch ha
  | cons a as =>
    rw [L24.commaList] at h
    refine List.forall_mem_cons.mpr ⟨h.append.1, fun b hb k hk => ?_⟩
    exact h.append.2 k (List.mem_flatMap.mpr ⟨b, hb, List.mem_cons_of_mem _ hk⟩)

theorem DeclNode.reads (d : DeclNode) (h : Small d.print) (hc : d.Complete) :
    Reads visitDecl Decl.tokens d d.print := by
  cases d with
  | constDecl d =>
    obtain ⟨hne, hq⟩ := hc
    rw [DeclNode.print] at h ⊢
    obtain ⟨t, ts, hts, hp⟩ := commaList_reads hne fun k hk => k.reads (h.append.1.tail.tail.commaList k hk) (hq k hk)
    refine ⟨.constDecl ⟨d.bType, t, ts⟩, ?_, ?_⟩
    · rw [visitDecl, visitConstDecl, hts]
      rfl
    · rw [Decl.tokens, ConstDecl.tokens, ← hp]
      simp
  | varDecl d =>
    obtain ⟨hne, hq⟩ := hc
    rw [DeclNode.print] at h ⊢
    obtain ⟨t, ts, hts, hp⟩ := commaList_reads hne fun k hk => k.reads (h.append.1.tail.commaList k hk) (hq k hk)
    refine ⟨.varDecl ⟨d.bType, t, ts⟩, ?_, ?_⟩
    · rw [visitDecl, visitVarDecl, hts]
      rfl
    · rw [Decl.tokens, VarDecl.tokens, ← hp]
      simp

/-! ### Statements -/

mutual

theorem StmtNode.reads : ∀ s : StmtNode, Small s.print → s.Complete → Reads visitStmt Stmt.tokens s s.print
  | .block items, h, hc => by
    rw [StmtNode.print] at h ⊢
    rw [StmtNode.Complete] at hc
    obtain ⟨ts, hts, hp⟩ := printItems_reads items h.append.1.tail hc
    refine ⟨.block (.mk ts), ?_, ?_⟩
    · rw [visitStmt, visitBlock, hts]
      rfl
    · rw [Stmt.tokens, Block.tokens, hp]
  | .ifStmt e s none, h, hc => by
    rw [StmtNode.print] at h ⊢
    rw [StmtNode.Complete] at hc
    obtain ⟨t, ht, hp⟩ := e.reads h.append.1.bin.1.tail.parens
    obtain ⟨u, hu, hq⟩ := s.reads h.append.1.bin.2 hc
    refine ⟨.ifStmt t u none, ?_, ?_⟩
    · rw [visitStmt, ht, hu]
      rfl
    · rw [Stmt.tokens, hp, hq]
  | .ifStmt e s (some r), h, hc => by
    rw [StmtNode.print] at h ⊢
    rw [StmtNode.Complete] at hc
    obtain ⟨t, ht, hp⟩ := e.reads h.append.1.bin.1.bin.1.tail.parens
    obtain ⟨u, hu, hq⟩ := s.reads h.append.1.bin.1.bin.2 hc.1
    obtain ⟨v, hv, hr⟩ := r.reads h.append.1.bin.2 hc.2
    refine ⟨.ifStmt t u (some v), ?_, ?_⟩
    · rw [visitStmt, ht, hu, hv]
      rfl
    · rw [Stmt.tokens, hp, hq, hr]
  | .whileStmt e s, h, hc => by
    rw [StmtNode.print] at h ⊢
    rw [StmtNode.Complete] at hc
    obtain ⟨t, ht, hp⟩ := e.reads h.append.1.tail.parens
    obtain ⟨u, hu, hq⟩ := s.reads h.append.2 hc
    refine ⟨.whileStmt t u, ?_, ?_⟩
    · rw [visitStmt, ht, hu]
      rfl
    · rw [Stmt.tokens, hp, hq]
  | .continueStmt, _, _ => by
    rw [StmtNode.print]
    exact ⟨.continueStmt, by rw [visitStmt]; rfl, by rw [Stmt.tokens]⟩
  | .breakStmt, _, _ => by
    rw [StmtNode.print]
    exact ⟨.breakStmt, by rw [visitStmt]; rfl, by rw [Stmt.tokens]⟩
  | .ret e, h, _ => by
    rw [StmtNode.print] at h ⊢
    obtain ⟨t, ht, hp⟩ := printExp?_reads e h.append.1.tail
    exact ⟨.ret t, by rw [visitStmt, ht]; rfl, by rw [Stmt.tokens, hp]⟩
  | .expr e, h, _ => by
    rw [StmtNode.print] at h ⊢
    obtain ⟨t, ht, hp⟩ := printExp?_reads e h.append.1
    exact ⟨.exp t, by rw [visitStmt, ht]; rfl, by rw [Stmt.tokens, hp]⟩
  | .assign x sub e, h, _ => by
    rw [StmtNode.print] at h ⊢
    obtain ⟨i, hi, hq⟩ := printSubscript_reads sub h.append.1.bin.1.tail
    obtain ⟨t, ht, hp⟩ := e.reads h.append.1.bin.2
    have hl : (LVal.mk x i).tokens = identToken x :: subscriptTokens i := by
      cases i with
      | none => rw [LVal.tokens, subscriptTokens]
      | some i => rw [LVal.tokens, subscriptTokens]
    refine ⟨.assign (.mk x i) t, ?_, ?_⟩
    · rw [visitStmt, hi, ht]
      rfl
    · rw [Stmt.tokens, hl, hp, hq]

theorem printItems_reads : ∀ items : List BlockItemNode, Small (printItems items) → itemsComplete items →
    Reads visitBlockItems Tree.itemsTokens items (printItems items)
  | [], _, _ => by
    rw [printItems]
    exact ⟨[], by rw [visitBlockItems]; rfl, by rw [Tree.itemsTokens]⟩
  | item :: items, h, hc => by
    rw [printItems] at h ⊢
    rw [itemsComplete] at hc
    obtain ⟨t, ht, hp⟩ := item.reads h.append.1 hc.1
    obtain ⟨ts, hts, hps⟩ := printItems_reads items h.append.2 hc.2
    exact ⟨t :: ts, by rw [visitBlockItems, ht, hts]; rfl, by rw [Tree.itemsTokens, hp, hps]⟩

theorem BlockItemNode.reads : ∀ item : BlockItemNode, Small item.print → item.Complete →
    Reads visitBlockItem BlockItem.tokens item item.print
  | .decl d, h, hc => by
    rw [BlockItemNode.print] at h ⊢
    rw [BlockItemNode.Complete] at hc
    obtain ⟨t, ht, hp⟩ := d.reads h hc
    exact ⟨.decl t, by rw [visitBlockItem, ht]; rfl, by rw [BlockItem.tokens, hp]⟩
  | .stmt s, h, hc => by
    rw [BlockItemNode.print] at h ⊢
    rw [BlockItemNode.Complete] at hc
    obtain ⟨t, ht, hp⟩ := s.reads h hc
    exact ⟨.stmt t, by rw [visitBlockItem, ht]; rfl, by rw [BlockItem.tokens, hp]⟩

end

/-! ### Programs -/

theorem FuncFParamNode.reads (p : FuncFParamNode) : ∃ t, visitFuncFParam t = p ∧ t.tokens = p.print := by
  obtain ⟨t, x⟩ := p
  cases t with
  | int => exact ⟨⟨.int, x, false⟩, rfl, rfl⟩
  | char => exact ⟨⟨.char, x, false⟩, rfl, rfl⟩
  | pointer => exact ⟨⟨.int, x, true⟩, rfl, rfl⟩

theorem params_reads (ps : List FuncFParamNode) : ∃ ts : Option FuncFParams,
    visitFuncFParams ts = ps ∧ paramTokens ts = commaList FuncFParamNode.print ps := by
  cases ps with
  | nil => exact ⟨none, rfl, rfl⟩
  | cons p ps =>
    have htail : ∃ ts : List FuncFParam, ts.map visitFuncFParam = ps ∧
        commaTail FuncFParam.tokens ts = commaTail FuncFParamNode.print ps := by
      induction ps with
      | nil => exact ⟨[], rfl, rfl⟩
      | cons q ps ih =>
        obtain ⟨ts, rfl, hps⟩ := ih
        obtain ⟨t, rfl, hp⟩ := q.reads
        unfold commaTail at hps ⊢
        exact ⟨t :: ts, rfl, by rw [List.flatMap_cons, List.flatMap_cons, hp, hps]⟩
    obtain ⟨t, rfl, hp⟩ := p.reads
    obtain ⟨ts, rfl, hps⟩ := htail
    exact ⟨some ⟨t, ts⟩, rfl, by rw [paramTokens, FuncFParams.tokens, hp, hps, commaList]⟩

theorem FuncType.reads (t : FuncType) : ∃ b, visitFuncType b = t ∧ funcTypeToken b = t.token := by
  cases t with
  | int => exact ⟨some .int, rfl, rfl⟩
  | char => exact ⟨some .char, rfl, rfl⟩
  | void => exact ⟨none, rfl, rfl⟩

theorem FuncNode.reads (f : FuncNode) (h : Small f.print) (hc : itemsComplete f.block) :
    Reads visitFunc Func.tokens f f.print := by
  rw [FuncNode.print] at h ⊢
  obtain ⟨b, hb, hp⟩ := f.type.reads
  obtain ⟨ps, hps, hq⟩ := params_reads f.param
  obtain ⟨ts, hts, hr⟩ := printItems_reads f.block h.append.2.append.1.tail hc
  refine ⟨⟨b, f.ident, ps, .mk ts⟩, ?_, ?_⟩
  · rw [visitFunc, visitBlock, hts, hb, hps]
    rfl
  · rw [Func.tokens, Block.tokens, hp, hq, hr]

theorem ProgNode.reads : ∀ p : ProgNode, Small p.print → p.Complete → Reads visitProgram Program.tokens p p.print
  | .decl d, h, hc => by
    rw [ProgNode.print] at h ⊢
    obtain ⟨t, ht, hp⟩ := d.reads h hc
    exact ⟨.decl t, by rw [visitProgram, ht]; rfl, by rw [Program.tokens, hp]⟩
  | .func f, h, hc => by
    rw [ProgNode.print] at h ⊢
    obtain ⟨t, ht, hp⟩ := f.reads h hc
    exact ⟨.func t, by rw [visitProgram, ht]; rfl, by rw [Program.tokens, hp]⟩
  | .progDecl p d, h, hc => by
    rw [ProgNode.print] at h ⊢
    obtain ⟨t, ht, hp⟩ := p.reads h.append.1 hc.1
    obtain ⟨u, hu, hq⟩ := d.reads h.append.2 hc.2
    exact ⟨.progDecl t u, by rw [visitProgram, ht, hu]; rfl, by rw [Program.tokens, hp, hq]⟩
  | .progFunc p f, h, hc => by
    rw [ProgNode.print] at h ⊢
    obtain ⟨t, ht, hp⟩ := p.reads h.append.1 hc.1
    obtain ⟨u, hu, hq⟩ := f.reads h.append.2 hc.2
    exact ⟨.progFunc t u, by rw [visitProgram, ht, hu]; rfl, by rw [Program.tokens, hp, hq]⟩

/-- A printable tree is built from a parse tree of the tokens that it prints as. -/
theorem EntryNode.reads {node : EntryNode} (h : node.Printable) : Reads build Entry.tokens node node.print := by
  obtain ⟨t, ht, hp⟩ := node.prog.reads h.small h.complete
  exact ⟨⟨t⟩, by rw [build, visitEntry, ht]; rfl, by rw [Entry.tokens, hp, EntryNode.print]⟩

/-! ### Reading a text -/

/-- The parser sees the tokens that were written. -/
theorem Written.defaultTokens {skip : List Char → Nat} {toks : List Token} {text : List Char} (h : Written toks text)
    (hk : ∀ k ∈ toks, k.Plain) : L24.defaultTokens (lex skip text) = toks := by
  induction h with
  | nil => rfl
  | last k =>
    have hplain := hk k (List.mem_singleton_self k)
    have hend : Separates [] := by simp [Separates]
    have hnext : lex skip (k.text.toList ++ []) = _ := hplain.next hend
    rw [List.append_nil] at hnext
    rw [hnext, hplain.defaultTokens_cons]
    rfl
  | @cons k toks sep text hsep _ ih =>
    obtain ⟨hplain, hrest⟩ := List.forall_mem_cons.mp hk
    rw [hplain.next hsep.separates, hplain.defaultTokens_cons, hsep.defaultTokens, ih hrest]

theorem Tree.Entry.tokens_injective {t u : Entry} (h : t.tokens = u.tokens) : t = u := by
  obtain ⟨p⟩ := t
  obtain ⟨q⟩ := u
  have htok : p.tokens ++ [] = q.tokens ++ [] := congrArg (· ++ []) h
  rw [(p.told q [] [] rfl rfl htok).1]

/-- The parser finds the one tree that all the tokens derive. -/
theorem Antlr.entry_tokens {entry : List Token → Option Entry} (ha : Antlr entry) (t : Entry) :
    entry t.tokens = some t := by
  obtain ⟨u, hu⟩ := ha.complete t [] fun _ h => nomatch h
  rw [List.append_nil] at hu
  obtain ⟨rest, htoks, hstops⟩ := ha.sound _ _ hu
  obtain rfl := (topLevel_iff hstops).mp (htoks ▸ t.topLevel)
  rw [List.append_nil] at htoks
  rw [hu, Tree.Entry.tokens_injective htoks]

/-- The tokens with a blank behind each. -/
def spaced (toks : List Token) : List Char := toks.flatMap fun k => k.text.toList ++ [' ']

theorem written_spaced : ∀ toks : List Token, Written toks (spaced toks)
  | [] => .nil
  | k :: toks => by
    have hsep : Separator [' '] := ⟨' ', [], rfl, Or.inl rfl, .nil⟩
    have h := Written.cons (k := k) hsep (written_spaced toks)
    rwa [← List.append_assoc] at h

/-- A text of the tokens of a parse tree, with any separators between them, is parsed into that tree. -/
theorem Antlr.parse_written {entry : List Token → Option Entry} (ha : Antlr entry) (skip : List Char → Nat) {t : Entry}
    (hk : ∀ k ∈ t.tokens, k.Plain) {text : List Char} (hw : Written t.tokens text) :
    parse entry skip text = some t := by
  rw [parse, hw.defaultTokens hk]
  exact ha.entry_tokens t

/-- A text of a printable syntax tree is parsed and built into that tree. -/
theorem parse_print {entry : List Token → Option Entry} (ha : Antlr entry) (skip : List Char → Nat) {node : EntryNode}
    (h : node.Printable) {text : List Char} (hw : Written node.print text) :
    ∃ t, parse entry skip text = some t ∧ build t = .ok node := by
  obtain ⟨t, ht, hp⟩ := node.reads h
  exact ⟨t, ha.parse_written skip (hp ▸ h.plain) (hp ▸ hw), ht⟩

/-- `int f(int a[]) { int s[2] = "hi"; return a[s[1]]; }`. -/
def stringIndex : EntryNode :=
  let element (x : String) (i : ExprNode) : ExprNode := LValNode.toExpr (.mk x (some i))
  ⟨.func ⟨.int, "f", [⟨.pointer, "a"⟩], [
    .decl (.varDecl ⟨.int, [⟨"s", some (.string [104, 105]), some (NumberNode.toExpr ⟨2⟩)⟩]⟩),
    .stmt (.ret (some (element "a" (element "s" (NumberNode.toExpr ⟨1⟩)))))]⟩⟩

theorem stringIndex_printable : stringIndex.Printable where
  plain := by decide +kernel
  small := by
    have h : ∀ k ∈ stringIndex.print, k.type = .IntLiteral → decimal k.text < 0x80000000 := by decide +kernel
    exact h
  complete := by
    refine ⟨⟨List.cons_ne_nil _ _, ?_⟩, trivial, trivial⟩
    intro k hk v hv
    obtain rfl := List.mem_singleton.mp hk
    cases hv
    exact ⟨['h', 'i'], List.cons_ne_nil _ _, by decide +kernel⟩

theorem stringIndex_parsed : ∃ entry t, Antlr entry ∧
    parse entry (fun _ => 0) (spaced stringIndex.print) = some t ∧ build t = .ok stringIndex := by
  obtain ⟨entry, ha⟩ := exists_antlr
  obtain ⟨t, ht, hb⟩ := parse_print ha (fun _ => 0) stringIndex_printable (written_spaced _)
  exact ⟨entry, t, ha, ht, hb⟩

end L24
