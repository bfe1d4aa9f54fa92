import L24.Frontend.Grammar

/-! Where the items of a program begin and end: a scan of the tokens that counts braces only. -/

namespace L24
open L24.Tree

/-- A token that a declaration or a function can start with. -/
def startsItem : TokenType → Bool
  | .Const | .Int | .Void => true
  | _ => false

/-- Between two items, or inside one: at a depth of braces, and behind a `=` outside braces or not. -/
inductive Place
  | between
  | inside (depth : Nat) (init : Bool)

/-- The place behind a token. An item ends with a `;` outside braces, or with the brace that closes its outermost ones
    if they are no initialiser. Between items, only a token that can start one is in place. -/
def Place.next : Place → TokenType → Option Place
  | .between, t => if startsItem t then some (.inside 0 false) else none
  | .inside d b, .LeftBrace => some (.inside (d + 1) b)
  | .inside 1 false, .RightBrace => some .between
  | .inside d b, .RightBrace => some (.inside (d - 1) b)
  | .inside 0 _, .SemiColon => some .between
  | .inside 0 _, .Assign => some (.inside 0 true)
  | p, _ => some p

/-- Where the scan is behind the tokens, if all of them stand in place. -/
def scanTop (p : Place) (toks : List Token) : Option Place := toks.foldlM (fun p tok => p.next tok.type) p

/-- Behind each complete item comes the start of another one, or the end. -/
def TopLevel (toks : List Token) : Prop := (scanTop .between toks).isSome = true

section TopLevel
variable {p q : Place} {xs ys : List Token} {d : Nat} {b : Bool}

theorem scanTop_cons {tok : Token} (h : p.next tok.type = some q) : scanTop p (tok :: xs) = scanTop q xs := by
  rw [scanTop, List.foldlM_cons, h]
  rfl

theorem scanTop_append (h : scanTop p xs = some q) : scanTop p (xs ++ ys) = scanTop q ys := by
  rw [scanTop, List.foldlM_append]
  rw [scanTop] at h
  rw [h]
  rfl

/-- Tokens of expressions, and others that never change the place inside an item. -/
def quiet : TokenType → Bool
  | .LeftBrace | .RightBrace | .SemiColon | .Assign => false
  | _ => true

/-- No token of the list opens, closes or ends anything. -/
def Quiet (xs : List Token) : Prop := ∀ tok ∈ xs, quiet tok.type = true

theorem Quiet.nil : Quiet [] := fun _ h => by cases h

theorem Quiet.cons {tok : Token} (h : quiet tok.type = true) (hx : Quiet xs) : Quiet (tok :: xs) :=
  List.forall_mem_cons.mpr ⟨h, hx⟩

theorem Quiet.append (hx : Quiet xs) (hy : Quiet ys) : Quiet (xs ++ ys) := List.forall_mem_append.mpr ⟨hx, hy⟩

theorem next_quiet {t : TokenType} (h : quiet t = true) : (Place.inside d b).next t = some (.inside d b) := by
  cases t with
  | LeftBrace | RightBrace | SemiColon | Assign => cases h
  | _ => rcases d with _ | _ | d <;> rfl

theorem scanTop_quiet (h : Quiet xs) : scanTop (.inside d b) xs = some (.inside d b) := by
  induction xs with
  | nil => rfl
  | cons tok xs ih =>
    obtain ⟨ht, hx⟩ := List.forall_mem_cons.mp h
    rw [scanTop_cons (next_quiet ht), ih hx]

theorem Quiet.subscript (h : Quiet xs) : Quiet (subscript xs) := .append (.cons rfl h) (.cons rfl .nil)

theorem Quiet.parens (h : Quiet xs) : Quiet (parens xs) := .append (.cons rfl h) (.cons rfl .nil)

theorem quiet_unaryOp (op : UnaryOp) : quiet (unaryOpToken op).type = true := by cases op <;> rfl

theorem quiet_bType (t : BType) : quiet (bTypeToken t).type = true := by cases t <;> rfl

/-- Inside braces, the tokens lead back to the same place. -/
def Level (xs : List Token) : Prop := ∀ d b, scanTop (.inside (d + 1) b) xs = some (.inside (d + 1) b)

theorem Level.nil : Level [] := fun _ _ => rfl

theorem Level.append (hx : Level xs) (hy : Level ys) : Level (xs ++ ys) := fun d b =>
  (scanTop_append (hx d b)).trans (hy d b)

theorem Level.cons {tok : Token} (h : ∀ d b, (Place.inside (d + 1) b).next tok.type = some (.inside (d + 1) b))
    (hx : Level xs) : Level (tok :: xs) := fun d b => (scanTop_cons (h d b)).trans (hx d b)

theorem Quiet.level (h : Quiet xs) : Level xs := fun _ _ => scanTop_quiet h

theorem next_quiet_level {tok : Token} (h : quiet tok.type = true) (d : Nat) (b : Bool) :
    (Place.inside (d + 1) b).next tok.type = some (.inside (d + 1) b) := next_quiet h

theorem level_semiColon : Level [TokenType.SemiColon.token] := .cons (fun _ _ => rfl) .nil

/-- Braces around what is level. -/
theorem Level.braces (h : Level xs) : Level (TokenType.LeftBrace.token :: xs ++ [TokenType.RightBrace.token]) :=
    fun d b => by
  have hopen : scanTop (.inside (d + 1) b) (TokenType.LeftBrace.token :: xs) = some (.inside (d + 2) b) :=
    (scanTop_cons rfl).trans (h (d + 1) b)
  rw [scanTop_append hopen]
  exact scanTop_cons rfl

/-- A definition, in braces and outside. -/
structure IsDef (xs : List Token) : Prop where
  level : Level xs
  scan : ∀ b, ∃ b', scanTop (.inside 0 b) xs = some (.inside 0 b')

theorem IsDef.append (hx : IsDef xs) (hy : IsDef ys) : IsDef (xs ++ ys) where
  level := hx.level.append hy.level
  scan b := by
    obtain ⟨b₁, h₁⟩ := hx.scan b
    obtain ⟨b₂, h₂⟩ := hy.scan b₁
    exact ⟨b₂, (scanTop_append h₁).trans h₂⟩

theorem Quiet.isDef (h : Quiet xs) : IsDef xs := ⟨h.level, fun b => ⟨b, scanTop_quiet h⟩⟩

end TopLevel

/-! ### Programs -/

namespace Tree
open TokenType

mutual

theorem Exp.quiet : ∀ e : Exp, Quiet e.tokens
  | .mk e => by
    rw [Exp.tokens]
    exact e.quiet

theorem LOrExp.quiet : ∀ e : LOrExp, Quiet e.tokens
  | .lAndExp e => by
    rw [LOrExp.tokens]
    exact e.quiet
  | .logicalOr a b => by
    rw [LOrExp.tokens]
    exact a.quiet.append (.cons rfl b.quiet)

theorem LAndExp.quiet : ∀ e : LAndExp, Quiet e.tokens
  | .eqExp e => by
    rw [LAndExp.tokens]
    exact e.quiet
  | .logicalAnd a b => by
    rw [LAndExp.tokens]
    exact a.quiet.append (.cons rfl b.quiet)

theorem EqExp.quiet : ∀ e : EqExp, Quiet e.tokens
  | .relExp e => by
    rw [EqExp.tokens]
    exact e.quiet
  | .eq a b | .notEq a b => by
    rw [EqExp.tokens]
    exact a.quiet.append (.cons rfl b.quiet)

theorem RelExp.quiet : ∀ e : RelExp, Quiet e.tokens
  | .addExp e => by
    rw [RelExp.tokens]
    exact e.quiet
  | .less a b | .greater a b | .lessEq a b | .greaterEq a b => by
    rw [RelExp.tokens]
    exact a.quiet.append (.cons rfl b.quiet)

theorem AddExp.quiet : ∀ e : AddExp, Quiet e.tokens
  | .mulExp e => by
    rw [AddExp.tokens]
    exact e.quiet
  | .plus a b | .minus a b => by
    rw [AddExp.tokens]
    exact a.quiet.append (.cons rfl b.quiet)

theorem MulExp.quiet : ∀ e : MulExp, Quiet e.tokens
  | .unaryExp e => by
    rw [MulExp.tokens]
    exact e.quiet
  | .star a b | .slash a b | .percentage a b => by
    rw [MulExp.tokens]
    exact a.quiet.append (.cons rfl b.quiet)

theorem UnaryExp.quiet : ∀ e : UnaryExp, Quiet e.tokens
  | .primaryExp e => by
    rw [UnaryExp.tokens]
    exact e.quiet
  | .unaryOp op e => by
    rw [UnaryExp.tokens]
    exact .cons (quiet_unaryOp op) e.quiet
  | .call ident none => by
    rw [UnaryExp.tokens]
    exact .cons rfl (Quiet.parens .nil)
  | .call ident (some ps) => by
    rw [UnaryExp.tokens]
    exact .cons rfl ps.quiet.parens

theorem FuncRParams.quiet : ∀ ps : FuncRParams, Quiet ps.tokens
  | .mk e es => by
    rw [FuncRParams.tokens]
    exact e.quiet.append (expsTail_quiet es)

theorem expsTail_quiet : ∀ es : List Exp, Quiet (expsTail es)
  | [] => by
    rw [expsTail]
    exact .nil
  | e :: es => by
    rw [expsTail]
    exact .append (.cons rfl e.quiet) (expsTail_quiet es)

theorem PrimaryExp.quiet : ∀ e : PrimaryExp, Quiet e.tokens
  | .paren e => by
    rw [PrimaryExp.tokens]
    exact e.quiet.parens
  | .number text => by
    rw [PrimaryExp.tokens]
    exact .cons rfl .nil
  | .lVal l => by
    rw [PrimaryExp.tokens]
    exact l.quiet

theorem LVal.quiet : ∀ l : LVal, Quiet l.tokens
  | .mk ident none => by
    rw [LVal.tokens]
    exact .cons rfl .nil
  | .mk ident (some e) => by
    rw [LVal.tokens]
    exact .cons rfl e.quiet.subscript

end

section Level
variable {b : Bool}

theorem quiet_subscriptTokens (e : Option Exp) : Quiet (subscriptTokens e) := by
  cases e with
  | none => exact .nil
  | some e => exact e.quiet.subscript

theorem quiet_expTokens (e : Option Exp) : Quiet (expTokens e) := by
  cases e with
  | none => exact .nil
  | some e => exact e.quiet

/-! ### Declarations -/

theorem InitVal.level (v : InitVal) : Level v.tokens := by
  cases v with
  | exp e => exact e.quiet.level
  | list es => cases es with
    | none => exact Level.nil.braces
    | some es => exact (es.1.quiet.append (expsTail_quiet es.2)).level.braces
  | string text => exact Quiet.level (.cons rfl .nil)

/-- Outside braces, an initialiser leads back outside. -/
theorem InitVal.scan (v : InitVal) : scanTop (.inside 0 true) v.tokens = some (.inside 0 true) := by
  have hbraces : ∀ xs, Level xs → scanTop (.inside 0 true) (LeftBrace.token :: xs ++ [RightBrace.token]) =
      some (.inside 0 true) := by
    intro xs hx
    have hopen : scanTop (.inside 0 true) (LeftBrace.token :: xs) = some (.inside 1 true) :=
      (scanTop_cons rfl).trans (hx 0 true)
    rw [scanTop_append hopen]
    exact scanTop_cons rfl
  cases v with
  | exp e => exact scanTop_quiet e.quiet
  | list es => cases es with
    | none => exact hbraces [] .nil
    | some es => exact hbraces _ (es.1.quiet.append (expsTail_quiet es.2)).level
  | string text => exact scanTop_quiet (.cons rfl .nil)

theorem initTokens_level (v : Option InitVal) : Level (initTokens v) := by
  cases v with
  | none => exact .nil
  | some v => exact .cons (fun _ _ => rfl) v.level

theorem initTokens_scan (v : Option InitVal) : ∃ b', scanTop (.inside 0 b) (initTokens v) = some (.inside 0 b') := by
  cases v with
  | none => exact ⟨b, rfl⟩
  | some v => exact ⟨true, (scanTop_cons rfl).trans v.scan⟩

theorem isDef {ident : String} (e : Option Exp) (v : Option InitVal) :
    IsDef (identToken ident :: subscriptTokens e ++ initTokens v) where
  level := (Quiet.level (.cons rfl (quiet_subscriptTokens e))).append (initTokens_level v)
  scan b := by
    rw [scanTop_append (scanTop_quiet (.cons rfl (quiet_subscriptTokens e)))]
    exact initTokens_scan v

theorem ConstDef.isDef (d : ConstDef) : IsDef d.tokens := Tree.isDef d.exp (some d.initVal)

theorem VarDef.isDef (d : VarDef) : IsDef d.tokens := Tree.isDef d.exp d.initVal

theorem isDef_commaTail {α : Type} {tokens : α → List Token} (h : ∀ x, IsDef (tokens x)) (xs : List α) :
    IsDef (commaTail tokens xs) := by
  induction xs with
  | nil => exact Quiet.isDef .nil
  | cons x xs ih =>
    have hcomma : IsDef [Comm.token] := Quiet.isDef (.cons rfl .nil)
    exact (hcomma.append (h x)).append ih

/-- A declaration, between items and in braces. -/
theorem Decl.scan (d : Decl) : scanTop .between d.tokens = some .between ∧ Level d.tokens := by
  have hsemi : ∀ b, scanTop (.inside 0 b) [SemiColon.token] = some .between := fun b => scanTop_cons rfl
  cases d with
  | constDecl d =>
    have hdefs := (Quiet.isDef (.cons (quiet_bType d.bType) .nil)).append
      (d.constDef.isDef.append (isDef_commaTail ConstDef.isDef d.constDefs))
    have htokens : d.tokens = TokenType.Const.token :: (([bTypeToken d.bType] ++ (d.constDef.tokens ++
      commaTail ConstDef.tokens d.constDefs)) ++ [SemiColon.token]) := by simp [ConstDecl.tokens]
    rw [Decl.tokens, htokens]
    obtain ⟨b, hb⟩ := hdefs.scan false
    refine ⟨?_, .cons (next_quiet_level rfl) (hdefs.level.append level_semiColon)⟩
    rw [scanTop_cons (q := .inside 0 false) rfl, scanTop_append hb, hsemi]
  | varDecl d =>
    have hdefs := d.varDef.isDef.append (isDef_commaTail VarDef.isDef d.varDefs)
    have htokens : d.tokens = bTypeToken d.bType :: ((d.varDef.tokens ++ commaTail VarDef.tokens d.varDefs) ++
      [SemiColon.token]) := by simp [VarDecl.tokens]
    rw [Decl.tokens, htokens]
    obtain ⟨b, hb⟩ := hdefs.scan false
    refine ⟨?_, .cons (next_quiet_level (quiet_bType _)) (hdefs.level.append level_semiColon)⟩
    rw [scanTop_cons (q := .inside 0 false) (by cases d.bType <;> rfl), scanTop_append hb, hsemi]

/-! ### Statements and functions -/

mutual

theorem Stmt.level : ∀ s : Stmt, Level s.tokens
  | .ret e => by
    rw [Stmt.tokens]
    exact .append (.cons (fun _ _ => rfl) (quiet_expTokens e).level) level_semiColon
  | .assign l e => by
    rw [Stmt.tokens]
    exact .append (l.quiet.level.append (.cons (fun _ _ => rfl) e.quiet.level)) level_semiColon
  | .exp e => by
    rw [Stmt.tokens]
    exact .append (quiet_expTokens e).level level_semiColon
  | .block b => by
    rw [Stmt.tokens]
    exact b.level
  | .ifStmt e s none => by
    rw [Stmt.tokens]
    exact .append (.append (.cons (fun _ _ => rfl) e.quiet.parens.level) (.cons (fun _ _ => rfl) s.level))
      (.cons (fun _ _ => rfl) .nil)
  | .ifStmt e s (some t) => by
    rw [Stmt.tokens]
    exact .append (.append (.append (.cons (fun _ _ => rfl) e.quiet.parens.level) (.cons (fun _ _ => rfl) s.level))
      (.cons (fun _ _ => rfl) t.level)) (.cons (fun _ _ => rfl) .nil)
  | .whileStmt e s => by
    rw [Stmt.tokens]
    exact .append (.cons (fun _ _ => rfl) e.quiet.parens.level) s.level
  | .continueStmt => by
    rw [Stmt.tokens]
    exact .cons (fun _ _ => rfl) level_semiColon
  | .breakStmt => by
    rw [Stmt.tokens]
    exact .cons (fun _ _ => rfl) level_semiColon

theorem Block.level : ∀ b : Block, Level b.tokens
  | .mk items => by
    rw [Block.tokens]
    exact (itemsTokens_level items).braces

theorem itemsTokens_level : ∀ items : List BlockItem, Level (itemsTokens items)
  | [] => by
    rw [itemsTokens]
    exact .nil
  | item :: items => by
    rw [itemsTokens]
    exact item.level.append (itemsTokens_level items)

theorem BlockItem.level : ∀ item : BlockItem, Level item.tokens
  | .decl d => by
    rw [BlockItem.tokens]
    exact d.scan.2
  | .stmt s => by
    rw [BlockItem.tokens]
    exact s.level

end

theorem FuncFParam.quiet (p : FuncFParam) : Quiet p.tokens := by
  refine .cons (quiet_bType _) (.cons rfl ?_)
  split
  · exact Quiet.nil.subscript
  · exact .nil

theorem quiet_paramTokens (ps : Option FuncFParams) : Quiet (paramTokens ps) := by
  cases ps with
  | none => exact .nil
  | some ps =>
    refine ps.funcFParam.quiet.append fun tok htok => ?_
    obtain ⟨p, -, hp⟩ := List.mem_flatMap.mp htok
    exact (Quiet.cons rfl p.quiet : Quiet (Comm.token :: p.tokens)) tok hp

/-- The last brace of the body ends the function. -/
theorem Func.scan (f : Func) : scanTop .between f.tokens = some .between := by
  have hstart : Place.between.next (funcTypeToken f.type).type = some (.inside 0 false) := by
    rcases f with ⟨_ | t, _, _, _⟩
    · rfl
    · cases t <;> rfl
  have hhead : scanTop .between (funcTypeToken f.type :: identToken f.ident :: parens (paramTokens f.funcFParams)) =
      some (.inside 0 false) :=
    (scanTop_cons hstart).trans (scanTop_quiet (.cons rfl (quiet_paramTokens _).parens))
  rw [Func.tokens, scanTop_append hhead]
  cases hb : f.block with
  | mk items =>
    have hitems : scanTop (.inside 0 false) (LeftBrace.token :: itemsTokens items) = some (.inside 1 false) :=
      (scanTop_cons rfl).trans (itemsTokens_level items 0 false)
    rw [Block.tokens, scanTop_append hitems]
    exact scanTop_cons rfl

/-- What a program derives ends between items. -/
theorem Program.scan : ∀ p : Program, scanTop .between p.tokens = some .between
  | .decl d => by
    rw [Program.tokens]
    exact d.scan.1
  | .func f => by
    rw [Program.tokens]
    exact f.scan
  | .progDecl p d => by
    rw [Program.tokens, scanTop_append p.scan]
    exact d.scan.1
  | .progFunc p f => by
    rw [Program.tokens, scanTop_append p.scan]
    exact f.scan

end Level

end Tree

end L24
