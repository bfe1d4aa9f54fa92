import L24.Frontend.Print
import L24.Frontend.TopLevel
import L24.Lib.Readable

/-! The grammar is unambiguous: each phrase is told from the others by its tokens, operators by their precedence, and
    the rest by the token that a phrase starts with or by the one that cannot go on with it. -/

namespace L24.Tree
open TokenType Readable

/-- How tightly a token goes on with an expression before it. -/
def level : TokenType → Nat
  | .Comm => 1
  | .LogicalOr | .Assign => 2
  | .LogicalAnd => 3
  | .Eq | .NotEq => 4
  | .Less | .Greater | .LessEq | .GreaterEq => 5
  | .Plus | .Minus => 6
  | .Star | .Slash | .Percentage => 7
  | .LeftSqrBr | .LeftParen => 8
  | _ => 0

/-- What may stand behind a phrase of level `k`. -/
abbrev Follow (k : Nat) : List Token → Prop := Readable.Below (fun tok => level tok.type) k

/-! ### Operators -/

/-- The alternative of an operator. -/
def eqNode (a : EqExp) (op : EqOp) (b : RelExp) : EqExp := match op with
  | .eq => .eq a b
  | .notEq => .notEq a b

def relNode (a : RelExp) (op : RelOp) (b : AddExp) : RelExp := match op with
  | .less => .less a b
  | .greater => .greater a b
  | .lessEq => .lessEq a b
  | .greaterEq => .greaterEq a b

def addNode (a : AddExp) (op : AddOp) (b : MulExp) : AddExp := match op with
  | .plus => .plus a b
  | .minus => .minus a b

def mulNode (a : MulExp) (op : MulOp) (b : UnaryExp) : MulExp := match op with
  | .star => .star a b
  | .slash => .slash a b
  | .percentage => .percentage a b

theorem LOrExp.byOperands {P : LOrExp → Prop} (h : ∀ b, P (.lAndExp b))
    (hop : ∀ a (_ : Unit) b, P a → P (.logicalOr a b)) (e : LOrExp) : P e := by
  cases e with
  | lAndExp b => exact h b
  | logicalOr a b => exact hop a () b (byOperands h hop a)

theorem LAndExp.byOperands {P : LAndExp → Prop} (h : ∀ b, P (.eqExp b))
    (hop : ∀ a (_ : Unit) b, P a → P (.logicalAnd a b)) (e : LAndExp) : P e := by
  cases e with
  | eqExp b => exact h b
  | logicalAnd a b => exact hop a () b (byOperands h hop a)

theorem EqExp.byOperands {P : EqExp → Prop} (h : ∀ b, P (.relExp b))
    (hop : ∀ a op b, P a → P (eqNode a op b)) (e : EqExp) : P e := by
  cases e with
  | relExp b => exact h b
  | eq a b => exact hop a .eq b (byOperands h hop a)
  | notEq a b => exact hop a .notEq b (byOperands h hop a)

theorem RelExp.byOperands {P : RelExp → Prop} (h : ∀ b, P (.addExp b))
    (hop : ∀ a op b, P a → P (relNode a op b)) (e : RelExp) : P e := by
  cases e with
  | addExp b => exact h b
  | less a b => exact hop a .less b (byOperands h hop a)
  | greater a b => exact hop a .greater b (byOperands h hop a)
  | lessEq a b => exact hop a .lessEq b (byOperands h hop a)
  | greaterEq a b => exact hop a .greaterEq b (byOperands h hop a)

theorem AddExp.byOperands {P : AddExp → Prop} (h : ∀ b, P (.mulExp b))
    (hop : ∀ a op b, P a → P (addNode a op b)) (e : AddExp) : P e := by
  cases e with
  | mulExp b => exact h b
  | plus a b => exact hop a .plus b (byOperands h hop a)
  | minus a b => exact hop a .minus b (byOperands h hop a)

theorem MulExp.byOperands {P : MulExp → Prop} (h : ∀ b, P (.unaryExp b))
    (hop : ∀ a op b, P a → P (mulNode a op b)) (e : MulExp) : P e := by
  cases e with
  | unaryExp b => exact h b
  | star a b => exact hop a .star b (byOperands h hop a)
  | slash a b => exact hop a .slash b (byOperands h hop a)
  | percentage a b => exact hop a .percentage b (byOperands h hop a)

/-- A layer of binary operators over the tokens. -/
abbrev OpLayer (α β ω : Type) (k : Nat) := Readable.Layer Token α β ω (fun tok => level tok.type) k

/-- The layers, from the weakest operator to the strongest. -/
def orLayer : OpLayer LAndExp LOrExp Unit 2 where
  tokens := LOrExp.tokens
  operandTokens := LAndExp.tokens
  op _ := LogicalOr.token
  operand := .lAndExp
  node a _ b := .logicalOr a b
  tokens_operand b := by rw [LOrExp.tokens]
  tokens_node a _ b := by rw [LOrExp.tokens]
  op_injective _ _ _ := rfl
  op_prec _ := rfl
  induct := LOrExp.byOperands

def andLayer : OpLayer EqExp LAndExp Unit 3 where
  tokens := LAndExp.tokens
  operandTokens := EqExp.tokens
  op _ := LogicalAnd.token
  operand := .eqExp
  node a _ b := .logicalAnd a b
  tokens_operand b := by rw [LAndExp.tokens]
  tokens_node a _ b := by rw [LAndExp.tokens]
  op_injective _ _ _ := rfl
  op_prec _ := rfl
  induct := LAndExp.byOperands

def eqLayer : OpLayer RelExp EqExp EqOp 4 where
  tokens := EqExp.tokens
  operandTokens := RelExp.tokens
  op := EqOp.token
  operand := .relExp
  node := eqNode
  tokens_operand b := by rw [EqExp.tokens]
  tokens_node a op b := by cases op <;> rw [eqNode, EqExp.tokens, EqOp.token]
  op_injective o o' := by cases o <;> cases o' <;> simp [EqOp.token, TokenType.token]
  op_prec o := by cases o <;> rfl
  induct := EqExp.byOperands

def relLayer : OpLayer AddExp RelExp RelOp 5 where
  tokens := RelExp.tokens
  operandTokens := AddExp.tokens
  op := RelOp.token
  operand := .addExp
  node := relNode
  tokens_operand b := by rw [RelExp.tokens]
  tokens_node a op b := by cases op <;> rw [relNode, RelExp.tokens, RelOp.token]
  op_injective o o' := by cases o <;> cases o' <;> simp [RelOp.token, TokenType.token]
  op_prec o := by cases o <;> rfl
  induct := RelExp.byOperands

def addLayer : OpLayer MulExp AddExp AddOp 6 where
  tokens := AddExp.tokens
  operandTokens := MulExp.tokens
  op := AddOp.token
  operand := .mulExp
  node := addNode
  tokens_operand b := by rw [AddExp.tokens]
  tokens_node a op b := by cases op <;> rw [addNode, AddExp.tokens, AddOp.token]
  op_injective o o' := by cases o <;> cases o' <;> simp [AddOp.token, TokenType.token]
  op_prec o := by cases o <;> rfl
  induct := AddExp.byOperands

def mulLayer : OpLayer UnaryExp MulExp MulOp 7 where
  tokens := MulExp.tokens
  operandTokens := UnaryExp.tokens
  op := MulOp.token
  operand := .unaryExp
  node := mulNode
  tokens_operand b := by rw [MulExp.tokens]
  tokens_node a op b := by cases op <;> rw [mulNode, MulExp.tokens, MulOp.token]
  op_injective o o' := by cases o <;> cases o' <;> simp [MulOp.token, TokenType.token]
  op_prec o := by cases o <;> rfl
  induct := MulExp.byOperands

/-! ### Where phrases start -/

/-- The tokens are some, and the type of the first one has `p`. -/
def Starts (p : TokenType → Bool) (xs : List Token) : Prop := ∃ tok ts, xs = tok :: ts ∧ p tok.type = true

section Starts
variable {p : TokenType → Bool} {xs ys r : List Token} {tok : Token}

theorem Starts.append (h : Starts p xs) : Starts p (xs ++ ys) := by
  obtain ⟨tok, ts, rfl, hp⟩ := h
  exact ⟨tok, ts ++ ys, rfl, hp⟩

theorem Starts.head (h : Starts p xs) (he : xs ++ ys = tok :: r) : p tok.type = true := by
  obtain ⟨_, ts, rfl, hp⟩ := h
  rw [← (List.cons.inj he).1]
  exact hp

end Starts

/-- A token that an expression can start with. -/
def startsExp : TokenType → Bool
  | .Ident | .IntLiteral | .LeftParen | .Plus | .Minus | .Not => true
  | _ => false

theorem LVal.starts (l : LVal) : Starts startsExp l.tokens := by
  rcases l with ⟨ident, _ | e⟩ <;> rw [LVal.tokens] <;> exact ⟨_, _, rfl, rfl⟩

theorem PrimaryExp.starts (e : PrimaryExp) : Starts startsExp e.tokens := by
  rcases e with e | text | l <;> rw [PrimaryExp.tokens]
  · exact ⟨_, _, rfl, rfl⟩
  · exact ⟨_, _, rfl, rfl⟩
  · exact l.starts

theorem UnaryExp.starts (e : UnaryExp) : Starts startsExp e.tokens := by
  rcases e with e | ⟨op, e⟩ | ⟨ident, _ | ps⟩ <;> rw [UnaryExp.tokens]
  · exact e.starts
  · exact ⟨_, _, rfl, by cases op <;> rfl⟩
  · exact ⟨_, _, rfl, rfl⟩
  · exact ⟨_, _, rfl, rfl⟩

/-- Phrases of operators start as their operands do. -/
theorem starts_layer {α β ω : Type} {k : Nat} {L : OpLayer α β ω k} {p : TokenType → Bool}
    (h : ∀ a, Starts p (L.operandTokens a)) : ∀ b, Starts p (L.tokens b) := by
  refine L.induct (P := fun b => Starts p (L.tokens b)) ?_ ?_
  · intro a
    rw [L.tokens_operand]
    exact h a
  · intro b o a hb
    rw [L.tokens_node]
    exact hb.append

theorem Exp.starts (e : Exp) : Starts startsExp e.tokens := by
  cases e with
  | mk e =>
    rw [Exp.tokens]
    have hmul : ∀ e : MulExp, Starts startsExp e.tokens := starts_layer (L := mulLayer) UnaryExp.starts
    have hadd : ∀ e : AddExp, Starts startsExp e.tokens := starts_layer (L := addLayer) hmul
    have hrel : ∀ e : RelExp, Starts startsExp e.tokens := starts_layer (L := relLayer) hadd
    have heq : ∀ e : EqExp, Starts startsExp e.tokens := starts_layer (L := eqLayer) hrel
    have hand : ∀ e : LAndExp, Starts startsExp e.tokens := starts_layer (L := andLayer) heq
    exact starts_layer (L := orLayer) hand e

/-! ### Expressions -/

theorem expsTail_eq (es : List Exp) : expsTail es = commaTail Exp.tokens es := by
  induction es with
  | nil => rfl
  | cons e es ih => rw [expsTail, ih]; rfl

/-- Phrases behind commas. -/
theorem commaTail_told {α : Type} {tokens : α → List Token} {xs : List α} (h : ∀ x ∈ xs, Told tokens (Follow 2) x) :
    Told (commaTail tokens) (Follow 1) xs := by
  refine Told.flatMap (G := Follow 2) (S := fun tok => tok = Comm.token) ?_ ?_ ?_ ?_ ?_
  · intro x
    exact ⟨_, _, rfl, rfl⟩
  · rintro tok r hr rfl
    simp [below_cons, level, TokenType.token] at hr
  · intro r hr
    exact hr.succ
  · rintro tok r rfl
    simp [below_cons, level, TokenType.token]
  · intro x hx y r s hr hs htok
    exact h x hx y r s hr hs (List.cons.inj htok).2

theorem follow_commaTail {α : Type} (tokens : α → List Token) (xs : List α) (r : List Token) (h : Follow 1 r) :
    Follow 2 (commaTail tokens xs ++ r) := by
  cases xs with
  | nil => exact h.succ
  | cons x xs => simp [commaTail, below_cons, level, TokenType.token]

/-- A phrase, and others behind commas. -/
theorem commas_told {α : Type} {tokens : α → List Token} {x : α} {xs : List α} (hx : Told tokens (Follow 2) x)
    (hxs : ∀ y ∈ xs, Told tokens (Follow 2) y) :
    Told (fun p : α × List α => tokens p.1 ++ commaTail tokens p.2) (Follow 1) (x, xs) :=
  Told.append (p := (x, xs)) hx (commaTail_told hxs) (follow_commaTail tokens)

theorem FuncRParams.tokens_eq (e : Exp) (es : List Exp) :
    (FuncRParams.mk e es).tokens = e.tokens ++ commaTail Exp.tokens es := by
  rw [FuncRParams.tokens, expsTail_eq]

theorem FuncRParams.starts (ps : FuncRParams) : Starts startsExp ps.tokens := by
  cases ps with
  | mk e es =>
    rw [FuncRParams.tokens]
    exact e.starts.append

theorem LVal.tokens_eq (ident : String) (sub : Option Exp) :
    (LVal.mk ident sub).tokens = identToken ident :: subscriptTokens sub := by
  cases sub <;> rw [LVal.tokens] <;> rfl

/-- `(funcRParams)?`. -/
def argsTokens : Option FuncRParams → List Token
  | none => []
  | some ps => ps.tokens

theorem UnaryExp.tokens_call (ident : String) (ps : Option FuncRParams) (r : List Token) :
    (UnaryExp.call ident ps).tokens ++ r =
      identToken ident :: LeftParen.token :: (argsTokens ps ++ RightParen.token :: r) := by
  cases ps <;> simp [UnaryExp.tokens, parens, argsTokens]

theorem follow_rightParen {k : Nat} (h : 0 < k) (r : List Token) : Follow k (RightParen.token :: r) := below_cons.mpr h

theorem follow_rightSqrBr {k : Nat} (h : 0 < k) (r : List Token) : Follow k (RightSqrBr.token :: r) := below_cons.mpr h

section Heads
variable {e : PrimaryExp} {r s : List Token}

theorem primaryExp_ne_unaryOp {op : UnaryOp} (h : e.tokens ++ r = unaryOpToken op :: s) : False := by
  rcases e with e | text | ⟨ident, sub⟩ <;> cases op <;>
    simp [PrimaryExp.tokens, LVal.tokens_eq, parens, identToken, unaryOpToken, TokenType.token] at h

/-- A name with an opening parenthesis behind it is no operand of its own. -/
theorem primaryExp_ne_call {ident : String} (hr : Follow 8 r)
    (h : e.tokens ++ r = identToken ident :: LeftParen.token :: s) : False := by
  rcases e with e | text | ⟨name, _ | sub⟩
  · simp [PrimaryExp.tokens, parens, identToken, TokenType.token] at h
  · simp [PrimaryExp.tokens, identToken] at h
  · simp only [PrimaryExp.tokens, LVal.tokens_eq, subscriptTokens, List.cons_append, List.nil_append,
      List.cons.injEq] at h
    rw [h.2] at hr
    exact absurd (below_cons.mp hr) (by decide)
  · simp [PrimaryExp.tokens, LVal.tokens_eq, subscriptTokens, subscript, TokenType.token] at h

end Heads

mutual

theorem Exp.told : ∀ e : Exp, Told Exp.tokens (Follow 2) e
  | .mk e => by
    intro b r s hr hs htok
    cases b with
    | mk b =>
      rw [Exp.tokens, Exp.tokens] at htok
      obtain ⟨rfl, hrs⟩ := e.operands.told b r s hr hs htok
      exact ⟨rfl, hrs⟩

theorem LOrExp.operands : ∀ e : LOrExp, orLayer.Of (Told LAndExp.tokens (Follow 3)) e
  | .lAndExp b => .operand b.operands.told
  | .logicalOr a b => .node (o := ()) a.operands b.operands.told

theorem LAndExp.operands : ∀ e : LAndExp, andLayer.Of (Told EqExp.tokens (Follow 4)) e
  | .eqExp b => .operand b.operands.told
  | .logicalAnd a b => .node (o := ()) a.operands b.operands.told

theorem EqExp.operands : ∀ e : EqExp, eqLayer.Of (Told RelExp.tokens (Follow 5)) e
  | .relExp b => .operand b.operands.told
  | .eq a b => .node (o := EqOp.eq) a.operands b.operands.told
  | .notEq a b => .node (o := EqOp.notEq) a.operands b.operands.told

theorem RelExp.operands : ∀ e : RelExp, relLayer.Of (Told AddExp.tokens (Follow 6)) e
  | .addExp b => .operand b.operands.told
  | .less a b => .node (o := RelOp.less) a.operands b.operands.told
  | .greater a b => .node (o := RelOp.greater) a.operands b.operands.told
  | .lessEq a b => .node (o := RelOp.lessEq) a.operands b.operands.told
  | .greaterEq a b => .node (o := RelOp.greaterEq) a.operands b.operands.told

theorem AddExp.operands : ∀ e : AddExp, addLayer.Of (Told MulExp.tokens (Follow 7)) e
  | .mulExp b => .operand b.operands.told
  | .plus a b => .node (o := AddOp.plus) a.operands b.operands.told
  | .minus a b => .node (o := AddOp.minus) a.operands b.operands.told

theorem MulExp.operands : ∀ e : MulExp, mulLayer.Of (Told UnaryExp.tokens (Follow 8)) e
  | .unaryExp b => .operand b.told
  | .star a b => .node (o := MulOp.star) a.operands b.told
  | .slash a b => .node (o := MulOp.slash) a.operands b.told
  | .percentage a b => .node (o := MulOp.percentage) a.operands b.told

theorem UnaryExp.told : ∀ e : UnaryExp, Told UnaryExp.tokens (Follow 8) e
  | .primaryExp e => by
    intro b r s hr hs htok
    rw [UnaryExp.tokens] at htok
    rcases b with b | ⟨op, b⟩ | ⟨ident, ps⟩
    · rw [UnaryExp.tokens] at htok
      obtain ⟨rfl, hrs⟩ := e.told b r s hr hs htok
      exact ⟨rfl, hrs⟩
    · rw [UnaryExp.tokens] at htok
      exact (primaryExp_ne_unaryOp htok).elim
    · rw [UnaryExp.tokens_call] at htok
      -- A name is a primary expression, but no `(` may follow it.
      exact (primaryExp_ne_call hr htok).elim
  | .unaryOp op e => by
    intro b r s hr hs htok
    rw [UnaryExp.tokens] at htok
    rcases b with b | ⟨op', b⟩ | ⟨ident, ps⟩
    · rw [UnaryExp.tokens] at htok
      exact (primaryExp_ne_unaryOp htok.symm).elim
    · rw [UnaryExp.tokens] at htok
      obtain ⟨hop, htok⟩ := List.cons.inj htok
      obtain ⟨rfl, hrs⟩ := e.told b r s hr hs htok
      have : op = op' := by cases op <;> cases op' <;> first | rfl | cases hop
      exact ⟨by rw [this], hrs⟩
    · rw [UnaryExp.tokens_call] at htok
      cases op <;> cases (List.cons.inj htok).1
  | .call ident none => by
    intro b r s hr hs htok
    rw [UnaryExp.tokens_call] at htok
    rcases b with b | ⟨op, b⟩ | ⟨ident', _ | qs⟩
    · rw [UnaryExp.tokens] at htok
      exact (primaryExp_ne_call hs htok.symm).elim
    · rw [UnaryExp.tokens] at htok
      cases op <;> cases (List.cons.inj htok).1
    · rw [UnaryExp.tokens_call] at htok
      simp only [identToken, List.cons.injEq, Token.mk.injEq, true_and, argsTokens, List.nil_append] at htok
      exact ⟨by rw [htok.1], htok.2⟩
    · rw [UnaryExp.tokens_call] at htok
      simp only [List.cons.injEq, true_and, argsTokens, List.nil_append] at htok
      -- The arguments begin where the other call is closed.
      exact absurd (qs.starts.head htok.2.symm) (by decide)
  | .call ident (some ps) => by
    intro b r s hr hs htok
    rw [UnaryExp.tokens_call] at htok
    rcases b with b | ⟨op, b⟩ | ⟨ident', _ | qs⟩
    · rw [UnaryExp.tokens] at htok
      exact (primaryExp_ne_call hs htok.symm).elim
    · rw [UnaryExp.tokens] at htok
      cases op <;> cases (List.cons.inj htok).1
    · rw [UnaryExp.tokens_call] at htok
      simp only [List.cons.injEq, true_and, argsTokens, List.nil_append] at htok
      exact absurd (ps.starts.head htok.2) (by decide)
    · rw [UnaryExp.tokens_call] at htok
      simp only [identToken, List.cons.injEq, Token.mk.injEq, true_and, argsTokens] at htok
      obtain ⟨rfl, htok⟩ := htok
      obtain ⟨rfl, hrs⟩ := ps.told qs _ _ (follow_rightParen (by decide) r) (follow_rightParen (by decide) s) htok
      exact ⟨rfl, (List.cons.inj hrs).2⟩

theorem FuncRParams.told : ∀ ps : FuncRParams, Told FuncRParams.tokens (Follow 1) ps
  | .mk e es => by
    intro b r s hr hs htok
    cases b with
    | mk f fs =>
      rw [FuncRParams.tokens_eq, FuncRParams.tokens_eq] at htok
      obtain ⟨hef, hrs⟩ := commas_told e.told (exps_told es) (f, fs) r s hr hs htok
      cases hef
      exact ⟨rfl, hrs⟩

theorem exps_told : ∀ es : List Exp, ∀ e ∈ es, Told Exp.tokens (Follow 2) e
  | [] => by simp
  | e :: es => List.forall_mem_cons.mpr ⟨e.told, exps_told es⟩

theorem PrimaryExp.told : ∀ e : PrimaryExp, Told PrimaryExp.tokens (Follow 8) e
  | .paren e => by
    intro b r s hr hs htok
    rcases b with f | text | ⟨ident, sub⟩
    · simp only [PrimaryExp.tokens, parens, List.cons_append, List.append_assoc, List.nil_append, List.cons.injEq,
        true_and] at htok
      obtain ⟨rfl, hrs⟩ := e.told f _ _ (follow_rightParen (by decide) r) (follow_rightParen (by decide) s) htok
      exact ⟨rfl, (List.cons.inj hrs).2⟩
    · simp [PrimaryExp.tokens, parens, TokenType.token] at htok
    · simp [PrimaryExp.tokens, LVal.tokens_eq, parens, TokenType.token, identToken] at htok
  | .number text => by
    intro b r s hr hs htok
    rcases b with f | text' | ⟨ident, sub⟩
    · simp [PrimaryExp.tokens, parens, TokenType.token] at htok
    · simp only [PrimaryExp.tokens, List.cons_append, List.nil_append, List.cons.injEq, Token.mk.injEq,
        true_and] at htok
      exact ⟨by rw [htok.1], htok.2⟩
    · simp [PrimaryExp.tokens, LVal.tokens_eq, identToken] at htok
  | .lVal l => by
    intro b r s hr hs htok
    rcases b with f | text | l'
    · cases l
      simp [PrimaryExp.tokens, LVal.tokens_eq, parens, TokenType.token, identToken] at htok
    · cases l
      simp [PrimaryExp.tokens, LVal.tokens_eq, identToken] at htok
    · rw [PrimaryExp.tokens, PrimaryExp.tokens] at htok
      obtain ⟨rfl, hrs⟩ := l.told l' r s hr hs htok
      exact ⟨rfl, hrs⟩

theorem LVal.told : ∀ l : LVal, Told LVal.tokens (Follow 8) l
  | .mk ident none => by
    intro b r s hr hs htok
    rcases b with ⟨ident', _ | f⟩
    · simp only [LVal.tokens_eq, identToken, subscriptTokens, List.cons_append, List.nil_append, List.cons.injEq,
        Token.mk.injEq, true_and] at htok
      exact ⟨by rw [htok.1], htok.2⟩
    · simp only [LVal.tokens_eq, subscriptTokens, subscript, List.cons_append, List.nil_append, List.cons.injEq] at htok
      rw [htok.2] at hr
      exact absurd (below_cons.mp hr) (by decide)
  | .mk ident (some e) => by
    intro b r s hr hs htok
    rcases b with ⟨ident', _ | f⟩
    · simp only [LVal.tokens_eq, subscriptTokens, subscript, List.cons_append, List.nil_append, List.cons.injEq] at htok
      rw [← htok.2] at hs
      exact absurd (below_cons.mp hs) (by decide)
    · simp only [LVal.tokens_eq, identToken, subscriptTokens, subscript, List.cons_append, List.append_assoc,
        List.nil_append, List.cons.injEq, Token.mk.injEq, true_and] at htok
      obtain ⟨rfl, htok⟩ := htok
      obtain ⟨rfl, hrs⟩ := e.told f _ _ (follow_rightSqrBr (by decide) r) (follow_rightSqrBr (by decide) s) htok
      exact ⟨rfl, (List.cons.inj hrs).2⟩

end

/-! ### Declarations -/

theorem subscript_told (sub : Option Exp) : Told subscriptTokens (Follow 8) sub := by
  intro sub' r s hr hs htok
  have hl := LVal.told (.mk "" sub) (.mk "" sub') r s hr hs (by simpa [LVal.tokens_eq] using htok)
  exact ⟨(LVal.mk.inj hl.1).2, hl.2⟩

theorem follow_rightBrace {k : Nat} (h : 0 < k) (r : List Token) : Follow k (RightBrace.token :: r) := below_cons.mpr h

theorem follow_semiColon {k : Nat} (h : 0 < k) (r : List Token) : Follow k (SemiColon.token :: r) := below_cons.mpr h

theorem InitVal.told (v : InitVal) : Told InitVal.tokens (Follow 2) v := by
  intro w r s hr hs htok
  rcases v with e | (_ | ⟨e, es⟩) | text
  · simp only [InitVal.tokens] at htok
    rcases w with f | (_ | ⟨f, fs⟩) | text'
    · obtain ⟨rfl, hrs⟩ := e.told f r s hr hs htok
      exact ⟨rfl, hrs⟩
    · exact absurd (e.starts.head htok) (by decide)
    · exact absurd (e.starts.head htok) (by decide)
    · exact absurd (e.starts.head htok) (by simp [startsExp])
  · rcases w with f | (_ | ⟨f, fs⟩) | text' <;>
      simp only [InitVal.tokens, List.cons_append, List.append_assoc, List.nil_append] at htok
    · exact absurd (f.starts.head htok.symm) (by decide)
    · exact ⟨rfl, (List.cons.inj (List.cons.inj htok).2).2⟩
    · exact absurd (f.starts.head (List.cons.inj htok).2.symm) (by decide)
    · cases (List.cons.inj htok).1
  · rcases w with f | (_ | ⟨f, fs⟩) | text' <;>
      simp only [InitVal.tokens, expsTail_eq, List.cons_append, List.append_assoc, List.nil_append] at htok
    · exact absurd (f.starts.head htok.symm) (by decide)
    · exact absurd (e.starts.head (List.cons.inj htok).2) (by decide)
    · obtain ⟨hp, hrs⟩ := commas_told e.told (exps_told es) (f, fs) (RightBrace.token :: r) (RightBrace.token :: s)
        (follow_rightBrace (by decide) r) (follow_rightBrace (by decide) s) (by simpa using htok)
      cases hp
      exact ⟨rfl, (List.cons.inj hrs).2⟩
    · cases (List.cons.inj htok).1
  · rcases w with f | (_ | ⟨f, fs⟩) | text' <;>
      simp only [InitVal.tokens, List.cons_append, List.append_assoc, List.nil_append] at htok
    · exact absurd (f.starts.head htok.symm) (by simp [startsExp])
    · cases (List.cons.inj htok).1
    · cases (List.cons.inj htok).1
    · simp only [List.cons.injEq, Token.mk.injEq, true_and] at htok
      exact ⟨by rw [htok.1], htok.2⟩

theorem init_told (v : Option InitVal) : Told initTokens (Follow 2) v := by
  intro w r s hr hs htok
  rcases v with _ | v <;> rcases w with _ | w
  · exact ⟨rfl, htok⟩
  · rw [initTokens, List.nil_append] at htok
    rw [htok] at hr
    exact absurd (below_cons.mp hr) (by decide)
  · rw [initTokens, initTokens, List.nil_append] at htok
    rw [← htok] at hs
    exact absurd (below_cons.mp hs) (by decide)
  · obtain ⟨rfl, hrs⟩ := v.told w r s hr hs (List.cons.inj htok).2
    exact ⟨rfl, hrs⟩

theorem follow_assign (r : List Token) : Follow 8 (Assign.token :: r) := below_cons.mpr (by decide)

theorem follow_init (v : Option InitVal) (r : List Token) (h : Follow 2 r) : Follow 8 (initTokens v ++ r) := by
  rcases v with _ | v
  · intro tok htok
    have := h tok htok
    omega
  · exact follow_assign _

/-- The tokens of a definition, with or without a `const`. -/
def defTokens (d : String × Option Exp × Option InitVal) : List Token :=
  identToken d.1 :: (subscriptTokens d.2.1 ++ initTokens d.2.2)

theorem def_told (d : String × Option Exp × Option InitVal) : Told defTokens (Follow 2) d := by
  intro d' r s hr hs htok
  obtain ⟨hident, htok⟩ := List.cons.inj htok
  obtain ⟨hp, hrs⟩ := Told.append (p := d.2) (subscript_told d.2.1) (init_told d.2.2) follow_init d'.2 r s hr hs htok
  exact ⟨Prod.ext (Token.mk.inj hident).2 hp, hrs⟩

theorem ConstDef.told (d : ConstDef) : Told ConstDef.tokens (Follow 2) d :=
  .of_injective (f := fun d : ConstDef => (d.ident, d.exp, some d.initVal)) (by rintro ⟨⟩ ⟨⟩ h; simpa using h)
    (fun d => by simp [ConstDef.tokens, defTokens, initTokens]) (def_told _)

theorem VarDef.told (d : VarDef) : Told VarDef.tokens (Follow 2) d :=
  .of_injective (f := fun d : VarDef => (d.ident, d.exp, d.initVal)) (by rintro ⟨⟩ ⟨⟩ h; simpa using h)
    (fun d => by simp [VarDef.tokens, defTokens]) (def_told _)

theorem bTypeToken_injective {t t' : BType} (h : bTypeToken t = bTypeToken t') : t = t' := by
  cases t <;> cases t' <;> simp [bTypeToken] at h ⊢

/-- Definitions up to the semicolon. -/
theorem defs_told {α : Type} {tokens : α → List Token} (h : ∀ x, Told tokens (Follow 2) x) (x : α) (xs : List α) :
    Told (fun p : α × List α => tokens p.1 ++ commaTail tokens p.2 ++ [SemiColon.token]) (fun _ => True) (x, xs) := by
  intro p r s _ _ htok
  simp only [List.append_assoc, List.singleton_append] at htok
  obtain ⟨hp, hrs⟩ := commas_told (h x) (fun y _ => h y) p (SemiColon.token :: r) (SemiColon.token :: s)
    (follow_semiColon (by decide) r) (follow_semiColon (by decide) s) (by simpa using htok)
  exact ⟨hp, (List.cons.inj hrs).2⟩

theorem Decl.told (d : Decl) : Told Decl.tokens (fun _ => True) d := by
  intro d' r s hr hs htok
  rcases d with ⟨t, x, xs⟩ | ⟨t, x, xs⟩ <;> rcases d' with ⟨t', y, ys⟩ | ⟨t', y, ys⟩ <;>
    simp only [Decl.tokens, ConstDecl.tokens, VarDecl.tokens, List.cons_append, List.cons.injEq] at htok
  · obtain ⟨hp, hrs⟩ := defs_told ConstDef.told x xs (y, ys) r s hr hs htok.2.2
    cases hp
    exact ⟨by rw [bTypeToken_injective htok.2.1], hrs⟩
  · cases t' <;> cases htok.1
  · cases t <;> cases htok.1
  · obtain ⟨hp, hrs⟩ := defs_told VarDef.told x xs (y, ys) r s hr hs htok.2
    cases hp
    exact ⟨by rw [bTypeToken_injective htok.1], hrs⟩

/-! ### Statements -/

/-- What tells the kind of a statement from the type of its first token: an assignment is like an expression here. -/
def stmtKey (t : TokenType) : TokenType := if startsExp t || t == .SemiColon then .Ident else t

/-- The token that a statement begins with, unless it begins with an expression. -/
def Stmt.key : Stmt → TokenType
  | .ret _ => .Return
  | .assign .. | .exp _ => .Ident
  | .block _ => .LeftBrace
  | .ifStmt .. => .If
  | .whileStmt .. => .While
  | .continueStmt => .Continue
  | .breakStmt => .Break

theorem Starts.stmtKey {xs : List Token} (h : Starts startsExp xs) : Starts (fun t => stmtKey t == .Ident) xs := by
  obtain ⟨tok, ts, rfl, hp⟩ := h
  exact ⟨tok, ts, rfl, by simp [Tree.stmtKey, hp]⟩

theorem Stmt.starts (s : Stmt) : Starts (fun t => stmtKey t == s.key) s.tokens := by
  rcases s with e | ⟨l, e⟩ | (_ | e) | ⟨⟨items⟩⟩ | ⟨e, s, _ | t⟩ | ⟨e, s⟩ | _ | _ <;> rw [Stmt.tokens]
  · exact ⟨_, _, rfl, rfl⟩
  · exact l.starts.stmtKey.append.append
  · exact ⟨_, _, rfl, rfl⟩
  · exact e.starts.stmtKey.append
  · rw [Block.tokens]
    exact ⟨_, _, rfl, rfl⟩
  · exact ⟨_, _, rfl, rfl⟩
  · exact ⟨_, _, rfl, rfl⟩
  · exact ⟨_, _, rfl, rfl⟩
  · exact ⟨_, _, rfl, rfl⟩
  · exact ⟨_, _, rfl, rfl⟩

/-- Statements with the same tokens are of one kind. -/
theorem Stmt.key_eq {s t : Stmt} {r r' : List Token} (h : s.tokens ++ r = t.tokens ++ r') : s.key = t.key := by
  obtain ⟨tok, ts, htok, hs⟩ := s.starts
  rw [htok] at h
  exact (beq_iff_eq.mp hs).symm.trans (beq_iff_eq.mp (t.starts.head h.symm))

/-- Quiet tokens end where the first other one stands. -/
theorem Quiet.split {xs ys r s : List Token} {a b : Token} (hx : Quiet xs) (hy : Quiet ys)
    (ha : L24.quiet a.type = false) (hb : L24.quiet b.type = false) (h : xs ++ a :: r = ys ++ b :: s) : a = b := by
  induction xs generalizing ys with
  | nil =>
    cases ys with
    | nil => exact (List.cons.inj h).1
    | cons y ys =>
      have hq := (List.forall_mem_cons.mp hy).1
      rw [← (List.cons.inj h).1, ha] at hq
      cases hq
  | cons x xs ih =>
    cases ys with
    | nil =>
      have hq := (List.forall_mem_cons.mp hx).1
      rw [(List.cons.inj h).1, hb] at hq
      cases hq
    | cons y ys =>
      exact ih (List.forall_mem_cons.mp hx).2 (List.forall_mem_cons.mp hy).2 (List.cons.inj h).2

/-- An assignment is no expression statement. -/
theorem assign_ne_exp {l : LVal} {e : Option Exp} {r s : List Token}
    (h : l.tokens ++ Assign.token :: r = expTokens e ++ SemiColon.token :: s) : False := by
  cases Quiet.split l.quiet (quiet_expTokens e) rfl rfl h

theorem exp?_told (e : Option Exp) : Told expTokens (fun r => ∃ r', r = SemiColon.token :: r') e := by
  rintro f _ _ ⟨r, rfl⟩ ⟨s, rfl⟩ htok
  rcases e with _ | e <;> rcases f with _ | f
  · exact ⟨rfl, htok⟩
  · exact absurd (f.starts.head htok.symm) (by decide)
  · exact absurd (e.starts.head htok) (by decide)
  · obtain ⟨rfl, hrs⟩ := e.told f _ _ (follow_semiColon (by decide) r) (follow_semiColon (by decide) s) htok
    exact ⟨rfl, hrs⟩

/-- An expression in parentheses and what follows it. -/
theorem parens_told {e f : Exp} {r s : List Token} (h : parens e.tokens ++ r = parens f.tokens ++ s) :
    e = f ∧ r = s := by
  simp only [parens, List.cons_append, List.append_assoc, List.nil_append, List.cons.injEq, true_and] at h
  obtain ⟨rfl, hrs⟩ := e.told f _ _ (follow_rightParen (by decide) r) (follow_rightParen (by decide) s) h
  exact ⟨rfl, (List.cons.inj hrs).2⟩

theorem itemsTokens_eq (items : List BlockItem) : itemsTokens items = items.flatMap BlockItem.tokens := by
  induction items with
  | nil => rfl
  | cons item items ih => rw [itemsTokens, ih]; rfl

theorem Decl.starts (d : Decl) : Starts (fun t => t == .Const || t == .Int) d.tokens := by
  rcases d with ⟨t, x, xs⟩ | ⟨t, x, xs⟩
  · exact ⟨_, _, rfl, rfl⟩
  · exact ⟨_, _, rfl, by cases t <;> rfl⟩

/-- A statement starts with no `}` and with no token of a declaration. -/
theorem Stmt.key_ne (s : Stmt) : s.key ≠ .RightBrace ∧ s.key ≠ .Const ∧ s.key ≠ .Int := by
  cases s <;> simp [key]

theorem decl_ne_stmt {d : Decl} {s : Stmt} {r r' : List Token} (h : d.tokens ++ r = s.tokens ++ r') : False := by
  obtain ⟨tok, ts, htok, hd⟩ := d.starts
  rw [htok] at h
  have hs := beq_iff_eq.mp (s.starts.head h.symm)
  obtain ⟨-, hconst, hint⟩ := s.key_ne
  simp only [Bool.or_eq_true, beq_iff_eq] at hd
  rcases hd with hd | hd <;> rw [hd] at hs
  · exact hconst hs.symm
  · exact hint hs.symm

theorem BlockItem.starts (item : BlockItem) : ∃ tok ts, item.tokens = tok :: ts ∧ tok ≠ RightBrace.token := by
  rcases item with d | s
  · obtain ⟨tok, ts, htok, hd⟩ := d.starts
    refine ⟨tok, ts, htok, ?_⟩
    rintro rfl
    cases hd
  · obtain ⟨tok, ts, htok, hs⟩ := s.starts
    refine ⟨tok, ts, htok, ?_⟩
    rintro rfl
    exact s.key_ne.1 (beq_iff_eq.mp hs).symm

/-- Items up to the brace that ends them. -/
theorem items_told_of {items : List BlockItem} (h : ∀ item ∈ items, Told BlockItem.tokens (fun _ => True) item) :
    Told itemsTokens (fun r => ∃ r', r = RightBrace.token :: r') items := by
  refine Told.of_injective (f := fun items => items) (fun _ _ h => h) itemsTokens_eq ?_
  refine Told.flatMap (S := fun tok => tok ≠ RightBrace.token) BlockItem.starts ?_ (fun _ _ => trivial)
    (fun _ _ _ => trivial) h
  rintro tok r ⟨r', hr⟩ htok
  exact htok (List.cons.inj hr).1

mutual

theorem Stmt.told : ∀ s : Stmt, Told Stmt.tokens (fun _ => True) s
  | .ret e => by
    intro t r r' _ _ htok
    -- The first token leaves only statements of the same kind, and an assignment or an expression for each other.
    have hkey := Stmt.key_eq htok
    cases t with
    | ret f =>
      simp only [Stmt.tokens, List.cons_append, List.append_assoc, List.nil_append, List.cons.injEq, true_and] at htok
      obtain ⟨rfl, hrs⟩ := exp?_told e f _ _ ⟨r, rfl⟩ ⟨r', rfl⟩ htok
      exact ⟨rfl, (List.cons.inj hrs).2⟩
    | _ => cases hkey
  | .assign l e => by
    intro t r r' _ _ htok
    have hkey := Stmt.key_eq htok
    cases t with
    | assign l' f =>
      simp only [Stmt.tokens, List.cons_append, List.append_assoc, List.nil_append] at htok
      obtain ⟨rfl, hrest⟩ := l.told l' _ _ (follow_assign _) (follow_assign _) htok
      obtain ⟨rfl, hrs⟩ := e.told f _ _ (follow_semiColon (by decide) r) (follow_semiColon (by decide) r')
        (List.cons.inj hrest).2
      exact ⟨rfl, (List.cons.inj hrs).2⟩
    | exp f =>
      simp only [Stmt.tokens, List.cons_append, List.append_assoc, List.nil_append] at htok
      -- Only a name can stand in front of `=`.
      exact (assign_ne_exp htok).elim
    | _ => cases hkey
  | .exp e => by
    intro t r r' _ _ htok
    have hkey := Stmt.key_eq htok
    cases t with
    | assign l' f =>
      simp only [Stmt.tokens, List.cons_append, List.append_assoc, List.nil_append] at htok
      exact (assign_ne_exp htok.symm).elim
    | exp f =>
      simp only [Stmt.tokens, List.append_assoc, List.cons_append, List.nil_append] at htok
      obtain ⟨rfl, hrs⟩ := exp?_told e f _ _ ⟨r, rfl⟩ ⟨r', rfl⟩ htok
      exact ⟨rfl, (List.cons.inj hrs).2⟩
    | _ => cases hkey
  | .block b => by
    intro t r r' hr hr' htok
    have hkey := Stmt.key_eq htok
    cases t with
    | block c =>
      rw [Stmt.tokens, Stmt.tokens] at htok
      obtain ⟨rfl, hrs⟩ := b.told c r r' hr hr' htok
      exact ⟨rfl, hrs⟩
    | _ => cases hkey
  | .ifStmt e s none => by
    intro t r r' _ _ htok
    have hkey := Stmt.key_eq htok
    cases t with
    | ifStmt f t u =>
      rcases u with _ | u <;>
        simp only [Stmt.tokens, List.cons_append, List.append_assoc, List.nil_append, List.cons.injEq, true_and] at htok
      · obtain ⟨rfl, hthen⟩ := parens_told htok
        obtain ⟨rfl, hrs⟩ := s.told t _ _ trivial trivial (List.cons.inj hthen).2
        exact ⟨rfl, (List.cons.inj hrs).2⟩
      · obtain ⟨rfl, hthen⟩ := parens_told htok
        obtain ⟨rfl, hrs⟩ := s.told t _ _ trivial trivial (List.cons.inj hthen).2
        -- One goes on with `end`, the other one with `else`.
        cases (List.cons.inj hrs).1
    | _ => cases hkey
  | .ifStmt e s (some s') => by
    intro t r r' _ _ htok
    have hkey := Stmt.key_eq htok
    cases t with
    | ifStmt f t u =>
      rcases u with _ | u <;>
        simp only [Stmt.tokens, List.cons_append, List.append_assoc, List.nil_append, List.cons.injEq, true_and] at htok
      · obtain ⟨rfl, hthen⟩ := parens_told htok
        obtain ⟨rfl, hrs⟩ := s.told t _ _ trivial trivial (List.cons.inj hthen).2
        cases (List.cons.inj hrs).1
      · obtain ⟨rfl, hthen⟩ := parens_told htok
        obtain ⟨rfl, helse⟩ := s.told t _ _ trivial trivial (List.cons.inj hthen).2
        obtain ⟨rfl, hrs⟩ := s'.told u _ _ trivial trivial (List.cons.inj helse).2
        exact ⟨rfl, (List.cons.inj hrs).2⟩
    | _ => cases hkey
  | .whileStmt e s => by
    intro t r r' hr hr' htok
    have hkey := Stmt.key_eq htok
    cases t with
    | whileStmt f t =>
      simp only [Stmt.tokens, List.cons_append, List.append_assoc, List.cons.injEq, true_and] at htok
      obtain ⟨rfl, hbody⟩ := parens_told htok
      obtain ⟨rfl, hrs⟩ := s.told t r r' hr hr' hbody
      exact ⟨rfl, hrs⟩
    | _ => cases hkey
  | .continueStmt => by
    intro t r r' _ _ htok
    have hkey := Stmt.key_eq htok
    cases t with
    | continueStmt => exact ⟨rfl, List.append_cancel_left htok⟩
    | _ => cases hkey
  | .breakStmt => by
    intro t r r' _ _ htok
    have hkey := Stmt.key_eq htok
    cases t with
    | breakStmt => exact ⟨rfl, List.append_cancel_left htok⟩
    | _ => cases hkey

theorem Block.told : ∀ b : Block, Told Block.tokens (fun _ => True) b
  | .mk items => by
    rintro ⟨items'⟩ r r' _ _ htok
    simp only [Block.tokens, List.cons_append, List.append_assoc, List.nil_append, List.cons.injEq, true_and] at htok
    obtain ⟨rfl, hrs⟩ := items_told_of (items_told items) items' _ _ ⟨r, rfl⟩ ⟨r', rfl⟩ htok
    exact ⟨rfl, (List.cons.inj hrs).2⟩

theorem items_told : ∀ items : List BlockItem, ∀ item ∈ items, Told BlockItem.tokens (fun _ => True) item
  | [] => by simp
  | item :: items => List.forall_mem_cons.mpr ⟨item.told, items_told items⟩

theorem BlockItem.told : ∀ item : BlockItem, Told BlockItem.tokens (fun _ => True) item
  | .decl d => by
    intro item r r' hr hr' htok
    rcases item with d' | s'
    · obtain ⟨rfl, hrs⟩ := d.told d' r r' hr hr' htok
      exact ⟨rfl, hrs⟩
    · exact (decl_ne_stmt htok).elim
  | .stmt s => by
    intro item r r' hr hr' htok
    rcases item with d' | s'
    · exact (decl_ne_stmt htok.symm).elim
    · obtain ⟨rfl, hrs⟩ := s.told s' r r' hr hr' htok
      exact ⟨rfl, hrs⟩

end

/-! ### Programs -/

theorem FuncFParam.told (p : FuncFParam) : Told FuncFParam.tokens (Follow 2) p := by
  intro q r s hr hs htok
  rcases p with ⟨t, ident, _ | _⟩ <;> rcases q with ⟨t', ident', _ | _⟩ <;>
    simp only [FuncFParam.tokens, identToken, subscript, Bool.false_eq_true, if_true, if_false, List.cons_append,
      List.nil_append, List.cons.injEq, Token.mk.injEq, true_and] at htok
  · obtain ⟨htype, rfl, hrs⟩ := htok
    exact ⟨by rw [bTypeToken_injective htype], hrs⟩
  · rw [htok.2.2] at hr
    exact absurd (below_cons.mp hr) (by decide)
  · rw [← htok.2.2] at hs
    exact absurd (below_cons.mp hs) (by decide)
  · obtain ⟨htype, rfl, hrs⟩ := htok
    exact ⟨by rw [bTypeToken_injective htype], hrs⟩

theorem FuncFParams.starts (ps : FuncFParams) : Starts (· == .Int) ps.tokens := by
  rcases ps with ⟨⟨t, ident, a⟩, ps⟩
  exact ⟨_, _, rfl, by cases t <;> rfl⟩

theorem params_told (ps : Option FuncFParams) : Told paramTokens (fun r => ∃ r', r = RightParen.token :: r') ps := by
  rintro qs _ _ ⟨r, rfl⟩ ⟨s, rfl⟩ htok
  rcases ps with _ | ⟨p, ps⟩ <;> rcases qs with _ | ⟨q, qs⟩
  · exact ⟨rfl, htok⟩
  · exact absurd ((FuncFParams.mk q qs).starts.head htok.symm) (by decide)
  · exact absurd ((FuncFParams.mk p ps).starts.head htok) (by decide)
  · obtain ⟨hp, hrs⟩ := commas_told p.told (fun x _ => x.told) (q, qs) _ _ (follow_rightParen (by decide) r)
      (follow_rightParen (by decide) s) htok
    cases hp
    exact ⟨rfl, hrs⟩

theorem funcTypeToken_injective {t t' : Option BType} (h : funcTypeToken t = funcTypeToken t') : t = t' := by
  rcases t with _ | _ | _ <;> rcases t' with _ | _ | _ <;> simp [funcTypeToken, bTypeToken, TokenType.token] at h ⊢

theorem Func.told (f : Func) : Told Func.tokens (fun _ => True) f := by
  intro g r s hr hs htok
  rcases f with ⟨t, ident, ps, b⟩
  rcases g with ⟨t', ident', qs, c⟩
  simp only [Func.tokens, parens, identToken, List.cons_append, List.append_assoc, List.nil_append, List.cons.injEq,
    Token.mk.injEq, true_and] at htok
  obtain ⟨htype, rfl, hparams⟩ := htok
  obtain ⟨rfl, hblock⟩ := params_told ps qs _ _ ⟨_, rfl⟩ ⟨_, rfl⟩ hparams
  obtain ⟨rfl, hrs⟩ := b.told c r s hr hs (List.cons.inj hblock).2
  exact ⟨by rw [funcTypeToken_injective htype], hrs⟩

/-- The third token of a function is a `(`, that of a declaration is not. -/
theorem decl_ne_func {d : Decl} {f : Func} {r s : List Token} (h : d.tokens ++ r = f.tokens ++ s) : False := by
  rcases f with ⟨t, ident, ps, b⟩
  rcases d with ⟨t', x, xs⟩ | ⟨t', ⟨ident', sub, init⟩, xs⟩
  · rcases t with _ | _ | _ <;> cases (List.cons.inj h).1
  · have hthird := (List.cons.inj (List.cons.inj h).2).2
    rcases sub with _ | e <;> rcases init with _ | v <;> rcases xs with _ | ⟨x, xs⟩ <;> cases (List.cons.inj hthird).1

/-- A declaration or a function of a program. -/
inductive Item
  | decl (decl : Decl)
  | func (func : Func)

/-- The tokens of an item. -/
def Item.tokens : Item → List Token
  | .decl d => d.tokens
  | .func f => f.tokens

/-- The items of a program, in source order. -/
def Program.items : Program → List Item
  | .decl d => [.decl d]
  | .func f => [.func f]
  | .progDecl p d => p.items ++ [.decl d]
  | .progFunc p f => p.items ++ [.func f]

theorem Item.told (item : Item) : Told Item.tokens (fun _ => True) item := by
  intro item' r s hr hs htok
  rcases item with d | f <;> rcases item' with d' | f'
  · obtain ⟨rfl, hrs⟩ := d.told d' r s hr hs htok
    exact ⟨rfl, hrs⟩
  · exact (decl_ne_func htok).elim
  · exact (decl_ne_func htok.symm).elim
  · obtain ⟨rfl, hrs⟩ := f.told f' r s hr hs htok
    exact ⟨rfl, hrs⟩

theorem Item.starts (item : Item) : ∃ tok ts, item.tokens = tok :: ts ∧ startsItem tok.type = true := by
  rcases item with d | ⟨t, ident, ps, b⟩
  · obtain ⟨tok, ts, htok, hd⟩ := d.starts
    refine ⟨tok, ts, htok, ?_⟩
    simp only [Bool.or_eq_true, beq_iff_eq] at hd
    rcases hd with hd | hd <;> rw [hd] <;> rfl
  · exact ⟨_, _, rfl, by rcases t with _ | _ | _ <;> rfl⟩

theorem Program.tokens_items (p : Program) : p.tokens = p.items.flatMap Item.tokens := by
  induction p with
  | decl d => simp [tokens, items, Item.tokens]
  | func f => simp [tokens, items, Item.tokens]
  | progDecl p d ih => simp [tokens, items, Item.tokens, ih]
  | progFunc p f ih => simp [tokens, items, Item.tokens, ih]

theorem Program.items_ne_nil (p : Program) : p.items ≠ [] := by cases p <;> simp [items]

theorem Program.singleton_ne (p : Program) (x y : Item) : [x] ≠ p.items ++ [y] := by
  obtain ⟨z, zs, hz⟩ := List.exists_cons_of_ne_nil p.items_ne_nil
  simp [hz]

theorem Program.items_injective (p q : Program) (h : p.items = q.items) : p = q := by
  induction p generalizing q with
  | decl d =>
    cases q with
    | decl e => rw [Item.decl.inj (List.cons.inj h).1]
    | func g => cases h
    | progDecl q e => exact absurd h (q.singleton_ne _ _)
    | progFunc q g => exact absurd h (q.singleton_ne _ _)
  | func f =>
    cases q with
    | decl e => cases h
    | func g => rw [Item.func.inj (List.cons.inj h).1]
    | progDecl q e => exact absurd h (q.singleton_ne _ _)
    | progFunc q g => exact absurd h (q.singleton_ne _ _)
  | progDecl p d ih =>
    cases q with
    | decl e => exact absurd h.symm (p.singleton_ne _ _)
    | func g => exact absurd h.symm (p.singleton_ne _ _)
    | progDecl q e =>
      obtain ⟨hpq, hde⟩ := List.append_inj' h rfl
      rw [ih q hpq, Item.decl.inj (List.cons.inj hde).1]
    | progFunc q g => cases (List.append_inj' h rfl).2
  | progFunc p f ih =>
    cases q with
    | decl e => exact absurd h.symm (p.singleton_ne _ _)
    | func g => exact absurd h.symm (p.singleton_ne _ _)
    | progDecl q e => cases (List.append_inj' h rfl).2
    | progFunc q g =>
      obtain ⟨hpq, hfg⟩ := List.append_inj' h rfl
      rw [ih q hpq, Item.func.inj (List.cons.inj hfg).1]

theorem Program.told (p : Program) : Told Program.tokens (fun r => r = []) p := by
  refine .of_injective items_injective tokens_items ?_
  refine Told.flatMap (G := fun _ => True) (S := fun tok => startsItem tok.type = true) Item.starts ?_
    (fun _ _ => trivial) (fun _ _ _ => trivial) (fun item _ => item.told)
  intro tok r hr
  cases hr

/-- Each sequence of tokens has at most one parse tree. -/
theorem Entry.unambiguous (toks : List Token) (t t' : Entry) (h : t.tokens = toks) (h' : t'.tokens = toks) :
    t = t' := by
  rcases t with ⟨p⟩
  rcases t' with ⟨q⟩
  have htok : p.tokens ++ [] = q.tokens ++ [] := by
    rw [List.append_nil, List.append_nil]
    exact h.trans h'.symm
  rw [(p.told q [] [] rfl rfl htok).1]

/-- `int f(){if(a)then if(b)then c=` ... `; else f(); end end}` -/
def nestedIf (value : AddExp) : Entry :=
  let exp (e : AddExp) : Exp := .mk (.lAndExp (.eqExp (.relExp (.addExp e))))
  let operand (e : UnaryExp) : Exp := exp (.mulExp (.unaryExp e))
  let name (x : String) : Exp := operand (.primaryExp (.lVal (.mk x none)))
  let inner : Stmt := .ifStmt (name "b") (.assign (.mk "c" none) (exp value))
    (some (.exp (some (operand (.call "f" none)))))
  ⟨.func ⟨some .int, "f", none, .mk [.stmt (.ifStmt (name "a") inner none)]⟩⟩

def nestedIfTokens (value : List Token) : List Token :=
  [bTypeToken .int, identToken "f", LeftParen.token, RightParen.token, LeftBrace.token, If.token, LeftParen.token,
    identToken "a", RightParen.token, Then.token, If.token, LeftParen.token, identToken "b", RightParen.token,
    Then.token,
    identToken "c", Assign.token] ++ value ++ [SemiColon.token, Else.token, identToken "f", LeftParen.token,
    RightParen.token, SemiColon.token, End.token, End.token, RightBrace.token]

def numberExp (text : String) : MulExp := .unaryExp (.primaryExp (.number text))

/-- `1-2-3` groups to the left. -/
theorem nestedIf_unambiguous :
    nestedIf (addLayer.ofOperands (numberExp "1", [(.minus, numberExp "2"), (.minus, numberExp "3")])) =
      nestedIf (.minus (.minus (.mulExp (numberExp "1")) (numberExp "2")) (numberExp "3")) :=
  Entry.unambiguous (nestedIfTokens
    [⟨.IntLiteral, "1"⟩, Minus.token, ⟨.IntLiteral, "2"⟩, Minus.token, ⟨.IntLiteral, "3"⟩])
    _ _ (by decide +kernel) (by decide +kernel)

end L24.Tree
