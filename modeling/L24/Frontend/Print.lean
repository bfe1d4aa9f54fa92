import L24.Frontend.Literals
import L24.Frontend.Spelling

/-! Printing the syntax tree back to tokens by the rules of the grammar, and what the builder loses: leading zeros, the
    keyword of an array parameter, and the difference between an empty string and an empty list. -/

namespace L24
open L24.Tree TokenType

/-! ### Printing -/

/-- `"..."` with the given bytes. -/
def quoted (bytes : List (BitVec 8)) : String :=
  let chars := ((bytes.map UInt8.ofBitVec).toByteArray.utf8Decode?).getD #[]
  String.ofList ('"' :: chars.toList ++ ['"'])

/-- A string literal. The empty string is the same node as an empty list, and prints as one. -/
def printString (bytes : List (BitVec 8)) : List Token :=
  if bytes = [] then [LeftBrace.token, RightBrace.token] else [⟨.StringLiteral, quoted bytes⟩]

/-- A number in decimal digits. -/
def NumberNode.print (n : NumberNode) : List Token := [⟨.IntLiteral, toString n.intLiteral.toNat⟩]

/-- The token of an operator. -/
def EqOp.token : EqOp → Token
  | .eq => TokenType.Eq.token
  | .notEq => NotEq.token

def RelOp.token : RelOp → Token
  | .less => Less.token
  | .greater => Greater.token
  | .lessEq => LessEq.token
  | .greaterEq => GreaterEq.token

def AddOp.token : AddOp → Token
  | .plus => Plus.token
  | .minus => Minus.token

def MulOp.token : MulOp → Token
  | .star => Star.token
  | .slash => Slash.token
  | .percentage => Percentage.token

mutual

/-- The tokens of a tree, one function for each node class. -/
def ExprNode.print : ExprNode → List Token
  | .mk e => e.print

def LorExprNode.print : LorExprNode → List Token
  | .land e => e.print
  | .lor a b => a.print ++ LogicalOr.token :: b.print

def LandExprNode.print : LandExprNode → List Token
  | .eq e => e.print
  | .land a b => a.print ++ LogicalAnd.token :: b.print

def EqExprNode.print : EqExprNode → List Token
  | .rel e => e.print
  | .eq op a b => a.print ++ op.token :: b.print

def RelExprNode.print : RelExprNode → List Token
  | .add e => e.print
  | .rel op a b => a.print ++ op.token :: b.print

def AddExprNode.print : AddExprNode → List Token
  | .mul e => e.print
  | .add op a b => a.print ++ op.token :: b.print

def MulExprNode.print : MulExprNode → List Token
  | .unary e => e.print
  | .mul op a b => a.print ++ op.token :: b.print

def UnaryExprNode.print : UnaryExprNode → List Token
  | .primary e => e.print
  | .unary op e => unaryOpToken op :: e.print
  | .call f args => identToken f :: parens (printExps args)

def PrimExprNode.print : PrimExprNode → List Token
  | .expr e => parens e.print
  | .number n => n.print
  | .lVal l => l.print

def LValNode.print : LValNode → List Token
  | .mk ident none => [identToken ident]
  | .mk ident (some e) => identToken ident :: subscript e.print

/-- `(exp (',' exp)*)?`. -/
def printExps : List ExprNode → List Token
  | [] => []
  | e :: es => e.print ++ printExpsTail es

/-- The expressions behind the first one, each behind a comma. -/
def printExpsTail : List ExprNode → List Token
  | [] => []
  | e :: es => Comm.token :: e.print ++ printExpsTail es

end

/-- An expression, if there is one. -/
def printExp? : Option ExprNode → List Token
  | none => []
  | some e => e.print

/-- A subscript in brackets, if there is one. -/
def printSubscript : Option ExprNode → List Token
  | none => []
  | some e => subscript e.print

/-- An initialiser; a string between quotes again. -/
def InitValNode.print : InitValNode → List Token
  | .exp e => e.print
  | .list es => LeftBrace.token :: printExps es ++ [RightBrace.token]
  | .string bytes => printString bytes

def ConstDefNode.print (d : ConstDefNode) : List Token :=
  identToken d.ident :: printSubscript d.exp ++ Assign.token :: d.initVal.print

/-- An initialiser behind `=`, if there is one. -/
def printInit : Option InitValNode → List Token
  | none => []
  | some v => Assign.token :: v.print

def VarDefNode.print (d : VarDefNode) : List Token := identToken d.ident :: printSubscript d.exp ++ printInit d.initVal

/-- `x (',' x)*`. -/
def commaList {α : Type} (print : α → List Token) : List α → List Token
  | [] => []
  | x :: xs => print x ++ commaTail print xs

def DeclNode.print : DeclNode → List Token
  | .constDecl d =>
    TokenType.Const.token :: bTypeToken d.bType :: commaList ConstDefNode.print d.constDefs ++ [SemiColon.token]
  | .varDecl d => bTypeToken d.bType :: commaList VarDefNode.print d.varDefs ++ [SemiColon.token]

mutual

/-- A statement. `if` has its `then` and its `end`. -/
def StmtNode.print : StmtNode → List Token
  | .block items => LeftBrace.token :: printItems items ++ [RightBrace.token]
  | .ifStmt e s none => If.token :: parens e.print ++ Then.token :: s.print ++ [End.token]
  | .ifStmt e s (some t) =>
    If.token :: parens e.print ++ Then.token :: s.print ++ Else.token :: t.print ++ [End.token]
  | .whileStmt e s => While.token :: parens e.print ++ s.print
  | .continueStmt => [Continue.token, SemiColon.token]
  | .breakStmt => [Break.token, SemiColon.token]
  | .ret e => Return.token :: printExp? e ++ [SemiColon.token]
  | .expr e => printExp? e ++ [SemiColon.token]
  | .assign x sub e => identToken x :: printSubscript sub ++ Assign.token :: e.print ++ [SemiColon.token]

/-- The items of a block. -/
def printItems : List BlockItemNode → List Token
  | [] => []
  | item :: items => item.print ++ printItems items

def BlockItemNode.print : BlockItemNode → List Token
  | .decl d => d.print
  | .stmt s => s.print

end

def FuncFParamNode.print (p : FuncFParamNode) : List Token :=
  match p.type with
  | .int => [bTypeToken .int, identToken p.ident]
  | .char => [bTypeToken .char, identToken p.ident]
  | .pointer => bTypeToken .int :: identToken p.ident :: subscript []

/-- The keyword of a result type. -/
def FuncType.token : FuncType → Token
  | .int => bTypeToken .int
  | .char => bTypeToken .char
  | .void => Void.token

def FuncNode.print (f : FuncNode) : List Token :=
  f.type.token :: identToken f.ident :: parens (commaList FuncFParamNode.print f.param) ++
    (LeftBrace.token :: printItems f.block ++ [RightBrace.token])

def ProgNode.print : ProgNode → List Token
  | .decl d => d.print
  | .func f => f.print
  | .progDecl p d => p.print ++ d.print
  | .progFunc p f => p.print ++ f.print

/-- The tokens of a program. -/
def EntryNode.print (node : EntryNode) : List Token := node.prog.print

/-! ### Normal forms -/

/-- Decimal digits without leading zeros. -/
def withoutZeros (text : String) : String :=
  match text.toList.dropWhile (· == '0') with
  | [] => "0"
  | cs => String.ofList cs

/-- What a token becomes: a literal loses its leading zeros, and the empty string is `{}`. -/
def Token.normal (k : Token) : List Token :=
  match k.type with
  | .IntLiteral => [⟨.IntLiteral, withoutZeros k.text⟩]
  | .StringLiteral => if k.text = "\"\"" then [LeftBrace.token, RightBrace.token] else [k]
  | _ => [k]

/-- The tokens in the spelling that printing gives them. -/
def normalTokens (toks : List Token) : List Token := toks.flatMap Token.normal

namespace Tree

/-- The function with the keyword `int` in its array parameters. -/
def Func.arraysAsInt (f : Func) : Func :=
    { f with funcFParams := f.funcFParams.map (FuncFParams.map FuncFParam.arrayAsInt) }

/-- The array parameters of all functions with `int`. -/
def Program.arraysAsInt : Program → Program
  | .decl d => .decl d
  | .func f => .func f.arraysAsInt
  | .progDecl p d => .progDecl p.arraysAsInt d
  | .progFunc p f => .progFunc p.arraysAsInt f.arraysAsInt

/-- The same for the whole tree. -/
def Entry.arraysAsInt (e : Entry) : Entry := ⟨e.program.arraysAsInt⟩

end Tree

/-- The text is one that the rule of its type matches. -/
def Token.Lexed (k : Token) : Prop := k.type.matcher k.text.toList = some k.text.toList.length

instance (k : Token) : Decidable k.Lexed := inferInstanceAs (Decidable (_ = _))

/-- A token of the lexer, an `int` if it is an integer literal. -/
structure Token.Fits (k : Token) : Prop where
  lexed : k.Lexed
  small : k.type = .IntLiteral → decimal k.text < 0x80000000

/-! ### Literals -/

section Literals
variable {cs : List Char} {c : Char} {text : String}

theorem digitChar_digit (h : isDigit c = true) :
    c.toNat - '0'.toNat < 10 ∧ Nat.digitChar (c.toNat - '0'.toNat) = c ∧ (c ≠ '0' → 0 < c.toNat - '0'.toNat) := by
  simp only [isDigit, Bool.and_eq_true, decide_eq_true_eq, Char.le_def, UInt32.le_iff_toNat_le] at h
  obtain ⟨hlo, hhi⟩ := h
  have hlo : 48 ≤ c.toNat := hlo
  have hhi : c.toNat ≤ 57 := hhi
  have hzero : '0'.toNat = 48 := rfl
  refine ⟨by omega, ?_, fun hc => ?_⟩
  · refine Char.toNat_inj.mp ?_
    rw [Nat.toNat_digitChar_of_lt_ten (by omega)]
    omega
  · have hne : c.toNat ≠ '0'.toNat := fun h => hc (Char.toNat_inj.mp h)
    omega

/-- The value of decimal digits. -/
def digitsValue (cs : List Char) : Nat := cs.foldl (fun n c => 10 * n + (c.toNat - '0'.toNat)) 0

theorem digitsValue_zero : digitsValue ('0' :: cs) = digitsValue cs := rfl

theorem digitsValue_dropWhile (cs : List Char) : digitsValue (cs.dropWhile (· == '0')) = digitsValue cs := by
  induction cs with
  | nil => rfl
  | cons c cs ih =>
    rw [List.dropWhile_cons]
    split
    · rename_i hc
      obtain rfl := beq_iff_eq.mp hc
      rw [ih, digitsValue_zero]
    · rfl

/-- Digits without a leading zero are what their value prints as. -/
theorem toDigits_digitsValue : ∀ {cs : List Char} {c : Char}, isDigit c = true → c ≠ '0' →
    (∀ d ∈ cs, isDigit d = true) →
    0 < digitsValue (c :: cs) ∧ Nat.toDigits 10 (digitsValue (c :: cs)) = c :: cs := by
  intro cs c hc h0 hcs
  obtain ⟨hlt, hchar, hpos⟩ := digitChar_digit hc
  induction cs using List.reverseRecOn with
  | nil =>
    have hval : digitsValue [c] = c.toNat - '0'.toNat := Nat.zero_add _
    rw [hval, Nat.toDigits_of_lt_base hlt, hchar]
    exact ⟨hpos h0, rfl⟩
  | append_singleton cs d ih =>
    obtain ⟨hcs, hd⟩ := List.forall_mem_append.mp hcs
    obtain ⟨hdlt, hdchar, -⟩ := digitChar_digit (hd d (List.mem_singleton_self d))
    obtain ⟨hp, hdigits⟩ := ih hcs
    have hval : digitsValue (c :: (cs ++ [d])) = 10 * digitsValue (c :: cs) + (d.toNat - '0'.toNat) := by
      rw [← List.cons_append, digitsValue, List.foldl_append]
      rfl
    rw [hval]
    refine ⟨by omega, ?_⟩
    rw [← Nat.toDigits_append_toDigits (by decide) hp hdlt, hdigits, Nat.toDigits_of_lt_base hdlt, hdchar]
    rfl

/-- The digits of an integer literal. -/
theorem Token.Lexed.digits {text : String} (h : Token.Lexed ⟨.IntLiteral, text⟩) :
    ∀ c ∈ text.toList, isDigit c = true := by
  obtain ⟨c, cs, htext, hc, hcs⟩ := @Munch.run_all _ _ isDigit isDigit h
  rw [htext]
  exact List.forall_mem_cons.mpr ⟨hc, hcs⟩

/-- A number prints as its digits without leading zeros. -/
theorem toString_decimal {text : String} (h : Token.Lexed ⟨.IntLiteral, text⟩) :
    toString (decimal text) = withoutZeros text := by
  have hd := h.digits
  have hval : decimal text = digitsValue (text.toList.dropWhile (· == '0')) := (digitsValue_dropWhile _).symm
  rw [hval]
  unfold withoutZeros
  cases hcs : text.toList.dropWhile (· == '0') with
  | nil => rfl
  | cons c cs =>
    have hne : c ≠ '0' := by
      have hhead := List.head?_dropWhile_not (fun c => c == '0') text.toList
      rw [hcs] at hhead
      simpa using hhead
    have hmem : ∀ d ∈ c :: cs, isDigit d = true := fun d hd' => hd d ((List.dropWhile_sublist _).subset (hcs ▸ hd'))
    obtain ⟨hc, hrest⟩ := List.forall_mem_cons.mp hmem
    obtain ⟨-, hdigits⟩ := toDigits_digitsValue hc hne hrest
    show Nat.repr _ = _
    rw [Nat.repr_eq_ofList_toDigits, hdigits]

/-- A string literal is some text between quotes. -/
theorem Token.Lexed.quoted {text : String} (h : Token.Lexed ⟨.StringLiteral, text⟩) :
    ∃ body, text.toList = '"' :: (body ++ ['"']) := by
  obtain ⟨rest, htext, hrest⟩ := Munch.after_all (m := Munch.through ['"']) h
  obtain ⟨body, rfl⟩ := Munch.through_all hrest
  exact ⟨body, htext⟩

/-- The bytes of a literal are those of the text between the quotes. -/
theorem literalBytes_quoted {body : List Char} (h : text.toList = '"' :: (body ++ ['"'])) :
    literalBytes text = (body.flatMap String.utf8EncodeChar).map UInt8.toBitVec := by
  have hquote : String.utf8EncodeChar '"' = [34] := by decide
  unfold literalBytes
  simp [h, hquote]

/-- A string literal prints as itself, and the empty one as an empty list. -/
theorem printString_literalBytes (h : Token.Lexed ⟨.StringLiteral, text⟩) :
    printString (literalBytes text) = Token.normal ⟨.StringLiteral, text⟩ := by
  obtain ⟨body, hbody⟩ := h.quoted
  have hempty : literalBytes text = [] ↔ text = "\"\"" := by
    rw [literalBytes_quoted hbody, ← String.toList_inj, hbody]
    cases body with
    | nil => simp
    | cons c cs => simp [String.utf8EncodeChar_ne_nil]
  unfold printString Token.normal
  simp only [hempty]
  split
  · rfl
  · have hdecode : L24.quoted (literalBytes text) = text := by
      rw [literalBytes_quoted hbody, L24.quoted, ← String.toList_inj, String.toList_ofList, hbody]
      have hbytes : ((body.flatMap String.utf8EncodeChar).map UInt8.toBitVec).map UInt8.ofBitVec =
          body.flatMap String.utf8EncodeChar := by simp [Function.comp_def]
      have hutf8 : (body.flatMap String.utf8EncodeChar).toByteArray = body.utf8Encode := rfl
      simp only [hbytes, hutf8, List.utf8Decode?_utf8Encode, Option.getD_some]
      rfl
    rw [hdecode]

end Literals

/-! ### What is built prints as it was parsed -/

/-- All tokens fit. -/
def Fit (toks : List Token) : Prop := ∀ k ∈ toks, k.Fits

/-- The builder makes something that prints as the tokens. -/
def Prints {α : Type} (m : Build α) (print : α → List Token) (toks : List Token) : Prop :=
  ∃ a, m = .ok a ∧ print a = normalTokens toks

section Prints
variable {α β γ : Type} {m : Build α} {n : Build β} {pa : α → List Token} {pb : β → List Token} {pc : γ → List Token}
  {xs ys zs : List Token} {k : Token}

theorem normalTokens_nil : normalTokens [] = [] := rfl

@[simp] theorem normalTokens_cons : normalTokens (k :: xs) = k.normal ++ normalTokens xs := List.flatMap_cons

@[simp] theorem normalTokens_append : normalTokens (xs ++ ys) = normalTokens xs ++ normalTokens ys :=
    List.flatMap_append

@[simp] theorem normal_token {t : TokenType} (h₁ : t ≠ .IntLiteral) (h₂ : t ≠ .StringLiteral) :
    t.token.normal = [t.token] := by
  cases t with
  | IntLiteral => exact absurd rfl h₁
  | StringLiteral => exact absurd rfl h₂
  | _ => rfl

@[simp] theorem normalTokens_parens : normalTokens (parens xs) = parens (normalTokens xs) := by
  simp [parens, normalTokens_nil]

@[simp] theorem normalTokens_subscript : normalTokens (subscript xs) = subscript (normalTokens xs) := by
  simp [subscript, normalTokens_nil]

@[simp] theorem normal_identToken (x : String) : (identToken x).normal = [identToken x] := rfl

@[simp] theorem normal_bTypeToken (t : BType) : (bTypeToken t).normal = [bTypeToken t] := by cases t <;> rfl

@[simp] theorem normal_unaryOpToken (op : UnaryOp) : (unaryOpToken op).normal = [unaryOpToken op] := by cases op <;> rfl

theorem Fit.append (h : Fit (xs ++ ys)) : Fit xs ∧ Fit ys := List.forall_mem_append.mp h

theorem Fit.tail (h : Fit (k :: xs)) : Fit xs := (List.forall_mem_cons.mp h).2

theorem Fit.bin (h : Fit (xs ++ k :: ys)) : Fit xs ∧ Fit ys := ⟨h.append.1, h.append.2.tail⟩

theorem Fit.parens (h : Fit (parens xs)) : Fit xs := h.append.1.tail

theorem Fit.subscript (h : Fit (subscript xs)) : Fit xs := h.append.1.tail

/-- A node with one child. -/
theorem Prints.one {f : α → β} (h : Prints m pa xs) (hf : ∀ a, pa a = normalTokens xs → pb (f a) = normalTokens ys) :
    Prints (do return f (← m)) pb ys := by
  obtain ⟨a, rfl, ha⟩ := h
  exact ⟨f a, rfl, hf a ha⟩

/-- A node with two children. -/
theorem Prints.two {f : α → β → γ} (h₁ : Prints m pa xs) (h₂ : Prints n pb ys)
    (hf : ∀ a b, pa a = normalTokens xs → pb b = normalTokens ys → pc (f a b) = normalTokens zs) :
    Prints (do
      let a ← m
      let b ← n
      return f a b) pc zs := by
  obtain ⟨a, rfl, ha⟩ := h₁
  obtain ⟨b, rfl, hb⟩ := h₂
  exact ⟨f a b, rfl, hf a b ha hb⟩

end Prints

section Exps
open L24.Tree

theorem visitNumber_prints {text : String} (h : Fit [⟨.IntLiteral, text⟩]) :
    Prints (visitNumber text) NumberNode.print [⟨.IntLiteral, text⟩] := by
  obtain ⟨hl, hs⟩ := h _ (List.mem_singleton_self _)
  have hlt : decimal text < 0x80000000 := hs rfl
  have hlt' : decimal text < 0x8000000000000000 := by omega
  have hval : (NumberNode.ofLongLong (.ofNat 64 (decimal text))).intLiteral = .ofNat 64 (decimal text) :=
    (ofLongLong_eq_iff hlt').mpr hlt
  refine ⟨_, visitNumber_ok hlt', ?_⟩
  have hnat : (BitVec.ofNat 64 (decimal text)).toNat = decimal text := by
    rw [BitVec.toNat_ofNat]
    exact Nat.mod_eq_of_lt (by omega)
  rw [NumberNode.print, hval, hnat, toString_decimal hl]
  rfl

mutual

theorem visitExp_prints : ∀ e : Tree.Exp, Fit e.tokens → Prints (visitExp e) ExprNode.print e.tokens
  | .mk e, h => by
    rw [Exp.tokens] at h ⊢
    rw [visitExp]
    exact (visitLOrExp_prints e h).one fun a ha => by rw [ExprNode.print, ha]

theorem visitLOrExp_prints : ∀ e : LOrExp, Fit e.tokens → Prints (visitLOrExp e) LorExprNode.print e.tokens
  | .lAndExp e, h => by
    rw [LOrExp.tokens] at h ⊢
    rw [visitLOrExp]
    exact (visitLAndExp_prints e h).one fun a ha => by rw [LorExprNode.print, ha]
  | .logicalOr a b, h => by
    rw [LOrExp.tokens] at h ⊢
    obtain ⟨ha, hb⟩ := h.bin
    rw [visitLOrExp]
    exact (visitLAndExp_prints b hb).two (visitLOrExp_prints a ha) fun b a hb ha => by
      simp [LorExprNode.print, ha, hb]

theorem visitLAndExp_prints : ∀ e : LAndExp, Fit e.tokens → Prints (visitLAndExp e) LandExprNode.print e.tokens
  | .eqExp e, h => by
    rw [LAndExp.tokens] at h ⊢
    rw [visitLAndExp]
    exact (visitEqExp_prints e h).one fun a ha => by rw [LandExprNode.print, ha]
  | .logicalAnd a b, h => by
    rw [LAndExp.tokens] at h ⊢
    obtain ⟨ha, hb⟩ := h.bin
    rw [visitLAndExp]
    exact (visitLAndExp_prints a ha).two (visitEqExp_prints b hb) fun a b ha hb => by
      simp [LandExprNode.print, ha, hb]

theorem visitEqExp_prints : ∀ e : EqExp, Fit e.tokens → Prints (visitEqExp e) EqExprNode.print e.tokens
  | .relExp e, h => by
    rw [EqExp.tokens] at h ⊢
    rw [visitEqExp]
    exact (visitRelExp_prints e h).one fun a ha => by rw [EqExprNode.print, ha]
  | .eq a b, h | .notEq a b, h => by
    rw [EqExp.tokens] at h ⊢
    obtain ⟨ha, hb⟩ := h.bin
    rw [visitEqExp]
    exact (visitRelExp_prints b hb).two (visitEqExp_prints a ha) fun b a hb ha => by
      simp [EqExprNode.print, ha, hb, EqOp.token]

theorem visitRelExp_prints : ∀ e : RelExp, Fit e.tokens → Prints (visitRelExp e) RelExprNode.print e.tokens
  | .addExp e, h => by
    rw [RelExp.tokens] at h ⊢
    rw [visitRelExp]
    exact (visitAddExp_prints e h).one fun a ha => by rw [RelExprNode.print, ha]
  | .less a b, h | .greater a b, h | .lessEq a b, h | .greaterEq a b, h => by
    rw [RelExp.tokens] at h ⊢
    obtain ⟨ha, hb⟩ := h.bin
    rw [visitRelExp]
    exact (visitAddExp_prints b hb).two (visitRelExp_prints a ha) fun b a hb ha => by
      simp [RelExprNode.print, ha, hb, RelOp.token]

theorem visitAddExp_prints : ∀ e : AddExp, Fit e.tokens → Prints (visitAddExp e) AddExprNode.print e.tokens
  | .mulExp e, h => by
    rw [AddExp.tokens] at h ⊢
    rw [visitAddExp]
    exact (visitMulExp_prints e h).one fun a ha => by rw [AddExprNode.print, ha]
  | .plus a b, h | .minus a b, h => by
    rw [AddExp.tokens] at h ⊢
    obtain ⟨ha, hb⟩ := h.bin
    rw [visitAddExp]
    exact (visitAddExp_prints a ha).two (visitMulExp_prints b hb) fun a b ha hb => by
      simp [AddExprNode.print, ha, hb, AddOp.token]

theorem visitMulExp_prints : ∀ e : MulExp, Fit e.tokens → Prints (visitMulExp e) MulExprNode.print e.tokens
  | .unaryExp e, h => by
    rw [MulExp.tokens] at h ⊢
    rw [visitMulExp]
    exact (visitUnaryExp_prints e h).one fun a ha => by rw [MulExprNode.print, ha]
  | .star a b, h | .slash a b, h | .percentage a b, h => by
    rw [MulExp.tokens] at h ⊢
    obtain ⟨ha, hb⟩ := h.bin
    rw [visitMulExp]
    exact (visitUnaryExp_prints b hb).two (visitMulExp_prints a ha) fun b a hb ha => by
      simp [MulExprNode.print, ha, hb, MulOp.token]

theorem visitUnaryExp_prints : ∀ e : UnaryExp, Fit e.tokens → Prints (visitUnaryExp e) UnaryExprNode.print e.tokens
  | .primaryExp e, h => by
    rw [UnaryExp.tokens] at h ⊢
    rw [visitUnaryExp]
    exact (visitPrimaryExp_prints e h).one fun a ha => by rw [UnaryExprNode.print, ha]
  | .unaryOp op e, h => by
    rw [UnaryExp.tokens] at h ⊢
    rw [visitUnaryExp]
    exact (visitUnaryExp_prints e h.tail).one fun a ha => by simp [UnaryExprNode.print, ha]
  | .call f none, h => by
    rw [UnaryExp.tokens, visitUnaryExp]
    exact ⟨_, rfl, by simp [UnaryExprNode.print, printExps, normalTokens_nil]⟩
  | .call f (some ps), h => by
    rw [UnaryExp.tokens] at h ⊢
    rw [visitUnaryExp]
    exact (visitFuncRParams_prints ps h.tail.parens).one fun a ha => by simp [UnaryExprNode.print, ha]

theorem visitFuncRParams_prints : ∀ ps : FuncRParams, Fit ps.tokens → Prints (visitFuncRParams ps) printExps ps.tokens
  | .mk e es, h => by
    rw [FuncRParams.tokens] at h ⊢
    rw [visitFuncRParams]
    exact (visitExp_prints e h.append.1).two (visitExps_prints es h.append.2) fun a as ha has => by
      simp [printExps, ha, has]

theorem visitExps_prints : ∀ es : List Tree.Exp, Fit (expsTail es) → Prints (visitExps es) printExpsTail (expsTail es)
  | [], _ => by
    rw [visitExps, expsTail]
    exact ⟨_, rfl, by rw [printExpsTail, normalTokens_nil]⟩
  | e :: es, h => by
    rw [expsTail] at h ⊢
    rw [visitExps]
    exact (visitExp_prints e h.append.1.tail).two (visitExps_prints es h.append.2) fun a as ha has => by
      simp [printExpsTail, ha, has]

theorem visitPrimaryExp_prints : ∀ e : PrimaryExp, Fit e.tokens → Prints (visitPrimaryExp e) PrimExprNode.print e.tokens
  | .paren e, h => by
    rw [PrimaryExp.tokens] at h ⊢
    rw [visitPrimaryExp]
    exact (visitExp_prints e h.parens).one fun a ha => by simp [PrimExprNode.print, ha]
  | .number text, h => by
    rw [PrimaryExp.tokens] at h ⊢
    rw [visitPrimaryExp]
    exact (visitNumber_prints h).one fun a ha => by rw [PrimExprNode.print, ha]
  | .lVal l, h => by
    rw [PrimaryExp.tokens] at h ⊢
    rw [visitPrimaryExp]
    exact (visitLVal_prints l h).one fun a ha => by rw [PrimExprNode.print, ha]

theorem visitLVal_prints : ∀ l : LVal, Fit l.tokens → Prints (visitLVal l) LValNode.print l.tokens
  | .mk x none, _ => by
    rw [LVal.tokens, visitLVal]
    exact ⟨_, rfl, by simp [LValNode.print, normalTokens_nil]⟩
  | .mk x (some e), h => by
    rw [LVal.tokens] at h ⊢
    rw [visitLVal]
    exact (visitExp_prints e h.tail.subscript).one fun a ha => by simp [LValNode.print, ha]

end

theorem visitExp?_prints (e : Option Tree.Exp) (h : Fit (expTokens e)) :
    Prints (visitExp? e) printExp? (expTokens e) := by
  cases e with
  | none => exact ⟨none, rfl, rfl⟩
  | some e => exact (visitExp_prints e h).one fun a ha => ha

theorem visitSubscript_prints (e : Option Tree.Exp) (h : Fit (subscriptTokens e)) :
    Prints (visitExp? e) printSubscript (subscriptTokens e) := by
  cases e with
  | none => exact ⟨none, rfl, rfl⟩
  | some e =>
    refine (visitExp_prints e h.subscript).one fun a ha => ?_
    rw [printSubscript, ha, subscriptTokens, normalTokens_subscript]

end Exps

section Decls
open L24.Tree

theorem visitInitVal_prints (v : InitVal) (h : Fit v.tokens) : Prints (visitInitVal v) InitValNode.print v.tokens := by
  cases v with
  | exp e => exact (visitExp_prints e h).one fun a ha => ha
  | list es =>
    cases es with
    | none => exact ⟨_, rfl, rfl⟩
    | some es =>
      obtain ⟨e, es⟩ := es
      rw [InitVal.tokens] at h ⊢
      obtain ⟨he, hes⟩ := h.append.1.tail.append
      obtain ⟨a, ha, hpa⟩ := visitExp_prints e he
      obtain ⟨as, has, hpas⟩ := visitExps_prints es hes
      refine ⟨.list (a :: as), ?_, ?_⟩
      · rw [visitInitVal, visitExps, ha, has]
        rfl
      · simp [InitValNode.print, printExps, hpa, hpas, normalTokens_nil]
  | string text =>
    refine ⟨_, rfl, ?_⟩
    rw [InitValNode.print, printString_literalBytes (h _ (List.mem_singleton_self _)).lexed]
    exact (List.append_nil _).symm

theorem visitConstDef_prints (d : ConstDef) (h : Fit d.tokens) :
    Prints (visitConstDef d) ConstDefNode.print d.tokens := by
  obtain ⟨hsub, hinit⟩ := h.tail.bin
  exact (visitInitVal_prints d.initVal hinit).two (visitSubscript_prints d.exp hsub) fun v e hv he => by
    simp [ConstDefNode.print, ConstDef.tokens, hv, he]

theorem visitVarDef_prints (d : VarDef) (h : Fit d.tokens) : Prints (visitVarDef d) VarDefNode.print d.tokens := by
  obtain ⟨hsub, hinit⟩ := h.tail.append
  have hv : Prints (d.initVal.mapM visitInitVal) printInit (initTokens d.initVal) := by
    cases hd : d.initVal with
    | none => exact ⟨none, rfl, rfl⟩
    | some v =>
      rw [hd] at hinit
      refine (visitInitVal_prints v hinit.tail).one fun a ha => ?_
      rw [printInit, ha, initTokens, normalTokens_cons]
      rfl
  exact hv.two (visitSubscript_prints d.exp hsub) fun v e hv he => by
    simp [VarDefNode.print, VarDef.tokens, hv, he]

theorem mapM_tail_prints {α β : Type} {f : α → Build β} {pb : β → List Token} {ta : α → List Token} :
    ∀ {xs : List α}, (∀ x ∈ xs, Prints (f x) pb (ta x)) → Prints (xs.mapM f) (commaTail pb) (commaTail ta xs)
  | [], _ => ⟨[], rfl, rfl⟩
  | x :: xs, h => by
    obtain ⟨b, hb, hpb⟩ := h x List.mem_cons_self
    obtain ⟨bs, hbs, hpbs⟩ := mapM_tail_prints fun y hy => h y (List.mem_cons_of_mem _ hy)
    refine ⟨b :: bs, ?_, ?_⟩
    · rw [List.mapM_cons, hb, hbs]
      rfl
    · have hcons : commaTail ta (x :: xs) = Comm.token :: ta x ++ commaTail ta xs := List.flatMap_cons
      have hcons' : commaTail pb (b :: bs) = Comm.token :: pb b ++ commaTail pb bs := List.flatMap_cons
      simp [hcons, hcons', hpb, hpbs]

theorem mapM_prints {α β : Type} {f : α → Build β} {pb : β → List Token} {ta : α → List Token} {x : α} {xs : List α}
    (h : ∀ y ∈ x :: xs, Prints (f y) pb (ta y)) :
    Prints ((x :: xs).mapM f) (commaList pb) (ta x ++ commaTail ta xs) := by
  obtain ⟨b, hb, hpb⟩ := h x List.mem_cons_self
  obtain ⟨bs, hbs, hpbs⟩ := mapM_tail_prints fun y hy => h y (List.mem_cons_of_mem _ hy)
  refine ⟨b :: bs, ?_, ?_⟩
  · rw [List.mapM_cons, hb, hbs]
    rfl
  · rw [commaList, hpb, hpbs, normalTokens_append]

theorem Fit.commaTail {α : Type} {ta : α → List Token} {xs : List α} (h : Fit (commaTail ta xs)) :
    ∀ x ∈ xs, Fit (ta x) := by
  intro x hx k hk
  exact h k (List.mem_flatMap.mpr ⟨x, hx, List.mem_cons_of_mem _ hk⟩)

theorem visitDecl_prints (d : Decl) (h : Fit d.tokens) : Prints (visitDecl d) DeclNode.print d.tokens := by
  cases d with
  | constDecl d =>
    rw [Decl.tokens, ConstDecl.tokens] at h ⊢
    obtain ⟨hd, hds⟩ := h.append.1.tail.tail.append
    have hall : ∀ y ∈ d.constDef :: d.constDefs, Prints (visitConstDef y) ConstDefNode.print y.tokens :=
      List.forall_mem_cons.mpr ⟨visitConstDef_prints _ hd, fun y hy => visitConstDef_prints y (hds.commaTail y hy)⟩
    obtain ⟨as, has, hpas⟩ := mapM_prints hall
    refine ⟨.constDecl ⟨d.bType, as⟩, ?_, ?_⟩
    · rw [visitDecl, visitConstDecl, has]
      rfl
    · simp [DeclNode.print, hpas, normalTokens_nil]
  | varDecl d =>
    rw [Decl.tokens, VarDecl.tokens] at h ⊢
    obtain ⟨hd, hds⟩ := h.append.1.tail.append
    have hall : ∀ y ∈ d.varDef :: d.varDefs, Prints (visitVarDef y) VarDefNode.print y.tokens :=
      List.forall_mem_cons.mpr ⟨visitVarDef_prints _ hd, fun y hy => visitVarDef_prints y (hds.commaTail y hy)⟩
    obtain ⟨as, has, hpas⟩ := mapM_prints hall
    refine ⟨.varDecl ⟨d.bType, as⟩, ?_, ?_⟩
    · rw [visitDecl, visitVarDecl, has]
      rfl
    · simp [DeclNode.print, hpas, normalTokens_nil]

end Decls

section Stmts
open L24.Tree

/-- The items of a block between its braces. -/
def printBlock (items : List BlockItemNode) : List Token := LeftBrace.token :: printItems items ++ [RightBrace.token]

mutual

theorem visitStmt_prints : ∀ s : Stmt, Fit s.tokens → Prints (visitStmt s) StmtNode.print s.tokens
  | .ret e, h => by
    rw [Stmt.tokens] at h ⊢
    rw [visitStmt]
    exact (visitExp?_prints e h.append.1.tail).one fun a ha => by simp [StmtNode.print, ha, normalTokens_nil]
  | .assign (.mk x sub) e, h => by
    have hl : (LVal.mk x sub).tokens = identToken x :: subscriptTokens sub := by
      cases sub with
      | none => rw [LVal.tokens, subscriptTokens]
      | some i => rw [LVal.tokens, subscriptTokens]
    rw [Stmt.tokens, hl] at h ⊢
    obtain ⟨hsub, he⟩ := h.append.1.bin
    rw [visitStmt]
    exact (visitSubscript_prints sub hsub.tail).two (visitExp_prints e he) fun i a hi ha => by
      simp [StmtNode.print, hi, ha, normalTokens_nil]
  | .exp e, h => by
    rw [Stmt.tokens] at h ⊢
    rw [visitStmt]
    exact (visitExp?_prints e h.append.1).one fun a ha => by simp [StmtNode.print, ha, normalTokens_nil]
  | .block b, h => by
    rw [Stmt.tokens] at h ⊢
    rw [visitStmt]
    exact (visitBlock_prints b h).one fun a ha => by rw [StmtNode.print, ← ha, printBlock]
  | .ifStmt e s none, h => by
    rw [Stmt.tokens] at h ⊢
    obtain ⟨he, hs⟩ := h.append.1.bin
    rw [visitStmt]
    exact (visitExp_prints e he.tail.parens).two (visitStmt_prints s hs) fun a b ha hb => by
      simp [StmtNode.print, ha, hb, normalTokens_nil]
  | .ifStmt e s (some t), h => by
    rw [Stmt.tokens] at h ⊢
    obtain ⟨hes, ht⟩ := h.append.1.bin
    obtain ⟨he, hs⟩ := hes.bin
    obtain ⟨a, ha, hpa⟩ := visitExp_prints e he.tail.parens
    obtain ⟨b, hb, hpb⟩ := visitStmt_prints s hs
    obtain ⟨c, hc, hpc⟩ := visitStmt_prints t ht
    refine ⟨.ifStmt a b (some c), ?_, ?_⟩
    · rw [visitStmt, ha, hb, hc]
      rfl
    · simp [StmtNode.print, hpa, hpb, hpc, normalTokens_nil]
  | .whileStmt e s, h => by
    rw [Stmt.tokens] at h ⊢
    rw [visitStmt]
    exact (visitExp_prints e h.append.1.tail.parens).two (visitStmt_prints s h.append.2) fun a b ha hb => by
      simp [StmtNode.print, ha, hb]
  | .continueStmt, _ => by
    rw [Stmt.tokens, visitStmt]
    exact ⟨_, rfl, by simp [StmtNode.print, normalTokens_nil]⟩
  | .breakStmt, _ => by
    rw [Stmt.tokens, visitStmt]
    exact ⟨_, rfl, by simp [StmtNode.print, normalTokens_nil]⟩

theorem visitBlock_prints : ∀ b : Block, Fit b.tokens → Prints (visitBlock b) printBlock b.tokens
  | .mk items, h => by
    rw [Block.tokens] at h ⊢
    rw [visitBlock]
    obtain ⟨a, ha, hpa⟩ := visitBlockItems_prints items h.append.1.tail
    exact ⟨a, ha, by simp [printBlock, hpa, normalTokens_nil]⟩

theorem visitBlockItems_prints : ∀ items : List BlockItem, Fit (Tree.itemsTokens items) →
    Prints (visitBlockItems items) printItems (Tree.itemsTokens items)
  | [], _ => by
    rw [visitBlockItems, Tree.itemsTokens]
    exact ⟨_, rfl, by rw [printItems, normalTokens_nil]⟩
  | item :: items, h => by
    rw [Tree.itemsTokens] at h ⊢
    rw [visitBlockItems]
    exact (visitBlockItem_prints item h.append.1).two (visitBlockItems_prints items h.append.2) fun a as ha has => by
      simp [printItems, ha, has]

theorem visitBlockItem_prints : ∀ item : BlockItem, Fit item.tokens →
    Prints (visitBlockItem item) BlockItemNode.print item.tokens
  | .decl d, h => by
    rw [BlockItem.tokens] at h ⊢
    rw [visitBlockItem]
    exact (visitDecl_prints d h).one fun a ha => by rw [BlockItemNode.print, ha]
  | .stmt s, h => by
    rw [BlockItem.tokens] at h ⊢
    rw [visitBlockItem]
    exact (visitStmt_prints s h).one fun a ha => by rw [BlockItemNode.print, ha]

end

end Stmts

section Programs
open L24.Tree

theorem visitFuncFParam_print (p : FuncFParam) : (visitFuncFParam p).print = normalTokens p.arrayAsInt.tokens := by
  obtain ⟨t, x, a⟩ := p
  cases a with
  | true => rfl
  | false => cases t <;> rfl

theorem visitFuncFParams_print (ps : Option FuncFParams) : commaList FuncFParamNode.print (visitFuncFParams ps) =
    normalTokens (paramTokens (ps.map (FuncFParams.map FuncFParam.arrayAsInt))) := by
  cases ps with
  | none => rfl
  | some ps =>
    obtain ⟨p, ps⟩ := ps
    have htail : commaTail FuncFParamNode.print (ps.map visitFuncFParam) =
        normalTokens (commaTail FuncFParam.tokens (ps.map FuncFParam.arrayAsInt)) := by
      induction ps with
      | nil => rfl
      | cons q ps ih =>
        unfold commaTail at ih ⊢
        simp only [List.map_cons, List.flatMap_cons, normalTokens_append, normalTokens_cons, visitFuncFParam_print, ih]
        rfl
    rw [Option.map_some, paramTokens, FuncFParams.tokens, normalTokens_append]
    exact congrArg₂ (· ++ ·) (visitFuncFParam_print p) htail

theorem visitFuncType_token (t : Option BType) : (visitFuncType t).token = funcTypeToken t := by
  rcases t with _ | _ | _ <;> rfl

@[simp] theorem normal_funcTypeToken (t : Option BType) : (funcTypeToken t).normal = [funcTypeToken t] := by
  rcases t with _ | _ | _ <;> rfl

theorem visitFunc_prints (f : Func) (h : Fit f.block.tokens) :
    Prints (visitFunc f) FuncNode.print f.arraysAsInt.tokens := by
  refine (visitBlock_prints f.block h).one fun a ha => ?_
  rw [printBlock] at ha
  rw [FuncNode.print, ha, visitFuncFParams_print, visitFuncType_token]
  simp [Func.arraysAsInt, Func.tokens]

theorem Tree.Func.fit_block {f : Func} (h : Fit f.tokens) : Fit f.block.tokens := by
  rw [Func.tokens] at h
  exact h.append.2

theorem visitProgram_prints : ∀ p : Program, Fit p.tokens → Prints (visitProgram p) ProgNode.print p.arraysAsInt.tokens
  | .decl d, h => by
    rw [Program.tokens] at h
    rw [visitProgram, Program.arraysAsInt, Program.tokens]
    exact (visitDecl_prints d h).one fun a ha => by rw [ProgNode.print, ha]
  | .func f, h => by
    rw [Program.tokens] at h
    rw [visitProgram, Program.arraysAsInt, Program.tokens]
    exact (visitFunc_prints f (Func.fit_block h)).one fun a ha => by rw [ProgNode.print, ha]
  | .progDecl p d, h => by
    rw [Program.tokens] at h
    rw [visitProgram, Program.arraysAsInt, Program.tokens]
    exact (visitDecl_prints d h.append.2).two (visitProgram_prints p h.append.1) fun a b ha hb => by
      simp [ProgNode.print, ha, hb]
  | .progFunc p f, h => by
    rw [Program.tokens] at h
    rw [visitProgram, Program.arraysAsInt, Program.tokens]
    exact (visitFunc_prints f (Func.fit_block h.append.2)).two (visitProgram_prints p h.append.1) fun a b ha hb => by
      simp [ProgNode.print, ha, hb]

/-- The syntax tree that is built prints as the tokens of the parse tree, in their normal form. -/
theorem build_prints (t : Entry) (h : Fit t.tokens) :
    ∃ node, build t = .ok node ∧ node.print = normalTokens t.arraysAsInt.tokens :=
  (visitProgram_prints t.program h).one fun _ ha => ha

/-- `int f(char a[]) { int s = ""; return 007; }` -/
def oddSpelling : Entry :=
  ⟨.func ⟨some .int, "f", some ⟨⟨.char, "a", true⟩, []⟩, .mk [
    .decl (.varDecl ⟨.int, ⟨"s", none, some (.string "\"\"")⟩, []⟩),
    .stmt (.ret (some (.mk (.lAndExp (.eqExp (.relExp (.addExp (.mulExp (.unaryExp (.primaryExp
      (.number "007")))))))))))]⟩⟩

/-- It prints as `int f(int a[]) { int s = {}; return 7; }`. -/
theorem oddSpelling_prints : ∃ node, build oddSpelling = .ok node ∧ node.print = [
    bTypeToken .int, identToken "f", LeftParen.token, bTypeToken .int, identToken "a", LeftSqrBr.token,
    RightSqrBr.token, RightParen.token, LeftBrace.token, bTypeToken .int, identToken "s", Assign.token, LeftBrace.token,
    RightBrace.token, SemiColon.token, Return.token, ⟨.IntLiteral, "7"⟩, SemiColon.token, RightBrace.token] := by
  have hlexed : ∀ k ∈ oddSpelling.tokens, k.Lexed := by decide +kernel
  have hsmall : ∀ k ∈ oddSpelling.tokens, k.type = .IntLiteral → decimal k.text < 0x80000000 := by decide +kernel
  obtain ⟨node, hb, hp⟩ := build_prints oddSpelling fun k hk => ⟨hlexed k hk, hsmall k hk⟩
  refine ⟨node, hb, hp.trans ?_⟩
  decide +kernel

end Programs

end L24
