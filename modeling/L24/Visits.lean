import L24.Theorems.Params

/-! The calls that code generation makes of its own functions, on the way to its end or to the place where
    it stops. Each comes with the static context of its place in the source: the declarations in scope and
    the enclosing loops. -/

namespace L24
open Ir Relation

variable [ConstantFolder]

/-! ### The static context -/

/-- The names of the global variables that an item defines. -/
def TopItem.globals : TopItem → List String
  | .decl d => d.defs.map (·.ident)
  | .func _ => []

/-- The names of the global variables of a program. -/
def EntryNode.globals (node : EntryNode) : List String := node.prog.items.flatMap TopItem.globals

/-- A local declaration or a parameter: its identifier, the key it got in its layer, and its storage. -/
structure LocalDecl where
  ident : String
  key : String
  ty : ValType
  alloca : AllocaInst

/-- A variable declared outside all functions. -/
structure GlobalDecl where
  ident : String
  ty : ValType

/-- The declarations that are complete before a place in the source, innermost scope and latest first, and the
    loops of the function around it: the block of the condition, and the block behind. -/
structure Ctx where
  globals : List GlobalDecl := []
  locals : List (List LocalDecl) := []
  loops : List (Label × Label) := []

namespace Ctx

/-- Inside a function: the parameter scope is open, and no loop is around. -/
def inFunc (c : Ctx) : Ctx := { c with locals := [[]], loops := [] }

/-- A block is entered. -/
def push (c : Ctx) : Ctx := { c with locals := [] :: c.locals }

/-- A name is declared in the innermost scope. -/
def declare (c : Ctx) (d : LocalDecl) : Ctx :=
  { c with locals := match c.locals with
      | [] => []
      | scope :: outer => (d :: scope) :: outer }

/-- A name is declared outside all functions. -/
def declareGlobal (c : Ctx) (d : GlobalDecl) : Ctx := { c with globals := d :: c.globals }

/-- The body of a loop is entered. -/
def inLoop (c : Ctx) (loop : Label × Label) : Ctx := { c with loops := loop :: c.loops }

end Ctx

/-- The local declaration of a definition. -/
def Def.declared (d : Def) (a : AllocaInst) : LocalDecl := ⟨d.ident, d.ident, d.ty, a⟩

/-- What a parameter declares: its source name, and the key that its argument has. -/
def FuncFParamNode.declared (p : FuncFParamNode) (key : String) (a : AllocaInst) : LocalDecl := ⟨p.ident, key, .var, a⟩

/-! ### The calls -/

/-- A call of a function of the generator, or the rest of one that goes through a list. -/
inductive GenCall
  /-- The rest of a global declaration, and the items behind it. -/
  | items (ds : List Def) (items : List TopItem)
  /-- The rest of the parameters from number `i` on, with their argument's name, and the block behind them. -/
  | body (i : Nat) (ps : List (String × FuncFParamNode)) (block : List BlockItemNode)
  /-- The rest of a local declaration, and the block's items behind it. -/
  | blockItems (ds : List Def) (items : List BlockItemNode)
  | stmt (st : StmtNode)
  | define (d : Def)
  | getInitVals (init : Option InitValNode) (size : Option Value)
  | initVals (init : Option InitValNode) (idx n : Nat)
  | defineValue (ident : String) (ty : ValType) (vals : List Value) (size : Option Value) (isPtr : Bool)
  | exp (e : Exp)
  | exps (es : List Exp)
  | getValue (ident : String) (sub : Option Value)
  | setValue (ident : String) (val : Value) (sub : Option Value)
  | brUnlessBranch (target : Label)
  | retUnlessReturn

/-- What the call runs. -/
def GenCall.run : GenCall → CG Unit
  | .items ds is => do
    ds.forM Def.gen
    is.forM codeGenTopItem
  | .body i ps block => do
    defineParams i (ps.map fun p => (p.1, p.2.type))
    codeGenBlock block
    createRetUnlessReturn
    popNamedValuesLayer
  | .blockItems ds is => do
    ds.forM Def.gen
    codeGenBlockItems is
  | .stmt st => codeGenStmt st
  | .define d => d.gen
  | .getInitVals init size => discard (L24.getInitVals init size)
  | .initVals init idx n => discard (L24.initVals init idx n)
  | .defineValue x ty vals size isPtr => L24.defineValue x ty vals size isPtr
  | .exp e => discard (genExp e)
  | .exps es => discard (genExps es)
  | .getValue x sub => discard (L24.getValue x sub)
  | .setValue x v sub => L24.setValue x v sub
  | .brUnlessBranch target => createBrUnlessBranch target
  | .retUnlessReturn => createRetUnlessReturn

/-- A call, the context of its place in the source, and the state in which it is made. -/
structure Visit where
  call : GenCall
  ctx : Ctx
  state : State

/-- The condition of an `if` or a `while` has been generated, up to the boolean `c`. -/
def GenCond (e : ExprNode) (s : State) (c : Value) (t : State) : Prop :=
  ∃ v w, codeGenExp e s = .ok v w ∧ intToBoolean v w = .ok c t

/-- An `if` has been generated up to its condition, and then up to the end of its then branch. -/
def GenThen (e : ExprNode) (thenStmt : StmtNode) (s : State) (c : Value) (t : State) (p : InsertPoint) (u : State) :
    Prop :=
  GenCond e s c t ∧ t.insertPoint = some p ∧ codeGenStmt thenStmt (t.thenStart p.func c) = .ok () u

/-- Where the else branch is generated: the then branch, generated up to `u`, is closed. -/
def State.elseStart (t u : State) (p q : InsertPoint) : State :=
  (u.brUnlessBranch q (t.nextLabel + 2)).enter p.func (t.nextLabel + 1)

/-- The value of an operand of `||` or `&&` has been generated, as a boolean. -/
def GenBool (e : Exp) (s t : State) : Prop := ∃ x u l, genExp e s = .ok x u ∧ intToBoolean x u = .ok l t

/-- One call makes another: what runs before the other call in the first one has ended normally. -/
inductive Enters : Visit → Visit → Prop
  -- The program.
  | globalDef {d : Def} {ds : List Def} {is : List TopItem} {c : Ctx} {s : State} :
    Enters ⟨.items (d :: ds) is, c, s⟩ ⟨.define d, c, s⟩
  | nextGlobalDef {d : Def} {ds : List Def} {is : List TopItem} {c : Ctx} {s t : State} (h : d.gen s = .ok () t) :
    Enters ⟨.items (d :: ds) is, c, s⟩ ⟨.items ds is, c.declareGlobal ⟨d.ident, d.ty⟩, t⟩
  | decl {d : DeclNode} {is : List TopItem} {c : Ctx} {s : State} :
    Enters ⟨.items [] (.decl d :: is), c, s⟩ ⟨.items d.defs is, c, s⟩
  | func {f : FuncNode} {is : List TopItem} {c : Ctx} {s : State} (h : s.function? f.ident = none) :
    Enters ⟨.items [] (.func f :: is), c, s⟩ ⟨.body 0 f.named f.block, c.inFunc, f.start s⟩
  | nextItem {f : FuncNode} {is : List TopItem} {c : Ctx} {s t : State} (h : codeGenFunc f s = .ok () t) :
    Enters ⟨.items [] (.func f :: is), c, s⟩ ⟨.items [] is, c, t⟩
  -- A function.
  | param {i : Nat} {x : String} {p : FuncFParamNode} {ps : List (String × FuncFParamNode)} {b : List BlockItemNode}
      {c : Ctx} {s : State} :
    Enters ⟨.body i ((x, p) :: ps) b, c, s⟩ ⟨.defineValue x .var [.arg i p.type.ty] none p.type.isPtr, c, s⟩
  | nextParam {i : Nat} {x : String} {p : FuncFParamNode} {ps : List (String × FuncFParamNode)}
      {b : List BlockItemNode} {c : Ctx} {s t w : State} {a : AllocaInst}
      (ha : createDefineValueInst [.arg i p.type.ty] none p.type.isPtr s = .ok a w)
      (h : defineValue x .var [.arg i p.type.ty] none p.type.isPtr s = .ok () t) :
    Enters ⟨.body i ((x, p) :: ps) b, c, s⟩ ⟨.body (i + 1) ps b, c.declare (p.declared x a), t⟩
  | block {i : Nat} {b : List BlockItemNode} {c : Ctx} {s : State} :
    Enters ⟨.body i [] b, c, s⟩ ⟨.stmt (.block b), c, s⟩
  | epilogue {i : Nat} {b : List BlockItemNode} {c : Ctx} {s t : State} (h : codeGenStmt (.block b) s = .ok () t) :
    Enters ⟨.body i [] b, c, s⟩ ⟨.retUnlessReturn, c, t⟩
  -- The items of a block.
  | localDef {d : Def} {ds : List Def} {is : List BlockItemNode} {c : Ctx} {s : State} :
    Enters ⟨.blockItems (d :: ds) is, c, s⟩ ⟨.define d, c, s⟩
  | nextLocalDef {d : Def} {ds : List Def} {is : List BlockItemNode} {c : Ctx} {s t w w' : State}
      {size : Option Value} {vs : List Value} {a : AllocaInst} (hi : GenInit d.init d.exp s size vs w)
      (ha : createDefineValueInst vs size false w = .ok a w') (h : d.gen s = .ok () t) :
    Enters ⟨.blockItems (d :: ds) is, c, s⟩ ⟨.blockItems ds is, c.declare (d.declared a), t⟩
  | blockDecl {d : DeclNode} {is : List BlockItemNode} {c : Ctx} {s : State} :
    Enters ⟨.blockItems [] (.decl d :: is), c, s⟩ ⟨.blockItems d.defs is, c, s⟩
  | blockStmt {st : StmtNode} {is : List BlockItemNode} {c : Ctx} {s : State} :
    Enters ⟨.blockItems [] (.stmt st :: is), c, s⟩ ⟨.stmt st, c, s⟩
  | nextStmt {st : StmtNode} {is : List BlockItemNode} {c : Ctx} {s t : State} (h : codeGenStmt st s = .ok () t) :
    Enters ⟨.blockItems [] (.stmt st :: is), c, s⟩ ⟨.blockItems [] is, c, t⟩
  -- A definition.
  | size {d : Def} {e : ExprNode} {c : Ctx} {s : State} (h : d.exp = some e) :
    Enters ⟨.define d, c, s⟩ ⟨.exp e.core, c, s⟩
  | scalarInit {d : Def} {c : Ctx} {s : State} (h : d.exp = none) :
    Enters ⟨.define d, c, s⟩ ⟨.getInitVals d.init none, c, s⟩
  | arrayInit {d : Def} {e : ExprNode} {c : Ctx} {s t : State} {size : Value} (h : d.exp = some e)
      (he : codeGenExp e s = .ok size t) :
    Enters ⟨.define d, c, s⟩ ⟨.getInitVals d.init (some size), c, t⟩
  | defineValue {d : Def} {c : Ctx} {s t : State} {size : Option Value} {vs : List Value}
      (h : GenInit d.init d.exp s size vs t) :
    Enters ⟨.define d, c, s⟩ ⟨.defineValue d.ident d.ty vs size false, c, t⟩
  | scalarVal {init : Option InitValNode} {c : Ctx} {s : State} :
    Enters ⟨.getInitVals init none, c, s⟩ ⟨.initVals init 0 1, c, s⟩
  | arrayVals {init : Option InitValNode} {c : Ctx} {s : State} {size : Value} {n : BitVec 64}
      (h : size.sextValue? = some n) (h₀ : n ≠ 0) :
    Enters ⟨.getInitVals init (some size), c, s⟩ ⟨.initVals init 0 n.toInt.toNat, c, s⟩
  | initVal {init : InitValNode} {e : ExprNode} {idx n : Nat} {c : Ctx} {s : State} (h : init.exps[idx]? = some e) :
    Enters ⟨.initVals (some init) idx (n + 1), c, s⟩ ⟨.exp e.core, c, s⟩
  | nextInitVal {init : Option InitValNode} {idx n : Nat} {c : Ctx} {s t : State} {v : Value}
      (h : initVal init idx s = .ok v t) :
    Enters ⟨.initVals init idx (n + 1), c, s⟩ ⟨.initVals init (idx + 1) n, c, t⟩
  -- A statement.
  | items {is : List BlockItemNode} {c : Ctx} {s : State} :
    Enters ⟨.stmt (.block is), c, s⟩ ⟨.blockItems [] is, c.push, s.pushLayer.log .push⟩
  | ifCond {e : ExprNode} {a : StmtNode} {b : Option StmtNode} {c : Ctx} {s : State} :
    Enters ⟨.stmt (.ifStmt e a b), c, s⟩ ⟨.exp e.core, c, s⟩
  | thenStmt {e : ExprNode} {a : StmtNode} {b : Option StmtNode} {c : Ctx} {s t : State} {v : Value}
      {p : InsertPoint} (hc : GenCond e s v t) (hp : t.insertPoint = some p) :
    Enters ⟨.stmt (.ifStmt e a b), c, s⟩ ⟨.stmt a, c, t.thenStart p.func v⟩
  | thenEnd {e : ExprNode} {a : StmtNode} {b : Option StmtNode} {c : Ctx} {s t u : State} {v : Value}
      {p : InsertPoint} (h : GenThen e a s v t p u) :
    Enters ⟨.stmt (.ifStmt e a b), c, s⟩ ⟨.brUnlessBranch (t.nextLabel + 2), c, u⟩
  | elseStmt {e : ExprNode} {a : StmtNode} {b : Option StmtNode} {c : Ctx} {s t u : State} {v : Value}
      {p q : InsertPoint} (h : GenThen e a s v t p u) (hq : u.insertPoint = some q) :
    Enters ⟨.stmt (.ifStmt e a b), c, s⟩ ⟨.stmt (elseBranch b), c, t.elseStart u p q⟩
  | elseEnd {e : ExprNode} {a : StmtNode} {b : Option StmtNode} {c : Ctx} {s t u w : State} {v : Value}
      {p q : InsertPoint} (h : GenThen e a s v t p u) (hq : u.insertPoint = some q)
      (he : codeGenStmt (elseBranch b) (t.elseStart u p q) = .ok () w) :
    Enters ⟨.stmt (.ifStmt e a b), c, s⟩ ⟨.brUnlessBranch (t.nextLabel + 2), c, w⟩
  | whileCond {e : ExprNode} {b : StmtNode} {c : Ctx} {s : State} {p : InsertPoint} (hp : s.insertPoint = some p) :
    Enters ⟨.stmt (.whileStmt e b), c, s⟩ ⟨.exp e.core, c.inLoop (s.nextLabel, s.nextLabel + 2), s.loopStart p.func⟩
  | whileBody {e : ExprNode} {b : StmtNode} {c : Ctx} {s t : State} {v : Value} {p : InsertPoint}
      (hp : s.insertPoint = some p) (hc : GenCond e (s.loopStart p.func) v t) :
    Enters ⟨.stmt (.whileStmt e b), c, s⟩
      ⟨.stmt b, c.inLoop (s.nextLabel, s.nextLabel + 2), t.bodyStart p.func v s.nextLabel⟩
  | whileEnd {e : ExprNode} {b : StmtNode} {c : Ctx} {s t u : State} {v : Value} {p : InsertPoint}
      (hp : s.insertPoint = some p) (hc : GenCond e (s.loopStart p.func) v t)
      (hb : codeGenStmt b (t.bodyStart p.func v s.nextLabel) = .ok () u) :
    Enters ⟨.stmt (.whileStmt e b), c, s⟩
      ⟨.brUnlessBranch s.nextLabel, c.inLoop (s.nextLabel, s.nextLabel + 2), u⟩
  | retValue {e : ExprNode} {c : Ctx} {s : State} : Enters ⟨.stmt (.ret (some e)), c, s⟩ ⟨.exp e.core, c, s⟩
  | exprStmt {e : ExprNode} {c : Ctx} {s : State} : Enters ⟨.stmt (.expr (some e)), c, s⟩ ⟨.exp e.core, c, s⟩
  | assigned {x : String} {sub : Option ExprNode} {e : ExprNode} {c : Ctx} {s : State} :
    Enters ⟨.stmt (.assign x sub e), c, s⟩ ⟨.exp e.core, c, s⟩
  | subIdx {x : String} {i e : ExprNode} {c : Ctx} {s t : State} {v : Value} (h : codeGenExp e s = .ok v t) :
    Enters ⟨.stmt (.assign x (some i) e), c, s⟩ ⟨.exp i.core, c, t⟩
  | setValue {x : String} {sub : Option ExprNode} {e : ExprNode} {c : Ctx} {s t u : State} {v : Value}
      {idx : Option Value} (h : codeGenExp e s = .ok v t) (hi : codeGenSubIdx sub t = .ok idx u) :
    Enters ⟨.stmt (.assign x sub e), c, s⟩ ⟨.setValue x v idx, c, u⟩
  -- An expression.
  | name {x : String} {c : Ctx} {s : State} : Enters ⟨.exp (.name x), c, s⟩ ⟨.getValue x none, c, s⟩
  | index {x : String} {e : Exp} {c : Ctx} {s : State} : Enters ⟨.exp (.index x e), c, s⟩ ⟨.exp e, c, s⟩
  | element {x : String} {e : Exp} {c : Ctx} {s t : State} {i : Value} (h : genExp e s = .ok i t) :
    Enters ⟨.exp (.index x e), c, s⟩ ⟨.getValue x (some i), c, t⟩
  | args {f : String} {es : List Exp} {func : FunctionObj} {c : Ctx} {s : State} (h : s.function? f = some func)
      (hl : func.params.length = es.length) : Enters ⟨.exp (.call f es), c, s⟩ ⟨.exps es, c, s⟩
  | arg {e : Exp} {es : List Exp} {c : Ctx} {s : State} : Enters ⟨.exps (e :: es), c, s⟩ ⟨.exp e, c, s⟩
  | nextArg {e : Exp} {es : List Exp} {c : Ctx} {s t : State} {v : Value} (h : genExp e s = .ok v t) :
    Enters ⟨.exps (e :: es), c, s⟩ ⟨.exps es, c, t⟩
  | unary {op : UnaryOp} {e : Exp} {c : Ctx} {s : State} : Enters ⟨.exp (.unary op e), c, s⟩ ⟨.exp e, c, s⟩
  | arithLeft {op : BinOp} {a b : Exp} {c : Ctx} {s : State} : Enters ⟨.exp (.arith op a b), c, s⟩ ⟨.exp a, c, s⟩
  | arithRight {op : BinOp} {a b : Exp} {c : Ctx} {s t : State} {v : Value} (h : genExp a s = .ok v t) :
    Enters ⟨.exp (.arith op a b), c, s⟩ ⟨.exp b, c, t⟩
  | cmpLeft {p : Pred} {a b : Exp} {c : Ctx} {s : State} : Enters ⟨.exp (.cmp p a b), c, s⟩ ⟨.exp a, c, s⟩
  | cmpRight {p : Pred} {a b : Exp} {c : Ctx} {s t : State} {v : Value} (h : genExp a s = .ok v t) :
    Enters ⟨.exp (.cmp p a b), c, s⟩ ⟨.exp b, c, t⟩
  | landLeft {a b : Exp} {c : Ctx} {s : State} : Enters ⟨.exp (.land a b), c, s⟩ ⟨.exp a, c, s⟩
  | landRight {a b : Exp} {c : Ctx} {s t : State} (h : GenBool a s t) : Enters ⟨.exp (.land a b), c, s⟩ ⟨.exp b, c, t⟩
  | lorLeft {a b : Exp} {c : Ctx} {s : State} : Enters ⟨.exp (.lor a b), c, s⟩ ⟨.exp a, c, s⟩
  | lorRight {a b : Exp} {c : Ctx} {s t : State} (h : GenBool a s t) : Enters ⟨.exp (.lor a b), c, s⟩ ⟨.exp b, c, t⟩

/-- The calls of a program's code generation, whether it ends or stops: the library has been declared. -/
abbrev Visited (node : EntryNode) : Visit → Prop :=
  ReflTransGen Enters ⟨.items [] node.prog.items, {}, State.library⟩

end L24
