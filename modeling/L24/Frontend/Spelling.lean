import L24.Frontend.Builder
import L24.Semantics
import L24.Theorems.Program

/-! The keywords `int` and `char` are one token. Programs that differ in their spelling only, and what the generator
    makes of them: it looks at the spelling of result types and of scalar parameters, and nowhere else. -/

namespace L24.Tree

/-! ### Other spellings -/

/-- The declaration with the keyword `int`. -/
def Decl.asInt : Decl → Decl
  | .constDecl d => .constDecl { d with bType := .int }
  | .varDecl d => .varDecl { d with bType := .int }

mutual

/-- The statement with `int` in all its declarations. -/
def Stmt.asInt : Stmt → Stmt
  | .block b => .block b.asInt
  | .ifStmt e s none => .ifStmt e s.asInt none
  | .ifStmt e s (some t) => .ifStmt e s.asInt (some t.asInt)
  | .whileStmt e s => .whileStmt e s.asInt
  | .ret e => .ret e
  | .assign l e => .assign l e
  | .exp e => .exp e
  | .continueStmt => .continueStmt
  | .breakStmt => .breakStmt

def Block.asInt : Block → Block
  | .mk items => .mk (itemsAsInt items)

def itemsAsInt : List BlockItem → List BlockItem
  | [] => []
  | item :: items => item.asInt :: itemsAsInt items

def BlockItem.asInt : BlockItem → BlockItem
  | .decl d => .decl d.asInt
  | .stmt s => .stmt s.asInt

end

/-- The parameter with `int`. -/
def FuncFParam.asInt (p : FuncFParam) : FuncFParam := { p with type := .int }

/-- The array parameters with `int`. -/
def FuncFParam.arrayAsInt (p : FuncFParam) : FuncFParam := if p.isArray then p.asInt else p

/-- The list with its parameters changed. -/
def FuncFParams.map (f : FuncFParam → FuncFParam) (ps : FuncFParams) : FuncFParams :=
  ⟨f ps.funcFParam, ps.funcFParams.map f⟩

/-- The function with `int` throughout. -/
def Func.asInt (f : Func) : Func where
  type := f.type.map fun _ => .int
  ident := f.ident
  funcFParams := f.funcFParams.map (FuncFParams.map FuncFParam.asInt)
  block := f.block.asInt

/-- The function with `int` in declarations and array parameters. -/
def Func.declsAsInt (f : Func) : Func where
  type := f.type
  ident := f.ident
  funcFParams := f.funcFParams.map (FuncFParams.map FuncFParam.arrayAsInt)
  block := f.block.asInt

/-- The program with its declarations and functions changed. -/
def Program.map (f : Func → Func) : Program → Program
  | .decl d => .decl d.asInt
  | .func g => .func (f g)
  | .progDecl p d => .progDecl (p.map f) d.asInt
  | .progFunc p g => .progFunc (p.map f) (f g)

/-- The program with `int` throughout. -/
def Entry.asInt (e : Entry) : Entry := ⟨e.program.map Func.asInt⟩

/-- The program with `int` in declarations and array parameters. -/
def Entry.declsAsInt (e : Entry) : Entry := ⟨e.program.map Func.declsAsInt⟩

/-- The program begins so: more declarations and functions may follow. -/
inductive Program.BeginningOf (p : Program) : Program → Prop
  | whole : p.BeginningOf p
  | decl {q : Program} {d : Decl} : p.BeginningOf q → p.BeginningOf (.progDecl q d)
  | func {q : Program} {f : Func} : p.BeginningOf q → p.BeginningOf (.progFunc q f)

end L24.Tree

namespace L24
open L24.Tree

/-! ### The syntax tree -/

/-- The declaration with `int`. -/
def DeclNode.asInt : DeclNode → DeclNode
  | .constDecl d => .constDecl { d with bType := .int }
  | .varDecl d => .varDecl { d with bType := .int }

mutual

/-- The statement with `int` in its declarations. -/
def StmtNode.asInt : StmtNode → StmtNode
  | .block items => .block (itemsAsInt items)
  | .ifStmt e s none => .ifStmt e s.asInt none
  | .ifStmt e s (some t) => .ifStmt e s.asInt (some t.asInt)
  | .whileStmt e s => .whileStmt e s.asInt
  | .ret e => .ret e
  | .expr e => .expr e
  | .assign l i e => .assign l i e
  | .continueStmt => .continueStmt
  | .breakStmt => .breakStmt

def itemsAsInt : List BlockItemNode → List BlockItemNode
  | [] => []
  | item :: items => item.asInt :: itemsAsInt items

def BlockItemNode.asInt : BlockItemNode → BlockItemNode
  | .decl d => .decl d.asInt
  | .stmt s => .stmt s.asInt

end

/-- The function with `int` in its declarations: its result type and its parameters stay. -/
def FuncNode.asInt (f : FuncNode) : FuncNode := { f with block := itemsAsInt f.block }

/-- The program with `int` in its declarations. -/
def ProgNode.asInt : ProgNode → ProgNode
  | .decl d => .decl d.asInt
  | .func f => .func f.asInt
  | .progDecl p d => .progDecl p.asInt d.asInt
  | .progFunc p f => .progFunc p.asInt f.asInt

def EntryNode.asInt (node : EntryNode) : EntryNode := ⟨node.prog.asInt⟩

section

/-! ### The generator does not read the keyword of a declaration -/

variable [Ir.ConstantFolder]

theorem codeGenDecl_asInt (d : DeclNode) : codeGenDecl d.asInt = codeGenDecl d := by cases d <;> rfl

mutual

theorem codeGenStmt_asInt : ∀ s : StmtNode, codeGenStmt s.asInt = codeGenStmt s
  | .block items => by rw [StmtNode.asInt, codeGenStmt, codeGenStmt, codeGenBlockItems_asInt]
  | .ifStmt e s none => by rw [StmtNode.asInt, codeGenStmt, codeGenStmt, codeGenStmt_asInt]
  | .ifStmt e s (some t) => by rw [StmtNode.asInt, codeGenStmt, codeGenStmt, codeGenStmt_asInt s, codeGenStmt_asInt t]
  | .whileStmt e s => by rw [StmtNode.asInt, codeGenStmt, codeGenStmt, codeGenStmt_asInt]
  | .ret e => by rw [StmtNode.asInt]
  | .expr e => by rw [StmtNode.asInt]
  | .assign l i e => by rw [StmtNode.asInt]
  | .continueStmt => by rw [StmtNode.asInt]
  | .breakStmt => by rw [StmtNode.asInt]

theorem codeGenBlockItems_asInt :
    ∀ items : List BlockItemNode, codeGenBlockItems (itemsAsInt items) = codeGenBlockItems items
  | [] => by rw [itemsAsInt]
  | item :: items => by
    rw [itemsAsInt, codeGenBlockItems, codeGenBlockItems, codeGenBlockItem_asInt, codeGenBlockItems_asInt]

theorem codeGenBlockItem_asInt : ∀ item : BlockItemNode, codeGenBlockItem item.asInt = codeGenBlockItem item
  | .decl d => by rw [BlockItemNode.asInt, codeGenBlockItem, codeGenBlockItem, codeGenDecl_asInt]
  | .stmt s => by rw [BlockItemNode.asInt, codeGenBlockItem, codeGenBlockItem, codeGenStmt_asInt]

end

theorem codeGenFunc_asInt (f : FuncNode) : codeGenFunc f.asInt = codeGenFunc f := by
  have hblock : codeGenBlock f.asInt.block = codeGenBlock f.block :=
    congrArg inNewLayer (codeGenBlockItems_asInt f.block)
  unfold codeGenFunc
  rw [hblock]
  rfl

theorem codeGenProgram_asInt : ∀ p : ProgNode, codeGenProgram p.asInt = codeGenProgram p
  | .decl d => by rw [ProgNode.asInt, codeGenProgram, codeGenProgram, codeGenDecl_asInt]
  | .func f => by rw [ProgNode.asInt, codeGenProgram, codeGenProgram, codeGenFunc_asInt]
  | .progDecl p d => by
    rw [ProgNode.asInt, codeGenProgram, codeGenProgram, codeGenProgram_asInt, codeGenDecl_asInt]
  | .progFunc p f => by
    rw [ProgNode.asInt, codeGenProgram, codeGenProgram, codeGenProgram_asInt, codeGenFunc_asInt]

theorem compile_asInt (node : EntryNode) : compile node.asInt = compile node := by
  unfold compile codeGenEntry
  rw [EntryNode.asInt, codeGenProgram_asInt]

/-! ### The builder -/

omit [Ir.ConstantFolder] in
theorem visitDecl_asInt (d : Decl) : visitDecl d.asInt = DeclNode.asInt <$> visitDecl d := by
  cases d with
  | constDecl d => simp [Decl.asInt, visitDecl, visitConstDecl, DeclNode.asInt]
  | varDecl d => simp [Decl.asInt, visitDecl, visitVarDecl, DeclNode.asInt]

omit [Ir.ConstantFolder] in
mutual

theorem visitStmt_asInt : ∀ s : Stmt, visitStmt s.asInt = StmtNode.asInt <$> visitStmt s
  | .block b => by simp [Stmt.asInt, visitStmt, visitBlock_asInt b, StmtNode.asInt]
  | .ifStmt e s none => by simp [Stmt.asInt, visitStmt, visitStmt_asInt s, StmtNode.asInt]
  | .ifStmt e s (some t) => by simp [Stmt.asInt, visitStmt, visitStmt_asInt s, visitStmt_asInt t, StmtNode.asInt]
  | .whileStmt e s => by simp [Stmt.asInt, visitStmt, visitStmt_asInt s, StmtNode.asInt]
  | .ret e => by simp [Stmt.asInt, visitStmt, StmtNode.asInt]
  | .exp e => by simp [Stmt.asInt, visitStmt, StmtNode.asInt]
  | .assign (.mk x i) e => by simp [Stmt.asInt, visitStmt, StmtNode.asInt]
  | .continueStmt => by simp [Stmt.asInt, visitStmt, StmtNode.asInt]
  | .breakStmt => by simp [Stmt.asInt, visitStmt, StmtNode.asInt]

theorem visitBlock_asInt : ∀ b : Block, visitBlock b.asInt = itemsAsInt <$> visitBlock b
  | .mk items => by simp [Block.asInt, visitBlock, visitBlockItems_asInt items]

theorem visitBlockItems_asInt : ∀ items : List BlockItem,
    visitBlockItems (Tree.itemsAsInt items) = itemsAsInt <$> visitBlockItems items
  | [] => by simp [Tree.itemsAsInt, visitBlockItems, itemsAsInt]
  | item :: items => by
    simp [Tree.itemsAsInt, visitBlockItems, visitBlockItem_asInt item, visitBlockItems_asInt items, itemsAsInt]

theorem visitBlockItem_asInt :
    ∀ item : BlockItem, visitBlockItem item.asInt = BlockItemNode.asInt <$> visitBlockItem item
  | .decl d => by simp [BlockItem.asInt, visitBlockItem, visitDecl_asInt d, BlockItemNode.asInt]
  | .stmt s => by simp [BlockItem.asInt, visitBlockItem, visitStmt_asInt s, BlockItemNode.asInt]

end

omit [Ir.ConstantFolder] in
theorem visitFuncFParam_arrayAsInt (p : FuncFParam) : visitFuncFParam p.arrayAsInt = visitFuncFParam p := by
  obtain ⟨t, x, a⟩ := p
  cases a <;> rfl

omit [Ir.ConstantFolder] in
theorem visitFunc_declsAsInt (f : Func) : visitFunc f.declsAsInt = FuncNode.asInt <$> visitFunc f := by
  have hparams : visitFuncFParams (f.funcFParams.map (FuncFParams.map FuncFParam.arrayAsInt)) =
      visitFuncFParams f.funcFParams := by
    cases f.funcFParams with
    | none => rfl
    | some ps =>
      obtain ⟨p, ps⟩ := ps
      simp [visitFuncFParams, FuncFParams.map, visitFuncFParam_arrayAsInt, Function.comp_def]
  simp [Func.declsAsInt, visitFunc, visitBlock_asInt, hparams, FuncNode.asInt]

omit [Ir.ConstantFolder] in
theorem visitProgram_declsAsInt :
    ∀ p : Program, visitProgram (p.map Func.declsAsInt) = ProgNode.asInt <$> visitProgram p
  | .decl d => by simp [Program.map, visitProgram, visitDecl_asInt, ProgNode.asInt]
  | .func f => by simp [Program.map, visitProgram, visitFunc_declsAsInt, ProgNode.asInt]
  | .progDecl p d => by simp [Program.map, visitProgram, visitDecl_asInt, visitProgram_declsAsInt p, ProgNode.asInt]
  | .progFunc p f => by
      simp [Program.map, visitProgram, visitFunc_declsAsInt, visitProgram_declsAsInt p, ProgNode.asInt]

omit [Ir.ConstantFolder] in
theorem build_declsAsInt (e : Entry) : build e.declsAsInt = EntryNode.asInt <$> build e := by
  simp [build, visitEntry, Entry.declsAsInt, visitProgram_declsAsInt, EntryNode.asInt]

/-- The module that a parse tree is compiled to, if it is. -/
def outcome (e : Entry) : Option Ir.Module :=
  match build e with
  | .ok node => node.final?.map State.toModule
  | .error _ => none

theorem outcome_declsAsInt (e : Entry) : outcome e.declsAsInt = outcome e := by
  unfold outcome
  rw [build_declsAsInt]
  cases build e with
  | error _ => rfl
  | ok node =>
    have hfinal : node.asInt.final? = node.final? := by
      unfold EntryNode.final?
      rw [compile_asInt]
    exact congrArg (Option.map State.toModule) hfinal

theorem outcome_eq_some {e : Entry} {M : Ir.Module} (h : outcome e = some M) :
    ∃ node s, build e = .ok node ∧ Accepts node s ∧ s.toModule = M := by
  unfold outcome at h
  split at h
  · rename_i node hb
    obtain ⟨s, hs, rfl⟩ := Option.map_eq_some_iff.mp h
    exact ⟨node, s, hb, final?_eq_some.mp hs, rfl⟩
  · cases h

/-! ### Signatures -/

/-- The result type and the parameter types that a function gets. -/
def FuncNode.signature (g : FuncNode) : Ir.Ty × List Ir.Ty := (g.type.retTy, g.param.map (·.type.ty))

/-- The functions of the module have the signatures of the program's functions, behind the library ones. -/
theorem accepts_signatures {node : EntryNode} {s : State} (h : Accepts node s) :
    s.functions.map (fun f => (f.retTy, f.params)) =
      State.library.functions.map (fun f => (f.retTy, f.params)) ++
        (node.prog.items.filterMap TopItem.func?).map FuncNode.signature := by
  let P (items : List TopItem) (s : State) : Prop := s.functions.map (fun f => (f.retTy, f.params)) =
    State.library.functions.map (fun f => (f.retTy, f.params)) ++
      (items.filterMap TopItem.func?).map FuncNode.signature
  have hstep : ∀ {items : List TopItem} {item : TopItem} {s t : State}, P items s → Idle s →
      codeGenTopItem item s = .ok () t → P (items ++ [item]) t := by
    intro items item s t hp hs hi
    cases item with
    | decl d =>
      obtain ⟨gs, tr, rfl, -⟩ := codeGenDecl_global hs.namedValues hi
      have hfuncs : (items ++ [TopItem.decl d]).filterMap TopItem.func? = items.filterMap TopItem.func? := by
        simp [TopItem.func?]
      show List.map _ s.functions = _
      rw [hfuncs]
      exact hp
    | func g =>
      obtain ⟨s₁, s₂, p, hr⟩ := codeGenFunc_run hi
      obtain ⟨ls, -, hf⟩ := hr.functions hs
      have hp : s.functions.map (fun f => (f.retTy, f.params)) = _ := hp
      show t.functions.map _ = _
      rw [hf, List.map_append, hp, List.filterMap_append, List.map_append, List.append_assoc]
      rfl
  have hlib : P [] State.library := by simp [P]
  exact accepts_induct (P := P) h hlib hstep

/-- The signature that a function gets by its spelling. -/
def Tree.Func.signature (f : Func) : Ir.Ty × List Ir.Ty :=
  ((visitFuncType f.type).retTy, (visitFuncFParams f.funcFParams).map (·.type.ty))

/-- The functions of a program, in source order. -/
def Tree.Program.funcs : Program → List Func
  | .decl _ => []
  | .func f => [f]
  | .progDecl p _ => p.funcs
  | .progFunc p f => p.funcs ++ [f]

omit [Ir.ConstantFolder] in
theorem bind_eq_ok {α β : Type} {m : Build α} {f : α → Build β} {b : β} (h : m >>= f = .ok b) :
    ∃ a, m = .ok a ∧ f a = .ok b := by
  cases m with
  | error _ => cases h
  | ok a => exact ⟨a, rfl, h⟩

omit [Ir.ConstantFolder] in
theorem visitFunc_signature {f : Func} {g : FuncNode} (h : visitFunc f = .ok g) : g.signature = f.signature := by
  obtain ⟨block, -, h⟩ := bind_eq_ok h
  obtain rfl := Except.ok.inj h
  rfl

omit [Ir.ConstantFolder] in
theorem visitProgram_signatures : ∀ {p : Program} {prog : ProgNode}, visitProgram p = .ok prog →
    (prog.items.filterMap TopItem.func?).map FuncNode.signature = p.funcs.map Func.signature
  | .decl d, prog, h => by
    rw [visitProgram] at h
    obtain ⟨decl, -, h⟩ := bind_eq_ok h
    obtain rfl := Except.ok.inj h
    rfl
  | .func f, prog, h => by
    rw [visitProgram] at h
    obtain ⟨g, hg, h⟩ := bind_eq_ok h
    obtain rfl := Except.ok.inj h
    show [g.signature] = [f.signature]
    rw [visitFunc_signature hg]
  | .progDecl p d, prog, h => by
    rw [visitProgram] at h
    obtain ⟨decl, -, h⟩ := bind_eq_ok h
    obtain ⟨prog', hp, h⟩ := bind_eq_ok h
    obtain rfl := Except.ok.inj h
    rw [Program.funcs, ← visitProgram_signatures hp, ProgNode.items]
    simp [TopItem.func?]
  | .progFunc p f, prog, h => by
    rw [visitProgram] at h
    obtain ⟨g, hg, h⟩ := bind_eq_ok h
    obtain ⟨prog', hp, h⟩ := bind_eq_ok h
    obtain rfl := Except.ok.inj h
    rw [Program.funcs, List.map_append, ← visitProgram_signatures hp, ProgNode.items]
    simp [TopItem.func?, visitFunc_signature hg]

/-! ### Programs that differ in the spelling -/

omit [Ir.ConstantFolder] in
theorem bType_eq_of_retTy {t t' : Option BType} (h : t.map (fun _ => BType.int) = t'.map fun _ => BType.int)
    (hr : (visitFuncType t).retTy = (visitFuncType t').retTy) : t = t' := by
  cases t with
  | none => cases t' with
    | none => rfl
    | some _ => cases h
  | some a => cases t' with
    | none => cases h
    | some b => cases a <;> cases b <;> first | rfl | cases hr

omit [Ir.ConstantFolder] in
theorem arrayAsInt_eq_of_ty {p p' : FuncFParam} (h : p.asInt = p'.asInt)
    (ht : (visitFuncFParam p).type.ty = (visitFuncFParam p').type.ty) : p.arrayAsInt = p'.arrayAsInt := by
  obtain ⟨t, x, a⟩ := p
  obtain ⟨t', x', a'⟩ := p'
  cases h
  cases a with
  | true => rfl
  | false => cases t <;> cases t' <;> first | rfl | cases ht

omit [Ir.ConstantFolder] in
theorem map_arrayAsInt_eq : ∀ {ps ps' : List FuncFParam}, ps.map FuncFParam.asInt = ps'.map FuncFParam.asInt →
    ps.map (fun p => (visitFuncFParam p).type.ty) = ps'.map (fun p => (visitFuncFParam p).type.ty) →
    ps.map FuncFParam.arrayAsInt = ps'.map FuncFParam.arrayAsInt
  | [], [], _, _ => rfl
  | [], _ :: _, h, _ => by cases h
  | _ :: _, [], h, _ => by cases h
  | p :: ps, p' :: ps', h, ht => by
    obtain ⟨h₁, h₂⟩ := List.cons.inj h
    obtain ⟨ht₁, ht₂⟩ := List.cons.inj ht
    rw [List.map_cons, List.map_cons, arrayAsInt_eq_of_ty h₁ ht₁, map_arrayAsInt_eq h₂ ht₂]

omit [Ir.ConstantFolder] in
theorem declsAsInt_eq_of_signature {f f' : Func} (h : f.asInt = f'.asInt) (hs : f.signature = f'.signature) :
    f.declsAsInt = f'.declsAsInt := by
  obtain ⟨t, x, ps, b⟩ := f
  obtain ⟨t', x', ps', b'⟩ := f'
  obtain ⟨ht, hx, hps, hb⟩ := Func.mk.inj h
  obtain ⟨hr, hp⟩ := Prod.mk.inj hs
  obtain rfl := bType_eq_of_retTy ht hr
  have hps' : ps.map (FuncFParams.map FuncFParam.arrayAsInt) = ps'.map (FuncFParams.map FuncFParam.arrayAsInt) := by
    cases ps with
    | none => cases ps' with
      | none => rfl
      | some _ => cases hps
    | some ps => cases ps' with
      | none => cases hps
      | some ps' =>
        obtain ⟨p, ps⟩ := ps
        obtain ⟨p', ps'⟩ := ps'
        obtain ⟨h₁, h₂⟩ := FuncFParams.mk.inj (Option.some.inj hps)
        have hp' : (p :: ps).map (fun p => (visitFuncFParam p).type.ty) =
            (p' :: ps').map fun p => (visitFuncFParam p).type.ty := by
          simpa [visitFuncFParams, Function.comp_def] using hp
        have hasInt : (p :: ps).map FuncFParam.asInt = (p' :: ps').map FuncFParam.asInt :=
          List.cons_eq_cons.mpr ⟨h₁, h₂⟩
        have hmap := map_arrayAsInt_eq hasInt hp'
        obtain ⟨h₁, h₂⟩ := List.cons.inj hmap
        simp only [Option.map_some, FuncFParams.map, h₁, h₂]
  simp only [Func.declsAsInt, hps']
  exact congrArg₂ (fun x b => Func.mk t x _ b) hx hb

omit [Ir.ConstantFolder] in
theorem map_declsAsInt_eq : ∀ {p p' : Program}, p.map Func.asInt = p'.map Func.asInt →
    p.funcs.map Func.signature = p'.funcs.map Func.signature → p.map Func.declsAsInt = p'.map Func.declsAsInt
  | .decl d, .decl d', h, _ => h
  | .func f, .func f', h, hs => by
    rw [Program.map, Program.map, declsAsInt_eq_of_signature (Program.func.inj h) (List.cons.inj hs).1]
  | .progDecl p d, .progDecl p' d', h, hs => by
    obtain ⟨hp, hd⟩ := Program.progDecl.inj h
    rw [Program.map, Program.map, map_declsAsInt_eq hp hs, hd]
  | .progFunc p f, .progFunc p' f', h, hs => by
    obtain ⟨hp, hf⟩ := Program.progFunc.inj h
    rw [Program.funcs, Program.funcs, List.map_append, List.map_append] at hs
    obtain ⟨hs₁, hs₂⟩ := List.append_inj' hs rfl
    rw [Program.map, Program.map, map_declsAsInt_eq hp hs₁, declsAsInt_eq_of_signature hf (List.cons.inj hs₂).1]

theorem declsAsInt_of_outcome {e e' : Entry} {M : Ir.Module} (h : e.asInt = e'.asInt) (ho : outcome e = some M)
    (ho' : outcome e' = some M) : e.declsAsInt = e'.declsAsInt := by
  obtain ⟨node, s, hb, ha, rfl⟩ := outcome_eq_some ho
  obtain ⟨node', s', hb', ha', hm⟩ := outcome_eq_some ho'
  obtain ⟨prog, hp, h₁⟩ := bind_eq_ok hb
  obtain rfl := Except.ok.inj h₁
  obtain ⟨prog', hp', h₂⟩ := bind_eq_ok hb'
  obtain rfl := Except.ok.inj h₂
  have hmodule : ∀ u : State, u.toModule.functions.map (fun f => (f.retTy, f.params)) =
      u.functions.map fun f => (f.retTy, f.params) := fun u => by simp [State.toModule]
  have hsig := accepts_signatures ha
  have hsig' := accepts_signatures ha'
  rw [← hmodule, hm, hmodule, hsig] at hsig'
  have hfuncs := List.append_cancel_left hsig'
  rw [visitProgram_signatures hp, visitProgram_signatures hp'] at hfuncs
  exact congrArg Entry.mk (map_declsAsInt_eq (Entry.mk.inj h) hfuncs)

/-! ### Programs that are not accepted -/

omit [Ir.ConstantFolder] in
theorem visitFunc_asInt (f : Func) : ∃ g : FuncNode → FuncNode, visitFunc f.asInt = g <$> visitFunc f :=
  ⟨fun n => { n with
      type := visitFuncType (f.type.map fun _ => .int)
      param := visitFuncFParams (f.funcFParams.map (FuncFParams.map FuncFParam.asInt))
      block := itemsAsInt n.block },
    by simp [Func.asInt, visitFunc, visitBlock_asInt]⟩

omit [Ir.ConstantFolder] in
theorem bind_pure_error {α β : Type} {m : Build α} {f : α → β} :
    (∃ err, (m >>= fun a => pure (f a)) = .error err) ↔ ∃ err, m = .error err := by
  cases m with
  | error err => exact iff_of_true ⟨err, rfl⟩ ⟨err, rfl⟩
  | ok a => exact iff_of_false (fun ⟨_, h⟩ => by cases h) (fun ⟨_, h⟩ => by cases h)

omit [Ir.ConstantFolder] in
/-- The builder fails under every spelling or under none. -/
theorem visitProgram_error_asInt : ∀ p : Program, (∃ err, visitProgram (p.map Func.asInt) = .error err) ↔
    ∃ err, visitProgram p = .error err
  | .decl d => by
    rw [Program.map, visitProgram, visitProgram, visitDecl_asInt, bind_pure_error, bind_pure_error]
    cases visitDecl d <;> simp
  | .func f => by
    obtain ⟨g, hg⟩ := visitFunc_asInt f
    rw [Program.map, visitProgram, visitProgram, hg, bind_pure_error, bind_pure_error]
    cases visitFunc f <;> simp
  | .progDecl p d => by
    rw [Program.map, visitProgram, visitProgram, visitDecl_asInt]
    cases visitDecl d with
    | error err => exact iff_of_true ⟨err, rfl⟩ ⟨err, rfl⟩
    | ok decl => exact bind_pure_error.trans ((visitProgram_error_asInt p).trans bind_pure_error.symm)
  | .progFunc p f => by
    obtain ⟨g, hg⟩ := visitFunc_asInt f
    rw [Program.map, visitProgram, visitProgram, hg]
    cases visitFunc f with
    | error err => exact iff_of_true ⟨err, rfl⟩ ⟨err, rfl⟩
    | ok func => exact bind_pure_error.trans ((visitProgram_error_asInt p).trans bind_pure_error.symm)

omit [Ir.ConstantFolder] in
theorem build_error_asInt {e e' : Entry} {err : BuildStop} (h : e.asInt = e'.asInt) (hb : build e = .error err) :
    ∃ err', build e' = .error err' := by
  have herr (e : Entry) : (∃ err, build e = .error err) ↔ ∃ err, visitProgram e.program = .error err := bind_pure_error
  rw [herr, ← visitProgram_error_asInt, ← Entry.mk.inj h, visitProgram_error_asInt, ← herr]
  exact ⟨err, hb⟩

omit [Ir.ConstantFolder] in
theorem visitProgram_beginning {p q : Program} (h : p.BeginningOf q) : ∀ {prog : ProgNode}, visitProgram q = .ok prog →
    ∃ first rest, visitProgram p = .ok first ∧ prog.items = first.items ++ rest := by
  induction h with
  | whole => exact fun {prog} hq => ⟨prog, [], hq, by simp⟩
  | @decl q d _ ih =>
    intro prog hq
    rw [visitProgram] at hq
    obtain ⟨decl, -, hq⟩ := bind_eq_ok hq
    obtain ⟨prog', hq', hq⟩ := bind_eq_ok hq
    obtain rfl := Except.ok.inj hq
    obtain ⟨first, rest, hp, hitems⟩ := ih hq'
    exact ⟨first, rest ++ [.decl decl], hp, by rw [ProgNode.items, hitems, List.append_assoc]⟩
  | @func q f _ ih =>
    intro prog hq
    rw [visitProgram] at hq
    obtain ⟨func, -, hq⟩ := bind_eq_ok hq
    obtain ⟨prog', hq', hq⟩ := bind_eq_ok hq
    obtain rfl := Except.ok.inj hq
    obtain ⟨first, rest, hp, hitems⟩ := ih hq'
    exact ⟨first, rest ++ [.func func], hp, by rw [ProgNode.items, hitems, List.append_assoc]⟩

/-- What stops code generation stops it whatever follows. -/
theorem outcome_beginning {p q : Program} (h : p.BeginningOf q) (hp : outcome ⟨p⟩ = none) : outcome ⟨q⟩ = none := by
  by_contra hq
  obtain ⟨M, hM⟩ := Option.ne_none_iff_exists'.mp hq
  obtain ⟨node, s, hb, ha, -⟩ := outcome_eq_some hM
  obtain ⟨prog, hprog, hnode⟩ := bind_eq_ok hb
  obtain rfl := Except.ok.inj hnode
  obtain ⟨first, rest, hfirst, hitems⟩ := visitProgram_beginning h hprog
  have hgen := accepts_items.mp ha
  rw [hitems, List.forM_eq_forM, List.forM_append] at hgen
  obtain ⟨w, hw, -⟩ := seq_ok.mp hgen
  have hfinal : (EntryNode.mk first).final? = some w := final?_eq_some.mpr (accepts_items.mpr hw)
  have hbuild : build ⟨p⟩ = .ok ⟨first⟩ := by
    rw [build, visitEntry, hfirst]
    rfl
  rw [outcome, hbuild] at hp
  simp only [hfinal, Option.map_some, reduceCtorEq] at hp

/-- Other spellings of declarations and array parameters change nothing; an accepted program keeps its module under no
    other change of spelling. A program that is not built, or that a beginning of it stops, is turned down whatever the
    spelling of the rest. -/
theorem respelling {e e' : Entry} (h : e.asInt = e'.asInt) :
    (e.declsAsInt = e'.declsAsInt → outcome e' = outcome e) ∧
      ((outcome e).isSome = true → (outcome e' = outcome e ↔ e.declsAsInt = e'.declsAsInt)) ∧
      (∀ err, build e = .error err → outcome e' = outcome e) ∧
      ∀ p p', Program.BeginningOf p e.program → Program.BeginningOf p' e'.program →
        p.map Func.declsAsInt = p'.map Func.declsAsInt → outcome ⟨p⟩ = none → outcome e' = outcome e := by
  have hsame {e e' : Entry} (hd : e.declsAsInt = e'.declsAsInt) : outcome e' = outcome e := by
    rw [← outcome_declsAsInt e', ← hd, outcome_declsAsInt]
  refine ⟨hsame, fun hs => ⟨fun ho => ?_, hsame⟩, fun err hb => ?_, fun p p' hp hp' hd hnone => ?_⟩
  · obtain ⟨M, hM⟩ := Option.isSome_iff_exists.mp hs
    exact declsAsInt_of_outcome h hM (ho.trans hM)
  · obtain ⟨err', hb'⟩ := build_error_asInt h hb
    rw [outcome, outcome, hb, hb']
  · have hnone' : outcome ⟨p'⟩ = none := (hsame (congrArg Entry.mk hd)).trans hnone
    exact (outcome_beginning hp' hnone').trans (outcome_beginning hp hnone).symm

end

section
attribute [local instance] Ir.ConstantFolder.symbolic

/-- `int main() { t x; }` -/
def varMain (t : BType) : Entry :=
  ⟨.func ⟨some .int, "main", none, .mk [.decl (.varDecl ⟨t, ⟨"x", none, none⟩, []⟩)]⟩⟩

theorem respelling_varMain : (varMain .int).asInt = (varMain .char).asInt ∧ (outcome (varMain .int)).isSome = true ∧
    outcome (varMain .char) = outcome (varMain .int) := by
  have hsome : (outcome (varMain .int)).isSome = true := by decide +kernel
  have hasInt : (varMain .int).asInt = (varMain .char).asInt := rfl
  have hdecls : (varMain .int).declsAsInt = (varMain .char).declsAsInt := rfl
  exact ⟨hasInt, hsome, ((respelling hasInt).2.1 hsome).mpr hdecls⟩

/-- `t main() { }` -/
def emptyMain (t : BType) : Entry := ⟨.func ⟨some t, "main", none, .mk []⟩⟩

/-- The spelling never matters. -/
def CharIsInt : Prop := ∀ e e' : Entry, e.asInt = e'.asInt → outcome e' = outcome e

theorem not_charIsInt : ¬ CharIsInt := by
  intro h
  have heq : outcome (emptyMain .char) = outcome (emptyMain .int) := h (emptyMain .int) (emptyMain .char) rfl
  have hint : (outcome (emptyMain .int)).any (fun M => M.functions.any fun f => f.name == "main" && f.retTy == .i64) =
      true := by decide +kernel
  have hchar : (outcome (emptyMain .char)).any (fun M => M.functions.any fun f => f.name == "main" && f.retTy == .i64) =
      false := by decide +kernel
  rw [heq, hint] at hchar
  cases hchar

end

end L24
