import L24.Semantics
import L24.Visits

/-! What holds at every call that code generation makes: an error there is the outcome of the whole
    generation, and the state agrees with the static context. -/

namespace L24
open Ir Relation

/-! ### Errors -/

section Errors
variable {s t u : State} {e : Stop}

theorem forM_cons_of_ok {α : Type} {f : α → CG PUnit} {a : α} {l : List α} (h : f a s = .ok ⟨⟩ t) :
    (a :: l).forM f s = l.forM f t := by
  rw [List.forM_eq_forM, List.forM_cons]
  exact bind_of_ok h

theorem forM_cons_of_error {α : Type} {f : α → CG PUnit} {a : α} {l : List α} (h : f a s = .error e t) :
    (a :: l).forM f s = .error e t := by
  rw [List.forM_eq_forM, List.forM_cons]
  exact bind_of_error h

theorem forM_nil {α : Type} {f : α → CG PUnit} : ([] : List α).forM f s = .ok ⟨⟩ s := forM_nil_ok.mpr rfl

/-- The rest of a declaration is empty. -/
theorem bind_forM_nil {α β : Type} {f : α → CG PUnit} {k : CG β} :
    (do ([] : List α).forM f; k) s = k s := bind_of_ok forM_nil

/-- The rest of a declaration goes on behind its first definition. -/
theorem bind_forM_cons_of_ok {α β : Type} {f : α → CG PUnit} {a : α} {l : List α} {k : CG β} (h : f a s = .ok ⟨⟩ t) :
    (do (a :: l).forM f; k) s = (do l.forM f; k) t := by
  show EStateM.bind _ _ _ = EStateM.bind _ _ _
  unfold EStateM.bind
  rw [forM_cons_of_ok h]

variable {α : Type} {x : Exp} {a : ExprNode}

variable [ConstantFolder]

theorem GenBool.bind {k : Value → CG α} (h : GenBool x s t) :
    ∃ l, (do let l ← intToBoolean (← genExp x); k l) s = k l t := by
  obtain ⟨v, w, l, hv, hl⟩ := h
  exact ⟨l, by rw [bind_of_ok hv, bind_of_ok hl]⟩

/-- The part of `codeGenIfStmt` up to the then branch. -/
theorem codeGenIfStmt_cond {m n : CG Unit} {v : Value} {p : InsertPoint} (hc : GenCond a s v t)
    (hp : t.insertPoint = some p) : codeGenIfStmt a m n s = (do
      m
      createBrUnlessBranch (t.nextLabel + 2)
      enterBlock p.func (t.nextLabel + 1)
      n
      createBrUnlessBranch (t.nextLabel + 2)
      enterBlock p.func (t.nextLabel + 2)) (t.thenStart p.func v) := by
  obtain ⟨w, u, hv, hc⟩ := hc
  unfold codeGenIfStmt
  rw [bind_of_ok hv, bind_of_ok hc, bind_of_ok (getInsertBlock_ok.mpr ⟨hp, rfl⟩)]
  rfl

theorem codeGenIfStmt_then {m n : CG Unit} {v : Value} {p q : InsertPoint} (hc : GenCond a s v t)
    (hp : t.insertPoint = some p) (hm : m (t.thenStart p.func v) = .ok () u) (hq : u.insertPoint = some q) :
    codeGenIfStmt a m n s = (do
      n
      createBrUnlessBranch (t.nextLabel + 2)
      enterBlock p.func (t.nextLabel + 2)) (t.elseStart u p q) := by
  rw [codeGenIfStmt_cond hc hp, bind_of_ok hm, bind_of_ok (createBrUnlessBranch_ok (u := ⟨⟩) |>.mpr ⟨q, hq, rfl⟩),
    bind_of_ok (enterBlock_ok (u := ⟨⟩) |>.mpr rfl)]
  rfl

/-- The part of `codeGenWhileStmt` up to the condition, and up to the body. -/
theorem codeGenWhileStmt_start {m : CG Unit} {p : InsertPoint} (hp : s.insertPoint = some p) :
    codeGenWhileStmt a m s = (do
      let cond ← codeGenExp a
      let cond ← intToBoolean cond
      createCondBr cond (s.nextLabel + 1) (s.nextLabel + 2)
      enterBlock p.func (s.nextLabel + 1)
      m
      createBrUnlessBranch s.nextLabel
      enterBlock p.func (s.nextLabel + 2)
      popNestedBlocks) (s.loopStart p.func) := by
  unfold codeGenWhileStmt
  rw [bind_of_ok (getInsertBlock_ok.mpr ⟨hp, rfl⟩)]
  rfl

theorem codeGenWhileStmt_cond {m : CG Unit} {v : Value} {p : InsertPoint} (hp : s.insertPoint = some p)
    (hc : GenCond a (s.loopStart p.func) v t) : codeGenWhileStmt a m s = (do
      m
      createBrUnlessBranch s.nextLabel
      enterBlock p.func (s.nextLabel + 2)
      popNestedBlocks) (t.bodyStart p.func v s.nextLabel) := by
  obtain ⟨w, u, hv, hc⟩ := hc
  rw [codeGenWhileStmt_start hp, bind_of_ok hv, bind_of_ok hc]
  rfl

/-- The part of `codeGenFunc` up to the parameters. -/
theorem codeGenFunc_start {f : FuncNode} (h : s.function? f.ident = none) :
    codeGenFunc f s = (GenCall.body 0 f.named f.block).run (f.start s) := by
  unfold codeGenFunc
  rw [bind_of_ok (get_ok.mpr ⟨rfl, rfl⟩)]
  simp only [h, Option.isSome_none, Bool.false_eq_true, ↓reduceIte]
  show _ = (do
    defineParams 0 (f.named.map fun p => (p.1, p.2.type))
    codeGenBlock f.block
    createRetUnlessReturn
    popNamedValuesLayer : CG Unit) (f.start s)
  rw [named_args]
  rfl

/-- A definition whose size and initial values have been generated. -/
theorem GenInit.gen {d : Def} {size : Option Value} {vs : List Value} (h : GenInit d.init d.exp s size vs t) :
    d.gen s = defineValue d.ident d.ty vs size false t := by
  unfold GenInit at h
  unfold Def.gen codeGenDef
  cases hd : d.exp with
  | none =>
    rw [hd] at h
    obtain ⟨rfl, hv⟩ := h
    exact bind_of_ok hv
  | some e =>
    rw [hd] at h
    obtain ⟨sz, w, rfl, he, hv⟩ := h
    exact (bind_of_ok he).trans (bind_of_ok hv)

theorem initVal_exp {init : InitValNode} {idx : Nat} {e' : ExprNode} (h : init.exps[idx]? = some e') :
    initVal (some init) idx s = codeGenExp e' s := by
  obtain ⟨hlt, -⟩ := List.getElem?_eq_some_iff.mp h
  have hne : init.exps.isEmpty = false := by
    cases hn : init.exps with
    | nil => simp [hn] at hlt
    | cons => rfl
  have hle : ¬ max init.exps.length init.stringLiteral.length ≤ idx := fun hle =>
    Nat.not_le_of_lt hlt (Nat.le_trans (Nat.le_max_left _ _) hle)
  unfold initVal
  simp only [hle, ↓reduceIte, hne, Bool.false_eq_true, h]
  exact bind_of_ok (deref_ok.mpr ⟨rfl, rfl⟩)

theorem codeGenExp_error {e' : ExprNode} (h : (GenCall.exp e'.core).run s = .error e u) :
    codeGenExp e' s = .error e u := by
  rw [codeGenExp_core]
  exact discard_error.mp h

/-- An error in a call is the outcome of the call that made it. -/
theorem Enters.error {v w : Visit} (hv : Enters v w) (h : w.call.run w.state = .error e u) :
    v.call.run v.state = .error e u := by
  -- One case for each call; the steps in front of it are done, so its error is the one of the caller.
  cases hv with
  | globalDef => exact bind_of_error (forM_cons_of_error h)
  | nextGlobalDef hd => exact (bind_forM_cons_of_ok hd).trans h
  | @decl d is c s =>
    refine bind_forM_nil.trans ?_
    rw [List.forM_eq_forM, List.forM_cons, codeGenTopItem, codeGenDecl_defs]
    exact h
  | func hf => exact bind_forM_nil.trans (forM_cons_of_error ((codeGenFunc_start hf).trans h))
  | @nextItem f is c s t hf =>
    have hi : codeGenTopItem (.func f) s = .ok () t := hf
    refine bind_forM_nil.trans ((forM_cons_of_ok hi).trans ?_)
    exact bind_forM_nil.symm.trans h
  | param =>
    refine bind_of_error ?_
    rw [List.map_cons, defineParams]
    exact bind_of_error h
  | @nextParam i x p ps b c s t w a ha hd =>
    have hrun : (defineParams i (((x, p) :: ps).map fun p => (p.1, p.2.type))) s =
        defineParams (i + 1) (ps.map fun p => (p.1, p.2.type)) t := by
      rw [List.map_cons, defineParams]
      exact bind_of_ok hd
    -- The remaining parameters are the list behind this one.
    refine Eq.trans ?_ h
    show EStateM.bind _ _ _ = EStateM.bind _ _ _
    unfold EStateM.bind
    rw [hrun]
  | @block i b c s =>
    refine (bind_of_ok (pure_ok.mpr ⟨rfl, rfl⟩)).trans (bind_of_error ?_)
    rw [codeGenBlock_stmt]
    exact h
  | @epilogue i b c s t hb =>
    refine (bind_of_ok (pure_ok.mpr ⟨rfl, rfl⟩)).trans ?_
    rw [codeGenBlock_stmt]
    exact (bind_of_ok hb).trans (bind_of_error h)
  | localDef => exact bind_of_error (forM_cons_of_error h)
  | nextLocalDef hi ha hd => exact (bind_forM_cons_of_ok hd).trans h
  | @blockDecl d is c s =>
    refine bind_forM_nil.trans ?_
    rw [codeGenBlockItems, codeGenBlockItem, codeGenDecl_defs]
    exact h
  | blockStmt =>
    refine bind_forM_nil.trans ?_
    rw [codeGenBlockItems, codeGenBlockItem]
    exact bind_of_error h
  | nextStmt hs =>
    refine bind_forM_nil.trans ?_
    rw [codeGenBlockItems, codeGenBlockItem]
    exact (bind_of_ok hs).trans (bind_forM_nil.symm.trans h)
  | @size d e' c s he =>
    show codeGenDef d.ty d.ident d.init d.exp s = _
    unfold codeGenDef
    rw [he]
    exact bind_of_error (codeGenExp_error h)
  | @scalarInit d c s hd =>
    show codeGenDef d.ty d.ident d.init d.exp s = _
    unfold codeGenDef
    rw [hd]
    exact bind_of_error (discard_error.mp h)
  | @arrayInit d e' c s t size hd he =>
    show codeGenDef d.ty d.ident d.init d.exp s = _
    unfold codeGenDef
    rw [hd]
    exact (bind_of_ok he).trans (bind_of_error (discard_error.mp h))
  | defineValue hi => exact hi.gen.trans h
  | scalarVal => exact h
  | @arrayVals init c s size n hn h₀ =>
    refine discard_error.mpr ?_
    show getInitVals init (some size) s = _
    unfold getInitVals
    simp only [hn]
    refine (bind_of_ok (deref_ok.mpr ⟨rfl, rfl⟩)).trans ?_
    rw [if_neg h₀]
    exact discard_error.mp h
  | @initVal init e' idx n c s he =>
    refine discard_error.mpr ?_
    show initVals (some init) idx (n + 1) s = _
    rw [initVals]
    refine bind_of_error ?_
    rw [initVal_exp he]
    exact codeGenExp_error h
  | @nextInitVal init idx n c s t v hv =>
    refine discard_error.mpr ?_
    show initVals init idx (n + 1) s = _
    rw [initVals]
    exact (bind_of_ok hv).trans (bind_of_error (discard_error.mp h))
  | @items is c s =>
    show codeGenStmt (.block is) s = _
    rw [codeGenStmt, inNewLayer]
    refine (bind_of_ok (u := s.pushLayer.log .push) rfl).trans (bind_of_error ?_)
    exact bind_forM_nil.symm.trans h
  | ifCond =>
    refine (congrFun codeGenStmt_if _).trans ?_
    exact bind_of_error (codeGenExp_error h)
  | thenStmt hc hp =>
    refine (congrFun codeGenStmt_if _).trans ?_
    rw [codeGenIfStmt_cond hc hp]
    exact bind_of_error h
  | thenEnd hg =>
    obtain ⟨hc, hp, ha⟩ := hg
    refine (congrFun codeGenStmt_if _).trans ?_
    rw [codeGenIfStmt_cond hc hp, bind_of_ok ha]
    exact bind_of_error h
  | elseStmt hg hq =>
    obtain ⟨hc, hp, ha⟩ := hg
    refine (congrFun codeGenStmt_if _).trans ?_
    rw [codeGenIfStmt_then hc hp ha hq]
    exact bind_of_error h
  | elseEnd hg hq he =>
    obtain ⟨hc, hp, ha⟩ := hg
    refine (congrFun codeGenStmt_if _).trans ?_
    rw [codeGenIfStmt_then hc hp ha hq, bind_of_ok he]
    exact bind_of_error h
  | @whileCond e' b c s p hp =>
    show codeGenStmt (.whileStmt e' b) s = _
    rw [codeGenStmt, codeGenWhileStmt_start hp]
    exact bind_of_error (codeGenExp_error h)
  | @whileBody e' b c s t v p hp hc =>
    show codeGenStmt (.whileStmt e' b) s = _
    rw [codeGenStmt, codeGenWhileStmt_cond hp hc]
    exact bind_of_error h
  | @whileEnd e' b c s t u v p hp hc hb =>
    show codeGenStmt (.whileStmt e' b) s = _
    rw [codeGenStmt, codeGenWhileStmt_cond hp hc, bind_of_ok hb]
    exact bind_of_error h
  | @retValue e' c s =>
    show codeGenStmt (.ret (some e')) s = _
    rw [codeGenStmt, codeGenRet]
    exact bind_of_error (codeGenExp_error h)
  | @exprStmt e' c s =>
    show codeGenStmt (.expr (some e')) s = _
    rw [codeGenStmt, codeGenExprStmt]
    exact discard_error.mpr (codeGenExp_error h)
  | @assigned x sub e' c s =>
    show codeGenStmt (.assign x sub e') s = _
    rw [codeGenStmt, codeGenAssign]
    exact bind_of_error (codeGenExp_error h)
  | @subIdx x i e' c s t v hv =>
    show codeGenStmt (.assign x (some i) e') s = _
    rw [codeGenStmt, codeGenAssign, bind_of_ok hv, codeGenSubIdx]
    exact bind_of_error (bind_of_error (codeGenExp_error h))
  | @setValue x sub e' c s t u v idx hv hi =>
    show codeGenStmt (.assign x sub e') s = _
    rw [codeGenStmt, codeGenAssign, bind_of_ok hv, bind_of_ok hi]
    exact h
  | @name x c s =>
    refine discard_error.mpr ?_
    rw [genExp]
    exact discard_error.mp h
  | @index x e' c s =>
    refine discard_error.mpr ?_
    rw [genExp]
    exact bind_of_error (discard_error.mp h)
  | @element x e' c s t i hi =>
    refine discard_error.mpr ?_
    rw [genExp, bind_of_ok hi]
    exact discard_error.mp h
  | @args f es func c s hf hl =>
    refine discard_error.mpr ?_
    rw [genExp, bind_of_ok (requireFunction_ok.mpr ⟨hf, rfl⟩), if_neg (by simpa using hl)]
    exact bind_of_error (discard_error.mp h)
  | @arg e' es c s =>
    refine discard_error.mpr ?_
    rw [genExps]
    exact bind_of_error (discard_error.mp h)
  | @nextArg e' es c s t v hv =>
    refine discard_error.mpr ?_
    rw [genExps, bind_of_ok hv]
    exact bind_of_error (discard_error.mp h)
  | @unary op e' c s =>
    refine discard_error.mpr ?_
    rw [genExp]
    exact bind_of_error (discard_error.mp h)
  | @arithLeft op a b c s =>
    refine discard_error.mpr ?_
    rw [genExp]
    exact bind_of_error (discard_error.mp h)
  | @arithRight op a b c s t v hv =>
    refine discard_error.mpr ?_
    rw [genExp, bind_of_ok hv]
    exact bind_of_error (discard_error.mp h)
  | @cmpLeft p a b c s =>
    refine discard_error.mpr ?_
    rw [genExp]
    exact bind_of_error (discard_error.mp h)
  | @cmpRight p a b c s t v hv =>
    refine discard_error.mpr ?_
    rw [genExp, bind_of_ok hv]
    exact bind_of_error (discard_error.mp h)
  | @landLeft a b c s =>
    refine discard_error.mpr ?_
    rw [genExp]
    exact bind_of_error (discard_error.mp h)
  | @landRight a b c s t hb =>
    refine discard_error.mpr ?_
    rw [genExp]
    obtain ⟨l, hl⟩ := hb.bind
    rw [hl]
    exact bind_of_error (discard_error.mp h)
  | @lorLeft a b c s =>
    refine discard_error.mpr ?_
    rw [genExp]
    exact bind_of_error (discard_error.mp h)
  | @lorRight a b c s t hb =>
    refine discard_error.mpr ?_
    rw [genExp]
    obtain ⟨l, hl⟩ := hb.bind
    rw [hl]
    exact bind_of_error (discard_error.mp h)

/-- An error in any call is the outcome of the whole generation. -/
theorem Visited.error {node : EntryNode} {v : Visit} (hv : Visited node v) (h : v.call.run v.state = .error e u) :
    compile node = .error e u := by
  have hall : (GenCall.items [] node.prog.items).run State.library = .error e u := by
    induction hv with
    | refl => exact h
    | tail _ hw ih => exact ih (hw.error h)
  show codeGenEntry node {} = _
  rw [codeGenEntry, bind_of_ok (codeGenStandardLibrary_ok (u := ⟨⟩) |>.mpr rfl), codeGenProgram_items]
  exact bind_forM_nil.symm.trans hall

end Errors

/-! ### The static context -/

/-- The entry of a local declaration in its layer. -/
def LocalDecl.entry (d : LocalDecl) : String × NamedValue := (d.key, d.ty.named d.alloca)

/-- The scope tables agree with the static context. -/
structure Ctx.Matches (c : Ctx) (s : State) : Prop where
  locals : s.namedValues = c.locals.map (·.map LocalDecl.entry)
  globals : s.globals.map (·.name) = (c.globals.map (·.ident)).reverse
  loops : s.nestedBlocks = c.loops

/-- The generator is at work on function number `func` with the entry block `entry`. -/
structure Inside (func entry : Nat) (s : State) : Prop where
  inFunc : InFunc func s
  prologue : Prologue func entry s

section Inside
variable {func base entry : Nat} {s t u : State} {c : Ctx}

theorem Inside.emits {is : List Inst} (h : Inside func entry s) (e : Emits s is t) : Inside func entry t :=
  ⟨h.inFunc.emits e, h.prologue.emits e⟩

theorem Inside.run (h : Inside func entry s) (r : GenRun func s.nextLabel s t) (hn : t.namedValues ≠ []) :
    Inside func entry t :=
  ⟨h.inFunc.run r hn, r.prologue (Nat.le_of_lt h.prologue.entry_lt) h.prologue⟩

theorem Inside.globals (h : Inside func entry s) (r : GenRun func base s t) : t.globals = s.globals := by
  obtain ⟨_, -, g⟩ := h.prologue.grows r
  exact g.globals

theorem Ctx.Matches.emits {is : List Inst} (h : c.Matches s) (e : Emits s is t) : c.Matches t :=
  ⟨e.namedValues.trans h.locals, by rw [e.globals]; exact h.globals, e.nestedBlocks.trans h.loops⟩

variable [ConstantFolder]

theorem GenCond.emits {e : ExprNode} {v : Value} (h : GenCond e s v t) : ∃ is, Emits s is t := by
  obtain ⟨x, w, hx, hv⟩ := h
  obtain ⟨is, e₁⟩ := codeGenExp_emits hx
  obtain ⟨js, e₂⟩ := intToBoolean_emits hv
  exact ⟨_, e₁.trans e₂⟩

theorem GenBool.emits {x : Exp} (h : GenBool x s t) : ∃ is, Emits s is t := by
  obtain ⟨v, w, l, hv, hl⟩ := h
  obtain ⟨is, e₁⟩ := genExp_emits x hv
  obtain ⟨js, e₂⟩ := intToBoolean_emits hl
  exact ⟨_, e₁.trans e₂⟩

omit [ConstantFolder] in
/-- The builder inserts into the function it is in. -/
theorem InFunc.func_eq {p : InsertPoint} (h : InFunc func s) (hp : s.insertPoint = some p) : p.func = func := by
  obtain ⟨l, hl⟩ := h.point
  rw [hp] at hl
  rw [Option.some.inj hl]

/-! ### The places of an `if` and a `while` -/

omit [ConstantFolder] in
theorem InFunc.restored (h : InFunc func s) (r : GenRun func base s t) (k : Restored s t) : InFunc func t :=
  h.run r (by rw [k.namedValues]; exact h.layers)

omit [ConstantFolder] in
theorem Restored.trans (h₁ : Restored s t) (h₂ : Restored t u) : Restored s u :=
  ⟨h₂.namedValues.trans h₁.namedValues, h₂.nestedBlocks.trans h₁.nestedBlocks⟩

omit [ConstantFolder] in
theorem thenStart_run {is : List Inst} (e : Emits s is t) (v : Value) :
    GenRun func s.nextLabel s (t.thenStart func v) ∧ Restored s (t.thenStart func v) := by
  refine ⟨.head (.emits e) (.head .newBlocks (GenRun.branch rfl (Nat.le_of_eq e.nextLabel.symm) ?_)), ?_, ?_⟩
  · show t.nextLabel < t.nextLabel + 3
    omega
  · exact (State.append_namedValues _ _).trans e.namedValues
  · exact (State.append_nestedBlocks _ _).trans e.nestedBlocks

omit [ConstantFolder] in
theorem thenStart_nextLabel (v : Value) : (t.thenStart func v).nextLabel = t.nextLabel + 3 := State.append_nextLabel _ _

variable {e : ExprNode} {a : StmtNode} {v : Value} {p q : InsertPoint}

theorem GenThen.run (hf : InFunc func s) (h : GenThen e a s v t p u) :
    p.func = func ∧ GenRun func s.nextLabel s u ∧ Restored s u ∧ t.nextLabel + 3 ≤ u.nextLabel := by
  obtain ⟨hc, hp, ha⟩ := h
  obtain ⟨is, em⟩ := hc.emits
  obtain rfl := (hf.emits em).func_eq hp
  obtain ⟨r, k⟩ : GenRun p.func s.nextLabel s (t.thenStart p.func v) ∧ _ := thenStart_run em v
  obtain ⟨r', k'⟩ := codeGenStmt_run a (hf.restored r k) r.nextLabel_le ha
  refine ⟨rfl, r.trans r', k.trans k', ?_⟩
  exact Nat.le_trans (Nat.le_of_eq (thenStart_nextLabel v).symm) r'.nextLabel_le

theorem GenThen.else_run (hf : InFunc func s) (h : GenThen e a s v t p u) :
    GenRun func s.nextLabel s (t.elseStart u p q) ∧ Restored s (t.elseStart u p q) := by
  obtain ⟨rfl, r, k, hl⟩ := h.run hf
  obtain ⟨is, em⟩ := h.1.emits
  have hn := em.nextLabel
  exact ⟨r.trans (GenRun.close (by omega) (by omega)), (brUnlessBranch_namedValues u q _).trans k.namedValues,
    (brUnlessBranch_nestedBlocks u q _).trans k.nestedBlocks⟩

omit [ConstantFolder] in
theorem bodyStart_run {is : List Inst} (em : Emits (s.loopStart func) is t) (v : Value) :
    GenRun func s.nextLabel s (t.bodyStart func v s.nextLabel) ∧
      Restored (s.loopStart func) (t.bodyStart func v s.nextLabel) := by
  have hn := em.nextLabel
  rw [loopStart_nextLabel] at hn
  refine ⟨loopStart_run.trans (.head (.emits em) (GenRun.branch rfl (by omega) (by omega))), ?_, ?_⟩
  · exact bodyStart_namedValues.trans em.namedValues
  · exact bodyStart_nestedBlocks.trans em.nestedBlocks

end Inside

/-! ### Every call is valid -/

/-- The call goes through a program's items. -/
def GenCall.top : GenCall → Prop
  | .items _ _ => True
  | _ => False

/-- The call is part of a function's generation. -/
def GenCall.inner : GenCall → Prop
  | .body _ _ _ | .blockItems _ _ | .stmt _ | .setValue _ _ _ | .brUnlessBranch _ | .retUnlessReturn => True
  | _ => False

/-- What holds where a call is made. -/
structure Visit.Valid (v : Visit) : Prop where
  matched : v.ctx.Matches v.state
  top : v.call.top → Idle v.state
  inner : v.call.inner → v.ctx.locals ≠ []
  inside : v.ctx.locals ≠ [] → ∃ func entry, Inside func entry v.state

section Valid
variable {C C' : GenCall} {c c' : Ctx} {s t u : State}

theorem Idle.locals (h : Idle s) (hm : c.Matches s) : c.locals = [] := by
  have := hm.locals
  rw [h.namedValues] at this
  exact List.map_eq_nil_iff.mp this.symm

/-- A call after instructions have been generated. -/
theorem Visit.Valid.emits {is : List Inst} (h : Visit.Valid ⟨C, c, s⟩) (e : Emits s is t) (ht : ¬ C'.top)
    (hi : C'.inner → C.inner) : Visit.Valid ⟨C', c, t⟩ where
  matched := h.matched.emits e
  top h := absurd h ht
  inner hc := h.inner (hi hc)
  inside hl := by
    obtain ⟨func, entry, hf⟩ := h.inside hl
    exact ⟨func, entry, hf.emits e⟩

/-- A call inside a function, after steps that keep the scopes. -/
theorem Visit.Valid.moved (h : Visit.Valid ⟨C, c, s⟩) (hi : C.inner) (ht : ¬ C'.top)
    (hr : ∀ func, InFunc func s → GenRun func s.nextLabel s t)
    (hc : c'.globals = c.globals) (hl : c'.locals ≠ []) (hn : t.namedValues = c'.locals.map (·.map LocalDecl.entry))
    (hb : t.nestedBlocks = c'.loops) : Visit.Valid ⟨C', c', t⟩ := by
  obtain ⟨func, entry, hf⟩ := h.inside (h.inner hi)
  have r := hr func hf.inFunc
  have hne : t.namedValues ≠ [] := by
    rw [hn]
    simpa using hl
  exact ⟨⟨hn, by rw [hf.globals r, hc]; exact h.matched.globals, hb⟩, fun h => absurd h ht, fun _ => hl,
    fun _ => ⟨func, entry, hf.run r hne⟩⟩

/-- A call inside a function, in the scopes of the call that makes it. -/
theorem Visit.Valid.restored (h : Visit.Valid ⟨C, c, s⟩) (hi : C.inner) (ht : ¬ C'.top)
    (hr : ∀ func, InFunc func s → GenRun func s.nextLabel s t ∧ Restored s t) : Visit.Valid ⟨C', c, t⟩ := by
  obtain ⟨func, entry, hf⟩ := h.inside (h.inner hi)
  obtain ⟨-, k⟩ := hr func hf.inFunc
  exact h.moved hi ht (fun func hf => (hr func hf).1) rfl (h.inner hi) (k.namedValues.trans h.matched.locals)
    (k.nestedBlocks.trans h.matched.loops)

variable [ConstantFolder]

/-- The scope tables after a definition. -/
theorem defineValue_layers {x : String} {ty : ValType} {vals : List Value} {size : Option Value} {isPtr : Bool}
    {a : AllocaInst} (hn : s.namedValues ≠ []) (ha : createDefineValueInst vals size isPtr s = .ok a u)
    (h : defineValue x ty vals size isPtr s = .ok () t) : ∃ layer outer, s.namedValues = layer :: outer ∧
      layer.lookup x = none ∧ t.namedValues = ((x, ty.named a) :: layer) :: outer := by
  rcases defineValue_ok h with ⟨h, -⟩ | ⟨layer, outer, a', w, hl, hx, ha', rfl⟩
  · exact absurd h hn
  · rw [ha] at ha'
    cases ha'
    obtain ⟨p, entry, is, -, -, -, -, e⟩ := createDefineValueInst_step ha
    have hw : u.namedValues = layer :: outer := e.namedValues.trans hl
    exact ⟨layer, outer, hl, hx, by simp [State.log, State.bind, hw]⟩

/-- The call behind a definition. -/
theorem Visit.Valid.declared (h : Visit.Valid ⟨C, c, s⟩) (hi : C.inner) (ht : ¬ C'.top) {x : String} {ty : ValType}
    {vals : List Value} {size : Option Value} {isPtr : Bool} {a : AllocaInst} {w w' : State} {is : List Inst}
    (e : Emits s is w) (ha : createDefineValueInst vals size isPtr w = .ok a w')
    (hd : defineValue x ty vals size isPtr w = .ok () t) {d : LocalDecl} (he : d.entry = (x, ty.named a)) :
    Visit.Valid ⟨C', c.declare d, t⟩ := by
  have hl : c.locals ≠ [] := h.inner hi
  have hm : w.namedValues = c.locals.map (·.map LocalDecl.entry) := e.namedValues.trans h.matched.locals
  obtain ⟨layer, outer, hw, -, hn⟩ := defineValue_layers (by rw [hm]; simpa using hl) ha hd
  cases hc : c.locals with
  | nil => exact absurd hc hl
  | cons scope rest =>
    rw [hw, hc, List.map_cons] at hm
    obtain ⟨rfl, rfl⟩ := List.cons.inj hm
    have hcd : (c.declare d).locals = (d :: scope) :: rest := by rw [Ctx.declare, hc]
    refine h.moved hi ht (fun func hf => .head (.emits e) ?_) rfl (by rw [hcd]; exact List.cons_ne_nil _ _) ?_ ?_
    · exact (defineValue_run _ (hf.emits e) hd).1
    · rw [hn, hcd, List.map_cons, List.map_cons, he]
    · obtain ⟨func, entry, hf⟩ := h.inside hl
      rw [(defineValue_run 0 (hf.inFunc.emits e) hd).2.nestedBlocks, e.nestedBlocks]
      exact h.matched.loops

theorem Enters.valid {v w : Visit} (hv : Enters v w) (h : v.Valid) : w.Valid := by
  -- Most calls start where their caller stands, or behind code of it that declares nothing.
  have same : ∀ {C C' : GenCall} {c : Ctx} {s : State}, Visit.Valid ⟨C, c, s⟩ → ¬ C'.top → (C'.inner → C.inner) →
      Visit.Valid ⟨C', c, s⟩ := fun h ht hi => h.emits (.refl _) ht hi
  cases hv with
  | globalDef => exact same h id False.elim
  | @nextGlobalDef d ds is c s t hd =>
    have hs := h.top trivial
    obtain ⟨g, tr, size, vs, w, rfl, hg, -⟩ := Def.gen_global hs.namedValues hd
    refine ⟨⟨h.matched.locals, ?_, h.matched.loops⟩, fun _ => ?_, False.elim, fun hl => ?_⟩
    · have hm : s.globals.map (·.name) = (c.globals.map (·.ident)).reverse := h.matched.globals
      simp [Ctx.declareGlobal, hm, hg]
    · exact ⟨hs.namedValues, hs.nestedBlocks, hs.fresh, hs.layout⟩
    · exact absurd (hs.locals h.matched) hl
  | decl => exact ⟨h.matched, h.top, h.inner, h.inside⟩
  | @func f is c s hf =>
    have hs := h.top trivial
    refine ⟨⟨?_, h.matched.globals, hs.nestedBlocks⟩, False.elim, fun _ => List.cons_ne_nil _ _,
      fun _ => ⟨_, _, start_inFunc, start_prologue hs⟩⟩
    show [] :: s.namedValues = _
    rw [hs.namedValues]
    rfl
  | @nextItem f is c s t hf =>
    have hs := h.top trivial
    have ht := codeGenFunc_idle hs hf
    obtain ⟨s₁, s₂, p, hr⟩ := codeGenFunc_run hf
    have hl := hs.locals h.matched
    have hb : s.nestedBlocks = c.loops := h.matched.loops
    refine ⟨⟨?_, ?_, ?_⟩, fun _ => ht, False.elim, fun hl' => absurd hl hl'⟩
    · rw [ht.namedValues, hl]
      rfl
    · rw [(hr.grows hs).globals]
      exact h.matched.globals
    · rw [ht.nestedBlocks, ← hs.nestedBlocks, hb]
  | param => exact same h id False.elim
  | nextParam ha hd => exact h.declared trivial id (.refl _) ha hd rfl
  | block => exact same h id fun _ => trivial
  | epilogue hb =>
    exact h.restored trivial id fun func hf => codeGenStmt_run _ hf (Nat.le_refl _) hb
  | localDef => exact same h id False.elim
  | nextLocalDef hi ha hd =>
    obtain ⟨is, e⟩ := hi.emits
    exact h.declared trivial id e ha (hi.gen ▸ hd) rfl
  | blockDecl => exact same h id fun _ => trivial
  | blockStmt => exact same h id fun _ => trivial
  | nextStmt hs => exact h.restored trivial id fun func hf => codeGenStmt_run _ hf (Nat.le_refl _) hs
  | size he => exact same h id False.elim
  | scalarInit hd => exact same h id False.elim
  | arrayInit hd he =>
    obtain ⟨is, e⟩ := codeGenExp_emits he
    exact h.emits e id False.elim
  | defineValue hi =>
    obtain ⟨is, e⟩ := hi.emits
    exact h.emits e id False.elim
  | scalarVal => exact same h id False.elim
  | arrayVals hn h₀ => exact same h id False.elim
  | initVal he => exact same h id False.elim
  | nextInitVal hv =>
    obtain ⟨is, e⟩ := initVal_emits hv
    exact h.emits e id False.elim
  | @items is c s =>
    refine h.moved trivial id (fun func hf => .head .pushLayer (GenRun.emits (.log _))) rfl (List.cons_ne_nil _ _) ?_ ?_
    · show [] :: s.namedValues = _
      rw [h.matched.locals]
      rfl
    · exact h.matched.loops
  | ifCond => exact same h id False.elim
  | thenStmt hc hp =>
    obtain ⟨is, e⟩ := hc.emits
    refine h.restored trivial id fun func hf => ?_
    rw [(hf.emits e).func_eq hp]
    exact thenStart_run e _
  | thenEnd hg =>
    refine h.restored trivial id fun func hf => ?_
    obtain ⟨-, r, k, -⟩ := hg.run hf
    exact ⟨r, k⟩
  | elseStmt hg hq => exact h.restored trivial id fun func hf => hg.else_run hf
  | @elseEnd e a b c s t u w v p q hg hq he =>
    refine h.restored trivial id fun func hf => ?_
    obtain ⟨r, k⟩ := hg.else_run (q := q) hf
    obtain ⟨r', k'⟩ := codeGenStmt_run (elseBranch b) (hf.restored r k) r.nextLabel_le he
    exact ⟨r.trans r', k.trans k'⟩
  | @whileCond e b c s p hp =>
    refine h.moved trivial id (fun func hf => ?_) rfl (h.inner trivial) ?_ ?_
    · rw [hf.func_eq hp]
      exact loopStart_run
    · exact loopStart_namedValues.trans h.matched.locals
    · exact loopStart_nestedBlocks.trans (congrArg _ h.matched.loops)
  | whileBody hp hc =>
    obtain ⟨is, em⟩ := hc.emits
    obtain ⟨-, k⟩ := bodyStart_run em _
    refine h.moved trivial id (fun func hf => ?_) rfl (h.inner trivial) ?_ ?_
    · obtain rfl := hf.func_eq hp
      exact (bodyStart_run em _).1
    · exact k.namedValues.trans (loopStart_namedValues.trans h.matched.locals)
    · exact k.nestedBlocks.trans (loopStart_nestedBlocks.trans (congrArg _ h.matched.loops))
  | @whileEnd e b c s t u v p hp hc hb =>
    obtain ⟨is, em⟩ := hc.emits
    obtain ⟨func, entry, hf⟩ := h.inside (h.inner trivial)
    obtain rfl := hf.inFunc.func_eq hp
    obtain ⟨r, k⟩ := bodyStart_run em v
    have hn : (t.bodyStart p.func v s.nextLabel).namedValues = s.namedValues :=
      k.namedValues.trans loopStart_namedValues
    -- The body leaves the loops as it found them, so the innermost one is still this loop.
    have hin := hf.inFunc.run r (by rw [hn]; exact hf.inFunc.layers)
    obtain ⟨r', k'⟩ := codeGenStmt_run b hin r.nextLabel_le hb
    refine h.moved trivial id (fun func hf => ?_) rfl (h.inner trivial) ?_ ?_
    · obtain rfl := hf.func_eq hp
      exact r.trans r'
    · exact k'.namedValues.trans (hn.trans h.matched.locals)
    · exact k'.nestedBlocks.trans (k.nestedBlocks.trans (loopStart_nestedBlocks.trans (congrArg _ h.matched.loops)))
  | retValue => exact same h id False.elim
  | exprStmt => exact same h id False.elim
  | assigned => exact same h id False.elim
  | subIdx hv =>
    obtain ⟨is, e⟩ := codeGenExp_emits hv
    exact h.emits e id False.elim
  | setValue hv hi =>
    obtain ⟨is, e₁⟩ := codeGenExp_emits hv
    obtain ⟨js, e₂⟩ := codeGenSubIdx_emits hi
    exact h.emits (e₁.trans e₂) id fun _ => trivial
  | name => exact same h id False.elim
  | index => exact same h id False.elim
  | element hi =>
    obtain ⟨is, e⟩ := genExp_emits _ hi
    exact h.emits e id False.elim
  | args hf hl => exact same h id False.elim
  | arg => exact same h id False.elim
  | nextArg hv =>
    obtain ⟨is, e⟩ := genExp_emits _ hv
    exact h.emits e id False.elim
  | unary => exact same h id False.elim
  | arithLeft => exact same h id False.elim
  | arithRight hv =>
    obtain ⟨is, e⟩ := genExp_emits _ hv
    exact h.emits e id False.elim
  | cmpLeft => exact same h id False.elim
  | cmpRight hv =>
    obtain ⟨is, e⟩ := genExp_emits _ hv
    exact h.emits e id False.elim
  | landLeft => exact same h id False.elim
  | landRight hb =>
    obtain ⟨is, e⟩ := hb.emits
    exact h.emits e id False.elim
  | lorLeft => exact same h id False.elim
  | lorRight hb =>
    obtain ⟨is, e⟩ := hb.emits
    exact h.emits e id False.elim

omit [ConstantFolder] in
theorem library_valid {is : List TopItem} : Visit.Valid ⟨.items [] is, {}, State.library⟩ where
  matched := ⟨rfl, rfl, rfl⟩
  top _ := library_idle
  inner := False.elim
  inside h := absurd rfl h

/-- Every call of a program's code generation is valid. -/
theorem Visited.valid {node : EntryNode} {v : Visit} (h : Visited node v) : v.Valid := by
  induction h with
  | refl => exact library_valid
  | tail _ hw ih => exact hw.valid ih

end Valid

/-! ### The state from call to call -/

variable [ConstantFolder]

/-- How the state of a call comes from the state of the call that makes it. -/
inductive StateStep : State → State → Prop
  | emits {s t : State} {is : List Inst} (e : Emits s is t) : StateStep s t
  | run {func entry : Nat} {s t : State} (h : Inside func entry s) (r : GenRun func s.nextLabel s t) : StateStep s t
  | start {f : FuncNode} {s : State} (hs : Idle s) (hf : s.function? f.ident = none) : StateStep s (f.start s)
  | func {f : FuncNode} {s t : State} (hs : Idle s) (h : codeGenFunc f s = .ok () t) : StateStep s t
  | global {d : Def} {s t : State} (hs : Idle s) (h : d.gen s = .ok () t) : StateStep s t

section StateStep
variable {C : GenCall} {c : Ctx} {s t : State}

theorem StateStep.refl (s : State) : StateStep s s := .emits (.refl s)

/-- A step inside a function. -/
theorem Visit.Valid.stateStep (h : Visit.Valid ⟨C, c, s⟩) (hi : C.inner)
    (hr : ∀ func, InFunc func s → GenRun func s.nextLabel s t) : StateStep s t := by
  obtain ⟨func, entry, hin⟩ := h.inside (h.inner hi)
  exact .run hin (hr func hin.inFunc)

theorem Enters.stateStep {v w : Visit} (hv : Enters v w) (h : v.Valid) : StateStep v.state w.state := by
  cases hv with
  | nextGlobalDef hd => exact .global (h.top trivial) hd
  | func hf => exact .start (h.top trivial) hf
  | nextItem hf => exact .func (h.top trivial) hf
  | nextParam ha hd => exact h.stateStep trivial fun func hf => (defineValue_run _ hf hd).1
  | epilogue hb => exact h.stateStep trivial fun func hf => (codeGenStmt_run _ hf (Nat.le_refl _) hb).1
  | nextLocalDef hi ha hd => exact h.stateStep trivial fun func hf => (Def.gen_run _ hf hd).1
  | nextStmt hs => exact h.stateStep trivial fun func hf => (codeGenStmt_run _ hf (Nat.le_refl _) hs).1
  | arrayInit hd he =>
    obtain ⟨is, e⟩ := codeGenExp_emits he
    exact .emits e
  | defineValue hi =>
    obtain ⟨is, e⟩ := hi.emits
    exact .emits e
  | nextInitVal hv =>
    obtain ⟨is, e⟩ := initVal_emits hv
    exact .emits e
  | items => exact h.stateStep trivial fun func hf => .head .pushLayer (GenRun.emits (.log _))
  | thenStmt hc hp =>
    obtain ⟨is, e⟩ := hc.emits
    refine h.stateStep trivial fun func hf => ?_
    rw [(hf.emits e).func_eq hp]
    exact (thenStart_run e _).1
  | thenEnd hg => exact h.stateStep trivial fun func hf => (hg.run hf).2.1
  | elseStmt hg hq => exact h.stateStep trivial fun func hf => (hg.else_run hf).1
  | @elseEnd e a b c s t u w v p q hg hq he =>
    refine h.stateStep trivial fun func hf => ?_
    obtain ⟨r, k⟩ := hg.else_run (q := q) hf
    exact r.trans (codeGenStmt_run (elseBranch b) (hf.restored r k) r.nextLabel_le he).1
  | whileCond hp =>
    refine h.stateStep trivial fun func hf => ?_
    rw [hf.func_eq hp]
    exact loopStart_run
  | whileBody hp hc =>
    obtain ⟨is, em⟩ := hc.emits
    refine h.stateStep trivial fun func hf => ?_
    obtain rfl := hf.func_eq hp
    exact (bodyStart_run em _).1
  | @whileEnd e b c s t u v p hp hc hb =>
    obtain ⟨is, em⟩ := hc.emits
    refine h.stateStep trivial fun func hf => ?_
    obtain rfl := hf.func_eq hp
    obtain ⟨r, k⟩ := bodyStart_run em v
    have hn : (t.bodyStart p.func v s.nextLabel).namedValues = s.namedValues :=
      k.namedValues.trans loopStart_namedValues
    exact r.trans (codeGenStmt_run b (hf.run r (by rw [hn]; exact hf.layers)) r.nextLabel_le hb).1
  | subIdx hv =>
    obtain ⟨is, e⟩ := codeGenExp_emits hv
    exact .emits e
  | setValue hv hi =>
    obtain ⟨is, e₁⟩ := codeGenExp_emits hv
    obtain ⟨js, e₂⟩ := codeGenSubIdx_emits hi
    exact .emits (e₁.trans e₂)
  | element hi =>
    obtain ⟨is, e⟩ := genExp_emits _ hi
    exact .emits e
  | nextArg hv =>
    obtain ⟨is, e⟩ := genExp_emits _ hv
    exact .emits e
  | arithRight hv =>
    obtain ⟨is, e⟩ := genExp_emits _ hv
    exact .emits e
  | cmpRight hv =>
    obtain ⟨is, e⟩ := genExp_emits _ hv
    exact .emits e
  | landRight hb =>
    obtain ⟨is, e⟩ := hb.emits
    exact .emits e
  | lorRight hb =>
    obtain ⟨is, e⟩ := hb.emits
    exact .emits e
  | _ => exact .refl _

end StateStep

/-! ### What ends normally has been visited -/

section Reached
variable {node : EntryNode} {s t : State} {c : Ctx}

/-- The items behind definitions that have been generated. -/
theorem Visited.items_defs : ∀ {ds : List Def} {is : List TopItem} {c : Ctx} {s t : State},
    Visited node ⟨.items ds is, c, s⟩ → ds.forM Def.gen s = .ok ⟨⟩ t → ∃ c', Visited node ⟨.items [] is, c', t⟩
  | [], is, c, s, t, hv, h => by
    obtain rfl := forM_nil_ok.mp h
    exact ⟨c, hv⟩
  | d :: ds, is, c, s, t, hv, h => by
    obtain ⟨w, hd, h⟩ := forM_cons_ok.mp h
    exact Visited.items_defs (hv.tail (.nextGlobalDef hd)) h

theorem Visited.functions : ∀ {is : List TopItem} {c : Ctx} {s t : State}, Visited node ⟨.items [] is, c, s⟩ →
    is.forM codeGenTopItem s = .ok ⟨⟩ t → ∀ f ∈ is.filterMap TopItem.func?,
      ∃ js c w u, Visited node ⟨.items [] (.func f :: js), c, w⟩ ∧ codeGenFunc f w = .ok () u
  | [], c, s, t, hv, h, g, hg => by cases hg
  | .decl d :: is, c, s, t, hv, h, g, hg => by
    obtain ⟨w, hd, h⟩ := forM_cons_ok.mp h
    rw [codeGenTopItem, codeGenDecl_defs] at hd
    obtain ⟨c', hv'⟩ := Visited.items_defs (hv.tail .decl) hd
    exact Visited.functions hv' h g (by simpa [TopItem.func?] using hg)
  | .func f :: is, c, s, t, hv, h, g, hg => by
    obtain ⟨w, hf, h⟩ := forM_cons_ok.mp h
    simp only [TopItem.func?, List.filterMap_cons, List.mem_cons] at hg
    rcases hg with rfl | hg
    · exact ⟨is, c, s, w, hv, hf⟩
    · exact Visited.functions (hv.tail (.nextItem hf)) h g hg

/-- All functions of an accepted program are generated. -/
theorem accepts_visits (h : Accepts node s) : ∀ f ∈ node.funcs,
    ∃ is c w u, Visited node ⟨.items [] (.func f :: is), c, w⟩ ∧ codeGenFunc f w = .ok () u :=
  Visited.functions .refl (accepts_items.mp h)

/-- A definition that ends normally has an alloca. -/
theorem defineValue_alloca {x : String} {ty : ValType} {vals : List Value} {size : Option Value} {isPtr : Bool}
    (hn : s.namedValues ≠ []) (h : defineValue x ty vals size isPtr s = .ok () t) :
    ∃ a w, createDefineValueInst vals size isPtr s = .ok a w := by
  rcases defineValue_ok h with ⟨h, -⟩ | ⟨layer, outer, a, w, -, -, ha, -⟩
  · exact absurd h hn
  · exact ⟨a, w, ha⟩

/-- The body of a function behind the parameters. -/
theorem Visited.params : ∀ {ps : List (String × FuncFParamNode)} {b : List BlockItemNode} {i : Nat} {c : Ctx}
    {s t : State}, Visited node ⟨.body i ps b, c, s⟩ → defineParams i (ps.map fun p => (p.1, p.2.type)) s = .ok () t →
    ∃ c', Visited node ⟨.body (i + ps.length) [] b, c', t⟩
  | [], b, i, c, s, t, hv, h => by
    rw [List.map_nil, defineParams] at h
    obtain ⟨-, rfl⟩ := pure_ok.mp h
    exact ⟨c, hv⟩
  | (x, p) :: ps, b, i, c, s, t, hv, h => by
    rw [List.map_cons, defineParams] at h
    obtain ⟨w, hd, h⟩ := seq_ok.mp h
    obtain ⟨func, entry, hin⟩ := (Visited.valid hv).inside ((Visited.valid hv).inner trivial)
    obtain ⟨a, w', ha⟩ := defineValue_alloca hin.inFunc.layers hd
    obtain ⟨c', hv'⟩ := Visited.params (hv.tail (.nextParam ha hd)) h
    rw [Nat.add_right_comm] at hv'
    exact ⟨c', hv'⟩

/-- The items of a block behind definitions that have been generated. -/
theorem Visited.blockItems_defs : ∀ {ds : List Def} {is : List BlockItemNode} {c : Ctx} {s t : State},
    Visited node ⟨.blockItems ds is, c, s⟩ → ds.forM Def.gen s = .ok ⟨⟩ t →
      ∃ c', Visited node ⟨.blockItems [] is, c', t⟩
  | [], is, c, s, t, hv, h => by
    obtain rfl := forM_nil_ok.mp h
    exact ⟨c, hv⟩
  | d :: ds, is, c, s, t, hv, h => by
    obtain ⟨w, hd, h⟩ := forM_cons_ok.mp h
    obtain ⟨size, vs, u, hi, hdef⟩ := codeGenDef_ok.mp hd
    obtain ⟨func, entry, hin⟩ := (Visited.valid hv).inside ((Visited.valid hv).inner trivial)
    obtain ⟨js, e⟩ := hi.emits
    obtain ⟨a, w', ha⟩ := defineValue_alloca (hin.inFunc.emits e).layers hdef
    exact Visited.blockItems_defs (hv.tail (.nextLocalDef hi ha hd)) h

end Reached

end L24
