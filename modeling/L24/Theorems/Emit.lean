import L24.Theorems.Basic

/-! What the builder's operations and the generation of expressions do to the state: they put
    instructions at the end of the insertion block and take fresh registers, and leave the rest alone. -/

namespace L24
open Ir

/-! ### States -/

namespace State
variable (s : State)

@[simp] theorem append_functions (is : List Inst) : (s.append is).functions = s.functions := by
  unfold append; split <;> rfl
@[simp] theorem append_globals (is : List Inst) : (s.append is).globals = s.globals := by
  unfold append; split <;> rfl
@[simp] theorem append_insertPoint (is : List Inst) : (s.append is).insertPoint = s.insertPoint := by
  unfold append; split <;> rfl
@[simp] theorem append_namedValues (is : List Inst) : (s.append is).namedValues = s.namedValues := by
  unfold append; split <;> rfl
@[simp] theorem append_nestedBlocks (is : List Inst) : (s.append is).nestedBlocks = s.nestedBlocks := by
  unfold append; split <;> rfl
@[simp] theorem append_lastUnique (is : List Inst) : (s.append is).lastUnique = s.lastUnique := by
  unfold append; split <;> rfl
@[simp] theorem append_nextReg (is : List Inst) : (s.append is).nextReg = s.nextReg := by
  unfold append; split <;> rfl
@[simp] theorem append_nextSlot (is : List Inst) : (s.append is).nextSlot = s.nextSlot := by
  unfold append; split <;> rfl
@[simp] theorem append_nextLabel (is : List Inst) : (s.append is).nextLabel = s.nextLabel := by
  unfold append; split <;> rfl
@[simp] theorem append_trace (is : List Inst) : (s.append is).trace = s.trace := by
  unfold append; split <;> rfl
@[simp] theorem append_emptyBack (is : List Inst) : (s.append is).emptyBack = s.emptyBack := by
  unfold append; split <;> rfl

theorem append_blocks {p : InsertPoint} (hp : s.insertPoint = some p) (is : List Inst) :
    (s.append is).blocks = Function.update s.blocks p.block (s.blocks p.block ++ is) := by
  unfold append; rw [hp]

theorem append_of_none (hp : s.insertPoint = none) (is : List Inst) : s.append is = s := by
  unfold append; rw [hp]

end State

/-- A plain instruction neither ends a block nor reserves memory. -/
def Plain (i : Inst) : Prop := i.isTerminator = false ∧ i.isAlloca = false

/-- From `s` to `t` the generator inserts `is` and takes registers; only the trace may grow besides. -/
structure Emits (s : State) (is : List Inst) (t : State) : Prop where
  blocks : t.blocks = (s.append is).blocks
  functions : t.functions = s.functions
  globals : t.globals = s.globals
  insertPoint : t.insertPoint = s.insertPoint
  namedValues : t.namedValues = s.namedValues
  nestedBlocks : t.nestedBlocks = s.nestedBlocks
  lastUnique : t.lastUnique = s.lastUnique
  nextSlot : t.nextSlot = s.nextSlot
  nextLabel : t.nextLabel = s.nextLabel
  nextReg : s.nextReg ≤ t.nextReg
  plain : ∀ i ∈ is, Plain i

namespace Emits
variable {s t u : State} {is js : List Inst}

theorem refl (s : State) : Emits s [] s :=
  ⟨by unfold State.append; split <;> simp, rfl, rfl, rfl, rfl, rfl, rfl, rfl, rfl, Nat.le_refl _, by simp⟩

theorem trans (h₁ : Emits s is t) (h₂ : Emits t js u) : Emits s (is ++ js) u where
  blocks := by
    rw [h₂.blocks]
    cases hp : s.insertPoint with
    | none =>
      rw [State.append_of_none t (h₁.insertPoint.trans hp), h₁.blocks, State.append_of_none s hp,
        State.append_of_none s hp]
    | some p =>
      rw [State.append_blocks t (h₁.insertPoint.trans hp), h₁.blocks, State.append_blocks s hp,
        State.append_blocks s hp]
      simp [List.append_assoc]
  functions := h₂.functions.trans h₁.functions
  globals := h₂.globals.trans h₁.globals
  insertPoint := h₂.insertPoint.trans h₁.insertPoint
  namedValues := h₂.namedValues.trans h₁.namedValues
  nestedBlocks := h₂.nestedBlocks.trans h₁.nestedBlocks
  lastUnique := h₂.lastUnique.trans h₁.lastUnique
  nextSlot := h₂.nextSlot.trans h₁.nextSlot
  nextLabel := h₂.nextLabel.trans h₁.nextLabel
  nextReg := Nat.le_trans h₁.nextReg h₂.nextReg
  plain i hi := (List.mem_append.mp hi).elim (h₁.plain i) (h₂.plain i)

theorem lookup (h : Emits s is t) (x : String) : t.lookup x = s.lookup x := by
  unfold State.lookup; rw [h.namedValues]

theorem global? (h : Emits s is t) (x : String) : t.global? x = s.global? x := by
  unfold State.global?; rw [h.globals]

theorem function? (h : Emits s is t) (x : String) : t.function? x = s.function? x := by
  unfold State.function?; rw [h.functions]

/-- What is inserted depends on the two states only. -/
theorem unique {p : InsertPoint} (hp : s.insertPoint = some p) (h : Emits s is t) (h' : Emits s js t) : is = js := by
  have hb := congrFun (h.blocks.symm.trans h'.blocks) p.block
  rw [State.append_blocks s hp, State.append_blocks s hp, Function.update_self, Function.update_self] at hb
  exact List.append_cancel_left hb

/-- One inserted instruction with a result. -/
theorem emit {mk : Reg → Inst} (h : Plain (mk s.nextReg)) : Emits s [mk s.nextReg] (s.emit mk) where
  blocks := rfl
  functions := State.append_functions s _
  globals := State.append_globals s _
  insertPoint := State.append_insertPoint s _
  namedValues := State.append_namedValues s _
  nestedBlocks := State.append_nestedBlocks s _
  lastUnique := State.append_lastUnique s _
  nextSlot := State.append_nextSlot s _
  nextLabel := State.append_nextLabel s _
  nextReg := Nat.le_succ _
  plain := by simpa using h

theorem append (h : ∀ i ∈ is, Plain i) : Emits s is (s.append is) where
  blocks := rfl
  functions := State.append_functions s _
  globals := State.append_globals s _
  insertPoint := State.append_insertPoint s _
  namedValues := State.append_namedValues s _
  nestedBlocks := State.append_nestedBlocks s _
  lastUnique := State.append_lastUnique s _
  nextSlot := State.append_nextSlot s _
  nextLabel := State.append_nextLabel s _
  nextReg := by simp
  plain := h

theorem store (v p : Value) : Emits s [.store v p] (s.append [.store v p]) :=
  append (List.forall_mem_singleton.mpr ⟨rfl, rfl⟩)

theorem log (e : ScopeEvent) : Emits s [] (s.log e) :=
  ⟨(refl s).blocks, rfl, rfl, rfl, rfl, rfl, rfl, rfl, rfl, Nat.le_refl _, by simp⟩

end Emits

/-! ### Builder operations -/

section Builder
variable {s t : State} {v : Value}

theorem emit_ok {ty : Ty} {mk : Reg → Inst} : emit ty mk s = .ok v t ↔ v = .inst s.nextReg ty ∧ t = s.emit mk := by
  show EStateM.Result.ok (Value.inst s.nextReg ty) (s.emit mk) = .ok v t ↔ _
  simp [eq_comm]

theorem insert_ok {i : Inst} {u : PUnit} : insert i s = .ok u t ↔ t = s.append [i] := modify_ok

theorem getInsertBlock_ok {p : InsertPoint} : getInsertBlock s = .ok p t ↔ s.insertPoint = some p ∧ t = s := by
  unfold getInsertBlock
  simp only [bind_ok, get_ok]
  constructor
  · rintro ⟨_, _, ⟨rfl, rfl⟩, h⟩
    exact deref_ok.mp h
  · intro h
    exact ⟨s, s, ⟨rfl, rfl⟩, deref_ok.mpr h⟩

theorem BinOp.fold?_ty {op : BinOp} {c d e : Const} (h : op.fold? c d = some e) : e.ty = c.ty := by
  cases c <;> cases d <;> cases h
  · unfold BinOp.eval
    cases op <;> simp only <;> first | rfl | (split <;> rfl)
  · rfl
  · rfl
  · rfl

variable [ConstantFolder]

theorem binOpFold_ty (op : BinOp) {c d : Const} (h : c.ty = d.ty) : (op.fold c d).ty = c.ty := by
  unfold BinOp.fold
  cases hf : op.fold? c d with
  | none => exact ConstantFolder.binOp_ty op h
  | some e => exact BinOp.fold?_ty hf

theorem predFold_ty (p : Pred) (c d : Const) : (p.fold c d).ty = .i1 := by
  unfold Pred.fold
  cases hf : p.fold? c d with
  | none => exact ConstantFolder.iCmp_ty p c d
  | some e => cases c <;> cases d <;> cases hf <;> rfl

theorem foldSelect_ty (c : Const) {d e : Const} (h : d.ty = e.ty) : (foldSelect c d e).ty = d.ty := by
  unfold foldSelect
  cases hf : foldSelect? c d e with
  | none => exact ConstantFolder.select_ty c h
  | some k =>
    cases c with
    | bool b =>
      obtain rfl := Option.some.inj hf
      cases b
      · exact h.symm
      · rfl
    | poison ty =>
      obtain rfl := Option.some.inj hf
      rfl
    | _ => cases hf

theorem foldZExt_ty (c : Const) : (foldZExt .i64 c).ty = .i64 := by
  unfold foldZExt
  cases hf : foldZExt? .i64 c with
  | none => exact ConstantFolder.zExt_ty .i64 c
  | some e => cases c <;> cases hf <;> rfl

omit [ConstantFolder] in
theorem nullValue_ty (ty : Ty) : (nullValue ty).ty = ty := by cases ty <;> rfl

theorem createBinOp_ok {op : BinOp} {a b : Value} : createBinOp op a b s = .ok v t ↔
    (∃ c d, a = .const c ∧ b = .const d ∧ v = .const (op.fold c d) ∧ t = s) ∨
    ((∀ c d, a = .const c → b ≠ .const d) ∧ v = .inst s.nextReg a.ty ∧ t = s.emit (.binop · op a b)) := by
  unfold createBinOp
  split
  · simp [pure_ok]
  · rename_i h
    simp only [emit_ok]
    constructor
    · exact fun hv => Or.inr ⟨fun c d ha hb => h c d ha hb, hv⟩
    · rintro (⟨c, d, ha, hb, -⟩ | ⟨-, hv⟩)
      · exact (h c d ha hb).elim
      · exact hv

theorem createICmp_ok {p : Pred} {a b : Value} : createICmp p a b s = .ok v t ↔
    (∃ c d, a = .const c ∧ b = .const d ∧ v = .const (p.fold c d) ∧ t = s) ∨
    ((∀ c d, a = .const c → b ≠ .const d) ∧ v = .inst s.nextReg .i1 ∧ t = s.emit (.icmp · p a b)) := by
  unfold createICmp
  split
  · simp [pure_ok]
  · rename_i h
    simp only [emit_ok]
    constructor
    · exact fun hv => Or.inr ⟨fun c d ha hb => h c d ha hb, hv⟩
    · rintro (⟨c, d, ha, hb, -⟩ | ⟨-, hv⟩)
      · exact (h c d ha hb).elim
      · exact hv

theorem createSelect_ok {c x y : Value} : createSelect c x y s = .ok v t ↔
    (∃ k d e, c = .const k ∧ x = .const d ∧ y = .const e ∧ v = .const (foldSelect k d e) ∧ t = s) ∨
    ((∀ k d e, c = .const k → x = .const d → y ≠ .const e) ∧ v = .inst s.nextReg x.ty ∧
      t = s.emit (.select · c x y)) := by
  unfold createSelect
  split
  · simp [pure_ok]
  · rename_i h
    simp only [emit_ok]
    constructor
    · exact fun hv => Or.inr ⟨fun k d e hk hd he => h k d e hk hd he, hv⟩
    · rintro (⟨k, d, e, hk, hd, he, -⟩ | ⟨-, hv⟩)
      · exact (h k d e hk hd he).elim
      · exact hv

theorem createIntCast_ok {a : Value} : createIntCast a s = .ok v t ↔
    (a.ty = .i64 ∧ v = a ∧ t = s) ∨
    (a.ty ≠ .i64 ∧ ((∃ c, a = .const c ∧ v = .const (foldZExt .i64 c) ∧ t = s) ∨
      ((∀ c, a ≠ .const c) ∧ v = .inst s.nextReg .i64 ∧ t = s.emit (.zext · a .i64)))) := by
  unfold createIntCast
  split
  · rename_i h
    simp [h, pure_ok]
  · rename_i h
    simp only [h, false_and, ne_eq, not_false_eq_true, true_and, false_or]
    split
    · simp [pure_ok]
    · rename_i h'
      simp only [emit_ok]
      constructor
      · exact fun hv => Or.inr ⟨fun c hc => h' c hc, hv⟩
      · rintro (⟨c, hc, -⟩ | ⟨-, hv⟩)
        · exact (h' c hc).elim
        · exact hv

theorem createGEP_ok {ty : Ty} {p i j : Value} : createGEP ty p i j s = .ok v t ↔
    (∃ c d e, p = .const c ∧ i = .const d ∧ j = .const e ∧ v = .const (foldGEP ty c d e) ∧ t = s) ∨
    ((∀ c d e, p = .const c → i = .const d → j ≠ .const e) ∧ v = .inst s.nextReg .ptr ∧
      t = s.emit (.gep · ty p [i, j])) := by
  unfold createGEP
  split
  · simp [pure_ok]
  · rename_i h
    simp only [emit_ok]
    constructor
    · exact fun hv => Or.inr ⟨fun k d e hk hd he => h k d e hk hd he, hv⟩
    · rintro (⟨k, d, e, hk, hd, he, -⟩ | ⟨-, hv⟩)
      · exact (h k d e hk hd he).elim
      · exact hv

omit [ConstantFolder] in
theorem createLoad_ok {ty : Ty} {p : Value} : createLoad ty p s = .ok v t ↔
    s.insertPoint.isSome = true ∧ v = .inst s.nextReg ty ∧ t = s.emit (.load · ty p) := by
  unfold createLoad
  simp only [bind_ok, getInsertBlock_ok, emit_ok]
  constructor
  · rintro ⟨q, _, ⟨hq, rfl⟩, h⟩
    exact ⟨Option.isSome_of_eq_some hq, h⟩
  · rintro ⟨hp, h⟩
    obtain ⟨q, hq⟩ := Option.isSome_iff_exists.mp hp
    exact ⟨q, s, ⟨hq, rfl⟩, h⟩

omit [ConstantFolder] in
theorem createStore_ok {p : Value} {u : Unit} : createStore v p s = .ok u t ↔
    s.insertPoint.isSome = true ∧ v.ty ≠ .void ∧ t = s.append [.store v p] := by
  unfold createStore
  simp only [bind_ok, getInsertBlock_ok]
  constructor
  · rintro ⟨q, _, ⟨hq, rfl⟩, h⟩
    refine ⟨Option.isSome_of_eq_some hq, ?_⟩
    split at h
    · exact ((seq_ok.mp h).elim fun _ h => unreachable_ok.mp h.1).elim
    · rename_i hv
      exact ⟨hv, insert_ok.mp h⟩
  · rintro ⟨hp, hv, ht⟩
    obtain ⟨q, hq⟩ := Option.isSome_iff_exists.mp hp
    refine ⟨q, s, ⟨hq, rfl⟩, ?_⟩
    rw [if_neg hv]
    exact insert_ok.mpr ht

theorem createNeg_ok {a : Value} : createNeg a s = .ok v t ↔
    a.ty ≠ .void ∧ createBinOp .sub (.const (nullValue a.ty)) a s = .ok v t := by
  unfold createNeg
  by_cases ha : a.ty = .void
  · rw [if_pos ha, seq_ok]
    simp [ha, unreachable_ok]
  · rw [if_neg ha]
    exact (and_iff_right ha).symm

omit [ConstantFolder] in
theorem createInBoundsGEP_ok {ty : Ty} {p i : Value} : createInBoundsGEP ty p i s = .ok v t ↔
    v = .inst s.nextReg .ptr ∧ t = s.emit (.gep · ty p [i]) := emit_ok

omit [ConstantFolder] in
theorem createCall_ok {f : FunctionObj} {args : List Value} {name : String} :
    createCall f args name s = .ok v t ↔
      v = .inst s.nextReg f.retTy ∧ t = s.emit (.call · f.name f.retTy args name) := emit_ok

omit [ConstantFolder] in
theorem createBlock_ok {l : Label} : createBlock s = .ok l t ↔
    l = s.nextLabel ∧ t = { s with nextLabel := s.nextLabel + 1 } := by
  show EStateM.Result.ok s.nextLabel { s with nextLabel := s.nextLabel + 1 } = .ok l t ↔ _
  simp [eq_comm]

/-- Enter block `l` of function `func`. -/
def State.enter (s : State) (func : Nat) (l : Label) : State :=
  { s.appendBlock func l with insertPoint := some ⟨func, l⟩ }

omit [ConstantFolder] in
theorem enterBlock_ok {func : Nat} {l : Label} {u : PUnit} : enterBlock func l s = .ok u t ↔ t = s.enter func l :=
  modify_ok

omit [ConstantFolder] in
theorem requireFunction_ok {x : String} {f : FunctionObj} :
    requireFunction x s = .ok f t ↔ s.function? x = some f ∧ t = s := by
  unfold requireFunction
  simp only [bind_ok, get_ok, and_assoc, exists_and_left, exists_eq_left]
  cases hx : s.function? x with
  | none => simp [logError_ok]
  | some _ => simp [pure_ok, eq_comm]

omit [ConstantFolder] in
theorem requireGlobal_ok {x : String} {g : GlobalVariable} :
    requireGlobal x s = .ok g t ↔ s.global? x = some g ∧ t = s := by
  unfold requireGlobal
  simp only [bind_ok, get_ok, and_assoc, exists_and_left, exists_eq_left]
  cases hx : s.global? x with
  | none => simp [logError_ok]
  | some _ => simp [pure_ok, eq_comm]

end Builder

end L24
