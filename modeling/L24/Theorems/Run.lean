import Mathlib.Logic.Relation
import L24.Theorems.Stmt

/-! The generation of a statement as a run of small steps. What any statement does to the state is said
    once (`GenStep`); what a whole run keeps follows by induction over the run. -/

namespace L24
open Ir Relation

/-! ### Steps -/

/-- The entry block of function number `func`. -/
def State.entry? (s : State) (func : Nat) : Option Label := s.functions[func]?.bind (·.layout.head?)

/-- The allocated type of an alloca, and its count. -/
def AllocaShape (ty : Ty) (count : Option Value) : Prop :=
  ∃ elt, (elt = .i64 ∨ elt = .ptr) ∧
    ((count = none ∧ ty = elt) ∨ ∃ sz n, count = some sz ∧ sz.sextValue? = some n ∧ ty = .array n.toNat elt)

/-- One step of generating a statement of function number `func` that enters blocks from `base` on only. -/
inductive GenStep (func : Nat) (base : Nat) : State → State → Prop
  | emits {s t : State} {is : List Inst} (h : Emits s is t) : GenStep func base s t
  | terminator {s : State} {i : Inst} (h : i.isTerminator = true) : GenStep func base s (s.append [i])
  | emptyBack {s : State} : GenStep func base s { s with emptyBack := true }
  | newBlocks {s : State} : GenStep func base s s.newBlocks
  | enter {s : State} {l : Nat} (h : base ≤ l) (h' : l < s.nextLabel) : GenStep func base s (s.enter func l)
  | pushLoop {s : State} {loop : Label × Label} : GenStep func base s (s.pushLoop loop)
  | popLoop {s : State} : GenStep func base s s.popLoop
  | pushLayer {s : State} : GenStep func base s s.pushLayer
  | popLayer {s : State} : GenStep func base s s.popLayer
  | define {s w : State} {is : List Inst} {layer : Layer} {outer : List Layer} {entry : Label} {x : String}
      {nv : NamedValue} {ty : Ty} {count : Option Value} (hn : s.namedValues = layer :: outer)
      (hx : layer.lookup x = none) (he : s.entry? func = some entry) (ha : nv.alloca = ⟨s.nextSlot, ty⟩)
      (hs : AllocaShape ty count) (hw : Emits (s.emitAlloca entry ty count) is w) :
      GenStep func base s (w.bind x nv)

/-- A run of steps. -/
abbrev GenRun (func : Nat) (base : Nat) : State → State → Prop := ReflTransGen (GenStep func base)

/-- The builder inserts into function number `func`, inside some scope. -/
structure InFunc (func : Nat) (s : State) : Prop where
  point : ∃ l, s.insertPoint = some ⟨func, l⟩
  layers : s.namedValues ≠ []

section Runs
variable {func : Nat} {base : Nat} {s t u : State}

theorem GenStep.nextLabel_le (h : GenStep func base s t) : s.nextLabel ≤ t.nextLabel := by
  cases h with
  | emits h => exact Nat.le_of_eq h.nextLabel.symm
  | terminator => simp
  | newBlocks => exact Nat.le_add_right _ _
  | define _ _ _ _ _ hw =>
    show s.nextLabel ≤ _
    exact Nat.le_of_eq hw.nextLabel.symm
  | _ => exact Nat.le_refl _

theorem GenStep.point (h : GenStep func base s t) (hp : ∃ l, s.insertPoint = some ⟨func, l⟩) :
    ∃ l, t.insertPoint = some ⟨func, l⟩ := by
  cases h with
  | emits h => rw [h.insertPoint]; exact hp
  | terminator => rw [State.append_insertPoint]; exact hp
  | enter => exact ⟨_, rfl⟩
  | define _ _ _ _ _ hw =>
    show ∃ l, State.insertPoint _ = _
    rw [State.bind, hw.insertPoint]; exact hp
  | _ => exact hp

theorem GenRun.nextLabel_le (h : GenRun func base s t) : s.nextLabel ≤ t.nextLabel := by
  induction h with
  | refl => exact Nat.le_refl _
  | tail _ h ih => exact Nat.le_trans ih h.nextLabel_le

theorem GenRun.point (h : GenRun func base s t) (hp : ∃ l, s.insertPoint = some ⟨func, l⟩) :
    ∃ l, t.insertPoint = some ⟨func, l⟩ := by
  induction h with
  | refl => exact hp
  | tail _ h ih => exact h.point ih

/-- A step that may enter fewer blocks is one that may enter more. -/
theorem GenStep.mono {base' : Nat} (hb : base' ≤ base) (h : GenStep func base s t) : GenStep func base' s t := by
  cases h with
  | emits h => exact .emits h
  | terminator h => exact .terminator h
  | emptyBack => exact .emptyBack
  | newBlocks => exact .newBlocks
  | enter h h' => exact .enter (Nat.le_trans hb h) h'
  | pushLoop => exact .pushLoop
  | popLoop => exact .popLoop
  | pushLayer => exact .pushLayer
  | popLayer => exact .popLayer
  | define hn hx he ha hs hw => exact .define hn hx he ha hs hw

theorem GenRun.emits {is : List Inst} (h : Emits s is t) : GenRun func base s t := .single (.emits h)

theorem GenRun.brUnlessBranch {p : InsertPoint} {target : Label} :
    GenRun func base s (s.brUnlessBranch p target) := by
  unfold State.brUnlessBranch
  split
  · split
    · exact .refl
    · exact .single (.terminator rfl)
  · exact .tail (.single .emptyBack) (.terminator rfl)

theorem brUnlessBranch_namedValues (s : State) (p : InsertPoint) (l : Label) :
    (s.brUnlessBranch p l).namedValues = s.namedValues := by
  unfold State.brUnlessBranch
  split
  · split
    · rfl
    · exact State.append_namedValues s _
  · exact State.append_namedValues _ _

theorem brUnlessBranch_nestedBlocks (s : State) (p : InsertPoint) (l : Label) :
    (s.brUnlessBranch p l).nestedBlocks = s.nestedBlocks := by
  unfold State.brUnlessBranch
  split
  · split
    · rfl
    · exact State.append_nestedBlocks s _
  · exact State.append_nestedBlocks _ _

theorem brUnlessBranch_nextLabel (s : State) (p : InsertPoint) (l : Label) :
    (s.brUnlessBranch p l).nextLabel = s.nextLabel := by
  unfold State.brUnlessBranch
  split
  · split
    · rfl
    · exact State.append_nextLabel s _
  · exact State.append_nextLabel _ _

variable [ConstantFolder]

theorem intToBoolean_emits {v c : Value} (h : intToBoolean v s = .ok c t) : ∃ is, Emits s is t := createICmp_emits h

/-! ### Definitions -/

omit [ConstantFolder] in
theorem createEntryBlockAlloca_step {size : Option Value} {isPtr : Bool} {a : AllocaInst}
    (h : createEntryBlockAlloca func size isPtr s = .ok a t) :
    ∃ entry, s.entry? func = some entry ∧ a.slot = s.nextSlot ∧ AllocaShape a.ty size ∧
      t = s.emitAlloca entry a.ty size := by
  obtain ⟨entry, he, ⟨rfl, rfl, rfl⟩ | ⟨sz, n, rfl, hn, rfl, rfl⟩⟩ := createEntryBlockAlloca_ok.mp h
  · refine ⟨entry, he, rfl, ⟨if isPtr then .ptr else .i64, ?_, Or.inl ⟨rfl, rfl⟩⟩, rfl⟩
    cases isPtr <;> simp
  · refine ⟨entry, he, rfl, ⟨if isPtr then .ptr else .i64, ?_, Or.inr ⟨sz, n, rfl, hn, rfl⟩⟩, rfl⟩
    cases isPtr <;> simp

/-- What a definition in a function does: an alloca in the entry block, stores at the insertion point, and
    an entry in the current layer. -/
theorem createDefineValueInst_step {vals : List Value} {size : Option Value} {isPtr : Bool} {a : AllocaInst}
    (h : createDefineValueInst vals size isPtr s = .ok a t) : ∃ p entry is, s.insertPoint = some p ∧
      s.entry? p.func = some entry ∧ a.slot = s.nextSlot ∧ AllocaShape a.ty size ∧
      Emits (s.emitAlloca entry a.ty size) is t := by
  obtain ⟨p, w, hp, hw, h⟩ := createDefineValueInst_ok h
  obtain ⟨entry, he, hs, hsh, rfl⟩ := createEntryBlockAlloca_step hw
  rcases h with ⟨-, v, -, rfl⟩ | ⟨-, rfl⟩
  · exact ⟨p, entry, _, hp, he, hs, hsh, .append fun i hi => by rw [List.mem_singleton.mp hi]; exact ⟨rfl, rfl⟩⟩
  · exact ⟨p, entry, _, hp, he, hs, hsh, .appendRegs elementStores_plain _⟩

/-- The layers after definitions in the current one. -/
structure Defined (s t : State) : Prop where
  outer : t.namedValues.tail = s.namedValues.tail
  layers : t.namedValues ≠ []
  nestedBlocks : t.nestedBlocks = s.nestedBlocks

omit [ConstantFolder] in
theorem Defined.refl (h : s.namedValues ≠ []) : Defined s s := ⟨rfl, h, rfl⟩

omit [ConstantFolder] in
theorem Defined.trans (h₁ : Defined s t) (h₂ : Defined t u) : Defined s u :=
  ⟨h₂.outer.trans h₁.outer, h₂.layers, h₂.nestedBlocks.trans h₁.nestedBlocks⟩

omit [ConstantFolder] in
theorem ValType.named_alloca (ty : ValType) (a : AllocaInst) : (ty.named a).alloca = a := by cases ty <;> rfl

theorem defineValue_run (base : Nat) {x : String} {ty : ValType} {vals : List Value} {size : Option Value}
    {isPtr : Bool}
    (hf : InFunc func s) (h : defineValue x ty vals size isPtr s = .ok () t) :
    GenRun func base s t ∧ Defined s t := by
  rcases defineValue_ok h with ⟨hn, -⟩ | ⟨layer, outer, a, w, hn, hx, hw, rfl⟩
  · exact absurd hn hf.layers
  · obtain ⟨p, entry, is, hp, he, ha, hsh, hw⟩ := createDefineValueInst_step hw
    obtain ⟨l, hl⟩ := hf.point
    rw [hp] at hl
    obtain rfl : p = ⟨func, l⟩ := Option.some.inj hl
    refine ⟨.tail (.single (.define hn hx he ?_ hsh hw)) (.emits (.log _)), ?_⟩
    · rw [ty.named_alloca, ← ha]
    · have hnw : w.namedValues = layer :: outer := hw.namedValues.trans hn
      refine ⟨?_, ?_, hw.nestedBlocks⟩ <;> simp [State.log, State.bind, hnw, hn]

omit [ConstantFolder] in
theorem InFunc.emits {is : List Inst} (hf : InFunc func s) (h : Emits s is t) : InFunc func t :=
  ⟨by rw [h.insertPoint]; exact hf.point, by rw [h.namedValues]; exact hf.layers⟩

omit [ConstantFolder] in
theorem InFunc.run (hf : InFunc func s) (h : GenRun func base s t) (hn : t.namedValues ≠ []) : InFunc func t :=
  ⟨h.point hf.point, hn⟩

omit [ConstantFolder] in
theorem Emits.defined {is : List Inst} (h : Emits s is t) (hn : s.namedValues ≠ []) : Defined s t :=
  ⟨by rw [h.namedValues], by rw [h.namedValues]; exact hn, h.nestedBlocks⟩

theorem Def.gen_run (base : Nat) {d : Def} (hf : InFunc func s) (h : d.gen s = .ok () t) :
    GenRun func base s t ∧ Defined s t := by
  obtain ⟨size, vs, w, hi, h⟩ := codeGenDef_ok.mp h
  obtain ⟨is, e⟩ := hi.emits
  obtain ⟨r, d⟩ := defineValue_run base (hf.emits e) h
  exact ⟨.head (.emits e) r, (e.defined hf.layers).trans d⟩

theorem defs_run (base : Nat) : ∀ {ds : List Def} {s t : State}, InFunc func s → ds.forM Def.gen s = .ok ⟨⟩ t →
    GenRun func base s t ∧ Defined s t
  | [], s, t, hf, h => by
    obtain rfl := forM_nil_ok.mp h
    exact ⟨.refl, .refl hf.layers⟩
  | d :: ds, s, t, hf, h => by
    obtain ⟨w, hd, h⟩ := forM_cons_ok.mp h
    obtain ⟨r₁, d₁⟩ := Def.gen_run base hf hd
    obtain ⟨r₂, d₂⟩ := defs_run base (hf.run r₁ d₁.layers) h
    exact ⟨r₁.trans r₂, d₁.trans d₂⟩

theorem codeGenDecl_run (base : Nat) {d : DeclNode} (hf : InFunc func s) (h : codeGenDecl d s = .ok () t) :
    GenRun func base s t ∧ Defined s t := by
  rw [codeGenDecl_defs] at h
  exact defs_run base hf h

/-! ### Statements -/

/-- A statement leaves the layers and the loops as they were. -/
structure Restored (s t : State) : Prop where
  namedValues : t.namedValues = s.namedValues
  nestedBlocks : t.nestedBlocks = s.nestedBlocks

omit [ConstantFolder] in
theorem Restored.defined (h : Restored s t) (hn : s.namedValues ≠ []) : Defined s t :=
  ⟨by rw [h.namedValues], by rw [h.namedValues]; exact hn, h.nestedBlocks⟩

omit [ConstantFolder] in
theorem Emits.restored {is : List Inst} (h : Emits s is t) : Restored s t := ⟨h.namedValues, h.nestedBlocks⟩

omit [ConstantFolder] in
theorem InFunc.append (hf : InFunc func s) (is : List Inst) : InFunc func (s.append is) :=
  ⟨by rw [State.append_insertPoint]; exact hf.point, by rw [State.append_namedValues]; exact hf.layers⟩

omit [ConstantFolder] in
/-- The point where a branch is generated: behind a branch instruction, in an entered block. -/
theorem GenRun.branch {i : Inst} {l : Nat} (hi : i.isTerminator = true) (hb : base ≤ l) (hl : l < s.nextLabel) :
    GenRun func base s ((s.append [i]).enter func l) :=
  .tail (.single (.terminator hi)) (.enter hb (by simpa using hl))

omit [ConstantFolder] in
/-- The end of a branch: a branch unless there is one, and the next block. -/
theorem GenRun.close {p : InsertPoint} {target l : Nat} (hb : base ≤ l) (hl : l < s.nextLabel) :
    GenRun func base s ((s.brUnlessBranch p target).enter func l) :=
  GenRun.brUnlessBranch.tail (.enter hb (by rw [brUnlessBranch_nextLabel]; exact hl))

/-- What the generation of a statement amounts to. -/
def StmtRuns (func : Nat) (st : StmtNode) : Prop := ∀ (base : Nat) {s t : State}, InFunc func s →
  base ≤ s.nextLabel → codeGenStmt st s = .ok () t → GenRun func base s t ∧ Restored s t

/-- The begin of the then branch: behind the conditional branch, in the first of three new blocks. -/
def State.thenStart (s : State) (func : Nat) (c : Value) : State :=
  (s.newBlocks.append [.condBr c s.nextLabel (s.nextLabel + 1)]).enter func s.nextLabel

/-- The generation of an `if`, in parts: the condition up to `s₂`, the then branch up to `s₃`, the else
    branch up to `s₄`. -/
structure IfRun (func : Nat) (e : ExprNode) (thenStmt : StmtNode) (elseStmt : Option StmtNode) (s : State)
    (v : Value) (s₁ : State) (c : Value) (s₂ s₃ : State) (q : InsertPoint) (s₄ : State) (r : InsertPoint)
    (t : State) : Prop where
  cond : codeGenExp e s = .ok v s₁
  bool : intToBoolean v s₁ = .ok c s₂
  thenGen : codeGenStmt thenStmt (s₂.thenStart func c) = .ok () s₃
  thenPoint : s₃.insertPoint = some q
  elseGen : codeGenStmt (elseBranch elseStmt)
    ((s₃.brUnlessBranch q (s₂.nextLabel + 2)).enter func (s₂.nextLabel + 1)) = .ok () s₄
  elsePoint : s₄.insertPoint = some r
  result : t = (s₄.brUnlessBranch r (s₂.nextLabel + 2)).enter func (s₂.nextLabel + 2)
  inFunc : InFunc func s₂
  nextLabel : s₂.nextLabel = s.nextLabel
  thenIn : InFunc func (s₂.thenStart func c)
  thenRun : GenRun func (s.nextLabel + 3) (s₂.thenStart func c) s₃
  thenRestored : Restored (s₂.thenStart func c) s₃
  elseIn : InFunc func ((s₃.brUnlessBranch q (s₂.nextLabel + 2)).enter func (s₂.nextLabel + 1))
  elseRun : GenRun func (s.nextLabel + 3)
    ((s₃.brUnlessBranch q (s₂.nextLabel + 2)).enter func (s₂.nextLabel + 1)) s₄
  elseRestored : Restored ((s₃.brUnlessBranch q (s₂.nextLabel + 2)).enter func (s₂.nextLabel + 1)) s₄

section If
variable {e : ExprNode} {thenStmt : StmtNode} {elseStmt : Option StmtNode} {v c : Value} {s₁ s₂ s₃ s₄ : State}
  {q r : InsertPoint}

theorem codeGenStmt_if_run (iha : StmtRuns func thenStmt) (ihb : StmtRuns func (elseBranch elseStmt))
    (hf : InFunc func s) (h : codeGenStmt (.ifStmt e thenStmt elseStmt) s = .ok () t) :
    ∃ v s₁ c s₂ s₃ q s₄ r, IfRun func e thenStmt elseStmt s v s₁ c s₂ s₃ q s₄ r t := by
  obtain ⟨v, s₁, c, s₂, p, s₃, q, s₄, r, hv, hc, hp, h₃, hq, h₄, hr, rfl⟩ := codeGenStmt_if_ok.mp h
  obtain ⟨is, e₁⟩ := codeGenExp_emits hv
  obtain ⟨js, e₂⟩ := intToBoolean_emits hc
  have e₁₂ := e₁.trans e₂
  have hf₂ := hf.emits e₁₂
  obtain ⟨l, rfl⟩ : ∃ l, p = ⟨func, l⟩ := by
    obtain ⟨l, hl⟩ := hf₂.point
    exact ⟨l, Option.some.inj (hp.symm.trans hl)⟩
  have thenIn : InFunc func (s₂.thenStart func c) := by
    refine ⟨⟨_, rfl⟩, ?_⟩
    show (State.append _ _).namedValues ≠ []
    rw [State.append_namedValues]
    exact hf₂.layers
  have hl : (s₂.thenStart func c).nextLabel = s₂.nextLabel + 3 := by
    show (State.append _ _).nextLabel = _
    rw [State.append_nextLabel]
    rfl
  obtain ⟨r₃, k₃⟩ := iha (s.nextLabel + 3) thenIn (Nat.le_of_eq (by rw [hl, e₁₂.nextLabel])) h₃
  have elseIn : InFunc func ((s₃.brUnlessBranch q (s₂.nextLabel + 2)).enter func (s₂.nextLabel + 1)) := by
    refine ⟨⟨_, rfl⟩, ?_⟩
    show (State.brUnlessBranch _ _ _).namedValues ≠ []
    rw [brUnlessBranch_namedValues, k₃.namedValues]
    exact thenIn.layers
  have hb : s.nextLabel + 3 ≤ ((s₃.brUnlessBranch q (s₂.nextLabel + 2)).enter func (s₂.nextLabel + 1)).nextLabel := by
    have := r₃.nextLabel_le
    rw [hl, e₁₂.nextLabel] at this
    show _ ≤ (s₃.brUnlessBranch q _).nextLabel
    rw [brUnlessBranch_nextLabel]
    exact this
  obtain ⟨r₄, k₄⟩ := ihb _ elseIn hb h₄
  exact ⟨v, s₁, c, s₂, s₃, q, s₄, r, hv, hc, h₃, hq, h₄, hr, rfl, hf₂, e₁₂.nextLabel, thenIn, r₃, k₃, elseIn, r₄, k₄⟩

theorem IfRun.emits (h : IfRun func e thenStmt elseStmt s v s₁ c s₂ s₃ q s₄ r t) : ∃ is, Emits s is s₂ := by
  obtain ⟨is, e₁⟩ := codeGenExp_emits h.cond
  obtain ⟨js, e₂⟩ := intToBoolean_emits h.bool
  exact ⟨_, e₁.trans e₂⟩

theorem IfRun.thenLabel (h : IfRun func e thenStmt elseStmt s v s₁ c s₂ s₃ q s₄ r t) :
    (s₂.thenStart func c).nextLabel = s.nextLabel + 3 := by
  show (State.append _ _).nextLabel = _
  rw [State.append_nextLabel, ← h.nextLabel]
  rfl

theorem IfRun.start (h : IfRun func e thenStmt elseStmt s v s₁ c s₂ s₃ q s₄ r t) :
    GenRun func s.nextLabel s (s₂.thenStart func c) := by
  obtain ⟨is, e⟩ := h.emits
  refine .head (.emits e) (.head .newBlocks (GenRun.branch rfl ?_ ?_))
  · exact Nat.le_of_eq h.nextLabel.symm
  · show s₂.nextLabel < s₂.nextLabel + 3
    omega

theorem IfRun.middle (h : IfRun func e thenStmt elseStmt s v s₁ c s₂ s₃ q s₄ r t) :
    GenRun func s.nextLabel s₃ ((s₃.brUnlessBranch q (s₂.nextLabel + 2)).enter func (s₂.nextLabel + 1)) := by
  have h₃ := h.thenRun.nextLabel_le
  rw [h.thenLabel] at h₃
  exact GenRun.close (by rw [h.nextLabel]; omega) (by rw [h.nextLabel]; omega)

theorem IfRun.finish (h : IfRun func e thenStmt elseStmt s v s₁ c s₂ s₃ q s₄ r t) :
    GenRun func s.nextLabel s₄ t := by
  have h₃ := h.thenRun.nextLabel_le
  rw [h.thenLabel] at h₃
  have h₄ := Nat.le_trans (Nat.le_trans h₃ h.middle.nextLabel_le) h.elseRun.nextLabel_le
  rw [h.result]
  exact GenRun.close (by rw [h.nextLabel]; omega) (by rw [h.nextLabel]; omega)

omit [ConstantFolder] in
theorem GenRun.mono {base' : Nat} (hb : base' ≤ base) (h : GenRun func base s t) : GenRun func base' s t := by
  induction h with
  | refl => exact .refl
  | tail _ h ih => exact ih.tail (h.mono hb)

theorem IfRun.run (h : IfRun func e thenStmt elseStmt s v s₁ c s₂ s₃ q s₄ r t) : GenRun func s.nextLabel s t :=
  h.start.trans ((h.thenRun.mono (by omega)).trans (h.middle.trans ((h.elseRun.mono (by omega)).trans h.finish)))

theorem IfRun.restored (h : IfRun func e thenStmt elseStmt s v s₁ c s₂ s₃ q s₄ r t) : Restored s t := by
  obtain ⟨is, e⟩ := h.emits
  rw [h.result]
  constructor
  · show (State.brUnlessBranch _ _ _).namedValues = _
    rw [brUnlessBranch_namedValues, h.elseRestored.namedValues]
    show (State.brUnlessBranch _ _ _).namedValues = _
    rw [brUnlessBranch_namedValues, h.thenRestored.namedValues]
    show (State.append _ _).namedValues = _
    rw [State.append_namedValues]
    exact e.namedValues
  · show (State.brUnlessBranch _ _ _).nestedBlocks = _
    rw [brUnlessBranch_nestedBlocks, h.elseRestored.nestedBlocks]
    show (State.brUnlessBranch _ _ _).nestedBlocks = _
    rw [brUnlessBranch_nestedBlocks, h.thenRestored.nestedBlocks]
    show (State.append _ _).nestedBlocks = _
    rw [State.append_nestedBlocks]
    exact e.nestedBlocks

end If

/-- The begin of a loop: behind a branch to the first of three new blocks, in that block. -/
def State.loopStart (s : State) (func : Nat) : State :=
  ((s.newBlocks.pushLoop (s.nextLabel, s.nextLabel + 2)).append [.br s.nextLabel]).enter func s.nextLabel

/-- The begin of the body of the loop with the first block `l`. -/
def State.bodyStart (s : State) (func : Nat) (c : Value) (l : Nat) : State :=
  (s.append [.condBr c (l + 1) (l + 2)]).enter func (l + 1)

omit [ConstantFolder] in
theorem loopStart_namedValues : (s.loopStart func).namedValues = s.namedValues := State.append_namedValues _ _

omit [ConstantFolder] in
theorem loopStart_nestedBlocks : (s.loopStart func).nestedBlocks = (s.nextLabel, s.nextLabel + 2) :: s.nestedBlocks :=
  State.append_nestedBlocks _ _

omit [ConstantFolder] in
theorem loopStart_nextLabel : (s.loopStart func).nextLabel = s.nextLabel + 3 := State.append_nextLabel _ _

omit [ConstantFolder] in
theorem bodyStart_namedValues {c : Value} {l : Nat} : (s.bodyStart func c l).namedValues = s.namedValues :=
  State.append_namedValues _ _

omit [ConstantFolder] in
theorem bodyStart_nestedBlocks {c : Value} {l : Nat} : (s.bodyStart func c l).nestedBlocks = s.nestedBlocks :=
  State.append_nestedBlocks _ _

/-- The generation of a `while`, in parts: the condition up to `s₂`, the body up to `s₃`. -/
structure WhileRun (func : Nat) (e : ExprNode) (body : StmtNode) (s : State) (v : Value) (s₁ : State) (c : Value)
    (s₂ s₃ : State) (q : InsertPoint) (t : State) : Prop where
  inFunc : InFunc func s
  cond : codeGenExp e (s.loopStart func) = .ok v s₁
  bool : intToBoolean v s₁ = .ok c s₂
  bodyGen : codeGenStmt body (s₂.bodyStart func c s.nextLabel) = .ok () s₃
  bodyPoint : s₃.insertPoint = some q
  result : t = ((s₃.brUnlessBranch q s.nextLabel).enter func (s.nextLabel + 2)).popLoop
  nextLabel : s₂.nextLabel = s.nextLabel + 3
  bodyIn : InFunc func (s₂.bodyStart func c s.nextLabel)
  bodyRun : GenRun func (s.nextLabel + 3) (s₂.bodyStart func c s.nextLabel) s₃
  bodyRestored : Restored (s₂.bodyStart func c s.nextLabel) s₃

section While
variable {e : ExprNode} {body : StmtNode} {v c : Value} {s₁ s₂ s₃ : State} {q : InsertPoint}

theorem codeGenStmt_while_run (ih : StmtRuns func body) (hf : InFunc func s)
    (h : codeGenStmt (.whileStmt e body) s = .ok () t) :
    ∃ v s₁ c s₂ s₃ q, WhileRun func e body s v s₁ c s₂ s₃ q t := by
  obtain ⟨p, v, s₁, c, s₂, s₃, q, hp, hv, hc, h₃, hq, rfl⟩ := codeGenStmt_while_ok.mp h
  obtain ⟨l, rfl⟩ : ∃ l, p = ⟨func, l⟩ := by
    obtain ⟨l, hl⟩ := hf.point
    exact ⟨l, Option.some.inj (hp.symm.trans hl)⟩
  obtain ⟨is, e₁⟩ := codeGenExp_emits hv
  obtain ⟨js, e₂⟩ := intToBoolean_emits hc
  have e₁₂ := e₁.trans e₂
  have hl : s₂.nextLabel = s.nextLabel + 3 := by
    rw [e₁₂.nextLabel]
    show (State.append _ _).nextLabel = _
    rw [State.append_nextLabel]
    rfl
  have bodyIn : InFunc func (s₂.bodyStart func c s.nextLabel) := by
    refine ⟨⟨_, rfl⟩, ?_⟩
    show (State.append _ _).namedValues ≠ []
    rw [State.append_namedValues, e₁₂.namedValues]
    show (State.append _ _).namedValues ≠ []
    rw [State.append_namedValues]
    exact hf.layers
  obtain ⟨r₃, k₃⟩ := ih (s.nextLabel + 3) bodyIn (Nat.le_of_eq (by
    show _ = (State.append _ _).nextLabel
    rw [State.append_nextLabel, hl])) h₃
  exact ⟨v, s₁, c, s₂, s₃, q, hf, hv, hc, h₃, hq, rfl, hl, bodyIn, r₃, k₃⟩

theorem WhileRun.emits (h : WhileRun func e body s v s₁ c s₂ s₃ q t) : ∃ is, Emits (s.loopStart func) is s₂ := by
  obtain ⟨is, e₁⟩ := codeGenExp_emits h.cond
  obtain ⟨js, e₂⟩ := intToBoolean_emits h.bool
  exact ⟨_, e₁.trans e₂⟩

omit [ConstantFolder] in
theorem loopStart_run : GenRun func s.nextLabel s (s.loopStart func) := by
  refine .head .newBlocks (.head .pushLoop (GenRun.branch rfl (Nat.le_refl _) ?_))
  show s.nextLabel < s.nextLabel + 3
  omega

theorem WhileRun.start (h : WhileRun func e body s v s₁ c s₂ s₃ q t) :
    GenRun func s.nextLabel s (s₂.bodyStart func c s.nextLabel) := by
  obtain ⟨is, e⟩ := h.emits
  exact loopStart_run.trans (.head (.emits e) (GenRun.branch rfl (by omega) (by rw [h.nextLabel]; omega)))

theorem WhileRun.finish (h : WhileRun func e body s v s₁ c s₂ s₃ q t) : GenRun func s.nextLabel s₃ t := by
  have h₃ : s₂.nextLabel ≤ s₃.nextLabel := by
    refine Nat.le_trans (Nat.le_of_eq ?_) h.bodyRun.nextLabel_le
    show _ = (State.append _ _).nextLabel
    rw [State.append_nextLabel]
  rw [h.nextLabel] at h₃
  rw [h.result]
  exact .tail (GenRun.close (by omega) (by omega)) .popLoop

theorem WhileRun.run (h : WhileRun func e body s v s₁ c s₂ s₃ q t) : GenRun func s.nextLabel s t :=
  h.start.trans ((h.bodyRun.mono (by omega)).trans h.finish)

theorem WhileRun.restored (h : WhileRun func e body s v s₁ c s₂ s₃ q t) : Restored s t := by
  obtain ⟨is, e⟩ := h.emits
  have hn : (s₂.bodyStart func c s.nextLabel).namedValues = s.namedValues := by
    show (State.append _ _).namedValues = _
    rw [State.append_namedValues, e.namedValues]
    show (State.append _ _).namedValues = _
    rw [State.append_namedValues]
    rfl
  have hb : (s₂.bodyStart func c s.nextLabel).nestedBlocks = (s.nextLabel, s.nextLabel + 2) :: s.nestedBlocks := by
    show (State.append _ _).nestedBlocks = _
    rw [State.append_nestedBlocks, e.nestedBlocks]
    show (State.append _ _).nestedBlocks = _
    rw [State.append_nestedBlocks]
    rfl
  rw [h.result]
  constructor
  · show (State.brUnlessBranch _ _ _).namedValues = _
    rw [brUnlessBranch_namedValues, h.bodyRestored.namedValues, hn]
  · show (State.brUnlessBranch _ _ _).nestedBlocks.tail = _
    rw [brUnlessBranch_nestedBlocks, h.bodyRestored.nestedBlocks, hb]
    rfl

end While

mutual

theorem codeGenStmt_run : ∀ (st : StmtNode) {base : Nat} {s t : State}, InFunc func s → base ≤ s.nextLabel →
    codeGenStmt st s = .ok () t → GenRun func base s t ∧ Restored s t
  | .block items, base, s, t, hf, hb, h => by
    obtain ⟨w, hw, rfl⟩ := codeGenStmt_block_ok.mp h
    have e : Emits s.pushLayer [] (s.pushLayer.log .push) := .log _
    have hf' : InFunc func (s.pushLayer.log .push) := ⟨hf.point, List.cons_ne_nil _ _⟩
    obtain ⟨r, d⟩ := codeGenBlockItems_run items hf' hb hw
    -- Push, log, items, pop, log: the layer that the block pushed is the one it pops.
    refine ⟨.head .pushLayer (.head (.emits e) (.trans r (.head .popLayer (GenRun.emits (.log _))))), ?_,
      d.nestedBlocks⟩
    exact d.outer
  | .ifStmt e thenStmt elseStmt, base, s, t, hf, hb, h => by
    obtain ⟨v, s₁, c, s₂, s₃, q, s₄, r, hr⟩ := codeGenStmt_if_run
      (fun _ _ _ hf hb h => codeGenStmt_run thenStmt hf hb h)
        (fun _ _ _ hf hb h => codeGenStmt_elseBranch_run elseStmt hf hb h) hf h
    exact ⟨hr.run.mono hb, hr.restored⟩
  | .whileStmt e body, base, s, t, hf, hb, h => by
    obtain ⟨v, s₁, c, s₂, s₃, q, hr⟩ := codeGenStmt_while_run (fun _ _ _ hf hb h => codeGenStmt_run body hf hb h) hf h
    exact ⟨hr.run.mono hb, hr.restored⟩
  | .continueStmt, base, s, t, hf, hb, h => by
    obtain ⟨loop, outer, -, rfl⟩ := codeGenStmt_continue_ok.mp h
    exact ⟨.single (.terminator rfl), State.append_namedValues s _, State.append_nestedBlocks s _⟩
  | .breakStmt, base, s, t, hf, hb, h => by
    obtain ⟨loop, outer, -, rfl⟩ := codeGenStmt_break_ok.mp h
    exact ⟨.single (.terminator rfl), State.append_namedValues s _, State.append_nestedBlocks s _⟩
  | .ret none, base, s, t, hf, hb, h => by
    obtain rfl := codeGenStmt_retVoid_ok.mp h
    exact ⟨.single (.terminator rfl), State.append_namedValues s _, State.append_nestedBlocks s _⟩
  | .ret (some e), base, s, t, hf, hb, h => by
    obtain ⟨v, w, hv, rfl⟩ := codeGenStmt_ret_ok.mp h
    obtain ⟨is, e₁⟩ := codeGenExp_emits hv
    refine ⟨.head (.emits e₁) (.single (.terminator rfl)), ?_, ?_⟩
    · rw [State.append_namedValues, e₁.namedValues]
    · rw [State.append_nestedBlocks, e₁.nestedBlocks]
  | .expr none, base, s, t, hf, hb, h => by
    obtain rfl := codeGenStmt_empty_ok.mp h
    exact ⟨.refl, rfl, rfl⟩
  | .expr (some e), base, s, t, hf, hb, h => by
    obtain ⟨v, hv⟩ := codeGenStmt_expr_ok.mp h
    obtain ⟨is, e₁⟩ := codeGenExp_emits hv
    exact ⟨GenRun.emits e₁, e₁.restored⟩
  | .assign x sub e, base, s, t, hf, hb, h => by
    obtain ⟨v, w, idx, k, hv, hk, hx⟩ := codeGenStmt_assign_ok.mp h
    obtain ⟨is, e₁⟩ := codeGenExp_emits hv
    obtain ⟨js, e₂⟩ := codeGenSubIdx_emits hk
    obtain ⟨ks, e₃⟩ := setValue_emits ((hf.emits e₁).emits e₂).layers hx
    have e := e₁.trans (e₂.trans e₃)
    exact ⟨GenRun.emits e, e.restored⟩

theorem codeGenStmt_elseBranch_run : ∀ (st : Option StmtNode) {base : Nat} {s t : State}, InFunc func s →
    base ≤ s.nextLabel → codeGenStmt (elseBranch st) s = .ok () t → GenRun func base s t ∧ Restored s t
  | none, base, s, t, hf, hb, h => by
    obtain rfl := codeGenStmt_empty_ok.mp h
    exact ⟨.refl, rfl, rfl⟩
  | some st, base, s, t, hf, hb, h => codeGenStmt_run st hf hb h

theorem codeGenBlockItem_run : ∀ (item : BlockItemNode) {base : Nat} {s t : State}, InFunc func s →
    base ≤ s.nextLabel → codeGenBlockItem item s = .ok () t → GenRun func base s t ∧ Defined s t
  | .decl d, base, s, t, hf, hb, h => codeGenDecl_run base hf (codeGenBlockItem_decl ▸ h)
  | .stmt st, base, s, t, hf, hb, h => by
    obtain ⟨r, k⟩ := codeGenStmt_run st hf hb (codeGenBlockItem_stmt ▸ h)
    exact ⟨r, k.defined hf.layers⟩

theorem codeGenBlockItems_run : ∀ (items : List BlockItemNode) {base : Nat} {s t : State}, InFunc func s →
    base ≤ s.nextLabel → codeGenBlockItems items s = .ok () t → GenRun func base s t ∧ Defined s t
  | [], base, s, t, hf, hb, h => by
    obtain rfl := codeGenBlockItems_nil_ok.mp h
    exact ⟨.refl, .refl hf.layers⟩
  | item :: items, base, s, t, hf, hb, h => by
    obtain ⟨w, hw, h⟩ := codeGenBlockItems_cons_ok.mp h
    obtain ⟨r₁, d₁⟩ := codeGenBlockItem_run item hf hb hw
    obtain ⟨r₂, d₂⟩ := codeGenBlockItems_run items (hf.run r₁ d₁.layers) (Nat.le_trans hb r₁.nextLabel_le) h
    exact ⟨r₁.trans r₂, d₁.trans d₂⟩

end

end Runs

end L24
