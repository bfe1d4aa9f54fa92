import Mathlib.Algebra.Ring.Nat
import L24.Ir.Machine
import L24.Theorems.Finished
import L24.Theorems.Flow
import L24.Theorems.Params

/-! The size of a frame: how many cells the allocas of a function reserve, against what its parameters and local
    declarations ask for. The alloca of an array has the array's type and its size as the count, so that it reserves the
    square of the size. -/

namespace L24
open Ir

/-! ### Cells -/

/-- The count operand of an alloca. -/
def allocaCount : Option Value → Nat
  | none => 1
  | some (.const c) => c.eval.count?.getD 0
  | some _ => 0

/-- The cells that an instruction reserves. -/
def instCells : Inst → Nat
  | .alloca _ ty count => allocaCount count * ty.cells
  | _ => 0

/-- The cells that the allocas of a function reserve. -/
def reservedCells (F : Function) : Nat := ((F.blocks.flatMap (·.2)).map instCells).sum

/-- The cells reserved in a block. -/
def State.reserved (s : State) (l : Label) : Nat := ((s.blocks l).map instCells).sum

/-- The size of an array, as `getSExtValue` reads it, without its sign. -/
def arraySize (size : Exp) : Nat := ((Value.const size.fold).sextValue?.map BitVec.toNat).getD 0

/-- The cells that a definition asks for: one for a scalar, and the size of an array. -/
def Def.declaredCells (d : Def) : Nat :=
  match d.exp with
  | none => 1
  | some e => arrayElements e.core

/-- The cells that a definition reserves. -/
def Def.reservedCells (d : Def) : Nat :=
  match d.exp with
  | none => 1
  | some e => arraySize e.core * arraySize e.core

mutual

/-- The local definitions of a statement, at any depth. -/
def StmtNode.localDefs : StmtNode → List Def
  | .block items => blockLocalDefs items
  | .ifStmt _ a none => a.localDefs
  | .ifStmt _ a (some b) => a.localDefs ++ b.localDefs
  | .whileStmt _ b => b.localDefs
  | _ => []

def BlockItemNode.localDefs : BlockItemNode → List Def
  | .decl d => d.defs
  | .stmt st => st.localDefs

/-- The definitions in the items of a block. -/
def blockLocalDefs : List BlockItemNode → List Def
  | [] => []
  | item :: items => item.localDefs ++ blockLocalDefs items

end

theorem localDefs_if (e : ExprNode) (a : StmtNode) (b : Option StmtNode) :
    (StmtNode.ifStmt e a b).localDefs = a.localDefs ++ (elseBranch b).localDefs := by
  cases b with
  | none => simp [StmtNode.localDefs, elseBranch]
  | some b => rfl

/-- The cells that a function asks for: one for each parameter, and those of its local definitions. -/
def FuncNode.declaredCells (f : FuncNode) : Nat :=
  f.param.length + ((blockLocalDefs f.block).map Def.declaredCells).sum

/-- The cells that a function reserves. -/
def FuncNode.reservedCells (f : FuncNode) : Nat :=
  f.param.length + ((blockLocalDefs f.block).map Def.reservedCells).sum

/-- No local array of the function has more than one element. -/
def FuncNode.smallArrays (f : FuncNode) : Prop :=
    ∀ d ∈ blockLocalDefs f.block, ∀ e, d.exp = some e → arraySize e.core ≤ 1

/-! ### Sums -/

section Sums
variable {α : Type} {f g : α → Nat} {l : List α}

/-- Sums of bounded terms are bounded, and equal exactly if the terms are. -/
theorem sum_map_le_iff (h : ∀ a ∈ l, g a ≤ f a) :
    (l.map g).sum ≤ (l.map f).sum ∧ ((l.map f).sum = (l.map g).sum ↔ ∀ a ∈ l, f a = g a) := by
  induction l with
  | nil => simp
  | cons a l ih =>
    have ha := h a List.mem_cons_self
    obtain ⟨hle, hiff⟩ := ih fun b hb => h b (List.mem_cons_of_mem _ hb)
    rw [List.forall_mem_cons, ← hiff, List.map_cons, List.map_cons, List.sum_cons, List.sum_cons]
    omega

theorem le_square (a : Nat) : a ≤ a * a ∧ (a * a = a ↔ a ≤ 1) := by
  rcases Nat.lt_or_ge 1 a with ha | ha
  · have hlt : a * 1 < a * a := Nat.mul_lt_mul_of_pos_left ha (by omega)
    omega
  · rcases Nat.le_one_iff_eq_zero_or_eq_one.mp ha with rfl | rfl <;> simp

/-- The definition reserves at least what it asks for, and no more exactly if it is no array of several elements. -/
theorem Def.cells_iff (d : Def) : d.declaredCells ≤ d.reservedCells ∧
    (d.reservedCells = d.declaredCells ↔ ∀ e, d.exp = some e → arraySize e.core ≤ 1) := by
  unfold Def.declaredCells Def.reservedCells
  cases hd : d.exp with
  | none => simp
  | some e =>
    simp only [Option.some.injEq, forall_eq']
    unfold arrayElements arraySize
    cases hn : (Value.const e.core.fold).sextValue? with
    | none => simp
    | some n =>
      simp only [Option.map_some, Option.getD_some]
      rcases Nat.lt_or_ge n.toNat 0x8000000000000000 with hlt | hge
      · rw [BitVec.toInt_eq_toNat_of_lt (by omega), Int.toNat_natCast]
        exact le_square n.toNat
      · have hsq := le_square n.toNat
        have hneg : n.toInt.toNat = 0 := by
          rw [BitVec.toInt_eq_toNat_cond]
          omega
        omega

end Sums

/-! ### Generation -/

section Generation
variable {func base : Nat} {s t u : State} {entry l : Label} {is : List Inst}

theorem cells_of_not_alloca {i : Inst} (h : i.isAlloca = false) : instCells i = 0 := by
  cases i with
  | alloca => cases h
  | _ => rfl

theorem reserved_append (h : ∀ i ∈ is, i.isAlloca = false) : (s.append is).reserved l = s.reserved l := by
  have hz : (is.map instCells).sum = 0 := by
    rw [List.sum_eq_zero_iff_forall_eq_nat]
    intro n hn
    obtain ⟨i, hi, rfl⟩ := List.mem_map.mp hn
    exact cells_of_not_alloca (h i hi)
  unfold State.reserved
  cases hp : s.insertPoint with
  | none => rw [State.append_of_none s hp]
  | some p =>
    rw [State.append_blocks s hp]
    by_cases hl : l = p.block
    · rw [hl, Function.update_self, List.map_append, List.sum_append, hz, Nat.add_zero]
    · rw [Function.update_of_ne hl]

theorem Emits.reserved (e : Emits s is t) : t.reserved l = s.reserved l := by
  rw [State.reserved, e.blocks]
  exact reserved_append fun i hi => (e.plain i hi).2

theorem terminator_reserved {i : Inst} (h : i.isTerminator = true) : (s.append [i]).reserved l = s.reserved l := by
  refine reserved_append fun j hj => ?_
  obtain rfl := List.mem_singleton.mp hj
  cases j with
  | alloca => cases h
  | _ => rfl

theorem brUnlessBranch_reserved {p : InsertPoint} {target : Label} :
    (s.brUnlessBranch p target).reserved l = s.reserved l := by
  unfold State.brUnlessBranch
  split
  · split
    · rfl
    · exact terminator_reserved rfl
  · exact terminator_reserved (s := { s with emptyBack := true }) rfl

/-- Function number `func` has its entry block, and the builder inserts into it. -/
structure Entered (func : Nat) (entry : Label) (s : State) : Prop where
  inFunc : InFunc func s
  entry : s.entry? func = some entry

theorem Entered.run (h : Entered func entry s) (r : GenRun func base s t) (hn : t.namedValues ≠ []) :
    Entered func entry t := by
  obtain ⟨l, hl⟩ := h.inFunc.point
  have hg := r.grows ⟨l, hl, Or.inl rfl⟩ h.entry
  exact ⟨h.inFunc.run r hn, hg.entry? func h.entry⟩

theorem Entered.emits (h : Entered func entry s) (e : Emits s is t) : Entered func entry t := by
  have r : GenRun func 0 s t := .single (.emits e)
  refine h.run r ?_
  rw [e.namedValues]
  exact h.inFunc.layers

variable [ConstantFolder]

theorem defineValue_reserved {x : String} {ty : ValType} {vals : List Value} {size : Option Value} {isPtr : Bool}
    (h : Entered func entry s) (hd : defineValue x ty vals size isPtr s = .ok () t) : ∃ a : AllocaInst,
      AllocaShape a.ty size ∧ t.reserved entry = s.reserved entry + allocaCount size * a.ty.cells := by
  rcases defineValue_ok hd with ⟨hn, -⟩ | ⟨layer, outer, a, w, hl, hx, ha, rfl⟩
  · exact absurd hn h.inFunc.layers
  · obtain ⟨p, entry', is, hp, he, hs, hsh, e⟩ := createDefineValueInst_step ha
    obtain ⟨l, hl⟩ := h.inFunc.point
    obtain rfl := Option.some.inj (hl.symm.trans hp)
    obtain rfl := Option.some.inj (h.entry.symm.trans he)
    refine ⟨a, hsh, ?_⟩
    have hw : w.reserved entry = (s.emitAlloca entry a.ty size).reserved entry := e.reserved
    have hb : (s.emitAlloca entry a.ty size).blocks entry = .alloca s.nextSlot a.ty size :: s.blocks entry :=
      Function.update_self ..
    show w.reserved entry = _
    rw [hw, State.reserved, hb, List.map_cons, List.sum_cons, State.reserved, Nat.add_comm]
    rfl

omit [ConstantFolder] in
theorem sextValue?_int {c : Const} {n : BitVec 64} (hty : c.ty = .i64) (hn : (Value.const c).sextValue? = some n) :
    c = .int n := by
  cases c with
  | int v => rw [Option.some.inj hn]
  | bool b => cases hty
  | _ => cases hn

theorem Def.gen_reserved {d : Def} (h : Entered func entry s) (hd : d.gen s = .ok () t) :
    t.reserved entry = s.reserved entry + d.reservedCells := by
  obtain ⟨size, vs, w, hi, hdef⟩ := codeGenDef_ok.mp hd
  obtain ⟨is, e⟩ := hi.emits
  obtain ⟨a, ⟨elt, helt, hsh⟩, hr⟩ := defineValue_reserved (h.emits e) hdef
  have hcells : elt.cells = 1 := by rcases helt with rfl | rfl <;> rfl
  rw [hr, e.reserved]
  unfold GenInit at hi
  cases hexp : d.exp with
  | none =>
    rw [hexp] at hi
    obtain ⟨rfl, -⟩ := hi
    rcases hsh with ⟨-, hty⟩ | ⟨_, _, hsz, -⟩
    · rw [hty, hcells, Def.reservedCells, hexp]
      rfl
    · cases hsz
  | some ex =>
    rw [hexp] at hi
    obtain ⟨sz, w', rfl, he, -⟩ := hi
    rcases hsh with ⟨hsz, -⟩ | ⟨_, n, hsz, hn, hty⟩
    · cases hsz
    · obtain rfl := Option.some.inj hsz
      obtain ⟨c, rfl⟩ := sextValue?_const hn
      rcases codeGenExp_folds h.inFunc.layers he with ⟨hl, hc, -⟩ | ⟨-, hc, -⟩
      · cases hc
        have hsize : arraySize ex.core = n.toNat := by
          unfold arraySize
          rw [hn]
          rfl
        have hcount : allocaCount (some (.const ex.core.fold)) = n.toNat := by
          rw [sextValue?_int (numeric_ty (ex.core.fold_numeric hl)) hn]
          rfl
        have hres : d.reservedCells = n.toNat * n.toNat := by
          unfold Def.reservedCells
          rw [hexp, ← hsize]
        rw [hcount, hty, hres, Ty.cells, hcells, Nat.mul_one]
      · cases hc

theorem defs_reserved : ∀ {ds : List Def} {s t : State}, Entered func entry s → ds.forM Def.gen s = .ok ⟨⟩ t →
    t.reserved entry = s.reserved entry + (ds.map Def.reservedCells).sum
  | [], s, t, h, hg => by
    obtain rfl := forM_nil_ok.mp hg
    rfl
  | d :: ds, s, t, h, hg => by
    obtain ⟨w, hd, hg⟩ := forM_cons_ok.mp hg
    obtain ⟨r, k⟩ := Def.gen_run 0 h.inFunc hd
    rw [defs_reserved (h.run r k.layers) hg, Def.gen_reserved h hd, List.map_cons, List.sum_cons, Nat.add_assoc]

mutual

theorem codeGenStmt_reserved : ∀ (st : StmtNode) {s t : State}, Entered func entry s → codeGenStmt st s = .ok () t →
    t.reserved entry = s.reserved entry + (st.localDefs.map Def.reservedCells).sum
  | .block items, s, t, h, hg => by
    obtain ⟨w, hw, rfl⟩ := codeGenStmt_block_ok.mp hg
    have h' : Entered func entry (s.pushLayer.log .push) := ⟨⟨h.inFunc.point, List.cons_ne_nil _ _⟩, h.entry⟩
    have hb := codeGenBlockItems_reserved items h' hw
    rw [StmtNode.localDefs]
    exact hb
  | .ifStmt e thenStmt elseStmt, s, t, h, hg => by
    obtain ⟨v, s₁, c, s₂, s₃, q, s₄, r, hr⟩ := codeGenStmt_if_run
      (fun _ _ _ hf hb h => codeGenStmt_run thenStmt hf hb h)
      (fun _ _ _ hf hb h => codeGenStmt_elseBranch_run elseStmt hf hb h) h.inFunc hg
    have hthen := codeGenStmt_reserved thenStmt (h.run hr.start hr.thenIn.layers) hr.thenGen
    have helse := codeGenStmt_elseBranch_reserved elseStmt
      (h.run (hr.start.trans ((hr.thenRun.mono (Nat.le_add_right _ _)).trans hr.middle)) hr.elseIn.layers) hr.elseGen
    obtain ⟨is, e₁⟩ := hr.emits
    -- Between the branches there are only jumps, so every reserved cell is one of a branch.
    have hstart : (s₂.thenStart func c).reserved entry = s.reserved entry :=
      (terminator_reserved (s := s₂.newBlocks) rfl).trans e₁.reserved
    have hmiddle : ((s₃.brUnlessBranch q (s₂.nextLabel + 2)).enter func (s₂.nextLabel + 1)).reserved entry =
        s₃.reserved entry := brUnlessBranch_reserved
    have hfinish : t.reserved entry = s₄.reserved entry := by
      rw [hr.result]
      exact brUnlessBranch_reserved
    rw [hfinish, helse, hmiddle, hthen, hstart, localDefs_if, List.map_append, List.sum_append, Nat.add_assoc]
  | .whileStmt e body, s, t, h, hg => by
    obtain ⟨v, s₁, c, s₂, s₃, q, hr⟩ := codeGenStmt_while_run (fun _ _ _ hf hb h => codeGenStmt_run body hf hb h)
      h.inFunc hg
    have hbody := codeGenStmt_reserved body (h.run hr.start hr.bodyIn.layers) hr.bodyGen
    obtain ⟨is, e₁⟩ := hr.emits
    have hloop : (s.loopStart func).reserved entry = s.reserved entry :=
      terminator_reserved (s := s.newBlocks.pushLoop (s.nextLabel, s.nextLabel + 2)) rfl
    have hstart : (s₂.bodyStart func c s.nextLabel).reserved entry = s.reserved entry :=
      (terminator_reserved (s := s₂) rfl).trans (e₁.reserved.trans hloop)
    have hfinish : t.reserved entry = s₃.reserved entry := by
      rw [hr.result]
      exact brUnlessBranch_reserved
    rw [hfinish, hbody, hstart, StmtNode.localDefs]
  | .continueStmt, s, t, h, hg => by
    obtain ⟨loop, outer, hl, rfl⟩ := codeGenStmt_continue_ok.mp hg
    exact terminator_reserved rfl
  | .breakStmt, s, t, h, hg => by
    obtain ⟨loop, outer, hl, rfl⟩ := codeGenStmt_break_ok.mp hg
    exact terminator_reserved rfl
  | .ret none, s, t, h, hg => by
    obtain rfl := codeGenStmt_retVoid_ok.mp hg
    exact terminator_reserved rfl
  | .ret (some e), s, t, h, hg => by
    obtain ⟨v, w, hv, rfl⟩ := codeGenStmt_ret_ok.mp hg
    obtain ⟨is, em⟩ := codeGenExp_emits hv
    exact (terminator_reserved rfl).trans em.reserved
  | .expr none, s, t, h, hg => by
    obtain rfl := codeGenStmt_empty_ok.mp hg
    rfl
  | .expr (some e), s, t, h, hg => by
    obtain ⟨v, hv⟩ := codeGenStmt_expr_ok.mp hg
    obtain ⟨is, em⟩ := codeGenExp_emits hv
    exact em.reserved
  | .assign x sub e, s, t, h, hg => by
    obtain ⟨v, w, idx, k, hv, hk, hx⟩ := codeGenStmt_assign_ok.mp hg
    obtain ⟨is, e₁⟩ := codeGenExp_emits hv
    obtain ⟨js, e₂⟩ := codeGenSubIdx_emits hk
    obtain ⟨ks, e₃⟩ := setValue_emits ((h.inFunc.emits e₁).emits e₂).layers hx
    exact (e₁.trans (e₂.trans e₃)).reserved

theorem codeGenStmt_elseBranch_reserved : ∀ (st : Option StmtNode) {s t : State}, Entered func entry s →
    codeGenStmt (elseBranch st) s = .ok () t →
      t.reserved entry = s.reserved entry + ((elseBranch st).localDefs.map Def.reservedCells).sum
  | none, s, t, h, hg => by
    obtain rfl := codeGenStmt_empty_ok.mp hg
    rfl
  | some st, s, t, h, hg => codeGenStmt_reserved st h hg

theorem codeGenBlockItem_reserved : ∀ (item : BlockItemNode) {s t : State}, Entered func entry s →
    codeGenBlockItem item s = .ok () t →
    t.reserved entry = s.reserved entry + (item.localDefs.map Def.reservedCells).sum
  | .decl d, s, t, h, hg => by
    rw [codeGenBlockItem_decl, codeGenDecl_defs] at hg
    exact defs_reserved h hg
  | .stmt st, _, _, h, hg => codeGenStmt_reserved st h (codeGenBlockItem_stmt ▸ hg)

theorem codeGenBlockItems_reserved : ∀ (items : List BlockItemNode) {s t : State}, Entered func entry s →
    codeGenBlockItems items s = .ok () t →
      t.reserved entry = s.reserved entry + ((blockLocalDefs items).map Def.reservedCells).sum
  | [], s, t, h, hg => by
    obtain rfl := codeGenBlockItems_nil_ok.mp hg
    rfl
  | item :: items, s, t, h, hg => by
    obtain ⟨w, hw, hg⟩ := codeGenBlockItems_cons_ok.mp hg
    obtain ⟨r, d⟩ := codeGenBlockItem_run item h.inFunc (Nat.zero_le _) hw
    rw [codeGenBlockItems_reserved items (h.run r d.layers) hg, codeGenBlockItem_reserved item h hw, blockLocalDefs,
      List.map_append, List.sum_append, Nat.add_assoc]

end


/-- Each parameter reserves one cell. -/
theorem defineParams_reserved : ∀ {ps : List (String × FParamType)} {i : Nat} {s t : State}, Entered func entry s →
    defineParams i ps s = .ok () t → t.reserved entry = s.reserved entry + ps.length
  | [], i, s, t, h, hg => by
    rw [defineParams] at hg
    obtain ⟨-, rfl⟩ := pure_ok.mp hg
    rfl
  | (x, ty) :: ps, i, s, t, h, hg => by
    rw [defineParams] at hg
    obtain ⟨w, hw, hg⟩ := seq_ok.mp hg
    obtain ⟨r, d⟩ := defineValue_run 0 h.inFunc hw
    obtain ⟨a, ⟨elt, helt, hsh⟩, hr⟩ := defineValue_reserved h hw
    have hcells : a.ty.cells = 1 := by
      rcases hsh with ⟨-, hty⟩ | ⟨_, _, hsz, -⟩
      · rw [hty]
        rcases helt with rfl | rfl <;> rfl
      · cases hsz
    rw [defineParams_reserved (h.run r d.layers) hg, hr, hcells, List.length_cons, allocaCount]
    omega

omit [ConstantFolder] in
theorem retUnlessReturn_reserved {p : InsertPoint} : (s.retUnlessReturn p).reserved l = s.reserved l := by
  unfold State.retUnlessReturn
  split
  · split
    · rfl
    · exact terminator_reserved rfl
  · exact terminator_reserved (s := { s with emptyBack := true }) rfl

/-- In the entry block, a function reserves what its parameters and definitions do. -/
theorem FuncRun.reserved {node : FuncNode} {s₁ s₂ : State} {p : InsertPoint} (hs : Idle s)
    (h : FuncRun node s s₁ s₂ p t) : t.reserved s.nextLabel = node.reservedCells := by
  have hstart : Entered s.functions.length s.nextLabel (node.start s) := ⟨start_inFunc, (start_prologue hs).head⟩
  have hempty : (node.start s).reserved s.nextLabel = 0 := by
    have hb : (node.start s).blocks s.nextLabel = [] := hs.fresh s.nextLabel (Nat.le_refl _)
    rw [State.reserved, hb]
    rfl
  have hparams := defineParams_reserved hstart h.params
  have hbody := codeGenStmt_reserved _ (hstart.run h.paramsRun h.defined.layers) h.body
  have hend : t.reserved s.nextLabel = s₂.reserved s.nextLabel := by
    rw [h.result]
    exact retUnlessReturn_reserved
  have hargs : node.args.length = node.param.length := by simp [FuncNode.args, argNames_length]
  rw [hend, hbody, hparams, hempty, hargs, StmtNode.localDefs, FuncNode.reservedCells, Nat.zero_add]

theorem codeGenFunc_reserved {node : FuncNode} (hs : Idle s) (h : codeGenFunc node s = .ok () t) :
    ∃ F, t.toModule.functions = s.toModule.functions ++ [F] ∧ L24.reservedCells F = node.reservedCells := by
  obtain ⟨ls, hls, hF⟩ := codeGenFunc_appends hs h
  obtain ⟨s₁, s₂, p, hr⟩ := codeGenFunc_run h
  have hothers := (hr.run.prologue (Nat.le_succ _) (start_prologue hs)).others
  refine ⟨_, hF, ?_⟩
  have hrest : ((ls.flatMap t.blocks).map instCells).sum = 0 := by
    rw [List.sum_eq_zero_iff_forall_eq_nat]
    intro n hn
    obtain ⟨i, hi, rfl⟩ := List.mem_map.mp hn
    obtain ⟨l, hl, hi⟩ := List.mem_flatMap.mp hi
    exact cells_of_not_alloca (hothers l (hls l hl) i hi)
  rw [← hr.reserved hs, L24.reservedCells, State.reserved]
  simp [List.flatMap_map, hrest]

end Generation

/-! ### Functions -/

section Functions
variable {node : EntryNode} {f : FuncNode} {s t fin : State} {before later : List TopItem} {F : Function}

variable [ConstantFolder]

/-- The frame of `f` has the size that `f` asks for: so says the function that its generation leaves in the module. -/
def FrameFits (fin : State) (before : List TopItem) (f : FuncNode) (later : List TopItem) : Prop :=
  ∀ s t F, GenItem fin before (.func f) later s t → fin.toModule.functions[s.functions.length]? = some F →
    reservedCells F = f.declaredCells

/-- The function that an item leaves in the module. -/
theorem GenItem.function (h : GenItem fin before (.func f) later s t) :
    ∃ F, fin.toModule.functions[s.functions.length]? = some F ∧ reservedCells F = f.reservedCells := by
  obtain ⟨F, hF, hcells⟩ := codeGenFunc_reserved h.idle h.run
  have ht := (codeGenTopItem_extends h.idle h.run).2
  obtain ⟨fs, hfs⟩ := (items_extends ht h.later).1.functions_kept ht
  refine ⟨F, ?_, hcells⟩
  have hlen : s.toModule.functions.length = s.functions.length := by simp [State.toModule]
  rw [← hfs, hF, ← hlen]
  simp

omit [ConstantFolder] in
theorem FuncNode.cells_iff (f : FuncNode) : f.reservedCells = f.declaredCells ↔ f.smallArrays := by
  have hsum := (sum_map_le_iff fun d (_ : d ∈ blockLocalDefs f.block) => d.cells_iff.1).2
  unfold FuncNode.reservedCells FuncNode.declaredCells FuncNode.smallArrays
  rw [Nat.add_left_cancel_iff, hsum]
  exact forall₂_congr fun d _ => d.cells_iff.2

theorem GenItem.frame_iff (h : GenItem fin before (.func f) later s t) :
    FrameFits fin before f later ↔ f.smallArrays := by
  obtain ⟨F, hF, hcells⟩ := h.function
  rw [← f.cells_iff]
  constructor
  · intro hfits
    exact hcells.symm.trans (hfits s t F h hF)
  · intro hf s' t' F' h' hF'
    obtain ⟨G, hG, hcells'⟩ := h'.function
    obtain rfl := Option.some.inj (hF'.symm.trans hG)
    exact hcells'.trans hf

/-- A function reserves the cells that it asks for exactly if none of its local arrays has more than one element. -/
theorem frameFits_iff (h : Accepts node fin) (hi : node.prog.items = before ++ .func f :: later) :
    FrameFits fin before f later ↔ f.smallArrays := by
  obtain ⟨s, t, hg⟩ := accepts_genItem h hi
  exact hg.frame_iff

end Functions

section
attribute [local instance] ConstantFolder.symbolic

/-- `int main() { int a[n]; return 0; }` -/
def localArray (n : BitVec 64) : FuncNode :=
  ⟨.int, "main", [], [.decl (.varDecl ⟨.int, [⟨"a", none, some (NumberNode.toExpr ⟨n⟩)⟩]⟩),
    .stmt (.ret (some (NumberNode.toExpr ⟨0⟩)))]⟩

theorem localArray_small (n : BitVec 64) : (localArray n).smallArrays ↔ n.toNat ≤ 1 := by
  have hdefs : blockLocalDefs (localArray n).block = [⟨.var, "a", none, some (NumberNode.toExpr ⟨n⟩)⟩] := rfl
  have hsize : arraySize (NumberNode.toExpr ⟨n⟩).core = n.toNat := rfl
  simp [FuncNode.smallArrays, hdefs, hsize]

theorem oneElement_fits : ∃ fin, Accepts ⟨.func (localArray 1)⟩ fin ∧ FrameFits fin [] (localArray 1) [] := by
  have hsome : (EntryNode.final? ⟨.func (localArray 1)⟩).isSome = true := by decide +kernel
  obtain ⟨fin, hfin⟩ := Option.isSome_iff_exists.mp hsome
  have ha := final?_eq_some.mp hfin
  have hi : (ProgNode.func (localArray 1)).items = [] ++ .func (localArray 1) :: [] := rfl
  exact ⟨fin, ha, (frameFits_iff ha hi).mpr ((localArray_small 1).mpr (by decide))⟩

/-- An array of two elements gets four cells: two arrays of the type `[2 x i64]`. -/
theorem twoElements_overallocated :
    ((EntryNode.final? ⟨.func (localArray 2)⟩).bind fun s => (s.blocks 0).head?) =
      some (.alloca 0 (.array 2 .i64) (some (.const (.int 2)))) ∧
    ¬ ∀ node fin before f later, Accepts node fin → node.prog.items = before ++ .func f :: later →
      FrameFits fin before f later := by
  refine ⟨by decide +kernel, fun h => ?_⟩
  have hsome : (EntryNode.final? ⟨.func (localArray 2)⟩).isSome = true := by decide +kernel
  obtain ⟨fin, hfin⟩ := Option.isSome_iff_exists.mp hsome
  have ha := final?_eq_some.mp hfin
  have hi : (ProgNode.func (localArray 2)).items = [] ++ .func (localArray 2) :: [] := rfl
  obtain ⟨s, t, hg⟩ := accepts_genItem ha hi
  have hsmall := hg.frame_iff.mp (h _ fin [] _ [] ha hi)
  exact absurd ((localArray_small 2).mp hsmall) (by decide)

end

end L24
