import L24.Theorems.CallOrder
import L24.Theorems.Returns
import L24.Simulation.Whole

/-! Termination: the blocks of a function without loops branch forward only, so a program without loops and without
    recursion takes a bounded number of steps, whatever its arguments, the memory and the library are. -/

namespace L24
open Ir Relation Steps

/-! ### Blocks of a function without loops -/

/-- Nothing in the block `l` branches to `a`. -/
def State.Avoids (s : State) (a l : Label) : Prop := ∀ i ∈ s.blocks l, a ∉ i.targets

/-- No block of function number `func` branches to itself or to one that was inserted before it. -/
structure Onward (func : Nat) (s : State) : Prop where
  back : (s.layout func).Pairwise s.Avoids
  self : ∀ l ∈ s.layout func, s.Avoids l l

section Onward
variable {func base entry : Nat} {s t : State}

theorem layout_congr (h : t.functions = s.functions) (func : Nat) : t.layout func = s.layout func := by
  rw [State.layout, State.layout, h]

/-- Nothing is inserted, and the new branches go to blocks that are not inserted yet. -/
theorem Onward.jumps {ts : List Nat} (h : Onward func s) (j : Jumps func [] ts s t)
    (ht : ∀ x ∈ ts, x ∉ s.layout func) : Onward func t := by
  have hf : t.functions = s.functions := j.functions.trans (modify_layout_nil _ _)
  have ha : ∀ a ∈ s.layout func, ∀ l, s.Avoids a l → t.Avoids a l := fun a hm l hl i hi hx => by
    rcases j.targets l i hi with hi | hi
    · exact hl i hi hx
    · exact ht a (hi a hx) hm
  obtain ⟨h₁, h₂⟩ := h
  rw [← layout_congr hf func] at h₁ h₂ ha
  exact ⟨h₁.imp_of_mem fun hm _ => ha _ hm _, fun l hl => ha l hl l (h₂ l hl)⟩

theorem Onward.plain (h : Onward func s) (j : Jumps func [] [] s t) : Onward func t := h.jumps j (by simp)

theorem enter_layout (hf : func < s.functions.length) (l : Label) :
    (s.enter func l).layout func = s.layout func ++ [l] := by
  have hfs : (s.enter func l).functions = s.functions.modify func fun f => { f with layout := f.layout ++ [l] } := rfl
  rw [State.layout, hfs, List.getElem?_modify, State.layout, List.getElem?_eq_getElem hf]
  simp

theorem mem_enter_layout (hf : func < s.functions.length) {l a : Label} (h : a ∈ (s.enter func l).layout func) :
    a ∈ s.layout func ∨ a = l := by
  rw [enter_layout hf] at h
  exact (List.mem_append.mp h).imp id List.mem_singleton.mp

theorem entry_lt_functions (h : s.entry? func = some entry) : func < s.functions.length := by
  refine Nat.lt_of_not_le fun hle => ?_
  rw [State.entry?, List.getElem?_eq_none hle] at h
  cases h

/-- A block is inserted empty, behind the others. -/
theorem Onward.enter {l : Label} (h : Onward func s) (hf : func < s.functions.length) (hb : s.blocks l = []) :
    Onward func (s.enter func l) := by
  have hempty : ∀ a, (s.enter func l).Avoids a l := fun a i hi => by
    have hi' : i ∈ s.blocks l := hi
    rw [hb] at hi'
    cases hi'
  refine ⟨?_, fun l' hl' => ?_⟩
  · rw [enter_layout hf, List.pairwise_append]
    exact ⟨h.back, List.pairwise_singleton _ _, fun a _ l' hl' => List.mem_singleton.mp hl' ▸ hempty a⟩
  · rw [enter_layout hf] at hl'
    rcases List.mem_append.mp hl' with hl' | hl'
    · exact h.self l' hl'
    · exact List.mem_singleton.mp hl' ▸ hempty _

theorem brUnlessBranch_functions (p : InsertPoint) (target : Label) :
    (s.brUnlessBranch p target).functions = s.functions := by
  unfold State.brUnlessBranch
  split
  · split
    · rfl
    · exact State.append_functions _ _
  · exact State.append_functions _ _

/-- What is inserted is new. -/
theorem GenRun.layout_or (r : GenRun func base s t) (hs : Prologue func entry s) {l : Nat} (hl : l ∈ t.layout func) :
    l ∈ s.layout func ∨ base ≤ l ∧ l < t.nextLabel := by
  obtain ⟨home, -, g⟩ := hs.grows r
  obtain ⟨ls, hls, hf⟩ := g.functions
  have hlayout : t.layout func = s.layout func ++ ls := by
    rw [State.layout, hf, List.getElem?_modify, State.layout, List.getElem?_eq_getElem (entry_lt_functions hs.head)]
    simp
  rw [hlayout] at hl
  exact (List.mem_append.mp hl).imp id (hls l)

/-- The blocks of the function have been made. -/
def State.Made (s : State) (func : Nat) : Prop := ∀ l ∈ s.layout func, l < s.nextLabel

theorem State.Made.run (h : s.Made func) (r : GenRun func base s t) (hs : Prologue func entry s) : t.Made func := by
  intro l hl
  rcases r.layout_or hs hl with hl | hl
  · exact Nat.lt_of_lt_of_le (h l hl) r.nextLabel_le
  · exact hl.2

end Onward

section If
variable {func entry : Nat} {s t : State} {e : ExprNode} {thenStmt : StmtNode} {elseStmt : Option StmtNode}
    {v c : Value}
  {s₁ s₂ s₃ s₄ : State} {q r : InsertPoint}

variable [ConstantFolder]

/-- Where the then branch is inserted: its first block, and new ones. -/
theorem IfRun.then_layout (h : IfRun func e thenStmt elseStmt s v s₁ c s₂ s₃ q s₄ r t) (hs : Prologue func entry s)
    {l : Nat} (hl : l ∈ s₃.layout func) : l ∈ s.layout func ∨ l = s.nextLabel ∨ s.nextLabel + 3 ≤ l := by
  obtain ⟨is, em⟩ := h.emits
  have hf : func < (s₂.newBlocks.append [.condBr c s₂.nextLabel (s₂.nextLabel + 1)]).functions.length := by
    rw [State.append_functions]
    exact entry_lt_functions (hs.emits em).head
  rcases h.thenRun.layout_or (h.start.prologue (Nat.le_of_lt hs.entry_lt) hs) hl with hl | ⟨hl, -⟩
  · rcases mem_enter_layout hf hl with hl | hl
    · rw [layout_congr (State.append_functions s₂.newBlocks _) func] at hl
      exact .inl (layout_congr em.functions func ▸ hl)
    · exact .inr (.inl (hl.trans h.nextLabel))
  · exact .inr (.inr hl)

/-- Where the else branch is inserted. -/
theorem IfRun.else_layout (h : IfRun func e thenStmt elseStmt s v s₁ c s₂ s₃ q s₄ r t) (hs : Prologue func entry s)
    {l : Nat} (hl : l ∈ s₄.layout func) : l ∈ s₃.layout func ∨ l = s.nextLabel + 1 ∨ s.nextLabel + 3 ≤ l := by
  have hle := Nat.le_of_lt hs.entry_lt
  have hs₃ := h.thenRun.prologue (by omega) (h.start.prologue hle hs)
  have hf : func < (s₃.brUnlessBranch q (s₂.nextLabel + 2)).functions.length := by
    rw [brUnlessBranch_functions]
    exact entry_lt_functions hs₃.head
  rcases h.elseRun.layout_or (h.else_prologue hs) hl with hl | ⟨hl, -⟩
  · rcases mem_enter_layout hf hl with hl | hl
    · exact .inl (layout_congr (brUnlessBranch_functions q _) func ▸ hl)
    · exact .inr (.inl (hl.trans (congrArg (· + 1) h.nextLabel)))
  · exact .inr (.inr hl)

theorem IfRun.onward (h : IfRun func e thenStmt elseStmt s v s₁ c s₂ s₃ q s₄ r t) (hs : Prologue func entry s)
    (hm : s.Made func) (h₀ : Onward func s) (iha : Onward func (s₂.thenStart func c) → Onward func s₃)
    (ihb : Onward func ((s₃.brUnlessBranch q (s₂.nextLabel + 2)).enter func (s₂.nextLabel + 1)) → Onward func s₄) :
    Onward func t := by
  obtain ⟨is, em⟩ := h.emits
  have hle := Nat.le_of_lt hs.entry_lt
  have hn := h.nextLabel
  have hs₃ := h.thenRun.prologue (by omega) (h.start.prologue hle hs)
  have hs₄ := h.elseRun.prologue (by omega) (h.else_prologue hs)
  have hnew : ∀ l : Nat, s.nextLabel ≤ l → l ∉ s.layout func := fun l hl hl' => Nat.not_lt.mpr hl (hm l hl')
  have hmerge₃ : s₂.nextLabel + 2 ∉ s₃.layout func := fun hl => by
    rcases h.then_layout hs hl with hl | hl | hl
    · exact hnew _ (by omega) hl
    · omega
    · omega
  have hmerge₄ : s₂.nextLabel + 2 ∉ s₄.layout func := fun hl => by
    rcases h.else_layout hs hl with hl | hl | hl
    · exact hmerge₃ hl
    · omega
    · omega
  have hbranch : Onward func (s₂.newBlocks.append [.condBr c s₂.nextLabel (s₂.nextLabel + 1)]) := by
    have htargets : ∀ i ∈ [Inst.condBr c s₂.nextLabel (s₂.nextLabel + 1)], ∀ x ∈ i.targets,
        x ∈ [s₂.nextLabel, s₂.nextLabel + 1] := List.forall_mem_singleton.mpr fun x hx => hx
    have j : Jumps func [] _ s _ := em.jumps.head (Jumps.newBlocks.head (Jumps.append htargets))
    refine h₀.jumps j fun x hx => hnew x ?_
    simp only [List.mem_cons, List.not_mem_nil, or_false] at hx
    omega
  have hthen : Onward func (s₂.thenStart func c) := by
    refine hbranch.enter ?_ (h.start_blocks hs (Nat.le_of_eq hn.symm))
    rw [State.append_functions]
    exact entry_lt_functions (hs.emits em).head
  have helse : Onward func ((s₃.brUnlessBranch q (s₂.nextLabel + 2)).enter func (s₂.nextLabel + 1)) := by
    refine ((iha hthen).jumps (.brUnlessBranch List.mem_cons_self) (List.forall_mem_singleton.mpr hmerge₃)).enter ?_
      (h.else_start_blocks hs (by omega) (by omega))
    rw [brUnlessBranch_functions]
    exact entry_lt_functions hs₃.head
  have hfresh := h.merge_blocks hs
  rw [h.result, ← hn] at hfresh
  rw [h.result]
  refine ((ihb helse).jumps (.brUnlessBranch List.mem_cons_self) (List.forall_mem_singleton.mpr hmerge₄)).enter ?_
    hfresh
  rw [brUnlessBranch_functions]
  exact entry_lt_functions hs₄.head

end If

section Stmt
variable {func entry : Nat} {s t : State}

theorem loopFree_if (e : ExprNode) (a : StmtNode) (b : Option StmtNode) :
    (StmtNode.ifStmt e a b).loopFree = (a.loopFree && (elseBranch b).loopFree) := by
  cases b with
  | none => simp [StmtNode.loopFree, elseBranch]
  | some b => rw [StmtNode.loopFree, elseBranch, Option.getD_some]

variable [ConstantFolder]

mutual

/-- A statement without a loop, outside loops, adds no branch back. -/
theorem codeGenStmt_onward : ∀ (st : StmtNode) {s t : State}, InFunc func s → Prologue func entry s → s.Made func →
    s.nestedBlocks = [] → st.loopFree = true → Onward func s → codeGenStmt st s = .ok () t → Onward func t
  | .block items, s, t, hf, hs, hm, hn, hl, h, hg => by
    obtain ⟨w, hw, rfl⟩ := codeGenStmt_block_ok.mp hg
    have hs' : Prologue func entry (s.pushLayer.log .push) :=
      (GenStep.pushLayer.prologue (Nat.le_refl _) hs).emits (Emits.log _)
    have hf' : InFunc func (s.pushLayer.log .push) := ⟨hf.point, List.cons_ne_nil _ _⟩
    rw [StmtNode.loopFree] at hl
    exact (codeGenBlockItems_onward items hf' hs' hm hn hl ⟨h.back, h.self⟩ hw).plain (.of_eq rfl (Nat.le_refl _) rfl)
  | .ifStmt e a b, s, t, hf, hs, hm, hn, hl, h, hg => by
    obtain ⟨v, s₁, c, s₂, s₃, q, s₄, r, hr⟩ := codeGenStmt_if_run
      (fun _ _ _ hf hb h => codeGenStmt_run a hf hb h)
      (fun _ _ _ hf hb h => codeGenStmt_elseBranch_run b hf hb h) hf hg
    obtain ⟨is, em⟩ := hr.emits
    rw [loopFree_if, Bool.and_eq_true] at hl
    have hle := Nat.le_of_lt hs.entry_lt
    have hthen := hr.start.prologue hle hs
    -- No loop is open in either branch, so a `break` or `continue` there would have stopped.
    have hn₂ : (s₂.thenStart func c).nestedBlocks = [] :=
      (State.append_nestedBlocks _ _).trans (em.nestedBlocks.trans hn)
    have hn₃ : ((s₃.brUnlessBranch q (s₂.nextLabel + 2)).enter func (s₂.nextLabel + 1)).nestedBlocks = [] :=
      (brUnlessBranch_nestedBlocks s₃ q _).trans (hr.thenRestored.nestedBlocks.trans hn₂)
    have hm₂ := hm.run hr.start hs
    have hm₃ := (hm₂.run hr.thenRun hthen).run hr.middle (hr.thenRun.prologue (by omega) hthen)
    exact hr.onward hs hm h (fun h => codeGenStmt_onward a hr.thenIn hthen hm₂ hn₂ hl.1 h hr.thenGen)
      (fun h => codeGenStmt_elseBranch_onward b hr.elseIn (hr.else_prologue hs) hm₃ hn₃ hl.2 h hr.elseGen)
  | .whileStmt e body, s, t, _, _, _, _, hl, _, _ => by
    rw [StmtNode.loopFree] at hl
    cases hl
  | .continueStmt, s, t, _, _, _, hn, _, _, hg => by
    obtain ⟨loop, outer, hloop, -⟩ := codeGenStmt_continue_ok.mp hg
    -- Without a loop around it, it is rejected.
    rw [hn] at hloop
    cases hloop
  | .breakStmt, s, t, _, _, _, hn, _, _, hg => by
    obtain ⟨loop, outer, hloop, -⟩ := codeGenStmt_break_ok.mp hg
    rw [hn] at hloop
    cases hloop
  | .ret none, s, t, _, _, _, _, _, h, hg => by
    obtain rfl := codeGenStmt_retVoid_ok.mp hg
    exact h.plain (.append (by simp [Inst.targets]))
  | .ret (some e), s, t, hf, _, _, _, _, h, hg => by
    obtain ⟨v, w, hv, rfl⟩ := codeGenStmt_ret_ok.mp hg
    obtain ⟨is, em⟩ := codeGenExp_emits hv
    exact h.plain (.head em.jumps (.append (by simp [Inst.targets])))
  | .expr none, s, t, _, _, _, _, _, h, hg => by
    obtain rfl := codeGenStmt_empty_ok.mp hg
    exact h
  | .expr (some e), s, t, _, _, _, _, _, h, hg => by
    obtain ⟨v, hv⟩ := codeGenStmt_expr_ok.mp hg
    obtain ⟨is, em⟩ := codeGenExp_emits hv
    exact h.plain em.jumps
  | .assign x sub e, s, t, hf, _, _, _, _, h, hg => by
    obtain ⟨v, w, idx, u, hv, hu, hx⟩ := codeGenStmt_assign_ok.mp hg
    obtain ⟨is, e₁⟩ := codeGenExp_emits hv
    obtain ⟨js, e₂⟩ := codeGenSubIdx_emits hu
    obtain ⟨ks, e₃⟩ := setValue_emits ((hf.emits e₁).emits e₂).layers hx
    exact h.plain ((e₁.trans e₂).trans e₃).jumps

theorem codeGenStmt_elseBranch_onward : ∀ (st : Option StmtNode) {s t : State}, InFunc func s → Prologue func entry s →
    s.Made func → s.nestedBlocks = [] → (elseBranch st).loopFree = true → Onward func s →
    codeGenStmt (elseBranch st) s = .ok () t → Onward func t
  | none, s, t, _, _, _, _, _, h, hg => by
    obtain rfl := codeGenStmt_empty_ok.mp hg
    exact h
  | some st, s, t, hf, hs, hm, hn, hl, h, hg => codeGenStmt_onward st hf hs hm hn hl h hg

theorem codeGenBlockItem_onward : ∀ (item : BlockItemNode) {s t : State}, InFunc func s → Prologue func entry s →
    s.Made func → s.nestedBlocks = [] → item.loopFree = true → Onward func s →
    codeGenBlockItem item s = .ok () t → Onward func t
  | .decl d, s, t, hf, _, _, _, _, h, hg => by
    rw [codeGenBlockItem_decl, codeGenDecl_defs] at hg
    exact h.plain (defs_jumps hf hg)
  | .stmt st, s, t, hf, hs, hm, hn, hl, h, hg => by
    rw [BlockItemNode.loopFree] at hl
    exact codeGenStmt_onward st hf hs hm hn hl h (codeGenBlockItem_stmt ▸ hg)

theorem codeGenBlockItems_onward : ∀ (items : List BlockItemNode) {s t : State}, InFunc func s → Prologue func entry s →
    s.Made func → s.nestedBlocks = [] → itemsLoopFree items = true → Onward func s →
    codeGenBlockItems items s = .ok () t → Onward func t
  | [], s, t, _, _, _, _, _, h, hg => by
    obtain rfl := codeGenBlockItems_nil_ok.mp hg
    exact h
  | item :: items, s, t, hf, hs, hm, hn, hl, h, hg => by
    obtain ⟨w, hw, hg⟩ := codeGenBlockItems_cons_ok.mp hg
    obtain ⟨r, d⟩ := codeGenBlockItem_run item hf (Nat.le_of_lt hs.entry_lt) hw
    rw [itemsLoopFree, Bool.and_eq_true] at hl
    exact codeGenBlockItems_onward items (hf.run r d.layers) (r.prologue (Nat.le_refl _) hs) (hm.run r hs)
      (d.nestedBlocks.trans hn) hl.2 (codeGenBlockItem_onward item hf hs hm hn hl.1 h hw) hg

end

end Stmt

/-! ### Functions and programs -/

section Functions
variable {func : Nat} {s t fin : State} {node : FuncNode}

theorem start_onward (node : FuncNode) (hs : Idle s) :
    (node.start s).Made s.functions.length ∧ Onward s.functions.length (node.start s) := by
  have hl : (node.start s).layout s.functions.length = [s.nextLabel] := by
    rw [State.layout, start_functions]
    simp
  refine ⟨fun l hm => ?_, ?_, fun l hm i hi => ?_⟩
  · rw [hl] at hm
    obtain rfl := List.mem_singleton.mp hm
    exact Nat.lt_succ_self _
  · rw [hl]
    exact List.pairwise_singleton _ _
  · rw [hl] at hm
    obtain rfl := List.mem_singleton.mp hm
    have hi' : i ∈ s.blocks s.nextLabel := hi
    rw [hs.fresh _ (Nat.le_refl _)] at hi'
    cases hi'

variable [ConstantFolder]

theorem codeGenFunc_onward (hs : Idle s) (hl : node.loopFree = true) (h : codeGenFunc node s = .ok () t) :
    Onward s.functions.length t := by
  obtain ⟨s₁, s₂, p, hr⟩ := codeGenFunc_run h
  obtain ⟨hm, ho⟩ := start_onward node hs
  have hs₁ := hr.paramsRun.prologue (Nat.le_succ _) (start_prologue hs)
  have hf₁ : InFunc s.functions.length s₁ := start_inFunc.run hr.paramsRun hr.defined.layers
  have hn₁ : s₁.nestedBlocks = [] := hr.defined.nestedBlocks.trans hs.nestedBlocks
  have hbody : (StmtNode.block node.block).loopFree = true := by
    rw [StmtNode.loopFree]
    exact hl
  have h₁ := ho.plain (defineParams_jumps start_inFunc hr.params)
  have h₂ := codeGenStmt_onward _ hf₁ hs₁ (hm.run hr.paramsRun (start_prologue hs)) hn₁ hbody h₁ hr.body
  rw [hr.result]
  exact (h₂.plain retUnlessReturn_jumps).plain (.of_eq rfl (Nat.le_refl _) rfl)

omit [ConstantFolder] in
theorem Onward.extends (h : Onward func s) (e : Extends s t) (hs : Idle s) (hf : func < s.functions.length) :
    Onward func t := by
  obtain ⟨fs, hfs⟩ := e.functions
  have hl : t.layout func = s.layout func := by
    rw [State.layout, hfs, List.getElem?_append_left hf, State.layout]
  have hlt : ∀ l ∈ s.layout func, l < s.nextLabel := by
    rw [State.layout, List.getElem?_eq_getElem hf]
    exact hs.layout _ (List.getElem_mem hf)
  have ha : ∀ l ∈ s.layout func, ∀ a, s.Avoids a l → t.Avoids a l := fun l hm a ha => by
    rw [State.Avoids, e.blocks l (hlt l hm)]
    exact ha
  refine ⟨?_, fun l hm => ?_⟩
  · rw [hl]
    exact h.back.imp_of_mem fun _ hm => ha _ hm _
  · rw [hl] at hm
    exact ha l hm l (h.self l hm)

omit [ConstantFolder] in
theorem onward_of_layout (h : s.layout func = []) : Onward func s := by
  refine ⟨?_, fun l hm => ?_⟩
  · rw [h]
    exact .nil
  · rw [h] at hm
    cases hm

omit [ConstantFolder] in
theorem layout_of_le (h : s.functions.length ≤ func) : s.layout func = [] := by
  rw [State.layout, List.getElem?_eq_none h]
  rfl

omit [ConstantFolder] in
/-- A library function has no blocks. -/
theorem library_layout : State.library.layout func = [] := by
  cases h : State.library.functions[func]? with
  | none => rw [State.layout, h, Option.map_none, Option.getD_none]
  | some f =>
    obtain ⟨g, -, rfl⟩ := List.mem_map.mp (List.mem_of_getElem? h)
    rw [State.layout, h, Option.map_some, Option.getD_some]

theorem accepts_onward {prog : EntryNode} (h : Accepts prog fin) (hl : ∀ f ∈ prog.funcs, f.loopFree = true) :
    ∀ func, Onward func fin := by
  let P : List TopItem → State → Prop := fun items s =>
    (∀ f ∈ items.filterMap TopItem.func?, f.loopFree = true) → ∀ func, Onward func s
  refine accepts_induct (P := P) h (fun _ func => onward_of_layout library_layout)
    (fun {items item s t} hp hs h hl func => ?_) hl
  rw [List.filterMap_append] at hl
  have hold := hp (fun f hf => hl f (List.mem_append_left _ hf)) func
  obtain ⟨e, -⟩ := codeGenTopItem_extends hs h
  rcases Nat.lt_or_ge func s.functions.length with hlt | hle
  · exact hold.extends e hs hlt
  · cases item with
    | decl d =>
      obtain ⟨gs, tr, rfl, -⟩ := codeGenDecl_global hs.namedValues h
      exact onward_of_layout (layout_of_le hle)
    | func f =>
      obtain ⟨s₁, s₂, p, hrun⟩ := codeGenFunc_run h
      obtain ⟨ls, -, hf⟩ := hrun.functions hs
      rcases Nat.eq_or_lt_of_le hle with rfl | hlt
      · exact codeGenFunc_onward hs (hl f (List.mem_append_right _ (by simp [TopItem.func?]))) h
      · refine onward_of_layout (layout_of_le ?_)
        rw [hf, List.length_append]
        exact hlt

omit [ConstantFolder] in
theorem map_labels (s : State) (ls : List Label) : (ls.map fun l => (l, s.blocks l)).map (·.1) = ls :=
  List.map_map.trans (List.map_id'' (fun _ => rfl) ls)

omit [ConstantFolder] in
/-- Blocks that do not branch back branch forward. -/
theorem forward_of_avoids {s : State} : ∀ {ls : List Label} (as : List Label),
    (∀ l ∈ ls, ∀ i ∈ s.blocks l, ∀ x ∈ i.targets, x ∈ as ++ ls ∧ x ∉ as ∧ x ≠ l) → ls.Pairwise s.Avoids →
    Forward (ls.map fun l => (l, s.blocks l))
  | [], _, _, _ => trivial
  | l :: ls, as, h, hp => by
    obtain ⟨hback, hp⟩ := List.pairwise_cons.mp hp
    refine ⟨fun i hi x hx => ?_, forward_of_avoids (as ++ [l]) (fun l' hl' i hi x hx => ?_) hp⟩
    · obtain ⟨hm, has, hne⟩ := h l List.mem_cons_self i hi x hx
      rw [map_labels]
      exact ((List.mem_cons.mp ((List.mem_append.mp hm).resolve_left has)).resolve_left hne)
    · obtain ⟨hm, has, hne⟩ := h l' (List.mem_cons_of_mem _ hl') i hi x hx
      refine ⟨by simpa using hm, ?_, hne⟩
      rw [List.mem_append, List.mem_singleton]
      rintro (hx' | rfl)
      · exact has hx'
      · exact hback l' hl' i hi hx

/-- The module of a program without loops and without recursion. -/
theorem accepts_loopless {prog : EntryNode} (h : Accepts prog fin) (hl : ∀ f ∈ prog.funcs, f.loopFree = true)
    (hc : prog.callsEarlier = true) : fin.toModule.Loopless where
  forward F hF := by
    obtain ⟨n, o, ho, rfl⟩ := toModule_mem hF
    obtain ⟨-, ht⟩ := accepts_branchesInside h o (List.mem_of_getElem? ho)
    have hlay : fin.layout n = o.layout := by rw [State.layout, ho, Option.map_some, Option.getD_some]
    obtain ⟨hback, hself⟩ := accepts_onward h hl n
    rw [hlay] at hback hself
    refine forward_of_avoids [] (fun l hm i hi x hx => ⟨List.mem_of_mem_tail (ht l hm i hi x hx), by simp, ?_⟩) hback
    rintro rfl
    exact hself x hm i hi hx
  labels F hF := by
    obtain ⟨n, o, ho, rfl⟩ := toModule_mem hF
    obtain ⟨hn, -⟩ := accepts_branchesInside h o (List.mem_of_getElem? ho)
    exact (map_labels fin o.layout).symm ▸ hn
  calls := (accepts_callsEarlier h hc).callsTo

/-- In an accepted program without loops, whose functions call only earlier ones, blocks branch forward only, and a call
    of any function ends: no run takes more steps than a bound that depends on the program alone, whatever the
    arguments, the memory and the library are. -/
theorem loopFree_terminates {prog : EntryNode} (h : Accepts prog fin) (hl : ∀ f ∈ prog.funcs, f.loopFree = true)
    (hc : prog.callsEarlier = true) : (∀ f ∈ fin.toModule.functions, Forward f.blocks) ∧
    ∀ {W : Type} (ext : Ext W) {name : String} {args : List Val} {mem : Mem} {w : W} {c : Config W},
      Config.start fin.toModule name args mem w = some c → ∀ n, Lasts (step fin.toModule ext) n c →
        n < CallStack.price fin.toModule.size fin.toModule.functions.length := by
  have hloopless := accepts_loopless h hl hc
  exact ⟨hloopless.forward, fun ext _ _ _ _ _ hs _ hn => hloopless.bounded hs hn⟩

/-- So the rules of the language decide such a program within a bound: it ends, or its behaviour is not defined. -/
theorem loopFree_decided {prog : EntryNode} (h : Accepts prog fin) (hl : ∀ f ∈ prog.funcs, f.loopFree = true)
    (hc : prog.callsEarlier = true) (hn : prog.NamesDistinct) (hmain : ∃ g ∈ prog.funcs, g.ident = "main") {W : Type}
    (lib : Library W) (ext : W) :
    runProgram lib prog (CallStack.price fin.toModule.size fin.toModule.functions.length + 1) ext ≠ .error
    .timeout := by
  obtain ⟨c, hs, hsim⟩ := program_sim h hn hmain lib ext
  intro ht
  have hlast := hsim (CallStack.price fin.toModule.size fin.toModule.functions.length)
  rw [ht] at hlast
  exact Nat.lt_irrefl _ ((accepts_loopless h hl hc).bounded hs hlast)

end Functions

section
attribute [local instance] ConstantFolder.symbolic

theorem clipMain_terminates : ∃ (fin : State) (c : Config Unit), Accepts clipMain fin ∧
    Config.start fin.toModule "main" [] (Mem.initial fin.globals) () = some c ∧
    (∀ f ∈ fin.toModule.functions, Forward f.blocks) ∧
    ∀ n, Lasts (step fin.toModule fun _ _ _ _ => none) n c →
      n < CallStack.price fin.toModule.size fin.toModule.functions.length := by
  obtain ⟨fin, c, d, ha, hc, -, -⟩ := clipMain_calls
  have hfree : clipMain.funcs.all FuncNode.loopFree = true := by decide +kernel
  obtain ⟨hforward, hends⟩ := loopFree_terminates ha (List.all_eq_true.mp hfree) (by decide +kernel)
  exact ⟨fin, c, ha, hc, hforward, hends _ hc⟩

theorem clipMain_decided : ∃ fin, Accepts clipMain fin ∧
    runProgram (fun _ _ _ => none) clipMain (CallStack.price fin.toModule.size fin.toModule.functions.length + 1) () ≠
      .error .timeout := by
  obtain ⟨fin, c, d, ha, -, -, -⟩ := clipMain_calls
  have hfree : clipMain.funcs.all FuncNode.loopFree = true := by decide +kernel
  have hmain : ∃ g ∈ clipMain.funcs, g.ident = "main" :=
    ⟨clipMain.funcs.getLast (by decide +kernel), List.getLast_mem _,
    by decide +kernel⟩
  exact ⟨fin, ha, loopFree_decided ha (List.all_eq_true.mp hfree) (by decide +kernel)
    ⟨by decide +kernel, by decide +kernel⟩ hmain _ ()⟩

end

end L24
