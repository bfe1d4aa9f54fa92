import L24.Semantics
import L24.Theorems.Visits

/-! Jump targets: a `break` or `continue` branches to a block of the innermost loop around it, and every
    block that is branched to is inserted once, in the function of the branch. -/

namespace L24
open Ir Relation

/-! ### Blocks that are inserted, blocks that are branched to -/

/-- The blocks `ls` are inserted into function number `func`, one after the other, and the new instructions
    branch to blocks of `ts` only. -/
structure Jumps (func : Nat) (ls ts : List Nat) (s t : State) : Prop where
  functions : t.functions = s.functions.modify func fun f => { f with layout := f.layout ++ ls }
  nextLabel : s.nextLabel ≤ t.nextLabel
  targets : ∀ l, ∀ i ∈ t.blocks l, i ∈ s.blocks l ∨ ∀ x ∈ i.targets, x ∈ ts

/-- The blocks that the enclosing loops stand for. -/
def State.loopTargets (s : State) : List Nat := s.nestedBlocks.flatMap fun loop => [loop.1, loop.2]

/-- The blocks that a statement inserts are new and different, and it branches to them and to the blocks of
    the loops around it. -/
def Jumping (func : Nat) (s t : State) : Prop :=
  ∃ ls : List Nat, Jumps func ls (ls ++ s.loopTargets) s t ∧ ls.Nodup ∧ ∀ l ∈ ls, s.nextLabel ≤ l ∧ l < t.nextLabel

section Jumps
variable {func : Nat} {ls ms ts ts' : List Nat} {s t u : State}

theorem Jumps.trans (h₁ : Jumps func ls ts s t) (h₂ : Jumps func ms ts t u) : Jumps func (ls ++ ms) ts s u where
  functions := by rw [h₂.functions, h₁.functions, modify_layout]
  nextLabel := Nat.le_trans h₁.nextLabel h₂.nextLabel
  targets l i hi := by
    rcases h₂.targets l i hi with hi | hx
    · exact h₁.targets l i hi
    · exact Or.inr hx

theorem Jumps.head (h₁ : Jumps func [] ts s t) (h₂ : Jumps func ls ts t u) : Jumps func ls ts s u := h₁.trans h₂

theorem Jumps.mono (h : Jumps func ls ts s t) (hts : ∀ x ∈ ts, x ∈ ts') : Jumps func ls ts' s t :=
  ⟨h.functions, h.nextLabel, fun l i hi => (h.targets l i hi).imp id fun hx x hm => hts x (hx x hm)⟩

/-- Nothing is inserted into a function, and no block gets an instruction. -/
theorem Jumps.of_eq (hf : t.functions = s.functions) (hn : s.nextLabel ≤ t.nextLabel) (hb : t.blocks = s.blocks) :
    Jumps func [] ts s t :=
  ⟨by rw [modify_layout_nil, hf], hn, fun l i hi => Or.inl (hb ▸ hi)⟩

theorem mem_append_blocks {is : List Inst} {l : Label} {i : Inst} (hi : i ∈ (s.append is).blocks l) :
    i ∈ s.blocks l ∨ i ∈ is := by
  cases hp : s.insertPoint with
  | none =>
    rw [State.append_of_none s hp] at hi
    exact Or.inl hi
  | some p =>
    rw [State.append_blocks s hp] at hi
    by_cases hl : l = p.block
    · rw [hl, Function.update_self, ← hl] at hi
      exact List.mem_append.mp hi
    · rw [Function.update_of_ne hl] at hi
      exact Or.inl hi

theorem Jumps.append {is : List Inst} (h : ∀ i ∈ is, ∀ x ∈ i.targets, x ∈ ts) : Jumps func [] ts s (s.append is) where
  functions := by rw [modify_layout_nil, State.append_functions]
  nextLabel := Nat.le_of_eq (State.append_nextLabel s _).symm
  targets l i hi := (mem_append_blocks hi).imp id (h i)

theorem targets_of_plain {i : Inst} (h : i.isTerminator = false) : i.targets = [] := by
  cases i <;> first | rfl | cases h

theorem Emits.jumps {is : List Inst} (e : Emits s is t) : Jumps func [] ts s t where
  functions := by rw [modify_layout_nil, e.functions]
  nextLabel := Nat.le_of_eq e.nextLabel.symm
  targets l i hi := by
    rw [e.blocks] at hi
    refine (mem_append_blocks hi).imp id fun hm x hx => ?_
    rw [targets_of_plain (e.plain i hm).1] at hx
    cases hx

theorem Jumps.enter (l : Nat) : Jumps func [l] ts s (s.enter func l) := ⟨rfl, Nat.le_refl _, fun _ _ hi => Or.inl hi⟩

theorem Jumps.brUnlessBranch {p : InsertPoint} {l : Nat} (h : l ∈ ts) : Jumps func [] ts s (s.brUnlessBranch p l) := by
  have hbr : ∀ i ∈ [Inst.br l], ∀ x ∈ i.targets, x ∈ ts := by simpa [Inst.targets] using h
  unfold State.brUnlessBranch
  split
  · split
    · exact .of_eq rfl (Nat.le_refl _) rfl
    · exact .append hbr
  · exact .head (.of_eq (t := { s with emptyBack := true }) rfl (Nat.le_refl _) rfl) (.append hbr)

/-- The begin of a branch: behind a branch instruction, in the entered block. -/
theorem Jumps.branch {i : Inst} {l : Nat} (hi : ∀ x ∈ i.targets, x ∈ ts) :
    Jumps func [l] ts s ((s.append [i]).enter func l) :=
  .head (.append (by simpa using hi)) (.enter l)

/-- The end of a branch, and the next block. -/
theorem Jumps.close {p : InsertPoint} {l target : Nat} (h : target ∈ ts) :
    Jumps func [l] ts s ((s.brUnlessBranch p target).enter func l) := .head (.brUnlessBranch h) (.enter l)

theorem Jumps.newBlocks : Jumps func [] ts s s.newBlocks := .of_eq rfl (Nat.le_add_right _ _) rfl

theorem Jumping.trans (h₁ : Jumping func s t) (h₂ : Jumping func t u) (hb : t.nestedBlocks = s.nestedBlocks) :
    Jumping func s u := by
  obtain ⟨ls, j₁, hn₁, hl₁⟩ := h₁
  obtain ⟨ms, j₂, hn₂, hl₂⟩ := h₂
  have ht : t.loopTargets = s.loopTargets := by rw [State.loopTargets, hb, State.loopTargets]
  rw [ht] at j₂
  refine ⟨ls ++ ms, (j₁.mono ?_).trans (j₂.mono ?_), ?_, fun l hl => ?_⟩
  · intro x hx
    simp only [List.mem_append] at hx ⊢
    exact hx.imp Or.inl id
  · intro x hx
    simp only [List.mem_append] at hx ⊢
    exact hx.imp Or.inr id
  · refine List.nodup_append.mpr ⟨hn₁, hn₂, fun a ha b hb' he => ?_⟩
    have := hl₁ a ha
    have := hl₂ b hb'
    omega
  · rcases List.mem_append.mp hl with hl | hl
    · exact ⟨(hl₁ l hl).1, Nat.lt_of_lt_of_le (hl₁ l hl).2 j₂.nextLabel⟩
    · exact ⟨Nat.le_trans j₁.nextLabel (hl₂ l hl).1, (hl₂ l hl).2⟩

/-- Instructions that branch to no block but those of the loops. -/
theorem Jumps.jumping (h : Jumps func [] s.loopTargets s t) : Jumping func s t :=
  ⟨[], h, List.nodup_nil, by simp⟩

theorem emitAlloca_jumps {entry : Label} {ty : Ty} {count : Option Value} :
    Jumps func [] ts s (s.emitAlloca entry ty count) where
  functions := (modify_layout_nil _ _).symm
  nextLabel := Nat.le_refl _
  targets l i hi := by
    by_cases hl : l = entry
    · have hs : (s.emitAlloca entry ty count).blocks entry = .alloca s.nextSlot ty count :: s.blocks entry :=
        Function.update_self ..
      rw [hl, hs] at hi
      rcases List.mem_cons.mp hi with rfl | hi
      · exact Or.inr fun x hx => by cases hx
      · exact Or.inl (hl ▸ hi)
    · have hs : (s.emitAlloca entry ty count).blocks l = s.blocks l := Function.update_of_ne hl ..
      exact Or.inl (hs ▸ hi)

variable [ConstantFolder]

theorem defineValue_jumps {x : String} {ty : ValType} {vals : List Value} {size : Option Value} {isPtr : Bool}
    (hn : s.namedValues ≠ []) (h : defineValue x ty vals size isPtr s = .ok () t) : Jumps func [] ts s t := by
  rcases defineValue_ok h with ⟨h, -⟩ | ⟨layer, outer, a, w, -, -, ha, rfl⟩
  · exact absurd h hn
  · obtain ⟨p, entry, is, -, -, -, -, e⟩ := createDefineValueInst_step ha
    exact .head emitAlloca_jumps (.head e.jumps (.of_eq rfl (Nat.le_refl _) rfl))

theorem Def.gen_jumps {d : Def} (hn : s.namedValues ≠ []) (h : d.gen s = .ok () t) : Jumps func [] ts s t := by
  obtain ⟨size, vs, w, hi, h⟩ := codeGenDef_ok.mp h
  obtain ⟨is, e⟩ := hi.emits
  exact .head e.jumps (defineValue_jumps (by rw [e.namedValues]; exact hn) h)

theorem defs_jumps : ∀ {ds : List Def} {s t : State}, InFunc func s → ds.forM Def.gen s = .ok ⟨⟩ t →
    Jumps func [] ts s t
  | [], s, t, _, h => by
    obtain rfl := forM_nil_ok.mp h
    exact .of_eq rfl (Nat.le_refl _) rfl
  | d :: ds, s, t, hf, h => by
    obtain ⟨w, hd, h⟩ := forM_cons_ok.mp h
    obtain ⟨r, k⟩ := Def.gen_run 0 hf hd
    exact .head (Def.gen_jumps hf.layers hd) (defs_jumps (hf.run r k.layers) h)

theorem codeGenDecl_jumping {d : DeclNode} (hf : InFunc func s) (h : codeGenDecl d s = .ok () t) :
    Jumping func s t := by
  rw [codeGenDecl_defs] at h
  exact (defs_jumps hf h).jumping

end Jumps

/-! ### Statements -/

section Stmt
variable {func : Nat} {s t : State}

section If
variable {e : ExprNode} {thenStmt : StmtNode} {elseStmt : Option StmtNode} {v c : Value} {s₁ s₂ s₃ s₄ : State}
  {q r : InsertPoint}

variable [ConstantFolder]

theorem IfRun.jumping (h : IfRun func e thenStmt elseStmt s v s₁ c s₂ s₃ q s₄ r t)
    (ha : Jumping func (s₂.thenStart func c) s₃)
    (hb : Jumping func ((s₃.brUnlessBranch q (s₂.nextLabel + 2)).enter func (s₂.nextLabel + 1)) s₄) :
    Jumping func s t := by
  obtain ⟨is, em⟩ := h.emits
  obtain ⟨as, ja, hna, hla⟩ := ha
  obtain ⟨bs, jb, hnb, hlb⟩ := hb
  have hn := h.nextLabel
  have hts : (s₂.thenStart func c).loopTargets = s.loopTargets := by
    rw [State.loopTargets, State.loopTargets]
    exact congrArg _ ((State.append_nestedBlocks _ _).trans em.nestedBlocks)
  have hes : ((s₃.brUnlessBranch q (s₂.nextLabel + 2)).enter func (s₂.nextLabel + 1)).loopTargets = s.loopTargets := by
    rw [← hts, State.loopTargets, State.loopTargets]
    exact congrArg _ ((brUnlessBranch_nestedBlocks _ _ _).trans h.thenRestored.nestedBlocks)
  rw [hts] at ja
  rw [hes] at jb
  -- The new blocks: of the then branch, of the else branch, and the one behind.
  let ls := [s.nextLabel] ++ as ++ [s.nextLabel + 1] ++ bs ++ [s.nextLabel + 2]
  have hls : ∀ l, l ∈ ls ++ s.loopTargets ↔ l = s.nextLabel ∨ l ∈ as ∨ l = s.nextLabel + 1 ∨ l ∈ bs ∨
      l = s.nextLabel + 2 ∨ l ∈ s.loopTargets := by simp [ls]
  have j₁ : Jumps func [s.nextLabel] (ls ++ s.loopTargets) s (s₂.thenStart func c) := by
    refine .head em.jumps (.head .newBlocks ?_)
    rw [← hn]
    exact .branch (by simp [Inst.targets, hls, hn])
  have j₃ : Jumps func [s.nextLabel + 1] (ls ++ s.loopTargets) s₃
      ((s₃.brUnlessBranch q (s₂.nextLabel + 2)).enter func (s₂.nextLabel + 1)) := by
    rw [hn]
    exact .close (by simp [hls])
  have j₅ : Jumps func [s.nextLabel + 2] (ls ++ s.loopTargets) s₄ t := by
    rw [h.result, hn]
    exact .close (by simp [hls])
  have ja' : Jumps func as (ls ++ s.loopTargets) (s₂.thenStart func c) s₃ := ja.mono fun x hx => by
    rcases List.mem_append.mp hx with hx | hx <;> simp [hls, hx]
  have jb' : Jumps func bs (ls ++ s.loopTargets) _ s₄ := jb.mono fun x hx => by
    rcases List.mem_append.mp hx with hx | hx <;> simp [hls, hx]
  have hl₃ : s.nextLabel + 3 ≤ s₃.nextLabel := by
    rw [← h.thenLabel]
    exact ja.nextLabel
  have hl₄ : s₃.nextLabel ≤ s₄.nextLabel := Nat.le_trans j₃.nextLabel jb.nextLabel
  have hlt : t.nextLabel = s₄.nextLabel := by
    rw [h.result]
    exact brUnlessBranch_nextLabel _ _ _
  have hla' : ∀ l ∈ as, s.nextLabel + 3 ≤ l ∧ l < s₃.nextLabel := fun l hl => h.thenLabel ▸ hla l hl
  have hlb' : ∀ l ∈ bs, s₃.nextLabel ≤ l ∧ l < s₄.nextLabel := fun l hl =>
    ⟨Nat.le_trans j₃.nextLabel (hlb l hl).1, (hlb l hl).2⟩
  refine ⟨ls, (((j₁.trans ja').trans j₃).trans jb').trans j₅, ?_, fun l hl => ?_⟩
  · simp only [ls, List.nodup_append]
    grind
  · simp only [ls] at hl
    grind

end If

section While
variable {e : ExprNode} {body : StmtNode} {v c : Value} {s₁ s₂ s₃ : State} {q : InsertPoint}

variable [ConstantFolder]

theorem WhileRun.jumping (h : WhileRun func e body s v s₁ c s₂ s₃ q t)
    (hb : Jumping func (s₂.bodyStart func c s.nextLabel) s₃) : Jumping func s t := by
  obtain ⟨is, em⟩ := h.emits
  obtain ⟨bs, jb, hnb, hlb⟩ := hb
  have hn := h.nextLabel
  have hts : ∀ x, x ∈ (s₂.bodyStart func c s.nextLabel).loopTargets ↔
      x = s.nextLabel ∨ x = s.nextLabel + 2 ∨ x ∈ s.loopTargets := by
    rw [State.loopTargets, bodyStart_nestedBlocks, em.nestedBlocks, loopStart_nestedBlocks]
    simp [State.loopTargets]
  -- The new blocks: of the condition, of the body, and the one behind.
  let ls := [s.nextLabel] ++ [s.nextLabel + 1] ++ bs ++ [s.nextLabel + 2]
  have hls : ∀ l, l ∈ ls ++ s.loopTargets ↔ l = s.nextLabel ∨ l = s.nextLabel + 1 ∨ l ∈ bs ∨
      l = s.nextLabel + 2 ∨ l ∈ s.loopTargets := by simp [ls]
  have j₁ : Jumps func [s.nextLabel] (ls ++ s.loopTargets) s (s.loopStart func) := by
    have hp : Jumps func [] (ls ++ s.loopTargets) s.newBlocks (s.newBlocks.pushLoop (s.nextLabel, s.nextLabel + 2)) :=
      .of_eq rfl (Nat.le_refl _) rfl
    exact .head .newBlocks (.head hp (.branch (by simp [Inst.targets, hls])))
  have j₂ : Jumps func [s.nextLabel + 1] (ls ++ s.loopTargets) (s.loopStart func)
      (s₂.bodyStart func c s.nextLabel) := .head em.jumps (.branch (by simp [Inst.targets, hls]))
  have jb' : Jumps func bs (ls ++ s.loopTargets) _ s₃ := jb.mono fun x hx => by
    rcases List.mem_append.mp hx with hx | hx
    · simp [hls, hx]
    · rcases (hts x).mp hx with hx | hx | hx <;> simp [hls, hx]
  have j₄ : Jumps func [s.nextLabel + 2] (ls ++ s.loopTargets) s₃ t := by
    rw [h.result]
    have hp : ∀ w : State, Jumps func [] (ls ++ s.loopTargets) w w.popLoop := fun w => .of_eq rfl (Nat.le_refl _) rfl
    exact (Jumps.close (by simp [hls])).trans (hp _)
  have hl₂ : (s₂.bodyStart func c s.nextLabel).nextLabel = s.nextLabel + 3 := (State.append_nextLabel _ _).trans hn
  have hlt : t.nextLabel = s₃.nextLabel := by
    rw [h.result]
    exact brUnlessBranch_nextLabel _ _ _
  have hl₃ : s.nextLabel + 3 ≤ s₃.nextLabel := hl₂ ▸ jb.nextLabel
  have hlb' : ∀ l ∈ bs, s.nextLabel + 3 ≤ l ∧ l < s₃.nextLabel := fun l hl => hl₂ ▸ hlb l hl
  refine ⟨ls, ((j₁.trans j₂).trans jb').trans j₄, ?_, fun l hl => ?_⟩
  · simp only [ls, List.nodup_append]
    grind
  · simp only [ls] at hl
    grind

end While

/-- A jump out of the innermost loop or back to its condition. -/
theorem jump_jumping {l : Label} (h : l ∈ s.loopTargets) : Jumping func s (s.append [.br l]) :=
  Jumps.jumping (.append (by simpa [Inst.targets] using h))

theorem ret_jumping {v : Option Value} : Jumping func s (s.append [.ret v]) :=
  Jumps.jumping (.append (by simp [Inst.targets]))

theorem Emits.jumping {is : List Inst} (e : Emits s is t) : Jumping func s t := Jumps.jumping e.jumps

variable [ConstantFolder]

mutual

theorem codeGenStmt_jumping : ∀ (st : StmtNode) {s t : State}, InFunc func s → codeGenStmt st s = .ok () t →
    Jumping func s t
  | .block items, s, t, hf, h => by
    obtain ⟨w, hw, rfl⟩ := codeGenStmt_block_ok.mp h
    have hf' : InFunc func (s.pushLayer.log .push) := ⟨hf.point, List.cons_ne_nil _ _⟩
    obtain ⟨ls, j, hn, hl⟩ := codeGenBlockItems_jumping items hf' hw
    have hp : Jumps func [] (ls ++ s.loopTargets) s (s.pushLayer.log .push) := .of_eq rfl (Nat.le_refl _) rfl
    have hq : Jumps func [] (ls ++ s.loopTargets) w (w.popLayer.log .pop) := .of_eq rfl (Nat.le_refl _) rfl
    refine ⟨ls, ?_, hn, hl⟩
    have := (hp.trans j).trans hq
    simpa using this
  | .ifStmt e thenStmt elseStmt, s, t, hf, h => by
    obtain ⟨v, s₁, c, s₂, s₃, q, s₄, r, hr⟩ := codeGenStmt_if_run
      (fun _ _ _ hf hb h => codeGenStmt_run thenStmt hf hb h)
      (fun _ _ _ hf hb h => codeGenStmt_elseBranch_run elseStmt hf hb h) hf h
    exact hr.jumping (codeGenStmt_jumping thenStmt hr.thenIn hr.thenGen)
      (codeGenStmt_elseBranch_jumping elseStmt hr.elseIn hr.elseGen)
  | .whileStmt e body, s, t, hf, h => by
    obtain ⟨v, s₁, c, s₂, s₃, q, hr⟩ := codeGenStmt_while_run (fun _ _ _ hf hb h => codeGenStmt_run body hf hb h) hf h
    exact hr.jumping (codeGenStmt_jumping body hr.bodyIn hr.bodyGen)
  | .continueStmt, s, t, hf, h => by
    obtain ⟨loop, outer, hl, rfl⟩ := codeGenStmt_continue_ok.mp h
    exact jump_jumping (by simp [State.loopTargets, hl])
  | .breakStmt, s, t, hf, h => by
    obtain ⟨loop, outer, hl, rfl⟩ := codeGenStmt_break_ok.mp h
    exact jump_jumping (by simp [State.loopTargets, hl])
  | .ret none, s, t, hf, h => by
    obtain rfl := codeGenStmt_retVoid_ok.mp h
    exact ret_jumping
  | .ret (some e), s, t, hf, h => by
    obtain ⟨v, w, hv, rfl⟩ := codeGenStmt_ret_ok.mp h
    obtain ⟨is, em⟩ := codeGenExp_emits hv
    exact em.jumping.trans ret_jumping em.nestedBlocks
  | .expr none, s, t, hf, h => by
    obtain rfl := codeGenStmt_empty_ok.mp h
    exact Jumps.jumping (.of_eq rfl (Nat.le_refl _) rfl)
  | .expr (some e), s, t, hf, h => by
    obtain ⟨v, hv⟩ := codeGenStmt_expr_ok.mp h
    obtain ⟨is, em⟩ := codeGenExp_emits hv
    exact em.jumping
  | .assign x sub e, s, t, hf, h => by
    obtain ⟨v, w, idx, k, hv, hk, hx⟩ := codeGenStmt_assign_ok.mp h
    obtain ⟨is, e₁⟩ := codeGenExp_emits hv
    obtain ⟨js, e₂⟩ := codeGenSubIdx_emits hk
    obtain ⟨ks, e₃⟩ := setValue_emits ((hf.emits e₁).emits e₂).layers hx
    exact (e₁.trans (e₂.trans e₃)).jumping

theorem codeGenStmt_elseBranch_jumping : ∀ (st : Option StmtNode) {s t : State}, InFunc func s →
    codeGenStmt (elseBranch st) s = .ok () t → Jumping func s t
  | none, s, t, hf, h => by
    obtain rfl := codeGenStmt_empty_ok.mp h
    exact Jumps.jumping (.of_eq rfl (Nat.le_refl _) rfl)
  | some st, s, t, hf, h => codeGenStmt_jumping st hf h

theorem codeGenBlockItem_jumping : ∀ (item : BlockItemNode) {s t : State}, InFunc func s →
    codeGenBlockItem item s = .ok () t → Jumping func s t
  | .decl _, _, _, hf, h => codeGenDecl_jumping hf (codeGenBlockItem_decl ▸ h)
  | .stmt st, _, _, hf, h => codeGenStmt_jumping st hf (codeGenBlockItem_stmt ▸ h)

theorem codeGenBlockItems_jumping : ∀ (items : List BlockItemNode) {s t : State}, InFunc func s →
    codeGenBlockItems items s = .ok () t → Jumping func s t
  | [], s, t, hf, h => by
    obtain rfl := codeGenBlockItems_nil_ok.mp h
    exact Jumps.jumping (.of_eq rfl (Nat.le_refl _) rfl)
  | item :: items, s, t, hf, h => by
    obtain ⟨w, hw, h⟩ := codeGenBlockItems_cons_ok.mp h
    obtain ⟨r, d⟩ := codeGenBlockItem_run item hf (Nat.zero_le _) hw
    exact (codeGenBlockItem_jumping item hf hw).trans (codeGenBlockItems_jumping items (hf.run r d.layers) h)
      d.nestedBlocks

end

end Stmt

/-! ### Functions and programs -/

section Functions
variable {s t : State} {node : FuncNode}

variable [ConstantFolder]

theorem defineParams_jumps {func : Nat} {ts : List Nat} : ∀ {ps : List (String × FParamType)} {i : Nat} {s t : State},
    InFunc func s → defineParams i ps s = .ok () t → Jumps func [] ts s t
  | [], i, s, t, _, h => by
    rw [defineParams] at h
    obtain ⟨-, rfl⟩ := pure_ok.mp h
    exact .of_eq rfl (Nat.le_refl _) rfl
  | (x, ty) :: ps, i, s, t, hf, h => by
    rw [defineParams] at h
    obtain ⟨w, hw, h⟩ := seq_ok.mp h
    obtain ⟨r, d⟩ := defineValue_run 0 hf hw
    exact .head (defineValue_jumps hf.layers hw) (defineParams_jumps (hf.run r d.layers) h)

omit [ConstantFolder] in
theorem retUnlessReturn_jumps {func : Nat} {ts : List Nat} {p : InsertPoint} :
    Jumps func [] ts s (s.retUnlessReturn p) := by
  have hret : ∀ i ∈ [Inst.ret none], ∀ x ∈ i.targets, x ∈ ts := by simp [Inst.targets]
  unfold State.retUnlessReturn
  split
  · split
    · exact .of_eq rfl (Nat.le_refl _) rfl
    · exact .append hret
  · exact .head (.of_eq (t := { s with emptyBack := true }) rfl (Nat.le_refl _) rfl) (.append hret)

/-- The blocks of a generated function: the entry block, and others, which alone are branched to. -/
theorem codeGenFunc_jumps (hs : Idle s) (h : codeGenFunc node s = .ok () t) : ∃ ls : List Nat,
    t.functions = s.functions ++ [{ node.object s with layout := s.nextLabel :: ls }] ∧ ls.Nodup ∧
    (∀ l ∈ ls, s.nextLabel < l) ∧ ∀ l : Nat, s.nextLabel ≤ l → ∀ i ∈ t.blocks l, ∀ x ∈ i.targets, x ∈ ls := by
  obtain ⟨s₁, s₂, p, hr⟩ := codeGenFunc_run h
  have hf₁ : InFunc s.functions.length s₁ := start_inFunc.run hr.paramsRun hr.defined.layers
  obtain ⟨ls, j, hn, hl⟩ := codeGenStmt_jumping _ hf₁ hr.body
  have ht : s₁.loopTargets = [] := by
    rw [State.loopTargets, hr.defined.nestedBlocks]
    show s.nestedBlocks.flatMap _ = []
    rw [hs.nestedBlocks]
    rfl
  rw [ht, List.append_nil] at j
  have hend : Jumps s.functions.length [] ls s₂ t := by
    rw [hr.result]
    exact .head retUnlessReturn_jumps (.of_eq rfl (Nat.le_refl _) rfl)
  have hall := Jumps.head (defineParams_jumps start_inFunc hr.params) (j.trans hend)
  rw [List.append_nil] at hall
  have hle : s.nextLabel + 1 ≤ s₁.nextLabel := hr.paramsRun.nextLabel_le
  refine ⟨ls, ?_, hn, fun l hm => Nat.lt_of_lt_of_le hle (hl l hm).1, fun l hl' i hi => ?_⟩
  · rw [hall.functions, start_functions, modify_last]
    rfl
  · rcases hall.targets l i hi with hi | hx
    · have : i ∈ s.blocks l := hi
      rw [hs.fresh l hl'] at this
      cases this
    · exact hx

/-- In every function the inserted blocks are different, and its branches go to those behind the entry block. -/
def BranchesInside (s : State) : Prop :=
  ∀ f ∈ s.functions, f.layout.Nodup ∧ ∀ l ∈ f.layout, ∀ i ∈ s.blocks l, ∀ x ∈ i.targets, x ∈ f.layout.tail

theorem BranchesInside.item {item : TopItem} (hb : BranchesInside s) (hs : Idle s)
    (h : codeGenTopItem item s = .ok () t) : BranchesInside t := by
  obtain ⟨hx, -⟩ := codeGenTopItem_extends hs h
  have hold : ∀ f ∈ s.functions, f.layout.Nodup ∧ ∀ l ∈ f.layout, ∀ i ∈ t.blocks l, ∀ x ∈ i.targets,
      x ∈ f.layout.tail := by
    intro f hf
    obtain ⟨hn, ht⟩ := hb f hf
    refine ⟨hn, fun l hl => ?_⟩
    rw [hx.blocks l (hs.layout f hf l hl)]
    exact ht l hl
  intro f hf
  cases item with
  | decl d =>
    obtain ⟨gs, tr, rfl, -⟩ := codeGenDecl_global hs.namedValues h
    exact hold f hf
  | func node =>
    obtain ⟨ls, hfs, hn, hlt, ht⟩ := codeGenFunc_jumps hs h
    rw [hfs, List.mem_append, List.mem_singleton] at hf
    rcases hf with hf | rfl
    · exact hold f hf
    · refine ⟨List.nodup_cons.mpr ⟨fun hm => Nat.lt_irrefl _ (hlt _ hm), hn⟩, fun l hl => ht l ?_⟩
      rcases List.mem_cons.mp hl with rfl | hl
      · exact Nat.le_refl _
      · exact Nat.le_of_lt (hlt l hl)

theorem accepts_branchesInside {node : EntryNode} (h : Accepts node s) : BranchesInside s := by
  refine accepts_invariant h (fun f hf => ?_) fun hb hs h => hb.item hs h
  obtain ⟨g, -, rfl⟩ := List.mem_map.mp hf
  exact ⟨List.nodup_nil, fun l hl => by cases hl⟩

end Functions

/-! ### Jumps in loops -/

mutual

/-- Every `break` and `continue` of the statement is in the body of a loop. `loop`: the statement itself is. -/
def StmtNode.jumpsInLoops : StmtNode → (loop : Bool) → Bool
  | .block items, loop => itemsJumpInLoops items loop
  | .ifStmt _ thenStmt none, loop => thenStmt.jumpsInLoops loop
  | .ifStmt _ thenStmt (some elseStmt), loop => thenStmt.jumpsInLoops loop && elseStmt.jumpsInLoops loop
  | .whileStmt _ body, _ => body.jumpsInLoops true
  | .continueStmt, loop => loop
  | .breakStmt, loop => loop
  | .ret _, _ => true
  | .expr _, _ => true
  | .assign _ _ _, _ => true

def BlockItemNode.jumpsInLoops : BlockItemNode → (loop : Bool) → Bool
  | .decl _, _ => true
  | .stmt st, loop => st.jumpsInLoops loop

/-- The same for the items of a block. -/
def itemsJumpInLoops : List BlockItemNode → (loop : Bool) → Bool
  | [], _ => true
  | item :: items, loop => item.jumpsInLoops loop && itemsJumpInLoops items loop

end

section InLoops
variable {func : Nat} {s t : State}

/-- A loop is open. -/
def State.looping (s : State) : Bool := !s.nestedBlocks.isEmpty

theorem looping_congr (h : t.nestedBlocks = s.nestedBlocks) : t.looping = s.looping := by
  rw [State.looping, h, State.looping]

variable [ConstantFolder]

mutual

theorem codeGenStmt_jumpsInLoops : ∀ (st : StmtNode) {s t : State}, InFunc func s → codeGenStmt st s = .ok () t →
    st.jumpsInLoops s.looping = true
  | .block items, s, t, hf, h => by
    obtain ⟨w, hw, rfl⟩ := codeGenStmt_block_ok.mp h
    have hf' : InFunc func (s.pushLayer.log .push) := ⟨hf.point, List.cons_ne_nil _ _⟩
    have hb := codeGenBlockItems_jumpsInLoops items hf' hw
    rwa [StmtNode.jumpsInLoops]
  | .ifStmt e thenStmt elseStmt, s, t, hf, h => by
    obtain ⟨v, s₁, c, s₂, s₃, q, s₄, r, hr⟩ := codeGenStmt_if_run
      (fun _ _ _ hf hb h => codeGenStmt_run thenStmt hf hb h)
      (fun _ _ _ hf hb h => codeGenStmt_elseBranch_run elseStmt hf hb h) hf h
    obtain ⟨is, em⟩ := hr.emits
    have hs₂ : (s₂.thenStart func c).nestedBlocks = s.nestedBlocks :=
      (State.append_nestedBlocks _ _).trans em.nestedBlocks
    have ha := codeGenStmt_jumpsInLoops thenStmt hr.thenIn hr.thenGen
    rw [looping_congr hs₂] at ha
    cases elseStmt with
    | none => rwa [StmtNode.jumpsInLoops]
    | some st =>
      have hs₃ : ((s₃.brUnlessBranch q (s₂.nextLabel + 2)).enter func (s₂.nextLabel + 1)).nestedBlocks =
          s.nestedBlocks :=
        (brUnlessBranch_nestedBlocks _ _ _).trans (hr.thenRestored.nestedBlocks.trans hs₂)
      have hb := codeGenStmt_jumpsInLoops st hr.elseIn hr.elseGen
      rw [looping_congr hs₃] at hb
      rw [StmtNode.jumpsInLoops, ha, hb]
      rfl
  | .whileStmt e body, s, t, hf, h => by
    obtain ⟨v, s₁, c, s₂, s₃, q, hr⟩ := codeGenStmt_while_run (fun _ _ _ hf hb h => codeGenStmt_run body hf hb h) hf h
    obtain ⟨is, em⟩ := hr.emits
    have hl : (s₂.bodyStart func c s.nextLabel).looping = true := by
      rw [State.looping, bodyStart_nestedBlocks, em.nestedBlocks, loopStart_nestedBlocks]
      rfl
    have hb := codeGenStmt_jumpsInLoops body hr.bodyIn hr.bodyGen
    rw [hl] at hb
    rwa [StmtNode.jumpsInLoops]
  | .continueStmt, s, t, hf, h => by
    obtain ⟨loop, outer, hl, -⟩ := codeGenStmt_continue_ok.mp h
    simp [StmtNode.jumpsInLoops, State.looping, hl]
  | .breakStmt, s, t, hf, h => by
    obtain ⟨loop, outer, hl, -⟩ := codeGenStmt_break_ok.mp h
    simp [StmtNode.jumpsInLoops, State.looping, hl]
  | .ret _, _, _, _, _ => by rw [StmtNode.jumpsInLoops]
  | .expr _, _, _, _, _ => by rw [StmtNode.jumpsInLoops]
  | .assign _ _ _, _, _, _, _ => by rw [StmtNode.jumpsInLoops]

theorem codeGenBlockItem_jumpsInLoops : ∀ (item : BlockItemNode) {s t : State}, InFunc func s →
    codeGenBlockItem item s = .ok () t → item.jumpsInLoops s.looping = true
  | .decl _, _, _, _, _ => by rw [BlockItemNode.jumpsInLoops]
  | .stmt st, _, _, hf, h => by
    rw [BlockItemNode.jumpsInLoops]
    exact codeGenStmt_jumpsInLoops st hf (codeGenBlockItem_stmt ▸ h)

theorem codeGenBlockItems_jumpsInLoops : ∀ (items : List BlockItemNode) {s t : State}, InFunc func s →
    codeGenBlockItems items s = .ok () t → itemsJumpInLoops items s.looping = true
  | [], _, _, _, _ => by rw [itemsJumpInLoops]
  | item :: items, s, t, hf, h => by
    obtain ⟨w, hw, h⟩ := codeGenBlockItems_cons_ok.mp h
    obtain ⟨r, d⟩ := codeGenBlockItem_run item hf (Nat.zero_le _) hw
    have h₁ := codeGenBlockItem_jumpsInLoops item hf hw
    have h₂ := codeGenBlockItems_jumpsInLoops items (hf.run r d.layers) h
    rw [looping_congr d.nestedBlocks] at h₂
    rw [itemsJumpInLoops, h₁, h₂]
    rfl

end

theorem codeGenFunc_jumpsInLoops {node : FuncNode} (hs : Idle s) (h : codeGenFunc node s = .ok () t) :
    itemsJumpInLoops node.block false = true := by
  obtain ⟨s₁, s₂, p, hr⟩ := codeGenFunc_run h
  have hf₁ : InFunc s.functions.length s₁ := start_inFunc.run hr.paramsRun hr.defined.layers
  have hb := codeGenStmt_jumpsInLoops _ hf₁ hr.body
  have hl : s₁.looping = false := by
    rw [State.looping, hr.defined.nestedBlocks]
    show (!s.nestedBlocks.isEmpty) = false
    rw [hs.nestedBlocks]
    rfl
  rwa [StmtNode.jumpsInLoops, hl] at hb

theorem accepts_jumpsInLoops {node : EntryNode} (h : Accepts node s) :
    ∀ f ∈ node.funcs, itemsJumpInLoops f.block false = true := by
  let P : List TopItem → State → Prop :=
    fun items _ => ∀ f ∈ items.filterMap TopItem.func?, itemsJumpInLoops f.block false = true
  refine accepts_induct (P := P) h (fun f hf => by cases hf) fun {items item s t} hp hs h f hf => ?_
  rw [List.filterMap_append, List.mem_append] at hf
  rcases hf with hf | hf
  · exact hp f hf
  · cases item with
    | decl d => simp [TopItem.func?] at hf
    | func g =>
      simp [TopItem.func?] at hf
      exact hf ▸ codeGenFunc_jumpsInLoops hs h

end InLoops

/-! ### The result -/

/-- Where a `break` or a `continue` goes: to the block behind a loop, or to that of its condition. -/
def StmtNode.jump? : StmtNode → Option (Label × Label → Label)
  | .breakStmt => some (·.2)
  | .continueStmt => some (·.1)
  | _ => none

variable [ConstantFolder]

theorem jump_ok {st : StmtNode} {target : Label × Label → Label} (hj : st.jump? = some target) {s : State}
    {loop : Label × Label}
    {outer : List (Label × Label)} (h : s.nestedBlocks = loop :: outer) :
    codeGenStmt st s = .ok () (s.append [.br (target loop)]) := by
  cases st with
  | breakStmt =>
    cases hj
    exact codeGenStmt_break_ok.mpr ⟨loop, outer, h, rfl⟩
  | continueStmt =>
    cases hj
    exact codeGenStmt_continue_ok.mpr ⟨loop, outer, h, rfl⟩
  | _ => cases hj

theorem jump_error {st : StmtNode} {target : Label × Label → Label} (hj : st.jump? = some target) {s : State}
    (h : s.nestedBlocks = []) : codeGenStmt st s = .error (.logError breakMessage) s := by
  have hl : innermostLoop s = .error (.logError breakMessage) s := by
    unfold innermostLoop
    rw [bind_of_ok (get_ok.mpr ⟨rfl, rfl⟩), h]
    rfl
  cases st with
  | breakStmt =>
    rw [codeGenStmt, codeGenBreak]
    exact bind_of_error hl
  | continueStmt =>
    rw [codeGenStmt, codeGenContinue]
    exact bind_of_error hl
  | _ => cases hj

/-- What a program's jumps do. The context of a call has the loops of its function around it, with the
    blocks of their conditions and the blocks behind them. -/
structure JumpsTarget (node : EntryNode) : Prop where
  /-- Outside all loops code generation stops with `LogError`, and only there. -/
  stops : ∀ {st : StmtNode} {target : Label × Label → Label} {c : Ctx} {s : State}, st.jump? = some target →
    Visited node ⟨.stmt st, c, s⟩ → ((∃ msg u, codeGenStmt st s = .error (.logError msg) u) ↔ c.loops = []) ∧
      (c.loops = [] → compile node = .error (.logError breakMessage) s)
  /-- Inside a loop it generates a branch to a block of the innermost one. -/
  goes : ∀ {st : StmtNode} {target : Label × Label → Label} {c : Ctx} {s : State} {loop : Label × Label}
    {outer : List (Label × Label)}, st.jump? = some target → Visited node ⟨.stmt st, c, s⟩ → c.loops = loop :: outer →
      codeGenStmt st s = .ok () (s.append [.br (target loop)])
  /-- The blocks of a loop: the condition is generated in the first, and what is behind the loop in the second. -/
  loops : ∀ {e : ExprNode} {body : StmtNode} {c : Ctx} {s t : State}, Visited node ⟨.stmt (.whileStmt e body), c, s⟩ →
    codeGenStmt (.whileStmt e body) s = .ok () t → ∃ func, (s.loopStart func).insertPoint = some ⟨func, s.nextLabel⟩ ∧
      t.insertPoint = some ⟨func, s.nextLabel + 2⟩
  /-- Every statement leaves the open loops as they were. -/
  restored : ∀ {st : StmtNode} {c : Ctx} {s t : State}, Visited node ⟨.stmt st, c, s⟩ → codeGenStmt st s = .ok () t →
    t.nestedBlocks = s.nestedBlocks
  /-- No loop is open before or after a function. -/
  boundary : ∀ {f : FuncNode} {is : List TopItem} {c : Ctx} {s : State},
    Visited node ⟨.items [] (.func f :: is), c, s⟩ →
    s.nestedBlocks = [] ∧ ∀ t, codeGenFunc f s = .ok () t → t.nestedBlocks = []
  /-- In an accepted function every block that is branched to is inserted exactly once. -/
  inserted : ∀ {s : State}, Accepts node s → ∀ f ∈ s.functions, ∀ l ∈ f.layout, ∀ i ∈ s.blocks l, ∀ x ∈ i.targets,
    f.layout.count x = 1
  /-- In an accepted program every `break` and `continue` is in the body of a loop of its function. -/
  inLoops : ∀ {s : State}, Accepts node s → ∀ f ∈ node.funcs, itemsJumpInLoops f.block false = true

theorem jumps_target (node : EntryNode) : JumpsTarget node where
  stops {st target c s} hj hv := by
    have hl : s.nestedBlocks = c.loops := hv.valid.matched.loops
    refine ⟨⟨fun h => ?_, fun h => ?_⟩, fun h => hv.error (jump_error hj (hl.trans h))⟩
    · obtain ⟨msg, u, he⟩ := h
      cases hc : c.loops with
      | nil => rfl
      | cons loop outer =>
        rw [jump_ok hj (hl.trans hc)] at he
        cases he
    · exact ⟨_, _, jump_error hj (hl.trans h)⟩
  goes hj hv hc := jump_ok hj (hv.valid.matched.loops.trans hc)
  loops {e body c s t} hv h := by
    obtain ⟨func, entry, hf⟩ := hv.valid.inside (hv.valid.inner trivial)
    obtain ⟨v, s₁, k, s₂, s₃, q, hr⟩ := codeGenStmt_while_run
      (fun _ _ _ hf hb h => codeGenStmt_run body hf hb h) hf.inFunc h
    refine ⟨func, rfl, ?_⟩
    rw [hr.result]
    rfl
  restored {st c s t} hv h := by
    obtain ⟨func, entry, hf⟩ := hv.valid.inside (hv.valid.inner trivial)
    exact (codeGenStmt_run st hf.inFunc (Nat.zero_le _) h).2.nestedBlocks
  boundary hv := by
    have hs := hv.valid.top trivial
    exact ⟨hs.nestedBlocks, fun t h => (codeGenFunc_idle hs h).nestedBlocks⟩
  inserted h f hf l hl i hi x hx := by
    obtain ⟨hn, ht⟩ := accepts_branchesInside h f hf
    exact List.count_eq_one_of_mem hn (List.mem_of_mem_tail (ht l hl i hi x hx))
  inLoops h := accepts_jumpsInLoops h

end L24
