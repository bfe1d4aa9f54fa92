import L24.Theorems.Termination

/-! The blocks of a generated function end: each has a terminator, so no activation runs off the end of its code. While
    a function is generated only the block that is inserted into may lack one. -/

namespace L24
open Ir Relation

/-- The block has a terminator. -/
def Ends (s : State) (l : Label) : Prop := ∃ i ∈ s.blocks l, i.isTerminator = true

/-- Each block of function number `func` ends. -/
structure Ended (func : Nat) (s : State) : Prop where
  lt : func < s.functions.length
  point : ∃ l, s.insertPoint = some ⟨func, l⟩
  ends : ∀ l ∈ s.layout func, Ends s l

/-- Each does, but for the one that is inserted into. -/
structure Unended (func : Nat) (s : State) : Prop where
  lt : func < s.functions.length
  point : ∃ l, s.insertPoint = some ⟨func, l⟩
  ends : ∀ l ∈ s.layout func, s.insertPoint = some ⟨func, l⟩ ∨ Ends s l

section Blocks
variable {func : Nat} {s t : State} {p : InsertPoint} {i : Inst}

theorem Ended.unended (h : Ended func s) : Unended func s := ⟨h.lt, h.point, fun l hl => .inr (h.ends l hl)⟩

/-- More instructions in the same blocks. -/
theorem Unended.grow (h : Unended func s) (hf : t.functions = s.functions) (hp : t.insertPoint = s.insertPoint)
    (hb : ∀ l, ∀ i ∈ s.blocks l, i ∈ t.blocks l) : Unended func t := by
  refine ⟨hf ▸ h.lt, hp ▸ h.point, fun l hl => ?_⟩
  rw [layout_congr hf] at hl
  rw [hp]
  refine (h.ends l hl).imp_right fun hi => ?_
  obtain ⟨i, hi, hterm⟩ := hi
  exact ⟨i, hb l i hi, hterm⟩

theorem Unended.congr (h : Unended func s) (hf : t.functions = s.functions) (hp : t.insertPoint = s.insertPoint)
    (hb : t.blocks = s.blocks) : Unended func t := h.grow hf hp fun _ _ hi => hb ▸ hi

theorem Unended.emits {is : List Inst} (h : Unended func s) (e : Emits s is t) : Unended func t :=
  h.grow e.functions e.insertPoint fun _ _ => e.mem_blocks

theorem Unended.emitAlloca (h : Unended func s) (e : Label) (ty : Ty) (count : Option Value) :
    Unended func (s.emitAlloca e ty count) := by
  refine h.grow rfl rfl fun l i hi => ?_
  by_cases hl : l = e
  · subst hl
    have hblock : (s.emitAlloca l ty count).blocks l = .alloca s.nextSlot ty count :: s.blocks l :=
      Function.update_self ..
    rw [hblock]
    exact List.mem_cons_of_mem _ hi
  · have hblock : (s.emitAlloca e ty count).blocks l = s.blocks l := Function.update_of_ne hl ..
    rwa [hblock]

/-- A terminator ends the block. -/
theorem Unended.terminate (h : Unended func s) (hi : i.isTerminator = true) : Ended func (s.append [i]) := by
  obtain ⟨p, hp⟩ := h.point
  refine ⟨?_, ⟨p, ?_⟩, fun l hl => ?_⟩
  · rw [State.append_functions]
    exact h.lt
  · rw [State.append_insertPoint, hp]
  · rw [layout_congr (State.append_functions s _)] at hl
    rw [Ends, State.append_blocks s hp]
    by_cases hlp : l = p
    · rw [hlp, Function.update_self]
      exact ⟨i, List.mem_append_right _ List.mem_cons_self, hi⟩
    · rw [Function.update_of_ne hlp]
      refine (h.ends l hl).resolve_left fun hq => hlp ?_
      rw [hp] at hq
      cases hq
      rfl

/-- A block whose last instruction is a terminator has ended. -/
theorem Unended.ended (h : Unended func s) (hp : s.insertPoint = some p) (hi : (s.blocks p.block).getLast? = some i)
    (hterm : i.isTerminator = true) : Ended func s := by
  refine ⟨h.lt, h.point, fun l hl => ?_⟩
  rcases h.ends l hl with hq | hi'
  · obtain rfl := Option.some.inj (hp.symm.trans hq)
    exact ⟨i, List.mem_of_getLast? hi, hterm⟩
  · exact hi'

theorem Unended.brUnlessBranch (h : Unended func s) (hp : s.insertPoint = some p) (target : Label) :
    Ended func (s.brUnlessBranch p target) := by
  unfold State.brUnlessBranch
  cases hi : (s.blocks p.block).getLast? with
  | none => exact Unended.terminate (s := { s with emptyBack := true }) ⟨h.lt, h.point, h.ends⟩ rfl
  | some i =>
    cases hbr : i.isBranch with
    | true =>
      simp only [hbr, ↓reduceIte]
      exact h.ended hp hi (by rw [Inst.isTerminator, hbr, Bool.true_or])
    | false =>
      simp only [hbr, Bool.false_eq_true, ↓reduceIte]
      exact h.terminate rfl

theorem Unended.retUnlessReturn (h : Unended func s) (hp : s.insertPoint = some p) :
    Ended func (s.retUnlessReturn p) := by
  unfold State.retUnlessReturn
  cases hi : (s.blocks p.block).getLast? with
  | none => exact Unended.terminate (s := { s with emptyBack := true }) ⟨h.lt, h.point, h.ends⟩ rfl
  | some i =>
    cases hret : i.isReturn with
    | true =>
      simp only [hret, ↓reduceIte]
      exact h.ended hp hi (by rw [Inst.isTerminator, hret, Bool.or_true])
    | false =>
      simp only [hret, Bool.false_eq_true, ↓reduceIte]
      exact h.terminate rfl

/-- Where all blocks have ended, the next one begins. -/
theorem Ended.enter (h : Ended func s) (l : Label) : Unended func (s.enter func l) := by
  refine ⟨?_, ⟨l, rfl⟩, fun l' hl' => ?_⟩
  · show func < (s.functions.modify func _).length
    rw [List.length_modify]
    exact h.lt
  · rcases mem_enter_layout h.lt hl' with hl' | rfl
    · exact .inr (h.ends l' hl')
    · exact .inl rfl

/-! ### Definitions and statements -/

variable [ConstantFolder]

theorem defineValue_unended {x : String} {ty : ValType} {vals : List Value} {size : Option Value} {isPtr : Bool}
    (hf : InFunc func s) (h : defineValue x ty vals size isPtr s = .ok () t) (hs : Unended func s) :
    Unended func t := by
  rcases defineValue_ok h with ⟨hn, -⟩ | ⟨layer, outer, a, w, -, -, ha, rfl⟩
  · exact absurd hn hf.layers
  · obtain ⟨p, entry, is, -, -, -, -, e⟩ := createDefineValueInst_step ha
    exact ((hs.emitAlloca _ _ _).emits e).congr rfl rfl rfl

theorem defs_unended : ∀ {ds : List Def} {s t : State}, InFunc func s → ds.forM Def.gen s = .ok ⟨⟩ t → Unended func s →
    Unended func t
  | [], s, t, _, h, hs => by
    obtain rfl := forM_nil_ok.mp h
    exact hs
  | d :: ds, s, t, hf, h, hs => by
    obtain ⟨w, hd, h⟩ := forM_cons_ok.mp h
    obtain ⟨r, k⟩ := Def.gen_run 0 hf hd
    obtain ⟨size, vs, u, hi, hdef⟩ := codeGenDef_ok.mp hd
    obtain ⟨is, e⟩ := hi.emits
    exact defs_unended (hf.run r k.layers) h (defineValue_unended (hf.emits e) hdef (hs.emits e))

mutual

/-- A statement ends the blocks it leaves. -/
theorem codeGenStmt_unended : ∀ (st : StmtNode) {s t : State}, InFunc func s → codeGenStmt st s = .ok () t →
    Unended func s → Unended func t
  | .block items, s, t, hf, hg, hs => by
    obtain ⟨w, hw, rfl⟩ := codeGenStmt_block_ok.mp hg
    have hf' : InFunc func (s.pushLayer.log .push) := ⟨hf.point, List.cons_ne_nil _ _⟩
    have hitems := codeGenBlockItems_unended items hf' hw (hs.congr rfl rfl rfl)
    exact hitems.congr rfl rfl rfl
  | .ifStmt e a b, s, t, hf, hg, hs => by
    obtain ⟨v, s₁, c, s₂, s₃, q, s₄, r, hr⟩ := codeGenStmt_if_run
      (fun _ _ _ hf hb h => codeGenStmt_run a hf hb h)
      (fun _ _ _ hf hb h => codeGenStmt_elseBranch_run b hf hb h) hf hg
    obtain ⟨is, em⟩ := hr.emits
    -- The condition is emitted in the block of the `if`, the branches in blocks that have just been entered.
    have hnew : Unended func s₂.newBlocks := (hs.emits em).congr rfl rfl rfl
    have hthen := codeGenStmt_unended a hr.thenIn hr.thenGen ((hnew.terminate rfl).enter _)
    have helse := codeGenStmt_elseBranch_unended b hr.elseIn hr.elseGen ((hthen.brUnlessBranch hr.thenPoint _).enter _)
    rw [hr.result]
    exact (helse.brUnlessBranch hr.elsePoint _).enter _
  | .whileStmt e body, s, t, hf, hg, hs => by
    obtain ⟨v, s₁, c, s₂, s₃, q, hr⟩ :=
      codeGenStmt_while_run (fun _ _ _ hf hb h => codeGenStmt_run body hf hb h) hf hg
    obtain ⟨is, em⟩ := hr.emits
    have hnew : Unended func (s.newBlocks.pushLoop (s.nextLabel, s.nextLabel + 2)) := hs.congr rfl rfl rfl
    -- The block in front of the loop ends with the jump to the condition.
    have hcond : Unended func s₂ := ((hnew.terminate rfl).enter _).emits em
    have hbody := codeGenStmt_unended body hr.bodyIn hr.bodyGen ((hcond.terminate rfl).enter _)
    rw [hr.result]
    exact ((hbody.brUnlessBranch hr.bodyPoint _).enter _).congr rfl rfl rfl
  | .continueStmt, s, t, _, hg, hs => by
    obtain ⟨loop, outer, -, rfl⟩ := codeGenStmt_continue_ok.mp hg
    exact (hs.terminate rfl).unended
  | .breakStmt, s, t, _, hg, hs => by
    obtain ⟨loop, outer, -, rfl⟩ := codeGenStmt_break_ok.mp hg
    exact (hs.terminate rfl).unended
  | .ret none, s, t, _, hg, hs => by
    obtain rfl := codeGenStmt_retVoid_ok.mp hg
    exact (hs.terminate rfl).unended
  | .ret (some e), s, t, _, hg, hs => by
    obtain ⟨v, w, hv, rfl⟩ := codeGenStmt_ret_ok.mp hg
    obtain ⟨is, em⟩ := codeGenExp_emits hv
    exact ((hs.emits em).terminate rfl).unended
  | .expr none, s, t, _, hg, hs => by
    obtain rfl := codeGenStmt_empty_ok.mp hg
    exact hs
  | .expr (some e), s, t, _, hg, hs => by
    obtain ⟨v, hv⟩ := codeGenStmt_expr_ok.mp hg
    obtain ⟨is, em⟩ := codeGenExp_emits hv
    exact hs.emits em
  | .assign x sub e, s, t, hf, hg, hs => by
    obtain ⟨v, w, idx, u, hv, hidx, hset⟩ := codeGenStmt_assign_ok.mp hg
    obtain ⟨is, e₁⟩ := codeGenExp_emits hv
    obtain ⟨js, e₂⟩ := codeGenSubIdx_emits hidx
    obtain ⟨ks, e₃⟩ := setValue_emits ((hf.emits e₁).emits e₂).layers hset
    exact ((hs.emits e₁).emits e₂).emits e₃

theorem codeGenStmt_elseBranch_unended : ∀ (st : Option StmtNode) {s t : State}, InFunc func s →
    codeGenStmt (elseBranch st) s = .ok () t → Unended func s → Unended func t
  | none, s, t, _, hg, hs => by
    obtain rfl := codeGenStmt_empty_ok.mp hg
    exact hs
  | some st, s, t, hf, hg, hs => codeGenStmt_unended st hf hg hs

theorem codeGenBlockItem_unended : ∀ (item : BlockItemNode) {s t : State}, InFunc func s →
    codeGenBlockItem item s = .ok () t → Unended func s → Unended func t
  | .decl d, s, t, hf, hg, hs => by
    rw [codeGenBlockItem_decl, codeGenDecl_defs] at hg
    exact defs_unended hf hg hs
  | .stmt st, s, t, hf, hg, hs => codeGenStmt_unended st hf (codeGenBlockItem_stmt ▸ hg) hs

theorem codeGenBlockItems_unended : ∀ (items : List BlockItemNode) {s t : State}, InFunc func s →
    codeGenBlockItems items s = .ok () t → Unended func s → Unended func t
  | [], s, t, _, hg, hs => by
    obtain rfl := codeGenBlockItems_nil_ok.mp hg
    exact hs
  | item :: items, s, t, hf, hg, hs => by
    obtain ⟨w, hw, hg⟩ := codeGenBlockItems_cons_ok.mp hg
    obtain ⟨r, d⟩ := codeGenBlockItem_run item hf (Nat.zero_le _) hw
    exact codeGenBlockItems_unended items (hf.run r d.layers) hg (codeGenBlockItem_unended item hf hw hs)

end

end Blocks

/-! ### Functions -/

variable [ConstantFolder]

end L24
