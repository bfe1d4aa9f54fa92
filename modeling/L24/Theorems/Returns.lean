import L24.Theorems.Flow
import L24.Theorems.Jumps
import L24.Theorems.Kinds
import L24.Theorems.Redeclare

/-! Returns: which return instructions a function gets, from its return statements and from the epilogue, which
    looks at the last instruction of the last block only. -/

namespace L24
open Ir Relation

section
/-! ### The static analysis -/

/-- A return statement fits the declared type: an integer for `int` and `char`, nothing for `void`. -/
def returnFits (type : FuncType) (k : Kinds) : Option ExprNode → Bool
  | none => type == .void
  | some e => type != .void && e.core.kind k == some .int

mutual

/-- The return statements in a statement fit the declared type. -/
def StmtNode.returnsFit (type : FuncType) : StmtNode → Kinds → Bool
  | .block items, k => itemsReturnsFit type items k.push
  | .ifStmt _ a none, k => a.returnsFit type k
  | .ifStmt _ a (some b), k => a.returnsFit type k && b.returnsFit type k
  | .whileStmt _ body, k => body.returnsFit type k
  | .ret e, k => returnFits type k e
  | .continueStmt, _ | .breakStmt, _ | .expr _, _ | .assign _ _ _, _ => true

def BlockItemNode.returnsFit (type : FuncType) : BlockItemNode → Kinds → Bool
  | .decl _, _ => true
  | .stmt st, k => st.returnsFit type k

/-- The same for the items of a block. -/
def itemsReturnsFit (type : FuncType) : List BlockItemNode → Kinds → Bool
  | [], _ => true
  | item :: items, k => item.returnsFit type k && itemsReturnsFit type items (item.declared k)

end

/-- A definition stores its initial values, so it ends with no return unless its size is negative. -/
def Def.returned (d : Def) (last : Bool) : Bool := match d.exp with
  | none => false
  | some e => if arrayElements e.core = 0 then last else false

mutual

/-- Whether the last instruction of the insertion block is a return behind a statement, if it is as `last` says
    before it. Behind an `if` or a `while` the block is a new one. -/
def StmtNode.returned : StmtNode → (last : Bool) → Bool
  | .block items, last => itemsReturned items last
  | .ret _, _ => true
  | .expr none, last => last
  | .expr (some e), last => e.core.literal && last
  | .ifStmt _ _ _, _ | .whileStmt _ _, _ | .continueStmt, _ | .breakStmt, _ | .assign _ _ _, _ => false

def BlockItemNode.returned : BlockItemNode → (last : Bool) → Bool
  | .decl d, last => d.defs.foldl (fun last d => d.returned last) last
  | .stmt st, last => st.returned last

/-- The same for the items of a block. -/
def itemsReturned : List BlockItemNode → (last : Bool) → Bool
  | [], last => last
  | item :: items, last => itemsReturned items (item.returned last)

end

/-- The return statements of a function fit its type, and if it has a result its body ends with one of them. -/
def FuncNode.returnsFit (node : FuncNode) (k : Kinds) : Bool :=
  itemsReturnsFit node.type node.block (k.inFunc node).push && (node.type == .void || itemsReturned node.block false)

/-! ### Return instructions -/

/-- A return instruction fits the declared type. -/
def ReturnMatches (type : FuncType) : Inst → Prop
  | .ret none => type = .void
  | .ret (some v) => type ≠ .void ∧ v.ty = .i64
  | _ => True

/-- While a function with the entry block `entry` is generated: whether its return instructions so far fit, and
    whether the last instruction of the insertion block is one. -/
structure Returning (type : FuncType) (func entry : Nat) (fit last : Bool) (s : State) : Prop where
  fit : (∀ l : Nat, entry ≤ l → ∀ i ∈ s.blocks l, ReturnMatches type i) ↔ fit = true
  last : ∃ p : Nat, s.insertPoint = some ⟨func, p⟩ ∧ entry ≤ p ∧ (s.blocks p).getLast?.any Inst.isReturn = last

section Returning
variable {type : FuncType} {func entry : Nat} {fit last : Bool} {s t : State} {i : Inst}

theorem returnMatches_of_not_isReturn (h : i.isReturn = false) : ReturnMatches type i := by
  cases i with
  | ret o => cases h
  | _ => trivial

theorem isReturn_of_plain (h : i.isTerminator = false) : i.isReturn = false := by
  cases i <;> first | rfl | cases h

namespace Returning

theorem congr (h : Returning type func entry fit last s) (hb : t.blocks = s.blocks)
    (hp : t.insertPoint = s.insertPoint) :
    Returning type func entry fit last t := by
  obtain ⟨h₁, h₂⟩ := h
  exact ⟨by rw [hb]; exact h₁, by rw [hb, hp]; exact h₂⟩

/-- Instructions at the insertion point, the last of which is `i`. -/
theorem append {is : List Inst} {ok : Bool} (h : Returning type func entry fit last s)
    (hok : (∀ j ∈ is ++ [i], ReturnMatches type j) ↔ ok = true) :
    Returning type func entry (fit && ok) i.isReturn (s.append (is ++ [i])) := by
  obtain ⟨h₁, p, hp, hle, -⟩ := h
  have hself : (s.append (is ++ [i])).blocks p = s.blocks p ++ (is ++ [i]) := by
    rw [State.append_blocks s hp, Function.update_self]
  refine ⟨?_, p, (State.append_insertPoint s _).trans hp, hle, ?_⟩
  · rw [Bool.and_eq_true, ← h₁, ← hok]
    constructor
    · intro hall
      refine ⟨fun l hl j hj => ?_, fun j hj => ?_⟩
      · by_cases he : l = p
        · refine hall p hle j ?_
          rw [hself]
          exact List.mem_append_left _ (he ▸ hj)
        · refine hall l hl j ?_
          rw [append_blocks_of_ne hp he]
          exact hj
      · refine hall p hle j ?_
        rw [hself]
        exact List.mem_append_right _ hj
    · rintro ⟨hold, hnew⟩ l hl j hj
      rcases mem_append_blocks hj with hj | hj
      · exact hold l hl j hj
      · exact hnew j hj
  · rw [hself, ← List.append_assoc, List.getLast?_concat]
    rfl

/-- Instructions without a return. -/
theorem plain {is : List Inst} (h : Returning type func entry fit last s) (hi : ∀ i ∈ is, i.isReturn = false)
    (hne : is ≠ []) : Returning type func entry fit false (s.append is) := by
  obtain ⟨js, i, rfl⟩ := List.eq_nil_or_concat' is |>.resolve_left hne
  have hok : (∀ j ∈ js ++ [i], ReturnMatches type j) ↔ true = true :=
    ⟨fun _ => rfl, fun _ j hj => returnMatches_of_not_isReturn (hi j hj)⟩
  have h' := h.append hok
  rwa [Bool.and_true, hi i (List.mem_append_right _ List.mem_cons_self)] at h'

theorem emits {is : List Inst} (h : Returning type func entry fit last s) (e : Emits s is t) (hne : is ≠ []) :
    Returning type func entry fit false t := by
  refine (h.plain (fun i hi => isReturn_of_plain (e.plain i hi).1) hne).congr e.blocks ?_
  rw [e.insertPoint, State.append_insertPoint]

theorem folds {lit : Bool} {c : Const} {v : Value} (h : Returning type func entry fit last s) (hf : Folds lit c s v t) :
    Returning type func entry fit (lit && last) t := by
  rcases hf with ⟨rfl, -, rfl⟩ | ⟨rfl, -, is, hne, e⟩
  · exact h
  · exact h.emits e hne

/-- Some instructions or none, in front of what decides about the end of the block. -/
theorem emits_some {is : List Inst} (h : Returning type func entry fit last s) (e : Emits s is t) :
    ∃ last', Returning type func entry fit last' t := by
  by_cases hne : is = []
  · subst hne
    refine ⟨last, h.congr (e.blocks.trans ?_) e.insertPoint⟩
    exact (Emits.refl s).blocks.symm
  · exact ⟨false, h.emits e hne⟩

theorem ret {o : Option Value} {ok : Bool} (h : Returning type func entry fit last s)
    (hok : ReturnMatches type (.ret o) ↔ ok = true) :
    Returning type func entry (fit && ok) true (s.append [.ret o]) := by
  have hall : (∀ j ∈ [] ++ [Inst.ret o], ReturnMatches type j) ↔ ok = true := by simpa using hok
  exact h.append hall

/-- A block that has just been entered. -/
theorem enter {l : Nat} (h : Returning type func entry fit last s) (hle : entry ≤ l)
    (hb : (s.enter func l).blocks l = []) :
    Returning type func entry fit false (s.enter func l) := by
  refine ⟨h.fit, l, rfl, hle, ?_⟩
  rw [hb]
  rfl

theorem brUnlessBranch (h : Returning type func entry fit last s) (p : InsertPoint) (target : Label) :
    ∃ last', Returning type func entry fit last' (s.brUnlessBranch p target) := by
  have hbr : ∀ w : State, Returning type func entry fit last w →
      Returning type func entry fit false (w.append [.br target]) :=
    fun w hw => hw.plain (by simp [Inst.isReturn]) (List.cons_ne_nil _ _)
  unfold State.brUnlessBranch
  split
  · split
    · exact ⟨last, h⟩
    · exact ⟨false, hbr s h⟩
  · exact ⟨false, hbr _ (h.congr rfl rfl)⟩

theorem emitAlloca (h : Returning type func entry fit last s) (ty : Ty) (count : Option Value) :
    Returning type func entry fit last (s.emitAlloca entry ty count) := by
  obtain ⟨h₁, p, hp, hle, h₂⟩ := h
  have hself : (s.emitAlloca entry ty count).blocks entry = .alloca s.nextSlot ty count :: s.blocks entry :=
    Function.update_self ..
  have hother : ∀ l, l ≠ entry → (s.emitAlloca entry ty count).blocks l = s.blocks l := fun l hl =>
    Function.update_of_ne hl ..
  refine ⟨?_, p, hp, hle, ?_⟩
  · rw [← h₁]
    refine forall_congr' fun l => imp_congr_right fun _ => ?_
    by_cases hl : l = entry
    · rw [hl, hself]
      simp [ReturnMatches]
    · rw [hother l hl]
  · by_cases hl : p = entry
    · rw [hl, hself]
      rw [hl] at h₂
      cases hb : s.blocks entry with
      | nil => simpa [hb, Inst.isReturn] using h₂
      | cons i is => rwa [hb] at h₂
    · rw [hother p hl]
      exact h₂

end Returning

theorem append_nil (s : State) : (s.append []).blocks = s.blocks := (Emits.refl s).blocks.symm

variable [ConstantFolder]

/-- A definition: stores at the insertion point, unless it is an array without elements. -/
theorem defineValue_returning {x : String} {ty : ValType} {vals : List Value} {size : Option Value} {isPtr : Bool}
    (hf : InFunc func s) (hs : Prologue func entry s) (h : Returning type func entry fit last s)
    (hg : defineValue x ty vals size isPtr s = .ok () t) :
    Returning type func entry fit (if size ≠ none ∧ vals = [] then last else false) t := by
  rcases defineValue_ok hg with ⟨hn, -⟩ | ⟨layer, outer, a, w, hn, -, hw, rfl⟩
  · exact absurd hn hf.layers
  · obtain ⟨p, w', hp, hw', hst⟩ := createDefineValueInst_ok hw
    obtain ⟨e, he, -, hsh, rfl⟩ := createEntryBlockAlloca_step hw'
    obtain ⟨l, hl, -, -⟩ := hs.point
    obtain rfl := Option.some.inj (hp.symm.trans hl)
    obtain rfl := Option.some.inj (he.symm.trans hs.head)
    have h' := h.emitAlloca a.ty size
    refine Returning.congr (s := w) ?_ rfl rfl
    rcases hst with ⟨rfl, v, hv, rfl⟩ | ⟨hne, rfl⟩
    · rw [if_neg (by simp)]
      exact h'.plain (by simp [Inst.isReturn]) (List.cons_ne_nil _ _)
    · cases vals with
      | nil =>
        rw [if_pos ⟨hne, rfl⟩]
        exact h'.congr (append_nil _) (State.append_insertPoint _ _)
      | cons v vs =>
        rw [if_neg (by simp)]
        have hplain : ∀ i ∈ elementStores a 0 (s.emitAlloca e a.ty size).nextReg (v :: vs), i.isReturn = false :=
          fun i hi => isReturn_of_plain (elementStores_plain i hi).1
        exact (h'.plain hplain (by simp [elementStores])).congr rfl rfl

theorem Def.gen_returning {d : Def} (hf : InFunc func s) (hs : Prologue func entry s)
    (h : Returning type func entry fit last s) (hg : d.gen s = .ok () t) :
    Returning type func entry fit (d.returned last) t := by
  obtain ⟨size, vs, w, hi, hdef⟩ := codeGenDef_ok.mp hg
  obtain ⟨is, e⟩ := hi.emits
  obtain ⟨last', hw⟩ := h.emits_some e
  have hstore := defineValue_returning (hf.emits e) (hs.emits e) hw hdef
  unfold Def.returned
  cases hd : d.exp with
  | none =>
    rw [hd] at hi
    obtain ⟨rfl, -⟩ := hi
    rwa [if_neg (by simp)] at hstore
  | some ex =>
    rw [hd] at hi
    obtain ⟨sz, rfl⟩ : ∃ sz, size = some sz := by
      obtain ⟨sz, _, rfl, -, -⟩ := hi
      exact ⟨sz, rfl⟩
    obtain ⟨n, -, hlen, hvals⟩ := genInit_const_size hf hi
    by_cases h₀ : arrayElements ex.core = 0
    · rw [h₀] at hvals
      obtain ⟨rfl, rfl⟩ := initVals_zero_ok.mp hvals
      have := defineValue_returning hf hs h hdef
      simpa [h₀] using this
    · have hne : vs ≠ [] := by
        rintro rfl
        exact h₀ hlen.symm
      rw [if_neg (by simp [hne])] at hstore
      simpa [h₀] using hstore

theorem defs_returning : ∀ {ds : List Def} {last : Bool} {s t : State}, InFunc func s → Prologue func entry s →
    Returning type func entry fit last s → ds.forM Def.gen s = .ok ⟨⟩ t →
    Returning type func entry fit (ds.foldl (fun last d => d.returned last) last) t
  | [], last, s, t, _, _, h, hg => by
    obtain rfl := forM_nil_ok.mp hg
    exact h
  | d :: ds, last, s, t, hf, hs, h, hg => by
    obtain ⟨w, hd, hg⟩ := forM_cons_ok.mp hg
    obtain ⟨r, hdef⟩ := Def.gen_run entry hf hd
    rw [List.foldl_cons]
    exact defs_returning (hf.run r hdef.layers) (r.prologue (Nat.le_refl _) hs) (Def.gen_returning hf hs h hd) hg

/-! ### Statements -/

omit [ConstantFolder] in
theorem returnMatches_iff {o : Option ExprNode} {v : Option Value} {k : Kinds}
    (h : o.isSome = v.isSome) (hv : ∀ e x, o = some e → v = some x → e.core.kind k = some (kindOf x.ty)) :
    ReturnMatches type (.ret v) ↔ returnFits type k o = true := by
  cases o with
  | none =>
    cases v with
    | none => simp [ReturnMatches, returnFits]
    | some x => cases h
  | some e =>
    cases v with
    | none => cases h
    | some x => simp [ReturnMatches, returnFits, hv e x rfl rfl, kindOf_eq_int]

section If
variable {e : ExprNode} {thenStmt : StmtNode} {elseStmt : Option StmtNode} {v c : Value} {s₁ s₂ s₃ s₄ : State}
  {q r : InsertPoint} {fit₁ fit₂ : Bool}

theorem IfRun.returning (h : IfRun func e thenStmt elseStmt s v s₁ c s₂ s₃ q s₄ r t) (hs : Prologue func entry s)
    (h₀ : Returning type func entry fit last s)
    (iha : Returning type func entry fit false (s₂.thenStart func c) → ∃ l, Returning type func entry fit₁ l s₃)
    (ihb : Returning type func entry fit₁ false
    ((s₃.brUnlessBranch q (s₂.nextLabel + 2)).enter func (s₂.nextLabel + 1)) →
      ∃ l, Returning type func entry fit₂ l s₄) : Returning type func entry fit₂ false t := by
  obtain ⟨is, em⟩ := h.emits
  have hlt := hs.entry_lt
  have hn := h.nextLabel
  obtain ⟨l₀, h₂⟩ := h₀.emits_some em
  have hblocks : Returning type func entry fit l₀ s₂.newBlocks := h₂.congr rfl rfl
  have hbranch : Returning type func entry fit false
      (s₂.newBlocks.append [.condBr c s₂.nextLabel (s₂.nextLabel + 1)]) :=
    hblocks.plain (by simp [Inst.isReturn]) (List.cons_ne_nil _ _)
  have hthen : Returning type func entry fit false (s₂.thenStart func c) :=
    hbranch.enter (by omega) (h.start_blocks hs (by omega))
  obtain ⟨l₁, h₃⟩ := iha hthen
  obtain ⟨l₂, h₃'⟩ := h₃.brUnlessBranch q (s₂.nextLabel + 2)
  obtain ⟨l₃, h₄⟩ := ihb (h₃'.enter (by omega) (h.else_start_blocks hs (by omega) (by omega)))
  obtain ⟨l₄, h₄'⟩ := h₄.brUnlessBranch r (s₂.nextLabel + 2)
  have hmerge := h.merge_blocks hs
  rw [h.result, ← hn] at hmerge
  rw [h.result]
  exact h₄'.enter (by omega) hmerge

end If

section While
variable {e : ExprNode} {body : StmtNode} {v c : Value} {s₁ s₂ s₃ : State} {q : InsertPoint} {fit₁ : Bool}

theorem WhileRun.returning (h : WhileRun func e body s v s₁ c s₂ s₃ q t) (hs : Prologue func entry s)
    (h₀ : Returning type func entry fit last s)
    (ih : Returning type func entry fit false (s₂.bodyStart func c s.nextLabel) →
    ∃ l, Returning type func entry fit₁ l s₃) :
    Returning type func entry fit₁ false t := by
  obtain ⟨is, em⟩ := h.emits
  have hlt := hs.entry_lt
  have hjump : Returning type func entry fit false ((s.newBlocks.pushLoop (s.nextLabel, s.nextLabel + 2)).append
      [.br s.nextLabel]) := by
    have hp : Returning type func entry fit last (s.newBlocks.pushLoop (s.nextLabel, s.nextLabel + 2)) :=
      h₀.congr rfl rfl
    exact hp.plain (by simp [Inst.isReturn]) (List.cons_ne_nil _ _)
  have hloop : Returning type func entry fit false (s.loopStart func) :=
    hjump.enter (by omega) (loopStart_blocks hs (Nat.le_refl _))
  obtain ⟨l₁, h₂⟩ := hloop.emits_some em
  have hbranch : Returning type func entry fit false (s₂.append [.condBr c (s.nextLabel + 1) (s.nextLabel + 2)]) :=
    h₂.plain (by simp [Inst.isReturn]) (List.cons_ne_nil _ _)
  obtain ⟨l₂, h₃⟩ := ih (hbranch.enter (by omega) (h.body_start_blocks hs (by omega)))
  obtain ⟨l₃, h₃'⟩ := h₃.brUnlessBranch q s.nextLabel
  have hafter := h.after_blocks hs
  rw [h.result] at hafter
  rw [h.result]
  exact (h₃'.enter (by omega) hafter).congr rfl rfl

end While

omit [ConstantFolder] in
theorem StmtNode.returnsFit_if (e : ExprNode) (a : StmtNode) (b : Option StmtNode) (k : Kinds) :
    (StmtNode.ifStmt e a b).returnsFit type k = (a.returnsFit type k && (elseBranch b).returnsFit type k) := by
  cases b with
  | none => simp [StmtNode.returnsFit, elseBranch]
  | some b => rw [StmtNode.returnsFit, elseBranch, Option.getD_some]

mutual

/-- The return instructions fit behind a statement if they did before it and its return statements fit. -/
theorem codeGenStmt_returning : ∀ (st : StmtNode) {fit last : Bool} {s t : State}, InFunc func s →
    Prologue func entry s → Returning type func entry fit last s → codeGenStmt st s = .ok () t →
    Returning type func entry (fit && st.returnsFit type s.kinds) (st.returned last) t
  | .block items, fit, last, s, t, hf, hs, h, hg => by
    obtain ⟨w, hw, rfl⟩ := codeGenStmt_block_ok.mp hg
    have hs' : Prologue func entry (s.pushLayer.log .push) :=
      (GenStep.pushLayer.prologue (Nat.le_refl _) hs).emits (Emits.log _)
    have hf' : InFunc func (s.pushLayer.log .push) := ⟨hf.point, List.cons_ne_nil _ _⟩
    have h' : Returning type func entry fit last (s.pushLayer.log .push) := h.congr rfl rfl
    rw [StmtNode.returnsFit, StmtNode.returned]
    exact (codeGenBlockItems_returning items hf' hs' h' hw).congr rfl rfl
  | .ifStmt e a b, fit, last, s, t, hf, hs, h, hg => by
    obtain ⟨v, s₁, c, s₂, s₃, q, s₄, r, hr⟩ := codeGenStmt_if_run
      (fun _ _ _ hf hb h => codeGenStmt_run a hf hb h)
      (fun _ _ _ hf hb h => codeGenStmt_elseBranch_run b hf hb h) hf hg
    obtain ⟨ka, kb⟩ := hr.kinds
    have hlt := hs.entry_lt
    have hthen := hr.start.prologue (Nat.le_of_lt hlt) hs
    -- A branch starts in an empty block, so nothing returned in it yet.
    have iha : Returning type func entry fit false (s₂.thenStart func c) →
        ∃ l, Returning type func entry (fit && a.returnsFit type s.kinds) l s₃ := by
      intro h'
      have := codeGenStmt_returning a hr.thenIn hthen h' hr.thenGen
      rw [ka] at this
      exact ⟨_, this⟩
    have ihb : ∀ ok, Returning type func entry ok false
        ((s₃.brUnlessBranch q (s₂.nextLabel + 2)).enter func (s₂.nextLabel + 1)) →
        ∃ l, Returning type func entry (ok && (elseBranch b).returnsFit type s.kinds) l s₄ := by
      intro ok h'
      have := codeGenStmt_elseBranch_returning b hr.elseIn (hr.else_prologue hs) h' hr.elseGen
      rw [kb] at this
      exact ⟨_, this⟩
    rw [StmtNode.returnsFit_if, StmtNode.returned, ← Bool.and_assoc]
    exact hr.returning hs h iha (ihb _)
  | .whileStmt e body, fit, last, s, t, hf, hs, h, hg => by
    obtain ⟨v, s₁, c, s₂, s₃, q, hr⟩ :=
      codeGenStmt_while_run (fun _ _ _ hf hb h => codeGenStmt_run body hf hb h) hf hg
    rw [StmtNode.returnsFit, StmtNode.returned]
    refine hr.returning hs h fun h' => ?_
    have := codeGenStmt_returning body hr.bodyIn (hr.body_prologue hs) h' hr.bodyGen
    rw [hr.kinds] at this
    exact ⟨_, this⟩
  | .continueStmt, fit, last, s, t, _, _, h, hg => by
    obtain ⟨loop, outer, -, rfl⟩ := codeGenStmt_continue_ok.mp hg
    rw [StmtNode.returnsFit, StmtNode.returned, Bool.and_true]
    exact h.plain (by simp [Inst.isReturn]) (List.cons_ne_nil _ _)
  | .breakStmt, fit, last, s, t, _, _, h, hg => by
    obtain ⟨loop, outer, -, rfl⟩ := codeGenStmt_break_ok.mp hg
    rw [StmtNode.returnsFit, StmtNode.returned, Bool.and_true]
    exact h.plain (by simp [Inst.isReturn]) (List.cons_ne_nil _ _)
  | .ret none, fit, last, s, t, _, _, h, hg => by
    obtain rfl := codeGenStmt_retVoid_ok.mp hg
    rw [StmtNode.returnsFit, StmtNode.returned]
    exact h.ret (returnMatches_iff rfl (by simp))
  | .ret (some e), fit, last, s, t, hf, _, h, hg => by
    obtain ⟨v, w, hv, rfl⟩ := codeGenStmt_ret_ok.mp hg
    have hk := codeGenExp_kind hv hf.layers
    rw [StmtNode.returnsFit, StmtNode.returned]
    refine (h.folds (codeGenExp_folds hf.layers hv)).ret (returnMatches_iff rfl fun e' x he hx => ?_)
    -- The returned value is the one of the expression, and so is its kind.
    cases he
    cases hx
    exact hk
  | .expr none, fit, last, s, t, _, _, h, hg => by
    obtain rfl := codeGenStmt_empty_ok.mp hg
    rw [StmtNode.returnsFit, StmtNode.returned, Bool.and_true]
    exact h
  | .expr (some e), fit, last, s, t, hf, _, h, hg => by
    obtain ⟨v, hv⟩ := codeGenStmt_expr_ok.mp hg
    rw [StmtNode.returnsFit, StmtNode.returned, Bool.and_true]
    exact h.folds (codeGenExp_folds hf.layers hv)
  | .assign x sub e, fit, last, s, t, hf, _, h, hg => by
    obtain ⟨v, w, idx, u, hv, hu, hx⟩ := codeGenStmt_assign_ok.mp hg
    obtain ⟨is, e₁⟩ := codeGenExp_emits hv
    obtain ⟨js, e₂⟩ := codeGenSubIdx_emits hu
    obtain ⟨ks, hne, e₃⟩ := setValue_emits_ne ((hf.emits e₁).emits e₂).layers hx
    rw [StmtNode.returnsFit, StmtNode.returned, Bool.and_true]
    exact h.emits ((e₁.trans e₂).trans e₃) (by simp [hne])

theorem codeGenStmt_elseBranch_returning : ∀ (st : Option StmtNode) {fit last : Bool} {s t : State}, InFunc func s →
    Prologue func entry s → Returning type func entry fit last s → codeGenStmt (elseBranch st) s = .ok () t →
    Returning type func entry (fit && (elseBranch st).returnsFit type s.kinds) ((elseBranch st).returned last) t
  | none, fit, last, s, t, _, _, h, hg => by
    obtain rfl := codeGenStmt_empty_ok.mp hg
    rw [elseBranch, Option.getD_none, StmtNode.returnsFit, StmtNode.returned, Bool.and_true]
    exact h
  | some st, fit, last, s, t, hf, hs, h, hg => codeGenStmt_returning st hf hs h hg

theorem codeGenBlockItem_returning : ∀ (item : BlockItemNode) {fit last : Bool} {s t : State}, InFunc func s →
    Prologue func entry s → Returning type func entry fit last s → codeGenBlockItem item s = .ok () t →
    Returning type func entry (fit && item.returnsFit type s.kinds) (item.returned last) t
  | .decl d, fit, last, s, t, hf, hs, h, hg => by
    rw [codeGenBlockItem_decl, codeGenDecl_defs] at hg
    rw [BlockItemNode.returnsFit, BlockItemNode.returned, Bool.and_true]
    exact defs_returning hf hs h hg
  | .stmt st, fit, last, s, t, hf, hs, h, hg => by
    rw [BlockItemNode.returnsFit, BlockItemNode.returned]
    exact codeGenStmt_returning st hf hs h (codeGenBlockItem_stmt ▸ hg)

theorem codeGenBlockItems_returning : ∀ (items : List BlockItemNode) {fit last : Bool} {s t : State}, InFunc func s →
    Prologue func entry s → Returning type func entry fit last s → codeGenBlockItems items s = .ok () t →
    Returning type func entry (fit && itemsReturnsFit type items s.kinds) (itemsReturned items last) t
  | [], fit, last, s, t, _, _, h, hg => by
    obtain rfl := codeGenBlockItems_nil_ok.mp hg
    rw [itemsReturnsFit, itemsReturned, Bool.and_true]
    exact h
  | item :: items, fit, last, s, t, hf, hs, h, hg => by
    obtain ⟨w, hw, hg⟩ := codeGenBlockItems_cons_ok.mp hg
    obtain ⟨r, d⟩ := codeGenBlockItem_run item hf (Nat.le_of_lt hs.entry_lt) hw
    have hitem := codeGenBlockItem_returning item hf hs h hw
    have hitems := codeGenBlockItems_returning items (hf.run r d.layers) (r.prologue (Nat.le_refl _) hs) hitem hg
    rw [codeGenBlockItem_kinds item hf hw, Bool.and_assoc] at hitems
    rw [itemsReturnsFit, itemsReturned]
    exact hitems

end

end Returning

/-! ### Functions -/

section Functions
variable {func base entry : Nat} {s t : State} {node : FuncNode}

/-- The blocks of function number `func`. -/
def State.layout (s : State) (func : Nat) : List Label := ((s.functions[func]?).map FunctionObj.layout).getD []

/-- The blocks from `entry` on that have instructions are inserted into function number `func`. -/
structure Placed (func entry : Nat) (s : State) : Prop where
  point : ∀ p, s.insertPoint = some p → p.block ∈ s.layout func
  filled : ∀ l : Nat, entry ≤ l → s.blocks l ≠ [] → l ∈ s.layout func

theorem Placed.append {is : List Inst} (h : Placed func entry s) (hf : t.functions = s.functions)
    (hb : t.blocks = (s.append is).blocks) (hp : t.insertPoint = s.insertPoint) : Placed func entry t := by
  have hl : t.layout func = s.layout func := by rw [State.layout, hf, State.layout]
  refine ⟨fun p hp' => hl ▸ h.point p (hp ▸ hp'), fun l hle hne => ?_⟩
  rw [hl]
  rw [hb] at hne
  obtain ⟨i, hi⟩ := List.exists_mem_of_ne_nil _ hne
  cases hsp : s.insertPoint with
  | none =>
    rw [State.append_of_none s hsp] at hi
    exact h.filled l hle (List.ne_nil_of_mem hi)
  | some p =>
    by_cases hlp : l = p.block
    · exact hlp ▸ h.point p hsp
    · rw [append_blocks_of_ne hsp hlp] at hi
      exact h.filled l hle (List.ne_nil_of_mem hi)

theorem Placed.congr (h : Placed func entry s) (hf : t.functions = s.functions) (hb : t.blocks = s.blocks)
    (hp : t.insertPoint = s.insertPoint) : Placed func entry t :=
  h.append hf (hb.trans (append_nil s).symm) hp

theorem Placed.emits {is : List Inst} (h : Placed func entry s) (e : Emits s is t) : Placed func entry t :=
  h.append e.functions e.blocks e.insertPoint

theorem entry_mem_layout (h : s.entry? func = some entry) : entry ∈ s.layout func := by
  unfold State.entry? at h
  unfold State.layout
  cases hf : s.functions[func]? with
  | none => simp [hf] at h
  | some f =>
    rw [hf] at h
    exact List.mem_of_head? h

theorem Placed.emitAlloca (h : Placed func entry s) {e : Label} (he : s.entry? func = some e) (ty : Ty)
    (count : Option Value) : Placed func entry (s.emitAlloca e ty count) := by
  refine ⟨h.point, fun l hle hne => ?_⟩
  by_cases hl : l = e
  · rw [hl]
    exact entry_mem_layout he
  · have hother : (s.emitAlloca e ty count).blocks l = s.blocks l := Function.update_of_ne hl ..
    exact h.filled l hle (hother ▸ hne)

theorem GenStep.placed (h : GenStep func base s t) (hf : func < s.functions.length) (hs : Placed func entry s) :
    Placed func entry t := by
  cases h with
  | emits e => exact hs.emits e
  | terminator => exact hs.append (State.append_functions _ _) rfl (State.append_insertPoint _ _)
  | @enter l _ _ =>
    have hl : (s.enter func l).layout func = s.layout func ++ [l] := by
      show ((s.functions.modify func _)[func]?.map FunctionObj.layout).getD [] = _
      rw [List.getElem?_modify, List.getElem?_eq_getElem hf, State.layout, List.getElem?_eq_getElem hf]
      simp
    refine ⟨fun p hp => ?_, fun l' hle hne => ?_⟩
    · cases hp
      rw [hl]
      exact List.mem_append_right _ List.mem_cons_self
    · rw [hl]
      exact List.mem_append_left _ (hs.filled l' hle hne)
  | define hn hx he ha hsh hw => exact ((hs.emitAlloca he _ _).emits hw).congr rfl rfl rfl
  | _ => exact hs.congr rfl rfl rfl

theorem GenRun.placed (h : GenRun func base s t) (hf : func < s.functions.length) (hs : Placed func entry s) :
    Placed func entry t ∧ func < t.functions.length := by
  induction h with
  | refl => exact ⟨hs, hf⟩
  | tail _ h ih =>
    obtain ⟨hp, hlt⟩ := ih
    have hname : ∀ (f : FunctionObj) ls, FunctionObj.name { f with layout := ls } = f.name := fun _ _ => rfl
    have hlen := congrArg List.length (h.map_functions hname)
    rw [List.length_map, List.length_map] at hlen
    exact ⟨h.placed hlt hp, hlen ▸ hlt⟩

theorem start_placed (hs : Idle s) : Placed s.functions.length s.nextLabel (node.start s) := by
  have hl : (node.start s).layout s.functions.length = [s.nextLabel] := by
    rw [State.layout, start_functions]
    simp
  refine ⟨fun p hp => ?_, fun l hle hne => ?_⟩
  · cases hp
    rw [hl]
    exact List.mem_cons_self
  · exact absurd (hs.fresh l hle) hne

variable [ConstantFolder]

omit [ConstantFolder] in
/-- The epilogue: a return without a value, unless the last instruction is a return. -/
theorem Returning.epilogue {type : FuncType} {fit last : Bool} {p : InsertPoint}
    (h : Returning type func entry fit last s) (hp : s.insertPoint = some p) :
    (∀ l : Nat, entry ≤ l → ∀ i ∈ (s.retUnlessReturn p).blocks l, ReturnMatches type i) ↔
      (fit && (type == .void || last)) = true := by
  obtain ⟨q, hq, -, hlast⟩ := h.last
  obtain rfl := Option.some.inj (hp.symm.trans hq)
  have hvoid : ReturnMatches type (.ret none) ↔ (type == .void) = true := by simp [ReturnMatches]
  unfold State.retUnlessReturn
  cases hi : (s.blocks q).getLast? with
  | none =>
    rw [hi] at hlast
    obtain rfl : false = last := hlast
    have h' : Returning type func entry fit false { s with emptyBack := true } := h.congr rfl rfl
    rw [Bool.or_false]
    exact (h'.ret hvoid).fit
  | some i =>
    rw [hi] at hlast
    obtain rfl : i.isReturn = last := hlast
    cases hr : i.isReturn with
    | true =>
      rw [Bool.or_true, Bool.and_true]
      simp only [hr, ↓reduceIte]
      exact h.fit
    | false =>
      rw [Bool.or_false]
      simp only [hr, Bool.false_eq_true, ↓reduceIte]
      exact (h.ret hvoid).fit

/-- The instructions of a generated function are all those from its entry block on. -/
theorem codeGenFunc_allFrom {P : Inst → Prop} (hs : Idle s) (h : codeGenFunc node s = .ok () t) :
    ∃ o, t.functions = s.functions ++ [o] ∧ o.name = (node.object s).name ∧ o.params = (node.object s).params ∧
      o.retTy = (node.object s).retTy ∧
      ((∀ l ∈ o.layout, ∀ i ∈ t.blocks l, P i) ↔ AllFrom P s.nextLabel t) := by
  obtain ⟨s₁, s₂, p, hr⟩ := codeGenFunc_run h
  have hlt : s.functions.length < (node.start s).functions.length := by
    rw [start_functions]
    simp
  obtain ⟨hplaced, -⟩ := hr.run.placed hlt (start_placed hs)
  obtain ⟨ls, hl, hfs⟩ := hr.functions hs
  have hlayout : t.layout s.functions.length = s.nextLabel :: ls := by
    rw [State.layout, hfs]
    simp
  refine ⟨_, hfs, rfl, rfl, rfl, fun hall l hle i hi => ?_, fun hall l hm i hi => hall l ?_ i hi⟩
  · have hm := hplaced.filled l hle (List.ne_nil_of_mem hi)
    rw [hlayout] at hm
    exact hall l hm i hi
  · rcases List.mem_cons.mp hm with rfl | hm
    · exact Nat.le_refl _
    · exact Nat.le_of_lt (hl l hm).1

end Functions

end

section
attribute [local instance] ConstantFolder.symbolic

end

end L24
