import L24.Ir.Frame
import L24.Theorems.Jumps
import L24.Theorems.Registers

/-! Operands: every instruction reads constants, arguments, allocas of its function, and results of instructions before
    it in its own block; and the allocas are the first instructions of the entry block, which is never branched to. -/

namespace L24
open Ir Relation

/-! ### Blocks -/

/-- The registers that a block writes. -/
def State.regs (s : State) (l : Label) : List Reg := (s.blocks l).filterMap Inst.reg?

/-- The slots of the allocas in a block. -/
def State.slots (s : State) (l : Label) : List Slot := (s.blocks l).filterMap Inst.slot?

/-- Every register is the result of one instruction. -/
structure SingleAssignment (s : State) : Prop where
  lt : ∀ l, ∀ r ∈ s.regs l, r < s.nextReg
  once : ∀ l, (s.regs l).Nodup
  apart : ∀ l l' r, r ∈ s.regs l → r ∈ s.regs l' → l = l'

/-! ### The state of a function's generation -/

/-- Function number `func`, with `params` parameters and the entry block `entry`, is under way, and what has been
    generated reads what is available. -/
structure Dominated (func entry params : Nat) (s : State) : Prop where
  prologue : Prologue func entry s
  closed : ∀ l : Nat, entry ≤ l → BlockClosed params (s.slots entry) (s.blocks l)
  single : SingleAssignment s

/-- The operand is available to an instruction that is inserted next. -/
def Usable (entry params : Nat) (s : State) (v : Value) : Prop :=
  ∃ p, s.insertPoint = some p ∧ Available params (s.slots entry) (s.blocks p.block) v

/-- Generation has gone on to `t`: what was usable still is. -/
structure Carried (func entry params : Nat) (s t : State) : Prop where
  dominated : Dominated func entry params t
  keeps : ∀ v, Usable entry params s v → Usable entry params t v

section States
variable {func entry params : Nat} {s t u : State} {v : Value} {i : Inst}

theorem Carried.refl (h : Dominated func entry params s) : Carried func entry params s s := ⟨h, fun _ hv => hv⟩

theorem Carried.trans (h₁ : Carried func entry params s t) (h₂ : Carried func entry params t u) :
    Carried func entry params s u := ⟨h₂.dominated, fun v hv => h₂.keeps v (h₁.keeps v hv)⟩

theorem Dominated.usable_const (h : Dominated func entry params s) (c : Const) : Usable entry params s (.const c) := by
  obtain ⟨l, hl, -⟩ := h.prologue.point
  exact ⟨_, hl, trivial⟩

theorem Dominated.usable_arg (h : Dominated func entry params s) {i : Nat} (hi : i < params) (ty : Ty) :
    Usable entry params s (.arg i ty) := by
  obtain ⟨l, hl, -⟩ := h.prologue.point
  exact ⟨_, hl, hi⟩

/-- The alloca of a name in scope. -/
theorem Dominated.usable_lookup (h : Dominated func entry params s) {x : String} {nv : NamedValue}
    (hx : s.lookup x = some nv) : Usable entry params s nv.alloca.value := by
  obtain ⟨l, hl, -⟩ := h.prologue.point
  obtain ⟨layer, hlayer, hlk⟩ := List.exists_of_findSome?_eq_some hx
  obtain ⟨l₁, l₂, rfl, -⟩ := List.lookup_eq_some_iff.mp hlk
  obtain ⟨count, hm⟩ := h.prologue.named _ hlayer (x, nv) (List.mem_append_right _ List.mem_cons_self)
  exact ⟨_, hl, List.mem_filterMap.mpr ⟨_, hm, rfl⟩⟩

/-- A change that leaves the code alone. -/
theorem Dominated.of_blocks (h : Dominated func entry params s) (hp : Prologue func entry t)
    (hbl : t.blocks = s.blocks) (hr : t.nextReg = s.nextReg) : Dominated func entry params t where
  prologue := hp
  closed l hl := by
    rw [State.slots, hbl]
    exact h.closed l hl
  single := by
    obtain ⟨h₁, h₂, h₃⟩ := h.single
    simp only [State.regs] at h₁ h₂ h₃
    refine ⟨?_, ?_, ?_⟩ <;> simp only [State.regs, hbl, hr]
    · exact h₁
    · exact h₂
    · exact h₃

theorem Dominated.step {base : Nat} (h : Dominated func entry params s) (hb : entry ≤ base) (g : GenStep func base s t)
    (hbl : t.blocks = s.blocks) (hr : t.nextReg = s.nextReg) : Dominated func entry params t :=
  h.of_blocks (g.prologue hb h.prologue) hbl hr

/-- An instruction at the insertion point that reads what is usable there. Its register is new. -/
theorem Dominated.put (h : Dominated func entry params s) (ht : Prologue func entry t)
    (hb : t.blocks = (s.append [i]).blocks) (hpt : t.insertPoint = s.insertPoint) (hn : s.nextReg ≤ t.nextReg)
    (ha : i.isAlloca = false) (ho : ∀ v ∈ i.operands, Usable entry params s v)
    (hr : ∀ r, i.reg? = some r → s.nextReg ≤ r ∧ r < t.nextReg) : Carried func entry params s t := by
  obtain ⟨p, hp, hle, -⟩ := h.prologue.point
  have hself : t.blocks p = s.blocks p ++ [i] := by rw [hb, State.append_blocks s hp, Function.update_self]
  have hother : ∀ l : Nat, l ≠ p → t.blocks l = s.blocks l := by
    intro l hl
    rw [hb, append_blocks_of_ne hp hl]
  have hnil : [i].filterMap Inst.slot? = [] := filterMap_slot?_of_not_isAlloca (by simpa using ha)
  have hslots : t.slots entry = s.slots entry := by
    rw [State.slots, State.slots]
    by_cases he : entry = p
    · rw [he, hself, List.filterMap_append, hnil, List.append_nil]
    · rw [hother _ he]
  have hregs : t.regs p = s.regs p ++ i.reg?.toList := by
    rw [State.regs, State.regs, hself, List.filterMap_append]
    cases hi : i.reg? <;> simp [hi]
  have hregs' : ∀ l : Nat, l ≠ p → t.regs l = s.regs l := by
    intro l hl
    rw [State.regs, State.regs, hother l hl]
  have hmem : ∀ l r, r ∈ t.regs l → r ∈ s.regs l ∨ (l = p ∧ i.reg? = some r) := by
    intro l r hm
    by_cases hl : l = p
    · rw [hl, hregs, List.mem_append, Option.mem_toList] at hm
      exact hm.imp (fun hm => hl ▸ hm) fun hm => ⟨hl, hm⟩
    · exact Or.inl (hregs' l hl ▸ hm)
  have hnew : ∀ l r, i.reg? = some r → r ∉ s.regs l := by
    intro l r hi hm
    exact absurd (h.single.lt l r hm) (Nat.not_lt_of_le (hr r hi).1)
  have hav : ∀ v, Usable entry params s v → Available params (s.slots entry) (s.blocks p) v := by
    rintro v ⟨q, hq, hv⟩
    rw [hp] at hq
    cases hq
    exact hv
  -- Only the insertion block has a new instruction; what it reads stands in front of it there, or is an alloca.
  refine ⟨⟨ht, fun l hl => ?_, ?_, ?_, ?_⟩, fun v hv => ?_⟩
  · rw [hslots]
    by_cases he : l = p
    · rw [he, hself]
      exact (h.closed p hle).snoc fun v hv => hav v (ho v hv)
    · rw [hother l he]
      exact h.closed l hl
  · intro l r hm
    rcases hmem l r hm with hm | ⟨-, hi⟩
    · exact Nat.lt_of_lt_of_le (h.single.lt l r hm) hn
    · exact (hr r hi).2
  · intro l
    by_cases hl : l = p
    · rw [hl, hregs]
      refine List.nodup_append.mpr ⟨h.single.once p, ?_, ?_⟩
      · cases i.reg? <;> simp
      · intro a ha b hb he
        exact hnew p b (Option.mem_toList.mp hb) (he ▸ ha)
    · rw [hregs' l hl]
      exact h.single.once l
  · intro l l' r hm hm'
    -- A register that is new is in no other block.
    rcases hmem l r hm with hm | ⟨rfl, hi⟩ <;> rcases hmem l' r hm' with hm' | ⟨rfl, hi'⟩
    · exact h.single.apart l l' r hm hm'
    · exact absurd hm (hnew l r hi')
    · exact absurd hm' (hnew l' r hi)
    · rfl
  · refine ⟨⟨func, p⟩, hpt.trans hp, ?_⟩
    rw [hslots]
    refine (hav v hv).mono (fun _ hk => hk) fun j hj => ?_
    rw [hself]
    exact List.mem_append_left _ hj

/-- A store or a terminator. -/
theorem Dominated.insert (h : Dominated func entry params s) (ha : i.isAlloca = false) (hr : i.reg? = none)
    (ho : ∀ v ∈ i.operands, Usable entry params s v) : Carried func entry params s (s.append [i]) := by
  refine h.put (h.prologue.append (by simpa using ha)) rfl (State.append_insertPoint _ _)
    (Nat.le_of_eq (State.append_nextReg _ _).symm) ha ho fun r hi => ?_
  rw [hr] at hi
  cases hi

/-- Something has been generated whose value is usable behind it. -/
structure Given (func entry params : Nat) (s : State) (v : Value) (t : State) : Prop where
  carried : Carried func entry params s t
  usable : Usable entry params t v

theorem Given.refl (h : Dominated func entry params s) (hv : Usable entry params s v) : Given func entry params s v s :=
  ⟨.refl h, hv⟩

theorem Given.after (h : Given func entry params t v u) (c : Carried func entry params s t) :
    Given func entry params s v u := ⟨c.trans h.carried, h.usable⟩

theorem Dominated.emit {ty : Ty} (h : Dominated func entry params s) (mk : Reg → Inst) (hp : Plain (mk s.nextReg))
    (hr : (mk s.nextReg).reg? = some s.nextReg) (ho : ∀ v ∈ (mk s.nextReg).operands, Usable entry params s v) :
    Given func entry params s (.inst s.nextReg ty) (s.emit mk) := by
  have e : Emits s [mk s.nextReg] (s.emit mk) := .emit hp
  refine ⟨h.put (h.prologue.emits e) e.blocks e.insertPoint e.nextReg hp.2 ho fun r hi => ?_, ?_⟩
  · obtain rfl := Option.some.inj (hr.symm.trans hi)
    exact ⟨Nat.le_refl _, Nat.lt_succ_self _⟩
  · obtain ⟨p, hpt, -⟩ := h.prologue.point
    refine ⟨_, e.insertPoint.trans hpt, mk s.nextReg, ?_, hr⟩
    rw [e.blocks, State.append_blocks s hpt, Function.update_self]
    exact List.mem_append_right _ List.mem_cons_self

theorem Dominated.load (h : Dominated func entry params s) (ty : Ty) (hv : Usable entry params s v) :
    Given func entry params s (.inst s.nextReg ty) (s.emit (.load · ty v)) :=
  Dominated.emit h _ ⟨rfl, rfl⟩ rfl (by simpa [Inst.operands] using hv)

/-- An alloca at the begin of the entry block. -/
theorem Dominated.emitAlloca (h : Dominated func entry params s) {ty : Ty} {count : Option Value}
    (hc : AllocaShape ty count) : Carried func entry params s (s.emitAlloca entry ty count) ∧
      Usable entry params (s.emitAlloca entry ty count) (.alloca s.nextSlot ty) := by
  obtain ⟨p, hp, -⟩ := h.prologue.point
  have hself : (s.emitAlloca entry ty count).blocks entry = .alloca s.nextSlot ty count :: s.blocks entry :=
    Function.update_self ..
  have hother : ∀ l : Nat, l ≠ entry → (s.emitAlloca entry ty count).blocks l = s.blocks l := fun l hl =>
    Function.update_of_ne hl ..
  have hslots : (s.emitAlloca entry ty count).slots entry = s.nextSlot :: s.slots entry := by
    rw [State.slots, hself]
    rfl
  have hregs : ∀ l, (s.emitAlloca entry ty count).regs l = s.regs l := by
    intro l
    by_cases hl : l = entry
    · rw [State.regs, hl, hself]
      rfl
    · rw [State.regs, hother l hl, State.regs]
  have hsub : ∀ k ∈ s.slots entry, k ∈ (s.emitAlloca entry ty count).slots entry := by
    intro k hk
    rw [hslots]
    exact List.mem_cons_of_mem _ hk
  -- The size of an array is a constant, so the alloca may stand first.
  have hops : ∀ v ∈ (Inst.alloca s.nextSlot ty count).operands, ∃ c, v = .const c := by
    intro v hv
    obtain ⟨elt, -, ⟨rfl, -⟩ | ⟨sz, n, rfl, hn, -⟩⟩ := hc
    · cases hv
    · obtain rfl : v = sz := by simpa [Inst.operands] using hv
      exact sextValue?_const hn
  refine ⟨⟨⟨h.prologue.emitAlloca hc, fun l hl => ?_, ?_, ?_, ?_⟩, fun v hv => ?_⟩, ⟨_, hp, ?_⟩⟩
  · by_cases he : l = entry
    · rw [he, hself]
      exact ((h.closed entry (Nat.le_refl _)).mono hsub).cons hops
    · rw [hother l he]
      exact (h.closed l hl).mono hsub
  · intro l r hm
    exact h.single.lt l r (hregs l ▸ hm)
  · intro l
    rw [hregs]
    exact h.single.once l
  · intro l l' r hm hm'
    exact h.single.apart l l' r (hregs l ▸ hm) (hregs l' ▸ hm')
  · obtain ⟨q, hq, hv⟩ := hv
    refine ⟨q, hq, hv.mono hsub fun i hi => ?_⟩
    by_cases hl : q.block = entry
    · rw [hl, hself]
      exact List.mem_cons_of_mem _ (hl ▸ hi)
    · rw [hother _ hl]
      exact hi
  · rw [hslots]
    exact List.mem_cons_self

end States

/-! ### Expressions -/

section Exps
variable {func entry params : Nat} {s t u : State} {v a b c x y : Value}

variable [ConstantFolder]

theorem createBinOp_given {op : BinOp} (h : createBinOp op a b s = .ok v t) (hs : Dominated func entry params s)
    (ha : Usable entry params s a) (hb : Usable entry params s b) : Given func entry params s v t := by
  rcases createBinOp_ok.mp h with ⟨_, _, -, -, rfl, rfl⟩ | ⟨-, rfl, rfl⟩
  · exact .refl hs (hs.usable_const _)
  · exact hs.emit _ ⟨rfl, rfl⟩ rfl (by simpa [Inst.operands] using ⟨ha, hb⟩)

theorem createICmp_given {p : Pred} (h : createICmp p a b s = .ok v t) (hs : Dominated func entry params s)
    (ha : Usable entry params s a) (hb : Usable entry params s b) : Given func entry params s v t := by
  rcases createICmp_ok.mp h with ⟨_, _, -, -, rfl, rfl⟩ | ⟨-, rfl, rfl⟩
  · exact .refl hs (hs.usable_const _)
  · exact hs.emit _ ⟨rfl, rfl⟩ rfl (by simpa [Inst.operands] using ⟨ha, hb⟩)

theorem createSelect_given (h : createSelect c a b s = .ok v t) (hs : Dominated func entry params s)
    (hc : Usable entry params s c) (ha : Usable entry params s a) (hb : Usable entry params s b) :
    Given func entry params s v t := by
  rcases createSelect_ok.mp h with ⟨_, _, _, -, -, -, rfl, rfl⟩ | ⟨-, rfl, rfl⟩
  · exact .refl hs (hs.usable_const _)
  · exact hs.emit _ ⟨rfl, rfl⟩ rfl (by simpa [Inst.operands] using ⟨hc, ha, hb⟩)

theorem createIntCast_given (h : createIntCast a s = .ok v t) (hs : Dominated func entry params s)
    (ha : Usable entry params s a) : Given func entry params s v t := by
  rcases createIntCast_ok.mp h with ⟨-, rfl, rfl⟩ | ⟨-, ⟨_, -, rfl, rfl⟩ | ⟨-, rfl, rfl⟩⟩
  · exact .refl hs ha
  · exact .refl hs (hs.usable_const _)
  · exact hs.emit _ ⟨rfl, rfl⟩ rfl (by simpa [Inst.operands] using ha)

theorem createGEP_given {ty : Ty} {p i j : Value} (h : createGEP ty p i j s = .ok v t)
    (hs : Dominated func entry params s) (hp : Usable entry params s p) (hi : Usable entry params s i)
    (hj : Usable entry params s j) : Given func entry params s v t := by
  rcases createGEP_ok.mp h with ⟨_, _, _, -, -, -, rfl, rfl⟩ | ⟨-, rfl, rfl⟩
  · exact .refl hs (hs.usable_const _)
  · exact hs.emit _ ⟨rfl, rfl⟩ rfl (by simpa [Inst.operands] using ⟨hp, hi, hj⟩)

theorem elementPtr_given {al : AllocaInst} {i : Value} (h : elementPtr al i s = .ok v t)
    (hs : Dominated func entry params s) (ha : Usable entry params s al.value) (hi : Usable entry params s i) :
    Given func entry params s v t := by
  rcases elementPtr_ok h with ⟨-, rfl, rfl⟩ | ⟨-, rfl, rfl⟩
  · exact hs.emit _ ⟨rfl, rfl⟩ rfl (by simpa [Inst.operands] using ⟨ha, hs.usable_const _, hi⟩)
  · have hl := hs.load .ptr ha
    let mk : Reg → Inst := fun r => .gep r .i64 (.inst s.nextReg .ptr) [i]
    have hops : ∀ v ∈ (mk (s.nextReg + 1)).operands, Usable entry params (s.emit (.load · .ptr al.value)) v := by
      simpa [mk, Inst.operands] using ⟨hl.usable, hl.carried.keeps i hi⟩
    exact (hl.carried.dominated.emit mk ⟨rfl, rfl⟩ rfl hops).after hl.carried

omit [ConstantFolder] in
theorem Dominated.log (h : Dominated func entry params s) (e : ScopeEvent) : Dominated func entry params (s.log e) :=
  h.step (Nat.le_refl _) (.emits (.log e)) rfl rfl

omit [ConstantFolder] in
theorem Given.of_log {e : ScopeEvent} (h : Given func entry params (s.log e) v t) : Given func entry params s v t :=
  ⟨⟨h.carried.dominated, h.carried.keeps⟩, h.usable⟩

theorem getValue_given {x : String} {sub : Option Value} (h : getValue x sub s = .ok v t)
    (hs : Dominated func entry params s) (hi : ∀ i, sub = some i → Usable entry params s i) :
    Given func entry params s v t := by
  have hs' := hs.log (.read x sub.isSome (s.storage? x))
  have hi' : ∀ i, sub = some i → Usable entry params (s.log (.read x sub.isSome (s.storage? x))) i := hi
  rcases getValue_ok h with ⟨nv, hnv, h⟩ | ⟨-, h⟩
  · have ha : Usable entry params (s.log (.read x sub.isSome (s.storage? x))) nv.alloca.value := hs.usable_lookup hnv
    rcases createGetValueInst_ok h with ⟨-, -, rfl, rfl⟩ | ⟨-, -, rfl, rfl⟩ | ⟨i, p, u, hsub, hp, rfl, rfl⟩
    · refine Given.of_log (hs'.emit _ ⟨rfl, rfl⟩ rfl ?_)
      simpa [Inst.operands] using ⟨ha, hs'.usable_const _⟩
    · exact Given.of_log (hs'.load _ ha)
    · have hp := elementPtr_given hp hs' ha (hi' i hsub)
      exact Given.of_log ((hp.carried.dominated.load _ hp.usable).after hp.carried)
  · obtain ⟨g, -, ⟨-, -, ⟨c, -, rfl⟩, rfl⟩ | ⟨-, -, rfl, rfl⟩ | ⟨i, p, u, hsub, hp, rfl, rfl⟩⟩ := getGlobalValue_ok h
    · exact Given.of_log (.refl hs' (hs'.usable_const _))
    · exact Given.of_log (hs'.load _ (hs'.usable_const _))
    · have hp := createGEP_given (globalElementPtr_ok.mp hp) hs' (hs'.usable_const _) (hs'.usable_const _) (hi' i hsub)
      exact Given.of_log ((hp.carried.dominated.load _ hp.usable).after hp.carried)

/-- The operands of `||` and `&&`. -/
theorem operands_given {a b : Exp} {w : State} {lv rv : Value}
    (iha : ∀ {t : State} {v : Value}, genExp a s = .ok v t → Given func entry params s v t)
    (ihb : ∀ {s t : State} {v : Value}, genExp b s = .ok v t → Dominated func entry params s →
    Given func entry params s v t)
    (h : LogicalOperands a b s lv rv w) :
    Carried func entry params s w ∧ Usable entry params w lv ∧ Usable entry params w rv := by
  obtain ⟨x, u, m, y, n, hx, hl, hy, hr⟩ := h
  have h₁ := iha hx
  have h₂ := createICmp_given hl h₁.carried.dominated (h₁.carried.dominated.usable_const _) h₁.usable
  have h₃ := ihb hy h₂.carried.dominated
  have h₄ := createICmp_given hr h₃.carried.dominated (h₃.carried.dominated.usable_const _) h₃.usable
  exact ⟨h₁.carried.trans (h₂.carried.trans (h₃.carried.trans h₄.carried)),
    h₄.carried.keeps _ (h₃.carried.keeps _ h₂.usable), h₄.usable⟩

mutual

/-- The code of an expression reads what is available, and its value is usable behind it. -/
theorem genExp_given : ∀ (e : Exp) {s t : State} {v : Value}, genExp e s = .ok v t → Dominated func entry params s →
    Given func entry params s v t
  | .number n, s, t, v, h, hs => by
    rw [genExp] at h
    obtain ⟨rfl, rfl⟩ := pure_ok.mp h
    exact .refl hs (hs.usable_const _)
  | .name x, s, t, v, h, hs => by
    rw [genExp] at h
    exact getValue_given h hs fun _ hi => by cases hi
  | .index x e, s, t, v, h, hs => by
    obtain ⟨i, u, hi, h⟩ := genExp_index_ok.mp h
    have h₁ := genExp_given e hi hs
    exact (getValue_given h h₁.carried.dominated fun j hj => Option.some.inj hj ▸ h₁.usable).after h₁.carried
  | .call f args, s, t, v, h, hs => by
    obtain ⟨func, vs, u, -, -, hvs, rfl, rfl⟩ := genExp_call_ok.mp h
    obtain ⟨hc, hu⟩ := genExps_given args hvs hs
    let mk : Reg → Inst := fun r => .call r func.name func.retTy vs ("call_" ++ f)
    exact (hc.dominated.emit mk ⟨rfl, rfl⟩ rfl hu).after hc
  | .unary op e, s, t, v, h, hs => by
    obtain ⟨x, u, hx, h⟩ := genExp_unary_ok.mp h
    have h₁ := genExp_given e hx hs
    have d₁ := h₁.carried.dominated
    cases op with
    | plus =>
      obtain ⟨rfl, rfl⟩ := h
      exact h₁
    | minus => exact (createBinOp_given h.2 d₁ (d₁.usable_const _) h₁.usable).after h₁.carried
    | not =>
      obtain ⟨b, w, hb, h⟩ := h
      have h₂ := createICmp_given hb d₁ (d₁.usable_const _) h₁.usable
      exact ((createIntCast_given h h₂.carried.dominated h₂.usable).after h₂.carried).after h₁.carried
  | .arith op a b, s, t, v, h, hs => by
    obtain ⟨x, u, y, w, hx, hy, h⟩ := genExp_arith_ok.mp h
    have h₁ := genExp_given a hx hs
    have h₂ := genExp_given b hy h₁.carried.dominated
    -- The code of the right operand keeps the left one usable.
    have h₃ := createBinOp_given h h₂.carried.dominated (h₂.carried.keeps _ h₁.usable) h₂.usable
    exact (h₃.after h₂.carried).after h₁.carried
  | .cmp p a b, s, t, v, h, hs => by
    obtain ⟨x, u, y, w, c, k, hx, hy, hc, h⟩ := genExp_cmp_ok.mp h
    have h₁ := genExp_given a hx hs
    have h₂ := genExp_given b hy h₁.carried.dominated
    have h₃ := createICmp_given hc h₂.carried.dominated (h₂.carried.keeps _ h₁.usable) h₂.usable
    have h₄ := createIntCast_given h h₃.carried.dominated h₃.usable
    exact ((h₄.after h₃.carried).after h₂.carried).after h₁.carried
  | .land a b, s, t, v, h, hs => by
    obtain ⟨lv, rv, w, c, k, ho, hc, h⟩ := genExp_land_ok.mp h
    -- Both operands are already cast to `i1` here, and usable in the same block.
    obtain ⟨hw, hl, hr⟩ := operands_given (fun h => genExp_given a h hs) (fun h hs => genExp_given b h hs) ho
    have h₅ := createSelect_given hc hw.dominated hl hr (hw.dominated.usable_const _)
    have h₆ := createIntCast_given h h₅.carried.dominated h₅.usable
    exact (h₆.after h₅.carried).after hw
  | .lor a b, s, t, v, h, hs => by
    obtain ⟨lv, rv, w, c, k, ho, hc, h⟩ := genExp_lor_ok.mp h
    obtain ⟨hw, hl, hr⟩ := operands_given (fun h => genExp_given a h hs) (fun h hs => genExp_given b h hs) ho
    have h₅ := createSelect_given hc hw.dominated hl (hw.dominated.usable_const _) hr
    have h₆ := createIntCast_given h h₅.carried.dominated h₅.usable
    exact (h₆.after h₅.carried).after hw

theorem genExps_given : ∀ (es : List Exp) {s t : State} {vs : List Value}, genExps es s = .ok vs t →
    Dominated func entry params s → Carried func entry params s t ∧ ∀ v ∈ vs, Usable entry params t v
  | [], s, t, vs, h, hs => by
    obtain ⟨rfl, rfl⟩ := genExps_nil_ok.mp h
    exact ⟨.refl hs, by simp⟩
  | e :: es, s, t, vs, h, hs => by
    obtain ⟨x, u, xs, hx, hxs, rfl⟩ := genExps_cons_ok.mp h
    have h₁ := genExp_given e hx hs
    obtain ⟨hc, hu⟩ := genExps_given es hxs h₁.carried.dominated
    refine ⟨h₁.carried.trans hc, fun v hv => ?_⟩
    rcases List.mem_cons.mp hv with rfl | hv
    · exact hc.keeps _ h₁.usable
    · exact hu v hv

end

theorem codeGenExp_given {e : ExprNode} (h : codeGenExp e s = .ok v t) (hs : Dominated func entry params s) :
    Given func entry params s v t := genExp_given e.core (codeGenExp_core e ▸ h) hs

end Exps

/-! ### Definitions -/

section Define
variable {func entry params : Nat} {s t u : State} {v : Value}

variable [ConstantFolder]

theorem elementStores_carried {a : AllocaInst} : ∀ {vs : List Value} {idx : Nat} {s : State},
    Dominated func entry params s → Usable entry params s a.value → (∀ v ∈ vs, Usable entry params s v) →
    Carried func entry params s (s.appendRegs (elementStores a idx s.nextReg vs) vs.length)
  | [], idx, s, hs, _, _ => by
    rw [elementStores, List.length_nil, State.appendRegs_nil]
    exact .refl hs
  | v :: vs, idx, s, hs, ha, hv => by
    let mk : Reg → Inst := (.gep · a.ty a.value [.const (.int 0), .const (.int (.ofNat 64 idx))])
    let u : State := (s.emit mk).append [.store v (.inst s.nextReg .ptr)]
    have hp : createGEP a.ty a.value (.const (.int 0)) (.const (.int (.ofNat 64 idx))) s =
        .ok (.inst s.nextReg .ptr) (s.emit mk) := rfl
    have hp := createGEP_given hp hs ha (hs.usable_const _) (hs.usable_const _)
    have hst : Carried func entry params (s.emit mk) u := by
      refine hp.carried.dominated.insert rfl rfl ?_
      simpa [Inst.operands] using ⟨hp.carried.keeps v (hv v List.mem_cons_self), hp.usable⟩
    have hc := hp.carried.trans hst
    have hrest : Carried func entry params u (u.appendRegs (elementStores a (idx + 1) u.nextReg vs) vs.length) :=
      elementStores_carried hc.dominated (hc.keeps _ ha) fun w hw => hc.keeps w (hv w (List.mem_cons_of_mem _ hw))
    have hu : u = s.appendRegs [mk s.nextReg, .store v (.inst s.nextReg .ptr)] 1 := State.appendRegs_append s _ _
    have hall : s.appendRegs (elementStores a idx s.nextReg (v :: vs)) (v :: vs).length =
        u.appendRegs (elementStores a (idx + 1) u.nextReg vs) vs.length := by
      rw [hu, State.appendRegs_appendRegs, List.length_cons, Nat.add_comm vs.length]
      rfl
    rw [hall]
    exact hc.trans hrest

theorem createDefineValueInst_carried {vs : List Value} {size : Option Value} {isPtr : Bool} {a : AllocaInst}
    (h : createDefineValueInst vs size isPtr s = .ok a t) (hs : Dominated func entry params s)
    (hv : ∀ v ∈ vs, Usable entry params s v) : Carried func entry params s t := by
  obtain ⟨p, w, hp, hw, hst⟩ := createDefineValueInst_ok h
  obtain ⟨l, hl, -⟩ := hs.prologue.point
  obtain rfl := Option.some.inj (hl.symm.trans hp)
  obtain ⟨e, he, hslot, hsh, rfl⟩ := createEntryBlockAlloca_step hw
  obtain rfl := Option.some.inj (he.symm.trans hs.prologue.head)
  obtain ⟨hc, hu⟩ := hs.emitAlloca hsh
  have ha : Usable e params (s.emitAlloca e a.ty size) a.value := by
    rw [AllocaInst.value, hslot]
    exact hu
  rcases hst with ⟨-, v, hhead, rfl⟩ | ⟨-, rfl⟩
  · have hmem : v ∈ vs := List.mem_of_head? hhead
    refine hc.trans (hc.dominated.insert rfl rfl ?_)
    simpa [Inst.operands] using ⟨hc.keeps v (hv v hmem), ha⟩
  · exact hc.trans (elementStores_carried hc.dominated ha fun v hm => hc.keeps v (hv v hm))

theorem defineValue_dominated {x : String} {ty : ValType} {vs : List Value} {size : Option Value} {isPtr : Bool}
    (h : defineValue x ty vs size isPtr s = .ok () t) (hf : InFunc func s) (hs : Dominated func entry params s)
    (hv : ∀ v ∈ vs, Usable entry params s v) : Dominated func entry params t := by
  obtain ⟨r, -⟩ := defineValue_run entry hf h
  rcases defineValue_ok h with ⟨hn, -⟩ | ⟨layer, outer, a, w, -, -, hw, rfl⟩
  · exact absurd hn hf.layers
  · exact (createDefineValueInst_carried hw hs hv).dominated.of_blocks (r.prologue (Nat.le_refl _) hs.prologue) rfl rfl

theorem initVals_carried {init : Option InitValNode} : ∀ {n idx : Nat} {s t : State} {vs : List Value},
    initVals init idx n s = .ok vs t → Dominated func entry params s →
    Carried func entry params s t ∧ ∀ v ∈ vs, Usable entry params t v
  | 0, idx, s, t, vs, h, hs => by
    obtain ⟨rfl, rfl⟩ := initVals_zero_ok.mp h
    exact ⟨.refl hs, by simp⟩
  | n + 1, idx, s, t, vs, h, hs => by
    obtain ⟨v, w, ws, hv, hws, rfl⟩ := initVals_cons_ok.mp h
    have h₁ : Given func entry params s v w := by
      rcases initVal_ok.mp hv with ⟨rfl, rfl, -⟩ | ⟨_, c, -, -, -, rfl, rfl⟩ | ⟨_, e, -, -, he⟩
      · exact .refl hs (hs.usable_const _)
      · exact .refl hs (hs.usable_const _)
      · exact codeGenExp_given he hs
    obtain ⟨hc, hu⟩ := initVals_carried hws h₁.carried.dominated
    refine ⟨h₁.carried.trans hc, fun x hx => ?_⟩
    rcases List.mem_cons.mp hx with rfl | hx
    · exact hc.keeps _ h₁.usable
    · exact hu x hx

theorem getInitVals_carried {init : Option InitValNode} {size : Option Value} {vs : List Value}
    (h : getInitVals init size s = .ok vs t) (hs : Dominated func entry params s) :
    Carried func entry params s t ∧ ∀ v ∈ vs, Usable entry params t v := by
  rcases getInitVals_ok.mp h with ⟨-, h⟩ | ⟨_, _, -, -, -, h⟩
  · exact initVals_carried h hs
  · exact initVals_carried h hs

theorem Def.gen_dominated {d : Def} (h : d.gen s = .ok () t) (hf : InFunc func s) (hs : Dominated func entry params s) :
    Dominated func entry params t := by
  obtain ⟨size, vs, w, hi, h⟩ := codeGenDef_ok.mp h
  obtain ⟨is, e⟩ := hi.emits
  have hc : Carried func entry params s w ∧ ∀ v ∈ vs, Usable entry params w v := by
    unfold GenInit at hi
    cases hd : d.exp with
    | none =>
      rw [hd] at hi
      exact getInitVals_carried hi.2 hs
    | some e =>
      rw [hd] at hi
      obtain ⟨sz, u, -, hsz, hv⟩ := hi
      have h₁ := codeGenExp_given hsz hs
      obtain ⟨hc, hu⟩ := getInitVals_carried hv h₁.carried.dominated
      exact ⟨h₁.carried.trans hc, hu⟩
  exact defineValue_dominated h (hf.emits e) hc.1.dominated hc.2

theorem defs_dominated : ∀ {ds : List Def} {s t : State}, ds.forM Def.gen s = .ok ⟨⟩ t → InFunc func s →
    Dominated func entry params s → Dominated func entry params t
  | [], s, t, h, _, hs => by
    obtain rfl := forM_nil_ok.mp h
    exact hs
  | d :: ds, s, t, h, hf, hs => by
    obtain ⟨w, hd, h⟩ := forM_cons_ok.mp h
    obtain ⟨r, k⟩ := Def.gen_run 0 hf hd
    exact defs_dominated h (hf.run r k.layers) (Def.gen_dominated hd hf hs)

end Define

/-! ### Statements -/

section Stmt
variable {func entry params : Nat} {s t : State}

theorem Dominated.newBlocks (h : Dominated func entry params s) : Dominated func entry params s.newBlocks :=
  h.step (Nat.le_refl _) .newBlocks rfl rfl

/-- The begin of a branch: a terminator, and a new block. -/
theorem Dominated.branch (h : Dominated func entry params s) {i : Inst} {l : Nat} (hi : i.isTerminator = true)
    (ho : ∀ v ∈ i.operands, Usable entry params s v) (hl : entry ≤ l) (hlt : l < s.nextLabel) :
    Dominated func entry params ((s.append [i]).enter func l) := by
  have hr : i.reg? = none := by
    cases i <;> first | rfl | cases hi
  have h' := (h.insert (isAlloca_of_isTerminator hi) hr ho).dominated
  exact h'.step hl (.enter (Nat.le_refl _) (by rw [State.append_nextLabel]; exact hlt)) rfl rfl

/-- The end of a branch. -/
theorem Dominated.brUnlessBranch (h : Dominated func entry params s) (p : InsertPoint) (target : Label) :
    Dominated func entry params (s.brUnlessBranch p target) := by
  have hbr : ∀ w : State, Dominated func entry params w → Dominated func entry params (w.append [.br target]) :=
    fun w hw => (hw.insert rfl rfl (by simp [Inst.operands])).dominated
  unfold State.brUnlessBranch
  split
  · split
    · exact h
    · exact hbr s h
  · exact hbr _ (h.step (Nat.le_refl _) .emptyBack rfl rfl)

theorem Dominated.close (h : Dominated func entry params s) (p : InsertPoint) (target : Label) {l : Nat}
    (hl : entry ≤ l) (hlt : l < s.nextLabel) :
    Dominated func entry params ((s.brUnlessBranch p target).enter func l) := by
  have h' := h.brUnlessBranch p target
  exact h'.step hl (.enter (Nat.le_refl _) (by rw [brUnlessBranch_nextLabel]; exact hlt)) rfl rfl

section If
variable {e : ExprNode} {thenStmt : StmtNode} {elseStmt : Option StmtNode} {v c : Value} {s₁ s₂ s₃ s₄ : State}
  {q r : InsertPoint}

variable [ConstantFolder]

theorem IfRun.dominated (h : IfRun func e thenStmt elseStmt s v s₁ c s₂ s₃ q s₄ r t)
    (hs : Dominated func entry params s)
    (iha : Dominated func entry params (s₂.thenStart func c) → Dominated func entry params s₃)
    (ihb : Dominated func entry params ((s₃.brUnlessBranch q (s₂.nextLabel + 2)).enter func (s₂.nextLabel + 1)) →
      Dominated func entry params s₄) : Dominated func entry params t := by
  have h₁ := codeGenExp_given h.cond hs
  have h₂ := createICmp_given h.bool h₁.carried.dominated (h₁.carried.dominated.usable_const _) h₁.usable
  have hlt : entry < s₂.nextLabel := h₂.carried.dominated.prologue.entry_lt
  have hl₃ : s₂.nextLabel + 3 ≤ s₃.nextLabel := by
    have hle := h.thenRun.nextLabel_le
    rwa [h.thenLabel, ← h.nextLabel] at hle
  have hl₄ : s₃.nextLabel ≤ s₄.nextLabel := Nat.le_trans h.middle.nextLabel_le h.elseRun.nextLabel_le
  have hc : Usable entry params s₂.newBlocks c := h₂.usable
  have hthen : Dominated func entry params (s₂.thenStart func c) := by
    refine h₂.carried.dominated.newBlocks.branch rfl ?_ (Nat.le_of_lt hlt) ?_
    · simpa [Inst.operands] using hc
    · show s₂.nextLabel < s₂.nextLabel + 3
      omega
  have helse := ihb ((iha hthen).close q _ (by omega) (by omega))
  rw [h.result]
  exact helse.close r _ (by omega) (by omega)

end If

section While
variable {e : ExprNode} {body : StmtNode} {v c : Value} {s₁ s₂ s₃ : State} {q : InsertPoint}

variable [ConstantFolder]

theorem WhileRun.dominated (h : WhileRun func e body s v s₁ c s₂ s₃ q t) (hs : Dominated func entry params s)
    (ih : Dominated func entry params (s₂.bodyStart func c s.nextLabel) → Dominated func entry params s₃) :
    Dominated func entry params t := by
  have hlt := hs.prologue.entry_lt
  have hn := h.nextLabel
  have hloop : Dominated func entry params (s.loopStart func) := by
    refine (hs.newBlocks.step (Nat.le_refl _) .pushLoop rfl rfl).branch rfl (by simp [Inst.operands]) ?_ ?_
    · exact Nat.le_of_lt hlt
    · show s.nextLabel < s.nextLabel + 3
      omega
  have h₁ := codeGenExp_given h.cond hloop
  have h₂ := createICmp_given h.bool h₁.carried.dominated (h₁.carried.dominated.usable_const _) h₁.usable
  have hbody : Dominated func entry params (s₂.bodyStart func c s.nextLabel) :=
    h₂.carried.dominated.branch rfl (by simpa [Inst.operands] using h₂.usable) (by omega) (by omega)
  have hl₃ : s.nextLabel + 3 ≤ s₃.nextLabel := by
    refine Nat.le_trans (Nat.le_of_eq ?_) h.bodyRun.nextLabel_le
    show _ = (State.append _ _).nextLabel
    rw [State.append_nextLabel, hn]
  rw [h.result]
  exact ((ih hbody).close q _ (by omega) (by omega)).step (Nat.le_refl _) .popLoop rfl rfl

end While

variable [ConstantFolder]

theorem codeGenSubIdx_carried {sub : Option ExprNode} {idx : Option Value} (h : codeGenSubIdx sub s = .ok idx t)
    (hs : Dominated func entry params s) :
    Carried func entry params s t ∧ ∀ i, idx = some i → Usable entry params t i := by
  rcases codeGenSubIdx_ok.mp h with ⟨-, rfl, rfl⟩ | ⟨e, i, -, rfl, hi⟩
  · exact ⟨.refl hs, fun i hi => by cases hi⟩
  · have hg := codeGenExp_given hi hs
    exact ⟨hg.carried, fun j hj => Option.some.inj hj ▸ hg.usable⟩

omit [ConstantFolder] in
/-- A store through a computed address. -/
theorem Given.store {p v : Value} (h : Given func entry params s p t) (hv : Usable entry params s v) :
    Dominated func entry params (t.append [.store v p]) := by
  refine (h.carried.dominated.insert rfl rfl ?_).dominated
  simpa [Inst.operands] using ⟨h.carried.keeps v hv, h.usable⟩

theorem setValue_dominated {x : String} {val : Value} {sub : Option Value} (h : setValue x val sub s = .ok () t)
    (hn : s.namedValues ≠ []) (hs : Dominated func entry params s) (hv : Usable entry params s val)
    (hi : ∀ i, sub = some i → Usable entry params s i) : Dominated func entry params t := by
  have hs' := hs.log (.assign x sub.isSome (s.storage? x))
  have hv' : Usable entry params (s.log (.assign x sub.isSome (s.storage? x))) val := hv
  have hi' : ∀ i, sub = some i → Usable entry params (s.log (.assign x sub.isSome (s.storage? x))) i := hi
  rcases setValue_ok h with ⟨a, ha, h⟩ | ⟨-, h⟩
  · have ha' : Usable entry params (s.log (.assign x sub.isSome (s.storage? x))) a.value := hs.usable_lookup ha
    rcases createSetValueInst_ok h with ⟨-, rfl⟩ | ⟨i, p, w, hsub, hp, rfl⟩
    · exact (Given.refl hs' ha').store hv'
    · exact (elementPtr_given hp hs' ha' (hi' i hsub)).store hv'
  · obtain ⟨g, -, ⟨-, hne, -⟩ | ⟨-, -, rfl⟩ | ⟨i, p, w, hsub, hp, rfl⟩⟩ := setGlobalValue_ok h
    · exact absurd hne hn
    · have hl := hs'.load g.valueTy (hs'.usable_const (.global g.name g.valueTy))
      have hd := hl.carried.dominated
      refine (hd.insert rfl rfl ?_).dominated
      simpa [Inst.operands] using ⟨hl.carried.keeps val hv', hd.usable_const _⟩
    · exact (createGEP_given (globalElementPtr_ok.mp hp) hs' (hs'.usable_const _) (hs'.usable_const _)
        (hi' i hsub)).store hv'

omit [ConstantFolder] in
/-- A jump, or a return without a value. -/
theorem Dominated.jump (h : Dominated func entry params s) {i : Inst} (ha : i.isAlloca = false) (hr : i.reg? = none)
    (ho : i.operands = []) : Dominated func entry params (s.append [i]) :=
  (h.insert ha hr (by simp [ho])).dominated

mutual

/-- The code of a statement reads what is available. -/
theorem codeGenStmt_dominated : ∀ (st : StmtNode) {s t : State}, codeGenStmt st s = .ok () t → InFunc func s →
    Dominated func entry params s → Dominated func entry params t
  | .block items, s, t, h, hf, hs => by
    obtain ⟨w, hw, rfl⟩ := codeGenStmt_block_ok.mp h
    have hf' : InFunc func (s.pushLayer.log .push) := ⟨hf.point, List.cons_ne_nil _ _⟩
    have hs' := (hs.step (Nat.le_refl _) .pushLayer rfl rfl).log .push
    have hw' := codeGenBlockItems_dominated items hw hf' hs'
    exact (hw'.step (Nat.le_refl _) .popLayer rfl rfl).log .pop
  | .ifStmt e thenStmt elseStmt, s, t, h, hf, hs => by
    obtain ⟨v, s₁, c, s₂, s₃, q, s₄, r, hr⟩ := codeGenStmt_if_run
      (fun _ _ _ hf hb h => codeGenStmt_run thenStmt hf hb h)
      (fun _ _ _ hf hb h => codeGenStmt_elseBranch_run elseStmt hf hb h) hf h
    exact hr.dominated hs (codeGenStmt_dominated thenStmt hr.thenGen hr.thenIn)
      (codeGenStmt_elseBranch_dominated elseStmt hr.elseGen hr.elseIn)
  | .whileStmt e body, s, t, h, hf, hs => by
    obtain ⟨v, s₁, c, s₂, s₃, q, hr⟩ := codeGenStmt_while_run (fun _ _ _ hf hb h => codeGenStmt_run body hf hb h) hf h
    exact hr.dominated hs (codeGenStmt_dominated body hr.bodyGen hr.bodyIn)
  | .continueStmt, s, t, h, hf, hs => by
    obtain ⟨loop, outer, -, rfl⟩ := codeGenStmt_continue_ok.mp h
    exact hs.jump rfl rfl rfl
  | .breakStmt, s, t, h, hf, hs => by
    obtain ⟨loop, outer, -, rfl⟩ := codeGenStmt_break_ok.mp h
    exact hs.jump rfl rfl rfl
  | .ret none, s, t, h, hf, hs => by
    obtain rfl := codeGenStmt_retVoid_ok.mp h
    exact hs.jump rfl rfl rfl
  | .ret (some e), s, t, h, hf, hs => by
    obtain ⟨v, w, hv, rfl⟩ := codeGenStmt_ret_ok.mp h
    have hg := codeGenExp_given hv hs
    exact (hg.carried.dominated.insert rfl rfl (by simpa [Inst.operands] using hg.usable)).dominated
  | .expr none, s, t, h, hf, hs => by
    obtain rfl := codeGenStmt_empty_ok.mp h
    exact hs
  | .expr (some e), s, t, h, hf, hs => by
    obtain ⟨v, hv⟩ := codeGenStmt_expr_ok.mp h
    exact (codeGenExp_given hv hs).carried.dominated
  | .assign x sub e, s, t, h, hf, hs => by
    obtain ⟨v, w, idx, k, hv, hk, hx⟩ := codeGenStmt_assign_ok.mp h
    obtain ⟨is, e₁⟩ := codeGenExp_emits hv
    obtain ⟨js, e₂⟩ := codeGenSubIdx_emits hk
    have hg := codeGenExp_given hv hs
    obtain ⟨hc, hi⟩ := codeGenSubIdx_carried hk hg.carried.dominated
    exact setValue_dominated hx ((hf.emits e₁).emits e₂).layers hc.dominated (hc.keeps v hg.usable) hi

theorem codeGenStmt_elseBranch_dominated : ∀ (st : Option StmtNode) {s t : State},
    codeGenStmt (elseBranch st) s = .ok () t → InFunc func s → Dominated func entry params s →
    Dominated func entry params t
  | none, s, t, h, hf, hs => by
    obtain rfl := codeGenStmt_empty_ok.mp h
    exact hs
  | some st, s, t, h, hf, hs => codeGenStmt_dominated st h hf hs

theorem codeGenBlockItem_dominated : ∀ (item : BlockItemNode) {s t : State}, codeGenBlockItem item s = .ok () t →
    InFunc func s → Dominated func entry params s → Dominated func entry params t
  | .decl d, s, t, h, hf, hs => by
    rw [codeGenBlockItem_decl, codeGenDecl_defs] at h
    exact defs_dominated h hf hs
  | .stmt st, _, _, h, hf, hs => codeGenStmt_dominated st (codeGenBlockItem_stmt ▸ h) hf hs

theorem codeGenBlockItems_dominated : ∀ (items : List BlockItemNode) {s t : State},
    codeGenBlockItems items s = .ok () t → InFunc func s → Dominated func entry params s →
    Dominated func entry params t
  | [], s, t, h, hf, hs => by
    obtain rfl := codeGenBlockItems_nil_ok.mp h
    exact hs
  | item :: items, s, t, h, hf, hs => by
    obtain ⟨w, hw, h⟩ := codeGenBlockItems_cons_ok.mp h
    obtain ⟨r, d⟩ := codeGenBlockItem_run item hf (Nat.zero_le _) hw
    exact codeGenBlockItems_dominated items h (hf.run r d.layers) (codeGenBlockItem_dominated item hw hf hs)

end

end Stmt

/-! ### Functions and programs -/

/-- The function in the module that `f` is. -/
def State.emitted (s : State) (f : FunctionObj) : Function :=
  { name := f.name, retTy := f.retTy, params := f.params, blocks := f.layout.map fun l => (l, s.blocks l) }

section Functions
variable {s t : State} {node : FuncNode}

theorem emitted_congr {f : FunctionObj} (h : ∀ l ∈ f.layout, t.blocks l = s.blocks l) : t.emitted f = s.emitted f := by
  have hb : f.layout.map (fun l => (l, t.blocks l)) = f.layout.map fun l => (l, s.blocks l) :=
    List.map_congr_left fun l hl => by rw [h l hl]
  rw [State.emitted, hb, State.emitted]

theorem start_dominated (hs : Idle s) (hr : SingleAssignment s) :
    Dominated s.functions.length s.nextLabel node.param.length (node.start s) where
  prologue := start_prologue hs
  closed l hl := by
    have hb : (node.start s).blocks l = [] := hs.fresh l hl
    rw [hb]
    exact .nil
  single := ⟨hr.lt, hr.once, hr.apart⟩

variable [ConstantFolder]

theorem defineParams_dominated {func entry params : Nat} : ∀ {ps : List (String × FParamType)} {i : Nat} {s t : State},
    defineParams i ps s = .ok () t → InFunc func s → i + ps.length ≤ params → Dominated func entry params s →
    Dominated func entry params t
  | [], i, s, t, h, _, _, hs => by
    rw [defineParams] at h
    obtain ⟨-, rfl⟩ := pure_ok.mp h
    exact hs
  | (x, ty) :: ps, i, s, t, h, hf, hi, hs => by
    rw [defineParams] at h
    obtain ⟨w, hw, h⟩ := seq_ok.mp h
    obtain ⟨r, d⟩ := defineValue_run 0 hf hw
    rw [List.length_cons] at hi
    refine defineParams_dominated h (hf.run r d.layers) (by omega) (defineValue_dominated hw hf hs fun v hv => ?_)
    obtain rfl := List.mem_singleton.mp hv
    exact hs.usable_arg (by omega) _

omit [ConstantFolder] in
theorem Dominated.retUnlessReturn {func entry params : Nat} (h : Dominated func entry params s) (p : InsertPoint) :
    Dominated func entry params (s.retUnlessReturn p) := by
  unfold State.retUnlessReturn
  split
  · split
    · exact h
    · exact h.jump rfl rfl rfl
  · exact (h.step (Nat.le_refl _) .emptyBack rfl rfl).jump rfl rfl rfl

theorem codeGenFunc_dominated (hs : Idle s) (hr : SingleAssignment s) (h : codeGenFunc node s = .ok () t) :
    Dominated s.functions.length s.nextLabel node.param.length t := by
  obtain ⟨s₁, s₂, p, hr'⟩ := codeGenFunc_run h
  have hlen : 0 + node.args.length ≤ node.param.length := by simp [FuncNode.args]
  have h₁ := defineParams_dominated hr'.params start_inFunc hlen (start_dominated hs hr)
  have h₂ := codeGenStmt_dominated _ hr'.body (start_inFunc.run hr'.paramsRun hr'.defined.layers) h₁
  rw [hr'.result]
  exact ((h₂.retUnlessReturn p).step (Nat.le_refl _) .popLayer rfl rfl).log .pop

omit [ConstantFolder] in
theorem emitted_slots (f : FunctionObj) : (s.emitted f).slots = f.layout.flatMap s.slots := List.flatMap_map ..

omit [ConstantFolder] in
theorem emitted_results (f : FunctionObj) : (s.emitted f).results = f.layout.flatMap s.regs := List.flatMap_map ..

omit [ConstantFolder] in
theorem mem_emitted {f : FunctionObj} {b : Label × List Inst} :
    b ∈ (s.emitted f).blocks ↔ ∃ l ∈ f.layout, (l, s.blocks l) = b := List.mem_map

omit [ConstantFolder] in
/-- Where the blocks behind the entry block have no allocas, the slots of the function are those of the entry block. -/
theorem flatMap_slots {entry : Nat} {ls : List Nat} (h : ∀ l ∈ ls, ∀ i ∈ s.blocks l, i.isAlloca = false) :
    (entry :: ls).flatMap s.slots = s.slots entry := by
  have hnil : ls.flatMap s.slots = [] :=
    List.flatMap_eq_nil_iff.mpr fun l hl => filterMap_slot?_of_not_isAlloca (h l hl)
  rw [List.flatMap_cons, hnil, List.append_nil]

omit [ConstantFolder] in
theorem SingleAssignment.results (h : SingleAssignment s) {ls : List Nat} (hn : ls.Nodup) :
    (ls.flatMap s.regs).Nodup := by
  refine List.nodup_flatMap.mpr ⟨fun l _ => h.once l, hn.imp fun hne r hr hr' => hne (h.apart _ _ r hr hr')⟩

/-- A generated function: its operands, and its allocas. -/
theorem codeGenFunc_framed (hs : Idle s) (hr : SingleAssignment s) (h : codeGenFunc node s = .ok () t) :
    ∃ f, t.functions = s.functions ++ [f] ∧ (t.emitted f).Dominated ∧ (t.emitted f).StaticFrame := by
  obtain ⟨ls, hfs, hn, hlt, ht⟩ := codeGenFunc_jumps hs h
  have hd := codeGenFunc_dominated hs hr h
  have hothers : ∀ l ∈ ls, ∀ i ∈ t.blocks l, i.isAlloca = false := fun l hl => hd.prologue.others l (hlt l hl)
  have hnodup : (s.nextLabel :: ls).Nodup := List.nodup_cons.mpr ⟨fun hm => Nat.lt_irrefl _ (hlt _ hm), hn⟩
  have hle : ∀ l ∈ s.nextLabel :: ls, s.nextLabel ≤ l := by
    intro l hl
    rcases List.mem_cons.mp hl with rfl | hl
    · exact Nat.le_refl _
    · exact Nat.le_of_lt (hlt l hl)
  refine ⟨_, hfs, ⟨fun b hb => ?_, ?_⟩, ⟨fun b hb => ?_, fun b hb => ?_, fun b hb i hi x hx => ?_, ?_, ?_⟩⟩
  · obtain ⟨l, hl, rfl⟩ := mem_emitted.mp hb
    have hc := hd.closed l (hle l hl)
    rw [← flatMap_slots hothers] at hc
    rw [emitted_slots]
    simpa [State.emitted, FuncNode.object] using hc
  · rw [emitted_results]
    exact hd.single.results hnodup
  · cases hb
    exact hd.prologue.shape
  · obtain ⟨l, hl, rfl⟩ := List.mem_map.mp hb
    exact hothers l hl
  · obtain ⟨l, hl, rfl⟩ := mem_emitted.mp hb
    have hm := ht l (hle l hl) i hi x hx
    simpa [State.emitted] using hm
  · simpa [State.emitted, Function.comp_def] using hnodup
  · rw [emitted_slots]
    exact (flatMap_slots hothers).symm ▸ hd.prologue.slots

/-- In every function operands are defined before they are read, and the allocas come first. -/
structure Framed (s : State) : Prop where
  single : SingleAssignment s
  functions : ∀ f ∈ s.functions, (s.emitted f).Dominated ∧ (s.emitted f).StaticFrame

theorem Framed.item {item : TopItem} (hf : Framed s) (hs : Idle s) (h : codeGenTopItem item s = .ok () t) :
    Framed t := by
  obtain ⟨hx, -⟩ := codeGenTopItem_extends hs h
  have hold : ∀ f ∈ s.functions, (t.emitted f).Dominated ∧ (t.emitted f).StaticFrame := by
    intro f hm
    rw [emitted_congr fun l hl => hx.blocks l (hs.layout f hm l hl)]
    exact hf.functions f hm
  cases item with
  | decl d =>
    obtain ⟨gs, tr, rfl, -⟩ := codeGenDecl_global hs.namedValues h
    exact ⟨⟨hf.single.lt, hf.single.once, hf.single.apart⟩, hold⟩
  | func node =>
    obtain ⟨f, hfs, hnew⟩ := codeGenFunc_framed hs hf.single h
    refine ⟨(codeGenFunc_dominated hs hf.single h).single, fun g hg => ?_⟩
    rw [hfs, List.mem_append, List.mem_singleton] at hg
    rcases hg with hg | rfl
    · exact hold g hg
    · exact hnew

theorem accepts_framed {node : EntryNode} (h : Accepts node s) : Framed s := by
  refine accepts_invariant h ⟨⟨?_, ?_, ?_⟩, fun f hf => ?_⟩ fun hb hs h => hb.item hs h
  · exact fun l r hr => by cases hr
  · exact fun l => List.nodup_nil
  · exact fun l l' r hr => by cases hr
  · obtain ⟨g, -, rfl⟩ := List.mem_map.mp hf
    exact framed_of_declaration rfl

/-- In the module of an accepted program, every operand of an instruction is a constant, a global variable, an argument,
    an alloca of the function, or the result of one instruction that stands before it in its block; and the allocas of
    a function stand at the begin of its entry block, to which nothing branches, so that an activation of it executes
    none of them twice. -/
theorem functions_framed {node : EntryNode} (h : Accepts node s) :
    ∀ f ∈ s.toModule.functions, f.Dominated ∧ f.StaticFrame ∧ f.AllocatesOnce := by
  intro f hf
  obtain ⟨g, hg, rfl⟩ := List.mem_map.mp hf
  obtain ⟨hd, hs⟩ := (accepts_framed h).functions g hg
  exact ⟨hd, hs, hs.allocatesOnce⟩

end Functions

section
attribute [local instance] ConstantFolder.symbolic

/-- `int count(int n) { while (n) { int k = n; n = k - 1; } return n; }`. -/
def countProgram : EntryNode :=
  let var (x : String) : MulExprNode := .unary (.primary (.lVal (.mk x none)))
  let pred (x : String) : ExprNode :=
    .mk (.land (.eq (.rel (.add (.add .minus (.mul (var x)) (.unary (.primary (.number ⟨1⟩))))))))
  let read (x : String) : ExprNode := LValNode.toExpr (.mk x none)
  ⟨.func ⟨.int, "count", [⟨.int, "n"⟩], [
    .stmt (.whileStmt (read "n") (.block [
      .decl (.varDecl ⟨.int, [⟨"k", some (.exp (read "n")), none⟩]⟩),
      .stmt (.assign "n" none (pred "k"))])),
    .stmt (.ret (some (read "n")))]⟩⟩

/-- The loop's variable is one of the two allocas of the entry block. -/
theorem countProgram_framed : ∃ s f, Accepts countProgram s ∧ f ∈ s.toModule.functions ∧ f.slots.length = 2 ∧
    f.Dominated ∧ f.StaticFrame ∧ f.AllocatesOnce := by
  have hrun : countProgram.final?.any (fun s => s.toModule.functions.any fun f => f.slots.length == 2) = true := by
    decide +kernel
  obtain ⟨s, hs, hany⟩ := (Option.any_eq_true ..).mp hrun
  obtain ⟨f, hf, hlen⟩ := List.any_eq_true.mp hany
  have hacc := final?_eq_some.mp hs
  exact ⟨s, f, hacc, hf, beq_iff_eq.mp hlen, functions_framed hacc f hf⟩

end

end L24
