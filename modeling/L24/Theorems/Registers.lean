import L24.Ir.Straight
import L24.Theorems.Expr

/-! The registers of the code of expressions: each instruction writes a new one, and reads older ones only. -/

namespace L24
open Ir

/-- The operand has been made before register `n`. -/
def Below (n : Nat) (v : Value) : Prop := ∀ r ty, v = .inst r ty → r < n

/-- The results of the code are the registers from `n` to `m`, in order, and what an instruction reads is older. -/
inductive Numbered : Nat → List Inst → Nat → Prop
  | nil {n : Nat} : Numbered n [] n
  | cons {n k m : Nat} {i : Inst} {is : List Inst} (ho : ∀ v ∈ i.operands, Below n v)
      (hr : ∀ r, i.reg? = some r → n ≤ r ∧ r < k) (hk : n ≤ k) (h : Numbered k is m) : Numbered n (i :: is) m

section Numbered
variable {n m k : Nat} {is js : List Inst} {v : Value}

theorem Below.mono (h : Below n v) (hn : n ≤ m) : Below m v := fun r ty hv => Nat.lt_of_lt_of_le (h r ty hv) hn

theorem below_const {c : Const} : Below n (.const c) := fun _ _ h => by cases h

theorem below_alloca {a : AllocaInst} : Below n a.value := fun _ _ h => by cases h

theorem below_inst {r : Reg} {ty : Ty} (h : r < n) : Below n (.inst r ty) := fun r' ty' hr => by
  cases hr
  exact h

theorem Numbered.le (h : Numbered n is m) : n ≤ m := by
  induction h with
  | nil => exact Nat.le_refl _
  | cons _ _ hk _ ih => exact Nat.le_trans hk ih

theorem Numbered.append (h₁ : Numbered n is m) (h₂ : Numbered m js k) : Numbered n (is ++ js) k := by
  induction h₁ with
  | nil => exact h₂
  | cons ho hr hk _ ih => exact .cons ho hr hk (ih h₂)

/-- The results are not older than the code. -/
theorem Numbered.reg_le (h : Numbered n is m) : ∀ i ∈ is, ∀ r, i.reg? = some r → n ≤ r := by
  induction h with
  | nil => simp
  | cons _ hr hk _ ih =>
    intro i hi r hir
    rcases List.mem_cons.mp hi with rfl | hi
    · exact (hr r hir).1
    · exact Nat.le_trans hk (ih i hi r hir)

theorem Numbered.ssa (h : Numbered n is m) : Ssa is := by
  induction h with
  | nil => exact ⟨.nil, by simp⟩
  | @cons n k m i is ho hr hk h ih =>
    refine ⟨List.pairwise_cons.mpr ⟨fun j hj r hjr => ?_, ih.later⟩, fun j hj r hjr => ?_⟩
    · have hkr := h.reg_le j hj r hjr
      refine ⟨fun hir => absurd (hr r hir).2 (Nat.not_lt_of_le hkr), fun v hv ty he => ?_⟩
      exact absurd (ho v hv r ty he) (Nat.not_lt_of_le (Nat.le_trans hk hkr))
    · rcases List.mem_cons.mp hj with rfl | hj
      · exact fun v hv ty he => absurd (ho v hv r ty he) (Nat.not_lt_of_le (hr r hjr).1)
      · exact ih.self j hj r hjr

end Numbered

/-- From `s` to `t` the generator inserts `is`, with the registers it takes, and makes the operand `v`. -/
structure Yields (s : State) (is : List Inst) (v : Value) (t : State) : Prop where
  emits : Emits s is t
  numbered : Numbered s.nextReg is t.nextReg
  below : Below t.nextReg v

section Yields
variable {s t u : State} {is js : List Inst} {v x : Value}

theorem Yields.refl (h : Below s.nextReg v) : Yields s [] v s := ⟨.refl s, .nil, h⟩

theorem Yields.log {e : ScopeEvent} (h : Yields (s.log e) is v t) : Yields s is v t :=
  ⟨(Emits.log e).trans h.emits, h.numbered, h.below⟩

theorem Yields.trans (h₁ : Yields s is x u) (h₂ : Yields u js v t) : Yields s (is ++ js) v t :=
  ⟨h₁.emits.trans h₂.emits, h₁.numbered.append h₂.numbered, h₂.below⟩

/-- An operand of before is still one. -/
theorem Yields.keep (h : Yields s is v t) (hx : Below s.nextReg x) : Below t.nextReg x := hx.mono h.numbered.le

theorem Yields.emit {mk : Reg → Inst} {ty : Ty} (hp : Plain (mk s.nextReg)) (hr : (mk s.nextReg).reg? = some s.nextReg)
    (ho : ∀ v ∈ (mk s.nextReg).operands, Below s.nextReg v) :
    Yields s [mk s.nextReg] (.inst s.nextReg ty) (s.emit mk) where
  emits := .emit hp
  numbered := by
    refine .cons ho (fun r h => ?_) (Nat.le_succ _) .nil
    obtain rfl := Option.some.inj (hr.symm.trans h)
    exact ⟨Nat.le_refl _, Nat.lt_succ_self _⟩
  below := below_inst (Nat.lt_succ_self _)

variable [ConstantFolder]

theorem createBinOp_yields {op : BinOp} {a b : Value} (h : createBinOp op a b s = .ok v t) (ha : Below s.nextReg a)
    (hb : Below s.nextReg b) : ∃ is, Yields s is v t := by
  rcases createBinOp_ok.mp h with ⟨_, _, -, -, rfl, rfl⟩ | ⟨-, rfl, rfl⟩
  · exact ⟨[], .refl below_const⟩
  · exact ⟨_, .emit ⟨rfl, rfl⟩ rfl (by simpa [Inst.operands] using ⟨ha, hb⟩)⟩

theorem createICmp_yields {p : Pred} {a b : Value} (h : createICmp p a b s = .ok v t) (ha : Below s.nextReg a)
    (hb : Below s.nextReg b) : ∃ is, Yields s is v t := by
  rcases createICmp_ok.mp h with ⟨_, _, -, -, rfl, rfl⟩ | ⟨-, rfl, rfl⟩
  · exact ⟨[], .refl below_const⟩
  · exact ⟨_, .emit ⟨rfl, rfl⟩ rfl (by simpa [Inst.operands] using ⟨ha, hb⟩)⟩

theorem createSelect_yields {c a b : Value} (h : createSelect c a b s = .ok v t) (hc : Below s.nextReg c)
    (ha : Below s.nextReg a) (hb : Below s.nextReg b) : ∃ is, Yields s is v t := by
  rcases createSelect_ok.mp h with ⟨_, _, _, -, -, -, rfl, rfl⟩ | ⟨-, rfl, rfl⟩
  · exact ⟨[], .refl below_const⟩
  · exact ⟨_, .emit ⟨rfl, rfl⟩ rfl (by simpa [Inst.operands] using ⟨hc, ha, hb⟩)⟩

theorem createIntCast_yields {a : Value} (h : createIntCast a s = .ok v t) (ha : Below s.nextReg a) :
    ∃ is, Yields s is v t := by
  rcases createIntCast_ok.mp h with ⟨-, rfl, rfl⟩ | ⟨-, ⟨_, -, rfl, rfl⟩ | ⟨-, rfl, rfl⟩⟩
  · exact ⟨[], .refl ha⟩
  · exact ⟨[], .refl below_const⟩
  · exact ⟨_, .emit ⟨rfl, rfl⟩ rfl (by simpa [Inst.operands] using ha)⟩

theorem createGEP_yields {ty : Ty} {p i j : Value} (h : createGEP ty p i j s = .ok v t) (hp : Below s.nextReg p)
    (hi : Below s.nextReg i) (hj : Below s.nextReg j) : ∃ is, Yields s is v t := by
  rcases createGEP_ok.mp h with ⟨_, _, _, -, -, -, rfl, rfl⟩ | ⟨-, rfl, rfl⟩
  · exact ⟨[], .refl below_const⟩
  · exact ⟨_, .emit ⟨rfl, rfl⟩ rfl (by simpa [Inst.operands] using ⟨hp, hi, hj⟩)⟩

theorem elementPtr_yields {a : AllocaInst} {i : Value} (h : elementPtr a i s = .ok v t) (hi : Below s.nextReg i) :
    ∃ is, Yields s is v t := by
  rcases elementPtr_ok h with ⟨-, rfl, rfl⟩ | ⟨-, rfl, rfl⟩
  · exact ⟨_, .emit ⟨rfl, rfl⟩ rfl (by simpa [Inst.operands] using ⟨below_alloca, below_const, hi⟩)⟩
  · have hl : Yields s _ (.inst s.nextReg .ptr) (s.emit (.load · .ptr a.value)) :=
      .emit ⟨rfl, rfl⟩ rfl (by simpa [Inst.operands] using below_alloca)
    exact ⟨_, hl.trans (.emit ⟨rfl, rfl⟩ rfl (by simpa [Inst.operands] using ⟨hl.below, hl.keep hi⟩))⟩

omit [ConstantFolder] in
theorem Yields.load {ty : Ty} {p : Value} (hp : Below s.nextReg p) :
    Yields s [.load s.nextReg ty p] (.inst s.nextReg ty) (s.emit (.load · ty p)) :=
  @Yields.emit s (.load · ty p) ty ⟨rfl, rfl⟩ rfl (by simpa [Inst.operands] using hp)

theorem getValue_yields {x : String} {sub : Option Value} (h : getValue x sub s = .ok v t)
    (hs : ∀ i, sub = some i → Below s.nextReg i) : ∃ is, Yields s is v t := by
  rcases getValue_ok h with ⟨nv, -, h⟩ | ⟨-, h⟩
  · rcases createGetValueInst_ok h with ⟨-, -, rfl, rfl⟩ | ⟨-, -, rfl, rfl⟩ | ⟨i, p, u, hi, hp, rfl, rfl⟩
    · exact ⟨_, .log (.emit ⟨rfl, rfl⟩ rfl (by simpa [Inst.operands] using ⟨below_alloca, below_const⟩))⟩
    · exact ⟨_, .log (.load below_alloca)⟩
    · obtain ⟨is, hu⟩ := elementPtr_yields hp (hs i hi)
      exact ⟨_, .log (hu.trans (.load hu.below))⟩
  · obtain ⟨g, -, ⟨-, -, ⟨c, -, rfl⟩, rfl⟩ | ⟨-, -, rfl, rfl⟩ | ⟨i, p, u, hi, hp, rfl, rfl⟩⟩ := getGlobalValue_ok h
    · exact ⟨[], .log (.refl below_const)⟩
    · exact ⟨_, .log (.load below_const)⟩
    · obtain ⟨is, hu⟩ := createGEP_yields (globalElementPtr_ok.mp hp) below_const below_const (hs i hi)
      exact ⟨_, .log (hu.trans (.load hu.below))⟩

mutual

/-- The code of an expression is numbered. -/
theorem genExp_yields : ∀ (e : Exp) {s t : State} {v : Value}, genExp e s = .ok v t → ∃ is, Yields s is v t
  | .number n, s, t, v, h => by
    rw [genExp] at h
    obtain ⟨rfl, rfl⟩ := pure_ok.mp h
    exact ⟨[], .refl below_const⟩
  | .name x, s, t, v, h => by
    rw [genExp] at h
    exact getValue_yields h fun _ hi => by cases hi
  | .index x e, s, t, v, h => by
    obtain ⟨i, u, hi, h⟩ := genExp_index_ok.mp h
    obtain ⟨is, h₁⟩ := genExp_yields e hi
    obtain ⟨js, h₂⟩ := getValue_yields h fun j hj => Option.some.inj hj ▸ h₁.below
    exact ⟨_, h₁.trans h₂⟩
  | .call f args, s, t, v, h => by
    obtain ⟨func, vs, u, -, -, hvs, rfl, rfl⟩ := genExp_call_ok.mp h
    obtain ⟨is, e, hn, hb⟩ := genExps_yields args hvs
    have hc : Yields u _ (.inst u.nextReg func.retTy) _ :=
      @Yields.emit u (.call · func.name func.retTy vs ("call_" ++ f)) func.retTy ⟨rfl, rfl⟩ rfl hb
    exact ⟨_, e.trans hc.emits, hn.append hc.numbered, hc.below⟩
  | .unary op e, s, t, v, h => by
    obtain ⟨x, u, hx, h⟩ := genExp_unary_ok.mp h
    obtain ⟨is, h₁⟩ := genExp_yields e hx
    cases op with
    | plus =>
      obtain ⟨rfl, rfl⟩ := h
      exact ⟨_, h₁⟩
    | minus =>
      obtain ⟨js, h₂⟩ := createBinOp_yields h.2 below_const h₁.below
      exact ⟨_, h₁.trans h₂⟩
    | not =>
      obtain ⟨b, w, hb, h⟩ := h
      obtain ⟨js, h₂⟩ := createICmp_yields hb below_const h₁.below
      obtain ⟨ks, h₃⟩ := createIntCast_yields h h₂.below
      exact ⟨_, h₁.trans (h₂.trans h₃)⟩
  | .arith op a b, s, t, v, h => by
    obtain ⟨x, u, y, w, hx, hy, h⟩ := genExp_arith_ok.mp h
    obtain ⟨is, h₁⟩ := genExp_yields a hx
    obtain ⟨js, h₂⟩ := genExp_yields b hy
    -- The left operand was numbered before the code of the right one.
    obtain ⟨ks, h₃⟩ := createBinOp_yields h (h₂.keep h₁.below) h₂.below
    exact ⟨_, h₁.trans (h₂.trans h₃)⟩
  | .cmp p a b, s, t, v, h => by
    obtain ⟨x, u, y, w, c, k, hx, hy, hc, h⟩ := genExp_cmp_ok.mp h
    obtain ⟨is, h₁⟩ := genExp_yields a hx
    obtain ⟨js, h₂⟩ := genExp_yields b hy
    obtain ⟨ks, h₃⟩ := createICmp_yields hc (h₂.keep h₁.below) h₂.below
    obtain ⟨ls, h₄⟩ := createIntCast_yields h h₃.below
    exact ⟨_, h₁.trans (h₂.trans (h₃.trans h₄))⟩
  | .land a b, s, t, v, h => by
    obtain ⟨lv, rv, w, c, k, ⟨x, u, m, y, n, hx, hl, hy, hr⟩, hc, h⟩ := genExp_land_ok.mp h
    obtain ⟨is, h₁⟩ := genExp_yields a hx
    obtain ⟨js, h₂⟩ := createICmp_yields hl below_const h₁.below
    obtain ⟨ks, h₃⟩ := genExp_yields b hy
    obtain ⟨ls, h₄⟩ := createICmp_yields hr below_const h₃.below
    obtain ⟨ms, h₅⟩ := createSelect_yields hc (h₄.keep (h₃.keep h₂.below)) h₄.below below_const
    obtain ⟨ns, h₆⟩ := createIntCast_yields h h₅.below
    exact ⟨_, h₁.trans (h₂.trans (h₃.trans (h₄.trans (h₅.trans h₆))))⟩
  | .lor a b, s, t, v, h => by
    obtain ⟨lv, rv, w, c, k, ⟨x, u, m, y, n, hx, hl, hy, hr⟩, hc, h⟩ := genExp_lor_ok.mp h
    obtain ⟨is, h₁⟩ := genExp_yields a hx
    obtain ⟨js, h₂⟩ := createICmp_yields hl below_const h₁.below
    obtain ⟨ks, h₃⟩ := genExp_yields b hy
    obtain ⟨ls, h₄⟩ := createICmp_yields hr below_const h₃.below
    obtain ⟨ms, h₅⟩ := createSelect_yields hc (h₄.keep (h₃.keep h₂.below)) below_const h₄.below
    obtain ⟨ns, h₆⟩ := createIntCast_yields h h₅.below
    exact ⟨_, h₁.trans (h₂.trans (h₃.trans (h₄.trans (h₅.trans h₆))))⟩

/-- The code of arguments is numbered, and stands before their use. -/
theorem genExps_yields : ∀ (es : List Exp) {s t : State} {vs : List Value}, genExps es s = .ok vs t →
    ∃ is, Emits s is t ∧ Numbered s.nextReg is t.nextReg ∧ ∀ v ∈ vs, Below t.nextReg v
  | [], s, t, vs, h => by
    obtain ⟨rfl, rfl⟩ := genExps_nil_ok.mp h
    exact ⟨[], .refl _, .nil, by simp⟩
  | e :: es, s, t, vs, h => by
    obtain ⟨x, u, xs, hx, hxs, rfl⟩ := genExps_cons_ok.mp h
    obtain ⟨is, h₁⟩ := genExp_yields e hx
    obtain ⟨js, e₂, hn, hb⟩ := genExps_yields es hxs
    refine ⟨_, h₁.emits.trans e₂, h₁.numbered.append hn, fun v hv => ?_⟩
    rcases List.mem_cons.mp hv with rfl | hv
    · exact h₁.below.mono hn.le
    · exact hb v hv

end

end Yields

end L24
