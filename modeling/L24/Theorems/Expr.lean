import L24.Theorems.Emit

/-! The generation of an expression: what each form generates, and that all of it goes to the end of
    the insertion block. -/

namespace L24
open Ir

/-! ### Reading a name -/

section Read
variable {s t : State} {v : Value}

variable [ConstantFolder]

theorem elementPtr_ok {a : AllocaInst} {i : Value} (h : elementPtr a i s = .ok v t) :
    ((∃ n elt, a.ty = .array n elt) ∧ v = .inst s.nextReg .ptr ∧
      t = s.emit (.gep · a.ty a.value [.const (.int 0), i])) ∨
    ((∀ n elt, a.ty ≠ .array n elt) ∧ v = .inst (s.nextReg + 1) .ptr ∧
      t = (s.emit (.load · .ptr a.value)).emit (.gep · .i64 (.inst s.nextReg .ptr) [i])) := by
  obtain ⟨slot, ty⟩ := a
  unfold elementPtr at h
  cases ty with
  | array n elt => simpa [createGEP_ok, AllocaInst.value] using h
  | _ =>
    obtain ⟨q, w, hq, h⟩ := bind_ok.mp h
    obtain ⟨-, rfl, rfl⟩ := createLoad_ok.mp hq
    obtain ⟨rfl, rfl⟩ := createInBoundsGEP_ok.mp h
    exact Or.inr ⟨by simp, rfl, rfl⟩

theorem createGetValueInst_ok {a : AllocaInst} {sub : Option Value} (h : createGetValueInst a sub s = .ok v t) :
    (sub = none ∧ (∃ n elt, a.ty = .array n elt) ∧ v = .inst s.nextReg .ptr ∧
      t = s.emit (.gep · a.ty a.value [.const (.int 0), .const (.int 0)])) ∨
    (sub = none ∧ (∀ n elt, a.ty ≠ .array n elt) ∧ v = .inst s.nextReg a.ty ∧
      t = s.emit (.load · a.ty a.value)) ∨
    (∃ i p u, sub = some i ∧ elementPtr a i s = .ok p u ∧ v = .inst u.nextReg .i64 ∧
      t = u.emit (.load · .i64 p)) := by
  cases sub with
  | some i =>
    obtain ⟨p, u, hp, h⟩ := bind_ok.mp h
    exact Or.inr (Or.inr ⟨i, p, u, rfl, hp, (createLoad_ok.mp h).2⟩)
  | none =>
    obtain ⟨slot, ty⟩ := a
    unfold createGetValueInst at h
    cases ty with
    | array n elt => simpa [createGEP_ok, AllocaInst.value] using h
    | _ => exact Or.inr (Or.inl ⟨rfl, by simp, (createLoad_ok.mp h).2⟩)

theorem globalElementPtr_ok {g : GlobalVariable} {i : Value} : globalElementPtr g i s = .ok v t ↔
    createGEP g.valueTy (.const (.global g.name g.valueTy))
      (.const (if g.valueTy = .i64 then .int 0 else .illInt)) i s = .ok v t := by
  rw [globalElementPtr]

theorem getGlobalValue_ok {x : String} {sub : Option Value} (h : getGlobalValue x sub s = .ok v t) :
    ∃ g, s.global? x = some g ∧
    ((sub = none ∧ s.namedValues = [] ∧ (∃ c, g.init = some c ∧ v = .const c) ∧ t = s) ∨
     (sub = none ∧ s.namedValues ≠ [] ∧ v = .inst s.nextReg g.valueTy ∧
       t = s.emit (.load · g.valueTy (.const (.global g.name g.valueTy)))) ∨
     (∃ i p u, sub = some i ∧ globalElementPtr g i s = .ok p u ∧ v = .inst u.nextReg g.valueTy ∧
       t = u.emit (.load · g.valueTy p))) := by
  obtain ⟨g, w, hg, hv⟩ := bind_ok.mp h
  clear h
  obtain ⟨hg, rfl⟩ := requireGlobal_ok.mp hg
  refine ⟨g, hg, ?_⟩
  cases sub with
  | some i =>
    obtain ⟨p, u, hp, h⟩ := bind_ok.mp hv
    exact Or.inr (Or.inr ⟨i, p, u, rfl, hp, (createLoad_ok.mp h).2⟩)
  | none =>
    simp only [get_bind] at hv
    cases hn : State.namedValues _ with
    | nil =>
      rw [hn, List.isEmpty_nil, if_pos rfl] at hv
      obtain ⟨c, _, hc, hp⟩ := bind_ok.mp hv
      obtain ⟨hi, rfl⟩ := deref_ok.mp hc
      obtain ⟨rfl, rfl⟩ := pure_ok.mp hp
      exact Or.inl ⟨rfl, rfl, ⟨c, hi, rfl⟩, rfl⟩
    | cons layer outer =>
      rw [hn, List.isEmpty_cons, if_neg Bool.false_ne_true] at hv
      exact Or.inr (Or.inl ⟨rfl, by simp, (createLoad_ok.mp hv).2⟩)

theorem getValue_local {x : String} {sub : Option Value} {nv : NamedValue} (h : s.lookup x = some nv) :
    getValue x sub s = createGetValueInst nv.alloca sub (s.log (.read x sub.isSome (some (.local nv.alloca)))) := by
  have hst : s.storage? x = some (.local nv.alloca) := by rw [State.storage?, h]
  have hl : (s.log (.read x sub.isSome (s.storage? x))).lookup x = some nv := h
  refine (bind_of_ok (a := ⟨⟩) (modify_ok.mpr rfl)).trans ?_
  rw [get_bind, hl, hst]

theorem getValue_global {x : String} {sub : Option Value} (h : s.lookup x = none) :
    getValue x sub s = getGlobalValue x sub (s.log (.read x sub.isSome (s.storage? x))) := by
  have hl : (s.log (.read x sub.isSome (s.storage? x))).lookup x = none := h
  refine (bind_of_ok (a := ⟨⟩) (modify_ok.mpr rfl)).trans ?_
  rw [get_bind, hl]

/-- Outside all functions the name of a global is its initialiser. -/
theorem getGlobalValue_folds {x : String} {g : GlobalVariable} {c : Const} (hg : s.global? x = some g)
    (hn : s.namedValues = []) (hi : g.init = some c) : getGlobalValue x none s = .ok (.const c) s := by
  refine (bind_of_ok (requireGlobal_ok.mpr ⟨hg, rfl⟩)).trans ?_
  simp only [get_bind, hn, List.isEmpty_nil, ↓reduceIte]
  exact bind_of_ok (deref_ok.mpr ⟨hi, rfl⟩)

/-- In a function a global without a subscript is loaded. -/
theorem getGlobalValue_load {x : String} {g : GlobalVariable} (hg : s.global? x = some g) (hn : s.namedValues ≠ []) :
    getGlobalValue x none s = createLoad g.valueTy (.const (.global g.name g.valueTy)) s := by
  refine (bind_of_ok (requireGlobal_ok.mpr ⟨hg, rfl⟩)).trans ?_
  simp only [get_bind]
  rw [if_neg (by simpa using hn)]

theorem createGetValueInst_scalar {a : AllocaInst} (ht : a.ty = .i64) :
    createGetValueInst a none = createLoad .i64 a.value := by
  unfold createGetValueInst
  rw [ht]

theorem getValue_ok {x : String} {sub : Option Value} (h : getValue x sub s = .ok v t) :
    (∃ nv, s.lookup x = some nv ∧
      createGetValueInst nv.alloca sub (s.log (.read x sub.isSome (s.storage? x))) = .ok v t) ∨
    (s.lookup x = none ∧ getGlobalValue x sub (s.log (.read x sub.isSome (s.storage? x))) = .ok v t) := by
  obtain ⟨w, hw, hget⟩ := seq_ok.mp h
  obtain rfl := modify_ok.mp hw
  rw [get_bind] at hget
  have hl : (s.log (.read x sub.isSome (s.storage? x))).lookup x = s.lookup x := rfl
  rw [hl] at hget
  cases hx : s.lookup x with
  | none =>
    rw [hx] at hget
    exact Or.inr ⟨rfl, hget⟩
  | some nv =>
    rw [hx] at hget
    exact Or.inl ⟨nv, rfl, hget⟩

theorem elementPtr_emits {a : AllocaInst} {i : Value} (h : elementPtr a i s = .ok v t) : ∃ is, Emits s is t := by
  rcases elementPtr_ok h with ⟨-, -, rfl⟩ | ⟨-, -, rfl⟩
  · exact ⟨_, .emit ⟨rfl, rfl⟩⟩
  · exact ⟨_, (Emits.emit ⟨rfl, rfl⟩).trans (.emit ⟨rfl, rfl⟩)⟩

theorem createGetValueInst_emits {a : AllocaInst} {sub : Option Value}
    (h : createGetValueInst a sub s = .ok v t) : ∃ is, Emits s is t := by
  rcases createGetValueInst_ok h with ⟨-, -, -, rfl⟩ | ⟨-, -, -, rfl⟩ | ⟨i, p, u, -, hp, -, rfl⟩
  · exact ⟨_, .emit ⟨rfl, rfl⟩⟩
  · exact ⟨_, .emit ⟨rfl, rfl⟩⟩
  · obtain ⟨is, hu⟩ := elementPtr_emits hp
    exact ⟨_, hu.trans (.emit ⟨rfl, rfl⟩)⟩

theorem createGEP_emits {ty : Ty} {p i j : Value} (h : createGEP ty p i j s = .ok v t) : ∃ is, Emits s is t := by
  rcases createGEP_ok.mp h with ⟨_, _, _, -, -, -, -, rfl⟩ | ⟨-, -, rfl⟩
  · exact ⟨_, .refl _⟩
  · exact ⟨_, .emit ⟨rfl, rfl⟩⟩

theorem getGlobalValue_emits {x : String} {sub : Option Value} (h : getGlobalValue x sub s = .ok v t) :
    ∃ is, Emits s is t := by
  obtain ⟨g, -, ⟨-, -, -, rfl⟩ | ⟨-, -, -, rfl⟩ | ⟨i, p, u, -, hp, -, rfl⟩⟩ := getGlobalValue_ok h
  · exact ⟨_, .refl _⟩
  · exact ⟨_, .emit ⟨rfl, rfl⟩⟩
  · obtain ⟨is, hu⟩ := createGEP_emits (globalElementPtr_ok.mp hp)
    exact ⟨_, hu.trans (.emit ⟨rfl, rfl⟩)⟩

theorem getValue_emits {x : String} {sub : Option Value} (h : getValue x sub s = .ok v t) : ∃ is, Emits s is t := by
  rcases getValue_ok h with ⟨nv, -, h⟩ | ⟨-, h⟩
  · obtain ⟨is, hu⟩ := createGetValueInst_emits h
    exact ⟨_, (Emits.log _).trans hu⟩
  · obtain ⟨is, hu⟩ := getGlobalValue_emits h
    exact ⟨_, (Emits.log _).trans hu⟩

end Read

/-! ### The forms of an expression -/

section Forms
variable {s t : State} {v : Value}

variable [ConstantFolder]

theorem genExp_index_ok {x : String} {e : Exp} : genExp (.index x e) s = .ok v t ↔
    ∃ i u, genExp e s = .ok i u ∧ getValue x (some i) u = .ok v t := by
  rw [genExp, bind_ok]

theorem genExp_call_ok {f : String} {args : List Exp} : genExp (.call f args) s = .ok v t ↔
    ∃ func vs u, s.function? f = some func ∧ func.params.length = args.length ∧
      genExps args s = .ok vs u ∧ v = .inst u.nextReg func.retTy ∧
      t = u.emit (.call · func.name func.retTy vs ("call_" ++ f)) := by
  rw [genExp]
  simp only [bind_ok, requireFunction_ok, and_assoc, exists_and_left, exists_eq_left]
  refine exists_congr fun func => ⟨?_, ?_⟩
  · rintro ⟨hf, h⟩
    by_cases hn : func.params.length = args.length
    · rw [if_neg (not_not_intro hn)] at h
      simp only [bind_ok, createCall_ok] at h
      obtain ⟨vs, u, hvs, rfl, rfl⟩ := h
      exact ⟨hf, hn, vs, u, hvs, rfl, rfl⟩
    · rw [if_pos hn, bind_ok] at h
      obtain ⟨_, _, h, -⟩ := h
      exact (logError_ok.mp h).elim
  · rintro ⟨hf, hn, vs, u, hvs, rfl, rfl⟩
    refine ⟨hf, ?_⟩
    rw [if_neg (not_not_intro hn)]
    simp only [bind_ok, createCall_ok]
    exact ⟨vs, u, hvs, rfl, rfl⟩

theorem genExp_unary_ok {op : UnaryOp} {e : Exp} : genExp (.unary op e) s = .ok v t ↔
    ∃ x u, genExp e s = .ok x u ∧ (match op with
      | .plus => v = x ∧ t = u
      | .minus => x.ty ≠ .void ∧ createBinOp .sub (.const (nullValue x.ty)) x u = .ok v t
      | .not => ∃ b w, createICmp .eq (.const (.int 0)) x u = .ok b w ∧ createIntCast b w = .ok v t) := by
  rw [genExp, bind_ok]
  refine exists_congr fun x => exists_congr fun u => and_congr_right fun _ => ?_
  cases op with
  | plus => exact pure_ok
  | minus => exact createNeg_ok
  | not => exact bind_ok

theorem genExp_arith_ok {op : BinOp} {a b : Exp} : genExp (.arith op a b) s = .ok v t ↔
    ∃ x u y w, genExp a s = .ok x u ∧ genExp b u = .ok y w ∧ createBinOp op x y w = .ok v t := by
  rw [genExp]
  simp only [bind_ok, exists_and_left]

theorem genExp_cmp_ok {p : Pred} {a b : Exp} : genExp (.cmp p a b) s = .ok v t ↔
    ∃ x u y w c k, genExp a s = .ok x u ∧ genExp b u = .ok y w ∧ createICmp p x y w = .ok c k ∧
      createIntCast c k = .ok v t := by
  rw [genExp]
  simp only [bind_ok, booleanToInt, exists_and_left]

/-- The two operands of a logical operator, each compared with zero. -/
def LogicalOperands (a b : Exp) (s : State) (lv rv : Value) (t : State) : Prop :=
  ∃ x u w y k, genExp a s = .ok x u ∧ createICmp .ne (.const (.int 0)) x u = .ok lv w ∧
    genExp b w = .ok y k ∧ createICmp .ne (.const (.int 0)) y k = .ok rv t

theorem genExp_lor_ok {a b : Exp} : genExp (.lor a b) s = .ok v t ↔
    ∃ lv rv w c k, LogicalOperands a b s lv rv w ∧
      createSelect lv (.const (.bool true)) rv w = .ok c k ∧ createIntCast c k = .ok v t := by
  rw [genExp]
  simp only [bind_ok, booleanToInt, intToBoolean, createLogicalOr, LogicalOperands]
  constructor
  · rintro ⟨x, u, hx, lv, w, hl, y, k, hy, rv, m, hr, c, n, hc, h⟩
    exact ⟨lv, rv, m, c, n, ⟨x, u, w, y, k, hx, hl, hy, hr⟩, hc, h⟩
  · rintro ⟨lv, rv, m, c, n, ⟨x, u, w, y, k, hx, hl, hy, hr⟩, hc, h⟩
    exact ⟨x, u, hx, lv, w, hl, y, k, hy, rv, m, hr, c, n, hc, h⟩

theorem genExp_land_ok {a b : Exp} : genExp (.land a b) s = .ok v t ↔
    ∃ lv rv w c k, LogicalOperands a b s lv rv w ∧
      createSelect lv rv (.const (.bool false)) w = .ok c k ∧ createIntCast c k = .ok v t := by
  rw [genExp]
  simp only [bind_ok, booleanToInt, intToBoolean, createLogicalAnd, LogicalOperands]
  constructor
  · rintro ⟨x, u, hx, lv, w, hl, y, k, hy, rv, m, hr, c, n, hc, h⟩
    exact ⟨lv, rv, m, c, n, ⟨x, u, w, y, k, hx, hl, hy, hr⟩, hc, h⟩
  · rintro ⟨lv, rv, m, c, n, ⟨x, u, w, y, k, hx, hl, hy, hr⟩, hc, h⟩
    exact ⟨x, u, hx, lv, w, hl, y, k, hy, rv, m, hr, c, n, hc, h⟩

theorem genExps_cons_ok {e : Exp} {es : List Exp} {vs : List Value} : genExps (e :: es) s = .ok vs t ↔
    ∃ x u xs, genExp e s = .ok x u ∧ genExps es u = .ok xs t ∧ vs = x :: xs := by
  rw [genExps]
  simp only [bind_ok, pure_ok]
  constructor
  · rintro ⟨x, u, hx, xs, _, hxs, rfl, rfl⟩
    exact ⟨x, u, xs, hx, hxs, rfl⟩
  · rintro ⟨x, u, xs, hx, hxs, rfl⟩
    exact ⟨x, u, hx, xs, t, hxs, rfl, rfl⟩

theorem genExps_nil_ok {vs : List Value} : genExps [] s = .ok vs t ↔ vs = [] ∧ t = s := by
  rw [genExps]; exact pure_ok

end Forms

section Emission
variable {s t : State} {v : Value}

variable [ConstantFolder]

theorem createBinOp_emits {op : BinOp} {a b : Value} (h : createBinOp op a b s = .ok v t) : ∃ is, Emits s is t := by
  rcases createBinOp_ok.mp h with ⟨_, _, -, -, -, rfl⟩ | ⟨-, -, rfl⟩
  · exact ⟨_, .refl _⟩
  · exact ⟨_, .emit ⟨rfl, rfl⟩⟩

theorem createICmp_emits {p : Pred} {a b : Value} (h : createICmp p a b s = .ok v t) : ∃ is, Emits s is t := by
  rcases createICmp_ok.mp h with ⟨_, _, -, -, -, rfl⟩ | ⟨-, -, rfl⟩
  · exact ⟨_, .refl _⟩
  · exact ⟨_, .emit ⟨rfl, rfl⟩⟩

theorem createSelect_emits {c x y : Value} (h : createSelect c x y s = .ok v t) : ∃ is, Emits s is t := by
  rcases createSelect_ok.mp h with ⟨_, _, _, -, -, -, -, rfl⟩ | ⟨-, -, rfl⟩
  · exact ⟨_, .refl _⟩
  · exact ⟨_, .emit ⟨rfl, rfl⟩⟩

theorem createIntCast_emits {a : Value} (h : createIntCast a s = .ok v t) : ∃ is, Emits s is t := by
  rcases createIntCast_ok.mp h with ⟨-, -, rfl⟩ | ⟨-, ⟨_, -, -, rfl⟩ | ⟨-, -, rfl⟩⟩
  · exact ⟨_, .refl _⟩
  · exact ⟨_, .refl _⟩
  · exact ⟨_, .emit ⟨rfl, rfl⟩⟩

mutual

/-- All an expression generates goes to the end of the insertion block. -/
theorem genExp_emits : ∀ (e : Exp) {s t : State} {v : Value}, genExp e s = .ok v t → ∃ is, Emits s is t
  | .number n, s, t, v, h => by
    rw [genExp] at h
    obtain ⟨-, rfl⟩ := pure_ok.mp h
    exact ⟨[], .refl _⟩
  | .name x, s, t, v, h => by
    rw [genExp] at h
    exact getValue_emits h
  | .index x e, s, t, v, h => by
    obtain ⟨i, u, hi, h⟩ := genExp_index_ok.mp h
    obtain ⟨is, e₁⟩ := genExp_emits e hi
    obtain ⟨js, e₂⟩ := getValue_emits h
    exact ⟨_, e₁.trans e₂⟩
  | .call f args, s, t, v, h => by
    obtain ⟨func, vs, u, -, -, hvs, -, rfl⟩ := genExp_call_ok.mp h
    obtain ⟨is, e₁⟩ := genExps_emits args hvs
    exact ⟨_, e₁.trans (.emit ⟨rfl, rfl⟩)⟩
  | .unary op e, s, t, v, h => by
    obtain ⟨x, u, hx, h⟩ := genExp_unary_ok.mp h
    obtain ⟨is, e₁⟩ := genExp_emits e hx
    -- `+` emits nothing of its own, `-` a subtraction from zero, `!` a comparison and a cast.
    cases op with
    | plus =>
      obtain ⟨-, rfl⟩ := h
      exact ⟨_, e₁⟩
    | minus =>
      obtain ⟨js, e₂⟩ := createBinOp_emits h.2
      exact ⟨_, e₁.trans e₂⟩
    | not =>
      obtain ⟨b, w, hb, h⟩ := h
      obtain ⟨js, e₂⟩ := createICmp_emits hb
      obtain ⟨ks, e₃⟩ := createIntCast_emits h
      exact ⟨_, e₁.trans (e₂.trans e₃)⟩
  | .arith op a b, s, t, v, h => by
    obtain ⟨x, u, y, w, hx, hy, h⟩ := genExp_arith_ok.mp h
    obtain ⟨is, e₁⟩ := genExp_emits a hx
    obtain ⟨js, e₂⟩ := genExp_emits b hy
    obtain ⟨ks, e₃⟩ := createBinOp_emits h
    exact ⟨_, e₁.trans (e₂.trans e₃)⟩
  | .cmp p a b, s, t, v, h => by
    obtain ⟨x, u, y, w, c, k, hx, hy, hc, h⟩ := genExp_cmp_ok.mp h
    obtain ⟨is, e₁⟩ := genExp_emits a hx
    obtain ⟨js, e₂⟩ := genExp_emits b hy
    obtain ⟨ks, e₃⟩ := createICmp_emits hc
    obtain ⟨ls, e₄⟩ := createIntCast_emits h
    exact ⟨_, e₁.trans (e₂.trans (e₃.trans e₄))⟩
  | .land a b, s, t, v, h => by
    obtain ⟨lv, rv, w, c, k, ⟨x, u, m, y, n, hx, hl, hy, hr⟩, hc, h⟩ := genExp_land_ok.mp h
    obtain ⟨is, e₁⟩ := genExp_emits a hx
    obtain ⟨js, e₂⟩ := createICmp_emits hl
    obtain ⟨ks, e₃⟩ := genExp_emits b hy
    -- Both operands are emitted before the selection between them.
    obtain ⟨ls, e₄⟩ := createICmp_emits hr
    obtain ⟨ms, e₅⟩ := createSelect_emits hc
    obtain ⟨ns, e₆⟩ := createIntCast_emits h
    exact ⟨_, e₁.trans (e₂.trans (e₃.trans (e₄.trans (e₅.trans e₆))))⟩
  | .lor a b, s, t, v, h => by
    obtain ⟨lv, rv, w, c, k, ⟨x, u, m, y, n, hx, hl, hy, hr⟩, hc, h⟩ := genExp_lor_ok.mp h
    obtain ⟨is, e₁⟩ := genExp_emits a hx
    obtain ⟨js, e₂⟩ := createICmp_emits hl
    obtain ⟨ks, e₃⟩ := genExp_emits b hy
    obtain ⟨ls, e₄⟩ := createICmp_emits hr
    obtain ⟨ms, e₅⟩ := createSelect_emits hc
    obtain ⟨ns, e₆⟩ := createIntCast_emits h
    exact ⟨_, e₁.trans (e₂.trans (e₃.trans (e₄.trans (e₅.trans e₆))))⟩

theorem genExps_emits : ∀ (es : List Exp) {s t : State} {vs : List Value}, genExps es s = .ok vs t →
    ∃ is, Emits s is t
  | [], s, t, vs, h => by
    obtain ⟨-, rfl⟩ := genExps_nil_ok.mp h
    exact ⟨[], .refl _⟩
  | e :: es, s, t, vs, h => by
    obtain ⟨x, u, xs, hx, hxs, -⟩ := genExps_cons_ok.mp h
    obtain ⟨is, e₁⟩ := genExp_emits e hx
    obtain ⟨js, e₂⟩ := genExps_emits es hxs
    exact ⟨_, e₁.trans e₂⟩

end

theorem codeGenExp_emits {e : ExprNode} (h : codeGenExp e s = .ok v t) : ∃ is, Emits s is t :=
  genExp_emits e.core (codeGenExp_core e ▸ h)

end Emission

end L24
