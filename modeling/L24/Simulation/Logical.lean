import L24.Theorems.Registers
import L24.Theorems.Flow

/-! Logical operators: the code of both operands is executed, whatever the value of the first one, and the result is
    0 or 1. -/

namespace L24
open Ir

/-! ### Constants of literal expressions -/

section Constants
variable {c : Const}

theorem eq_int_of_eval {a : BitVec 64} (h : Numeric c) (he : c.eval = .int a) : c = .int a := by
  cases c with
  | int i =>
    obtain rfl : i = a := Val.int.inj he
    rfl
  | poison _ => cases he
  | _ => cases h

theorem eq_bool_of_eval {b : Bool} (he : c.eval = .bool b) : c = .bool b := by
  cases c with
  | bool b' =>
    cases he
    rfl
  | gep ty p i j =>
    unfold Const.eval at he
    split at he <;> cases he
  | zero ty => cases ty <;> cases he
  | _ => cases he

end Constants

/-! ### Logical instructions -/

/-- A constant operand is a number. -/
def Proper (v : Value) : Prop := ∀ c, v = .const c → Numeric c

section Logic
variable {s t : State} {v x y z : Value}

variable [ConstantFolder]

omit [ConstantFolder] in
theorem Folds.proper {e : Exp} (h : Folds e.literal e.fold s v t) : Proper v := by
  intro c hc
  rcases h with ⟨he, hv, -⟩ | ⟨-, hv, -⟩
  · obtain rfl := Value.const.inj (hv.symm.trans hc)
    exact e.fold_numeric he
  · rw [hc] at hv
    cases hv

/-- The generator inserts logical instructions; in a frame where they have computed their results, the operand `v` has
    the value that `val` gives. -/
structure Logic (s : State) (js : List Inst) (v : Value) (t : State) (val : Frame → Val → Prop) : Prop where
  yields : Yields s js v t
  logic : ∀ i ∈ js, i.isLogic = true
  eval : ∀ fr c, (∀ i ∈ js, Computes fr i) → val fr c → fr.eval v = some c

omit [ConstantFolder] in
theorem plain_of_isLogic {i : Inst} (h : i.isLogic = true) : Plain i := by
  cases i with
  | icmp _ _ _ _ | select _ _ _ _ | zext _ _ _ => exact ⟨rfl, rfl⟩
  | _ => cases h

omit [ConstantFolder] in
theorem Logic.const {c : Const} {val : Frame → Val → Prop} (h : ∀ fr k, val fr k → c.eval = k) :
    Logic s [] (.const c) s val := ⟨.refl below_const, by simp, fun fr k _ hk => congrArg some (h fr k hk)⟩

omit [ConstantFolder] in
theorem Logic.emit {mk : Reg → Inst} {ty : Ty} {val : Frame → Val → Prop} (hl : (mk s.nextReg).isLogic = true)
    (hr : (mk s.nextReg).reg? = some s.nextReg) (ho : ∀ v ∈ (mk s.nextReg).operands, Below s.nextReg v)
    (h : ∀ fr c, val fr c → (mk s.nextReg).compute? fr = some c) :
    Logic s [mk s.nextReg] (.inst s.nextReg ty) (s.emit mk) val where
  yields := .emit (plain_of_isLogic hl) hr ho
  logic := by simpa using hl
  eval fr c hc hk := by
    obtain ⟨d, hd, hreg⟩ := hc _ (List.mem_singleton_self _) _ hl hr
    obtain rfl := Option.some.inj ((h fr c hk).symm.trans hd)
    exact hreg

theorem createICmp_logic {p : Pred} (h : createICmp p x y s = .ok v t) (hx : Proper x) (hy : Proper y)
    (bx : Below s.nextReg x) (yx : Below s.nextReg y) : v.ty = .i1 ∧ ∃ js, Logic s js v t fun fr c =>
      ∃ i j, fr.eval x = some (.int i) ∧ fr.eval y = some (.int j) ∧ c = .bool (p.eval i j) := by
  rcases createICmp_ok.mp h with ⟨c, d, rfl, rfl, rfl, rfl⟩ | ⟨-, rfl, rfl⟩
  · refine ⟨predFold_ty .., [], .const fun fr k hk => ?_⟩
    obtain ⟨i, j, hi, hj, rfl⟩ := hk
    obtain rfl := eq_int_of_eval (hx _ rfl) (Option.some.inj hi)
    obtain rfl := eq_int_of_eval (hy _ rfl) (Option.some.inj hj)
    rfl
  · refine ⟨rfl, _, .emit rfl rfl (by simpa [Inst.operands] using ⟨bx, yx⟩) fun fr k hk => ?_⟩
    obtain ⟨i, j, hi, hj, rfl⟩ := hk
    rw [Inst.compute?, hi, hj]

theorem createSelect_logic (h : createSelect z x y s = .ok v t) (hx : x.ty = .i1) (hy : y.ty = .i1)
    (bz : Below s.nextReg z) (bx : Below s.nextReg x) (yx : Below s.nextReg y) : v.ty = .i1 ∧
      ∃ js, Logic s js v t fun fr c => ∃ b d e, fr.eval z = some (.bool b) ∧ fr.eval x = some d ∧ fr.eval y = some e ∧
        c = if b then d else e := by
  rcases createSelect_ok.mp h with ⟨k, d, e, rfl, rfl, rfl, rfl, rfl⟩ | ⟨-, rfl, rfl⟩
  · refine ⟨?_, [], .const fun fr c hc => ?_⟩
    · exact (foldSelect_ty _ (hx.trans hy.symm)).trans hx
    · obtain ⟨b, d', e', hb, hd, he, rfl⟩ := hc
      obtain rfl := eq_bool_of_eval (Option.some.inj hb)
      obtain rfl := Option.some.inj hd
      obtain rfl := Option.some.inj he
      cases b <;> rfl
  · refine ⟨hx, _, .emit rfl rfl (by simpa [Inst.operands] using ⟨bz, bx, yx⟩) fun fr c hc => ?_⟩
    obtain ⟨b, d, e, hb, hd, he, rfl⟩ := hc
    rw [Inst.compute?, hb, hd, he]

theorem createIntCast_logic (h : createIntCast x s = .ok v t) (hx : x.ty = .i1) (bx : Below s.nextReg x) :
    ∃ js, Logic s js v t fun fr c => ∃ b, fr.eval x = some (.bool b) ∧ c = .int (boolToInt b) := by
  rcases createIntCast_ok.mp h with ⟨hi, -, -⟩ | ⟨-, ⟨c, rfl, rfl, rfl⟩ | ⟨-, rfl, rfl⟩⟩
  · rw [hx] at hi
    cases hi
  · refine ⟨[], .const fun fr k hk => ?_⟩
    obtain ⟨b, hb, rfl⟩ := hk
    obtain rfl := eq_bool_of_eval (Option.some.inj hb)
    rfl
  · refine ⟨_, .emit rfl rfl (by simpa [Inst.operands] using bx) fun fr k hk => ?_⟩
    obtain ⟨b, hb, rfl⟩ := hk
    rw [Inst.compute?, hb]

omit [ConstantFolder] in
/-- What follows keeps the value. -/
theorem Logic.mono {js : List Inst} {val val' : Frame → Val → Prop} (h : Logic s js v t val)
    (hv : ∀ fr c, (∀ i ∈ js, Computes fr i) → val' fr c → val fr c) : Logic s js v t val' :=
  ⟨h.yields, h.logic, fun fr c hc hk => h.eval fr c hc (hv fr c hc hk)⟩

omit [ConstantFolder] in
theorem Logic.trans {u : State} {js ks : List Inst} {val val' : Frame → Val → Prop} (h₁ : Logic s js x u val)
    (h₂ : Logic u ks v t val') :
    Logic s (js ++ ks) v t fun fr c => ∃ d, val fr d ∧ (fr.eval x = some d → val' fr c) where
  yields := h₁.yields.trans h₂.yields
  logic i hi := (List.mem_append.mp hi).elim (h₁.logic i) (h₂.logic i)
  eval fr c hc hk := by
    obtain ⟨d, hd, hval⟩ := hk
    have hx := h₁.eval fr d (fun i hi => hc i (List.mem_append_left _ hi)) hd
    exact h₂.eval fr c (fun i hi => hc i (List.mem_append_right _ hi)) (hval hx)

theorem intToBoolean_logic (h : intToBoolean x s = .ok v t) (hx : Proper x) (bx : Below s.nextReg x) : v.ty = .i1 ∧
    ∃ js, Logic s js v t fun fr c => ∃ i, fr.eval x = some (.int i) ∧ c = .bool (i != 0) := by
  obtain ⟨hv, js, hl⟩ := createICmp_logic h (fun _ hc => by cases hc; trivial) hx below_const bx
  refine ⟨hv, js, hl.mono fun fr c _ hk => ?_⟩
  obtain ⟨i, hi, rfl⟩ := hk
  exact ⟨0, i, rfl, hi, congrArg Val.bool (bne_comm ..)⟩

end Logic

/-! ### Both operands -/

/-- The code of a logical operator: of its operands `x` and `y`, and what makes booleans of them and combines them. -/
structure LogicalCode where
  x : Value
  y : Value
  is₁ : List Inst
  js₁ : List Inst
  is₂ : List Inst
  js₂ : List Inst

namespace LogicalCode

/-- All of it, in the order in which it stands in the block. -/
def code (c : LogicalCode) : List Inst := c.is₁ ++ (c.js₁ ++ (c.is₂ ++ c.js₂))

variable [ConstantFolder]

/-- From `s` to `t` the generator inserts this code, where `genA` and `genB` generate the operands. -/
def Emitted (genA genB : CG Value) (s : State) (c : LogicalCode) (t : State) : Prop :=
  ∃ u l m w, genA s = .ok c.x u ∧ Emits s c.is₁ u ∧ intToBoolean c.x u = .ok l m ∧ Emits u c.js₁ m ∧
    genB m = .ok c.y w ∧ Emits m c.is₂ w ∧ Emits w c.js₂ t ∧ ∀ i ∈ c.js₁ ++ c.js₂, i.isLogic = true

/-- Wherever a frame runs this code, it executes all of it in order and once, as far as it gets: no value leads around
    the second operand. And where it has run all of it, `v` is `f` of the operands' truth values. -/
def EvaluatesBoth (f : Bool → Bool → Bool) (c : LogicalCode) (v : Value) : Prop :=
  ∀ (W : Type) (M : Module) (ext : Ext W) (fr : Frame) (stack : List Frame) (mem : Mem) (w : W) (rest : List Inst)
    (n : Nat), fr.code = c.code ++ rest → let es := executed M ext stack.length n (.run fr stack mem w)
      (es <+: c.code ∨ c.code <+: es) ∧ ∀ fr' mem' w', Steps.runs (step M ext) n (.run fr stack mem w) =
        some (.run fr' stack mem' w') → es = c.code → ∀ i j, fr'.eval c.x = some (.int i) →
          fr'.eval c.y = some (.int j) → fr'.eval v = some (.int (boolToInt (f (i != 0) (j != 0))))

end LogicalCode

section Both
variable {s t w : State} {a b : Exp} {lv rv v : Value} {f : Bool → Bool → Bool}

theorem isPlain_of_plain {i : Inst} (h : Plain i) : i.isPlain = true := by
  rw [Inst.isPlain, h.1, h.2]
  rfl

variable [ConstantFolder]

/-- The operands' booleans, and the instructions that combine them to `v`. -/
theorem LogicalOperands.evaluatesBoth (hn : s.namedValues ≠ []) (h : LogicalOperands a b s lv rv w)
    (hc : lv.ty = .i1 → rv.ty = .i1 → Below w.nextReg lv → Below w.nextReg rv → ∃ ks, Logic w ks v t fun fr c =>
      ∃ p q, fr.eval lv = some (.bool p) ∧ fr.eval rv = some (.bool q) ∧ c = .int (boolToInt (f p q))) :
    ∃ c : LogicalCode, c.Emitted (genExp a) (genExp b) s t ∧ c.EvaluatesBoth f v := by
  obtain ⟨x, u, m, y, k, hx, hl, hy, hr⟩ := h
  obtain ⟨is₁, y₁⟩ := genExp_yields a hx
  obtain ⟨tl, js₁, l₁⟩ := intToBoolean_logic hl (genExp_folds a hn hx).proper y₁.below
  have hn' : m.namedValues ≠ [] := by
    rw [l₁.yields.emits.namedValues, y₁.emits.namedValues]
    exact hn
  obtain ⟨is₂, y₂⟩ := genExp_yields b hy
  obtain ⟨tr, js₂, l₂⟩ := intToBoolean_logic hr (genExp_folds b hn' hy).proper y₂.below
  obtain ⟨ks, l₃⟩ := hc tl tr (l₂.yields.keep (y₂.keep l₁.yields.below)) l₂.yields.below
  have hcode := y₁.trans (l₁.yields.trans (y₂.trans (l₂.yields.trans l₃.yields)))
  refine ⟨⟨x, y, is₁, js₁, is₂, js₂ ++ ks⟩, ⟨u, lv, m, k, hx, y₁.emits, hl, l₁.yields.emits, hy, y₂.emits,
    (l₂.yields.trans l₃.yields).emits, ?_⟩, ?_⟩
  · intro i hi
    rcases List.mem_append.mp hi with hi | hi
    · exact l₁.logic i hi
    · exact (List.mem_append.mp hi).elim (l₂.logic i) (l₃.logic i)
  · intro W M ext fr stack mem w rest n hfr es
    obtain ⟨hes, hrun⟩ := @straight_run W M ext stack rest n fr mem w _ hfr
      hcode.numbered.ssa fun i hi => isPlain_of_plain (hcode.emits.plain i hi)
    refine ⟨hes, fun fr' mem' w' hr he i j hi hj => ?_⟩
    have hcomp : ∀ e ∈ is₁ ++ (js₁ ++ (is₂ ++ (js₂ ++ ks))), Computes fr' e := hrun fr' mem' w' hr he
    simp only [List.mem_append] at hcomp
    have hlv := l₁.eval fr' _ (fun e he => hcomp e (by simp [he])) ⟨i, hi, rfl⟩
    have hrv := l₂.eval fr' _ (fun e he => hcomp e (by simp [he])) ⟨j, hj, rfl⟩
    exact l₃.eval fr' _ (fun e he => hcomp e (by simp [he])) ⟨_, _, hlv, hrv, rfl⟩

theorem genExp_lor_evaluatesBoth (hn : s.namedValues ≠ []) (h : genExp (.lor a b) s = .ok v t) :
    ∃ c : LogicalCode, c.Emitted (genExp a) (genExp b) s t ∧ c.EvaluatesBoth (· || ·) v := by
  obtain ⟨lv, rv, w, c, k, ho, hs, hv⟩ := genExp_lor_ok.mp h
  refine ho.evaluatesBoth hn fun _ tr bl br => ?_
  obtain ⟨tc, js, l₁⟩ := createSelect_logic hs rfl tr bl below_const br
  obtain ⟨ks, l₂⟩ := createIntCast_logic hv tc l₁.yields.below
  refine ⟨_, (l₁.trans l₂).mono fun fr d _ hd => ?_⟩
  obtain ⟨p, q, hp, hq, rfl⟩ := hd
  exact ⟨.bool (p || q), ⟨p, _, _, hp, rfl, hq, by cases p <;> rfl⟩, fun hc => ⟨_, hc, rfl⟩⟩

theorem genExp_land_evaluatesBoth (hn : s.namedValues ≠ []) (h : genExp (.land a b) s = .ok v t) :
    ∃ c : LogicalCode, c.Emitted (genExp a) (genExp b) s t ∧ c.EvaluatesBoth (· && ·) v := by
  obtain ⟨lv, rv, w, c, k, ho, hs, hv⟩ := genExp_land_ok.mp h
  refine ho.evaluatesBoth hn fun _ tr bl br => ?_
  obtain ⟨tc, js, l₁⟩ := createSelect_logic hs tr rfl bl br below_const
  obtain ⟨ks, l₂⟩ := createIntCast_logic hv tc l₁.yields.below
  refine ⟨_, (l₁.trans l₂).mono fun fr d _ hd => ?_⟩
  obtain ⟨p, q, hp, hq, rfl⟩ := hd
  exact ⟨.bool (p && q), ⟨p, _, _, hp, hq, rfl, by cases p <;> rfl⟩, fun hc => ⟨_, hc, rfl⟩⟩

end Both

section
variable [ConstantFolder]

/-- The code of `a || b` and `a && b` in a function runs straight through both operands: it executes the code of `a` and
    then the code of `b`, each once, whatever the value of `a`. The result is 1 or 0, as the two values say. -/
theorem logical_evaluates_both {s t : State} {v : Value} (hn : s.namedValues ≠ []) :
    (∀ a b, codeGenLorExp (.lor a b) s = .ok v t → ∃ c : LogicalCode,
      c.Emitted (codeGenLorExp a) (codeGenLandExp b) s t ∧ c.EvaluatesBoth (· || ·) v) ∧
    (∀ a b, codeGenLandExp (.land a b) s = .ok v t → ∃ c : LogicalCode,
      c.Emitted (codeGenLandExp a) (codeGenEqExp b) s t ∧ c.EvaluatesBoth (· && ·) v) := by
  refine ⟨fun a b h => ?_, fun a b h => ?_⟩
  · rw [codeGenLorExp_core] at h
    rw [codeGenLorExp_core, codeGenLandExp_core]
    exact genExp_lor_evaluatesBoth hn h
  · rw [codeGenLandExp_core] at h
    rw [codeGenLandExp_core, codeGenEqExp_core]
    exact genExp_land_evaluatesBoth hn h

end

section
attribute [local instance] ConstantFolder.symbolic

/-! ### `1 || getint()` -/

/-- The expression `1`. -/
def oneNode : LorExprNode := .land (.eq (.rel (.add (.mul (.unary (.primary (.number ⟨1⟩)))))))

/-- The expression `getint()`. -/
def getintNode : LandExprNode := .eq (.rel (.add (.mul (.unary (.call "getint" [])))))

/-- `int main() { return 1 || getint(); }` -/
def lorMain : FuncNode where
  type := .int
  ident := "main"
  param := []
  block := [.stmt (.ret (some (.mk (.lor oneNode getintNode))))]

/-- The state where the body of `main` begins. -/
def lorState : State := lorMain.start State.library

/-- The call that the right operand becomes. -/
def lorCall : Inst := .call 0 "getint" .i64 [] "call_getint"

/-- The pieces of the code of `1 || getint()`. -/
def lorPieces : LogicalCode where
  x := .const (.int 1)
  y := .inst 0 .i64
  is₁ := []
  js₁ := []
  is₂ := [lorCall]
  js₂ := [.icmp 1 .ne (.const (.int 0)) (.inst 0 .i64),
    .select 2 (.const (.bool true)) (.const (.bool true)) (.inst 1 .i1), .zext 3 (.inst 2 .i1) .i64]

/-- The state behind it. -/
def lorEnd : State := (((lorState.emit fun _ => lorCall).emit (.icmp · .ne (.const (.int 0)) (.inst 0 .i64))).emit
  (.select · (.const (.bool true)) (.const (.bool true)) (.inst 1 .i1))).emit (.zext · (.inst 2 .i1) .i64)

theorem lor_generated : codeGenLorExp (.lor oneNode getintNode) lorState = .ok (.inst 3 .i64) lorEnd := rfl

theorem lor_emitted : lorPieces.Emitted (codeGenLorExp oneNode) (codeGenLandExp getintNode) lorState lorEnd := by
  refine ⟨lorState, .const (.bool true), lorState, lorState.emit fun _ => lorCall, rfl, .refl _, rfl, .refl _, rfl,
    @Emits.emit _ (fun _ => lorCall) ⟨rfl, rfl⟩, ?_, by decide⟩
  exact (@Emits.emit _ (.icmp · .ne (.const (.int 0)) (.inst 0 .i64)) ⟨rfl, rfl⟩).trans
    ((@Emits.emit _ (.select · (.const (.bool true)) (.const (.bool true)) (.inst 1 .i1)) ⟨rfl, rfl⟩).trans
      (@Emits.emit _ (.zext · (.inst 2 .i1) .i64) ⟨rfl, rfl⟩))

theorem logical_evaluates_both_main : lorState.namedValues ≠ [] ∧ ∃ c : LogicalCode,
    c.Emitted (codeGenLorExp oneNode) (codeGenLandExp getintNode) lorState lorEnd ∧
      c.EvaluatesBoth (· || ·) (.inst 3 .i64) :=
  ⟨by decide, (logical_evaluates_both (by decide)).1 _ _ lor_generated⟩

/-- Short-circuit evaluation of `||`: where the first operand's value is not zero, no instruction of the second one is
    executed. -/
def ShortCircuits : Prop :=
  ∀ (a : LorExprNode) (b : LandExprNode) (s t : State) (v : Value) (c : LogicalCode), s.namedValues ≠ [] →
    codeGenLorExp (.lor a b) s = .ok v t → c.Emitted (codeGenLorExp a) (codeGenLandExp b) s t →
    ∀ (W : Type) (M : Module) (ext : Ext W) (fr : Frame) (stack : List Frame) (mem : Mem) (w : W) (rest : List Inst)
      (n : Nat) (fr' : Frame) (mem' : Mem) (w' : W) (i : BitVec 64), fr.code = c.code ++ rest →
      Steps.runs (step M ext) n (.run fr stack mem w) = some (.run fr' stack mem' w') →
      fr'.eval c.x = some (.int i) → i ≠ 0 → ∀ e ∈ c.is₂, e ∉ executed M ext stack.length n (.run fr stack mem w)

theorem not_shortCircuits : ¬ ShortCircuits := by
  intro h
  let main : Function := { name := "main", retTy := .i64, params := [], blocks := [(0, lorPieces.code)] }
  have hcall := h _ _ _ _ _ _ (by decide) lor_generated lor_emitted Unit lorEnd.toModule
    (fun _ _ mem w => some (some (.int 7), mem, w)) (Frame.enter main [] (lorPieces.code ++ []) 0) []
    (Mem.initial []) () [] 1 _ _ _ 1 rfl rfl rfl (by decide) lorCall List.mem_cons_self
  exact hcall List.mem_cons_self

end

end L24
