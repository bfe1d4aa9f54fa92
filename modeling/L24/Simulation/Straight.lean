import L24.Simulation.Match

/-! Instructions that compute a value from the operands in a frame, one after the other: they run in any module, on
    any stack, and leave memory alone. -/

namespace L24
open Ir Relation Steps

/-- From `s` to `t` instructions are inserted that compute the value `c` of the operand `v` in the frame `fr`. -/
def Runs (s t : State) (v : Value) (c : Const) (fr : Frame) (mem : Mem) : Prop :=
  ∃ is fr', Emits s is t ∧ Keeps s.nextReg fr fr' ∧ Holds fr' t.nextReg v c ∧
    ∀ {W : Type} (M : Module) (ext : Ext W) (stack : List Frame) (w : W) (rest : List Inst),
      Reaches (step M ext) (.run { fr with code := is ++ rest } stack mem w)
      (.run { fr' with code := rest } stack mem w)

@[simp] theorem eval_code (fr : Frame) (code : List Inst) (v : Value) :
    ({ fr with code := code } : Frame).eval v = fr.eval v := by
  cases v <;> rfl

section Runs
variable {s t u : State} {v a b x y : Value} {c d : Const} {fr : Frame} {mem : Mem}

theorem Runs.operand (hv : Holds fr s.nextReg v c) : Runs s s v c fr mem :=
  ⟨[], fr, .refl s, .refl fr, hv, fun _ _ _ _ _ => .refl _⟩

theorem Runs.literal : Runs s s (.const c) c fr mem := .operand (.literal c)

/-- An inserted instruction with the result `c`. -/
theorem Runs.emit {mk : Reg → Inst} {ty : Ty} (hp : Plain (mk s.nextReg)) (hty : ty = c.ty)
    (hx : ∀ {W : Type} (M : Module) (ext : Ext W) (stack : List Frame) (w : W) (code : List Inst),
      exec M ext (mk s.nextReg) { fr with code } stack mem w =
        some (.run (({ fr with code } : Frame).setReg s.nextReg c.eval) stack mem w)) :
    Runs s (s.emit mk) (.inst s.nextReg ty) c fr mem :=
  ⟨_, fr.setReg s.nextReg c.eval, .emit hp, .setReg (Nat.le_refl _), .setReg (Nat.lt_succ_self _) hty,
    fun M ext stack w rest => .single (hx M ext stack w rest)⟩

/-- One operation after the other. -/
theorem Runs.bind (h : Runs s u v c fr mem)
    (k : ∀ fr', Keeps s.nextReg fr fr' → Holds fr' u.nextReg v c → Runs u t x d fr' mem) : Runs s t x d fr mem := by
  obtain ⟨is, fr₁, e₁, k₁, v₁, h₁⟩ := h
  obtain ⟨js, fr₂, e₂, k₂, v₂, h₂⟩ := k fr₁ k₁ v₁
  refine ⟨is ++ js, fr₂, e₁.trans e₂, k₁.trans k₂ e₁.nextReg, v₂, fun M ext stack w rest => ?_⟩
  rw [List.append_assoc]
  exact (h₁ M ext stack w (js ++ rest)).trans (h₂ M ext stack w rest)

variable [ConstantFolder]

theorem createBinOp_runs {op : BinOp} {i j k : BitVec 64} (h : createBinOp op a b s = .ok v t)
    (ha : Holds fr s.nextReg a (.int i)) (hb : Holds fr s.nextReg b (.int j)) (hk : op.eval i j = some k) :
    Runs s t v (.int k) fr mem := by
  rcases createBinOp_ok.mp h with ⟨c, d, rfl, rfl, rfl, rfl⟩ | ⟨-, rfl, rfl⟩
  · rw [ha.const c rfl, hb.const d rfl, BinOp.fold_eval hk]
    exact .literal
  · refine .emit ⟨rfl, rfl⟩ ha.ty fun M ext stack w code => ?_
    simp only [exec, eval_code, ha.eval, hb.eval, Const.eval, hk, Option.map_some]

theorem createICmp_runs {q : Pred} {i j : BitVec 64} (h : createICmp q a b s = .ok v t)
    (ha : Holds fr s.nextReg a (.int i)) (hb : Holds fr s.nextReg b (.int j)) :
    Runs s t v (.bool (q.eval i j)) fr mem := by
  rcases createICmp_ok.mp h with ⟨c, d, rfl, rfl, rfl, rfl⟩ | ⟨-, rfl, rfl⟩
  · rw [ha.const c rfl, hb.const d rfl]
    exact .literal
  · refine .emit ⟨rfl, rfl⟩ rfl fun M ext stack w code => ?_
    simp only [exec, eval_code, ha.eval, hb.eval, Const.eval]

theorem createSelect_runs {i j k : Bool} (h : createSelect a x y s = .ok v t) (ha : Holds fr s.nextReg a (.bool i))
    (hx : Holds fr s.nextReg x (.bool j)) (hy : Holds fr s.nextReg y (.bool k)) :
    Runs s t v (.bool (if i then j else k)) fr mem := by
  rcases createSelect_ok.mp h with ⟨c, d, f, rfl, rfl, rfl, rfl, rfl⟩ | ⟨-, rfl, rfl⟩
  · rw [ha.const c rfl, hx.const d rfl, hy.const f rfl]
    cases i <;> exact .literal
  · refine .emit ⟨rfl, rfl⟩ hx.ty fun M ext stack w code => ?_
    simp only [exec, eval_code, ha.eval, hx.eval, hy.eval, Const.eval]
    cases i <;> rfl

theorem createIntCast_runs {i : Bool} (h : createIntCast a s = .ok v t) (ha : Holds fr s.nextReg a (.bool i)) :
    Runs s t v (.int (boolToInt i)) fr mem := by
  rcases createIntCast_ok.mp h with ⟨hty, -, -⟩ | ⟨-, ⟨c, rfl, rfl, rfl⟩ | ⟨-, rfl, rfl⟩⟩
  · rw [ha.ty] at hty
    cases hty
  · rw [ha.const c rfl]
    exact .literal
  · refine .emit ⟨rfl, rfl⟩ rfl fun M ext stack w code => ?_
    simp only [exec, eval_code, ha.eval, Const.eval]

end Runs

/-! ### Code that runs to its end -/

/-- The code leads from the one frame and memory to the other, in any module and on any stack, and changes no register
    below `n`. -/
structure Executes (n : Nat) (is : List Inst) (fr : Frame) (mem : Mem) (fr' : Frame) (mem' : Mem) : Prop where
  keeps : Keeps n fr fr'
  reaches : ∀ {W : Type} (M : Module) (ext : Ext W) (stack : List Frame) (w : W) (rest : List Inst),
    Reaches (step M ext) (.run { fr with code := is ++ rest } stack mem w) (.run { fr' with code := rest } stack mem' w)

section Executes
variable {n m : Nat} {is js : List Inst} {fr fr' fr'' : Frame} {mem mem' mem'' : Mem} {b : Blk} {off : Int}
    {v p : Value}
  {ty : Ty} {x : Val} {k : BitVec 64}

theorem Executes.nil : Executes n [] fr mem fr mem := ⟨.refl fr, fun _ _ _ _ _ => .refl _⟩

theorem Executes.append (h₁ : Executes n is fr mem fr' mem') (h₂ : Executes m js fr' mem' fr'' mem'') (hn : n ≤ m) :
    Executes n (is ++ js) fr mem fr'' mem'' := by
  refine ⟨h₁.keeps.trans h₂.keeps hn, fun M ext stack w rest => ?_⟩
  rw [List.append_assoc]
  exact (h₁.reaches M ext stack w (js ++ rest)).trans (h₂.reaches M ext stack w rest)

/-- The code is executed where it stands. -/
theorem Executes.run {W : Type} {rest : List Inst} (h : Executes n is fr mem fr' mem') (hc : fr.code = is ++ rest)
    (M : Module) (ext : Ext W) (stack : List Frame) (w : W) :
    Reaches (step M ext) (.run fr stack mem w) (.run { fr' with code := rest } stack mem' w) := by
  have hr := h.reaches M ext stack w rest
  rwa [← hc] at hr

theorem executes_store (hv : fr.eval v = some x) (hp : fr.eval p = some (.ptr b off))
    (hx : mem.store b off x = some mem') : Executes n [.store v p] fr mem fr mem' := by
  refine ⟨.refl fr, fun M ext stack w rest => .single ?_⟩
  show exec M ext (.store v p) { fr with code := rest } stack mem w = _
  simp only [exec, eval_code, hv, hp, hx, Option.map_some]

theorem executes_gep {idx : List Value} {d : Int} (hp : fr.eval p = some (.ptr b off))
    (hd : (idx.mapM fr.eval).bind (gepOffset ty) = some d) :
    Executes n [.gep n ty p idx] fr mem (fr.setReg n (.ptr b (off + d))) mem := by
  refine ⟨@Keeps.setReg fr n n _ fr.code (Nat.le_refl n), fun M ext stack w rest => .single ?_⟩
  show exec M ext (.gep n ty p idx) { fr with code := rest } stack mem w = _
  have he : ({ fr with code := rest } : Frame).eval = fr.eval := funext fun v => eval_code fr rest v
  simp only [exec, he, hp, hd]
  rfl

theorem eval_int {z : BitVec 64} : fr.eval (.const (.int z)) = some (.int z) := rfl

theorem executes_gep_array {i : Value} {r : Int} (hp : fr.eval p = some (.ptr b r)) (hk : fr.eval i = some (.int k)) :
    Executes n [.gep n (.array m .i64) p [.const (.int 0), i]] fr mem (fr.setReg n (.ptr b (r + k.toInt))) mem := by
  refine executes_gep hp ?_
  rw [List.mapM_cons, List.mapM_cons, hk, eval_int]
  simp [gepOffset, Ty.cells]

theorem eval_setReg {z : Val} : (fr.setReg n z).eval (.inst n ty) = some z := Function.update_self ..

end Executes

end L24
