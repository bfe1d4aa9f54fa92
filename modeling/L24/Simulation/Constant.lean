import L24.Simulation.Expr
import L24.Theorems.Initialisers

/-! Expressions of numbers, operators and names of global scalars: outside all functions the builder folds one to its
    value, and in a function the code of the same expression computes that value, as long as the global variables
    hold their initial values. -/

namespace L24
open Ir Relation Steps

/-- The value of an expression of numbers, operators and names of scalars with the values `val`. Both operands of
    `&&` and `||` are evaluated. -/
def Exp.constValue (val : String → Option (BitVec 64)) : Exp → Option (BitVec 64)
  | .number v => some v
  | .name x => val x
  | .index _ _ | .call _ _ => none
  | .unary op e => do
    let x ← e.constValue val
    some (op.eval x)
  | .arith op a b => do
    let x ← a.constValue val
    let y ← b.constValue val
    op.eval x y
  | .cmp p a b => do
    let x ← a.constValue val
    let y ← b.constValue val
    some (boolToInt (p.eval x y))
  | .land a b => do
    let x ← a.constValue val
    let y ← b.constValue val
    some (boolToInt (x != 0 && y != 0))
  | .lor a b => do
    let x ← a.constValue val
    let y ← b.constValue val
    some (boolToInt (x != 0 || y != 0))

/-- The name reaches a global scalar with the initialiser `n`. -/
def State.GlobalScalar (s : State) (x : String) (n : BitVec 64) : Prop :=
  s.lookup x = none ∧ ∃ g, s.global? x = some g ∧ g.valueTy = .i64 ∧ g.init = some (.int n)

/-- The global variables hold their initial values. -/
def InitialGlobals (s : State) (mem : Mem) : Prop :=
  ∀ x g, s.global? x = some g → mem.cells (.global x) = Mem.initialCells g

/-- The name reaches a scalar, and in the activation it has the value `n`. -/
inductive ScalarAt (s : State) (x : String) (fr : Frame) (mem : Mem) (n : BitVec 64) : Prop
  | «local» {nv : NamedValue} {k : Nat} (hl : s.lookup x = some nv) (ht : nv.alloca.ty = .i64)
      (hk : fr.slots nv.alloca.slot = some k) (hc : mem.cell? (.stack k) 0 = some (.int n)) : ScalarAt s x fr mem n
  | global {g : GlobalVariable} (hl : s.lookup x = none) (hg : s.global? x = some g) (ht : g.valueTy = .i64)
      (hc : mem.cell? (.global x) 0 = some (.int n)) : ScalarAt s x fr mem n

/-- Generation has gone on, and the frame with it. -/
structure Moved (s : State) (fr : Frame) (t : State) (fr' : Frame) : Prop where
  scope : SameScope s t
  regs : s.nextReg ≤ t.nextReg
  keeps : Keeps s.nextReg fr fr'

/-- An operand with the value `c`; outside all functions it is that constant. -/
structure Operand (s : State) (fr : Frame) (v : Value) (c : Const) : Prop where
  holds : Holds fr s.nextReg v c
  const : s.namedValues = [] → v = .const c

/-- What `m` generates computes the value `c`; outside all functions it is that constant. -/
def GenRuns (m : CG Value) (c : Const) (s : State) (fr : Frame) (mem : Mem) : Prop :=
  ∃ v t, m s = .ok v t ∧ Runs s t v c fr mem ∧ (s.namedValues = [] → v = .const c)

section GenRuns
variable {s t u : State} {v a b x y : Value} {c d : Const} {fr fr' fr'' : Frame} {mem : Mem} {m : CG Value}

theorem Moved.trans (h₁ : Moved s fr t fr') (h₂ : Moved t fr' u fr'') : Moved s fr u fr'' where
  scope := h₁.scope.trans h₂.scope
  regs := Nat.le_trans h₁.regs h₂.regs
  keeps := h₁.keeps.trans h₂.keeps h₁.regs

theorem Operand.keep (h : Operand s fr v c) (k : Moved s fr t fr') : Operand t fr' v c :=
  ⟨h.holds.keep k.keeps k.regs, fun hn => h.const (k.scope.namedValues.symm.trans hn)⟩

theorem Operand.literal (c : Const) : Operand s fr (.const c) c := ⟨.literal c, fun _ => rfl⟩

theorem GenRuns.operand (h : Operand s fr v c) : GenRuns (pure v) c s fr mem := ⟨v, s, rfl, .operand h.holds, h.const⟩

theorem GenRuns.bind {k : Value → CG Value} (h : GenRuns m c s fr mem)
    (hk : ∀ v t fr', Moved s fr t fr' → Operand t fr' v c → GenRuns (k v) d t fr' mem) :
    GenRuns (m >>= k) d s fr mem := by
  obtain ⟨v, t, hm, hr, hc⟩ := h
  have hr' := hr
  obtain ⟨is, fr₀, e, k₀, hv₀, -⟩ := hr'
  have next : ∀ fr', Keeps s.nextReg fr fr' → Holds fr' t.nextReg v c → GenRuns (k v) d t fr' mem := fun fr' k' hv' =>
    hk v t fr' ⟨e.sameScope, e.nextReg, k'⟩ ⟨hv', fun hn => hc (e.namedValues.symm.trans hn)⟩
  obtain ⟨x, u, hx, -, hc'⟩ := next fr₀ k₀ hv₀
  refine ⟨x, u, (bind_of_ok hm).trans hx, hr.bind fun fr' k' hv' => ?_, fun hn => hc' (e.namedValues.trans hn)⟩
  obtain ⟨x', u', hx', hr', -⟩ := next fr' k' hv'
  rw [hx] at hx'
  cases hx'
  exact hr'

/-- An operation of the builder with the value `c`, which folds if its operands are constants. -/
theorem GenRuns.create {form : Form} (hm : Makes Form.of m (.ok form) s)
    (hr : ∀ v t, m s = .ok v t → Runs s t v c fr mem) (hc : s.namedValues = [] → ∃ e, form = .const e) :
    GenRuns m c s fr mem := by
  obtain ⟨v, t, hv, rfl, -⟩ := hm
  refine ⟨v, t, hv, hr v t hv, fun hn => ?_⟩
  obtain ⟨e, he⟩ := hc hn
  obtain ⟨_, _, -, -, hx, -⟩ := hr v t hv
  cases v with
  | const e' => rw [hx.const e' rfl]
  | _ => cases he

variable [ConstantFolder]

theorem createBinOp_genRuns {op : BinOp} {i j k : BitVec 64} (ha : Operand s fr a (.int i))
    (hb : Operand s fr b (.int j))
    (hk : op.eval i j = some k) : GenRuns (createBinOp op a b) (.int k) s fr mem := by
  refine .create (createBinOp_makes op a b) (fun v t h => createBinOp_runs h ha.holds hb.holds hk) fun hn => ?_
  rw [ha.const hn, hb.const hn]
  exact ⟨_, rfl⟩

theorem createICmp_genRuns {q : Pred} {i j : BitVec 64} (ha : Operand s fr a (.int i)) (hb : Operand s fr b (.int j)) :
    GenRuns (createICmp q a b) (.bool (q.eval i j)) s fr mem := by
  refine .create (createICmp_makes q a b) (fun v t h => createICmp_runs h ha.holds hb.holds) fun hn => ?_
  rw [ha.const hn, hb.const hn]
  exact ⟨_, rfl⟩

theorem createSelect_genRuns {i j k : Bool} (ha : Operand s fr a (.bool i)) (hx : Operand s fr x (.bool j))
    (hy : Operand s fr y (.bool k)) : GenRuns (createSelect a x y) (.bool (if i then j else k)) s fr mem := by
  refine .create (createSelect_makes a x y) (fun v t h => createSelect_runs h ha.holds hx.holds hy.holds) fun hn => ?_
  rw [ha.const hn, hx.const hn, hy.const hn]
  exact ⟨_, rfl⟩

theorem createIntCast_genRuns {i : Bool} (ha : Operand s fr a (.bool i)) :
    GenRuns (createIntCast a) (.int (boolToInt i)) s fr mem := by
  refine .create (createIntCast_makes a) (fun v t h => createIntCast_runs h ha.holds) fun hn => ?_
  rw [ha.const hn]
  exact ⟨_, rfl⟩

/-- `booleanToInt` of an operation. -/
theorem GenRuns.cast {i : Bool} (h : GenRuns m (.bool i) s fr mem) :
    GenRuns (do createIntCast (← m)) (.int (boolToInt i)) s fr mem :=
  h.bind fun _ _ _ _ hv => createIntCast_genRuns hv

end GenRuns

/-! ### Expressions -/

section Exps
variable {val : String → Option (BitVec 64)} {s t : State} {fr fr' : Frame} {mem : Mem}

/-- What the names in an expression need: each reaches a global scalar with its value as initialiser. -/
structure Constants (val : String → Option (BitVec 64)) (s : State) (mem : Mem) : Prop where
  scalar : ∀ x n, val x = some n → s.GlobalScalar x n
  memory : s.namedValues ≠ [] → InitialGlobals s mem
  point : s.namedValues ≠ [] → s.insertPoint.isSome = true

theorem Constants.moved (h : Constants val s mem) (k : Moved s fr t fr') : Constants val t mem where
  scalar x n hx := by
    obtain ⟨hl, g, hg⟩ := h.scalar x n hx
    exact ⟨(k.scope.lookup x).trans hl, g, (k.scope.global? x).trans hg.1, hg.2⟩
  memory hn x g hg := h.memory (k.scope.namedValues ▸ hn) x g ((k.scope.global? x).symm.trans hg)
  point hn := by
    rw [k.scope.insertPoint]
    exact h.point (k.scope.namedValues ▸ hn)

variable [ConstantFolder]

theorem State.GlobalScalar.folds {x : String} {n : BitVec 64} (h : s.GlobalScalar x n) (hn : s.namedValues = []) :
    GenRuns (getValue x none) (.int n) s fr mem := by
  obtain ⟨hl, g, hg, hty, hi⟩ := h
  have hget : getValue x none s = .ok (.const (.int n)) (s.log (.read x false (s.storage? x))) :=
    (getValue_global hl).trans (getGlobalValue_folds (s := s.log (.read x false (s.storage? x))) hg hn hi)
  exact ⟨_, _, hget, ⟨[], fr, .log _, .refl fr, .literal _, fun _ _ _ _ _ => .refl _⟩, fun _ => rfl⟩

/-- A load of a scalar. -/
theorem load_genRuns {x : String} {n : BitVec 64} {p : Value} {b : Blk} (hn : s.namedValues ≠ [])
    (hget : getValue x none s =
    .ok (.inst s.nextReg .i64) ((s.log (.read x false (s.storage? x))).emit (.load · .i64 p)))
    (hp : fr.eval p = some (.ptr b 0)) (hc : mem.cell? b 0 = some (.int n)) :
    GenRuns (getValue x none) (.int n) s fr mem := by
  let u := s.log (.read x false (s.storage? x))
  have hload : Runs u (u.emit (.load · .i64 p)) (.inst u.nextReg .i64) (.int n) fr mem :=
    .emit ⟨rfl, rfl⟩ rfl fun M ext stack w code => exec_load ((eval_code ..).trans hp) hc
  obtain ⟨is, fr', e, hr⟩ := hload
  exact ⟨_, _, hget, ⟨_, fr', (Emits.log _).trans e, hr⟩, fun h => absurd h hn⟩

theorem ScalarAt.genRuns {x : String} {n : BitVec 64} (h : ScalarAt s x fr mem n) (hn : s.namedValues ≠ [])
    (hp : s.insertPoint.isSome = true) : GenRuns (getValue x none) (.int n) s fr mem := by
  cases h with
  | @«local» nv k hl ht hk hc =>
    have hst : s.storage? x = some (.local nv.alloca) := by rw [State.storage?, hl]
    refine load_genRuns hn ?_ (eval_alloca hk) hc
    rw [getValue_local hl, hst, createGetValueInst_scalar ht]
    exact createLoad_ok.mpr ⟨hp, rfl, rfl⟩
  | @global g hl hg ht hc =>
    refine load_genRuns (p := .const (.global x .i64)) hn ?_ eval_global hc
    refine (getValue_global hl).trans
      ((getGlobalValue_load (s := s.log (.read x false (s.storage? x))) hg hn).trans ?_)
    rw [ht, global?_name hg]
    exact createLoad_ok.mpr ⟨hp, rfl, rfl⟩

omit [ConstantFolder] in
theorem ScalarAt.moved {x : String} {n : BitVec 64} (h : ScalarAt s x fr mem n) (k : Moved s fr t fr') :
    ScalarAt t x fr' mem n := by
  cases h with
  | «local» hl ht hk hc => exact .local ((k.scope.lookup x).trans hl) ht (k.keeps.slots ▸ hk) hc
  | global hl hg ht hc => exact .global ((k.scope.lookup x).trans hl) ((k.scope.global? x).trans hg) ht hc

theorem getValue_genRuns {x : String} {n : BitVec 64} (h : Constants val s mem) (hx : val x = some n) :
    GenRuns (getValue x none) (.int n) s fr mem := by
  have hs := h.scalar x n hx
  by_cases hn : s.namedValues = []
  · exact hs.folds hn
  · obtain ⟨hl, g, hg, hty, hi⟩ := hs
    have hcells : mem.cells (.global x) = [.int n] := by
      rw [h.memory hn x g hg, Mem.initialCells, hi]
    exact ScalarAt.genRuns (.global hl hg hty (cell?_of_cells hcells (Int.le_refl 0) rfl)) hn (h.point hn)

/-- What is generated for the expression computes its value, if what is generated for its names does. -/
theorem genExp_genRuns_of {P : State → Frame → Prop} (moved : ∀ {s t fr fr'}, P s fr → Moved s fr t fr' → P t fr')
    (name : ∀ {s fr x n}, P s fr → val x = some n → GenRuns (getValue x none) (.int n) s fr mem) :
    ∀ (e : Exp) {s : State} {fr : Frame} {k : BitVec 64}, P s fr → e.constValue val = some k →
      GenRuns (genExp e) (.int k) s fr mem
  | .number n, s, fr, k, h, hk => by
    cases hk
    rw [genExp]
    exact .operand (.literal _)
  | .name x, s, fr, k, h, hk => by
    rw [genExp]
    exact name h hk
  | .index _ _, _, _, _, _, hk => by cases hk
  | .call _ _, _, _, _, _, hk => by cases hk
  | .unary op e, s, fr, k, h, hk => by
    obtain ⟨i, hi, hk⟩ := Option.bind_eq_some_iff.mp hk
    cases hk
    rw [genExp]
    refine (genExp_genRuns_of moved name e h hi).bind fun v t fr' _ hv => ?_
    cases op with
    | plus => exact .operand hv
    | minus =>
      unfold createNeg
      have hty : v.ty = .i64 := hv.holds.ty
      rw [hty, if_neg (by decide)]
      -- A sign is a difference from zero.
      exact createBinOp_genRuns (.literal (.int 0)) hv (by simp [BinOp.eval, UnaryOp.eval])
    | not =>
      rw [not_eval]
      exact GenRuns.cast (createICmp_genRuns (.literal (.int 0)) hv)
  | .arith op a b, s, fr, k, h, hk => by
    obtain ⟨i, hi, hk⟩ := Option.bind_eq_some_iff.mp hk
    obtain ⟨j, hj, hk⟩ := Option.bind_eq_some_iff.mp hk
    rw [genExp]
    refine (genExp_genRuns_of moved name a h hi).bind fun v t fr' k₁ hv => ?_
    refine (genExp_genRuns_of moved name b (moved h k₁) hj).bind fun w u fr'' k₂ hw => ?_
    exact createBinOp_genRuns (hv.keep k₂) hw hk
  | .cmp p a b, s, fr, k, h, hk => by
    obtain ⟨i, hi, hk⟩ := Option.bind_eq_some_iff.mp hk
    obtain ⟨j, hj, hk⟩ := Option.bind_eq_some_iff.mp hk
    cases hk
    rw [genExp]
    refine (genExp_genRuns_of moved name a h hi).bind fun v t fr' k₁ hv => ?_
    refine (genExp_genRuns_of moved name b (moved h k₁) hj).bind fun w u fr'' k₂ hw => ?_
    exact GenRuns.cast (createICmp_genRuns (hv.keep k₂) hw)
  | .land a b, s, fr, k, h, hk => by
    obtain ⟨i, hi, hk⟩ := Option.bind_eq_some_iff.mp hk
    obtain ⟨j, hj, hk⟩ := Option.bind_eq_some_iff.mp hk
    cases hk
    rw [genExp, and_eval]
    refine (genExp_genRuns_of moved name a h hi).bind fun v t fr₁ k₁ hv => ?_
    -- Each operand is made boolean behind its own code, and the first one lasts until the select.
    refine (createICmp_genRuns (.literal (.int 0)) hv).bind fun l u fr₂ k₂ hl => ?_
    refine (genExp_genRuns_of moved name b (moved (moved h k₁) k₂) hj).bind fun w t' fr₃ k₃ hw => ?_
    refine (createICmp_genRuns (.literal (.int 0)) hw).bind fun r u' fr₄ k₄ hr => ?_
    exact GenRuns.cast (createSelect_genRuns (hl.keep (k₃.trans k₄)) hr (.literal (.bool false)))
  | .lor a b, s, fr, k, h, hk => by
    obtain ⟨i, hi, hk⟩ := Option.bind_eq_some_iff.mp hk
    obtain ⟨j, hj, hk⟩ := Option.bind_eq_some_iff.mp hk
    cases hk
    rw [genExp, or_eval]
    refine (genExp_genRuns_of moved name a h hi).bind fun v t fr₁ k₁ hv => ?_
    refine (createICmp_genRuns (.literal (.int 0)) hv).bind fun l u fr₂ k₂ hl => ?_
    refine (genExp_genRuns_of moved name b (moved (moved h k₁) k₂) hj).bind fun w t' fr₃ k₃ hw => ?_
    refine (createICmp_genRuns (.literal (.int 0)) hw).bind fun r u' fr₄ k₄ hr => ?_
    exact GenRuns.cast (createSelect_genRuns (hl.keep (k₃.trans k₄)) (.literal (.bool true)) hr)

/-- What is generated for the expression computes its value. -/
theorem genExp_genRuns (e : Exp) {k : BitVec 64} (h : Constants val s mem) (hk : e.constValue val = some k) :
    GenRuns (genExp e) (.int k) s fr mem :=
  genExp_genRuns_of (fun h k => h.moved k) (fun h hx => getValue_genRuns h hx) e h hk

end Exps

/-! ### Initialisers -/

/-- Executed anywhere while the global variables hold their initial values, `is` leaves the value `k` in `v`. -/
def Evaluates (s : State) (is : List Inst) (v : Value) (k : BitVec 64) : Prop :=
  ∀ {W : Type} (M : Module) (ext : Ext W) (fr : Frame) (stack : List Frame) (mem : Mem) (w : W) (rest : List Inst),
    InitialGlobals s mem → fr.code = is ++ rest → ∃ fr',
      Reaches (step M ext) (.run fr stack mem w) (.run fr' stack mem w) ∧ fr'.code = rest ∧ fr'.eval v = some (.int k)

section Initialisers
variable {val : String → Option (BitVec 64)} {s t : State} {d : Def} {e : ExprNode} {k : BitVec 64}

variable [ConstantFolder]

/-- In a function, the code of an expression computes its value. -/
theorem codeGenExp_evaluates {func : Nat} (hf : InFunc func s) (hval : ∀ x n, val x = some n → s.GlobalScalar x n)
    (hk : e.core.constValue val = some k) :
    ∃ v t is, codeGenExp e s = .ok v t ∧ Emits s is t ∧ Evaluates s is v k := by
  obtain ⟨l, hl⟩ := hf.point
  have h₀ : InitialGlobals s (Mem.initial s.globals) := by
    intro x g hg
    rw [State.global?] at hg
    simp [Mem.initial, hg]
  have hrun : ∀ fr mem, InitialGlobals s mem → GenRuns (genExp e.core) (.int k) s fr mem := by
    intro fr mem hm
    exact genExp_genRuns e.core ⟨hval, fun _ => hm, fun _ => Option.isSome_of_eq_some hl⟩ hk
  obtain ⟨v, t, hv, hr, -⟩ := hrun ⟨⟨"", .void, [], []⟩, [], fun _ => none, fun _ => none, [], 0⟩ _ h₀
  obtain ⟨is, _, em, -⟩ := hr
  refine ⟨v, t, is, (codeGenExp_core e ▸ hv), em, ?_⟩
  intro W M ext fr stack mem w rest hm hcode
  obtain ⟨v', t', hv', ⟨js, fr', em', -, hx, hr⟩, -⟩ := hrun fr mem hm
  rw [hv] at hv'
  cases hv'
  cases em.unique hl em'
  have h := hr M ext stack w rest
  rw [← hcode] at h
  exact ⟨_, h, rfl, (eval_code ..).trans hx.eval⟩

/-- Outside all functions, the expression is folded to its value. -/
theorem codeGenExp_folds_value (hn : s.namedValues = []) (hval : ∀ x n, val x = some n → s.GlobalScalar x n)
    (hk : e.core.constValue val = some k) : ∃ t, codeGenExp e s = .ok (.const (.int k)) t ∧ SameScope s t := by
  have hc : Constants val s ⟨fun _ => [], 0⟩ := ⟨hval, fun h => absurd hn h, fun h => absurd hn h⟩
  obtain ⟨v, t, hv, ⟨is, _, em, -⟩, hx⟩ : GenRuns (genExp e.core) (.int k) s
    ⟨⟨"", .void, [], []⟩, [], fun _ => none, fun _ => none, [], 0⟩ ⟨fun _ => [], 0⟩ := genExp_genRuns e.core hc hk
  obtain rfl := hx hn
  exact ⟨t, codeGenExp_core e ▸ hv, em.sameScope⟩

/-- A new global scalar gets the value of its initial expression. -/
theorem Def.gen_constValue (hn : s.namedValues = []) (hval : ∀ x n, val x = some n → s.GlobalScalar x n)
    (hd : d.init = some (.exp e)) (hsize : d.exp = none) (hk : e.core.constValue val = some k)
    (hg : s.global? d.ident = none) (hf : s.function? d.ident = none) :
    ∃ t g, d.gen s = .ok () t ∧ t.globals = s.globals ++ [g] ∧ g.name = d.ident ∧ g.init = some (.int k) := by
  obtain ⟨t, ht, hs⟩ := codeGenExp_folds_value hn hval hk
  have hvals : initVals (some (.exp e)) 0 1 s = .ok [.const (.int k)] t :=
    initVals_cons_ok.mpr ⟨_, t, [], (initVal_exp rfl).trans ht, initVals_zero_ok.mpr ⟨rfl, rfl⟩, rfl⟩
  have hi : GenInit d.init d.exp s none [.const (.int k)] t := by
    rw [hsize, hd]
    exact ⟨rfl, hvals⟩
  have hdef : defineGlobalValue d.ident [.const (.int k)] none t = .ok () (t.addGlobal d.ident .i64 (.int k)) :=
    defineGlobalValue_ok.mpr ⟨(hs.global? _).trans hg, (hs.function? _).trans hf, Or.inl ⟨rfl, k, rfl, rfl⟩⟩
  have hgen : d.gen s = .ok () ((t.addGlobal d.ident .i64 (.int k)).log (.define d.ident d.ty (.global d.ident))) :=
    hi.gen.trans (defineValue_global (hs.namedValues.trans hn) hdef)
  exact ⟨_, _, hgen, congrArg (· ++ _) hs.globals, rfl, rfl⟩

/-- The initialiser of a global scalar is the value that the code of the same expression computes in a function while
    the global variables hold their initial values. -/
theorem initialiser_eq_executed {func : Nat} {s' : State} (hn : s.namedValues = []) (hf : InFunc func s')
    (hval : ∀ x n, val x = some n → s.GlobalScalar x n ∧ s'.GlobalScalar x n) (hd : d.init = some (.exp e))
    (hsize : d.exp = none) (hk : e.core.constValue val = some k) (hg : s.global? d.ident = none)
    (hx : s.function? d.ident = none) :
    (∃ t g, d.gen s = .ok () t ∧ t.globals = s.globals ++ [g] ∧ g.name = d.ident ∧ g.init = some (.int k)) ∧
    ∃ v t is, codeGenExp e s' = .ok v t ∧ Emits s' is t ∧ Evaluates s' is v k :=
  ⟨Def.gen_constValue hn (fun x n h => (hval x n h).1) hd hsize hk hg hx,
    codeGenExp_evaluates hf (fun x n h => (hval x n h).2) hk⟩

end Initialisers

section
attribute [local instance] ConstantFolder.symbolic

/-- `-g / 2` -/
def negHalf : ExprNode := .mk (.land (.eq (.rel (.add (.mul (.mul .slash
  (.unary (.unary .minus (.primary (.lVal (.mk "g" none))))) (.primary (.number ⟨2⟩))))))))

/-- The state behind `int g = 3;`. -/
def threeState : State := State.library.addGlobal "g" .i64 (.int 3)

/-- `int f() { return -g / 2; }` -/
def negHalfFunc : FuncNode := ⟨.int, "f", [], [.stmt (.ret (some negHalf))]⟩

/-- Behind `int g = 3;`, the initialiser of `int x = -g / 2;` is -1, as in a function. -/
theorem negHalf_agrees : (∃ t g, (⟨.var, "x", some (.exp negHalf), none⟩ : Def).gen threeState = .ok () t ∧
      t.globals = threeState.globals ++ [g] ∧ g.name = "x" ∧ g.init = some (.int (-1))) ∧
    ∃ v t is, codeGenExp negHalf (negHalfFunc.start threeState) = .ok v t ∧
      Emits (negHalfFunc.start threeState) is t ∧ Evaluates (negHalfFunc.start threeState) is v (-1) := by
  have hf : InFunc 12 (negHalfFunc.start threeState) := ⟨⟨0, rfl⟩, by decide⟩
  have hval : ∀ x n, (if x = "g" then some 3 else none) = some n →
      threeState.GlobalScalar x n ∧ (negHalfFunc.start threeState).GlobalScalar x n := by
    intro x n hx
    simp only [Option.ite_none_right_eq_some, Option.some.injEq] at hx
    obtain ⟨rfl, rfl⟩ := hx
    exact ⟨⟨rfl, _, rfl, rfl, rfl⟩, rfl, _, rfl, rfl, rfl⟩
  exact initialiser_eq_executed rfl hf hval rfl rfl (by decide) (by decide) (by decide)

end

end L24
