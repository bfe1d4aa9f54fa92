import L24.Simulation.Program
import L24.Simulation.Initial

/-! Whole programs: the global definitions give the scalars their first values, by the same rules as in functions, and
    then `main` is called. The machine needs no code for the definitions: their values are in the module. -/

namespace L24
open Ir Relation Steps

variable {W : Type} {node : EntryNode} {fin s t : State} {d : Def} {w w' : World W} {ext : W}

/-! ### The meaning of a program -/

/-- Outside all functions a call has no meaning. -/
def noCalls : Calls W := fun _ _ _ => wrong

/-- The definition of a global scalar. An array is not part of the world. -/
def execGlobalDef (w : World W) (d : Def) : Res (World W) :=
  match d.exp with
  | none => do
    let (v, env) ← evalInit noCalls d.init 0 { scopes := [], world := w }
    .ok { env.world with globals := Function.update env.world.globals d.ident (some v) }
  | some _ => .ok w

/-- What an item outside all functions does before the program starts. -/
def execTopItem (w : World W) : TopItem → Res (World W)
  | .decl d => d.defs.foldlM execGlobalDef w
  | .func _ => .ok w

/-- A run of a program: the definitions in source order, and then `main`. -/
def runProgram (lib : Library W) (node : EntryNode) (n : Nat) (ext : W) : Res (Option (BitVec 64) × World W) := do
  let w ← node.prog.items.foldlM execTopItem { globals := fun _ => none, ext }
  callAt lib node n "main" [] w

/-! ### Global definitions -/

section Results
variable {α β : Type} {m : Res α} {f : α → Res β} {b : β}

theorem res_bind_ok : (m >>= f) = .ok b ↔ ∃ a, m = .ok a ∧ f a = .ok b := by
  cases m with
  | error e => simp [bind, Except.bind]
  | ok a => simp [bind, Except.bind]

theorem defined_ok {o : Option α} {a : α} : defined o = .ok a ↔ o = some a := by
  cases o with
  | none => simp [defined, wrong]
  | some b => simp [defined]

/-- An operand has a value. -/
theorem operand_ok {m : Res (Option (BitVec 64) × World W)} {f : BitVec 64 × World W → Res β} :
    (m >>= fun r => value r >>= f) = .ok b ↔ ∃ v w, m = .ok (some v, w) ∧ f (v, w) = .ok b := by
  constructor
  · intro h
    obtain ⟨⟨v, w⟩, hm, h⟩ := res_bind_ok.mp h
    cases v with
    | none => cases h
    | some v => exact ⟨v, w, hm, h⟩
  · rintro ⟨v, w, rfl, h⟩
    exact h

end Results

/-- The expression has only the value of a constant, and changes nothing. -/
def EvalsConst (w : World W) (e : Exp) : Prop :=
  ∀ r, evalExp noCalls [] e w = .ok r → ∃ v, r = (some v, w) ∧ e.constValue w.globals = some v

theorem EvalsConst.operand {β : Type} {e : Exp} {f : BitVec 64 × World W → Res β} {b : β} (he : EvalsConst w e)
    (h : (evalExp noCalls [] e w >>= fun r => value r >>= f) = .ok b) :
    ∃ x, e.constValue w.globals = some x ∧ f (x, w) = .ok b := by
  obtain ⟨x, w', hx, h⟩ := operand_ok.mp h
  obtain ⟨v, hr, hv⟩ := he _ hx
  cases hr
  exact ⟨x, hv, h⟩

/-- Without scopes and calls, a value is that of a constant. -/
theorem evalExp_constValue (e : Exp) : EvalsConst w e := by
  intro r h
  cases e with
  | number v =>
    cases h
    exact ⟨v, rfl, rfl⟩
  | name x =>
    obtain ⟨v, hv, h⟩ := res_bind_ok.mp h
    cases h
    exact ⟨v, rfl, defined_ok.mp hv⟩
  | index x e =>
    obtain ⟨i, -, h⟩ := (evalExp_constValue e).operand h
    obtain ⟨v, hv, -⟩ := res_bind_ok.mp h
    cases defined_ok.mp hv
  | call f args =>
    obtain ⟨p, -, h⟩ := res_bind_ok.mp h
    cases h
  | unary op e =>
    obtain ⟨x, hx, h⟩ := (evalExp_constValue e).operand h
    cases h
    exact ⟨op.eval x, rfl, by rw [Exp.constValue, hx]; rfl⟩
  | arith op a b =>
    obtain ⟨x, hx, h⟩ := (evalExp_constValue a).operand h
    obtain ⟨y, hy, h⟩ := (evalExp_constValue b).operand h
    obtain ⟨z, hz, h⟩ := res_bind_ok.mp h
    cases h
    refine ⟨z, rfl, ?_⟩
    rw [Exp.constValue, hx, hy]
    exact defined_ok.mp hz
  | cmp p a b =>
    obtain ⟨x, hx, h⟩ := (evalExp_constValue a).operand h
    obtain ⟨y, hy, h⟩ := (evalExp_constValue b).operand h
    cases h
    exact ⟨_, rfl, by rw [Exp.constValue, hx, hy]; rfl⟩
  | land a b =>
    obtain ⟨x, hx, h⟩ := (evalExp_constValue a).operand h
    obtain ⟨y, hy, h⟩ := (evalExp_constValue b).operand h
    cases h
    exact ⟨_, rfl, by rw [Exp.constValue, hx, hy]; rfl⟩
  | lor a b =>
    obtain ⟨x, hx, h⟩ := (evalExp_constValue a).operand h
    obtain ⟨y, hy, h⟩ := (evalExp_constValue b).operand h
    cases h
    exact ⟨_, rfl, by rw [Exp.constValue, hx, hy]; rfl⟩

theorem eval_constValue {e : ExprNode} {v : BitVec 64} {env : Env W}
    (h : Env.eval noCalls { scopes := [], world := w } e = .ok (v, env)) :
    e.core.constValue w.globals = some v ∧ env = { scopes := [], world := w } := by
  obtain ⟨x, hx, h⟩ := (evalExp_constValue e.core).operand h
  cases h
  exact ⟨hx, rfl⟩

section
variable [ConstantFolder]

/-- The initial value of a global scalar folds to the value that it has by the rules of expressions. -/
theorem evalInit_folds {v : BitVec 64} {env : Env W} {init : Option InitValNode} (hn : s.namedValues = [])
    (hval : ∀ x n, w.globals x = some n → s.GlobalScalar x n)
    (h : evalInit noCalls init 0 { scopes := [], world := w } = .ok (v, env)) :
    env = { scopes := [], world := w } ∧ ∃ t, initVal init 0 s = .ok (.const (.int v)) t := by
  cases init with
  | none =>
    cases h
    exact ⟨rfl, s, rfl⟩
  | some init =>
    unfold evalInit at h
    cases he : init.exps[0]? with
    | some e =>
      simp only [he] at h
      obtain ⟨hv, rfl⟩ := eval_constValue h
      obtain ⟨t, ht, -⟩ := codeGenExp_folds_value hn hval hv
      exact ⟨rfl, t, initVal_ok.mpr (Or.inr (Or.inr ⟨init, e, rfl, he, ht⟩))⟩
    | none =>
      cases hc : init.stringLiteral[0]? with
      | some c =>
        simp only [he, hc] at h
        cases h
        exact ⟨rfl, s, initVal_ok.mpr (Or.inr (Or.inl ⟨init, c, rfl, init.exps_nil hc, hc, rfl, rfl⟩))⟩
      | none =>
        simp only [he, hc] at h
        cases h
        refine ⟨rfl, s, initVal_ok.mpr (Or.inl ⟨rfl, rfl, ?_⟩)⟩
        intro k hk
        cases hk
        exact Nat.max_le.mpr ⟨List.getElem?_eq_none_iff.mp he, List.getElem?_eq_none_iff.mp hc⟩

/-- The scalars of the world are global variables with their values as initialisers, and nothing has happened
    outside. -/
structure Initialised (s : State) (ext : W) (w : World W) : Prop where
  scalars : ∀ x v, w.globals x = some v → ∃ g, s.global? x = some g ∧ g.valueTy = .i64 ∧ g.init = some (.int v)
  ext : w.ext = ext

omit [ConstantFolder] in
theorem Initialised.scalar (h : Initialised s ext w) (hs : Idle s) {x : String} {v : BitVec 64}
    (hx : w.globals x = some v) : s.GlobalScalar x v := by
  refine ⟨?_, h.scalars x v hx⟩
  rw [State.lookup, hs.namedValues]
  rfl

omit [ConstantFolder] in
theorem Initialised.extends (h : Initialised s ext w) (e : Extends s t) : Initialised t ext w := by
  refine ⟨fun x v hx => ?_, h.ext⟩
  obtain ⟨g, hg, hi⟩ := h.scalars x v hx
  exact ⟨g, e.global? hg, hi⟩

/-- The definition of a global scalar adds a variable with the constant that its initial value is. -/
theorem Def.gen_scalar {v : BitVec 64} (hn : s.namedValues = []) (hd : d.exp = none)
    (hv : ∃ u, initVal d.init 0 s = .ok (.const (.int v)) u) (h : d.gen s = .ok () t) :
    s.global? d.ident = none ∧ t.globals = s.globals ++ [⟨d.ident, .i64, some (.int v)⟩] := by
  obtain ⟨u, hv⟩ := hv
  obtain ⟨size, vs, r, hi, hdef⟩ := codeGenDef_ok.mp h
  have hs := hi.sameScope
  unfold GenInit at hi
  rw [hd] at hi
  obtain ⟨rfl, hvs⟩ := hi
  obtain ⟨v', u', vs', hv', hnil, rfl⟩ := initVals_cons_ok.mp hvs
  rw [hv] at hv'
  cases hv'
  obtain ⟨rfl, rfl⟩ := initVals_zero_ok.mp hnil
  rcases defineValue_ok hdef with ⟨-, r', hr', rfl⟩ | ⟨_, _, _, _, hne, -⟩
  · obtain ⟨hg, -, ⟨-, n, hn', rfl⟩ | ⟨_, _, _, hsz, -⟩⟩ := defineGlobalValue_ok.mp hr'
    · cases hn'
      exact ⟨(hs.global? _).symm.trans hg, congrArg (· ++ _) hs.globals⟩
    · cases hsz
  · rw [hs.namedValues, hn] at hne
    cases hne

omit [ConstantFolder] in
/-- The variable that a definition adds is found under its name. -/
theorem global?_added {g : GlobalVariable} (hx : s.global? g.name = none) (hg : t.globals = s.globals ++ [g]) :
    t.global? g.name = some g := by
  rw [State.global?] at hx
  rw [State.global?, hg, List.find?_append, hx]
  simp

theorem def_extends (hs : Idle s) (h : d.gen s = .ok () t) : Extends s t ∧ Idle t :=
  defs_extends hs (forM_cons_ok.mpr ⟨t, h, forM_nil_ok.mpr rfl⟩)

theorem execGlobalDef_initialised (hs : Idle s) (hi : Initialised s ext w) (hx : execGlobalDef w d = .ok w')
    (h : d.gen s = .ok () t) : Initialised t ext w' := by
  obtain ⟨e, -⟩ := def_extends hs h
  unfold execGlobalDef at hx
  cases hd : d.exp with
  | some n =>
    rw [hd] at hx
    cases hx
    exact hi.extends e
  | none =>
    rw [hd] at hx
    obtain ⟨⟨v, env⟩, hv, hx⟩ := res_bind_ok.mp hx
    cases hx
    obtain ⟨rfl, hfold⟩ := evalInit_folds hs.namedValues (fun x n hx => hi.scalar hs hx) hv
    obtain ⟨hnew, hg⟩ := Def.gen_scalar hs.namedValues hd hfold h
    refine ⟨fun x k hk => ?_, hi.ext⟩
    have hk : Function.update w.globals d.ident (some v) x = some k := hk
    by_cases hxd : x = d.ident
    · subst hxd
      rw [Function.update_self] at hk
      cases hk
      exact ⟨_, global?_added hnew hg, rfl, rfl⟩
    · rw [Function.update_of_ne hxd] at hk
      exact (hi.extends e).scalars x k hk

theorem execGlobalDefs_initialised : ∀ {ds : List Def} {s t : State} {w w' : World W}, Idle s → Initialised s ext w →
    ds.foldlM execGlobalDef w = .ok w' → ds.forM Def.gen s = .ok ⟨⟩ t → Initialised t ext w'
  | [], s, t, w, w', _, hi, hx, h => by
    obtain rfl := forM_nil_ok.mp h
    cases hx
    exact hi
  | d :: ds, s, t, w, w', hs, hi, hx, h => by
    obtain ⟨w₁, hx₁, hx⟩ := res_bind_ok.mp hx
    obtain ⟨u, hd, h⟩ := forM_cons_ok.mp h
    obtain ⟨-, hu⟩ := def_extends hs hd
    exact execGlobalDefs_initialised hu (execGlobalDef_initialised hs hi hx₁ hd) hx h

theorem execTopItem_initialised {item : TopItem} (hs : Idle s) (hi : Initialised s ext w)
    (hx : execTopItem w item = .ok w') (h : codeGenTopItem item s = .ok () t) : Initialised t ext w' := by
  cases item with
  | decl d =>
    rw [codeGenTopItem, codeGenDecl_defs] at h
    exact execGlobalDefs_initialised hs hi hx h
  | func g =>
    cases hx
    exact hi.extends (codeGenFunc_extends hs h)

/-- The definitions leave the module with the first values of the scalars. -/
theorem accepts_initialised (h : Accepts node fin)
    (hx : node.prog.items.foldlM execTopItem { globals := fun _ => none, ext } = .ok w) : Initialised fin ext w := by
  let P (items : List TopItem) (s : State) : Prop :=
    ∀ w : World W, items.foldlM execTopItem { globals := fun _ => none, ext } = .ok w → Initialised s ext w
  have hlib : P [] State.library := by
    intro w hw
    cases hw
    exact ⟨fun x v hx => (nomatch hx), rfl⟩
  have hstep : ∀ {items : List TopItem} {item : TopItem} {s t : State}, P items s → Idle s →
      codeGenTopItem item s = .ok () t → P (items ++ [item]) t := by
    intro items item s t hp hs hi w hw
    rw [List.foldlM_append] at hw
    obtain ⟨w₁, hw₁, hw⟩ := res_bind_ok.mp hw
    rw [List.foldlM_cons] at hw
    obtain ⟨w₂, hw₂, hw⟩ := res_bind_ok.mp hw
    cases hw
    exact execTopItem_initialised hs (hp w₁ hw₁) hw₂ hi
  exact accepts_induct (P := P) h hlib hstep w hx

omit [ConstantFolder] in
/-- In memory at the start the scalars have these values. -/
theorem Initialised.worldMatch (h : Initialised s ext w) : WorldMatch s w (Mem.initial s.globals) := by
  intro x v hx
  obtain ⟨g, hg, hty, hi⟩ := h.scalars x v hx
  refine ⟨g, hg, hty, ?_⟩
  have hfind : s.globals.find? (·.name == x) = some g := hg
  simp [Mem.initial, hfind, Mem.initialCells, hi]

/-! ### Expressions do not loop -/

/-- The computation does not run out of fuel. -/
def InTime {α : Type} (m : Res α) : Prop := m ≠ .error .timeout

section InTime
variable {α β : Type} {m : Res α} {f : α → Res β} {call : Calls W} {sc : Scopes}

omit [ConstantFolder] in
theorem InTime.ok {a : α} : InTime (.ok a : Res α) := fun h => nomatch h

omit [ConstantFolder] in
theorem InTime.bind (hm : InTime m) (hf : ∀ a, InTime (f a)) : InTime (m >>= f) := by
  cases m with
  | ok a => exact hf a
  | error e =>
    intro h
    cases h
    exact hm rfl

omit [ConstantFolder] in
theorem inTime_defined {o : Option α} : InTime (defined o) := by
  cases o with
  | none => exact fun h => nomatch h
  | some a => exact .ok

omit [ConstantFolder] in
theorem inTime_value {r : Option (BitVec 64) × World W} : InTime (value r) := by
  obtain ⟨_ | v, w⟩ := r
  · exact fun h => nomatch h
  · exact .ok

omit [ConstantFolder] in
theorem InTime.operand {m : Res (Option (BitVec 64) × World W)} {f : BitVec 64 × World W → Res β} (hm : InTime m)
    (hf : ∀ p, InTime (f p)) : InTime (m >>= fun r => value r >>= f) := hm.bind fun _ => inTime_value.bind hf

omit [ConstantFolder] in
mutual

/-- An expression only runs out of fuel in a call. -/
theorem evalExp_inTime (hc : ∀ f vs w, InTime (call f vs w)) : ∀ (e : Exp) (w : World W), InTime (evalExp call sc e w)
  | .number _, _ => .ok
  | .name _, _ => inTime_defined.bind fun _ => .ok
  | .index _ e, w => (evalExp_inTime hc e w).operand fun _ => inTime_defined.bind fun _ => .ok
  | .call _ args, w => (evalExps_inTime hc args w).bind fun _ => hc _ _ _
  | .unary _ e, w => (evalExp_inTime hc e w).operand fun _ => .ok
  | .arith _ a b, w => (evalExp_inTime hc a w).operand fun p =>
    (evalExp_inTime hc b p.2).operand fun _ => inTime_defined.bind fun _ => .ok
  | .cmp _ a b, w => (evalExp_inTime hc a w).operand fun p => (evalExp_inTime hc b p.2).operand fun _ => .ok
  | .land a b, w => (evalExp_inTime hc a w).operand fun p => (evalExp_inTime hc b p.2).operand fun _ => .ok
  | .lor a b, w => (evalExp_inTime hc a w).operand fun p => (evalExp_inTime hc b p.2).operand fun _ => .ok

theorem evalExps_inTime (hc : ∀ f vs w, InTime (call f vs w)) : ∀ (es : List Exp) (w : World W),
    InTime (evalExps call sc es w)
  | [], _ => .ok
  | e :: es, w => (evalExp_inTime hc e w).operand fun p => (evalExps_inTime hc es p.2).bind fun _ => .ok

end

end InTime

omit [ConstantFolder] in
theorem execGlobalDef_inTime (w : World W) (d : Def) : InTime (execGlobalDef w d) := by
  have hc : ∀ f vs w, InTime (noCalls (W := W) f vs w) := fun f vs w h => nomatch h
  unfold execGlobalDef
  cases d.exp with
  | some e => exact .ok
  | none =>
    refine InTime.bind ?_ fun _ => .ok
    unfold evalInit
    split
    · exact .ok
    · split
      · exact (evalExp_inTime hc _ w).operand fun _ => .ok
      · exact .ok
      · exact .ok

omit [ConstantFolder] in
theorem foldlM_inTime {α β : Type} {f : α → β → Res α} (hf : ∀ a b, InTime (f a b)) : ∀ (bs : List β) (a : α),
    InTime (bs.foldlM f a)
  | [], _ => .ok
  | b :: bs, a => (hf a b).bind fun _ => foldlM_inTime hf bs _

omit [ConstantFolder] in
/-- The definitions do not run out of fuel. -/
theorem execTopItem_inTime (w : World W) (item : TopItem) : InTime (execTopItem w item) := by
  cases item with
  | decl d => exact foldlM_inTime execGlobalDef_inTime d.defs w
  | func g => exact .ok

/-! ### Runs -/

/-- A run of the code of a function of the program simulates the calls of it. -/
theorem func_sim {mem : Mem} {g : FuncNode} (lib : Library W) (h : Accepts node fin) (hn : node.NamesDistinct)
    (hg : g ∈ node.funcs) (args : List (BitVec 64)) (hw : WorldMatch fin w mem) :
    ∃ c, Config.start fin.toModule g.ident (args.map .int) mem w.ext = some c ∧
      ∀ n, Sim (machine lib fin) n c (callAt lib node (n + 1) g.ident args w) fun r d =>
        ∃ mem', d = .done (r.1.map .int) mem' r.2.ext ∧ WorldMatch fin r.2 mem' := by
  have hgen := accepts_generated h hn
  obtain ⟨k, hfind⟩ : ∃ k, node.funcs.find? (·.ident == g.ident) = some k := by
    rw [← Option.isSome_iff_exists, List.find?_isSome]
    exact ⟨g, hg, beq_self_eq_true _⟩
  have hk : k ∈ node.funcs := List.mem_of_find?_eq_some hfind
  have hkg : k.ident = g.ident := by simpa using List.find?_some hfind
  obtain ⟨s, s₁, s₂, q, ls, t, he⟩ := hgen.emitted k hk
  refine ⟨.run (Frame.enter (fin.toFunction he.target.obj) (args.map .int) (fin.blocks s.nextLabel) 0) [] mem w.ext,
    ?_, fun n => ?_⟩
  · rw [Config.start, toModule_function?, ← hkg, he.function?]
    rfl
  · rw [callAt, hfind]
    refine (callFunc_sim he (hn.params k hk) (callAt_sim hgen hn.params n) args hw).imp ?_
    rintro r d ⟨fr, mem', rfl, -, -, hw', -⟩
    exact ⟨mem', rfl, hw'⟩

/-- The machine, started in `main` with the initial memory, simulates a run of the program. -/
theorem program_sim (h : Accepts node fin) (hn : node.NamesDistinct) (hmain : ∃ g ∈ node.funcs, g.ident = "main")
    (lib : Library W) (ext : W) : ∃ c, Config.start fin.toModule "main" [] (Mem.initial fin.globals) ext = some c ∧
      ∀ n, Sim (machine lib fin) n c (runProgram lib node (n + 1) ext) fun r d =>
        ∃ mem, d = .done (r.1.map .int) mem r.2.ext ∧ WorldMatch fin r.2 mem := by
  obtain ⟨g, hg, hname⟩ := hmain
  have hstart : ∀ w : World W, WorldMatch fin w (Mem.initial fin.globals) → ∃ c,
      Config.start fin.toModule "main" [] (Mem.initial fin.globals) w.ext = some c ∧
      ∀ n, Sim (machine lib fin) n c (callAt lib node (n + 1) "main" [] w) fun r d =>
        ∃ mem, d = .done (r.1.map .int) mem r.2.ext ∧ WorldMatch fin r.2 mem := by
    intro w hw
    rw [← hname]
    exact func_sim lib h hn hg [] hw
  unfold runProgram
  cases hinit : node.prog.items.foldlM execTopItem { globals := fun _ => none, ext } with
  | error f =>
    -- the definitions give no world, so that nothing is said about the run
    have hf : InTime (.error f : Res (World W)) := hinit ▸ foldlM_inTime execTopItem_inTime node.prog.items _
    obtain ⟨c, hc, -⟩ := hstart { globals := fun _ => none, ext } fun x v hx => nomatch hx
    refine ⟨c, hc, fun n => ?_⟩
    cases f with
    | timeout => exact absurd rfl hf
    | wrong => trivial
  | ok w =>
    have hi := accepts_initialised h hinit
    obtain ⟨c, hc, hsim⟩ := hstart w hi.worldMatch
    exact ⟨c, hi.ext ▸ hc, hsim⟩

end

section
attribute [local instance] ConstantFolder.symbolic

end

end L24
