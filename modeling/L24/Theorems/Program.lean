import L24.Ir.Names
import L24.Theorems.Growth

/-! Functions, global definitions and whole programs: one inversion lemma for each, and what a top-level
    item leaves alone. -/

namespace L24
open Ir Relation

/-! ### Constants -/

section Constants
variable {s t : State} {v : Value}

/-- The events of a global definition: reads of names without subscripts, and the definition. -/
def ScopeEvent.isSilent : ScopeEvent → Bool
  | .read _ false _ | .define _ _ _ => true
  | _ => false

/-- Nothing happens but such entries in the trace. -/
def Silent (s t : State) : Prop := ∃ evs, t = { s with trace := s.trace ++ evs } ∧ ∀ ev ∈ evs, ev.isSilent = true

theorem Silent.refl (s : State) : Silent s s := ⟨[], by simp, by simp⟩

theorem Silent.trans {u : State} (h₁ : Silent s t) (h₂ : Silent t u) : Silent s u := by
  obtain ⟨evs₁, rfl, hs₁⟩ := h₁
  obtain ⟨evs₂, rfl, hs₂⟩ := h₂
  refine ⟨evs₁ ++ evs₂, by simp, ?_⟩
  rw [List.forall_mem_append]
  exact ⟨hs₁, hs₂⟩

theorem Silent.log {ev : ScopeEvent} (h : ev.isSilent = true) : Silent s (s.log ev) := ⟨[ev], rfl, by simpa using h⟩

variable [ConstantFolder]

theorem createBinOp_const {op : BinOp} {a b : Value} {c : Const} (h : createBinOp op a b s = .ok (.const c) t) :
    (∃ d, a = .const d) ∧ (∃ d, b = .const d) ∧ t = s := by
  rcases createBinOp_ok.mp h with ⟨c, d, rfl, rfl, -, rfl⟩ | ⟨-, h, -⟩
  · exact ⟨⟨c, rfl⟩, ⟨d, rfl⟩, rfl⟩
  · cases h

theorem createICmp_const {p : Pred} {a b : Value} {c : Const} (h : createICmp p a b s = .ok (.const c) t) :
    (∃ d, a = .const d) ∧ (∃ d, b = .const d) ∧ t = s := by
  rcases createICmp_ok.mp h with ⟨c, d, rfl, rfl, -, rfl⟩ | ⟨-, h, -⟩
  · exact ⟨⟨c, rfl⟩, ⟨d, rfl⟩, rfl⟩
  · cases h

theorem createSelect_const {a b d : Value} {c : Const} (h : createSelect a b d s = .ok (.const c) t) :
    (∃ k, a = .const k) ∧ (∃ k, b = .const k) ∧ (∃ k, d = .const k) ∧ t = s := by
  rcases createSelect_ok.mp h with ⟨c, d, e, rfl, rfl, rfl, -, rfl⟩ | ⟨-, h, -⟩
  · exact ⟨⟨c, rfl⟩, ⟨d, rfl⟩, ⟨e, rfl⟩, rfl⟩
  · cases h

theorem createIntCast_const {a : Value} {c : Const} (h : createIntCast a s = .ok (.const c) t) :
    (∃ d, a = .const d) ∧ t = s := by
  rcases createIntCast_ok.mp h with ⟨-, rfl, rfl⟩ | ⟨-, ⟨d, rfl, -, rfl⟩ | ⟨-, h, -⟩⟩
  · exact ⟨⟨c, rfl⟩, rfl⟩
  · exact ⟨⟨d, rfl⟩, rfl⟩
  · cases h

theorem getValue_const {x : String} {sub : Option Value} {c : Const} (h : getValue x sub s = .ok (.const c) t) :
    Silent s t := by
  rcases getValue_ok h with ⟨nv, -, h⟩ | ⟨-, h⟩
  · rcases createGetValueInst_ok h with ⟨-, -, h, -⟩ | ⟨-, -, h, -⟩ | ⟨_, _, _, -, -, h, -⟩ <;> cases h
  · obtain ⟨g, -, ⟨rfl, -, -, rfl⟩ | ⟨-, -, h, -⟩ | ⟨_, _, _, -, -, h, -⟩⟩ := getGlobalValue_ok h
    · exact .log rfl
    · cases h
    · cases h

theorem LogicalOperands.silent {a b : Exp} {k l : Const}
    (iha : ∀ {s t : State} {c : Const}, genExp a s = .ok (.const c) t → Silent s t)
    (ihb : ∀ {s t : State} {c : Const}, genExp b s = .ok (.const c) t → Silent s t)
    (h : LogicalOperands a b s (.const k) (.const l) t) : Silent s t := by
  obtain ⟨x, u, w, y, m, hx, hl, hy, hr⟩ := h
  obtain ⟨-, ⟨d, rfl⟩, rfl⟩ := createICmp_const hl
  obtain ⟨-, ⟨e, rfl⟩, rfl⟩ := createICmp_const hr
  exact (iha hx).trans (ihb hy)

/-- An expression whose value is a constant generates nothing. -/
theorem genExp_const : ∀ (e : Exp) {s t : State} {c : Const}, genExp e s = .ok (.const c) t → Silent s t
  | .number n, s, t, c, h => by
    rw [genExp] at h
    obtain ⟨-, rfl⟩ := pure_ok.mp h
    exact .refl _
  | .name x, s, t, c, h => by
    rw [genExp] at h
    exact getValue_const h
  | .index x e, s, t, c, h => by
    obtain ⟨i, u, -, h⟩ := genExp_index_ok.mp h
    rcases getValue_ok h with ⟨nv, -, h⟩ | ⟨-, h⟩
    · rcases createGetValueInst_ok h with ⟨h, -⟩ | ⟨h, -⟩ | ⟨_, _, _, -, -, h, -⟩ <;> cases h
    · obtain ⟨g, -, ⟨h, -⟩ | ⟨h, -⟩ | ⟨_, _, _, -, -, h, -⟩⟩ := getGlobalValue_ok h <;> cases h
  | .call f args, s, t, c, h => by
    obtain ⟨_, _, _, -, -, -, h, -⟩ := genExp_call_ok.mp h
    cases h
  | .unary op e, s, t, c, h => by
    obtain ⟨x, u, hx, h⟩ := genExp_unary_ok.mp h
    cases op with
    | plus =>
      obtain ⟨rfl, rfl⟩ := h
      exact genExp_const e hx
    | minus =>
      obtain ⟨-, ⟨d, rfl⟩, rfl⟩ := createBinOp_const h.2
      exact genExp_const e hx
    | not =>
      obtain ⟨b, w, hb, h⟩ := h
      obtain ⟨⟨d, rfl⟩, rfl⟩ := createIntCast_const h
      obtain ⟨-, ⟨d, rfl⟩, rfl⟩ := createICmp_const hb
      exact genExp_const e hx
  | .arith op a b, s, t, c, h => by
    obtain ⟨x, u, y, w, hx, hy, h⟩ := genExp_arith_ok.mp h
    obtain ⟨⟨d, rfl⟩, ⟨e, rfl⟩, rfl⟩ := createBinOp_const h
    exact (genExp_const a hx).trans (genExp_const b hy)
  | .cmp p a b, s, t, c, h => by
    obtain ⟨x, u, y, w, k, l, hx, hy, hk, h⟩ := genExp_cmp_ok.mp h
    obtain ⟨⟨d, rfl⟩, rfl⟩ := createIntCast_const h
    obtain ⟨⟨d, rfl⟩, ⟨e, rfl⟩, rfl⟩ := createICmp_const hk
    exact (genExp_const a hx).trans (genExp_const b hy)
  | .land a b, s, t, c, h => by
    obtain ⟨lv, rv, w, k, l, ho, hk, h⟩ := genExp_land_ok.mp h
    obtain ⟨⟨d, rfl⟩, rfl⟩ := createIntCast_const h
    obtain ⟨⟨d, rfl⟩, ⟨e, rfl⟩, -, rfl⟩ := createSelect_const hk
    exact ho.silent (genExp_const a) (genExp_const b)
  | .lor a b, s, t, c, h => by
    obtain ⟨lv, rv, w, k, l, ho, hk, h⟩ := genExp_lor_ok.mp h
    obtain ⟨⟨d, rfl⟩, rfl⟩ := createIntCast_const h
    obtain ⟨⟨d, rfl⟩, -, ⟨e, rfl⟩, rfl⟩ := createSelect_const hk
    exact ho.silent (genExp_const a) (genExp_const b)

omit [ConstantFolder] in
theorem sextValue?_const {n : BitVec 64} (h : v.sextValue? = some n) : ∃ c, v = .const c := by
  cases v with
  | const c => exact ⟨c, rfl⟩
  | _ => cases h

theorem codeGenExp_const {e : ExprNode} {n : BitVec 64} (h : codeGenExp e s = .ok v t) (hv : v.sextValue? = some n) :
    Silent s t := by
  obtain ⟨c, rfl⟩ := sextValue?_const hv
  exact genExp_const e.core (codeGenExp_core e ▸ h)

theorem initVals_const {node : Option InitValNode} : ∀ {n idx : Nat} {s t : State} {vs : List Value},
    initVals node idx n s = .ok vs t → (∀ v ∈ vs, ∃ k, v.sextValue? = some k) → Silent s t
  | 0, _, s, t, vs, h, _ => by
    obtain ⟨-, rfl⟩ := initVals_zero_ok.mp h
    exact .refl _
  | n + 1, idx, s, t, vs, h, hc => by
    obtain ⟨v, w, ws, hv, hws, rfl⟩ := initVals_cons_ok.mp h
    obtain ⟨k, hk⟩ := hc v List.mem_cons_self
    refine .trans ?_ (initVals_const hws fun v hv => hc v (List.mem_cons_of_mem _ hv))
    rcases initVal_ok.mp hv with ⟨-, rfl, -⟩ | ⟨_, _, -, -, -, -, rfl⟩ | ⟨_, _, -, -, h⟩
    · exact .refl _
    · exact .refl _
    · exact codeGenExp_const h hk

end Constants

/-! ### Global definitions -/

section Globals
variable {s t : State} {u : Unit}

theorem mapM_eq_some {α β : Type} {f : α → Option β} : ∀ {l : List α} {r : List β}, l.mapM f = some r →
    ∀ a ∈ l, ∃ b, f a = some b
  | [], _, _, a, ha => by cases ha
  | x :: l, r, h, a, ha => by
    rw [List.mapM_cons] at h
    obtain ⟨b, hb, h⟩ := Option.bind_eq_some_iff.mp h
    obtain ⟨bs, hbs, -⟩ := Option.bind_eq_some_iff.mp h
    rcases List.mem_cons.mp ha with rfl | ha
    · exact ⟨b, hb⟩
    · exact mapM_eq_some hbs a ha

/-- The variable `getOrInsertGlobal` makes. -/
def State.addGlobal (s : State) (x : String) (ty : Ty) (c : Const) : State :=
  { s with globals := s.globals ++ [{ name := x, valueTy := ty, init := some c }] }

theorem constantArray_of_ne_nil {ty : Ty} {ns : List (BitVec 64)} (h : ns ≠ []) : constantArray ty ns = .array ns := by
  cases ns with
  | nil => exact absurd rfl h
  | cons => rfl

theorem global?_eq_none {x : String} : s.global? x = none ↔ ∀ g ∈ s.globals, g.name ≠ x := by
  simp [State.global?, List.find?_eq_none]

theorem global?_name {g : GlobalVariable} {x : String} (h : s.global? x = some g) : g.name = x := by
  simpa using List.find?_some h

theorem function?_eq_none {x : String} : s.function? x = none ↔ ∀ f ∈ s.functions, f.name ≠ x := by
  simp [State.function?, List.find?_eq_none]

theorem not_mem_symbols {x : String} : x ∉ s.symbols ↔ s.function? x = none ∧ s.global? x = none := by
  simp only [State.symbols, List.mem_append, List.mem_map, not_or, function?_eq_none, global?_eq_none]
  constructor
  · exact fun ⟨h₁, h₂⟩ => ⟨fun f hf he => h₁ ⟨f, hf, he⟩, fun g hg he => h₂ ⟨g, hg, he⟩⟩
  · exact fun ⟨h₁, h₂⟩ => ⟨fun ⟨f, hf, he⟩ => h₁ f hf he, fun ⟨g, hg, he⟩ => h₂ g hg he⟩

/-- A variable whose name is free, and its initialiser. Under a taken name it is renamed, and is not found. -/
theorem insertGlobal_ok {α : Type} {x : String} {ty : Ty} {o : Option α} {mk : α → Const} (hg : s.global? x = none) :
    (do
      getOrInsertGlobal x ty
      let val ← deref o
      let g ← deref ((← get).global? x)
      modify (·.setInitializer g.name (mk val)) : CG Unit) s = .ok u t ↔
    s.function? x = none ∧ ∃ n, o = some n ∧ t = s.addGlobal x ty (mk n) := by
  have hmap : ∀ c, s.globals.map (fun g => if g.name = x then { g with init := some c } else g) = s.globals := by
    intro c
    conv_rhs => rw [← List.map_id s.globals]
    exact List.map_congr_left fun g hm => if_neg (global?_eq_none.mp hg g hm)
  have hfind : s.globals.find? (·.name == x) = none := hg
  unfold getOrInsertGlobal
  simp only [bind_ok, modify_ok, get_ok, deref_ok, hg, and_assoc, exists_and_left, exists_eq_left, exists_const]
  by_cases hf : s.function? x = none
  · have hn : s.uniqueName x = (x, s.lastUnique) := uniqueName_of_not_mem (not_mem_symbols.mpr ⟨hf, hg⟩)
    simp [hn, hf, State.global?, List.find?_append, hfind, State.setInitializer, hmap, State.addGlobal]
  · have hn : (s.uniqueName x).1 ≠ x := uniqueName_ne (by_contra fun h => hf (not_mem_symbols.mp h).1)
    simp [hn, hf, State.global?, List.find?_append, hfind]

/-- A global definition adds a variable under its name, with a constant initialiser. -/
theorem defineGlobalValue_ok {x : String} {vals : List Value} {size : Option Value} :
    defineGlobalValue x vals size s = .ok u t ↔ s.global? x = none ∧ s.function? x = none ∧
    ((size = none ∧ ∃ n, vals.head?.bind (·.sextValue?) = some n ∧ t = s.addGlobal x .i64 (.int n)) ∨
     (∃ sz n ns, size = some sz ∧ sz.sextValue? = some n ∧ vals.mapM (·.sextValue?) = some ns ∧
       t = s.addGlobal x (.array n.toNat .i64) (constantArray (.array n.toNat .i64) ns))) := by
  unfold defineGlobalValue
  rw [bind_ok]
  constructor
  · rintro ⟨a, w, hget, h⟩
    obtain ⟨ha, hw⟩ := get_ok.mp hget
    rw [ha, hw] at h
    cases hg : s.global? x with
    | some g =>
      simp only [hg, Option.isSome_some, ↓reduceIte, bind_ok] at h
      obtain ⟨_, _, h, -⟩ := h
      exact (logError_ok.mp h).elim
    | none =>
      simp only [hg, Option.isSome_none, Bool.false_eq_true, ↓reduceIte] at h
      cases size with
      | none =>
        obtain ⟨hf, n, hn, rfl⟩ := (insertGlobal_ok hg).mp h
        exact ⟨rfl, hf, Or.inl ⟨rfl, n, hn, rfl⟩⟩
      | some sz =>
        obtain ⟨n, w', hn, h⟩ := bind_ok.mp h
        obtain ⟨hn, hw'⟩ := deref_ok.mp hn
        rw [hw'] at h
        obtain ⟨hf, ns, hns, rfl⟩ := (insertGlobal_ok hg).mp h
        exact ⟨rfl, hf, Or.inr ⟨sz, n, ns, rfl, hn, hns, rfl⟩⟩
  · rintro ⟨hg, hf, h⟩
    refine ⟨s, s, get_ok.mpr ⟨rfl, rfl⟩, ?_⟩
    simp only [hg, Option.isSome_none, Bool.false_eq_true, ↓reduceIte]
    rcases h with ⟨rfl, n, hn, rfl⟩ | ⟨sz, n, ns, rfl, hn, hns, rfl⟩
    · exact (insertGlobal_ok hg).mpr ⟨hf, n, hn, rfl⟩
    · exact bind_ok.mpr ⟨n, s, deref_ok.mpr ⟨hn, rfl⟩, (insertGlobal_ok hg).mpr ⟨hf, ns, hns, rfl⟩⟩

variable [ConstantFolder]

theorem initVals_length {node : Option InitValNode} : ∀ {n idx : Nat} {s t : State} {vs : List Value},
    initVals node idx n s = .ok vs t → vs.length = n
  | 0, _, _, _, vs, h => by
    obtain ⟨rfl, -⟩ := initVals_zero_ok.mp h
    rfl
  | n + 1, idx, s, t, vs, h => by
    obtain ⟨v, w, ws, -, hws, rfl⟩ := initVals_cons_ok.mp h
    rw [List.length_cons, initVals_length hws]

/-- Initial values that are all constants, of a constant size, are generated without a trace in the code. -/
theorem GenInit.silent {init : Option InitValNode} {exp : Option ExprNode} {size : Option Value} {vs : List Value}
    (h : GenInit init exp s size vs t) (hs : ∀ sz, size = some sz → ∃ k, sz.sextValue? = some k)
    (hc : ∀ v ∈ vs, ∃ k, v.sextValue? = some k) : Silent s t := by
  cases exp with
  | none =>
    obtain ⟨rfl, h⟩ := h
    rcases getInitVals_ok.mp h with ⟨-, h⟩ | ⟨_, _, h, -⟩
    · exact initVals_const h hc
    · cases h
  | some e =>
    obtain ⟨sz, w, rfl, he, h⟩ := h
    obtain ⟨k, hk⟩ := hs sz rfl
    rcases getInitVals_ok.mp h with ⟨h, -⟩ | ⟨_, _, -, -, -, h⟩
    · cases h
    · exact (codeGenExp_const he hk).trans (initVals_const h hc)

/-- The type of the storage of a definition, and its initialiser. -/
def GlobalShape (g : GlobalVariable) (size : Option Value) (vs : List Value) : Prop :=
  (size = none ∧ g.valueTy = .i64 ∧ ∃ n, vs.head?.bind (·.sextValue?) = some n ∧ g.init = some (.int n)) ∨
  (∃ sz n ns, size = some sz ∧ sz.sextValue? = some n ∧ vs.mapM (·.sextValue?) = some ns ∧
    g.valueTy = .array n.toNat .i64 ∧ g.init = some (constantArray g.valueTy ns))

/-- A definition outside all scopes makes one global variable, and nothing else happens. -/
theorem Def.gen_define {d : Def} (hn : s.namedValues = []) (h : d.gen s = .ok u t) :
    ∃ g size vs w, Silent s w ∧
      t = { w with globals := s.globals ++ [g] }.log (.define d.ident d.ty (.global d.ident)) ∧
      g.name = d.ident ∧ GlobalShape g size vs ∧ s.global? d.ident = none ∧ s.function? d.ident = none ∧
      GenInit d.init d.exp s size vs w := by
  obtain ⟨size, vs, w, hi, h⟩ := codeGenDef_ok.mp h
  obtain ⟨is, e⟩ := hi.emits
  rcases defineValue_ok h with ⟨-, w', h', rfl⟩ | ⟨_, _, _, _, h', -⟩
  · obtain ⟨hg, hf, h⟩ := defineGlobalValue_ok.mp h'
    rw [e.global?] at hg
    rw [e.function?] at hf
    have hsil : Silent s w := by
      refine hi.silent (fun sz hsz => ?_) (fun v hv => ?_)
      · rcases h with ⟨rfl, -⟩ | ⟨sz', n, ns, rfl, hk, -, -⟩
        · cases hsz
        · cases hsz
          exact ⟨n, hk⟩
      · rcases h with ⟨rfl, n, hk, -⟩ | ⟨sz', n, ns, -, -, hk, -⟩
        · have hl : vs.length = 1 := by
            unfold GenInit at hi
            cases hd : d.exp with
            | none =>
              rw [hd] at hi
              rcases getInitVals_ok.mp hi.2 with ⟨-, h⟩ | ⟨_, _, h, -⟩
              · exact initVals_length h
              · cases h
            | some e =>
              rw [hd] at hi
              obtain ⟨_, _, h, -⟩ := hi
              cases h
          obtain ⟨v', rfl⟩ := List.length_eq_one_iff.mp hl
          obtain rfl := List.mem_singleton.mp hv
          exact ⟨n, by simpa using hk⟩
        · exact mapM_eq_some hk v hv
    rw [← e.globals]
    rcases h with ⟨rfl, n, hk, rfl⟩ | ⟨sz, n, ns, rfl, hz, hk, rfl⟩
    · exact ⟨_, _, _, _, hsil, rfl, rfl, Or.inl ⟨rfl, rfl, n, hk, rfl⟩, hg, hf, hi⟩
    · exact ⟨_, _, _, _, hsil, rfl, rfl, Or.inr ⟨sz, n, ns, rfl, hz, hk, rfl, rfl⟩, hg, hf, hi⟩
  · rw [e.namedValues, hn] at h'
    cases h'

theorem Def.gen_global {d : Def} (hn : s.namedValues = []) (h : d.gen s = .ok u t) :
    ∃ g tr size vs w, t = { s with globals := s.globals ++ [g], trace := tr } ∧ g.name = d.ident ∧
      GlobalShape g size vs ∧ s.global? d.ident = none ∧ s.function? d.ident = none ∧
      GenInit d.init d.exp s size vs w := by
  obtain ⟨g, size, vs, w, ⟨evs, rfl, -⟩, rfl, hdef⟩ := Def.gen_define hn h
  exact ⟨g, _, size, vs, _, rfl, hdef⟩

/-- Declarations outside all scopes add global variables. -/
theorem defs_global : ∀ {ds : List Def} {s t : State} {u : PUnit}, s.namedValues = [] → ds.forM Def.gen s = .ok u t →
    ∃ gs tr, t = { s with globals := s.globals ++ gs, trace := tr } ∧ gs.map (·.name) = ds.map (·.ident)
  | [], s, t, u, hn, h => by
    obtain rfl := forM_nil_ok.mp h
    exact ⟨[], t.trace, by simp, rfl⟩
  | d :: ds, s, t, u, hn, h => by
    obtain ⟨w, hd, h⟩ := forM_cons_ok.mp h
    obtain ⟨g, tr, -, -, -, rfl, hname, -⟩ := Def.gen_global hn hd
    obtain ⟨gs, tr', rfl, hnames⟩ := defs_global (s := { s with globals := s.globals ++ [g], trace := tr }) hn h
    exact ⟨g :: gs, tr', by simp, by simp [hname, hnames]⟩

theorem codeGenDecl_global {d : DeclNode} (hn : s.namedValues = []) (h : codeGenDecl d s = .ok u t) :
    ∃ gs tr, t = { s with globals := s.globals ++ gs, trace := tr } ∧ gs.map (·.name) = d.defs.map (·.ident) := by
  rw [codeGenDecl_defs] at h
  exact defs_global hn h

end Globals

/-! ### Functions -/

/-- The state after the epilogue: `ret void` unless the block ends with a return. -/
def State.retUnlessReturn (s : State) (p : InsertPoint) : State :=
  match (s.blocks p.block).getLast? with
  | some i => if i.isReturn then s else s.append [.ret none]
  | none => { s with emptyBack := true }.append [.ret none]

/-- The function a definition creates, before it has blocks. -/
def FuncNode.object (node : FuncNode) (s : State) : FunctionObj :=
  { name := (s.uniqueName node.ident).1, retTy := node.type.retTy, params := node.param.map (·.type.ty),
    layout := [] }

/-- The parameters, under the names of the arguments. -/
def FuncNode.args (node : FuncNode) : List (String × FParamType) :=
  (argNames (node.param.map (·.ident))).zip (node.param.map (·.type))

/-- The state with the new function's entry block entered, and the parameter layer. -/
def FuncNode.start (node : FuncNode) (s : State) : State :=
  (({ s with
    functions := s.functions ++ [node.object s]
    lastUnique := (s.uniqueName node.ident).2
    nextLabel := s.nextLabel + 1 }.enter s.functions.length s.nextLabel).pushLayer).log .push

section Functions
variable {s t : State} {u : Unit} {node : FuncNode}

theorem createFunction_ok {name : String} {retTy : Ty} {params : List Ty} {i : Nat} :
    createFunction name retTy params s = .ok i t ↔ i = s.functions.length ∧ t = { s with
      functions := s.functions ++ [{ name := (s.uniqueName name).1, retTy, params, layout := [] }]
      lastUnique := (s.uniqueName name).2 } := by
  unfold createFunction
  simp only [bind_ok, get_ok, set_ok, pure_ok]
  constructor
  · rintro ⟨_, _, ⟨rfl, rfl⟩, _, _, rfl, rfl, rfl⟩
    exact ⟨rfl, rfl⟩
  · rintro ⟨rfl, rfl⟩
    exact ⟨s, s, ⟨rfl, rfl⟩, ⟨⟩, _, rfl, rfl, rfl⟩

theorem createRetUnlessReturn_ok : createRetUnlessReturn s = .ok u t ↔
    ∃ p, s.insertPoint = some p ∧ t = s.retUnlessReturn p := by
  unfold createRetUnlessReturn State.retUnlessReturn
  simp only [bind_ok, backIs_ok]
  constructor
  · rintro ⟨b, w, ⟨p, hp, ⟨i, hi, rfl, rfl⟩ | ⟨hi, rfl, rfl⟩⟩, h⟩
    · refine ⟨p, hp, ?_⟩
      rw [hi]
      cases hb : i.isReturn
      · simpa [hb, createRetVoid, insert_ok] using h
      · simpa [hb, pure_ok] using h
    · refine ⟨p, hp, ?_⟩
      rw [hi]
      simpa [createRetVoid, insert_ok] using h
  · rintro ⟨p, hp, rfl⟩
    cases hi : (s.blocks p.block).getLast? with
    | none => exact ⟨false, _, ⟨p, hp, Or.inr ⟨hi, rfl, rfl⟩⟩, by simp [createRetVoid, insert_ok]⟩
    | some i =>
      refine ⟨i.isReturn, s, ⟨p, hp, Or.inl ⟨i, hi, rfl, rfl⟩⟩, ?_⟩
      cases hb : i.isReturn <;> simp [createRetVoid, insert_ok, pure_ok, hb]

variable [ConstantFolder]

theorem codeGenFunc_ok (h : codeGenFunc node s = .ok u t) : s.function? node.ident = none ∧ ∃ s₁ s₂ p,
    defineParams 0 node.args (node.start s) = .ok () s₁ ∧ codeGenBlock node.block s₁ = .ok () s₂ ∧
    s₂.insertPoint = some p ∧ t = (s₂.retUnlessReturn p).popLayer.log .pop := by
  unfold codeGenFunc at h
  obtain ⟨a, w, hget, h⟩ := bind_ok.mp h
  obtain ⟨ha, hw⟩ := get_ok.mp hget
  rw [ha, hw] at h
  cases hf : s.function? node.ident with
  | some f =>
    simp only [hf, Option.isSome_some, ↓reduceIte, bind_ok] at h
    obtain ⟨_, _, h, -⟩ := h
    exact (logError_ok.mp h).elim
  | none =>
    refine ⟨rfl, ?_⟩
    simp only [hf, Option.isSome_none, Bool.false_eq_true, ↓reduceIte, bind_ok, createFunction_ok, createBlock_ok,
      enterBlock_ok, pushNamedValuesLayer, popNamedValuesLayer, modify_ok, createRetUnlessReturn_ok] at h
    obtain ⟨_, _, ⟨rfl, rfl⟩, _, _, ⟨rfl, rfl⟩, _, _, rfl, _, _, rfl, _, s₁, h₁, _, s₂, h₂, _, _,
      ⟨p, hp, rfl⟩, rfl⟩ := h
    exact ⟨s₁, s₂, p, h₁, h₂, hp, rfl⟩

omit [ConstantFolder] in
theorem GenRun.retUnlessReturn {func base : Nat} {p : InsertPoint} : GenRun func base s (s.retUnlessReturn p) := by
  unfold State.retUnlessReturn
  split
  · split
    · exact .refl
    · exact .single (.terminator rfl)
  · exact .tail (.single .emptyBack) (.terminator rfl)

omit [ConstantFolder] in
theorem retUnlessReturn_namedValues (s : State) (p : InsertPoint) :
    (s.retUnlessReturn p).namedValues = s.namedValues := by
  unfold State.retUnlessReturn
  split
  · split
    · rfl
    · exact State.append_namedValues s _
  · exact State.append_namedValues _ _

omit [ConstantFolder] in
theorem retUnlessReturn_nestedBlocks (s : State) (p : InsertPoint) :
    (s.retUnlessReturn p).nestedBlocks = s.nestedBlocks := by
  unfold State.retUnlessReturn
  split
  · split
    · rfl
    · exact State.append_nestedBlocks s _
  · exact State.append_nestedBlocks _ _

theorem defineParams_run {func : Nat} (base : Nat) : ∀ {ps : List (String × FParamType)} {i : Nat} {s t : State},
    InFunc func s → defineParams i ps s = .ok () t → GenRun func base s t ∧ Defined s t
  | [], i, s, t, hf, h => by
    rw [defineParams] at h
    obtain ⟨-, rfl⟩ := pure_ok.mp h
    exact ⟨.refl, .refl hf.layers⟩
  | (x, ty) :: ps, i, s, t, hf, h => by
    rw [defineParams] at h
    obtain ⟨w, hw, h⟩ := seq_ok.mp h
    obtain ⟨r₁, d₁⟩ := defineValue_run base hf hw
    obtain ⟨r₂, d₂⟩ := defineParams_run base (hf.run r₁ d₁.layers) h
    exact ⟨r₁.trans r₂, d₁.trans d₂⟩

theorem codeGenBlock_stmt (items : List BlockItemNode) : codeGenBlock items = codeGenStmt (.block items) := by
  rw [codeGenBlock, codeGenStmt]

/-- Nothing is under way: no scope is open, and the blocks not made yet are empty. -/
structure Idle (s : State) : Prop where
  namedValues : s.namedValues = []
  nestedBlocks : s.nestedBlocks = []
  fresh : ∀ l : Nat, s.nextLabel ≤ l → s.blocks l = []
  layout : ∀ f ∈ s.functions, ∀ l ∈ f.layout, l < s.nextLabel

omit [ConstantFolder] in
theorem modify_last {α : Type} (f : α → α) (a : α) : ∀ l : List α, (l ++ [a]).modify l.length f = l ++ [f a]
  | [] => rfl
  | b :: l => by
    rw [List.cons_append, List.length_cons, List.modify_succ_cons, modify_last f a l, List.cons_append]

omit [ConstantFolder] in
theorem start_functions (node : FuncNode) (s : State) : (node.start s).functions =
    s.functions ++ [{ node.object s with layout := [s.nextLabel] }] := by
  show (s.functions ++ [node.object s]).modify s.functions.length _ = _
  rw [modify_last]
  rfl

omit [ConstantFolder] in
theorem start_prologue (hs : Idle s) : Prologue s.functions.length s.nextLabel (node.start s) where
  head := by
    rw [State.entry?, start_functions]
    simp
  entry_lt := Nat.lt_succ_self _
  point := ⟨s.nextLabel, rfl, Nat.le_refl _, Nat.lt_succ_self _⟩
  fresh l hl := hs.fresh l (Nat.le_of_succ_le hl)
  shape := ⟨[], [], by show s.blocks s.nextLabel = _; rw [hs.fresh _ (Nat.le_refl _)]; rfl, by simp, by simp⟩
  others l hl i hi := by
    have : s.blocks l = [] := hs.fresh l (Nat.le_of_lt hl)
    rw [show (node.start s).blocks l = s.blocks l from rfl, this] at hi
    cases hi
  slots := by
    rw [show (node.start s).blocks s.nextLabel = s.blocks s.nextLabel from rfl, hs.fresh _ (Nat.le_refl _)]
    exact List.nodup_nil
  slots_lt k hk := by
    rw [show (node.start s).blocks s.nextLabel = s.blocks s.nextLabel from rfl, hs.fresh _ (Nat.le_refl _)] at hk
    cases hk
  shapes k ty count hm := by
    rw [show (node.start s).blocks s.nextLabel = s.blocks s.nextLabel from rfl, hs.fresh _ (Nat.le_refl _)] at hm
    cases hm
  named layer hl b hb := by
    rw [show (node.start s).namedValues = [] :: s.namedValues from rfl, hs.namedValues, List.mem_singleton] at hl
    subst hl
    cases hb
  distinct := by
    rw [show (node.start s).namedValues = [] :: s.namedValues from rfl, hs.namedValues]
    exact List.nodup_nil

omit [ConstantFolder] in
theorem start_inFunc : InFunc s.functions.length (node.start s) :=
  ⟨⟨s.nextLabel, rfl⟩, List.cons_ne_nil _ _⟩

/-- The generation of a function: its parameters, its body, and the epilogue. -/
structure FuncRun (node : FuncNode) (s s₁ s₂ : State) (p : InsertPoint) (t : State) : Prop where
  params : defineParams 0 node.args (node.start s) = .ok () s₁
  body : codeGenStmt (.block node.block) s₁ = .ok () s₂
  point : s₂.insertPoint = some p
  result : t = (s₂.retUnlessReturn p).popLayer.log .pop
  paramsRun : GenRun s.functions.length (s.nextLabel + 1) (node.start s) s₁
  bodyRun : GenRun s.functions.length (s.nextLabel + 1) s₁ s₂
  defined : Defined (node.start s) s₁
  restored : Restored s₁ s₂

theorem codeGenFunc_run (h : codeGenFunc node s = .ok u t) : ∃ s₁ s₂ p, FuncRun node s s₁ s₂ p t := by
  obtain ⟨-, s₁, s₂, p, h₁, h₂, hp, rfl⟩ := codeGenFunc_ok h
  rw [codeGenBlock_stmt] at h₂
  obtain ⟨r₁, d₁⟩ := defineParams_run (s.nextLabel + 1) start_inFunc h₁
  obtain ⟨r₂, k₂⟩ := codeGenStmt_run _ (start_inFunc.run r₁ d₁.layers) r₁.nextLabel_le h₂
  exact ⟨s₁, s₂, p, h₁, h₂, hp, rfl, r₁, r₂, d₁, k₂⟩

/-- The whole run of a function's generation, the epilogue included. -/
theorem FuncRun.run {s₁ s₂ : State} {p : InsertPoint} (h : FuncRun node s s₁ s₂ p t) :
    GenRun s.functions.length (s.nextLabel + 1) (node.start s) t := by
  rw [h.result]
  exact h.paramsRun.trans (h.bodyRun.trans (GenRun.retUnlessReturn.trans (.head .popLayer (GenRun.emits (.log _)))))

end Functions

/-! ### Top-level items -/

/-- What a top-level item leaves alone: the functions and the global variables there are, and their code. -/
structure Extends (s t : State) : Prop where
  functions : ∃ fs, t.functions = s.functions ++ fs
  globals : ∃ gs, t.globals = s.globals ++ gs
  blocks : ∀ l : Nat, l < s.nextLabel → t.blocks l = s.blocks l
  nextLabel : s.nextLabel ≤ t.nextLabel

section Items
variable {s t u : State} {node : FuncNode}

theorem Extends.refl (s : State) : Extends s s :=
  ⟨⟨[], by simp⟩, ⟨[], by simp⟩, fun _ _ => rfl, Nat.le_refl _⟩

theorem Extends.trans (h₁ : Extends s t) (h₂ : Extends t u) : Extends s u := by
  obtain ⟨⟨fs, hf⟩, ⟨gs, hg⟩, hb, hl⟩ := h₁
  obtain ⟨⟨fs', hf'⟩, ⟨gs', hg'⟩, hb', hl'⟩ := h₂
  exact ⟨⟨fs ++ fs', by rw [hf', hf, List.append_assoc]⟩, ⟨gs ++ gs', by rw [hg', hg, List.append_assoc]⟩,
    fun l h => by rw [hb' l (Nat.lt_of_lt_of_le h hl), hb l h], Nat.le_trans hl hl'⟩

variable [ConstantFolder]

theorem FuncRun.grows {s₁ s₂ : State} {p : InsertPoint} (hs : Idle s) (h : FuncRun node s s₁ s₂ p t) :
    Grows s.functions.length (s.nextLabel + 1) s.nextLabel s.nextLabel (node.start s) t :=
  h.run.grows ⟨s.nextLabel, rfl, Or.inl rfl⟩ (start_prologue hs).head

/-- The function a definition leaves: its entry block first, and blocks of its own. -/
theorem FuncRun.functions {s₁ s₂ : State} {p : InsertPoint} (hs : Idle s) (h : FuncRun node s s₁ s₂ p t) :
    ∃ ls : List Nat, (∀ l ∈ ls, s.nextLabel < l ∧ l < t.nextLabel) ∧
      t.functions = s.functions ++ [{ node.object s with layout := s.nextLabel :: ls }] := by
  obtain ⟨ls, hl, hf⟩ := (h.grows hs).functions
  refine ⟨ls, fun l hm => hl l hm, ?_⟩
  rw [hf, start_functions, modify_last]
  rfl

theorem codeGenFunc_extends (hs : Idle s) (h : codeGenFunc node s = .ok () t) : Extends s t := by
  obtain ⟨s₁, s₂, p, hr⟩ := codeGenFunc_run h
  have g := hr.grows hs
  obtain ⟨ls, -, hf⟩ := hr.functions hs
  refine ⟨⟨_, hf⟩, ⟨[], by rw [g.globals]; simp; rfl⟩, fun l hl => ?_, Nat.le_trans (Nat.le_succ _) g.nextLabel⟩
  obtain ⟨as, js, hb, ha, hj⟩ := g.blocks l
  have hne : l ≠ s.nextLabel := Nat.ne_of_lt hl
  have hlt : l < s.nextLabel + 1 := Nat.lt_succ_of_lt hl
  rw [hb.1, ha hne, hj hlt hne]
  simp
  rfl

theorem codeGenFunc_idle (hs : Idle s) (h : codeGenFunc node s = .ok () t) : Idle t := by
  obtain ⟨s₁, s₂, p, hr⟩ := codeGenFunc_run h
  obtain ⟨ls, hl, hf⟩ := hr.functions hs
  have hnew : s.nextLabel < t.nextLabel := (hr.grows hs).nextLabel
  refine ⟨?_, ?_, (hr.run.prologue (Nat.le_succ _) (start_prologue hs)).fresh, fun f hm l hm' => ?_⟩
  · rw [hr.result]
    show (s₂.retUnlessReturn p).namedValues.tail = []
    rw [retUnlessReturn_namedValues, hr.restored.namedValues, hr.defined.outer]
    exact hs.namedValues
  · rw [hr.result]
    show (s₂.retUnlessReturn p).nestedBlocks = []
    rw [retUnlessReturn_nestedBlocks, hr.restored.nestedBlocks, hr.defined.nestedBlocks]
    exact hs.nestedBlocks
  · rw [hf, List.mem_append, List.mem_singleton] at hm
    rcases hm with hm | rfl
    · exact Nat.lt_trans (hs.layout f hm l hm') hnew
    · rcases List.mem_cons.mp hm' with rfl | hm'
      · exact hnew
      · exact (hl l hm').2

theorem codeGenDecl_extends {d : DeclNode} (hs : Idle s) (h : codeGenDecl d s = .ok () t) : Extends s t ∧ Idle t := by
  obtain ⟨gs, tr, rfl, -⟩ := codeGenDecl_global hs.namedValues h
  exact ⟨⟨⟨[], by simp⟩, ⟨gs, rfl⟩, fun _ _ => rfl, Nat.le_refl _⟩,
    hs.namedValues, hs.nestedBlocks, hs.fresh, hs.layout⟩

/-- A top-level item keeps what there was, and leaves nothing under way. -/
theorem codeGenTopItem_extends {item : TopItem} (hs : Idle s) (h : codeGenTopItem item s = .ok () t) :
    Extends s t ∧ Idle t := by
  cases item with
  | decl d => exact codeGenDecl_extends hs h
  | func f => exact ⟨codeGenFunc_extends hs h, codeGenFunc_idle hs h⟩

theorem codeGenProgram_items : ∀ prog : ProgNode, codeGenProgram prog = prog.items.forM codeGenTopItem
  | .decl d => by rw [codeGenProgram, ProgNode.items]; simp [List.forM_eq_forM, codeGenTopItem]
  | .func f => by rw [codeGenProgram, ProgNode.items]; simp [List.forM_eq_forM, codeGenTopItem]
  | .progDecl p d => by
    rw [codeGenProgram, ProgNode.items, codeGenProgram_items p, List.forM_eq_forM, List.forM_append]
    simp [codeGenTopItem]
  | .progFunc p f => by
    rw [codeGenProgram, ProgNode.items, codeGenProgram_items p, List.forM_eq_forM, List.forM_append]
    simp [codeGenTopItem]

/-- The state with the library functions declared. -/
def State.library : State :=
  { functions := standardLibrary.map fun f => { name := f.1, retTy := f.2.1, params := f.2.2, layout := [] } }

omit [ConstantFolder] in
theorem createFunctions_ok : ∀ {fs : List (String × Ty × List Ty)} {s t : State} {u : PUnit},
    (fs.map (·.1)).Nodup → (∀ f ∈ fs, f.1 ∉ s.symbols) →
    (fs.forM (fun (name, retTy, params) => discard (createFunction name retTy params) : _ → CG PUnit) s = .ok u t ↔
      t = { s with
        functions := s.functions ++ fs.map fun f => { name := f.1, retTy := f.2.1, params := f.2.2, layout := [] } })
  | [], s, t, u, _, _ => by
    rw [forM_nil_ok]
    simp
  | (x, r, ps) :: fs, s, t, u, hn, hs => by
    obtain ⟨hx, hn⟩ := List.nodup_cons.mp hn
    have hname : s.uniqueName x = (x, s.lastUnique) := uniqueName_of_not_mem (hs _ List.mem_cons_self)
    have hrest : ∀ f ∈ fs, f.1 ∉ State.symbols { s with
        functions := s.functions ++ [{ name := x, retTy := r, params := ps, layout := [] }] } := by
      intro f hf hm
      have h := hs f (List.mem_cons_of_mem _ hf)
      simp only [State.symbols, List.map_append, List.map_cons, List.map_nil, List.mem_append,
        List.mem_singleton] at hm h
      rcases hm with (hm | hm) | hm
      · exact h (Or.inl hm)
      · exact hx (List.mem_map.mpr ⟨f, hf, hm⟩)
      · exact h (Or.inr hm)
    rw [forM_cons_ok]
    simp only [discard_ok, createFunction_ok, hname]
    constructor
    · rintro ⟨w, ⟨_, -, rfl⟩, h⟩
      rw [(createFunctions_ok hn hrest).mp h]
      simp
    · rintro rfl
      exact ⟨_, ⟨_, rfl, rfl⟩, (createFunctions_ok hn hrest).mpr (by simp)⟩

omit [ConstantFolder] in
theorem codeGenStandardLibrary_ok {u : Unit} : codeGenStandardLibrary {} = .ok u t ↔ t = State.library := by
  unfold codeGenStandardLibrary
  rw [createFunctions_ok (by decide) (by simp [State.symbols])]
  simp [State.library]

omit [ConstantFolder] in
theorem library_idle : Idle State.library where
  namedValues := rfl
  nestedBlocks := rfl
  fresh _ _ := rfl
  layout f hf l hl := by
    obtain ⟨g, -, rfl⟩ := List.mem_map.mp hf
    cases hl

theorem accepts_items {node : EntryNode} : Accepts node s ↔
    node.prog.items.forM codeGenTopItem State.library = .ok ⟨⟩ s := by
  unfold Accepts compile codeGenEntry
  rw [bind_ok, codeGenProgram_items]
  constructor
  · rintro ⟨_, w, hl, h⟩
    rw [codeGenStandardLibrary_ok.mp hl] at h
    exact h
  · exact fun h => ⟨⟨⟩, _, codeGenStandardLibrary_ok.mpr rfl, h⟩

/-- A property of idle states that every item keeps holds after all of them. -/
theorem items_induct {P : List TopItem → State → Prop}
    (step : ∀ {items : List TopItem} {item : TopItem} {s t : State}, P items s → Idle s →
      codeGenTopItem item s = .ok () t → P (items ++ [item]) t) :
    ∀ {items done : List TopItem} {s t : State}, P done s → Idle s → items.forM codeGenTopItem s = .ok ⟨⟩ t →
      P (done ++ items) t ∧ Idle t
  | [], done, s, t, hp, hs, h => by
    obtain rfl := forM_nil_ok.mp h
    exact ⟨by simpa using hp, hs⟩
  | item :: items, done, s, t, hp, hs, h => by
    obtain ⟨w, hw, h⟩ := forM_cons_ok.mp h
    have := items_induct step (step hp hs hw) (codeGenTopItem_extends hs hw).2 h
    simpa using this

/-- What every item keeps holds of an accepted program. -/
theorem accepts_induct {node : EntryNode} {P : List TopItem → State → Prop} (h : Accepts node s)
    (library : P [] State.library)
    (step : ∀ {items : List TopItem} {item : TopItem} {s t : State}, P items s → Idle s →
      codeGenTopItem item s = .ok () t → P (items ++ [item]) t) : P node.prog.items s :=
  (items_induct step library library_idle (accepts_items.mp h)).1

/-- An invariant of the items holds at the end of an accepted program. -/
theorem accepts_invariant {node : EntryNode} {P : State → Prop} (h : Accepts node s) (library : P State.library)
    (step : ∀ {item : TopItem} {s t : State}, P s → Idle s → codeGenTopItem item s = .ok () t → P t) : P s := by
  let Q : List TopItem → State → Prop := fun _ s => P s
  exact accepts_induct (P := Q) h library step

end Items

end L24
