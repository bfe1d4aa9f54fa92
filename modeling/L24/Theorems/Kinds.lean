import L24.Kinds
import L24.Theorems.Flow

/-! Kinds: the type of the value that the builder makes of an expression, and what declarations add. -/

namespace L24
open Ir Relation

/-! ### Lookups -/

section Lookups
variable {s t : State} {x : String}

theorem lookup_map {α β : Type} (key : α → String) (val : α → β) (x : String) : ∀ l : List α,
    (l.map fun a => (key a, val a)).lookup x = (l.find? fun a => key a == x).map val
  | [] => rfl
  | a :: l => by
    rw [List.map_cons, List.lookup_cons, List.find?_cons, Bool.beq_comm]
    cases h : key a == x
    · exact lookup_map key val x l
    · rfl

theorem kinds_function? :
    s.kinds.functions.lookup x = (s.function? x).map fun f => (kindOf f.retTy, f.params.map kindOf) :=
  lookup_map _ _ x s.functions

theorem lookup_map_snd {α β : Type} (val : α → β) (x : String) : ∀ l : List (String × α),
    (l.map fun b => (b.1, val b.2)).lookup x = (l.lookup x).map val
  | [] => rfl
  | (y, a) :: l => by
    rw [List.map_cons, List.lookup_cons, List.lookup_cons]
    cases x == y
    · exact lookup_map_snd val x l
    · rfl

theorem kinds_local? : s.kinds.local? x = (s.lookup x).map fun nv => kindOf nv.alloca.ty := by
  rw [Kinds.local?, State.kinds, State.lookup]
  induction s.namedValues with
  | nil => rfl
  | cons layer outer ih =>
    rw [List.map_cons, List.findSome?_cons, List.findSome?_cons, layerKinds,
      lookup_map_snd fun nv : NamedValue => kindOf nv.alloca.ty]
    cases layer.lookup x
    · exact ih
    · rfl

theorem Emits.kinds {is : List Inst} (e : Emits s is t) : t.kinds = s.kinds := by
  rw [State.kinds, e.namedValues, e.globals, e.functions, e.lastUnique, State.kinds]

end Lookups

/-! ### Expressions -/

section Exps
variable {s t u : State} {v a b c : Value}

variable [ConstantFolder]

theorem createBinOp_ty {op : BinOp} (h : createBinOp op a b s = .ok v t)
    (hconst : ∀ c d, a = .const c → b = .const d → c.ty = d.ty) : v.ty = a.ty := by
  rcases createBinOp_ok.mp h with ⟨c, d, rfl, rfl, rfl, -⟩ | ⟨-, rfl, -⟩
  · exact binOpFold_ty op (hconst c d rfl rfl)
  · rfl

theorem createICmp_ty {p : Pred} (h : createICmp p a b s = .ok v t) : v.ty = .i1 := by
  rcases createICmp_ok.mp h with ⟨c, d, rfl, rfl, rfl, -⟩ | ⟨-, rfl, -⟩
  · exact predFold_ty ..
  · rfl

theorem createIntCast_ty (h : createIntCast a s = .ok v t) : v.ty = .i64 := by
  rcases createIntCast_ok.mp h with ⟨ha, rfl, -⟩ | ⟨-, ⟨c, rfl, rfl, -⟩ | ⟨-, rfl, -⟩⟩
  · exact ha
  · exact foldZExt_ty c
  · rfl

/-- The type of what a read gives, inside a function. -/
theorem getValue_kind {x : String} {sub : Option Value} (h : getValue x sub s = .ok v t) (hn : s.namedValues ≠ []) :
    s.kinds.read x sub.isSome = some (kindOf v.ty) := by
  rw [Kinds.read, kinds_local?]
  rcases getValue_ok h with ⟨nv, hx, h⟩ | ⟨hx, h⟩
  · rw [hx]
    rcases createGetValueInst_ok h with ⟨rfl, ⟨n, elt, hty⟩, rfl, -⟩ | ⟨rfl, hty, rfl, -⟩ | ⟨i, p, w, rfl, -, rfl, -⟩
    · simp [hty, kindOf, Value.ty]
    · cases hk : nv.alloca.ty with
      | array n elt => exact absurd hk (hty n elt)
      | _ => simp [hk, kindOf, Value.ty]
    · cases hk : nv.alloca.ty <;> simp [hk, kindOf, Value.ty]
  · rw [hx]
    obtain ⟨g, hg, ⟨-, hn', -⟩ | ⟨-, -, rfl, -⟩ | ⟨i, p, w, -, -, rfl, -⟩⟩ := getGlobalValue_ok h
    · exact absurd hn' hn
    · exact congrArg (Option.map fun g => kindOf g.valueTy) hg
    · exact congrArg (Option.map fun g => kindOf g.valueTy) hg

/-- The constants that expressions give in a function are integers. -/
theorem genExp_const_ty {e : Exp} {k : Const} (hn : s.namedValues ≠ []) (h : genExp e s = .ok (.const k) t) :
    k.ty = .i64 := by
  rcases genExp_folds e hn h with ⟨hl, hk, -⟩ | ⟨-, hk, -⟩
  · cases hk
    exact numeric_ty (e.fold_numeric hl)
  · cases hk

/-- The kind of an expression is the kind of its value's type. -/
theorem genExp_kind : ∀ (e : Exp) {s t : State} {v : Value}, genExp e s = .ok v t → s.namedValues ≠ [] →
    e.kind s.kinds = some (kindOf v.ty)
  | .number n, s, t, v, h, _ => by
    rw [genExp] at h
    obtain ⟨rfl, -⟩ := pure_ok.mp h
    rfl
  | .name x, s, t, v, h, hn => by
    rw [genExp] at h
    exact getValue_kind h hn
  | .index x e, s, t, v, h, hn => by
    obtain ⟨i, u, hi, h⟩ := genExp_index_ok.mp h
    obtain ⟨is, em⟩ := genExp_emits e hi
    have hk := getValue_kind h (by rw [em.namedValues]; exact hn)
    rwa [em.kinds] at hk
  | .call f args, s, t, v, h, _ => by
    obtain ⟨func, vs, u, hf, -, -, rfl, -⟩ := genExp_call_ok.mp h
    rw [Exp.kind, kinds_function?, hf]
    rfl
  | .unary op e, s, t, v, h, hn => by
    obtain ⟨x, u, hx, h⟩ := genExp_unary_ok.mp h
    cases op with
    | plus =>
      obtain ⟨rfl, -⟩ := h
      exact genExp_kind e hx hn
    | minus =>
      -- `0 - x` has the type of its left operand, and that zero is of the type of `x`.
      have hty : v.ty = x.ty := by
        refine (createBinOp_ty h.2 ?_).trans (nullValue_ty _)
        rintro c d hc rfl
        rw [← Value.const.inj hc, nullValue_ty]
        rfl
      rw [hty]
      exact genExp_kind e hx hn
    | not =>
      obtain ⟨b, w, -, h⟩ := h
      rw [createIntCast_ty h]
      rfl
  | .arith op a b, s, t, v, h, hn => by
    obtain ⟨x, u, y, w, hx, hy, h⟩ := genExp_arith_ok.mp h
    obtain ⟨is, e⟩ := genExp_emits a hx
    have hnu : u.namedValues ≠ [] := by
      rw [e.namedValues]
      exact hn
    -- The sum has the type of its left operand; two constants are both `i64` here.
    rw [createBinOp_ty h]
    swap
    · rintro c d rfl rfl
      rw [genExp_const_ty hn hx, genExp_const_ty hnu hy]
    exact genExp_kind a hx hn
  | .cmp p a b, s, t, v, h, _ => by
    obtain ⟨x, u, y, w, c, k, -, -, -, h⟩ := genExp_cmp_ok.mp h
    rw [createIntCast_ty h]
    rfl
  | .land a b, s, t, v, h, _ => by
    obtain ⟨lv, rv, w, c, k, -, -, h⟩ := genExp_land_ok.mp h
    rw [createIntCast_ty h]
    rfl
  | .lor a b, s, t, v, h, _ => by
    obtain ⟨lv, rv, w, c, k, -, -, h⟩ := genExp_lor_ok.mp h
    rw [createIntCast_ty h]
    rfl

theorem codeGenExp_kind {e : ExprNode} (h : codeGenExp e s = .ok v t) (hn : s.namedValues ≠ []) :
    e.core.kind s.kinds = some (kindOf v.ty) := genExp_kind e.core (codeGenExp_core e ▸ h) hn

omit [ConstantFolder] in
theorem kindOf_eq_int {ty : Ty} : kindOf ty = .int ↔ ty = .i64 := by cases ty <;> simp [kindOf]

end Exps

/-! ### Declarations -/

section Declarations
variable {func base : Nat} {s t : State}

theorem map_modify_of_eq {α β : Type} {g : α → β} {f : α → α} (h : ∀ a, g (f a) = g a) :
    ∀ (l : List α) (i : Nat), (l.modify i f).map g = l.map g
  | [], i => by rw [List.modify_nil]
  | a :: l, 0 => by
    rw [List.modify_zero_cons, List.map_cons, List.map_cons, h]
  | a :: l, i + 1 => by
    rw [List.modify_succ_cons, List.map_cons, List.map_cons, map_modify_of_eq h]

/-- Only the layouts of functions change while one is generated. -/
theorem GenStep.map_functions {α : Type} {g : FunctionObj → α} (hg : ∀ f ls, g { f with layout := ls } = g f)
    (h : GenStep func base s t) : t.functions.map g = s.functions.map g := by
  cases h with
  | emits e => rw [e.functions]
  | terminator => rw [State.append_functions]
  | enter => exact map_modify_of_eq (fun f => hg f _) s.functions func
  | define hn hx he ha hs hw => exact congrArg _ hw.functions
  | _ => rfl

theorem GenRun.map_functions {α : Type} {g : FunctionObj → α} (hg : ∀ f ls, g { f with layout := ls } = g f)
    (h : GenRun func base s t) : t.functions.map g = s.functions.map g := by
  induction h with
  | refl => rfl
  | tail _ h ih => exact (h.map_functions hg).trans ih

theorem GenStep.globals (h : GenStep func base s t) : t.globals = s.globals := by
  cases h with
  | emits e => exact e.globals
  | terminator => exact State.append_globals s _
  | define hn hx he ha hs hw => exact hw.globals
  | _ => rfl

theorem GenStep.lastUnique (h : GenStep func base s t) : t.lastUnique = s.lastUnique := by
  cases h with
  | emits e => exact e.lastUnique
  | terminator => exact State.append_lastUnique s _
  | define hn hx he ha hs hw => exact hw.lastUnique
  | _ => rfl

theorem GenRun.globals (h : GenRun func base s t) : t.globals = s.globals := by
  induction h with
  | refl => rfl
  | tail _ h ih => exact h.globals.trans ih

theorem GenRun.lastUnique (h : GenRun func base s t) : t.lastUnique = s.lastUnique := by
  induction h with
  | refl => rfl
  | tail _ h ih => exact h.lastUnique.trans ih

theorem kinds_locals : s.kinds.locals = s.namedValues.map layerKinds := rfl

/-- Only variables are declared while a function is generated. -/
theorem GenRun.outer_kinds (h : GenRun func base s t) : t.kinds = { s.kinds with locals := t.kinds.locals } := by
  have hsig : t.functions.map FunctionObj.signature = s.functions.map FunctionObj.signature :=
    h.map_functions fun _ _ => rfl
  rw [State.kinds, hsig, h.globals, h.lastUnique, State.kinds]

/-- Where the scope tables are the same again, so are the kinds. -/
theorem GenRun.kinds (h : GenRun func base s t) (hn : t.namedValues = s.namedValues) : t.kinds = s.kinds := by
  rw [h.outer_kinds, kinds_locals, hn, ← kinds_locals]

/-- A statement leaves the kinds as they were. -/
theorem Restored.kinds (h : Restored s t) (r : GenRun func base s t) : t.kinds = s.kinds := r.kinds h.namedValues

theorem createEntryBlockAlloca_kind {size : Option Value} {isPtr : Bool} {a : AllocaInst}
    (h : createEntryBlockAlloca func size isPtr s = .ok a t) :
    kindOf a.ty = if size.isSome then .array else if isPtr then .pointer else .int := by
  obtain ⟨entry, -, ⟨rfl, rfl, -⟩ | ⟨sz, n, rfl, -, rfl, -⟩⟩ := createEntryBlockAlloca_ok.mp h
  · cases isPtr <;> rfl
  · rfl

variable [ConstantFolder]

theorem defineValue_kinds {x : String} {ty : ValType} {vals : List Value} {size : Option Value} {isPtr : Bool}
    (hf : InFunc func s) (h : defineValue x ty vals size isPtr s = .ok () t) :
    t.kinds = s.kinds.declare x (if size.isSome then .array else if isPtr then .pointer else .int) := by
  obtain ⟨r, -⟩ := defineValue_run 0 hf h
  rcases defineValue_ok h with ⟨hn, -⟩ | ⟨layer, outer, a, w, hn, -, hw, rfl⟩
  · exact absurd hn hf.layers
  · obtain ⟨p, w', -, hw', -⟩ := createDefineValueInst_ok hw
    obtain ⟨_, _, _, _, _, _, _, e⟩ := createDefineValueInst_step hw
    have hnw : w.namedValues = layer :: outer := e.namedValues.trans hn
    have hl : ((w.bind x (ty.named a)).log (.define x ty (.local a))).namedValues =
        ((x, ty.named a) :: layer) :: outer := by
      simp [State.log, State.bind, hnw]
    rw [r.outer_kinds, kinds_locals, hl, Kinds.declare, kinds_locals, hn, ← createEntryBlockAlloca_kind hw']
    simp [layerKinds, ty.named_alloca]

theorem Def.gen_kinds {d : Def} (hf : InFunc func s) (h : d.gen s = .ok () t) :
    t.kinds = s.kinds.declare d.ident d.kind := by
  obtain ⟨size, vs, w, hi, h⟩ := codeGenDef_ok.mp h
  obtain ⟨is, e⟩ := hi.emits
  have hk := defineValue_kinds (hf.emits e) h
  rw [e.kinds] at hk
  rw [hk, Def.kind]
  unfold GenInit at hi
  cases hd : d.exp with
  | none =>
    rw [hd] at hi
    obtain ⟨rfl, -⟩ := hi
    rfl
  | some e =>
    rw [hd] at hi
    obtain ⟨sz, _, rfl, -⟩ := hi
    rfl

theorem defs_kinds : ∀ {ds : List Def} {s t : State}, InFunc func s → ds.forM Def.gen s = .ok ⟨⟩ t →
    t.kinds = s.kinds.define ds
  | [], s, t, _, h => by
    obtain rfl := forM_nil_ok.mp h
    rfl
  | d :: ds, s, t, hf, h => by
    obtain ⟨w, hd, h⟩ := forM_cons_ok.mp h
    obtain ⟨r, k⟩ := Def.gen_run 0 hf hd
    rw [defs_kinds (hf.run r k.layers) h, Def.gen_kinds hf hd]
    rfl

theorem codeGenBlockItem_kinds (item : BlockItemNode) (hf : InFunc func s) (h : codeGenBlockItem item s = .ok () t) :
    t.kinds = item.declared s.kinds := by
  cases item with
  | decl d =>
    rw [codeGenBlockItem_decl, codeGenDecl_defs] at h
    exact defs_kinds hf h
  | stmt st =>
    rw [codeGenBlockItem_stmt] at h
    obtain ⟨r, k⟩ := codeGenStmt_run st hf (Nat.zero_le _) h
    exact k.kinds r

theorem defineParams_kinds : ∀ {ps : List (String × FParamType)} {i : Nat} {s t : State}, InFunc func s →
    defineParams i ps s = .ok () t → t.kinds = ps.foldl (fun k p => k.declare p.1 p.2.kind) s.kinds
  | [], i, s, t, _, h => by
    rw [defineParams] at h
    obtain ⟨-, rfl⟩ := pure_ok.mp h
    rfl
  | (x, ty) :: ps, i, s, t, hf, h => by
    rw [defineParams] at h
    obtain ⟨w, hw, h⟩ := seq_ok.mp h
    obtain ⟨r, d⟩ := defineValue_run 0 hf hw
    have hty : (if (none : Option Value).isSome then Kind.array else if ty.isPtr then .pointer else .int) =
        ty.kind := by
      cases ty <;> rfl
    have hk := defineValue_kinds hf hw
    rw [hty] at hk
    rw [defineParams_kinds (hf.run r d.layers) h, hk, List.foldl_cons]

section If
variable {e : ExprNode} {thenStmt : StmtNode} {elseStmt : Option StmtNode} {v c : Value} {s₁ s₂ s₃ s₄ : State}
  {q r : InsertPoint}

/-- The branches of an `if` see the kinds from before it. -/
theorem IfRun.kinds (h : IfRun func e thenStmt elseStmt s v s₁ c s₂ s₃ q s₄ r t) :
    (s₂.thenStart func c).kinds = s.kinds ∧
      ((s₃.brUnlessBranch q (s₂.nextLabel + 2)).enter func (s₂.nextLabel + 1)).kinds = s.kinds := by
  obtain ⟨is, em⟩ := h.emits
  have hn : (s₂.thenStart func c).namedValues = s.namedValues := (State.append_namedValues _ _).trans em.namedValues
  have hthen : (s₂.thenStart func c).kinds = s.kinds := h.start.kinds hn
  have hn' : ((s₃.brUnlessBranch q (s₂.nextLabel + 2)).enter func (s₂.nextLabel + 1)).namedValues = s₃.namedValues :=
    brUnlessBranch_namedValues _ _ _
  refine ⟨hthen, ?_⟩
  rw [h.middle.kinds hn', h.thenRestored.kinds h.thenRun, hthen]

end If

section While
variable {e : ExprNode} {body : StmtNode} {v c : Value} {s₁ s₂ s₃ : State} {q : InsertPoint}

omit [ConstantFolder] in
theorem loopStart_kinds : (s.loopStart func).kinds = s.kinds :=
  loopStart_run.kinds loopStart_namedValues

theorem WhileRun.kinds (h : WhileRun func e body s v s₁ c s₂ s₃ q t) :
    (s₂.bodyStart func c s.nextLabel).kinds = s.kinds := by
  obtain ⟨is, em⟩ := h.emits
  refine h.start.kinds ?_
  exact (State.append_namedValues _ _).trans (em.namedValues.trans loopStart_namedValues)

end While

/-- The kinds where the body of a function begins. -/
theorem FuncRun.kinds {node : FuncNode} {s₁ s₂ : State} {p : InsertPoint} (h : FuncRun node s s₁ s₂ p t) :
    s₁.kinds = s.kinds.inFunc node := by
  have htaken : s.kinds.functions.map (·.1) ++ s.kinds.globals.map (·.name) = s.symbols := by
    simp [State.kinds, State.symbols, FunctionObj.signature, Function.comp_def]
  have hstart : (node.start s).kinds = Kinds.push { s.kinds with
      functions := s.kinds.functions ++
        [((s.uniqueName node.ident).1, kindOf node.type.retTy, node.param.map (·.type.kind))]
      lastUnique := (s.uniqueName node.ident).2 } := by
    rw [State.kinds, start_functions]
    simp [State.kinds, Kinds.push, FuncNode.start, State.pushLayer, State.log, State.enter, State.appendBlock,
      layerKinds,
      FunctionObj.signature, FuncNode.object, FParamType.kind, Function.comp_def]
  rw [defineParams_kinds start_inFunc h.params, hstart, Kinds.inFunc, htaken]
  rfl

end Declarations

end L24
