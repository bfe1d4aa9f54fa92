import L24.Theorems.Forms

/-! Redeclarations: a second declaration of a name in one scope stops code generation, except for the
    parameters of a function, whose arguments get different names. -/

namespace L24
open Ir Relation

/-! ### Null pointers and messages -/

/-- The step does not stop with a message. -/
def Unlogged {α : Type} (m : CG α) : Prop := ∀ (s u : State) (e : Stop), m s = .error e u → e.isLogged = false

section Unlogged
variable {α β : Type} {s u : State}

theorem Unlogged.bind {m : CG α} {f : α → CG β} (hm : Unlogged m) (hf : ∀ a, Unlogged (f a)) :
    Unlogged (m >>= f) := by
  intro s u e h
  rcases bind_error.mp h with h | ⟨a, w, -, h⟩
  · exact hm s u e h
  · exact hf a w u e h

theorem unlogged_pure {a : α} : Unlogged (pure a : CG α) := fun _ _ _ h => nomatch h

theorem unlogged_get : Unlogged (get : CG State) := fun _ _ _ h => nomatch h

theorem unlogged_set {t : State} : Unlogged (set t : CG PUnit) := fun _ _ _ h => nomatch h

theorem unlogged_modify {f : State → State} : Unlogged (modify f : CG PUnit) := fun _ _ _ h => nomatch h

theorem unlogged_deref {o : Option α} : Unlogged (deref o) := by
  intro s u e h
  cases o with
  | none =>
    cases h
    rfl
  | some a => cases h

theorem Unlogged.not_logs {m : CG α} {msg : String} (hm : Unlogged m) : m s ≠ .error (.logError msg) u := by
  intro h
  cases hm _ _ _ h

theorem unlogged_createStore {v p : Value} : Unlogged (createStore v p) := by
  unfold createStore
  refine (unlogged_get.bind fun s => unlogged_deref).bind fun _ => ?_
  split
  · exact .bind (fun s u e h => by cases h; rfl) fun _ => unlogged_modify
  · exact unlogged_pure.bind fun _ => unlogged_modify

theorem unlogged_createEntryBlockAlloca {func : Nat} {size : Option Value} {isPtr : Bool} :
    Unlogged (createEntryBlockAlloca func size isPtr) := by
  refine unlogged_get.bind fun s => unlogged_deref.bind fun entry => ?_
  cases size with
  | none => exact unlogged_set.bind fun _ => unlogged_pure
  | some size => exact unlogged_deref.bind fun n => unlogged_set.bind fun _ => unlogged_pure

variable [ConstantFolder]

theorem unlogged_createGEP {ty : Ty} {p i j : Value} : Unlogged (createGEP ty p i j) := by
  intro s u e h
  obtain ⟨v, w, is, hv, -⟩ := createGEP_total (s := s) ty p i j
  rw [hv] at h
  cases h

theorem unlogged_storeElements {a : AllocaInst} : ∀ {vals : List Value} {idx : Nat}, Unlogged (storeElements a idx vals)
  | [], _ => by
    rw [storeElements]
    exact unlogged_pure
  | v :: vals, idx => by
    rw [storeElements]
    exact unlogged_createGEP.bind fun _ => unlogged_createStore.bind fun _ => unlogged_storeElements

theorem unlogged_createDefineValueInst {vals : List Value} {size : Option Value} {isPtr : Bool} :
    Unlogged (createDefineValueInst vals size isPtr) := by
  refine (unlogged_get.bind fun s => unlogged_deref).bind fun p =>
    unlogged_createEntryBlockAlloca.bind fun a => ?_
  cases size with
  | none => exact unlogged_deref.bind fun v => unlogged_createStore.bind fun _ => unlogged_pure
  | some size => exact unlogged_storeElements.bind fun _ => unlogged_pure

omit [ConstantFolder] in
theorem unlogged_insertGlobal {x : String} {ty : Ty} {o : Option α} {mk : α → Const} : Unlogged (do
    getOrInsertGlobal x ty
    let val ← deref o
    let g ← deref ((← get).global? x)
    modify (·.setInitializer g.name (mk val)) : CG Unit) :=
  unlogged_modify.bind fun _ => unlogged_deref.bind fun _ => unlogged_get.bind fun _ =>
    unlogged_deref.bind fun _ => unlogged_modify

omit [ConstantFolder] in
/-- A global definition is logged as an error exactly if there is a variable of that name. -/
theorem defineGlobalValue_logError {x : String} {vals : List Value} {size : Option Value} :
    (∃ msg u, defineGlobalValue x vals size s = .error (.logError msg) u) ↔ (s.global? x).isSome = true := by
  cases hg : s.global? x with
  | some g =>
    refine ⟨fun _ => rfl, fun _ => ⟨"redefine global var/const: " ++ x, s, ?_⟩⟩
    unfold defineGlobalValue
    rw [bind_of_ok (get_ok.mpr ⟨rfl, rfl⟩), hg]
    rfl
  | none =>
    refine ⟨fun h => ?_, fun h => by cases h⟩
    obtain ⟨msg, u, h⟩ := h
    unfold defineGlobalValue at h
    rw [bind_of_ok (get_ok.mpr ⟨rfl, rfl⟩), hg] at h
    cases size with
    | none => exact (unlogged_insertGlobal.not_logs h).elim
    | some size =>
      have hu : Unlogged (do
          let n ← deref size.sextValue?
          getOrInsertGlobal x (.array n.toNat .i64)
          let init ← constantInts vals
          let g ← deref ((← get).global? x)
          modify (·.setInitializer g.name (constantArray (.array n.toNat .i64) init)) : CG Unit) :=
        unlogged_deref.bind fun _ => unlogged_insertGlobal
      exact (hu.not_logs h).elim

/-- A local definition is logged as an error exactly if the current layer has the name. -/
theorem defineValue_logError_local {x : String} {ty : ValType} {vals : List Value} {size : Option Value} {isPtr : Bool}
    {layer : Layer} {outer : List Layer} (hn : s.namedValues = layer :: outer) :
    (∃ msg u, defineValue x ty vals size isPtr s = .error (.logError msg) u) ↔ (layer.lookup x).isSome = true := by
  unfold defineValue
  rw [bind_of_ok (get_ok.mpr ⟨rfl, rfl⟩), hn]
  cases hl : layer.lookup x with
  | some nv =>
    simp only [hl, Option.isNone_some, Bool.false_eq_true, ↓reduceIte, Option.isSome_some, iff_true]
    exact ⟨_, s, rfl⟩
  | none =>
    simp only [hl, Option.isNone_none, ↓reduceIte, Option.isSome_none, Bool.false_eq_true, iff_false]
    rintro ⟨msg, u, h⟩
    exact (unlogged_createDefineValueInst.bind fun a => unlogged_modify).not_logs h

theorem defineValue_logError_global {x : String} {ty : ValType} {vals : List Value} {size : Option Value} {isPtr : Bool}
    (hn : s.namedValues = []) :
    (∃ msg u, defineValue x ty vals size isPtr s = .error (.logError msg) u) ↔ (s.global? x).isSome = true := by
  refine Iff.trans ?_ (@defineGlobalValue_logError s x vals size)
  unfold defineValue
  rw [bind_of_ok (get_ok.mpr ⟨rfl, rfl⟩), hn]
  constructor
  · rintro ⟨msg, u, h⟩
    rcases bind_error.mp h with h | ⟨a, w, -, h⟩
    · exact ⟨msg, u, h⟩
    · cases h
  · rintro ⟨msg, u, h⟩
    exact ⟨msg, u, bind_of_error h⟩

end Unlogged

/-! ### The keys of a scope -/

/-- In the scopes of blocks each declaration has its identifier as its key, and definitions in a function are
    made in the scope of a block. -/
structure Visit.Keyed (v : Visit) : Prop where
  keys : ∀ scope ∈ v.ctx.locals.dropLast, ∀ d ∈ scope, d.key = d.ident
  depth : match v.call with
    | .items _ _ => v.ctx.locals = []
    | .body _ _ _ => ∃ scope, v.ctx.locals = [scope]
    | .stmt _ => v.ctx.locals ≠ []
    | .blockItems _ _ => 2 ≤ v.ctx.locals.length
    | .define _ => v.ctx.locals = [] ∨ 2 ≤ v.ctx.locals.length
    | _ => True

section Keyed
variable {C C' : GenCall} {c : Ctx} {s : State}

theorem Visit.Keyed.declared {ds ds' : List Def} {is is' : List BlockItemNode} {t : State} {a : AllocaInst} {d : Def}
    (h : Visit.Keyed ⟨.blockItems ds is, c, s⟩) : Visit.Keyed ⟨.blockItems ds' is', c.declare (d.declared a), t⟩ := by
  obtain ⟨hk, hd⟩ := h
  cases hc : c.locals with
  | nil => simp [hc] at hd
  | cons scope outer =>
    cases outer with
    | nil => simp [hc] at hd
    | cons scope' outer =>
      have hl : (c.declare (d.declared a)).locals = (d.declared a :: scope) :: scope' :: outer := by
        rw [Ctx.declare, hc]
      rw [hc, List.dropLast_cons_cons] at hk
      refine ⟨fun sc hsc d' hd' => ?_, ?_⟩
      · rw [hl, List.dropLast_cons_cons] at hsc
        rcases List.mem_cons.mp hsc with rfl | hsc
        · rcases List.mem_cons.mp hd' with rfl | hd'
          · rfl
          · exact hk scope List.mem_cons_self d' hd'
        · exact hk sc (List.mem_cons_of_mem _ hsc) d' hd'
      · show 2 ≤ (c.declare (d.declared a)).locals.length
        rw [hl]
        simp

variable [ConstantFolder]

theorem Enters.keyed {v w : Visit} (hv : Enters v w) (h : v.Keyed) : w.Keyed := by
  obtain ⟨hk, hd⟩ := h
  cases hv with
  | globalDef => exact ⟨hk, Or.inl hd⟩
  | nextGlobalDef => exact ⟨hk, hd⟩
  | decl => exact ⟨hk, hd⟩
  | func => exact ⟨by simp [Ctx.inFunc], ⟨_, rfl⟩⟩
  | nextItem => exact ⟨hk, hd⟩
  | @nextParam i x p ps b c s t w a ha h =>
    obtain ⟨scope, hc⟩ := hd
    have hl : (c.declare (p.declared x a)).locals = [p.declared x a :: scope] := by rw [Ctx.declare, hc]
    exact ⟨by simp [hl], ⟨_, hl⟩⟩
  | @block i b c s =>
    obtain ⟨scope, hc⟩ := hd
    exact ⟨hk, List.ne_nil_of_mem (hc ▸ List.mem_singleton_self scope : scope ∈ c.locals)⟩
  | localDef => exact ⟨hk, Or.inr hd⟩
  | nextLocalDef => exact Visit.Keyed.declared ⟨hk, hd⟩
  | blockDecl => exact ⟨hk, hd⟩
  | blockStmt => exact ⟨hk, List.ne_nil_of_length_pos (Nat.lt_of_lt_of_le Nat.zero_lt_two hd)⟩
  | nextStmt => exact ⟨hk, hd⟩
  | @items is c s =>
    cases hc : c.locals with
    | nil => exact absurd hc hd
    | cons scope outer =>
      refine ⟨fun sc hsc d hd' => ?_, ?_⟩
      · rw [Ctx.push, hc, List.dropLast_cons_cons] at hsc
        rcases List.mem_cons.mp hsc with rfl | hsc
        · cases hd'
        · exact hk sc (hc ▸ hsc) d hd'
      · show 2 ≤ ([] :: c.locals).length
        rw [hc]
        simp
  | thenStmt => exact ⟨hk, hd⟩
  | elseStmt => exact ⟨hk, hd⟩
  | whileBody => exact ⟨hk, hd⟩
  | _ => exact ⟨hk, trivial⟩

theorem Visited.keyed {node : EntryNode} {v : Visit} (h : Visited node v) : v.Keyed := by
  induction h with
  | refl => exact ⟨fun sc hsc => (by cases hsc), rfl⟩
  | tail _ hw ih => exact hw.keyed ih

omit [ConstantFolder] in
/-- In a scope whose keys are its identifiers a lookup finds the latest declaration. -/
theorem lookup_entries_find {x : String} : ∀ {scope : List LocalDecl}, (∀ d ∈ scope, d.key = d.ident) →
    List.lookup x (scope.map LocalDecl.entry) = (scope.find? (·.ident == x)).map fun d => d.ty.named d.alloca
  | [], _ => rfl
  | d :: scope, h => by
    have hd : d.key = d.ident := h d List.mem_cons_self
    have ih := lookup_entries_find (x := x) fun d hd => h d (List.mem_cons_of_mem _ hd)
    rw [List.map_cons, LocalDecl.entry, List.lookup_cons, hd, List.find?_cons]
    by_cases hx : x = d.ident
    · simp [hx]
    · have h₁ : (x == d.ident) = false := beq_eq_false_iff_ne.mpr hx
      have h₂ : (d.ident == x) = false := beq_eq_false_iff_ne.mpr (Ne.symm hx)
      rw [h₁, h₂]
      exact ih

end Keyed

section
variable [ConstantFolder]

/-- The identifiers that the items of a block declare, in the block's own scope. -/
def blockIdents (items : List BlockItemNode) : List String :=
  items.flatMap fun item => match item with
    | .decl d => d.defs.map (·.ident)
    | .stmt _ => []

mutual

/-- No block of the statement declares an identifier twice. -/
def StmtNode.declaresOnce : StmtNode → Prop
  | .block items => (blockIdents items).Nodup ∧ itemsDeclareOnce items
  | .ifStmt _ thenStmt none => thenStmt.declaresOnce
  | .ifStmt _ thenStmt (some elseStmt) => thenStmt.declaresOnce ∧ elseStmt.declaresOnce
  | .whileStmt _ body => body.declaresOnce
  | .continueStmt => True
  | .breakStmt => True
  | .ret _ => True
  | .expr _ => True
  | .assign _ _ _ => True

def BlockItemNode.declaresOnce : BlockItemNode → Prop
  | .decl _ => True
  | .stmt st => st.declaresOnce

/-- The same for the items of a block. -/
def itemsDeclareOnce : List BlockItemNode → Prop
  | [] => True
  | item :: items => item.declaresOnce ∧ itemsDeclareOnce items

end

/-- The current layer gets the new names `xs`, and they differ. -/
def Declares (xs : List String) (s t : State) : Prop :=
    xs.Nodup ∧ ∃ layer layer' outer, s.namedValues = layer :: outer ∧
  t.namedValues = layer' :: outer ∧ (∀ x ∈ xs, layer.lookup x = none) ∧
  ∀ x, layer'.lookup x = none ↔ layer.lookup x = none ∧ x ∉ xs

section Declares
variable {func : Nat} {s t u : State} {xs ys : List String}

omit [ConstantFolder] in
theorem Declares.nil (hn : s.namedValues ≠ []) (h : t.namedValues = s.namedValues) : Declares [] s t := by
  cases hs : s.namedValues with
  | nil => exact absurd hs hn
  | cons layer outer => exact ⟨List.nodup_nil, layer, layer, outer, hs, h.trans hs, by simp, by simp⟩

omit [ConstantFolder] in
theorem Declares.trans (h₁ : Declares xs s t) (h₂ : Declares ys t u) : Declares (xs ++ ys) s u := by
  obtain ⟨hx, l, l', o, hs, ht, hn, hl⟩ := h₁
  obtain ⟨hy, k, k', o', ht', hu, hm, hk⟩ := h₂
  rw [ht] at ht'
  obtain ⟨rfl, rfl⟩ := List.cons.inj ht'
  have hys : ∀ y ∈ ys, l.lookup y = none ∧ y ∉ xs := fun y hy => (hl y).mp (hm y hy)
  refine ⟨List.nodup_append.mpr ⟨hx, hy, fun a ha b hb he => (hys b hb).2 (he ▸ ha)⟩, l, k', o, hs, hu, fun x hx => ?_,
    fun x => ?_⟩
  · rcases List.mem_append.mp hx with hx | hx
    · exact hn x hx
    · exact (hys x hx).1
  · rw [hk, hl, List.mem_append]
    tauto

theorem Def.gen_declares {d : Def} (hn : s.namedValues ≠ []) (h : d.gen s = .ok () t) : Declares [d.ident] s t := by
  obtain ⟨size, vs, w, hi, h⟩ := codeGenDef_ok.mp h
  obtain ⟨is, e⟩ := hi.emits
  rcases defineValue_ok h with ⟨hw, -⟩ | ⟨layer, outer, a, w', hl, hx, ha, -⟩
  · exact absurd (e.namedValues.symm.trans hw) hn
  · obtain ⟨layer', outer', hl', -, ht⟩ := defineValue_layers (by rw [hl]; exact List.cons_ne_nil _ _) ha h
    rw [hl] at hl'
    obtain ⟨rfl, rfl⟩ := List.cons.inj hl'
    refine ⟨List.nodup_singleton _, layer, _, outer, e.namedValues.symm.trans hl, ht, by simpa using hx, fun x => ?_⟩
    rw [List.lookup_cons, List.mem_singleton]
    by_cases he : x = d.ident
    · simp [he]
    · have : (x == d.ident) = false := by simpa using he
      simp [this, he]

theorem defs_declares : ∀ {ds : List Def} {s t : State}, InFunc func s → ds.forM Def.gen s = .ok ⟨⟩ t →
    Declares (ds.map (·.ident)) s t
  | [], s, t, hf, h => by
    obtain rfl := forM_nil_ok.mp h
    exact .nil hf.layers rfl
  | d :: ds, s, t, hf, h => by
    obtain ⟨w, hd, h⟩ := forM_cons_ok.mp h
    obtain ⟨r, k⟩ := Def.gen_run 0 hf hd
    exact (Def.gen_declares hf.layers hd).trans (defs_declares (hf.run r k.layers) h)

mutual

theorem codeGenStmt_declaresOnce : ∀ (st : StmtNode) {s t : State}, InFunc func s → codeGenStmt st s = .ok () t →
    st.declaresOnce
  | .block items, s, t, hf, h => by
    obtain ⟨w, hw, rfl⟩ := codeGenStmt_block_ok.mp h
    have hf' : InFunc func (s.pushLayer.log .push) := ⟨hf.point, List.cons_ne_nil _ _⟩
    obtain ⟨hd, ho⟩ := codeGenBlockItems_declaresOnce items hf' hw
    rw [StmtNode.declaresOnce]
    exact ⟨hd.1, ho⟩
  | .ifStmt e thenStmt elseStmt, s, t, hf, h => by
    obtain ⟨v, s₁, c, s₂, s₃, q, s₄, r, hr⟩ := codeGenStmt_if_run
      (fun _ _ _ hf hb h => codeGenStmt_run thenStmt hf hb h)
      (fun _ _ _ hf hb h => codeGenStmt_elseBranch_run elseStmt hf hb h) hf h
    have ha := codeGenStmt_declaresOnce thenStmt hr.thenIn hr.thenGen
    cases elseStmt with
    | none => rwa [StmtNode.declaresOnce]
    | some st =>
      rw [StmtNode.declaresOnce]
      exact ⟨ha, codeGenStmt_declaresOnce st hr.elseIn hr.elseGen⟩
  | .whileStmt e body, s, t, hf, h => by
    obtain ⟨v, s₁, c, s₂, s₃, q, hr⟩ := codeGenStmt_while_run (fun _ _ _ hf hb h => codeGenStmt_run body hf hb h) hf h
    rw [StmtNode.declaresOnce]
    exact codeGenStmt_declaresOnce body hr.bodyIn hr.bodyGen
  | .continueStmt, _, _, _, _ => by rw [StmtNode.declaresOnce]; trivial
  | .breakStmt, _, _, _, _ => by rw [StmtNode.declaresOnce]; trivial
  | .ret _, _, _, _, _ => by rw [StmtNode.declaresOnce]; trivial
  | .expr _, _, _, _, _ => by rw [StmtNode.declaresOnce]; trivial
  | .assign _ _ _, _, _, _, _ => by rw [StmtNode.declaresOnce]; trivial

theorem codeGenBlockItems_declaresOnce : ∀ (items : List BlockItemNode) {s t : State}, InFunc func s →
    codeGenBlockItems items s = .ok () t → Declares (blockIdents items) s t ∧ itemsDeclareOnce items
  | [], s, t, hf, h => by
    obtain rfl := codeGenBlockItems_nil_ok.mp h
    exact ⟨.nil hf.layers rfl, by rw [itemsDeclareOnce]; trivial⟩
  | .decl d :: items, s, t, hf, h => by
    obtain ⟨w, hw, h⟩ := codeGenBlockItems_cons_ok.mp h
    rw [codeGenBlockItem_decl] at hw
    obtain ⟨r, k⟩ := codeGenDecl_run 0 hf hw
    obtain ⟨hd, ho⟩ := codeGenBlockItems_declaresOnce items (hf.run r k.layers) h
    rw [codeGenDecl_defs] at hw
    refine ⟨(defs_declares hf hw).trans hd, ?_⟩
    rw [itemsDeclareOnce, BlockItemNode.declaresOnce]
    exact ⟨trivial, ho⟩
  | .stmt st :: items, s, t, hf, h => by
    obtain ⟨w, hw, h⟩ := codeGenBlockItems_cons_ok.mp h
    rw [codeGenBlockItem_stmt] at hw
    obtain ⟨r, k⟩ := codeGenStmt_run st hf (Nat.zero_le _) hw
    obtain ⟨hd, ho⟩ := codeGenBlockItems_declaresOnce items (hf.restored r k) h
    refine ⟨Declares.trans (.nil hf.layers k.namedValues) hd, ?_⟩
    rw [itemsDeclareOnce, BlockItemNode.declaresOnce]
    exact ⟨codeGenStmt_declaresOnce st hf hw, ho⟩

end

theorem defs_globals_nodup : ∀ {ds : List Def} {s t : State}, s.namedValues = [] → ds.forM Def.gen s = .ok ⟨⟩ t →
    (s.globals.map (·.name)).Nodup → (t.globals.map (·.name)).Nodup ∧
      t.globals.map (·.name) = s.globals.map (·.name) ++ ds.map (·.ident)
  | [], s, t, _, h, hn => by
    obtain rfl := forM_nil_ok.mp h
    exact ⟨hn, by simp⟩
  | d :: ds, s, t, hs, h, hn => by
    obtain ⟨w, hd, h⟩ := forM_cons_ok.mp h
    obtain ⟨g, tr, size, vs, w', rfl, hg, -, hnone, -⟩ := Def.gen_global hs hd
    have hnw : ((s.globals ++ [g]).map (·.name)).Nodup := by
      rw [List.map_append, List.nodup_append]
      refine ⟨hn, List.nodup_singleton _, fun a ha b hb he => ?_⟩
      obtain ⟨k, hk, rfl⟩ := List.mem_map.mp ha
      rw [List.map_singleton, List.mem_singleton, hg] at hb
      exact global?_eq_none.mp hnone k hk (he.trans hb)
    obtain ⟨h₁, h₂⟩ := defs_globals_nodup (by exact hs) h hnw
    exact ⟨h₁, by rw [h₂]; simp [hg]⟩

end Declares

/-! ### Parameters -/

section Params
variable {s t : State} {f : FuncNode} {node : EntryNode} {c : Ctx}

omit [ConstantFolder] in
/-- The parameters have the names of their arguments. -/
theorem named_getElem? {i : Nat} {p : FuncFParamNode} (hn : (f.param.map (·.ident)).Nodup) (hp : f.param[i]? = some p) :
    f.named[i]? = some (p.ident, p) := by
  rw [FuncNode.named, argNames_of_nodup hn, List.getElem?_zip_eq_some]
  exact ⟨by rw [List.getElem?_map, hp]; rfl, hp⟩

/-- Code generation gets to the definition of `f`, whose name is free, in the state `s`. -/
def Generates (node : EntryNode) (f : FuncNode) (s : State) : Prop :=
  s.function? f.ident = none ∧ ∃ is c, Visited node ⟨.items [] (.func f :: is), c, s⟩

/-- The size and the initial values of a definition are generated, or rejected: no stop is at a null pointer or at a
    value of type void. -/
def Def.Evaluates (d : Def) (s : State) : Prop := ∀ stop, d.forms s = .error stop → stop.isLogged = true

theorem Generates.idle (h : Generates node f s) : Idle s := by
  obtain ⟨-, is, c, hv⟩ := h
  exact hv.valid.top trivial

theorem Generates.mem : ∀ {v : Visit}, Visited node v → ∀ ds is, v.call = .items ds is →
    ∀ i ∈ is, i ∈ node.prog.items := by
  intro v hv
  induction hv with
  | refl =>
    intro ds is he i hi
    cases he
    exact hi
  | tail _ hw ih =>
    intro ds is he i hi
    cases hw with
    | nextGlobalDef => cases he; exact ih _ _ rfl i hi
    | decl => cases he; exact ih _ _ rfl i (List.mem_cons_of_mem _ hi)
    | nextItem => cases he; exact ih _ _ rfl i (List.mem_cons_of_mem _ hi)
    | _ => cases he

end Params

end

section
attribute [local instance] ConstantFolder.symbolic

end

end L24
