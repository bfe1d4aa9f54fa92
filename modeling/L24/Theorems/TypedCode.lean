import L24.Theorems.Typed

/-! Well-typed functions: definitions, statements and functions of a program whose kinds fit have well-typed code. -/

namespace L24
open Ir Relation

/-- What the tables say of the functions and the global variables holds. -/
structure Externals (T : Tables) (s : State) : Prop where
  callees : ∀ f ∈ s.functions, T.callee f.name f.retTy f.params ∧ (f.retTy = .i64 ∨ f.retTy = .void) ∧
    ∀ ty ∈ f.params, ty = .i64 ∨ ty = .ptr
  globals : ∀ g ∈ s.globals, g.valueTy = .i64 ∨ ∃ n elt, g.valueTy = .array n elt

/-- The generation of a function is under way. -/
structure Underway (T : Tables) (func entry : Nat) (s : State) : Prop where
  inFunc : InFunc func s
  prologue : Prologue func entry s
  externals : Externals T s

section Code
variable {T : Tables} {P : Inst → Prop} {func base entry : Nat} {s t u : State} {v c : Value} {p q : Prop}
    {is : List Inst}

theorem externals_iff :
    Externals T s ↔ (∀ f ∈ s.functions.map fun f => (f.name, f.retTy, f.params), T.callee f.1 f.2.1 f.2.2 ∧
    (f.2.1 = .i64 ∨ f.2.1 = .void) ∧ ∀ ty ∈ f.2.2, ty = .i64 ∨ ty = .ptr) ∧
      ∀ g ∈ s.globals, g.valueTy = .i64 ∨ ∃ n elt, g.valueTy = .array n elt := by
  rw [List.forall_mem_map]
  exact ⟨fun h => ⟨h.callees, h.globals⟩, fun h => ⟨h.1, h.2⟩⟩

theorem externals_run (r : GenRun func base s t) : Externals T t ↔ Externals T s := by
  rw [externals_iff, externals_iff, r.map_functions fun _ _ => rfl, r.globals]

theorem Underway.run (h : Underway T func entry s) (r : GenRun func base s t) (hb : entry ≤ base)
    (hn : t.namedValues ≠ []) : Underway T func entry t :=
  ⟨h.inFunc.run r hn, r.prologue hb h.prologue, (externals_run r).mpr h.externals⟩

theorem Underway.emits (h : Underway T func entry s) (e : Emits s is t) : Underway T func entry t :=
  ⟨h.inFunc.emits e, h.prologue.emits e, (externals_run (.emits e : GenRun func 0 s t)).mpr h.externals⟩

/-- What holds of all instructions behind a run holds of those before it. -/
theorem AllFrom.before (h : AllFrom P entry t) (hs : Prologue func entry s) (r : GenRun func base s t) :
    AllFrom P entry s := by
  intro l hl i hi
  obtain ⟨home, -, g⟩ := hs.grows r
  obtain ⟨as, js, hb, -, -⟩ := g.blocks l
  refine h l hl i ?_
  rw [hb.1]
  exact List.mem_append_left _ (List.mem_append_right _ hi)

theorem Underway.scoped (h : Underway T func entry s) (hk : AllFrom T.Knows entry s)
    (ht : AllFrom (Inst.Typed T) entry s) : Scoped T s := by
  refine ⟨h.inFunc.layers, fun layer hl b hb => ?_, h.externals.callees, h.externals.globals⟩
  obtain ⟨count, hm⟩ := h.prologue.named layer hl b hb
  refine ⟨(hk entry (Nat.le_refl _) _ hm).slot _ _ _ rfl, ?_⟩
  have htyped := ht entry (Nat.le_refl _) _ hm
  generalize b.2.alloca.ty = ty at htyped
  cases htyped with
  | alloca hty => exact .inl hty
  | allocaArray => exact .inr ⟨_, rfl⟩

theorem Typing.allFrom (h : Typing T p s t q) (hp : p) (hs : Inserts entry s) (hk : AllFrom T.Knows entry t)
    (ht : AllFrom (Inst.Typed T) entry s) : AllFrom (Inst.Typed T) entry t ∧ q := by
  obtain ⟨is, e, h⟩ := h
  obtain ⟨htyped, hq⟩ := h hp ((e.allFrom hs).mp hk).2
  exact ⟨(e.allFrom hs).mpr ⟨ht, htyped⟩, hq⟩

theorem allFrom_typed_append {i : Inst} (hs : Inserts entry s) (ht : AllFrom (Inst.Typed T) entry s) (hi : i.Typed T) :
    AllFrom (Inst.Typed T) entry (s.append [i]) := (allFrom_append hs).mpr ⟨ht, List.forall_mem_singleton.mpr hi⟩

/-! ### Assignments -/

variable [ConstantFolder]

/-- The target of an assignment: an integer variable, or an element of an array or an array parameter. -/
theorem setValue_typing {x : String} {sub : Option Value} (h : setValue x v sub s = .ok () t) (hs : Scoped T s)
    (hscalar : sub = none → s.kinds.scalar x = true)
    (harray : sub.isSome = true → s.kinds.local? x = some .array ∨ s.kinds.local? x = some .pointer) :
    Typing T (T.Has v .i64 ∧ ∀ i, sub = some i → T.Has i .i64) s t True := by
  rcases setValue_ok h with ⟨a, hx, h⟩ | ⟨hx, h⟩
  · have hlocal : s.kinds.local? x = some (kindOf a.ty) := by
      rw [kinds_local?, hx]
      rfl
    obtain ⟨hslot, hty⟩ := hs.lookup hx
    refine .trans (.log (.assign x sub.isSome (s.storage? x)) id) ?_
    rcases createSetValueInst_ok h with ⟨rfl, rfl⟩ | ⟨i, p, w, rfl, hp, rfl⟩
    -- Without a subscript only a scalar is assigned, with one only an array or an array parameter.
    · have hint : a.ty = .i64 := by
        have := hscalar rfl
        rw [Kinds.scalar, hlocal] at this
        exact kindOf_eq_int.mp (eq_of_beq this)
      refine .store fun hp => ?_
      rw [AllocaInst.value, hint]
      exact .storeVar (hint ▸ hslot) hp.1
    · have hptr : a.ty = .ptr ∨ ∃ n, a.ty = .array n .i64 := by
        have hkind := harray rfl
        rw [hlocal] at hkind
        rcases hty with (hty | hty) | hty
        · have hty : a.ty = .i64 := hty
          simp [hty, kindOf] at hkind
        · exact .inl hty
        · exact .inr hty
      have haddr : Typing T (T.Has v .i64 ∧ ∀ j, some i = some j → T.Has j .i64) _ w (T.Has v .i64 ∧ T.Has p .ptr) :=
        (elementPtr_typing hp hslot hptr).conseq (fun hi => hi.2 i rfl) fun hi hp' => ⟨hi.1, hp'⟩
      exact haddr.trans (.store fun hp => .storeElement hp.1 hp.2)
  · have hlocal : s.kinds.local? x = none := by rw [kinds_local?, hx, Option.map_none]
    obtain ⟨g, hg, ⟨-, hn, -⟩ | ⟨rfl, -, rfl⟩ | ⟨i, p, w, rfl, -, -⟩⟩ := setGlobalValue_ok h
    · exact absurd hn hs.layers
    · have hint : g.valueTy = .i64 := by
        have hg' : s.kinds.global? x = some g := hg
        have := hscalar rfl
        rw [Kinds.scalar, hlocal, hg', Option.any_some] at this
        exact eq_of_beq this
      -- The source loads the global variable first and drops the value.
      rw [hint]
      let logged := s.log (.assign x false (s.storage? x))
      have hload : Typing T (T.Has v .i64 ∧ ∀ i, none = some i → T.Has i .i64) logged
          (logged.emit (.load · .i64 (.const (.global g.name .i64)))) (T.Has v .i64) :=
        .emit ⟨rfl, rfl⟩ fun hp _ => ⟨.loadGlobal (.inl rfl), hp.1⟩
      exact .trans (.log (.assign x false (s.storage? x)) id) (hload.trans (.store fun hp => .storeGlobal hp))
    · have := harray rfl
      rw [hlocal] at this
      simp at this

theorem codeGenStmt_assign_typing {x : String} {sub : Option ExprNode} {e : ExprNode}
    (h : codeGenStmt (.assign x sub e) s = .ok () t) (hs : Scoped T s)
    (hk : (StmtNode.assign x sub e).kindsFit s.kinds.lenient = true) : Typing T True s t True := by
  obtain ⟨v, w, idx, k, hv, hidx, hset⟩ := codeGenStmt_assign_ok.mp h
  obtain ⟨is, e₁⟩ := codeGenExp_emits hv
  obtain ⟨js, e₂⟩ := codeGenSubIdx_emits hidx
  have hkinds : k.kinds = s.kinds := (e₁.trans e₂).kinds
  have hw : w.kinds = s.kinds := e₁.kinds
  rw [StmtNode.kindsFit, Bool.and_eq_true] at hk
  have hval := codeGenExp_typing hv hs hk.1
  rcases codeGenSubIdx_ok.mp hidx with ⟨rfl, rfl, rfl⟩ | ⟨e', i, rfl, rfl, hi⟩
  · have hset' := setValue_typing hset (hs.emits e₁) (fun _ => hw ▸ scalar_of_lenient hk.2) (by simp)
    exact hval.trans (hset'.conseq (fun hv => ⟨hv, by simp⟩) fun _ => id)
  · obtain ⟨hfit, hz⟩ : e'.core.intFits s.kinds.lenient = true ∧
        (s.kinds.local? x = some .array ∨ s.kinds.local? x = some .pointer) := by
      have := hk.2
      rw [targetFits, Bool.and_eq_true] at this
      exact ⟨this.1, elementFits_of_lenient this.2⟩
    have hidx' := codeGenExp_typing hi (hs.emits e₁) (hw ▸ hfit)
    have hset' := setValue_typing hset (hs.emits (e₁.trans e₂)) (by simp) fun _ => hkinds ▸ hz
    exact hval.trans (hidx'.keep.trans
      (hset'.conseq (fun hv => ⟨hv.1, fun j hj => Option.some.inj hj ▸ hv.2⟩) fun _ => id))

/-! ### Definitions -/

theorem initVal_typing {init : Option InitValNode} {idx : Nat} (h : initVal init idx s = .ok v t) (hs : Scoped T s)
    (hk : (((init.map InitValNode.exps).getD [])[idx]?.all fun e => e.core.intFits s.kinds.lenient) = true) :
    Typing T True s t (T.Has v .i64) := by
  rcases initVal_ok.mp h with ⟨rfl, rfl, -⟩ | ⟨n, c, rfl, -, -, rfl, rfl⟩ | ⟨n, e, rfl, he, hv⟩
  · exact .refl fun _ => has_int _
  · exact .refl fun _ => has_int _
  · rw [Option.map_some, Option.getD_some, he, Option.all_some] at hk
    exact codeGenExp_typing hv hs hk

theorem initVals_typing {init : Option InitValNode} : ∀ {n idx : Nat} {s t : State} {vs : List Value},
    initVals init idx n s = .ok vs t → Scoped T s → initFitsFrom s.kinds.lenient init idx n = true →
    Typing T True s t (∀ v ∈ vs, T.Has v .i64)
  | 0, idx, s, t, vs, h, _, _ => by
    obtain ⟨rfl, rfl⟩ := initVals_zero_ok.mp h
    exact .refl fun _ => by simp
  | n + 1, idx, s, t, vs, h, hs, hk => by
    obtain ⟨v, w, ws, hv, hws, rfl⟩ := initVals_cons_ok.mp h
    obtain ⟨is, e⟩ := initVal_emits hv
    have hw : w.kinds = s.kinds := e.kinds
    rw [initFitsFrom_succ, Bool.and_eq_true] at hk
    have hrest := initVals_typing hws (hs.emits e) (hw ▸ hk.2)
    exact ((initVal_typing hv hs hk.1).trans hrest.keep).conseq id fun _ hv => List.forall_mem_cons.mpr hv

/-- The code of a variable, or of a parameter. -/
theorem defineScalar_allFrom {x : String} {ty : ValType} {isPtr : Bool} (hs : Prologue func entry s)
    (hf : InFunc func s)
    (h : defineValue x ty [v] none isPtr s = .ok () t) : AllFrom P entry t ↔ (AllFrom P entry s ∧
      P (.alloca s.nextSlot (if isPtr then .ptr else .i64) none)) ∧
        P (.store v (.alloca s.nextSlot (if isPtr then .ptr else .i64))) := by
  rcases defineValue_ok h with ⟨hn, -⟩ | ⟨layer, outer, a, w, hn, -, hw, rfl⟩
  · exact absurd hn hf.layers
  · obtain ⟨p, w', hp, hw', ⟨-, v', hv, rfl⟩ | ⟨hne, -⟩⟩ := createDefineValueInst_ok hw
    · obtain ⟨e, he, ⟨-, rfl, rfl⟩ | ⟨_, _, hsize, -⟩⟩ := createEntryBlockAlloca_ok.mp hw'
      · obtain ⟨l, hl, -, -⟩ := hs.point
        obtain rfl := Option.some.inj (hp.symm.trans hl)
        obtain rfl := Option.some.inj (he.symm.trans hs.head)
        obtain rfl := Option.some.inj hv
        have hins : Inserts e (s.emitAlloca e (if isPtr then .ptr else .i64) none) := hs.inserts
        have hstore : AllFrom P e (((s.emitAlloca e (if isPtr then .ptr else .i64) none).append
            [.store v (.alloca s.nextSlot (if isPtr then .ptr else .i64))]).bind x
              (ty.named ⟨s.nextSlot, if isPtr then .ptr else .i64⟩)) ↔ _ := allFrom_append hins
        exact hstore.trans (by rw [allFrom_emitAlloca, List.forall_mem_singleton])
      · cases hsize
    · exact absurd rfl hne

/-- The code of an array. -/
theorem defineArray_allFrom {x : String} {ty : ValType} {vals : List Value} {size : Value} (hs : Prologue func entry s)
    (hf : InFunc func s) (h : defineValue x ty vals (some size) false s = .ok () t) : ∃ n, ∀ P : Inst → Prop,
      AllFrom P entry t ↔ (AllFrom P entry s ∧ P (.alloca s.nextSlot (.array n .i64) (some size))) ∧
        ∀ i ∈ elementStores ⟨s.nextSlot, .array n .i64⟩ 0 s.nextReg vals, P i := by
  rcases defineValue_ok h with ⟨hn, -⟩ | ⟨layer, outer, a, w, hn, -, hw, rfl⟩
  · exact absurd hn hf.layers
  · obtain ⟨p, w', hp, hw', ⟨hne, -⟩ | ⟨-, rfl⟩⟩ := createDefineValueInst_ok hw
    · cases hne
    · obtain ⟨e, he, ⟨hsize, -⟩ | ⟨sz, n, hsz, -, rfl, rfl⟩⟩ := createEntryBlockAlloca_ok.mp hw'
      · cases hsize
      · obtain rfl := Option.some.inj hsz
        obtain ⟨l, hl, -, -⟩ := hs.point
        obtain rfl := Option.some.inj (hp.symm.trans hl)
        obtain rfl := Option.some.inj (he.symm.trans hs.head)
        have hins : Inserts e (s.emitAlloca e (.array n.toNat .i64) (some size)) := hs.inserts
        refine ⟨n.toNat, fun P => ?_⟩
        have hstores : AllFrom P e (((s.emitAlloca e (.array n.toNat .i64) (some size)).appendRegs
            (elementStores ⟨s.nextSlot, .array n.toNat .i64⟩ 0 s.nextReg vals) vals.length).bind x
              (ty.named ⟨s.nextSlot, .array n.toNat .i64⟩)) ↔ _ := allFrom_append hins
        exact hstores.trans (by rw [allFrom_emitAlloca])

omit [ConstantFolder] in
theorem elementStores_typed {k : Slot} {n : Nat} (hk : T.slot k (.array n .i64)) : ∀ {vs : List Value} {idx r : Nat},
    (∀ i ∈ elementStores ⟨k, .array n .i64⟩ idx r vs, T.Knows i) → (∀ v ∈ vs, T.Has v .i64) →
      ∀ i ∈ elementStores ⟨k, .array n .i64⟩ idx r vs, i.Typed T
  | [], _, _, _, _ => by simp [elementStores]
  | v :: vs, idx, r, hknow, hv => by
    rw [elementStores] at hknow ⊢
    obtain ⟨hgep, hknow⟩ := List.forall_mem_cons.mp hknow
    obtain ⟨-, hknow⟩ := List.forall_mem_cons.mp hknow
    obtain ⟨hv, hvs⟩ := List.forall_mem_cons.mp hv
    refine List.forall_mem_cons.mpr ⟨.gepArray hk (has_int _), List.forall_mem_cons.mpr ⟨?_, ?_⟩⟩
    · exact .storeElement hv ⟨rfl, hgep.reg _ _ rfl⟩
    · exact elementStores_typed hk hknow hvs

theorem Def.gen_typed {d : Def} (hs : Underway T func entry s) (h : d.gen s = .ok () t) (hk : AllFrom T.Knows entry t)
    (hfit : d.kindsFit s.kinds.lenient = true) (ht : AllFrom (Inst.Typed T) entry s) :
    AllFrom (Inst.Typed T) entry t := by
  obtain ⟨r, -⟩ := Def.gen_run entry hs.inFunc h
  have hscoped := hs.scoped (hk.before hs.prologue r) ht
  obtain ⟨size, vs, w, hi, h⟩ := codeGenDef_ok.mp h
  obtain ⟨is, em⟩ := hi.emits
  have hsw := hs.emits em
  unfold Def.kindsFit at hfit
  cases hd : d.exp with
  | none =>
    rw [hd] at hi hfit
    obtain ⟨rfl, hi⟩ := hi
    rcases getInitVals_ok.mp hi with ⟨-, hi⟩ | ⟨_, _, hsize, -⟩
    · obtain ⟨v, rfl⟩ := List.length_eq_one_iff.mp (initVals_length hi)
      obtain ⟨⟨hkw, hka⟩, -⟩ := (defineScalar_allFrom hsw.prologue hsw.inFunc h).mp hk
      obtain ⟨htw, hv⟩ := (initVals_typing hi hscoped hfit).allFrom trivial hs.prologue.inserts hkw ht
      refine (defineScalar_allFrom hsw.prologue hsw.inFunc h).mpr ⟨⟨htw, .alloca (.inl rfl)⟩, ?_⟩
      exact .storeVar (hka.slot _ _ _ rfl) (hv v List.mem_cons_self)
    · cases hsize
  | some e =>
    rw [hd] at hi hfit
    rw [Bool.and_eq_true] at hfit
    obtain ⟨sz, rfl⟩ : ∃ sz, size = some sz := by
      obtain ⟨sz, _, rfl, -, -⟩ := hi
      exact ⟨sz, rfl⟩
    obtain ⟨n, hn, -, hvals⟩ := genInit_const_size hs.inFunc hi
    obtain ⟨sz', w', hsz, he, -⟩ := hi
    obtain rfl := Option.some.inj hsz
    -- the size is a constant, and an integer
    obtain ⟨c, rfl⟩ := sextValue?_const hn
    have hty : (Value.const c).ty = .i64 := genExp_const_ty hs.inFunc.layers (codeGenExp_core e ▸ he)
    obtain ⟨m, rfl⟩ : ∃ m, c = .int m := by
      cases c with
      | int m => exact ⟨m, rfl⟩
      | bool => cases hty
      | _ => cases hn
    obtain ⟨l, hiff⟩ := defineArray_allFrom hsw.prologue hsw.inFunc h
    obtain ⟨⟨hkw, hka⟩, hks⟩ := (hiff _).mp hk
    obtain ⟨htw, hv⟩ := (initVals_typing hvals hscoped hfit.2).allFrom trivial hs.prologue.inserts hkw ht
    exact (hiff _).mpr ⟨⟨htw, .allocaArray⟩, elementStores_typed (hka.slot _ _ _ rfl) hks hv⟩

theorem defs_typed : ∀ {ds : List Def} {s t : State}, Underway T func entry s → ds.forM Def.gen s = .ok ⟨⟩ t →
    AllFrom T.Knows entry t → defsKindsFit ds s.kinds.lenient = true → AllFrom (Inst.Typed T) entry s →
    AllFrom (Inst.Typed T) entry t
  | [], s, t, _, h, _, _, ht => by
    obtain rfl := forM_nil_ok.mp h
    exact ht
  | d :: ds, s, t, hs, h, hk, hfit, ht => by
    obtain ⟨w, hd, h⟩ := forM_cons_ok.mp h
    obtain ⟨r, hdef⟩ := Def.gen_run entry hs.inFunc hd
    have hsw := hs.run r (Nat.le_refl _) hdef.layers
    obtain ⟨r', -⟩ := defs_run entry hsw.inFunc h
    rw [defsKindsFit, Bool.and_eq_true] at hfit
    have hw := Def.gen_typed hs hd (hk.before hsw.prologue r') hfit.1 ht
    refine defs_typed hsw h hk ?_ hw
    rw [Def.gen_kinds hs.inFunc hd]
    exact hfit.2

/-! ### Statements -/

/-- A condition, and its comparison with zero. -/
theorem cond_typing {e : ExprNode} {w : State} (hv : codeGenExp e s = .ok v w) (hb : intToBoolean v w = .ok c t)
    (hs : Scoped T s) (hk : e.core.intFits s.kinds.lenient = true) : Typing T True s t (T.Has c .i1) :=
  (codeGenExp_typing hv hs hk).trans (compareZero_typing hb)

theorem IfRun.typed {e : ExprNode} {thenStmt : StmtNode} {elseStmt : Option StmtNode} {s₁ s₂ s₃ s₄ : State}
    {k r : InsertPoint} (h : IfRun func e thenStmt elseStmt s v s₁ c s₂ s₃ k s₄ r t) (hs : Underway T func entry s)
    (hk : AllFrom T.Knows entry t) (he : e.core.intFits s.kinds.lenient = true) (ht : AllFrom (Inst.Typed T) entry s)
    (iha : AllFrom T.Knows entry s₃ → AllFrom (Inst.Typed T) entry (s₂.thenStart func c) →
    AllFrom (Inst.Typed T) entry s₃)
    (ihb : AllFrom T.Knows entry s₄ →
      AllFrom (Inst.Typed T) entry ((s₃.brUnlessBranch k (s₂.nextLabel + 2)).enter func (s₂.nextLabel + 1)) →
      AllFrom (Inst.Typed T) entry s₄) : AllFrom (Inst.Typed T) entry t := by
  obtain ⟨is, em⟩ := h.emits
  have hle := Nat.le_of_lt hs.prologue.entry_lt
  have hs₂ : Inserts entry s₂.newBlocks := (hs.prologue.emits em).inserts
  have hthen := h.start.prologue hle hs.prologue
  have helse := h.else_prologue hs.prologue
  have hs₃ := h.thenRun.prologue (by omega) hthen
  have hs₄ := h.elseRun.prologue (by omega) helse
  -- what is known at the end was known all the way
  have hk₄ : AllFrom T.Knows entry s₄ := hk.before hs₄ h.finish
  have hk₃ : AllFrom T.Knows entry s₃ := (hk₄.before helse h.elseRun).before hs₃ h.middle
  have hkt : AllFrom T.Knows entry (s₂.thenStart func c) := hk₃.before hthen h.thenRun
  have hk₂ : AllFrom T.Knows entry s₂ := ((allFrom_append hs₂).mp hkt).1
  have hk₀ : AllFrom T.Knows entry s := ((em.allFrom hs.prologue.inserts).mp hk₂).1
  obtain ⟨ht₂, hc⟩ := (cond_typing h.cond h.bool (hs.scoped hk₀ ht) he).allFrom trivial hs.prologue.inserts hk₂ ht
  have hstart : AllFrom (Inst.Typed T) entry (s₂.thenStart func c) := allFrom_typed_append hs₂ ht₂ (.condBr hc)
  have hmiddle : AllFrom (Inst.Typed T) entry
      ((s₃.brUnlessBranch k (s₂.nextLabel + 2)).enter func (s₂.nextLabel + 1)) :=
    (allFrom_brUnlessBranch hs₃.inserts .br).mpr (iha hk₃ hstart)
  rw [h.result]
  exact (allFrom_brUnlessBranch hs₄.inserts .br).mpr (ihb hk₄ hmiddle)

theorem WhileRun.typed {e : ExprNode} {body : StmtNode} {s₁ s₂ s₃ : State} {k : InsertPoint}
    (h : WhileRun func e body s v s₁ c s₂ s₃ k t) (hs : Underway T func entry s) (hk : AllFrom T.Knows entry t)
    (he : e.core.intFits s.kinds.lenient = true) (ht : AllFrom (Inst.Typed T) entry s)
    (ih : AllFrom T.Knows entry s₃ → AllFrom (Inst.Typed T) entry (s₂.bodyStart func c s.nextLabel) →
      AllFrom (Inst.Typed T) entry s₃) : AllFrom (Inst.Typed T) entry t := by
  obtain ⟨is, em⟩ := h.emits
  have hle := Nat.le_of_lt hs.prologue.entry_lt
  have hbody := h.body_prologue hs.prologue
  have hs₃ := h.bodyRun.prologue (by omega) hbody
  have hrun : GenRun func entry s (s.loopStart func) := loopStart_run.mono hle
  have hloop : Underway T func entry (s.loopStart func) :=
    hs.run hrun (Nat.le_refl _) (by rw [loopStart_namedValues]; exact hs.inFunc.layers)
  have hjump : AllFrom (Inst.Typed T) entry (s.loopStart func) :=
    allFrom_typed_append (s := s.newBlocks.pushLoop (s.nextLabel, s.nextLabel + 2)) hs.prologue.inserts ht .br
  have hins := (hloop.prologue.emits em).inserts
  have hk₃ : AllFrom T.Knows entry s₃ := hk.before hs₃ h.finish
  have hkb : AllFrom T.Knows entry (s₂.bodyStart func c s.nextLabel) := hk₃.before hbody h.bodyRun
  have hk₂ : AllFrom T.Knows entry s₂ := ((allFrom_append hins).mp hkb).1
  have hk₀ : AllFrom T.Knows entry (s.loopStart func) := ((em.allFrom hloop.prologue.inserts).mp hk₂).1
  rw [← loopStart_kinds] at he
  have hcond := cond_typing h.cond h.bool (hloop.scoped hk₀ hjump) he
  obtain ⟨ht₂, hc⟩ := hcond.allFrom trivial hloop.prologue.inserts hk₂ hjump
  have hstart : AllFrom (Inst.Typed T) entry (s₂.bodyStart func c s.nextLabel) :=
    allFrom_typed_append hins ht₂ (.condBr hc)
  rw [h.result]
  exact (allFrom_brUnlessBranch hs₃.inserts .br).mpr (ih hk₃ hstart)

omit [ConstantFolder] in
/-- A jump, or a `return` without a value. -/
theorem codeGenStmt_jump_typed {i : Inst} (hs : Prologue func entry s) (ht : AllFrom (Inst.Typed T) entry s)
    (hi : i.Typed T) (h : t = s.append [i]) : AllFrom (Inst.Typed T) entry t := by
  rw [h]
  exact allFrom_typed_append hs.inserts ht hi

mutual

/-- The code of a statement is well-typed if the kinds in it fit. -/
theorem codeGenStmt_typed : ∀ (st : StmtNode) {s t : State}, Underway T func entry s → codeGenStmt st s = .ok () t →
    AllFrom T.Knows entry t → st.kindsFit s.kinds.lenient = true → AllFrom (Inst.Typed T) entry s →
    AllFrom (Inst.Typed T) entry t
  | .block items, s, t, hs, hg, hk, hfit, ht => by
    obtain ⟨w, hw, rfl⟩ := codeGenStmt_block_ok.mp hg
    have hs' : Underway T func entry (s.pushLayer.log .push) := ⟨⟨hs.inFunc.point, List.cons_ne_nil _ _⟩,
      (GenStep.pushLayer.prologue (Nat.le_refl _) hs.prologue).emits (Emits.log _), hs.externals.callees,
      hs.externals.globals⟩
    rw [StmtNode.kindsFit] at hfit
    have hitems := codeGenBlockItems_typed items hs' hw hk hfit ht
    exact hitems
  | .ifStmt e a b, s, t, hs, hg, hk, hfit, ht => by
    obtain ⟨v, s₁, c, s₂, s₃, q, s₄, r, hr⟩ := codeGenStmt_if_run
      (fun _ _ _ hf hb h => codeGenStmt_run a hf hb h)
      (fun _ _ _ hf hb h => codeGenStmt_elseBranch_run b hf hb h) hs.inFunc hg
    obtain ⟨ka, kb⟩ := hr.kinds
    have hle := Nat.le_of_lt hs.prologue.entry_lt
    rw [StmtNode.kindsFit_if, Bool.and_eq_true, Bool.and_eq_true] at hfit
    have hthen := hs.run hr.start hle hr.thenIn.layers
    have helse : Underway T func entry _ := ⟨hr.elseIn, hr.else_prologue hs.prologue,
      (externals_run hr.middle).mpr ((externals_run hr.thenRun).mpr hthen.externals)⟩
    refine hr.typed hs hk hfit.1.1 ht (fun hk₃ h => ?_) fun hk₄ h => ?_
    · exact codeGenStmt_typed a hthen hr.thenGen hk₃ (ka ▸ hfit.1.2) h
    · exact codeGenStmt_elseBranch_typed b helse hr.elseGen hk₄ (kb ▸ hfit.2) h
  | .whileStmt e body, s, t, hs, hg, hk, hfit, ht => by
    obtain ⟨v, s₁, c, s₂, s₃, q, hr⟩ :=
      codeGenStmt_while_run (fun _ _ _ hf hb h => codeGenStmt_run body hf hb h) hs.inFunc hg
    rw [StmtNode.kindsFit, Bool.and_eq_true] at hfit
    have hbody := hs.run hr.start (Nat.le_of_lt hs.prologue.entry_lt) hr.bodyIn.layers
    refine hr.typed hs hk hfit.1 ht fun hk₃ h => ?_
    exact codeGenStmt_typed body hbody hr.bodyGen hk₃ (hr.kinds ▸ hfit.2) h
  | .continueStmt, s, t, hs, hg, _, _, ht => by
    obtain ⟨loop, outer, -, h⟩ := codeGenStmt_continue_ok.mp hg
    exact codeGenStmt_jump_typed hs.prologue ht .br h
  | .breakStmt, s, t, hs, hg, _, _, ht => by
    obtain ⟨loop, outer, -, h⟩ := codeGenStmt_break_ok.mp hg
    exact codeGenStmt_jump_typed hs.prologue ht .br h
  | .ret none, s, t, hs, hg, _, _, ht => codeGenStmt_jump_typed hs.prologue ht .retVoid (codeGenStmt_retVoid_ok.mp hg)
  | .ret (some e), s, t, hs, hg, hk, hfit, ht => by
    obtain ⟨v, w, hv, rfl⟩ := codeGenStmt_ret_ok.mp hg
    obtain ⟨is, em⟩ := codeGenExp_emits hv
    have hins := (hs.prologue.emits em).inserts
    -- What is known of the types at the end is known of the code in front of the return.
    have hkw : AllFrom T.Knows entry w := ((allFrom_append hins).mp hk).1
    have hks := ((em.allFrom hs.prologue.inserts).mp hkw).1
    obtain ⟨htw, hret⟩ := (codeGenExp_typing hv (hs.scoped hks ht) hfit).allFrom trivial hs.prologue.inserts hkw ht
    exact allFrom_typed_append hins htw (.ret hret)
  | .expr none, s, t, _, hg, _, _, ht => by
    obtain rfl := codeGenStmt_empty_ok.mp hg
    exact ht
  | .expr (some e), s, t, hs, hg, hk, hfit, ht => by
    obtain ⟨v, hv⟩ := codeGenStmt_expr_ok.mp hg
    obtain ⟨is, em⟩ := codeGenExp_emits hv
    have hks := ((em.allFrom hs.prologue.inserts).mp hk).1
    rw [codeGenExp_core] at hv
    exact ((genExp_typing e.core hv (hs.scoped hks ht) hfit).allFrom trivial hs.prologue.inserts hk ht).1
  | .assign x sub e, s, t, hs, hg, hk, hfit, ht => by
    obtain ⟨r, -⟩ := codeGenStmt_run (.assign x sub e) hs.inFunc (Nat.le_refl _) hg
    have hscoped := hs.scoped (hk.before hs.prologue r) ht
    exact ((codeGenStmt_assign_typing hg hscoped hfit).allFrom trivial hs.prologue.inserts hk ht).1

theorem codeGenStmt_elseBranch_typed : ∀ (st : Option StmtNode) {s t : State}, Underway T func entry s →
    codeGenStmt (elseBranch st) s = .ok () t → AllFrom T.Knows entry t →
    (elseBranch st).kindsFit s.kinds.lenient = true →
    AllFrom (Inst.Typed T) entry s → AllFrom (Inst.Typed T) entry t
  | none, s, t, _, hg, _, _, ht => by
    obtain rfl := codeGenStmt_empty_ok.mp hg
    exact ht
  | some st, s, t, hs, hg, hk, hfit, ht => codeGenStmt_typed st hs hg hk hfit ht

theorem codeGenBlockItem_typed : ∀ (item : BlockItemNode) {s t : State}, Underway T func entry s →
    codeGenBlockItem item s = .ok () t → AllFrom T.Knows entry t → item.kindsFit s.kinds.lenient = true →
    AllFrom (Inst.Typed T) entry s → AllFrom (Inst.Typed T) entry t
  | .decl d, s, t, hs, hg, hk, hfit, ht => by
    rw [codeGenBlockItem_decl, codeGenDecl_defs] at hg
    rw [BlockItemNode.kindsFit] at hfit
    exact defs_typed hs hg hk hfit ht
  | .stmt st, s, t, hs, hg, hk, hfit, ht => by
    rw [BlockItemNode.kindsFit] at hfit
    exact codeGenStmt_typed st hs (codeGenBlockItem_stmt ▸ hg) hk hfit ht

theorem codeGenBlockItems_typed : ∀ (items : List BlockItemNode) {s t : State}, Underway T func entry s →
    codeGenBlockItems items s = .ok () t → AllFrom T.Knows entry t → itemsKindsFit items s.kinds.lenient = true →
    AllFrom (Inst.Typed T) entry s → AllFrom (Inst.Typed T) entry t
  | [], s, t, _, hg, _, _, ht => by
    obtain rfl := codeGenBlockItems_nil_ok.mp hg
    exact ht
  | item :: items, s, t, hs, hg, hk, hfit, ht => by
    obtain ⟨w, hw, hg⟩ := codeGenBlockItems_cons_ok.mp hg
    obtain ⟨r, d⟩ := codeGenBlockItem_run item hs.inFunc (Nat.le_of_lt hs.prologue.entry_lt) hw
    have hsw := hs.run r (Nat.le_refl _) d.layers
    obtain ⟨r', -⟩ := codeGenBlockItems_run items hsw.inFunc (Nat.le_of_lt hsw.prologue.entry_lt) hg
    rw [itemsKindsFit, Bool.and_eq_true] at hfit
    have hw' := codeGenBlockItem_typed item hs hw (hk.before hsw.prologue r') hfit.1 ht
    refine codeGenBlockItems_typed items hsw hg hk ?_ hw'
    rw [codeGenBlockItem_kinds item hs.inFunc hw, lenient_declared]
    exact hfit.2

end

end Code

end L24
