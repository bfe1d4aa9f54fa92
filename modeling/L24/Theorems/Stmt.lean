import L24.Theorems.Expr

/-! What each form of declaration and statement generates: one inversion lemma for each. -/

namespace L24
open Ir

/-! ### Assignments -/

section Assign
variable {s t : State} {u : Unit}

variable [ConstantFolder]

theorem createSetValueInst_ok {a : AllocaInst} {val : Value} {sub : Option Value}
    (h : createSetValueInst a val sub s = .ok u t) :
    (sub = none ∧ t = s.append [.store val a.value]) ∨
    (∃ i p w, sub = some i ∧ elementPtr a i s = .ok p w ∧ t = w.append [.store val p]) := by
  cases sub with
  | none => exact Or.inl ⟨rfl, (createStore_ok.mp h).2.2⟩
  | some i =>
    obtain ⟨p, w, hp, hs⟩ := bind_ok.mp h
    exact Or.inr ⟨i, p, w, rfl, hp, (createStore_ok.mp hs).2.2⟩

theorem setGlobalValue_ok {x : String} {val : Value} {sub : Option Value} (h : setGlobalValue x val sub s = .ok u t) :
    ∃ g, s.global? x = some g ∧
    ((sub = none ∧ s.namedValues = [] ∧ ∃ n, val.sextValue? = some n ∧ t = s.setInitializer g.name (.int n)) ∨
     (sub = none ∧ s.namedValues ≠ [] ∧ t = (s.emit (.load · g.valueTy (.const (.global g.name g.valueTy)))).append
       [.store val (.const (.global g.name g.valueTy))]) ∨
     (∃ i p w, sub = some i ∧ globalElementPtr g i s = .ok p w ∧ t = w.append [.store val p])) := by
  obtain ⟨g, w, hw, hset⟩ := bind_ok.mp h
  clear h
  obtain ⟨hg, rfl⟩ := requireGlobal_ok.mp hw
  refine ⟨g, hg, ?_⟩
  cases sub with
  | some i =>
    obtain ⟨p, k, hp, hs⟩ := bind_ok.mp hset
    exact Or.inr (Or.inr ⟨i, p, k, rfl, hp, (createStore_ok.mp hs).2.2⟩)
  | none =>
    simp only [get_bind] at hset
    cases hn : State.namedValues _ with
    | nil =>
      rw [hn, List.isEmpty_nil, if_pos rfl] at hset
      obtain ⟨n, _, hd, hm⟩ := bind_ok.mp hset
      obtain ⟨hv, rfl⟩ := deref_ok.mp hd
      exact Or.inl ⟨rfl, rfl, n, hv, modify_ok.mp hm⟩
    | cons layer outer =>
      rw [hn, List.isEmpty_cons, if_neg Bool.false_ne_true] at hset
      obtain ⟨_, _, hl, hs⟩ := bind_ok.mp hset
      obtain ⟨-, -, rfl⟩ := createLoad_ok.mp hl
      exact Or.inr (Or.inl ⟨rfl, by simp, (createStore_ok.mp hs).2.2⟩)

theorem setValue_local {x : String} {sub : Option Value} {a : AllocaInst} (h : s.lookup x = some (.varVal a)) :
    setValue x val sub s = createSetValueInst a val sub (s.log (.assign x sub.isSome (some (.local a)))) := by
  have hst : s.storage? x = some (.local a) := by
    rw [State.storage?, h]
    rfl
  have hl : (s.log (.assign x sub.isSome (s.storage? x))).lookup x = some (.varVal a) := h
  refine (bind_of_ok (a := ⟨⟩) (modify_ok.mpr rfl)).trans ?_
  rw [get_bind, hl, hst]

theorem setValue_const {x : String} {sub : Option Value} {a : AllocaInst} (h : s.lookup x = some (.constVal a)) :
    setValue x val sub s =
      .error (.logError (x ++ " is a const")) (s.log (.assign x sub.isSome (some (.local a)))) := by
  have hst : s.storage? x = some (.local a) := by
    rw [State.storage?, h]
    rfl
  have hl : (s.log (.assign x sub.isSome (s.storage? x))).lookup x = some (.constVal a) := h
  refine (bind_of_ok (a := ⟨⟩) (modify_ok.mpr rfl)).trans ?_
  rw [get_bind, hl, hst]
  rfl

theorem setValue_global {x : String} {sub : Option Value} (h : s.lookup x = none) :
    setValue x val sub s = setGlobalValue x val sub (s.log (.assign x sub.isSome (s.storage? x))) := by
  have hl : (s.log (.assign x sub.isSome (s.storage? x))).lookup x = none := h
  refine (bind_of_ok (a := ⟨⟩) (modify_ok.mpr rfl)).trans ?_
  rw [get_bind, hl]

theorem setValue_ok {x : String} {val : Value} {sub : Option Value} (h : setValue x val sub s = .ok u t) :
    (∃ a, s.lookup x = some (.varVal a) ∧
      createSetValueInst a val sub (s.log (.assign x sub.isSome (s.storage? x))) = .ok u t) ∨
    (s.lookup x = none ∧ setGlobalValue x val sub (s.log (.assign x sub.isSome (s.storage? x))) = .ok u t) := by
  obtain ⟨w, hw, hset⟩ := seq_ok.mp h
  obtain rfl := modify_ok.mp hw
  rw [get_bind] at hset
  have hl : (s.log (.assign x sub.isSome (s.storage? x))).lookup x = s.lookup x := rfl
  rw [hl] at hset
  cases hx : s.lookup x with
  | none =>
    rw [hx] at hset
    exact Or.inr ⟨rfl, hset⟩
  | some nv =>
    rw [hx] at hset
    cases nv with
    | varVal a => exact Or.inl ⟨a, rfl, hset⟩
    | constVal a => exact (logError_ok.mp hset).elim

/-- An assignment in a function generates at least a store. -/
theorem setValue_emits_ne {x : String} {val : Value} {sub : Option Value} (hs : s.namedValues ≠ [])
    (h : setValue x val sub s = .ok u t) : ∃ is, is ≠ [] ∧ Emits s is t := by
  rcases setValue_ok h with ⟨a, -, h⟩ | ⟨-, h⟩
  · rcases createSetValueInst_ok h with ⟨-, rfl⟩ | ⟨i, p, w, -, hp, rfl⟩
    · exact ⟨_, by simp, (Emits.log _).trans (.store _ _)⟩
    · obtain ⟨is, e⟩ := elementPtr_emits hp
      exact ⟨_, by simp, (Emits.log _).trans (e.trans (.store _ _))⟩
  · obtain ⟨g, -, ⟨-, hn, -⟩ | ⟨-, -, rfl⟩ | ⟨i, p, w, -, hp, rfl⟩⟩ := setGlobalValue_ok h
    · exact absurd hn hs
    · exact ⟨_, by simp, (Emits.log _).trans ((Emits.emit ⟨rfl, rfl⟩).trans (.store _ _))⟩
    · obtain ⟨is, e⟩ := createGEP_emits (globalElementPtr_ok.mp hp)
      exact ⟨_, by simp, (Emits.log _).trans (e.trans (.store _ _))⟩

theorem setValue_emits {x : String} {val : Value} {sub : Option Value} (hs : s.namedValues ≠ [])
    (h : setValue x val sub s = .ok u t) : ∃ is, Emits s is t := by
  obtain ⟨is, -, e⟩ := setValue_emits_ne hs h
  exact ⟨is, e⟩

end Assign

/-! ### Definitions -/

/-- The stores of `vals` into the elements of an array from `idx` on, with results from register `r` on. -/
def elementStores (a : AllocaInst) : (idx : Nat) → (r : Reg) → List Value → List Inst
  | _, _, [] => []
  | idx, r, v :: vs =>
    .gep r a.ty a.value [.const (.int 0), .const (.int (.ofNat 64 idx))] :: .store v (.inst r .ptr) ::
      elementStores a (idx + 1) (r + 1) vs

theorem elementStores_plain {a : AllocaInst} : ∀ {vs : List Value} {idx : Nat} {r : Reg},
    ∀ i ∈ elementStores a idx r vs, Plain i
  | [], _, _ => by simp [elementStores]
  | v :: vs, idx, r => by
    simp only [elementStores, List.mem_cons, forall_eq_or_imp]
    exact ⟨⟨rfl, rfl⟩, ⟨rfl, rfl⟩, elementStores_plain⟩

section Define
variable {s t : State} {u : Unit}

/-- Insert instructions that take `n` registers. -/
def State.appendRegs (s : State) (is : List Inst) (n : Nat) : State :=
  { s.append is with nextReg := s.nextReg + n }

theorem Emits.appendRegs {is : List Inst} (h : ∀ i ∈ is, Plain i) (n : Nat) : Emits s is (s.appendRegs is n) where
  blocks := rfl
  functions := State.append_functions s _
  globals := State.append_globals s _
  insertPoint := State.append_insertPoint s _
  namedValues := State.append_namedValues s _
  nestedBlocks := State.append_nestedBlocks s _
  lastUnique := State.append_lastUnique s _
  nextSlot := State.append_nextSlot s _
  nextLabel := State.append_nextLabel s _
  nextReg := Nat.le_add_right _ _
  plain := h

theorem State.appendRegs_appendRegs (s : State) (is js : List Inst) (m n : Nat) :
    (s.appendRegs is m).appendRegs js n = s.appendRegs (is ++ js) (m + n) := by
  obtain ⟨fs, gs, bs, ip, nv, nb, lu, nr, ns, nl, tr, eb⟩ := s
  cases ip <;> simp [State.appendRegs, State.append, Nat.add_assoc]

theorem State.appendRegs_nil (s : State) : s.appendRegs [] 0 = s := by
  obtain ⟨fs, gs, bs, ip, nv, nb, lu, nr, ns, nl, tr, eb⟩ := s
  cases ip <;> simp [State.appendRegs, State.append]

theorem State.appendRegs_append (s : State) (i j : Inst) : (s.appendRegs [i] 1).append [j] = s.appendRegs [i, j] 1 := by
  obtain ⟨fs, gs, bs, ip, nv, nb, lu, nr, ns, nl, tr, eb⟩ := s
  cases ip <;> simp [State.appendRegs, State.append]

variable [ConstantFolder]

theorem storeElements_ok {a : AllocaInst} : ∀ {vals : List Value} {idx : Nat} {s t : State} {u : Unit},
    storeElements a idx vals s = .ok u t → t = s.appendRegs (elementStores a idx s.nextReg vals) vals.length
  | [], idx, s, t, u, h => by
    rw [storeElements] at h
    rw [(pure_ok.mp h).2]
    exact s.appendRegs_nil.symm
  | v :: vs, idx, s, t, u, h => by
    rw [storeElements] at h
    obtain ⟨p, w, hp, hs⟩ := bind_ok.mp h
    obtain ⟨_, k, hk, hs⟩ := bind_ok.mp hs
    obtain ⟨-, -, rfl⟩ := createStore_ok.mp hk
    have hw : p = .inst s.nextReg .ptr ∧
        w = s.emit (.gep · a.ty a.value [.const (.int 0), .const (.int (.ofNat 64 idx))]) := by
      simpa [createGEP_ok, AllocaInst.value] using hp
    obtain ⟨rfl, rfl⟩ := hw
    have hemit : ∀ mk, s.emit mk = s.appendRegs [mk s.nextReg] 1 := fun mk => rfl
    rw [hemit] at hs
    rw [storeElements_ok hs, State.appendRegs_append, State.appendRegs_appendRegs]
    simp [elementStores, State.appendRegs, Nat.add_comm]

omit [ConstantFolder] in
theorem createEntryBlockAlloca_ok {func : Nat} {size : Option Value} {isPtr : Bool} {a : AllocaInst} :
    createEntryBlockAlloca func size isPtr s = .ok a t ↔
    ∃ entry, (s.functions[func]?.bind (·.layout.head?)) = some entry ∧
      ((size = none ∧ a = ⟨s.nextSlot, if isPtr then .ptr else .i64⟩ ∧
          t = s.emitAlloca entry (if isPtr then .ptr else .i64) none) ∨
       (∃ sz n, size = some sz ∧ sz.sextValue? = some n ∧
          a = ⟨s.nextSlot, .array n.toNat (if isPtr then .ptr else .i64)⟩ ∧
          t = s.emitAlloca entry (.array n.toNat (if isPtr then .ptr else .i64)) (some sz))) := by
  unfold createEntryBlockAlloca
  simp only [bind_ok, get_ok, deref_ok, and_assoc, exists_and_left, exists_eq_left]
  refine exists_congr fun entry => and_congr_right fun _ => ?_
  cases size with
  | none =>
    simp only [bind_ok, set_ok, pure_ok, true_and, exists_const, exists_eq_left, reduceCtorEq, false_and,
      exists_false, or_false]
  | some sz =>
    simp only [bind_ok, deref_ok, set_ok, pure_ok, and_assoc, exists_and_left, exists_eq_left, exists_const]
    simp

theorem createDefineValueInst_ok {vals : List Value} {size : Option Value} {isPtr : Bool} {a : AllocaInst}
    (h : createDefineValueInst vals size isPtr s = .ok a t) :
    ∃ p w, s.insertPoint = some p ∧ createEntryBlockAlloca p.func size isPtr s = .ok a w ∧
      ((size = none ∧ ∃ v, vals.head? = some v ∧ t = w.append [.store v a.value]) ∨
       (size ≠ none ∧ t = w.appendRegs (elementStores a 0 w.nextReg vals) vals.length)) := by
  obtain ⟨p, _, hp, hdef⟩ := bind_ok.mp h
  obtain ⟨hip, rfl⟩ := getInsertBlock_ok.mp hp
  obtain ⟨b, w, hw, hstores⟩ := bind_ok.mp hdef
  cases size with
  | none =>
    obtain ⟨v, _, hv, hstore⟩ := bind_ok.mp hstores
    obtain ⟨hhead, rfl⟩ := deref_ok.mp hv
    obtain ⟨_, hst, hret⟩ := seq_ok.mp hstore
    obtain ⟨-, -, rfl⟩ := createStore_ok.mp hst
    obtain ⟨rfl, rfl⟩ := pure_ok.mp hret
    exact ⟨p, _, hip, hw, Or.inl ⟨rfl, v, hhead, rfl⟩⟩
  | some sz =>
    obtain ⟨_, hst, hret⟩ := seq_ok.mp hstores
    obtain ⟨rfl, rfl⟩ := pure_ok.mp hret
    exact ⟨p, w, hip, hw, Or.inr ⟨by simp, storeElements_ok hst⟩⟩

/-- A scalar gets its alloca in the entry block, and its value where the builder inserts. -/
theorem createDefineValueInst_scalar {p : InsertPoint} {entry : Label} {v : Value} {isPtr : Bool}
    (hp : s.insertPoint = some p) (he : (s.functions[p.func]?.bind (·.layout.head?)) = some entry) (hv : v.ty ≠ .void) :
    createDefineValueInst [v] none isPtr s = .ok ⟨s.nextSlot, if isPtr then .ptr else .i64⟩
      ((s.emitAlloca entry (if isPtr then .ptr else .i64) none).append
        [.store v (.alloca s.nextSlot (if isPtr then .ptr else .i64))]) := by
  have ha : createEntryBlockAlloca p.func none isPtr s = .ok ⟨s.nextSlot, if isPtr then .ptr else .i64⟩
      (s.emitAlloca entry (if isPtr then .ptr else .i64) none) :=
    createEntryBlockAlloca_ok.mpr ⟨entry, he, Or.inl ⟨rfl, rfl, rfl⟩⟩
  have hst : createStore v (.alloca s.nextSlot (if isPtr then .ptr else .i64))
      (s.emitAlloca entry (if isPtr then .ptr else .i64) none) = .ok () _ :=
    createStore_ok.mpr ⟨Option.isSome_iff_exists.mpr ⟨p, hp⟩, hv, rfl⟩
  unfold createDefineValueInst
  refine (bind_of_ok (getInsertBlock_ok.mpr ⟨hp, rfl⟩)).trans ((bind_of_ok ha).trans ?_)
  have hhead : deref [v].head? = (pure v : CG Value) := rfl
  simp only [hhead, pure_bind]
  exact (bind_of_ok hst).trans rfl

/-- The scope table's entry for an alloca. -/
def ValType.named : ValType → AllocaInst → NamedValue
  | .const => .constVal
  | .var => .varVal

theorem defineValue_ok {x : String} {ty : ValType} {vals : List Value} {size : Option Value} {isPtr : Bool}
    (h : defineValue x ty vals size isPtr s = .ok u t) :
    (s.namedValues = [] ∧ ∃ w, defineGlobalValue x vals size s = .ok () w ∧
      t = w.log (.define x ty (.global x))) ∨
    (∃ layer outer a w, s.namedValues = layer :: outer ∧ layer.lookup x = none ∧
      createDefineValueInst vals size isPtr s = .ok a w ∧
      t = (w.bind x (ty.named a)).log (.define x ty (.local a))) := by
  rw [defineValue, get_bind] at h
  cases hn : s.namedValues with
  | nil =>
    rw [hn] at h
    obtain ⟨w, hw, hlog⟩ := seq_ok.mp h
    exact Or.inl ⟨rfl, w, hw, modify_ok.mp hlog⟩
  | cons layer outer =>
    have hdef := h
    rw [hn] at hdef
    cases hl : layer.lookup x with
    | some nv =>
      simp only [hl] at hdef
      exact (logError_ok.mp hdef).elim
    | none =>
      simp only [hl] at hdef
      obtain ⟨a, w, hw, hdef⟩ := bind_ok.mp hdef
      refine Or.inr ⟨layer, outer, a, w, rfl, hl, hw, ?_⟩
      cases ty <;> exact modify_ok.mp hdef

/-- A name that is new in the current layer is bound. -/
theorem defineValue_global {x : String} {ty : ValType} {vals : List Value} {size : Option Value} {isPtr : Bool}
    {w : State}
    (hn : s.namedValues = []) (hw : defineGlobalValue x vals size s = .ok () w) :
    defineValue x ty vals size isPtr s = .ok () (w.log (.define x ty (.global x))) := by
  rw [defineValue, get_bind, hn]
  exact (bind_of_ok hw).trans rfl

theorem defineValue_local {x : String} {ty : ValType} {vals : List Value} {size : Option Value} {isPtr : Bool}
    {layer : Layer} {outer : List Layer} {a : AllocaInst} {w : State} (hn : s.namedValues = layer :: outer)
    (hl : layer.lookup x = none) (hw : createDefineValueInst vals size isPtr s = .ok a w) :
    defineValue x ty vals size isPtr s = .ok () ((w.bind x (ty.named a)).log (.define x ty (.local a))) := by
  rw [defineValue, get_bind, hn]
  simp only [hl, Option.isNone_none, ↓reduceIte]
  refine (bind_of_ok hw).trans ?_
  cases ty <;> rfl

end Define

/-! ### Initial values -/

section Init
variable {s t : State} {v : Value} {vs : List Value}

variable [ConstantFolder]

theorem initVal_ok {node : Option InitValNode} {idx : Nat} : initVal node idx s = .ok v t ↔
    (v = getInitInt ∧ t = s ∧ ∀ n, node = some n → max n.exps.length n.stringLiteral.length ≤ idx) ∨
    (∃ n c, node = some n ∧ n.exps = [] ∧ n.stringLiteral[idx]? = some c ∧ v = charValue c ∧ t = s) ∨
    (∃ n e, node = some n ∧ n.exps[idx]? = some e ∧ codeGenExp e s = .ok v t) := by
  unfold initVal
  cases node with
  | none => simp [pure_ok]
  | some n =>
    show (if max n.exps.length n.stringLiteral.length ≤ idx then (pure getInitInt : CG Value)
      else if n.exps.isEmpty then (do return charValue (← deref n.stringLiteral[idx]?))
      else (do codeGenExp (← deref n.exps[idx]?))) s = .ok v t ↔ _
    -- Behind the last value the default is read, whichever of the two kinds the values are of.
    by_cases hle : max n.exps.length n.stringLiteral.length ≤ idx
    · have h₁ : n.exps[idx]? = none := List.getElem?_eq_none (Nat.le_trans (Nat.le_max_left _ _) hle)
      have h₂ : n.stringLiteral[idx]? = none := List.getElem?_eq_none (Nat.le_trans (Nat.le_max_right _ _) hle)
      rw [if_pos hle, pure_ok]
      constructor
      · rintro ⟨rfl, rfl⟩
        refine Or.inl ⟨rfl, rfl, fun m hm => ?_⟩
        cases hm
        exact hle
      · rintro (⟨rfl, rfl, -⟩ | ⟨m, c, hm, -, hc, -⟩ | ⟨m, e, hm, he, -⟩)
        · exact ⟨rfl, rfl⟩
        · cases hm
          rw [h₂] at hc
          cases hc
        · cases hm
          rw [h₁] at he
          cases he
    · rw [if_neg hle]
      -- A node holds expressions or a string literal; the source asks for the expressions first.
      by_cases he : n.exps = []
      · rw [if_pos (by simp [he])]
        simp only [bind_ok, deref_ok, pure_ok, and_assoc, exists_and_left, exists_eq_left]
        constructor
        · rintro ⟨c, hc, rfl, rfl⟩
          exact Or.inr (Or.inl ⟨n, rfl, he, c, hc, rfl, rfl⟩)
        · rintro (⟨-, -, h⟩ | ⟨_, hn, -, c, hc, rfl, rfl⟩ | ⟨_, hn, e, h, -⟩)
          · exact absurd (h n rfl) hle
          · cases hn
            exact ⟨c, hc, rfl, rfl⟩
          · cases hn
            simp [he] at h
      · rw [if_neg (by simpa using he)]
        simp only [bind_ok, deref_ok, and_assoc, exists_and_left, exists_eq_left]
        constructor
        · rintro ⟨e, hn, h⟩
          exact Or.inr (Or.inr ⟨n, rfl, e, hn, h⟩)
        · rintro (⟨-, -, h⟩ | ⟨_, hn, h, -⟩ | ⟨_, hn, e, he', h⟩)
          · exact absurd (h n rfl) hle
          · cases hn
            exact absurd h he
          · cases hn
            exact ⟨e, he', h⟩

theorem initVals_cons_ok {node : Option InitValNode} {idx n : Nat} : initVals node idx (n + 1) s = .ok vs t ↔
    ∃ v w ws, initVal node idx s = .ok v w ∧ initVals node (idx + 1) n w = .ok ws t ∧ vs = v :: ws := by
  rw [initVals]
  simp only [bind_ok, pure_ok]
  constructor
  · rintro ⟨v, w, hv, ws, _, hws, rfl, rfl⟩
    exact ⟨v, w, ws, hv, hws, rfl⟩
  · rintro ⟨v, w, ws, hv, hws, rfl⟩
    exact ⟨v, w, hv, ws, t, hws, rfl, rfl⟩

theorem initVals_zero_ok {node : Option InitValNode} {idx : Nat} : initVals node idx 0 s = .ok vs t ↔
    vs = [] ∧ t = s := by
  rw [initVals]; exact pure_ok

theorem getInitVals_ok {node : Option InitValNode} {size : Option Value} : getInitVals node size s = .ok vs t ↔
    (size = none ∧ initVals node 0 1 s = .ok vs t) ∨
    (∃ sz n, size = some sz ∧ sz.sextValue? = some n ∧ n ≠ 0 ∧ initVals node 0 n.toInt.toNat s = .ok vs t) := by
  unfold getInitVals
  cases size with
  | none => simp
  | some sz =>
    simp only [bind_ok, deref_ok, and_assoc, exists_and_left, exists_eq_left, reduceCtorEq, false_and, false_or]
    constructor
    · rintro ⟨n, hn, h⟩
      by_cases h0 : n = 0
      · rw [if_pos h0, bind_ok] at h
        obtain ⟨_, _, h, -⟩ := h
        exact (logError_ok.mp h).elim
      · rw [if_neg h0] at h
        exact ⟨sz, rfl, n, hn, h0, h⟩
    · rintro ⟨_, hsz, n, hn, h0, h⟩
      cases hsz
      exact ⟨n, hn, by rw [if_neg h0]; exact h⟩

theorem initVal_emits {node : Option InitValNode} {idx : Nat} (h : initVal node idx s = .ok v t) :
    ∃ is, Emits s is t := by
  rcases initVal_ok.mp h with ⟨-, rfl, -⟩ | ⟨n, c, -, -, -, -, rfl⟩ | ⟨n, e, -, -, h⟩
  · exact ⟨_, .refl _⟩
  · exact ⟨_, .refl _⟩
  · exact codeGenExp_emits h

theorem initVals_emits {node : Option InitValNode} : ∀ {n idx : Nat} {s t : State} {vs : List Value},
    initVals node idx n s = .ok vs t → ∃ is, Emits s is t
  | 0, _, s, t, vs, h => by
    obtain ⟨-, rfl⟩ := initVals_zero_ok.mp h
    exact ⟨_, .refl _⟩
  | n + 1, idx, s, t, vs, h => by
    obtain ⟨v, w, ws, hv, hws, -⟩ := initVals_cons_ok.mp h
    obtain ⟨is, e₁⟩ := initVal_emits hv
    obtain ⟨js, e₂⟩ := initVals_emits hws
    exact ⟨_, e₁.trans e₂⟩

theorem getInitVals_emits {node : Option InitValNode} {size : Option Value} (h : getInitVals node size s = .ok vs t) :
    ∃ is, Emits s is t := by
  rcases getInitVals_ok.mp h with ⟨-, h⟩ | ⟨_, _, -, -, -, h⟩ <;> exact initVals_emits h

/-- The size and the initial values of a definition, generated before it is defined. -/
def GenInit (init : Option InitValNode) (exp : Option ExprNode) (s : State) (size : Option Value)
    (vs : List Value) (t : State) : Prop :=
  match exp with
  | none => size = none ∧ getInitVals init none s = .ok vs t
  | some e => ∃ sz w, size = some sz ∧ codeGenExp e s = .ok sz w ∧ getInitVals init (some sz) w = .ok vs t

theorem codeGenDef_ok {ty : ValType} {x : String} {init : Option InitValNode} {exp : Option ExprNode} {u : Unit} :
    codeGenDef ty x init exp s = .ok u t ↔
    ∃ size vs w, GenInit init exp s size vs w ∧ defineValue x ty vs size false w = .ok u t := by
  unfold codeGenDef GenInit
  cases exp with
  | none =>
    simp only [bind_ok]
    exact ⟨fun ⟨vs, w, hv, h⟩ => ⟨none, vs, w, ⟨rfl, hv⟩, h⟩, fun ⟨_, vs, w, ⟨rfl, hv⟩, h⟩ => ⟨vs, w, hv, h⟩⟩
  | some e =>
    simp only [bind_ok]
    constructor
    · rintro ⟨sz, w, he, vs, w', hv, h⟩
      exact ⟨some sz, vs, w', ⟨sz, w, rfl, he, hv⟩, h⟩
    · rintro ⟨_, vs, w', ⟨sz, w, rfl, he, hv⟩, h⟩
      exact ⟨sz, w, he, vs, w', hv, h⟩

theorem GenInit.emits {init : Option InitValNode} {exp : Option ExprNode} {size : Option Value}
    (h : GenInit init exp s size vs t) : ∃ is, Emits s is t := by
  unfold GenInit at h
  cases exp with
  | none => exact getInitVals_emits h.2
  | some e =>
    obtain ⟨sz, w, -, he, hv⟩ := h
    obtain ⟨is, e₁⟩ := codeGenExp_emits he
    obtain ⟨js, e₂⟩ := getInitVals_emits hv
    exact ⟨_, e₁.trans e₂⟩

end Init

/-! ### Statements -/

/-- The state after `createBrUnlessBranch`. -/
def State.brUnlessBranch (s : State) (p : InsertPoint) (target : Label) : State :=
  match (s.blocks p.block).getLast? with
  | some i => if i.isBranch then s else s.append [.br target]
  | none => { s with emptyBack := true }.append [.br target]

/-- The three blocks of an `if` or a `while`. -/
def State.newBlocks (s : State) : State := { s with nextLabel := s.nextLabel + 3 }

/-- A loop is entered. -/
def State.pushLoop (s : State) (loop : Label × Label) : State := { s with nestedBlocks := loop :: s.nestedBlocks }

/-- A loop is left. -/
def State.popLoop (s : State) : State := { s with nestedBlocks := s.nestedBlocks.tail }

/-- What stands in the else branch. -/
def elseBranch (elseStmt : Option StmtNode) : StmtNode := elseStmt.getD (.expr none)

section Stmt
variable {s t : State} {u : Unit}

theorem backIs_ok {isa : Inst → Bool} {b : Bool} : backIs isa s = .ok b t ↔ ∃ p, s.insertPoint = some p ∧
    ((∃ i, (s.blocks p.block).getLast? = some i ∧ b = isa i ∧ t = s) ∨
     ((s.blocks p.block).getLast? = none ∧ b = false ∧ t = { s with emptyBack := true })) := by
  unfold backIs
  simp only [bind_ok, getInsertBlock_ok, get_ok, and_assoc, exists_and_left, exists_eq_left]
  refine exists_congr fun p => and_congr_right fun _ => ?_
  cases (s.blocks p.block).getLast? with
  | none =>
    simp only [bind_ok, set_ok, pure_ok, reduceCtorEq, false_and, exists_false, true_and, false_or]
    exact ⟨fun ⟨_, _, rfl, hb, ht⟩ => ⟨hb, ht⟩, fun ⟨hb, ht⟩ => ⟨⟨⟩, _, rfl, hb, ht⟩⟩
  | some i => simp [pure_ok]

theorem createBrUnlessBranch_ok {target : Label} : createBrUnlessBranch target s = .ok u t ↔
    ∃ p, s.insertPoint = some p ∧ t = s.brUnlessBranch p target := by
  unfold createBrUnlessBranch State.brUnlessBranch
  simp only [bind_ok, backIs_ok]
  constructor
  · rintro ⟨b, w, ⟨p, hp, ⟨i, hi, rfl, rfl⟩ | ⟨hi, rfl, rfl⟩⟩, h⟩
    · refine ⟨p, hp, ?_⟩
      rw [hi]
      cases hb : i.isBranch
      · simpa [hb, createBr, insert_ok] using h
      · simpa [hb, pure_ok] using h
    · refine ⟨p, hp, ?_⟩
      rw [hi]
      simpa [createBr, insert_ok] using h
  · rintro ⟨p, hp, rfl⟩
    cases hi : (s.blocks p.block).getLast? with
    | none => exact ⟨false, _, ⟨p, hp, Or.inr ⟨hi, rfl, rfl⟩⟩, by simp [createBr, insert_ok]⟩
    | some i =>
      refine ⟨i.isBranch, s, ⟨p, hp, Or.inl ⟨i, hi, rfl, rfl⟩⟩, ?_⟩
      cases hb : i.isBranch <;> simp [createBr, insert_ok, pure_ok, hb]

theorem inNewLayer_ok {m : CG Unit} : inNewLayer m s = .ok u t ↔
    ∃ w, m (s.pushLayer.log .push) = .ok () w ∧ t = w.popLayer.log .pop := by
  unfold inNewLayer pushNamedValuesLayer popNamedValuesLayer
  simp only [bind_ok, modify_ok]
  exact ⟨fun ⟨_, _, rfl, _, w, h, ht⟩ => ⟨w, h, ht⟩, fun ⟨w, h, ht⟩ => ⟨⟨⟩, _, rfl, ⟨⟩, w, h, ht⟩⟩

variable [ConstantFolder]

theorem codeGenStmt_block_ok {items : List BlockItemNode} : codeGenStmt (.block items) s = .ok u t ↔
    ∃ w, codeGenBlockItems items (s.pushLayer.log .push) = .ok () w ∧ t = w.popLayer.log .pop := by
  rw [codeGenStmt, inNewLayer_ok]

theorem codeGenStmt_if {e : ExprNode} {thenStmt : StmtNode} {elseStmt : Option StmtNode} :
    codeGenStmt (.ifStmt e thenStmt elseStmt) =
      codeGenIfStmt e (codeGenStmt thenStmt) (codeGenStmt (elseBranch elseStmt)) := by
  cases elseStmt with
  | none => rw [codeGenStmt, elseBranch, Option.getD_none, codeGenStmt, codeGenExprStmt]
  | some f => rw [codeGenStmt, elseBranch, Option.getD_some]

/-- An `if`: the condition, a conditional branch, the two branches, each closed by a branch to the
    block behind. -/
theorem codeGenStmt_if_ok {e : ExprNode} {thenStmt : StmtNode} {elseStmt : Option StmtNode} :
    codeGenStmt (.ifStmt e thenStmt elseStmt) s = .ok u t ↔
    ∃ v s₁ c s₂ p s₃ q s₄ r, codeGenExp e s = .ok v s₁ ∧ intToBoolean v s₁ = .ok c s₂ ∧
      s₂.insertPoint = some p ∧
      codeGenStmt thenStmt ((s₂.newBlocks.append [.condBr c s₂.nextLabel (s₂.nextLabel + 1)]).enter
        p.func s₂.nextLabel) = .ok () s₃ ∧
      s₃.insertPoint = some q ∧
      codeGenStmt (elseBranch elseStmt) ((s₃.brUnlessBranch q (s₂.nextLabel + 2)).enter p.func
        (s₂.nextLabel + 1)) = .ok () s₄ ∧
      s₄.insertPoint = some r ∧ t = (s₄.brUnlessBranch r (s₂.nextLabel + 2)).enter p.func (s₂.nextLabel + 2) := by
  rw [codeGenStmt_if, codeGenIfStmt]
  simp only [bind_ok, getInsertBlock_ok, createBlock_ok, createCondBr, insert_ok, enterBlock_ok,
    createBrUnlessBranch_ok, and_assoc, exists_and_left, exists_eq_left, exists_const]
  constructor
  · rintro ⟨v, s₁, hv, c, s₂, hc, p, hp, _, s₃, h₃, _, ⟨q, hq, rfl⟩, _, s₄, h₄, _, ⟨r, hr, rfl⟩, ht⟩
    exact ⟨v, s₁, hv, c, s₂, hc, p, hp, s₃, h₃, q, hq, s₄, h₄, r, hr, ht⟩
  · rintro ⟨v, s₁, hv, c, s₂, hc, p, hp, s₃, h₃, q, hq, s₄, h₄, r, hr, ht⟩
    exact ⟨v, s₁, hv, c, s₂, hc, p, hp, ⟨⟩, s₃, h₃, _, ⟨q, hq, rfl⟩, ⟨⟩, s₄, h₄, _, ⟨r, hr, rfl⟩, ht⟩

/-- A `while`: a branch to the condition's block, the body between the pushed loop's blocks, and the
    block behind. -/
theorem codeGenStmt_while_ok {e : ExprNode} {body : StmtNode} : codeGenStmt (.whileStmt e body) s = .ok u t ↔
    ∃ p v s₁ c s₂ s₃ q, s.insertPoint = some p ∧
      codeGenExp e (((s.newBlocks.pushLoop (s.nextLabel, s.nextLabel + 2)).append [.br s.nextLabel]).enter
        p.func s.nextLabel) = .ok v s₁ ∧
      intToBoolean v s₁ = .ok c s₂ ∧
      codeGenStmt body ((s₂.append [.condBr c (s.nextLabel + 1) (s.nextLabel + 2)]).enter
        p.func (s.nextLabel + 1)) = .ok () s₃ ∧
      s₃.insertPoint = some q ∧ t = ((s₃.brUnlessBranch q s.nextLabel).enter p.func (s.nextLabel + 2)).popLoop := by
  rw [codeGenStmt, codeGenWhileStmt]
  simp only [bind_ok, getInsertBlock_ok, createBlock_ok, pushNestedBlocks, popNestedBlocks, modify_ok, createBr,
    createCondBr, insert_ok, enterBlock_ok, createBrUnlessBranch_ok, and_assoc, exists_and_left, exists_eq_left,
    exists_const]
  constructor
  · rintro ⟨p, hp, v, s₁, hv, c, s₂, hc, _, s₃, h₃, _, ⟨q, hq, rfl⟩, ht⟩
    exact ⟨p, hp, v, s₁, hv, c, s₂, hc, s₃, h₃, q, hq, ht⟩
  · rintro ⟨p, hp, v, s₁, hv, c, s₂, hc, s₃, h₃, q, hq, ht⟩
    exact ⟨p, hp, v, s₁, hv, c, s₂, hc, ⟨⟩, s₃, h₃, _, ⟨q, hq, rfl⟩, ht⟩

omit [ConstantFolder] in
theorem innermostLoop_ok {loop : Label × Label} : innermostLoop s = .ok loop t ↔
    (∃ outer, s.nestedBlocks = loop :: outer) ∧ t = s := by
  unfold innermostLoop
  simp only [bind_ok, get_ok, and_assoc, exists_and_left, exists_eq_left]
  cases s.nestedBlocks with
  | nil => simp [logError_ok]
  | cons l outer => simp [pure_ok, eq_comm]

theorem codeGenStmt_continue_ok : codeGenStmt .continueStmt s = .ok u t ↔
    ∃ loop outer, s.nestedBlocks = loop :: outer ∧ t = s.append [.br loop.1] := by
  rw [codeGenStmt, codeGenContinue]
  simp only [bind_ok, innermostLoop_ok, createBr, insert_ok]
  exact ⟨fun ⟨l, _, ⟨⟨o, ho⟩, rfl⟩, ht⟩ => ⟨l, o, ho, ht⟩, fun ⟨l, o, ho, ht⟩ => ⟨l, s, ⟨⟨o, ho⟩, rfl⟩, ht⟩⟩

theorem codeGenStmt_break_ok : codeGenStmt .breakStmt s = .ok u t ↔
    ∃ loop outer, s.nestedBlocks = loop :: outer ∧ t = s.append [.br loop.2] := by
  rw [codeGenStmt, codeGenBreak]
  simp only [bind_ok, innermostLoop_ok, createBr, insert_ok]
  exact ⟨fun ⟨l, _, ⟨⟨o, ho⟩, rfl⟩, ht⟩ => ⟨l, o, ho, ht⟩, fun ⟨l, o, ho, ht⟩ => ⟨l, s, ⟨⟨o, ho⟩, rfl⟩, ht⟩⟩

theorem codeGenStmt_retVoid_ok : codeGenStmt (.ret none) s = .ok u t ↔ t = s.append [.ret none] := by
  rw [codeGenStmt, codeGenRet]; exact insert_ok

theorem codeGenStmt_ret_ok {e : ExprNode} : codeGenStmt (.ret (some e)) s = .ok u t ↔
    ∃ v w, codeGenExp e s = .ok v w ∧ t = w.append [.ret (some v)] := by
  rw [codeGenStmt, codeGenRet]; simp only [bind_ok, createRet, insert_ok]

theorem codeGenStmt_empty_ok : codeGenStmt (.expr none) s = .ok u t ↔ t = s := by
  rw [codeGenStmt, codeGenExprStmt]; simp [pure_ok]

theorem codeGenStmt_expr_ok {e : ExprNode} : codeGenStmt (.expr (some e)) s = .ok u t ↔
    ∃ v, codeGenExp e s = .ok v t := by
  rw [codeGenStmt, codeGenExprStmt]; exact discard_ok

theorem codeGenSubIdx_ok {sub : Option ExprNode} {idx : Option Value} : codeGenSubIdx sub s = .ok idx t ↔
    (sub = none ∧ idx = none ∧ t = s) ∨ ∃ e i, sub = some e ∧ idx = some i ∧ codeGenExp e s = .ok i t := by
  cases sub with
  | none => simp [codeGenSubIdx, pure_ok]
  | some e =>
    rw [codeGenSubIdx]
    simp only [bind_ok, pure_ok, reduceCtorEq, false_and, false_or]
    constructor
    · rintro ⟨i, _, hi, rfl, rfl⟩
      exact ⟨e, i, rfl, rfl, hi⟩
    · rintro ⟨_, i, he, rfl, hi⟩
      cases he
      exact ⟨i, t, hi, rfl, rfl⟩

theorem codeGenStmt_assign_ok {x : String} {sub : Option ExprNode} {e : ExprNode} :
    codeGenStmt (.assign x sub e) s = .ok u t ↔
    ∃ v w idx k, codeGenExp e s = .ok v w ∧ codeGenSubIdx sub w = .ok idx k ∧ setValue x v idx k = .ok u t := by
  rw [codeGenStmt, codeGenAssign]
  simp only [bind_ok, exists_and_left]

theorem codeGenSubIdx_emits {sub : Option ExprNode} {idx : Option Value} (h : codeGenSubIdx sub s = .ok idx t) :
    ∃ is, Emits s is t := by
  rcases codeGenSubIdx_ok.mp h with ⟨-, -, rfl⟩ | ⟨e, i, -, -, h⟩
  · exact ⟨_, .refl _⟩
  · exact codeGenExp_emits h

theorem codeGenBlockItems_nil_ok : codeGenBlockItems [] s = .ok u t ↔ t = s := by
  rw [codeGenBlockItems]; simp [pure_ok]

theorem codeGenBlockItems_cons_ok {item : BlockItemNode} {items : List BlockItemNode} :
    codeGenBlockItems (item :: items) s = .ok u t ↔
    ∃ w, codeGenBlockItem item s = .ok () w ∧ codeGenBlockItems items w = .ok u t := by
  rw [codeGenBlockItems]; exact seq_ok

theorem codeGenBlockItem_decl {d : DeclNode} : codeGenBlockItem (.decl d) = codeGenDecl d := by
  rw [codeGenBlockItem]

theorem codeGenBlockItem_stmt {st : StmtNode} : codeGenBlockItem (.stmt st) = codeGenStmt st := by
  rw [codeGenBlockItem]

end Stmt

/-! ### Declarations -/

/-- One definition of a declaration, const or var. -/
structure Def where
  ty : ValType
  ident : String
  init : Option InitValNode
  exp : Option ExprNode

/-- A definition of a const declaration. -/
def ConstDefNode.toDef (d : ConstDefNode) : Def := ⟨.const, d.ident, some d.initVal, d.exp⟩

/-- A definition of a var declaration. -/
def VarDefNode.toDef (d : VarDefNode) : Def := ⟨.var, d.ident, d.initVal, d.exp⟩

/-- The definitions of a declaration. -/
def DeclNode.defs : DeclNode → List Def
  | .constDecl d => d.constDefs.map ConstDefNode.toDef
  | .varDecl d => d.varDefs.map VarDefNode.toDef

variable [ConstantFolder]

/-- Its generation. -/
def Def.gen (d : Def) : CG Unit := codeGenDef d.ty d.ident d.init d.exp

section Decl
variable {s t : State} {u : PUnit}

omit [ConstantFolder] in
theorem forM_cons_ok {α : Type} {f : α → CG PUnit} {a : α} {l : List α} : (a :: l).forM f s = .ok u t ↔
    ∃ w, f a s = .ok ⟨⟩ w ∧ l.forM f w = .ok u t := by
  rw [List.forM_eq_forM, List.forM_cons]
  exact seq_ok

omit [ConstantFolder] in
theorem forM_nil_ok {α : Type} {f : α → CG PUnit} : ([] : List α).forM f s = .ok u t ↔ t = s := by
  rw [List.forM_eq_forM, List.forM_nil]
  exact ⟨fun h => (pure_ok.mp h).2, fun h => pure_ok.mpr ⟨rfl, h⟩⟩

theorem codeGenDecl_defs (d : DeclNode) : codeGenDecl d = d.defs.forM Def.gen := by
  cases d with
  | constDecl d => simp only [codeGenDecl, DeclNode.defs, List.forM_eq_forM, List.forM_map]; rfl
  | varDecl d => simp only [codeGenDecl, DeclNode.defs, List.forM_eq_forM, List.forM_map]; rfl

end Decl

end L24
