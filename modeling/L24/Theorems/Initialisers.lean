import L24.Theorems.Redeclare

/-! Definitions: code generation rejects one with `LogError`, defines it, or stops at a null pointer or a value of type
    void; which of these is read off the forms of its size and its initial values. -/

namespace L24
open Ir Relation

/-! ### The definition itself -/

/-- The name is declared in the current scope: in the current layer, or outside all functions as a global variable. -/
def State.declared (s : State) (x : String) : Bool :=
  match s.namedValues with
  | [] => (s.global? x).isSome
  | layer :: _ => (layer.lookup x).isSome

section Define
variable {func entry : Nat} {s t w : State} {x : String} {ty : ValType} {vs : List Value} {size : Option Value}

variable [ConstantFolder]

/-- A name that its scope has is rejected, and only such a name. -/
theorem defineValue_logs_iff : Logs (L24.defineValue x ty vs size false) s ↔ s.declared x = true := by
  unfold State.declared
  cases hn : s.namedValues with
  | nil => exact defineValue_logError_global hn
  | cons layer outer => exact defineValue_logError_local hn

/-- The elements of an array can be stored exactly if none of them is void. -/
theorem storeElements_total {a : AllocaInst} : ∀ {vals : List Value} {idx : Nat} {s : State},
    s.insertPoint.isSome = true →
    ((∃ t, storeElements a idx vals s = .ok () t) ↔ ∀ v ∈ vals, v.ty ≠ .void)
  | [], idx, s, _ => by
    rw [storeElements]
    exact ⟨fun _ => by simp, fun _ => ⟨s, rfl⟩⟩
  | v :: vals, idx, s, hp => by
    obtain ⟨p, u, is, hu, e⟩ := createGEP_total (s := s) a.ty a.value (.const (.int 0)) (.const (.int (.ofNat 64 idx)))
    have hpu : u.insertPoint.isSome = true := by rwa [e.insertPoint]
    have hpw : ((u.append [.store v p]).insertPoint).isSome = true := by rwa [State.append_insertPoint]
    rw [storeElements, List.forall_mem_cons, ← storeElements_total hpw]
    constructor
    · rintro ⟨t, h⟩
      obtain ⟨p', u', hu', h⟩ := bind_ok.mp h
      obtain ⟨rfl, rfl⟩ := EStateM.Result.ok.inj (hu'.symm.trans hu)
      obtain ⟨_, hst, h⟩ := seq_ok.mp h
      obtain ⟨-, hv, rfl⟩ := createStore_ok.mp hst
      exact ⟨hv, t, h⟩
    · rintro ⟨hv, t, h⟩
      have hst : createStore v p u = .ok () _ := createStore_ok.mpr ⟨hpu, hv, rfl⟩
      exact ⟨t, (bind_of_ok hu).trans ((bind_of_ok hst).trans h)⟩

/-- A scalar that is defined has a value that is not void. -/
theorem createDefineValueInst_nonvoid {v : Value} {a : AllocaInst}
    (h : createDefineValueInst [v] none false s = .ok a t) :
    v.ty ≠ .void := by
  obtain ⟨p, _, hp, h⟩ := bind_ok.mp h
  obtain ⟨b, w', -, h⟩ := bind_ok.mp h
  obtain ⟨v', _, hv, h⟩ := bind_ok.mp h
  obtain ⟨hv, rfl⟩ := deref_ok.mp hv
  cases hv
  obtain ⟨_, hst, -⟩ := seq_ok.mp h
  exact (createStore_ok.mp hst).2.1

/-- In a function a new name is defined exactly if none of its values is void. -/
theorem defineValue_local_iff (hf : InFunc func s) (hs : Prologue func entry s) (hx : s.declared x = false)
    (hv : size = none → ∃ v, vs = [v]) (hz : ∀ sz, size = some sz → ∃ n, sz.sextValue? = some n) :
    (∃ t, L24.defineValue x ty vs size false s = .ok () t) ↔ ∀ v ∈ vs, v.ty ≠ .void := by
  obtain ⟨l, hl⟩ := hf.point
  cases hn : s.namedValues with
  | nil => exact absurd hn hf.layers
  | cons layer outer =>
    rw [State.declared, hn] at hx
    have hx : layer.lookup x = none := by simpa using hx
    have hdef : (∃ t, L24.defineValue x ty vs size false s = .ok () t) ↔
        ∃ a w, createDefineValueInst vs size false s = .ok a w := by
      constructor
      · rintro ⟨t, h⟩
        rcases defineValue_ok h with ⟨h, -⟩ | ⟨_, _, a, w, -, -, h, -⟩
        · exact absurd h hf.layers
        · exact ⟨a, w, h⟩
      · rintro ⟨a, w, h⟩
        exact ⟨_, defineValue_local hn hx h⟩
    rw [hdef]
    cases size with
    | none =>
      obtain ⟨v, rfl⟩ := hv rfl
      constructor
      · rintro ⟨a, w, h⟩ v' hv'
        obtain rfl := List.mem_singleton.mp hv'
        exact createDefineValueInst_nonvoid h
      · intro hv
        exact ⟨_, _, createDefineValueInst_scalar hl hs.head (hv v List.mem_cons_self)⟩
    | some sz =>
      obtain ⟨n, hn⟩ := hz sz rfl
      have ha : createEntryBlockAlloca func (some sz) false s = .ok ⟨s.nextSlot, .array n.toNat .i64⟩
          (s.emitAlloca entry (.array n.toNat .i64) (some sz)) :=
        createEntryBlockAlloca_ok.mpr ⟨entry, hs.head, Or.inr ⟨sz, n, rfl, hn, rfl, rfl⟩⟩
      have hp : (s.emitAlloca entry (.array n.toNat .i64) (some sz)).insertPoint.isSome = true :=
        Option.isSome_of_eq_some hl
      have htotal : (∃ t, storeElements ⟨s.nextSlot, .array n.toNat .i64⟩ 0 vs
          (s.emitAlloca entry (.array n.toNat .i64) (some sz)) = .ok () t) ↔ ∀ v ∈ vs, v.ty ≠ .void :=
        storeElements_total hp
      rw [← htotal]
      have hinst : ∀ r, createDefineValueInst vs (some sz) false s = r ↔ _ = r := fun r => by
        unfold createDefineValueInst
        rw [bind_of_ok (getInsertBlock_ok.mpr ⟨hl, rfl⟩), bind_of_ok ha]
      constructor
      · rintro ⟨a, w, h⟩
        obtain ⟨_, hst, -⟩ := seq_ok.mp ((hinst _).mp h)
        exact ⟨_, hst⟩
      · rintro ⟨t, h⟩
        exact ⟨_, t, (hinst _).mpr (bind_of_ok h)⟩

omit [ConstantFolder] in
theorem mapM_isSome {α β : Type} {f : α → Option β} : ∀ {l : List α}, (∀ a ∈ l, ∃ b, f a = some b) →
    ∃ bs, l.mapM f = some bs
  | [], _ => ⟨[], rfl⟩
  | a :: l, h => by
    obtain ⟨b, hb⟩ := h a List.mem_cons_self
    obtain ⟨bs, hbs⟩ := mapM_isSome fun a ha => h a (List.mem_cons_of_mem _ ha)
    exact ⟨b :: bs, by simp [hb, hbs]⟩

/-- Outside all functions a new name is defined exactly if its values are integers and no function has the name. -/
theorem defineValue_global_iff (hn : s.namedValues = []) (hx : s.global? x = none)
    (hv : size = none → ∃ v, vs = [v]) (hz : ∀ sz, size = some sz → ∃ n, sz.sextValue? = some n) :
    (∃ t, L24.defineValue x ty vs size false s = .ok () t) ↔
      (∀ v ∈ vs, ∃ k, v.sextValue? = some k) ∧ s.function? x = none := by
  constructor
  · rintro ⟨t, h⟩
    rcases defineValue_ok h with ⟨-, w, h, -⟩ | ⟨_, _, _, _, h, -⟩
    · obtain ⟨-, hf, h⟩ := defineGlobalValue_ok.mp h
      refine ⟨?_, hf⟩
      rcases h with ⟨rfl, n, hk, -⟩ | ⟨sz, n, ns, rfl, -, hk, -⟩
      · obtain ⟨v, rfl⟩ := hv rfl
        intro v' hv'
        rw [List.mem_singleton.mp hv']
        exact ⟨n, by simpa using hk⟩
      · exact mapM_eq_some hk
    · rw [hn] at h
      cases h
  · rintro ⟨hk, hf⟩
    have hdef : ∃ w, defineGlobalValue x vs size s = .ok () w := by
      cases size with
      | none =>
        obtain ⟨v, rfl⟩ := hv rfl
        obtain ⟨n, hn⟩ := hk v List.mem_cons_self
        exact ⟨_, defineGlobalValue_ok.mpr ⟨hx, hf, Or.inl ⟨rfl, n, by simpa using hn, rfl⟩⟩⟩
      | some sz =>
        obtain ⟨n, hz⟩ := hz sz rfl
        obtain ⟨ns, hns⟩ := mapM_isSome hk
        exact ⟨_, defineGlobalValue_ok.mpr ⟨hx, hf, Or.inr ⟨sz, n, ns, rfl, hz, hns, rfl⟩⟩⟩
    obtain ⟨w, hw⟩ := hdef
    exact ⟨_, defineValue_global hn hw⟩

end Define

/-! ### Which definitions are settled -/

section
variable [ConstantFolder]

/-- The values of a new name can be defined: outside all functions they are integers, and no function has the name; in
    a function none of them is void. -/
def Def.ValuesFit (d : Def) (s : State) (fs : List Form) : Prop :=
  match s.namedValues with
  | [] => (∀ f ∈ fs, ∃ k, f.int? = some k) ∧ s.function? d.ident = none
  | _ :: _ => ∀ f ∈ fs, f.ty ≠ .void

/-- The size and the initial values of a definition are rejected, or the size folds to an integer and the values of a
    new name can be defined; for a global they fold to integers then. -/
def Def.Folds (d : Def) (s : State) : Prop :=
  match d.forms s with
  | .error stop => stop.isLogged = true
  | .ok (_, fs) => s.declared d.ident = false → d.ValuesFit s fs

/-- The size and the initial values of an array are rejected, or the size folds to an integer, which is positive if the
    name is new; and the values can be defined then. -/
def Def.SizeFits (d : Def) (s : State) : Prop :=
  match d.forms s with
  | .error stop => stop.isLogged = true
  | .ok (size, fs) => s.declared d.ident = false → (∀ n, size = some n → 0 < n.toInt) ∧ d.ValuesFit s fs

/-- Code generation rejects the definition of a global, or adds a variable of that name with an initialiser of
    integers. -/
def Def.InitSettled (d : Def) (s : State) : Prop := Logs d.gen s ∨ ∃ t g, d.gen s = .ok () t ∧
  t.globals = s.globals ++ [g] ∧ g.name = d.ident ∧
    ((∃ n, g.init = some (.int n)) ∨ ∃ ns, g.init = some (constantArray g.valueTy ns))

/-- From `s` to `t` an array of the constant size `n` is defined: a global variable with `n` initial values, or an
    alloca in the entry block with stores of `n` values into its elements. -/
structure ArrayDefined (d : Def) (e : ExprNode) (n : BitVec 64) (s t : State) : Prop where
  size : ∃ sz w, codeGenExp e s = .ok sz w ∧ sz.sextValue? = some n
  pos : 0 < n.toInt
  gen : d.gen s = .ok () t
  storage : (s.namedValues = [] ∧ ∃ g ns, t.globals = s.globals ++ [g] ∧ g.name = d.ident ∧
      g.valueTy = .array n.toInt.toNat .i64 ∧ g.init = some (.array ns) ∧ ns.length = n.toInt.toNat) ∨
    (s.namedValues ≠ [] ∧ ∃ a vs p entry r is sz, t.lookup d.ident = some (d.ty.named a) ∧
      a.ty = .array n.toInt.toNat .i64 ∧ t.insertPoint = some p ∧ t.entry? p.func = some entry ∧
      .alloca a.slot a.ty (some sz) ∈ t.blocks entry ∧ sz.sextValue? = some n ∧
      t.blocks p.block = is ++ elementStores a 0 r vs ∧ vs.length = n.toInt.toNat)

/-- An array is defined with its size and all its initial values, or rejected. -/
def Def.ArraySettled (d : Def) (e : ExprNode) (s : State) : Prop := Logs d.gen s ∨ ∃ n t, ArrayDefined d e n s t

end

section Settled
variable {func entry : Nat} {s t w : State} {d : Def} {e : ExprNode} {size : Option (BitVec 64)} {sz : Option Value}
  {vs : List Value} {fs : List Form} {n : BitVec 64} {stop : Stop} {node : EntryNode} {c : Ctx}

theorem SameScope.declared (h : SameScope s t) (x : String) : t.declared x = s.declared x := by
  rw [State.declared, h.namedValues, h.global?, State.declared]

theorem State.declared_global (hn : s.namedValues = []) (x : String) : s.declared x = false ↔ s.global? x = none := by
  rw [State.declared, hn]
  simp

variable [ConstantFolder]

theorem GenInit.sameScope (h : GenInit d.init d.exp s sz vs w) : SameScope s w := by
  obtain ⟨is, e⟩ := h.emits
  exact e.sameScope

/-- With a size the definition is one of an array. -/
theorem InitMade.array (h : InitMade d s size fs sz vs w) (hd : d.exp = some e) :
    ∃ v n, sz = some v ∧ size = some n ∧ v.sextValue? = some n ∧ (∃ u, codeGenExp e s = .ok v u) ∧
      vs.length = n.toInt.toNat := by
  have hi := h.init
  unfold GenInit at hi
  rw [hd] at hi
  obtain ⟨v, u, rfl, hv, -⟩ := hi
  have hs := h.sizes
  have hl := h.length
  cases size with
  | none => cases hs
  | some n => exact ⟨v, n, rfl, rfl, Option.some.inj hs, ⟨u, hv⟩, hl⟩

theorem InitMade.scalar (h : InitMade d s size fs sz vs w) (hsz : sz = none) : ∃ v, vs = [v] := by
  have hs := h.sizes
  have hl := h.length
  rw [hsz] at hs
  cases size with
  | none => exact List.length_eq_one_iff.mp hl
  | some n => cases hs

theorem InitMade.folded (h : InitMade d s size fs sz vs w) : ∀ v, sz = some v → ∃ n, v.sextValue? = some n := by
  rintro v rfl
  have hs := h.sizes
  cases size with
  | none => cases hs
  | some n => exact ⟨n, Option.some.inj hs⟩

theorem InitMade.logs_iff (h : InitMade d s size fs sz vs w) : Logs d.gen s ↔ s.declared d.ident = true := by
  have hg := h.init.gen
  rw [← h.init.sameScope.declared, ← defineValue_logs_iff]
  exact ⟨fun ⟨msg, hl⟩ => ⟨msg, .congr hg.symm hl⟩, fun ⟨msg, hl⟩ => ⟨msg, .congr hg hl⟩⟩

/-- A new name whose size and initial values have been generated is defined exactly if its values fit. -/
theorem InitMade.gen_iff (h : InitMade d s size fs sz vs w)
    (hp : s.namedValues = [] ∨ ∃ func entry, Inside func entry s)
    (hx : s.declared d.ident = false) : (∃ t, d.gen s = .ok () t) ↔ d.ValuesFit s fs := by
  have hw := h.init.sameScope
  have hxw := (hw.declared d.ident).trans hx
  rw [h.init.gen, ← h.forms]
  unfold Def.ValuesFit
  rcases hp with hn | ⟨func, entry, hin⟩
  · have hnw := hw.namedValues.trans hn
    rw [defineValue_global_iff hnw ((State.declared_global hnw _).mp hxw) h.scalar h.folded, hw.function?, hn]
    simp [Form.of_int?]
  · obtain ⟨is, em⟩ := h.init.emits
    have hinw := hin.emits em
    rw [defineValue_local_iff hinw.inFunc hinw.prologue hxw h.scalar h.folded]
    cases hn : s.namedValues with
    | nil => exact absurd hn hin.inFunc.layers
    | cons layer outer => simp [Form.of_ty]

omit [ConstantFolder] in
theorem mapM_length {α β : Type} {f : α → Option β} : ∀ {l : List α} {r : List β}, l.mapM f = some r →
    r.length = l.length
  | [], _, h => by
    cases h
    rfl
  | x :: l, r, h => by
    rw [List.mapM_cons] at h
    obtain ⟨b, -, h⟩ := Option.bind_eq_some_iff.mp h
    obtain ⟨bs, hbs, h⟩ := Option.bind_eq_some_iff.mp h
    cases h
    rw [List.length_cons, List.length_cons, mapM_length hbs]

omit [ConstantFolder] in
theorem toNat_toInt_of_pos (h : 0 < n.toInt) : n.toInt.toNat = n.toNat := by
  rw [BitVec.toInt_eq_toNat_of_lt (BitVec.toInt_pos_iff.mp (Int.le_of_lt h)), Int.toNat_natCast]

/-- Outside all functions a defined array is a global variable of its size, with that many initial values. -/
theorem GenInit.global_array {sz : Value} (h : GenInit d.init d.exp s (some sz) vs w) (hn : s.namedValues = [])
    (hsz : ∃ u, codeGenExp e s = .ok sz u) (hz : sz.sextValue? = some n) (hpos : 0 < n.toInt)
    (hlen : vs.length = n.toInt.toNat) (hg : d.gen s = .ok () t) : ArrayDefined d e n s t := by
  obtain ⟨u, hu⟩ := hsz
  refine ⟨⟨sz, u, hu, hz⟩, hpos, hg, Or.inl ⟨hn, ?_⟩⟩
  rw [h.gen] at hg
  rcases defineValue_ok hg with ⟨-, w', hw', rfl⟩ | ⟨_, _, _, _, hne, -⟩
  · rcases defineGlobalValue_ok.mp hw' with ⟨-, -, ⟨hs, -⟩ | ⟨sz', n', ns, hs, hz', hns, rfl⟩⟩
    · cases hs
    · cases hs
      rw [hz] at hz'
      cases hz'
      have hgs : w.globals = s.globals := h.sameScope.globals
      have hty : (.array n.toNat .i64 : Ty) = .array n.toInt.toNat .i64 := by rw [toNat_toInt_of_pos hpos]
      have hns := (mapM_length hns).trans hlen
      have hne : ns ≠ [] := List.ne_nil_of_length_pos (by omega)
      exact ⟨_, ns, congrArg (· ++ _) hgs, rfl, hty, congrArg some (constantArray_of_ne_nil hne), hns⟩
  · rw [h.sameScope.namedValues, hn] at hne
    cases hne

/-- An array gets an alloca, and stores into its elements. -/
theorem createDefineValueInst_stores {sz : Value} {a : AllocaInst} (hz : sz.sextValue? = some n)
    (h : createDefineValueInst vs (some sz) false s = .ok a t) : ∃ p entry u, s.insertPoint = some p ∧
      s.entry? p.func = some entry ∧ a = ⟨s.nextSlot, .array n.toNat .i64⟩ ∧
      u = s.emitAlloca entry (.array n.toNat .i64) (some sz) ∧
      t = u.appendRegs (elementStores a 0 u.nextReg vs) vs.length := by
  obtain ⟨p, w, hp, halloca, ⟨hne, -⟩ | ⟨-, rfl⟩⟩ := createDefineValueInst_ok h
  · cases hne
  · obtain ⟨entry, hentry, ⟨hne, -⟩ | ⟨sz', n', hsz, hz', rfl, rfl⟩⟩ := createEntryBlockAlloca_ok.mp halloca
    · cases hne
    · cases hsz
      rw [hz] at hz'
      cases hz'
      exact ⟨p, entry, _, hp, hentry, rfl, rfl, rfl⟩

/-- The alloca is in the entry block, and the stores are at the end of the insertion block. -/
theorem createDefineValueInst_array {sz : Value} {a : AllocaInst} (hz : sz.sextValue? = some n)
    (h : createDefineValueInst vs (some sz) false s = .ok a t) : ∃ p entry is r, a.ty = .array n.toNat .i64 ∧
      t.insertPoint = some p ∧ t.entry? p.func = some entry ∧ .alloca a.slot a.ty (some sz) ∈ t.blocks entry ∧
      t.blocks p.block = is ++ elementStores a 0 r vs ∧ t.namedValues = s.namedValues := by
  obtain ⟨p, entry, u, hp, hentry, rfl, hu', rfl⟩ := createDefineValueInst_stores hz h
  have hu : u.insertPoint = some p := by rw [hu', State.emitAlloca, hp]
  have hf : u.functions = s.functions ∧ u.namedValues = s.namedValues := by rw [hu']; exact ⟨rfl, rfl⟩
  have hmem : Inst.alloca s.nextSlot (.array n.toNat .i64) (some sz) ∈ u.blocks entry := by
    simp [hu', State.emitAlloca]
  let js := elementStores ⟨s.nextSlot, .array n.toNat .i64⟩ 0 u.nextReg vs
  have e : Emits u js (u.appendRegs js vs.length) := .appendRegs elementStores_plain vs.length
  refine ⟨p, entry, u.blocks p.block, u.nextReg, rfl, e.insertPoint.trans hu, ?_, ?_, ?_, e.namedValues.trans hf.2⟩
  · rw [ State.entry?, e.functions, hf.1]
    exact hentry
  · by_cases hb : entry = p.block
    · rw [e.blocks, State.append_blocks u hu, hb, Function.update_self, ← hb]
      exact List.mem_append_left _ hmem
    · rw [e.blocks, append_blocks_of_ne hu hb]
      exact hmem
  · rw [e.blocks, State.append_blocks u hu, Function.update_self]

/-- In a function an array is defined as an alloca of its size, with stores of that many values. -/
theorem GenInit.local_array {sz : Value} (h : GenInit d.init d.exp s (some sz) vs w) (hf : s.namedValues ≠ [])
    (hsz : ∃ u, codeGenExp e s = .ok sz u) (hz : sz.sextValue? = some n) (hpos : 0 < n.toInt)
    (hlen : vs.length = n.toInt.toNat) (hg : d.gen s = .ok () t) : ArrayDefined d e n s t := by
  obtain ⟨u, hu⟩ := hsz
  refine ⟨⟨sz, u, hu, hz⟩, hpos, hg, Or.inr ⟨hf, ?_⟩⟩
  rw [h.gen] at hg
  rcases defineValue_ok hg with ⟨hne, -⟩ | ⟨layer, outer, a, w₁, hl, -, ha, rfl⟩
  · exact absurd (h.sameScope.namedValues.symm.trans hne) hf
  · obtain ⟨p, entry, is, r, hty, hp, hentry, hmem, hb, hn⟩ := createDefineValueInst_array hz ha
    rw [← toNat_toInt_of_pos hpos] at hty
    refine ⟨a, vs, p, entry, r, is, sz, ?_, hty, hp, hentry, hmem, hz, hb, hlen⟩
    have hn : w₁.namedValues = layer :: outer := hn.trans hl
    simp [State.lookup, State.bind, State.log, hn]

/-! ### The variables of a program -/

omit [ConstantFolder] in
theorem except_bind_ok {ε α β : Type} {m : Except ε α} {k : α → Except ε β} {b : β} :
    (m >>= k) = .ok b ↔ ∃ a, m = .ok a ∧ k a = .ok b := by
  cases m with
  | ok a =>
    constructor
    · exact fun h => ⟨a, rfl, h⟩
    · rintro ⟨_, ha, h⟩
      cases ha
      exact h
  | error e =>
    constructor
    · exact fun h => nomatch h
    · rintro ⟨_, ha, -⟩
      cases ha

omit [ConstantFolder] in
theorem valueForm_outside (hn : s.namedValues = []) (x : String) :
    State.valueForm { globals := s.globals } x false = s.valueForm x false := by
  have hl : s.lookup x = none := by rw [State.lookup, hn, List.findSome?_nil]
  have hl₀ : State.lookup { globals := s.globals } x = none := rfl
  have hg₀ : State.global? { globals := s.globals } x = s.global? x := rfl
  have hn₀ : State.namedValues { globals := s.globals } = [] := rfl
  rw [State.valueForm, State.valueForm, hl, hl₀, hg₀, hn, hn₀]
  rfl

/-- Outside all functions an expression that folds does so for the values of the global variables alone. -/
theorem Exp.form_outside (hn : s.namedValues = []) : ∀ (e : Exp) {k : Const}, e.form s = .ok (.const k) →
    e.form { globals := s.globals } = .ok (.const k)
  | .number n, k, h => h
  | .name x, k, h => by
    rw [Exp.form] at h ⊢
    rw [valueForm_outside hn]
    exact h
  | .index x e, k, h => by
    rw [Exp.form] at h
    obtain ⟨_, -, h⟩ := except_bind_ok.mp h
    exact absurd h valueForm_element
  | .call f args, k, h => by
    rw [Exp.form] at h
    cases hf : s.function? f with
    | none =>
      rw [hf] at h
      cases h
    | some func =>
      simp only [hf] at h
      split at h
      · cases h
      · obtain ⟨_, -, h⟩ := except_bind_ok.mp h
        cases h
  | .unary op e, k, h => by
    rw [Exp.form] at h ⊢
    obtain ⟨a, ha, h⟩ := except_bind_ok.mp h
    obtain ⟨d, rfl⟩ : ∃ d, a = .const d := by
      cases op with
      | plus => exact ⟨k, Except.ok.inj h⟩
      | minus => exact neg_const h
      | not => exact (iCmp_const (intCast_const (Except.ok.inj h)).choose_spec).2
    exact except_bind_ok.mpr ⟨_, Exp.form_outside hn e ha, h⟩
  | .arith op a b, k, h => by
    rw [Exp.form] at h ⊢
    obtain ⟨f, hf, h⟩ := except_bind_ok.mp h
    obtain ⟨g, hg, h⟩ := except_bind_ok.mp h
    obtain ⟨⟨c, rfl⟩, ⟨d, rfl⟩⟩ := binOp_const (Except.ok.inj h)
    exact except_bind_ok.mpr ⟨_, Exp.form_outside hn a hf, except_bind_ok.mpr ⟨_, Exp.form_outside hn b hg, h⟩⟩
  | .cmp p a b, k, h => by
    rw [Exp.form] at h ⊢
    obtain ⟨f, hf, h⟩ := except_bind_ok.mp h
    obtain ⟨g, hg, h⟩ := except_bind_ok.mp h
    obtain ⟨⟨c, rfl⟩, ⟨d, rfl⟩⟩ := iCmp_const (intCast_const (Except.ok.inj h)).choose_spec
    exact except_bind_ok.mpr ⟨_, Exp.form_outside hn a hf, except_bind_ok.mpr ⟨_, Exp.form_outside hn b hg, h⟩⟩
  | .land a b, k, h => by
    rw [Exp.form] at h ⊢
    obtain ⟨f, hf, h⟩ := except_bind_ok.mp h
    obtain ⟨g, hg, h⟩ := except_bind_ok.mp h
    obtain ⟨hl, hr, -⟩ := select_const (intCast_const (Except.ok.inj h)).choose_spec
    obtain ⟨-, c, rfl⟩ := iCmp_const hl.choose_spec
    obtain ⟨-, d, rfl⟩ := iCmp_const hr.choose_spec
    exact except_bind_ok.mpr ⟨_, Exp.form_outside hn a hf, except_bind_ok.mpr ⟨_, Exp.form_outside hn b hg, h⟩⟩
  | .lor a b, k, h => by
    rw [Exp.form] at h ⊢
    obtain ⟨f, hf, h⟩ := except_bind_ok.mp h
    obtain ⟨g, hg, h⟩ := except_bind_ok.mp h
    obtain ⟨hl, -, hr⟩ := select_const (intCast_const (Except.ok.inj h)).choose_spec
    obtain ⟨-, c, rfl⟩ := iCmp_const hl.choose_spec
    obtain ⟨-, d, rfl⟩ := iCmp_const hr.choose_spec
    exact except_bind_ok.mpr ⟨_, Exp.form_outside hn a hf, except_bind_ok.mpr ⟨_, Exp.form_outside hn b hg, h⟩⟩

omit [ConstantFolder] in
theorem Form.int?_const {f : Form} {k : BitVec 64} (h : f.int? = some k) : ∃ c, f = .const c := by
  cases f with
  | const c => exact ⟨c, rfl⟩
  | inst ty => cases h

theorem initForms_outside (hn : s.namedValues = []) {init : Option InitValNode} : ∀ {n idx : Nat} {fs : List Form},
    initForms s init idx n = .ok fs → (∀ f ∈ fs, ∃ k, f.int? = some k) →
    initForms { globals := s.globals } init idx n = .ok fs
  | 0, idx, fs, h, _ => h
  | n + 1, idx, fs, h, hfs => by
    rw [initForms] at h ⊢
    obtain ⟨f, hf, h⟩ := except_bind_ok.mp h
    obtain ⟨gs, hgs, h⟩ := except_bind_ok.mp h
    obtain rfl := Except.ok.inj h
    obtain ⟨⟨k, hk⟩, hrest⟩ := List.forall_mem_cons.mp hfs
    obtain ⟨c, rfl⟩ := Form.int?_const hk
    have hinit : initForm { globals := s.globals } init idx = .ok (.const c) := by
      unfold initForm at hf ⊢
      split at hf
      · exact hf
      · split at hf
        · exact Exp.form_outside hn _ hf
        · exact hf
        · exact hf
    exact except_bind_ok.mpr ⟨_, hinit, except_bind_ok.mpr ⟨_, initForms_outside hn hgs hrest, rfl⟩⟩

theorem Def.forms_outside (hn : s.namedValues = []) (h : d.forms s = .ok (size, fs))
    (hfs : ∀ f ∈ fs, ∃ k, f.int? = some k) : d.forms { globals := s.globals } = .ok (size, fs) := by
  unfold Def.forms at h ⊢
  cases hd : d.exp with
  | none =>
    simp only [hd] at h ⊢
    obtain ⟨gs, hgs, h⟩ := except_bind_ok.mp h
    cases h
    exact except_bind_ok.mpr ⟨_, initForms_outside hn hgs hfs, rfl⟩
  | some e =>
    simp only [hd] at h ⊢
    obtain ⟨f, hf, h⟩ := except_bind_ok.mp h
    unfold Def.arrayForms at h
    cases hi : f.int? with
    | none =>
      rw [hi] at h
      cases h
    | some n =>
      obtain ⟨c, rfl⟩ := Form.int?_const hi
      refine except_bind_ok.mpr ⟨_, Exp.form_outside hn _ hf, ?_⟩
      unfold Def.arrayForms
      simp only [hi] at h ⊢
      split at h
      · cases h
      · rename_i hne
        rw [if_neg hne]
        obtain ⟨gs, hgs, h⟩ := except_bind_ok.mp h
        cases h
        exact except_bind_ok.mpr ⟨_, initForms_outside hn hgs hfs, rfl⟩

omit [ConstantFolder] in
theorem mapM_int? (vs : List Value) : (vs.map Form.of).mapM Form.int? = vs.mapM (·.sextValue?) := by
  induction vs with
  | nil => rfl
  | cons v vs ih => rw [List.map_cons, List.mapM_cons, List.mapM_cons, ih, Form.of_int?]

/-- An accepted definition outside all functions makes the variable that is read off it. -/
theorem Def.gen_globalVariable (hn : s.namedValues = []) (h : d.gen s = .ok () t) :
    t.globals = s.globals ++ [d.globalVariable s.globals] := by
  have hm := Def.forms_made d s
  cases hf : d.forms s with
  | error stop =>
    rw [hf] at hm
    exact absurd h hm.not_ok
  | ok p =>
    obtain ⟨size, fs⟩ := p
    rw [hf] at hm
    obtain ⟨sz, vs, w, hi⟩ := hm
    have hx : s.declared d.ident = false := by
      have hnot : ¬ Logs d.gen s := by
        rintro ⟨msg, u, hl⟩
        rw [h] at hl
        cases hl
      rw [hi.logs_iff] at hnot
      simpa using hnot
    have hfit := (hi.gen_iff (Or.inl hn) hx).mp ⟨t, h⟩
    unfold Def.ValuesFit at hfit
    rw [hn] at hfit
    have hfs := Def.forms_outside hn hf hfit.1
    have hgs := hi.init.sameScope.globals
    have hforms := hi.forms
    have hsz := hi.sizes
    rw [hi.init.gen] at h
    unfold Def.globalVariable
    rw [hfs, ← hforms]
    rcases defineValue_ok h with ⟨-, w', h', rfl⟩ | ⟨_, _, _, _, h', -⟩
    · obtain ⟨-, -, ⟨rfl, n, hk, rfl⟩ | ⟨sz', n, ns, rfl, hz, hk, rfl⟩⟩ := defineGlobalValue_ok.mp h'
      · cases size with
        | some n => cases hsz
        | none =>
          have hhead : (vs.map Form.of).head?.bind Form.int? = some n := by
            rw [List.head?_map, Option.bind_map, ← hk]
            exact congrArg _ (funext fun v => Form.of_int? v)
          simp only [hhead, Option.map_some]
          exact congrArg (· ++ _) hgs
      · cases size with
        | none => cases hsz
        | some m =>
          have hm : some n = some m := hz.symm.trans (Option.some.inj hsz)
          cases hm
          simp only [mapM_int?, hk, Option.map_some]
          exact congrArg (· ++ _) hgs
    · rw [hi.init.sameScope.namedValues, hn] at h'
      cases h'

/-! ### Which definitions of a program are settled -/

theorem Def.gen_ok_global (hn : s.namedValues = []) (h : d.gen s = .ok () t) : d.InitSettled s := by
  obtain ⟨g, tr, size, vs, w, rfl, hg, hs, -⟩ := Def.gen_global hn h
  refine Or.inr ⟨_, g, h, rfl, hg, ?_⟩
  rcases hs with ⟨-, -, n, -, hi⟩ | ⟨sz, n, ns, -, -, -, -, hi⟩
  · exact Or.inl ⟨n, hi⟩
  · exact Or.inr ⟨ns, hi⟩

/-- The definition of a global is settled exactly if its size and values fold. -/
theorem Def.initSettled_iff (hn : s.namedValues = []) : d.InitSettled s ↔ d.Folds s := by
  have h := Def.forms_made d s
  unfold Def.Folds
  cases hf : d.forms s with
  | error stop =>
    rw [hf] at h
    refine ⟨fun hi => ?_, fun hl => Or.inl (h.logs_iff.mpr hl)⟩
    rcases hi with hi | ⟨t, g, hi, -⟩
    · exact h.logs_iff.mp hi
    · exact absurd hi h.not_ok
  | ok p =>
    obtain ⟨size, fs⟩ := p
    rw [hf] at h
    obtain ⟨sz, vs, w, hi⟩ := h
    cases hx : s.declared d.ident with
    | true => exact ⟨fun _ hne => (nomatch hne), fun _ => Or.inl (hi.logs_iff.mpr hx)⟩
    | false =>
      simp only [forall_const]
      rw [← hi.gen_iff (Or.inl hn) hx]
      constructor
      · rintro (hl | ⟨t, g, hg, -⟩)
        · rw [hi.logs_iff, hx] at hl
          cases hl
        · exact ⟨t, hg⟩
      · rintro ⟨t, hg⟩
        exact Def.gen_ok_global hn hg

theorem ArrayDefined.size_eq {n' : BitVec 64} {v : Value} (h : ArrayDefined d e n' s t)
    (hsz : ∃ u, codeGenExp e s = .ok v u) (hz : v.sextValue? = some n) : n' = n := by
  obtain ⟨v', w', hsz', hz'⟩ := h.size
  obtain ⟨u, hu⟩ := hsz
  rw [hu] at hsz'
  cases hsz'
  rw [hz] at hz'
  cases hz'
  rfl

/-- What is left of an array of a new name when its size and initial values have been generated. -/
theorem InitMade.array_iff (h : InitMade d s (some n) fs sz vs w) (hd : d.exp = some e)
    (hp : s.namedValues = [] ∨ ∃ func entry, Inside func entry s) (hx : s.declared d.ident = false) :
    d.ArraySettled e s ↔ 0 < n.toInt ∧ d.ValuesFit s fs := by
  obtain ⟨v, n', rfl, hn, hz, hsz, hlen⟩ := h.array hd
  cases hn
  rw [← h.gen_iff hp hx]
  constructor
  · rintro (hl | ⟨n', t, ha⟩)
    · rw [h.logs_iff, hx] at hl
      cases hl
    · have hn := ha.size_eq hsz hz
      subst hn
      exact ⟨ha.pos, t, ha.gen⟩
  · rintro ⟨hpos, t, ht⟩
    rcases hp with hn | ⟨func, entry, hin⟩
    · exact Or.inr ⟨n, t, h.init.global_array hn hsz hz hpos hlen ht⟩
    · exact Or.inr ⟨n, t, h.init.local_array hin.inFunc.layers hsz hz hpos hlen ht⟩

/-- The definition of an array is settled exactly if its size and its values fit. -/
theorem Def.arraySettled_iff (hp : s.namedValues = [] ∨ ∃ func entry, Inside func entry s) (hd : d.exp = some e) :
    d.ArraySettled e s ↔ d.SizeFits s := by
  have h := Def.forms_made d s
  unfold Def.SizeFits
  cases hf : d.forms s with
  | error stop =>
    rw [hf] at h
    refine ⟨fun ha => ?_, fun hl => Or.inl (h.logs_iff.mpr hl)⟩
    rcases ha with ha | ⟨n, t, ha⟩
    · exact h.logs_iff.mp ha
    · exact absurd ha.gen h.not_ok
  | ok p =>
    obtain ⟨size, fs⟩ := p
    rw [hf] at h
    obtain ⟨sz, vs, w, hi⟩ := h
    obtain ⟨-, n, -, rfl, -⟩ := hi.array hd
    simp only [Option.some.injEq, forall_eq']
    cases hx : s.declared d.ident with
    | true => exact ⟨fun _ hne => (nomatch hne), fun _ => Or.inl (hi.logs_iff.mpr hx)⟩
    | false => exact (hi.array_iff hd hp hx).trans ⟨fun h _ => h, fun h => h rfl⟩

end Settled

/-! ### The initialisers of a program -/

section Program
variable {s : State} {d : Def} {c : Ctx} {node : EntryNode}
variable [ConstantFolder]

theorem Visited.outside {C : GenCall} (h : Visited node ⟨C, c, s⟩) (hc : c.locals = []) : s.namedValues = [] := by
  have hl := (Visited.valid h).matched.locals
  rwa [hc] at hl

theorem Visited.placed {C : GenCall} (h : Visited node ⟨C, c, s⟩) :
    s.namedValues = [] ∨ ∃ func entry, Inside func entry s := by
  by_cases hc : c.locals = []
  · exact Or.inl (h.outside hc)
  · exact Or.inr ((Visited.valid h).inside hc)

/-- The definition of a global ends with an error or with an initialiser of integers, exactly if its size and its
    initial values are rejected or fold to integers. -/
theorem initSettled_iff_folds (hv : Visited node ⟨.define d, c, s⟩) (hc : c.locals = []) :
    d.InitSettled s ↔ d.Folds s := Def.initSettled_iff (hv.outside hc)

end Program

section
attribute [local instance] ConstantFolder.symbolic

/-- `int x = 6 / 2;` -/
def foldedInit : Def := ⟨.var, "x", some (.exp (.mk (.land (.eq (.rel (.add (.mul (.mul .slash
  (.unary (.primary (.number ⟨6⟩))) (.primary (.number ⟨2⟩)))))))))), none⟩

/-- The program of `foldedInit` alone. -/
def foldedInitEntry : EntryNode := ⟨.decl (.varDecl ⟨.int, [⟨"x", foldedInit.init, none⟩]⟩)⟩

theorem foldedInit_visited : Visited foldedInitEntry ⟨.define foldedInit, {}, State.library⟩ := by
  have h : Visited foldedInitEntry ⟨.items [foldedInit] [], {}, State.library⟩ := .tail .refl .decl
  exact h.tail .globalDef

theorem foldedInit_settled : foldedInit.InitSettled State.library := by
  refine (initSettled_iff_folds foldedInit_visited rfl).mpr ?_
  have hf : foldedInit.forms State.library = .ok (none, [.const (.int 3)]) := by decide +kernel
  unfold Def.Folds
  rw [hf]
  have hx : State.library.function? "x" = none := by decide +kernel
  exact fun _ => ⟨by simp [Form.int?, Value.sextValue?], hx⟩

/-- `int x = getint();` -/
def calledInit : Def := ⟨.var, "x", some (.exp (UnaryExprNode.call "getint" []).toExpr), none⟩

/-- The program of `calledInit` alone. -/
def calledInitEntry : EntryNode := ⟨.decl (.varDecl ⟨.int, [⟨"x", calledInit.init, none⟩]⟩)⟩

theorem calledInit_visited : Visited calledInitEntry ⟨.define calledInit, {}, State.library⟩ := by
  have h : Visited calledInitEntry ⟨.items [calledInit] [], {}, State.library⟩ := .tail .refl .decl
  exact h.tail .globalDef

/-- The result of a call is no constant: the null result of its cast is dereferenced. -/
theorem calledInit_crashes : ¬ ∀ (node : EntryNode) d c s, Visited node ⟨.define d, c, s⟩ → c.locals = [] →
    d.InitSettled s := by
  intro h
  have hs := h _ _ _ _ calledInit_visited rfl
  have hfolds := (Def.initSettled_iff (calledInit_visited.outside rfl)).mp hs
  have hf : calledInit.forms State.library = .ok (none, [.inst .i64]) := by decide +kernel
  unfold Def.Folds at hfolds
  rw [hf] at hfolds
  obtain ⟨hk, -⟩ := hfolds (by decide +kernel)
  obtain ⟨k, hk⟩ := hk _ List.mem_cons_self
  cases hk

end

/-! ### The array sizes of a program -/

/-- The definition of an array ends with an error, or defines as many elements as its constant positive size says,
    exactly if its size and its values fit. -/
theorem arraySettled_iff_sizeFits [ConstantFolder] {s : State} {d : Def} {c : Ctx} {node : EntryNode} {e : ExprNode}
    (hv : Visited node ⟨.define d, c, s⟩) (hd : d.exp = some e) : d.ArraySettled e s ↔ d.SizeFits s :=
  Def.arraySettled_iff hv.placed hd

section
attribute [local instance] ConstantFolder.symbolic

/-- The array `a` of the size `size`, without initial values. -/
def sizedArray (size : ExprNode) : Def := ⟨.var, "a", none, some size⟩

/-- The program of an array of that size. -/
def sizedArrayEntry (size : ExprNode) : EntryNode := ⟨.decl (.varDecl ⟨.int, [⟨"a", none, some size⟩]⟩)⟩

theorem sizedArray_visited (size : ExprNode) :
    Visited (sizedArrayEntry size) ⟨.define (sizedArray size), {}, State.library⟩ := by
  have h : Visited (sizedArrayEntry size) ⟨.items [sizedArray size] [], {}, State.library⟩ := .tail .refl .decl
  exact h.tail .globalDef

/-- `int a[3];` -/
theorem threeElements_settled :
    (sizedArray (NumberNode.toExpr ⟨3⟩)).ArraySettled (NumberNode.toExpr ⟨3⟩) State.library := by
  refine (arraySettled_iff_sizeFits (sizedArray_visited _) rfl).mpr ?_
  have hf : (sizedArray (NumberNode.toExpr ⟨3⟩)).forms State.library =
      .ok (some 3, [.const (.int 0), .const (.int 0), .const (.int 0)]) := by decide +kernel
  unfold Def.SizeFits
  rw [hf]
  have hx : State.library.function? "a" = none := by decide +kernel
  refine fun _ => ⟨fun n hn => ?_, ⟨by simp [Form.int?, Value.sextValue?], hx⟩⟩
  cases hn
  decide

/-- `-1` -/
def minusOne : ExprNode := (UnaryExprNode.unary .minus (.primary (.number ⟨1⟩))).toExpr

/-- `int a[-1];` is accepted: its negative size is the number of elements of the storage. -/
theorem negativeSize_defined : ¬ ∀ (node : EntryNode) d e c s, Visited node ⟨.define d, c, s⟩ → d.exp = some e →
    d.ArraySettled e s := by
  intro h
  have hs := h _ _ _ _ _ (sizedArray_visited minusOne) rfl
  have hfits := (Def.arraySettled_iff (sizedArray_visited minusOne).placed rfl).mp hs
  have hf : (sizedArray minusOne).forms State.library = .ok (some (-1), []) := by decide +kernel
  unfold Def.SizeFits at hfits
  rw [hf] at hfits
  obtain ⟨hpos, -⟩ := hfits (by decide +kernel)
  exact absurd (hpos _ rfl) (by decide)

end

end L24
