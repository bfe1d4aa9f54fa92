import L24.Ir.Typing
import L24.Simulation.Logical
import L24.Theorems.Dominance
import L24.Theorems.Operands

/-! Well-typed programs: where the analysis of the kinds finds nothing wrong in the functions of a program, the module
    that is generated from it is well-typed. Other than for the operands, a `void` function may be called, as a
    statement. -/

namespace L24
open Ir Relation

/-! ### The static analysis -/

/-- A global array, as a variable of a type that nothing takes. -/
def wholeGlobal (g : GlobalVariable) : GlobalVariable :=
  if kindOf g.valueTy = .array then { g with valueTy := .i1 } else g

/-- The kinds, where the result of a `void` function has one that nothing takes, so that it can be called as a
    statement only, and so has a global array, so that it has no elements. -/
def Kinds.lenient (k : Kinds) : Kinds :=
  { k with
    functions := k.functions.map fun f => (f.1, if f.2.1 = .void then .bool else f.2.1, f.2.2)
    globals := k.globals.map wholeGlobal }

variable [ConstantFolder]

/-- The typed check of a function, in which no global array has elements. -/
def FuncNode.typed (node : FuncNode) (k : Kinds) : Bool := itemsKindsFit node.block (k.inFunc node).push.lenient

def TopItem.typed : TopItem → Kinds → Bool
  | .decl _, _ => true
  | .func node, k => node.typed k

/-- Each function, with what stands in front of it. -/
def topItemsTyped : List TopItem → Kinds → Bool
  | [], _ => true
  | item :: items, k => item.typed k && topItemsTyped items (item.declared k)

/-- The functions of the program use integers as integers, and arrays as arrays. -/
def EntryNode.typed (node : EntryNode) : Bool := topItemsTyped node.prog.items libraryKinds

section Lenient
variable {k : Kinds} {κ : Kind}

omit [ConstantFolder] in
theorem lenient_function? (f : String) : k.lenient.functions.lookup f =
    (k.functions.lookup f).map fun g => (if g.1 = .void then .bool else g.1, g.2) :=
  lookup_map_snd (fun g : Kind × List Kind => (if g.1 = .void then Kind.bool else g.1, g.2)) f k.functions

omit [ConstantFolder] in
theorem lenient_define (ds : List Def) : (k.define ds).lenient = k.lenient.define ds := by
  unfold Kinds.define
  induction ds generalizing k with
  | nil => rfl
  | cons d ds ih => exact ih

omit [ConstantFolder] in
theorem lenient_declared (item : BlockItemNode) : (item.declared k).lenient = item.declared k.lenient := by
  cases item with
  | decl d => exact lenient_define d.defs
  | stmt st => rfl

omit [ConstantFolder] in
theorem whole_name (g : GlobalVariable) : (wholeGlobal g).name = g.name := by
  unfold wholeGlobal
  split <;> rfl

omit [ConstantFolder] in
theorem whole_ty (g : GlobalVariable) :
    (wholeGlobal g).valueTy = .i1 ∨ wholeGlobal g = g ∧ kindOf g.valueTy ≠ .array := by
  unfold wholeGlobal
  split
  · exact Or.inl rfl
  · rename_i h
    exact Or.inr ⟨rfl, h⟩

omit [ConstantFolder] in
theorem lenient_global? (x : String) : k.lenient.global? x = (k.global? x).map wholeGlobal := by
  have hname : (fun g : GlobalVariable => g.name == x) ∘ wholeGlobal = fun g => g.name == x := by
    funext g
    rw [Function.comp_apply, whole_name]
  rw [Kinds.global?, Kinds.lenient, List.find?_map, hname, Kinds.global?]

omit [ConstantFolder] in
theorem read_of_lenient {x : String} {sub : Bool} (hκ : κ ≠ .bool) (h : k.lenient.read x sub = some κ) :
    k.read x sub = some κ := by
  have hlocal : k.lenient.local? x = k.local? x := rfl
  unfold Kinds.read at h ⊢
  rw [hlocal, lenient_global?] at h
  cases hx : k.local? x with
  | some kind =>
    rw [hx] at h
    cases kind <;> exact h
  | none =>
    rw [hx] at h
    obtain ⟨g', hg', hkind⟩ := Option.map_eq_some_iff.mp h
    obtain ⟨g, hg, rfl⟩ := Option.map_eq_some_iff.mp hg'
    rcases whole_ty g with hty | ⟨hty, -⟩
    · rw [hty] at hkind
      exact absurd hkind.symm hκ
    · rw [hty] at hkind
      simp [hg, hkind]

omit [ConstantFolder] in
/-- Kinds that operations take are the ones that expressions have. -/
theorem kind_of_lenient (hκ : κ ≠ .bool) : ∀ e : Exp, e.kind k.lenient = some κ → e.kind k = some κ
  | .number _, h | .cmp _ _ _, h | .land _ _, h | .lor _ _, h | .unary .not _, h => h
  | .name _, h | .index _ _, h => read_of_lenient hκ h
  | .unary .plus e, h | .unary .minus e, h => kind_of_lenient hκ e h
  | .arith _ a _, h => kind_of_lenient hκ a h
  | .call f _, h => by
    rw [Exp.kind, lenient_function?, Option.map_map] at h
    obtain ⟨g, hg, h⟩ := Option.map_eq_some_iff.mp h
    rw [Exp.kind, hg, Option.map_some]
    simp only [Function.comp_apply] at h
    split at h
    · exact absurd h.symm hκ
    · rw [h]

/-- Only local arrays and array parameters have elements then. -/
theorem elementFits_of_lenient {x : String} {e : Exp} {ty? : Option Ty} (h : k.lenient.elementFits x e ty? = true) :
    k.local? x = some .array ∨ k.local? x = some .pointer := by
  have hlocal : k.lenient.local? x = k.local? x := rfl
  unfold Kinds.elementFits at h
  rw [hlocal, lenient_global?] at h
  cases hx : k.local? x with
  | some kind =>
    rw [hx] at h
    simpa using h
  | none =>
    rw [hx] at h
    cases hg : k.global? x with
    | none =>
      rw [hg] at h
      cases h
    | some g =>
      have hnot : (kindOf (wholeGlobal g).valueTy == .array) = false := by
        rcases whole_ty g with hty | ⟨hty, hne⟩
        · rw [hty]
          rfl
        · rw [hty]
          exact beq_eq_false_iff_ne.mpr hne
      simp [hg, hnot] at h

omit [ConstantFolder] in
/-- And only integer variables are assigned as a whole. -/
theorem scalar_of_lenient {x : String} (h : k.lenient.scalar x = true) : k.scalar x = true := by
  have hlocal : k.lenient.local? x = k.local? x := rfl
  unfold Kinds.scalar at h ⊢
  rw [hlocal, lenient_global?] at h
  cases hx : k.local? x with
  | some kind =>
    rw [hx] at h
    exact h
  | none =>
    rw [hx] at h
    obtain ⟨g', hg', hty⟩ := (Option.any_eq_true ..).mp h
    obtain ⟨g, hg, rfl⟩ := Option.map_eq_some_iff.mp hg'
    rcases whole_ty g with hi1 | ⟨hself, -⟩
    · rw [hi1] at hty
      cases hty
    · rw [hself] at hty
      simp [hg, hty]

end Lenient

/-! ### Code -/

/-- From `s` to `t` well-typed instructions are inserted, and `q` holds behind them, if `p` does before and the tables
    know what is inserted. -/
def Typing (T : Tables) (p : Prop) (s t : State) (q : Prop) : Prop :=
  ∃ is, Emits s is t ∧ (p → (∀ i ∈ is, T.Knows i) → (∀ i ∈ is, i.Typed T) ∧ q)

/-- The tables know the variables in scope, the functions and the global variables. -/
structure Scoped (T : Tables) (s : State) : Prop where
  layers : s.namedValues ≠ []
  named : ∀ layer ∈ s.namedValues, ∀ b ∈ layer, T.slot b.2.alloca.slot b.2.alloca.ty ∧
    ((b.2.alloca.ty = .i64 ∨ b.2.alloca.ty = .ptr) ∨ ∃ n, b.2.alloca.ty = .array n .i64)
  callees : ∀ f ∈ s.functions, T.callee f.name f.retTy f.params ∧ (f.retTy = .i64 ∨ f.retTy = .void) ∧
    ∀ ty ∈ f.params, ty = .i64 ∨ ty = .ptr
  globals : ∀ g ∈ s.globals, g.valueTy = .i64 ∨ ∃ n elt, g.valueTy = .array n elt

section Typing
variable {T : Tables} {s t u : State} {p p' q q' r : Prop} {v x y c : Value} {is : List Inst}

omit [ConstantFolder] in
theorem Typing.refl (h : p → q) : Typing T p s s q := ⟨[], .refl s, fun hp _ => ⟨by simp, h hp⟩⟩

omit [ConstantFolder] in
theorem Typing.trans (h₁ : Typing T p s t q) (h₂ : Typing T q t u r) : Typing T p s u r := by
  obtain ⟨is, e₁, h₁⟩ := h₁
  obtain ⟨js, e₂, h₂⟩ := h₂
  refine ⟨is ++ js, e₁.trans e₂, fun hp hk => ?_⟩
  obtain ⟨hk₁, hk₂⟩ := List.forall_mem_append.mp hk
  obtain ⟨ht₁, hq⟩ := h₁ hp hk₁
  obtain ⟨ht₂, hr⟩ := h₂ hq hk₂
  exact ⟨List.forall_mem_append.mpr ⟨ht₁, ht₂⟩, hr⟩

omit [ConstantFolder] in
theorem Typing.conseq (h : Typing T p s t q) (hp : p' → p) (hq : p' → q → q') : Typing T p' s t q' := by
  obtain ⟨is, e, h⟩ := h
  exact ⟨is, e, fun hp' hk => (h (hp hp') hk).imp_right (hq hp')⟩

omit [ConstantFolder] in
theorem Typing.log (ev : ScopeEvent) (h : p → q) : Typing T p s (s.log ev) q :=
    ⟨[], .log ev, fun hp _ => ⟨by simp, h hp⟩⟩

omit [ConstantFolder] in
theorem Typing.emit {mk : Reg → Inst} (h : Plain (mk s.nextReg))
    (ht : p → T.Knows (mk s.nextReg) → (mk s.nextReg).Typed T ∧ q) : Typing T p s (s.emit mk) q :=
  ⟨_, .emit h, fun hp hk => by simpa using ht hp (hk _ List.mem_cons_self)⟩

omit [ConstantFolder] in
theorem Typing.store (ht : p → (Inst.store v x).Typed T) : Typing T p s (s.append [.store v x]) True :=
  ⟨_, .store v x, fun hp _ => by simpa using ht hp⟩

omit [ConstantFolder] in
theorem Scoped.emits (h : Scoped T s) (e : Emits s is t) : Scoped T t := by
  obtain ⟨h₁, h₂, h₃, h₄⟩ := h
  refine ⟨?_, ?_, ?_, ?_⟩
  · rwa [e.namedValues]
  · rwa [e.namedValues]
  · rwa [e.functions]
  · rwa [e.globals]

omit [ConstantFolder] in
theorem Scoped.lookup {z : String} {nv : NamedValue} (h : Scoped T s) (hz : s.lookup z = some nv) :
    T.slot nv.alloca.slot nv.alloca.ty ∧
      ((nv.alloca.ty = .i64 ∨ nv.alloca.ty = .ptr) ∨ ∃ n, nv.alloca.ty = .array n .i64) := by
  obtain ⟨layer, hl, hz⟩ := List.exists_of_findSome?_eq_some hz
  obtain ⟨l₁, l₂, rfl, -⟩ := List.lookup_eq_some_iff.mp hz
  exact h.named _ hl (z, nv) (List.mem_append_right _ List.mem_cons_self)

/-! ### Operators -/

omit [ConstantFolder] in
/-- A constant that is no address and no array. -/
theorem has_const {k : Const} {ty : Ty} (hk : k.ty = ty) (hty : ty = .i64 ∨ ty = .i1) : T.Has (.const k) ty := by
  refine ⟨hk, by rcases hty with rfl | rfl <;> simp, ?_⟩
  cases k with
  | int i =>
    cases hk
    exact hasTy_int i
  | bool b =>
    cases hk
    exact hasTy_bool b
  | poison | expr => exact hasTy_undef
  | zero ty' =>
    obtain rfl : ty' = ty := hk
    rcases hty with rfl | rfl <;> exact hasTy_undef
  | illInt | array | global | gep =>
    subst hk
    rcases hty with h | h <;> cases h

omit [ConstantFolder] in
theorem has_int (i : BitVec 64) : T.Has (.const (.int i)) .i64 := has_const rfl (.inl rfl)

omit [ConstantFolder] in
theorem has_bool (b : Bool) : T.Has (.const (.bool b)) .i1 := has_const rfl (.inr rfl)

theorem createBinOp_typing {op : BinOp} (h : createBinOp op x y s = .ok v t) :
    Typing T (T.Has x .i64 ∧ T.Has y .i64) s t (T.Has v .i64) := by
  rcases createBinOp_ok.mp h with ⟨c, d, rfl, rfl, rfl, rfl⟩ | ⟨-, rfl, rfl⟩
  · refine .refl fun hp => has_const ((binOpFold_ty op ?_).trans hp.1.ty_eq) (.inl rfl)
    exact hp.1.ty_eq.trans hp.2.ty_eq.symm
  · exact .emit ⟨rfl, rfl⟩ fun hp hk => ⟨.binop hp.1 hp.2, hp.1.ty_eq, hk.reg _ _ rfl⟩

theorem createICmp_typing {pred : Pred} (h : createICmp pred x y s = .ok v t) :
    Typing T (T.Has x .i64 ∧ T.Has y .i64) s t (T.Has v .i1) := by
  rcases createICmp_ok.mp h with ⟨c, d, rfl, rfl, rfl, rfl⟩ | ⟨-, rfl, rfl⟩
  · exact .refl fun hp => has_const (predFold_ty ..) (.inr rfl)
  · exact .emit ⟨rfl, rfl⟩ fun hp hk => ⟨.icmp hp.1 hp.2, rfl, hk.reg _ _ rfl⟩

theorem createSelect_typing (h : createSelect c x y s = .ok v t) :
    Typing T (T.Has c .i1 ∧ T.Has x .i1 ∧ T.Has y .i1) s t (T.Has v .i1) := by
  rcases createSelect_ok.mp h with ⟨k, d, e, rfl, rfl, rfl, rfl, rfl⟩ | ⟨-, rfl, rfl⟩
  · refine .refl fun hp => has_const ((foldSelect_ty k ?_).trans hp.2.1.ty_eq) (.inr rfl)
    exact hp.2.1.ty_eq.trans hp.2.2.ty_eq.symm
  · exact .emit ⟨rfl, rfl⟩ fun hp hk => ⟨.select hp.1 hp.2.1 hp.2.2, hp.2.1.ty_eq, hk.reg _ _ rfl⟩

theorem createIntCast_typing (h : createIntCast x s = .ok v t) : Typing T (T.Has x .i1) s t (T.Has v .i64) := by
  rcases createIntCast_ok.mp h with ⟨hx, -, rfl⟩ | ⟨-, ⟨k, rfl, rfl, rfl⟩ | ⟨-, rfl, rfl⟩⟩
  · refine .refl fun hp => ?_
    have := hp.ty_eq.symm.trans hx
    cases this
  · exact .refl fun _ => has_const (foldZExt_ty k) (.inl rfl)
  · exact .emit ⟨rfl, rfl⟩ fun hp hk => ⟨.zext hp, rfl, hk.reg _ _ rfl⟩

/-! ### Variables -/

theorem elementPtr_typing {a : AllocaInst} {i : Value} (h : elementPtr a i s = .ok v t) (ha : T.slot a.slot a.ty)
    (hty : a.ty = .ptr ∨ ∃ n, a.ty = .array n .i64) : Typing T (T.Has i .i64) s t (T.Has v .ptr) := by
  rcases elementPtr_ok h with ⟨⟨n, elt, harr⟩, rfl, rfl⟩ | ⟨hne, rfl, rfl⟩
  · rcases hty with hty | ⟨m, hty⟩
    · rw [hty] at harr
      cases harr
    · rw [AllocaInst.value, hty]
      exact .emit ⟨rfl, rfl⟩ fun hp hk => ⟨.gepArray (hty ▸ ha) hp, rfl, hk.reg _ _ rfl⟩
  · have hptr : a.ty = .ptr := hty.resolve_right (not_exists.mpr fun n => hne n _)
    have hload : Typing T (T.Has i .i64) s (s.emit (.load · .ptr a.value))
        (T.Passes (.inst s.nextReg .ptr) .ptr ∧ T.Has i .i64) := by
      rw [AllocaInst.value, hptr]
      refine .emit ⟨rfl, rfl⟩ fun hp hk =>
        ⟨.loadVar (hptr ▸ ha) (.inr rfl), ⟨⟨rfl, hk.reg _ _ rfl⟩, .inr ⟨rfl, _, rfl, ?_⟩⟩, hp⟩
      exact hk.whole _ rfl rfl
    exact hload.trans (.emit ⟨rfl, rfl⟩ fun hp hk => ⟨.gepPtr hp.1 hp.2, rfl, hk.reg _ _ rfl⟩)

/-- A read: the subscript is an integer, and the variable an array or an array parameter. -/
theorem getValue_typing {z : String} {sub : Option Value} (h : getValue z sub s = .ok v t) (hs : Scoped T s)
    (hz : sub.isSome = true → s.kinds.local? z = some .array ∨ s.kinds.local? z = some .pointer) :
    Typing T (∀ i, sub = some i → T.Has i .i64) s t (T.Gives v) := by
  rw [kinds_local?] at hz
  rcases getValue_ok h with ⟨nv, hx, h⟩ | ⟨hx, h⟩
  · obtain ⟨hslot, hty⟩ := hs.lookup hx
    refine .trans (.log (.read z sub.isSome (s.storage? z)) id) ?_
    rcases createGetValueInst_ok h with ⟨rfl, ⟨n, elt, harr⟩, rfl, rfl⟩ | ⟨rfl, hne, rfl, rfl⟩ |
      ⟨i, p, w, rfl, hp, rfl, rfl⟩
    · rcases hty with hty | ⟨m, hty⟩
      · rw [harr] at hty
        simp at hty
      · rw [AllocaInst.value, hty]
        refine .emit ⟨rfl, rfl⟩ fun _ hk => ⟨.gepArray (hty ▸ hslot) (has_int _), .inr ⟨⟨rfl, hk.reg _ _ rfl⟩, ?_⟩⟩
        exact fun _ => ⟨_, rfl, hk.whole _ rfl rfl⟩
    · have hscalar := hty.resolve_right (not_exists.mpr fun n => hne n _)
      refine .emit ⟨rfl, rfl⟩ fun _ hk => ⟨.loadVar hslot hscalar, .inr ⟨⟨rfl, hk.reg _ _ rfl⟩, fun hptr => ?_⟩⟩
      have hptr : nv.alloca.ty = .ptr := hptr
      exact ⟨_, by rw [hptr], hk.whole _ (by rw [hptr]; rfl) rfl⟩
    · rw [hx] at hz
      have hkind := hz rfl
      have hptr : nv.alloca.ty = .ptr ∨ ∃ n, nv.alloca.ty = .array n .i64 := by
        rcases hty with (hty | hty) | hty
        · simp [hty, kindOf] at hkind
        · exact .inl hty
        · exact .inr hty
      refine ((elementPtr_typing hp hslot hptr).conseq (fun hi => hi i rfl) fun _ => id).trans ?_
      exact .emit ⟨rfl, rfl⟩ fun hp hk => ⟨.loadElement hp, .inr ⟨⟨rfl, hk.reg _ _ rfl⟩, fun hty => by cases hty⟩⟩
  · obtain ⟨g, hg, ⟨-, hn, -⟩ | ⟨rfl, -, rfl, rfl⟩ | ⟨i, p, w, rfl, hp, rfl, rfl⟩⟩ := getGlobalValue_ok h
    · exact absurd hn hs.layers
    · have hty := hs.globals g (List.mem_of_find?_eq_some hg)
      refine .trans (.log _ id) (.emit ⟨rfl, rfl⟩ fun _ hk =>
        ⟨.loadGlobal hty, .inr ⟨⟨rfl, hk.reg _ _ rfl⟩, fun hptr => ?_⟩⟩)
      have hptr : g.valueTy = .ptr := hptr
      rw [hptr] at hty
      simp at hty
    · rw [hx] at hz
      simp at hz

/-! ### Expressions -/

/-- An integer by its kind. -/
theorem Typing.int {e : Exp} (ht : Typing T True s t (T.Gives v)) (h : genExp e s = .ok v t) (hs : Scoped T s)
    (hk : (e.kind s.kinds.lenient == some .int) = true) : Typing T True s t (T.Has v .i64) := by
  have hkind := kind_of_lenient (by simp) e (eq_of_beq hk)
  rw [genExp_kind e h hs.layers, Option.some.injEq, kindOf_eq_int] at hkind
  exact ht.conseq id fun _ hv => hv.has hkind (by simp)

omit [ConstantFolder] in
/-- Keep what is known while more is generated. -/
theorem Typing.keep (h : Typing T True s t q) : Typing T p s t (p ∧ q) := h.conseq (fun _ => trivial) And.intro

/-- A comparison with zero. -/
theorem compareZero_typing {pred : Pred} (h : createICmp pred (.const (.int 0)) x s = .ok v t) :
    Typing T (T.Has x .i64) s t (T.Has v .i1) :=
  (createICmp_typing h).conseq (fun hx => ⟨has_int _, hx⟩) fun _ => id

/-- The operands of `||` and `&&`. -/
theorem logicalOperands_typing {a b : Exp} {lv rv : Value} (h : LogicalOperands a b s lv rv t) (hs : Scoped T s)
    (iha : ∀ {u : State} {v : Value}, genExp a s = .ok v u → Typing T True s u (T.Gives v))
    (ihb : ∀ {u w : State} {v : Value} {is : List Inst}, Emits s is u → genExp b u = .ok v w →
      Typing T True u w (T.Gives v))
    (hk : (a.kind s.kinds.lenient == some .int) = true ∧ (b.kind s.kinds.lenient == some .int) = true) :
    Typing T True s t (T.Has lv .i1 ∧ T.Has rv .i1) := by
  obtain ⟨x, u, m, y, n, hx, hl, hy, hr⟩ := h
  obtain ⟨is, e₁⟩ := genExp_emits a hx
  obtain ⟨js, e₂⟩ := createICmp_emits hl
  have hu : m.kinds = s.kinds := (e₁.trans e₂).kinds
  have h₁ := ((iha hx).int hx hs hk.1).trans (compareZero_typing hl)
  have h₂ := ((ihb (e₁.trans e₂) hy).int hy (hs.emits (e₁.trans e₂)) (hu ▸ hk.2)).trans (compareZero_typing hr)
  exact h₁.trans h₂.keep

mutual

/-- The code of an expression is well-typed if the kinds in it fit. -/
theorem genExp_typing : ∀ (e : Exp) {s t : State} {v : Value}, genExp e s = .ok v t → Scoped T s →
    e.kindsFit s.kinds.lenient = true → Typing T True s t (T.Gives v)
  | .number n, s, t, v, h, _, _ => by
    rw [genExp] at h
    obtain ⟨rfl, rfl⟩ := pure_ok.mp h
    have hint : T.Has (.const (.int n)) .i64 := has_int _
    exact .refl fun _ => hint.gives (by simp)
  | .name x, s, t, v, h, hs, _ => by
    rw [genExp] at h
    exact (getValue_typing h hs (by simp)).conseq (fun _ => by simp) fun _ => id
  | .index x e, s, t, v, h, hs, hk => by
    obtain ⟨i, u, hi, h⟩ := genExp_index_ok.mp h
    obtain ⟨is, em⟩ := genExp_emits e hi
    rw [Exp.kindsFit, Bool.and_eq_true, Bool.and_eq_true] at hk
    obtain ⟨⟨hfit, hkind⟩, hz⟩ := hk
    have h₁ := (genExp_typing e hi hs hfit).int hi hs hkind
    have hu : u.kinds = s.kinds := em.kinds
    refine h₁.trans ((getValue_typing h (hs.emits em) fun _ => hu ▸ elementFits_of_lenient hz).conseq
      (fun hi j hj => ?_) fun _ => id)
    exact Option.some.inj hj ▸ hi
  | .call f args, s, t, v, h, hs, hk => by
    obtain ⟨func, vs, u, hf, -, hvs, rfl, rfl⟩ := genExp_call_ok.mp h
    obtain ⟨hcallee, hret, hparams⟩ := hs.callees func (List.mem_of_find?_eq_some hf)
    simp only [Exp.kindsFit, lenient_function?, kinds_function?, hf, Option.map_some, Bool.and_eq_true,
      beq_iff_eq] at hk
    obtain ⟨hfit, -, hkinds⟩ := hk
    obtain ⟨hargs, hkind⟩ := genExps_typing args hvs hs hfit
    refine hargs.trans (.emit ⟨rfl, rfl⟩ fun hp hknow => ⟨.call hcallee hret ?_, ?_⟩)
    · -- each argument has the type of its parameter
      have htys : vs.map Value.ty = func.params := by
        refine ((map_kindOf_iff hparams).mp (hkind (func.params.map kindOf) (fun κ hκ => ?_) hkinds)).symm
        obtain ⟨ty, hty, rfl⟩ := List.mem_map.mp hκ
        rcases hparams ty hty with rfl | rfl <;> simp [kindOf]
      rw [← htys, List.forall₂_map_right_iff, List.forall₂_same]
      intro v hv
      exact (hp v hv).passes rfl (hparams v.ty (htys ▸ List.mem_map_of_mem hv))
    -- A function returns nothing or an `i64`.
    · rcases hret with hret | hret
      · refine .inr ⟨⟨rfl, hknow.reg _ _ (by simp [Inst.result?, Value.ty, hret])⟩, fun hptr => ?_⟩
        rw [Value.ty, hret] at hptr
        cases hptr
      · exact .inl hret
  | .unary op e, s, t, v, h, hs, hk => by
    obtain ⟨x, u, hx, h⟩ := genExp_unary_ok.mp h
    cases op with
    | plus =>
      obtain ⟨rfl, rfl⟩ := h
      exact genExp_typing e hx hs hk
    | minus =>
      rw [Exp.kindsFit, Bool.and_eq_true] at hk
      have h₁ := (genExp_typing e hx hs hk.1).int hx hs hk.2
      -- The zero that `-` subtracts from has the type of the operand.
      have hnull : T.Has x .i64 → T.Has (.const (nullValue x.ty)) .i64 ∧ T.Has x .i64 := by
        intro hx
        rw [hx.ty_eq]
        exact ⟨has_int _, hx⟩
      exact (h₁.trans ((createBinOp_typing h.2).conseq hnull fun _ => id)).conseq id fun _ hv => hv.gives (by simp)
    | not =>
      obtain ⟨b, w, hb, h⟩ := h
      rw [Exp.kindsFit, Bool.and_eq_true] at hk
      have h₁ := (genExp_typing e hx hs hk.1).int hx hs hk.2
      exact ((h₁.trans (compareZero_typing hb)).trans (createIntCast_typing h)).conseq id fun _ hv => hv.gives (by simp)
  | .arith op a b, s, t, v, h, hs, hk => by
    obtain ⟨x, u, y, w, hx, hy, h⟩ := genExp_arith_ok.mp h
    obtain ⟨is, em⟩ := genExp_emits a hx
    have hu : u.kinds = s.kinds := em.kinds
    rw [Exp.kindsFit, Bool.and_eq_true, Bool.and_eq_true, Bool.and_eq_true] at hk
    have h₁ := (genExp_typing a hx hs hk.1.1).int hx hs hk.1.2
    have h₂ := (genExp_typing b hy (hs.emits em) (hu ▸ hk.2.1)).int hy (hs.emits em) (hu ▸ hk.2.2)
    exact ((h₁.trans h₂.keep).trans (createBinOp_typing h)).conseq id fun _ hv => hv.gives (by simp)
  | .cmp p a b, s, t, v, h, hs, hk => by
    obtain ⟨x, u, y, w, c, k, hx, hy, hc, h⟩ := genExp_cmp_ok.mp h
    obtain ⟨is, em⟩ := genExp_emits a hx
    have hu : u.kinds = s.kinds := em.kinds
    rw [Exp.kindsFit, Bool.and_eq_true, Bool.and_eq_true, Bool.and_eq_true] at hk
    have h₁ := (genExp_typing a hx hs hk.1.1).int hx hs hk.1.2
    have h₂ := (genExp_typing b hy (hs.emits em) (hu ▸ hk.2.1)).int hy (hs.emits em) (hu ▸ hk.2.2)
    have h₃ := ((h₁.trans h₂.keep).trans (createICmp_typing hc)).trans (createIntCast_typing h)
    exact h₃.conseq id fun _ hv => hv.gives (by simp)
  | .land a b, s, t, v, h, hs, hk => by
    obtain ⟨lv, rv, w, c, k, ho, hc, h⟩ := genExp_land_ok.mp h
    rw [Exp.kindsFit, Bool.and_eq_true, Bool.and_eq_true, Bool.and_eq_true] at hk
    have h₁ := logicalOperands_typing ho hs (fun hx => genExp_typing a hx hs hk.1.1)
      (fun em hy => genExp_typing b hy (hs.emits em) (em.kinds ▸ hk.2.1)) ⟨hk.1.2, hk.2.2⟩
    have hsel := (createSelect_typing (T := T) hc).conseq
      (fun hp : T.Has lv .i1 ∧ T.Has rv .i1 => ⟨hp.1, hp.2, has_bool _⟩) fun _ => id
    exact ((h₁.trans hsel).trans (createIntCast_typing h)).conseq id fun _ hv => hv.gives (by simp)
  | .lor a b, s, t, v, h, hs, hk => by
    obtain ⟨lv, rv, w, c, k, ho, hc, h⟩ := genExp_lor_ok.mp h
    rw [Exp.kindsFit, Bool.and_eq_true, Bool.and_eq_true, Bool.and_eq_true] at hk
    have h₁ := logicalOperands_typing ho hs (fun hx => genExp_typing a hx hs hk.1.1)
      (fun em hy => genExp_typing b hy (hs.emits em) (em.kinds ▸ hk.2.1)) ⟨hk.1.2, hk.2.2⟩
    have hsel := (createSelect_typing (T := T) hc).conseq
      (fun hp : T.Has lv .i1 ∧ T.Has rv .i1 => ⟨hp.1, has_bool _, hp.2⟩) fun _ => id
    exact ((h₁.trans hsel).trans (createIntCast_typing h)).conseq id fun _ hv => hv.gives (by simp)

/-- And the kinds of arguments are the ones of their types, where parameters have them. -/
theorem genExps_typing : ∀ (es : List Exp) {s t : State} {vs : List Value}, genExps es s = .ok vs t → Scoped T s →
    argsKindsFit s.kinds.lenient es = true → Typing T True s t (∀ v ∈ vs, T.Gives v) ∧
      ∀ κs : List Kind, (∀ κ ∈ κs, κ ≠ .bool) → es.map (·.kind s.kinds.lenient) = κs.map some →
        (vs.map Value.ty).map kindOf = κs
  | [], s, t, vs, h, _, _ => by
    obtain ⟨rfl, rfl⟩ := genExps_nil_ok.mp h
    refine ⟨.refl fun _ => by simp, fun κs _ hκ => ?_⟩
    cases κs with
    | nil => rfl
    | cons => cases hκ
  | e :: es, s, t, vs, h, hs, hk => by
    obtain ⟨x, u, xs, hx, hxs, rfl⟩ := genExps_cons_ok.mp h
    obtain ⟨is, em⟩ := genExp_emits e hx
    have hu : u.kinds = s.kinds := em.kinds
    rw [argsKindsFit, Bool.and_eq_true] at hk
    obtain ⟨h₂, hkinds⟩ := genExps_typing es hxs (hs.emits em) (hu ▸ hk.2)
    refine ⟨((genExp_typing e hx hs hk.1).trans h₂.keep).conseq id fun _ hv => List.forall_mem_cons.mpr hv, ?_⟩
    intro κs hne hκ
    cases κs with
    | nil => cases hκ
    | cons κ κs =>
      obtain ⟨hκ₁, hκ₂⟩ := List.cons_eq_cons.mp hκ
      obtain ⟨hne₁, hne₂⟩ := List.forall_mem_cons.mp hne
      have hkind := kind_of_lenient hne₁ e hκ₁
      rw [genExp_kind e hx hs.layers, Option.some.injEq] at hkind
      rw [List.map_cons, List.map_cons, hkind, hkinds κs hne₂ (hu ▸ hκ₂)]

end

theorem codeGenExp_typing {e : ExprNode} (h : codeGenExp e s = .ok v t) (hs : Scoped T s)
    (hk : e.core.intFits s.kinds.lenient = true) : Typing T True s t (T.Has v .i64) := by
  rw [codeGenExp_core] at h
  rw [Exp.intFits, Bool.and_eq_true] at hk
  exact (genExp_typing e.core h hs hk.1).int h hs hk.2

end Typing

end L24
