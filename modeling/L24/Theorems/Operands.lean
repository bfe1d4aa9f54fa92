import L24.Theorems.Initialisers
import L24.Theorems.Reserved
import L24.Theorems.Returns

/-! Operands: which programs get instructions whose operands all have the types that the instructions need. The code
    checks no types, so this is a matter of how the source uses its names. -/

namespace L24
open Ir Relation

/-! ### Instructions -/

/-- What the names of a module stand for: the parameters that a function takes, and the type of a variable. -/
structure Types where
  params? : String → Option (List Ty)
  type? : String → Option Ty

/-- A variable of the type `var` begins with a value of the type `ty`: it is one, or an array of such. -/
def beginsWith (var ty : Ty) : Bool := var == ty || (match var with
  | .array _ elt => elt == ty
  | _ => false)

/-- The address is one of a value of the type `ty`: of a variable as it was allocated, or of an element of an array. An
    address in a register is one of an element, and so is one that is passed. -/
def pointsTo : Value → Ty → Bool
  | .alloca _ var, ty | .const (.global _ var), ty => beginsWith var ty
  | .const (.gep (.array _ elt) base i j), ty => (base.ty == .ptr && i.ty == .i64 && j.ty == .i64) && elt == ty
  | .arg _ .ptr, ty | .inst _ .ptr, ty => ty == .i64
  | _, _ => false

/-- A pointer parameter. -/
def isPointerArg : Value → Bool
  | .arg _ .ptr => true
  | _ => false

/-- The operands of an instruction have the types that it needs. Only a pointer argument is stored that is no integer,
    and the result of a `void` function has no name. -/
def OperandsFit (ts : Types) : Inst → Prop
  | .alloca _ _ none => True
  | .alloca _ _ (some count) => count.ty = .i64
  | .load _ ty ptr => pointsTo ptr ty = true
  | .store val ptr => pointsTo ptr val.ty = true ∧ (val.ty = .i64 ∨ isPointerArg val = true)
  | .gep _ srcTy ptr [i] => pointsTo ptr srcTy = true ∧ i.ty = .i64
  | .gep _ (.array n elt) ptr [i, j] => pointsTo ptr (.array n elt) = true ∧ i.ty = .i64 ∧ j.ty = .i64
  | .gep _ _ _ _ => False
  | .binop _ _ a b | .icmp _ _ a b => a.ty = .i64 ∧ b.ty = .i64
  | .select _ c t f => c.ty = .i1 ∧ t.ty = .i1 ∧ f.ty = .i1
  | .zext _ val ty => val.ty = .i1 ∧ ty = .i64
  | .call _ callee retTy args name => ts.params? callee = some (args.map Value.ty) ∧ (retTy = .void → name = "")
  | .condBr cond _ _ => cond.ty = .i1
  | .ret (some val) => val.ty = .i64
  | .br _ | .ret none => True

/-! ### Names -/

/-- What can be subscripted: an array, or an array parameter, whose variable holds a pointer. -/
def Storage.Indexed (ts : Types) : Storage → Prop
  | .local a => kindOf a.ty = .array ∨ kindOf a.ty = .pointer
  | .global name => (ts.type? name).map kindOf = some .array

/-- The storage is of one cell. -/
def Storage.Scalar (ts : Types) : Storage → Prop
  | .local a => a.ty = .i64
  | .global name => ts.type? name = some .i64

/-- A name with a subscript stands for an array or an array parameter, and one that is assigned without for an integer
    variable. In the instructions this is lost where an address folds. -/
def ScopeEvent.Fits (ts : Types) : ScopeEvent → Prop
  | .read _ true st | .assign _ true st => ∃ storage, st = some storage ∧ storage.Indexed ts
  | .assign _ false st => ∃ storage, st = some storage ∧ storage.Scalar ts
  | .read _ false _ | .push | .pop | .define _ _ _ => True

/-! ### The static analysis -/

section Analysis
variable [ConstantFolder]

/-- The address of an element of a global array, as `globalElementPtr` makes it of a constant subscript. -/
def globalElement (g : GlobalVariable) (c : Const) : Const := foldGEP g.valueTy (.global g.name g.valueTy) .illInt c

/-- The name can have the subscript `e` where a value of the type `ty?` is accessed, or of the variable's own type: it
    is a local array or an array parameter, or a global array if the address folds to one of such a value. Any other
    address in a global array has an index that is no integer of 64 bits. -/
def Kinds.elementFits (k : Kinds) (x : String) (e : Exp) (ty? : Option Ty) : Bool :=
  match k.local? x with
  | some kind => kind == .array || kind == .pointer
  | none => match k.global? x with
    | some g => kindOf g.valueTy == .array && e.literal && pointsTo (.const (globalElement g e.fold))
        (ty?.getD g.valueTy)
    | none => false

mutual

/-- Each operand of an expression is an integer, each name with a subscript has an element there, and each call is one
    of a function with a result, with arguments as it takes them. -/
def Exp.kindsFit (k : Kinds) : Exp → Bool
  | .number _ | .name _ => true
  | .index x e => e.kindsFit k && e.kind k == some .int && k.elementFits x e none
  | .call f args => argsKindsFit k args && (match k.functions.lookup f with
    | some (ret, params) => ret != .void && args.map (·.kind k) == params.map some
    | none => false)
  | .unary .plus e => e.kindsFit k
  | .unary .minus e | .unary .not e => e.kindsFit k && e.kind k == some .int
  | .arith _ a b | .cmp _ a b | .land a b | .lor a b =>
    (a.kindsFit k && a.kind k == some .int) && (b.kindsFit k && b.kind k == some .int)

/-- The same for the arguments of a call. -/
def argsKindsFit (k : Kinds) : List Exp → Bool
  | [] => true
  | e :: es => e.kindsFit k && argsKindsFit k es

end

/-- An expression for an integer. -/
def Exp.intFits (k : Kinds) (e : Exp) : Bool := e.kindsFit k && e.kind k == some .int

/-- The name is one of an integer variable. -/
def Kinds.scalar (k : Kinds) (x : String) : Bool :=
  match k.local? x with
  | some kind => kind == .int
  | none => (k.global? x).any fun g => g.valueTy == .i64

/-- What an assignment may change: an integer variable, or an element. -/
def targetFits (k : Kinds) (x : String) : Option ExprNode → Bool
  | none => k.scalar x
  | some e => e.core.intFits k && k.elementFits x e.core (some .i64)

/-- The initial values of which a definition has `n`. -/
def initFits (k : Kinds) (init : Option InitValNode) (n : Nat) : Bool :=
  (((init.map InitValNode.exps).getD []).take n).all fun e => e.core.intFits k

/-- The size and the initial values of a local definition. -/
def Def.kindsFit (d : Def) (k : Kinds) : Bool := match d.exp with
  | none => initFits k d.init 1
  | some e => e.core.intFits k && initFits k d.init (arrayElements e.core)

/-- The definitions of a declaration; each sees those in front of it. -/
def defsKindsFit : List Def → Kinds → Bool
  | [], _ => true
  | d :: ds, k => d.kindsFit k && defsKindsFit ds (k.declare d.ident d.kind)

mutual

/-- The same for a statement. -/
def StmtNode.kindsFit : StmtNode → Kinds → Bool
  | .block items, k => itemsKindsFit items k.push
  | .ifStmt e a none, k => e.core.intFits k && a.kindsFit k
  | .ifStmt e a (some b), k => e.core.intFits k && a.kindsFit k && b.kindsFit k
  | .whileStmt e body, k => e.core.intFits k && body.kindsFit k
  | .ret (some e), k => e.core.intFits k
  | .expr (some e), k => e.core.kindsFit k
  | .assign x sub e, k => e.core.intFits k && targetFits k x sub
  | .continueStmt, _ | .breakStmt, _ | .ret none, _ | .expr none, _ => true

def BlockItemNode.kindsFit : BlockItemNode → Kinds → Bool
  | .decl d, k => defsKindsFit d.defs k
  | .stmt st, k => st.kindsFit k

/-- The same for the items of a block. -/
def itemsKindsFit : List BlockItemNode → Kinds → Bool
  | [], _ => true
  | item :: items, k => item.kindsFit k && itemsKindsFit items (item.declared k)

end

/-- The same for a function, with its parameters in scope. -/
def FuncNode.kindsFit (node : FuncNode) (k : Kinds) : Bool := itemsKindsFit node.block (k.inFunc node).push

theorem Exp.intFits_iff {k : Kinds} {e : Exp} : e.intFits k = true ↔ e.kindsFit k = true ∧ e.kind k = some .int := by
  simp [Exp.intFits]

/-- Numbers and operators fit. -/
theorem Exp.intFits_of_literal {k : Kinds} {e : Exp} (h : e.literal = true) : e.intFits k = true := by
  induction e using Exp.literal.induct with
  | case1 => rfl
  | case2 | case3 | case4 => cases h
  | case5 op e ih =>
    obtain ⟨hfit, hkind⟩ := Exp.intFits_iff.mp (ih h)
    cases op <;> simp [Exp.intFits, Exp.kindsFit, Exp.kind, hfit, hkind]
  | case6 op a b iha ihb | case7 op a b iha ihb | case8 a b iha ihb | case9 a b iha ihb =>
    rw [Exp.literal, Bool.and_eq_true] at h
    obtain ⟨hfa, hka⟩ := Exp.intFits_iff.mp (iha h.1)
    obtain ⟨hfb, hkb⟩ := Exp.intFits_iff.mp (ihb h.2)
    simp [Exp.intFits, Exp.kindsFit, Exp.kind, hfa, hka, hfb, hkb]

end Analysis

/-! ### Builder operations -/

/-- From `s` to `t` the instructions have operands of the types that they need, and the names are used as they are
    declared, exactly if `ok` holds. -/
def Fitting (ts : Types) (ok : Prop) (s t : State) : Prop :=
  ∃ is evs, Emits s is t ∧ t.trace = s.trace ++ evs ∧ ((∀ i ∈ is, OperandsFit ts i) ∧ (∀ ev ∈ evs, ev.Fits ts) ↔ ok)

/-- Functions take integers and pointers, and `ts` knows them and the global variables. -/
structure Knows (ts : Types) (s : State) : Prop where
  functions : ∀ f ∈ s.functions, ts.params? f.name = some f.params ∧ ∀ ty ∈ f.params, ty = .i64 ∨ ty = .ptr
  globals : ∀ g ∈ s.globals, ts.type? g.name = some g.valueTy

section Fitting
variable {ts : Types} {s t u : State} {v x y c : Value} {p q : Prop}

theorem Fitting.refl (h : p) : Fitting ts p s s := by
  refine ⟨[], [], .refl s, by simp, ?_⟩
  simp [h]

theorem Fitting.congr (h : Fitting ts p s t) (hq : p ↔ q) : Fitting ts q s t := by
  obtain ⟨is, evs, e, ht, h⟩ := h
  exact ⟨is, evs, e, ht, h.trans hq⟩

theorem Fitting.trans (h₁ : Fitting ts p s t) (h₂ : Fitting ts q t u) : Fitting ts (p ∧ q) s u := by
  obtain ⟨is, evs, e₁, ht, h₁⟩ := h₁
  obtain ⟨js, evs', e₂, hu, h₂⟩ := h₂
  refine ⟨is ++ js, evs ++ evs', e₁.trans e₂, by rw [hu, ht, List.append_assoc], ?_⟩
  rw [List.forall_mem_append, List.forall_mem_append, ← h₁, ← h₂]
  tauto

theorem Fitting.emit {mk : Reg → Inst} (h : Plain (mk s.nextReg)) (hp : OperandsFit ts (mk s.nextReg) ↔ p) :
    Fitting ts p s (s.emit mk) := by
  have htrace : (s.emit mk).trace = s.trace ++ [] := (State.append_trace s _).trans (List.append_nil _).symm
  exact ⟨_, [], .emit h, htrace, by simpa using hp⟩

theorem Fitting.store {ptr : Value} (hp : OperandsFit ts (.store v ptr) ↔ p) :
    Fitting ts p s (s.append [.store v ptr]) := by
  have htrace : (s.append [.store v ptr]).trace = s.trace ++ [] :=
    (State.append_trace s _).trans (List.append_nil _).symm
  exact ⟨_, [], .store v ptr, htrace, by simpa using hp⟩

theorem Fitting.log {ev : ScopeEvent} (h : ev.Fits ts ↔ p) : Fitting ts p s (s.log ev) :=
  ⟨[], [ev], .log ev, rfl, by simpa using h⟩

theorem Knows.emits {is : List Inst} (h : Knows ts s) (e : Emits s is t) : Knows ts t := by
  obtain ⟨hf, hg⟩ := h
  refine ⟨?_, ?_⟩
  · rwa [e.functions]
  · rwa [e.globals]

theorem knows_iff : Knows ts s ↔ (∀ p ∈ s.functions.map fun f => (f.name, f.params),
    ts.params? p.1 = some p.2 ∧ ∀ ty ∈ p.2, ty = .i64 ∨ ty = .ptr) ∧
    ∀ g ∈ s.globals, ts.type? g.name = some g.valueTy := by
  rw [List.forall_mem_map]
  exact ⟨fun h => ⟨h.functions, h.globals⟩, fun h => ⟨h.1, h.2⟩⟩

theorem Knows.run {func base : Nat} (h : Knows ts s) (r : GenRun func base s t) : Knows ts t := by
  rw [knows_iff] at h ⊢
  rwa [r.map_functions fun _ _ => rfl, r.globals]

theorem kindOf_eq_pointer {ty : Ty} : kindOf ty = .pointer ↔ ty = .ptr := by cases ty <;> simp [kindOf]

theorem kindOf_eq_void {ty : Ty} : kindOf ty = .void ↔ ty = .void := by cases ty <;> simp [kindOf]

theorem kindOf_eq_array {ty : Ty} : kindOf ty = .array ↔ ∃ n elt, ty = .array n elt := by cases ty <;> simp [kindOf]

/-- Of the types that functions take, no two have one kind. -/
theorem map_kindOf_iff {tys params : List Ty} (h : ∀ ty ∈ params, ty = .i64 ∨ ty = .ptr) :
    tys.map kindOf = params.map kindOf ↔ params = tys := by
  induction params generalizing tys with
  | nil => cases tys <;> simp
  | cons ty params ih =>
    obtain ⟨hty, hparams⟩ := List.forall_mem_cons.mp h
    cases tys with
    | nil => simp
    | cons ty' tys =>
      have hkind : kindOf ty' = kindOf ty ↔ ty = ty' := by
        rcases hty with rfl | rfl <;> cases ty' <;> simp [kindOf]
      rw [List.map_cons, List.map_cons, List.cons_eq_cons, List.cons_eq_cons, hkind, ih hparams]

theorem intKind_iff {k : Kinds} {e : Exp} (h : e.kind k = some (kindOf v.ty)) : (e.kind k == some .int) = true ↔
    v.ty = .i64 := by
  rw [h]
  simp [kindOf_eq_int]

variable [ConstantFolder]

theorem createBinOp_fitting {op : BinOp} (h : createBinOp op x y s = .ok v t)
    (hconst : ∀ c d, x = .const c → y = .const d → x.ty = .i64 ∧ y.ty = .i64) :
    Fitting ts (x.ty = .i64 ∧ y.ty = .i64) s t := by
  rcases createBinOp_ok.mp h with ⟨c, d, hc, hd, -, rfl⟩ | ⟨-, -, rfl⟩
  · exact .refl (hconst c d hc hd)
  · exact .emit ⟨rfl, rfl⟩ Iff.rfl

theorem createICmp_fitting {pred : Pred} (h : createICmp pred x y s = .ok v t)
    (hconst : ∀ c d, x = .const c → y = .const d → x.ty = .i64 ∧ y.ty = .i64) :
    Fitting ts (x.ty = .i64 ∧ y.ty = .i64) s t := by
  rcases createICmp_ok.mp h with ⟨c, d, hc, hd, -, rfl⟩ | ⟨-, -, rfl⟩
  · exact .refl (hconst c d hc hd)
  · exact .emit ⟨rfl, rfl⟩ Iff.rfl

/-- A comparison with zero, of a value that is an integer if it is a constant. -/
theorem compareZero_fitting {pred : Pred} (h : createICmp pred (.const (.int 0)) x s = .ok v t)
    (hx : ∀ k, x = .const k → x.ty = .i64) : Fitting ts (x.ty = .i64) s t :=
  (createICmp_fitting h fun _ d _ hd => ⟨rfl, hx d hd⟩).congr (and_iff_right rfl)

variable (ts) in
theorem createSelect_fitting (h : createSelect c x y s = .ok v t) (hc : c.ty = .i1) (hx : x.ty = .i1)
    (hy : y.ty = .i1) :
    Fitting ts True s t ∧ v.ty = .i1 := by
  rcases createSelect_ok.mp h with ⟨k, d, e, rfl, rfl, rfl, rfl, rfl⟩ | ⟨-, rfl, rfl⟩
  · exact ⟨.refl trivial, (foldSelect_ty k (hx.trans hy.symm)).trans hx⟩
  · refine ⟨.emit ⟨rfl, rfl⟩ ?_, hx⟩
    simp [OperandsFit, hc, hx, hy]

/-- `booleanToInt` of a comparison. -/
theorem createIntCast_fitting (h : createIntCast x s = .ok v t) (hx : x.ty = .i1) : Fitting ts True s t := by
  rcases createIntCast_ok.mp h with ⟨-, -, rfl⟩ | ⟨-, ⟨_, -, -, rfl⟩ | ⟨-, -, rfl⟩⟩
  · exact .refl trivial
  · exact .refl trivial
  · refine .emit ⟨rfl, rfl⟩ ?_
    simp [OperandsFit, hx]

/-! ### Variables -/

omit [ConstantFolder] in
theorem beginsWith_self (ty : Ty) : beginsWith ty ty = true := by simp [beginsWith]

omit [ConstantFolder] in
theorem beginsWith_scalar {var ty : Ty} (h : ∀ n elt, var ≠ .array n elt) : beginsWith var ty = true ↔ var = ty := by
  cases var with
  | array n elt => exact absurd rfl (h n elt)
  | _ => simp [beginsWith]

variable (ts) in
theorem elementPtr_fitting {a : AllocaInst} {i : Value} (h : elementPtr a i s = .ok v t) :
    Fitting ts (i.ty = .i64 ∧ (kindOf a.ty = .array ∨ kindOf a.ty = .pointer)) s t ∧
      ∀ ty, pointsTo v ty = (ty == .i64) := by
  rcases elementPtr_ok h with ⟨⟨n, elt, hty⟩, rfl, rfl⟩ | ⟨hty, rfl, rfl⟩
  · refine ⟨.emit ⟨rfl, rfl⟩ ?_, fun ty => rfl⟩
    simp [hty, OperandsFit, pointsTo, AllocaInst.value, Value.ty, Const.ty, kindOf, beginsWith_self]
  · refine ⟨((Fitting.emit ⟨rfl, rfl⟩ Iff.rfl).trans (.emit ⟨rfl, rfl⟩ Iff.rfl)).congr ?_, fun ty => rfl⟩
    have hnot : kindOf a.ty ≠ .array := by
      intro hk
      obtain ⟨n, elt, h⟩ := kindOf_eq_array.mp hk
      exact hty n elt h
    simp only [OperandsFit, pointsTo, AllocaInst.value, beginsWith_scalar hty, hnot, kindOf_eq_pointer,
      beq_self_eq_true,
      true_and, false_or]
    exact and_comm

/-- The value `i` of a subscript fits: see `Kinds.elementFits`. -/
def Kinds.ElementFits (k : Kinds) (x : String) (i : Value) (ty? : Option Ty) : Prop :=
  match k.local? x with
  | some kind => kind = .array ∨ kind = .pointer
  | none => ∃ g c, k.global? x = some g ∧ kindOf g.valueTy = .array ∧ i = .const c ∧
      pointsTo (.const (globalElement g c)) (ty?.getD g.valueTy) = true

theorem elementFits_iff {k : Kinds} {z : String} {e : Exp} {i : Value} {ty? : Option Ty} (h : genExp e s = .ok i t)
    (hn : s.namedValues ≠ []) : k.ElementFits z i ty? ↔ k.elementFits z e ty? = true := by
  unfold Kinds.ElementFits Kinds.elementFits
  cases k.local? z with
  | some kind => simp
  | none =>
    cases k.global? z with
    | none => simp
    | some g =>
      rcases genExp_folds e hn h with ⟨hl, rfl, -⟩ | ⟨hl, hi, -⟩
      · simp [hl]
      · have hnot : ∀ c, i ≠ .const c := by
          rintro c rfl
          cases hi
        simp [hl, hnot]

/-- An access to an element of a global variable. A subscript that is no constant is an operand of an instruction, and
    the constant in front of it has no bits. -/
theorem globalElement_fitting {g : GlobalVariable} {i : Value} {ev : ScopeEvent} {ty : Ty}
    (hev : ev.Fits ts ↔ kindOf g.valueTy = .array) (h : globalElementPtr g i (s.log ev) = .ok x u)
    (hu : Fitting ts (p ∧ pointsTo x ty = true) u t) : Fitting ts
      (p ∧ kindOf g.valueTy = .array ∧ ∃ c, i = .const c ∧ pointsTo (.const (globalElement g c)) ty = true) s t := by
  rcases createGEP_ok.mp (globalElementPtr_ok.mp h) with ⟨c, d, k, hc, hd, rfl, rfl, rfl⟩ | ⟨hne, rfl, rfl⟩
  · refine ((Fitting.log hev).trans hu).congr ?_
    have helement : kindOf g.valueTy = .array → foldGEP g.valueTy c d k = globalElement g k := by
      intro harray
      have hne : g.valueTy ≠ .i64 := fun hty => by simp [hty, kindOf] at harray
      cases hc
      cases hd
      rw [if_neg hne]
      rfl
    constructor
    · rintro ⟨harray, hp, hpoint⟩
      exact ⟨hp, harray, k, rfl, helement harray ▸ hpoint⟩
    · rintro ⟨hp, harray, k', hk, hpoint⟩
      cases hk
      exact ⟨harray, hp, (helement harray).symm ▸ hpoint⟩
  · have hgep : OperandsFit ts (.gep (s.log ev).nextReg g.valueTy (.const (.global g.name g.valueTy))
        [.const (if g.valueTy = .i64 then .int 0 else .illInt), i]) ↔ False := by
      cases hty : g.valueTy with
      | array n elt => simp [OperandsFit, Value.ty, Const.ty]
      | _ => simp [OperandsFit]
    refine ((Fitting.log hev).trans ((Fitting.emit ⟨rfl, rfl⟩ hgep).trans hu)).congr ?_
    constructor
    · rintro ⟨-, hf, -⟩
      exact hf.elim
    · rintro ⟨-, -, c, hc, -⟩
      exact absurd hc (hne _ _ c rfl rfl)

omit [ConstantFolder] in
theorem storage?_global {z : String} {g : GlobalVariable} (hz : s.lookup z = none) (hg : s.global? z = some g) :
    s.storage? z = some (.global g.name) := by rw [State.storage?, hz, hg, Option.map_some]

omit [ConstantFolder] in
theorem storage?_local {z : String} {nv : NamedValue} (hz : s.lookup z = some nv) :
    s.storage? z = some (.local nv.alloca) := by rw [State.storage?, hz]

omit [ConstantFolder] in
theorem Knows.type? {z : String} {g : GlobalVariable} (h : Knows ts s) (hg : s.global? z = some g) :
    ts.type? g.name = some g.valueTy := h.globals g (List.mem_of_find?_eq_some hg)

/-- A read: the subscript is an integer, and there is an element. -/
theorem getValue_fitting {z : String} {sub : Option Value} (h : getValue z sub s = .ok v t) (hn : s.namedValues ≠ [])
    (hk : Knows ts s) (hsub : ∀ c, sub = some (.const c) → c.ty = .i64) :
    Fitting ts (∀ i, sub = some i → i.ty = .i64 ∧ s.kinds.ElementFits z i none) s t := by
  rcases getValue_ok h with ⟨nv, hz, h⟩ | ⟨hz, h⟩
  · have hlocal : s.kinds.local? z = some (kindOf nv.alloca.ty) := by rw [kinds_local?, hz, Option.map_some]
    rcases createGetValueInst_ok h with ⟨rfl, ⟨n, elt, hty⟩, rfl, rfl⟩ | ⟨rfl, hty, rfl, rfl⟩ |
      ⟨i, p, w, rfl, hp, rfl, rfl⟩
    · refine ((Fitting.log (p := True) (by simp [ScopeEvent.Fits])).trans (.emit ⟨rfl, rfl⟩ Iff.rfl)).congr ?_
      simp [hty, OperandsFit, pointsTo, AllocaInst.value, Value.ty, Const.ty, beginsWith_self]
    · refine ((Fitting.log (p := True) (by simp [ScopeEvent.Fits])).trans (.emit ⟨rfl, rfl⟩ Iff.rfl)).congr ?_
      simp [OperandsFit, pointsTo, AllocaInst.value, beginsWith_self]
    · obtain ⟨hfit, hpoint⟩ := elementPtr_fitting ts hp
      have hev : (ScopeEvent.read z true (s.storage? z)).Fits ts ↔
          kindOf nv.alloca.ty = .array ∨ kindOf nv.alloca.ty = .pointer := by
        rw [storage?_local hz]
        simp [ScopeEvent.Fits, Storage.Indexed]
      refine ((Fitting.log hev).trans (hfit.trans (.emit ⟨rfl, rfl⟩ Iff.rfl))).congr ?_
      simp only [OperandsFit, hpoint, beq_self_eq_true, and_true, Option.some.injEq, forall_eq', Kinds.ElementFits,
        hlocal]
      tauto
  · have hlocal : s.kinds.local? z = none := by rw [kinds_local?, hz, Option.map_none]
    obtain ⟨g, hg, ⟨-, hn', -⟩ | ⟨rfl, -, rfl, rfl⟩ | ⟨i, p, w, rfl, hp, rfl, rfl⟩⟩ := getGlobalValue_ok h
    · exact absurd hn' hn
    · refine ((Fitting.log (p := True) (by simp [ScopeEvent.Fits])).trans (.emit ⟨rfl, rfl⟩ Iff.rfl)).congr ?_
      simp [OperandsFit, pointsTo, beginsWith_self]
    · have hg : s.global? z = some g := hg
      have hev : (ScopeEvent.read z true (s.storage? z)).Fits ts ↔ kindOf g.valueTy = .array := by
        rw [storage?_global hz hg]
        simp [ScopeEvent.Fits, Storage.Indexed, hk.type? hg]
      have hload : Fitting ts (True ∧ pointsTo p g.valueTy = true) w (w.emit (.load · g.valueTy p)) :=
        (Fitting.emit ⟨rfl, rfl⟩ Iff.rfl).congr (and_iff_right trivial).symm
      refine (globalElement_fitting hev hp hload).congr ?_
      have hgk : s.kinds.global? z = some g := hg
      simp only [Option.some.injEq, forall_eq', Kinds.ElementFits, hlocal, hgk, Option.getD_none, true_and]
      constructor
      · rintro ⟨harray, c, rfl, hpoint⟩
        exact ⟨hsub c rfl, g, c, rfl, harray, rfl, hpoint⟩
      · rintro ⟨-, g', c, rfl, harray, rfl, hpoint⟩
        exact ⟨harray, c, rfl, hpoint⟩

/-! ### Expressions -/

/-- The operand of a comparison with zero, or of an operator: an integer. -/
theorem genExp_intKind {e : Exp} (h : genExp e s = .ok v t) (hn : s.namedValues ≠ []) :
    (e.kind s.kinds == some .int) = true ↔ v.ty = .i64 := intKind_iff (genExp_kind e h hn)

/-- Two operands, and an operation that needs integers. -/
theorem operands_fitting {a b : Exp}
    (iha : ∀ {s t : State} {v : Value}, genExp a s = .ok v t → s.namedValues ≠ [] → Knows ts s →
      Fitting ts (a.kindsFit s.kinds = true) s t)
    (ihb : ∀ {s t : State} {v : Value}, genExp b s = .ok v t → s.namedValues ≠ [] → Knows ts s →
      Fitting ts (b.kindsFit s.kinds = true) s t)
    {w : State} (hx : genExp a s = .ok x u) (hy : genExp b u = .ok y w) (hn : s.namedValues ≠ []) (hk : Knows ts s) :
    (Fitting ts (x.ty = .i64 ∧ y.ty = .i64) w t →
      Fitting ts (a.intFits s.kinds = true ∧ b.intFits s.kinds = true) s t) ∧
    ∀ c d, x = .const c → y = .const d → x.ty = .i64 ∧ y.ty = .i64 := by
  obtain ⟨is, e⟩ := genExp_emits a hx
  have hnu : u.namedValues ≠ [] := by rw [e.namedValues]; exact hn
  refine ⟨fun hop => ?_, ?_⟩
  · have hfa := iha hx hn hk
    have hfb := ihb hy hnu (hk.emits e)
    have hkb := genExp_intKind hy hnu
    rw [e.kinds] at hfb hkb
    refine (hfa.trans (hfb.trans hop)).congr ?_
    rw [Exp.intFits, Exp.intFits, Bool.and_eq_true, Bool.and_eq_true, genExp_intKind hx hn, hkb]
    tauto
  · rintro c d rfl rfl
    exact ⟨genExp_const_ty hn hx, genExp_const_ty hnu hy⟩

theorem logicalOperands_fitting {a b : Exp} {lv rv : Value}
    (iha : ∀ {s t : State} {v : Value}, genExp a s = .ok v t → s.namedValues ≠ [] → Knows ts s →
      Fitting ts (a.kindsFit s.kinds = true) s t)
    (ihb : ∀ {s t : State} {v : Value}, genExp b s = .ok v t → s.namedValues ≠ [] → Knows ts s →
      Fitting ts (b.kindsFit s.kinds = true) s t)
    (h : LogicalOperands a b s lv rv t) (hn : s.namedValues ≠ []) (hk : Knows ts s) :
    Fitting ts (a.intFits s.kinds = true ∧ b.intFits s.kinds = true) s t ∧ lv.ty = .i1 ∧ rv.ty = .i1 := by
  obtain ⟨x, u, m, y, n, hx, hl, hy, hr⟩ := h
  obtain ⟨is, e₁⟩ := genExp_emits a hx
  obtain ⟨js, e₂⟩ := createICmp_emits hl
  have e := e₁.trans e₂
  have hnm : m.namedValues ≠ [] := by rw [e.namedValues]; exact hn
  have hkinds : m.kinds = s.kinds := e.kinds
  have hfa := iha hx hn hk
  have hcx : Fitting ts (x.ty = .i64) u m := compareZero_fitting hl fun k hk => by
    subst hk
    exact genExp_const_ty hn hx
  have hfb := ihb hy hnm (hk.emits e)
  have hcy : Fitting ts (y.ty = .i64) n t := compareZero_fitting hr fun k hk => by
    subst hk
    exact genExp_const_ty hnm hy
  have hka := genExp_intKind hx hn
  have hkb := genExp_intKind hy hnm
  rw [hkinds] at hfb hkb
  refine ⟨(hfa.trans (hcx.trans (hfb.trans hcy))).congr ?_, createICmp_ty hl, createICmp_ty hr⟩
  rw [Exp.intFits, Exp.intFits, Bool.and_eq_true, Bool.and_eq_true, hka, hkb]
  simp only [and_assoc]

mutual

/-- The operands in an expression fit exactly if the analysis says so. -/
theorem genExp_fitting : ∀ (e : Exp) {s t : State} {v : Value}, genExp e s = .ok v t → s.namedValues ≠ [] →
    Knows ts s → Fitting ts (e.kindsFit s.kinds = true) s t
  | .number n, s, t, v, h, _, _ => by
    rw [genExp] at h
    obtain ⟨-, rfl⟩ := pure_ok.mp h
    exact .refl rfl
  | .name x, s, t, v, h, hn, hk => by
    rw [genExp] at h
    refine (getValue_fitting h hn hk fun _ hsub => nomatch hsub).congr ?_
    simp [Exp.kindsFit]
  | .index x e, s, t, v, h, hn, hk => by
    obtain ⟨i, u, hi, h⟩ := genExp_index_ok.mp h
    obtain ⟨is, e₁⟩ := genExp_emits e hi
    -- A constant subscript is of type `i64`, so that it may fold into the address.
    have hconst : ∀ c, some i = some (.const c) → c.ty = .i64 := by
      intro c hc
      obtain rfl := Option.some.inj hc
      exact genExp_const_ty hn hi
    have hread := getValue_fitting h (by rw [e₁.namedValues]; exact hn) (hk.emits e₁) hconst
    rw [e₁.kinds] at hread
    refine ((genExp_fitting e hi hn hk).trans hread).congr ?_
    simp [Exp.kindsFit, genExp_intKind hi hn, elementFits_iff hi hn, and_assoc]
  | .call f args, s, t, v, h, hn, hk => by
    obtain ⟨func, vs, u, hf, -, hvs, rfl, rfl⟩ := genExp_call_ok.mp h
    obtain ⟨hparams, htys⟩ := hk.functions func (List.mem_of_find?_eq_some hf)
    obtain ⟨hargs, hkinds⟩ := genExps_fitting args hvs hn hk
    refine (hargs.trans (.emit ⟨rfl, rfl⟩ Iff.rfl)).congr ?_
    have hvoid : kindOf func.retTy ≠ .void ↔ (func.retTy = .void → "call_" ++ f = "") := by
      simp [kindOf_eq_void]
    -- A parameter is an `int` or a pointer, so the types agree exactly when the kinds do.
    have hmap : vs.map (fun v => some (kindOf v.ty)) = (func.params.map kindOf).map some ↔
        func.params = vs.map Value.ty := by
      have hvals : vs.map (fun v => some (kindOf v.ty)) = ((vs.map Value.ty).map kindOf).map some := by simp
      rw [hvals, ← map_kindOf_iff htys]
      exact (List.map_injective_iff.mpr (Option.some_injective _)).eq_iff
    simp only [Exp.kindsFit, kinds_function?, hf, Option.map_some, Bool.and_eq_true, bne_iff_ne, beq_iff_eq,
      OperandsFit,
      hparams, hkinds, hvoid, hmap, Option.some.injEq]
    tauto
  | .unary op e, s, t, v, h, hn, hk => by
    obtain ⟨x, u, hx, h⟩ := genExp_unary_ok.mp h
    have hfit := genExp_fitting e hx hn hk
    have hconst : ∀ k, x = .const k → x.ty = .i64 := by
      rintro k rfl
      exact genExp_const_ty hn hx
    have hint := genExp_intKind hx hn
    cases op with
    | plus =>
      obtain ⟨-, rfl⟩ := h
      exact hfit
    | minus =>
      have hneg : Fitting ts (x.ty = .i64) u t := by
        have hnull : (Value.const (nullValue x.ty)).ty = x.ty := nullValue_ty x.ty
        refine (createBinOp_fitting h.2 fun _ d _ hd => ?_).congr ?_
        · rw [hnull]
          exact ⟨hconst d hd, hconst d hd⟩
        · rw [hnull, and_self]
      refine (hfit.trans hneg).congr ?_
      rw [Exp.kindsFit, Bool.and_eq_true, hint]
    | not =>
      obtain ⟨b, w, hb, h⟩ := h
      have hcast : Fitting ts True w t := createIntCast_fitting h (createICmp_ty hb)
      refine (hfit.trans ((compareZero_fitting hb hconst).trans hcast)).congr ?_
      rw [Exp.kindsFit, Bool.and_eq_true, hint, and_true]
  | .arith op a b, s, t, v, h, hn, hk => by
    obtain ⟨x, u, y, w, hx, hy, h⟩ := genExp_arith_ok.mp h
    obtain ⟨hfit, hconst⟩ := operands_fitting (genExp_fitting a) (genExp_fitting b) hx hy hn hk
    exact (hfit (createBinOp_fitting h hconst)).congr (by simp [Exp.kindsFit, Exp.intFits])
  | .cmp p a b, s, t, v, h, hn, hk => by
    obtain ⟨x, u, y, w, c, k, hx, hy, hc, h⟩ := genExp_cmp_ok.mp h
    obtain ⟨hfit, hconst⟩ := operands_fitting (genExp_fitting a) (genExp_fitting b) hx hy hn hk
    have hcast : Fitting ts True k t := createIntCast_fitting h (createICmp_ty hc)
    exact ((hfit (createICmp_fitting hc hconst)).trans hcast).congr (by simp [Exp.kindsFit, Exp.intFits])
  | .land a b, s, t, v, h, hn, hk => by
    obtain ⟨lv, rv, w, c, k, hops, hc, h⟩ := genExp_land_ok.mp h
    obtain ⟨hfit, hl, hr⟩ := logicalOperands_fitting (genExp_fitting a) (genExp_fitting b) hops hn hk
    obtain ⟨hsel, hty⟩ := createSelect_fitting ts hc hl hr rfl
    refine (hfit.trans (hsel.trans (createIntCast_fitting h hty))).congr ?_
    simp [Exp.kindsFit, Exp.intFits]
  | .lor a b, s, t, v, h, hn, hk => by
    obtain ⟨lv, rv, w, c, k, hops, hc, h⟩ := genExp_lor_ok.mp h
    obtain ⟨hfit, hl, hr⟩ := logicalOperands_fitting (genExp_fitting a) (genExp_fitting b) hops hn hk
    obtain ⟨hsel, hty⟩ := createSelect_fitting ts hc hl rfl hr
    refine (hfit.trans (hsel.trans (createIntCast_fitting h hty))).congr ?_
    simp [Exp.kindsFit, Exp.intFits]

theorem genExps_fitting : ∀ (es : List Exp) {s t : State} {vs : List Value}, genExps es s = .ok vs t →
    s.namedValues ≠ [] → Knows ts s → Fitting ts (argsKindsFit s.kinds es = true) s t ∧
      es.map (·.kind s.kinds) = vs.map fun v => some (kindOf v.ty)
  | [], s, t, vs, h, _, _ => by
    obtain ⟨rfl, rfl⟩ := genExps_nil_ok.mp h
    exact ⟨.refl rfl, rfl⟩
  | e :: es, s, t, vs, h, hn, hk => by
    obtain ⟨x, u, xs, hx, hxs, rfl⟩ := genExps_cons_ok.mp h
    obtain ⟨is, e₁⟩ := genExp_emits e hx
    obtain ⟨hfit, hkinds⟩ := genExps_fitting es hxs (by rw [e₁.namedValues]; exact hn) (hk.emits e₁)
    rw [e₁.kinds] at hfit hkinds
    refine ⟨((genExp_fitting e hx hn hk).trans hfit).congr ?_, ?_⟩
    · rw [argsKindsFit, Bool.and_eq_true]
    · rw [List.map_cons, List.map_cons, genExp_kind e hx hn, hkinds]

end

theorem codeGenExp_fitting {e : ExprNode} (h : codeGenExp e s = .ok v t) (hn : s.namedValues ≠ []) (hk : Knows ts s) :
    Fitting ts (e.core.kindsFit s.kinds = true) s t ∧ ((e.core.kind s.kinds == some .int) = true ↔ v.ty = .i64) := by
  rw [codeGenExp_core] at h
  exact ⟨genExp_fitting e.core h hn hk, genExp_intKind h hn⟩

/-- A value that something needs which takes integers. -/
theorem codeGenExp_intFitting {e : ExprNode} (h : codeGenExp e s = .ok v t) (hn : s.namedValues ≠ []) (hk : Knows ts s)
    (hu : Fitting ts (v.ty = .i64) t u) : Fitting ts (e.core.intFits s.kinds = true) s u := by
  obtain ⟨hfit, hint⟩ := codeGenExp_fitting h hn hk
  refine (hfit.trans hu).congr ?_
  rw [Exp.intFits, Bool.and_eq_true, hint]

/-! ### Definitions -/

/-- The initial values from number `idx` on, of which a definition has `n`. -/
def initFitsFrom (k : Kinds) (init : Option InitValNode) (idx n : Nat) : Bool :=
  ((((init.map InitValNode.exps).getD []).drop idx).take n).all fun e => e.core.intFits k

theorem initFitsFrom_succ (k : Kinds) (init : Option InitValNode) (idx n : Nat) : initFitsFrom k init idx (n + 1) =
    ((((init.map InitValNode.exps).getD [])[idx]?.all fun e => e.core.intFits k) && initFitsFrom k init (idx + 1) n) :=
    by
  unfold initFitsFrom
  cases hi : ((init.map InitValNode.exps).getD [])[idx]? with
  | none =>
    have hlen := List.getElem?_eq_none_iff.mp hi
    rw [List.drop_eq_nil_of_le hlen, List.drop_eq_nil_of_le (Nat.le_succ_of_le hlen)]
    simp
  | some e =>
    obtain ⟨hlt, rfl⟩ := List.getElem?_eq_some_iff.mp hi
    rw [List.drop_eq_getElem_cons hlt, List.take_succ_cons, List.all_cons, Option.all_some]

variable (ts) in
/-- One initial value: an expression, a character, or zero. -/
theorem initVal_fitting {init : Option InitValNode} {idx : Nat} (h : initVal init idx s = .ok v t)
    (hn : s.namedValues ≠ [])
    (hk : Knows ts s) : ∃ p, Fitting ts p s t ∧ (p ∧ v.ty = .i64 ↔
      (((init.map InitValNode.exps).getD [])[idx]?.all fun e => e.core.intFits s.kinds) = true) := by
  rcases initVal_ok.mp h with ⟨rfl, rfl, hlen⟩ | ⟨n, c, rfl, hexps, -, rfl, rfl⟩ | ⟨n, e, rfl, he, hv⟩
  · refine ⟨True, .refl trivial, ?_⟩
    have hnone : ((init.map InitValNode.exps).getD [])[idx]? = none := by
      cases init with
      | none => rfl
      | some n => exact List.getElem?_eq_none (Nat.le_trans (Nat.le_max_left _ _) (hlen n rfl))
    rw [hnone]
    exact ⟨fun _ => rfl, fun _ => ⟨trivial, rfl⟩⟩
  · refine ⟨True, .refl trivial, ?_⟩
    rw [Option.map_some, Option.getD_some, hexps]
    exact ⟨fun _ => rfl, fun _ => ⟨trivial, rfl⟩⟩
  · obtain ⟨hfit, hint⟩ := codeGenExp_fitting hv hn hk
    refine ⟨_, hfit, ?_⟩
    rw [Option.map_some, Option.getD_some, he, Option.all_some, Exp.intFits, Bool.and_eq_true, hint]

variable (ts) in
theorem initVals_fitting {init : Option InitValNode} : ∀ {n idx : Nat} {s t : State} {vs : List Value},
    initVals init idx n s = .ok vs t → s.namedValues ≠ [] → Knows ts s →
    ∃ p, Fitting ts p s t ∧ ((p ∧ ∀ v ∈ vs, v.ty = .i64) ↔ initFitsFrom s.kinds init idx n = true)
  | 0, idx, s, t, vs, h, _, _ => by
    obtain ⟨rfl, rfl⟩ := initVals_zero_ok.mp h
    refine ⟨True, .refl trivial, ?_⟩
    simp [initFitsFrom]
  | n + 1, idx, s, t, vs, h, hn, hk => by
    obtain ⟨v, w, ws, hv, hws, rfl⟩ := initVals_cons_ok.mp h
    obtain ⟨is, e⟩ := initVal_emits hv
    obtain ⟨p, hfit, hp⟩ := initVal_fitting ts hv hn hk
    obtain ⟨q, hfits, hq⟩ := initVals_fitting hws (by rw [e.namedValues]; exact hn) (hk.emits e)
    rw [e.kinds] at hq
    refine ⟨_, hfit.trans hfits, ?_⟩
    rw [initFitsFrom_succ, Bool.and_eq_true, ← hp, ← hq, List.forall_mem_cons]
    tauto

omit [ConstantFolder] in
theorem store_fit {ptr : Value} (h : pointsTo ptr v.ty = true ↔ v.ty = .i64) :
    OperandsFit ts (.store v ptr) ↔ v.ty = .i64 := by
  simp only [OperandsFit, h]
  constructor
  · exact fun h => h.1
  · exact fun h => ⟨h, Or.inl h⟩

omit [ConstantFolder] in
theorem pointsTo_element {r : Reg} {ty : Ty} : pointsTo (.inst r .ptr) ty = true ↔ ty = .i64 := by simp [pointsTo]

omit [ConstantFolder] in
theorem beginsWith_int {ty : Ty} : beginsWith .i64 ty = true ↔ ty = .i64 := by
  rw [beginsWith_scalar (by simp), eq_comm]

omit [ConstantFolder] in
theorem elementStores_fit {a : AllocaInst} (ha : kindOf a.ty = .array) : ∀ {vs : List Value} {idx r : Nat},
    (∀ i ∈ elementStores a idx r vs, OperandsFit ts i) ↔ ∀ v ∈ vs, v.ty = .i64
  | [], _, _ => by simp [elementStores]
  | v :: vs, idx, r => by
    obtain ⟨n, elt, hty⟩ := kindOf_eq_array.mp ha
    have hgep : OperandsFit ts (.gep r a.ty a.value [.const (.int 0), .const (.int (.ofNat 64 idx))]) := by
      simp [hty, OperandsFit, pointsTo, beginsWith_self, AllocaInst.value, Value.ty, Const.ty]
    rw [elementStores, List.forall_mem_cons, List.forall_mem_cons, List.forall_mem_cons, elementStores_fit ha,
      store_fit pointsTo_element]
    exact and_iff_right hgep

end Fitting

section Definitions
variable {ts : Types} {func base entry : Nat} {s t u : State} {p : Prop}

/-- All operands in the blocks from `entry` on fit, and all names so far are used as they are declared. -/
def FitsFrom (ts : Types) (entry : Label) (s : State) : Prop :=
  AllFrom (OperandsFit ts) entry s ∧ ∀ ev ∈ s.trace, ev.Fits ts

theorem Fitting.fitsFrom (h : Fitting ts p s t) (hs : Prologue func entry s) :
    FitsFrom ts entry t ↔ FitsFrom ts entry s ∧ p := by
  obtain ⟨is, evs, e, ht, h⟩ := h
  rw [FitsFrom, FitsFrom, e.allFrom hs.inserts, ht, List.forall_mem_append, ← h]
  tauto

/-- A step in which names are only read as a whole, and defined. -/
theorem fitsFrom_step {evs : List ScopeEvent} (ht : t.trace = s.trace ++ evs) (he : ∀ ev ∈ evs, ev.Fits ts)
    (ha : AllFrom (OperandsFit ts) entry t ↔ AllFrom (OperandsFit ts) entry s ∧ p) :
    FitsFrom ts entry t ↔ FitsFrom ts entry s ∧ p := by
  rw [FitsFrom, FitsFrom, ha, ht, List.forall_mem_append, and_iff_left he, and_right_comm]

theorem fitsFrom_log {ev : ScopeEvent} (he : ev.Fits ts) : FitsFrom ts entry (s.log ev) ↔ FitsFrom ts entry s := by
  have ht : (s.log ev).trace = s.trace ++ [ev] := rfl
  rw [FitsFrom, FitsFrom, ht, List.forall_mem_append, List.forall_mem_singleton, and_iff_left he]
  exact Iff.rfl

theorem fitsFrom_append {is : List Inst} (hs : Inserts entry s) :
    FitsFrom ts entry (s.append is) ↔ FitsFrom ts entry s ∧ ∀ i ∈ is, OperandsFit ts i :=
  fitsFrom_step ((State.append_trace s is).trans (List.append_nil _).symm) (by simp) (allFrom_append hs)

theorem fitsFrom_brUnlessBranch {ip : InsertPoint} {target : Label} (hs : Inserts entry s) :
    FitsFrom ts entry (s.brUnlessBranch ip target) ↔ FitsFrom ts entry s := by
  have ht : (s.brUnlessBranch ip target).trace = s.trace := by
    unfold State.brUnlessBranch
    split
    · split
      · rfl
      · exact State.append_trace s _
    · exact State.append_trace { s with emptyBack := true } _
  rw [FitsFrom, FitsFrom, allFrom_brUnlessBranch hs trivial, ht]

variable [ConstantFolder]

theorem createDefineValueInst_trace {vals : List Value} {size : Option Value} {isPtr : Bool} {a : AllocaInst}
    (h : createDefineValueInst vals size isPtr s = .ok a t) : t.trace = s.trace := by
  obtain ⟨ip, w, -, hw, h⟩ := createDefineValueInst_ok h
  obtain ⟨l, -, -, -, rfl⟩ := createEntryBlockAlloca_step hw
  rcases h with ⟨-, v, -, rfl⟩ | ⟨-, rfl⟩ <;> exact State.append_trace _ _

omit [ConstantFolder] in
theorem fitsFrom_define {x : String} {ty : ValType} {nv : NamedValue} {a : AllocaInst} (ht : t.trace = s.trace)
    (ha : AllFrom (OperandsFit ts) entry t ↔ AllFrom (OperandsFit ts) entry s ∧ p) :
    FitsFrom ts entry ((t.bind x nv).log (.define x ty (.local a))) ↔ FitsFrom ts entry s ∧ p := by
  have htrace : ((t.bind x nv).log (.define x ty (.local a))).trace = s.trace ++ [.define x ty (.local a)] := by
    rw [← ht]
    rfl
  exact fitsFrom_step htrace (by simp [ScopeEvent.Fits]) ha

/-- The value of a variable, or of a parameter. -/
theorem defineScalar_fitting {x : String} {ty : ValType} {v : Value} {isPtr : Bool} (hs : Prologue func entry s)
    (hf : InFunc func s) (h : defineValue x ty [v] none isPtr s = .ok () t) : FitsFrom ts entry t ↔
      FitsFrom ts entry s ∧
        OperandsFit ts (.store v (.alloca s.nextSlot (if isPtr then .ptr else .i64))) := by
  rcases defineValue_ok h with ⟨hn, -⟩ | ⟨layer, outer, a, w, hn, -, hw, rfl⟩
  · exact absurd hn hf.layers
  · refine fitsFrom_define (createDefineValueInst_trace hw) ?_
    obtain ⟨p, w', hp, hw', ⟨-, v', hv, rfl⟩ | ⟨hne, -⟩⟩ := createDefineValueInst_ok hw
    · obtain ⟨e, he, ⟨-, rfl, rfl⟩ | ⟨_, _, hsize, -⟩⟩ := createEntryBlockAlloca_ok.mp hw'
      · obtain ⟨l, hl, -, -⟩ := hs.point
        obtain rfl := Option.some.inj (hp.symm.trans hl)
        obtain rfl := Option.some.inj (he.symm.trans hs.head)
        obtain rfl := Option.some.inj hv
        have hins : Inserts e (s.emitAlloca e (if isPtr then .ptr else .i64) none) := hs.inserts
        rw [allFrom_append hins, allFrom_emitAlloca, List.forall_mem_singleton]
        simp only [OperandsFit, and_true, AllocaInst.value]
      · cases hsize
    · exact absurd rfl hne

/-- The elements of an array. -/
theorem defineArray_fitting {x : String} {ty : ValType} {vals : List Value} {size : Value} (hs : Prologue func entry s)
    (hf : InFunc func s) (h : defineValue x ty vals (some size) false s = .ok () t) :
    FitsFrom ts entry t ↔ FitsFrom ts entry s ∧ size.ty = .i64 ∧ ∀ v ∈ vals, v.ty = .i64 := by
  rcases defineValue_ok h with ⟨hn, -⟩ | ⟨layer, outer, a, w, hn, -, hw, rfl⟩
  · exact absurd hn hf.layers
  · refine fitsFrom_define (createDefineValueInst_trace hw) ?_
    obtain ⟨p, w', hp, hw', ⟨hne, -⟩ | ⟨-, rfl⟩⟩ := createDefineValueInst_ok hw
    · cases hne
    · have hkind : kindOf a.ty = .array := createEntryBlockAlloca_kind hw'
      obtain ⟨e, he, -, -, rfl⟩ := createEntryBlockAlloca_step hw'
      obtain ⟨l, hl, -, -⟩ := hs.point
      obtain rfl := Option.some.inj (hp.symm.trans hl)
      obtain rfl := Option.some.inj (he.symm.trans hs.head)
      have hins : Inserts e (s.emitAlloca e a.ty (some size)) := hs.inserts
      have hstores : AllFrom (OperandsFit ts) e ((s.emitAlloca e a.ty (some size)).appendRegs
          (elementStores a 0 (s.emitAlloca e a.ty (some size)).nextReg vals) vals.length) ↔ _ := allFrom_append hins
      rw [hstores, allFrom_emitAlloca, elementStores_fit hkind, and_assoc]
      rfl

theorem Def.gen_fitting {d : Def} (hf : InFunc func s) (hs : Prologue func entry s) (hk : Knows ts s)
    (h : d.gen s = .ok () t) : FitsFrom ts entry t ↔
      FitsFrom ts entry s ∧ d.kindsFit s.kinds = true := by
  obtain ⟨size, vs, w, hi, h⟩ := codeGenDef_ok.mp h
  obtain ⟨is, em⟩ := hi.emits
  have hfw := hf.emits em
  have hsw := hs.emits em
  unfold Def.kindsFit
  cases hd : d.exp with
  | none =>
    rw [hd] at hi
    obtain ⟨rfl, hi⟩ := hi
    rcases getInitVals_ok.mp hi with ⟨-, hi⟩ | ⟨_, _, hsize, -⟩
    · obtain ⟨p, hfit, hp⟩ := initVals_fitting ts hi hf.layers hk
      obtain ⟨v, rfl⟩ := List.length_eq_one_iff.mp (initVals_length hi)
      rw [List.forall_mem_singleton] at hp
      have hpoint : pointsTo (.alloca w.nextSlot (if false = true then .ptr else .i64)) v.ty = true ↔ v.ty = .i64 :=
        beginsWith_int
      rw [defineScalar_fitting hsw hfw h, hfit.fitsFrom hs, and_assoc, store_fit hpoint, hp]
      rfl
    · cases hsize
  | some e =>
    rw [hd] at hi
    obtain ⟨sz, rfl⟩ : ∃ sz, size = some sz := by
      obtain ⟨sz, _, rfl, -, -⟩ := hi
      exact ⟨sz, rfl⟩
    obtain ⟨n, hn, -, hvals⟩ := genInit_const_size hf hi
    obtain ⟨p, hfit, hp⟩ := initVals_fitting ts hvals hf.layers hk
    obtain ⟨sz', w', hsz, he, -⟩ := hi
    obtain rfl := Option.some.inj hsz
    obtain ⟨c, rfl⟩ := sextValue?_const hn
    have hty : (Value.const c).ty = .i64 := genExp_const_ty hf.layers (codeGenExp_core e ▸ he)
    have hlit : e.core.intFits s.kinds = true := by
      rcases codeGenExp_folds hf.layers he with ⟨hl, -⟩ | ⟨-, hc, -⟩
      · exact Exp.intFits_of_literal hl
      · cases hc
    rw [defineArray_fitting hsw hfw h, hfit.fitsFrom hs, and_assoc, and_iff_right hty, hp]
    simp only [hlit, Bool.true_and]
    rfl

theorem defs_fitting : ∀ {ds : List Def} {s t : State}, InFunc func s → Prologue func entry s → Knows ts s →
    ds.forM Def.gen s = .ok ⟨⟩ t → (FitsFrom ts entry t ↔
      FitsFrom ts entry s ∧ defsKindsFit ds s.kinds = true)
  | [], s, t, _, _, _, h => by
    obtain rfl := forM_nil_ok.mp h
    simp [defsKindsFit]
  | d :: ds, s, t, hf, hs, hk, h => by
    obtain ⟨w, hd, h⟩ := forM_cons_ok.mp h
    obtain ⟨r, hdef⟩ := Def.gen_run entry hf hd
    rw [defs_fitting (hf.run r hdef.layers) (r.prologue (Nat.le_refl _) hs) (hk.run r) h, Def.gen_fitting hf hs hk hd,
      Def.gen_kinds hf hd, defsKindsFit, Bool.and_eq_true, and_assoc]

end Definitions

/-! ### Statements -/

section Assignments
variable {ts : Types} {s t u : State} {v : Value}

variable [ConstantFolder]

theorem getValue_not_arg {x : String} {sub : Option Value} (h : getValue x sub s = .ok v t) :
    isPointerArg v = false := by
  rcases getValue_ok h with ⟨nv, -, h⟩ | ⟨-, h⟩
  · rcases createGetValueInst_ok h with ⟨-, -, rfl, -⟩ | ⟨-, -, rfl, -⟩ | ⟨_, _, _, -, -, rfl, -⟩ <;> rfl
  · obtain ⟨g, -, ⟨-, -, ⟨c, -, rfl⟩, -⟩ | ⟨-, -, rfl, -⟩ | ⟨_, _, _, -, -, rfl, -⟩⟩ := getGlobalValue_ok h <;> rfl

theorem createBinOp_not_arg {op : BinOp} {x y : Value} (h : createBinOp op x y s = .ok v t) :
    isPointerArg v = false := by
  rcases createBinOp_ok.mp h with ⟨_, _, -, -, rfl, -⟩ | ⟨-, rfl, -⟩ <;> rfl

theorem createICmp_not_arg {pred : Pred} {x y : Value} (h : createICmp pred x y s = .ok v t) :
    isPointerArg v = false := by
  rcases createICmp_ok.mp h with ⟨_, _, -, -, rfl, -⟩ | ⟨-, rfl, -⟩ <;> rfl

theorem createSelect_not_arg {c x y : Value} (h : createSelect c x y s = .ok v t) : isPointerArg v = false := by
  rcases createSelect_ok.mp h with ⟨_, _, _, -, -, -, rfl, -⟩ | ⟨-, rfl, -⟩ <;> rfl

theorem createIntCast_not_arg {x : Value} (h : createIntCast x s = .ok v t) (hx : isPointerArg x = false) :
    isPointerArg v = false := by
  rcases createIntCast_ok.mp h with ⟨-, rfl, -⟩ | ⟨-, ⟨_, -, rfl, -⟩ | ⟨-, rfl, -⟩⟩
  · exact hx
  · rfl
  · rfl

/-- No expression gives an argument itself: the parameters have been stored. -/
theorem genExp_not_arg (e : Exp) {s t : State} {v : Value} (h : genExp e s = .ok v t) : isPointerArg v = false := by
  cases e with
  | number n =>
    rw [genExp] at h
    obtain ⟨rfl, -⟩ := pure_ok.mp h
    rfl
  | name x =>
    rw [genExp] at h
    exact getValue_not_arg h
  | index x e =>
    obtain ⟨i, u, -, h⟩ := genExp_index_ok.mp h
    exact getValue_not_arg h
  | call f args =>
    obtain ⟨func, vs, u, -, -, -, rfl, -⟩ := genExp_call_ok.mp h
    rfl
  | unary op e =>
    obtain ⟨x, u, hx, h⟩ := genExp_unary_ok.mp h
    cases op with
    | plus =>
      obtain ⟨rfl, -⟩ := h
      exact genExp_not_arg e hx
    | minus => exact createBinOp_not_arg h.2
    | not =>
      obtain ⟨b, w, hb, h⟩ := h
      exact createIntCast_not_arg h (createICmp_not_arg hb)
  | arith op a b =>
    obtain ⟨x, u, y, w, -, -, h⟩ := genExp_arith_ok.mp h
    exact createBinOp_not_arg h
  | cmp p a b =>
    obtain ⟨x, u, y, w, c, k, -, -, hc, h⟩ := genExp_cmp_ok.mp h
    exact createIntCast_not_arg h (createICmp_not_arg hc)
  | land a b =>
    obtain ⟨lv, rv, w, c, k, -, hc, h⟩ := genExp_land_ok.mp h
    exact createIntCast_not_arg h (createSelect_not_arg hc)
  | lor a b =>
    obtain ⟨lv, rv, w, c, k, -, hc, h⟩ := genExp_lor_ok.mp h
    exact createIntCast_not_arg h (createSelect_not_arg hc)

/-- What the target of an assignment must be. -/
def TargetFits (k : Kinds) (x : String) : Option Value → Prop
  | none => k.scalar x = true
  | some i => i.ty = .i64 ∧ k.ElementFits x i (some .i64)

omit [ConstantFolder] in
/-- A store of an integer, where something else than an argument is stored. -/
theorem store_fit_iff {ptr : Value} {q : Prop} (hv : isPointerArg v = false)
    (h : v.ty = .i64 → (pointsTo ptr v.ty = true ↔ q)) : OperandsFit ts (.store v ptr) ↔ v.ty = .i64 ∧ q := by
  simp only [OperandsFit, hv, Bool.false_eq_true, or_false]
  constructor
  · exact fun hfit => ⟨hfit.2, (h hfit.2).mp hfit.1⟩
  · exact fun hfit => ⟨(h hfit.1).mpr hfit.2, hfit.1⟩

/-- An assignment: an integer for an integer variable, or for an element. -/
theorem setValue_fitting {x : String} {sub : Option Value} (h : setValue x v sub s = .ok () t) (hn : s.namedValues ≠ [])
    (hk : Knows ts s) (hsub : ∀ c, sub = some (.const c) → c.ty = .i64) (hv : isPointerArg v = false) :
    Fitting ts (v.ty = .i64 ∧ TargetFits s.kinds x sub) s t := by
  -- A local variable is assigned through its storage or through an element of it, a global one directly.
  rcases setValue_ok h with ⟨a, hx, h⟩ | ⟨hx, h⟩
  · have hlocal : s.kinds.local? x = some (kindOf a.ty) := by rw [kinds_local?, hx, Option.map_some]; rfl
    rcases createSetValueInst_ok h with ⟨rfl, rfl⟩ | ⟨i, p, w, rfl, hp, rfl⟩
    · have hev : (ScopeEvent.assign x false (s.storage? x)).Fits ts ↔ a.ty = .i64 := by
        rw [storage?_local hx]
        simp [ScopeEvent.Fits, Storage.Scalar, NamedValue.alloca]
      refine ((Fitting.log hev).trans (.store Iff.rfl)).congr ?_
      rw [TargetFits, Kinds.scalar, hlocal]
      simp only [beq_iff_eq, kindOf_eq_int]
      rw [and_comm]
      refine and_congr_left fun hty => ?_
      have hpoint : pointsTo a.value v.ty = true ↔ v.ty = .i64 := by
        rw [AllocaInst.value, hty]
        exact beginsWith_int
      exact store_fit hpoint
    · obtain ⟨hfit, hpoint⟩ := elementPtr_fitting ts hp
      have hev : (ScopeEvent.assign x true (s.storage? x)).Fits ts ↔ kindOf a.ty = .array ∨ kindOf a.ty = .pointer := by
        rw [storage?_local hx]
        simp [ScopeEvent.Fits, Storage.Indexed, NamedValue.alloca]
      have hstore : OperandsFit ts (.store v p) ↔ v.ty = .i64 := store_fit (by simp [hpoint])
      refine ((Fitting.log hev).trans (hfit.trans (.store hstore))).congr ?_
      simp only [TargetFits, Kinds.ElementFits, hlocal]
      tauto
  · have hlocal : s.kinds.local? x = none := by rw [kinds_local?, hx, Option.map_none]
    obtain ⟨g, hg, ⟨-, hn', -⟩ | ⟨rfl, -, rfl⟩ | ⟨i, p, w, rfl, hp, rfl⟩⟩ := setGlobalValue_ok h
    -- Outside of functions nothing is assigned.
    · exact absurd hn' hn
    · have hg : s.global? x = some g := hg
      have hgk : s.kinds.global? x = some g := hg
      have hev : (ScopeEvent.assign x false (s.storage? x)).Fits ts ↔ g.valueTy = .i64 := by
        rw [storage?_global hx hg]
        simp [ScopeEvent.Fits, Storage.Scalar, hk.type? hg]
      refine ((Fitting.log hev).trans ((Fitting.emit ⟨rfl, rfl⟩ Iff.rfl).trans (.store Iff.rfl))).congr ?_
      simp only [TargetFits, Kinds.scalar, hlocal, hgk, Option.any_some, beq_iff_eq]
      rw [and_comm]
      refine and_congr_left fun hty => ?_
      have hload : OperandsFit ts (.load s.nextReg g.valueTy (.const (.global g.name g.valueTy))) := beginsWith_self _
      have hpoint : pointsTo (.const (.global g.name g.valueTy)) v.ty = true ↔ v.ty = .i64 := by
        rw [hty]
        exact beginsWith_int
      exact (and_iff_right hload).trans (store_fit hpoint)
    · have hg : s.global? x = some g := hg
      have hgk : s.kinds.global? x = some g := hg
      have hev : (ScopeEvent.assign x true (s.storage? x)).Fits ts ↔ kindOf g.valueTy = .array := by
        rw [storage?_global hx hg]
        simp [ScopeEvent.Fits, Storage.Indexed, hk.type? hg]
      have hstore : Fitting ts (v.ty = .i64 ∧ pointsTo p .i64 = true) w (w.append [.store v p]) :=
        .store (store_fit_iff hv fun hvty => by rw [hvty])
      -- Only a subscript that leaves the address at the first element gives it the type of an element.
      refine (globalElement_fitting hev hp hstore).congr (and_congr_right fun _ => ?_)
      simp only [TargetFits, Kinds.ElementFits, hlocal, hgk, Option.getD_some]
      constructor
      · rintro ⟨harray, c, rfl, hpoint⟩
        exact ⟨hsub c rfl, g, c, rfl, harray, rfl, hpoint⟩
      · rintro ⟨-, g', c, hg', harray, rfl, hpoint⟩
        cases hg'
        exact ⟨harray, c, rfl, hpoint⟩

theorem codeGenStmt_assign_fitting {x : String} {sub : Option ExprNode} {e : ExprNode} (hn : s.namedValues ≠ [])
    (hk : Knows ts s) (h : codeGenStmt (.assign x sub e) s = .ok () t) :
    Fitting ts ((StmtNode.assign x sub e).kindsFit s.kinds = true) s t := by
  obtain ⟨v, w, idx, k, hv, hidx, hset⟩ := codeGenStmt_assign_ok.mp h
  obtain ⟨is, e₁⟩ := codeGenExp_emits hv
  obtain ⟨hfit, hint⟩ := codeGenExp_fitting hv hn hk
  have harg : isPointerArg v = false := genExp_not_arg e.core (codeGenExp_core e ▸ hv)
  have hnw : w.namedValues ≠ [] := by rw [e₁.namedValues]; exact hn
  obtain ⟨js, e₂⟩ := codeGenSubIdx_emits hidx
  have hconst : ∀ c, idx = some (.const c) → c.ty = .i64 := by
    rintro c rfl
    rcases codeGenSubIdx_ok.mp hidx with ⟨-, hnone, -⟩ | ⟨e', i, -, hc, hi⟩
    · cases hnone
    · obtain rfl := Option.some.inj hc
      exact genExp_const_ty hnw (codeGenExp_core e' ▸ hi)
  have hset := setValue_fitting hset (by rw [e₂.namedValues]; exact hnw) ((hk.emits e₁).emits e₂) hconst harg
  rw [e₂.kinds, e₁.kinds] at hset
  rw [StmtNode.kindsFit, Exp.intFits]
  rcases codeGenSubIdx_ok.mp hidx with ⟨rfl, rfl, rfl⟩ | ⟨e', i, rfl, rfl, hi⟩
  · refine (hfit.trans hset).congr ?_
    simp only [TargetFits, targetFits, Bool.and_eq_true, hint]
    tauto
  · have helement : s.kinds.ElementFits x i (some .i64) ↔ s.kinds.elementFits x e'.core (some .i64) = true := by
      rw [codeGenExp_core] at hi
      exact elementFits_iff hi hnw
    obtain ⟨hfit', hint'⟩ := codeGenExp_fitting hi hnw (hk.emits e₁)
    rw [e₁.kinds] at hfit' hint'
    refine (hfit.trans (hfit'.trans hset)).congr ?_
    simp only [TargetFits, targetFits, Exp.intFits, Bool.and_eq_true, helement, hint, hint']
    tauto

end Assignments

/-! ### Control flow -/

section Control
variable {ts : Types} {func base entry : Nat} {s t : State} {v c : Value} {p q : Prop}

variable [ConstantFolder]

/-- A condition, and its comparison with zero. -/
theorem cond_fitting {e : ExprNode} {s₁ : State} (hv : codeGenExp e s = .ok v s₁) (hc : intToBoolean v s₁ = .ok c t)
    (hn : s.namedValues ≠ []) (hk : Knows ts s) : Fitting ts (e.core.intFits s.kinds = true) s t ∧ c.ty = .i1 := by
  refine ⟨codeGenExp_intFitting hv hn hk (compareZero_fitting hc ?_), createICmp_ty hc⟩
  rintro k rfl
  exact genExp_const_ty hn (codeGenExp_core e ▸ hv)

omit [ConstantFolder] in
theorem fitsFrom_condBr {l m : Label} (hs : Inserts entry s) (hc : c.ty = .i1) :
    FitsFrom ts entry (s.append [.condBr c l m]) ↔ FitsFrom ts entry s :=
  (fitsFrom_append hs).trans (and_iff_left (List.forall_mem_singleton.mpr hc))

omit [ConstantFolder] in
theorem fitsFrom_br {l : Label} (hs : Inserts entry s) :
    FitsFrom ts entry (s.append [.br l]) ↔ FitsFrom ts entry s :=
  (fitsFrom_append hs).trans (and_iff_left (List.forall_mem_singleton.mpr trivial))

theorem IfRun.fitting {e : ExprNode} {thenStmt : StmtNode} {elseStmt : Option StmtNode} {s₁ s₂ s₃ s₄ : State}
    {k r : InsertPoint} (h : IfRun func e thenStmt elseStmt s v s₁ c s₂ s₃ k s₄ r t) (hs : Prologue func entry s)
    (hn : s.namedValues ≠ []) (hk : Knows ts s)
    (iha : FitsFrom ts entry s₃ ↔ FitsFrom ts entry (s₂.thenStart func c) ∧ p)
    (ihb : FitsFrom ts entry s₄ ↔ FitsFrom ts entry
      ((s₃.brUnlessBranch k (s₂.nextLabel + 2)).enter func (s₂.nextLabel + 1)) ∧ q) :
    FitsFrom ts entry t ↔
      FitsFrom ts entry s ∧ (e.core.intFits s.kinds = true ∧ p) ∧ q := by
  obtain ⟨is, em⟩ := h.emits
  have hle := Nat.le_of_lt hs.entry_lt
  have hs₂ : Inserts entry s₂.newBlocks := (hs.emits em).inserts
  have hs₃ := h.thenRun.prologue (by omega) (h.start.prologue hle hs)
  have hs₄ := h.elseRun.prologue (by omega) (h.else_prologue hs)
  obtain ⟨hcond, hty⟩ := cond_fitting h.cond h.bool hn hk
  have hstart : FitsFrom ts entry (s₂.thenStart func c) ↔ FitsFrom ts entry s₂ :=
    fitsFrom_condBr hs₂ hty
  have helse : FitsFrom ts entry ((s₃.brUnlessBranch k (s₂.nextLabel + 2)).enter func
      (s₂.nextLabel + 1)) ↔ FitsFrom ts entry s₃ := fitsFrom_brUnlessBranch hs₃.inserts
  have hmerge : FitsFrom ts entry t ↔ FitsFrom ts entry s₄ := by
    rw [h.result]
    exact fitsFrom_brUnlessBranch hs₄.inserts
  rw [hmerge, ihb, helse, iha, hstart, hcond.fitsFrom hs]
  simp only [and_assoc]

theorem WhileRun.fitting {e : ExprNode} {body : StmtNode} {s₁ s₂ s₃ : State} {k : InsertPoint}
    (h : WhileRun func e body s v s₁ c s₂ s₃ k t) (hs : Prologue func entry s) (hk : Knows ts s)
    (ih : FitsFrom ts entry s₃ ↔ FitsFrom ts entry (s₂.bodyStart func c s.nextLabel) ∧ p) :
    FitsFrom ts entry t ↔ FitsFrom ts entry s ∧ e.core.intFits s.kinds = true ∧ p := by
  obtain ⟨is, em⟩ := h.emits
  have hle := Nat.le_of_lt hs.entry_lt
  have hloop := loopStart_prologue hs
  have hs₂ := hloop.emits em
  have hs₃ := h.bodyRun.prologue (by omega) (h.body_prologue hs)
  have hn : (s.loopStart func).namedValues ≠ [] := by
    rw [loopStart_namedValues]
    exact h.inFunc.layers
  obtain ⟨hcond, hty⟩ := cond_fitting h.cond h.bool hn (hk.run loopStart_run)
  have hjump : FitsFrom ts entry (s.loopStart func) ↔ FitsFrom ts entry s :=
    fitsFrom_br hs.inserts
  have hbody : FitsFrom ts entry (s₂.bodyStart func c s.nextLabel) ↔
      FitsFrom ts entry s₂ := fitsFrom_condBr hs₂.inserts hty
  have hafter : FitsFrom ts entry t ↔ FitsFrom ts entry s₃ := by
    rw [h.result]
    exact fitsFrom_brUnlessBranch hs₃.inserts
  rw [hafter, ih, hbody, hcond.fitsFrom hloop, hjump, loopStart_kinds, and_assoc]

theorem StmtNode.kindsFit_if (e : ExprNode) (a : StmtNode) (b : Option StmtNode) (k : Kinds) :
    (StmtNode.ifStmt e a b).kindsFit k = (e.core.intFits k && a.kindsFit k && (elseBranch b).kindsFit k) := by
  cases b with
  | none => simp [StmtNode.kindsFit, elseBranch]
  | some b => rw [StmtNode.kindsFit, elseBranch, Option.getD_some]

mutual

/-- All operands fit behind a statement if they did before it and the statement uses its names as they are declared. -/
theorem codeGenStmt_fitting : ∀ (st : StmtNode) {s t : State}, InFunc func s → Prologue func entry s →
    Knows ts s → codeGenStmt st s = .ok () t → (FitsFrom ts entry t ↔
      FitsFrom ts entry s ∧ st.kindsFit s.kinds = true)
  | .block items, s, t, hf, hs, hk, hg => by
    obtain ⟨w, hw, rfl⟩ := codeGenStmt_block_ok.mp hg
    have hs' : Prologue func entry (s.pushLayer.log .push) :=
      (GenStep.pushLayer.prologue (Nat.le_refl _) hs).emits (Emits.log _)
    have hf' : InFunc func (s.pushLayer.log .push) := ⟨hf.point, List.cons_ne_nil _ _⟩
    have hrun : GenRun func entry s (s.pushLayer.log .push) := .head .pushLayer (GenRun.emits (.log _))
    have hitems := codeGenBlockItems_fitting items hf' hs' (hk.run hrun) hw
    -- The layer of a block emits nothing.
    have hpush : FitsFrom ts entry (s.pushLayer.log .push) ↔ FitsFrom ts entry s := fitsFrom_log trivial
    have hpop : FitsFrom ts entry (w.popLayer.log .pop) ↔ FitsFrom ts entry w := fitsFrom_log trivial
    rw [hpop, hitems, hpush]
    rfl
  | .ifStmt e a b, s, t, hf, hs, hk, hg => by
    obtain ⟨v, s₁, c, s₂, s₃, q, s₄, r, hr⟩ := codeGenStmt_if_run
      (fun _ _ _ hf hb h => codeGenStmt_run a hf hb h)
      (fun _ _ _ hf hb h => codeGenStmt_elseBranch_run b hf hb h) hf hg
    obtain ⟨ka, kb⟩ := hr.kinds
    have hthen := hr.start.prologue (Nat.le_of_lt hs.entry_lt) hs
    have hkthen := hk.run hr.start
    have iha := codeGenStmt_fitting a hr.thenIn hthen hkthen hr.thenGen
    have ihb := codeGenStmt_elseBranch_fitting b hr.elseIn (hr.else_prologue hs)
      ((hkthen.run hr.thenRun).run hr.middle) hr.elseGen
    -- Neither branch changes what the names of the other one mean.
    rw [ka] at iha
    rw [kb] at ihb
    rw [hr.fitting hs hf.layers hk iha ihb, StmtNode.kindsFit_if, Bool.and_eq_true, Bool.and_eq_true]
  | .whileStmt e body, s, t, hf, hs, hk, hg => by
    obtain ⟨v, s₁, c, s₂, s₃, q, hr⟩ :=
      codeGenStmt_while_run (fun _ _ _ hf hb h => codeGenStmt_run body hf hb h) hf hg
    have ih := codeGenStmt_fitting body hr.bodyIn (hr.body_prologue hs) (hk.run hr.start) hr.bodyGen
    rw [hr.kinds] at ih
    rw [hr.fitting hs hk ih, StmtNode.kindsFit, Bool.and_eq_true]
  | .continueStmt, s, t, _, hs, _, hg => by
    obtain ⟨loop, outer, -, rfl⟩ := codeGenStmt_continue_ok.mp hg
    exact (fitsFrom_br hs.inserts).trans (and_iff_left rfl).symm
  | .breakStmt, s, t, _, hs, _, hg => by
    obtain ⟨loop, outer, -, rfl⟩ := codeGenStmt_break_ok.mp hg
    exact (fitsFrom_br hs.inserts).trans (and_iff_left rfl).symm
  | .ret none, s, t, _, hs, _, hg => by
    obtain rfl := codeGenStmt_retVoid_ok.mp hg
    have hret : ∀ i ∈ [Inst.ret none], OperandsFit ts i := List.forall_mem_singleton.mpr trivial
    exact (fitsFrom_append hs.inserts).trans (and_congr_right fun _ => ⟨fun _ => rfl, fun _ => hret⟩)
  | .ret (some e), s, t, hf, hs, hk, hg => by
    obtain ⟨v, w, hv, rfl⟩ := codeGenStmt_ret_ok.mp hg
    obtain ⟨is, em⟩ := codeGenExp_emits hv
    obtain ⟨hfit, hint⟩ := codeGenExp_fitting hv hf.layers hk
    rw [fitsFrom_append (hs.emits em).inserts, hfit.fitsFrom hs, List.forall_mem_singleton, StmtNode.kindsFit,
      Exp.intFits, Bool.and_eq_true, hint, and_assoc]
    rfl
  | .expr none, s, t, _, _, _, hg => by
    obtain rfl := codeGenStmt_empty_ok.mp hg
    exact (and_iff_left rfl).symm
  | .expr (some e), s, t, hf, hs, hk, hg => by
    obtain ⟨v, hv⟩ := codeGenStmt_expr_ok.mp hg
    rw [StmtNode.kindsFit]
    exact (codeGenExp_fitting hv hf.layers hk).1.fitsFrom hs
  | .assign x sub e, s, t, hf, hs, hk, hg => (codeGenStmt_assign_fitting hf.layers hk hg).fitsFrom hs

theorem codeGenStmt_elseBranch_fitting : ∀ (st : Option StmtNode) {s t : State}, InFunc func s →
    Prologue func entry s → Knows ts s → codeGenStmt (elseBranch st) s = .ok () t →
    (FitsFrom ts entry t ↔
      FitsFrom ts entry s ∧ (elseBranch st).kindsFit s.kinds = true)
  | none, s, t, _, _, _, hg => by
    obtain rfl := codeGenStmt_empty_ok.mp hg
    exact (and_iff_left rfl).symm
  | some st, s, t, hf, hs, hk, hg => codeGenStmt_fitting st hf hs hk hg

theorem codeGenBlockItem_fitting : ∀ (item : BlockItemNode) {s t : State}, InFunc func s → Prologue func entry s →
    Knows ts s → codeGenBlockItem item s = .ok () t → (FitsFrom ts entry t ↔
      FitsFrom ts entry s ∧ item.kindsFit s.kinds = true)
  | .decl d, s, t, hf, hs, hk, hg => by
    rw [codeGenBlockItem_decl, codeGenDecl_defs] at hg
    rw [BlockItemNode.kindsFit]
    exact defs_fitting hf hs hk hg
  | .stmt st, s, t, hf, hs, hk, hg => by
    rw [BlockItemNode.kindsFit]
    exact codeGenStmt_fitting st hf hs hk (codeGenBlockItem_stmt ▸ hg)

theorem codeGenBlockItems_fitting : ∀ (items : List BlockItemNode) {s t : State}, InFunc func s →
    Prologue func entry s → Knows ts s → codeGenBlockItems items s = .ok () t →
    (FitsFrom ts entry t ↔
      FitsFrom ts entry s ∧ itemsKindsFit items s.kinds = true)
  | [], s, t, _, _, _, hg => by
    obtain rfl := codeGenBlockItems_nil_ok.mp hg
    exact (and_iff_left rfl).symm
  | item :: items, s, t, hf, hs, hk, hg => by
    obtain ⟨w, hw, hg⟩ := codeGenBlockItems_cons_ok.mp hg
    obtain ⟨r, d⟩ := codeGenBlockItem_run item hf (Nat.le_of_lt hs.entry_lt) hw
    rw [codeGenBlockItems_fitting items (hf.run r d.layers) (r.prologue (Nat.le_refl _) hs) (hk.run r) hg,
      codeGenBlockItem_fitting item hf hs hk hw, codeGenBlockItem_kinds item hf hw, itemsKindsFit, Bool.and_eq_true,
      and_assoc]

end

end Control

/-! ### Functions -/

section Functions
variable {ts : Types} {func entry : Nat} {s t : State} {node : FuncNode} {d : Def}

variable [ConstantFolder]

theorem Knows.start (h : Knows ts t) (hg : codeGenFunc node s = .ok () t) :
    Knows ts (node.start s) := by
  obtain ⟨s₁, s₂, p, hr⟩ := codeGenFunc_run hg
  have hmap := hr.run.map_functions (g := fun f => (f.name, f.params)) fun _ _ => rfl
  rw [knows_iff] at h ⊢
  rwa [← hmap, ← hr.run.globals]

/-- The kinds where a program begins: those of the library functions. -/
def libraryKinds : Kinds := ⟨[], [], standardLibrary.map fun f => (f.1, kindOf f.2.1, f.2.2.map kindOf), 0⟩

/-- The kinds behind a definition outside all functions. -/
def Kinds.defineGlobal (k : Kinds) (d : Def) : Kinds := { k with globals := k.globals ++ [d.globalVariable k.globals] }

/-- The kinds behind a top-level item. -/
def TopItem.declared : TopItem → Kinds → Kinds
  | .decl d, k => d.defs.foldl Kinds.defineGlobal k
  | .func f, k => { k.inFunc f with locals := k.locals }

/-- No instruction comes from a global declaration. -/
def TopItem.kindsFit : TopItem → Kinds → Bool
  | .decl _, _ => true
  | .func f, k => f.kindsFit k

/-- Each function, with what stands in front of it. -/
def topItemsKindsFit : List TopItem → Kinds → Bool
  | [], _ => true
  | item :: items, k => item.kindsFit k && topItemsKindsFit items (item.declared k)

/-- Each function of the program uses its names as they are declared. -/
def EntryNode.kindsFit (node : EntryNode) : Bool := topItemsKindsFit node.prog.items libraryKinds

/-- What the names stand for in a module. -/
def declaredTypes (m : Module) : Types where
  params? x := (m.functions.find? (·.name == x)).map (·.params)
  type? x := (m.globals.find? (·.name == x)).map (·.valueTy)

/-- All operands of the functions so far fit, and all names are used as they are declared. -/
def State.Fits (ts : Types) (s : State) : Prop :=
  (∀ f ∈ s.functions, ∀ l ∈ f.layout, ∀ i ∈ s.blocks l, OperandsFit ts i) ∧ ∀ ev ∈ s.trace, ev.Fits ts

theorem Def.gen_topKinds (hn : s.namedValues = []) (h : d.gen s = .ok () t) : t.kinds = s.kinds.defineGlobal d := by
  have hg := Def.gen_globalVariable hn h
  obtain ⟨g, tr, -, -, -, rfl, -⟩ := Def.gen_global hn h
  rw [State.kinds, hg]
  rfl

theorem defs_topKinds : ∀ {ds : List Def} {s t : State}, s.namedValues = [] → ds.forM Def.gen s = .ok ⟨⟩ t →
    t.kinds = ds.foldl Kinds.defineGlobal s.kinds
  | [], s, t, _, h => by
    obtain rfl := forM_nil_ok.mp h
    rfl
  | d :: ds, s, t, hn, h => by
    obtain ⟨w, hd, h⟩ := forM_cons_ok.mp h
    have hw := Def.gen_topKinds hn hd
    obtain ⟨g, tr, -, -, -, rfl, -⟩ := Def.gen_global hn hd
    rw [defs_topKinds (by exact hn) h, hw, List.foldl_cons]

/-- The kinds behind an item. -/
theorem codeGenTopItem_kinds {item : TopItem} (hs : Idle s) (h : codeGenTopItem item s = .ok () t) :
    t.kinds = item.declared s.kinds := by
  cases item with
  | decl d =>
    rw [codeGenTopItem, codeGenDecl_defs] at h
    exact defs_topKinds hs.namedValues h
  | func node =>
    obtain ⟨s₁, s₂, p, hr⟩ := codeGenFunc_run h
    have hrun : GenRun s.functions.length (s.nextLabel + 1) s₁ t := by
      rw [hr.result]
      exact hr.bodyRun.trans (GenRun.retUnlessReturn.trans (.head .popLayer (GenRun.emits (.log _))))
    have hlocals : t.kinds.locals = s.kinds.locals := by
      rw [kinds_locals, kinds_locals, (codeGenFunc_idle hs h).namedValues, hs.namedValues]
    rw [hrun.outer_kinds, hr.kinds, hlocals]
    rfl

/-- What an accepted program declares: no two functions have one name, no two global variables have one, and functions
    take integers and pointers. -/
structure State.Declares (s : State) : Prop where
  functions : (s.functions.map (·.name)).Nodup
  globals : (s.globals.map (·.name)).Nodup
  params : ∀ f ∈ s.functions, ∀ ty ∈ f.params, ty = .i64 ∨ ty = .ptr

theorem codeGenTopItem_declares {item : TopItem} (hd : s.Declares) (hs : Idle s)
    (hg : codeGenTopItem item s = .ok () t) :
    t.Declares := by
  obtain ⟨hn, hglobals, hty⟩ := hd
  cases item with
  | decl d =>
    have hdefs : d.defs.forM Def.gen s = .ok ⟨⟩ t := by
      rw [← codeGenDecl_defs]
      exact hg
    obtain ⟨hnodup, -⟩ := defs_globals_nodup hs.namedValues hdefs hglobals
    obtain ⟨gs, tr, rfl, -⟩ := codeGenDecl_global hs.namedValues hg
    exact ⟨hn, hnodup, hty⟩
  | func node =>
    obtain ⟨o, hfs, hname, hparams, -, -⟩ := codeGenFunc_allFrom (P := fun _ => True) hs hg
    obtain ⟨s₁, s₂, p, hr⟩ := codeGenFunc_run hg
    have hfresh : o.name ∉ s.functions.map (·.name) := by
      intro hm
      rw [hname] at hm
      exact uniqueName_not_mem "." s.symbols s.lastUnique node.ident (List.mem_append_left _ hm)
    refine ⟨?_, by rwa [(hr.grows hs).globals], ?_⟩
    · rw [hfs, List.map_append, List.map_singleton]
      refine List.nodup_append.mpr ⟨hn, List.nodup_singleton _, ?_⟩
      intro a ha b hb hab
      rw [List.mem_singleton.mp hb] at hab
      exact hfresh (hab ▸ ha)
    · rw [hfs, List.forall_mem_append, List.forall_mem_singleton]
      refine ⟨hty, fun ty hm => ?_⟩
      rw [hparams] at hm
      obtain ⟨p, -, rfl⟩ := List.mem_map.mp hm
      unfold FParamType.ty
      split
      · exact Or.inr rfl
      · exact Or.inl rfl

omit [ConstantFolder] in
/-- In a list without duplicate keys, the search for a member's key finds it. -/
theorem find?_eq_of_nodup {α : Type} {key : α → String} {l : List α} (hn : (l.map key).Nodup) {a : α} (ha : a ∈ l) :
    l.find? (fun b => key b == key a) = some a := by
  cases hb : l.find? (fun b => key b == key a) with
  | none => exact absurd (beq_self_eq_true (key a)) (List.find?_eq_none.mp hb a ha)
  | some b =>
    have hkey : key b = key a := by simpa using List.find?_some hb
    rw [List.inj_on_of_nodup_map hn (List.mem_of_find?_eq_some hb) ha hkey]

theorem accepts_knows {prog : EntryNode} (h : Accepts prog s) : Knows (declaredTypes s.toModule) s := by
  obtain ⟨hn, hglobals, hty⟩ : s.Declares := accepts_invariant h
    ⟨by decide +kernel, List.nodup_nil, by decide +kernel⟩ codeGenTopItem_declares
  refine ⟨fun f hf => ⟨?_, hty f hf⟩, fun g hg => ?_⟩
  · have hcomp : ((fun g : Function => g.name == f.name) ∘ fun g : FunctionObj => ⟨g.name, g.retTy, g.params,
        g.layout.map fun l => (l, s.blocks l)⟩) = fun g => g.name == f.name := rfl
    have hfind : (s.toModule.functions.find? (·.name == f.name)).map (·.params) = some f.params := by
      rw [State.toModule, List.find?_map, hcomp, find?_eq_of_nodup hn hf]
      rfl
    exact hfind
  · have hfind : (s.toModule.globals.find? (·.name == g.name)).map (·.valueTy) = some g.valueTy := by
      rw [State.toModule, find?_eq_of_nodup hglobals hg]
      rfl
    exact hfind

end Functions

section
attribute [local instance] ConstantFolder.symbolic

end

end L24
