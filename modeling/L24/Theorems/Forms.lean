import L24.Forms
import L24.Theorems.Visits

/-! The forms of expressions are what code generation makes of them: it stops where there is no form, and as the
    static side says. -/

namespace L24
open Ir Relation

/-! ### Outcomes -/

/-- The generator stops with `e`. -/
def StopsWith {α : Type} (m : CG α) (e : Stop) (s : State) : Prop := ∃ u, m s = .error e u

/-- The generator stops with `LogError`. -/
def Logs {α : Type} (m : CG α) (s : State) : Prop := ∃ msg, StopsWith m (.logError msg) s

/-- Where there is no form `m` stops so; otherwise it makes something of that form, by inserting instructions. -/
def Makes {α β : Type} (form : α → β) (m : CG α) (o : Except Stop β) (s : State) : Prop :=
  match o with
  | .error e => StopsWith m e s
  | .ok b => ∃ v u, m s = .ok v u ∧ form v = b ∧ ∃ is, Emits s is u

section Makes
variable {α β γ δ : Type} {form : α → β} {form' : γ → δ} {s t : State} {e : Stop}

theorem StopsWith.bind {m : CG α} {k : α → CG γ} (h : StopsWith m e s) : StopsWith (m >>= k) e s := by
  obtain ⟨u, h⟩ := h
  exact ⟨u, bind_of_error h⟩

theorem StopsWith.of_ok {m : CG α} {k : α → CG γ} {a : α} (h : m s = .ok a t) (hk : StopsWith (k a) e t) :
    StopsWith (m >>= k) e s := by
  obtain ⟨u, hk⟩ := hk
  exact ⟨u, (bind_of_ok h).trans hk⟩

theorem StopsWith.logs_iff {m : CG α} (h : StopsWith m e s) : Logs m s ↔ e.isLogged = true := by
  obtain ⟨u, hu⟩ := h
  constructor
  · rintro ⟨msg, w, h⟩
    obtain ⟨rfl, -⟩ := EStateM.Result.error.inj (hu.symm.trans h)
    rfl
  · intro hl
    cases e with
    | logError msg => exact ⟨msg, u, hu⟩
    | _ => cases hl

theorem StopsWith.not_ok {m : CG α} {a : α} (h : StopsWith m e s) : m s ≠ .ok a t := by
  obtain ⟨u, hu⟩ := h
  rw [hu]
  exact fun h => nomatch h

theorem stops_logError {msg : String} : StopsWith (logError msg : CG α) (.logError msg) s := ⟨s, rfl⟩

theorem Makes.pure (a : α) : Makes form (Pure.pure a : CG α) (.ok (form a)) s := ⟨a, s, rfl, rfl, [], .refl s⟩

theorem Makes.bind {m : CG α} {k : α → CG γ} {o : Except Stop β} {g : β → Except Stop δ} (h : Makes form m o s)
    (hk : ∀ v u is, m s = .ok v u → Emits s is u → Makes form' (k v) (g (form v)) u) :
    Makes form' (m >>= k) (o >>= g) s := by
  cases o with
  | error e => exact StopsWith.bind h
  | ok b =>
    obtain ⟨v, u, hv, rfl, is, e⟩ := h
    have hg := hk v u is hv e
    show Makes form' _ (g (form v)) s
    cases hf : g (form v) with
    | error e =>
      rw [hf] at hg
      exact StopsWith.of_ok hv hg
    | ok d =>
      rw [hf] at hg
      obtain ⟨w, x, hw, hd, js, e'⟩ := hg
      exact ⟨w, x, (bind_of_ok hv).trans hw, hd, _, e.trans e'⟩

theorem Makes.logs_iff {m : CG α} {o : Except Stop β} (h : Makes form m o s) :
    Logs m s ↔ ∃ stop, o = .error stop ∧ stop.isLogged = true := by
  cases o with
  | error stop => simpa using StopsWith.logs_iff h
  | ok b =>
    obtain ⟨v, u, hv, -⟩ := h
    constructor
    · rintro ⟨msg, w, hl⟩
      cases hv.symm.trans hl
    · rintro ⟨stop, ho, -⟩
      cases ho

/-- A step that takes nothing from the static side. -/
theorem Makes.after {m : CG α} {k : α → CG γ} {a : α} {is : List Inst} {o : Except Stop δ} (h : m s = .ok a t)
    (e : Emits s is t) (hk : Makes form' (k a) o t) : Makes form' (m >>= k) o s := by
  cases o with
  | error _ => exact StopsWith.of_ok h hk
  | ok d =>
    obtain ⟨w, x, hw, hd, js, e'⟩ := hk
    exact ⟨w, x, (bind_of_ok h).trans hw, hd, _, e.trans e'⟩

theorem Form.of_ty (v : Value) : (Form.of v).ty = v.ty := by cases v <;> rfl

theorem Form.of_int? (v : Value) : (Form.of v).int? = v.sextValue? := by cases v <;> rfl

end Makes

/-! ### The builder -/

section Builder
variable {s t : State} {v : Value}

/-- A load is made where there is an insertion block. -/
theorem createLoad_makes (ty : Ty) (p : Value) : Makes Form.of (createLoad ty p) (s.loadForm ty) s := by
  unfold createLoad State.loadForm getInsertBlock
  cases hp : s.insertPoint with
  | none =>
    refine StopsWith.bind ⟨s, ?_⟩
    rw [get_bind, hp]
    rfl
  | some q =>
    have hget : (do deref (← get).insertPoint : CG InsertPoint) s = .ok q s := by
      rw [get_bind, hp]
      rfl
    exact .after hget (.refl s) ⟨_, _, rfl, rfl, _, .emit ⟨rfl, rfl⟩⟩

theorem State.loadForm_congr (h : t.insertPoint = s.insertPoint) (ty : Ty) : t.loadForm ty = s.loadForm ty := by
  rw [State.loadForm, h, State.loadForm]

/-- A load behind other instructions. -/
theorem createLoad_after {is : List Inst} (e : Emits s is t) (ty : Ty) (p : Value) :
    Makes Form.of (createLoad ty p) (s.loadForm ty) t := by
  rw [← State.loadForm_congr e.insertPoint]
  exact createLoad_makes ty p

theorem requireGlobal_none {x : String} (h : s.global? x = none) :
    StopsWith (requireGlobal x) (.logError ("global var/const: " ++ x ++ " doesn't exist")) s := by
  unfold requireGlobal
  refine .of_ok (get_ok.mpr ⟨rfl, rfl⟩) ?_
  rw [h]
  exact stops_logError

theorem requireFunction_none {x : String} (h : s.function? x = none) :
    StopsWith (requireFunction x) (.logError ("unknown function " ++ x)) s := by
  unfold requireFunction
  refine .of_ok (get_ok.mpr ⟨rfl, rfl⟩) ?_
  rw [h]
  exact stops_logError

variable [ConstantFolder]

theorem createBinOp_makes (op : BinOp) (a b : Value) : Makes Form.of (createBinOp op a b)
    (.ok (Form.binOp op (Form.of a) (Form.of b))) s := by
  cases a <;> cases b <;>
    first
      | exact ⟨_, _, rfl, rfl, [], .refl s⟩
      | exact ⟨_, _, rfl, rfl, _, .emit ⟨rfl, rfl⟩⟩

theorem createICmp_makes (p : Pred) (a b : Value) : Makes Form.of (createICmp p a b)
    (.ok (Form.iCmp p (Form.of a) (Form.of b))) s := by
  cases a <;> cases b <;>
    first
      | exact ⟨_, _, rfl, rfl, [], .refl s⟩
      | exact ⟨_, _, rfl, rfl, _, .emit ⟨rfl, rfl⟩⟩

theorem createSelect_makes (c x y : Value) : Makes Form.of (createSelect c x y)
    (.ok (Form.select (Form.of c) (Form.of x) (Form.of y))) s := by
  cases c <;> cases x <;> cases y <;>
    first
      | exact ⟨_, _, rfl, rfl, [], .refl s⟩
      | exact ⟨_, _, rfl, rfl, _, .emit ⟨rfl, rfl⟩⟩

theorem createIntCast_makes (a : Value) : Makes Form.of (createIntCast a) (.ok (Form.of a).intCast) s := by
  unfold createIntCast Form.intCast
  rw [Form.of_ty]
  split
  · exact .pure a
  · cases a <;>
      first
        | exact ⟨_, _, rfl, rfl, [], .refl s⟩
        | exact ⟨_, _, rfl, rfl, _, .emit ⟨rfl, rfl⟩⟩

theorem createNeg_makes (a : Value) : Makes Form.of (createNeg a) (Form.of a).neg s := by
  unfold createNeg Form.neg
  rw [Form.of_ty]
  by_cases hv : a.ty = .void
  · rw [if_pos hv, if_pos hv]
    exact StopsWith.bind ⟨s, rfl⟩
  · rw [if_neg hv, if_neg hv]
    exact createBinOp_makes _ _ _

theorem intToBoolean_makes (a : Value) : Makes Form.of (intToBoolean a) (.ok (Form.of a).toBoolean) s :=
  createICmp_makes _ _ _

theorem createICmp_intCast (p : Pred) (a b : Value) : Makes Form.of (do createIntCast (← createICmp p a b))
    (.ok (Form.iCmp p (Form.of a) (Form.of b)).intCast) s :=
  (createICmp_makes p a b).bind (g := fun f => .ok f.intCast) fun v _ _ _ _ => createIntCast_makes v

theorem createSelect_intCast (c x y : Value) : Makes Form.of (do createIntCast (← createSelect c x y))
    (.ok (Form.select (Form.of c) (Form.of x) (Form.of y)).intCast) s :=
  (createSelect_makes c x y).bind (g := fun f => .ok f.intCast) fun v _ _ _ _ => createIntCast_makes v

theorem createGEP_total (ty : Ty) (p i j : Value) : ∃ v u is, createGEP ty p i j s = .ok v u ∧ Emits s is u := by
  cases p <;> cases i <;> cases j <;>
    first
      | exact ⟨_, _, [], rfl, .refl s⟩
      | exact ⟨_, _, _, rfl, .emit ⟨rfl, rfl⟩⟩

/-- The address of an element, for which the one that a pointer parameter holds is loaded. -/
theorem elementPtr_makes (a : AllocaInst) (i : Value) : Makes (fun _ => ()) (elementPtr a i) (match a.ty with
    | .array _ _ => .ok ()
    | _ => do
      let _ ← s.loadForm .ptr
      .ok ()) s := by
  have hpointer : Makes (fun _ => ()) (do createInBoundsGEP .i64 (← createLoad .ptr a.value) i) (do
      let _ ← s.loadForm .ptr
      .ok ()) s :=
    (createLoad_makes .ptr a.value).bind fun _ _ _ _ _ => ⟨_, _, rfl, rfl, _, .emit ⟨rfl, rfl⟩⟩
  obtain ⟨slot, ty⟩ := a
  cases ty with
  | array n elt =>
    obtain ⟨p, u, is, hp, e⟩ :=
      createGEP_total (s := s) (.array n elt) (.alloca slot (.array n elt)) (.const (.int 0)) i
    exact ⟨p, u, hp, rfl, is, e⟩
  | _ => exact hpointer

/-- The load of an element of a local variable. -/
theorem loadElement_makes (a : AllocaInst) (i : Value) :
    Makes Form.of (do createLoad .i64 (← elementPtr a i)) (s.loadForm .i64) s := by
  have h := (elementPtr_makes (s := s) a i).bind (g := fun _ => s.loadForm .i64) fun p u is _ e =>
    createLoad_after e .i64 p
  have hload : (match a.ty with
      | .array _ _ => (.ok () : Except Stop Unit)
      | _ => do
        let _ ← s.loadForm .ptr
        .ok ()) >>= (fun _ => s.loadForm .i64) = s.loadForm .i64 := by
    unfold State.loadForm
    cases s.insertPoint <;> cases a.ty <;> rfl
  rwa [hload] at h

theorem createGetValueInst_makes (a : AllocaInst) (sub : Option Value) : Makes Form.of (createGetValueInst a sub)
    (if sub.isSome then s.loadForm .i64 else match a.ty with
      | .array _ _ => .ok (.inst .ptr)
      | ty => s.loadForm ty) s := by
  cases sub with
  | none =>
    obtain ⟨slot, ty⟩ := a
    cases ty with
    | array n elt => exact ⟨_, _, rfl, rfl, _, .emit ⟨rfl, rfl⟩⟩
    | _ => exact createLoad_makes _ _
  | some i => exact loadElement_makes a i

/-- A read has the form that the scope tables and the module say. -/
theorem getValue_makes (x : String) (sub : Option Value) :
    Makes Form.of (getValue x sub) (s.valueForm x sub.isSome) s := by
  unfold getValue
  have elog : Emits s [] (s.log (.read x sub.isSome (s.storage? x))) := .log _
  refine .after (a := ⟨⟩) (modify_ok.mpr rfl) elog (.after (get_ok.mpr ⟨rfl, rfl⟩) (.refl _) ?_)
  have hl : (s.log (.read x sub.isSome (s.storage? x))).lookup x = s.lookup x := rfl
  have hg : (s.log (.read x sub.isSome (s.storage? x))).global? x = s.global? x := rfl
  rw [hl]
  unfold State.valueForm
  cases s.lookup x with
  | some nv => exact createGetValueInst_makes (s := s.log (.read x sub.isSome (s.storage? x))) nv.alloca sub
  | none =>
    unfold getGlobalValue
    cases hx : s.global? x with
    | none => exact StopsWith.bind (requireGlobal_none (hg.trans hx))
    | some g =>
      refine .after (requireGlobal_ok.mpr ⟨hg.trans hx, rfl⟩) (.refl _) ?_
      cases sub with
      | some i =>
        obtain ⟨p, u, is, hp, e⟩ := createGEP_total (s := s.log (.read x true (s.storage? x))) g.valueTy
          (.const (.global g.name g.valueTy)) (.const (if g.valueTy = .i64 then .int 0 else .illInt)) i
        exact .after (globalElementPtr_ok.mpr hp) e (createLoad_after (elog.trans e) _ _)
      | none =>
        refine .after (get_ok.mpr ⟨rfl, rfl⟩) (.refl _) ?_
        have hn : (s.log (.read x false (s.storage? x))).namedValues = s.namedValues := rfl
        rw [Option.isSome_none, hn]
        cases s.namedValues with
        | nil =>
          simp only [List.isEmpty_nil, ↓reduceIte, Bool.false_eq_true]
          cases hc : g.init with
          | none => exact StopsWith.bind ⟨_, rfl⟩
          | some c => exact .after (deref_ok.mpr ⟨rfl, rfl⟩) (.refl _) (.pure _)
        | cons => exact createLoad_after elog _ _

end Builder

/-! ### Expressions -/

/-- The scope tables and the module are the same, and the insertion block. -/
structure SameScope (s t : State) : Prop where
  functions : t.functions = s.functions
  globals : t.globals = s.globals
  namedValues : t.namedValues = s.namedValues
  insertPoint : t.insertPoint = s.insertPoint

section Expressions
variable {s t : State}

theorem Emits.sameScope {is : List Inst} (e : Emits s is t) : SameScope s t :=
  ⟨e.functions, e.globals, e.namedValues, e.insertPoint⟩

theorem SameScope.trans {u : State} (h₁ : SameScope s t) (h₂ : SameScope t u) : SameScope s u where
  functions := h₂.functions.trans h₁.functions
  globals := h₂.globals.trans h₁.globals
  namedValues := h₂.namedValues.trans h₁.namedValues
  insertPoint := h₂.insertPoint.trans h₁.insertPoint

theorem SameScope.lookup (h : SameScope s t) (x : String) : t.lookup x = s.lookup x := by
  rw [State.lookup, h.namedValues, State.lookup]

theorem SameScope.global? (h : SameScope s t) (x : String) : t.global? x = s.global? x := by
  rw [State.global?, h.globals, State.global?]

theorem SameScope.function? (h : SameScope s t) (x : String) : t.function? x = s.function? x := by
  rw [State.function?, h.functions, State.function?]

theorem SameScope.valueForm (h : SameScope s t) (x : String) (sub : Bool) : t.valueForm x sub = s.valueForm x sub := by
  have hl := State.loadForm_congr h.insertPoint
  simp only [State.valueForm, h.lookup, h.global?, h.namedValues, hl]

variable [ConstantFolder]

mutual

theorem SameScope.form (h : SameScope s t) : ∀ e : Exp, e.form t = e.form s
  | .number _ => by rw [Exp.form, Exp.form]
  | .name x => by rw [Exp.form, Exp.form, h.valueForm]
  | .index x e => by rw [Exp.form, Exp.form, h.valueForm, h.form e]
  | .call f args => by rw [Exp.form, Exp.form, h.function?, h.argForms args]
  | .unary op e => by rw [Exp.form, Exp.form, h.form e]
  | .arith op a b => by rw [Exp.form, Exp.form, h.form a, h.form b]
  | .cmp p a b => by rw [Exp.form, Exp.form, h.form a, h.form b]
  | .land a b => by rw [Exp.form, Exp.form, h.form a, h.form b]
  | .lor a b => by rw [Exp.form, Exp.form, h.form a, h.form b]

theorem SameScope.argForms (h : SameScope s t) : ∀ es : List Exp, L24.argForms t es = L24.argForms s es
  | [] => by rw [L24.argForms, L24.argForms]
  | e :: es => by rw [L24.argForms, L24.argForms, h.form e, h.argForms es]

end

theorem SameScope.initForm (h : SameScope s t) (init : Option InitValNode) (idx : Nat) :
    L24.initForm t init idx = L24.initForm s init idx := by
  unfold L24.initForm
  simp only [h.form]

theorem SameScope.initForms (h : SameScope s t) (init : Option InitValNode) : ∀ n idx : Nat,
    L24.initForms t init idx n = L24.initForms s init idx n
  | 0, idx => by rw [L24.initForms, L24.initForms]
  | n + 1, idx => by rw [L24.initForms, L24.initForms, h.initForm, h.initForms init n]

omit [ConstantFolder] in
/-- A further step whose static side is read in the state before. -/
theorem Makes.then {α β γ δ : Type} {form : α → β} {form' : γ → δ} {m : CG α} {k : α → CG γ} {o : Except Stop β}
    {g : β → Except Stop δ} (h : Makes form m o s) (hk : ∀ v u, SameScope s u → Makes form' (k v) (g (form v)) u) :
    Makes form' (m >>= k) (o >>= g) s :=
  h.bind fun v u _ _ e => hk v u e.sameScope

/-- The operands of `||` and `&&`: each is compared with zero. -/
theorem Makes.operand {a : Exp} {k : Value → CG Value} {g : Form → Except Stop Form}
    (h : Makes Form.of (genExp a) (a.form s) s)
    (hk : ∀ v u, SameScope s u → ∀ f, Form.of v = Form.toBoolean f → Makes Form.of (k v) (g f) u) :
    Makes Form.of (do let l ← intToBoolean (← genExp a); k l) (a.form s >>= g) s := by
  refine h.then fun v u hu => ?_
  obtain ⟨l, w, hl, hf, is, e⟩ := intToBoolean_makes (s := u) v
  exact .after hl e (hk l w (hu.trans e.sameScope) _ hf)

mutual

/-- What code generation makes of an expression has its form. -/
theorem genExp_makes : ∀ (e : Exp) {s : State}, Makes Form.of (genExp e) (e.form s) s
  | .number v, s => by
    rw [genExp, Exp.form]
    exact .pure _
  | .name x, s => by
    rw [genExp, Exp.form]
    exact getValue_makes x none
  | .index x e, s => by
    rw [genExp, Exp.form]
    refine (genExp_makes e).then fun v u hu => ?_
    rw [← hu.valueForm]
    exact getValue_makes x (some v)
  | .call f args, s => by
    rw [genExp, Exp.form]
    cases hf : s.function? f with
    | none => exact StopsWith.bind (requireFunction_none hf)
    | some func =>
      refine .after (requireFunction_ok.mpr ⟨hf, rfl⟩) (.refl _) ?_
      show Makes Form.of _ (if _ then .error _ else _) s
      -- The number of arguments is compared before any of them is generated.
      by_cases hl : func.params.length = args.length
      · rw [if_neg (not_not_intro hl), if_neg (not_not_intro hl)]
        exact (genExps_makes args).then fun vs u _ => ⟨_, _, rfl, rfl, _, .emit ⟨rfl, rfl⟩⟩
      · rw [if_pos hl, if_pos hl]
        exact StopsWith.bind stops_logError
  | .unary op e, s => by
    rw [genExp, Exp.form]
    refine (genExp_makes e).then fun v u _ => ?_
    cases op with
    | plus => exact .pure v
    | minus => exact createNeg_makes v
    | not => exact createICmp_intCast _ _ _
  | .arith op a b, s => by
    rw [genExp, Exp.form]
    refine (genExp_makes a).then fun v u hu => ?_
    rw [← hu.form b]
    exact (genExp_makes b).then fun w _ _ => createBinOp_makes op v w
  | .cmp p a b, s => by
    rw [genExp, Exp.form]
    refine (genExp_makes a).then fun v u hu => ?_
    rw [← hu.form b]
    exact (genExp_makes b).then fun w _ _ => createICmp_intCast p v w
  | .land a b, s => by
    rw [genExp, Exp.form]
    -- The comparison with zero of the left operand precedes the code of the right one.
    refine Makes.operand (genExp_makes a) fun v u hu f hv => ?_
    rw [← hu.form b]
    refine Makes.operand (genExp_makes b) fun w x _ g hw => ?_
    rw [← hv, ← hw]
    exact createSelect_intCast v w (.const (.bool false))
  | .lor a b, s => by
    rw [genExp, Exp.form]
    refine Makes.operand (genExp_makes a) fun v u hu f hv => ?_
    rw [← hu.form b]
    refine Makes.operand (genExp_makes b) fun w x _ g hw => ?_
    rw [← hv, ← hw]
    exact createSelect_intCast v (.const (.bool true)) w

theorem genExps_makes : ∀ (es : List Exp) {s : State}, Makes (List.map Form.of) (genExps es) (argForms s es) s
  | [], s => by
    rw [genExps, L24.argForms]
    exact .pure _
  | e :: es, s => by
    rw [genExps, L24.argForms]
    refine (genExp_makes e).then fun v u hu => ?_
    rw [← hu.argForms es]
    exact (genExps_makes es).then fun vs _ _ => .pure (v :: vs)

end

theorem codeGenExp_makes (e : ExprNode) : Makes Form.of (codeGenExp e) (e.core.form s) s := by
  rw [codeGenExp_core]
  exact genExp_makes e.core

end Expressions

/-! ### Constants

A constant comes from constants only. -/

section Constants
variable {s : State} {a b f : Form} {c : Const}

theorem loadForm_not_const {ty : Ty} : s.loadForm ty ≠ .ok (.const c) := by
  unfold State.loadForm
  cases s.insertPoint <;> simp

theorem valueForm_element {x : String} : s.valueForm x true ≠ .ok (.const c) := by
  unfold State.valueForm
  cases s.lookup x with
  | some nv => exact loadForm_not_const
  | none =>
    cases s.global? x with
    | none => exact fun h => nomatch h
    | some g => exact loadForm_not_const

variable [ConstantFolder]

theorem binOp_const {op : BinOp} (h : Form.binOp op a b = .const c) : (∃ d, a = .const d) ∧ ∃ e, b = .const e := by
  cases a <;> cases b <;> first | exact ⟨⟨_, rfl⟩, _, rfl⟩ | cases h

theorem iCmp_const {p : Pred} (h : Form.iCmp p a b = .const c) : (∃ d, a = .const d) ∧ ∃ e, b = .const e := by
  cases a <;> cases b <;> first | exact ⟨⟨_, rfl⟩, _, rfl⟩ | cases h

theorem select_const (h : Form.select f a b = .const c) :
    (∃ d, f = .const d) ∧ (∃ d, a = .const d) ∧ ∃ d, b = .const d := by
  cases f <;> cases a <;> cases b <;> first | exact ⟨⟨_, rfl⟩, ⟨_, rfl⟩, _, rfl⟩ | cases h

theorem intCast_const (h : a.intCast = .const c) : ∃ d, a = .const d := by
  cases a with
  | const d => exact ⟨d, rfl⟩
  | inst ty =>
    unfold Form.intCast at h
    split at h <;> cases h

theorem neg_const (h : a.neg = .ok (.const c)) : ∃ d, a = .const d := by
  unfold Form.neg at h
  split at h
  · cases h
  · exact (binOp_const (Except.ok.inj h)).2

end Constants

/-! ### Initial values -/

section Init
variable {s t : State} {init : Option InitValNode}

theorem Makes.congr {α β : Type} {form : α → β} {m m' : CG α} {o : Except Stop β} (h : m' s = m s)
    (hm : Makes form m o s) : Makes form m' o s := by
  cases o with
  | error e =>
    obtain ⟨u, hm⟩ := hm
    exact ⟨u, h.trans hm⟩
  | ok b =>
    obtain ⟨v, u, hv, hf⟩ := hm
    exact ⟨v, u, h.trans hv, hf⟩

variable [ConstantFolder]

theorem initVal_makes (init : Option InitValNode) (idx : Nat) :
    Makes Form.of (initVal init idx) (initForm s init idx) s := by
  unfold initForm
  cases init with
  | none => exact .pure _
  | some n =>
    cases he : n.exps[idx]? with
    | some e =>
      refine .congr (initVal_exp he) ?_
      simp only [he]
      exact codeGenExp_makes e
    | none =>
      have hle := List.getElem?_eq_none_iff.mp he
      simp only [he]
      cases hc : n.stringLiteral[idx]? with
      | none =>
        have hle' := List.getElem?_eq_none_iff.mp hc
        have hpure : initVal (some n) idx = pure getInitInt := by
          unfold initVal
          simp only [Nat.max_le.mpr ⟨hle, hle'⟩, ↓reduceIte]
        rw [hpure]
        exact .pure getInitInt
      | some c =>
        obtain ⟨hlt, -⟩ := List.getElem?_eq_some_iff.mp hc
        have hexps : n.exps = [] := by
          cases n with
          | string => rfl
          | _ => simp [InitValNode.stringLiteral] at hlt
        have hmax : ¬ max n.exps.length n.stringLiteral.length ≤ idx := fun h =>
          Nat.not_le_of_lt hlt (Nat.le_trans (Nat.le_max_right _ _) h)
        have hpure : initVal (some n) idx s = (pure (charValue c) : CG Value) s := by
          unfold initVal
          simp only [hmax, ↓reduceIte]
          rw [if_pos (by simp [hexps]), hc]
          exact bind_of_ok (deref_ok.mpr ⟨rfl, rfl⟩)
        exact .congr hpure (.pure (charValue c))

theorem initVals_makes (init : Option InitValNode) : ∀ (n idx : Nat) {s : State},
    Makes (List.map Form.of) (initVals init idx n) (initForms s init idx n) s
  | 0, idx, s => by
    rw [initVals, L24.initForms]
    exact .pure _
  | n + 1, idx, s => by
    rw [initVals, L24.initForms]
    refine (initVal_makes init idx).then fun v u hu => ?_
    rw [← hu.initForms init n (idx + 1)]
    exact (initVals_makes init n (idx + 1)).then fun vs _ _ => .pure (v :: vs)

end Init

/-! ### Definitions -/

section Definitions
variable {s t : State} {d : Def} {e : ExprNode} {init : Option InitValNode}

theorem StopsWith.congr {α : Type} {m m' : CG α} {e : Stop} (h : m' s = m t) (hm : StopsWith m e t) :
    StopsWith m' e s := by
  obtain ⟨u, hm⟩ := hm
  exact ⟨u, h.trans hm⟩

variable [ConstantFolder]

theorem Def.gen_none (hd : d.exp = none) : d.gen = (do
    let vals ← getInitVals d.init none
    L24.defineValue d.ident d.ty vals none false) := by
  unfold Def.gen codeGenDef
  rw [hd]

theorem Def.gen_some (hd : d.exp = some e) : d.gen = (do
    let arraySize ← codeGenExp e
    let vals ← getInitVals d.init (some arraySize)
    L24.defineValue d.ident d.ty vals (some arraySize) false) := by
  unfold Def.gen codeGenDef
  rw [hd]

theorem getInitVals_none {sz : Value} (hsz : sz.sextValue? = none) :
    StopsWith (getInitVals init (some sz)) .nullDeref s := by
  unfold getInitVals
  simp only [hsz]
  exact StopsWith.bind ⟨s, rfl⟩

theorem getInitVals_zero {sz : Value} (hsz : sz.sextValue? = some 0) :
    StopsWith (getInitVals init (some sz)) (.logError "You can't define a array with size 0") s := by
  unfold getInitVals
  simp only [hsz]
  exact .of_ok (deref_ok.mpr ⟨rfl, rfl⟩) (StopsWith.bind stops_logError)

theorem getInitVals_some {sz : Value} {n : BitVec 64} (hsz : sz.sextValue? = some n) (hn : n ≠ 0) :
    getInitVals init (some sz) s = initVals init 0 n.toInt.toNat s := by
  unfold getInitVals
  simp only [hsz]
  refine (bind_of_ok (deref_ok.mpr ⟨rfl, rfl⟩)).trans ?_
  rw [if_neg hn]

/-- The values of a definition: one of a scalar, and of an array as many as its size says. -/
structure InitMade (d : Def) (s : State) (size : Option (BitVec 64)) (fs : List Form) (sz : Option Value)
    (vs : List Value) (w : State) : Prop where
  init : GenInit d.init d.exp s sz vs w
  sizes : sz.map Value.sextValue? = size.map some
  forms : vs.map Form.of = fs
  length : vs.length = (size.map fun n => n.toInt.toNat).getD 1

theorem Def.arrayForms_made {sz : Value} {u : State} (hd : d.exp = some e) (hsz : codeGenExp e s = .ok sz u)
    (hu : SameScope s u) : match d.arrayForms s (Form.of sz) with
    | .error stop => StopsWith d.gen stop s
    | .ok (size, fs) => ∃ sz vs w, InitMade d s size fs sz vs w := by
  unfold Def.arrayForms
  rw [Def.gen_some hd, Form.of_int?]
  cases hn : sz.sextValue? with
  | none => exact .of_ok hsz (getInitVals_none hn).bind
  | some n =>
    simp only []
    by_cases h₀ : n = 0
    · rw [if_pos h₀]
      exact .of_ok hsz (getInitVals_zero (h₀ ▸ hn)).bind
    · rw [if_neg h₀, ← hu.initForms]
      have hv := initVals_makes d.init n.toInt.toNat 0 (s := u)
      cases hfs : initForms u d.init 0 n.toInt.toNat with
      | error stop =>
        rw [hfs] at hv
        exact .of_ok hsz (StopsWith.bind (.congr (getInitVals_some hn h₀) hv))
      | ok fs =>
        rw [hfs] at hv
        obtain ⟨vs, w, hvs, hfs, -⟩ := hv
        refine ⟨some sz, vs, w, ?_, congrArg some hn, hfs, initVals_length hvs⟩
        rw [hd]
        exact ⟨sz, u, rfl, hsz, (getInitVals_some hn h₀).trans hvs⟩

/-- Where a size or an initial value has no form, the definition stops so; a size that folds to no integer is
    dereferenced as null, and the size zero is rejected. -/
theorem Def.forms_made (d : Def) (s : State) : match d.forms s with
    | .error stop => StopsWith d.gen stop s
    | .ok (size, fs) => ∃ sz vs w, InitMade d s size fs sz vs w := by
  unfold Def.forms
  cases hd : d.exp with
  | none =>
    have h := initVals_makes d.init 1 0 (s := s)
    rw [Def.gen_none hd]
    simp only []
    cases hf : initForms s d.init 0 1 with
    | error stop =>
      rw [hf] at h
      exact StopsWith.bind h
    | ok fs =>
      rw [hf] at h
      obtain ⟨vs, w, hvs, hfs, -⟩ := h
      refine ⟨none, vs, w, ?_, rfl, hfs, initVals_length hvs⟩
      rw [hd]
      exact ⟨rfl, hvs⟩
  | some e =>
    have h := codeGenExp_makes (s := s) e
    simp only []
    cases hf : e.core.form s with
    | error stop =>
      rw [hf] at h
      rw [Def.gen_some hd]
      exact StopsWith.bind h
    | ok f =>
      rw [hf] at h
      obtain ⟨sz, u, hsz, rfl, is, em⟩ := h
      exact Def.arrayForms_made hd hsz em.sameScope

end Definitions

end L24
