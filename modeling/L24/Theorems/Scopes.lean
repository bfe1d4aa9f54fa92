import L24.Theorems.Redeclare
import L24.Theorems.Forms

/-! Lexical scoping: what the search through the layers of `_nested_named_values`, and then in the module, finds is
    what an identifier is bound to by the declarations around it. -/

namespace L24
open Ir Relation

/-! ### The binding of an identifier -/

/-- The declaration that an identifier is bound to. -/
inductive Binding
  | local (d : LocalDecl)
  | global (d : GlobalDecl)

/-- Whether the name is a constant. -/
def Binding.ty : Binding → ValType
  | .local d => d.ty
  | .global d => d.ty

/-- Where the value is. -/
def Binding.storage : Binding → Storage
  | .local d => .local d.alloca
  | .global d => .global d.ident

/-- The message for a name without a declaration. -/
def undeclared (x : String) : String := "global var/const: " ++ x ++ " doesn't exist"

namespace Ctx

/-- The innermost scope of the function that declares the name. -/
def local? (c : Ctx) (x : String) : Option LocalDecl := c.locals.findSome? (·.find? (·.ident == x))

/-- The latest variable of that name outside all functions. -/
def global? (c : Ctx) (x : String) : Option GlobalDecl := c.globals.find? (·.ident == x)

/-- The innermost enclosing declaration of a name, among those that are complete. -/
def resolve (c : Ctx) (x : String) : Option Binding :=
  match c.local? x with
  | some d => some (.local d)
  | none => (c.global? x).map .global

variable [ConstantFolder]

/-- `getValue`, by lexical scoping. -/
def getValue (c : Ctx) (x : String) (sub : Option Value) : CG Value := do
  modify (·.log (.read x sub.isSome ((c.resolve x).map Binding.storage)))
  match c.resolve x with
  | some (.local d) => createGetValueInst d.alloca sub
  | some (.global d) => getGlobalValue d.ident sub
  | none => logError (undeclared x)

/-- `setValue`, by lexical scoping. -/
def setValue (c : Ctx) (x : String) (v : Value) (sub : Option Value) : CG Unit := do
  modify (·.log (.assign x sub.isSome ((c.resolve x).map Binding.storage)))
  match c.resolve x with
  | some (.local d) => match d.ty with
    | .const => logError (x ++ " is a const")
    | .var => createSetValueInst d.alloca v sub
  | some (.global d) => setGlobalValue d.ident v sub
  | none => logError (undeclared x)

end Ctx

/-! ### What the search finds -/

section Search
variable {c : Ctx} {s t : State} {x : String}

theorem findSome_entries : ∀ {scopes : List (List LocalDecl)}, (∀ scope ∈ scopes, ∀ d ∈ scope, d.key = d.ident) →
    (scopes.map (·.map LocalDecl.entry)).findSome? (List.lookup x) =
      (scopes.findSome? (·.find? (·.ident == x))).map fun d => d.ty.named d.alloca
  | [], _ => rfl
  | scope :: scopes, h => by
    have ih := findSome_entries fun sc hsc => h sc (List.mem_cons_of_mem _ hsc)
    rw [List.map_cons, List.findSome?_cons, List.findSome?_cons, lookup_entries_find (h scope List.mem_cons_self), ih]
    cases scope.find? (·.ident == x) <;> rfl

theorem Ctx.Matches.lookup (hm : c.Matches s) (hk : ∀ scope ∈ c.locals, ∀ d ∈ scope, d.key = d.ident) (x : String) :
    s.lookup x = (c.local? x).map fun d => d.ty.named d.alloca := by
  rw [State.lookup, hm.locals]
  exact findSome_entries hk

theorem Ctx.global?_ident {d : GlobalDecl} (h : c.global? x = some d) : d.ident = x := by
  simpa using List.find?_some h

theorem Ctx.Matches.global_isSome (hm : c.Matches s) (x : String) : (s.global? x).isSome = (c.global? x).isSome := by
  have hg := congrArg (x ∈ ·) hm.globals
  simp only [eq_iff_iff, List.mem_reverse, List.mem_map] at hg
  rw [Bool.eq_iff_iff, State.global?, Ctx.global?, List.find?_isSome, List.find?_isSome]
  simpa using hg

end Search

/-! ### The keys of all scopes -/

/-- Each declaration has its identifier as its key, and the parameters still to come have theirs. -/
structure Visit.Idents (v : Visit) : Prop where
  keys : ∀ scope ∈ v.ctx.locals, ∀ d ∈ scope, d.key = d.ident
  params : match v.call with
    | .body _ ps _ => ∀ q ∈ ps, q.1 = q.2.ident
    | _ => True

section Idents
variable {node : EntryNode} {c : Ctx} {s t : State} {x : String}

theorem Ctx.declare_keys {d : LocalDecl} (h : ∀ scope ∈ c.locals, ∀ d ∈ scope, d.key = d.ident) (hd : d.key = d.ident) :
    ∀ scope ∈ (c.declare d).locals, ∀ d ∈ scope, d.key = d.ident := by
  intro scope hs d' hd'
  unfold Ctx.declare at hs
  cases hc : c.locals with
  | nil => simp [hc] at hs
  | cons sc outer =>
    simp only [hc, List.mem_cons] at hs h
    rcases hs with rfl | hs
    · rcases List.mem_cons.mp hd' with rfl | hd'
      · exact hd
      · exact h sc (Or.inl rfl) d' hd'
    · exact h scope (Or.inr hs) d' hd'

variable [ConstantFolder]

theorem Enters.idents {v w : Visit} (hv : Enters v w) (h : v.Idents)
    (hn : ∀ f is, v.call = .items [] (.func f :: is) → (f.param.map (·.ident)).Nodup) : w.Idents := by
  obtain ⟨hk, hp⟩ := h
  cases hv with
  | @func f is c s h =>
    refine ⟨by simp [Ctx.inFunc], fun q hq => ?_⟩
    obtain ⟨i, hi⟩ := List.mem_iff_getElem?.mp hq
    have hp := congrArg (·[i]?) (named_snd f)
    simp only [List.getElem?_map, hi, Option.map_some] at hp
    have hq := (named_getElem? (hn f _ rfl) hp.symm).symm.trans hi
    rw [← Option.some.inj hq]
  | nextParam => exact ⟨Ctx.declare_keys hk (hp _ List.mem_cons_self), fun q hq => hp q (List.mem_cons_of_mem _ hq)⟩
  | nextLocalDef => exact ⟨Ctx.declare_keys hk rfl, trivial⟩
  | items =>
    refine ⟨fun scope hs d hd => ?_, trivial⟩
    rcases List.mem_cons.mp hs with rfl | hs
    · cases hd
    · exact hk scope hs d hd
  | _ => exact ⟨hk, trivial⟩

theorem Visited.idents {v : Visit} (hn : ∀ f ∈ node.funcs, (f.param.map (·.ident)).Nodup) (h : Visited node v) :
    v.Idents := by
  induction h with
  | refl => exact ⟨fun scope hs => (by cases hs), trivial⟩
  | tail hv hw ih =>
    refine hw.idents ih fun f is he => hn f ?_
    exact List.mem_filterMap.mpr ⟨_, Generates.mem hv _ _ he _ List.mem_cons_self, rfl⟩

end Idents

/-! ### Reads and assignments -/

section Access
variable {node : EntryNode} {c : Ctx} {s t : State} {x : String} {sub : Option Value} {v : Value}

variable [ConstantFolder]

theorem Visited.lookup {C : GenCall} (hn : ∀ f ∈ node.funcs, (f.param.map (·.ident)).Nodup) (h : Visited node ⟨C, c, s⟩)
    (x : String) : s.lookup x = (c.local? x).map fun d => d.ty.named d.alloca :=
  (Visited.valid h).matched.lookup (Visited.idents hn h).keys x

/-- The search finds the storage of the binding. -/
theorem Visited.storage {C : GenCall} (hn : ∀ f ∈ node.funcs, (f.param.map (·.ident)).Nodup)
    (h : Visited node ⟨C, c, s⟩)
    (x : String) : s.storage? x = (c.resolve x).map Binding.storage := by
  unfold State.storage? Ctx.resolve
  rw [h.lookup hn x]
  cases c.local? x with
  | some d => simp [Binding.storage, ValType.named_alloca]
  | none =>
    have hg := (Visited.valid h).matched.global_isSome x
    cases hc : c.global? x with
    | none =>
      rw [hc] at hg
      simp only [Option.isSome_none, Option.isSome_eq_false_iff, Option.isNone_iff_eq_none] at hg
      simp [hg]
    | some d =>
      rw [hc] at hg
      obtain ⟨g, hg⟩ := Option.isSome_iff_exists.mp hg
      simp only [Option.map_none, hg, Option.map_some, Binding.storage, Ctx.global?_ident hc, global?_name hg]

omit [ConstantFolder] in
theorem requireGlobal_error (h : s.global? x = none) : requireGlobal x s = .error (.logError (undeclared x)) s := by
  unfold requireGlobal
  rw [bind_of_ok (get_ok.mpr ⟨rfl, rfl⟩), h]
  rfl

theorem setGlobalValue_error (h : s.global? x = none) :
    setGlobalValue x v sub s = .error (.logError (undeclared x)) s :=
  bind_of_error (requireGlobal_error h)

omit [ConstantFolder] in
theorem Ctx.Matches.global_none (hm : c.Matches s) (h : c.global? x = none) : s.global? x = none := by
  have hg := hm.global_isSome x
  rw [h] at hg
  simpa using hg

/-- An assignment addresses the binding of the name. -/
theorem Visited.setValue_eq {C : GenCall} (hn : ∀ f ∈ node.funcs, (f.param.map (·.ident)).Nodup)
    (h : Visited node ⟨C, c, s⟩) : setValue x v sub s = c.setValue x v sub s := by
  have hl : (s.log (.assign x sub.isSome (s.storage? x))).lookup x = s.lookup x := rfl
  unfold L24.setValue Ctx.setValue
  rw [← h.storage hn x, bind_of_ok (a := ⟨⟩) (modify_ok.mpr rfl), bind_of_ok (a := ⟨⟩) (modify_ok.mpr rfl),
    bind_of_ok (get_ok.mpr ⟨rfl, rfl⟩), hl, h.lookup hn x]
  unfold Ctx.resolve
  cases hc : c.local? x with
  | some d =>
    cases hd : d.ty with
    | const => simp [ValType.named, hd]
    | var => simp [ValType.named, hd]
  | none =>
    cases hg : c.global? x with
    | some d => simp [Ctx.global?_ident hg]
    | none =>
      have hx : (s.log (.assign x sub.isSome (s.storage? x))).global? x = none :=
        (Visited.valid h).matched.global_none hg
      exact setGlobalValue_error hx

omit [ConstantFolder] in
theorem Ctx.resolve_global {d : GlobalDecl} (h : c.resolve x = some (.global d)) : c.local? x = none ∧
    c.global? x = some d := by
  unfold Ctx.resolve at h
  cases hc : c.local? x with
  | some d => simp [hc] at h
  | none => simpa [hc] using h

omit [ConstantFolder] in
/-- The variable of a global declaration. -/
theorem Ctx.Matches.resolve_global {d : GlobalDecl} (hm : c.Matches s) (h : c.resolve x = some (.global d)) :
    d.ident = x ∧ ∃ g, s.global? x = some g := by
  obtain ⟨-, hg⟩ := Ctx.resolve_global h
  refine ⟨Ctx.global?_ident hg, Option.isSome_iff_exists.mp ?_⟩
  rw [hm.global_isSome x, hg]
  rfl

omit [ConstantFolder] in
theorem unlogged_createLoad {ty : Ty} {p : Value} : Unlogged (createLoad ty p) :=
  (unlogged_get.bind fun _ => unlogged_deref).bind fun _ => unlogged_get.bind fun _ => unlogged_set.bind fun _ =>
    unlogged_pure

theorem unlogged_elementPtr {a : AllocaInst} {i : Value} : Unlogged (elementPtr a i) := by
  unfold elementPtr
  split
  · exact unlogged_createGEP
  · exact unlogged_createLoad.bind fun _ => unlogged_get.bind fun _ => unlogged_set.bind fun _ => unlogged_pure

/-- The assignment of a local variable ends with no `LogError`. -/
theorem unlogged_createSetValueInst {a : AllocaInst} : Unlogged (createSetValueInst a v sub) := by
  cases sub with
  | none => exact unlogged_createStore
  | some i => exact unlogged_elementPtr.bind fun _ => unlogged_createStore

/-- The assignment of a global variable ends with no `LogError` if there is one of the name. -/
theorem setGlobalValue_not_logs {g : GlobalVariable} {u : State} {msg : String} (hg : s.global? x = some g) :
    setGlobalValue x v sub s ≠ .error (.logError msg) u := by
  unfold setGlobalValue
  rw [bind_of_ok (requireGlobal_ok.mpr ⟨hg, rfl⟩)]
  refine Unlogged.not_logs ?_
  cases sub with
  | some i => exact Unlogged.bind unlogged_createGEP fun _ => unlogged_createStore
  | none =>
    refine unlogged_get.bind fun t => ?_
    split
    · exact unlogged_deref.bind fun _ => unlogged_modify
    · exact unlogged_createLoad.bind fun _ => unlogged_createStore

omit [ConstantFolder] in
theorem const_ne_undeclared (x : String) : x ++ " is a const" ≠ undeclared x := by
  intro h
  have hlen : (x ++ " is a const").length = ("global var/const: " ++ x ++ " doesn't exist").length :=
    congrArg String.length h
  have h₁ : (" is a const" : String).length = 11 := rfl
  have h₂ : ("global var/const: " : String).length = 18 := rfl
  have h₃ : (" doesn't exist" : String).length = 14 := rfl
  rw [String.length_append, String.length_append, String.length_append, h₁, h₂, h₃] at hlen
  clear h h₁ h₂ h₃
  omega

end Access

/-! ### Programs -/

section
variable [ConstantFolder]

end

section
attribute [local instance] ConstantFolder.symbolic

end

end L24
