import L24.Calls
import L24.Theorems.Returns
import L24.Ir.Straight

/-! The instructions of accepted programs, once for all: the few forms they have, the functions they call, and what
    they do with the addresses of variables. An address is loaded from or stored to; only that of an array is computed
    with; none is an operand of anything else. -/

namespace L24
open Ir Relation

/-- What expressions give: a constant, or the result of an instruction. -/
def isResult : Value → Bool
  | .const _ | .inst _ _ => true
  | .arg _ _ | .alloca _ _ => false

/-- The instructions that compute with integers. -/
def isOperation : Inst → Bool
  | .binop _ _ _ _ | .icmp _ _ _ _ | .select _ _ _ _ | .zext _ _ _ => true
  | _ => false

/-- The instructions that code generation inserts, where the variables have the slots and the types that `slot` knows,
    and the functions that are called are as `callee` says. -/
inductive Produced (callee : String → Prop) (slot : Slot → Ty → Prop) : Inst → Prop
  | alloca {k : Slot} {ty : Ty} {count : Option Value} (hc : AllocaShape ty count) :
    Produced callee slot (.alloca k ty count)
  | operation {i : Inst} (hi : isOperation i = true) (ho : ∀ v ∈ i.operands, isResult v = true) : Produced callee slot i
  | terminator {i : Inst} (hi : i.isTerminator = true) (ho : ∀ v ∈ i.operands, isResult v = true) :
    Produced callee slot i
  | call {r : Reg} {f : String} {ty : Ty} {args : List Value} {name : String} (hf : callee f)
      (ha : ∀ v ∈ args, isResult v = true) : Produced callee slot (.call r f ty args name)
  /-- The value of a variable that is no array: as it is, or as the address of elements. -/
  | scalar {r : Reg} {k : Slot} {ty ty' : Ty} (hs : slot k ty) (hty : ∀ n elt, ty ≠ .array n elt) :
    Produced callee slot (.load r ty' (.alloca k ty))
  | element {r : Reg} {k : Slot} {n : Nat} {elt : Ty} {i : Value} (hs : slot k (.array n elt))
      (hi : isResult i = true) :
    Produced callee slot (.gep r (.array n elt) (.alloca k (.array n elt)) [.const (.int 0), i])
  | address {r : Reg} {ty : Ty} {p : Value} {idx : List Value} (hp : isResult p = true)
      (hi : ∀ i ∈ idx, isResult i = true) : Produced callee slot (.gep r ty p idx)
  | read {r : Reg} {ty : Ty} {p : Value} (hp : isResult p = true) : Produced callee slot (.load r ty p)
  | write {v p : Value} (hv : isResult v = true) (hp : isResult p = true) : Produced callee slot (.store v p)
  | assign {v : Value} {k : Slot} {ty : Ty} (hs : slot k ty) (hv : isResult v = true) :
    Produced callee slot (.store v (.alloca k ty))
  /-- A parameter is a variable that begins with the argument. -/
  | param {n : Nat} {k : Slot} {ty : Ty} (hs : slot k ty) (hty : ∀ n elt, ty ≠ .array n elt) :
    Produced callee slot (.store (.arg n ty) (.alloca k ty))

/-- What is generated from `s` to `t` are such instructions. -/
def Emitting (callee : String → Prop) (slot : Slot → Ty → Prop) (s t : State) : Prop :=
  ∃ is, Emits s is t ∧ ∀ i ∈ is, Produced callee slot i

/-- `slot` knows the variables in scope. -/
def Named (slot : Slot → Ty → Prop) (s : State) : Prop :=
  ∀ layer ∈ s.namedValues, ∀ b ∈ layer, slot b.2.alloca.slot b.2.alloca.ty

/-- The functions there are that `xs` names are as `callee` says. -/
def Calling (callee : String → Prop) (xs : List String) (s : State) : Prop :=
  ∀ x ∈ xs, x ∈ s.functions.map (·.name) → callee x

section Emitting
variable {callee : String → Prop} {slot slot' : Slot → Ty → Prop} {s t u : State} {v x y c : Value} {is : List Inst}
  {xs ys : List String}

theorem Produced.mono {callee' : String → Prop} {i : Inst} (h : Produced callee slot i)
    (hc : ∀ x, callee x → callee' x) (hs : ∀ k ty, slot k ty → slot' k ty) : Produced callee' slot' i := by
  cases h with
  | alloca ha => exact .alloca ha
  | operation hi ho => exact .operation hi ho
  | terminator hi ho => exact .terminator hi ho
  | call hf ha => exact .call (hc _ hf) ha
  | scalar h hty => exact .scalar (hs _ _ h) hty
  | element h hi => exact .element (hs _ _ h) hi
  | address hp hi => exact .address hp hi
  | read hp => exact .read hp
  | write hv hp => exact .write hv hp
  | assign h hv => exact .assign (hs _ _ h) hv
  | param h hty => exact .param (hs _ _ h) hty

theorem Named.emits (h : Named slot s) (e : Emits s is t) : Named slot t := by
  rw [Named, e.namedValues]
  exact h

theorem Named.lookup {z : String} {nv : NamedValue} (h : Named slot s) (hz : s.lookup z = some nv) :
    slot nv.alloca.slot nv.alloca.ty := by
  obtain ⟨layer, hl, hz⟩ := List.exists_of_findSome?_eq_some hz
  obtain ⟨l₁, l₂, rfl, -⟩ := List.lookup_eq_some_iff.mp hz
  exact h _ hl (z, nv) (List.mem_append_right _ List.mem_cons_self)

theorem Calling.emits (h : Calling callee xs s) (e : Emits s is t) : Calling callee xs t := by
  rw [Calling, e.functions]
  exact h

theorem Calling.of_append (h : Calling callee (xs ++ ys) s) : Calling callee xs s ∧ Calling callee ys s :=
  ⟨fun x hx => h x (List.mem_append_left _ hx), fun x hx => h x (List.mem_append_right _ hx)⟩

theorem Emitting.refl : Emitting callee slot s s := ⟨[], .refl s, by simp⟩

theorem Emitting.trans (h₁ : Emitting callee slot s t) (h₂ : Emitting callee slot t u) : Emitting callee slot s u := by
  obtain ⟨is, e₁, h₁⟩ := h₁
  obtain ⟨js, e₂, h₂⟩ := h₂
  exact ⟨is ++ js, e₁.trans e₂, List.forall_mem_append.mpr ⟨h₁, h₂⟩⟩

theorem Emitting.log (ev : ScopeEvent) : Emitting callee slot s (s.log ev) := ⟨[], .log ev, by simp⟩

theorem Emitting.emit {mk : Reg → Inst} (h : Plain (mk s.nextReg)) (hp : Produced callee slot (mk s.nextReg)) :
    Emitting callee slot s (s.emit mk) := ⟨_, .emit h, by simpa using hp⟩

theorem Emitting.store {p : Value} (h : Produced callee slot (.store v p)) :
    Emitting callee slot s (s.append [.store v p]) :=
  ⟨_, .store v p, by simpa using h⟩

/-! ### Expressions -/

variable [ConstantFolder]

theorem createBinOp_emitting {op : BinOp} (h : createBinOp op x y s = .ok v t) (hx : isResult x = true)
    (hy : isResult y = true) : Emitting callee slot s t ∧ isResult v = true := by
  rcases createBinOp_ok.mp h with ⟨_, _, -, -, rfl, rfl⟩ | ⟨-, rfl, rfl⟩
  · exact ⟨.refl, rfl⟩
  · exact ⟨.emit ⟨rfl, rfl⟩ (.operation rfl (by simp [Inst.operands, hx, hy])), rfl⟩

theorem createICmp_emitting {p : Pred} (h : createICmp p x y s = .ok v t) (hx : isResult x = true)
    (hy : isResult y = true) : Emitting callee slot s t ∧ isResult v = true := by
  rcases createICmp_ok.mp h with ⟨_, _, -, -, rfl, rfl⟩ | ⟨-, rfl, rfl⟩
  · exact ⟨.refl, rfl⟩
  · exact ⟨.emit ⟨rfl, rfl⟩ (.operation rfl (by simp [Inst.operands, hx, hy])), rfl⟩

theorem createSelect_emitting (h : createSelect c x y s = .ok v t) (hc : isResult c = true) (hx : isResult x = true)
    (hy : isResult y = true) : Emitting callee slot s t ∧ isResult v = true := by
  rcases createSelect_ok.mp h with ⟨_, _, _, -, -, -, rfl, rfl⟩ | ⟨-, rfl, rfl⟩
  · exact ⟨.refl, rfl⟩
  · exact ⟨.emit ⟨rfl, rfl⟩ (.operation rfl (by simp [Inst.operands, hc, hx, hy])), rfl⟩

theorem createIntCast_emitting (h : createIntCast x s = .ok v t) (hx : isResult x = true) :
    Emitting callee slot s t ∧ isResult v = true := by
  rcases createIntCast_ok.mp h with ⟨-, rfl, rfl⟩ | ⟨-, ⟨_, -, rfl, rfl⟩ | ⟨-, rfl, rfl⟩⟩
  · exact ⟨.refl, hx⟩
  · exact ⟨.refl, rfl⟩
  · exact ⟨.emit ⟨rfl, rfl⟩ (.operation rfl (by simp [Inst.operands, hx])), rfl⟩

/-- The address of an element of a local array, or of the array that a variable points to. -/
theorem elementPtr_emitting {a : AllocaInst} {i : Value} (h : elementPtr a i s = .ok v t) (ha : slot a.slot a.ty)
    (hi : isResult i = true) : Emitting callee slot s t ∧ isResult v = true := by
  rcases elementPtr_ok h with ⟨⟨n, elt, hty⟩, rfl, rfl⟩ | ⟨hty, rfl, rfl⟩
  · rw [AllocaInst.value, hty]
    exact ⟨.emit ⟨rfl, rfl⟩ (.element (hty ▸ ha) hi), rfl⟩
  · have hload : Emitting callee slot s (s.emit (.load · .ptr a.value)) := .emit ⟨rfl, rfl⟩ (.scalar ha hty)
    exact ⟨hload.trans (.emit ⟨rfl, rfl⟩ (.address rfl (by simpa using hi))), rfl⟩

theorem globalElementPtr_emitting {g : GlobalVariable} {i : Value} (h : globalElementPtr g i s = .ok v t)
    (hi : isResult i = true) : Emitting callee slot s t ∧ isResult v = true := by
  rcases createGEP_ok.mp (globalElementPtr_ok.mp h) with ⟨_, _, _, -, -, -, rfl, rfl⟩ | ⟨-, rfl, rfl⟩
  · exact ⟨.refl, rfl⟩
  · exact ⟨.emit ⟨rfl, rfl⟩ (.address rfl (by simpa using ⟨rfl, hi⟩)), rfl⟩

theorem getValue_emitting {z : String} {sub : Option Value} (h : getValue z sub s = .ok v t) (hn : Named slot s)
    (hsub : ∀ i, sub = some i → isResult i = true) : Emitting callee slot s t ∧ isResult v = true := by
  rcases getValue_ok h with ⟨nv, hz, h⟩ | ⟨hz, h⟩
  · have hslot := hn.lookup hz
    rcases createGetValueInst_ok h with ⟨rfl, ⟨n, elt, hty⟩, rfl, rfl⟩ | ⟨rfl, hty, rfl, rfl⟩ |
      ⟨i, p, w, rfl, hp, rfl, rfl⟩
    · rw [AllocaInst.value, hty]
      exact ⟨(Emitting.log _).trans (.emit ⟨rfl, rfl⟩ (.element (hty ▸ hslot) rfl)), rfl⟩
    · exact ⟨(Emitting.log _).trans (.emit ⟨rfl, rfl⟩ (.scalar hslot hty)), rfl⟩
    · obtain ⟨hm, hr⟩ := elementPtr_emitting hp hslot (hsub i rfl)
      exact ⟨(Emitting.log _).trans (hm.trans (.emit ⟨rfl, rfl⟩ (.read hr))), rfl⟩
  · obtain ⟨g, -, ⟨-, -, ⟨c, -, rfl⟩, rfl⟩ | ⟨rfl, -, rfl, rfl⟩ | ⟨i, p, w, rfl, hp, rfl, rfl⟩⟩ := getGlobalValue_ok h
    · exact ⟨.log _, rfl⟩
    · exact ⟨(Emitting.log _).trans (.emit ⟨rfl, rfl⟩ (.read rfl)), rfl⟩
    · obtain ⟨hm, hr⟩ := globalElementPtr_emitting hp (hsub i rfl)
      exact ⟨(Emitting.log _).trans (hm.trans (.emit ⟨rfl, rfl⟩ (.read hr))), rfl⟩

/-- The operands of `||` and `&&`. -/
theorem logicalOperands_make {a b : Exp} {lv rv : Value}
    (iha : ∀ {t : State} {v : Value}, genExp a s = .ok v t → Emitting callee slot s t ∧ isResult v = true)
    (ihb : ∀ {u t : State} {v : Value}, genExp b u = .ok v t → Emitting callee slot s u →
      Emitting callee slot u t ∧ isResult v = true)
    (h : LogicalOperands a b s lv rv t) : Emitting callee slot s t ∧ isResult lv = true ∧ isResult rv = true := by
  obtain ⟨x, u, m, y, n, hx, hl, hy, hr⟩ := h
  obtain ⟨m₁, r₁⟩ := iha hx
  obtain ⟨m₂, r₂⟩ := createICmp_emitting hl rfl r₁
  obtain ⟨m₃, r₃⟩ := ihb hy (m₁.trans m₂)
  obtain ⟨m₄, r₄⟩ := createICmp_emitting hr rfl r₃
  exact ⟨((m₁.trans m₂).trans m₃).trans m₄, r₂, r₄⟩

mutual

theorem genExp_emitting : ∀ (e : Exp) {s t : State} {v : Value}, genExp e s = .ok v t → Named slot s →
    Calling callee e.calls s → Emitting callee slot s t ∧ isResult v = true
  | .number n, s, t, v, h, _, _ => by
    rw [genExp] at h
    obtain ⟨rfl, rfl⟩ := pure_ok.mp h
    exact ⟨.refl, rfl⟩
  | .name x, s, t, v, h, hn, _ => by
    rw [genExp] at h
    exact getValue_emitting h hn fun _ hi => by cases hi
  | .index x e, s, t, v, h, hn, hc => by
    obtain ⟨i, u, hi, h⟩ := genExp_index_ok.mp h
    obtain ⟨is, em⟩ := genExp_emits e hi
    rw [Exp.calls] at hc
    obtain ⟨m₁, r₁⟩ := genExp_emitting e hi hn hc
    obtain ⟨m₂, r₂⟩ := getValue_emitting h (hn.emits em) fun j hj => Option.some.inj hj ▸ r₁
    exact ⟨m₁.trans m₂, r₂⟩
  | .call f args, s, t, v, h, hn, hc => by
    obtain ⟨func, vs, u, hf, -, hvs, rfl, rfl⟩ := genExp_call_ok.mp h
    rw [Exp.calls] at hc
    obtain ⟨m, r⟩ := genExps_make args hvs hn fun x hx => hc x (List.mem_cons_of_mem _ hx)
    -- A found function has the name it was looked up by, which is one of the calls of the expression.
    have hname : func.name = f := by simpa using List.find?_some hf
    have hcallee : callee func.name :=
      hname ▸ hc f List.mem_cons_self (List.mem_map.mpr ⟨func, List.mem_of_find?_eq_some hf, hname⟩)
    exact ⟨m.trans (.emit ⟨rfl, rfl⟩ (.call hcallee r)), rfl⟩
  | .unary op e, s, t, v, h, hn, hc => by
    obtain ⟨x, u, hx, h⟩ := genExp_unary_ok.mp h
    rw [Exp.calls] at hc
    obtain ⟨m₁, r₁⟩ := genExp_emitting e hx hn hc
    cases op with
    | plus =>
      obtain ⟨rfl, rfl⟩ := h
      exact ⟨m₁, r₁⟩
    | minus =>
      obtain ⟨m₂, r₂⟩ := createBinOp_emitting h.2 rfl r₁
      exact ⟨m₁.trans m₂, r₂⟩
    | not =>
      obtain ⟨b, w, hb, h⟩ := h
      obtain ⟨m₂, r₂⟩ := createICmp_emitting hb rfl r₁
      obtain ⟨m₃, r₃⟩ := createIntCast_emitting h r₂
      exact ⟨m₁.trans (m₂.trans m₃), r₃⟩
  | .arith op a b, s, t, v, h, hn, hc => by
    obtain ⟨x, u, y, w, hx, hy, h⟩ := genExp_arith_ok.mp h
    obtain ⟨is, em⟩ := genExp_emits a hx
    rw [Exp.calls] at hc
    obtain ⟨m₁, r₁⟩ := genExp_emitting a hx hn hc.of_append.1
    obtain ⟨m₂, r₂⟩ := genExp_emitting b hy (hn.emits em) (hc.of_append.2.emits em)
    obtain ⟨m₃, r₃⟩ := createBinOp_emitting h r₁ r₂
    exact ⟨m₁.trans (m₂.trans m₃), r₃⟩
  | .cmp p a b, s, t, v, h, hn, hc => by
    obtain ⟨x, u, y, w, c, k, hx, hy, hk, h⟩ := genExp_cmp_ok.mp h
    obtain ⟨is, em⟩ := genExp_emits a hx
    rw [Exp.calls] at hc
    obtain ⟨m₁, r₁⟩ := genExp_emitting a hx hn hc.of_append.1
    obtain ⟨m₂, r₂⟩ := genExp_emitting b hy (hn.emits em) (hc.of_append.2.emits em)
    obtain ⟨m₃, r₃⟩ := createICmp_emitting hk r₁ r₂
    obtain ⟨m₄, r₄⟩ := createIntCast_emitting h r₃
    exact ⟨m₁.trans (m₂.trans (m₃.trans m₄)), r₄⟩
  | .land a b, s, t, v, h, hn, hc => by
    obtain ⟨lv, rv, w, c, k, ho, hk, h⟩ := genExp_land_ok.mp h
    rw [Exp.calls] at hc
    obtain ⟨m₁, rl, rr⟩ := logicalOperands_make (fun h => genExp_emitting a h hn hc.of_append.1)
      (fun h hm => by
        obtain ⟨is, em, -⟩ := hm
        exact genExp_emitting b h (hn.emits em) (hc.of_append.2.emits em)) ho
    obtain ⟨m₂, r₂⟩ := createSelect_emitting hk rl rr rfl
    obtain ⟨m₃, r₃⟩ := createIntCast_emitting h r₂
    exact ⟨m₁.trans (m₂.trans m₃), r₃⟩
  | .lor a b, s, t, v, h, hn, hc => by
    obtain ⟨lv, rv, w, c, k, ho, hk, h⟩ := genExp_lor_ok.mp h
    rw [Exp.calls] at hc
    obtain ⟨m₁, rl, rr⟩ := logicalOperands_make (fun h => genExp_emitting a h hn hc.of_append.1)
      (fun h hm => by
        obtain ⟨is, em, -⟩ := hm
        exact genExp_emitting b h (hn.emits em) (hc.of_append.2.emits em)) ho
    obtain ⟨m₂, r₂⟩ := createSelect_emitting hk rl rfl rr
    obtain ⟨m₃, r₃⟩ := createIntCast_emitting h r₂
    exact ⟨m₁.trans (m₂.trans m₃), r₃⟩

theorem genExps_make : ∀ (es : List Exp) {s t : State} {vs : List Value}, genExps es s = .ok vs t → Named slot s →
    Calling callee (expsCalls es) s → Emitting callee slot s t ∧ ∀ v ∈ vs, isResult v = true
  | [], s, t, vs, h, _, _ => by
    obtain ⟨rfl, rfl⟩ := genExps_nil_ok.mp h
    exact ⟨.refl, by simp⟩
  | e :: es, s, t, vs, h, hn, hc => by
    obtain ⟨x, u, xs, hx, hxs, rfl⟩ := genExps_cons_ok.mp h
    obtain ⟨is, em⟩ := genExp_emits e hx
    rw [expsCalls] at hc
    obtain ⟨m₁, r₁⟩ := genExp_emitting e hx hn hc.of_append.1
    obtain ⟨m₂, r₂⟩ := genExps_make es hxs (hn.emits em) (hc.of_append.2.emits em)
    exact ⟨m₁.trans m₂, List.forall_mem_cons.mpr ⟨r₁, r₂⟩⟩

end

theorem codeGenExp_emitting {e : ExprNode} (h : codeGenExp e s = .ok v t) (hn : Named slot s)
    (hc : Calling callee e.calls s) : Emitting callee slot s t ∧ isResult v = true :=
  genExp_emitting e.core (codeGenExp_core e ▸ h) hn hc

end Emitting

/-! ### Definitions -/

section Define
variable {callee : String → Prop} {slot : Slot → Ty → Prop} {func base entry : Nat} {s t u : State} {v : Value}

/-- `slot` knows the allocas of the entry block. -/
def Covers (slot : Slot → Ty → Prop) (entry : Nat) (s : State) : Prop :=
  ∀ k ty count, Inst.alloca k ty count ∈ s.blocks entry → slot k ty

theorem Covers.named (h : Covers slot entry s) (hs : Prologue func entry s) : Named slot s := by
  intro layer hl b hb
  obtain ⟨count, hm⟩ := hs.named layer hl b hb
  exact h _ _ count hm

theorem Covers.emits {is : List Inst} (h : Covers slot entry t) (e : Emits s is t) : Covers slot entry s :=
  fun k ty count hm => h k ty count (e.mem_blocks hm)

/-- What is covered at the end of a run is covered at its begin. -/
theorem Covers.run (h : Covers slot entry t) (hs : Prologue func entry s) (r : GenRun func base s t) :
    Covers slot entry s := by
  intro k ty count hm
  obtain ⟨home, -, g⟩ := hs.grows r
  obtain ⟨as, js, hb, -, -⟩ := g.blocks entry
  refine h k ty count ?_
  rw [hb.1]
  exact List.mem_append_left _ (List.mem_append_right _ hm)

theorem Calling.run {xs : List String} (h : Calling callee xs s) (r : GenRun func base s t) : Calling callee xs t := by
  rw [Calling, r.map_functions fun _ _ => rfl]
  exact h

theorem Emitting.allFrom (h : Emitting callee slot s t) (hs : Inserts entry s)
    (hp : AllFrom (Produced callee slot) entry s) :
    AllFrom (Produced callee slot) entry t := by
  obtain ⟨is, e, h⟩ := h
  exact (e.allFrom hs).mpr ⟨hp, h⟩

theorem elementStores_produced {a : AllocaInst} {n : Nat} {elt : Ty} (hty : a.ty = .array n elt)
    (ha : slot a.slot a.ty) :
    ∀ {vs : List Value} {idx : Nat} {r : Reg}, (∀ v ∈ vs, isResult v = true) →
      ∀ i ∈ elementStores a idx r vs, Produced callee slot i
  | [], _, _, _ => by simp [elementStores]
  | v :: vs, idx, r, hv => by
    obtain ⟨hv, hvs⟩ := List.forall_mem_cons.mp hv
    rw [elementStores, AllocaInst.value, hty]
    have hgep : Produced callee slot (.gep r (.array n elt) (.alloca a.slot (.array n elt))
        [.const (.int 0), .const (.int (.ofNat 64 idx))]) := .element (hty ▸ ha) rfl
    exact List.forall_mem_cons.mpr ⟨hgep,
      List.forall_mem_cons.mpr ⟨.write hv rfl, elementStores_produced hty ha hvs⟩⟩

variable [ConstantFolder]

/-- The alloca, the stores of the initial values, and the new name. A parameter begins with its argument. -/
theorem defineValue_produced {x : String} {ty : ValType} {vals : List Value} {size : Option Value} {isPtr : Bool}
    (hf : InFunc func s) (hs : Prologue func entry s) (h : defineValue x ty vals size isPtr s = .ok () t)
    (hc : Covers slot entry t) (hp : AllFrom (Produced callee slot) entry s)
    (hv : ∀ v ∈ vals, isResult v = true ∨ size = none ∧ ∃ n, v = .arg n (if isPtr then .ptr else .i64)) :
    AllFrom (Produced callee slot) entry t := by
  rcases defineValue_ok h with ⟨hn, -⟩ | ⟨layer, outer, a, w, -, -, hw, rfl⟩
  · exact absurd hn hf.layers
  · obtain ⟨p, w', hp', hw', hstores⟩ := createDefineValueInst_ok hw
    obtain ⟨e, he, hk, hshape, rfl⟩ := createEntryBlockAlloca_step hw'
    obtain ⟨l, hl, -, -⟩ := hs.point
    obtain rfl := Option.some.inj (hp'.symm.trans hl)
    obtain rfl := Option.some.inj (he.symm.trans hs.head)
    have hins : Inserts e (s.emitAlloca e a.ty size) := hs.inserts
    have halloca : AllFrom (Produced callee slot) e (s.emitAlloca e a.ty size) :=
      (allFrom_emitAlloca _ _).mpr ⟨hp, .alloca hshape⟩
    have hown : Inst.alloca s.nextSlot a.ty size ∈ (s.emitAlloca e a.ty size).blocks e := by
      have hself : (s.emitAlloca e a.ty size).blocks e = .alloca s.nextSlot a.ty size :: s.blocks e :=
        Function.update_self ..
      rw [hself]
      exact List.mem_cons_self
    have hcw : Covers slot e w := hc
    rw [← hk] at hown
    rcases hstores with ⟨rfl, v, hv', rfl⟩ | ⟨hne, rfl⟩
    · have em : Emits (s.emitAlloca e a.ty none) _ _ := .store v a.value
      have hslot : slot a.slot a.ty := (hcw.emits em) _ _ _ hown
      refine (em.allFrom hins).mpr ⟨halloca, List.forall_mem_singleton.mpr ?_⟩
      rcases hv v (List.mem_of_head? hv') with hr | ⟨-, n, rfl⟩
      · exact .assign hslot hr
      · obtain ⟨e', -, ⟨-, rfl, -⟩ | ⟨_, _, hsize, -⟩⟩ := createEntryBlockAlloca_ok.mp hw'
        · exact .param hslot fun n elt => by cases isPtr <;> simp
        · cases hsize
    · have em : Emits (s.emitAlloca e a.ty size) (elementStores a 0 (s.emitAlloca e a.ty size).nextReg vals) _ :=
        .appendRegs elementStores_plain vals.length
      have hslot : slot a.slot a.ty := (hcw.emits em) _ _ _ hown
      obtain ⟨elt, -, ⟨rfl, -⟩ | ⟨_, n, -, -, hty⟩⟩ := hshape
      · exact absurd rfl hne
      · refine (em.allFrom hins).mpr ⟨halloca, elementStores_produced hty hslot fun v hv' => ?_⟩
        exact (hv v hv').resolve_right fun h => hne h.1

theorem initVal_emitting {init : Option InitValNode} {idx : Nat} (h : initVal init idx s = .ok v t) (hn : Named slot s)
    (hc : Calling callee (optionalCalls InitValNode.calls init) s) : Emitting callee slot s t ∧ isResult v = true := by
  rcases initVal_ok.mp h with ⟨rfl, rfl, -⟩ | ⟨n, c, rfl, -, -, rfl, rfl⟩ | ⟨n, e, rfl, he, hv⟩
  · exact ⟨.refl, rfl⟩
  · exact ⟨.refl, rfl⟩
  · refine codeGenExp_emitting hv hn fun x hx => hc x ?_
    exact List.mem_flatMap.mpr ⟨e, List.mem_of_getElem? he, hx⟩

theorem initVals_make {init : Option InitValNode} : ∀ {n idx : Nat} {s t : State} {vs : List Value},
    initVals init idx n s = .ok vs t → Named slot s → Calling callee (optionalCalls InitValNode.calls init) s →
    Emitting callee slot s t ∧ ∀ v ∈ vs, isResult v = true
  | 0, idx, s, t, vs, h, _, _ => by
    obtain ⟨rfl, rfl⟩ := initVals_zero_ok.mp h
    exact ⟨.refl, by simp⟩
  | n + 1, idx, s, t, vs, h, hn, hc => by
    obtain ⟨v, w, ws, hv, hws, rfl⟩ := initVals_cons_ok.mp h
    obtain ⟨is, e⟩ := initVal_emits hv
    obtain ⟨m₁, r₁⟩ := initVal_emitting hv hn hc
    obtain ⟨m₂, r₂⟩ := initVals_make hws (hn.emits e) (hc.emits e)
    exact ⟨m₁.trans m₂, List.forall_mem_cons.mpr ⟨r₁, r₂⟩⟩

theorem getInitVals_make {init : Option InitValNode} {size : Option Value} {vs : List Value}
    (h : getInitVals init size s = .ok vs t) (hn : Named slot s)
    (hc : Calling callee (optionalCalls InitValNode.calls init) s) :
    Emitting callee slot s t ∧ ∀ v ∈ vs, isResult v = true := by
  rcases getInitVals_ok.mp h with ⟨-, h⟩ | ⟨_, _, -, -, -, h⟩
  · exact initVals_make h hn hc
  · exact initVals_make h hn hc

theorem GenInit.makes {d : Def} {size : Option Value} {vs : List Value} (h : GenInit d.init d.exp s size vs t)
    (hn : Named slot s) (hc : Calling callee d.calls s) : Emitting callee slot s t ∧ ∀ v ∈ vs, isResult v = true := by
  obtain ⟨hc₁, hc₂⟩ := Calling.of_append hc
  unfold GenInit at h
  cases he : d.exp with
  | none =>
    rw [he] at h
    exact getInitVals_make h.2 hn hc₂
  | some e =>
    rw [he] at h hc₁
    obtain ⟨sz, w, -, he, hv⟩ := h
    obtain ⟨is, em⟩ := codeGenExp_emits he
    obtain ⟨m₁, -⟩ := codeGenExp_emitting he hn hc₁
    obtain ⟨m₂, r₂⟩ := getInitVals_make hv (hn.emits em) (hc₂.emits em)
    exact ⟨m₁.trans m₂, r₂⟩

theorem Def.gen_produced {d : Def} (hf : InFunc func s) (hs : Prologue func entry s) (h : d.gen s = .ok () t)
    (hc : Covers slot entry t) (hx : Calling callee d.calls s) (hp : AllFrom (Produced callee slot) entry s) :
    AllFrom (Produced callee slot) entry t := by
  obtain ⟨r, -⟩ := Def.gen_run entry hf h
  obtain ⟨size, vs, w, hi, h⟩ := codeGenDef_ok.mp h
  obtain ⟨is, em⟩ := hi.emits
  obtain ⟨m, hv⟩ := hi.makes ((hc.run hs r).named hs) hx
  exact defineValue_produced (hf.emits em) (hs.emits em) h hc (m.allFrom hs.inserts hp) fun v hv' => Or.inl (hv v hv')

theorem defs_produced : ∀ {ds : List Def} {s t : State}, InFunc func s → Prologue func entry s →
    ds.forM Def.gen s = .ok ⟨⟩ t → Covers slot entry t → Calling callee (ds.flatMap Def.calls) s →
    AllFrom (Produced callee slot) entry s → AllFrom (Produced callee slot) entry t
  | [], s, t, _, _, h, _, _, hp => by
    obtain rfl := forM_nil_ok.mp h
    exact hp
  | d :: ds, s, t, hf, hs, h, hc, hx, hp => by
    obtain ⟨w, hd, h⟩ := forM_cons_ok.mp h
    obtain ⟨r, hdef⟩ := Def.gen_run entry hf hd
    obtain ⟨hx₁, hx₂⟩ := Calling.of_append hx
    have hfw := hf.run r hdef.layers
    have hsw := r.prologue (Nat.le_refl _) hs
    obtain ⟨r', -⟩ := defs_run entry hfw h
    have hw := Def.gen_produced hf hs hd (hc.run hsw r') hx₁ hp
    exact defs_produced hfw hsw h hc (hx₂.run r) hw

end Define

/-! ### Statements -/

section Stmts
variable {callee : String → Prop} {slot : Slot → Ty → Prop} {func base entry : Nat} {s t u : State} {v c : Value}

variable [ConstantFolder]

theorem setValue_emitting {x : String} {sub : Option Value} (h : setValue x v sub s = .ok () t) (hf : InFunc func s)
    (hn : Named slot s) (hv : isResult v = true) (hsub : ∀ i, sub = some i → isResult i = true) :
    Emitting callee slot s t := by
  rcases setValue_ok h with ⟨a, hx, h⟩ | ⟨hx, h⟩
  · have hslot := hn.lookup hx
    rcases createSetValueInst_ok h with ⟨rfl, rfl⟩ | ⟨i, p, w, rfl, hp, rfl⟩
    · exact (Emitting.log _).trans (.store (.assign hslot hv))
    · obtain ⟨hm, hr⟩ := elementPtr_emitting hp hslot (hsub i rfl)
      exact (Emitting.log _).trans (hm.trans (.store (.write hv hr)))
  · obtain ⟨g, -, ⟨-, hn', -⟩ | ⟨rfl, -, rfl⟩ | ⟨i, p, w, rfl, hp, rfl⟩⟩ := setGlobalValue_ok h
    · exact absurd hn' hf.layers
    · exact (Emitting.log _).trans (Emitting.trans (.emit ⟨rfl, rfl⟩ (.read rfl)) (.store (.write hv rfl)))
    · obtain ⟨hm, hr⟩ := globalElementPtr_emitting hp (hsub i rfl)
      exact (Emitting.log _).trans (hm.trans (.store (.write hv hr)))

theorem codeGenSubIdx_emitting {sub : Option ExprNode} {idx : Option Value} (h : codeGenSubIdx sub s = .ok idx t)
    (hn : Named slot s) (hc : Calling callee (optionalCalls ExprNode.calls sub) s) :
    Emitting callee slot s t ∧ ∀ i, idx = some i → isResult i = true := by
  rcases codeGenSubIdx_ok.mp h with ⟨rfl, rfl, rfl⟩ | ⟨e, i, rfl, rfl, hi⟩
  · exact ⟨.refl, by simp⟩
  · obtain ⟨m, r⟩ := codeGenExp_emitting hi hn hc
    exact ⟨m, fun j hj => Option.some.inj hj ▸ r⟩

/-- A condition, and its comparison with zero. -/
theorem cond_emitting {e : ExprNode} {w : State} (hv : codeGenExp e s = .ok v w) (hb : intToBoolean v w = .ok c t)
    (hn : Named slot s) (hc : Calling callee e.calls s) : Emitting callee slot s t ∧ isResult c = true := by
  obtain ⟨m₁, r₁⟩ := codeGenExp_emitting hv hn hc
  obtain ⟨m₂, r₂⟩ := createICmp_emitting hb rfl r₁
  exact ⟨m₁.trans m₂, r₂⟩

omit [ConstantFolder] in
theorem allFrom_produced_append {i : Inst} (hs : Inserts entry s) (hp : AllFrom (Produced callee slot) entry s)
    (hi : Produced callee slot i) : AllFrom (Produced callee slot) entry (s.append [i]) :=
  (allFrom_append hs).mpr ⟨hp, List.forall_mem_singleton.mpr hi⟩

omit [ConstantFolder] in
theorem produced_br {l : Label} : Produced callee slot (.br l) := .terminator rfl (by simp [Inst.operands])

theorem IfRun.produced {e : ExprNode} {thenStmt : StmtNode} {elseStmt : Option StmtNode} {s₁ s₂ s₃ s₄ : State}
    {k r : InsertPoint} (h : IfRun func e thenStmt elseStmt s v s₁ c s₂ s₃ k s₄ r t) (hs : Prologue func entry s)
    (hn : Named slot s) (hx : Calling callee e.calls s) (hp : AllFrom (Produced callee slot) entry s)
    (iha : AllFrom (Produced callee slot) entry (s₂.thenStart func c) → AllFrom (Produced callee slot) entry s₃)
    (ihb : AllFrom (Produced callee slot) entry
    ((s₃.brUnlessBranch k (s₂.nextLabel + 2)).enter func (s₂.nextLabel + 1)) →
      AllFrom (Produced callee slot) entry s₄) : AllFrom (Produced callee slot) entry t := by
  obtain ⟨is, em⟩ := h.emits
  have hle := Nat.le_of_lt hs.entry_lt
  have hs₂ : Inserts entry s₂.newBlocks := (hs.emits em).inserts
  have hs₃ := h.thenRun.prologue (by omega) (h.start.prologue hle hs)
  have hs₄ := h.elseRun.prologue (by omega) (h.else_prologue hs)
  obtain ⟨m, hc⟩ := cond_emitting h.cond h.bool hn hx
  have hstart : AllFrom (Produced callee slot) entry (s₂.thenStart func c) :=
    allFrom_produced_append hs₂ (m.allFrom hs.inserts hp) (.terminator rfl (by simp [Inst.operands, hc]))
  have hthen := iha hstart
  have helse : AllFrom (Produced callee slot) entry ((s₃.brUnlessBranch k (s₂.nextLabel + 2)).enter func
      (s₂.nextLabel + 1)) := (allFrom_brUnlessBranch hs₃.inserts produced_br).mpr hthen
  rw [h.result]
  exact (allFrom_brUnlessBranch hs₄.inserts produced_br).mpr (ihb helse)

theorem WhileRun.produced {e : ExprNode} {body : StmtNode} {s₁ s₂ s₃ : State} {k : InsertPoint}
    (h : WhileRun func e body s v s₁ c s₂ s₃ k t) (hs : Prologue func entry s) (hn : Named slot s)
    (hx : Calling callee e.calls s) (hp : AllFrom (Produced callee slot) entry s)
    (ih : AllFrom (Produced callee slot) entry (s₂.bodyStart func c s.nextLabel) →
      AllFrom (Produced callee slot) entry s₃) : AllFrom (Produced callee slot) entry t := by
  obtain ⟨is, em⟩ := h.emits
  have hle := Nat.le_of_lt hs.entry_lt
  have hloop := loopStart_prologue hs
  have hs₃ := h.bodyRun.prologue (by omega) (h.body_prologue hs)
  have hjump : AllFrom (Produced callee slot) entry (s.loopStart func) :=
    allFrom_produced_append (s := s.newBlocks.pushLoop (s.nextLabel, s.nextLabel + 2)) hs.inserts hp produced_br
  have hnl : Named slot (s.loopStart func) := by
    rw [Named, loopStart_namedValues]
    exact hn
  obtain ⟨m, hc⟩ := cond_emitting h.cond h.bool hnl (hx.run loopStart_run)
  have hbody : AllFrom (Produced callee slot) entry (s₂.bodyStart func c s.nextLabel) :=
    allFrom_produced_append (hloop.emits em).inserts (m.allFrom hloop.inserts hjump)
      (.terminator rfl (by simp [Inst.operands, hc]))
  rw [h.result]
  exact (allFrom_brUnlessBranch hs₃.inserts produced_br).mpr (ih hbody)

omit [ConstantFolder] in
theorem StmtNode.calls_if (e : ExprNode) (a : StmtNode) (b : Option StmtNode) :
    (StmtNode.ifStmt e a b).calls = e.calls ++ a.calls ++ (elseBranch b).calls := by
  cases b with
  | none => simp [StmtNode.calls, elseBranch, optionalCalls]
  | some b => rw [StmtNode.calls, elseBranch, Option.getD_some]

mutual

/-- What a statement adds to a function are such instructions. -/
theorem codeGenStmt_produced : ∀ (st : StmtNode) {s t : State}, InFunc func s → Prologue func entry s →
    codeGenStmt st s = .ok () t → Covers slot entry t → Calling callee st.calls s →
    AllFrom (Produced callee slot) entry s → AllFrom (Produced callee slot) entry t
  | .block items, s, t, hf, hs, hg, hc, hx, hp => by
    obtain ⟨w, hw, rfl⟩ := codeGenStmt_block_ok.mp hg
    have hs' : Prologue func entry (s.pushLayer.log .push) :=
      (GenStep.pushLayer.prologue (Nat.le_refl _) hs).emits (Emits.log _)
    have hf' : InFunc func (s.pushLayer.log .push) := ⟨hf.point, List.cons_ne_nil _ _⟩
    have hcw : Covers slot entry w := hc
    rw [StmtNode.calls] at hx
    have hitems := codeGenBlockItems_produced items hf' hs' hw hcw hx hp
    exact hitems
  | .ifStmt e a b, s, t, hf, hs, hg, hc, hx, hp => by
    have r₀ := (codeGenStmt_run (.ifStmt e a b) hf (Nat.le_of_lt hs.entry_lt) hg).1
    obtain ⟨v, s₁, c, s₂, s₃, q, s₄, r, hr⟩ := codeGenStmt_if_run
      (fun _ _ _ hf hb h => codeGenStmt_run a hf hb h)
      (fun _ _ _ hf hb h => codeGenStmt_elseBranch_run b hf hb h) hf hg
    rw [StmtNode.calls_if] at hx
    obtain ⟨hx, hxb⟩ := hx.of_append
    obtain ⟨hxe, hxa⟩ := hx.of_append
    have hle := Nat.le_of_lt hs.entry_lt
    have hthen := hr.start.prologue hle hs
    have helse := hr.else_prologue hs
    have hs₃ := hr.thenRun.prologue (by omega) hthen
    have hs₄ := hr.elseRun.prologue (by omega) helse
    -- What covers the allocas at the end covers the ones there are at any earlier point.
    have hc₄ : Covers slot entry s₄ := hc.run hs₄ hr.finish
    have hc₃ : Covers slot entry s₃ := (hc₄.run helse hr.elseRun).run hs₃ hr.middle
    refine hr.produced hs ((hc.run hs r₀).named hs) hxe hp (fun h => ?_) fun h => ?_
    · exact codeGenStmt_produced a hr.thenIn hthen hr.thenGen hc₃ (hxa.run hr.start) h
    · exact codeGenStmt_elseBranch_produced b hr.elseIn helse hr.elseGen hc₄
        (((hxb.run hr.start).run hr.thenRun).run hr.middle) h
  | .whileStmt e body, s, t, hf, hs, hg, hc, hx, hp => by
    have r₀ := (codeGenStmt_run (.whileStmt e body) hf (Nat.le_of_lt hs.entry_lt) hg).1
    obtain ⟨v, s₁, c, s₂, s₃, q, hr⟩ :=
      codeGenStmt_while_run (fun _ _ _ hf hb h => codeGenStmt_run body hf hb h) hf hg
    rw [StmtNode.calls] at hx
    obtain ⟨hxe, hxb⟩ := hx.of_append
    have hbody := hr.body_prologue hs
    have hs₃ := hr.bodyRun.prologue (by have := hs.entry_lt; omega) hbody
    refine hr.produced hs ((hc.run hs r₀).named hs) hxe hp fun h => ?_
    exact codeGenStmt_produced body hr.bodyIn hbody hr.bodyGen (hc.run hs₃ hr.finish) (hxb.run hr.start) h
  | .continueStmt, s, t, _, hs, hg, _, _, hp => by
    obtain ⟨loop, outer, -, rfl⟩ := codeGenStmt_continue_ok.mp hg
    exact allFrom_produced_append hs.inserts hp produced_br
  | .breakStmt, s, t, _, hs, hg, _, _, hp => by
    obtain ⟨loop, outer, -, rfl⟩ := codeGenStmt_break_ok.mp hg
    exact allFrom_produced_append hs.inserts hp produced_br
  | .ret none, s, t, _, hs, hg, _, _, hp => by
    obtain rfl := codeGenStmt_retVoid_ok.mp hg
    exact allFrom_produced_append hs.inserts hp (.terminator rfl (by simp [Inst.operands]))
  | .ret (some e), s, t, hf, hs, hg, hc, hx, hp => by
    obtain ⟨v, w, hv, rfl⟩ := codeGenStmt_ret_ok.mp hg
    obtain ⟨is, em⟩ := codeGenExp_emits hv
    have r₀ := (codeGenStmt_run (.ret (some e)) hf (Nat.le_of_lt hs.entry_lt) hg).1
    obtain ⟨m, r⟩ := codeGenExp_emitting hv ((hc.run hs r₀).named hs) hx
    exact allFrom_produced_append (hs.emits em).inserts (m.allFrom hs.inserts hp)
      (.terminator rfl (by simp [Inst.operands, r]))
  | .expr none, s, t, _, _, hg, _, _, hp => by
    obtain rfl := codeGenStmt_empty_ok.mp hg
    exact hp
  | .expr (some e), s, t, hf, hs, hg, hc, hx, hp => by
    obtain ⟨v, hv⟩ := codeGenStmt_expr_ok.mp hg
    obtain ⟨is, em⟩ := codeGenExp_emits hv
    exact (codeGenExp_emitting hv ((hc.emits em).named hs) hx).1.allFrom hs.inserts hp
  | .assign x sub e, s, t, hf, hs, hg, hc, hx, hp => by
    have r₀ := (codeGenStmt_run (.assign x sub e) hf (Nat.le_of_lt hs.entry_lt) hg).1
    have hn := (hc.run hs r₀).named hs
    obtain ⟨v, w, idx, u, hv, hidx, hset⟩ := codeGenStmt_assign_ok.mp hg
    obtain ⟨is, e₁⟩ := codeGenExp_emits hv
    obtain ⟨js, e₂⟩ := codeGenSubIdx_emits hidx
    rw [StmtNode.calls] at hx
    obtain ⟨hxe, hxs⟩ := hx.of_append
    obtain ⟨m₁, r₁⟩ := codeGenExp_emitting hv hn hxe
    obtain ⟨m₂, r₂⟩ := codeGenSubIdx_emitting hidx (hn.emits e₁) (hxs.emits e₁)
    have m₃ : Emitting callee slot u t := setValue_emitting hset ((hf.emits e₁).emits e₂) ((hn.emits e₁).emits e₂) r₁ r₂
    exact (m₁.trans (m₂.trans m₃)).allFrom hs.inserts hp

theorem codeGenStmt_elseBranch_produced : ∀ (st : Option StmtNode) {s t : State}, InFunc func s →
    Prologue func entry s → codeGenStmt (elseBranch st) s = .ok () t → Covers slot entry t →
    Calling callee (elseBranch st).calls s → AllFrom (Produced callee slot) entry s →
    AllFrom (Produced callee slot) entry t
  | none, s, t, _, _, hg, _, _, hp => by
    obtain rfl := codeGenStmt_empty_ok.mp hg
    exact hp
  | some st, s, t, hf, hs, hg, hc, hx, hp => codeGenStmt_produced st hf hs hg hc hx hp

theorem codeGenBlockItem_produced : ∀ (item : BlockItemNode) {s t : State}, InFunc func s → Prologue func entry s →
    codeGenBlockItem item s = .ok () t → Covers slot entry t → Calling callee item.calls s →
    AllFrom (Produced callee slot) entry s → AllFrom (Produced callee slot) entry t
  | .decl d, s, t, hf, hs, hg, hc, hx, hp => by
    rw [codeGenBlockItem_decl, codeGenDecl_defs] at hg
    rw [BlockItemNode.calls] at hx
    exact defs_produced hf hs hg hc hx hp
  | .stmt st, s, t, hf, hs, hg, hc, hx, hp => by
    rw [BlockItemNode.calls] at hx
    exact codeGenStmt_produced st hf hs (codeGenBlockItem_stmt ▸ hg) hc hx hp

theorem codeGenBlockItems_produced : ∀ (items : List BlockItemNode) {s t : State}, InFunc func s →
    Prologue func entry s → codeGenBlockItems items s = .ok () t → Covers slot entry t →
    Calling callee (itemsCalls items) s → AllFrom (Produced callee slot) entry s →
    AllFrom (Produced callee slot) entry t
  | [], s, t, _, _, hg, _, _, hp => by
    obtain rfl := codeGenBlockItems_nil_ok.mp hg
    exact hp
  | item :: items, s, t, hf, hs, hg, hc, hx, hp => by
    obtain ⟨w, hw, hg⟩ := codeGenBlockItems_cons_ok.mp hg
    obtain ⟨r, d⟩ := codeGenBlockItem_run item hf (Nat.le_of_lt hs.entry_lt) hw
    rw [itemsCalls] at hx
    obtain ⟨hx₁, hx₂⟩ := hx.of_append
    have hfw := hf.run r d.layers
    have hsw := r.prologue (Nat.le_refl _) hs
    obtain ⟨r', -⟩ := codeGenBlockItems_run items hfw (Nat.le_of_lt hsw.entry_lt) hg
    have hw' := codeGenBlockItem_produced item hf hs hw (hc.run hsw r') hx₁ hp
    exact codeGenBlockItems_produced items hfw hsw hg hc (hx₂.run r) hw'

end

end Stmts

/-! ### Functions -/

section Functions
variable {callee : String → Prop} {slot : Slot → Ty → Prop} {func entry : Nat} {s t : State} {node : FuncNode}

variable [ConstantFolder]

theorem defineParams_produced : ∀ {ps : List (String × FParamType)} {i : Nat} {s t : State}, InFunc func s →
    Prologue func entry s → defineParams i ps s = .ok () t → Covers slot entry t →
    AllFrom (Produced callee slot) entry s → AllFrom (Produced callee slot) entry t
  | [], i, s, t, _, _, h, _, hp => by
    rw [defineParams] at h
    obtain ⟨-, rfl⟩ := pure_ok.mp h
    exact hp
  | (x, ty) :: ps, i, s, t, hf, hs, h, hc, hp => by
    rw [defineParams] at h
    obtain ⟨w, hw, h⟩ := seq_ok.mp h
    obtain ⟨r, d⟩ := defineValue_run entry hf hw
    have hfw := hf.run r d.layers
    have hsw := r.prologue (Nat.le_refl _) hs
    have hcw : Covers slot entry w := hc.run hsw (defineParams_run entry hfw h).1
    have hp' := defineValue_produced hf hs hw hcw hp fun v hv => Or.inr ⟨rfl, i, List.mem_singleton.mp hv⟩
    exact defineParams_produced hfw hsw h hc hp'

omit [ConstantFolder] in
/-- What holds of a return without a value holds behind the epilogue. -/
theorem AllFrom.retUnlessReturn {P : Inst → Prop} {p : InsertPoint} (hs : Inserts entry s) (hp : AllFrom P entry s)
    (hret : P (.ret none)) : AllFrom P entry (s.retUnlessReturn p) := by
  have hall : ∀ i ∈ [Inst.ret none], P i := List.forall_mem_singleton.mpr hret
  unfold State.retUnlessReturn
  split
  · split
    · exact hp
    · exact (allFrom_append hs).mpr ⟨hp, hall⟩
  · exact (allFrom_append (s := { s with emptyBack := true }) hs).mpr ⟨hp, hall⟩

/-- The slots and types of the allocas in the entry block. -/
def State.HasSlot (s : State) (entry : Nat) (k : Slot) (ty : Ty) : Prop :=
  ∃ count, Inst.alloca k ty count ∈ s.blocks entry

/-- All instructions of a generated function are such instructions; it calls only functions that its body names. -/
theorem codeGenFunc_produced (hs : Idle s) (h : codeGenFunc node s = .ok () t) :
    AllFrom (Produced (fun x => x ∈ node.calls ∧ x ∈ t.functions.map (·.name)) (t.HasSlot s.nextLabel)) s.nextLabel
    t := by
  obtain ⟨s₁, s₂, p, hr⟩ := codeGenFunc_run h
  have hle : s.nextLabel ≤ s.nextLabel + 1 := Nat.le_succ _
  have hp₀ : Prologue s.functions.length s.nextLabel (node.start s) := start_prologue hs
  have hp₁ := hr.paramsRun.prologue hle hp₀
  have hp₂ := hr.bodyRun.prologue hle hp₁
  have hf₁ : InFunc s.functions.length s₁ := start_inFunc.run hr.paramsRun hr.defined.layers
  have hend : GenRun s.functions.length (s.nextLabel + 1) s₂ t := by
    rw [hr.result]
    exact GenRun.retUnlessReturn.trans (.head .popLayer (GenRun.emits (.log _)))
  have hc : Covers (t.HasSlot s.nextLabel) s.nextLabel t := fun k ty count hm => ⟨count, hm⟩
  have hc₂ := hc.run hp₂ hend
  have hstart : AllFrom (Produced (fun x => x ∈ node.calls ∧ x ∈ t.functions.map (·.name)) (t.HasSlot s.nextLabel))
      s.nextLabel (node.start s) := by
    intro l hl i hi
    have hb : (node.start s).blocks l = [] := hs.fresh l hl
    rw [hb] at hi
    cases hi
  have hx : Calling (fun x => x ∈ node.calls ∧ x ∈ t.functions.map (·.name)) (StmtNode.block node.block).calls s₁ := by
    intro x hx hm
    rw [StmtNode.calls] at hx
    refine ⟨hx, ?_⟩
    have r : GenRun s.functions.length (s.nextLabel + 1) s₁ t := hr.bodyRun.trans hend
    rwa [r.map_functions fun _ _ => rfl]
  have hparams := defineParams_produced start_inFunc hp₀ hr.params (hc₂.run hp₁ hr.bodyRun) hstart
  have hbody := codeGenStmt_produced _ hf₁ hp₁ hr.body hc₂ hx hparams
  have hret := hbody.retUnlessReturn (p := p) hp₂.inserts (.terminator rfl (by simp [Inst.operands]))
  rw [hr.result] at hret ⊢
  exact hret

end Functions

end L24
