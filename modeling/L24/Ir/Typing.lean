import L24.Ir.Private

/-! Types of the IR: what the instructions of a well-typed module read and write, and what the values of a run of it
    are. Such a run stops only at operations that have no meaning. No address outlives the activation whose array it
    is in, and a pointer parameter refers to the array it was called with. -/

namespace Ir
open Relation

/-! ### Types -/

/-- The value is one of the type, or undefined. -/
def Val.HasTy (v : Val) : Ty → Prop
  | .i64 => v = .undef ∨ ∃ i, v = .int i
  | .i1 => v = .undef ∨ ∃ b, v = .bool b
  | .ptr => v = .undef ∨ ∃ b o, v = .ptr b o
  | .void | .i0 | .array _ _ => True

/-- An address is the one of the first cell. -/
def Val.First (v : Val) : Prop := ∀ b o, v = .ptr b o → o = 0

/-- The types of what the instructions of a function work on: its parameters, variables and registers, and the results
    and the parameters of what it calls. The registers in `whole` hold addresses of arrays as a whole, and `spill` says
    which parameters go to which variables. -/
structure Tables where
  params : List Ty
  slot : Slot → Ty → Prop
  reg : Reg → Ty → Prop
  whole : Reg → Prop
  callee : String → Ty → List Ty → Prop
  spill : Nat → Slot → Prop

/-- A value for an operation. -/
def Tables.Has (T : Tables) : Value → Ty → Prop
  | .const c, ty => c.ty = ty ∧ ty ≠ .ptr ∧ c.eval.HasTy ty
  | .inst r ty', ty => ty' = ty ∧ T.reg r ty
  | .arg _ _, _ | .alloca _ _, _ => False

/-- A value for a parameter: arrays are passed as a whole. -/
def Tables.Passes (T : Tables) (v : Value) (ty : Ty) : Prop :=
  T.Has v ty ∧ (ty = .i64 ∨ ty = .ptr ∧ ∃ r, v = .inst r .ptr ∧ T.whole r)

/-- The instruction gives the address of an array as a whole. -/
def Inst.isWhole : Inst → Bool
  | .load _ .ptr _ => true
  | .gep _ _ _ [.const i, .const j] => i == .int 0 && j == .int 0
  | _ => false

/-- The register of the result, and its type. -/
def Inst.result? : Inst → Option (Reg × Ty)
  | .load r ty _ => some (r, ty)
  | .gep r _ _ _ => some (r, .ptr)
  | .binop r _ _ _ | .zext r _ _ => some (r, .i64)
  | .icmp r _ _ _ | .select r _ _ _ => some (r, .i1)
  | .call r _ ty _ _ => if ty = .void then none else some (r, ty)
  | _ => none

/-- The instructions of a well-typed function. -/
inductive Inst.Typed (T : Tables) : Inst → Prop
  | alloca {k : Slot} {ty : Ty} (hty : ty = .i64 ∨ ty = .ptr) : Typed T (.alloca k ty none)
  | allocaArray {k : Slot} {n : Nat} {size : BitVec 64} :
    Typed T (.alloca k (.array n .i64) (some (.const (.int size))))
  | loadVar {r : Reg} {k : Slot} {ty : Ty} (hs : T.slot k ty) (hty : ty = .i64 ∨ ty = .ptr) :
    Typed T (.load r ty (.alloca k ty))
  | loadGlobal {r : Reg} {x : String} {ty : Ty} (hty : ty = .i64 ∨ ∃ n elt, ty = .array n elt) :
    Typed T (.load r ty (.const (.global x ty)))
  | loadElement {r : Reg} {p : Value} (hp : T.Has p .ptr) : Typed T (.load r .i64 p)
  | storeVar {v : Value} {k : Slot} (hs : T.slot k .i64) (hv : T.Has v .i64) : Typed T (.store v (.alloca k .i64))
  /-- A variable for a parameter begins with the argument. -/
  | spill {n : Nat} {k : Slot} {ty : Ty} (hs : T.slot k ty) (hty : ty = .i64 ∨ ty = .ptr)
    (hn : T.params[n]? = some ty) (hk : T.spill n k) : Typed T (.store (.arg n ty) (.alloca k ty))
  | storeGlobal {v : Value} {x : String} (hv : T.Has v .i64) : Typed T (.store v (.const (.global x .i64)))
  | storeElement {v p : Value} (hv : T.Has v .i64) (hp : T.Has p .ptr) : Typed T (.store v p)
  | gepArray {r : Reg} {k : Slot} {n : Nat} {i : Value} (hs : T.slot k (.array n .i64)) (hi : T.Has i .i64) :
    Typed T (.gep r (.array n .i64) (.alloca k (.array n .i64)) [.const (.int 0), i])
  | gepPtr {r : Reg} {p i : Value} (hp : T.Passes p .ptr) (hi : T.Has i .i64) : Typed T (.gep r .i64 p [i])
  | binop {r : Reg} {op : BinOp} {a b : Value} (ha : T.Has a .i64) (hb : T.Has b .i64) : Typed T (.binop r op a b)
  | icmp {r : Reg} {p : Pred} {a b : Value} (ha : T.Has a .i64) (hb : T.Has b .i64) : Typed T (.icmp r p a b)
  | select {r : Reg} {c a b : Value} (hc : T.Has c .i1) (ha : T.Has a .i1) (hb : T.Has b .i1) :
    Typed T (.select r c a b)
  | zext {r : Reg} {a : Value} (ha : T.Has a .i1) : Typed T (.zext r a .i64)
  | call {r : Reg} {f : String} {ty : Ty} {args : List Value} {name : String} {params : List Ty}
    (hf : T.callee f ty params) (hty : ty = .i64 ∨ ty = .void) (ha : List.Forall₂ T.Passes args params) :
    Typed T (.call r f ty args name)
  | br {l : Label} : Typed T (.br l)
  | condBr {c : Value} {l m : Label} (hc : T.Has c .i1) : Typed T (.condBr c l m)
  | retVoid : Typed T (.ret none)
  | ret {v : Value} (hv : T.Has v .i64) : Typed T (.ret (some v))

/-- A value of an expression: one for an operation or a parameter, or the result of a function without one. -/
def Tables.Gives (T : Tables) (v : Value) : Prop :=
  v.ty = .void ∨ T.Has v v.ty ∧ (v.ty = .ptr → ∃ r, v = .inst r .ptr ∧ T.whole r)

/-- The tables know what the instruction defines. -/
structure Tables.Knows (T : Tables) (i : Inst) : Prop where
  reg : ∀ r ty, i.result? = some (r, ty) → T.reg r ty
  whole : ∀ r, i.isWhole = true → i.reg? = some r → T.whole r
  slot : ∀ k ty count, i = .alloca k ty count → T.slot k ty

section Tables
variable {T : Tables} {v : Value} {ty : Ty} {i : Inst}

theorem Tables.Gives.has (h : T.Gives v) (hv : v.ty = ty) (hty : ty ≠ .void) : T.Has v ty := by
  subst hv
  exact (h.resolve_left hty).1

theorem Tables.Gives.passes (h : T.Gives v) (hv : v.ty = ty) (hty : ty = .i64 ∨ ty = .ptr) : T.Passes v ty := by
  subst hv
  have hne : v.ty ≠ .void := by rcases hty with hty | hty <;> simp [hty]
  obtain ⟨hh, hw⟩ := h.resolve_left hne
  exact ⟨hh, hty.imp_right fun hp => ⟨hp, hw hp⟩⟩

theorem Tables.Has.ty_eq (h : T.Has v ty) : v.ty = ty := by
  cases v with
  | const c => exact h.1
  | inst r ty' => exact h.1
  | arg => cases h
  | alloca => cases h

theorem Tables.Has.gives (h : T.Has v ty) (hty : ty ≠ .ptr) : T.Gives v := by
  obtain rfl := h.ty_eq
  exact .inr ⟨h, fun hp => absurd hp hty⟩

/-- Other tables for the variables of the parameters. -/
theorem Inst.Typed.spilled {spill : Nat → Slot → Prop} (h : i.Typed T)
    (hnew : ∀ n k ty, i = .store (.arg n ty) (.alloca k ty) → spill n k) : i.Typed { T with spill := spill } := by
  cases h with
  | alloca hty => exact .alloca hty
  | allocaArray => exact .allocaArray
  | loadVar hs hty => exact .loadVar hs hty
  | loadGlobal hty => exact .loadGlobal hty
  | loadElement h => exact .loadElement h
  | storeVar hs hv => exact .storeVar hs hv
  | spill hs hty hn hk => exact .spill hs hty hn (hnew _ _ _ rfl)
  | storeGlobal hv => exact .storeGlobal hv
  | storeElement hv h => exact .storeElement hv h
  | gepArray hs hi => exact .gepArray hs hi
  | gepPtr h hi => exact .gepPtr h hi
  | binop ha hb => exact .binop ha hb
  | icmp ha hb => exact .icmp ha hb
  | select hc ha hb => exact .select hc ha hb
  | zext ha => exact .zext ha
  | call hf hty ha => exact .call hf hty ha
  | br => exact .br
  | condBr hc => exact .condBr hc
  | retVoid => exact .retVoid
  | ret hv => exact .ret hv

end Tables

/-! ### Well-typed modules -/

/-- The register is the result of an instruction, of the type. -/
def Function.Defines (F : Function) (r : Reg) (ty : Ty) : Prop :=
  ∃ b ∈ F.blocks, ∃ i ∈ b.2, i.result? = some (r, ty)

/-- The register is the address of an array as a whole. -/
def Function.DefinesWhole (F : Function) (r : Reg) : Prop :=
  ∃ b ∈ F.blocks, ∃ i ∈ b.2, i.isWhole = true ∧ i.reg? = some r

/-- The register is the result of a call. -/
def Function.FromCall (F : Function) (r : Reg) : Prop :=
  ∃ b ∈ F.blocks, ∃ i ∈ b.2, i.reg? = some r ∧ i.callee?.isSome = true

/-- The variable in the slot is for parameter number `n`. -/
def Function.Spills (F : Function) (n : Nat) (k : Slot) : Prop :=
  ∃ b ∈ F.blocks, ∃ ty, Inst.store (.arg n ty) (.alloca k ty) ∈ b.2

/-- The types in a function of the module. -/
def Function.tables (F : Function) (M : Module) : Tables where
  params := F.params
  slot := F.Allocates
  reg := F.Defines
  whole := F.DefinesWhole
  callee f ty params := ∃ G, M.function? f = some G ∧ G.retTy = ty ∧ G.params = params
  spill := F.Spills

/-- Each instruction is typed, each block ends, and what an instruction reads is defined before it. -/
structure Function.Typed (F : Function) (M : Module) : Prop where
  insts : ∀ b ∈ F.blocks, ∀ i ∈ b.2, i.Typed (F.tables M)
  /-- A variable begins with one parameter only. -/
  spilled : ∀ n m k, F.Spills n k → F.Spills m k → n = m
  ends : ∀ b ∈ F.blocks, ∃ i ∈ b.2, i.isTerminator = true
  dominated : F.Dominated
  frame : F.StaticFrame

/-- Every function is typed. -/
def Module.Typed (M : Module) : Prop := ∀ F ∈ M.functions, F.Typed M

section Static
variable {F : Function} {M : Module} {b : Label × List Inst} {i j : Inst} {r : Reg} {ty ty' : Ty} {k : Slot}

theorem reg?_of_result? (h : i.result? = some (r, ty)) : i.reg? = some r := by
  cases i with
  | call r' f ty' args name =>
    simp only [Inst.result?] at h
    split at h
    · cases h
    · cases h
      rfl
  | alloca | store | br | condBr | ret => cases h
  | _ =>
    cases h
    rfl

/-- A register is the result of one instruction. -/
theorem Function.Dominated.unique (h : F.Dominated) {b' : Label × List Inst} (hb : b ∈ F.blocks) (hb' : b' ∈ F.blocks)
    (hi : i ∈ b.2) (hj : j ∈ b'.2) (hri : i.reg? = some r) (hrj : j.reg? = some r) : i = j := by
  have hresults : F.results = (F.blocks.flatMap (·.2)).filterMap Inst.reg? := by
    rw [Function.results, List.filterMap_flatMap]
  have hd := h.once
  rw [hresults] at hd
  by_contra hne
  have hsymm : Std.Symm fun a a' : Inst => ∀ x, a.reg? = some x → ∀ y, a'.reg? = some y → x ≠ y :=
    ⟨fun a a' h x hx y hy he => h y hy x hx he.symm⟩
  exact (List.pairwise_filterMap.mp hd).forall (List.mem_flatMap.mpr ⟨b, hb, hi⟩)
    (List.mem_flatMap.mpr ⟨b', hb', hj⟩) hne
    r hri r hrj rfl

/-- What the tables say of the register of an instruction. -/
theorem Function.Dominated.reg (h : F.Dominated) (hb : b ∈ F.blocks) (hi : i ∈ b.2) (hr : i.reg? = some r)
    (ht : F.Defines r ty) : i.result? = some (r, ty) := by
  obtain ⟨b', hb', j, hj, hres⟩ := ht
  rwa [h.unique hb hb' hi hj hr (reg?_of_result? hres)]

theorem Function.Dominated.whole (h : F.Dominated) (hb : b ∈ F.blocks) (hi : i ∈ b.2) (hr : i.reg? = some r)
    (ht : F.DefinesWhole r) : i.isWhole = true := by
  obtain ⟨b', hb', j, hj, hw, hrj⟩ := ht
  rwa [h.unique hb hb' hi hj hr hrj]

/-- There is a block to go to. -/
theorem Function.StaticFrame.block? (h : F.StaticFrame) (hb : b ∈ F.blocks) (hi : i ∈ b.2) {l : Label}
    (hl : l ∈ i.targets) : ∃ code, F.block? l = some code := by
  obtain ⟨b', hb', rfl⟩ := List.mem_map.mp (h.inside b hb i hi l hl)
  rw [← Option.isSome_iff_exists, Function.block?, List.lookup_isSome_iff]
  exact ⟨b', List.mem_of_mem_tail hb', beq_self_eq_true _⟩

end Static

/-! ### Well-typed states -/

/-- An array of the activation is in the block. -/
def Frame.HasArray (fr : Frame) (n : Nat) : Prop :=
  ∃ k m elt, fr.func.Allocates k (.array m elt) ∧ fr.slots k = some n

/-- The value, if it is an address, is one in a global variable or in an array of one of the activations. -/
def Val.Refers (frames : List Frame) (v : Val) : Prop :=
  ∀ b o, v = .ptr b o → (∃ x, b = .global x) ∨ ∃ n, b = .stack n ∧ ∃ fr ∈ frames, fr.HasArray n

/-- What the cells of a variable hold: integers, or, for a pointer, the argument that the variable is for. -/
def Frame.Stores (fr : Frame) (k : Slot) (vs : List Val) : Ty → Prop
  | .ptr => vs ≠ [] ∧ ∀ v ∈ vs, v = .undef ∨ ∃ n, fr.func.Spills n k ∧ fr.args[n]? = some v
  | .i64 => vs ≠ [] ∧ ∀ v ∈ vs, v.HasTy .i64
  | _ => ∀ v ∈ vs, v.HasTy .i64

/-- The activation, called from those in `outer`, has values of the right types. What the instructions before its next
    one give is in the registers, except for calls, which may give nothing. -/
structure Frame.Fits (outer : List Frame) (fr : Frame) : Prop where
  args : List.Forall₂ (fun v ty => v.HasTy ty ∧ v.First) fr.args fr.func.params
  passed : ∀ v ∈ fr.args, v.Refers outer
  refers : ∀ v, fr.Has v → v.Refers (fr :: outer)
  regs : ∀ r v, fr.regs r = some v → (∀ ty, fr.func.Defines r ty → v.HasTy ty) ∧ (fr.func.DefinesWhole r → v.First)
  orderly : Orderly fr.func fr
  done : ∃ b ∈ fr.func.blocks, ∃ is, b.2 = is ++ fr.code ∧
    ∀ i ∈ is, ∀ r, i.reg? = some r → i.callee? = none → (fr.regs r).isSome
  ends : ∃ i ∈ fr.code, i.isTerminator = true
  slots : ∀ k ty, fr.func.Allocates k ty → (fr.slots k).isSome ∨ ∃ count, .alloca k ty count ∈ fr.code

/-- The register takes the result of a call: an integer. -/
structure Frame.Awaits (fr : Frame) (r : Reg) : Prop where
  int : ∀ ty, fr.func.Defines r ty → ty = .i64
  element : ¬ fr.func.DefinesWhole r

/-- Each frame fits those that wait for it, and the one that called it awaits its result. -/
def StackFits : List Frame → Prop
  | [] => True
  | fr :: outer => fr.Fits outer ∧ (∀ caller, outer.head? = some caller → caller.Awaits fr.dest) ∧ StackFits outer

/-- The global variables hold integers, and each alloca what a variable of its type holds. -/
structure MemFits (frames : List Frame) (mem : Mem) : Prop where
  globals : ∀ x, ∀ v ∈ mem.cells (.global x), v.HasTy .i64
  slots : ∀ fr ∈ frames, ∀ k ty n, fr.func.Allocates k ty → fr.slots k = some n → fr.Stores k (mem.cells (.stack n)) ty

/-- What every state of a run of a typed module keeps. -/
structure Config.Fits {W : Type} (M : Module) (c : Config W) : Prop where
  secured : Secured M c
  stack : StackFits c.frames
  mem : MemFits c.frames c.mem

/-- A library that gives integers and leaves memory alone. -/
def Ext.Plain {W : Type} (ext : Ext W) : Prop := ∀ callee args mem w o mem' w',
  ext callee args mem w = some (o, mem', w') → mem' = mem ∧ ∀ v, o = some v → v.HasTy .i64

section Values
variable {v : Val} {ty : Ty} {frames frames' : List Frame} {fr fr' : Frame} {n : Nat} {hidden : Nat → Prop}

theorem Val.HasTy.not_ptr (h : v.HasTy .i64) (b : Blk) (o : Int) : v ≠ .ptr b o := by
  rcases h with rfl | ⟨i, rfl⟩ <;> exact fun h => by cases h

theorem Val.HasTy.first (h : v.HasTy .i64) : v.First := fun b o hv => absurd hv (h.not_ptr b o)

theorem Val.HasTy.refers (h : v.HasTy .i64) : v.Refers frames := fun b o hv => absurd hv (h.not_ptr b o)

theorem hasTy_int (i : BitVec 64) : (Val.int i).HasTy .i64 := .inr ⟨i, rfl⟩

theorem hasTy_bool (b : Bool) : (Val.bool b).HasTy .i1 := .inr ⟨b, rfl⟩

theorem hasTy_undef : (Val.undef).HasTy ty := by cases ty <;> first | exact .inl rfl | trivial

theorem refers_of_not_ptr (h : ∀ b o, v ≠ .ptr b o) : v.Refers frames := fun b o hv => absurd hv (h b o)

theorem Frame.HasArray.mono (h : fr.HasArray n) (hf : fr'.func = fr.func)
    (hs : ∀ k n, fr.slots k = some n → fr'.slots k = some n) : fr'.HasArray n := by
  obtain ⟨k, m, elt, ha, hk⟩ := h
  exact ⟨k, m, elt, hf ▸ ha, hs k n hk⟩

theorem Val.Refers.mono (h : v.Refers frames)
    (hs : ∀ n, ∀ fr ∈ frames, fr.HasArray n → ∃ fr' ∈ frames', fr'.HasArray n) :
    v.Refers frames' := by
  intro b o hv
  refine (h b o hv).imp_right fun hn => ?_
  obtain ⟨n, hb, fr, hfr, ha⟩ := hn
  exact ⟨n, hb, hs n fr hfr ha⟩

theorem Val.Refers.outer (h : v.Refers frames) : v.Refers (fr :: frames) :=
  h.mono fun _ fr hfr ha => ⟨fr, List.mem_cons_of_mem _ hfr, ha⟩

theorem Val.Refers.top (h : v.Refers (fr :: frames)) (hf : fr'.func = fr.func)
    (hs : ∀ k n, fr.slots k = some n → fr'.slots k = some n) : v.Refers (fr' :: frames) := by
  refine h.mono fun n f hm ha => ?_
  rcases List.mem_cons.mp hm with rfl | hm
  · exact ⟨fr', List.mem_cons_self, ha.mono hf hs⟩
  · exact ⟨f, List.mem_cons_of_mem _ hm, ha⟩

theorem Val.First.undef : (Val.undef).First := fun _ _ h => by cases h

theorem Ext.Plain.confined {W : Type} {ext : Ext W} (h : ext.Plain) : ext.Confined := by
  intro callee args mem w o mem' w' he
  obtain ⟨rfl, ho⟩ := h _ _ _ _ _ _ _ he
  exact ⟨rfl, fun hidden _ hm => ⟨fun v hv n o hp => absurd hp ((ho v hv).not_ptr _ _), hm, fun _ _ => rfl⟩⟩

end Values

end Ir
