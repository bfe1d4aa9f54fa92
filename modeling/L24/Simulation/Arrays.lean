import L24.Simulation.Expr
import L24.Theorems.Registers
import L24.Theorems.Scopes

/-! Arrays under subscripts: of a local array and of an array parameter, the code reads and writes the element that
    the subscript says. The address of an element of a global array has an index of no bits, unless it folds to the
    array itself, and the load of an element has the type of the array. -/

namespace L24
open Ir Relation Steps

/-! ### Arrays in memory -/

/-- A value made before register `n` stays what it is. -/
theorem Keeps.eval {n : Nat} {fr fr' : Frame} {v : Value} (h : Keeps n fr fr') (hv : Below n v) :
    fr'.eval v = fr.eval v := by
  cases v with
  | const d => rfl
  | arg i ty => rw [Frame.eval, Frame.eval, h.args]
  | alloca s ty => rw [Frame.eval, Frame.eval, h.slots]
  | inst r ty => exact h.regs r (hv r ty rfl)

/-- The elements `vals` are in the cells from `off` on. -/
def ArrayAt (mem : Mem) (b : Blk) (off : Int) (vals : List (BitVec 64)) : Prop :=
  ∀ (j : Nat) e, vals[j]? = some e → mem.cell? b (off + j) = some (.int e)

/-- The type of an array variable, or of an array parameter. -/
def ArrayTy (ty : Ty) : Prop := (∃ n, ty = .array n .i64) ∨ ty = .ptr

/-- The name stands for an array: a local one or a parameter, or a global one. -/
def State.IsArray (s : State) (x : String) : Prop :=
  match s.lookup x with
  | some nv => ArrayTy nv.alloca.ty
  | none => ∃ g n, s.global? x = some g ∧ g.valueTy = .array n .i64

/-- The name stands for a local constant, which no assignment may change. -/
def State.IsConst (s : State) (x : String) : Prop := ∃ a, s.lookup x = some (.constVal a)

/-- In the activation `fr` the variable `a` is an array, or points to one, that begins at the address. -/
inductive ArrayStorage (a : AllocaInst) (fr : Frame) (mem : Mem) : Blk → Int → Prop
  | array {n k : Nat} (ht : a.ty = .array n .i64) (hk : fr.slots a.slot = some k) : ArrayStorage a fr mem (.stack k) 0
  | pointer {k : Nat} {b : Blk} {off : Int} (ht : a.ty = .ptr) (hk : fr.slots a.slot = some k)
      (hp : mem.cell? (.stack k) 0 = some (.ptr b off)) : ArrayStorage a fr mem b off

/-- In the activation `fr` the array `x` begins at the address. -/
inductive ArrayBegins (s : State) (x : String) (fr : Frame) (mem : Mem) : Blk → Int → Prop
  | «local» {nv : NamedValue} {b : Blk} {off : Int} (hl : s.lookup x = some nv)
      (h : ArrayStorage nv.alloca fr mem b off) : ArrayBegins s x fr mem b off
  | global {g : GlobalVariable} {n : Nat} (hl : s.lookup x = none) (hg : s.global? x = some g)
      (ht : g.valueTy = .array n .i64) : ArrayBegins s x fr mem (.global x) 0

/-! ### Accesses -/

/-- The indices of a constant address are `i64`s. -/
def addressIndexed : Value → Prop
  | .const (.gep _ _ i j) => i.ty = .i64 ∧ j.ty = .i64
  | _ => True

/-- The instruction computes addresses with `i64` indices only. -/
def Indexed : Inst → Prop
  | .gep _ _ p idx => addressIndexed p ∧ ∀ v ∈ idx, v.ty = .i64
  | .load _ _ p => addressIndexed p
  | .store _ p => addressIndexed p
  | _ => True

/-- The operand `i` has the value `k` in the frame, the number of an element. -/
structure Subscripts (fr : Frame) (i : Value) (k : BitVec 64) : Prop where
  eval : fr.eval i = some (.int k)
  nonneg : 0 ≤ k.toInt

section
variable [ConstantFolder]

/-- Assigning to `x[i]` is an error, or it has `i64` indices, and in every activation it stores into the element
    number `i` only. -/
def WritesElement (x : String) (v i : Value) (s : State) : Prop :=
  Logs (setValue x v (some i)) s ∨
    ∃ t is, setValue x v (some i) s = .ok () t ∧ Emits s is t ∧ (∀ j ∈ is, Indexed j) ∧
      ∀ {fr : Frame} {mem : Mem} {b : Blk} {off : Int} {vals : List (BitVec 64)} {k e : BitVec 64} {z : Val},
        ArrayBegins s x fr mem b off → ArrayAt mem b off vals → Subscripts fr i k → vals[k.toInt.toNat]? = some e →
          fr.eval v = some z → ∃ fr', Executes s.nextReg is fr mem fr' (mem.put b (off + k.toInt).toNat z)

section Access
variable {s t : State} {x : String} {i v p : Value} {a : AllocaInst} {g : GlobalVariable} {fr : Frame} {mem : Mem}
    {b : Blk}
  {off : Int} {vals : List (BitVec 64)} {k e : BitVec 64}

omit [ConstantFolder] in
theorem ArrayAt.element (h : ArrayAt mem b off vals) (hk : 0 ≤ k.toInt) (he : vals[k.toInt.toNat]? = some e) :
    mem.cell? b (off + k.toInt) = some (.int e) := by
  have hc := h _ _ he
  rwa [Int.toNat_of_nonneg hk] at hc

omit [ConstantFolder] in
theorem load_ptr {o d : Int} {b' : Blk} (h : mem.cell? b o = some (.ptr b' d)) :
    mem.load .ptr b o = some (.ptr b' d) := by
  unfold Mem.load
  rw [h]

omit [ConstantFolder] in
theorem ArrayBegins.storage {nv : NamedValue} (h : ArrayBegins s x fr mem b off) (hl : s.lookup x = some nv) :
    ArrayStorage nv.alloca fr mem b off := by
  cases h with
  | «local» hl' h =>
    rw [hl] at hl'
    cases hl'
    exact h
  | global hl' => cases hl.symm.trans hl'

omit [ConstantFolder] in
theorem State.IsArray.local {nv : NamedValue} (h : s.IsArray x) (hl : s.lookup x = some nv) : ArrayTy nv.alloca.ty := by
  unfold State.IsArray at h
  rwa [hl] at h

omit [ConstantFolder] in
theorem State.IsArray.global (h : s.IsArray x) (hl : s.lookup x = none) :
    ∃ g n, s.global? x = some g ∧ g.valueTy = .array n .i64 := by
  unfold State.IsArray at h
  rwa [hl] at h

theorem setValue_eq (x : String) (v i : Value) (s : State) : setValue x v (some i) s = (match s.lookup x with
    | none => setGlobalValue x v (some i)
    | some (.varVal a) => createSetValueInst a v (some i)
    | some (.constVal _) => logError (x ++ " is a const")) (s.log (.assign x true (s.storage? x))) := by
  rw [setValue, bind_of_ok (a := ⟨⟩) (modify_ok.mpr rfl), get_bind]
  rfl

theorem setValue_logs_iff (ha : s.IsArray x) : Logs (setValue x v (some i)) s ↔ s.IsConst x := by
  unfold Logs StopsWith State.IsConst
  simp only [setValue_eq]
  cases hl : s.lookup x with
  | none =>
    obtain ⟨g, n, hg, -⟩ := ha.global hl
    have hg' : (s.log (.assign x true (s.storage? x))).global? x = some g := hg
    simp only [reduceCtorEq, exists_false, iff_false, not_exists]
    exact fun msg u => setGlobalValue_not_logs hg'
  | some nv =>
    cases nv with
    | constVal a => exact ⟨fun _ => ⟨a, rfl⟩, fun _ => ⟨_, _, rfl⟩⟩
    | varVal a =>
      simp only [Option.some.injEq, reduceCtorEq, exists_false, iff_false, not_exists]
      exact fun msg u => unlogged_createSetValueInst.not_logs

/-- An assignment stores the value at an address, and there is a value. -/
structure Stores (v p : Value) (s t : State) : Prop where
  value : v.ty ≠ .void
  result : t = s.append [.store v p]

omit [ConstantFolder] in
theorem createStore_stores (h : createStore v p s = .ok () t) : Stores v p s t :=
  ⟨(createStore_ok.mp h).2.1, (createStore_ok.mp h).2.2⟩

theorem setValue_local_ok (hl : s.lookup x = some (.varVal a)) (h : setValue x v (some i) s = .ok () t) :
    ∃ p u, elementPtr a i (s.log (.assign x true (s.storage? x))) = .ok p u ∧ Stores v p u t := by
  rw [setValue_eq, hl] at h
  obtain ⟨p, u, hp, hs⟩ := bind_ok.mp h
  exact ⟨p, u, hp, createStore_stores hs⟩

theorem setValue_global_ok (hl : s.lookup x = none) (hg : s.global? x = some g)
    (h : setValue x v (some i) s = .ok () t) :
    ∃ p u, globalElementPtr g i (s.log (.assign x true (s.storage? x))) = .ok p u ∧ Stores v p u t := by
  rw [setValue_eq, hl] at h
  obtain ⟨g', w, hw, h⟩ := bind_ok.mp h
  obtain ⟨hg', rfl⟩ := requireGlobal_ok.mp hw
  obtain rfl : g = g' := Option.some.inj (hg.symm.trans hg')
  obtain ⟨p, u, hp, hs⟩ := bind_ok.mp h
  exact ⟨p, u, hp, createStore_stores hs⟩

/-- No assignment of nothing is generated. -/
theorem WritesElement.value (h : WritesElement x v i s) (ha : s.IsArray x) (hc : ¬ s.IsConst x) : v.ty ≠ .void := by
  rcases h with h | ⟨t, is, h, -⟩
  · exact absurd ((setValue_logs_iff ha).mp h) hc
  · cases hl : s.lookup x with
    | none =>
      obtain ⟨g, n, hg, -⟩ := ha.global hl
      obtain ⟨p, u, -, hs⟩ := setValue_global_ok hl hg h
      exact hs.value
    | some nv =>
      cases nv with
      | constVal a => exact absurd ⟨a, hl⟩ hc
      | varVal a =>
        obtain ⟨p, u, -, hs⟩ := setValue_local_ok hl h
        exact hs.value

end Access

/-! ### Programs -/

section Programs
variable {node : EntryNode} {c : Ctx} {s t : State} {x : String} {i v : Value}

theorem Visited.insertPoint {C : GenCall} (h : Visited node ⟨C, c, s⟩) (hc : c.locals ≠ []) :
    ∃ q, s.insertPoint = some q := by
  obtain ⟨func, entry, hf⟩ := (Visited.valid h).inside hc
  obtain ⟨l, hl⟩ := hf.inFunc.point
  exact ⟨_, hl⟩

end Programs

end

section
attribute [local instance] ConstantFolder.symbolic

end

end L24
