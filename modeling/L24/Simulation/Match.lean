import L24.Lib.Steps
import L24.Semantics
import L24.Simulation.Code

/-! How a running frame matches the generator's tables and the state of the source program: the values of
    operands, the cells of variables, and the place in the code. -/

namespace L24
open Ir Relation Steps

section
variable {W : Type}

/-- The library functions, as the machine calls them: they leave memory alone. -/
def libraryExt (lib : Library W) : Ext W := fun f args mem w =>
  (args.mapM Val.int?).bind fun vs => (lib f vs w).map fun (v, w') => ((libraryResult f v).map .int, mem, w')

/-- The machine that runs the finished program. -/
abbrev machine (lib : Library W) (fin : State) : Config W → Option (Config W) := step fin.toModule (libraryExt lib)

theorem machine_run {lib : Library W} {fin : State} {fr : Frame} {stack : List Frame} {mem : Mem} {w : W} {i : Inst}
    {code : List Inst} (h : fr.code = i :: code) : machine lib fin (.run fr stack mem w) =
      exec fin.toModule (libraryExt lib) i { fr with code } stack mem w := by
  rw [machine, step, h]

end

/-! ### Operands -/

/-- The same activation, with the registers below `n` unchanged. -/
structure Keeps (n : Nat) (fr fr' : Frame) : Prop where
  func : fr'.func = fr.func
  args : fr'.args = fr.args
  slots : fr'.slots = fr.slots
  dest : fr'.dest = fr.dest
  regs : ∀ r, r < n → fr'.regs r = fr.regs r

/-- The operand `v`, made before register `n`, has the value `c`. -/
structure Holds (fr : Frame) (n : Nat) (v : Value) (c : Const) : Prop where
  ty : v.ty = c.ty
  eval : fr.eval v = some c.eval
  const : ∀ d, v = .const d → d = c
  reg : ∀ r ty, v = .inst r ty → r < n

section Operands
variable {fr fr' fr'' : Frame} {m n : Nat} {v : Value} {c : Const}

theorem Keeps.refl (fr : Frame) : Keeps n fr fr := ⟨rfl, rfl, rfl, rfl, fun _ _ => rfl⟩

theorem Keeps.trans (h₁ : Keeps m fr fr') (h₂ : Keeps n fr' fr'') (hn : m ≤ n) : Keeps m fr fr'' :=
  ⟨h₂.func.trans h₁.func, h₂.args.trans h₁.args, h₂.slots.trans h₁.slots, h₂.dest.trans h₁.dest,
    fun r hr => (h₂.regs r (Nat.lt_of_lt_of_le hr hn)).trans (h₁.regs r hr)⟩

theorem Keeps.mono (h : Keeps n fr fr') (hn : m ≤ n) : Keeps m fr fr' := (Keeps.refl fr).trans h hn

theorem Holds.literal (c : Const) : Holds fr n (.const c) c :=
  ⟨rfl, rfl, fun _ h => (Value.const.inj h).symm, fun _ _ h => by cases h⟩

theorem Holds.setReg {r : Reg} {ty : Ty} {code : List Inst} (hr : r < n) (ht : ty = c.ty) :
    Holds (({ fr with code := code } : Frame).setReg r c.eval) n (.inst r ty) c where
  ty := ht
  eval := Function.update_self ..
  const d h := by cases h
  reg r' ty' h := by
    cases h
    exact hr

/-- An operand keeps its value. -/
theorem Holds.keep (h : Holds fr n v c) (k : Keeps n fr fr') (hn : n ≤ m) : Holds fr' m v c where
  ty := h.ty
  eval := by
    rw [← h.eval]
    cases v with
    | const d => rfl
    | arg i ty => rw [Frame.eval, Frame.eval, k.args]
    | alloca s ty => rw [Frame.eval, Frame.eval, k.slots]
    | inst r ty => exact k.regs r (h.reg r ty rfl)
  const := h.const
  reg r ty hv := Nat.lt_of_lt_of_le (h.reg r ty hv) hn

theorem Keeps.setReg {r : Reg} {x : Val} {code : List Inst} (hr : n ≤ r) :
    Keeps n fr (({ fr with code := code } : Frame).setReg r x) :=
  ⟨rfl, rfl, rfl, rfl, fun _ hk => Function.update_of_ne (Nat.ne_of_lt (Nat.lt_of_lt_of_le hk hr)) ..⟩

theorem Keeps.code (code : List Inst) : Keeps n fr { fr with code := code } := ⟨rfl, rfl, rfl, rfl, fun _ _ => rfl⟩

/-- The operands `vs` have the values `xs`. -/
def HoldsAll (fr : Frame) (n : Nat) (vs : List Value) (xs : List (BitVec 64)) : Prop :=
  List.Forall₂ (fun v x => Holds fr n v (.int x)) vs xs

theorem HoldsAll.keep {vs : List Value} {xs : List (BitVec 64)} (h : HoldsAll fr n vs xs) (k : Keeps n fr fr')
    (hn : n ≤ m) : HoldsAll fr' m vs xs := h.imp fun _ _ h => h.keep k hn

theorem HoldsAll.mapM {vs : List Value} {xs : List (BitVec 64)} (h : HoldsAll fr n vs xs) :
    vs.mapM fr.eval = some (xs.map .int) := by
  induction h with
  | nil => rfl
  | cons hv _ ih =>
    rw [List.mapM_cons, hv.eval, ih]
    rfl

end Operands

/-! ### Places in the code -/

/-- The frame stands behind the code that `s` has in block `p`, where the builder inserts. -/
structure At {fin : State} (T : Target fin) (s : State) (p : Label) (fr : Frame) : Prop where
  block : InBlock T s p
  code : fr.code = s.rest fin p

section Places
variable {fin : State} {T : Target fin} {s t : State} {p : Label} {fr : Frame}

theorem At.append {i : Inst} (h : At T s p fr) (hl : Later T (s.append [i])) (hi : i.isAlloca = false) :
    ∃ code, fr.code = i :: code ∧ At T (s.append [i]) p { fr with code } := by
  have hr := hl.rest_append h.block (by simpa using hi)
  exact ⟨_, h.code.trans hr, h.block.append _, rfl⟩

theorem Later.of_emit {mk : Reg → Inst} (h : Later T (s.emit mk)) : Later T (s.append [mk s.nextReg]) :=
  ⟨h.blocks, h.nextLabel, h.labels, h.function?, h.global?⟩

/-- The next instruction is the one that the builder inserts next. -/
theorem At.emit {mk : Reg → Inst} (h : At T s p fr) (hl : Later T (s.emit mk)) (hi : (mk s.nextReg).isAlloca = false) :
    ∃ code, fr.code = mk s.nextReg :: code ∧ At T (s.emit mk) p { fr with code } := by
  obtain ⟨code, hc, ha⟩ := h.append hl.of_emit hi
  exact ⟨code, hc, ha.block, ha.code⟩

theorem At.setReg {r : Reg} {x : Val} (h : At T s p fr) : At T s p (fr.setReg r x) := ⟨h.block, h.code⟩

/-- The state changes in nothing that the place depends on. -/
theorem At.congr (h : At T s p fr) (hp : t.insertPoint = s.insertPoint)
    (hb : codeOf (t.blocks p) = codeOf (s.blocks p)) : At T t p fr :=
  ⟨⟨hp.trans h.block.1, h.block.2⟩, h.code.trans (rest_congr hb.symm)⟩

/-- The begin of a block that has been entered. -/
theorem At.enter {l : Nat} (hin : InBlock T s l) (he : T.entry < l) (hs : s.blocks l = [])
    (hc : fr.code = fin.blocks l) : At T s l fr :=
  ⟨hin, hc.trans (rest_of_nil hs (T.plain l he hin.2)).symm⟩

/-- A branch to a block of the function. -/
theorem jump_eq {l : Label} (hf : fr.func = fin.toFunction T.obj) (hl : l ∈ T.obj.layout) :
    fr.jump l = some { fr with code := fin.blocks l } := by
  rw [Frame.jump, hf, toFunction_block? hl]
  rfl

end Places

/-! ### Memory -/

/-- The stack blocks below `n` keep their cells. -/
structure MemKept (n : Nat) (mem mem' : Mem) : Prop where
  next : mem.next ≤ mem'.next
  cells : ∀ b, b < n → mem'.cells (.stack b) = mem.cells (.stack b)

theorem MemKept.refl {n : Nat} (mem : Mem) : MemKept n mem mem := ⟨Nat.le_refl _, fun _ _ => rfl⟩

theorem MemKept.trans {m n : Nat} {mem mem' mem'' : Mem} (h₁ : MemKept m mem mem') (h₂ : MemKept n mem' mem'')
    (hn : m ≤ n) : MemKept m mem mem'' :=
  ⟨Nat.le_trans h₁.next h₂.next, fun b hb => (h₂.cells b (Nat.lt_of_lt_of_le hb hn)).trans (h₁.cells b hb)⟩

theorem MemKept.mono {m n : Nat} {mem mem' : Mem} (h : MemKept n mem mem') (hn : m ≤ n) : MemKept m mem mem' :=
  (MemKept.refl mem).trans h hn

theorem MemKept.put {n b i : Nat} {v : Val} {mem : Mem} (hb : n ≤ b) : MemKept n mem (mem.put (.stack b) i v) :=
  ⟨Nat.le_refl _, fun k hk => Mem.put_cells_of_ne fun h => by
    cases h
    exact absurd hb (Nat.not_le_of_lt hk)⟩

/-! ### Variables -/

section Variables

/-- The alloca's block holds the variable. -/
def CellMatch (slots : Slot → Option Nat) (mem : Mem) (a : AllocaInst) : Cell → Prop
  | .scalar v => a.ty = .i64 ∧ ∃ b, slots a.slot = some b ∧ b < mem.next ∧ mem.cells (.stack b) = [.int v]
  | .array vs => a.ty = .array vs.length .i64 ∧ ∃ b, slots a.slot = some b ∧ b < mem.next ∧
    ∃ tail, mem.cells (.stack b) = vs.map .int ++ tail

/-- The names of a layer are those of the scope, in their order, and each cell is in its storage. -/
def ScopeMatch (slots : Slot → Option Nat) (mem : Mem) : Layer → Scope → Prop :=
  List.Forall₂ fun e d => e.1 = d.1 ∧ CellMatch slots mem e.2.alloca d.2

/-- The layers name the allocas of the variables in scope. -/
def ScopesMatch (slots : Slot → Option Nat) (mem : Mem) : List Layer → Scopes → Prop :=
  List.Forall₂ (ScopeMatch slots mem)

/-- The blocks of the global variables hold their values. -/
def WorldMatch {W : Type} (fin : State) (w : World W) (mem : Mem) : Prop := ∀ x v, w.globals x = some v →
  ∃ g, fin.global? x = some g ∧ g.valueTy = .i64 ∧ mem.cells (.global x) = [.int v]

variable {slots : Slot → Option Nat} {mem mem' : Mem} {x : String}

theorem CellMatch.of_cells {a : AllocaInst} {c : Cell} (h : CellMatch slots mem a c) (hn : mem.next ≤ mem'.next)
    (hc : ∀ b, slots a.slot = some b → b < mem.next → mem'.cells (.stack b) = mem.cells (.stack b)) :
    CellMatch slots mem' a c := by
  cases c with
  | scalar v =>
    obtain ⟨ht, b, hb, hlt, hm⟩ := h
    exact ⟨ht, b, hb, Nat.lt_of_lt_of_le hlt hn, (hc b hb hlt).trans hm⟩
  | array vs =>
    obtain ⟨ht, b, hb, hlt, tail, hm⟩ := h
    exact ⟨ht, b, hb, Nat.lt_of_lt_of_le hlt hn, tail, (hc b hb hlt).trans hm⟩

theorem ScopesMatch.kept {layers : List Layer} {sc : Scopes} (h : ScopesMatch slots mem layers sc)
    (hk : MemKept mem.next mem mem') : ScopesMatch slots mem' layers sc :=
  h.imp fun _ _ h => h.imp fun _ _ h => ⟨h.1, h.2.of_cells hk.next fun b _ hlt => hk.cells b hlt⟩

theorem ScopesMatch.tail {layers : List Layer} {sc : Scopes} (h : ScopesMatch slots mem layers sc) :
    ScopesMatch slots mem layers.tail sc.tail := by
  cases h with
  | nil => exact .nil
  | cons _ h => exact h

theorem ScopeMatch.lookup {layer : Layer} {scope : Scope} (h : ScopeMatch slots mem layer scope) (x : String) :
    (layer.lookup x = none ∧ scope.lookup x = none) ∨
    ∃ nv c, layer.lookup x = some nv ∧ scope.lookup x = some c ∧ CellMatch slots mem nv.alloca c := by
  induction h with
  | nil => exact Or.inl ⟨rfl, rfl⟩
  | @cons e d layer scope hd _ ih =>
    obtain ⟨y, nv⟩ := e
    obtain ⟨z, c⟩ := d
    obtain ⟨rfl, hc⟩ := hd
    rw [List.lookup_cons, List.lookup_cons]
    cases x == y with
    | true => exact Or.inr ⟨nv, c, rfl, rfl, hc⟩
    | false => exact ih

/-- A name is in the layers if and only if it is in scope, and then it names the variable's alloca. -/
theorem ScopesMatch.lookup {layers : List Layer} {sc : Scopes} (h : ScopesMatch slots mem layers sc) (x : String) :
    (layers.findSome? (List.lookup x) = none ∧ sc.lookup x = none) ∨
    ∃ nv c, layers.findSome? (List.lookup x) = some nv ∧ sc.lookup x = some c ∧ CellMatch slots mem nv.alloca c := by
  induction h with
  | nil => exact Or.inl ⟨rfl, rfl⟩
  | @cons layer scope layers sc hd _ ih =>
    rw [Scopes.lookup, List.findSome?_cons, List.findSome?_cons]
    rcases hd.lookup x with ⟨h₁, h₂⟩ | ⟨nv, c, h₁, h₂, hc⟩
    · rw [h₁, h₂]
      exact ih
    · rw [h₁, h₂]
      exact Or.inr ⟨nv, c, rfl, rfl, hc⟩

theorem lookup_slot_mem {layer : Layer} {nv : NamedValue} (h : layer.lookup x = some nv) :
    nv.alloca.slot ∈ layer.map (·.2.alloca.slot) := by
  induction layer with
  | nil => cases h
  | cons e layer ih =>
    obtain ⟨y, k⟩ := e
    rw [List.lookup_cons] at h
    cases hx : x == y with
    | true =>
      rw [hx] at h
      cases h
      exact List.mem_cons_self
    | false =>
      rw [hx] at h
      exact List.mem_cons_of_mem _ (ih h)

/-- A change of memory that spares the slots of a layer. -/
theorem ScopeMatch.spared {layer : Layer} {scope : Scope} {k : Slot} {b : Nat} (h : ScopeMatch slots mem layer scope)
    (hk : k ∉ layer.map (·.2.alloca.slot)) (hb : ∀ j, slots j = some b → j = k) (hn : mem.next ≤ mem'.next)
    (hm : ∀ b', b' ≠ b → mem'.cells (.stack b') = mem.cells (.stack b')) : ScopeMatch slots mem' layer scope := by
  induction h with
  | nil => exact .nil
  | @cons e d layer scope hd _ ih =>
    rw [List.map_cons, List.mem_cons, not_or] at hk
    refine .cons ⟨hd.1, hd.2.of_cells hn fun b' hb' _ => hm b' fun he => hk.1 ?_⟩ (ih hk.2)
    rw [hb e.2.alloca.slot (he ▸ hb')]

theorem ScopeMatch.set {layer : Layer} {scope : Scope} {nv : NamedValue} {b : Nat} {c : Cell}
    (h : ScopeMatch slots mem layer scope) (hd : (layer.map (·.2.alloca.slot)).Nodup) (hx : layer.lookup x = some nv)
    (hb : ∀ j, slots j = some b → j = nv.alloca.slot) (hn : mem.next ≤ mem'.next)
    (hm : ∀ b', b' ≠ b → mem'.cells (.stack b') = mem.cells (.stack b')) (hc : CellMatch slots mem' nv.alloca c) :
    ScopeMatch slots mem' layer (scope.set x c) := by
  induction h with
  | nil => cases hx
  | @cons e d layer scope hed ht ih =>
    obtain ⟨y, k⟩ := e
    obtain ⟨z, c'⟩ := d
    obtain ⟨hyz, hc'⟩ := hed
    have hyz : y = z := hyz
    subst hyz
    rw [List.map_cons, List.nodup_cons] at hd
    rw [List.lookup_cons] at hx
    rw [Scope.set]
    by_cases hxy : x = y
    · subst hxy
      rw [beq_self_eq_true] at hx
      cases hx
      rw [if_pos rfl]
      exact .cons ⟨rfl, hc⟩ (ScopeMatch.spared ht hd.1 hb hn hm)
    · rw [beq_eq_false_iff_ne.mpr hxy] at hx
      rw [if_neg hxy]
      refine .cons ⟨rfl, hc'.of_cells hn fun b' hb' _ => hm b' fun he => hd.1 ?_⟩ (ih hd.2 hx)
      have hk : k.alloca.slot = nv.alloca.slot := hb _ (he ▸ hb')
      show k.alloca.slot ∈ _
      rw [hk]
      exact lookup_slot_mem hx

theorem ScopesMatch.spared {layers : List Layer} {sc : Scopes} {k : Slot} {b : Nat}
    (h : ScopesMatch slots mem layers sc)
    (hk : k ∉ layers.flatten.map (·.2.alloca.slot)) (hb : ∀ j, slots j = some b → j = k) (hn : mem.next ≤ mem'.next)
    (hm : ∀ b', b' ≠ b → mem'.cells (.stack b') = mem.cells (.stack b')) : ScopesMatch slots mem' layers sc := by
  induction h with
  | nil => exact .nil
  | cons hed _ ih =>
    rw [List.flatten_cons, List.map_append, List.mem_append, not_or] at hk
    exact .cons (hed.spared hk.1 hb hn hm) (ih hk.2)

/-- A change of the block of `x`'s innermost variable. -/
theorem ScopesMatch.set {layers : List Layer} {sc : Scopes} {nv : NamedValue} {b : Nat} {c : Cell}
    (h : ScopesMatch slots mem layers sc) (hd : (layers.flatten.map (·.2.alloca.slot)).Nodup)
    (hx : layers.findSome? (List.lookup x) = some nv) (hb : ∀ j, slots j = some b → j = nv.alloca.slot)
    (hn : mem.next ≤ mem'.next) (hm : ∀ b', b' ≠ b → mem'.cells (.stack b') = mem.cells (.stack b'))
    (hc : CellMatch slots mem' nv.alloca c) : ScopesMatch slots mem' layers (sc.set x c) := by
  induction h with
  | nil => cases hx
  | @cons layer scope layers sc hed ht ih =>
    rw [List.flatten_cons, List.map_append, List.nodup_append] at hd
    obtain ⟨hd₁, hd₂, hd₃⟩ := hd
    rw [List.findSome?_cons] at hx
    rw [Scopes.set]
    rcases hed.lookup x with ⟨h₁, h₂⟩ | ⟨nv', c', h₁, h₂, -⟩
    · rw [h₁] at hx
      rw [h₂, if_neg (by simp)]
      refine .cons (hed.spared (fun hmem => ?_) hb hn hm) (ih hd₂ hx)
      obtain ⟨layer', hl', hx'⟩ := List.exists_of_findSome?_eq_some hx
      refine hd₃ _ hmem _ ?_ rfl
      obtain ⟨e, he, heq⟩ := List.mem_map.mp (lookup_slot_mem hx')
      exact List.mem_map.mpr ⟨e, List.mem_flatten.mpr ⟨layer', hl', he⟩, heq⟩
    · rw [h₁] at hx
      cases hx
      rw [h₂, if_pos (by simp)]
      exact .cons (hed.set hd₁ h₁ hb hn hm hc)
        (ScopesMatch.spared ht (fun hmem => hd₃ _ (lookup_slot_mem h₁) _ hmem rfl) hb hn hm)

end Variables

end L24
