import L24.Ir.Private
import L24.Simulation.Match
import L24.Theorems.CallOrder
import L24.Theorems.Dominance
import L24.Theorems.Finished
import L24.Theorems.Returns

/-! Variables at run time: a variable of an activation that is no array changes only where its own activation assigns
    to it, and a call leaves the variables of all activations that wait for it as they are. -/

namespace L24
open Ir Relation

/-! ### Where the functions of the module come from -/

section Emitted
variable {fin s t : State} {prog : EntryNode} {F : Function}

variable [ConstantFolder]

/-- The function `F` is what the definition `node` of the program generates, from the state `s` to the state `t`. -/
structure EmittedBy (prog : EntryNode) (fin : State) (node : FuncNode) (s t : State) (ls : List Nat) (F : Function) :
    Prop where
  item : ∃ before later, prog.prog.items = before ++ .func node :: later ∧ GenItem fin before (.func node) later s t
  later : ∀ l ∈ ls, s.nextLabel < l
  layout : t.layout s.functions.length = s.nextLabel :: ls
  eq : F = ⟨(node.object s).name, (node.object s).retTy, (node.object s).params,
    (s.nextLabel :: ls).map fun l => (l, t.blocks l)⟩

theorem EmittedBy.idle {node : FuncNode} {ls : List Nat} (h : EmittedBy prog fin node s t ls F) : Idle s := by
  obtain ⟨before, later, -, hg⟩ := h.item
  exact hg.idle

theorem EmittedBy.run {node : FuncNode} {ls : List Nat} (h : EmittedBy prog fin node s t ls F) :
    codeGenFunc node s = .ok () t := by
  obtain ⟨before, later, -, hg⟩ := h.item
  exact hg.run

theorem EmittedBy.mem_blocks {node : FuncNode} {ls : List Nat} (h : EmittedBy prog fin node s t ls F)
    {b : Label × List Inst}
    (hb : b ∈ F.blocks) : s.nextLabel ≤ b.1 ∧ b.2 = t.blocks b.1 := by
  rw [h.eq] at hb
  obtain ⟨l, hl, rfl⟩ := List.mem_map.mp hb
  rcases List.mem_cons.mp hl with rfl | hl
  · exact ⟨Nat.le_refl _, rfl⟩
  · exact ⟨Nat.le_of_lt (h.later l hl), rfl⟩

end Emitted

/-! ### Variables whose addresses are kept -/

section Variables
variable {fin s t : State} {prog : EntryNode} {F : Function} {k : Slot} {ty ty' : Ty}

theorem slot?_of_isResult {v : Value} (h : isResult v = true) : v.slot? = none := by
  cases v with
  | alloca => cases h
  | _ => rfl

theorem exposed_of_isResult {i : Inst} (h : ∀ v ∈ i.operands, isResult v = true) : i.exposed = [] := by
  have hnil : i.operands.filterMap Value.slot? = [] :=
    List.filterMap_eq_nil_iff.mpr fun v hv => slot?_of_isResult (h v hv)
  cases i with
  | load => rfl
  | store v p =>
    rw [Inst.exposed, slot?_of_isResult (h v List.mem_cons_self)]
    rfl
  | _ => exact hnil

/-- Only the addresses of arrays are given away. -/
theorem Produced.exposed {callee : String → Prop} {slot : Slot → Ty → Prop} {i : Inst} (h : Produced callee slot i)
    (hk : k ∈ i.exposed) : ∃ n elt, slot k (.array n elt) := by
  have hres : (∀ v ∈ i.operands, isResult v = true) → ∃ n elt, slot k (.array n elt) := fun ho => by
    rw [exposed_of_isResult ho] at hk
    cases hk
  cases h with
  | operation hi ho => exact hres ho
  | terminator hi ho => exact hres ho
  | call hf ha => exact hres ha
  | address hp hi => exact hres (List.forall_mem_cons.mpr ⟨hp, hi⟩)
  | alloca hc =>
    obtain ⟨elt, -, ⟨rfl, -⟩ | ⟨sz, n, rfl, hsz, -⟩⟩ := hc
    · exact hres (by simp [Inst.operands])
    · cases sz with
      | const c => exact hres (by simp [Inst.operands, isResult])
      | _ => cases hsz
  | write hv hp => exact hres (by simp [Inst.operands, hv, hp])
  | assign hs hv =>
    rw [Inst.exposed, slot?_of_isResult hv] at hk
    cases hk
  | read hp => cases hk
  | scalar hs hty => cases hk
  | param hs hty => cases hk
  | @element r j n elt i hs hi =>
    obtain ⟨a, ha, hak⟩ := List.mem_filterMap.mp hk
    simp only [Inst.operands, List.mem_cons, List.not_mem_nil, or_false] at ha
    rcases ha with rfl | rfl | rfl
    · cases hak
      exact ⟨n, elt, hs⟩
    · cases hak
    · rw [slot?_of_isResult hi] at hak
      cases hak

variable [ConstantFolder]

theorem EmittedBy.produced {node : FuncNode} {ls : List Nat} (h : EmittedBy prog fin node s t ls F) :
    ∀ b ∈ F.blocks, ∀ i ∈ b.2, Produced (fun _ => True) F.Allocates i := by
  intro b hb i hi
  obtain ⟨hle, hb'⟩ := h.mem_blocks hb
  have hp := codeGenFunc_produced h.idle h.run b.1 hle i (hb' ▸ hi)
  have hentry : (s.nextLabel, t.blocks s.nextLabel) ∈ F.blocks := by
    rw [h.eq]
    exact List.mem_cons_self
  exact hp.mono (fun _ _ => trivial) fun k ty ⟨count, hm⟩ => ⟨_, hentry, count, hm⟩

end Variables

/-! ### Runs -/

section Runs
variable {W : Type} {ext : Ext W} {prog : EntryNode} {fin : State} {name : String} {args : List Val} {mem : Mem} {w : W}
  {c d e : Config W} {m : Nat} {fr : Frame}

variable [ConstantFolder]

end Runs

section
attribute [local instance] ConstantFolder.symbolic

end

end L24
