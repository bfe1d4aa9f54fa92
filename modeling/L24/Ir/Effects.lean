import L24.Ir.Straight

/-! What one instruction does, as a relation: which operands it reads, what it does to its frame and to memory, and
    how it changes the stack. -/

namespace Ir

variable {W : Type}

/-- Put the result of a library function, if it has one, into a register. -/
def Frame.setResult (fr : Frame) (r : Reg) : Option Val → Frame
  | some v => fr.setReg r v
  | none => fr

/-- The effect of an instruction. `fr` already stands behind it. -/
inductive Effect (M : Module) (ext : Ext W) (fr : Frame) (stack : List Frame) (mem : Mem) (w : W) :
    Inst → Config W → Prop
  | alloca {k : Slot} {ty : Ty} {count : Option Value} (n : Nat) (hn : count = none → n = ty.cells) :
    Effect M ext fr stack mem w (.alloca k ty count) (.run (fr.setSlot k mem.next) stack (mem.alloc n) w)
  | load {r : Reg} {ty : Ty} {p : Value} {b : Blk} {o : Int} {v : Val} (hp : fr.eval p = some (.ptr b o))
      (hv : mem.load ty b o = some v) : Effect M ext fr stack mem w (.load r ty p) (.run (fr.setReg r v) stack mem w)
  | store {v p : Value} {x : Val} {b : Blk} {o : Int} {mem' : Mem} (hv : fr.eval v = some x)
      (hp : fr.eval p = some (.ptr b o)) (hm : mem.store b o x = some mem') :
    Effect M ext fr stack mem w (.store v p) (.run fr stack mem' w)
  | gep {r : Reg} {ty : Ty} {p : Value} {idx : List Value} {b : Blk} {o : Int} {vs : List Val} (d : Int)
      (hp : fr.eval p = some (.ptr b o)) (hi : idx.mapM fr.eval = some vs) (hd : gepOffset ty vs = some d) :
    Effect M ext fr stack mem w (.gep r ty p idx) (.run (fr.setReg r (.ptr b (o + d))) stack mem w)
  | binop {r : Reg} {op : BinOp} {x y : Value} (z : BitVec 64) :
    Effect M ext fr stack mem w (.binop r op x y) (.run (fr.setReg r (.int z)) stack mem w)
  | icmp {r : Reg} {p : Pred} {x y : Value} (z : Bool) :
    Effect M ext fr stack mem w (.icmp r p x y) (.run (fr.setReg r (.bool z)) stack mem w)
  | select {r : Reg} {c x y : Value} {v : Val} (hv : fr.eval x = some v ∨ fr.eval y = some v) :
    Effect M ext fr stack mem w (.select r c x y) (.run (fr.setReg r v) stack mem w)
  | zext {r : Reg} {x : Value} {ty : Ty} (z : BitVec 64) :
    Effect M ext fr stack mem w (.zext r x ty) (.run (fr.setReg r (.int z)) stack mem w)
  | call {r : Reg} {callee : String} {ty : Ty} {args : List Value} {name : String} {vs : List Val} {g : Function}
      {b : Label × List Inst} (hvs : args.mapM fr.eval = some vs) (hg : M.function? callee = some g)
      (hb : g.blocks.head? = some b) : Effect M ext fr stack mem w (.call r callee ty args name)
        (.run (Frame.enter g vs b.2 r) (fr :: stack) mem w)
  | library {r : Reg} {callee : String} {ty : Ty} {args : List Value} {name : String} {vs : List Val} {g : Function}
      {o : Option Val} {mem' : Mem} {w' : W} (hvs : args.mapM fr.eval = some vs) (hg : M.function? callee = some g)
      (hb : g.blocks = []) (he : ext callee vs mem w = some (o, mem', w')) :
    Effect M ext fr stack mem w (.call r callee ty args name) (.run (fr.setResult r o) stack mem' w')
  | jump {i : Inst} {l : Label} {code : List Inst} (hl : l ∈ i.targets) (hb : fr.func.block? l = some code) :
    Effect M ext fr stack mem w i (.run { fr with code } stack mem w)
  | ret {v : Option Value} {o : Option Val} (hv : ∀ x, o = some x → ∃ y, v = some y ∧ fr.eval y = some x) :
    Effect M ext fr stack mem w (.ret v) (.leave fr stack mem w o)

section Exec
variable {M : Module} {ext : Ext W} {fr : Frame} {stack : List Frame} {mem : Mem} {w : W} {i : Inst} {c : Config W}

theorem exec_jump {l : Label} (hl : l ∈ i.targets) (h : (fr.jump l).map (Config.run · stack mem w) = some c) :
    Effect M ext fr stack mem w i c := by
  obtain ⟨fr', hj, rfl⟩ := Option.map_eq_some_iff.mp h
  obtain ⟨code, hb, rfl⟩ := Option.map_eq_some_iff.mp hj
  exact .jump hl hb

theorem exec_effect (h : exec M ext i fr stack mem w = some c) : Effect M ext fr stack mem w i c := by
  cases i with
  | alloca k ty count =>
    cases count with
    | none =>
      cases h
      exact .alloca _ fun _ => rfl
    | some count =>
      obtain ⟨n, -, rfl⟩ := Option.map_eq_some_iff.mp h
      exact .alloca _ fun hn => by cases hn
  | load r ty p =>
    simp only [exec] at h
    split at h
    · rename_i b o hp
      obtain ⟨v, hv, rfl⟩ := Option.map_eq_some_iff.mp h
      exact .load hp hv
    · cases h
  | store v p =>
    simp only [exec] at h
    split at h
    · rename_i x b o hv hp
      obtain ⟨m, hm, rfl⟩ := Option.map_eq_some_iff.mp h
      exact .store hv hp hm
    · cases h
  | gep r ty p idx =>
    simp only [exec] at h
    split at h
    · rename_i b o d hp hd
      obtain ⟨vs, hi, hd⟩ := Option.bind_eq_some_iff.mp hd
      cases h
      exact .gep d hp hi hd
    · cases h
  | binop r op a b =>
    simp only [exec] at h
    split at h
    · obtain ⟨z, -, rfl⟩ := Option.map_eq_some_iff.mp h
      exact .binop z
    · cases h
  | icmp r p a b =>
    simp only [exec] at h
    split at h
    · cases h
      exact .icmp _
    · cases h
  | select r k t f =>
    simp only [exec] at h
    split at h
    · rename_i b x y hk ht hf
      cases h
      refine .select ?_
      -- The value of a select is one of the two operands.
      cases b with
      | true => exact Or.inl ht
      | false => exact Or.inr hf
    · cases h
  | zext r v ty =>
    simp only [exec] at h
    split at h
    · cases h
      exact .zext _
    · cases h
  | call r callee ty args name =>
    obtain ⟨vs, hvs, h⟩ := Option.bind_eq_some_iff.mp h
    unfold Config.call at h
    split at h
    · cases h
    -- A function without blocks belongs to the library, any other one gets a frame.
    · rename_i g hg
      split at h
      · rename_i hb
        obtain ⟨⟨o, m, e⟩, he, rfl⟩ := Option.map_eq_some_iff.mp h
        cases o <;> exact .library hvs hg hb he
      · rename_i l code bs hb
        cases h
        exact .call (b := (l, code)) hvs hg (by rw [hb]; rfl)
  | br l => exact exec_jump (by simp [Inst.targets]) h
  | condBr k l m =>
    simp only [exec] at h
    split at h
    · refine exec_jump ?_ h
      split <;> simp [Inst.targets]
    · cases h
  | ret v =>
    cases v with
    | none =>
      cases h
      exact .ret (by simp)
    | some v =>
      obtain ⟨x, hx, rfl⟩ := Option.map_eq_some_iff.mp h
      exact .ret (by simpa using hx)

/-- A step executes the next instruction of the innermost activation. -/
theorem step_effect (h : step M ext (.run fr stack mem w) = some c) :
    ∃ i rest, fr.code = i :: rest ∧ Effect M ext { fr with code := rest } stack mem w i c := by
  cases hc : fr.code with
  | nil => simp [step, hc] at h
  | cons i rest =>
    simp only [step, hc] at h
    exact ⟨i, rest, rfl, exec_effect h⟩

end Exec

end Ir
