import L24.Ir.Machine
import L24.Lib.Steps

/-! Straight-line code: a frame executes instructions without a terminator one after the other, each once, whatever
    the calls among them do. And the registers of such code, each written once, keep what has been computed. -/

namespace Ir

namespace Inst

/-- The register of the result. -/
def reg? : Inst → Option Reg
  | .load r _ _ | .gep r _ _ _ | .binop r _ _ _ | .icmp r _ _ _ | .select r _ _ _ | .zext r _ _ | .call r _ _ _ _ =>
      some r
  | _ => none

/-- What the instruction reads. -/
def operands : Inst → List Value
  | .alloca _ _ count => count.toList
  | .load _ _ p => [p]
  | .store v p => [v, p]
  | .gep _ _ p idx => p :: idx
  | .binop _ _ a b | .icmp _ _ a b => [a, b]
  | .select _ c t f => [c, t, f]
  | .zext _ v _ => [v]
  | .call _ _ _ args _ => args
  | .br _ => []
  | .condBr c _ _ => [c]
  | .ret v => v.toList

/-- The instructions that comparisons and logical operators are made of. -/
def isLogic : Inst → Bool
  | .icmp _ _ _ _ | .select _ _ _ _ | .zext _ _ _ => true
  | _ => false

/-- What such an instruction computes from the values in `fr`. -/
def compute? (fr : Frame) : Inst → Option Val
  | .icmp _ p a b => match fr.eval a, fr.eval b with
    | some (.int x), some (.int y) => some (.bool (p.eval x y))
    | _, _ => none
  | .select _ c t f => match fr.eval c, fr.eval t, fr.eval f with
    | some (.bool b), some x, some y => some (if b then x else y)
    | _, _, _ => none
  | .zext _ v _ => match fr.eval v with
    | some (.bool b) => some (.int (boolToInt b))
    | _ => none
  | _ => none

/-- The instruction does not read the register. -/
def Spares (i : Inst) (r : Reg) : Prop := ∀ v ∈ i.operands, ∀ ty, v ≠ .inst r ty

/-- Neither ends the block nor reserves memory. -/
def isPlain (i : Inst) : Bool := !i.isTerminator && !i.isAlloca

end Inst

/-- The result of a logical instruction is in its register. -/
def Computes (fr : Frame) (i : Inst) : Prop :=
  ∀ r, i.isLogic = true → i.reg? = some r → ∃ x, i.compute? fr = some x ∧ fr.regs r = some x

/-- No instruction writes a register that it or an earlier one reads or has written. -/
structure Ssa (is : List Inst) : Prop where
  later : is.Pairwise fun i j => ∀ r, j.reg? = some r → i.reg? ≠ some r ∧ i.Spares r
  self : ∀ i ∈ is, ∀ r, i.reg? = some r → i.Spares r

section Frames
variable {fr fr' : Frame} {i : Inst} {v : Value}

theorem Frame.eval_congr (ha : fr'.args = fr.args) (hs : fr'.slots = fr.slots)
    (hr : ∀ r ty, v = .inst r ty → fr'.regs r = fr.regs r) : fr'.eval v = fr.eval v := by
  cases v with
  | const c => rfl
  | arg i ty => rw [Frame.eval, Frame.eval, ha]
  | alloca s ty => rw [Frame.eval, Frame.eval, hs]
  | inst r ty => exact hr r ty rfl

theorem Inst.compute?_congr (h : ∀ v ∈ i.operands, fr'.eval v = fr.eval v) : i.compute? fr' = i.compute? fr := by
  cases i with
  | icmp r p a b => rw [compute?, compute?, h a (by simp [operands]), h b (by simp [operands])]
  | select r c t f =>
    rw [compute?, compute?, h c (by simp [operands]), h t (by simp [operands]), h f (by simp [operands])]
  | zext r v ty => rw [compute?, compute?, h v (by simp [operands])]
  | _ => rfl

/-- The same activation: only registers that `i` does not touch have changed. -/
theorem Computes.keep (h : Computes fr i) (ha : fr'.args = fr.args) (hs : fr'.slots = fr.slots)
    (hr : ∀ r, i.reg? = some r ∨ ¬ i.Spares r → fr'.regs r = fr.regs r) : Computes fr' i := by
  intro r hl hi
  obtain ⟨x, hx, hv⟩ := h r hl hi
  refine ⟨x, ?_, (hr r (Or.inl hi)).trans hv⟩
  rw [Inst.compute?_congr fun v hm => Frame.eval_congr ha hs fun k ty hk => hr k (Or.inr fun hs => hs v hm ty hk)]
  exact hx

end Frames

/-! ### One instruction -/

section Exec
variable {W : Type} {M : Module} {ext : Ext W} {fr : Frame} {stack : List Frame} {mem : Mem} {w : W} {i : Inst}
  {c : Config W}

/-- What a plain instruction does to its frame. -/
structure After (i : Inst) (fr fr' : Frame) : Prop where
  code : fr'.code = fr.code
  args : fr'.args = fr.args
  slots : fr'.slots = fr.slots
  regs : ∀ r, i.reg? ≠ some r → fr'.regs r = fr.regs r
  result : i.isLogic = true → ∀ r, i.reg? = some r → ∃ x, i.compute? fr = some x ∧ fr'.regs r = some x

/-- What an alloca or a jump does to its frame. -/
inductive Moves (i : Inst) (fr : Frame) : Frame → Prop
  | alloca {k : Slot} {ty : Ty} {count : Option Value} (n : Nat) (hi : i = .alloca k ty count) :
    Moves i fr (fr.setSlot k n)
  | jump {l : Label} {code : List Inst} (hl : l ∈ i.targets) (hb : fr.func.block? l = some code) :
    Moves i fr { fr with code }

theorem After.setReg {r : Reg} {x : Val} (hr : i.reg? = some r) (hx : i.isLogic = true → i.compute? fr = some x) :
    After i fr (fr.setReg r x) where
  code := rfl
  args := rfl
  slots := rfl
  regs k hk := Function.update_of_ne (fun he : k = r => hk (he ▸ hr)) ..
  result hl k hk := by
    obtain rfl := Option.some.inj (hr.symm.trans hk)
    exact ⟨x, hx hl, Function.update_self ..⟩

theorem After.refl (h : i.isLogic = false) : After i fr fr :=
  ⟨rfl, rfl, rfl, fun _ _ => rfl, fun hl => by rw [h] at hl; cases hl⟩

/-- An instruction goes on in its frame, starts a call, or leaves the frame. -/
theorem exec_cases (h : exec M ext i fr stack mem w = some c) :
    (∃ fr' mem' w', c = .run fr' stack mem' w' ∧ fr'.dest = fr.dest ∧ fr'.func = fr.func ∧
      (i.isPlain = false → Moves i fr fr') ∧ (i.isPlain = true → After i fr fr')) ∨
    (∃ f args code r, c = .run (Frame.enter f args code r) (fr :: stack) mem w ∧ i.isPlain = true ∧ i.isLogic = false ∧
      i.reg? = some r) ∨
    (∃ o, c = .leave fr stack mem w o ∧ i.isPlain = false) := by
  cases i with
  | alloca s ty count =>
    left
    cases count with
    | none =>
      cases h
      exact ⟨_, _, _, rfl, rfl, rfl, fun _ => .alloca _ rfl, fun hp => by cases hp⟩
    | some count =>
      obtain ⟨n, -, rfl⟩ := Option.map_eq_some_iff.mp h
      exact ⟨_, _, _, rfl, rfl, rfl, fun _ => .alloca _ rfl, fun hp => by cases hp⟩
  | load r ty p =>
    left
    simp only [exec] at h
    split at h
    · obtain ⟨v, -, rfl⟩ := Option.map_eq_some_iff.mp h
      exact ⟨_, _, _, rfl, rfl, rfl, (fun hp => by cases hp), fun _ => .setReg rfl fun hl => by cases hl⟩
    · cases h
  | store v p =>
    left
    simp only [exec] at h
    split at h
    · obtain ⟨m, -, rfl⟩ := Option.map_eq_some_iff.mp h
      exact ⟨_, _, _, rfl, rfl, rfl, (fun hp => by cases hp), fun _ => .refl rfl⟩
    · cases h
  | gep r ty p idx =>
    left
    simp only [exec] at h
    split at h
    · cases h
      exact ⟨_, _, _, rfl, rfl, rfl, (fun hp => by cases hp), fun _ => .setReg rfl fun hl => by cases hl⟩
    · cases h
  | binop r op a b =>
    left
    simp only [exec] at h
    split at h
    · obtain ⟨z, -, rfl⟩ := Option.map_eq_some_iff.mp h
      exact ⟨_, _, _, rfl, rfl, rfl, (fun hp => by cases hp), fun _ => .setReg rfl fun hl => by cases hl⟩
    · cases h
  | icmp r p a b =>
    left
    simp only [exec] at h
    split at h
    · rename_i x y ha hb
      cases h
      exact ⟨_, _, _, rfl, rfl, rfl, (fun hp => by cases hp),
        fun _ => .setReg rfl fun _ => by rw [Inst.compute?, ha, hb]⟩
    · cases h
  | select r k t f =>
    left
    simp only [exec] at h
    split at h
    · rename_i b x y hk ht hf
      cases h
      exact ⟨_, _, _, rfl, rfl, rfl, (fun hp => by cases hp),
        fun _ => .setReg rfl fun _ => by rw [Inst.compute?, hk, ht, hf]⟩
    · cases h
  | zext r v ty =>
    left
    simp only [exec] at h
    split at h
    · rename_i b hv
      cases h
      exact ⟨_, _, _, rfl, rfl, rfl, (fun hp => by cases hp), fun _ => .setReg rfl fun _ => by rw [Inst.compute?, hv]⟩
    · cases h
  | call r callee ty args name =>
    obtain ⟨vs, -, h⟩ := Option.bind_eq_some_iff.mp h
    unfold Config.call at h
    split at h
    · cases h
    · split at h
      · left
        obtain ⟨⟨v, m, e⟩, -, rfl⟩ := Option.map_eq_some_iff.mp h
        cases v with
        | none =>
          refine ⟨_, _, _, rfl, rfl, rfl, (fun hp => by cases hp), fun _ => ⟨rfl, rfl, rfl, fun _ _ => rfl, ?_⟩⟩
          exact fun hl => by cases hl
        | some x => exact ⟨_, _, _, rfl, rfl, rfl, (fun hp => by cases hp), fun _ => .setReg rfl fun hl => by cases hl⟩
      · cases h
        exact Or.inr (Or.inl ⟨_, _, _, _, rfl, rfl, rfl, rfl⟩)
  | br l =>
    left
    obtain ⟨fr', hj, rfl⟩ := Option.map_eq_some_iff.mp h
    obtain ⟨code, hb, rfl⟩ := Option.map_eq_some_iff.mp hj
    exact ⟨_, _, _, rfl, rfl, rfl, fun _ => .jump (by simp [Inst.targets]) hb, fun hp => by cases hp⟩
  | condBr k l m =>
    left
    simp only [exec] at h
    split at h
    · obtain ⟨fr', hj, rfl⟩ := Option.map_eq_some_iff.mp h
      obtain ⟨code, hb, rfl⟩ := Option.map_eq_some_iff.mp hj
      refine ⟨_, _, _, rfl, rfl, rfl, fun _ => .jump ?_ hb, fun hp => by cases hp⟩
      split <;> simp [Inst.targets]
    · cases h
  | ret v =>
    right
    right
    cases v with
    | none =>
      cases h
      exact ⟨_, rfl, rfl⟩
    | some v =>
      obtain ⟨x, -, rfl⟩ := Option.map_eq_some_iff.mp h
      exact ⟨_, rfl, rfl⟩

end Exec

/-! ### Runs -/

section Runs
variable {W : Type} {M : Module} {ext : Ext W} {stack : List Frame} {done todo rest : List Inst} {c d : Config W}

/-- The instruction that a frame at depth `d` executes next. -/
def Config.next? (d : Nat) : Config W → Option Inst
  | .run fr stack _ _ => if stack.length = d then fr.code.head? else none
  | .done _ _ _ => none

/-- The instructions that the frames at depth `d` execute in `n` steps. -/
def executed (M : Module) (ext : Ext W) (d : Nat) : Nat → Config W → List Inst
  | 0, _ => []
  | n + 1, c => match step M ext c with
    | none => []
    | some c' => (c.next? d).toList ++ executed M ext d n c'

/-- The frame has executed `done`, and goes on with `todo`. -/
structure Doing (done todo rest : List Inst) (fr : Frame) : Prop where
  code : fr.code = todo ++ rest
  holds : ∀ i ∈ done, Computes fr i

/-- The frame above `stack` is between `done` and `todo`: it is on top, or waits for a call whose result goes to the
    register `r`. -/
inductive Mid (stack : List Frame) (done todo rest : List Inst) : Config W → Prop
  | top {fr : Frame} {mem : Mem} {w : W} (h : Doing done todo rest fr) : Mid stack done todo rest (.run fr stack mem w)
  | waits {fr k : Frame} (fs : List Frame) {r : Reg} {mem : Mem} {w : W} (h : Doing done todo rest k)
      (hr : ∀ x, Doing done todo rest (k.setReg r x)) (hd : (fr :: fs).getLast?.map Frame.dest = some r) :
      Mid stack done todo rest (.run fr (fs ++ k :: stack) mem w)

theorem getLast?_dest {fr fr' : Frame} (h : fr'.dest = fr.dest) (fs : List Frame) :
    (fr' :: fs).getLast?.map Frame.dest = (fr :: fs).getLast?.map Frame.dest := by
  cases fs with
  | nil => exact congrArg some h
  | cons f fs => rw [List.getLast?_cons_cons, List.getLast?_cons_cons]

/-- While the frame waits, nothing happens to it. -/
theorem Mid.wait {fr k : Frame} {fs : List Frame} {r : Reg} {mem : Mem} {w : W} (h : Doing done todo rest k)
    (hr : ∀ x, Doing done todo rest (k.setReg r x)) (hd : (fr :: fs).getLast?.map Frame.dest = some r)
    (hc : step M ext (.run fr (fs ++ k :: stack) mem w) = some d) : Mid stack done todo rest d := by
  unfold step at hc
  split at hc
  · rename_i fr stack' mem w heq
    cases heq
    split at hc
    · cases hc
    · rename_i i code hcode
      have hdest : ({ fr with code := code } : Frame).dest = fr.dest := rfl
      rcases exec_cases hc with ⟨fr', mem', w', rfl, hdest', -⟩ | ⟨f, args, code', r', rfl, -⟩ | ⟨o, rfl, -⟩
      · exact .waits fs h hr ((getLast?_dest (hdest'.trans hdest) fs).trans hd)
      · refine .waits ({ fr with code := code } :: fs) h hr ?_
        rw [List.getLast?_cons_cons]
        exact (getLast?_dest hdest fs).trans hd
      · cases fs with
        | nil =>
          obtain rfl : fr.dest = r := Option.some.inj hd
          cases o with
          | none => exact .top h
          | some x => exact .top (hr x)
        | cons f fs =>
          rw [List.getLast?_cons_cons] at hd
          cases o with
          | none => exact .waits fs h hr hd
          | some x =>
            have hf : (f.setReg fr.dest x).dest = f.dest := rfl
            exact .waits fs h hr ((getLast?_dest hf fs).trans hd)
  · cases hc

/-- The frame executes the next instruction. -/
theorem Doing.next {fr : Frame} {i : Inst} {mem : Mem} {w : W} (h : Doing done (i :: todo) rest fr)
    (hs : Ssa (done ++ i :: todo)) (hp : i.isPlain = true) (hc : step M ext (.run fr stack mem w) = some d) :
    Mid stack (done ++ [i]) todo rest d := by
  have hlater := List.pairwise_append.mp hs.later
  -- what `i` writes is not touched by what has been executed
  have hkeep : ∀ {fr' : Frame} {j : Inst}, fr'.args = fr.args → fr'.slots = fr.slots →
      (∀ r, i.reg? ≠ some r → fr'.regs r = fr.regs r) → j ∈ done → Computes fr' j := by
    intro fr' j ha hsl hr hj
    refine (h.holds j hj).keep ha hsl fun r hrj => hr r fun hi => ?_
    have hij := hlater.2.2 j hj i List.mem_cons_self r hi
    rcases hrj with hrj | hrj
    · exact hij.1 hrj
    · exact hrj hij.2
  have hcode : fr.code = i :: (todo ++ rest) := h.code
  rw [step, hcode] at hc
  rcases exec_cases hc with ⟨fr', mem', w', rfl, -, -, -, ha⟩ | ⟨f, args, code', r, rfl, -, hl, hr⟩ | ⟨o, -, hn⟩
  · have ha := ha hp
    refine .top ⟨ha.code, fun j hj => ?_⟩
    rcases List.mem_append.mp hj with hj | hj
    · exact hkeep ha.args ha.slots ha.regs hj
    · obtain rfl := List.mem_singleton.mp hj
      intro r hl hi
      obtain ⟨x, hx, hv⟩ := ha.result hl r hi
      have hself := hs.self j (by simp) r hi
      refine ⟨x, ?_, hv⟩
      rw [Inst.compute?_congr fun v hv => Frame.eval_congr ha.args ha.slots fun k ty hk => ha.regs k fun hkr => ?_]
      · exact hx
      · obtain rfl := Option.some.inj (hi.symm.trans hkr)
        exact hself v hv ty hk
  · have hdoing : ∀ fr' : Frame, fr'.code = todo ++ rest → fr'.args = fr.args → fr'.slots = fr.slots →
        (∀ k, i.reg? ≠ some k → fr'.regs k = fr.regs k) → Doing (done ++ [i]) todo rest fr' := by
      intro fr' hc ha hsl hk
      refine ⟨hc, fun j hj => ?_⟩
      rcases List.mem_append.mp hj with hj | hj
      · exact hkeep ha hsl hk hj
      · obtain rfl := List.mem_singleton.mp hj
        intro r' hl'
        rw [hl] at hl'
        cases hl'
    refine .waits [] (hdoing _ rfl rfl rfl fun _ _ => rfl) (fun x => hdoing _ rfl rfl rfl fun k hk => ?_) rfl
    exact Function.update_of_ne (fun he : k = r => hk (he ▸ hr)) ..
  · rw [hp] at hn
    cases hn

theorem Mid.doing {fr : Frame} {mem : Mem} {w : W} (h : Mid stack done todo rest (.run fr stack mem w)) :
    Doing done todo rest fr := by
  generalize hc : Config.run fr stack mem w = c at h
  cases h with
  | top h =>
    cases hc
    exact h
  | @waits _ k fs =>
    have hstack : stack = fs ++ k :: stack := (Config.run.inj hc).2.1
    have := congrArg List.length hstack
    simp at this
    omega

/-- A run of straight-line code, from the middle of it: the instructions executed at the frame's depth are the next
    ones of the code, or all of them and some more. -/
theorem Mid.run {n : Nat} (h : Mid stack done todo rest c) (hs : Ssa (done ++ todo))
    (hp : ∀ i ∈ todo, i.isPlain = true) :
    (∃ todo', todo = executed M ext stack.length n c ++ todo' ∧
      ∀ d, Steps.runs (step M ext) n c = some d → Mid stack (done ++ executed M ext stack.length n c) todo' rest d) ∨
    (todo <+: executed M ext stack.length n c ∧ executed M ext stack.length n c ≠ todo) := by
  -- Induction on the steps; `done` grows by what is executed at the depth of the frame.
  induction n generalizing done todo c with
  | zero =>
    refine Or.inl ⟨todo, rfl, fun d hd => ?_⟩
    cases hd
    rw [executed, List.append_nil]
    exact h
  | succ n ih =>
    rw [executed]
    cases hc : step M ext c with
    | none =>
      refine Or.inl ⟨todo, rfl, fun d hd => ?_⟩
      rw [Steps.runs, hc] at hd
      cases hd
    | some c' =>
      have hruns : Steps.runs (step M ext) (n + 1) c = Steps.runs (step M ext) n c' := by rw [Steps.runs, hc]; rfl
      rw [hruns]
      cases h with
      | @waits fr k fs r mem w h hr hd =>
        -- While a call runs above the frame, nothing is executed at its depth.
        have hdepth : (fs ++ k :: stack).length ≠ stack.length := by simp; omega
        rw [Config.next?, if_neg hdepth]
        exact ih (Mid.wait h hr hd hc) hs hp
      | @top fr mem w h =>
        rw [Config.next?, if_pos rfl, h.code]
        cases todo with
        | nil =>
          -- All of the code is done, and the run goes on behind it.
          right
          refine ⟨List.nil_prefix, ?_⟩
          cases rest with
          | nil =>
            rw [step, h.code] at hc
            cases hc
          | cons i rest => exact List.cons_ne_nil _ _
        | cons i todo =>
          have hmid := h.next hs (hp i List.mem_cons_self) hc
          have hs' : Ssa ((done ++ [i]) ++ todo) := by rwa [List.append_assoc]
          rcases ih hmid hs' fun j hj => hp j (List.mem_cons_of_mem _ hj) with ⟨todo', htodo, hmid⟩ | ⟨hpre, hne⟩
          · refine Or.inl ⟨todo', congrArg (i :: ·) htodo, fun d hd => ?_⟩
            have := hmid d hd
            rwa [List.append_assoc] at this
          · exact Or.inr ⟨List.cons_prefix_cons.mpr ⟨rfl, hpre⟩, fun he => hne (List.cons.inj he).2⟩

/-- A run of straight-line code executes its instructions in order, as far as it gets; and when it has executed them
    all, their results are in the registers. -/
theorem straight_run {n : Nat} {fr : Frame} {mem : Mem} {w : W} {is : List Inst} (hc : fr.code = is ++ rest)
    (hs : Ssa is)
    (hp : ∀ i ∈ is, i.isPlain = true) : let es := executed M ext stack.length n (.run fr stack mem w)
    (es <+: is ∨ is <+: es) ∧ ∀ fr' mem' w',
      Steps.runs (step M ext) n (.run fr stack mem w) = some (.run fr' stack mem' w') → es = is →
        ∀ i ∈ is, Computes fr' i := by
  intro es
  have hmid : Mid stack [] is rest (.run fr stack mem w) := .top ⟨hc, fun _ hi => by cases hi⟩
  rcases @Mid.run W M ext stack [] is rest _ n hmid hs hp with ⟨todo, hes, hrun⟩ | ⟨hpre, hne⟩
  · refine ⟨Or.inl ⟨todo, hes.symm⟩, fun fr' mem' w' hr he i hi => (hrun _ hr).doing.holds i ?_⟩
    have he : executed M ext stack.length n (.run fr stack mem w) = is := he
    rw [List.nil_append, he]
    exact hi
  · exact ⟨Or.inr hpre, fun _ _ _ _ he => absurd he hne⟩

end Runs

end Ir
