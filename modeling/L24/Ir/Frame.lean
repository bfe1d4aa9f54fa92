import Mathlib.Logic.Relation
import Mathlib.Data.List.Nodup
import L24.Ir.Straight

/-! Static frames: where the allocas of a function are the first instructions of its entry block, to which nothing
    branches, an activation executes each of them once, whatever its loops do. -/

namespace Ir
open Relation

/-! ### The operands and the allocas of a function -/

/-- What the operands of an instruction behind `is` can be, in a function with `params` parameters and the allocas of
    `slots`. Constants include the global variables. -/
def Available (params : Nat) (slots : List Slot) (is : List Inst) : Value → Prop
  | .const _ => True
  | .arg i _ => i < params
  | .alloca k _ => k ∈ slots
  | .inst r _ => ∃ i ∈ is, i.reg? = some r

/-- Every instruction of a block reads what is available before it. -/
def BlockClosed (params : Nat) (slots : List Slot) (is : List Inst) : Prop :=
  ∀ n i, is[n]? = some i → ∀ v ∈ i.operands, Available params slots (is.take n) v

section Blocks
variable {params : Nat} {slots slots' : List Slot} {is is' : List Inst} {i : Inst} {v : Value}

theorem Available.mono (h : Available params slots is v) (hs : ∀ k ∈ slots, k ∈ slots') (hi : ∀ i ∈ is, i ∈ is') :
    Available params slots' is' v := by
  cases v with
  | const c => trivial
  | arg i ty => exact h
  | alloca k ty => exact hs k h
  | inst r ty =>
    obtain ⟨i, hm, hr⟩ := h
    exact ⟨i, hi i hm, hr⟩

theorem BlockClosed.nil : BlockClosed params slots [] := fun n i h => by simp at h

theorem BlockClosed.mono (h : BlockClosed params slots is) (hs : ∀ k ∈ slots, k ∈ slots') :
    BlockClosed params slots' is := fun n i hi v hv => (h n i hi v hv).mono hs fun _ hm => hm

/-- An instruction behind the block. -/
theorem BlockClosed.snoc (h : BlockClosed params slots is) (hi : ∀ v ∈ i.operands, Available params slots is v) :
    BlockClosed params slots (is ++ [i]) := by
  intro n j hj v hv
  by_cases hn : n < is.length
  · rw [List.getElem?_append_left hn] at hj
    rw [List.take_append_of_le_length (Nat.le_of_lt hn)]
    exact h n j hj v hv
  · have hle := Nat.le_of_not_lt hn
    rw [List.getElem?_append_right hle, List.getElem?_singleton] at hj
    split at hj
    · cases hj
      have hnl : n = is.length := by omega
      rw [hnl, List.take_left]
      exact hi v hv
    · cases hj

/-- An instruction with constant operands in front of the block. -/
theorem BlockClosed.cons (h : BlockClosed params slots is) (hi : ∀ v ∈ i.operands, ∃ c, v = .const c) :
    BlockClosed params slots (i :: is) := by
  intro n j hj v hv
  cases n with
  | zero =>
    cases hj
    obtain ⟨c, rfl⟩ := hi v hv
    trivial
  | succ n =>
    rw [List.getElem?_cons_succ] at hj
    exact (h n j hj v hv).mono (fun _ hk => hk) fun _ hm => List.mem_cons_of_mem _ hm

end Blocks

namespace Function

/-- The slots of the allocas of a function. -/
def slots (f : Function) : List Slot := f.blocks.flatMap fun b => b.2.filterMap Inst.slot?

/-- The results of the instructions of a function. -/
def results (f : Function) : List Reg := f.blocks.flatMap fun b => b.2.filterMap Inst.reg?

/-- Every operand is defined before it is read, in the block that reads it, and has one definition. -/
structure Dominated (f : Function) : Prop where
  closed : ∀ b ∈ f.blocks, BlockClosed f.params.length f.slots b.2
  once : f.results.Nodup

/-- The allocas are the first instructions of the entry block, to which nothing branches. -/
structure StaticFrame (f : Function) : Prop where
  leading : ∀ b, f.blocks.head? = some b →
    ∃ as js, b.2 = as ++ js ∧ (∀ i ∈ as, i.isAlloca = true) ∧ ∀ i ∈ js, i.isAlloca = false
  others : ∀ b ∈ f.blocks.tail, ∀ i ∈ b.2, i.isAlloca = false
  inside : ∀ b ∈ f.blocks, ∀ i ∈ b.2, ∀ l ∈ i.targets, l ∈ f.blocks.tail.map (·.1)
  labels : (f.blocks.map (·.1)).Nodup
  distinct : f.slots.Nodup

end Function

/-- A declaration has neither. -/
theorem framed_of_declaration {f : Function} (h : f.blocks = []) : f.Dominated ∧ f.StaticFrame := by
  have hs : f.slots = [] := by rw [Function.slots, h, List.flatMap_nil]
  have hr : f.results = [] := by rw [Function.results, h, List.flatMap_nil]
  refine ⟨⟨?_, ?_⟩, ⟨?_, ?_, ?_, ?_, ?_⟩⟩
  · simp [h]
  · simp [hr]
  · simp [h]
  · simp [h]
  · simp [h]
  · simp [h]
  · simp [hs]

/-! ### Activations -/

section Activations
variable {W : Type} {M : Module} {ext : Ext W} {c d e : Config W} {fr fr' : Frame} {f : Function} {n : Nat}

/-- The activations that are under way, innermost first. -/
def Config.frames : Config W → List Frame
  | .run fr stack _ _ => fr :: stack
  | .done _ _ _ => []

/-- Activation number `n`, where the outermost one is number 0. -/
def Config.activation (c : Config W) (n : Nat) : Option Frame := c.frames.reverse[n]?

/-- A run in which activation number `n` does not end. -/
def Within (M : Module) (ext : Ext W) (n : Nat) : Config W → Config W → Prop :=
  ReflTransGen fun c d => step M ext c = some d ∧ n < d.frames.length

/-- What an activation can do in a step of its own. -/
inductive Advances (fr : Frame) : Frame → Prop
  | alloca {k : Slot} {ty : Ty} {count : Option Value} {rest : List Inst} (n : Nat)
    (hc : fr.code = .alloca k ty count :: rest) : Advances fr (Frame.setSlot { fr with code := rest } k n)
  | next {i : Inst} {rest : List Inst} (hc : fr.code = i :: rest) (hi : i.isAlloca = false) {fr' : Frame}
    (hf : fr'.func = fr.func) (hr : fr'.code = rest) (hs : fr'.slots = fr.slots) : Advances fr fr'
  | jump {i : Inst} {rest code : List Inst} {l : Label} (hc : fr.code = i :: rest) (hl : l ∈ i.targets)
    (hb : fr.func.block? l = some code) : Advances fr { fr with code }

theorem isAlloca_of_isPlain {i : Inst} (h : i.isPlain = true) : i.isAlloca = false := by
  cases i <;> first | rfl | cases h

/-- The frames behind a step: the innermost activation goes on, calls another one, or ends. -/
theorem step_frames (h : step M ext c = some d) : ∃ fr stack, c.frames = fr :: stack ∧
    ((∃ fr', Advances fr fr' ∧ d.frames = fr' :: stack) ∨
     (∃ fr' callee, Advances fr fr' ∧ d.frames = callee :: fr' :: stack) ∨
     (∃ caller rest regs, stack = caller :: rest ∧ d.frames = { caller with regs } :: rest) ∨
     d.frames = []) := by
  cases c with
  | done => cases h
  | run fr stack mem w =>
    refine ⟨fr, stack, rfl, ?_⟩
    cases hc : fr.code with
    | nil => simp [step, hc] at h
    | cons i rest =>
      simp only [step, hc] at h
      rcases exec_cases h with ⟨fr', mem', w', rfl, -, hf, hm, ha⟩ | ⟨f, args, code, r, rfl, hp, -⟩ | ⟨o, rfl, -⟩
      · refine Or.inl ⟨fr', ?_, rfl⟩
        cases hp : i.isPlain with
        | true => exact .next hc (isAlloca_of_isPlain hp) hf (ha hp).code (ha hp).slots
        | false =>
          cases hm hp with
          | alloca n hi => exact .alloca n (hi ▸ hc)
          | jump hl hb => exact .jump hc hl hb
      · exact Or.inr (Or.inl ⟨{ fr with code := rest }, _, .next hc (isAlloca_of_isPlain hp) rfl rfl rfl, rfl⟩)
      · cases stack with
        | nil => exact Or.inr (Or.inr (Or.inr rfl))
        | cons caller rest =>
          refine Or.inr (Or.inr (Or.inl ?_))
          cases o with
          | none => exact ⟨caller, rest, caller.regs, rfl, rfl⟩
          | some v => exact ⟨caller, rest, _, rfl, rfl⟩

theorem outer_activation {a : Frame} {l : List Frame} (h : n < l.length) : (a :: l).reverse[n]? = l.reverse[n]? := by
  rw [List.reverse_cons, List.getElem?_append_left (by simpa)]

theorem inner_activation {a : Frame} {l : List Frame} : (a :: l).reverse[l.length]? = some a := by
  rw [List.reverse_cons, List.getElem?_append_right (by simp)]
  simp

/-- An activation that does not end in a step makes the step itself, or waits, and may get a result. -/
theorem activation_step (h : step M ext c = some d) (hn : n < d.frames.length) (hf : c.activation n = some fr) :
    ∃ fr', d.activation n = some fr' ∧ (Advances fr fr' ∨ ∃ regs, fr' = { fr with regs }) := by
  obtain ⟨top, stack, hc, hd⟩ := step_frames h
  have hlen : n < stack.length + 1 := by
    have := (List.getElem?_eq_some_iff.mp hf).1
    simpa [hc] using this
  rw [Config.activation, hc] at hf
  rw [Config.activation]
  rcases Nat.lt_or_ge n stack.length with hlt | hge
  · -- a caller
    rw [outer_activation hlt] at hf
    rcases hd with ⟨fr', -, hd⟩ | ⟨fr', callee, -, hd⟩ | ⟨caller, rest, regs, rfl, hd⟩ | hd
    · rw [hd, outer_activation hlt]
      exact ⟨fr, hf, Or.inr ⟨fr.regs, rfl⟩⟩
    · rw [hd, outer_activation (Nat.lt_succ_of_lt hlt), outer_activation hlt]
      exact ⟨fr, hf, Or.inr ⟨fr.regs, rfl⟩⟩
    · rw [hd]
      rcases Nat.lt_or_ge n rest.length with hr | hr
      · rw [outer_activation hr] at hf ⊢
        exact ⟨fr, hf, Or.inr ⟨fr.regs, rfl⟩⟩
      · obtain rfl : n = rest.length := Nat.le_antisymm (Nat.le_of_lt_succ hlt) hr
        rw [inner_activation] at hf ⊢
        exact ⟨_, rfl, Or.inr ⟨regs, by rw [← Option.some.inj hf]⟩⟩
    · rw [hd] at hn
      cases hn
  · -- the innermost one
    obtain rfl : n = stack.length := Nat.le_antisymm (Nat.le_of_lt_succ hlen) hge
    rw [inner_activation] at hf
    obtain rfl := Option.some.inj hf
    rcases hd with ⟨fr', ha, hd⟩ | ⟨fr', callee, ha, hd⟩ | ⟨caller, rest, regs, rfl, hd⟩ | hd
    · rw [hd, inner_activation]
      exact ⟨fr', rfl, Or.inl ha⟩
    · rw [hd, outer_activation (Nat.lt_succ_self _), inner_activation]
      exact ⟨fr', rfl, Or.inl ha⟩
    · rw [hd] at hn
      exact absurd hn (Nat.lt_irrefl _)
    · rw [hd] at hn
      cases hn

/-! ### Each alloca once -/

/-- An activation of `f` in the middle: the allocas still to be executed in its block, which only the entry block has,
    have not been executed. -/
structure Orderly (f : Function) (fr : Frame) : Prop where
  func : fr.func = f
  code : ∃ b ∈ f.blocks, ∃ done, b.2 = done ++ fr.code ∧ ((∀ i ∈ fr.code, i.isAlloca = false) ∨
    f.blocks.head? = some b ∧ ∀ k n, fr.slots k = some n → k ∈ done.filterMap Inst.slot?)
  slots : ∀ k n, fr.slots k = some n → k ∈ f.slots

namespace Function.StaticFrame

/-- Behind an instruction that is no alloca there is none. -/
theorem behind (hf : f.StaticFrame) {b : Label × List Inst} {done rest : List Inst} {i : Inst} (hb : b ∈ f.blocks)
    (he : b.2 = done ++ i :: rest) (hi : i.isAlloca = false) : ∀ j ∈ rest, j.isAlloca = false := by
  intro j hj
  cases hbs : f.blocks with
  | nil =>
    rw [hbs] at hb
    cases hb
  | cons b₀ bs =>
    rw [hbs] at hb
    rcases List.mem_cons.mp hb with rfl | hb
    · obtain ⟨as, js, hs, ha, hjs⟩ := hf.leading b (by rw [hbs]; rfl)
      rw [he] at hs
      rcases List.append_eq_append_iff.mp hs with ⟨ms, rfl, hm⟩ | ⟨ms, -, rfl⟩
      · cases ms with
        | nil =>
          rw [List.nil_append] at hm
          exact hjs j (hm ▸ List.mem_cons_of_mem _ hj)
        | cons m ms =>
          rw [List.cons_append, List.cons.injEq] at hm
          have := ha m (List.mem_append_right _ List.mem_cons_self)
          rw [← hm.1, hi] at this
          cases this
      · exact hjs j (List.mem_append_right _ (List.mem_cons_of_mem _ hj))
    · refine hf.others b (by rw [hbs]; exact hb) j ?_
      rw [he]
      exact List.mem_append_right _ (List.mem_cons_of_mem _ hj)

/-- A block that is branched to has no allocas. -/
theorem target (hf : f.StaticFrame) {b : Label × List Inst} {i : Inst} {l : Label} {code : List Inst}
    (hb : b ∈ f.blocks)
    (hi : i ∈ b.2) (hl : l ∈ i.targets) (hc : f.block? l = some code) :
    (l, code) ∈ f.blocks ∧ ∀ j ∈ code, j.isAlloca = false := by
  obtain ⟨l₁, l₂, hbs, hn⟩ := List.lookup_eq_some_iff.mp hc
  refine ⟨by rw [hbs]; exact List.mem_append_right _ List.mem_cons_self, hf.others (l, code) ?_⟩
  have hx := hf.inside b hb i hi l hl
  have hlabels := hf.labels
  rw [hbs] at hx hlabels ⊢
  cases l₁ with
  | nil =>
    rw [List.nil_append, List.map_cons] at hlabels
    exact absurd hx (List.nodup_cons.mp hlabels).1
  | cons => exact List.mem_append_right _ List.mem_cons_self

/-- The alloca that an activation executes next has not been executed by it. -/
theorem next (hf : f.StaticFrame) (h : Orderly f fr) {k : Slot} {ty : Ty} {count : Option Value} {rest : List Inst}
    (hc : fr.code = .alloca k ty count :: rest) : fr.slots k = none ∧ k ∈ f.slots := by
  obtain ⟨b, hb, done, he, hd⟩ := h.code
  have hk : k ∈ f.slots := by
    refine List.mem_flatMap.mpr ⟨b, hb, List.mem_filterMap.mpr ⟨.alloca k ty count, ?_, rfl⟩⟩
    rw [he, hc]
    exact List.mem_append_right _ List.mem_cons_self
  refine ⟨?_, hk⟩
  rw [hc] at he hd
  rcases hd with hd | ⟨-, hd⟩
  · cases hd _ List.mem_cons_self
  · cases hs : fr.slots k with
    | none => rfl
    | some n =>
      have hb' : (b.2.filterMap Inst.slot?).Nodup := (List.nodup_flatMap.mp hf.distinct).1 b hb
      rw [he, List.filterMap_append] at hb'
      exact absurd rfl ((List.nodup_append.mp hb').2.2 k (hd k n hs) k List.mem_cons_self)

/-- A step of an activation keeps it in order, and the storage that it has. -/
theorem advances (hf : f.StaticFrame) (h : Orderly f fr) (ha : Advances fr fr') :
    Orderly f fr' ∧ ∀ k n, fr.slots k = some n → fr'.slots k = some n := by
  obtain ⟨b, hb, done, he, hd⟩ := h.code
  cases ha with
  | @alloca k ty count rest n hc =>
    obtain ⟨hk, hm⟩ := hf.next h hc
    rw [hc] at he hd
    rcases hd with hd | ⟨hhead, hd⟩
    · cases hd _ List.mem_cons_self
    -- its storage is the only new one
    have hslots : ∀ j m, (Frame.setSlot { fr with code := rest } k n).slots j = some m →
        j = k ∨ fr.slots j = some m := by
      intro j m hj
      by_cases hjk : j = k
      · exact Or.inl hjk
      · exact Or.inr ((Function.update_of_ne hjk ..).symm.trans hj)
    have hcode : b.2 = (done ++ [.alloca k ty count]) ++ rest := by simpa using he
    refine ⟨⟨h.func, ⟨b, hb, _, hcode, Or.inr ⟨hhead, fun j m hj => ?_⟩⟩, fun j m hj => ?_⟩, fun j m hj => ?_⟩
    · rw [List.filterMap_append, List.mem_append]
      rcases hslots j m hj with rfl | hj
      · exact Or.inr List.mem_cons_self
      · exact Or.inl (hd j m hj)
    · rcases hslots j m hj with rfl | hj
      · exact hm
      · exact h.slots j m hj
    · have hjk : j ≠ k := by
        rintro rfl
        rw [hk] at hj
        cases hj
      exact (Function.update_of_ne hjk ..).trans hj
  | @next i rest hc hi fr' hfunc hr hs =>
    rw [hc] at he
    refine ⟨⟨hfunc.trans h.func, ⟨b, hb, done ++ [i], ?_, Or.inl ?_⟩, ?_⟩, ?_⟩
    · rw [hr, he]
      simp
    · rw [hr]
      exact hf.behind hb he hi
    · rw [hs]
      exact h.slots
    · rw [hs]
      exact fun _ _ => id
  | @jump i rest code l hc hl hbl =>
    rw [h.func] at hbl
    rw [hc] at he
    obtain ⟨hm, hno⟩ := hf.target hb (by rw [he]; exact List.mem_append_right _ List.mem_cons_self) hl hbl
    exact ⟨⟨h.func, ⟨(l, code), hm, [], rfl, Or.inl hno⟩, h.slots⟩, fun _ _ => id⟩

/-- What a run keeps of an activation that does not end in it. -/
theorem within (hf : f.StaticFrame) (h : Within M ext n c d) (hc : c.activation n = some fr) (ho : Orderly f fr) :
    ∃ fr', d.activation n = some fr' ∧ Orderly f fr' ∧ ∀ k m, fr.slots k = some m → fr'.slots k = some m := by
  induction h with
  | refl => exact ⟨fr, hc, ho, fun _ _ => id⟩
  | tail _ hs ih =>
    obtain ⟨fr₁, h₁, ho₁, hk₁⟩ := ih
    obtain ⟨fr₂, h₂, ha | ⟨regs, rfl⟩⟩ := activation_step hs.1 hs.2 h₁
    · obtain ⟨ho₂, hk₂⟩ := hf.advances ho₁ ha
      exact ⟨fr₂, h₂, ho₂, fun k m hk => hk₂ k m (hk₁ k m hk)⟩
    · exact ⟨_, h₂, ⟨ho₁.func, ho₁.code, ho₁.slots⟩, hk₁⟩

end Function.StaticFrame

/-- Wherever an activation of `f` gets to, it has executed each alloca of `f` at most once: the alloca it executes
    next has no storage yet, and what has storage keeps it while the activation lasts. -/
def Function.AllocatesOnce (f : Function) : Prop :=
  ∀ {W : Type} (M : Module) (ext : Ext W) (b : Label × List Inst) (args : List Val) (r : Reg) (stack : List Frame)
    (mem : Mem) (w : W) (c : Config W), f.blocks.head? = some b →
    Within M ext stack.length (.run (Frame.enter f args b.2 r) stack mem w) c →
    ∃ fr, c.activation stack.length = some fr ∧ (∀ k n, fr.slots k = some n → k ∈ f.slots) ∧
      (∀ k ty count rest, fr.code = .alloca k ty count :: rest → fr.slots k = none ∧ k ∈ f.slots) ∧
      ∀ d, Within M ext stack.length c d → ∃ fr', d.activation stack.length = some fr' ∧
        ∀ k n, fr.slots k = some n → fr'.slots k = some n

theorem Function.StaticFrame.allocatesOnce (hf : f.StaticFrame) : f.AllocatesOnce := by
  intro W M ext b args r stack mem w c hb hc
  have ho : Orderly f (Frame.enter f args b.2 r) :=
    ⟨rfl, ⟨b, List.mem_of_head? hb, [], rfl, Or.inr ⟨hb, fun _ _ hk => by cases hk⟩⟩, fun _ _ hk => by cases hk⟩
  obtain ⟨fr, h, ho, -⟩ := hf.within hc inner_activation ho
  refine ⟨fr, h, ho.slots, fun k ty count rest hcode => hf.next ho hcode, fun d hd => ?_⟩
  obtain ⟨fr', h', -, hk⟩ := hf.within hd h ho
  exact ⟨fr', h', hk⟩

end Activations

end Ir
