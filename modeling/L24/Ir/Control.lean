import L24.Lib.Steps
import L24.Lib.CallStack
import L24.Ir.Frame
import L24.Ir.Effects

/-! The control of the machine: where its activations are, without their data. What a module's calls and branches look
    like decides about the call stack, and about the length of runs. -/

namespace Ir
open Relation CallStack

/-- The function that an instruction calls. -/
def Inst.callee? : Inst → Option String
  | .call _ callee _ _ _ => some callee
  | _ => none

/-- Where an activation is: its function, and what is left of the block. -/
structure Point where
  func : Function
  code : List Inst

namespace Point

/-- The activation goes on behind its next instruction, or with another block. -/
inductive Goes : Point → Point → Prop
  | next {f : Function} {i : Inst} {rest : List Inst} (hi : i.isTerminator = false) : Goes ⟨f, i :: rest⟩ ⟨f, rest⟩
  | jump {f : Function} {i : Inst} {rest code : List Inst} {l : Label} (hl : l ∈ i.targets)
      (hb : f.block? l = some code) : Goes ⟨f, i :: rest⟩ ⟨f, code⟩

/-- The activation calls a function of the module, and waits behind the call. -/
inductive Calls (M : Module) : Point → Point → Point → Prop
  | call {f g : Function} {i : Inst} {callee : String} {rest : List Inst} {b : Label × List Inst}
      (hi : i.callee? = some callee) (hg : M.function? callee = some g) (hb : g.blocks.head? = some b) :
      Calls M ⟨f, i :: rest⟩ ⟨g, b.2⟩ ⟨f, rest⟩

/-- A return ends the activation. -/
inductive Ends : Point → Prop
  | ret {f : Function} {i : Inst} {rest : List Inst} (hi : i.isReturn = true) : Ends ⟨f, i :: rest⟩

end Point

/-- The machine without its data. -/
def control (M : Module) : CallStack.Machine Point := ⟨Point.Goes, Point.Calls M, Point.Ends⟩

/-- Where the frame is in its function. -/
def Frame.point (fr : Frame) : Point := ⟨fr.func, fr.code⟩

/-- Where the activations are, innermost first. -/
def Config.points {W : Type} (c : Config W) : List Point := c.frames.map Frame.point

/-! ### The machine keeps to its control -/

section Machine
variable {W : Type} {M : Module} {ext : Ext W} {c d : Config W} {fr : Frame} {stack : List Frame} {mem : Mem} {w : W}

theorem setResult_point (r : Reg) (o : Option Val) : (fr.setResult r o).point = fr.point := by cases o <;> rfl

theorem leave_points (o : Option Val) : (Config.leave fr stack mem w o).points = stack.map Frame.point := by
  cases stack with
  | nil => rfl
  | cons caller rest => cases o <;> rfl

theorem step_control (h : step M ext c = some d) : CallStack.Step (control M) c.points d.points := by
  cases c with
  | done => cases h
  | run fr stack mem w =>
    obtain ⟨i, rest, hc, he⟩ := step_effect h
    have hpoint : fr.point = ⟨fr.func, i :: rest⟩ := by rw [Frame.point, hc]
    rw [Config.points, Config.frames, List.map_cons, hpoint]
    cases he with
    | call hvs hg hb => exact .calls (.call rfl hg hb)
    | @library _ _ _ _ _ _ _ o =>
      rw [Config.points, Config.frames, List.map_cons, setResult_point]
      exact .goes (.next rfl)
    | jump hl hb => exact .goes (.jump hl hb)
    | ret =>
      rw [leave_points]
      exact .ends (.ret rfl)
    | _ => exact .goes (.next rfl)

theorem reaches_control (h : Steps.Reaches (step M ext) c d) :
    ReflTransGen (CallStack.Step (control M)) c.points d.points := by
  obtain ⟨n, h⟩ := h
  induction n generalizing c with
  | zero =>
    cases h
    exact .refl
  | succ n ih =>
    obtain ⟨e, he, h⟩ := Option.bind_eq_some_iff.mp h
    exact .head (step_control he) (ih h)

end Machine

/-! ### Calls between the functions of a module -/

/-- The place of a function in its module. -/
def Module.position (M : Module) (f : Function) : Nat := M.functions.findIdx (·.name == f.name)

/-- Every call in a function goes to a function of the module, whose place is `r`-related to the caller's. -/
def Module.CallsTo (M : Module) (r : Nat → Nat → Prop) : Prop :=
  ∀ f ∈ M.functions, ∀ b ∈ f.blocks, ∀ i ∈ b.2, ∀ callee, i.callee? = some callee →
    ∃ g, M.function? callee = some g ∧ r (M.position g) (M.position f)

/-- The activation is in a block of a function of the module. -/
structure Point.Inside (M : Module) (p : Point) : Prop where
  func : p.func ∈ M.functions
  code : ∃ b ∈ p.func.blocks, p.code <:+ b.2

/-- The position of the function in the module. -/
def Point.position (M : Module) (p : Point) : Nat := M.position p.func

section Calls
variable {M : Module} {r : Nat → Nat → Prop} {a b c : Point}

theorem position_lt {f : Function} (h : f ∈ M.functions) : M.position f < M.functions.length :=
  List.findIdx_lt_length.mpr ⟨f, h, beq_self_eq_true _⟩

theorem mem_of_block? {f : Function} {l : Label} {code : List Inst} (h : f.block? l = some code) :
    (l, code) ∈ f.blocks := by
  obtain ⟨l₁, l₂, hbs, -⟩ := List.lookup_eq_some_iff.mp h
  rw [hbs]
  exact List.mem_append_right _ List.mem_cons_self

theorem Point.Inside.goes (ha : a.Inside M) (h : Point.Goes a b) : b.Inside M ∧ b.func = a.func := by
  obtain ⟨hf, bl, hbl, hc⟩ := ha
  cases h with
  | next => exact ⟨⟨hf, bl, hbl, (List.suffix_cons _ _).trans hc⟩, rfl⟩
  | jump hl hb => exact ⟨⟨hf, _, mem_of_block? hb, List.suffix_refl _⟩, rfl⟩

theorem Point.Inside.calls (ha : a.Inside M) (h : Point.Calls M a c b) :
    c.Inside M ∧ b.Inside M ∧ b.func = a.func ∧ ∃ bl ∈ a.func.blocks, ∃ i ∈ bl.2, ∃ callee,
      i.callee? = some callee ∧ M.function? callee = some c.func := by
  obtain ⟨hf, bl, hbl, hc⟩ := ha
  cases h with
  | call hi hg hb =>
    refine ⟨⟨List.mem_of_find?_eq_some hg, _, List.mem_of_head? hb, List.suffix_refl _⟩,
      ⟨hf, bl, hbl, (List.suffix_cons _ _).trans hc⟩, rfl, bl, hbl, _, hc.mem List.mem_cons_self, _, hi, hg⟩

theorem ranked (hM : M.CallsTo r) : Ranked (control M) (Point.Inside M) (Point.position M) r where
  goes ha h := by
    obtain ⟨hb, hf⟩ := ha.goes h
    exact ⟨hb, congrArg M.position hf⟩
  calls ha h := by
    obtain ⟨hc, hb, hf, bl, hbl, i, hi, callee, hcallee, hg⟩ := ha.calls h
    obtain ⟨g, hg', hr⟩ := hM _ ha.func bl hbl i hi callee hcallee
    obtain rfl := Option.some.inj (hg'.symm.trans hg)
    exact ⟨⟨hc, hr⟩, hb, congrArg M.position hf⟩

/-- A call of a function of the module. -/
theorem start_points {W : Type} {name : String} {args : List Val} {mem : Mem} {w : W} {d : Config W}
    (h : Config.start M name args mem w = some d) : ∃ f b, M.function? name = some f ∧ f.blocks.head? = some b ∧
      d.points = [⟨f, b.2⟩] ∧ Point.Inside M ⟨f, b.2⟩ := by
  obtain ⟨f, hf, hs⟩ := Option.bind_eq_some_iff.mp h
  obtain ⟨b, hb, rfl⟩ := Option.map_eq_some_iff.mp hs
  exact ⟨f, b, hf, hb, rfl, List.mem_of_find?_eq_some hf, b, List.mem_of_head? hb, List.suffix_refl _⟩

/-- In every state of a run the activations are in the module, and their places in order. -/
theorem Module.CallsTo.ordered [IsTrans Nat r] {W : Type} {ext : Ext W} {name : String} {args : List Val} {mem : Mem}
    {w : W}
    {d e : Config W} (hM : M.CallsTo r) (h : Config.start M name args mem w = some d)
    (he : Steps.Reaches (step M ext) d e) : Ordered (Point.Inside M) (Point.position M) r e.points := by
  obtain ⟨f, b, -, -, hd, hin⟩ := start_points h
  exact (ranked hM).run (reaches_control he) (hd ▸ .single hin)

end Calls

/-! ### Functions without loops -/

/-- The blocks of a function. -/
abbrev Blocks := List (Label × List Inst)

/-- Every branch goes to a later block. -/
def Forward : Blocks → Prop
  | [] => True
  | b :: bs => (∀ i ∈ b.2, ∀ l ∈ i.targets, l ∈ bs.map (·.1)) ∧ Forward bs

/-- The largest of some numbers. -/
def largest (ns : List Nat) : Nat := ns.foldr max 0

/-- The blocks that some instructions branch to. -/
def targetsOf (is : List Inst) : List Label := is.flatMap Inst.targets

/-- The length of the longest way through the blocks, from the one with the label `l` on. -/
def longest : Blocks → Label → Nat
  | [], _ => 0
  | b :: bs, l => if l = b.1 then b.2.length + largest ((targetsOf b.2).map (longest bs)) else longest bs l

/-- The length of the longest way from some instructions on. -/
def ahead (bs : Blocks) (code : List Inst) : Nat := code.length + largest ((targetsOf code).map (longest bs))

/-- The number of instructions. -/
def size (bs : Blocks) : Nat := (bs.flatMap (·.2)).length

section Forward
variable {bs : Blocks} {b : Label × List Inst} {code : List Inst} {l n : Nat} {ns : List Nat}

theorem le_largest (h : n ∈ ns) : n ≤ largest ns := by
  induction ns with
  | nil => cases h
  | cons m ns ih =>
    rcases List.mem_cons.mp h with rfl | h
    · exact Nat.le_max_left _ _
    · exact Nat.le_trans (ih h) (Nat.le_max_right _ _)

theorem largest_le (h : ∀ m ∈ ns, m ≤ n) : largest ns ≤ n := by
  induction ns with
  | nil => exact Nat.zero_le _
  | cons m ns ih =>
    obtain ⟨hm, hns⟩ := List.forall_mem_cons.mp h
    exact Nat.max_le.mpr ⟨hm, ih hns⟩

theorem longest_le_ahead {i : Inst} {rest : List Inst} (hl : l ∈ i.targets) :
    longest bs l < ahead bs (i :: rest) := by
  have hm : l ∈ targetsOf (i :: rest) := List.mem_flatMap.mpr ⟨i, List.mem_cons_self, hl⟩
  have hle := le_largest (List.mem_map_of_mem (f := longest bs) hm)
  rw [ahead, List.length_cons]
  omega

theorem ahead_cons (i : Inst) (rest : List Inst) : ahead bs rest < ahead bs (i :: rest) := by
  have hle : largest ((targetsOf rest).map (longest bs)) ≤ largest ((targetsOf (i :: rest)).map (longest bs)) := by
    refine largest_le fun m hm => ?_
    obtain ⟨l, hl, rfl⟩ := List.mem_map.mp hm
    refine le_largest (List.mem_map_of_mem ?_)
    exact List.mem_append_right _ hl
  rw [ahead, ahead, List.length_cons]
  omega

theorem longest_le_size : ∀ {bs : Blocks} {l : Label}, longest bs l ≤ size bs
  | [], _ => Nat.le_refl _
  | b :: bs, l => by
    have hlargest : largest ((targetsOf b.2).map (longest bs)) ≤ size bs := by
      refine largest_le fun m hm => ?_
      obtain ⟨l, -, rfl⟩ := List.mem_map.mp hm
      exact longest_le_size
    have hrest : longest bs l ≤ size bs := longest_le_size
    have hsize : size (b :: bs) = b.2.length + size bs := by rw [size, List.flatMap_cons, List.length_append, size]
    rw [longest, hsize]
    split <;> omega

theorem Forward.targets : ∀ {bs : Blocks}, Forward bs → ∀ b ∈ bs, ∀ l ∈ targetsOf b.2, l ∈ bs.map (·.1)
  | [], _, b, hb, _, _ => by cases hb
  | b' :: bs, h, b, hb, l, hl => by
    rcases List.mem_cons.mp hb with rfl | hb
    · obtain ⟨i, hi, hl⟩ := List.mem_flatMap.mp hl
      exact List.mem_cons_of_mem _ (h.1 i hi l hl)
    · exact List.mem_cons_of_mem _ (h.2.targets b hb l hl)

/-- Behind the first block the longest ways do not lead back to it. -/
theorem ahead_cons_block {ls : List Label} (hl : ∀ l ∈ ls, l ≠ b.1) :
    ls.map (longest (b :: bs)) = ls.map (longest bs) :=
  List.map_congr_left fun l hm => by rw [longest, if_neg (hl l hm)]

theorem Forward.longest_eq : ∀ {bs : Blocks}, Forward bs → (bs.map (·.1)).Nodup → ∀ {l code},
    bs.lookup l = some code → longest bs l = ahead bs code
  | [], _, _, _, _, h => by cases h
  | b :: bs, hf, hn, l, code, h => by
    obtain ⟨hnot, hn⟩ := List.nodup_cons.mp hn
    have hne : ∀ x ∈ bs.map (·.1), x ≠ b.1 := by
      rintro x hx rfl
      exact hnot hx
    rw [longest, ahead]
    split
    · rename_i hl
      subst hl
      rw [List.lookup_cons, beq_self_eq_true] at h
      cases h
      rw [ahead_cons_block fun x hx => ?_]
      obtain ⟨i, hi, hx⟩ := List.mem_flatMap.mp hx
      exact hne x (hf.1 i hi x hx)
    · rename_i hl
      rw [List.lookup_cons, beq_false_of_ne hl] at h
      have hmem : (l, code) ∈ bs := by
        obtain ⟨l₁, l₂, hbs, -⟩ := List.lookup_eq_some_iff.mp h
        rw [hbs]
        exact List.mem_append_right _ List.mem_cons_self
      rw [hf.2.longest_eq hn h, ahead, ahead_cons_block fun x hx => hne x (hf.2.targets _ hmem x hx)]

theorem Forward.ahead_le_size (hf : Forward bs) (hn : (bs.map (·.1)).Nodup) (h : bs.lookup l = some code) :
    ahead bs code ≤ size bs := hf.longest_eq hn h ▸ longest_le_size

end Forward

/-! ### How long a run can be -/

/-- The number of instructions of a module. -/
def Module.size (M : Module) : Nat := (M.functions.flatMap fun f => f.blocks.flatMap (·.2)).length

/-- What an activation has left to do, without its calls. -/
def Point.left (p : Point) : Nat := ahead p.func.blocks p.code

/-- No function of the module branches back, and each calls only functions before it. -/
structure Module.Loopless (M : Module) : Prop where
  forward : ∀ f ∈ M.functions, Forward f.blocks
  labels : ∀ f ∈ M.functions, (f.blocks.map (·.1)).Nodup
  calls : M.CallsTo (· < ·)

section Loopless
variable {W : Type} {M : Module} {ext : Ext W} {c d : Config W} {f : Function} {n : Nat}

theorem size_le (h : f ∈ M.functions) : Ir.size f.blocks ≤ M.size := by
  have hmem : f.blocks.flatMap (·.2) ∈ M.functions.map fun f => f.blocks.flatMap (·.2) := List.mem_map_of_mem h
  rw [Module.size, List.flatMap_def]
  exact (List.sublist_flatten_of_mem hmem).length_le

/-- A function that is entered has no more to do than the module has instructions. -/
theorem Module.Loopless.enter_le (hM : M.Loopless) (hf : f ∈ M.functions) {b : Label × List Inst}
    (hb : f.blocks.head? = some b) : Point.left ⟨f, b.2⟩ ≤ M.size := by
  have hlookup : f.blocks.lookup b.1 = some b.2 := by
    cases hbs : f.blocks with
    | nil =>
      rw [hbs] at hb
      cases hb
    | cons b' bs =>
      rw [hbs] at hb
      cases hb
      rw [List.lookup_cons, beq_self_eq_true]
  exact Nat.le_trans ((hM.forward f hf).ahead_le_size (hM.labels f hf) hlookup) (size_le hf)

theorem Module.Loopless.spending (hM : M.Loopless) :
    Spending (control M) (Point.Inside M) (Point.position M) Point.left M.size where
  ranked := ranked hM.calls
  goes {a b} ha h := by
    cases h with
    | next => exact ahead_cons _ _
    | @jump f i rest code l hl hb =>
      have heq := (hM.forward f ha.func).longest_eq (hM.labels f ha.func) hb
      have hlt : longest f.blocks l < ahead f.blocks (i :: rest) := longest_le_ahead hl
      rwa [heq] at hlt
  calls {a b c} ha h := by
    cases h with
    | call hi hg hb => exact ⟨hM.enter_le (List.mem_of_find?_eq_some hg) hb, ahead_cons _ _⟩
  ends {a} ha h := by
    cases h with
    | ret => exact Nat.lt_of_le_of_lt (Nat.zero_le _) (ahead_cons _ _)

theorem Module.Loopless.step (hM : M.Loopless) (hc : ∀ p ∈ c.points, p.Inside M) (h : step M ext c = some d) :
    (∀ p ∈ d.points, p.Inside M) ∧ weight (Point.position M) Point.left M.size d.points <
      weight (Point.position M) Point.left M.size c.points :=
  ⟨hM.spending.ranked.step_ok (step_control h) hc, hM.spending.step (step_control h) hc⟩

/-- A call of a function of such a module takes a bounded number of steps, whatever it gets and finds. -/
theorem Module.Loopless.bounded (hM : M.Loopless) {name : String} {args : List Val} {mem : Mem} {w : W}
    (hc : Config.start M name args mem w = some c) (h : Steps.Lasts (Ir.step M ext) n c) :
    n < price M.size M.functions.length := by
  obtain ⟨f, b, hf, hb, hp, hin⟩ := start_points hc
  have hpoints : ∀ p ∈ c.points, p.Inside M := by
    rw [hp]
    exact List.forall_mem_singleton.mpr hin
  have hle := Steps.Lasts.le_measure (fun c d hc h => hM.step hc h) hpoints h
  have hwork := work_lt_price (hM.enter_le hin.func hb) (position_lt hin.func)
  rw [hp] at hle
  exact Nat.lt_of_le_of_lt (Nat.le_trans hle (Nat.le_of_eq (Nat.add_zero _))) hwork

end Loopless

end Ir
