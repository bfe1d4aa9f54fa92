import L24.Theorems.Params
import L24.Simulation.Stmt

/-! Functions: the entry block reserves the variables, the parameters are stored, and the body and the epilogue
    simulate a call. -/

namespace L24
open Ir Relation Steps

variable {W : Type} {lib : Library W} {fin : State} {T : Target fin} {p : Label} {s t : State}
  {fr : Frame} {stack : List Frame} {mem : Mem} {env : Env W} {base : Nat} {dest : Reg} {n : Nat} {call : Calls W}

/-! ### The allocas of the entry block -/

section Allocas
variable {ty : Ty} {count : Option Value} {is js : List Inst} {slots : Slot → Option Nat}

theorem AllocaShape.cells (h : AllocaShape ty count) : ∃ m, allocaCells ty count = some m := by
  obtain ⟨elt, -, ⟨rfl, -⟩ | ⟨sz, k, rfl, hk, -⟩⟩ := h
  · exact ⟨_, rfl⟩
  · obtain ⟨c, rfl⟩ := sextValue?_const hk
    cases c with
    | int v => exact ⟨_, rfl⟩
    | bool b => exact ⟨_, rfl⟩
    | _ => cases hk

theorem exec_alloca {M : Module} {ext : Ext W} {k m : Nat} {e : W} (h : allocaCells ty count = some m) :
    exec M ext (.alloca k ty count) fr stack mem e = some (.run (fr.setSlot k mem.next) stack (mem.alloc m) e) := by
  cases count with
  | none =>
    cases h
    rfl
  | some v =>
    cases v with
    | const c =>
      obtain ⟨i, hi, rfl⟩ := Option.map_eq_some_iff.mp h
      have hc : (fr.eval (.const c)).bind Val.count? = some i := hi
      simp only [exec, hc, Option.map_some]
    | _ => cases h

/-- One more alloca has been executed. -/
theorem Allocated.alloc {k m : Nat} (h : Allocated base is slots mem) (hb : base ≤ mem.next)
    (hlt : ∀ j b, slots j = some b → b < mem.next) (hk : slots k = none) (hm : allocaCells ty count = some m) :
    Allocated base (is ++ [.alloca k ty count]) (Function.update slots k (some mem.next)) (mem.alloc m) where
  block j ty' count' hj := by
    rcases List.mem_append.mp hj with hj | hj
    · obtain ⟨b, hs, hle, hlt', hl⟩ := h.block j ty' count' hj
      have hjk : j ≠ k := fun he => by rw [he, hk] at hs; cases hs
      have hne : Blk.stack b ≠ .stack mem.next := fun he => Nat.lt_irrefl _ (Blk.stack.inj he ▸ hlt')
      exact ⟨b, (Function.update_of_ne hjk ..).trans hs, hle, Nat.lt_succ_of_lt hlt',
        by rw [Mem.alloc_cells_of_ne hne]; exact hl⟩
    · cases List.mem_singleton.mp hj
      refine ⟨mem.next, Function.update_self .., hb, Nat.lt_succ_self _, ?_⟩
      rw [Mem.alloc_cells_self, List.length_replicate, hm]
  inj i j b hi hj := by
    by_cases hik : i = k
    · by_cases hjk : j = k
      · rw [hik, hjk]
      · subst hik
        rw [Function.update_self] at hi
        cases hi
        rw [Function.update_of_ne hjk] at hj
        exact absurd (hlt j _ hj) (Nat.lt_irrefl _)
    · rw [Function.update_of_ne hik] at hi
      by_cases hjk : j = k
      · subst hjk
        rw [Function.update_self] at hj
        cases hj
        exact absurd (hlt i _ hi) (Nat.lt_irrefl _)
      · rw [Function.update_of_ne hjk] at hj
        exact h.inj i j b hi hj

/-- The allocas have been executed: memory has new blocks, and nothing else has changed. -/
structure Reserved (base : Nat) (is : List Inst) (code : List Inst) (fr : Frame) (mem : Mem) (fr' : Frame)
    (mem' : Mem) :
    Prop where
  func : fr'.func = fr.func
  args : fr'.args = fr.args
  dest : fr'.dest = fr.dest
  code : fr'.code = code
  kept : MemKept mem.next mem mem'
  globals : ∀ x, mem'.cells (.global x) = mem.cells (.global x)
  allocated : Allocated base is fr'.slots mem'

/-- Allocas in a row: each reserves a block for a slot that has none. -/
theorem allocas_reach (lib : Library W) (fin : State) (stack : List Frame) (e : W) {code : List Inst} :
    ∀ {js is : List Inst} {fr : Frame} {mem : Mem},
    (∀ i ∈ js, ∃ k ty count, i = .alloca k ty count ∧ AllocaShape ty count) →
    fr.code = js ++ code → (js.filterMap Inst.slot?).Nodup → (∀ k ∈ js.filterMap Inst.slot?, fr.slots k = none) →
    Allocated base is fr.slots mem → base ≤ mem.next → (∀ k b, fr.slots k = some b → b < mem.next) →
    ∃ fr' mem', Reaches (machine lib fin) (.run fr stack mem e) (.run fr' stack mem' e) ∧
      Reserved base (is ++ js) code fr mem fr' mem'
  | [], is, fr, mem, _, hc, _, _, ha, _, _ =>
    ⟨fr, mem, .refl _, rfl, rfl, rfl, hc, .refl mem, fun _ => rfl, by rw [List.append_nil]; exact ha⟩
  | i :: js, is, fr, mem, hi, hc, hnd, hnone, ha, hle, hlt => by
    obtain ⟨k, ty, count, rfl, hshape⟩ := hi i List.mem_cons_self
    obtain ⟨m, hm⟩ := hshape.cells
    have hslots : (Inst.alloca k ty count :: js).filterMap Inst.slot? = k :: js.filterMap Inst.slot? := rfl
    rw [hslots] at hnd hnone
    obtain ⟨hk, hnd⟩ := List.nodup_cons.mp hnd
    let fr₁ := ({ fr with code := js ++ code } : Frame).setSlot k mem.next
    have hstep : machine lib fin (.run fr stack mem e) = some (.run fr₁ stack (mem.alloc m) e) :=
      (machine_run hc).trans (exec_alloca hm)
    have hslot : ∀ j, j ≠ k → fr₁.slots j = fr.slots j := fun j hj => Function.update_of_ne hj ..
    have hnone₁ : ∀ j ∈ js.filterMap Inst.slot?, fr₁.slots j = none := fun j hj => by
      rw [hslot j fun he => hk (he ▸ hj)]
      exact hnone j (List.mem_cons_of_mem _ hj)
    have hlt₁ : ∀ j b, fr₁.slots j = some b → b < (mem.alloc m).next := fun j b hj => by
      by_cases hjk : j = k
      · have he : fr₁.slots k = some mem.next := Function.update_self ..
        rw [hjk, he] at hj
        cases hj
        exact Nat.lt_succ_self _
      · rw [hslot j hjk] at hj
        exact Nat.lt_succ_of_lt (hlt j b hj)
    have ha₁ : Allocated base (is ++ [.alloca k ty count]) fr₁.slots (mem.alloc m) :=
      ha.alloc hle hlt (hnone k List.mem_cons_self) hm
    obtain ⟨fr₂, mem₂, hreach, hr⟩ := allocas_reach lib fin stack e (fun i hm => hi i (List.mem_cons_of_mem _ hm)) rfl
      hnd hnone₁ ha₁ (Nat.le_succ_of_le hle) hlt₁
    have hkept : MemKept mem.next mem (mem.alloc m) :=
      ⟨Nat.le_succ _, fun b hb => Mem.alloc_cells_of_ne fun he => Nat.lt_irrefl _ (Blk.stack.inj he ▸ hb)⟩
    refine ⟨fr₂, mem₂, .head hstep hreach, hr.func, hr.args, hr.dest, hr.code, hkept.trans hr.kept (Nat.le_succ _),
      fun x => ?_, ?_⟩
    · exact (hr.globals x).trans (Mem.alloc_cells_of_ne (by simp))
    · have := hr.allocated
      rwa [List.append_assoc] at this

end Allocas

/-! ### The function in the finished program -/

section Emitted
variable {g : FuncNode} {s₁ s₂ : State} {q : InsertPoint} {ls : List Nat} {x : String} {w : World W}

theorem Extends.function? {f : FunctionObj} (h : Extends s t) (hx : s.function? x = some f) :
    t.function? x = some f := by
  obtain ⟨fs, hf⟩ := h.functions
  have hx : s.functions.find? (·.name == x) = some f := hx
  rw [State.function?, hf, List.find?_append, hx]
  rfl

theorem Extends.global? {k : GlobalVariable} (h : Extends s t) (hx : s.global? x = some k) : t.global? x = some k := by
  obtain ⟨gs, hg⟩ := h.globals
  have hx : s.globals.find? (·.name == x) = some k := hx
  rw [State.global?, hg, List.find?_append, hx]
  rfl

variable [ConstantFolder]

/-- The finished program has the function `g`, generated in the idle state `s` under its own name. -/
structure Emitted (g : FuncNode) (s s₁ s₂ : State) (q : InsertPoint) (ls : List Nat) (t fin : State) : Prop where
  idle : Idle s
  free : g.ident ∉ s.symbols
  run : FuncRun g s s₁ s₂ q t
  functions : t.functions = s.functions ++ [{ g.object s with layout := s.nextLabel :: ls }]
  kept : Extends t fin

theorem Emitted.prologue (h : Emitted g s s₁ s₂ q ls t fin) : Prologue s.functions.length s.nextLabel t :=
  h.run.run.prologue (Nat.le_succ _) (start_prologue h.idle)

/-- The function, with its entry block and the bound on its blocks. -/
def Emitted.target (h : Emitted g s s₁ s₂ q ls t fin) : Target fin where
  func := s.functions.length
  entry := s.nextLabel
  limit := t.nextLabel
  obj := { g.object s with layout := s.nextLabel :: ls }
  obj_eq := by
    obtain ⟨fs, hf⟩ := h.kept.functions
    rw [hf, h.functions]
    simp
  plain l hl hlt := by
    rw [h.kept.blocks l hlt]
    exact h.prologue.others l hl

theorem Emitted.name (h : Emitted g s s₁ s₂ q ls t fin) : h.target.obj.name = g.ident :=
    congrArg Prod.fst (uniqueName_of_not_mem h.free)

theorem Emitted.function? (h : Emitted g s s₁ s₂ q ls t fin) : fin.function? g.ident = some h.target.obj := by
  refine h.kept.function? ?_
  have hnone : s.functions.find? (·.name == g.ident) = none := (not_mem_symbols.mp h.free).1
  have hname : (h.target.obj.name == g.ident) = true := beq_iff_eq.mpr h.name
  have hf : t.functions = s.functions ++ [h.target.obj] := h.functions
  rw [State.function?, hf, List.find?_append, hnone, List.find?_singleton, if_pos hname]
  rfl

theorem Emitted.later (h : Emitted g s s₁ s₂ q ls t fin) : Later h.target t where
  blocks l hl := ⟨[], [], by rw [h.kept.blocks l hl]; exact .refl _⟩
  nextLabel := Nat.le_refl _
  labels f hf := by
    have hobj : t.functions[h.target.func]? = some h.target.obj := by
      rw [h.functions]
      exact List.getElem?_concat_length
    obtain rfl := Option.some.inj (hf.symm.trans hobj)
    exact List.Subset.refl _
  function? x f hx := ⟨f, h.kept.function? hx, rfl⟩
  global? x k hx := h.kept.global? hx

/-- The generation of the body, between the parameters and the epilogue. -/
theorem Emitted.sites (h : Emitted g s s₁ s₂ q ls t fin) : Site h.target (g.start s) ∧ Later h.target s₁ ∧
    Site h.target s₁ ∧ Later h.target s₂ ∧ Later h.target (s₂.retUnlessReturn q) := by
  have hp₀ : Prologue s.functions.length s.nextLabel (g.start s) := start_prologue h.idle
  have hp₁ := h.run.paramsRun.prologue (Nat.le_succ _) hp₀
  have hp₂ := h.run.bodyRun.prologue (Nat.le_succ _) hp₁
  have hl₃ : Later h.target (s₂.retUnlessReturn q) := by
    have hl := h.later
    generalize h.target = T at hl ⊢
    rw [h.run.result] at hl
    exact ⟨hl.blocks, hl.nextLabel, hl.labels, hl.function?, hl.global?⟩
  have hl₂ : Later h.target s₂ := hl₃.of_run hp₂ (GenRun.retUnlessReturn : GenRun _ s.nextLabel s₂ _)
  have hn : (g.start s).nestedBlocks = [] := h.idle.nestedBlocks
  have hs₀ : Site h.target (g.start s) := ⟨hp₀, start_inFunc, by rw [hn]; simp⟩
  exact ⟨hs₀, hl₂.of_run hp₁ h.run.bodyRun, hs₀.run (Nat.le_succ _) h.run.paramsRun h.run.defined, hl₂, hl₃⟩

end Emitted

/-! ### Parameters -/

theorem foldl_define (ds : Scope) (scope : Scope) (outer : Scopes) :
    ds.foldl (fun (sc : Scopes) d => sc.define d.1 d.2) (scope :: outer) = (ds.reverse ++ scope) :: outer := by
  induction ds generalizing scope with
  | nil => rfl
  | cons d ds ih => rw [List.foldl_cons, Scopes.define, ih, List.reverse_cons, List.append_assoc]; rfl

variable [ConstantFolder]

/-- The arguments are stored into the variables of the parameters. -/
theorem defineParams_reach (lib : Library W) (stack : List Frame) (e : W) : ∀ {ps : List (String × FParamType)}
    {xs : List (BitVec 64)} {i : Nat} {s t : State} {env : Env W} {fr : Frame} {mem : Mem},
    defineParams i ps s = .ok () t → Later T t → Site T s → Running T base dest s p env fr mem →
    (∀ q ∈ ps, q.2 = .int) → ps.length = xs.length → fr.args.drop i = xs.map .int →
    ∃ fr' mem', Reaches (machine lib fin) (.run fr stack mem e) (.run fr' stack mem' e) ∧ MemKept base mem mem' ∧
      Running T base dest t p { env with
        scopes := ((ps.map (·.1)).zip (xs.map .scalar)).foldl (fun sc d => sc.define d.1 d.2) env.scopes } fr' mem'
  | [], xs, i, s, t, env, fr, mem, h, hl, hs, hr, _, _, _ => by
    rw [defineParams] at h
    obtain ⟨-, rfl⟩ := pure_ok.mp h
    exact ⟨fr, mem, .refl _, .refl mem, hr⟩
  | (x, ty) :: ps, xs, i, s, t, env, fr, mem, h, hl, hs, hr, hint, hlen, hargs => by
    rw [defineParams] at h
    obtain ⟨w, hw, h₂⟩ := seq_ok.mp h
    obtain rfl : ty = .int := hint _ List.mem_cons_self
    obtain ⟨k, xs, rfl⟩ : ∃ k xs', xs = k :: xs' := List.exists_cons_of_length_eq_add_one hlen.symm
    obtain ⟨r, d⟩ := defineValue_run T.entry hs.inFunc hw
    have hsw := hs.run (Nat.le_refl _) r d
    have hlw : Later T w := hl.of_run hsw.prologue (defineParams_run T.entry hsw.inFunc h₂).1
    obtain ⟨harg, hrest⟩ : fr.args[i]? = some (.int k) ∧ fr.args.drop (i + 1) = xs.map .int := by
      rw [← List.head?_drop, ← List.tail_drop, hargs]
      exact ⟨rfl, rfl⟩
    have hv : Holds fr s.nextReg (.arg i .i64) (.int k) :=
      ⟨rfl, harg, fun _ he => (by cases he), fun _ _ he => (by cases he)⟩
    obtain ⟨code, mem₁, hstep, hk, hr₁⟩ := defineScalar_step lib stack e hw hlw hs hr hv
    obtain ⟨fr₂, mem₂, hreach, hk₂, hr₂⟩ := defineParams_reach lib stack e h₂ hl hsw hr₁
      (fun q hq => hint q (List.mem_cons_of_mem _ hq)) (Nat.succ.inj hlen) hrest
    exact ⟨fr₂, mem₂, .head hstep hreach, hk.trans hk₂ (Nat.le_refl _), hr₂⟩

/-! ### Calls -/

omit [ConstantFolder] in
/-- The end of the body: the epilogue returns, as the code has not. -/
theorem Running.leave (lib : Library W) (stack : List Frame) (e : W) (hr : Running T base dest s p env fr mem)
    (hl : Later T (s.retUnlessReturn ⟨T.func, p⟩)) :
    ∃ fr', machine lib fin (.run fr stack mem e) = some (.leave fr' stack mem e none) ∧ fr'.dest = dest := by
  unfold State.retUnlessReturn at hl
  split at hl
  · rename_i i hi
    have hb : i.isReturn = false := (Bool.or_eq_false_iff.mp (hr.falls i hi)).2
    rw [hb] at hl
    obtain ⟨code, hc, -⟩ := hr.place.append hl rfl
    exact ⟨_, machine_ret hc (i := none) rfl, hr.alive.dest⟩
  · have hplace : At T { s with emptyBack := true } p fr := ⟨hr.place.block, hr.place.code⟩
    obtain ⟨code, hc, -⟩ := hplace.append hl rfl
    exact ⟨_, machine_ret hc (i := none) rfl, hr.alive.dest⟩

/-- The configuration that a call with the result `r` leaves. -/
def Returned (fin : State) (t : FuncType) (dest : Reg) (stack : List Frame) (mem : Mem)
    (r : Option (BitVec 64) × World W) (d : Config W) : Prop :=
  ∃ fr mem', d = .leave fr stack mem' r.2.ext (r.1.map .int) ∧ fr.dest = dest ∧ MemKept mem.next mem mem' ∧
    WorldMatch fin r.2 mem' ∧ (r.1 ≠ none → t = .int)

section Calls
variable {g : FuncNode} {s₁ s₂ : State} {q : InsertPoint} {ls : List Nat} {w : World W}

/-- The begin of the body: the variables are reserved, and the parameters are not stored yet. -/
theorem Emitted.enter (h : Emitted g s s₁ s₂ q ls t fin) (lib : Library W) (args : List Val) (dest : Reg)
    (stack : List Frame) (hw : WorldMatch fin w mem) : ∃ fr mem',
      Reaches (machine lib fin)
      (.run (Frame.enter (fin.toFunction h.target.obj) args (fin.blocks s.nextLabel) dest) stack
        mem w.ext) (.run fr stack mem' w.ext) ∧ fr.args = args ∧ MemKept mem.next mem mem' ∧
      Running h.target mem.next dest (g.start s) s.nextLabel { scopes := [[]], world := w } fr mem' := by
  obtain ⟨as, js, hb, ha, hj⟩ := h.prologue.shape
  have hlt : s.nextLabel < t.nextLabel := h.prologue.entry_lt
  have hfin : fin.blocks s.nextLabel = as ++ js := (h.kept.blocks _ hlt).trans hb
  have hallocas : ∀ i ∈ as, ∃ k ty count, i = .alloca k ty count ∧ AllocaShape ty count := by
    intro i hi
    have hi' := ha i hi
    cases i with
    | alloca k ty count =>
        exact ⟨k, ty, count, rfl, h.prologue.shapes k ty count (by rw [hb]; exact List.mem_append_left _ hi)⟩
    | _ => cases hi'
  have hnd : (as.filterMap Inst.slot?).Nodup := by
    have := h.prologue.slots
    rw [hb, List.filterMap_append] at this
    exact this.of_append_left
  let fr₀ := Frame.enter (fin.toFunction h.target.obj) args (fin.blocks s.nextLabel) dest
  have hnil : Allocated mem.next [] fr₀.slots mem := ⟨fun _ _ _ hm => (by cases hm), fun _ _ _ hm => (by cases hm)⟩
  have hcode : fr₀.code = as ++ js := hfin
  obtain ⟨fr, mem', hreach, hr⟩ := allocas_reach lib fin stack w.ext hallocas hcode hnd (fun _ _ => rfl) hnil
    (Nat.le_refl _) fun _ _ hm => by cases hm
  have hempty : (g.start s).blocks s.nextLabel = [] := h.idle.fresh _ (Nat.le_refl _)
  refine ⟨fr, mem', hreach, hr.args, hr.kept, ⟨⟨hr.func, hr.dest, hr.kept.next, ?_, ?_, ?_⟩, ⟨⟨rfl, hlt⟩, ?_⟩, ?_⟩⟩
  · refine ⟨fun k ty count hm => hr.allocated.block k ty count ?_, hr.allocated.inj⟩
    have hm : Inst.alloca k ty count ∈ as ++ js := hfin ▸ hm
    rcases List.mem_append.mp hm with hm | hm
    · exact hm
    · cases hj _ hm
  · have hn : (g.start s).namedValues = [[]] := congrArg ([] :: ·) h.idle.namedValues
    rw [hn]
    exact .cons .nil .nil
  · intro x k hx
    obtain ⟨v, hv, hty, hm⟩ := hw x k hx
    exact ⟨v, hv, hty, (hr.globals x).trans hm⟩
  · rw [hr.code, State.rest, hempty, hfin, codeOf_append, codeOf_allocas ha, codeOf_eq_self hj]
    rfl
  · intro i hi
    rw [hempty] at hi
    cases hi

/-- The code of a function simulates a call of it. -/
theorem callFunc_sim (h : Emitted g s s₁ s₂ q ls t fin) (hnd : (g.param.map (·.ident)).Nodup)
    (hcall : CallsSim lib fin n call) (args : List (BitVec 64)) (hw : WorldMatch fin w mem) :
    Sim (machine lib fin) n
    (.run (Frame.enter (fin.toFunction h.target.obj) (args.map .int) (fin.blocks s.nextLabel) dest)
      stack mem w.ext) (callFunc call n g args w) (Returned fin g.type dest stack mem) := by
  unfold callFunc
  split
  · rename_i hpre
    obtain ⟨hs₀, hl₁, hs₁, hl₂, hl₃⟩ := h.sites
    obtain ⟨fr₀, mem₀, hreach₀, hargs, hk₀, hr₀⟩ := h.enter lib (args.map .int) dest stack hw
    have hps : g.args.map (·.1) = g.param.map (·.ident) ∧ g.args.length = args.length ∧ ∀ q ∈ g.args, q.2 = .int := by
      unfold FuncNode.args
      rw [argNames_of_nodup hnd]
      refine ⟨List.map_fst_zip (by simp), by simpa using hpre.1, fun q hq => ?_⟩
      obtain ⟨p, hp, he⟩ := List.mem_map.mp (List.of_mem_zip hq).2
      exact he ▸ hpre.2 p hp
    obtain ⟨fr₁, mem₁, hreach₁, hk₁, hr₁⟩ := defineParams_reach lib stack w.ext h.run.params hl₁ hs₀ hr₀ hps.2.2 hps.2.1
      (hargs ▸ rfl)
    rw [hps.1, foldl_define, List.append_nil] at hr₁
    refine .reaches (hreach₀.trans hreach₁) ((execStmt_sim hcall (.block g.block) h.run.body hl₂ hs₁ hr₁).bind ?_)
    intro r d hpost
    obtain ⟨o, env⟩ := r
    cases hpost with
    | brk => trivial
    | cont => trivial
    | @normal env fr₂ mem₂ p kept run =>
      have hq : q = ⟨h.target.func, p⟩ := Option.some.inj (h.run.point.symm.trans run.place.block.1)
      obtain ⟨fr₃, hstep, hdest⟩ := run.leave lib stack env.world.ext (hq ▸ hl₃)
      exact .head hstep (.pure ⟨fr₃, mem₂, rfl, hdest, hk₀.trans (hk₁.trans kept (Nat.le_refl _)) (Nat.le_refl _),
        run.alive.world, fun hne => absurd rfl hne⟩)
    | @ret env fr₂ mem₂ o kept world hdest =>
      have hk := hk₀.trans (hk₁.trans kept (Nat.le_refl _)) (Nat.le_refl _)
      cases o with
      | none => exact .pure ⟨fr₂, mem₂, rfl, hdest, hk, world, fun hne => absurd rfl hne⟩
      | some v =>
        simp only [Outcome.result]
        split
        · rename_i hty
          exact .pure ⟨fr₂, mem₂, rfl, hdest, hk, world, fun _ => hty⟩
        · trivial
  · trivial

end Calls

end L24
