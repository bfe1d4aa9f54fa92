import L24.Simulation.Expr

/-! Definitions and assignments: their code simulates the change of the scopes. -/

namespace L24
open Ir Relation Steps

variable {W : Type} {lib : Library W} {fin : State} {T : Target fin} {p : Label} {s t u : State} {v a : Value}
  {fr fr' : Frame} {stack : List Frame} {mem mem' : Mem} {env : Env W} {base : Nat} {dest : Reg} {layers : List Layer}
  {n : Nat} {call : Calls W}

/-! ### The state of a running function -/

/-- The number of cells an alloca reserves. -/
def allocaCells (ty : Ty) : Option Value → Option Nat
  | none => some ty.cells
  | some (.const c) => c.eval.count?.map (ty.cells * ·)
  | some _ => none

/-- The allocas of the entry block have been executed, each for a slot of its own, in blocks from `base` on. -/
structure Allocated (base : Nat) (is : List Inst) (slots : Slot → Option Nat) (mem : Mem) : Prop where
  block : ∀ k ty count, Inst.alloca k ty count ∈ is → ∃ b, slots k = some b ∧ base ≤ b ∧ b < mem.next ∧
    allocaCells ty count = some (mem.cells (.stack b)).length
  inj : ∀ j k b, slots j = some b → slots k = some b → j = k

/-- A running activation of the function, whose variables in scope are `layers`. -/
structure Alive (T : Target fin) (base : Nat) (dest : Reg) (layers : List Layer) (env : Env W) (fr : Frame)
    (mem : Mem) :
    Prop where
  func : fr.func = fin.toFunction T.obj
  dest : fr.dest = dest
  le : base ≤ mem.next
  allocated : Allocated base (fin.blocks T.entry) fr.slots mem
  scopes : ScopesMatch fr.slots mem layers env.scopes
  world : WorldMatch fin env.world mem

/-- No terminator stands at the end of block `p`: what is generated next is reached. -/
def Falls (s : State) (p : Label) : Prop := ∀ i, (s.blocks p).getLast? = some i → i.isTerminator = false

/-- The activation stands where the code for `s` ends. -/
structure Running (T : Target fin) (base : Nat) (dest : Reg) (s : State) (p : Label) (env : Env W) (fr : Frame)
    (mem : Mem) : Prop where
  alive : Alive T base dest s.namedValues env fr mem
  place : At T s p fr
  falls : Falls s p

/-- What the generation of a function's body keeps. -/
structure Site (T : Target fin) (s : State) : Prop where
  prologue : Prologue T.func T.entry s
  inFunc : InFunc T.func s
  loops : ∀ l ∈ s.nestedBlocks, l.1 ∈ T.obj.layout ∧ l.2 ∈ T.obj.layout

theorem Allocated.next {is : List Inst} {slots : Slot → Option Nat} (h : Allocated base is slots mem)
    (hn : mem.next ≤ mem'.next)
    (hc : ∀ b, b < mem.next → (mem'.cells (.stack b)).length = (mem.cells (.stack b)).length) :
    Allocated base is slots mem' where
  block k ty count hm := by
    obtain ⟨b, hb, hle, hlt, hl⟩ := h.block k ty count hm
    exact ⟨b, hb, hle, Nat.lt_of_lt_of_le hlt hn, by rw [hc b hlt]; exact hl⟩
  inj := h.inj

/-- Only the code and the registers of the frame change. -/
theorem Alive.keep (h : Alive T base dest layers env fr mem) (k : Keeps n fr fr') :
    Alive T base dest layers env fr' mem :=
  ⟨k.func.trans h.func, k.dest.trans h.dest, h.le, by rw [k.slots]; exact h.allocated, by rw [k.slots]; exact h.scopes,
    h.world⟩

/-- The code of an expression keeps the activation. -/
theorem Alive.post {w : World W} (h : Alive T base dest layers env fr mem) (hp : ExpPost T p s t fr mem w fr' mem') :
    Alive T base dest layers { env with world := w } fr' mem' where
  func := hp.keeps.func.trans h.func
  dest := hp.keeps.dest.trans h.dest
  le := Nat.le_trans h.le hp.kept.next
  allocated := by
    rw [hp.keeps.slots]
    exact h.allocated.next hp.kept.next fun b hb => by rw [hp.kept.cells b hb]
  scopes := by
    rw [hp.keeps.slots]
    exact h.scopes.kept hp.kept
  world := hp.world

theorem Falls.emits {is : List Inst} (h : Falls s p) (hin : InBlock T s p) (e : Emits s is t) : Falls t p := by
  intro i hi
  rw [e.blocks, State.append_blocks s hin.1, Function.update_self] at hi
  rcases List.eq_nil_or_concat is with rfl | ⟨js, j, rfl⟩
  · exact h i (by simpa using hi)
  · rw [List.concat_eq_append, ← List.append_assoc, List.getLast?_concat] at hi
    obtain rfl := Option.some.inj hi
    exact (e.plain j (by simp)).1

theorem Site.emits {is : List Inst} (h : Site T s) (e : Emits s is t) : Site T t :=
  ⟨h.prologue.emits e, h.inFunc.emits e, by rw [e.nestedBlocks]; exact h.loops⟩

theorem Site.run {start : Nat} (h : Site T s) (hle : T.entry ≤ start) (r : GenRun T.func start s t) (d : Defined s t) :
    Site T t :=
  ⟨r.prologue hle h.prologue, h.inFunc.run r d.layers, by rw [d.nestedBlocks]; exact h.loops⟩

theorem Running.ready (h : Running T base dest s p env fr mem) (hs : Site T s) :
    Ready T p s env.scopes env.world fr mem :=
  ⟨h.place, hs.inFunc.layers, h.alive.scopes, h.alive.world⟩

theorem Running.post {w : World W} {is : List Inst} (h : Running T base dest s p env fr mem) (e : Emits s is t)
    (hp : ExpPost T p s t fr mem w fr' mem') : Running T base dest t p { env with world := w } fr' mem' :=
  ⟨by rw [e.namedValues]; exact h.alive.post hp, hp.place, h.falls.emits h.place.block e⟩

/-! ### Evaluation -/

/-- The configuration shows the value of an expression in a statement. -/
def EvalDone (T : Target fin) (base : Nat) (dest : Reg) (p : Label) (s t : State) (v : Value) (fr : Frame) (mem : Mem)
    (stack : List Frame) (r : BitVec 64 × Env W) (d : Config W) : Prop :=
  ∃ fr' mem', d = .run fr' stack mem' r.2.world.ext ∧ Running T base dest t p r.2 fr' mem' ∧ Keeps s.nextReg fr fr' ∧
    MemKept base mem mem' ∧ Holds fr' t.nextReg v (.int r.1)

variable [ConstantFolder]

theorem eval_sim (hcall : CallsSim lib fin n call) {e : ExprNode} (h : codeGenExp e s = .ok v t) (hl : Later T t)
    (hs : Site T s) (hr : Running T base dest s p env fr mem) :
    Sim (machine lib fin) n (.run fr stack mem env.world.ext) (env.eval call e)
      (EvalDone T base dest p s t v fr mem stack) := by
  obtain ⟨is, e₁⟩ := codeGenExp_emits h
  rw [codeGenExp_core] at h
  refine sim_operand (genExp_sim hcall e.core h hl (hr.ready hs)) (hr.ready hs) e₁ fun i w' fr' mem' _ hp hv => ?_
  exact .pure ⟨fr', mem', rfl, hr.post e₁ hp, hp.keeps, hp.kept.mono hr.alive.le, hv⟩

/-- An expression statement: its value, if there is one, is dropped. -/
theorem exec_exp_sim (hcall : CallsSim lib fin n call) {e : ExprNode} (h : codeGenExp e s = .ok v t) (hl : Later T t)
    (hs : Site T s) (hr : Running T base dest s p env fr mem) :
    Sim (machine lib fin) n (.run fr stack mem env.world.ext) (evalExp call env.scopes e.core env.world)
      fun r d => ∃ fr' mem', d = .run fr' stack mem' r.2.ext ∧ MemKept base mem mem' ∧
        Running T base dest t p { env with world := r.2 } fr' mem' := by
  obtain ⟨is, e₁⟩ := codeGenExp_emits h
  rw [codeGenExp_core] at h
  refine (genExp_sim hcall e.core h hl (hr.ready hs)).imp ?_
  intro r d hpost
  obtain ⟨fr', mem', hd, hp, _⟩ := hpost
  exact ⟨fr', mem', hd, hp.kept.mono hr.alive.le, hr.post e₁ hp⟩

/-! ### Initial values -/

/-- The configuration shows initial values. -/
def InitsDone (T : Target fin) (base : Nat) (dest : Reg) (p : Label) (s t : State) (vs : List Value) (fr : Frame)
    (mem : Mem) (stack : List Frame) (r : List (BitVec 64) × Env W) (d : Config W) : Prop :=
  ∃ fr' mem', d = .run fr' stack mem' r.2.world.ext ∧ Running T base dest t p r.2 fr' mem' ∧ Keeps s.nextReg fr fr' ∧
    MemKept base mem mem' ∧ HoldsAll fr' t.nextReg vs r.1

omit [ConstantFolder] in
theorem EvalDone.literal (hr : Running T base dest s p env fr mem) (i : BitVec 64) :
    EvalDone T base dest p s s (.const (.int i)) fr mem stack (i, env) (.run fr stack mem env.world.ext) :=
  ⟨fr, mem, rfl, hr, .refl fr, .refl mem, .literal _⟩

theorem evalInit_sim (hcall : CallsSim lib fin n call) {init : Option InitValNode} {idx : Nat}
    (h : initVal init idx s = .ok v t) (hl : Later T t) (hs : Site T s) (hr : Running T base dest s p env fr mem) :
    Sim (machine lib fin) n (.run fr stack mem env.world.ext) (evalInit call init idx env)
      (EvalDone T base dest p s t v fr mem stack) := by
  rcases initVal_ok.mp h with ⟨rfl, rfl, hle⟩ | ⟨k, c, rfl, he, hc, rfl, rfl⟩ | ⟨k, e, rfl, he, h⟩
  · cases init with
    | none => exact .pure (.literal hr 0)
    | some k =>
      have h₁ : k.exps[idx]? = none := List.getElem?_eq_none (Nat.le_trans (Nat.le_max_left ..) (hle k rfl))
      have h₂ : k.stringLiteral[idx]? = none := List.getElem?_eq_none (Nat.le_trans (Nat.le_max_right ..) (hle k rfl))
      rw [evalInit, h₁, h₂]
      exact .pure (.literal hr 0)
  · have h₁ : k.exps[idx]? = none := by rw [he]; rfl
    rw [evalInit, h₁, hc]
    exact .pure (.literal hr (c.signExtend 64))
  · rw [evalInit, he]
    exact eval_sim hcall h hl hs hr

theorem evalInits_sim (hcall : CallsSim lib fin n call) {init : Option InitValNode} : ∀ {m idx : Nat} {s t : State}
    {vs : List Value} {env : Env W} {fr : Frame} {mem : Mem}, initVals init idx m s = .ok vs t → Later T t → Site T s →
    Running T base dest s p env fr mem →
    Sim (machine lib fin) n (.run fr stack mem env.world.ext) (evalInits call init idx m env)
      (InitsDone T base dest p s t vs fr mem stack)
  | 0, idx, s, t, vs, env, fr, mem, h, hl, hs, hr => by
    obtain ⟨rfl, rfl⟩ := initVals_zero_ok.mp h
    rw [evalInits]
    exact .pure ⟨fr, mem, rfl, hr, .refl fr, .refl mem, .nil⟩
  | m + 1, idx, s, t, vs, env, fr, mem, h, hl, hs, hr => by
    obtain ⟨v, u, ws, hv, hws, rfl⟩ := initVals_cons_ok.mp h
    obtain ⟨is, e₁⟩ := initVal_emits hv
    obtain ⟨js, e₂⟩ := initVals_emits hws
    rw [evalInits]
    refine (evalInit_sim hcall hv (hl.emits (hr.place.block.emits e₁) e₂) hs hr).bind ?_
    intro r d hpost
    obtain ⟨i, env₁⟩ := r
    obtain ⟨fr₁, mem₁, rfl, hr₁, hk₁, hm₁, hi⟩ := hpost
    refine (evalInits_sim hcall hws hl (hs.emits e₁) hr₁).bind ?_
    intro r d hpost
    obtain ⟨is, env₂⟩ := r
    obtain ⟨fr₂, mem₂, hd, hr₂, hk₂, hm₂, his⟩ := hpost
    exact .pure ⟨fr₂, mem₂, hd, hr₂, hk₁.trans hk₂ e₁.nextReg, hm₁.trans hm₂ (Nat.le_refl _),
      .cons (hi.keep hk₂ e₂.nextReg) his⟩

/-! ### Stores -/

/-- Memory in which only the stack block `b` may differ. -/
structure Changed (b : Nat) (mem mem' : Mem) : Prop where
  next : mem'.next = mem.next
  others : ∀ b', b' ≠ .stack b → mem'.cells b' = mem.cells b'
  length : (mem'.cells (.stack b)).length = (mem.cells (.stack b)).length

omit [ConstantFolder] in
theorem Changed.refl (b : Nat) (mem : Mem) : Changed b mem mem := ⟨rfl, fun _ _ => rfl, rfl⟩

omit [ConstantFolder] in
theorem Changed.put {b i : Nat} {k : Val} (h : Changed b mem mem') : Changed b mem (mem'.put (.stack b) i k) :=
  ⟨h.next, fun b' hb' => (Mem.put_cells_of_ne hb').trans (h.others b' hb'), Mem.put_length.trans h.length⟩

omit [ConstantFolder] in
theorem Changed.kept {b : Nat} (h : Changed b mem mem') (hb : base ≤ b) : MemKept base mem mem' :=
  ⟨Nat.le_of_eq h.next.symm, fun k hk => h.others _ fun he => by
    cases he
    exact absurd hb (Nat.not_le_of_lt hk)⟩

omit [ConstantFolder] in
theorem Changed.allocated {b : Nat} {is : List Inst} {slots : Slot → Option Nat} (h : Changed b mem mem')
    (ha : Allocated base is slots mem) : Allocated base is slots mem' :=
  ha.next (Nat.le_of_eq h.next.symm) fun k _ => by
    by_cases hk : k = b
    · rw [hk, h.length]
    · rw [h.others _ fun he => hk (Blk.stack.inj he)]

omit [ConstantFolder] in
theorem Changed.world {b : Nat} {w : World W} (h : Changed b mem mem') (hw : WorldMatch fin w mem) :
    WorldMatch fin w mem' := by
  intro x k hx
  obtain ⟨g, hg, hty, hm⟩ := hw x k hx
  exact ⟨g, hg, hty, (h.others _ (by simp)).trans hm⟩

omit [ConstantFolder] in
theorem ofNat_toInt {i : Nat} (h : i < 0x8000000000000000) : (BitVec.ofNat 64 i).toInt = i := by
  rw [BitVec.toInt_eq_toNat_cond, BitVec.toNat_ofNat, Nat.mod_eq_of_lt (by omega), if_pos (by omega)]

omit [ConstantFolder] in
/-- The stores of initial values fill the elements from `idx` on. -/
theorem elementStores_executes {α : AllocaInst} {b m : Nat} (hty : α.ty = .array m .i64) :
    ∀ {vs : List Value} {is : List (BitVec 64)} {idx : Nat} {r : Nat} {fr : Frame} {mem : Mem} {done tail : List Val},
    fr.slots α.slot = some b → HoldsAll fr r vs is → mem.cells (.stack b) = done ++ tail → done.length = idx →
    vs.length ≤ tail.length → idx + vs.length < 0x8000000000000000 →
    ∃ fr' mem', Executes r (elementStores α idx r vs) fr mem fr' mem' ∧ Changed b mem mem' ∧
      mem'.cells (.stack b) = done ++ is.map .int ++ tail.drop vs.length
  | [], is, idx, r, fr, mem, done, tail, hb, hv, hm, hd, hlen, hlt => by
    cases hv
    exact ⟨fr, mem, .nil, .refl b mem, by simpa using hm⟩
  | v :: vs, is, idx, r, fr, mem, done, tail, hb, hv, hm, hd, hlen, hlt => by
    rw [List.length_cons] at hlen hlt
    obtain ⟨old, tail, rfl⟩ : ∃ old tail', tail = old :: tail' :=
      List.exists_cons_of_ne_nil (List.ne_nil_of_length_pos (Nat.lt_of_lt_of_le (Nat.succ_pos _) hlen))
    cases hv with
    | @cons _ i _ is hi his =>
    -- the address of the element
    let z : BitVec 64 := .ofNat 64 idx
    have hz : (0 : Int) + z.toInt = idx := by rw [ofNat_toInt (by omega), Int.zero_add]
    have hgep : Executes r [.gep r α.ty α.value [.const (.int 0), .const (.int z)]] fr mem
        (fr.setReg r (.ptr (.stack b) idx)) mem := by
      rw [hty, ← hz]
      exact executes_gep_array (eval_alloca hb) eval_int
    -- the store
    have hi' := hi.keep hgep.keeps (Nat.le_refl _)
    have hlt' : (idx : Int).toNat < (mem.cells (.stack b)).length := by
      rw [hm, List.length_append, hd, List.length_cons, Int.toNat_natCast]
      omega
    have hstore : Executes r [.store v (.inst r .ptr)] (fr.setReg r (.ptr (.stack b) idx)) mem
        (fr.setReg r (.ptr (.stack b) idx)) (mem.put (.stack b) idx (.int i)) :=
      executes_store hi'.eval eval_setReg (Mem.store_eq (Int.natCast_nonneg _) hlt')
    have h₂ := hgep.append hstore (Nat.le_refl _)
    have hm' : (mem.put (.stack b) idx (.int i)).cells (.stack b) = (done ++ [.int i]) ++ tail := by
      rw [Mem.put_cells_self, hm, ← hd, List.set_append_right _ _ (Nat.le_refl _)]
      simp
    have hd' : (done ++ [Val.int i]).length = idx + 1 := by simp [hd]
    obtain ⟨fr₃, mem₃, h₃, ch, hm₃⟩ := elementStores_executes hty (h₂.keeps.slots ▸ hb)
      (HoldsAll.keep his h₂.keeps (Nat.le_succ _)) hm' hd' (by simpa using hlen) (by omega)
    refine ⟨fr₃, mem₃, h₂.append h₃ (Nat.le_succ _), ?_, ?_⟩
    · have ch₁ : Changed b mem (mem.put (.stack b) idx (.int i)) := (Changed.refl b mem).put
      exact ⟨ch.next, fun b' hb' => (ch.others b' hb').trans (ch₁.others b' hb'), ch.length.trans ch₁.length⟩
    · rw [hm₃]
      simp

/-! ### Definitions -/

/-- The configuration shows the effect of definitions. -/
def DefDone (T : Target fin) (base : Nat) (dest : Reg) (p : Label) (t : State) (mem : Mem) (stack : List Frame)
    (env : Env W) (d : Config W) : Prop :=
  ∃ fr' mem', d = .run fr' stack mem' env.world.ext ∧ MemKept base mem mem' ∧ Running T base dest t p env fr' mem'

omit [ConstantFolder] in
theorem At.emitAlloca {entry : Label} {ty : Ty} {count : Option Value} (h : At T s p fr) :
    At T (s.emitAlloca entry ty count) p fr := by
  refine h.congr rfl ?_
  show codeOf (Function.update s.blocks entry _ p) = _
  by_cases hp : p = entry
  · rw [hp, Function.update_self]
    rfl
  · rw [Function.update_of_ne hp]

omit [ConstantFolder] in
theorem Falls.emitAlloca {entry : Label} {ty : Ty} {count : Option Value} (h : Falls s p) :
    Falls (s.emitAlloca entry ty count) p := by
  intro i hi
  have hb : (s.emitAlloca entry ty count).blocks p = Function.update s.blocks entry _ p := rfl
  rw [hb] at hi
  by_cases hp : p = entry
  · subst hp
    rw [Function.update_self, List.getLast?_cons] at hi
    cases hl : (s.blocks p).getLast? with
    | none =>
      rw [hl] at hi
      cases hi
      rfl
    | some j =>
      rw [hl] at hi
      cases hi
      exact h j hl
  · rw [Function.update_of_ne hp] at hi
    exact h i hi

omit [ConstantFolder] in
/-- The alloca of a definition is one of the finished entry block. -/
theorem Later.alloca_mem {ty : Ty} {count : Option Value} (hs : Site T s)
    (hl : Later T (s.emitAlloca T.entry ty count)) :
    Inst.alloca s.nextSlot ty count ∈ fin.blocks T.entry := by
  obtain ⟨as, js, hb, -⟩ := hl.blocks T.entry (Nat.lt_of_lt_of_le hs.prologue.entry_lt hl.nextLabel)
  rw [hb]
  refine List.mem_append_left _ (List.mem_append_right _ ?_)
  show _ ∈ Function.update s.blocks T.entry _ T.entry
  rw [Function.update_self]
  exact List.mem_cons_self

omit [ConstantFolder] in
/-- A new variable: the initial value has been stored into the block of its alloca. -/
theorem Alive.define {layer : Layer} {outer : List Layer} {x : String} {nv : NamedValue} {b : Nat} {c : Cell}
    (h : Alive T base dest (layer :: outer) env fr mem) (hs : Site T s) (hn : s.namedValues = layer :: outer)
    (hk : Keeps n fr fr') (hb : fr.slots s.nextSlot = some b)
    (hch : Changed b mem mem') (hc : CellMatch fr.slots mem' nv.alloca c) :
    Alive T base dest (((x, nv) :: layer) :: outer) { env with scopes := env.scopes.define x c } fr' mem' := by
  have hfresh : s.nextSlot ∉ s.namedValues.flatten.map (·.2.alloca.slot) := fun hm =>
    Nat.lt_irrefl _ (hs.prologue.slot_lt _ hm)
  rw [hn] at hfresh
  have hsp := ScopesMatch.spared h.scopes hfresh (fun j hj => h.allocated.inj j _ b hj hb) (Nat.le_of_eq hch.next.symm)
    fun b' hb' => hch.others _ fun he => hb' (Blk.stack.inj he)
  refine ⟨hk.func.trans h.func, hk.dest.trans h.dest, by rw [hch.next]; exact h.le, ?_, ?_, hch.world h.world⟩
  · rw [hk.slots]
    exact hch.allocated h.allocated
  · rw [hk.slots]
    cases hsc : env.scopes with
    | nil =>
      rw [hsc] at hsp
      cases hsp
    | cons scope sc =>
      rw [hsc] at hsp
      cases hsp with
      | cons h₁ h₂ => exact .cons (.cons ⟨rfl, hc⟩ h₁) h₂

omit [ConstantFolder] in
theorem Running.emitAlloca {ty : Ty} {count : Option Value} (h : Running T base dest s p env fr mem) :
    Running T base dest (s.emitAlloca T.entry ty count) p env fr mem :=
  ⟨h.alive, h.place.emitAlloca, h.falls.emitAlloca⟩

/-- The code of a definition in a function: the alloca, and stores of the initial values. -/
theorem defineValue_inv {x : String} {vt : ValType} {vals : List Value} {size : Option Value}
    (h : defineValue x vt vals size false s = .ok () t) (hs : Site T s) :
    ∃ ty is w ev, t = (w.bind x (vt.named ⟨s.nextSlot, ty⟩)).log ev ∧ Emits (s.emitAlloca T.entry ty size) is w ∧
      ((size = none ∧ ty = .i64 ∧ ∃ v, vals.head? = some v ∧ is = [.store v (.alloca s.nextSlot .i64)]) ∨
       (∃ sz k, size = some sz ∧ sz.sextValue? = some k ∧ ty = .array k.toNat .i64 ∧
         is = elementStores ⟨s.nextSlot, ty⟩ 0 s.nextReg vals)) := by
  rcases defineValue_ok h with ⟨hn, -⟩ | ⟨layer, outer, α, w, -, -, hw, rfl⟩
  · exact absurd hn hs.inFunc.layers
  · obtain ⟨q, u, hq, hu, hw⟩ := createDefineValueInst_ok hw
    obtain ⟨l, hp⟩ := hs.inFunc.point
    obtain rfl : q = ⟨T.func, l⟩ := Option.some.inj (hq.symm.trans hp)
    obtain ⟨entry, he, ⟨rfl, rfl, rfl⟩ | ⟨sz, k, rfl, hk, rfl, rfl⟩⟩ := createEntryBlockAlloca_ok.mp hu
    all_goals obtain rfl : entry = T.entry := Option.some.inj (he.symm.trans hs.prologue.head)
    · obtain ⟨-, v, hv, rfl⟩ | ⟨hne, -⟩ := hw
      · exact ⟨_, _, _, _, rfl, .append fun j hj => by rw [List.mem_singleton.mp hj]; exact ⟨rfl, rfl⟩,
          Or.inl ⟨rfl, rfl, v, hv, rfl⟩⟩
      · exact absurd rfl hne
    · obtain ⟨h, -⟩ | ⟨-, rfl⟩ := hw
      · cases h
      · exact ⟨_, _, _, _, rfl, .appendRegs elementStores_plain _, Or.inr ⟨sz, k, rfl, hk, rfl, rfl⟩⟩

omit [ConstantFolder] in
theorem Later.of_bind {x : String} {ev : ScopeEvent} {nv : NamedValue} (h : Later T ((s.bind x nv).log ev)) :
    Later T s :=
  ⟨h.blocks, h.nextLabel, h.labels, h.function?, h.global?⟩

omit [ConstantFolder] in
theorem Later.of_log {ev : ScopeEvent} (h : Later T (s.log ev)) : Later T s :=
  ⟨h.blocks, h.nextLabel, h.labels, h.function?, h.global?⟩

omit [ConstantFolder] in
/-- The block of the alloca of a definition. -/
theorem Running.block {ty : Ty} {count : Option Value} (h : Running T base dest s p env fr mem) (hs : Site T s)
    (hl : Later T (s.emitAlloca T.entry ty count)) : ∃ b, fr.slots s.nextSlot = some b ∧ base ≤ b ∧ b < mem.next ∧
      allocaCells ty count = some (mem.cells (.stack b)).length :=
  h.alive.allocated.block _ _ _ (hl.alloca_mem hs)

omit [ConstantFolder] in
/-- The end of a definition: the stores have been executed, and the name is in scope. -/
theorem Running.define {ty : Ty} {count : Option Value} {is : List Inst} {w : State} {x : String} {nv : NamedValue}
    {ev : ScopeEvent} {b : Nat} {c : Cell} (h : Running T base dest s p env fr mem) (hs : Site T s)
    (e : Emits (s.emitAlloca T.entry ty count) is w) (hl : Later T ((w.bind x nv).log ev)) (hk : Keeps n fr fr')
    (hcode : fr.code = is ++ fr'.code) (hb : fr.slots s.nextSlot = some b) (hch : Changed b mem mem')
    (hc : CellMatch fr.slots mem' nv.alloca c) : Running T base dest ((w.bind x nv).log ev) p
      { env with scopes := env.scopes.define x c } fr' mem' := by
  have hlw := hl.of_bind
  have hin : InBlock T (s.emitAlloca T.entry ty count) p := h.place.block
  obtain ⟨layer, outer, hn⟩ : ∃ layer outer, s.namedValues = layer :: outer :=
    List.exists_cons_of_ne_nil hs.inFunc.layers
  have hnw : w.namedValues = layer :: outer := e.namedValues.trans hn
  have hfalls : Falls w p := h.falls.emitAlloca.emits hin e
  have hin' : InBlock T w p := hin.emits e
  refine ⟨?_, ⟨hin', ?_⟩, hfalls⟩
  · have halive := h.alive
    rw [hn] at halive
    have hnamed : ((w.bind x nv).log ev).namedValues = ((x, nv) :: layer) :: outer := by
      simp [State.log, State.bind, hnw]
    rw [hnamed]
    exact halive.define hs hn hk hb hch hc
  · have hr := Later.rest_emits hlw hin e
    rw [h.place.emitAlloca.code, hr] at hcode
    exact (List.append_cancel_left hcode).symm

/-- A scalar definition is one instruction: it stores the initial value. -/
theorem defineScalar_step (lib : Library W) (stack : List Frame) (e : W) {x : String} {vt : ValType} {i : BitVec 64}
    (h : defineValue x vt [v] none false s = .ok () t) (hl : Later T t) (hs : Site T s)
    (hr : Running T base dest s p env fr mem) (hv : Holds fr s.nextReg v (.int i)) : ∃ code mem',
      machine lib fin (.run fr stack mem e) = some (.run { fr with code } stack mem' e) ∧ MemKept base mem mem' ∧
      Running T base dest t p { env with scopes := env.scopes.define x (.scalar i) } { fr with code } mem' := by
  obtain ⟨ty, is, w, ev, rfl, e, ⟨-, rfl, v', hv', rfl⟩ | ⟨_, _, h, -⟩⟩ := defineValue_inv h hs
  · obtain rfl : v = v' := Option.some.inj hv'
    have hin : InBlock T (s.emitAlloca T.entry .i64 none) p := hr.place.block
    have hlw := hl.of_bind
    obtain ⟨b, hb, hle, hlt, hcells⟩ := hr.block hs (hlw.emits hin e)
    obtain ⟨old, hold⟩ : ∃ old, mem.cells (.stack b) = [old] := by
      rw [← List.length_eq_one_iff]
      exact (Option.some.inj hcells).symm
    have hcode : fr.code = .store v (.alloca s.nextSlot .i64) :: w.rest fin p :=
      hr.place.emitAlloca.code.trans (Later.rest_emits hlw hin e)
    have hptr : fr.eval (.alloca s.nextSlot .i64) = some (.ptr (.stack b) 0) :=
      eval_alloca (show fr.slots (AllocaInst.mk s.nextSlot .i64).slot = some b from hb)
    have hroom : (0 : Int).toNat < (mem.cells (.stack b)).length := by
      rw [hold]
      exact Nat.one_pos
    refine ⟨_, _, machine_store hcode hv.eval hptr (Int.le_refl 0) hroom, MemKept.put hle, ?_⟩
    refine hr.define hs e hl (Keeps.code (n := 0) _) hcode hb (Changed.refl b mem).put ?_
    rw [vt.named_alloca]
    exact ⟨rfl, b, hb, hlt, by rw [Mem.put_cells_self, hold]; rfl⟩
  · cases h

theorem defineScalar_sim {x : String} {vt : ValType} {i : BitVec 64} (h : defineValue x vt [v] none false s = .ok () t)
    (hl : Later T t) (hs : Site T s) (hr : Running T base dest s p env fr mem) (hv : Holds fr s.nextReg v (.int i)) :
    Sim (machine lib fin) n (.run fr stack mem env.world.ext)
      (.ok { env with scopes := env.scopes.define x (.scalar i) } : Res (Env W))
        (DefDone T base dest p t mem stack) := by
  obtain ⟨code, mem', hstep, hk, hr'⟩ := defineScalar_step lib stack env.world.ext h hl hs hr hv
  exact .head hstep (.pure ⟨_, mem', rfl, hk, hr'⟩)

/-- An array definition stores its initial values. -/
theorem defineArray_sim {x : String} {vt : ValType} {vs : List Value} {is : List (BitVec 64)} {k : BitVec 64}
    (h : defineValue x vt vs (some (.const (.int k))) false s = .ok () t) (hk : 0 < k.toInt)
    (hlen : vs.length = k.toInt.toNat) (hl : Later T t) (hs : Site T s) (hr : Running T base dest s p env fr mem)
    (hv : HoldsAll fr s.nextReg vs is) :
    Sim (machine lib fin) n (.run fr stack mem env.world.ext)
      (.ok { env with scopes := env.scopes.define x (.array is) } : Res (Env W))
        (DefDone T base dest p t mem stack) := by
  obtain ⟨ty, js, w, ev, rfl, e, ⟨h, -⟩ | ⟨sz, k', hsz, hk', hty, rfl⟩⟩ := defineValue_inv h hs
  · cases h
  · cases hsz
    obtain rfl : k = k' := Option.some.inj hk'
    have hin : InBlock T (s.emitAlloca T.entry ty (some (.const (.int k)))) p := hr.place.block
    have hlw := hl.of_bind
    obtain ⟨b, hb, hle, hlt, hcells⟩ := hr.block hs (hlw.emits hin e)
    have hcode := hr.place.emitAlloca.code.trans (Later.rest_emits hlw hin e)
    have hnat : k.toInt.toNat = k.toNat ∧ k.toNat < 0x8000000000000000 := by
      rw [BitVec.toInt_eq_toNat_cond] at hk ⊢
      split at hk <;> omega
    have hroom : vs.length ≤ (mem.cells (.stack b)).length := by
      rw [← Option.some.inj hcells, hty, hlen, hnat.1]
      simp only [Ty.cells, Nat.mul_one]
      exact Nat.le_mul_self _
    have hnil : mem.cells (.stack b) = [] ++ mem.cells (.stack b) := rfl
    have hslot : fr.slots (AllocaInst.mk s.nextSlot ty).slot = some b := hb
    obtain ⟨fr', mem', hx, hch, hm'⟩ :=
      elementStores_executes hty hslot hv hnil rfl hroom (by rw [List.length_nil]; omega)
    refine .reaches (hx.run hcode fin.toModule (libraryExt lib) stack env.world.ext)
      (.pure ⟨_, mem', rfl, hch.kept hle, ?_⟩)
    refine hr.define hs e hl (hx.keeps.trans (.code _) (Nat.le_refl _)) hcode hb hch ?_
    rw [vt.named_alloca]
    have hlis : is.length = k.toNat := by rw [← hv.length_eq, hlen, hnat.1]
    exact ⟨by rw [hlis]; exact hty, b, hb, by rw [hch.next]; exact hlt, _, hm'⟩

omit [ConstantFolder] in
theorem DefDone.after {d : Config W} (hk : MemKept base mem mem') (h : DefDone T base dest p t mem' stack env d) :
    DefDone T base dest p t mem stack env d := by
  obtain ⟨fr₁, mem₁, hd, hk₁, hr⟩ := h
  exact ⟨fr₁, mem₁, hd, hk.trans hk₁ (Nat.le_refl _), hr⟩

theorem execDef_sim (hcall : CallsSim lib fin n call) {d : Def} (h : d.gen s = .ok () t) (hl : Later T t)
    (hs : Site T s)
    (hr : Running T base dest s p env fr mem) :
    Sim (machine lib fin) n (.run fr stack mem env.world.ext) (execDef call d.ident d.init d.exp env)
      (DefDone T base dest p t mem stack) := by
  obtain ⟨ty, x, init, exp⟩ := d
  obtain ⟨size, vs, w, hi, hdef⟩ := codeGenDef_ok.mp h
  obtain ⟨is, e₁⟩ := hi.emits
  have hs₁ := hs.emits e₁
  have hlw : Later T w := Later.of_run hs₁.prologue (defineValue_run T.entry hs₁.inFunc hdef).1 hl
  cases exp with
  | none =>
    obtain ⟨rfl, hi⟩ := hi
    obtain ⟨-, hi⟩ | ⟨_, _, hsz, -⟩ := getInitVals_ok.mp hi
    · obtain ⟨v, w', ws, hv, hws, rfl⟩ := initVals_cons_ok.mp hi
      obtain ⟨rfl, rfl⟩ := initVals_zero_ok.mp hws
      refine (evalInit_sim hcall hv hlw hs hr).bind ?_
      intro r d hpost
      obtain ⟨i, env₁⟩ := r
      obtain ⟨fr₁, mem₁, rfl, hr₁, _, hm₁, hv₁⟩ := hpost
      exact (defineScalar_sim hdef hl hs₁ hr₁ hv₁).imp fun _ _ hd => hd.after hm₁
    · cases hsz
  | some e =>
    refine sim_defined fun m hm => ?_
    obtain ⟨sz, w', rfl, he, hi⟩ := hi
    unfold literalSize at hm
    split at hm
    · rename_i k hk
      split at hm
      · rename_i hpos
        obtain rfl := Option.some.inj hm
        rw [codeGenExp_core, hk, genExp] at he
        obtain ⟨rfl, rfl⟩ := pure_ok.mp he
        obtain ⟨hsz, -⟩ | ⟨_, k', hsz, hk', -, hi⟩ := getInitVals_ok.mp hi
        · cases hsz
        · cases hsz
          obtain rfl : k = k' := Option.some.inj hk'
          refine (evalInits_sim hcall hi hlw hs hr).bind ?_
          intro r d hpost
          obtain ⟨is, env₁⟩ := r
          obtain ⟨fr₁, mem₁, rfl, hr₁, _, hm₁, hv₁⟩ := hpost
          exact (defineArray_sim hdef hpos (initVals_length hi) hl hs₁ hr₁ hv₁).imp fun _ _ hd => hd.after hm₁
      · cases hm
    · cases hm

/-- Definitions one after the other. -/
def execDefs (call : Calls W) : List Def → Env W → Res (Env W)
  | [], env => .ok env
  | d :: ds, env => do
    let env ← execDef call d.ident d.init d.exp env
    execDefs call ds env

omit [ConstantFolder] in
theorem execConstDefs_eq : ∀ (ds : List ConstDefNode) (env : Env W),
    execConstDefs call ds env = execDefs call (ds.map ConstDefNode.toDef) env
  | [], _ => rfl
  | _ :: ds, _ => bind_congr fun env => execConstDefs_eq ds env

omit [ConstantFolder] in
theorem execVarDefs_eq : ∀ (ds : List VarDefNode) (env : Env W),
    execVarDefs call ds env = execDefs call (ds.map VarDefNode.toDef) env
  | [], _ => rfl
  | _ :: ds, _ => bind_congr fun env => execVarDefs_eq ds env

omit [ConstantFolder] in
theorem execDecl_defs (d : DeclNode) (env : Env W) : execDecl call d env = execDefs call d.defs env := by
  cases d with
  | constDecl d => exact execConstDefs_eq d.constDefs env
  | varDecl d => exact execVarDefs_eq d.varDefs env

theorem execDefs_sim (hcall : CallsSim lib fin n call) : ∀ {ds : List Def} {s t : State} {env : Env W} {fr : Frame}
    {mem : Mem}, ds.forM Def.gen s = .ok ⟨⟩ t → Later T t → Site T s → Running T base dest s p env fr mem →
    Sim (machine lib fin) n (.run fr stack mem env.world.ext) (execDefs call ds env) (DefDone T base dest p t mem stack)
  | [], s, t, env, fr, mem, h, hl, hs, hr => by
    obtain rfl := forM_nil_ok.mp h
    exact .pure ⟨fr, mem, rfl, .refl mem, hr⟩
  | d :: ds, s, t, env, fr, mem, h, hl, hs, hr => by
    obtain ⟨w, hd, h⟩ := forM_cons_ok.mp h
    obtain ⟨r, k⟩ := Def.gen_run T.entry hs.inFunc hd
    have hsw := hs.run (Nat.le_refl _) r k
    refine (execDef_sim hcall hd (hl.of_run hsw.prologue (defs_run T.entry hsw.inFunc h).1) hs hr).bind ?_
    intro env₁ d hpost
    obtain ⟨fr₁, mem₁, rfl, hm₁, hr₁⟩ := hpost
    exact (execDefs_sim hcall h hl hsw hr₁).imp fun _ _ hd => hd.after hm₁

theorem execDecl_sim (hcall : CallsSim lib fin n call) {d : DeclNode} (h : codeGenDecl d s = .ok () t) (hl : Later T t)
    (hs : Site T s) (hr : Running T base dest s p env fr mem) :
    Sim (machine lib fin) n (.run fr stack mem env.world.ext) (execDecl call d env)
    (DefDone T base dest p t mem stack) := by
  rw [codeGenDecl_defs] at h
  rw [execDecl_defs]
  exact execDefs_sim hcall h hl hs hr

/-! ### Assignments -/

omit [ConstantFolder] in
theorem mem_of_lookup {x : String} {nv : NamedValue} : ∀ {layer : Layer}, layer.lookup x = some nv → (x, nv) ∈ layer
  | (y, k) :: layer, h => by
    rw [List.lookup_cons] at h
    cases hx : x == y with
    | true =>
      rw [hx] at h
      cases h
      rw [beq_iff_eq.mp hx]
      exact List.mem_cons_self
    | false =>
      rw [hx] at h
      exact List.mem_cons_of_mem _ (mem_of_lookup h)

omit [ConstantFolder] in
theorem lookup_mem {x : String} {nv : NamedValue} (h : s.lookup x = some nv) :
    ∃ layer ∈ s.namedValues, ∃ b ∈ layer, b.2 = nv := by
  obtain ⟨layer, hl, hx⟩ := List.exists_of_findSome?_eq_some h
  exact ⟨layer, hl, ⟨x, nv⟩, mem_of_lookup hx, rfl⟩

omit [ConstantFolder] in
/-- The block of a variable in scope belongs to this activation. -/
theorem Running.le_block {x : String} {nv : NamedValue} {b : Nat} (h : Running T base dest s p env fr mem)
    (hs : Site T s) (hl : Later T s) (hx : s.lookup x = some nv) (hb : fr.slots nv.alloca.slot = some b) :
    base ≤ b := by
  obtain ⟨layer, hm, c, hc, rfl⟩ := lookup_mem hx
  obtain ⟨count, hi⟩ := hs.prologue.named layer hm c hc
  obtain ⟨as, js, hg, -⟩ := hl.blocks T.entry (Nat.lt_of_lt_of_le hs.prologue.entry_lt hl.nextLabel)
  have hi' : Inst.alloca c.2.alloca.slot c.2.alloca.ty count ∈ fin.blocks T.entry := by
    rw [hg]
    exact List.mem_append_left _ (List.mem_append_right _ hi)
  obtain ⟨b', hb', hle, -⟩ := h.alive.allocated.block _ _ _ hi'
  obtain rfl : b' = b := Option.some.inj (hb'.symm.trans hb)
  exact hle

omit [ConstantFolder] in
/-- The code of an assignment has changed the block of `x`'s innermost variable. -/
theorem Running.set {x : String} {nv : NamedValue} {b : Nat} {c : Cell} {is : List Inst}
    (h : Running T base dest s p env fr mem) (hs : Site T s) (e : Emits s is t) (hl : Later T t) (hk : Keeps n fr fr')
    (hcode : fr.code = is ++ fr'.code) (hx : s.lookup x = some nv) (hb : fr.slots nv.alloca.slot = some b)
    (hch : Changed b mem mem') (hc : CellMatch fr.slots mem' nv.alloca c) :
    Running T base dest t p { env with scopes := env.scopes.set x c } fr' mem' := by
  refine ⟨⟨hk.func.trans h.alive.func, hk.dest.trans h.alive.dest, by rw [hch.next]; exact h.alive.le, ?_, ?_,
    hch.world h.alive.world⟩, ⟨h.place.block.emits e, ?_⟩, h.falls.emits h.place.block e⟩
  · rw [hk.slots]
    exact hch.allocated h.alive.allocated
  · rw [hk.slots, e.namedValues]
    exact h.alive.scopes.set hs.prologue.distinct hx (fun j hj => h.alive.allocated.inj j _ b hj hb)
      (Nat.le_of_eq hch.next.symm) (fun b' hb' => hch.others _ fun he => hb' (Blk.stack.inj he)) hc
  · rw [h.place.code, Later.rest_emits hl h.place.block e] at hcode
    exact (List.append_cancel_left hcode).symm

omit [ConstantFolder] in
theorem store_emits {ev : ScopeEvent} {q : Value} : Emits s [.store v q] ((s.log ev).append [.store v q]) :=
  (Emits.log ev).trans (.append fun j hj => by rw [List.mem_singleton.mp hj]; exact ⟨rfl, rfl⟩)

/-- Assignment to a local scalar. -/
theorem setLocal_sim {x : String} {i : BitVec 64} {α : AllocaInst} {ev : ScopeEvent} {old : BitVec 64}
    (hx : s.lookup x = some (.varVal α)) (h : createSetValueInst α v none (s.log ev) = .ok () t) (hl : Later T t)
    (hs : Site T s) (hr : Running T base dest s p env fr mem) (hv : Holds fr s.nextReg v (.int i))
    (hc : CellMatch fr.slots mem α (.scalar old)) :
    Sim (machine lib fin) n (.run fr stack mem env.world.ext)
      (.ok { env with scopes := env.scopes.set x (.scalar i) } : Res (Env W)) (DefDone T base dest p t mem stack) := by
  obtain ⟨-, rfl⟩ | ⟨_, _, _, hsub, -⟩ := createSetValueInst_ok h
  · obtain ⟨hty, b, hb, hlt, hm⟩ := hc
    have e : Emits s [.store v α.value] ((s.log ev).append [.store v α.value]) := store_emits
    have hcode : fr.code = .store v α.value :: _ := hr.place.code.trans (Later.rest_emits hl hr.place.block e)
    have hroom : (0 : Int).toNat < (mem.cells (.stack b)).length := by
      rw [hm]
      exact Nat.one_pos
    have hle := hr.le_block hs (hl.emits hr.place.block e) hx hb
    refine .head (machine_store hcode hv.eval (eval_alloca hb) (Int.le_refl 0) hroom)
      (.pure ⟨_, _, rfl, MemKept.put hle, ?_⟩)
    refine hr.set hs e hl (Keeps.code (n := 0) _) hcode hx hb (Changed.refl b mem).put ?_
    exact ⟨hty, b, hb, hlt, by rw [Mem.put_cells_self, hm]; rfl⟩
  · cases hsub

omit [ConstantFolder] in
theorem Alive.setGlobal {x : String} {i k : BitVec 64} (h : Alive T base dest layers env fr mem) (hx : Keeps n fr fr')
    (hk : env.world.globals x = some k) : Alive T base dest layers
      { env with world := { env.world with globals := Function.update env.world.globals x (some i) } } fr'
      (mem.put (.global x) 0 (.int i)) := by
  have hstack : ∀ b, (mem.put (.global x) 0 (.int i)).cells (.stack b) = mem.cells (.stack b) := fun b =>
    Mem.put_cells_of_ne (by simp)
  refine ⟨hx.func.trans h.func, hx.dest.trans h.dest, h.le, ?_, ?_, ?_⟩
  · rw [hx.slots]
    exact h.allocated.next (Nat.le_refl _) fun b _ => by rw [hstack]
  · rw [hx.slots]
    exact h.scopes.kept ⟨Nat.le_refl _, fun b _ => hstack b⟩
  · intro y j hj
    obtain ⟨g, hg, hty, hm⟩ := h.world x k hk
    by_cases hy : y = x
    · subst hy
      have hij : i = j := Option.some.inj ((Function.update_self (β := fun _ => Option (BitVec 64)) ..).symm.trans hj)
      subst hij
      exact ⟨g, hg, hty, by rw [Mem.put_cells_self, hm]; rfl⟩
    · have hj' : env.world.globals y = some j :=
        (Function.update_of_ne (β := fun _ => Option (BitVec 64)) hy ..).symm.trans hj
      obtain ⟨g', hg', hty', hm'⟩ := h.world y j hj'
      exact ⟨g', hg', hty', (Mem.put_cells_of_ne fun he => hy (Blk.global.inj he)).trans hm'⟩

/-- Assignment to a global scalar: the code loads the variable first, and nobody reads the result. -/
theorem setGlobal_sim {x : String} {i k : BitVec 64} {ev : ScopeEvent}
    (h : setGlobalValue x v none (s.log ev) = .ok () t)
    (hl : Later T t) (hs : Site T s) (hr : Running T base dest s p env fr mem) (hv : Holds fr s.nextReg v (.int i))
    (hk : env.world.globals x = some k) :
    Sim (machine lib fin) n (.run fr stack mem env.world.ext)
      (.ok { env with world := { env.world with globals := Function.update env.world.globals x (some i) } } :
        Res (Env W))
      (DefDone T base dest p t mem stack) := by
  obtain ⟨g, hg, ⟨-, hn, -⟩ | ⟨-, -, rfl⟩ | ⟨_, _, _, hsub, -⟩⟩ := setGlobalValue_ok h
  · exact absurd hn hs.inFunc.layers
  · have hgx : s.global? x = some g := hg
    have e₁ : Emits (s.log ev) _ ((s.log ev).emit (.load · g.valueTy (.const (.global g.name g.valueTy)))) :=
      .emit ⟨rfl, rfl⟩
    have e : Emits s [.load s.nextReg g.valueTy (.const (.global g.name g.valueTy)),
        .store v (.const (.global g.name g.valueTy))] _ :=
      (Emits.log ev).trans (e₁.trans (.append fun j hj => by rw [List.mem_singleton.mp hj]; exact ⟨rfl, rfl⟩))
    obtain ⟨g', hg', hty, hm⟩ := hr.alive.world x k hk
    obtain rfl : g = g' := Option.some.inj (((hl.emits hr.place.block e).global? x g hgx).symm.trans hg')
    have hname := global?_name hgx
    subst hname
    have hcode := hr.place.code.trans (Later.rest_emits hl hr.place.block e)
    have hin := hr.place.block.emits e
    have hfalls := hr.falls.emits hr.place.block e
    have hnamed := e.namedValues
    generalize State.append _ _ = t at hcode hin hfalls hnamed ⊢
    rw [hty] at hcode
    have hroom : (0 : Int).toNat < (mem.cells (.global g.name)).length := by
      rw [hm]
      exact Nat.one_pos
    have k₁ : Keeps s.nextReg fr
      (({ fr with code := .store v (.const (.global g.name .i64)) :: t.rest fin p } : Frame).setReg
        s.nextReg (.int k)) := .setReg (Nat.le_refl _)
    refine .head (machine_load hcode eval_global (cell?_of_cells hm (Int.le_refl 0) rfl)) (.head
      (machine_store rfl (hv.keep k₁ (Nat.le_refl _)).eval eval_global (Int.le_refl 0) hroom)
      (.pure ⟨_, _, rfl, ⟨Nat.le_refl _, fun b _ => Mem.put_cells_of_ne (by simp)⟩, ?_, ⟨hin, rfl⟩, hfalls⟩))
    rw [hnamed]
    exact hr.alive.setGlobal (k₁.trans (.code _) (Nat.le_refl _)) hk
  · cases hsub

/-- Assignment to an element of a local array. -/
theorem setElement_sim {x : String} {i j : BitVec 64} {α : AllocaInst} {ev : ScopeEvent} {vs vs' : List (BitVec 64)}
    (hx : s.lookup x = some (.varVal α)) (h : createSetValueInst α v (some a) (s.log ev) = .ok () t) (hl : Later T t)
    (hs : Site T s) (hr : Running T base dest s p env fr mem) (hv : Holds fr s.nextReg v (.int i))
    (ha : Holds fr s.nextReg a (.int j)) (hc : CellMatch fr.slots mem α (.array vs))
    (hset : setElement vs j i = some vs') :
    Sim (machine lib fin) n (.run fr stack mem env.world.ext)
      (.ok { env with scopes := env.scopes.set x (.array vs') } : Res (Env W)) (DefDone T base dest p t mem stack) := by
  obtain ⟨hsub, -⟩ | ⟨a', q, u, hsub, hq, rfl⟩ := createSetValueInst_ok h
  · cases hsub
  · cases hsub
    obtain ⟨hty, b, hb, hlt, tail, hm⟩ := hc
    unfold setElement at hset
    split at hset
    · rename_i hj
      obtain rfl := Option.some.inj hset
      obtain ⟨is, e₁⟩ := elementPtr_emits hq
      have hin : InBlock T (s.log ev) p := hr.place.block
      have e₂ : Emits u [.store v q] (u.append [.store v q]) :=
        .append fun j hj => by rw [List.mem_singleton.mp hj]; exact ⟨rfl, rfl⟩
      have hlu : Later T u := hl.emits (hin.emits e₁) e₂
      have hat : At T (s.log ev) p fr := ⟨hin, hr.place.code⟩
      obtain ⟨fr₁, h₁, hat₁, k₁, hq₁⟩ := elementPtr_gives lib stack mem env.world.ext hq hlu hat ha hty hb
      have k₁' : Keeps s.nextReg fr fr₁ := k₁
      have hcode : fr₁.code = .store v q :: _ := hat₁.code.trans (Later.rest_emits hl (hin.emits e₁) e₂)
      have hroom : j.toInt.toNat < (mem.cells (.stack b)).length := by
        rw [hm, List.length_append, List.length_map]
        omega
      have hls : Later T (s.log ev) := hlu.emits hin e₁
      have hle := hr.le_block hs hls.of_log hx hb
      refine .reaches h₁ (.head (machine_store hcode (hv.keep k₁' (Nat.le_refl _)).eval hq₁ hj.1 hroom)
        (.pure ⟨_, _, rfl, MemKept.put hle, ?_⟩))
      refine hr.set hs ((Emits.log ev).trans (e₁.trans e₂)) hl (k₁'.trans (.code _) (Nat.le_refl _)) ?_ hx hb
        (Changed.refl b mem).put ?_
      · exact hr.place.code.trans (Later.rest_emits hl hr.place.block ((Emits.log ev).trans (e₁.trans e₂)))
      · refine ⟨by rw [List.length_set]; exact hty, b, hb, hlt, tail, ?_⟩
        rw [Mem.put_cells_self, hm, List.set_append_left _ _ (by simpa using hj.2), List.map_set]
        rfl
    · cases hset

theorem setScalar_sim {x : String} {i : BitVec 64} (h : setValue x v none s = .ok () t) (hl : Later T t)
    (hs : Site T s) (hr : Running T base dest s p env fr mem) (hv : Holds fr s.nextReg v (.int i)) :
    Sim (machine lib fin) n (.run fr stack mem env.world.ext) (defined (env.assign x i))
      (DefDone T base dest p t mem stack) := by
  unfold Env.assign
  rcases hr.alive.scopes.lookup x with ⟨h₁, h₂⟩ | ⟨nv, cell, h₁, h₂, hc⟩
  · rw [h₂]
    cases hk : env.world.globals x with
    | none => trivial
    | some k =>
      obtain ⟨_, hx, -⟩ | ⟨-, h⟩ := setValue_ok h
      · exact absurd (h₁.symm.trans hx) (by simp)
      · exact setGlobal_sim h hl hs hr hv hk
  · rw [h₂]
    cases cell with
    | array => trivial
    | scalar old =>
      obtain ⟨α, hx, h⟩ | ⟨hx, -⟩ := setValue_ok h
      · obtain rfl : nv = .varVal α := Option.some.inj (h₁.symm.trans hx)
        exact setLocal_sim hx h hl hs hr hv hc
      · exact absurd (h₁.symm.trans hx) (by simp)

theorem setArray_sim {x : String} {i j : BitVec 64} (h : setValue x v (some a) s = .ok () t) (hl : Later T t)
    (hs : Site T s) (hr : Running T base dest s p env fr mem) (hv : Holds fr s.nextReg v (.int i))
    (ha : Holds fr s.nextReg a (.int j)) :
    Sim (machine lib fin) n (.run fr stack mem env.world.ext) (defined (env.assignElement x j i))
      (DefDone T base dest p t mem stack) := by
  rcases hr.alive.scopes.lookup x with ⟨-, h₂⟩ | ⟨nv, cell, h₁, h₂, hc⟩
  · have hnone : env.assignElement x j i = none := by rw [Env.assignElement, h₂]
    rw [hnone]
    trivial
  · cases cell with
    | scalar =>
      have hnone : env.assignElement x j i = none := by rw [Env.assignElement, h₂]
      rw [hnone]
      trivial
    | array vs =>
      have hmap : env.assignElement x j i =
          (setElement vs j i).map fun vs' => { env with scopes := env.scopes.set x (.array vs') } := by
        rw [Env.assignElement, h₂]
      rw [hmap]
      cases hset : setElement vs j i with
      | none => trivial
      | some vs' =>
        obtain ⟨α, hx, h⟩ | ⟨hx, -⟩ := setValue_ok h
        · obtain rfl : nv = .varVal α := Option.some.inj (h₁.symm.trans hx)
          exact setElement_sim hx h hl hs hr hv ha hc hset
        · exact absurd (h₁.symm.trans hx) (by simp)

theorem execAssign_sim (hcall : CallsSim lib fin n call) {x : String} {sub : Option ExprNode} {e : ExprNode}
    (h : codeGenStmt (.assign x sub e) s = .ok () t) (hl : Later T t) (hs : Site T s)
    (hr : Running T base dest s p env fr mem) :
    Sim (machine lib fin) n (.run fr stack mem env.world.ext) (execAssign call x sub e env)
      (DefDone T base dest p t mem stack) := by
  obtain ⟨v, u, idx, w, hv, hi, hset⟩ := codeGenStmt_assign_ok.mp h
  obtain ⟨is, e₁⟩ := codeGenExp_emits hv
  obtain ⟨js, e₂⟩ := codeGenSubIdx_emits hi
  have hsu := hs.emits e₁
  have hsw := hsu.emits e₂
  obtain ⟨ks, e₃⟩ := setValue_emits hsw.inFunc.layers hset
  have hin := (hr.place.block.emits e₁).emits e₂
  have hlw : Later T w := hl.emits hin e₃
  have hlu : Later T u := hlw.emits (hr.place.block.emits e₁) e₂
  refine (eval_sim hcall hv hlu hs hr).bind ?_
  intro r d hpost
  obtain ⟨i, env₁⟩ := r
  obtain ⟨fr₁, mem₁, rfl, hr₁, _, hm₁, hi₁⟩ := hpost
  obtain ⟨rfl, rfl, rfl⟩ | ⟨sub, a, rfl, rfl, ha⟩ := codeGenSubIdx_ok.mp hi
  · exact (setScalar_sim hset hl hsw hr₁ hi₁).imp fun _ _ hd => hd.after hm₁
  · refine (eval_sim hcall ha hlw hsu hr₁).bind ?_
    intro r d hpost
    obtain ⟨j, env₂⟩ := r
    obtain ⟨fr₂, mem₂, rfl, hr₂, hk₂, hm₂, hj₂⟩ := hpost
    refine (setArray_sim hset hl hsw hr₂ (hi₁.keep hk₂ e₂.nextReg) hj₂).imp fun _ _ hd => ?_
    exact hd.after (hm₁.trans hm₂ (Nat.le_refl _))

end L24
