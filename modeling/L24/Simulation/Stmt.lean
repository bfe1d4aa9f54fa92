import L24.Simulation.Store

/-! Statements: the code of a statement simulates its execution. A statement that ends normally leaves the machine
    where the code of what follows begins; one that does not has jumped to a block of the innermost loop, or has
    left the function. -/

namespace L24
open Ir Relation Steps

variable {W : Type} {lib : Library W} {fin : State} {T : Target fin} {p : Label} {s t u : State} {v : Value}
  {fr fr' : Frame} {stack : List Frame} {mem mem' : Mem} {env : Env W} {base : Nat} {dest : Reg} {layers : List Layer}
  {n : Nat} {call : Calls W}

/-- What the machine has done when a statement ends. `ls` says which layers are left behind by a jump. -/
inductive StmtPost (T : Target fin) (base : Nat) (dest : Reg) (ls : List Layer → Prop) (s t : State) (mem : Mem)
    (stack : List Frame) : Outcome × Env W → Config W → Prop
  | normal {env : Env W} {fr' : Frame} {mem' : Mem} {p : Label} (kept : MemKept base mem mem')
      (run : Running T base dest t p env fr' mem') : StmtPost T base dest ls s t mem stack (.normal, env)
        (.run fr' stack mem' env.world.ext)
  | brk {env : Env W} {fr' : Frame} {mem' : Mem} {loop : Label × Label} {outer : List (Label × Label)}
      {layers : List Layer} (kept : MemKept base mem mem') (nested : s.nestedBlocks = loop :: outer) (left : ls layers)
      (alive : Alive T base dest layers env fr' mem') (code : fr'.code = fin.blocks loop.2) :
      StmtPost T base dest ls s t mem stack (.brk, env) (.run fr' stack mem' env.world.ext)
  | cont {env : Env W} {fr' : Frame} {mem' : Mem} {loop : Label × Label} {outer : List (Label × Label)}
      {layers : List Layer} (kept : MemKept base mem mem') (nested : s.nestedBlocks = loop :: outer) (left : ls layers)
      (alive : Alive T base dest layers env fr' mem') (code : fr'.code = fin.blocks loop.1) :
      StmtPost T base dest ls s t mem stack (.cont, env) (.run fr' stack mem' env.world.ext)
  | ret {env : Env W} {fr' : Frame} {mem' : Mem} {o : Option (BitVec 64)} (kept : MemKept base mem mem')
      (world : WorldMatch fin env.world mem') (hdest : fr'.dest = dest) :
      StmtPost T base dest ls s t mem stack (.ret o, env) (.leave fr' stack mem' env.world.ext (o.map .int))

/-- The same end, seen from an earlier state and memory. -/
theorem StmtPost.after {ls ls' : List Layer → Prop} {r : Outcome × Env W} {d : Config W}
    (h : StmtPost T base dest ls u t mem' stack r d) (hm : MemKept base mem mem')
    (hn : u.nestedBlocks = s.nestedBlocks) (hls : ∀ l, ls l → ls' l) : StmtPost T base dest ls' s t mem stack r d := by
  cases h with
  | normal kept run => exact .normal (hm.trans kept (Nat.le_refl _)) run
  | brk kept nested left alive code =>
    exact .brk (hm.trans kept (Nat.le_refl _)) (hn ▸ nested) (hls _ left) alive code
  | cont kept nested left alive code =>
    exact .cont (hm.trans kept (Nat.le_refl _)) (hn ▸ nested) (hls _ left) alive code
  | ret kept world hdest => exact .ret (hm.trans kept (Nat.le_refl _)) world hdest

/-- The end of a normal run may move on. -/
theorem StmtPost.then {ls : List Layer → Prop} {r : Outcome × Env W} {d : Config W}
    (h : StmtPost T base dest ls s u mem stack r d)
    (k : ∀ {env : Env W} {fr₁ : Frame} {mem₁ : Mem} {p : Label}, Running T base dest u p env fr₁ mem₁ →
      ∃ fr₂ q, Reaches (machine lib fin) (.run fr₁ stack mem₁ env.world.ext) (.run fr₂ stack mem₁ env.world.ext) ∧
        Running T base dest t q env fr₂ mem₁) :
    ∃ e, Reaches (machine lib fin) d e ∧ StmtPost T base dest ls s t mem stack r e := by
  cases h with
  | normal kept run =>
    obtain ⟨fr₂, q, h₂, run₂⟩ := k run
    exact ⟨_, h₂, .normal kept run₂⟩
  | brk kept nested left alive code => exact ⟨_, .refl _, .brk kept nested left alive code⟩
  | cont kept nested left alive code => exact ⟨_, .refl _, .cont kept nested left alive code⟩
  | ret kept world hdest => exact ⟨_, .refl _, .ret kept world hdest⟩

/-! ### Branches -/

/-- The begin of a block that has just been entered. -/
theorem Running.enter {l : Nat} (h : Alive T base dest s.namedValues env fr mem) (hin : InBlock T s l)
    (he : T.entry < l) (hs : s.blocks l = []) (hc : fr.code = fin.blocks l) : Running T base dest s l env fr mem :=
  ⟨h, .enter hin he hs hc, fun i hi => by rw [hs] at hi; cases hi⟩

/-- A block that the builder enters is one of the finished function's. -/
theorem Later.entered {l : Label} {entry : Label} (h : Later T (s.enter T.func l)) (hs : s.entry? T.func = some entry) :
    l ∈ T.obj.layout := by
  unfold State.entry? at hs
  obtain ⟨f, hf, -⟩ := Option.bind_eq_some_iff.mp hs
  refine h.labels { f with layout := f.layout ++ [l] } ?_ (List.mem_append_right _ List.mem_cons_self)
  show (s.functions.modify T.func _)[T.func]? = _
  rw [List.getElem?_modify, hf]
  simp

theorem machine_br {code : List Inst} {l : Label} {e : W} (hc : fr.code = .br l :: code)
    (hf : fr.func = fin.toFunction T.obj) (hl : l ∈ T.obj.layout) : machine lib fin (.run fr stack mem e) =
      some (.run { fr with code := fin.blocks l } stack mem e) := by
  have hj : ({ fr with code } : Frame).jump l = some { fr with code := fin.blocks l } :=
    jump_eq (show ({ fr with code } : Frame).func = _ from hf) hl
  rw [machine_run hc, exec, hj]
  rfl

theorem machine_condBr {code : List Inst} {l m : Label} {e : W} {b : Bool} (hc : fr.code = .condBr v l m :: code)
    (hv : fr.eval v = some (.bool b)) (hf : fr.func = fin.toFunction T.obj) (hl : l ∈ T.obj.layout)
    (hm : m ∈ T.obj.layout) : machine lib fin (.run fr stack mem e) =
      some (.run { fr with code := fin.blocks (if b then l else m) } stack mem e) := by
  have hin : (if b then l else m) ∈ T.obj.layout := by
    cases b
    · exact hm
    · exact hl
  have hv' : ({ fr with code } : Frame).eval v = some (.bool b) := (eval_code ..).trans hv
  have hj : ({ fr with code } : Frame).jump (if b then l else m) =
      some { fr with code := fin.blocks (if b then l else m) } :=
    jump_eq (show ({ fr with code } : Frame).func = _ from hf) hin
  rw [machine_run hc]
  simp only [exec, hv', hj, Option.map_some]

/-- The end of a branch: the builder puts a branch there, as the code has not ended with one. -/
theorem Running.close {l : Label} {e : W} (hr : Running T base dest s p env fr mem)
    (hl : Later T (s.brUnlessBranch ⟨T.func, p⟩ l)) (hm : l ∈ T.obj.layout) :
    machine lib fin (.run fr stack mem e) = some (.run { fr with code := fin.blocks l } stack mem e) := by
  unfold State.brUnlessBranch at hl
  split at hl
  · rename_i i hi
    have hb : i.isBranch = false := by
      have := hr.falls i hi
      rw [Inst.isTerminator, Bool.or_eq_false_iff] at this
      exact this.1
    rw [hb] at hl
    obtain ⟨code, hc, -⟩ := hr.place.append hl rfl
    exact machine_br hc hr.alive.func hm
  · have hplace : At T { s with emptyBack := true } p fr := ⟨hr.place.block, hr.place.code⟩
    obtain ⟨code, hc, -⟩ := hplace.append hl rfl
    exact machine_br hc hr.alive.func hm

/-! ### Conditions -/

variable [ConstantFolder]

/-- The condition of an `if` or `while`, and its comparison with zero. -/
theorem cond_sim (hcall : CallsSim lib fin n call) {e : ExprNode} {c : Value} (hv : codeGenExp e s = .ok v t)
    (hb : intToBoolean v t = .ok c u) (hl : Later T u) (hs : Site T s) (hr : Running T base dest s p env fr mem) :
    Sim (machine lib fin) n (.run fr stack mem env.world.ext) (env.eval call e) fun r d => ∃ fr₁ mem₁,
      d = .run fr₁ stack mem₁ r.2.world.ext ∧ MemKept base mem mem₁ ∧ Running T base dest u p r.2 fr₁ mem₁ ∧
      fr₁.eval c = some (.bool (decide (r.1 ≠ 0))) := by
  obtain ⟨is, e₁⟩ := codeGenExp_emits hv
  obtain ⟨js, e₂⟩ := intToBoolean_emits hb
  refine (eval_sim hcall hv (hl.emits (hr.place.block.emits e₁) e₂) hs hr).extend ?_
  intro r d hpost
  obtain ⟨i, env₁⟩ := r
  obtain ⟨fr₁, mem₁, rfl, hr₁, _, hm₁, hi₁⟩ := hpost
  have hg : Gives lib T p t u c (.bool (Pred.ne.eval 0 i)) fr₁ stack mem₁ env₁.world.ext :=
    createICmp_gives hb hr₁.place hl (.literal (.int 0)) hi₁
  obtain ⟨fr₂, h₂, hat₂, k₂, hc₂⟩ := hg
  have post : ExpPost T p t u fr₁ mem₁ env₁.world fr₂ mem₁ := ⟨hat₂, k₂, .refl mem₁, hr₁.alive.world⟩
  refine ⟨_, h₂, fr₂, mem₁, rfl, hm₁, hr₁.post e₂ post, ?_⟩
  rw [hc₂.eval, ne_eval, Const.eval]
  simp [bne, BEq.beq]

omit [ConstantFolder] in
theorem Running.condBr {c : Value} {l m : Label} {i : BitVec 64} {e : W} (hr : Running T base dest u p env fr mem)
    (hc : fr.eval c = some (.bool (decide (i ≠ 0)))) (hl : Later T (u.append [.condBr c l m]))
    (hm : l ∈ T.obj.layout ∧ m ∈ T.obj.layout) : machine lib fin (.run fr stack mem e) =
      some (.run { fr with code := fin.blocks (if i = 0 then m else l) } stack mem e) := by
  obtain ⟨code, hcode, -⟩ := hr.place.append hl rfl
  rw [machine_condBr hcode hc hr.alive.func hm.1 hm.2]
  by_cases hi : i = 0 <;> simp [hi]

/-! ### `if` -/

/-- The code of a statement simulates its execution `ex`. -/
def StmtSim (lib : Library W) (T : Target fin) (base : Nat) (dest : Reg) (stack : List Frame) (n : Nat) (st : StmtNode)
    (ex : Env W → Res (Outcome × Env W)) : Prop :=
  ∀ {s t : State} {p : Label} {env : Env W} {fr : Frame} {mem : Mem}, codeGenStmt st s = .ok () t → Later T t →
    Site T s → Running T base dest s p env fr mem → Sim (machine lib fin) n (.run fr stack mem env.world.ext) (ex env)
      (StmtPost T base dest (· = s.namedValues) s t mem stack)

omit [ConstantFolder] in
theorem Later.of_enter {l : Label} (h : Later T (s.enter T.func l)) : Later T s where
  blocks := h.blocks
  nextLabel := h.nextLabel
  labels f hf k hk := by
    refine h.labels { f with layout := f.layout ++ [l] } ?_ (List.mem_append_left _ hk)
    show (s.functions.modify T.func _)[T.func]? = _
    rw [List.getElem?_modify, hf]
    simp
  function? x f hf := by
    obtain ⟨f', hf', hr⟩ := find?_modify (i := T.func)
      (g := fun f => { f with layout := f.layout ++ [l] }) (fun _ => ⟨rfl, rfl⟩) hf
    obtain ⟨g, hg, hr'⟩ := h.function? x f' hf'
    exact ⟨g, hg, hr'.trans hr⟩
  global? := h.global?

omit [ConstantFolder] in
theorem Prologue.newBlocks {func entry : Nat} (h : Prologue func entry s) : Prologue func entry s.newBlocks :=
  h.congr rfl rfl rfl rfl (Nat.le_add_right _ _) rfl

omit [ConstantFolder] in
theorem Prologue.brUnless {func entry : Nat} {q : InsertPoint} {l : Label} (h : Prologue func entry s) :
    Prologue func entry (s.brUnlessBranch q l) :=
  (GenRun.brUnlessBranch : GenRun func entry s _).prologue (Nat.le_refl _) h

omit [ConstantFolder] in
theorem Later.of_brUnless {q : InsertPoint} {l : Label} (hp : Prologue T.func T.entry s)
    (h : Later T (s.brUnlessBranch q l)) : Later T s :=
  h.of_run hp (GenRun.brUnlessBranch : GenRun T.func T.entry s _)

section If
variable {e : ExprNode} {thenStmt : StmtNode} {elseStmt : Option StmtNode} {c : Value} {s₁ s₂ s₃ s₄ : State}
  {q r : InsertPoint}

omit [ConstantFolder] in
theorem thenStart_namedValues {func : Nat} : (s.thenStart func c).namedValues = s.namedValues :=
  State.append_namedValues _ _

omit [ConstantFolder] in
theorem thenStart_nestedBlocks {func : Nat} : (s.thenStart func c).nestedBlocks = s.nestedBlocks :=
  State.append_nestedBlocks _ _

omit [ConstantFolder] in
/-- The end of a branch of an `if`. -/
theorem Running.finish {l : Nat} (hp : s.insertPoint = some q) (hl : Later T (s.brUnlessBranch q l))
    (hm : l ∈ T.obj.layout) (hn : t.namedValues = s.namedValues) (hin : InBlock T t l) (he : T.entry < l)
    (ht : t.blocks l = []) (hr : Running T base dest s p env fr mem) :
    ∃ fr₂ q, Reaches (machine lib fin) (.run fr stack mem env.world.ext) (.run fr₂ stack mem env.world.ext) ∧
      Running T base dest t q env fr₂ mem := by
  obtain rfl : q = ⟨T.func, p⟩ := Option.some.inj (hp.symm.trans hr.place.block.1)
  refine ⟨_, l, .single (hr.close hl hm), .enter ?_ hin he ht rfl⟩
  rw [hn]
  exact hr.alive.keep (.code (n := 0) _)

theorem if_sim (hcall : CallsSim lib fin n call) {ex₁ ex₂ : Env W → Res (Outcome × Env W)}
    (ih₁ : StmtSim lib T base dest stack n thenStmt ex₁)
    (ih₂ : StmtSim lib T base dest stack n (elseBranch elseStmt) ex₂)
    (h : codeGenStmt (.ifStmt e thenStmt elseStmt) s = .ok () t) (hl : Later T t) (hs : Site T s)
    (hr : Running T base dest s p env fr mem) :
    Sim (machine lib fin) n (.run fr stack mem env.world.ext)
      (env.eval call e >>= fun (v, env) => if v ≠ 0 then ex₁ env else ex₂ env)
      (StmtPost T base dest (· = s.namedValues) s t mem stack) := by
  obtain ⟨v, s₁, c, s₂, s₃, q, s₄, r, hi⟩ := codeGenStmt_if_run (fun _ _ _ hf hb h => codeGenStmt_run thenStmt hf hb h)
    (fun _ _ _ hf hb h => codeGenStmt_run (elseBranch elseStmt) hf hb h) hs.inFunc h
  have hps := hs.prologue
  have hlt := hps.entry_lt
  have hlab : s₂.nextLabel = s.nextLabel := hi.nextLabel
  obtain ⟨is, e₁⟩ := hi.emits
  -- the states at the begin and the end of the branches
  have hp₁ : Prologue T.func T.entry (s₂.thenStart T.func c) := hi.start.prologue (Nat.le_of_lt hlt) hps
  have hp₃ : Prologue T.func T.entry s₃ := hi.thenRun.prologue (Nat.le_add_right_of_le (Nat.le_of_lt hlt)) hp₁
  have hp₂ := hi.else_prologue hps
  have hp₄ : Prologue T.func T.entry s₄ := hi.elseRun.prologue (Nat.le_add_right_of_le (Nat.le_of_lt hlt)) hp₂
  have hlt' : Later T ((s₄.brUnlessBranch r (s₂.nextLabel + 2)).enter T.func (s₂.nextLabel + 2)) := hi.result ▸ hl
  have hl₄ := hlt'.of_enter
  have hl₂ : Later T ((s₃.brUnlessBranch q (s₂.nextLabel + 2)).enter T.func (s₂.nextLabel + 1)) :=
    (hl₄.of_brUnless hp₄).of_run hp₂ hi.elseRun
  have hl₃ := hl₂.of_enter
  have hl₁ : Later T (s₂.thenStart T.func c) := (hl₃.of_brUnless hp₃).of_run hp₁ hi.thenRun
  -- the three blocks
  have hbr : ∀ i ∈ [Inst.condBr c s₂.nextLabel (s₂.nextLabel + 1)], i.isAlloca = false := by simp [Inst.isAlloca]
  have hthen : s₂.nextLabel ∈ T.obj.layout := hl₁.entered ((hps.emits e₁).newBlocks.append hbr).head
  have helse : s₂.nextLabel + 1 ∈ T.obj.layout := hl₂.entered hp₃.brUnless.head
  have hmerge : s₂.nextLabel + 2 ∈ T.obj.layout := hlt'.entered hp₄.brUnless.head
  have hn₂ : ((s₃.brUnlessBranch q (s₂.nextLabel + 2)).enter T.func (s₂.nextLabel + 1)).namedValues = s.namedValues :=
    (brUnlessBranch_namedValues s₃ q _).trans
      (hi.thenRestored.namedValues.trans (thenStart_namedValues.trans e₁.namedValues))
  have hn₁ : (s₂.thenStart T.func c).namedValues = s.namedValues := thenStart_namedValues.trans e₁.namedValues
  have hb₁ : (s₂.thenStart T.func c).nestedBlocks = s.nestedBlocks := thenStart_nestedBlocks.trans e₁.nestedBlocks
  have hb₂ : ((s₃.brUnlessBranch q (s₂.nextLabel + 2)).enter T.func (s₂.nextLabel + 1)).nestedBlocks = s.nestedBlocks :=
    (brUnlessBranch_nestedBlocks s₃ q _).trans (hi.thenRestored.nestedBlocks.trans hb₁)
  have hnt : t.namedValues = s.namedValues := hi.restored.namedValues
  have hlim : s₂.nextLabel + 3 ≤ T.limit := by
    rw [hlab, ← hi.thenLabel]
    exact hl₁.nextLabel
  have hlim₁ : s₂.nextLabel + 1 < T.limit := by omega
  have hlim₀ : s₂.nextLabel < T.limit := by omega
  have hin : InBlock T t (s₂.nextLabel + 2) := by
    rw [hi.result]
    exact ⟨rfl, hlim⟩
  have hts : t.blocks (s₂.nextLabel + 2) = [] := hlab ▸ hi.merge_blocks hps
  have hs₁ : Site T (s₂.thenStart T.func c) := ⟨hp₁, hi.thenIn, by rw [hb₁]; exact hs.loops⟩
  have hs₂ : Site T ((s₃.brUnlessBranch q (s₂.nextLabel + 2)).enter T.func (s₂.nextLabel + 1)) :=
    ⟨hp₂, hi.elseIn, by rw [hb₂]; exact hs.loops⟩
  -- the condition, and the conditional branch
  have hl₀ : Later T (s₂.newBlocks.append [.condBr c s₂.nextLabel (s₂.nextLabel + 1)]) := hl₁.of_enter
  have hls₂ : Later T s₂ := by
    have hin₂ : InBlock T s₂ p := hr.place.block.emits e₁
    have := Later.append (show InBlock T s₂.newBlocks p from hin₂) hbr hl₀
    exact ⟨this.blocks, Nat.le_trans (Nat.le_add_right _ 3) this.nextLabel, this.labels, this.function?, this.global?⟩
  refine (cond_sim hcall hi.cond hi.bool hls₂ hs hr).bind ?_
  intro r d hpost
  obtain ⟨i, env₁⟩ := r
  obtain ⟨fr₁, mem₁, rfl, hm₁, hr₁, hc₁⟩ := hpost
  have hr₁' : Running T base dest s₂.newBlocks p env₁ fr₁ mem₁ :=
    ⟨hr₁.alive, ⟨hr₁.place.block, hr₁.place.code⟩, hr₁.falls⟩
  refine .head (hr₁'.condBr hc₁ hl₀ ⟨hthen, helse⟩) ?_
  have halive := hr₁.alive
  rw [e₁.namedValues] at halive
  by_cases h0 : i = 0
  · simp only [h0, ne_eq, not_true_eq_false, ↓reduceIte]
    have hblocks := hi.else_start_blocks hps (show s.nextLabel < s₂.nextLabel + 1 by omega) (by omega)
    have hr₂ := Running.enter (hn₂ ▸ halive.keep (Keeps.code (n := 0) (fin.blocks (s₂.nextLabel + 1))))
      (show InBlock T _ (s₂.nextLabel + 1) from ⟨rfl, hlim₁⟩) (by omega) hblocks rfl
    refine (ih₂ hi.elseGen (hl₄.of_brUnless hp₄) hs₂ hr₂).extend fun r' d hpost => ?_
    refine (hpost.after hm₁ hb₂ fun l hl => hl.trans hn₂).then fun hrun => ?_
    exact hrun.finish hi.elsePoint hl₄ hmerge (hnt.trans (hi.elseRestored.namedValues.trans hn₂).symm) hin
      (by omega) hts
  · simp only [h0, ne_eq, not_false_eq_true, ↓reduceIte]
    have hblocks := hi.start_blocks hps (Nat.le_of_eq hlab.symm)
    have hr₂ := Running.enter (hn₁ ▸ halive.keep (Keeps.code (n := 0) (fin.blocks s₂.nextLabel)))
      (show InBlock T _ s₂.nextLabel from ⟨rfl, hlim₀⟩) (by omega) hblocks rfl
    refine (ih₁ hi.thenGen (hl₃.of_brUnless hp₃) hs₁ hr₂).extend fun r' d hpost => ?_
    refine (hpost.after hm₁ hb₁ fun l hl => hl.trans hn₁).then fun hrun => ?_
    exact hrun.finish hi.thenPoint hl₃ hmerge (hnt.trans (hi.thenRestored.namedValues.trans hn₁).symm) hin
      (by omega) hts

end If

/-! ### `while` -/

section While
variable {e : ExprNode} {body : StmtNode} {c : Value} {s₁ s₂ s₃ : State} {q : InsertPoint} {m : Nat}
  {ex : Env W → Res (Outcome × Env W)}

/-- What the generation of a loop has in the finished program. -/
structure LoopCode (T : Target fin) (e : ExprNode) (body : StmtNode) (s : State) (v : Value) (s₁ : State) (c : Value)
    (s₂ s₃ : State) (q : InsertPoint) (t : State) : Prop extends WhileRun T.func e body s v s₁ c s₂ s₃ q t where
  site : Site T s
  loopLater : Later T (s.loopStart T.func)
  bodyLater : Later T (s₂.bodyStart T.func c s.nextLabel)
  closeLater : Later T (s₃.brUnlessBranch q s.nextLabel)
  endLater : Later T s₃
  loopIn : s.nextLabel ∈ T.obj.layout
  bodyIn' : s.nextLabel + 1 ∈ T.obj.layout
  afterIn : s.nextLabel + 2 ∈ T.obj.layout
  limit : s.nextLabel + 3 ≤ T.limit

theorem while_code (h : codeGenStmt (.whileStmt e body) s = .ok () t) (hl : Later T t) (hs : Site T s) :
    ∃ v s₁ c s₂ s₃ q, LoopCode T e body s v s₁ c s₂ s₃ q t := by
  obtain ⟨v, s₁, c, s₂, s₃, q, hw⟩ :=
    codeGenStmt_while_run (fun _ _ _ hf hb h => codeGenStmt_run body hf hb h) hs.inFunc h
  have hps := hs.prologue
  have hlt := hps.entry_lt
  have hp₁ := loopStart_prologue hps
  have hp₂ := hw.body_prologue hps
  have hp₃ : Prologue T.func T.entry s₃ := hw.bodyRun.prologue (Nat.le_add_right_of_le (Nat.le_of_lt hlt)) hp₂
  have hlt' : Later T ((s₃.brUnlessBranch q s.nextLabel).enter T.func (s.nextLabel + 2)) := by
    have := hw.result ▸ hl
    exact ⟨this.blocks, this.nextLabel, this.labels, this.function?, this.global?⟩
  have hl₃ := hlt'.of_enter
  have hend := hl₃.of_brUnless hp₃
  have hl₂ : Later T (s₂.bodyStart T.func c s.nextLabel) := hend.of_run hp₂ hw.bodyRun
  obtain ⟨is, e₁⟩ := hw.emits
  have hbr : ∀ i ∈ [Inst.condBr c (s.nextLabel + 1) (s.nextLabel + 2)], i.isAlloca = false := by simp [Inst.isAlloca]
  have hbr' : ∀ i ∈ [Inst.br s.nextLabel], i.isAlloca = false := by simp [Inst.isAlloca]
  have hl₁ : Later T (s.loopStart T.func) :=
    hl₂.of_run hp₁ (.head (.emits e₁) (GenRun.branch rfl (Nat.zero_le _) (by rw [hw.nextLabel]; omega)))
  have hpush : Prologue T.func T.entry (s.newBlocks.pushLoop (s.nextLabel, s.nextLabel + 2)) :=
    hps.newBlocks.congr rfl rfl rfl rfl (Nat.le_refl _) rfl
  exact ⟨v, s₁, c, s₂, s₃, q, hw, hs, hl₁, hl₂, hl₃, hend, hl₁.entered (hpush.append hbr').head,
    hl₂.entered ((hp₁.emits e₁).append hbr).head, hlt'.entered hp₃.brUnless.head, by
      have := hl₂.nextLabel
      have h₃ : (s₂.bodyStart T.func c s.nextLabel).nextLabel = s₂.nextLabel := State.append_nextLabel _ _
      rw [h₃, hw.nextLabel] at this
      exact this⟩

/-- The iterations of a loop, each from the begin of the condition's block. -/
theorem loop_sim (hcall : CallsSim lib fin n call) (ih : StmtSim lib T base dest stack n body ex)
    (h : LoopCode T e body s v s₁ c s₂ s₃ q t) : ∀ {k : Nat} {env : Env W} {fr : Frame} {mem : Mem}, k ≤ n →
    Alive T base dest s.namedValues env fr mem → fr.code = fin.blocks s.nextLabel →
    Sim (machine lib fin) k (.run fr stack mem env.world.ext) (loop (Env.eval call · e) ex k env)
      (StmtPost T base dest (· = s.namedValues) s t mem stack)
  | 0, env, fr, mem, _, _, _ => ⟨_, rfl⟩
  | k + 1, env, fr, mem, hk, halive, hcode => by
    have hps := h.site.prologue
    have hlt := hps.entry_lt
    have hlim := h.limit
    have hlim₀ : s.nextLabel < T.limit := by omega
    have hlim₁ : s.nextLabel + 1 < T.limit := by omega
    obtain ⟨is, e₁⟩ := h.emits
    have hn₂ : s₂.namedValues = s.namedValues := e₁.namedValues.trans loopStart_namedValues
    have hb₂ : s₂.nestedBlocks = (s.nextLabel, s.nextLabel + 2) :: s.nestedBlocks :=
      e₁.nestedBlocks.trans loopStart_nestedBlocks
    have hin₁ : InBlock T (s.loopStart T.func) s.nextLabel := ⟨rfl, hlim₀⟩
    have hloops : ∀ l ∈ s₂.nestedBlocks, l.1 ∈ T.obj.layout ∧ l.2 ∈ T.obj.layout := by
      rw [hb₂]
      intro l hl
      rcases List.mem_cons.mp hl with rfl | hl
      · exact ⟨h.loopIn, h.afterIn⟩
      · exact h.site.loops l hl
    have hs₁ : Site T (s.loopStart T.func) :=
      ⟨loopStart_prologue hps, ⟨⟨_, rfl⟩, by rw [loopStart_namedValues]; exact h.site.inFunc.layers⟩,
        by rw [← e₁.nestedBlocks]; exact hloops⟩
    have hs₃ : Site T (s₂.bodyStart T.func c s.nextLabel) :=
      ⟨h.body_prologue hps, h.bodyIn, by rw [bodyStart_nestedBlocks]; exact hloops⟩
    have hin : InBlock T t (s.nextLabel + 2) := by
      rw [h.result]
      exact ⟨rfl, hlim⟩
    have hnt : t.namedValues = s.namedValues := h.restored.namedValues
    -- the end of the loop
    have after : ∀ {env : Env W} {fr : Frame} {mem : Mem}, Alive T base dest s.namedValues env fr mem →
        fr.code = fin.blocks (s.nextLabel + 2) → Running T base dest t (s.nextLabel + 2) env fr mem := fun ha hc =>
      .enter (hnt ▸ ha) hin (by omega) (h.after_blocks hps) hc
    have hl₂ : Later T (s₂.append [.condBr c (s.nextLabel + 1) (s.nextLabel + 2)]) := h.bodyLater.of_enter
    have hls₂ : Later T s₂ := Later.append (hin₁.emits e₁) (by simp [Inst.isAlloca]) hl₂
    have hr₁ := Running.enter (loopStart_namedValues ▸ halive) hin₁ hlt (loopStart_blocks hps (Nat.le_refl _)) hcode
    rw [loop]
    refine ((cond_sim hcall h.cond h.bool hls₂ hs₁ hr₁).of_le hk).bind ?_
    intro r d hpost
    obtain ⟨i, env₁⟩ := r
    obtain ⟨fr₁, mem₁, rfl, hm₁, hr₂, hc₁⟩ := hpost
    have halive₁ : Alive T base dest s.namedValues env₁ fr₁ mem₁ := hn₂ ▸ hr₂.alive
    have hstep : machine lib fin (.run fr₁ stack mem₁ env₁.world.ext) = some (.run { fr₁ with
        code := fin.blocks (if i = 0 then s.nextLabel + 2 else s.nextLabel + 1) } stack mem₁ env₁.world.ext) :=
      hr₂.condBr hc₁ hl₂ ⟨h.bodyIn', h.afterIn⟩
    by_cases h0 : i = 0
    · simp only [h0, ↓reduceIte] at hstep ⊢
      exact .head hstep (.pure (.normal hm₁ (after (halive₁.keep (Keeps.code (n := 0) _)) rfl)))
    · simp only [h0, ↓reduceIte] at hstep ⊢
      have hb₃ : (s₂.bodyStart T.func c s.nextLabel).nestedBlocks = (s.nextLabel, s.nextLabel + 2) :: s.nestedBlocks :=
        bodyStart_nestedBlocks.trans hb₂
      have hn₃ : (s₂.bodyStart T.func c s.nextLabel).namedValues = s.namedValues := bodyStart_namedValues.trans hn₂
      have hr₃ := Running.enter (hn₃ ▸ halive₁.keep (Keeps.code (n := 0) (fin.blocks (s.nextLabel + 1))))
        (show InBlock T _ (s.nextLabel + 1) from ⟨rfl, hlim₁⟩) (by omega)
        (h.body_start_blocks hps (Nat.lt_succ_self _)) rfl
      refine .succ hstep (((ih h.bodyGen h.endLater hs₃ hr₃).of_le (Nat.le_of_succ_le hk)).bind ?_)
      intro r d hpost
      obtain ⟨o, env₂⟩ := r
      cases hpost with
      | @normal _ fr₂ mem₂ p kept run =>
        have hq : q = ⟨T.func, p⟩ := Option.some.inj (h.bodyPoint.symm.trans run.place.block.1)
        have hclose : machine lib fin (.run fr₂ stack mem₂ env₂.world.ext) =
            some (.run { fr₂ with code := fin.blocks s.nextLabel } stack mem₂ env₂.world.ext) :=
          run.close (hq ▸ h.closeLater) h.loopIn
        have halive₂ : Alive T base dest s.namedValues env₂ fr₂ mem₂ := hn₃ ▸ h.bodyRestored.namedValues ▸ run.alive
        refine .head hclose ((loop_sim hcall ih h (Nat.le_of_succ_le hk) (halive₂.keep (Keeps.code (n := 0) _)) rfl).imp
          ?_)
        exact fun r d hd => hd.after (hm₁.trans kept (Nat.le_refl _)) rfl fun _ h => h
      | @cont _ fr₂ mem₂ l outer layers kept nested left alive code =>
        rw [hb₃] at nested
        cases nested
        rw [left, hn₃] at alive
        refine (loop_sim hcall ih h (Nat.le_of_succ_le hk) alive code).imp ?_
        exact fun r d hd => hd.after (hm₁.trans kept (Nat.le_refl _)) rfl fun _ h => h
      | @brk _ fr₂ mem₂ l outer layers kept nested left alive code =>
        rw [hb₃] at nested
        cases nested
        rw [left, hn₃] at alive
        exact .pure (.normal (hm₁.trans kept (Nat.le_refl _)) (after alive code))
      | ret kept world hdest => exact .pure (.ret (hm₁.trans kept (Nat.le_refl _)) world hdest)

theorem while_sim (hcall : CallsSim lib fin n call) (ih : StmtSim lib T base dest stack n body ex)
    (h : codeGenStmt (.whileStmt e body) s = .ok () t) (hl : Later T t) (hs : Site T s)
    (hr : Running T base dest s p env fr mem) :
    Sim (machine lib fin) n (.run fr stack mem env.world.ext) (loop (Env.eval call · e) ex n env)
      (StmtPost T base dest (· = s.namedValues) s t mem stack) := by
  obtain ⟨v, s₁, c, s₂, s₃, q, hc⟩ := while_code h hl hs
  have hpush : At T (s.newBlocks.pushLoop (s.nextLabel, s.nextLabel + 2)) p fr := ⟨hr.place.block, hr.place.code⟩
  obtain ⟨code, hcode, -⟩ := hpush.append hc.loopLater.of_enter rfl
  exact .head (machine_br hcode hr.alive.func hc.loopIn)
    (loop_sim hcall ih hc (Nat.le_refl n) (hr.alive.keep (Keeps.code (n := 0) _)) rfl)

end While

/-! ### All statements -/

omit [ConstantFolder] in
theorem Alive.pop (h : Alive T base dest layers env fr mem) : Alive T base dest layers.tail env.pop fr mem :=
  ⟨h.func, h.dest, h.le, h.allocated, h.scopes.tail, h.world⟩

omit [ConstantFolder] in
theorem Running.push (h : Running T base dest s p env fr mem) :
    Running T base dest (s.pushLayer.log .push) p env.push fr mem :=
  ⟨⟨h.alive.func, h.alive.dest, h.alive.le, h.alive.allocated, .cons .nil h.alive.scopes, h.alive.world⟩,
    ⟨h.place.block, h.place.code⟩, h.falls⟩

omit [ConstantFolder] in
theorem machine_ret {code : List Inst} {o : Option Value} {i : Option (BitVec 64)} {e : W}
    (hc : fr.code = .ret o :: code) (hi : o.map fr.eval = i.map fun k => some (.int k)) :
    machine lib fin (.run fr stack mem e) = some (.leave fr stack mem e (i.map .int)) := by
  rw [machine_run hc]
  cases o with
  | none =>
    cases i with
    | none => rfl
    | some => cases hi
  | some v =>
    cases i with
    | none => cases hi
    | some k =>
      have hv : ({ fr with code } : Frame).eval v = some (.int k) := (eval_code ..).trans (Option.some.inj hi)
      simp only [exec, hv, Option.map_some]
      rfl

mutual

/-- The code of a statement simulates its execution. -/
theorem execStmt_sim (hcall : CallsSim lib fin n call) : ∀ (st : StmtNode) {s t : State} {p : Label} {env : Env W}
    {fr : Frame} {mem : Mem}, codeGenStmt st s = .ok () t → Later T t → Site T s → Running T base dest s p env fr mem →
    Sim (machine lib fin) n (.run fr stack mem env.world.ext) (execStmt call n st env)
      (StmtPost T base dest (· = s.namedValues) s t mem stack)
  | .block items, s, t, p, env, fr, mem, h, hl, hs, hr => by
    obtain ⟨w, hw, rfl⟩ := codeGenStmt_block_ok.mp h
    have hlw : Later T w := ⟨hl.blocks, hl.nextLabel, hl.labels, hl.function?, hl.global?⟩
    have hs' : Site T (s.pushLayer.log .push) :=
      ⟨(GenStep.pushLayer.prologue (Nat.le_refl _) hs.prologue).congr rfl rfl rfl rfl (Nat.le_refl _) rfl,
        ⟨hs.inFunc.point, List.cons_ne_nil _ _⟩, hs.loops⟩
    rw [execStmt]
    refine (execItems_sim hcall items hw hlw hs' hr.push).bind ?_
    intro r d hpost
    obtain ⟨o, env₁⟩ := r
    -- However the items end, the layer of the block is gone behind it.
    cases hpost with
    | normal kept run => exact .pure (.normal kept ⟨run.alive.pop, ⟨run.place.block, run.place.code⟩, run.falls⟩)
    | brk kept nested left alive code => exact .pure (.brk kept nested left alive.pop code)
    | cont kept nested left alive code => exact .pure (.cont kept nested left alive.pop code)
    | ret kept world hdest => exact .pure (.ret kept world hdest)
  | .ifStmt e thenStmt elseStmt, s, t, p, env, fr, mem, h, hl, hs, hr => by
    rw [execStmt]
    exact if_sim hcall (execStmt_sim hcall thenStmt) (execElse_sim hcall elseStmt) h hl hs hr
  | .whileStmt e body, s, t, p, env, fr, mem, h, hl, hs, hr => by
    rw [execStmt]
    exact while_sim hcall (execStmt_sim hcall body) h hl hs hr
  | .continueStmt, s, t, p, env, fr, mem, h, hl, hs, hr => by
    obtain ⟨loop, outer, hn, rfl⟩ := codeGenStmt_continue_ok.mp h
    obtain ⟨code, hc, -⟩ := hr.place.append hl rfl
    -- The innermost loop of the generator is the one that the statement ends or goes on with.
    have hin := (hs.loops loop (by rw [hn]; exact List.mem_cons_self)).1
    rw [execStmt]
    exact .head (machine_br hc hr.alive.func hin)
      (.pure (.cont (.refl mem) hn rfl (hr.alive.keep (Keeps.code (n := 0) _)) rfl))
  | .breakStmt, s, t, p, env, fr, mem, h, hl, hs, hr => by
    obtain ⟨loop, outer, hn, rfl⟩ := codeGenStmt_break_ok.mp h
    obtain ⟨code, hc, -⟩ := hr.place.append hl rfl
    have hin := (hs.loops loop (by rw [hn]; exact List.mem_cons_self)).2
    rw [execStmt]
    exact .head (machine_br hc hr.alive.func hin)
      (.pure (.brk (.refl mem) hn rfl (hr.alive.keep (Keeps.code (n := 0) _)) rfl))
  | .ret none, s, t, p, env, fr, mem, h, hl, hs, hr => by
    obtain rfl := codeGenStmt_retVoid_ok.mp h
    obtain ⟨code, hc, -⟩ := hr.place.append hl rfl
    rw [execStmt]
    exact .head (machine_ret hc (i := none) rfl) (.pure (.ret (.refl mem) hr.alive.world hr.alive.dest))
  | .ret (some e), s, t, p, env, fr, mem, h, hl, hs, hr => by
    obtain ⟨v, w, hv, rfl⟩ := codeGenStmt_ret_ok.mp h
    obtain ⟨is, e₁⟩ := codeGenExp_emits hv
    have hlw : Later T w := Later.append (hr.place.block.emits e₁) (by simp [Inst.isAlloca]) hl
    rw [execStmt]
    refine (eval_sim hcall hv hlw hs hr).bind ?_
    intro r d hpost
    obtain ⟨i, env₁⟩ := r
    obtain ⟨fr₁, mem₁, rfl, hr₁, _, hm₁, hi₁⟩ := hpost
    obtain ⟨code, hc, -⟩ := hr₁.place.append hl rfl
    exact .head (machine_ret hc (i := some i) (congrArg some hi₁.eval))
      (.pure (.ret hm₁ hr₁.alive.world hr₁.alive.dest))
  | .expr none, s, t, p, env, fr, mem, h, hl, hs, hr => by
    obtain rfl := codeGenStmt_empty_ok.mp h
    rw [execStmt]
    exact .pure (.normal (.refl mem) hr)
  | .expr (some e), s, t, p, env, fr, mem, h, hl, hs, hr => by
    obtain ⟨v, hv⟩ := codeGenStmt_expr_ok.mp h
    rw [execStmt]
    refine (exec_exp_sim hcall hv hl hs hr).bind ?_
    intro r d hpost
    obtain ⟨o, w⟩ := r
    obtain ⟨fr₁, mem₁, rfl, hm₁, hr₁⟩ := hpost
    exact .pure (.normal hm₁ hr₁)
  | .assign x sub e, s, t, p, env, fr, mem, h, hl, hs, hr => by
    rw [execStmt]
    refine (execAssign_sim hcall h hl hs hr).bind ?_
    intro env₁ d hpost
    obtain ⟨fr₁, mem₁, rfl, hm₁, hr₁⟩ := hpost
    exact .pure (.normal hm₁ hr₁)

theorem execElse_sim (hcall : CallsSim lib fin n call) :
    ∀ (st : Option StmtNode) {s t : State} {p : Label} {env : Env W}
    {fr : Frame} {mem : Mem}, codeGenStmt (elseBranch st) s = .ok () t → Later T t → Site T s →
    Running T base dest s p env fr mem → Sim (machine lib fin) n (.run fr stack mem env.world.ext)
      (execElse call n st env) (StmtPost T base dest (· = s.namedValues) s t mem stack)
  | none, s, t, p, env, fr, mem, h, hl, hs, hr => by
    obtain rfl := codeGenStmt_empty_ok.mp h
    rw [execElse]
    exact .pure (.normal (.refl mem) hr)
  | some st, s, t, p, env, fr, mem, h, hl, hs, hr => by
    rw [execElse]
    exact execStmt_sim hcall st h hl hs hr

theorem execItem_sim (hcall : CallsSim lib fin n call) :
    ∀ (item : BlockItemNode) {s t : State} {p : Label} {env : Env W}
    {fr : Frame} {mem : Mem}, codeGenBlockItem item s = .ok () t → Later T t → Site T s →
    Running T base dest s p env fr mem → Sim (machine lib fin) n (.run fr stack mem env.world.ext)
      (execItem call n item env) (StmtPost T base dest (· = s.namedValues) s t mem stack)
  | .decl d, s, t, p, env, fr, mem, h, hl, hs, hr => by
    rw [execItem]
    refine (execDecl_sim hcall (codeGenBlockItem_decl ▸ h) hl hs hr).bind ?_
    intro env₁ d hpost
    obtain ⟨fr₁, mem₁, rfl, hm₁, hr₁⟩ := hpost
    exact .pure (.normal hm₁ hr₁)
  | .stmt st, s, t, p, env, fr, mem, h, hl, hs, hr => by
    rw [execItem]
    exact execStmt_sim hcall st (codeGenBlockItem_stmt ▸ h) hl hs hr

/-- The items of a block: what is left of the current layer when a jump leaves them does not matter. -/
theorem execItems_sim (hcall : CallsSim lib fin n call) : ∀ (items : List BlockItemNode) {s t : State} {p : Label}
    {env : Env W} {fr : Frame} {mem : Mem}, codeGenBlockItems items s = .ok () t → Later T t → Site T s →
    Running T base dest s p env fr mem → Sim (machine lib fin) n (.run fr stack mem env.world.ext)
      (execItems call n items env) (StmtPost T base dest (·.tail = s.namedValues.tail) s t mem stack)
  | [], s, t, p, env, fr, mem, h, hl, hs, hr => by
    obtain rfl := codeGenBlockItems_nil_ok.mp h
    rw [execItems]
    exact .pure (.normal (.refl mem) hr)
  | item :: items, s, t, p, env, fr, mem, h, hl, hs, hr => by
    obtain ⟨w, hw, h⟩ := codeGenBlockItems_cons_ok.mp h
    obtain ⟨r, k⟩ := codeGenBlockItem_run item hs.inFunc (Nat.le_of_lt hs.prologue.entry_lt) hw
    have hsw := hs.run (Nat.le_refl _) r k
    have hlw : Later T w := hl.of_run hsw.prologue (codeGenBlockItems_run items hsw.inFunc (Nat.zero_le _) h).1
    rw [execItems]
    refine (execItem_sim hcall item hw hlw hs hr).bind ?_
    intro r d hpost
    obtain ⟨o, env₁⟩ := r
    have htail : ∀ l : List Layer, l = s.namedValues → l.tail = s.namedValues.tail := fun l hl => by rw [hl]
    cases hpost with
    | normal kept run =>
      refine (execItems_sim hcall items h hl hsw run).imp fun r d hd => ?_
      exact hd.after kept k.nestedBlocks fun l hl => hl.trans k.outer
    | brk kept nested left alive code => exact .pure (.brk kept nested (htail _ left) alive code)
    | cont kept nested left alive code => exact .pure (.cont kept nested (htail _ left) alive code)
    | ret kept world hdest => exact .pure (.ret kept world hdest)

end

end L24
