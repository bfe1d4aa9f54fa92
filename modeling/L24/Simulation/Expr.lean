import L24.Simulation.Straight

/-! Expressions: the code of an expression simulates its evaluation. -/

namespace L24
open Ir Relation Steps

variable {W : Type} {lib : Library W} {fin : State} {T : Target fin} {p : Label} {s t u : State} {v a b x y : Value}
  {c d : Const} {fr : Frame} {stack : List Frame} {mem : Mem} {sc : Scopes}

/-! ### Single operations -/

section Exec
variable {M : Module} {ext : Ext W} {e : W} {r : Reg} {ty : Ty} {blk : Blk} {o : Int}

theorem load_int {k : BitVec 64} (h : mem.cell? blk o = some (.int k)) : mem.load .i64 blk o = some (.int k) := by
  unfold Mem.load
  rw [h]

theorem cell?_of_cells {cs : List Val} {k : Val} (h : mem.cells blk = cs) (ho : 0 ≤ o) (hk : cs[o.toNat]? = some k) :
    mem.cell? blk o = some k := by
  rw [Mem.cell?, if_pos ho, h, hk]

theorem exec_load {k : BitVec 64} (ha : fr.eval a = some (.ptr blk o)) (hk : mem.cell? blk o = some (.int k)) :
    exec M ext (.load r .i64 a) fr stack mem e = some (.run (fr.setReg r (.int k)) stack mem e) := by
  simp only [exec, ha, load_int hk, Option.map_some]

theorem exec_store {k : Val} (hv : fr.eval v = some k) (ha : fr.eval a = some (.ptr blk o)) (ho : 0 ≤ o)
    (hlt : o.toNat < (mem.cells blk).length) :
    exec M ext (.store v a) fr stack mem e = some (.run fr stack (mem.put blk o.toNat k) e) := by
  simp only [exec, hv, ha, Mem.store_eq ho hlt, Option.map_some]

theorem machine_load {code : List Inst} {k : BitVec 64} (hc : fr.code = .load r .i64 a :: code)
    (ha : fr.eval a = some (.ptr blk o)) (hk : mem.cell? blk o = some (.int k)) :
    machine lib fin (.run fr stack mem e) =
      some (.run (({ fr with code } : Frame).setReg r (.int k)) stack mem e) :=
  (machine_run hc).trans (exec_load ((eval_code ..).trans ha) hk)

theorem machine_store {code : List Inst} {k : Val} (hc : fr.code = .store v a :: code) (hv : fr.eval v = some k)
    (ha : fr.eval a = some (.ptr blk o)) (ho : 0 ≤ o) (hlt : o.toNat < (mem.cells blk).length) :
    machine lib fin (.run fr stack mem e) = some (.run { fr with code } stack (mem.put blk o.toNat k) e) :=
  (machine_run hc).trans (exec_store ((eval_code ..).trans hv) ((eval_code ..).trans ha) ho hlt)

theorem eval_global {x : String} : fr.eval (.const (.global x ty)) = some (.ptr (.global x) 0) := rfl

theorem eval_alloca {α : AllocaInst} {n : Nat} (h : fr.slots α.slot = some n) :
    fr.eval α.value = some (.ptr (.stack n) 0) := by
  rw [AllocaInst.value, Frame.eval, h]
  rfl

end Exec

/-- The machine gets from the code for `s` to the code for `t`, and `v` has the value `c` there. -/
def Gives (lib : Library W) (T : Target fin) (p : Label) (s t : State) (v : Value) (c : Const) (fr : Frame)
    (stack : List Frame) (mem : Mem) (e : W) : Prop :=
  ∃ fr', Reaches (machine lib fin) (.run fr stack mem e) (.run fr' stack mem e) ∧ At T t p fr' ∧
    Keeps s.nextReg fr fr' ∧ Holds fr' t.nextReg v c

section Operations
variable {e : W}

theorem Gives.literal (h : At T s p fr) : Gives lib T p s s (.const c) c fr stack mem e :=
  ⟨fr, .refl _, h, .refl fr, .literal c⟩

theorem Gives.operand (h : At T s p fr) (hv : Holds fr s.nextReg v c) : Gives lib T p s s v c fr stack mem e :=
  ⟨fr, .refl _, h, .refl fr, hv⟩

/-- An inserted instruction with the result `c`. -/
theorem Gives.emit {mk : Reg → Inst} {ty : Ty} (h : At T s p fr) (hl : Later T (s.emit mk))
    (hi : (mk s.nextReg).isAlloca = false) (hty : ty = c.ty)
    (hx : ∀ code, exec fin.toModule (libraryExt lib) (mk s.nextReg) { fr with code } stack mem e =
      some (.run (({ fr with code } : Frame).setReg s.nextReg c.eval) stack mem e)) :
    Gives lib T p s (s.emit mk) (.inst s.nextReg ty) c fr stack mem e := by
  obtain ⟨code, hc, ha⟩ := h.emit hl hi
  exact ⟨_, .single ((machine_run hc).trans (hx code)), ha.setReg, .setReg (Nat.le_refl _),
    .setReg (Nat.lt_succ_self _) hty⟩

/-- One operation after the other. -/
theorem Gives.bind (h : Gives lib T p s u v c fr stack mem e) (hn : s.nextReg ≤ u.nextReg)
    (k : ∀ fr', At T u p fr' → Keeps s.nextReg fr fr' → Holds fr' u.nextReg v c →
      Gives lib T p u t x d fr' stack mem e) : Gives lib T p s t x d fr stack mem e := by
  obtain ⟨fr₁, h₁, a₁, k₁, v₁⟩ := h
  obtain ⟨fr₂, h₂, a₂, k₂, v₂⟩ := k fr₁ a₁ k₁ v₁
  exact ⟨fr₂, h₁.trans h₂, a₂, k₁.trans k₂ hn, v₂⟩

/-- Instructions that run anywhere run where they have been inserted. -/
theorem Runs.gives (h : Runs s t v c fr mem) (hat : At T s p fr) (hl : Later T t) :
    Gives lib T p s t v c fr stack mem e := by
  obtain ⟨is, fr', em, hk, hv, hr⟩ := h
  have hcode : fr.code = is ++ t.rest fin p := hat.code.trans (hl.rest_emits hat.block em)
  have hrun := hr fin.toModule (libraryExt lib) stack e (t.rest fin p)
  rw [← hcode] at hrun
  exact ⟨_, hrun, ⟨hat.block.emits em, rfl⟩, hk.trans (.code _) (Nat.le_refl _), hv.keep (.code _) (Nat.le_refl _)⟩

variable [ConstantFolder]

theorem createBinOp_gives {op : BinOp} {i j k : BitVec 64} (h : createBinOp op a b s = .ok v t) (hat : At T s p fr)
    (hl : Later T t) (ha : Holds fr s.nextReg a (.int i)) (hb : Holds fr s.nextReg b (.int j))
    (hk : op.eval i j = some k) : Gives lib T p s t v (.int k) fr stack mem e :=
  (createBinOp_runs h ha hb hk).gives hat hl

theorem createICmp_gives {q : Pred} {i j : BitVec 64} (h : createICmp q a b s = .ok v t) (hat : At T s p fr)
    (hl : Later T t) (ha : Holds fr s.nextReg a (.int i)) (hb : Holds fr s.nextReg b (.int j)) :
    Gives lib T p s t v (.bool (q.eval i j)) fr stack mem e := (createICmp_runs h ha hb).gives hat hl

theorem createSelect_gives {i j k : Bool} (h : createSelect a x y s = .ok v t) (hat : At T s p fr) (hl : Later T t)
    (ha : Holds fr s.nextReg a (.bool i)) (hx : Holds fr s.nextReg x (.bool j)) (hy : Holds fr s.nextReg y (.bool k)) :
    Gives lib T p s t v (.bool (if i then j else k)) fr stack mem e := (createSelect_runs h ha hx hy).gives hat hl

theorem createIntCast_gives {i : Bool} (h : createIntCast a s = .ok v t) (hat : At T s p fr) (hl : Later T t)
    (ha : Holds fr s.nextReg a (.bool i)) : Gives lib T p s t v (.int (boolToInt i)) fr stack mem e :=
  (createIntCast_runs h ha).gives hat hl

/-- `booleanToInt` of an operation. -/
theorem Gives.cast {i : Bool} (g : Gives lib T p s u a (.bool i) fr stack mem e) (hn : s.nextReg ≤ u.nextReg)
    (h : createIntCast a u = .ok v t) (hl : Later T t) : Gives lib T p s t v (.int (boolToInt i)) fr stack mem e :=
  g.bind hn fun _ ha _ hv => createIntCast_gives h ha hl hv

end Operations

/-! ### The state of a running expression -/

/-- The machine stands before the code that is generated next, and the variables match. -/
structure Ready (T : Target fin) (p : Label) (s : State) (sc : Scopes) (w : World W) (fr : Frame) (mem : Mem) :
    Prop where
  place : At T s p fr
  layers : s.namedValues ≠ []
  scopes : ScopesMatch fr.slots mem s.namedValues sc
  world : WorldMatch fin w mem

/-- What the code of an expression has done: it stands behind, and the value, if there is one, is in `v`. -/
structure ExpPost (T : Target fin) (p : Label) (s t : State) (fr : Frame) (mem : Mem) (w : World W) (fr' : Frame)
    (mem' : Mem) : Prop where
  place : At T t p fr'
  keeps : Keeps s.nextReg fr fr'
  kept : MemKept mem.next mem mem'
  world : WorldMatch fin w mem'

/-- The configuration shows the result of an expression. -/
def ExpDone (T : Target fin) (p : Label) (s t : State) (v : Value) (fr : Frame) (mem : Mem) (stack : List Frame)
    (r : Option (BitVec 64) × World W) (d : Config W) : Prop :=
  ∃ fr' mem', d = .run fr' stack mem' r.2.ext ∧ ExpPost T p s t fr mem r.2 fr' mem' ∧
    ∀ i, r.1 = some i → Holds fr' t.nextReg v (.int i)

section Running
variable {w : World W} {fr' : Frame} {mem' : Mem} {w' : World W} {is : List Inst}

theorem Ready.post (h : Ready T p s sc w fr mem) (e : Emits s is t) (hp : ExpPost T p s t fr mem w' fr' mem') :
    Ready T p t sc w' fr' mem' where
  place := hp.place
  layers := by rw [e.namedValues]; exact h.layers
  scopes := by rw [e.namedValues, hp.keeps.slots]; exact h.scopes.kept hp.kept
  world := hp.world

theorem ExpPost.trans {fr₁ : Frame} {mem₁ : Mem} {w₁ : World W} (h₁ : ExpPost T p s u fr mem w₁ fr₁ mem₁)
    (h₂ : ExpPost T p u t fr₁ mem₁ w' fr' mem') (hn : s.nextReg ≤ u.nextReg) : ExpPost T p s t fr mem w' fr' mem' :=
  ⟨h₂.place, h₁.keeps.trans h₂.keeps hn, h₁.kept.trans h₂.kept h₁.kept.next, h₂.world⟩

theorem ExpDone.after {fr₁ : Frame} {mem₁ : Mem} {w₁ : World W} {r : Option (BitVec 64) × World W} {d : Config W}
    (h₁ : ExpPost T p s u fr mem w₁ fr₁ mem₁) (hn : s.nextReg ≤ u.nextReg) (h : ExpDone T p u t v fr₁ mem₁ stack r d) :
    ExpDone T p s t v fr mem stack r d := by
  obtain ⟨fr₂, mem₂, rfl, h₂, hv⟩ := h
  exact ⟨fr₂, mem₂, rfl, h₁.trans h₂ hn, hv⟩

/-- An operation whose operands are there ends an expression. -/
theorem Gives.done {n : Nat} {i : BitVec 64} (g : Gives lib T p s t v (.int i) fr stack mem w.ext)
    (hw : WorldMatch fin w mem) : Sim (machine lib fin) n (.run fr stack mem w.ext)
      (.ok (some i, w) : Res (Option (BitVec 64) × World W)) (ExpDone T p s t v fr mem stack) := by
  obtain ⟨fr', h, ha, hk, hv⟩ := g
  refine .reaches h (.pure ⟨fr', mem, rfl, ⟨ha, hk, .refl mem, hw⟩, fun j hj => ?_⟩)
  obtain rfl : i = j := Option.some.inj hj
  exact hv

/-- An operation in an expression, and what follows it. -/
theorem Gives.next {n : Nat} {r : Res (Option (BitVec 64) × World W)}
    (g : Gives lib T p s u a c fr stack mem w.ext) (hr : Ready T p s sc w fr mem) (e : Emits s is u)
    (k : ∀ fr', Ready T p u sc w fr' mem → Keeps s.nextReg fr fr' → Holds fr' u.nextReg a c →
      Sim (machine lib fin) n (.run fr' stack mem w.ext) r (ExpDone T p u t v fr' mem stack)) :
    Sim (machine lib fin) n (.run fr stack mem w.ext) r (ExpDone T p s t v fr mem stack) := by
  obtain ⟨fr', h, ha, hk, hv⟩ := g
  have post : ExpPost T p s u fr mem w fr' mem := ⟨ha, hk, .refl mem, hr.world⟩
  exact .reaches h ((k fr' (hr.post e post) hk hv).imp fun _ _ hd => hd.after post e.nextReg)

theorem sim_defined {n : Nat} {α β : Type} {o : Option β} {f : β → Res α} {e : Config W} {Q : α → Config W → Prop}
    (k : ∀ b, o = some b → Sim (machine lib fin) n e (f b) Q) : Sim (machine lib fin) n e (defined o >>= f) Q := by
  cases o with
  | none => trivial
  | some b => exact k b rfl

/-- Something evaluated first: its value is there for what follows. -/
theorem sim_operand {n : Nat} {α : Type} {r : Res (Option (BitVec 64) × World W)} {f : BitVec 64 × World W → Res α}
    {Q : α → Config W → Prop}
    (h : Sim (machine lib fin) n (.run fr stack mem w.ext) r (ExpDone T p s u a fr mem stack))
    (hr : Ready T p s sc w fr mem) (e : Emits s is u)
    (k : ∀ i w' fr' mem', Ready T p u sc w' fr' mem' → ExpPost T p s u fr mem w' fr' mem' →
      Holds fr' u.nextReg a (.int i) → Sim (machine lib fin) n (.run fr' stack mem' w'.ext) (f (i, w')) Q) :
    Sim (machine lib fin) n (.run fr stack mem w.ext) (r >>= fun q => value q >>= f) Q := by
  refine h.bind ?_
  intro q d hpost
  obtain ⟨fr', mem', hd, post, hv⟩ := hpost
  obtain ⟨o, w'⟩ := q
  cases o with
  | none => trivial
  | some i =>
    subst hd
    exact k i w' fr' mem' (hr.post e post) post (hv i rfl)

/-- The operand of an expression. -/
theorem exp_operand {n : Nat} {r : Res (Option (BitVec 64) × World W)}
    {f : BitVec 64 × World W → Res (Option (BitVec 64) × World W)}
    (h : Sim (machine lib fin) n (.run fr stack mem w.ext) r (ExpDone T p s u a fr mem stack))
    (hr : Ready T p s sc w fr mem) (e : Emits s is u)
    (k : ∀ i w' fr' mem', Ready T p u sc w' fr' mem' → ExpPost T p s u fr mem w' fr' mem' →
      Holds fr' u.nextReg a (.int i) →
      Sim (machine lib fin) n (.run fr' stack mem' w'.ext) (f (i, w')) (ExpDone T p u t v fr' mem' stack)) :
    Sim (machine lib fin) n (.run fr stack mem w.ext) (r >>= fun q => value q >>= f) (ExpDone T p s t v fr mem stack) :=
  sim_operand h hr e fun i w' fr' mem' hr' hp hv => (k i w' fr' mem' hr' hp hv).imp fun _ _ hd => hd.after hp e.nextReg

end Running

/-! ### Names -/

section Names
variable {w : World W} {i k : BitVec 64}

theorem function?_name {f : FunctionObj} {x : String} (h : s.function? x = some f) : f.name = x := by
  simpa using List.find?_some h

theorem Gives.of_log {e : W} {ev : ScopeEvent} (g : Gives lib T p (s.log ev) t v c fr stack mem e) :
    Gives lib T p s t v c fr stack mem e := g

variable [ConstantFolder]

/-- A scalar name in scope. -/
theorem readScalar_gives {x : String} (h : getValue x none s = .ok v t) (hl : Later T t) (hr : Ready T p s sc w fr mem)
    (hk : readScalar sc x w = some k) : Gives lib T p s t v (.int k) fr stack mem w.ext := by
  have hat : At T (s.log (.read x false (s.storage? x))) p fr := ⟨hr.place.block, hr.place.code⟩
  rcases hr.scopes.lookup x with ⟨h₁, h₂⟩ | ⟨nv, cell, h₁, h₂, hc⟩
  · rcases getValue_ok h with ⟨nv, hnv, -⟩ | ⟨-, h⟩
    · exact absurd (h₁.symm.trans hnv) (by simp)
    · obtain ⟨g, hg, ⟨-, hn, -⟩ | ⟨-, -, rfl, rfl⟩ | ⟨_, _, _, hsub, -⟩⟩ := getGlobalValue_ok h
      · exact absurd hn hr.layers
      · rw [readScalar, h₂] at hk
        obtain ⟨g', hg', hty, hm⟩ := hr.world x k hk
        have hgg : s.global? x = some g := hg
        obtain rfl : g = g' := by
          have := hl.global? x g (by simpa [State.global?, State.emit, State.log] using hgg)
          exact Option.some.inj (this.symm.trans hg')
        rw [hty, global?_name hgg] at hl ⊢
        have g : Gives lib T p (s.log (.read x false (s.storage? x))) _ _ (.int k) fr stack mem w.ext :=
          .emit hat hl rfl rfl fun code => exec_load eval_global (cell?_of_cells hm (Int.le_refl 0) rfl)
        exact g.of_log
      · cases hsub
  · rw [readScalar, h₂] at hk
    rcases getValue_ok h with ⟨nv', hnv, h⟩ | ⟨hnv, -⟩
    · obtain rfl : nv = nv' := Option.some.inj (h₁.symm.trans hnv)
      cases cell with
      | array vs => cases hk
      | scalar k' =>
        cases hk
        obtain ⟨hty, b, hb, -, hm⟩ := hc
        rcases createGetValueInst_ok h with ⟨-, ⟨_, _, h⟩, -⟩ | ⟨-, -, rfl, rfl⟩ | ⟨_, _, _, hsub, -⟩
        · rw [hty] at h
          cases h
        · rw [hty] at hl ⊢
          have g : Gives lib T p (s.log (.read x false (s.storage? x))) _ _ (.int k) fr stack mem w.ext :=
            .emit hat hl rfl rfl fun code =>
              exec_load ((eval_code fr code _).trans (eval_alloca hb)) (cell?_of_cells hm (Int.le_refl 0) rfl)
          exact g.of_log
        · cases hsub
    · exact absurd (h₁.symm.trans hnv) (by simp)

/-- The address of an element of a local array. -/
theorem elementPtr_gives (lib : Library W) (stack : List Frame) (mem : Mem) (e : W) {α : AllocaInst}
    {vs : List (BitVec 64)} {b : Nat} (h : elementPtr α a s = .ok v t)
    (hl : Later T t) (hat : At T s p fr) (ha : Holds fr s.nextReg a (.int i)) (hty : α.ty = .array vs.length .i64)
    (hb : fr.slots α.slot = some b) : ∃ fr', Reaches (machine lib fin) (.run fr stack mem e) (.run fr' stack mem e) ∧
      At T t p fr' ∧ Keeps s.nextReg fr fr' ∧ fr'.eval v = some (.ptr (.stack b) i.toInt) := by
  rcases elementPtr_ok h with ⟨-, rfl, rfl⟩ | ⟨hn, -⟩
  · obtain ⟨code, hc, hat'⟩ := hat.emit hl rfl
    refine ⟨_, .single ((machine_run hc).trans ?_), hat'.setReg, .setReg (Nat.le_refl _), Function.update_self ..⟩
    have hg : ([Value.const (.int 0), a].mapM ({ fr with code := code } : Frame).eval).bind (gepOffset α.ty) =
        some i.toInt := by
      have ha' : ({ fr with code := code } : Frame).eval a = some (.int i) := (eval_code fr code a).trans ha.eval
      rw [List.mapM_cons, List.mapM_cons, ha', hty]
      simp [Frame.eval, Const.eval, gepOffset, Ty.cells]
    simp only [exec, hg]
    simp [Frame.eval, AllocaInst.value, hb]
  · exact absurd hty (hn _ _)

omit [ConstantFolder] in
theorem element_cell {vs : List (BitVec 64)} (tail : List Val) (hk : element vs i = some k) :
    0 ≤ i.toInt ∧ (vs.map Val.int ++ tail)[i.toInt.toNat]? = some (.int k) := by
  unfold element at hk
  split at hk
  · rename_i h₀
    obtain ⟨hlt, rfl⟩ := List.getElem?_eq_some_iff.mp hk
    refine ⟨h₀, ?_⟩
    rw [List.getElem?_append_left (by simpa using hlt), List.getElem?_map, hk]
    rfl
  · cases hk

/-- An element of an array in scope. -/
theorem readElement_gives {x : String} (h : getValue x (some a) s = .ok v t) (hl : Later T t)
    (hr : Ready T p s sc w fr mem) (ha : Holds fr s.nextReg a (.int i)) (hk : readElement sc x i = some k) :
    Gives lib T p s t v (.int k) fr stack mem w.ext := by
  have hat : At T (s.log (.read x true (s.storage? x))) p fr := ⟨hr.place.block, hr.place.code⟩
  rcases hr.scopes.lookup x with ⟨-, h₂⟩ | ⟨nv, cell, h₁, h₂, hc⟩
  · rw [readElement, h₂] at hk
    cases hk
  · rw [readElement, h₂] at hk
    cases cell with
    | scalar => cases hk
    | array vs =>
      obtain ⟨hty, b, hb, -, tail, hm⟩ := hc
      rcases getValue_ok h with ⟨nv', hnv, h⟩ | ⟨hnv, -⟩
      · obtain rfl : nv = nv' := Option.some.inj (h₁.symm.trans hnv)
        rcases createGetValueInst_ok h with ⟨hsub, -⟩ | ⟨hsub, -⟩ | ⟨j, q, u, hsub, hq, rfl, rfl⟩
        · cases hsub
        · cases hsub
        · cases hsub
          obtain ⟨is, e⟩ := elementPtr_emits hq
          have hlu : Later T u := by
            have hin : InBlock T u p := hat.block.emits e
            have hplain : ∀ j ∈ [Inst.load u.nextReg .i64 q], j.isAlloca = false := by simp [Inst.isAlloca]
            exact Later.append hin hplain hl.of_emit
          obtain ⟨fr', h', ha', hk', hv⟩ := elementPtr_gives lib stack mem w.ext hq hlu hat ha hty hb
          obtain ⟨h₀, hcell⟩ := element_cell tail hk
          obtain ⟨fr'', h'', ha'', hk'', hv''⟩ : Gives lib T p u (u.emit (.load · .i64 q)) (.inst u.nextReg .i64)
              (.int k) fr' stack mem w.ext := by
            exact .emit ha' hl rfl rfl fun code =>
              exec_load ((eval_code fr' code q).trans hv) (cell?_of_cells hm h₀ hcell)
          exact ⟨fr'', h'.trans h'', ha'', hk'.trans hk'' e.nextReg, hv''⟩
      · exact absurd (h₁.symm.trans hnv) (by simp)

end Names

/-! ### Expressions -/

/-- A call instruction simulates a call: it leaves the stack blocks there are alone, and puts the result, if there
    is one, into its register. -/
def CallsSim (lib : Library W) (fin : State) (n : Nat) (call : Calls W) : Prop :=
  ∀ {f : String} {fo : FunctionObj} {vs : List Value} {is : List (BitVec 64)} {r : Reg} {ty : Ty} {name : String}
    {code : List Inst} {fr : Frame} {stack : List Frame} {mem : Mem} {w : World W}, fin.function? f = some fo →
    fr.code = .call r f ty vs name :: code → vs.mapM fr.eval = some (is.map .int) → WorldMatch fin w mem →
    Sim (machine lib fin) n (.run fr stack mem w.ext) (call f is w) fun q d => ∃ mem',
      d = .run (match q.1 with
        | some i => ({ fr with code } : Frame).setReg r (.int i)
        | none => { fr with code }) stack mem' q.2.ext ∧
      MemKept mem.next mem mem' ∧ WorldMatch fin q.2 mem' ∧ (q.1 ≠ none → fo.retTy = .i64)

/-- The configuration shows the values of arguments. -/
def ArgsDone (T : Target fin) (p : Label) (s t : State) (vs : List Value) (fr : Frame) (mem : Mem) (stack : List Frame)
    (r : List (BitVec 64) × World W) (d : Config W) : Prop :=
  ∃ fr' mem', d = .run fr' stack mem' r.2.ext ∧ ExpPost T p s t fr mem r.2 fr' mem' ∧ HoldsAll fr' t.nextReg vs r.1

section Exps
variable {n : Nat} {call : Calls W} {w : World W}

theorem not_eval (i : BitVec 64) : UnaryOp.not.eval i = boolToInt (Pred.eq.eval 0 i) := congrArg boolToInt BEq.comm

theorem ne_eval (i : BitVec 64) : Pred.ne.eval 0 i = (i != 0) := bne_comm

theorem and_eval (i j : BitVec 64) : (i != 0 && j != 0) = if Pred.ne.eval 0 i then Pred.ne.eval 0 j else false := by
  rw [ne_eval, ne_eval]
  cases i != 0 <;> rfl

theorem or_eval (i j : BitVec 64) : (i != 0 || j != 0) = if Pred.ne.eval 0 i then true else Pred.ne.eval 0 j := by
  rw [ne_eval, ne_eval]
  cases i != 0 <;> rfl

theorem call_sim {f : String} {func : FunctionObj} {vs : List Value} {is : List (BitVec 64)} {name : String}
    (hcall : CallsSim lib fin n call) (hf : s.function? f = some func)
    (hl : Later T (s.emit (.call · f func.retTy vs name)))
    (hr : Ready T p s sc w fr mem) (hvs : HoldsAll fr s.nextReg vs is) :
    Sim (machine lib fin) n (.run fr stack mem w.ext) (call f is w)
      (ExpDone T p s (s.emit (.call · f func.retTy vs name)) (.inst s.nextReg func.retTy) fr mem stack) := by
  obtain ⟨code, hc, hat⟩ := hr.place.emit hl rfl
  have hl₀ : Later T s := Later.append hr.place.block (by simp [Inst.isAlloca]) hl.of_emit
  obtain ⟨g, hg, hret⟩ := hl₀.function? f func hf
  refine (hcall hg hc hvs.mapM hr.world).imp ?_
  intro q d hpost
  obtain ⟨mem', hd, hk, hw, hty⟩ := hpost
  obtain ⟨o, w'⟩ := q
  cases o with
  | none => exact ⟨_, mem', hd, ⟨hat, .code code, hk, hw⟩, fun i hi => by cases hi⟩
  | some i =>
    refine ⟨_, mem', hd, ⟨hat.setReg, .setReg (Nat.le_refl _), hk, hw⟩, fun j hj => ?_⟩
    cases hj
    exact Holds.setReg (c := .int i) (Nat.lt_succ_self _) (hret.symm.trans (hty (by simp)))

variable [ConstantFolder]

mutual

/-- The code of an expression simulates its evaluation. -/
theorem genExp_sim (hcall : CallsSim lib fin n call) : ∀ (e : Exp) {s t : State} {v : Value} {fr : Frame} {mem : Mem}
    {w : World W}, genExp e s = .ok v t → Later T t → Ready T p s sc w fr mem →
    Sim (machine lib fin) n (.run fr stack mem w.ext) (evalExp call sc e w) (ExpDone T p s t v fr mem stack)
  | .number k, s, t, v, fr, mem, w, h, hl, hr => by
    rw [genExp] at h
    obtain ⟨rfl, rfl⟩ := pure_ok.mp h
    rw [evalExp]
    exact (Gives.literal hr.place).done hr.world
  | .name x, s, t, v, fr, mem, w, h, hl, hr => by
    rw [genExp] at h
    rw [evalExp]
    exact sim_defined fun k hk => (readScalar_gives h hl hr hk).done hr.world
  | .index x e, s, t, v, fr, mem, w, h, hl, hr => by
    obtain ⟨i, u, hi, h⟩ := genExp_index_ok.mp h
    obtain ⟨is, e₁⟩ := genExp_emits e hi
    obtain ⟨js, e₂⟩ := getValue_emits h
    -- The code of the subscript stands in front of the access, and is run first.
    have hlu : Later T u := hl.emits (hr.place.block.emits e₁) e₂
    rw [evalExp]
    refine exp_operand (genExp_sim hcall e hi hlu hr) hr e₁ fun j w' fr' mem' hr' hp' hj => ?_
    exact sim_defined fun k hk => (readElement_gives h hl hr' hj hk).done hr'.world
  | .call f args, s, t, v, fr, mem, w, h, hl, hr => by
    obtain ⟨func, vs, u, hf, -, hvs, rfl, rfl⟩ := genExp_call_ok.mp h
    obtain ⟨is, e₁⟩ := genExps_emits args hvs
    have hfu : u.function? f = some func := by rw [e₁.function?]; exact hf
    rw [function?_name hf] at hl ⊢
    have hlu : Later T u := Later.append (hr.place.block.emits e₁) (by simp [Inst.isAlloca]) hl.of_emit
    rw [evalExp]
    -- The arguments are evaluated in this frame; the call starts from the state behind the last one.
    refine (genExps_sim hcall args hvs hlu hr).bind ?_
    intro q d hpost
    obtain ⟨fr', mem', hd, hp, hv⟩ := hpost
    subst hd
    exact (call_sim hcall hfu hl (hr.post e₁ hp) hv).imp fun _ _ hd => hd.after hp e₁.nextReg
  | .unary op e, s, t, v, fr, mem, w, h, hl, hr => by
    obtain ⟨x, u, hx, h⟩ := genExp_unary_ok.mp h
    obtain ⟨is, e₁⟩ := genExp_emits e hx
    have hin := hr.place.block.emits e₁
    rw [evalExp]
    cases op with
    | plus =>
      obtain ⟨rfl, rfl⟩ := h
      refine exp_operand (genExp_sim hcall e hx hl hr) hr e₁ fun j w' fr' mem' hr' hp' hj => ?_
      exact (Gives.operand hr'.place hj).done hr'.world
    | minus =>
      obtain ⟨js, e₂⟩ := createBinOp_emits h.2
      refine exp_operand (genExp_sim hcall e hx (hl.emits hin e₂) hr) hr e₁ fun j w' fr' mem' hr' hp' hj => ?_
      have hz : nullValue x.ty = .int 0 := by rw [hj.ty]; rfl
      rw [hz] at h
      have hs : BinOp.sub.eval 0 j = some (-j) := by simp [BinOp.eval]
      exact (createBinOp_gives h.2 hr'.place hl (.literal _) hj hs).done hr'.world
    | not =>
      obtain ⟨b, k, hb, h⟩ := h
      obtain ⟨js, e₂⟩ := createICmp_emits hb
      obtain ⟨ks, e₃⟩ := createIntCast_emits h
      have hlk : Later T k := hl.emits (hin.emits e₂) e₃
      refine exp_operand (genExp_sim hcall e hx (hlk.emits hin e₂) hr) hr e₁ fun j w' fr' mem' hr' hp' hj => ?_
      show Sim _ _ _ (.ok (some (UnaryOp.not.eval j), w')) _
      rw [not_eval]
      exact ((createICmp_gives hb hr'.place hlk (.literal (.int 0)) hj).cast e₂.nextReg h hl).done hr'.world
  | .arith op a b, s, t, v, fr, mem, w, h, hl, hr => by
    obtain ⟨x, u, y, k, hx, hy, h⟩ := genExp_arith_ok.mp h
    obtain ⟨is, e₁⟩ := genExp_emits a hx
    obtain ⟨js, e₂⟩ := genExp_emits b hy
    obtain ⟨ks, e₃⟩ := createBinOp_emits h
    have hin := hr.place.block.emits e₁
    have hlk : Later T k := hl.emits (hin.emits e₂) e₃
    rw [evalExp]
    refine exp_operand (genExp_sim hcall a hx (hlk.emits hin e₂) hr) hr e₁ fun i w₁ fr₁ mem₁ hr₁ hp₁ hi => ?_
    refine exp_operand (genExp_sim hcall b hy hlk hr₁) hr₁ e₂ fun j w₂ fr₂ mem₂ hr₂ hp₂ hj => ?_
    exact sim_defined fun z hz =>
      (createBinOp_gives h hr₂.place hl (hi.keep hp₂.keeps e₂.nextReg) hj hz).done hr₂.world
  | .cmp q a b, s, t, v, fr, mem, w, h, hl, hr => by
    obtain ⟨x, u, y, k, c, m, hx, hy, hc, h⟩ := genExp_cmp_ok.mp h
    obtain ⟨is, e₁⟩ := genExp_emits a hx
    obtain ⟨js, e₂⟩ := genExp_emits b hy
    obtain ⟨ks, e₃⟩ := createICmp_emits hc
    obtain ⟨ls, e₄⟩ := createIntCast_emits h
    have hin := hr.place.block.emits e₁
    have hlm : Later T m := hl.emits ((hin.emits e₂).emits e₃) e₄
    have hlk : Later T k := hlm.emits (hin.emits e₂) e₃
    rw [evalExp]
    refine exp_operand (genExp_sim hcall a hx (hlk.emits hin e₂) hr) hr e₁ fun i w₁ fr₁ mem₁ hr₁ hp₁ hi => ?_
    refine exp_operand (genExp_sim hcall b hy hlk hr₁) hr₁ e₂ fun j w₂ fr₂ mem₂ hr₂ hp₂ hj => ?_
    exact ((createICmp_gives hc hr₂.place hlm (hi.keep hp₂.keeps e₂.nextReg) hj).cast e₃.nextReg h hl).done hr₂.world
  | .land a b, s, t, v, fr, mem, w, h, hl, hr => by
    obtain ⟨lv, rv, m, c, k, ⟨x, u₁, u₂, y, u₃, hx, hlv, hy, hrv⟩, hc, h⟩ := genExp_land_ok.mp h
    obtain ⟨is, e₁⟩ := genExp_emits a hx
    obtain ⟨js, e₂⟩ := createICmp_emits hlv
    obtain ⟨ks, e₃⟩ := genExp_emits b hy
    obtain ⟨ls, e₄⟩ := createICmp_emits hrv
    obtain ⟨ms, e₅⟩ := createSelect_emits hc
    obtain ⟨ns, e₆⟩ := createIntCast_emits h
    have hin₁ := hr.place.block.emits e₁
    have hin₂ := hin₁.emits e₂
    have hin₃ := hin₂.emits e₃
    have hin₄ := hin₃.emits e₄
    -- What is in the block from each piece on, the last piece first.
    have hl₅ : Later T k := hl.emits (hin₄.emits e₅) e₆
    have hl₄ : Later T m := hl₅.emits hin₄ e₅
    have hl₃ : Later T u₃ := hl₄.emits hin₃ e₄
    have hl₂ : Later T u₂ := hl₃.emits hin₂ e₃
    rw [evalExp]
    refine exp_operand (genExp_sim hcall a hx (hl₂.emits hin₁ e₂) hr) hr e₁ fun i w₁ fr₁ mem₁ hr₁ hp₁ hi => ?_
    refine (createICmp_gives hlv hr₁.place hl₂ (.literal (.int 0)) hi).next hr₁ e₂ fun fr₂ hr₂ hk₂ hi₂ => ?_
    refine exp_operand (genExp_sim hcall b hy hl₃ hr₂) hr₂ e₃ fun j w₃ fr₃ mem₃ hr₃ hp₃ hj => ?_
    refine (createICmp_gives hrv hr₃.place hl₄ (.literal (.int 0)) hj).next hr₃ e₄ fun fr₄ hr₄ hk₄ hj₄ => ?_
    have hi₄ := (hi₂.keep hp₃.keeps e₃.nextReg).keep hk₄ e₄.nextReg
    show Sim _ _ _ (.ok (some (boolToInt (i != 0 && j != 0)), w₃)) _
    rw [and_eval]
    exact ((createSelect_gives hc hr₄.place hl₅ hi₄ hj₄ (.literal (.bool false))).cast e₅.nextReg h hl).done hr₄.world
  | .lor a b, s, t, v, fr, mem, w, h, hl, hr => by
    obtain ⟨lv, rv, m, c, k, ⟨x, u₁, u₂, y, u₃, hx, hlv, hy, hrv⟩, hc, h⟩ := genExp_lor_ok.mp h
    obtain ⟨is, e₁⟩ := genExp_emits a hx
    obtain ⟨js, e₂⟩ := createICmp_emits hlv
    obtain ⟨ks, e₃⟩ := genExp_emits b hy
    obtain ⟨ls, e₄⟩ := createICmp_emits hrv
    obtain ⟨ms, e₅⟩ := createSelect_emits hc
    obtain ⟨ns, e₆⟩ := createIntCast_emits h
    have hin₁ := hr.place.block.emits e₁
    have hin₂ := hin₁.emits e₂
    have hin₃ := hin₂.emits e₃
    have hin₄ := hin₃.emits e₄
    have hl₅ : Later T k := hl.emits (hin₄.emits e₅) e₆
    have hl₄ : Later T m := hl₅.emits hin₄ e₅
    have hl₃ : Later T u₃ := hl₄.emits hin₃ e₄
    have hl₂ : Later T u₂ := hl₃.emits hin₂ e₃
    rw [evalExp]
    refine exp_operand (genExp_sim hcall a hx (hl₂.emits hin₁ e₂) hr) hr e₁ fun i w₁ fr₁ mem₁ hr₁ hp₁ hi => ?_
    refine (createICmp_gives hlv hr₁.place hl₂ (.literal (.int 0)) hi).next hr₁ e₂ fun fr₂ hr₂ hk₂ hi₂ => ?_
    refine exp_operand (genExp_sim hcall b hy hl₃ hr₂) hr₂ e₃ fun j w₃ fr₃ mem₃ hr₃ hp₃ hj => ?_
    refine (createICmp_gives hrv hr₃.place hl₄ (.literal (.int 0)) hj).next hr₃ e₄ fun fr₄ hr₄ hk₄ hj₄ => ?_
    have hi₄ := (hi₂.keep hp₃.keeps e₃.nextReg).keep hk₄ e₄.nextReg
    show Sim _ _ _ (.ok (some (boolToInt (i != 0 || j != 0)), w₃)) _
    rw [or_eval]
    exact ((createSelect_gives hc hr₄.place hl₅ hi₄ (.literal (.bool true)) hj₄).cast e₅.nextReg h hl).done hr₄.world

theorem genExps_sim (hcall : CallsSim lib fin n call) : ∀ (es : List Exp) {s t : State} {vs : List Value} {fr : Frame}
    {mem : Mem} {w : World W}, genExps es s = .ok vs t → Later T t → Ready T p s sc w fr mem →
    Sim (machine lib fin) n (.run fr stack mem w.ext) (evalExps call sc es w) (ArgsDone T p s t vs fr mem stack)
  | [], s, t, vs, fr, mem, w, h, hl, hr => by
    obtain ⟨rfl, rfl⟩ := genExps_nil_ok.mp h
    rw [evalExps]
    exact .pure ⟨fr, mem, rfl, ⟨hr.place, .refl fr, .refl mem, hr.world⟩, .nil⟩
  | e :: es, s, t, vs, fr, mem, w, h, hl, hr => by
    obtain ⟨x, u, xs, hx, hxs, rfl⟩ := genExps_cons_ok.mp h
    obtain ⟨is, e₁⟩ := genExp_emits e hx
    obtain ⟨js, e₂⟩ := genExps_emits es hxs
    have hin := hr.place.block.emits e₁
    rw [evalExps]
    refine sim_operand (genExp_sim hcall e hx (hl.emits hin e₂) hr) hr e₁ fun i w₁ fr₁ mem₁ hr₁ hp₁ hi => ?_
    refine (genExps_sim hcall es hxs hl hr₁).bind ?_
    intro q d hpost
    obtain ⟨fr₂, mem₂, hd, hp₂, hv⟩ := hpost
    exact .pure ⟨fr₂, mem₂, hd, hp₁.trans hp₂ e₁.nextReg, .cons (hi.keep hp₂.keeps e₂.nextReg) hv⟩

end

end Exps

end L24
