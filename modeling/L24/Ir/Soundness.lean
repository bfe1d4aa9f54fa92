import L24.Ir.Typing

/-! Runs of well-typed modules: a step keeps the types of all values, and where there is no step, the next operation
    has no meaning for the values that it gets. -/

namespace Ir

section Operands
variable {M : Module} {fr fr' : Frame} {outer : List Frame} {mem : Mem} {i : Inst} {rest : List Inst} {v x : Val}
  {a : Value} {ty : Ty} {r : Reg} {k : Slot} {n : Nat}

/-! ### Values of operands -/

theorem Const.ty_of_ptr {c : Const} {b : Blk} {o : Int} (h : c.eval = .ptr b o) : c.ty = .ptr := by
  cases c with
  | global => rfl
  | gep => rfl
  | zero ty => cases ty <;> cases h
  | _ => cases h

theorem Frame.Fits.has (h : fr.Fits outer) (ha : (fr.func.tables M).Has a ty) (hx : fr.eval a = some x) :
    x.HasTy ty ∧ x.Refers (fr :: outer) := by
  cases a with
  | const c =>
    obtain ⟨rfl, hp, hc⟩ := ha
    cases hx
    exact ⟨hc, refers_of_not_ptr fun b o he => hp (Const.ty_of_ptr he)⟩
  | inst r ty' => exact ⟨(h.regs r x hx).1 ty ha.2, h.refers x (.inr ⟨r, hx⟩)⟩
  | arg => cases ha
  | alloca => cases ha

theorem Frame.Fits.passes (h : fr.Fits outer) (ha : (fr.func.tables M).Passes a ty) (hx : fr.eval a = some x) :
    x.HasTy ty ∧ x.First ∧ x.Refers (fr :: outer) := by
  obtain ⟨hty, href⟩ := h.has ha.1 hx
  rcases ha.2 with rfl | ⟨rfl, r, rfl, hw⟩
  · exact ⟨hty, hty.first, href⟩
  · exact ⟨hty, (h.regs r x hx).2 hw, href⟩

theorem Frame.Fits.passAll (h : fr.Fits outer) {args : List Value} {params : List Ty} {vs : List Val}
    (ha : List.Forall₂ (fr.func.tables M).Passes args params) (hvs : args.mapM fr.eval = some vs) :
    List.Forall₂ (fun v ty => v.HasTy ty ∧ v.First) vs params ∧ ∀ v ∈ vs, v.Refers (fr :: outer) := by
  induction ha generalizing vs with
  | nil =>
    cases hvs
    exact ⟨.nil, fun v hv => by cases hv⟩
  | cons hp _ ih =>
    rw [List.mapM_cons] at hvs
    obtain ⟨x, hx, hvs⟩ := Option.bind_eq_some_iff.mp hvs
    obtain ⟨xs, hxs, hvs⟩ := Option.bind_eq_some_iff.mp hvs
    cases hvs
    obtain ⟨hty, hfirst, href⟩ := h.passes hp hx
    obtain ⟨htys, hrefs⟩ := ih hxs
    exact ⟨.cons ⟨hty, hfirst⟩ htys, List.forall_mem_cons.mpr ⟨href, hrefs⟩⟩

/-- The argument for a parameter. -/
theorem Frame.Fits.arg (h : fr.Fits outer) (hn : fr.func.params[n]? = some ty) :
    ∃ v, fr.args[n]? = some v ∧ v.HasTy ty ∧ v.First := by
  obtain ⟨hlt, rfl⟩ := List.getElem?_eq_some_iff.mp hn
  have hlen := h.args.length_eq
  refine ⟨fr.args[n], List.getElem?_eq_getElem (hlen ▸ hlt), ?_⟩
  exact h.args.get (hlen ▸ hlt) hlt

/-- What an address in a register points to. -/
theorem MemFits.target (hm : MemFits (fr :: outer) mem) {b : Blk} {o : Int}
    (hx : x.Refers (fr :: outer)) (he : x = .ptr b o) : ∀ v ∈ mem.cells b, v.HasTy .i64 := by
  rcases hx b o he with ⟨y, rfl⟩ | ⟨n, rfl, f, hf, k, m, elt, ha, hk⟩
  · exact hm.globals y
  · exact hm.slots f hf k _ n ha hk

/-! ### The stack -/

theorem StackFits.top (h : StackFits (fr :: outer)) (hf : fr'.Fits outer) (hd : fr'.dest = fr.dest) :
    StackFits (fr' :: outer) := by
  obtain ⟨-, hawait, hrest⟩ := h
  exact ⟨hf, hd ▸ hawait, hrest⟩

theorem MemFits.top (h : MemFits (fr :: outer) mem) (hf : fr'.func = fr.func) (hs : fr'.slots = fr.slots)
    (ha : fr'.args = fr.args) : MemFits (fr' :: outer) mem := by
  refine ⟨h.globals, List.forall_mem_cons.mpr
    ⟨fun k ty n hk hn => ?_, fun f hm => h.slots f (List.mem_cons_of_mem _ hm)⟩⟩
  have := h.slots fr List.mem_cons_self k ty n (hf ▸ hk) (hs ▸ hn)
  cases ty <;> simpa [Frame.Stores, hf, ha] using this

theorem MemFits.pop (h : MemFits (fr :: outer) mem) : MemFits outer mem :=
  ⟨h.globals, fun f hm => h.slots f (List.mem_cons_of_mem _ hm)⟩

theorem MemFits.enter (h : MemFits outer mem) {f : Function} {args : List Val} {code : List Inst} :
    MemFits (Frame.enter f args code r :: outer) mem :=
  ⟨h.globals, List.forall_mem_cons.mpr ⟨fun _ _ _ _ hn => (by cases hn), h.slots⟩⟩

/-- The activation goes on behind an instruction, which may have put a value into its register. -/
theorem Frame.Fits.next (h : fr.Fits outer) (hF : fr.func.Typed M) (hcode : fr.code = i :: rest)
    (hi : i.isPlain = true) {regs : Reg → Option Val}
    (hold : ∀ r v, regs r = some v → fr.regs r = some v ∨ i.reg? = some r ∧ v.Refers (fr :: outer) ∧
      (∀ ty, fr.func.Defines r ty → v.HasTy ty) ∧ (fr.func.DefinesWhole r → v.First))
    (hkeep : ∀ r, (fr.regs r).isSome → (regs r).isSome)
    (hnew : ∀ r, i.reg? = some r → i.callee? = none → (regs r).isSome) :
    Frame.Fits outer { fr with code := rest, regs } where
  args := h.args
  passed := h.passed
  refers := by
    rintro v (hv | ⟨r, hr⟩)
    · exact (h.refers v (.inl hv)).top rfl fun _ _ => id
    · rcases hold r v hr with hr | ⟨-, href, -⟩
      · exact (h.refers v (.inr ⟨r, hr⟩)).top rfl fun _ _ => id
      · exact href.top rfl fun _ _ => id
  regs := by
    intro r v hr
    rcases hold r v hr with hr | ⟨-, -, hty⟩
    · exact h.regs r v hr
    · exact hty
  orderly := by
    have ha : Advances fr { fr with code := rest, regs } := .next hcode (isAlloca_of_isPlain hi) rfl rfl rfl
    exact (hF.frame.advances h.orderly ha).1
  done := by
    obtain ⟨b, hb, is, hbs, hdone⟩ := h.done
    refine ⟨b, hb, is ++ [i], by simpa [hcode] using hbs, List.forall_mem_append.mpr ⟨fun j hj r hr hc => ?_, ?_⟩⟩
    · exact hkeep r (hdone j hj r hr hc)
    · exact List.forall_mem_singleton.mpr hnew
  ends := by
    obtain ⟨j, hj, hterm⟩ := h.ends
    rw [hcode] at hj
    rcases List.mem_cons.mp hj with rfl | hj
    · rw [Inst.isPlain, hterm] at hi
      cases hi
    · exact ⟨j, hj, hterm⟩
  slots := by
    intro k ty hk
    refine (h.slots k ty hk).imp_right fun hc => ?_
    obtain ⟨count, hc⟩ := hc
    rw [hcode] at hc
    rcases List.mem_cons.mp hc with rfl | hc
    · cases hi
    · exact ⟨count, hc⟩

/-- The instruction that an activation executes next. -/
theorem Frame.Fits.mem_block (h : fr.Fits outer) (hcode : fr.code = i :: rest) : ∃ b ∈ fr.func.blocks, i ∈ b.2 := by
  obtain ⟨b, hb, is, hbs, -⟩ := h.done
  refine ⟨b, hb, ?_⟩
  rw [hbs, hcode]
  exact List.mem_append_right _ List.mem_cons_self

theorem Frame.Fits.setReg (h : fr.Fits outer) (hF : fr.func.Typed M) (hcode : fr.code = i :: rest)
    (hi : i.isPlain = true) (hr : i.reg? = some r) (href : v.Refers (fr :: outer))
    (hty : ∀ ty, i.result? = some (r, ty) → v.HasTy ty) (hw : i.isWhole = true → v.First) :
    Frame.Fits outer (Frame.setReg { fr with code := rest } r v) := by
  obtain ⟨b, hb, hm⟩ := h.mem_block hcode
  refine h.next hF hcode hi (fun j y hj => ?_) (fun j hj => ?_) fun j hj _ => ?_
  · by_cases hjr : j = r
    · subst hjr
      have hself : Function.update fr.regs j (some v) j = some v := Function.update_self ..
      obtain rfl := Option.some.inj (hself.symm.trans hj)
      exact .inr ⟨hr, href, fun ty hd => hty ty (hF.dominated.reg hb hm hr hd),
        fun hd => hw (hF.dominated.whole hb hm hr hd)⟩
    · exact .inl ((Function.update_of_ne hjr ..).symm.trans hj)
  · by_cases hjr : j = r
    · subst hjr
      rw [Function.update_self]
      rfl
    · rw [Function.update_of_ne hjr]
      exact hj
  · obtain rfl := Option.some.inj (hr.symm.trans hj)
    rw [Function.update_self]
    rfl

theorem Frame.Fits.skip (h : fr.Fits outer) (hF : fr.func.Typed M) (hcode : fr.code = i :: rest)
    (hi : i.isPlain = true) (hr : i.reg? = none ∨ i.callee? ≠ none) : Frame.Fits outer { fr with code := rest } := by
  refine h.next hF hcode hi (fun _ _ => .inl) (fun _ => id) fun r hr' hc => ?_
  rcases hr with hr | hr
  · rw [hr] at hr'
    cases hr'
  · exact absurd hc hr

/-- A branch. -/
theorem Frame.Fits.jump (h : fr.Fits outer) (hF : fr.func.Typed M) (hcode : fr.code = i :: rest) {l : Label}
    {code : List Inst} (hl : l ∈ i.targets) (hb : fr.func.block? l = some code) :
    Frame.Fits outer { fr with code } where
  args := h.args
  passed := h.passed
  refers v hv := (h.refers v hv).top rfl fun _ _ => id
  regs := h.regs
  orderly := by
    have ha : Advances fr { fr with code } := .jump hcode hl hb
    exact (hF.frame.advances h.orderly ha).1
  done := ⟨(l, code), mem_of_block? hb, [], rfl, by simp⟩
  ends := hF.ends _ (mem_of_block? hb)
  slots := by
    intro k ty hk
    refine .inl ((h.slots k ty hk).resolve_right ?_)
    rintro ⟨count, hm⟩
    obtain ⟨b, hb, is, hbs, -⟩ := h.done
    rw [hcode] at hm hbs
    have hi : i.isAlloca = false := by cases i <;> first | rfl | cases hl
    rcases List.mem_cons.mp hm with rfl | hm
    · cases hl
    · cases hF.frame.behind hb hbs hi _ hm

/-- An alloca. -/
theorem Frame.Fits.alloca (h : fr.Fits outer) (hF : fr.func.Typed M) {count : Option Value}
    (hcode : fr.code = .alloca k ty count :: rest) (n : Nat) :
    Frame.Fits outer (Frame.setSlot { fr with code := rest } k n) := by
  have ha : Advances fr (Frame.setSlot { fr with code := rest } k n) := .alloca n hcode
  obtain ⟨horder, hkeep⟩ := hF.frame.advances h.orderly ha
  have hself : (Frame.setSlot { fr with code := rest } k n).slots k = some n := Function.update_self ..
  refine ⟨h.args, h.passed, fun v hv => (h.refers v hv).top rfl hkeep, h.regs, horder, ?_, ?_, fun j ty' hj => ?_⟩
  · obtain ⟨b, hb, is, hbs, hdone⟩ := h.done
    refine ⟨b, hb, is ++
      [.alloca k ty count], by simpa [hcode, Frame.setSlot] using hbs, List.forall_mem_append.mpr ⟨hdone, ?_⟩⟩
    exact List.forall_mem_singleton.mpr fun r hr => by cases hr
  · obtain ⟨j, hj, hterm⟩ := h.ends
    rw [hcode] at hj
    rcases List.mem_cons.mp hj with rfl | hj
    · cases hterm
    · exact ⟨j, hj, hterm⟩
  · rcases h.slots j ty' hj with hs | ⟨count', hm⟩
    · obtain ⟨m, hm⟩ := Option.isSome_iff_exists.mp hs
      exact .inl (Option.isSome_iff_exists.mpr ⟨m, hkeep j m hm⟩)
    · rw [hcode] at hm
      rcases List.mem_cons.mp hm with he | hm
      · cases he
        exact .inl (Option.isSome_iff_exists.mpr ⟨n, hself⟩)
      · exact .inr ⟨count', hm⟩

/-- A call of a function with blocks. -/
theorem Frame.Fits.enter {f : Function} {args : List Val} {b : Label × List Inst} (hF : f.Typed M)
    (hb : f.blocks.head? = some b) (ha : List.Forall₂ (fun v ty => v.HasTy ty ∧ v.First) args f.params)
    (href : ∀ v ∈ args, v.Refers outer) (r : Reg) : (Frame.enter f args b.2 r).Fits outer where
  args := ha
  passed := href
  refers := by
    rintro v (hv | ⟨j, hj⟩)
    · exact (href v hv).outer
    · cases hj
  regs r v hr := by cases hr
  orderly := ⟨rfl, ⟨b, List.mem_of_head? hb, [], rfl, .inr ⟨hb, fun _ _ hk => by cases hk⟩⟩, fun _ _ hk => by cases hk⟩
  done := ⟨b, List.mem_of_head? hb, [], rfl, by simp⟩
  ends := hF.ends b (List.mem_of_head? hb)
  slots := by
    rintro k ty ⟨b', hb', count, hm⟩
    refine .inr ⟨count, ?_⟩
    -- only the entry block has allocas
    cases hbs : f.blocks with
    | nil =>
      rw [hbs] at hb
      cases hb
    | cons e bs =>
      have hb' : b' ∈ f.blocks := hb'
      rw [hbs] at hb hb'
      cases hb
      rcases List.mem_cons.mp hb' with rfl | hb'
      · exact hm
      · cases hF.frame.others b' (by rwa [hbs]) _ hm

/-! ### Memory -/

theorem Frame.Stores.put {vs vs' : List Val} (h : fr.Stores k vs ty) (hx : fr.Stores k [x] ty)
    (hv : ∀ v ∈ vs', v = x ∨ v ∈ vs) (hl : vs'.length = vs.length) : fr.Stores k vs' ty := by
  have hne : vs ≠ [] → vs' ≠ [] := fun hne he => hne (List.length_eq_zero_iff.mp (by rw [← hl, he]; rfl))
  cases ty with
  | i64 => exact ⟨hne h.1, fun v hm => (hv v hm).elim (fun he => he ▸ hx.2 x List.mem_cons_self) (h.2 v)⟩
  | ptr => exact ⟨hne h.1, fun v hm => (hv v hm).elim (fun he => he ▸ hx.2 x List.mem_cons_self) (h.2 v)⟩
  | _ => exact fun v hm => (hv v hm).elim (fun he => he ▸ hx x List.mem_cons_self) (h v)

theorem MemFits.store {frames : List Frame} (h : MemFits frames mem) {b : Blk} {o : Int} {mem' : Mem}
    (hm : mem.store b o x = some mem') (hg : ∀ y, b = .global y → x.HasTy .i64)
    (hs : ∀ f ∈ frames, ∀ k ty n, f.func.Allocates k ty → f.slots k = some n → b = .stack n → f.Stores k [x] ty) :
    MemFits frames mem' := by
  have hlen : ∀ b', (mem'.cells b').length = (mem.cells b').length := by
    unfold Mem.store at hm
    split at hm
    · cases hm
      exact fun b' => Mem.put_length
    · cases hm
  refine ⟨fun y v hv => ?_, fun f hf k ty n hk hn => ?_⟩
  · by_cases hb : b = .global y
    · rcases store_cells hm hv with rfl | hv
      · exact hg y hb
      · exact h.globals y v hv
    · exact h.globals y v (store_of_ne hm (Ne.symm hb) ▸ hv)
  · by_cases hb : b = .stack n
    · exact (h.slots f hf k ty n hk hn).put (hs f hf k ty n hk hn hb) (fun v hv => store_cells hm hv) (hlen _)
    · rw [store_of_ne hm (Ne.symm hb)]
      exact h.slots f hf k ty n hk hn

theorem MemFits.alloc (h : MemFits (fr :: outer) mem) (hs : Secluded (fr :: outer) mem) (hk : fr.func.slots.Nodup)
    (ha : fr.func.Allocates k ty) (hn : ty = .i64 ∨ ty = .ptr → n ≠ 0) :
    MemFits (fr.setSlot k mem.next :: outer) (mem.alloc n) := by
  have hold : ∀ f ∈ fr :: outer, ∀ j m, f.slots j = some m → (mem.alloc n).cells (.stack m) = mem.cells (.stack m) := by
    intro f hf j m hj
    refine Mem.alloc_cells_of_ne ?_
    rintro ⟨⟩
    exact Nat.lt_irrefl _ (hs.made f hf j _ hj)
  have hglobal : ∀ y, (mem.alloc n).cells (.global y) = mem.cells (.global y) :=
    fun y => Mem.alloc_cells_of_ne (by simp)
  refine ⟨fun y v hv => h.globals y v (hglobal y ▸ hv), List.forall_mem_cons.mpr ⟨?_, ?_⟩⟩
  · intro j ty' m hj hm
    by_cases hjk : j = k
    · subst hjk
      have hself : (fr.setSlot j mem.next).slots j = some mem.next := Function.update_self ..
      obtain rfl := Option.some.inj (hself.symm.trans hm)
      obtain rfl := ha.unique hj hk
      have hv : ∀ v ∈ List.replicate n Val.undef, v = .undef := fun v => List.eq_of_mem_replicate
      rw [Mem.alloc_cells_self]
      cases ty with
      | i64 => exact ⟨by simpa using hn (.inl rfl), fun v hm => .inl (hv v hm)⟩
      | ptr => exact ⟨by simpa using hn (.inr rfl), fun v hm => .inl (hv v hm)⟩
      | _ => exact fun v hm => .inl (hv v hm)
    · have hm : fr.slots j = some m := (Function.update_of_ne hjk ..).symm.trans hm
      rw [hold fr List.mem_cons_self j m hm]
      exact h.slots fr List.mem_cons_self j ty' m hj hm
  · intro f hf j ty' m hj hm
    rw [hold f (List.mem_cons_of_mem _ hf) j m hm]
    exact h.slots f (List.mem_cons_of_mem _ hf) j ty' m hj hm

end Operands

/-! ### Steps -/

section Steps
variable {W : Type} {M : Module} {ext : Ext W} {fr : Frame} {outer : List Frame} {mem mem' : Mem} {w : W} {i : Inst}
  {rest : List Inst} {c d : Config W} {v x : Val} {p : Value} {b : Blk} {o : Int} {r : Reg} {ty : Ty}

theorem eval_code (fr : Frame) (code : List Inst) (a : Value) : ({ fr with code } : Frame).eval a = fr.eval a := by
  cases a <;> rfl

/-- A load gives a value of its type. -/
theorem load_hasTy (h : mem.load ty b o = some v) : v.HasTy ty := by
  unfold Mem.load at h
  cases hc : mem.cell? b o with
  | none => cases ty <;> simp [hc] at h
  | some y =>
    rw [hc] at h
    cases ty with
    | array | void | i0 => trivial
    | i1 => cases h
    | i64 =>
      cases y with
      | int i => exact .inr ⟨i, (Option.some.inj h).symm⟩
      | undef => exact .inl (Option.some.inj h).symm
      | _ => cases h
    | ptr =>
      cases y with
      | ptr b' o' => exact .inr ⟨b', o', (Option.some.inj h).symm⟩
      | undef => exact .inl (Option.some.inj h).symm
      | _ => cases h

theorem load_array {n : Nat} {elt : Ty} (h : mem.load (.array n elt) b o = some v) : v = .agg (.array n elt) := by
  unfold Mem.load at h
  cases hc : mem.cell? b o with
  | none => simp [hc] at h
  | some y =>
    rw [hc] at h
    exact (Option.some.inj h).symm

theorem load_ptr (h : mem.load .ptr b o = some v) : v ∈ mem.cells b := by
  rcases load_cases h with hc | ⟨n, elt, rfl⟩
  · exact cell?_mem hc
  · rcases load_hasTy h with hv | ⟨_, _, hv⟩ <;> cases hv

/-- What a pointer variable holds, once it holds anything, is the argument that it is for. -/
theorem Frame.Fits.spilled (h : fr.Fits outer) (hF : fr.func.Typed M) {k : Slot} (hk : fr.func.Allocates k .ptr)
    {vs : List Val} (hvs : fr.Stores k vs .ptr) (hv : v ∈ vs) : v = .undef ∨
      ∃ n, fr.func.Spills n k ∧ fr.args[n]? = some v ∧ v.HasTy .ptr ∧ v.Refers outer ∧ v.First := by
  refine (hvs.2 v hv).imp_right fun hn => ?_
  obtain ⟨n, hspill, ha⟩ := hn
  have hparam : fr.func.params[n]? = some .ptr := by
    obtain ⟨b, hb, ty, hs⟩ := hspill
    cases hF.insts b hb _ hs with
    | spill hs hty hn => rwa [hs.unique hk hF.frame.distinct] at hn
    | storeVar hs hv => cases hv
    | storeElement hv hp => cases hv
  obtain ⟨v', hv', hty, hfirst⟩ := h.arg hparam
  obtain rfl := Option.some.inj (ha.symm.trans hv')
  exact ⟨n, hspill, ha, hty, h.passed v (List.mem_of_getElem? ha), hfirst⟩

theorem Frame.Fits.variable (h : fr.Fits outer) (hF : fr.func.Typed M) {k : Slot} (hk : fr.func.Allocates k .ptr)
    {vs : List Val} (hvs : fr.Stores k vs .ptr) (hv : v ∈ vs) : v.HasTy .ptr ∧ v.Refers (fr :: outer) ∧ v.First := by
  rcases h.spilled hF hk hvs hv with rfl | ⟨n, -, -, hty, href, hfirst⟩
  · exact ⟨hasTy_undef, refers_of_not_ptr (by simp), .undef⟩
  · exact ⟨hty, href.outer, hfirst⟩

/-- What a load gives. -/
theorem Frame.Fits.load (h : fr.Fits outer) (hF : fr.func.Typed M) (hm : MemFits (fr :: outer) mem)
    (ht : (Inst.load r ty p).Typed (fr.func.tables M)) (hp : fr.eval p = some (.ptr b o))
    (hv : mem.load ty b o = some v) :
    v.Refers (fr :: outer) ∧ (ty = .ptr → v.First) := by
  have hint : ty = .i64 → v.Refers (fr :: outer) ∧ (ty = .ptr → v.First) := by
    rintro rfl
    have hty := load_hasTy hv
    exact ⟨hty.refers, fun _ => hty.first⟩
  cases ht with
  | loadVar hs hty =>
    rcases hty with rfl | rfl
    · exact hint rfl
    · obtain ⟨n, hn, he⟩ := Option.map_eq_some_iff.mp hp
      cases he
      obtain ⟨-, href, hfirst⟩ := h.variable hF hs (hm.slots fr List.mem_cons_self _ .ptr n hs hn) (load_ptr hv)
      exact ⟨href, fun _ => hfirst⟩
  | loadGlobal hty =>
    rcases hty with rfl | ⟨n, elt, rfl⟩
    · exact hint rfl
    · refine ⟨?_, fun h => by cases h⟩
      obtain rfl := load_array hv
      exact refers_of_not_ptr fun _ _ he => by cases he
  | loadElement hp => exact hint rfl

/-- Memory behind a store. -/
theorem Frame.Fits.store (h : fr.Fits outer) (hd : ∀ f ∈ fr :: outer, f.func.slots.Nodup)
    (hs : Secluded (fr :: outer) mem) (hm : MemFits (fr :: outer) mem) {a : Value}
    (ht : (Inst.store a p).Typed (fr.func.tables M)) (hx : fr.eval a = some x) (hp : fr.eval p = some (.ptr b o))
    (hmem : mem.store b o x = some mem') : MemFits (fr :: outer) mem' := by
  -- the block of an own variable has no other owner
  have hown : ∀ {k ty n}, fr.func.Allocates k ty → fr.slots k = some n → fr.Stores k [x] ty → b = .stack n →
      ∀ f ∈ fr :: outer, ∀ k' ty' n', f.func.Allocates k' ty' → f.slots k' = some n' → b = .stack n' →
        f.Stores k' [x] ty' := by
    rintro k ty n hk hn hst rfl f hf k' ty' n' hk' hn' he
    cases he
    obtain ⟨j, hj⟩ := List.mem_iff_getElem?.mp hf
    obtain ⟨hj0, rfl⟩ := hs.owner (i := 0) (by rfl) hj hn hn'
    subst hj0
    cases hj
    exact hk.unique hk' (hd fr List.mem_cons_self) ▸ hst
  cases ht with
  | storeVar hk hv =>
    obtain ⟨n, hn, he⟩ := Option.map_eq_some_iff.mp hp
    cases he
    obtain ⟨hty, -⟩ := h.has hv hx
    refine hm.store hmem (fun y he => by cases he) (hown hk hn ⟨by simp, by simpa using hty⟩ rfl)
  | @spill j k ty hk hty hn' hj =>
    obtain ⟨n, hn, he⟩ := Option.map_eq_some_iff.mp hp
    cases he
    obtain ⟨v, hv, hvty, -⟩ := h.arg hn'
    obtain rfl : v = x := Option.some.inj (hv.symm.trans hx)
    refine hm.store hmem (fun y he => by cases he) (hown hk hn ?_ rfl)
    rcases hty with rfl | rfl
    · exact ⟨by simp, by simpa using hvty⟩
    · exact ⟨by simp, by simpa using Or.inr ⟨j, hj, hv⟩⟩
  | storeGlobal hv =>
    cases hp
    obtain ⟨hty, -⟩ := h.has hv hx
    exact hm.store hmem (fun _ _ => hty) fun f hf k ty n hk hn he => by cases he
  | storeElement hv hp' =>
    obtain ⟨hty, -⟩ := h.has hv hx
    obtain ⟨-, href⟩ := h.has hp' hp
    refine hm.store hmem (fun _ _ => hty) fun f hf k ty n hk hn he => ?_
    subst he
    rcases href _ _ rfl with ⟨y, hy⟩ | ⟨m, hm', g, hg, k', l, elt, hk', hn'⟩
    · cases hy
    · cases hm'
      -- the address is one in an array, so that this is the variable
      obtain ⟨i, hi⟩ := List.mem_iff_getElem?.mp hf
      obtain ⟨j, hj⟩ := List.mem_iff_getElem?.mp hg
      obtain ⟨rfl, rfl⟩ := hs.owner hi hj hn hn'
      obtain rfl := Option.some.inj (hi.symm.trans hj)
      obtain rfl := hk.unique hk' (hd f hf)
      exact fun v hv => List.mem_singleton.mp hv ▸ hty

/-- What the instructions compute is of their types. -/
theorem Frame.Fits.gep (h : fr.Fits outer) {ty' : Ty} {idx : List Value} {vs : List Val} {δ : Int}
    (ht : (Inst.gep r ty' p idx).Typed (fr.func.tables M)) (hp : fr.eval p = some (.ptr b o))
    (hi : idx.mapM fr.eval = some vs) (hd : gepOffset ty' vs = some δ) :
    (Val.ptr b (o + δ)).Refers (fr :: outer) ∧ ((Inst.gep r ty' p idx).isWhole = true → (Val.ptr b (o + δ)).First) := by
  cases ht with
  | @gepArray _ k n i hs hi' =>
    obtain ⟨m, hm, he⟩ := Option.map_eq_some_iff.mp hp
    cases he
    refine ⟨fun b' o' he => ?_, fun hw b' o' he => ?_⟩
    · cases he
      exact .inr ⟨m, rfl, fr, List.mem_cons_self, k, n, .i64, hs, hm⟩
    · cases he
      cases i with
      | const j =>
        have hj : j = .int 0 := by simpa [Inst.isWhole] using hw
        subst hj
        cases hi
        cases hd
        simp
      | _ => cases hw
  | gepPtr hpass hi' =>
    obtain ⟨-, -, href⟩ := h.passes hpass hp
    refine ⟨fun b' o' he => ?_, fun hw => by simp [Inst.isWhole] at hw⟩
    cases he
    exact href b o rfl

theorem Frame.Fits.select (h : fr.Fits outer) {c a q : Value} (ht : (Inst.select r c a q).Typed (fr.func.tables M))
    (hv : fr.eval a = some v ∨ fr.eval q = some v) : v.HasTy .i1 := by
  cases ht with
  | select hc ha hb => exact hv.elim (fun hv => (h.has ha hv).1) fun hv => (h.has hb hv).1

/-- The result of a call, if it has one. -/
theorem Frame.Fits.result (h : fr.Fits outer) (hF : fr.func.Typed M) {f name : String} {args : List Value}
    (hcode : fr.code = .call r f ty args name :: rest) (ht : (Inst.call r f ty args name).Typed (fr.func.tables M))
    {res : Option Val} (hres : ∀ v, res = some v → v.HasTy .i64) :
    Frame.Fits outer (({ fr with code := rest } : Frame).setResult r res) := by
  cases res with
  | none => exact h.skip hF hcode rfl (.inr (by simp [Inst.callee?]))
  | some v =>
    have hv := hres v rfl
    refine h.setReg hF hcode rfl rfl hv.refers (fun ty' hr => ?_) fun hw => by cases hw
    cases ht with
    | call hf hty ha =>
      rcases hty with rfl | rfl
      · cases hr
        exact hv
      · cases hr

/-- The caller of a function that ends. -/
theorem StackFits.leave {caller : Frame} (h : StackFits (fr :: caller :: outer)) (hv : v.HasTy .i64) :
    StackFits (caller.setReg fr.dest v :: outer) := by
  obtain ⟨-, hawait, hf, hrest⟩ := h
  obtain ⟨hint, hwhole⟩ := hawait caller rfl
  have hreg : ∀ j y, (caller.setReg fr.dest v).regs j = some y → caller.regs j = some y ∨ j = fr.dest ∧ y = v := by
    intro j y hj
    by_cases hjr : j = fr.dest
    · subst hjr
      have hself : (caller.setReg fr.dest v).regs fr.dest = some v := Function.update_self ..
      exact .inr ⟨rfl, Option.some.inj (hj.symm.trans hself)⟩
    · exact .inl ((Function.update_of_ne hjr ..).symm.trans hj)
  refine ⟨⟨hf.args, hf.passed, ?_, ?_, ⟨rfl, hf.orderly.code, hf.orderly.slots⟩, ?_, hf.ends, hf.slots⟩, hrest⟩
  · rintro y (hy | ⟨j, hj⟩)
    · exact (hf.refers y (.inl hy)).top rfl fun _ _ => id
    · rcases hreg j y hj with hj | ⟨-, rfl⟩
      · exact (hf.refers y (.inr ⟨j, hj⟩)).top rfl fun _ _ => id
      · exact hv.refers
  · intro j y hj
    rcases hreg j y hj with hj | ⟨rfl, rfl⟩
    · exact hf.regs j y hj
    · exact ⟨fun ty hd => hint ty hd ▸ hv, fun hd => absurd hd hwhole⟩
  · obtain ⟨b, hb, is, hbs, hdone⟩ := hf.done
    refine ⟨b, hb, is, hbs, fun i hi j hj hc => ?_⟩
    by_cases hjr : j = fr.dest
    · subst hjr
      have hself : (caller.setReg fr.dest v).regs fr.dest = some v := Function.update_self ..
      rw [hself]
      rfl
    · have hother : (caller.setReg fr.dest v).regs j = caller.regs j := Function.update_of_ne hjr ..
      rw [hother]
      exact hdone i hi j hj hc

theorem StackFits.frame : ∀ {frames : List Frame}, StackFits frames → ∀ fr ∈ frames, ∃ outer, fr :: outer <:+ frames ∧
    fr.Fits outer
  | [], _, fr, h => by cases h
  | f :: outer, hs, fr, h => by
    rcases List.mem_cons.mp h with rfl | h
    · exact ⟨outer, List.suffix_refl _, hs.1⟩
    · obtain ⟨o, ho, hf⟩ := hs.2.2.frame fr h
      exact ⟨o, ho.trans (List.suffix_cons _ _), hf⟩

theorem Effect.fits (he : Effect M ext { fr with code := rest } outer mem w i d) (hM : M.Typed) (hext : ext.Plain)
    (hc : Config.Fits M (.run fr outer mem w)) (hcode : fr.code = i :: rest) :
    StackFits d.frames ∧ MemFits d.frames d.mem := by
  have hfuncs : ∀ f ∈ fr :: outer, f.func.Typed M := fun f hf =>
    hM f.func (hc.secured.inside f.point (List.mem_map_of_mem hf)).func
  have hF := hfuncs fr List.mem_cons_self
  have hs : Secluded (fr :: outer) mem := hc.secured.secluded
  have hm : MemFits (fr :: outer) mem := hc.mem
  have hst : StackFits (fr :: outer) := hc.stack
  have hf := hst.1
  obtain ⟨b, hb, hi⟩ := hf.mem_block hcode
  have ht : i.Typed (fr.func.tables M) := hF.insts b hb i hi
  -- the values of the operands do not depend on the code behind
  have heval : ∀ a, ({ fr with code := rest } : Frame).eval a = fr.eval a := eval_code fr rest
  have hevals : ∀ args : List Value, args.mapM ({ fr with code := rest } : Frame).eval = args.mapM fr.eval :=
    fun args =>
    congrArg (fun g => args.mapM g) (funext heval)
  have hset : ∀ {r v}, i.isPlain = true → i.reg? = some r → v.Refers (fr :: outer) →
      (∀ ty, i.result? = some (r, ty) → v.HasTy ty) → (i.isWhole = true → v.First) →
      StackFits (Frame.setReg { fr with code := rest } r v :: outer) ∧
        MemFits (Frame.setReg { fr with code := rest } r v :: outer) mem := fun hp hr href hty hw =>
    ⟨hst.top (hf.setReg hF hcode hp hr href hty hw) rfl, hm.top rfl rfl rfl⟩
  cases he with
  | @alloca k ty count n hn =>
    have hk : fr.func.Allocates k ty := ⟨b, hb, count, hi⟩
    refine ⟨hst.top (hf.alloca hF hcode _) rfl, ?_⟩
    have hsize : ty = .i64 ∨ ty = .ptr → n ≠ 0 := by
      intro hty
      cases ht with
      | alloca => rw [hn rfl]; rcases hty with rfl | rfl <;> simp [Ty.cells]
      | allocaArray => simp at hty
    exact (hm.alloc hs hF.frame.distinct hk hsize).top rfl rfl rfl
  | load hp hv =>
    rw [heval] at hp
    obtain ⟨href, hfirst⟩ := hf.load hF hm ht hp hv
    refine hset rfl rfl href (fun ty hr => ?_) fun hw => hfirst ?_
    · cases hr
      exact load_hasTy hv
    · rename_i ty _ _ _ _
      cases ty <;> first | rfl | cases hw
  | store hv hp hmem =>
    rw [heval] at hv hp
    refine ⟨hst.top (hf.skip hF hcode rfl (.inl rfl)) rfl, ?_⟩
    exact (hf.store (fun f hf => (hfuncs f hf).frame.distinct) hs hm ht hv hp hmem).top rfl rfl rfl
  | gep δ hp hidx hd =>
    rw [heval] at hp
    rw [hevals] at hidx
    obtain ⟨href, hfirst⟩ := hf.gep ht hp hidx hd
    refine hset rfl rfl href (fun ty hr => ?_) hfirst
    cases hr
    exact .inr ⟨_, _, rfl⟩
  | binop z =>
    refine hset rfl rfl (hasTy_int z).refers (fun ty hr => ?_) fun hw => by cases hw
    cases hr
    exact hasTy_int z
  | icmp z =>
    refine hset rfl rfl (refers_of_not_ptr (by simp)) (fun ty hr => ?_) fun hw => by cases hw
    cases hr
    exact hasTy_bool z
  | select hv =>
    rw [heval, heval] at hv
    have hty := hf.select ht hv
    refine hset rfl rfl (refers_of_not_ptr ?_) (fun ty hr => ?_) fun hw => by cases hw
    · rcases hty with rfl | ⟨b, rfl⟩ <;> simp
    · cases hr
      exact hty
  | zext z =>
    refine hset rfl rfl (hasTy_int z).refers (fun ty hr => ?_) fun hw => by cases hw
    cases hr
    exact hasTy_int z
  | @call r f ty args name vs g b' hvs hg hb' =>
    rw [hevals] at hvs
    have hG := hM g (List.mem_of_find?_eq_some hg)
    cases ht with
    | @call _ _ _ _ _ params hcallee hty ha =>
      obtain ⟨G, hG', rfl, rfl⟩ := hcallee
      obtain rfl := Option.some.inj (hg.symm.trans hG')
      obtain ⟨hargs, hrefs⟩ := hf.passAll ha hvs
      have hfr : Frame.Fits outer { fr with code := rest } := hf.skip hF hcode rfl (.inr (by simp [Inst.callee?]))
      have hrefs' : ∀ v ∈ vs, v.Refers ({ fr with code := rest } :: outer) := fun v hv =>
        (hrefs v hv).top rfl fun _ _ => id
      have henter := Frame.Fits.enter hG hb' hargs hrefs' r
      have hmem : MemFits ({ fr with code := rest } :: outer) mem := hm.top rfl rfl rfl
      refine ⟨⟨henter, ?_, hst.top hfr rfl⟩, hmem.enter⟩
      rintro caller hcaller
      cases hcaller
      refine ⟨fun ty hd => ?_, fun hd => ?_⟩
      · have hr := hF.dominated.reg hb hi rfl hd
        rcases hty with hty | hty
        · simp only [Inst.result?, hty] at hr
          cases hr
          rfl
        · simp [Inst.result?, hty] at hr
      · cases hF.dominated.whole hb hi rfl hd
  | @library _ _ _ _ _ _ _ o _ _ hvs hg hb' hlib =>
    obtain ⟨rfl, ho⟩ := hext _ _ _ _ _ _ _ hlib
    have hfr := hf.result hF hcode ht ho
    cases o with
    | none => exact ⟨hst.top hfr rfl, hm.top rfl rfl rfl⟩
    | some v => exact ⟨hst.top hfr rfl, hm.top rfl rfl rfl⟩
  | jump hl hbl =>
    exact ⟨hst.top (hf.jump hF hcode hl hbl) rfl, hm.top rfl rfl rfl⟩
  | @ret a o hv =>
    have hint : ∀ x, o = some x → x.HasTy .i64 := by
      intro x hx
      obtain ⟨y, rfl, hy⟩ := hv x hx
      rw [heval] at hy
      cases ht with
      | ret ha => exact (hf.has ha hy).1
    cases outer with
    | nil => exact ⟨trivial, hm.pop⟩
    | cons caller callers =>
      cases o with
      | none => exact ⟨hst.2.2, hm.pop⟩
      | some v => exact ⟨hst.leave (hint v rfl), hm.pop.top rfl rfl rfl⟩

/-- A step keeps the types. -/
theorem Config.Fits.step (hc : Config.Fits M c) (hM : M.Typed) (hext : ext.Plain) (hs : Ir.step M ext c = some d) :
    Config.Fits M d := by
  have hsec := hc.secured.step hext.confined hs
  cases c with
  | done => cases hs
  | run fr outer mem w =>
    obtain ⟨i, rest, hcode, he⟩ := step_effect hs
    obtain ⟨hstack, hmem⟩ := he.fits hM hext hc hcode
    exact ⟨hsec, hstack, hmem⟩

/-- And so does a run. -/
theorem Config.Fits.reaches (hc : Config.Fits M c) (hM : M.Typed) (hext : ext.Plain)
    (h : Steps.Reaches (Ir.step M ext) c d) : Config.Fits M d := by
  obtain ⟨n, h⟩ := h
  induction n generalizing c with
  | zero =>
    cases h
    exact hc
  | succ n ih =>
    obtain ⟨e, he, h⟩ := Option.bind_eq_some_iff.mp h
    exact ih (hc.step hM hext he) h

/-- The operands that an instruction looks into. The others it only copies. -/
def Inst.inspected : Inst → List Value
  | .alloca _ _ count => count.toList
  | .load _ _ p | .store _ p => [p]
  | .gep _ _ p idx => p :: idx
  | .binop _ _ a b | .icmp _ _ a b => [a, b]
  | .select _ a _ _ | .zext _ a _ | .condBr a _ _ => [a]
  | .call _ _ _ _ _ | .br _ | .ret _ => []

/-- The instruction has no meaning: an operand is the result of a call that gave none, or it is undefined and looked
    into; a division has no value; an address is outside its array or global variable; or the library does not do what
    it is called for. Variables that are no arrays are always there. -/
inductive Faults (M : Module) (ext : Ext W) (fr : Frame) (mem : Mem) (w : W) : Inst → Prop
  | missing {i : Inst} {r : Reg} {ty : Ty} (ha : .inst r ty ∈ i.operands) (hr : fr.regs r = none)
    (hcall : fr.func.FromCall r) : Faults M ext fr mem w i
  | undefined {i : Inst} {a : Value} (ha : a ∈ i.inspected) (hu : fr.eval a = some .undef) : Faults M ext fr mem w i
  | arithmetic {r : Reg} {op : BinOp} {a b : Value} {x y : BitVec 64} (ha : fr.eval a = some (.int x))
    (hb : fr.eval b = some (.int y)) (hz : op.eval x y = none) : Faults M ext fr mem w (.binop r op a b)
  | load {r : Reg} {ty : Ty} {p : Value} {b : Blk} {o : Int} (hs : p.slot? = none) (hp : fr.eval p = some (.ptr b o))
    (hc : mem.cell? b o = none) : Faults M ext fr mem w (.load r ty p)
  | store {a p : Value} {b : Blk} {o : Int} (hs : p.slot? = none) (hp : fr.eval p = some (.ptr b o))
    (hc : mem.cell? b o = none) : Faults M ext fr mem w (.store a p)
  | library {r : Reg} {f name : String} {ty : Ty} {args : List Value} {vs : List Val} {g : Function}
    (hvs : args.mapM fr.eval = some vs) (hg : M.function? f = some g) (hb : g.blocks = [])
    (he : ext f vs mem w = none) : Faults M ext fr mem w (.call r f ty args name)

theorem Inst.operands_of_inspected (h : a ∈ i.inspected) : a ∈ i.operands := by
  cases i <;> simp_all [Inst.inspected, Inst.operands]

theorem cell?_first {b : Blk} (h : mem.cells b ≠ []) : ∃ y ∈ mem.cells b, mem.cell? b 0 = some y := by
  obtain ⟨y, ys, hy⟩ := List.exists_cons_of_ne_nil h
  refine ⟨y, by simp [hy], ?_⟩
  simp [Mem.cell?, hy]

/-- An operand has a value, unless it is the result of a call. -/
theorem Frame.Fits.value (h : fr.Fits outer) (hF : fr.func.Typed M) (hcode : fr.code = i :: rest) {a : Value}
    (ha : a ∈ i.operands) (hty : (fr.func.tables M).Has a ty) :
    (∃ x, fr.eval a = some x ∧ x.HasTy ty) ∨ Faults M ext fr mem w i := by
  cases hx : fr.eval a with
  | some x => exact .inl ⟨x, rfl, (h.has hty hx).1⟩
  | none =>
    refine .inr ?_
    cases a with
    | const c => cases hx
    | arg => cases hty
    | alloca => cases hty
    | inst r ty' =>
      obtain ⟨b, hb, is, hbs, hdone⟩ := h.done
      have hat : b.2[is.length]? = some i := by
        rw [hbs, hcode, List.getElem?_append_right (Nat.le_refl _)]
        simp
      obtain ⟨j, hj, hr⟩ := hF.dominated.closed b hb is.length i hat _ ha
      rw [hbs, List.take_left] at hj
      have hnone : fr.regs r = none := hx
      refine .missing ha hnone
        ⟨b, hb, j, hbs ▸ List.mem_append_left _ hj, hr, Option.isSome_iff_ne_none.mpr fun hc => ?_⟩
      have hsome := hdone j hj r hr hc
      rw [hnone] at hsome
      cases hsome

section Kinds
variable {a : Value} (h : fr.Fits outer) (hF : fr.func.Typed M) (hcode : fr.code = i :: rest) (ha : a ∈ i.inspected)
include h hF hcode ha

theorem Frame.Fits.int (hty : (fr.func.tables M).Has a .i64) :
    (∃ n, fr.eval a = some (.int n)) ∨ Faults M ext fr mem w i := by
  rcases h.value hF hcode (Inst.operands_of_inspected ha) hty with ⟨x, hx, rfl | ⟨n, rfl⟩⟩ | hfault
  · exact .inr (.undefined ha hx)
  · exact .inl ⟨n, hx⟩
  · exact .inr hfault

theorem Frame.Fits.bool (hty : (fr.func.tables M).Has a .i1) :
    (∃ k, fr.eval a = some (.bool k)) ∨ Faults M ext fr mem w i := by
  rcases h.value hF hcode (Inst.operands_of_inspected ha) hty with ⟨x, hx, rfl | ⟨k, rfl⟩⟩ | hfault
  · exact .inr (.undefined ha hx)
  · exact .inl ⟨k, hx⟩
  · exact .inr hfault

theorem Frame.Fits.ptr (hm : MemFits (fr :: outer) mem) (hty : (fr.func.tables M).Has a .ptr) :
    (∃ b o, fr.eval a = some (.ptr b o) ∧ ∀ v ∈ mem.cells b, v.HasTy .i64) ∨ Faults M ext fr mem w i := by
  rcases h.value hF hcode (Inst.operands_of_inspected ha) hty with ⟨x, hx, rfl | ⟨b, o, rfl⟩⟩ | hfault
  · exact .inr (.undefined ha hx)
  · exact .inl ⟨b, o, hx, hm.target (h.has hty hx).2 rfl⟩
  · exact .inr hfault

end Kinds

/-- A variable has storage when an instruction uses it. -/
theorem Frame.Fits.storage (h : fr.Fits outer) (hF : fr.func.Typed M) (hcode : fr.code = i :: rest)
    (hi : i.isAlloca = false) {k : Slot} (hk : fr.func.Allocates k ty) : ∃ n, fr.slots k = some n := by
  refine Option.isSome_iff_exists.mp ((h.slots k ty hk).resolve_right ?_)
  rintro ⟨count, hm⟩
  obtain ⟨b, hb, is, hbs, -⟩ := h.done
  rw [hcode] at hm hbs
  rcases List.mem_cons.mp hm with rfl | hm
  · cases hi
  · cases hF.frame.behind hb hbs hi _ hm

/-- A variable that is no array has a cell, with a value of its type. -/
theorem Frame.Fits.cell (h : fr.Fits outer) (hF : fr.func.Typed M) (hm : MemFits (fr :: outer) mem)
    (hcode : fr.code = i :: rest) (hi : i.isAlloca = false) {k : Slot} (hk : fr.func.Allocates k ty)
    (hty : ty = .i64 ∨ ty = .ptr) : ∃ n y, fr.eval (.alloca k ty) = some (.ptr (.stack n) 0) ∧
      mem.cell? (.stack n) 0 = some y ∧ y.HasTy ty := by
  obtain ⟨n, hn⟩ := h.storage hF hcode hi hk
  have hst := hm.slots fr List.mem_cons_self k ty n hk hn
  have heval : fr.eval (.alloca k ty) = some (.ptr (.stack n) 0) := by
    rw [Frame.eval, hn]
    rfl
  rcases hty with rfl | rfl
  · obtain ⟨y, hy, hc⟩ := cell?_first hst.1
    exact ⟨n, y, heval, hc, hst.2 y hy⟩
  · obtain ⟨y, hy, hc⟩ := cell?_first hst.1
    exact ⟨n, y, heval, hc, (h.variable hF hk hst hy).1⟩

/-- How the code goes on does not matter. -/
theorem Faults.behind (h : Faults M ext fr mem w i) (rest : List Inst) :
    Faults M ext { fr with code := rest } mem w i := by
  have heval : ({ fr with code := rest } : Frame).eval = fr.eval := funext (eval_code fr rest)
  cases h with
  | missing ha hr hcall => exact .missing ha hr hcall
  | undefined ha hu => exact .undefined ha (heval ▸ hu)
  | arithmetic ha hb hz => exact .arithmetic (heval ▸ ha) (heval ▸ hb) hz
  | load hs hp hc => exact .load hs (heval ▸ hp) hc
  | store hs hp hc => exact .store hs (heval ▸ hp) hc
  | library hvs hg hb he => exact .library (heval ▸ hvs) hg hb he

end Steps

end Ir
