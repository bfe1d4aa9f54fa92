import L24.Ir.Control

/-! Private variables: where a function gives the address of an alloca away to nothing, no value of a reachable state
    points to its storage. Such storage changes only where the activation that made it stores to it by name. -/

namespace Ir
open Relation

/-! ### Addresses that are given away -/

/-- The alloca that the operand names. -/
def Value.slot? : Value → Option Slot
  | .alloca k _ => some k
  | _ => none

/-- The instruction loads or stores. -/
def Inst.isAccess : Inst → Bool
  | .load _ _ _ | .store _ _ => true
  | _ => false

/-- The slots whose addresses an instruction gives away. To load from a slot or to store to it does not. -/
def Inst.exposed : Inst → List Slot
  | .load _ _ _ => []
  | .store v _ => v.slot?.toList
  | i => i.operands.filterMap Value.slot?

/-- No instruction of the function gives the address of the slot away. -/
def Function.Hides (f : Function) (k : Slot) : Prop := ∀ b ∈ f.blocks, ∀ i ∈ b.2, k ∉ i.exposed

/-- The function has a variable of the type in the slot. -/
def Function.Allocates (f : Function) (k : Slot) (ty : Ty) : Prop :=
    ∃ b ∈ f.blocks, ∃ count, Inst.alloca k ty count ∈ b.2

/-- A slot has one type. -/
theorem Function.Allocates.unique {f : Function} {k : Slot} {ty ty' : Ty} (h : f.Allocates k ty)
    (h' : f.Allocates k ty')
    (hd : f.slots.Nodup) : ty = ty' := by
  obtain ⟨b, hb, count, hi⟩ := h
  obtain ⟨b', hb', count', hi'⟩ := h'
  have hslots : f.slots = (f.blocks.flatMap (·.2)).filterMap Inst.slot? := by
    rw [Function.slots, List.filterMap_flatMap]
  rw [hslots] at hd
  have hpair := List.pairwise_filterMap.mp hd
  by_contra hne
  have hdiff : Inst.alloca k ty count ≠ .alloca k ty' count' := fun he => hne (Inst.alloca.inj he).2.1
  have hsymm : Std.Symm fun a a' : Inst => ∀ x, a.slot? = some x → ∀ y, a'.slot? = some y → x ≠ y :=
    ⟨fun a a' h x hx y hy he => h y hy x hx he.symm⟩
  exact hpair.forall (List.mem_flatMap.mpr ⟨b, hb, hi⟩) (List.mem_flatMap.mpr ⟨b', hb', hi'⟩) hdiff k rfl k rfl rfl

/-- The value points to none of the blocks that are `hidden`, and to none that has not been made. -/
def Val.Clear (hidden : Nat → Prop) (next : Nat) (v : Val) : Prop :=
    ∀ n o, v = .ptr (.stack n) o → n < next ∧ ¬ hidden n

/-- A library function works with what it gets: it makes no blocks, and those that neither its arguments nor the memory
    point to it leaves alone and gives no pointer to. -/
def Ext.Confined {W : Type} (ext : Ext W) : Prop :=
  ∀ callee args mem w o mem' w', ext callee args mem w = some (o, mem', w') → mem'.next = mem.next ∧
    ∀ hidden : Nat → Prop, (∀ v ∈ args, v.Clear hidden mem.next) → (∀ b, ∀ v ∈ mem.cells b, v.Clear hidden mem.next) →
      (∀ v, o = some v → v.Clear hidden mem.next) ∧ (∀ b, ∀ v ∈ mem'.cells b, v.Clear hidden mem.next) ∧
        ∀ n, hidden n → mem'.cells (.stack n) = mem.cells (.stack n)

/-- The values of an activation. -/
def Frame.Has (fr : Frame) (v : Val) : Prop := v ∈ fr.args ∨ ∃ r, fr.regs r = some v

/-- The memory, also after the end. -/
def Config.mem {W : Type} : Config W → Mem
  | .run _ _ mem _ => mem
  | .done _ mem _ => mem

/-- The block belongs to a slot that its function hides. -/
def Hidden (frames : List Frame) (n : Nat) : Prop := ∃ fr ∈ frames, ∃ k, fr.func.Hides k ∧ fr.slots k = some n

/-- Each slot has a block of its own, and no value points to the block of a slot that its function hides. -/
structure Secluded (frames : List Frame) (mem : Mem) : Prop where
  made : ∀ fr ∈ frames, ∀ k n, fr.slots k = some n → n < mem.next
  own : ∀ fr ∈ frames, ∀ k l n, fr.slots k = some n → fr.slots l = some n → k = l
  apart : frames.Pairwise fun a b => ∀ k l n, a.slots k = some n → b.slots l ≠ some n
  values : ∀ fr ∈ frames, ∀ v, fr.Has v → v.Clear (Hidden frames) mem.next
  cells : ∀ b, ∀ v ∈ mem.cells b, v.Clear (Hidden frames) mem.next

section Clear
variable {hidden hidden' : Nat → Prop} {m n : Nat} {v : Val}

theorem Val.Clear.mono (h : v.Clear hidden m) (hh : ∀ n, n < m → hidden' n → hidden n) (hn : m ≤ n) :
    v.Clear hidden' n := by
  intro k o hv
  obtain ⟨hlt, hk⟩ := h k o hv
  exact ⟨Nat.lt_of_lt_of_le hlt hn, fun hk' => hk (hh k hlt hk')⟩

theorem clear_int (i : BitVec 64) : (Val.int i).Clear hidden n := fun _ _ h => by cases h

theorem clear_bool (b : Bool) : (Val.bool b).Clear hidden n := fun _ _ h => by cases h

/-- An address in the same block. -/
theorem Val.Clear.shift {b : Blk} {o o' : Int} (h : (Val.ptr b o).Clear hidden n) : (Val.ptr b o').Clear hidden n := by
  intro k p hv
  cases hv
  exact h k o rfl

/-- A constant points to global variables only. -/
theorem const_eval_ptr {c : Const} {b : Blk} {o : Int} (h : c.eval = .ptr b o) : ∃ x, b = .global x := by
  induction c generalizing b o with
  | global x ty =>
    cases h
    exact ⟨x, rfl⟩
  | gep srcTy base i j ih _ _ =>
    simp only [Const.eval] at h
    split at h
    · rename_i hb _ _
      cases h
      exact ih hb
    · cases h
  | zero ty => cases ty <;> cases h
  | _ => cases h

theorem cell?_mem {mem : Mem} {b : Blk} {o : Int} (h : mem.cell? b o = some v) : v ∈ mem.cells b := by
  unfold Mem.cell? at h
  split at h
  · exact List.mem_of_getElem? h
  · cases h

/-- A load gives what the cell holds, or an array as a whole. -/
theorem load_cases {mem : Mem} {ty : Ty} {b : Blk} {o : Int} (h : mem.load ty b o = some v) :
    mem.cell? b o = some v ∨ ∃ n elt, v = .agg (.array n elt) := by
  unfold Mem.load at h
  cases hc : mem.cell? b o with
  | none => cases ty <;> simp [hc] at h
  | some x =>
    rw [hc] at h
    cases ty with
    | array k elt => exact .inr ⟨k, elt, (Option.some.inj h).symm⟩
    | i64 => cases x <;> first | exact .inl (h ▸ rfl) | cases h
    | ptr => cases x <;> first | exact .inl (h ▸ rfl) | cases h
    | _ => cases h

theorem load_clear {mem : Mem} {ty : Ty} {b : Blk} {o : Int} (h : mem.load ty b o = some v)
    (hc : ∀ v ∈ mem.cells b, v.Clear hidden n) : v.Clear hidden n := by
  rcases load_cases h with h | ⟨k, elt, rfl⟩
  · exact hc v (cell?_mem h)
  · exact fun _ _ he => by cases he

theorem store_cells {mem mem' : Mem} {b b' : Blk} {o : Int} {x y : Val} (h : mem.store b o x = some mem')
    (hy : y ∈ mem'.cells b') : y = x ∨ y ∈ mem.cells b' := by
  unfold Mem.store at h
  split at h
  · cases h
    by_cases hb : b' = b
    · rw [hb, Mem.put_cells_self] at hy
      exact hb ▸ (List.mem_or_eq_of_mem_set hy).symm
    · exact .inr (Mem.put_cells_of_ne hb ▸ hy)
  · cases h

theorem store_next {mem mem' : Mem} {b : Blk} {o : Int} {x : Val} (h : mem.store b o x = some mem') :
    mem'.next = mem.next := by
  unfold Mem.store at h
  split at h
  · cases h
    rfl
  · cases h

theorem store_of_ne {mem mem' : Mem} {b b' : Blk} {o : Int} {x : Val} (h : mem.store b o x = some mem') (hb : b' ≠ b) :
    mem'.cells b' = mem.cells b' := by
  unfold Mem.store at h
  split at h
  · cases h
    exact Mem.put_cells_of_ne hb
  · cases h

end Clear

/-! ### Seclusion is kept -/

section Secluded
variable {frames stack : List Frame} {mem mem' : Mem} {fr fr' : Frame} {n : Nat} {v x : Val}

theorem hidden_congr (hf : fr'.func = fr.func) (hs : fr'.slots = fr.slots) :
    Hidden (fr' :: stack) = Hidden (fr :: stack) := by
  funext n
  simp only [Hidden, List.mem_cons, exists_eq_or_imp, hf, hs]

namespace Secluded

/-- The innermost activation goes on, with values that it had or that are clear. -/
theorem goes (h : Secluded (fr :: stack) mem) (hf : fr'.func = fr.func) (hs : fr'.slots = fr.slots)
    (hv : ∀ v, fr'.Has v → fr.Has v ∨ v.Clear (Hidden (fr :: stack)) mem.next) : Secluded (fr' :: stack) mem where
  made := by
    have := h.made
    simp only [List.forall_mem_cons, hs] at this ⊢
    exact this
  own := by
    have := h.own
    simp only [List.forall_mem_cons, hs] at this ⊢
    exact this
  apart := by
    have := h.apart
    simp only [List.pairwise_cons, hs] at this ⊢
    exact this
  values := by
    rw [hidden_congr hf hs]
    refine List.forall_mem_cons.mpr ⟨fun v hv' => ?_, fun f hm => h.values f (List.mem_cons_of_mem _ hm)⟩
    exact (hv v hv').elim (h.values fr List.mem_cons_self v) id
  cells := by
    rw [hidden_congr hf hs]
    exact h.cells

/-- A memory with the same blocks and clear cells. -/
theorem mem_of_clear (h : Secluded frames mem) (hn : mem'.next = mem.next)
    (hc : ∀ b, ∀ v ∈ mem'.cells b, v.Clear (Hidden frames) mem.next) : Secluded frames mem' := by
  obtain ⟨h₁, h₂, h₃, h₄, -⟩ := h
  rw [← hn] at h₁ h₄ hc
  exact ⟨h₁, h₂, h₃, h₄, hc⟩

/-- The operand's value, unless its address is given away. -/
theorem eval (h : Secluded (fr :: stack) mem) {a : Value} (ha : fr.eval a = some x)
    (hk : ∀ k, a.slot? = some k → ¬ fr.func.Hides k) : x.Clear (Hidden (fr :: stack)) mem.next := by
  intro n o hx
  subst hx
  cases a with
  | const c =>
    obtain ⟨y, hy⟩ := const_eval_ptr (Option.some.inj ha)
    cases hy
  | arg i ty => exact h.values fr List.mem_cons_self _ (.inl (List.mem_of_getElem? ha)) n o rfl
  | inst r ty => exact h.values fr List.mem_cons_self _ (.inr ⟨r, ha⟩) n o rfl
  | alloca k ty =>
    obtain ⟨m, hm, he⟩ := Option.map_eq_some_iff.mp ha
    cases he
    refine ⟨h.made fr List.mem_cons_self k n hm, ?_⟩
    rintro ⟨fr', hm', l, hl, hs⟩
    rcases List.mem_cons.mp hm' with rfl | hm'
    · obtain rfl := h.own fr' List.mem_cons_self k l n hm hs
      exact hk k rfl hl
    · exact (List.pairwise_cons.mp h.apart).1 fr' hm' k l n hm hs

/-- A new block, for the slot `k`. -/
theorem alloca (h : Secluded (fr :: stack) mem) (k : Slot) (cells : Nat) :
    Secluded (fr.setSlot k mem.next :: stack) (mem.alloc cells) := by
  -- The new block has a number that no activation knows yet, so nothing that was hidden changes its owner.
  have hslot : ∀ l n, (fr.setSlot k mem.next).slots l = some n → l = k ∧ n = mem.next ∨ fr.slots l = some n := by
    intro l n hl
    rcases eq_or_ne l k with rfl | hne
    · have hself : (fr.setSlot l mem.next).slots l = some mem.next := Function.update_self ..
      exact .inl ⟨rfl, (Option.some.inj (hself.symm.trans hl)).symm⟩
    · exact .inr ((Function.update_of_ne hne ..).symm.trans hl)
  have hmade := h.made fr List.mem_cons_self
  have hhidden : ∀ n, n < mem.next → Hidden (fr.setSlot k mem.next :: stack) n → Hidden (fr :: stack) n := by
    rintro n hn ⟨fr', hm, l, hl, hs⟩
    rcases List.mem_cons.mp hm with rfl | hm
    · rcases hslot l n hs with ⟨-, rfl⟩ | hs
      · exact absurd hn (Nat.lt_irrefl _)
      · exact ⟨fr, List.mem_cons_self, l, hl, hs⟩
    · exact ⟨fr', List.mem_cons_of_mem _ hm, l, hl, hs⟩
  have hclear : ∀ v : Val, v.Clear (Hidden (fr :: stack)) mem.next →
      v.Clear (Hidden (fr.setSlot k mem.next :: stack)) (mem.next + 1) := fun v hv => hv.mono hhidden (Nat.le_succ _)
  refine ⟨?_, ?_, ?_, ?_, fun b v hv => ?_⟩
  · refine List.forall_mem_cons.mpr ⟨fun l n hl => ?_, fun f hf l n hl => ?_⟩
    · rcases hslot l n hl with ⟨-, rfl⟩ | hl
      · exact Nat.lt_succ_self _
      · exact Nat.lt_succ_of_lt (hmade l n hl)
    · exact Nat.lt_succ_of_lt (h.made f (List.mem_cons_of_mem _ hf) l n hl)
  · refine List.forall_mem_cons.mpr ⟨fun i j n hi hj => ?_, fun f hf => h.own f (List.mem_cons_of_mem _ hf)⟩
    rcases hslot i n hi with ⟨hik, hin⟩ | hi'
    · rcases hslot j n hj with ⟨hjk, -⟩ | hj'
      · exact hik.trans hjk.symm
      · exact absurd (hmade j n hj') (Nat.not_lt.mpr (Nat.le_of_eq hin.symm))
    · rcases hslot j n hj with ⟨-, hjn⟩ | hj'
      · exact absurd (hmade i n hi') (Nat.not_lt.mpr (Nat.le_of_eq hjn.symm))
      · exact h.own fr List.mem_cons_self i j n hi' hj'
  · obtain ⟨hfr, hstack⟩ := List.pairwise_cons.mp h.apart
    -- No other activation has the new block.
    refine List.pairwise_cons.mpr ⟨fun f hf i j n hi hj => ?_, hstack⟩
    rcases hslot i n hi with ⟨-, rfl⟩ | hi
    · exact absurd (h.made f (List.mem_cons_of_mem _ hf) j _ hj) (Nat.lt_irrefl _)
    · exact hfr f hf i j n hi hj
  · refine List.forall_mem_cons.mpr ⟨fun v hv => hclear v (h.values fr List.mem_cons_self v hv), fun f hf v hv => ?_⟩
    exact hclear v (h.values f (List.mem_cons_of_mem _ hf) v hv)
  · rcases eq_or_ne b (.stack mem.next) with rfl | hne
    · rw [Mem.alloc_cells_self] at hv
      obtain rfl := List.eq_of_mem_replicate hv
      exact fun _ _ he => by cases he
    · rw [Mem.alloc_cells_of_ne hne] at hv
      exact hclear v (h.cells b v hv)

/-- A new activation has no slots yet. -/
theorem enter (h : Secluded frames mem) {f : Function} {args : List Val} {code : List Inst} {r : Reg}
    (ha : ∀ v ∈ args, v.Clear (Hidden frames) mem.next) : Secluded (Frame.enter f args code r :: frames) mem := by
  have hhidden : ∀ n, Hidden (Frame.enter f args code r :: frames) n → Hidden frames n := by
    rintro n ⟨fr', hm, l, hl, hs⟩
    rcases List.mem_cons.mp hm with rfl | hm
    · cases hs
    · exact ⟨fr', hm, l, hl, hs⟩
  have hclear : ∀ v : Val, v.Clear (Hidden frames) mem.next →
      v.Clear (Hidden (Frame.enter f args code r :: frames)) mem.next :=
    fun v hv => hv.mono (fun n _ => hhidden n) (Nat.le_refl _)
  refine ⟨?_, ?_, ?_, ?_, fun b v hv => hclear v (h.cells b v hv)⟩
  · exact List.forall_mem_cons.mpr ⟨fun k n hk => (by cases hk), h.made⟩
  · exact List.forall_mem_cons.mpr ⟨fun k l n hk _ => (by cases hk), h.own⟩
  · exact List.pairwise_cons.mpr ⟨fun _ _ k l n hk _ => (by cases hk), h.apart⟩
  · refine List.forall_mem_cons.mpr ⟨fun v hv => ?_, fun f hf v hv => hclear v (h.values f hf v hv)⟩
    rcases hv with hv | ⟨r, hr⟩
    · exact hclear v (ha v hv)
    · cases hr

/-- An activation ends. -/
theorem pop (h : Secluded (fr :: stack) mem) : Secluded stack mem := by
  have hhidden : ∀ n, Hidden stack n → Hidden (fr :: stack) n := by
    rintro n ⟨fr', hm, hk⟩
    exact ⟨fr', List.mem_cons_of_mem _ hm, hk⟩
  have hclear : ∀ v : Val, v.Clear (Hidden (fr :: stack)) mem.next → v.Clear (Hidden stack) mem.next :=
    fun v hv => hv.mono (fun n _ => hhidden n) (Nat.le_refl _)
  exact ⟨fun f hf => h.made f (List.mem_cons_of_mem _ hf), fun f hf => h.own f (List.mem_cons_of_mem _ hf),
    (List.pairwise_cons.mp h.apart).2, fun f hf v hv => hclear v (h.values f (List.mem_cons_of_mem _ hf) v hv),
    fun b v hv => hclear v (h.cells b v hv)⟩

theorem setReg (h : Secluded (fr :: stack) mem) (r : Reg) (hv : v.Clear (Hidden (fr :: stack)) mem.next) :
    Secluded (fr.setReg r v :: stack) mem := by
  refine h.goes rfl rfl fun x hx => ?_
  rcases hx with hx | ⟨j, hj⟩
  · exact .inl (.inl hx)
  · rcases eq_or_ne j r with rfl | hne
    · have hself : (fr.setReg j v).regs j = some v := Function.update_self ..
      exact .inr (Option.some.inj (hself.symm.trans hj) ▸ hv)
    · exact .inl (.inr ⟨j, (Function.update_of_ne hne ..).symm.trans hj⟩)

/-- The activation ends with the result `o`. -/
theorem leave {W : Type} (h : Secluded (fr :: stack) mem) (w : W) {o : Option Val}
    (ho : ∀ v, o = some v → v.Clear (Hidden (fr :: stack)) mem.next) :
    Secluded (Config.leave fr stack mem w o).frames (Config.leave fr stack mem w o).mem := by
  cases stack with
  | nil => exact h.pop
  | cons caller rest =>
    cases o with
    | none => exact h.pop
    | some v =>
      refine h.pop.setReg fr.dest ((ho v rfl).mono (fun n _ hn => ?_) (Nat.le_refl _))
      obtain ⟨f, hf, hk⟩ := hn
      exact ⟨f, List.mem_cons_of_mem _ hf, hk⟩

end Secluded

end Secluded

/-! ### The machine -/

section Machine
variable {W : Type} {M : Module} {ext : Ext W} {c d : Config W} {fr : Frame} {stack : List Frame} {mem : Mem} {w : W}
  {i : Inst} {n : Nat}

theorem mapM_eval {args : List Value} {vs : List Val} (h : args.mapM fr.eval = some vs) :
    ∀ v ∈ vs, ∃ a ∈ args, fr.eval a = some v := by
  induction args generalizing vs with
  | nil =>
    cases h
    exact fun v hv => by cases hv
  | cons a args ih =>
    rw [List.mapM_cons] at h
    obtain ⟨x, hx, h⟩ := Option.bind_eq_some_iff.mp h
    obtain ⟨xs, hxs, h⟩ := Option.bind_eq_some_iff.mp h
    cases h
    refine List.forall_mem_cons.mpr ⟨⟨a, List.mem_cons_self, hx⟩, fun v hv => ?_⟩
    obtain ⟨b, hb, he⟩ := ih hxs v hv
    exact ⟨b, List.mem_cons_of_mem _ hb, he⟩

theorem exposed_of_operand {a : Value} {k : Slot} (hi : i.isAccess = false) (ha : a ∈ i.operands)
    (hk : a.slot? = some k) : k ∈ i.exposed := by
  cases i with
  | load r ty p => cases hi
  | store v p => cases hi
  | _ => exact List.mem_filterMap.mpr ⟨a, ha, hk⟩

/-- The value of an operand. -/
theorem Secluded.operand (h : Secluded (fr :: stack) mem) (hk : ∀ k ∈ i.exposed, ¬ fr.func.Hides k)
    (hi : i.isAccess = false) {a : Value} {x : Val} (ha : a ∈ i.operands) (hx : fr.eval a = some x) :
    x.Clear (Hidden (fr :: stack)) mem.next := h.eval hx fun k hs => hk k (exposed_of_operand hi ha hs)

/-- The values of arguments. -/
theorem Secluded.operands (h : Secluded (fr :: stack) mem) (hk : ∀ k ∈ i.exposed, ¬ fr.func.Hides k)
    (hi : i.isAccess = false) {vs : List Val} (hvs : i.operands.mapM fr.eval = some vs) :
    ∀ v ∈ vs, v.Clear (Hidden (fr :: stack)) mem.next := by
  intro v hv
  obtain ⟨a, ha, he⟩ := mapM_eval hvs v hv
  exact h.operand hk hi ha he

theorem Effect.secluded (he : Effect M ext fr stack mem w i d) (hext : ext.Confined) (h : Secluded (fr :: stack) mem)
    (hk : ∀ k ∈ i.exposed, ¬ fr.func.Hides k) : Secluded d.frames d.mem := by
  cases he with
  | alloca n => exact h.alloca _ n
  | load hp hv => exact h.setReg _ (load_clear hv (h.cells _))
  | @store v p x b o mem' hv hp hm =>
    have hx : x.Clear (Hidden (fr :: stack)) mem.next := h.eval hv fun k hs => hk k (by simp [Inst.exposed, hs])
    refine h.mem_of_clear (store_next hm) fun b' y hy => ?_
    rcases store_cells hm hy with rfl | hy
    · exact hx
    · exact h.cells b' y hy
  | gep δ hp => exact h.setReg _ (h.operand hk rfl List.mem_cons_self hp).shift
  | binop z => exact h.setReg _ (clear_int z)
  | icmp z => exact h.setReg _ (clear_bool z)
  | select hv =>
    rcases hv with hv | hv
    · exact h.setReg _ (h.operand hk rfl (by simp [Inst.operands]) hv)
    · exact h.setReg _ (h.operand hk rfl (by simp [Inst.operands]) hv)
  | zext z => exact h.setReg _ (clear_int z)
  | call hvs hg hb => exact h.enter (h.operands hk rfl hvs)
  | @library _ _ _ _ _ vs g o mem' w' hvs hg hb he =>
    obtain ⟨hn, hconf⟩ := hext _ _ _ _ _ _ _ he
    obtain ⟨ho, hc, -⟩ := hconf _ (h.operands hk rfl hvs) h.cells
    have h' : Secluded (fr :: stack) mem' := h.mem_of_clear hn hc
    cases o with
    | none => exact h'
    | some v => exact h'.setReg _ (hn ▸ ho v rfl)
  | jump hl hb => exact h.goes rfl rfl fun v hv => .inl hv
  | ret hv =>
    refine h.leave w fun x hx => ?_
    obtain ⟨y, rfl, hy⟩ := hv x hx
    exact h.operand hk rfl List.mem_cons_self hy

/-- The storage of a hidden slot changes only where its activation stores to it by name. -/
theorem Effect.cells_kept (he : Effect M ext fr stack mem w i d) (hext : ext.Confined) (h : Secluded (fr :: stack) mem)
    (hk : ∀ k ∈ i.exposed, ¬ fr.func.Hides k) (hn : Hidden (fr :: stack) n) :
    d.mem.cells (.stack n) = mem.cells (.stack n) ∨
      ∃ v k ty, i = .store v (.alloca k ty) ∧ fr.slots k = some n := by
  cases he with
  | alloca m =>
    refine .inl (Mem.alloc_cells_of_ne ?_)
    rintro ⟨⟩
    obtain ⟨f, hf, k, -, hs⟩ := hn
    exact Nat.lt_irrefl _ (h.made f hf k _ hs)
  | @store v p x b o mem' hv hp hm =>
    by_cases hb : Blk.stack n = b
    · subst hb
      cases p with
      | alloca k ty =>
        obtain ⟨m, hslot, he⟩ := Option.map_eq_some_iff.mp hp
        cases he
        exact .inr ⟨v, k, ty, rfl, hslot⟩
      | const c =>
        obtain ⟨y, hy⟩ := const_eval_ptr (Option.some.inj hp)
        cases hy
      | arg j ty => exact absurd hn (h.eval hp (fun _ hs => by cases hs) n o rfl).2
      | inst r ty => exact absurd hn (h.eval hp (fun _ hs => by cases hs) n o rfl).2
    · exact .inl (store_of_ne hm hb)
  | library hvs hg hb he =>
    obtain ⟨-, hconf⟩ := hext _ _ _ _ _ _ _ he
    obtain ⟨-, -, hc⟩ := hconf _ (h.operands hk rfl hvs) h.cells
    exact .inl (hc n hn)
  | ret =>
    cases stack <;> exact .inl rfl
  | _ => exact .inl rfl

/-- Behind its next instruction the activation is as it was. -/
theorem step_secluded (hext : ext.Confined) (hc : ∀ p ∈ c.points, p.Inside M) (h : Secluded c.frames c.mem)
    (hs : step M ext c = some d) : Secluded d.frames d.mem ∧ ∀ n, Hidden c.frames n →
      d.mem.cells (.stack n) = c.mem.cells (.stack n) ∨
        ∃ fr rest v k ty code, c.frames = fr :: rest ∧ fr.code = .store v (.alloca k ty) :: code ∧
        fr.slots k = some n := by
  cases c with
  | done => cases hs
  | run fr stack mem w =>
    obtain ⟨i, rest, hcode, he⟩ := step_effect hs
    obtain ⟨b, hb, hsuffix⟩ := (hc fr.point List.mem_cons_self).code
    have hi : i ∈ b.2 := hsuffix.mem (by rw [Frame.point, hcode]; exact List.mem_cons_self)
    have hk : ∀ k ∈ i.exposed, ¬ fr.func.Hides k := fun k hk hh => hh b hb i hi hk
    have h' : Secluded ({ fr with code := rest } :: stack) mem := Secluded.goes h rfl rfl fun v hv => .inl hv
    refine ⟨he.secluded hext h' hk, fun n hn => ?_⟩
    have hsame : Hidden ({ fr with code := rest } :: stack) = Hidden (fr :: stack) := hidden_congr rfl rfl
    rcases he.cells_kept hext h' hk (hsame ▸ hn) with hcells | ⟨v, k, ty, rfl, hslot⟩
    · exact .inl hcells
    · exact .inr ⟨fr, stack, v, k, ty, rest, rfl, hcode, hslot⟩

/-- The activations stay in the functions of the module. -/
theorem inside_ranked (M : Module) : CallStack.Ranked (control M) (Point.Inside M) (fun _ => 0) fun _ _ => True where
  goes ha h := ⟨(ha.goes h).1, rfl⟩
  calls ha h := by
    obtain ⟨hc, hb, -⟩ := ha.calls h
    exact ⟨⟨hc, trivial⟩, hb, rfl⟩

theorem step_inside (hc : ∀ p ∈ c.points, p.Inside M) (hs : step M ext c = some d) : ∀ p ∈ d.points, p.Inside M :=
  (inside_ranked M).step_ok (step_control hs) hc

/-- A state of a run. -/
structure Secured (M : Module) (c : Config W) : Prop where
  inside : ∀ p ∈ c.points, p.Inside M
  secluded : Secluded c.frames c.mem

theorem Secured.step (hext : ext.Confined) (hc : Secured M c) (hs : step M ext c = some d) : Secured M d :=
  ⟨step_inside hc.inside hs, (step_secluded hext hc.inside hc.secluded hs).1⟩

theorem Secured.reaches (hext : ext.Confined) (hc : Secured M c) (h : Steps.Reaches (Ir.step M ext) c d) :
    Secured M d := by
  obtain ⟨m, h⟩ := h
  induction m generalizing c with
  | zero =>
    cases h
    exact hc
  | succ m ih =>
    obtain ⟨e, he, h⟩ := Option.bind_eq_some_iff.mp h
    exact ih (hc.step hext he) h

/-- The value points to no block that has not been made. -/
def Val.Made (next : Nat) (v : Val) : Prop := v.Clear (fun _ => False) next

/-- A block belongs to one slot of one activation. -/
theorem Secluded.owner {frames : List Frame} {mem : Mem} (h : Secluded frames mem) {i j : Nat} {a b : Frame}
    {k l : Slot}
    (hi : frames[i]? = some a) (hj : frames[j]? = some b) (ha : a.slots k = some n) (hb : b.slots l = some n) :
    i = j ∧ k = l := by
  have hne : ¬ i < j ∧ ¬ j < i := by
    refine ⟨fun hlt => ?_, fun hlt => ?_⟩
    · obtain ⟨hi', rfl⟩ := List.getElem?_eq_some_iff.mp hi
      obtain ⟨hj', rfl⟩ := List.getElem?_eq_some_iff.mp hj
      exact List.pairwise_iff_getElem.mp h.apart i j hi' hj' hlt k l n ha hb
    · obtain ⟨hi', rfl⟩ := List.getElem?_eq_some_iff.mp hi
      obtain ⟨hj', rfl⟩ := List.getElem?_eq_some_iff.mp hj
      exact List.pairwise_iff_getElem.mp h.apart j i hj' hi' hlt l k n hb ha
  obtain rfl : i = j := by omega
  obtain rfl := Option.some.inj (hi.symm.trans hj)
  exact ⟨rfl, h.own a (List.mem_of_getElem? hi) k l n ha hb⟩

/-- A slot that its function hides keeps what it holds in a step, unless its activation stores to it. -/
theorem Secured.slot_kept (hext : ext.Confined) (hc : Secured M c) (hs : Ir.step M ext c = some d) {m : Nat}
    (hm : c.activation m = some fr) {k : Slot} (hk : fr.func.Hides k) (hn : fr.slots k = some n) :
    d.mem.cells (.stack n) = c.mem.cells (.stack n) ∨
      m + 1 = c.frames.length ∧ ∃ v ty code, fr.code = .store v (.alloca k ty) :: code := by
  have hlt : m < c.frames.length := by
    have := (List.getElem?_eq_some_iff.mp hm).1
    simpa using this
  have hget : c.frames[c.frames.length - 1 - m]? = some fr := by
    rw [← List.getElem?_reverse hlt]
    exact hm
  have hidden : Hidden c.frames n := ⟨fr, List.mem_of_getElem? hget, k, hk, hn⟩
  rcases (step_secluded hext hc.inside hc.secluded hs).2 n hidden with hcells |
    ⟨top, rest, v, l, ty, code, hf, hcode, hl⟩
  · exact .inl hcells
  · have htop : c.frames[0]? = some top := by rw [hf]; rfl
    obtain ⟨hpos, rfl⟩ := hc.secluded.owner hget htop hn hl
    rw [hpos] at hget
    obtain rfl := Option.some.inj (hget.symm.trans htop)
    exact .inr ⟨by omega, v, ty, code, hcode⟩

/-- An activation that waits stays as it is. -/
theorem waiting_step {m : Nat} (hs : Ir.step M ext c = some d) (hc : m + 1 < c.frames.length)
    (hd : m + 1 < d.frames.length) :
    d.activation m = c.activation m := by
  obtain ⟨top, stack, hf, ha⟩ := step_frames hs
  rw [hf, List.length_cons] at hc
  have hlt : m < stack.length := by omega
  rw [Config.activation, Config.activation, hf, outer_activation hlt]
  rcases ha with ⟨fr', -, hd'⟩ | ⟨fr', callee, -, hd'⟩ | ⟨caller, rest, regs, rfl, hd'⟩ | hd'
  · rw [hd', outer_activation hlt]
  · rw [hd', outer_activation (Nat.lt_succ_of_lt hlt), outer_activation hlt]
  · rw [hd', List.length_cons] at hd
    rw [hd', outer_activation (by omega), outer_activation (by omega)]
  · rw [hd'] at hd
    cases hd

/-- A run in which activation number `m` waits. -/
def Waits (M : Module) (ext : Ext W) (m : Nat) : Config W → Config W → Prop :=
  ReflTransGen fun c d => Ir.step M ext c = some d ∧ m + 1 < d.frames.length

/-- While an activation waits it stays as it is, and so do the slots that its function hides. -/
theorem Secured.waits (hext : ext.Confined) {m : Nat} (hc : Secured M c) (hw : m + 1 < c.frames.length)
    (h : Waits M ext m c d) (hm : c.activation m = some fr) :
    d.activation m = some fr ∧ Secured M d ∧ m + 1 < d.frames.length ∧
      ∀ k n, fr.func.Hides k → fr.slots k = some n → d.mem.cells (.stack n) = c.mem.cells (.stack n) := by
  induction h with
  | refl => exact ⟨hm, hc, hw, fun _ _ _ _ => rfl⟩
  | tail _ hs ih =>
    obtain ⟨hact, hsec, hlt, hcells⟩ := ih
    refine ⟨(waiting_step hs.1 hlt hs.2).trans hact, hsec.step hext hs.1, hs.2, fun k n hk hn => ?_⟩
    rcases hsec.slot_kept hext hs.1 hact hk hn with hkept | ⟨hlast, -⟩
    · exact hkept.trans (hcells k n hk hn)
    · omega

end Machine

end Ir
