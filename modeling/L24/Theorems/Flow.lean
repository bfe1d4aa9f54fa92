import L24.Flow
import L24.Theorems.Program

/-! Basic blocks: what the static analysis of `Flow` says about the blocks of an emitted function. -/

namespace L24
open Ir Relation

/-! ### Blocks -/

/-- One terminator, at the end. -/
def WellTerminated (is : List Inst) : Prop :=
  ∃ js i, is = js ++ [i] ∧ i.isTerminator = true ∧ ∀ j ∈ js, j.isTerminator = false

theorem wellTerminated_iff_getLast {is : List Inst} : WellTerminated is ↔
    (is.getLast?.any Inst.isTerminator && is.dropLast.all (!·.isTerminator)) = true := by
  constructor
  · rintro ⟨js, i, rfl, hi, hj⟩
    simpa [hi] using hj
  · intro h
    rcases List.eq_nil_or_concat is with rfl | ⟨js, i, rfl⟩
    · simp at h
    · exact ⟨js, i, List.concat_eq_append, by simpa using h⟩

instance (is : List Inst) : Decidable (WellTerminated is) := decidable_of_iff _ wellTerminated_iff_getLast.symm

/-- Something stands behind a terminator. -/
def EndsEarly (is : List Inst) : Prop := ∃ js i ks, is = js ++ i :: ks ∧ i.isTerminator = true ∧ ks ≠ []

theorem EndsEarly.not_wellTerminated {is : List Inst} (h : EndsEarly is) : ¬ WellTerminated is := by
  rintro ⟨js', i', he, -, hj⟩
  obtain ⟨js, i, ks, rfl, hi, hks⟩ := h
  obtain ⟨ks, k, rfl⟩ := List.eq_nil_or_concat ks |>.resolve_left hks
  have hcat : (js ++ i :: ks) ++ [k] = js' ++ [i'] := by simpa [List.concat_eq_append] using he
  have := List.append_inj_left' hcat rfl
  have hi' := hj i (by rw [← this]; simp)
  rw [hi] at hi'
  cases hi'

theorem EndsEarly.grows {b b' as js : List Inst} (h : EndsEarly b) (hg : BlockGrows b b' as js) : EndsEarly b' := by
  obtain ⟨xs, i, ks, rfl, hi, hks⟩ := h
  exact ⟨as ++ xs, i, ks ++ js, by rw [hg.1]; simp [List.append_assoc], hi, by simp [hks]⟩

/-- How a block ends; nothing is said about a broken one. -/
def Ending.Of : Ending → List Inst → Prop
  | .falls, is => ∀ i ∈ is, i.isTerminator = false
  | .branches, is => ∃ js i, is = js ++ [i] ∧ i.isBranch = true ∧ ∀ j ∈ js, j.isTerminator = false
  | .returns, is => ∃ js i, is = js ++ [i] ∧ i.isReturn = true ∧ ∀ j ∈ js, j.isTerminator = false
  | .broken, _ => False

theorem Ending.Of.emit {k : Ending} {is js : List Inst} (h : k.Of is) (hj : ∀ j ∈ js, j.isTerminator = false)
    (hne : js ≠ []) : k = .falls ∧ Ending.falls.Of (is ++ js) ∨ k ≠ .falls ∧ EndsEarly (is ++ js) := by
  cases k with
  | falls => exact Or.inl ⟨rfl, fun i hi => (List.mem_append.mp hi).elim (h i) (hj i)⟩
  | branches =>
    obtain ⟨xs, i, rfl, hi, -⟩ := h
    exact Or.inr ⟨by decide, xs, i, js, by simp, by simp [Inst.isTerminator, hi], hne⟩
  | returns =>
    obtain ⟨xs, i, rfl, hi, -⟩ := h
    exact Or.inr ⟨by decide, xs, i, js, by simp, by simp [Inst.isTerminator, hi], hne⟩
  | broken => exact h.elim

theorem Ending.Of.terminate {k : Ending} {is : List Inst} (h : k.Of is) (i : Inst) :
    k = .falls ∧ (∀ j ∈ is, j.isTerminator = false) ∨ k ≠ .falls ∧ EndsEarly (is ++ [i]) := by
  cases k with
  | falls => exact Or.inl ⟨rfl, h⟩
  | branches =>
    obtain ⟨xs, j, rfl, hj, -⟩ := h
    exact Or.inr ⟨by decide, xs, j, [i], by simp, by simp [Inst.isTerminator, hj], by simp⟩
  | returns =>
    obtain ⟨xs, j, rfl, hj, -⟩ := h
    exact Or.inr ⟨by decide, xs, j, [i], by simp, by simp [Inst.isTerminator, hj], by simp⟩
  | broken => exact h.elim

/-! ### Functions -/

/-- In a block of function number `func` something stands behind a terminator. -/
def Broken (func : Nat) (s : State) : Prop :=
  ∃ f l, s.functions[func]? = some f ∧ l ∈ f.layout ∧ EndsEarly (s.blocks l)

/-- The blocks of function number `func` are well-terminated, but for the insertion block, which ends as
    `k` says. -/
def Clean (func : Nat) (k : Ending) (s : State) : Prop :=
  ∃ f p, s.functions[func]? = some f ∧ s.insertPoint = some ⟨func, p⟩ ∧ p ∈ f.layout ∧
    (∀ l ∈ f.layout, l ≠ p → WellTerminated (s.blocks l)) ∧ k.Of (s.blocks p)

/-- What an ending says about the function that is being generated. -/
def Sound (func : Nat) (k : Ending) (s : State) : Prop := if k = .broken then Broken func s else Clean func k s

section Sound
variable {func base entry : Nat} {k : Ending} {s t : State}

theorem sound_broken : Sound func .broken s ↔ Broken func s := by simp [Sound]

theorem sound_clean (h : k ≠ .broken) : Sound func k s ↔ Clean func k s := by simp [Sound, h]

theorem Broken.grows {home : Nat} (h : Broken func s) (g : Grows func base home entry s t) : Broken func t := by
  obtain ⟨f, l, hf, hl, he⟩ := h
  obtain ⟨ls, -, hfs⟩ := g.functions
  obtain ⟨as, js, hb, -, -⟩ := g.blocks l
  refine ⟨{ f with layout := f.layout ++ ls }, l, ?_, List.mem_append_left _ hl, he.grows hb⟩
  rw [hfs, List.getElem?_modify, hf]
  simp

/-- A broken function stays broken. -/
theorem Broken.run (h : Broken func s) (hs : Prologue func entry s) (r : GenRun func base s t) : Broken func t := by
  obtain ⟨home, -, g⟩ := hs.grows r
  exact h.grows g

/-- The same blocks and functions, the same insertion point. -/
theorem Clean.congr (h : Clean func k s) (hf : t.functions = s.functions) (hb : t.blocks = s.blocks)
    (hp : t.insertPoint = s.insertPoint) : Clean func k t := by
  unfold Clean at *
  rw [hf, hb, hp]
  exact h

theorem Clean.append {f : FunctionObj} {p : Label} {is : List Inst} {k' : Ending}
    (hf : s.functions[func]? = some f) (hp : s.insertPoint = some ⟨func, p⟩) (hm : p ∈ f.layout)
    (hl : ∀ l ∈ f.layout, l ≠ p → WellTerminated (s.blocks l)) (hk : k'.Of (s.blocks p ++ is)) :
    Clean func k' (s.append is) := by
  refine ⟨f, p, ?_, ?_, hm, fun l hl' hne => ?_, ?_⟩
  · rw [State.append_functions]; exact hf
  · rw [State.append_insertPoint]; exact hp
  · rw [append_blocks_of_ne hp hne]
    exact hl l hl' hne
  · rw [State.append_blocks s hp, Function.update_self]
    exact hk

theorem Broken.append {f : FunctionObj} {p : Label} {is : List Inst} (hf : s.functions[func]? = some f)
    (hp : s.insertPoint = some ⟨func, p⟩) (hm : p ∈ f.layout) (he : EndsEarly (s.blocks p ++ is)) :
    Broken func (s.append is) := by
  refine ⟨f, p, ?_, hm, ?_⟩
  · rw [State.append_functions]; exact hf
  · rw [State.append_blocks s hp, Function.update_self]
    exact he

theorem Broken.congr (h : Broken func s) (hf : t.functions = s.functions) (hb : t.blocks = s.blocks) :
    Broken func t := by
  unfold Broken at *
  rw [hf, hb]
  exact h

theorem Sound.congr (h : Sound func k s) (hf : t.functions = s.functions) (hb : t.blocks = s.blocks)
    (hp : t.insertPoint = s.insertPoint) : Sound func k t := by
  unfold Sound at *
  split at h
  · rw [if_pos ‹_›]; exact h.congr hf hb
  · rw [if_neg ‹_›]; exact h.congr hf hb hp

/-- Instructions put behind. -/
theorem Sound.emits {is : List Inst} (h : Sound func k s) (hs : Prologue func entry s) (e : Emits s is t)
    (hne : is ≠ []) : Sound func k.emit t := by
  by_cases hk : k = .broken
  · subst hk
    exact sound_broken.mpr ((sound_broken.mp h).run hs (GenRun.emits e : GenRun func 0 s t))
  · obtain ⟨f, p, hf, hp, hm, hl, ho⟩ := (sound_clean hk).mp h
    have hi : (s.append is).insertPoint = t.insertPoint := by rw [State.append_insertPoint, e.insertPoint]
    have hf' : (s.append is).functions = t.functions := by rw [State.append_functions, e.functions]
    rcases ho.emit (fun j hj => (e.plain j hj).1) hne with ⟨rfl, ho'⟩ | ⟨hk', he⟩
    · exact (sound_clean Ending.noConfusion).mpr ((Clean.append hf hp hm hl ho').congr hf'.symm e.blocks hi.symm)
    · have : k.emit = .broken := by cases k <;> first | rfl | exact absurd rfl hk'
      rw [this]
      exact sound_broken.mpr ((Broken.append hf hp hm he).congr hf'.symm e.blocks)

/-- A terminator put behind. -/
theorem Sound.terminate {i : Inst} {last : Ending} (h : Sound func k s) (hs : Prologue func entry s)
    (hi : i.isBranch = true ∧ last = .branches ∨ i.isReturn = true ∧ last = .returns) :
    Sound func (k.terminate last) (s.append [i]) := by
  have hterm : i.isTerminator = true := by
    rcases hi with ⟨hi, -⟩ | ⟨hi, -⟩ <;> simp [Inst.isTerminator, hi]
  by_cases hk : k = .broken
  · subst hk
    exact sound_broken.mpr ((sound_broken.mp h).run hs (.single (.terminator hterm) : GenRun func 0 s _))
  · obtain ⟨f, p, hf, hp, hm, hl, ho⟩ := (sound_clean hk).mp h
    rcases ho.terminate i with ⟨rfl, hj⟩ | ⟨hk', he⟩
    · have hlast : last ≠ .broken := by rcases hi with ⟨-, rfl⟩ | ⟨-, rfl⟩ <;> decide
      refine (sound_clean hlast).mpr (Clean.append hf hp hm hl ?_)
      rcases hi with ⟨hi, rfl⟩ | ⟨hi, rfl⟩ <;> exact ⟨_, i, rfl, hi, hj⟩
    · have : k.terminate last = .broken := by cases k <;> first | rfl | exact absurd rfl hk'
      rw [this]
      exact sound_broken.mpr (Broken.append hf hp hm he)

/-- The next block is entered, empty, behind a block that is closed. -/
theorem Clean.enter {l : Label} (h : Clean func k s) (hk : k = .branches ∨ k = .returns) (hl : s.blocks l = []) :
    Clean func .falls (s.enter func l) := by
  obtain ⟨f, p, hf, hp, hm, hw, ho⟩ := h
  have hclosed : WellTerminated (s.blocks p) := by
    rcases hk with rfl | rfl <;> obtain ⟨js, i, he, hi, hj⟩ := ho <;>
      exact ⟨js, i, he, by simp [Inst.isTerminator, hi], hj⟩
  refine ⟨{ f with layout := f.layout ++ [l] }, l, ?_, rfl, by simp, fun l' hl' hne => ?_, fun i hi => ?_⟩
  · show (s.functions.modify func _)[func]? = _
    rw [List.getElem?_modify, hf]
    simp
  · show WellTerminated (s.blocks l')
    rcases List.mem_append.mp hl' with hl' | hl'
    · by_cases hlp : l' = p
      · exact hlp ▸ hclosed
      · exact hw l' hl' hlp
    · exact absurd (List.mem_singleton.mp hl') hne
  · rw [show (s.enter func l).blocks l = s.blocks l from rfl, hl] at hi
    cases hi

/-- The end of a branch: well closed, or something now stands behind a return. -/
theorem Sound.brUnlessBranch {p : InsertPoint} {target : Label} (h : Sound func k s) (hs : Prologue func entry s)
    (hp : s.insertPoint = some p) :
    k.closes = true ∧ Clean func .branches (s.brUnlessBranch p target) ∨
    k.closes = false ∧ Broken func (s.brUnlessBranch p target) := by
  cases k with
  | broken => exact Or.inr ⟨rfl, (sound_broken.mp h).run hs (GenRun.brUnlessBranch : GenRun func 0 s _)⟩
  | falls =>
    refine Or.inl ⟨rfl, ?_⟩
    obtain ⟨f, q, hf, hq, hm, hw, ho⟩ := (sound_clean (by decide)).mp h
    obtain rfl := Option.some.inj (hp.symm.trans hq)
    have hc : ∀ {s' : State}, s'.functions = s.functions → s'.blocks = s.blocks → s'.insertPoint = s.insertPoint →
        Clean func .branches (s'.append [.br target]) := by
      intro s' h₁ h₂ h₃
      exact Clean.append (by rw [h₁]; exact hf) (by rw [h₃]; exact hq) hm (by rw [h₂]; exact hw)
        ⟨_, _, rfl, rfl, by rw [h₂]; exact ho⟩
    unfold State.brUnlessBranch
    split
    · rename_i i hi
      have hi' : i.isBranch = false := by
        have := ho i (List.mem_of_getLast? hi)
        simp only [Inst.isTerminator, Bool.or_eq_false_iff] at this
        exact this.1
      rw [if_neg (by simp [hi'])]
      exact hc rfl rfl rfl
    · exact hc rfl rfl rfl
  | branches =>
    refine Or.inl ⟨rfl, ?_⟩
    have hc := (sound_clean (by decide)).mp h
    obtain ⟨f, q, hf, hq, hm, hw, js, i, he, hi, hj⟩ := hc
    obtain rfl := Option.some.inj (hp.symm.trans hq)
    unfold State.brUnlessBranch
    rw [he, List.getLast?_concat]
    simp only [hi, ↓reduceIte]
    exact (sound_clean (by decide)).mp h
  | returns =>
    refine Or.inr ⟨rfl, ?_⟩
    obtain ⟨f, q, hf, hq, hm, hw, js, i, he, hi, hj⟩ := (sound_clean (by decide)).mp h
    obtain rfl := Option.some.inj (hp.symm.trans hq)
    have hi' : i.isBranch = false := by cases i <;> first | rfl | simp [Inst.isReturn] at hi
    unfold State.brUnlessBranch
    rw [he, List.getLast?_concat]
    simp only [hi', Bool.false_eq_true, ↓reduceIte]
    refine Broken.append hf hq hm ⟨js, i, [.br target], by rw [he]; simp, by simp [Inst.isTerminator, hi], by simp⟩

end Sound

/-! ### Literal expressions -/

/-- What a literal expression is folded to: an integer, or poison. -/
def Numeric : Const → Prop
  | .int _ => True
  | .poison ty => ty = .i64
  | _ => False

/-- What a comparison of such constants is folded to. -/
def Truth : Const → Prop
  | .bool _ => True
  | .poison ty => ty = .i1
  | _ => False

section Folded
variable {c d e : Const}

theorem numeric_ty (h : Numeric c) : c.ty = .i64 := by
  cases c with
  | int x => rfl
  | poison ty => exact h
  | _ => cases h

/-! The folder gets nothing that it does not compute itself, so the constant is the same for each. -/

theorem binOpFold_numeric (op : BinOp) (hc : Numeric c) (hd : Numeric d) :
    ∃ k : Const, Numeric k ∧ ∀ [ConstantFolder], op.fold c d = k := by
  cases c with
  | int x => cases d with
    | int y =>
      refine ⟨_, ?_, fun {_} => rfl⟩
      split <;> trivial
    | poison ty => exact ⟨.poison .i64, rfl, rfl⟩
    | _ => cases hd
  | poison ty => cases d with
    | int y => exact ⟨.poison ty, hc, rfl⟩
    | poison ty' => exact ⟨.poison ty, hc, rfl⟩
    | _ => cases hd
  | _ => cases hc

theorem predFold_numeric (p : Pred) (hc : Numeric c) (hd : Numeric d) :
    ∃ k : Const, Truth k ∧ ∀ [ConstantFolder], p.fold c d = k := by
  cases c with
  | int x => cases d with
    | int y => exact ⟨.bool (p.eval x y), trivial, rfl⟩
    | poison ty => exact ⟨.poison .i1, rfl, rfl⟩
    | _ => cases hd
  | poison ty => cases d with
    | int y => exact ⟨.poison .i1, rfl, rfl⟩
    | poison ty' => exact ⟨.poison .i1, rfl, rfl⟩
    | _ => cases hd
  | _ => cases hc

theorem truth_ty (h : Truth c) : c.ty = .i1 := by
  cases c with
  | bool b => rfl
  | poison ty => exact h
  | _ => cases h

theorem foldSelect_truth (hc : Truth c) (hd : Truth d) (he : Truth e) :
    ∃ k : Const, Truth k ∧ ∀ [ConstantFolder], foldSelect c d e = k := by
  cases c with
  | bool b =>
    refine ⟨if b then d else e, ?_, rfl⟩
    split
    · exact hd
    · exact he
  | poison ty => exact ⟨.poison d.ty, truth_ty hd, rfl⟩
  | _ => cases hc

theorem foldBooleanToInt_truth (hc : Truth c) :
    ∃ k : Const, Numeric k ∧ ∀ [ConstantFolder], foldBooleanToInt c = k := by
  cases c with
  | bool b => exact ⟨.int (boolToInt b), trivial, rfl⟩
  | poison ty =>
    obtain rfl : ty = .i1 := hc
    exact ⟨.poison .i64, rfl, rfl⟩
  | _ => cases hc

theorem nullValue_numeric (hc : Numeric c) : Numeric (nullValue c.ty) := by
  cases c with
  | int x => trivial
  | poison ty =>
    obtain rfl : ty = .i64 := hc
    trivial
  | _ => cases hc

/-- A comparison as an integer. -/
theorem foldComparison_numeric (p : Pred) (hc : Numeric c) (hd : Numeric d) :
    ∃ k : Const, Numeric k ∧ ∀ [ConstantFolder], foldBooleanToInt (p.fold c d) = k := by
  obtain ⟨b, hb, h⟩ := predFold_numeric p hc hd
  obtain ⟨k, hk, h'⟩ := foldBooleanToInt_truth hb
  exact ⟨k, hk, fun {_} => by rw [h, h']⟩

/-- A logical operation on such constants, each compared with zero. -/
theorem foldLogical_numeric (hc : Numeric c) (hd : Numeric d) :
    (∃ k : Const, Numeric k ∧ ∀ [ConstantFolder],
      foldBooleanToInt (foldSelect (foldIntToBoolean c) (foldIntToBoolean d) (.bool false)) = k) ∧
    (∃ k : Const, Numeric k ∧ ∀ [ConstantFolder],
      foldBooleanToInt (foldSelect (foldIntToBoolean c) (.bool true) (foldIntToBoolean d)) = k) := by
  have hzero : Numeric (.int 0) := trivial
  obtain ⟨x, hx, hc'⟩ := predFold_numeric .ne hzero hc
  obtain ⟨y, hy, hd'⟩ := predFold_numeric .ne hzero hd
  constructor
  · obtain ⟨z, hz, hs⟩ := foldSelect_truth hx hy (e := .bool false) trivial
    obtain ⟨k, hk, hi⟩ := foldBooleanToInt_truth hz
    exact ⟨k, hk, fun {_} => by rw [foldIntToBoolean, foldIntToBoolean, hc', hd', hs, hi]⟩
  · obtain ⟨z, hz, hs⟩ := foldSelect_truth hx (d := .bool true) trivial hy
    obtain ⟨k, hk, hi⟩ := foldBooleanToInt_truth hz
    exact ⟨k, hk, fun {_} => by rw [foldIntToBoolean, foldIntToBoolean, hc', hd', hs, hi]⟩

theorem Exp.fold_numeric : ∀ e : Exp, e.literal = true → Numeric e.fold
  | .number _, _ => trivial
  | .unary .plus e, h => e.fold_numeric h
  | .unary .minus e, h => by
    have he := e.fold_numeric h
    obtain ⟨k, hk, heq⟩ := binOpFold_numeric .sub (nullValue_numeric he) he
    rwa [Exp.fold, @heq .symbolic]
  | .unary .not e, h => by
    obtain ⟨k, hk, heq⟩ := foldComparison_numeric .eq (c := .int 0) trivial (e.fold_numeric h)
    rwa [Exp.fold, @heq .symbolic]
  | .arith op a b, h => by
    rw [Exp.literal, Bool.and_eq_true] at h
    obtain ⟨k, hk, heq⟩ := binOpFold_numeric op (a.fold_numeric h.1) (b.fold_numeric h.2)
    rwa [Exp.fold, @heq .symbolic]
  | .cmp p a b, h => by
    rw [Exp.literal, Bool.and_eq_true] at h
    obtain ⟨k, hk, heq⟩ := foldComparison_numeric p (a.fold_numeric h.1) (b.fold_numeric h.2)
    rwa [Exp.fold, @heq .symbolic]
  | .land a b, h => by
    rw [Exp.literal, Bool.and_eq_true] at h
    obtain ⟨k, hk, heq⟩ := (foldLogical_numeric (a.fold_numeric h.1) (b.fold_numeric h.2)).1
    rwa [Exp.fold, @heq .symbolic]
  | .lor a b, h => by
    rw [Exp.literal, Bool.and_eq_true] at h
    obtain ⟨k, hk, heq⟩ := (foldLogical_numeric (a.fold_numeric h.1) (b.fold_numeric h.2)).2
    rwa [Exp.fold, @heq .symbolic]

section Fold
variable [ConstantFolder] {a b : Exp}

theorem Exp.fold_minus {e : Exp} (h : e.literal = true) :
    BinOp.sub.fold (nullValue e.fold.ty) e.fold = (Exp.unary .minus e).fold := by
  obtain ⟨k, -, heq⟩ := binOpFold_numeric .sub (nullValue_numeric (e.fold_numeric h)) (e.fold_numeric h)
  rw [Exp.fold, @heq .symbolic, heq]

theorem Exp.fold_not {e : Exp} (h : e.literal = true) :
    foldBooleanToInt (Pred.eq.fold (.int 0) e.fold) = (Exp.unary .not e).fold := by
  obtain ⟨k, -, heq⟩ := foldComparison_numeric .eq (c := .int 0) trivial (e.fold_numeric h)
  rw [Exp.fold, @heq .symbolic, heq]

theorem Exp.fold_arith (op : BinOp) (h : (a.literal && b.literal) = true) :
    op.fold a.fold b.fold = (Exp.arith op a b).fold := by
  rw [Bool.and_eq_true] at h
  obtain ⟨k, -, heq⟩ := binOpFold_numeric op (a.fold_numeric h.1) (b.fold_numeric h.2)
  rw [Exp.fold, @heq .symbolic, heq]

theorem Exp.fold_cmp (p : Pred) (h : (a.literal && b.literal) = true) :
    foldBooleanToInt (p.fold a.fold b.fold) = (Exp.cmp p a b).fold := by
  rw [Bool.and_eq_true] at h
  obtain ⟨k, -, heq⟩ := foldComparison_numeric p (a.fold_numeric h.1) (b.fold_numeric h.2)
  rw [Exp.fold, @heq .symbolic, heq]

theorem Exp.fold_land (h : (a.literal && b.literal) = true) :
    foldBooleanToInt (foldSelect (foldIntToBoolean a.fold) (foldIntToBoolean b.fold) (.bool false)) =
      (Exp.land a b).fold := by
  rw [Bool.and_eq_true] at h
  obtain ⟨k, -, heq⟩ := (foldLogical_numeric (a.fold_numeric h.1) (b.fold_numeric h.2)).1
  rw [Exp.fold, @heq .symbolic, heq]

theorem Exp.fold_lor (h : (a.literal && b.literal) = true) :
    foldBooleanToInt (foldSelect (foldIntToBoolean a.fold) (.bool true) (foldIntToBoolean b.fold)) =
      (Exp.lor a b).fold := by
  rw [Bool.and_eq_true] at h
  obtain ⟨k, -, heq⟩ := (foldLogical_numeric (a.fold_numeric h.1) (b.fold_numeric h.2)).2
  rw [Exp.fold, @heq .symbolic, heq]

end Fold

end Folded

/-- Either a literal, folded to `c`, for which nothing is generated, or something is generated and the value
    is no constant. -/
def Folds (lit : Bool) (c : Const) (s : State) (v : Value) (t : State) : Prop :=
  (lit = true ∧ v = .const c ∧ t = s) ∨
  (lit = false ∧ v.isConst = false ∧ ∃ is, is ≠ [] ∧ Emits s is t)

section Literals
variable {s t u w : State} {v x y : Value} {l₁ l₂ : Bool} {c₁ c₂ : Const}

theorem Folds.emitted (h : Folds l₁ c₁ s x t) (hv : v.isConst = false) {i : Inst} (e : Emits t [i] u) :
    v.isConst = false ∧ ∃ is, is ≠ [] ∧ Emits s is u := by
  rcases h with ⟨-, -, rfl⟩ | ⟨-, -, is, -, e'⟩
  · exact ⟨hv, _, List.cons_ne_nil _ _, e⟩
  · exact ⟨hv, _, by simp, e'.trans e⟩

theorem Folds.trans (h₁ : Folds l₁ c₁ s x u) (h₂ : Folds l₂ c₂ u y w) :
    (l₁ && l₂) = true ∧ x = .const c₁ ∧ y = .const c₂ ∧ w = s ∨
    (l₁ && l₂) = false ∧ (∀ c d, x = .const c → y ≠ .const d) ∧ ∃ is, is ≠ [] ∧ Emits s is w := by
  rcases h₁ with ⟨rfl, rfl, rfl⟩ | ⟨rfl, hx, is, hne, e⟩
  · rcases h₂ with ⟨rfl, rfl, rfl⟩ | ⟨rfl, hy, js, hne, e⟩
    · exact Or.inl ⟨rfl, rfl, rfl, rfl⟩
    · refine Or.inr ⟨rfl, fun _ d _ hd => ?_, js, hne, e⟩
      rw [hd] at hy
      cases hy
  · refine Or.inr ⟨rfl, fun c d hc _ => ?_, ?_⟩
    · rw [hc] at hx
      cases hx
    rcases h₂ with ⟨-, -, rfl⟩ | ⟨-, -, js, -, e'⟩
    · exact ⟨is, hne, e⟩
    · exact ⟨_, by simp [hne], e.trans e'⟩

/-- The constant is read for a literal only. -/
theorem Folds.congr (h : Folds l₁ c₁ s v t) (hc : l₁ = true → c₁ = c₂) : Folds l₁ c₂ s v t := by
  rcases h with ⟨hl, rfl, rfl⟩ | h
  · exact Or.inl ⟨hl, by rw [hc hl], rfl⟩
  · exact Or.inr h

variable [ConstantFolder]

theorem Folds.binOp {op : BinOp} (h₁ : Folds l₁ c₁ s x u) (h₂ : Folds l₂ c₂ u y w)
    (h : createBinOp op x y w = .ok v t) : Folds (l₁ && l₂) (op.fold c₁ c₂) s v t := by
  rcases h₁.trans h₂ with ⟨hl, rfl, rfl, rfl⟩ | ⟨hl, hxy, is, hne, e⟩
  · rcases createBinOp_ok.mp h with ⟨_, _, hc, hd, rfl, rfl⟩ | ⟨h, -⟩
    · cases hc
      cases hd
      exact Or.inl ⟨hl, rfl, rfl⟩
    · exact absurd rfl (h _ _ rfl)
  · rcases createBinOp_ok.mp h with ⟨_, _, rfl, rfl, -⟩ | ⟨-, rfl, rfl⟩
    · exact absurd rfl (hxy _ _ rfl)
    · exact Or.inr ⟨hl, rfl, _, by simp [hne], e.trans (.emit ⟨rfl, rfl⟩)⟩

theorem Folds.iCmp {p : Pred} (h₁ : Folds l₁ c₁ s x u) (h₂ : Folds l₂ c₂ u y w)
    (h : createICmp p x y w = .ok v t) : Folds (l₁ && l₂) (p.fold c₁ c₂) s v t := by
  rcases h₁.trans h₂ with ⟨hl, rfl, rfl, rfl⟩ | ⟨hl, hxy, is, hne, e⟩
  · rcases createICmp_ok.mp h with ⟨_, _, hc, hd, rfl, rfl⟩ | ⟨h, -⟩
    · cases hc
      cases hd
      exact Or.inl ⟨hl, rfl, rfl⟩
    · exact absurd rfl (h _ _ rfl)
  · rcases createICmp_ok.mp h with ⟨_, _, rfl, rfl, -⟩ | ⟨-, rfl, rfl⟩
    · exact absurd rfl (hxy _ _ rfl)
    · exact Or.inr ⟨hl, rfl, _, by simp [hne], e.trans (.emit ⟨rfl, rfl⟩)⟩

omit [ConstantFolder] in
theorem Folds.const (c : Const) (s : State) : Folds true c s (.const c) s := Or.inl ⟨rfl, rfl, rfl⟩

/-- A comparison of a constant with a value. -/
theorem Folds.iCmpConst {p : Pred} {c : Const} (h₁ : Folds l₁ c₁ s x u)
    (h : createICmp p (.const c) x u = .ok v t) : Folds l₁ (p.fold c c₁) s v t := by
  have := (Folds.const c s).iCmp h₁ h
  rwa [Bool.true_and] at this

theorem Folds.binOpConst {op : BinOp} {c : Const} (h₁ : Folds l₁ c₁ s x u)
    (h : createBinOp op (.const c) x u = .ok v t) : Folds l₁ (op.fold c c₁) s v t := by
  have := (Folds.const c s).binOp h₁ h
  rwa [Bool.true_and] at this

theorem Folds.intCast (h₁ : Folds l₁ c₁ s x u) (h : createIntCast x u = .ok v t) :
    Folds l₁ (foldBooleanToInt c₁) s v t := by
  unfold foldBooleanToInt
  rcases createIntCast_ok.mp h with ⟨hty, rfl, rfl⟩ | ⟨hty, ⟨c, rfl, rfl, rfl⟩ | ⟨hx, rfl, rfl⟩⟩
  · rcases h₁ with ⟨hl, rfl, rfl⟩ | h₁
    · exact Or.inl ⟨hl, by rw [if_pos (show c₁.ty = .i64 from hty)], rfl⟩
    · exact Or.inr h₁
  · rcases h₁ with ⟨hl, hc, rfl⟩ | ⟨-, h, -⟩
    · cases hc
      exact Or.inl ⟨hl, by rw [if_neg (show c₁.ty ≠ .i64 from hty)], rfl⟩
    · cases h
  · rcases h₁ with ⟨hl, rfl, rfl⟩ | ⟨hl, hx', is, hne, e⟩
    · exact absurd rfl (hx _)
    · exact Or.inr ⟨hl, rfl, _, by simp [hne], e.trans (.emit ⟨rfl, rfl⟩)⟩

theorem Folds.logicalOr (h₁ : Folds l₁ c₁ s x u) (h₂ : Folds l₂ c₂ u y w)
    (h : createSelect x (.const (.bool true)) y w = .ok v t) :
    Folds (l₁ && l₂) (foldSelect c₁ (.bool true) c₂) s v t := by
  rcases h₁.trans h₂ with ⟨hl, rfl, rfl, rfl⟩ | ⟨hl, hxy, is, hne, e⟩
  · rcases createSelect_ok.mp h with ⟨_, _, _, hc, hk, hd, rfl, rfl⟩ | ⟨h, -⟩
    · cases hc
      cases hk
      cases hd
      exact Or.inl ⟨hl, rfl, rfl⟩
    · exact absurd rfl (h _ _ _ rfl rfl)
  · rcases createSelect_ok.mp h with ⟨_, _, _, rfl, -, rfl, -⟩ | ⟨-, rfl, rfl⟩
    · exact absurd rfl (hxy _ _ rfl)
    · exact Or.inr ⟨hl, rfl, _, by simp [hne], e.trans (.emit ⟨rfl, rfl⟩)⟩

theorem Folds.logicalAnd (h₁ : Folds l₁ c₁ s x u) (h₂ : Folds l₂ c₂ u y w)
    (h : createSelect x y (.const (.bool false)) w = .ok v t) :
    Folds (l₁ && l₂) (foldSelect c₁ c₂ (.bool false)) s v t := by
  rcases h₁.trans h₂ with ⟨hl, rfl, rfl, rfl⟩ | ⟨hl, hxy, is, hne, e⟩
  · rcases createSelect_ok.mp h with ⟨_, _, _, hc, hk, hd, rfl, rfl⟩ | ⟨h, -⟩
    · cases hc
      cases hk
      cases hd
      exact Or.inl ⟨hl, rfl, rfl⟩
    · exact absurd rfl (h _ _ _ rfl rfl)
  · rcases createSelect_ok.mp h with ⟨_, _, _, rfl, rfl, -, -⟩ | ⟨-, rfl, rfl⟩
    · exact absurd rfl (hxy _ _ rfl)
    · exact Or.inr ⟨hl, rfl, _, by simp [hne], e.trans (.emit ⟨rfl, rfl⟩)⟩

theorem getValue_inst {z : String} {sub : Option Value} (hn : s.namedValues ≠ []) (h : getValue z sub s = .ok v t) :
    v.isConst = false ∧ ∃ is, is ≠ [] ∧ Emits s is t := by
  rcases getValue_ok h with ⟨nv, -, h⟩ | ⟨-, h⟩
  · rcases createGetValueInst_ok h with ⟨-, -, rfl, rfl⟩ | ⟨-, -, rfl, rfl⟩ | ⟨i, p, u, -, hp, rfl, rfl⟩
    · exact ⟨rfl, _, by simp, (Emits.log _).trans (.emit ⟨rfl, rfl⟩)⟩
    · exact ⟨rfl, _, by simp, (Emits.log _).trans (.emit ⟨rfl, rfl⟩)⟩
    · obtain ⟨is, e⟩ := elementPtr_emits hp
      exact ⟨rfl, _, by simp, (Emits.log _).trans (e.trans (.emit ⟨rfl, rfl⟩))⟩
  · obtain ⟨g, -, ⟨-, h, -⟩ | ⟨-, -, rfl, rfl⟩ | ⟨i, p, u, -, hp, rfl, rfl⟩⟩ := getGlobalValue_ok h
    · exact absurd h hn
    · exact ⟨rfl, _, by simp, (Emits.log _).trans (.emit ⟨rfl, rfl⟩)⟩
    · obtain ⟨is, e⟩ := createGEP_emits (globalElementPtr_ok.mp hp)
      exact ⟨rfl, _, by simp, (Emits.log _).trans (e.trans (.emit ⟨rfl, rfl⟩))⟩

/-- In a function, exactly the literal expressions are folded away. -/
theorem genExp_folds : ∀ (e : Exp) {s t : State} {v : Value}, s.namedValues ≠ [] → genExp e s = .ok v t →
    Folds e.literal e.fold s v t
  | .number n, s, t, v, _, h => by
    rw [genExp] at h
    obtain ⟨rfl, rfl⟩ := pure_ok.mp h
    exact .const _ _
  | .name x, s, t, v, hn, h => by
    rw [genExp] at h
    exact Or.inr ⟨rfl, getValue_inst hn h⟩
  | .index x e, s, t, v, hn, h => by
    obtain ⟨i, u, hi, h⟩ := genExp_index_ok.mp h
    obtain ⟨is, e₁⟩ := genExp_emits e hi
    obtain ⟨hv, js, hne, e₂⟩ := getValue_inst (by rw [e₁.namedValues]; exact hn) h
    exact Or.inr ⟨rfl, hv, _, by simp [hne], e₁.trans e₂⟩
  | .call f args, s, t, v, _, h => by
    obtain ⟨func, vs, u, -, -, hvs, rfl, rfl⟩ := genExp_call_ok.mp h
    obtain ⟨is, e₁⟩ := genExps_emits args hvs
    exact Or.inr ⟨rfl, rfl, _, by simp, e₁.trans (.emit ⟨rfl, rfl⟩)⟩
  | .unary op e, s, t, v, hn, h => by
    obtain ⟨x, u, hx, hop⟩ := genExp_unary_ok.mp h
    have ih := genExp_folds e hn hx
    cases op with
    | plus =>
      obtain ⟨rfl, rfl⟩ := hop
      exact ih
    | minus =>
      -- The zero of the type is a constant, so `0 - x` folds exactly where the operand did.
      rcases ih with ⟨hl, rfl, rfl⟩ | ⟨hl, hx', he⟩
      · exact (Folds.binOpConst (Or.inl ⟨hl, rfl, rfl⟩) hop.2).congr Exp.fold_minus
      · have ih' : Folds e.literal e.fold s x u := Or.inr ⟨hl, hx', he⟩
        rcases ih'.binOpConst hop.2 with ⟨hl', -⟩ | h'
        · rw [hl] at hl'
          cases hl'
        · exact Or.inr h'
    | not =>
      obtain ⟨b, w, hb, hc⟩ := hop
      exact ((ih.iCmpConst hb).intCast hc).congr Exp.fold_not
  | .arith op a b, s, t, v, hn, h => by
    obtain ⟨x, u, y, w, hx, hy, h⟩ := genExp_arith_ok.mp h
    obtain ⟨is, e₁⟩ := genExp_emits a hx
    have hb := genExp_folds b (by rw [e₁.namedValues]; exact hn) hy
    exact ((genExp_folds a hn hx).binOp hb h).congr (Exp.fold_arith op)
  | .cmp p a b, s, t, v, hn, h => by
    obtain ⟨x, u, y, w, c, k, hx, hy, hc, h⟩ := genExp_cmp_ok.mp h
    obtain ⟨is, e₁⟩ := genExp_emits a hx
    have hb := genExp_folds b (by rw [e₁.namedValues]; exact hn) hy
    exact (((genExp_folds a hn hx).iCmp hb hc).intCast h).congr (Exp.fold_cmp p)
  | .land a b, s, t, v, hn, h => by
    obtain ⟨lv, rv, w, c, k, ⟨x, u, m, y, n, hx, hl, hy, hr⟩, hc, h⟩ := genExp_land_ok.mp h
    obtain ⟨is, e₁⟩ := genExp_emits a hx
    obtain ⟨js, e₂⟩ := createICmp_emits hl
    have hn' : m.namedValues ≠ [] := by rw [(e₁.trans e₂).namedValues]; exact hn
    -- The selection folds only where both of its operands did.
    have hsel := ((genExp_folds a hn hx).iCmpConst hl).logicalAnd ((genExp_folds b hn' hy).iCmpConst hr) hc
    exact (hsel.intCast h).congr Exp.fold_land
  | .lor a b, s, t, v, hn, h => by
    obtain ⟨lv, rv, w, c, k, ⟨x, u, m, y, n, hx, hl, hy, hr⟩, hc, h⟩ := genExp_lor_ok.mp h
    obtain ⟨is, e₁⟩ := genExp_emits a hx
    obtain ⟨js, e₂⟩ := createICmp_emits hl
    have hn' : m.namedValues ≠ [] := by rw [(e₁.trans e₂).namedValues]; exact hn
    have hsel := ((genExp_folds a hn hx).iCmpConst hl).logicalOr ((genExp_folds b hn' hy).iCmpConst hr) hc
    exact (hsel.intCast h).congr Exp.fold_lor

theorem codeGenExp_folds {e : ExprNode} (hn : s.namedValues ≠ []) (h : codeGenExp e s = .ok v t) :
    Folds e.core.literal e.core.fold s v t := genExp_folds e.core hn (codeGenExp_core e ▸ h)

end Literals

/-! ### Statements -/

section Statements
variable {func entry : Nat} {k : Ending} {s t : State}

theorem Ending.emit_emit (k : Ending) : k.emit.emit = k.emit := by cases k <;> rfl

theorem Sound.folds {e : Exp} {c : Const} {v : Value} (h : Sound func k s) (hs : Prologue func entry s)
    (hf : Folds e.literal c s v t) : Sound func (e.ending k) t := by
  unfold Exp.ending
  rcases hf with ⟨hl, -, rfl⟩ | ⟨hl, -, is, hne, e⟩
  · rw [if_pos hl]; exact h
  · rw [if_neg (by simp [hl])]; exact h.emits hs e hne

variable [ConstantFolder]

theorem codeGenExp_sound {e : ExprNode} {v : Value} (hf : InFunc func s) (hs : Prologue func entry s)
    (h : Sound func k s) (hg : codeGenExp e s = .ok v t) : Sound func (e.core.ending k) t :=
  h.folds hs (codeGenExp_folds hf.layers hg)

omit [ConstantFolder] in
/-- Behind instructions some of which are there for sure. -/
theorem Sound.emits_then {is js : List Inst} {u : State} (h : Sound func k s) (hs : Prologue func entry s)
    (e₁ : Emits s is t) (e₂ : Emits t js u) (hne : js ≠ []) : Sound func k.emit u :=
  h.emits hs (e₁.trans e₂) (by simp [hne])

omit [ConstantFolder] in
theorem EndsEarly.cons {is : List Inst} (i : Inst) (h : EndsEarly is) : EndsEarly (i :: is) := by
  obtain ⟨js, j, ks, rfl, hj, hks⟩ := h
  exact ⟨i :: js, j, ks, rfl, hj, hks⟩

omit [ConstantFolder] in
theorem WellTerminated.cons {is : List Inst} {i : Inst} (hi : i.isTerminator = false) (h : WellTerminated is) :
    WellTerminated (i :: is) := by
  obtain ⟨js, j, rfl, hj, hjs⟩ := h
  exact ⟨i :: js, j, rfl, hj, by simpa [hi] using hjs⟩

omit [ConstantFolder] in
theorem Ending.Of.cons {is : List Inst} {i : Inst} (hi : i.isTerminator = false) (h : k.Of is) : k.Of (i :: is) := by
  cases k with
  | falls => exact fun j hj => (List.mem_cons.mp hj).elim (fun he => he ▸ hi) (h j)
  | branches =>
    obtain ⟨js, j, rfl, hj, hjs⟩ := h
    exact ⟨i :: js, j, rfl, hj, by simpa [hi] using hjs⟩
  | returns =>
    obtain ⟨js, j, rfl, hj, hjs⟩ := h
    exact ⟨i :: js, j, rfl, hj, by simpa [hi] using hjs⟩
  | broken => exact h

omit [ConstantFolder] in
/-- An alloca in the entry block changes no ending. -/
theorem Sound.emitAlloca (h : Sound func k s) (ty : Ty) (count : Option Value) :
    Sound func k (s.emitAlloca entry ty count) := by
  have hself : (s.emitAlloca entry ty count).blocks entry = .alloca s.nextSlot ty count :: s.blocks entry :=
    Function.update_self ..
  have hother : ∀ l, l ≠ entry → (s.emitAlloca entry ty count).blocks l = s.blocks l := fun l hl =>
    Function.update_of_ne hl ..
  by_cases hk : k = .broken
  · subst hk
    obtain ⟨f, l, hf, hl, he⟩ := sound_broken.mp h
    refine sound_broken.mpr ⟨f, l, hf, hl, ?_⟩
    by_cases hle : l = entry
    · rw [hle, hself]; exact (hle ▸ he).cons _
    · rw [hother l hle]; exact he
  · obtain ⟨f, p, hf, hp, hm, hw, ho⟩ := (sound_clean hk).mp h
    refine (sound_clean hk).mpr ⟨f, p, hf, hp, hm, fun l hl hne => ?_, ?_⟩
    · by_cases hle : l = entry
      · rw [hle, hself]; exact (hle ▸ hw l hl hne).cons rfl
      · rw [hother l hle]; exact hw l hl hne
    · by_cases hle : p = entry
      · rw [hle, hself]; exact (hle ▸ ho).cons rfl
      · rw [hother p hle]; exact ho

/-- A definition in a function: its stores are put behind. -/
theorem defineValue_sound {x : String} {ty : ValType} {vals : List Value} {size : Option Value} {isPtr : Bool}
    (hf : InFunc func s) (hs : Prologue func entry s) (h : Sound func k s)
    (hg : defineValue x ty vals size isPtr s = .ok () t) :
    Sound func (if size ≠ none ∧ vals = [] then k else k.emit) t := by
  rcases defineValue_ok hg with ⟨hn, -⟩ | ⟨layer, outer, a, w, hn, -, hw, rfl⟩
  · exact absurd hn hf.layers
  · obtain ⟨p, w', hp, hw', hst⟩ := createDefineValueInst_ok hw
    obtain ⟨e, he, -, hsh, rfl⟩ := createEntryBlockAlloca_step hw'
    obtain ⟨l, hl, -, -⟩ := hs.point
    obtain rfl := Option.some.inj (hp.symm.trans hl)
    obtain rfl := Option.some.inj (he.symm.trans hs.head)
    have hs' := hs.emitAlloca hsh
    have h' : Sound func k (s.emitAlloca e a.ty size) := h.emitAlloca a.ty size
    refine Sound.congr (s := w) ?_ rfl rfl rfl
    rcases hst with ⟨rfl, v, hv, rfl⟩ | ⟨hne, rfl⟩
    · rw [if_neg (by simp)]
      exact h'.emits hs' (.append (by simp [Plain, Inst.isTerminator, Inst.isBranch, Inst.isReturn, Inst.isAlloca]))
        (List.cons_ne_nil _ _)
    · cases vals with
      | nil =>
        rw [if_pos ⟨hne, rfl⟩]
        have e₀ : (s.emitAlloca e a.ty size).appendRegs (elementStores a 0 (s.emitAlloca e a.ty size).nextReg []) 0 =
            s.emitAlloca e a.ty size := by
          obtain ⟨fs, gs, bs, ip, nv, nb, nr, ns, nl, tr, eb⟩ := s
          cases ip <;> simp [State.appendRegs, State.append, State.emitAlloca, elementStores]
        rw [List.length_nil, e₀]
        exact h'
      | cons v vs =>
        rw [if_neg (by simp)]
        exact h'.emits hs' (.appendRegs elementStores_plain _) (by simp [elementStores])

theorem genInit_const_size {init : Option InitValNode} {e : ExprNode} {sz : Value} {vs : List Value}
    (hf : InFunc func s) (h : GenInit init (some e) s (some sz) vs t) :
    ∃ n, sz.sextValue? = some n ∧ vs.length = arrayElements e.core ∧
    initVals init 0 (arrayElements e.core) s = .ok vs t := by
  obtain ⟨sz', w, hsz, he, h⟩ := h
  cases hsz
  rcases getInitVals_ok.mp h with ⟨h, -⟩ | ⟨_, n, hsz, hn, -, hvals⟩
  · cases h
  cases hsz
  obtain ⟨c, rfl⟩ := sextValue?_const hn
  rcases codeGenExp_folds hf.layers he with ⟨hl, hc, rfl⟩ | ⟨-, hc, -⟩
  · have : arrayElements e.core = n.toInt.toNat := by
      cases hc
      rw [arrayElements, hn]
    exact ⟨n, hn, by rw [this]; exact initVals_length hvals, by rw [this]; exact hvals⟩
  · cases hc

theorem Def.gen_sound {d : Def} (hf : InFunc func s) (hs : Prologue func entry s) (h : Sound func k s)
    (hg : d.gen s = .ok () t) : Sound func (defEnding d.exp k) t := by
  obtain ⟨size, vs, w, hi, hdef⟩ := codeGenDef_ok.mp hg
  obtain ⟨is, e⟩ := hi.emits
  -- Behind the initial values: as before, or with something put behind.
  have hw : Sound func k w ∨ Sound func k.emit w := by
    by_cases hne : is = []
    · subst hne
      have hb : w.blocks = s.blocks := by rw [e.blocks]; exact ((Emits.refl s).blocks).symm
      exact Or.inl (h.congr e.functions hb e.insertPoint)
    · exact Or.inr (h.emits hs e hne)
  cases hd : d.exp with
  | none =>
    rw [hd] at hi
    obtain ⟨rfl, hi⟩ := hi
    rcases hw with hw | hw
    · have := defineValue_sound (hf.emits e) (hs.emits e) hw hdef
      rwa [if_neg (by simp)] at this
    · have := defineValue_sound (hf.emits e) (hs.emits e) hw hdef
      rwa [if_neg (by simp), Ending.emit_emit] at this
  | some ex =>
    rw [hd] at hi
    obtain ⟨sz, hsz⟩ : ∃ sz, size = some sz := by
      obtain ⟨sz, _, rfl, -, -⟩ := hi
      exact ⟨sz, rfl⟩
    subst hsz
    obtain ⟨n, -, hlen, hvals⟩ := genInit_const_size hf hi
    show Sound func (if arrayElements ex.core = 0 then k else k.emit) t
    by_cases h0 : arrayElements ex.core = 0
    · rw [if_pos h0]
      rw [h0] at hlen hvals
      obtain ⟨rfl, rfl⟩ := initVals_zero_ok.mp hvals
      have := defineValue_sound hf hs h hdef
      rwa [if_pos ⟨by simp, rfl⟩] at this
    · rw [if_neg h0]
      have hvs : vs ≠ [] := by
        rintro rfl
        exact h0 hlen.symm
      rcases hw with hw | hw
      · have := defineValue_sound (hf.emits e) (hs.emits e) hw hdef
        rwa [if_neg (by simp [hvs])] at this
      · have := defineValue_sound (hf.emits e) (hs.emits e) hw hdef
        rwa [if_neg (by simp [hvs]), Ending.emit_emit] at this

theorem defs_sound : ∀ {ds : List Def} {k : Ending} {s t : State}, InFunc func s → Prologue func entry s →
    Sound func k s → ds.forM Def.gen s = .ok ⟨⟩ t → Sound func (ds.foldl (fun k d => defEnding d.exp k) k) t
  | [], k, s, t, _, _, h, hg => by
    obtain rfl := forM_nil_ok.mp hg
    exact h
  | d :: ds, k, s, t, hf, hs, h, hg => by
    obtain ⟨w, hd, hg⟩ := forM_cons_ok.mp hg
    obtain ⟨r, hdef⟩ := Def.gen_run entry hf hd
    have := Def.gen_sound hf hs h hd
    rw [List.foldl_cons]
    exact defs_sound (hf.run r hdef.layers) (r.prologue (Nat.le_refl _) hs) this hg

omit [ConstantFolder] in
theorem DeclNode.ending_defs (d : DeclNode) (k : Ending) :
    d.ending k = d.defs.foldl (fun k d => defEnding d.exp k) k := by
  cases d <;> simp [DeclNode.ending, DeclNode.defs, List.foldl_map, ConstDefNode.toDef, VarDefNode.toDef]

theorem codeGenDecl_sound {d : DeclNode} (hf : InFunc func s) (hs : Prologue func entry s) (h : Sound func k s)
    (hg : codeGenDecl d s = .ok () t) : Sound func (d.ending k) t := by
  rw [codeGenDecl_defs] at hg
  rw [d.ending_defs]
  exact defs_sound hf hs h hg

omit [ConstantFolder] in
theorem StmtNode.ending_if (e : ExprNode) (a : StmtNode) (b : Option StmtNode) (k : Ending) :
    (StmtNode.ifStmt e a b).ending k =
      ifEnding ((e.core.ending k).terminate .branches) (a.ending .falls) ((elseBranch b).ending .falls) := by
  cases b with
  | none => simp [StmtNode.ending, elseBranch]
  | some b => simp [StmtNode.ending, elseBranch]

omit [ConstantFolder] in
theorem Broken.enter {l : Label} (h : Broken func s) : Broken func (s.enter func l) := by
  obtain ⟨f, l', hf, hl, he⟩ := h
  refine ⟨{ f with layout := f.layout ++ [l] }, l', ?_, List.mem_append_left _ hl, he⟩
  show (s.functions.modify func _)[func]? = _
  rw [List.getElem?_modify, hf]
  simp

omit [ConstantFolder] in
theorem terminate_branches (k : Ending) : k = .falls ∧ k.terminate .branches = .branches ∨
    k ≠ .falls ∧ k.terminate .branches = .broken := by
  cases k <;> simp [Ending.terminate]

/-- The condition of an `if` or a `while`, compared with zero. -/
theorem cond_sound {e : ExprNode} {v c : Value} {s₁ : State} (hf : InFunc func s) (hs : Prologue func entry s)
    (h : Sound func k s) (hv : codeGenExp e s = .ok v s₁) (hc : intToBoolean v s₁ = .ok c t) :
    Sound func (e.core.ending k) t :=
  h.folds hs ((codeGenExp_folds hf.layers hv).iCmpConst hc)

/-- What an `if` leaves, from what its parts leave. -/
theorem IfRun.sound {e : ExprNode} {a : StmtNode} {b : Option StmtNode} {v c : Value} {s₁ s₂ s₃ s₄ : State}
    {q r : InsertPoint} (hr : IfRun func e a b s v s₁ c s₂ s₃ q s₄ r t) (hf : InFunc func s)
    (hs : Prologue func entry s) (h : Sound func k s)
    (iha : Sound func .falls (s₂.thenStart func c) → Sound func (a.ending .falls) s₃)
    (ihb : Sound func .falls ((s₃.brUnlessBranch q (s₂.nextLabel + 2)).enter func (s₂.nextLabel + 1)) →
      Sound func ((elseBranch b).ending .falls) s₄) :
    Sound func ((StmtNode.ifStmt e a b).ending k) t := by
  rw [StmtNode.ending_if, ifEnding]
  have hb := Nat.le_of_lt hs.entry_lt
  obtain ⟨is, e₁⟩ := hr.emits
  have hs₂ := hs.emits e₁
  have hthen := hr.start.prologue hb hs
  have hs₃ := hr.thenRun.prologue (by omega) hthen
  have helse := hr.else_prologue hs
  have hs₄ := hr.elseRun.prologue (by omega) helse
  have rest₂ := (hr.thenRun.mono (by omega)).trans (hr.middle.trans ((hr.elseRun.mono (by omega)).trans hr.finish))
  have rest₃ := (hr.elseRun.mono (by omega)).trans hr.finish
  have h₁ : Sound func ((e.core.ending k).terminate .branches)
      (s₂.newBlocks.append [.condBr c s₂.nextLabel (s₂.nextLabel + 1)]) := by
    refine Sound.terminate ?_ (hs₂.congr rfl rfl rfl rfl (Nat.le_add_right _ _) rfl) (Or.inl ⟨rfl, rfl⟩)
    exact (cond_sound hf hs h hr.cond hr.bool).congr rfl rfl rfl
  rcases terminate_branches (e.core.ending k) with ⟨-, hk⟩ | ⟨-, hk⟩
  · rw [hk] at h₁ ⊢
    have h₂ := ((sound_clean (by decide)).mp h₁).enter (Or.inl rfl)
      (hr.start_blocks hs (Nat.le_of_eq hr.nextLabel.symm))
    rcases (iha ((sound_clean (by decide)).mpr h₂)).brUnlessBranch hs₃ hr.thenPoint with ⟨hc, h₃⟩ | ⟨hc, h₃⟩
    · have hl₁ : s.nextLabel < s₂.nextLabel + 1 := by rw [hr.nextLabel]; omega
      have hl₂ : s₂.nextLabel + 1 < s.nextLabel + 3 := by rw [hr.nextLabel]; omega
      have h₄ := h₃.enter (Or.inl rfl) (hr.else_start_blocks hs hl₁ hl₂)
      rcases (ihb ((sound_clean (by decide)).mpr h₄)).brUnlessBranch hs₄ hr.elsePoint with ⟨hc', h₅⟩ | ⟨hc', h₅⟩
      · rw [if_pos ⟨rfl, hc, hc'⟩, sound_clean (by decide), hr.result]
        refine h₅.enter (Or.inl rfl) ?_
        have := hr.merge_blocks hs
        rw [hr.result] at this
        rw [hr.nextLabel]
        rw [hr.nextLabel] at this
        exact this
      · rw [if_neg (by simp [hc']), sound_broken, hr.result]
        exact h₅.enter
    · rw [if_neg (by simp [hc]), sound_broken]
      exact Broken.run h₃.enter helse rest₃
  · rw [hk] at h₁ ⊢
    rw [if_neg (by simp), sound_broken]
    exact Broken.run (sound_broken.mp h₁).enter hthen rest₂

/-- What a `while` leaves, from what its body leaves. -/
theorem WhileRun.sound {e : ExprNode} {body : StmtNode} {v c : Value} {s₁ s₂ s₃ : State} {q : InsertPoint}
    (hr : WhileRun func e body s v s₁ c s₂ s₃ q t) (hs : Prologue func entry s) (h : Sound func k s)
    (ih : Sound func .falls (s₂.bodyStart func c s.nextLabel) → Sound func (body.ending .falls) s₃) :
    Sound func ((StmtNode.whileStmt e body).ending k) t := by
  rw [StmtNode.ending, whileEnding]
  have hb := Nat.le_of_lt hs.entry_lt
  obtain ⟨is, e₁⟩ := hr.emits
  have hloop := loopStart_prologue hs
  have hs₂ := hloop.emits e₁
  have hbody := hr.body_prologue hs
  have hs₃ := hr.bodyRun.prologue (by omega) hbody
  have rest := (hr.bodyRun.mono (by omega)).trans hr.finish
  have h₁ : Sound func (k.terminate .branches)
      ((s.newBlocks.pushLoop (s.nextLabel, s.nextLabel + 2)).append [.br s.nextLabel]) := by
    refine Sound.terminate ?_ (hs.congr rfl rfl rfl rfl (Nat.le_add_right _ _) rfl) (Or.inl ⟨rfl, rfl⟩)
    exact h.congr rfl rfl rfl
  rcases terminate_branches k with ⟨-, hk⟩ | ⟨-, hk⟩
  · rw [hk] at h₁ ⊢
    have h₂ := ((sound_clean (by decide)).mp h₁).enter (Or.inl rfl) (loopStart_blocks hs (Nat.le_refl _))
    have hf' : InFunc func (s.loopStart func) := by
      refine ⟨⟨_, rfl⟩, ?_⟩
      show (State.append _ _).namedValues ≠ []
      rw [State.append_namedValues]
      exact hr.inFunc.layers
    have h₃ := cond_sound hf' hloop ((sound_clean (by decide)).mpr h₂) hr.cond hr.bool
    have hfalls : e.core.ending .falls = .falls := by unfold Exp.ending; split <;> rfl
    rw [hfalls] at h₃
    have h₄ := Sound.terminate (i := .condBr c (s.nextLabel + 1) (s.nextLabel + 2)) h₃ hs₂ (Or.inl ⟨rfl, rfl⟩)
    have h₅ := ((sound_clean (by decide)).mp h₄).enter (Or.inl rfl) (hr.body_start_blocks hs (Nat.lt_succ_self _))
    rcases (ih ((sound_clean (by decide)).mpr h₅)).brUnlessBranch hs₃ hr.bodyPoint with ⟨hc, h₆⟩ | ⟨hc, h₆⟩
    · rw [if_pos ⟨rfl, hc⟩, sound_clean (by decide), hr.result]
      refine Clean.congr (h₆.enter (Or.inl rfl) ?_) rfl rfl rfl
      have := hr.after_blocks hs
      rw [hr.result] at this
      exact this
    · rw [if_neg (by simp [hc]), sound_broken, hr.result]
      exact Broken.congr h₆.enter rfl rfl
  · rw [hk] at h₁ ⊢
    rw [if_neg (by simp), sound_broken]
    have : Broken func (s.loopStart func) := (sound_broken.mp h₁).enter
    have r₂ : GenRun func s.nextLabel (s.loopStart func) (s₂.bodyStart func c s.nextLabel) :=
      .head (.emits e₁) (GenRun.branch rfl (by omega) (by rw [hr.nextLabel]; omega))
    exact this.run hloop (r₂.trans rest)

mutual

/-- How a statement's code ends is what the static analysis says. -/
theorem codeGenStmt_sound : ∀ (st : StmtNode) {k : Ending} {s t : State}, InFunc func s → Prologue func entry s →
    Sound func k s → codeGenStmt st s = .ok () t → Sound func (st.ending k) t
  | .block items, k, s, t, hf, hs, h, hg => by
    obtain ⟨w, hw, rfl⟩ := codeGenStmt_block_ok.mp hg
    have hs' : Prologue func entry (s.pushLayer.log .push) :=
      (GenStep.pushLayer.prologue (Nat.le_refl _) hs).emits (Emits.log _)
    have hf' : InFunc func (s.pushLayer.log .push) := ⟨hf.point, List.cons_ne_nil _ _⟩
    rw [StmtNode.ending]
    refine Sound.congr (s := w) ?_ rfl rfl rfl
    exact codeGenBlockItems_sound items hf' hs' (h.congr rfl rfl rfl) hw
  | .ifStmt e a b, k, s, t, hf, hs, h, hg => by
    obtain ⟨v, s₁, c, s₂, s₃, q, s₄, r, hr⟩ := codeGenStmt_if_run
      (fun _ _ _ hf hb h => codeGenStmt_run a hf hb h) (fun _ _ _ hf hb h => codeGenStmt_run _ hf hb h) hf hg
    have hthen := hr.start.prologue (Nat.le_of_lt hs.entry_lt) hs
    exact hr.sound hf hs h (fun h' => codeGenStmt_sound a hr.thenIn hthen h' hr.thenGen)
      (fun h' => codeGenStmt_elseBranch_sound b hr.elseIn (hr.else_prologue hs) h' hr.elseGen)
  | .whileStmt e body, k, s, t, hf, hs, h, hg => by
    obtain ⟨v, s₁, c, s₂, s₃, q, hr⟩ :=
      codeGenStmt_while_run (fun _ _ _ hf hb h => codeGenStmt_run body hf hb h) hf hg
    exact hr.sound hs h (fun h' => codeGenStmt_sound body hr.bodyIn (hr.body_prologue hs) h' hr.bodyGen)
  | .continueStmt, k, s, t, _, hs, h, hg => by
    obtain ⟨loop, outer, -, rfl⟩ := codeGenStmt_continue_ok.mp hg
    exact h.terminate hs (Or.inl ⟨rfl, rfl⟩)
  | .breakStmt, k, s, t, _, hs, h, hg => by
    obtain ⟨loop, outer, -, rfl⟩ := codeGenStmt_break_ok.mp hg
    exact h.terminate hs (Or.inl ⟨rfl, rfl⟩)
  | .ret none, k, s, t, _, hs, h, hg => by
    obtain rfl := codeGenStmt_retVoid_ok.mp hg
    exact h.terminate hs (Or.inr ⟨rfl, rfl⟩)
  | .ret (some e), k, s, t, hf, hs, h, hg => by
    obtain ⟨v, w, hv, rfl⟩ := codeGenStmt_ret_ok.mp hg
    obtain ⟨is, e₁⟩ := codeGenExp_emits hv
    have := (codeGenExp_sound hf hs h hv).terminate (i := .ret (some v)) (hs.emits e₁) (Or.inr ⟨rfl, rfl⟩)
    -- Whatever the expression appended, the return ends the block as it ends the empty one.
    have hk : (e.core.ending k).terminate .returns = k.terminate .returns := by
      unfold Exp.ending
      split <;> cases k <;> rfl
    rwa [hk] at this
  | .expr none, k, s, t, _, _, h, hg => by
    obtain rfl := codeGenStmt_empty_ok.mp hg
    exact h
  | .expr (some e), k, s, t, hf, hs, h, hg => by
    obtain ⟨v, hv⟩ := codeGenStmt_expr_ok.mp hg
    exact codeGenExp_sound hf hs h hv
  | .assign x sub e, k, s, t, hf, hs, h, hg => by
    obtain ⟨v, w, idx, u, hv, hu, hx⟩ := codeGenStmt_assign_ok.mp hg
    obtain ⟨is, e₁⟩ := codeGenExp_emits hv
    obtain ⟨js, e₂⟩ := codeGenSubIdx_emits hu
    obtain ⟨ks, hne, e₃⟩ := setValue_emits_ne ((hf.emits e₁).emits e₂).layers hx
    -- An assignment always appends at least its store, which is no terminator.
    exact h.emits_then hs (e₁.trans e₂) e₃ hne

theorem codeGenStmt_elseBranch_sound : ∀ (st : Option StmtNode) {k : Ending} {s t : State}, InFunc func s →
    Prologue func entry s → Sound func k s → codeGenStmt (elseBranch st) s = .ok () t →
    Sound func ((elseBranch st).ending k) t
  | none, k, s, t, _, _, h, hg => by
    obtain rfl := codeGenStmt_empty_ok.mp hg
    exact h
  | some st, k, s, t, hf, hs, h, hg => codeGenStmt_sound st hf hs h hg

theorem codeGenBlockItem_sound : ∀ (item : BlockItemNode) {k : Ending} {s t : State}, InFunc func s →
    Prologue func entry s → Sound func k s → codeGenBlockItem item s = .ok () t → Sound func (item.ending k) t
  | .decl d, k, s, t, hf, hs, h, hg => by
    rw [BlockItemNode.ending]
    exact codeGenDecl_sound hf hs h (codeGenBlockItem_decl ▸ hg)
  | .stmt st, k, s, t, hf, hs, h, hg => by
    rw [BlockItemNode.ending]
    exact codeGenStmt_sound st hf hs h (codeGenBlockItem_stmt ▸ hg)

theorem codeGenBlockItems_sound : ∀ (items : List BlockItemNode) {k : Ending} {s t : State}, InFunc func s →
    Prologue func entry s → Sound func k s → codeGenBlockItems items s = .ok () t →
    Sound func (itemsEnding items k) t
  | [], k, s, t, _, _, h, hg => by
    obtain rfl := codeGenBlockItems_nil_ok.mp hg
    exact h
  | item :: items, k, s, t, hf, hs, h, hg => by
    obtain ⟨w, hw, hg⟩ := codeGenBlockItems_cons_ok.mp hg
    obtain ⟨r, d⟩ := codeGenBlockItem_run item hf (Nat.le_of_lt hs.entry_lt) hw
    rw [itemsEnding]
    exact codeGenBlockItems_sound items (hf.run r d.layers) (r.prologue (Nat.le_refl _) hs)
      (codeGenBlockItem_sound item hf hs h hw) hg

end

end Statements

/-! ### Programs -/

/-- All blocks of all functions have one terminator, at their end. -/
def State.WellTerminated (s : State) : Prop := ∀ f ∈ s.functions, ∀ l ∈ f.layout, L24.WellTerminated (s.blocks l)

section Programs
variable {s t : State} {node : FuncNode}

theorem start_sound (hs : Idle s) : Sound s.functions.length .falls (node.start s) := by
  refine (sound_clean Ending.noConfusion).mpr ⟨{ node.object s with layout := [s.nextLabel] },
    s.nextLabel, ?_, rfl, List.mem_singleton.mpr rfl, fun l hl hne => ?_, ?_⟩
  · rw [start_functions, List.getElem?_concat_length]
  · exact absurd (List.mem_singleton.mp hl) hne
  · intro i hi
    rw [show (node.start s).blocks s.nextLabel = s.blocks s.nextLabel from rfl, hs.fresh _ (Nat.le_refl _)] at hi
    cases hi

variable [ConstantFolder]

theorem defineParams_sound {func entry : Nat} : ∀ {ps : List (String × FParamType)} {i : Nat} {s t : State},
    InFunc func s → Prologue func entry s → Sound func .falls s → defineParams i ps s = .ok () t →
    Sound func .falls t
  | [], i, s, t, _, _, h, hg => by
    rw [defineParams] at hg
    obtain ⟨-, rfl⟩ := pure_ok.mp hg
    exact h
  | (x, ty) :: ps, i, s, t, hf, hs, h, hg => by
    rw [defineParams] at hg
    obtain ⟨w, hw, hg⟩ := seq_ok.mp hg
    obtain ⟨r, d⟩ := defineValue_run entry hf hw
    have h' := defineValue_sound hf hs h hw
    rw [if_neg (by simp)] at h'
    exact defineParams_sound (hf.run r d.layers) (r.prologue (Nat.le_refl _) hs) h' hg

omit [ConstantFolder] in
/-- The blocks behind the epilogue: only a block that ends with a branch gets a second terminator. -/
theorem Sound.retUnlessReturn {func entry : Nat} {k : Ending} {p : InsertPoint} (h : Sound func k s)
    (hs : Prologue func entry s) (hp : s.insertPoint = some p) :
    (k = .falls ∨ k = .returns) ∧ Clean func .returns (s.retUnlessReturn p) ∨
    (k = .branches ∨ k = .broken) ∧ Broken func (s.retUnlessReturn p) := by
  cases k with
  | broken => exact Or.inr ⟨Or.inr rfl, (sound_broken.mp h).run hs (GenRun.retUnlessReturn : GenRun func 0 s _)⟩
  | falls =>
    refine Or.inl ⟨Or.inl rfl, ?_⟩
    obtain ⟨f, q, hf, hq, hm, hw, ho⟩ := (sound_clean Ending.noConfusion).mp h
    obtain rfl := Option.some.inj (hp.symm.trans hq)
    have hc : ∀ {s' : State}, s'.functions = s.functions → s'.blocks = s.blocks → s'.insertPoint = s.insertPoint →
        Clean func .returns (s'.append [.ret none]) := by
      intro s' h₁ h₂ h₃
      exact Clean.append (by rw [h₁]; exact hf) (by rw [h₃]; exact hq) hm (by rw [h₂]; exact hw)
        ⟨_, _, rfl, rfl, by rw [h₂]; exact ho⟩
    unfold State.retUnlessReturn
    split
    · rename_i i hi
      have hi' : i.isReturn = false := by
        have := ho i (List.mem_of_getLast? hi)
        simp only [Inst.isTerminator, Bool.or_eq_false_iff] at this
        exact this.2
      rw [if_neg (by simp [hi'])]
      exact hc rfl rfl rfl
    · exact hc rfl rfl rfl
  | returns =>
    refine Or.inl ⟨Or.inr rfl, ?_⟩
    have hc := (sound_clean Ending.noConfusion).mp h
    obtain ⟨f, q, hf, hq, hm, hw, js, i, he, hi, hj⟩ := hc
    obtain rfl := Option.some.inj (hp.symm.trans hq)
    unfold State.retUnlessReturn
    rw [he, List.getLast?_concat]
    simp only [hi, ↓reduceIte]
    exact (sound_clean Ending.noConfusion).mp h
  | branches =>
    refine Or.inr ⟨Or.inl rfl, ?_⟩
    obtain ⟨f, q, hf, hq, hm, hw, js, i, he, hi, hj⟩ := (sound_clean Ending.noConfusion).mp h
    obtain rfl := Option.some.inj (hp.symm.trans hq)
    have hi' : i.isReturn = false := by cases i <;> first | rfl | simp [Inst.isBranch] at hi
    unfold State.retUnlessReturn
    rw [he, List.getLast?_concat]
    simp only [hi', Bool.false_eq_true, ↓reduceIte]
    exact Broken.append hf hq hm ⟨js, i, [.ret none], by rw [he]; simp, by simp [Inst.isTerminator, hi], by simp⟩

omit [ConstantFolder] in
theorem Clean.wellTerminated {func : Nat} (h : Clean func .returns s) :
    ∃ f, s.functions[func]? = some f ∧ ∀ l ∈ f.layout, L24.WellTerminated (s.blocks l) := by
  obtain ⟨f, p, hf, -, -, hw, js, i, he, hi, hj⟩ := h
  refine ⟨f, hf, fun l hl => ?_⟩
  by_cases hlp : l = p
  · exact ⟨js, i, by rw [hlp, he], by simp [Inst.isTerminator, hi], hj⟩
  · exact hw l hl hlp

/-- The new function is well-terminated exactly if the static analysis says so. -/
theorem codeGenFunc_wellTerminated (hs : Idle s) (h : codeGenFunc node s = .ok () t) :
    ∃ f, t.functions[s.functions.length]? = some f ∧
      ((∀ l ∈ f.layout, L24.WellTerminated (t.blocks l)) ↔ node.endsWell = true) := by
  obtain ⟨s₁, s₂, p, hr⟩ := codeGenFunc_run h
  have hp₀ : Prologue _ _ (node.start s) := start_prologue hs
  have hp₁ := hr.paramsRun.prologue (Nat.le_succ _) hp₀
  have hp₂ := hr.bodyRun.prologue (Nat.le_succ _) hp₁
  have hf₁ := start_inFunc.run hr.paramsRun hr.defined.layers
  have h₁ := defineParams_sound start_inFunc hp₀ (start_sound hs) hr.params
  have h₂ := codeGenStmt_sound _ hf₁ hp₁ h₁ hr.body
  rw [StmtNode.ending] at h₂
  have hres : t.functions = (s₂.retUnlessReturn p).functions ∧ t.blocks = (s₂.retUnlessReturn p).blocks := by
    rw [hr.result]
    exact ⟨rfl, rfl⟩
  rw [hres.1, hres.2]
  unfold FuncNode.endsWell
  rcases h₂.retUnlessReturn hp₂ hr.point with ⟨hk, hc⟩ | ⟨hk, f, l, hf, hl, he⟩
  · obtain ⟨f, hf, hw⟩ := hc.wellTerminated
    refine ⟨f, hf, fun _ => ?_, fun _ => hw⟩
    rcases hk with hk | hk <;> rw [hk]
  · refine ⟨f, hf, fun hw => absurd (hw l hl) he.not_wellTerminated, fun hk' => ?_⟩
    rcases hk with hk | hk <;> rw [hk] at hk' <;> cases hk'

omit [ConstantFolder] in
theorem Extends.wellTerminated (h : Extends s t) (hs : Idle s) (fs : List FunctionObj)
    (hf : t.functions = s.functions ++ fs) :
    t.WellTerminated ↔ s.WellTerminated ∧ ∀ f ∈ fs, ∀ l ∈ f.layout, L24.WellTerminated (t.blocks l) := by
  unfold State.WellTerminated
  rw [hf]
  simp only [List.mem_append, or_imp, forall_and]
  refine and_congr_left fun _ => forall₂_congr fun f hm => forall₂_congr fun l hl => ?_
  rw [h.blocks l (hs.layout f hm l hl)]

theorem codeGenTopItem_wellTerminated {item : TopItem} (hs : Idle s) (h : codeGenTopItem item s = .ok () t) :
    t.WellTerminated ↔ s.WellTerminated ∧ item.endsWell = true := by
  have hx := (codeGenTopItem_extends hs h).1
  cases item with
  | decl d =>
    obtain ⟨gs, tr, rfl, -⟩ := codeGenDecl_global hs.namedValues h
    simp [TopItem.endsWell, State.WellTerminated]
  | func node =>
    obtain ⟨f, hf, hw⟩ := codeGenFunc_wellTerminated hs h
    obtain ⟨s₁, s₂, p, hr⟩ := codeGenFunc_run h
    obtain ⟨ls, -, hfs⟩ := hr.functions hs
    rw [hfs, List.getElem?_concat_length] at hf
    cases hf
    rw [hx.wellTerminated hs _ hfs]
    refine and_congr_right fun _ => ?_
    rw [TopItem.endsWell, ← hw]
    simp

theorem accepts_wellTerminated {node : EntryNode} (h : Accepts node s) : s.WellTerminated ↔ node.endsWell = true := by
  have hlib : State.library.WellTerminated := by
    intro f hf l hl
    obtain ⟨g, -, rfl⟩ := List.mem_map.mp hf
    cases hl
  have hnil : State.library.WellTerminated ↔ ([] : List TopItem).all TopItem.endsWell = true := by simp [hlib]
  refine accepts_induct (P :=
    fun items s => s.WellTerminated ↔ items.all TopItem.endsWell = true) h hnil fun hp hs hg => ?_
  rw [codeGenTopItem_wellTerminated hs hg, hp]
  simp

omit [ConstantFolder] in
theorem toModule_wellTerminated : s.WellTerminated ↔
    ∀ f ∈ s.toModule.functions, ∀ b ∈ f.blocks, L24.WellTerminated b.2 := by
  simp [State.WellTerminated, State.toModule]

/-- The blocks of an accepted program all have one terminator, at their end, exactly if no function has code
    behind a jump in one block, a branch or a loop body that ends with a return, or a jump at its end. -/
theorem blocks_wellTerminated_iff {node : EntryNode} (h : Accepts node s) :
    (∀ f ∈ s.toModule.functions, ∀ b ∈ f.blocks, L24.WellTerminated b.2) ↔ node.endsWell = true := by
  rw [← toModule_wellTerminated]
  exact accepts_wellTerminated h

end Programs

section
attribute [local instance] ConstantFolder.symbolic

/-- `int main() { int x = 3; while (x) { if (x) then x = 0; else break; end } return x; }`. -/
def breakProgram : EntryNode :=
  ⟨.func ⟨.int, "main", [], [
    .decl (.varDecl ⟨.int, [⟨"x", some (.exp (NumberNode.toExpr ⟨3⟩)), none⟩]⟩),
    .stmt (.whileStmt (LValNode.toExpr ⟨"x", none⟩) (.block [
      .stmt (.ifStmt (LValNode.toExpr ⟨"x", none⟩) (.assign "x" none (NumberNode.toExpr ⟨0⟩)) (some .breakStmt))])),
    .stmt (.ret (some (LValNode.toExpr ⟨"x", none⟩)))]⟩⟩

theorem blocks_wellTerminated_return : ∃ s, Accepts breakProgram s ∧
    ∀ f ∈ s.toModule.functions, ∀ b ∈ f.blocks, WellTerminated b.2 := by
  have hsome : breakProgram.final?.isSome = true := by decide +kernel
  obtain ⟨s, hs⟩ := Option.isSome_iff_exists.mp hsome
  have h := final?_eq_some.mp hs
  exact ⟨s, h, (blocks_wellTerminated_iff h).mpr (by decide +kernel)⟩

/-- `int main() { if (1) then return 1; end return 0; }`. -/
def returnInBranch : EntryNode :=
  ⟨.func ⟨.int, "main", [], [
    .stmt (.ifStmt (NumberNode.toExpr ⟨1⟩) (.ret (some (NumberNode.toExpr ⟨1⟩))) none),
    .stmt (.ret (some (NumberNode.toExpr ⟨0⟩)))]⟩⟩

theorem returnInBranch_blocks : ¬ ∀ (node : EntryNode) (s : State), Accepts node s →
    ∀ f ∈ s.toModule.functions, ∀ b ∈ f.blocks, WellTerminated b.2 := by
  intro hall
  have hsome : returnInBranch.final?.isSome = true := by decide +kernel
  obtain ⟨s, hs⟩ := Option.isSome_iff_exists.mp hsome
  have hbad : returnInBranch.final?.all (fun s =>
      decide (∀ f ∈ s.toModule.functions, ∀ b ∈ f.blocks, WellTerminated b.2)) = false := by decide +kernel
  rw [hs] at hbad
  simp only [Option.all_some, decide_eq_false_iff_not] at hbad
  exact hbad (hall returnInBranch s (final?_eq_some.mp hs))

end

end L24
