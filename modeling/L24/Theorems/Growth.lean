import L24.Theorems.Run

/-! What a run of generation steps keeps: blocks only grow, at their end and, the entry block, by allocas at
    its begin; and the shape of the function that is being generated. -/

namespace L24
open Ir Relation

/-! ### Growth -/

/-- A block grows by allocas `as` at its begin and other instructions `js` at its end. -/
def BlockGrows (b b' as js : List Inst) : Prop :=
  b' = as ++ b ++ js ∧ (∀ i ∈ as, i.isAlloca = true) ∧ ∀ i ∈ js, i.isAlloca = false

theorem BlockGrows.refl (b : List Inst) : BlockGrows b b [] [] := ⟨by simp, by simp, by simp⟩

theorem BlockGrows.trans {b b' b'' as as' js js' : List Inst} (h : BlockGrows b b' as js)
    (h' : BlockGrows b' b'' as' js') : BlockGrows b b'' (as' ++ as) (js ++ js') := by
  obtain ⟨rfl, ha, hj⟩ := h
  obtain ⟨rfl, ha', hj'⟩ := h'
  refine ⟨by simp [List.append_assoc], fun i hi => ?_, fun i hi => ?_⟩
  · exact (List.mem_append.mp hi).elim (ha' i) (ha i)
  · exact (List.mem_append.mp hi).elim (hj i) (hj' i)

/-- What changes when function number `func` with the entry block `entry` is generated from the block `home`
    on, entering further blocks from `base` on. -/
structure Grows (func : Nat) (base home entry : Nat) (s t : State) : Prop where
  functions : ∃ ls, (∀ l ∈ ls, base ≤ l ∧ l < t.nextLabel) ∧
    t.functions = s.functions.modify func fun f => { f with layout := f.layout ++ ls }
  globals : t.globals = s.globals
  nextReg : s.nextReg ≤ t.nextReg
  nextSlot : s.nextSlot ≤ t.nextSlot
  nextLabel : s.nextLabel ≤ t.nextLabel
  point : ∃ l, t.insertPoint = some ⟨func, l⟩ ∧ (l = home ∨ base ≤ l)
  blocks : ∀ l, ∃ as js, BlockGrows (s.blocks l) (t.blocks l) as js ∧ (l ≠ entry → as = []) ∧
    (l < base → l ≠ home → js = [])

section Growth
variable {func base home entry : Nat} {s t u : State}

theorem modify_layout (fs : List FunctionObj) (i : Nat) (ls ms : List Label) :
    (fs.modify i fun f => { f with layout := f.layout ++ ls }).modify i (fun f => { f with layout := f.layout ++ ms }) =
      fs.modify i fun f => { f with layout := f.layout ++ (ls ++ ms) } := by
  rw [List.modify_modify_eq]
  congr 1
  funext f
  simp

theorem modify_layout_nil (fs : List FunctionObj) (i : Nat) :
    (fs.modify i fun f => { f with layout := f.layout ++ [] }) = fs := by
  simp only [List.append_nil]
  exact List.modify_id i fs

theorem Grows.refl (hp : ∃ l, s.insertPoint = some ⟨func, l⟩ ∧ (l = home ∨ base ≤ l)) :
    Grows func base home entry s s where
  functions := ⟨[], by simp, (modify_layout_nil _ _).symm⟩
  globals := rfl
  nextReg := Nat.le_refl _
  nextSlot := Nat.le_refl _
  nextLabel := Nat.le_refl _
  point := hp
  blocks l := ⟨[], [], .refl _, fun _ => rfl, fun _ _ => rfl⟩

theorem Grows.trans (h₁ : Grows func base home entry s t) (h₂ : Grows func base home entry t u) :
    Grows func base home entry s u where
  functions := by
    obtain ⟨ls, hl, h⟩ := h₁.functions
    obtain ⟨ms, hm, h'⟩ := h₂.functions
    refine ⟨ls ++ ms, fun l hl' => ?_, by rw [h', h, modify_layout]⟩
    rcases List.mem_append.mp hl' with hl' | hl'
    · exact ⟨(hl l hl').1, Nat.lt_of_lt_of_le (hl l hl').2 h₂.nextLabel⟩
    · exact hm l hl'
  globals := h₂.globals.trans h₁.globals
  nextReg := Nat.le_trans h₁.nextReg h₂.nextReg
  nextSlot := Nat.le_trans h₁.nextSlot h₂.nextSlot
  nextLabel := Nat.le_trans h₁.nextLabel h₂.nextLabel
  point := h₂.point
  blocks l := by
    obtain ⟨as, js, h, ha, hj⟩ := h₁.blocks l
    obtain ⟨as', js', h', ha', hj'⟩ := h₂.blocks l
    refine ⟨as' ++ as, js ++ js', h.trans h', fun hl => ?_, fun hl hh => ?_⟩
    · rw [ha hl, ha' hl]; rfl
    · rw [hj hl hh, hj' hl hh]; rfl

/-- The entry block stays what it is. -/
theorem Grows.entry? (h : Grows func base home entry s t) (f : Nat) {e : Label} (he : s.entry? f = some e) :
    t.entry? f = some e := by
  obtain ⟨ls, -, hf⟩ := h.functions
  unfold State.entry? at *
  rw [hf, List.getElem?_modify]
  cases hs : s.functions[f]? with
  | none => simp [hs] at he
  | some g =>
    rw [hs] at he
    by_cases heq : func = f
    · simp only [heq, ↓reduceIte, Option.map_eq_map, Option.map_some, Option.bind_some] at he ⊢
      cases hg : g.layout with
      | nil => simp [hg] at he
      | cons a l => simpa [hg] using he
    · simpa [heq] using he

/-- Only the insertion block grows by an insertion. -/
theorem append_blockGrows {is : List Inst} (hi : ∀ i ∈ is, i.isAlloca = false)
    (hp : ∃ l, s.insertPoint = some ⟨func, l⟩ ∧ (l = home ∨ base ≤ l)) (l : Label) :
    ∃ as js, BlockGrows (s.blocks l) ((s.append is).blocks l) as js ∧ (l ≠ entry → as = []) ∧
      (l < base → l ≠ home → js = []) := by
  obtain ⟨k, hk, hb⟩ := hp
  rw [State.append_blocks s hk]
  by_cases hl : l = k
  · subst hl
    rw [Function.update_self]
    refine ⟨[], is, ⟨by simp, by simp, hi⟩, fun _ => rfl, fun h₁ h₂ => ?_⟩
    rcases hb with rfl | hb
    · exact absurd rfl h₂
    · exact absurd hb (Nat.not_le_of_lt h₁)
  · rw [Function.update_of_ne hl]
    exact ⟨[], [], .refl _, fun _ => rfl, fun _ _ => rfl⟩

theorem Emits.grows {is : List Inst} (h : Emits s is t)
    (hp : ∃ l, s.insertPoint = some ⟨func, l⟩ ∧ (l = home ∨ base ≤ l)) : Grows func base home entry s t where
  functions := ⟨[], by simp, by rw [modify_layout_nil, h.functions]⟩
  globals := h.globals
  nextReg := h.nextReg
  nextSlot := Nat.le_of_eq h.nextSlot.symm
  nextLabel := Nat.le_of_eq h.nextLabel.symm
  point := by rw [h.insertPoint]; exact hp
  blocks l := by rw [h.blocks]; exact append_blockGrows (fun i hi => (h.plain i hi).2) hp l

theorem Grows.append {is : List Inst} (hi : ∀ i ∈ is, i.isAlloca = false)
    (hp : ∃ l, s.insertPoint = some ⟨func, l⟩ ∧ (l = home ∨ base ≤ l)) :
    Grows func base home entry s (s.append is) where
  functions := ⟨[], by simp, by rw [modify_layout_nil, State.append_functions]⟩
  globals := State.append_globals s _
  nextReg := Nat.le_of_eq (State.append_nextReg s _).symm
  nextSlot := Nat.le_of_eq (State.append_nextSlot s _).symm
  nextLabel := Nat.le_of_eq (State.append_nextLabel s _).symm
  point := by rw [State.append_insertPoint]; exact hp
  blocks l := append_blockGrows hi hp l

theorem isAlloca_of_isTerminator {i : Inst} (h : i.isTerminator = true) : i.isAlloca = false := by
  cases i <;> first | rfl | simp [Inst.isTerminator, Inst.isBranch, Inst.isReturn] at h

theorem emitAlloca_grows {ty : Ty} {count : Option Value}
    (hp : ∃ l, s.insertPoint = some ⟨func, l⟩ ∧ (l = home ∨ base ≤ l)) :
    Grows func base home entry s (s.emitAlloca entry ty count) where
  functions := ⟨[], by simp, (modify_layout_nil _ _).symm⟩
  globals := rfl
  nextReg := Nat.le_refl _
  nextSlot := Nat.le_succ _
  nextLabel := Nat.le_refl _
  point := hp
  blocks l := by
    show ∃ as js, BlockGrows (s.blocks l) (Function.update s.blocks entry _ l) as js ∧ _
    by_cases hl : l = entry
    · subst hl
      rw [Function.update_self]
      exact ⟨[_], [], ⟨by simp; rfl, by simp [Inst.isAlloca], by simp⟩, fun h => absurd rfl h, fun _ _ => rfl⟩
    · rw [Function.update_of_ne hl]
      exact ⟨[], [], .refl _, fun _ => rfl, fun _ _ => rfl⟩

theorem GenStep.grows (h : GenStep func base s t) (hp : ∃ l, s.insertPoint = some ⟨func, l⟩ ∧ (l = home ∨ base ≤ l))
    (he : s.entry? func = some entry) : Grows func base home entry s t := by
  -- A step that changes none of the fields, and nothing of the blocks.
  have same : ∀ {t : State}, t.functions = s.functions → t.globals = s.globals → t.nextReg = s.nextReg →
      t.nextSlot = s.nextSlot → s.nextLabel ≤ t.nextLabel → t.insertPoint = s.insertPoint → t.blocks = s.blocks →
      Grows func base home entry s t := by
    intro t h₁ h₂ h₃ h₄ h₅ h₆ h₇
    exact ⟨⟨[], by simp, by rw [modify_layout_nil, h₁]⟩, h₂, Nat.le_of_eq h₃.symm, Nat.le_of_eq h₄.symm, h₅,
      by rw [h₆]; exact hp, fun l => ⟨[], [], by rw [h₇]; exact .refl _, fun _ => rfl, fun _ _ => rfl⟩⟩
  cases h with
  | emits h => exact h.grows hp
  | terminator h => exact .append (by simpa using isAlloca_of_isTerminator h) hp
  | emptyBack => exact same rfl rfl rfl rfl (Nat.le_refl _) rfl rfl
  | newBlocks => exact same rfl rfl rfl rfl (Nat.le_add_right _ _) rfl rfl
  | @enter l hb hl =>
    refine ⟨⟨[l], by simpa using ⟨hb, hl⟩, rfl⟩, rfl, Nat.le_refl _, Nat.le_refl _, Nat.le_refl _,
      ⟨l, rfl, Or.inr hb⟩, fun k => ⟨[], [], .refl _, fun _ => rfl, fun _ _ => rfl⟩⟩
  | pushLoop => exact same rfl rfl rfl rfl (Nat.le_refl _) rfl rfl
  | popLoop => exact same rfl rfl rfl rfl (Nat.le_refl _) rfl rfl
  | pushLayer => exact same rfl rfl rfl rfl (Nat.le_refl _) rfl rfl
  | popLayer => exact same rfl rfl rfl rfl (Nat.le_refl _) rfl rfl
  | @define w is layer outer e x nv ty count hn hx he' ha hs hw =>
    obtain rfl : e = entry := Option.some.inj (he'.symm.trans he)
    have g : Grows func base home e s w :=
      (emitAlloca_grows hp).trans (hw.grows (@emitAlloca_grows func base home e s ty count hp).point)
    exact ⟨g.functions, g.globals, g.nextReg, g.nextSlot, g.nextLabel, g.point, g.blocks⟩

theorem GenRun.grows (h : GenRun func base s t) (hp : ∃ l, s.insertPoint = some ⟨func, l⟩ ∧ (l = home ∨ base ≤ l))
    (he : s.entry? func = some entry) : Grows func base home entry s t := by
  induction h with
  | refl => exact .refl hp
  | tail _ h ih => exact ih.trans (h.grows ih.point (ih.entry? _ he))

end Growth

/-! ### The function that is being generated -/

/-- The shape of function number `func` with the entry block `entry` while its body is generated: the entry
    block is a run of allocas and then other instructions, the later blocks have no alloca, and the named
    values stand for different allocas of the entry block. -/
structure Prologue (func entry : Nat) (s : State) : Prop where
  head : s.entry? func = some entry
  entry_lt : entry < s.nextLabel
  point : ∃ l : Nat, s.insertPoint = some ⟨func, l⟩ ∧ entry ≤ l ∧ l < s.nextLabel
  fresh : ∀ l : Nat, s.nextLabel ≤ l → s.blocks l = []
  shape : ∃ as js, s.blocks entry = as ++ js ∧ (∀ i ∈ as, i.isAlloca = true) ∧ ∀ i ∈ js, i.isAlloca = false
  others : ∀ l : Nat, entry < l → ∀ i ∈ s.blocks l, i.isAlloca = false
  slots : ((s.blocks entry).filterMap Inst.slot?).Nodup
  slots_lt : ∀ k ∈ (s.blocks entry).filterMap Inst.slot?, k < s.nextSlot
  shapes : ∀ k ty count, Inst.alloca k ty count ∈ s.blocks entry → AllocaShape ty count
  named : ∀ layer ∈ s.namedValues, ∀ b ∈ layer, ∃ count,
    Inst.alloca b.2.alloca.slot b.2.alloca.ty count ∈ s.blocks entry
  distinct : (s.namedValues.flatten.map (·.2.alloca.slot)).Nodup

section Prologue
variable {func base entry : Nat} {s t : State}

theorem slot?_of_not_isAlloca {i : Inst} (h : i.isAlloca = false) : i.slot? = none := by
  cases i <;> first | rfl | simp [Inst.isAlloca] at h

theorem filterMap_slot?_of_not_isAlloca {is : List Inst} (h : ∀ i ∈ is, i.isAlloca = false) :
    is.filterMap Inst.slot? = [] :=
  List.filterMap_eq_nil_iff.mpr fun i hi => slot?_of_not_isAlloca (h i hi)

/-- Putting instructions other than allocas at the end of the insertion block. -/
theorem Prologue.append (h : Prologue func entry s) {is : List Inst} (hi : ∀ i ∈ is, i.isAlloca = false) :
    Prologue func entry (s.append is) := by
  obtain ⟨p, hp, hle, hlt⟩ := h.point
  have hb := State.append_blocks s hp is
  have hself : (s.append is).blocks p = s.blocks p ++ is := by rw [hb]; exact Function.update_self ..
  have hother : ∀ l, l ≠ p → (s.append is).blocks l = s.blocks l := fun l hl => by
    rw [hb]; exact Function.update_of_ne hl ..
  have hslots : ((s.append is).blocks entry).filterMap Inst.slot? = (s.blocks entry).filterMap Inst.slot? := by
    by_cases he : entry = p
    · rw [he, hself, List.filterMap_append, filterMap_slot?_of_not_isAlloca hi, List.append_nil]
    · rw [hother _ he]
  refine ⟨?_, ?_, ⟨p, ?_, hle, ?_⟩, fun l hl => ?_, ?_, fun l hl i hm => ?_, ?_, fun k hk => ?_,
    fun k ty count hm => ?_, fun layer hl b hb' => ?_, ?_⟩
  · simpa [State.entry?] using h.head
  · simpa using h.entry_lt
  · simpa using hp
  · simpa using hlt
  · rw [State.append_nextLabel] at hl
    rw [hother l (Nat.ne_of_gt (Nat.lt_of_lt_of_le hlt hl)), h.fresh l hl]
  · obtain ⟨as, js, hs, ha, hj⟩ := h.shape
    by_cases he : entry = p
    · refine ⟨as, js ++ is, ?_, ha, fun i hm => (List.mem_append.mp hm).elim (hj i) (hi i)⟩
      rw [he, hself, ← he, hs, List.append_assoc]
    · exact ⟨as, js, by rw [hother _ he, hs], ha, hj⟩
  · by_cases he : l = p
    · rw [he, hself] at hm
      exact (List.mem_append.mp hm).elim (he ▸ h.others l hl i) (hi i)
    · rw [hother l he] at hm
      exact h.others l hl i hm
  · rw [hslots]; exact h.slots
  · rw [hslots] at hk
    rw [State.append_nextSlot]
    exact h.slots_lt k hk
  · by_cases he : entry = p
    · rw [he, hself, ← he] at hm
      rcases List.mem_append.mp hm with hm | hm
      · exact h.shapes k ty count hm
      · exact absurd (hi _ hm) (by simp [Inst.isAlloca])
    · rw [hother _ he] at hm
      exact h.shapes k ty count hm
  · rw [State.append_namedValues] at hl
    obtain ⟨count, hm⟩ := h.named layer hl b hb'
    refine ⟨count, ?_⟩
    by_cases he : entry = p
    · rw [he, hself, ← he]
      exact List.mem_append_left _ hm
    · rw [hother _ he]; exact hm
  · rw [State.append_namedValues]; exact h.distinct

/-- The fields the shape is about. -/
theorem Prologue.congr (h : Prologue func entry s) (hf : t.functions = s.functions) (hb : t.blocks = s.blocks)
    (hp : t.insertPoint = s.insertPoint) (hs : t.nextSlot = s.nextSlot) (hl : s.nextLabel ≤ t.nextLabel)
    (hn : t.namedValues = s.namedValues) : Prologue func entry t := by
  obtain ⟨h₁, h₂, ⟨l, h₃, h₄, h₅⟩, h₆, h₇, h₈, h₉, h₁₀, h₁₁, h₁₂, h₁₃⟩ := h
  refine ⟨by rw [State.entry?, hf]; exact h₁, by omega, ⟨l, by rw [hp]; exact h₃, h₄, by omega⟩,
    fun l hl' => by rw [hb]; exact h₆ l (by omega), ?_, ?_, ?_, ?_, ?_, ?_, ?_⟩
  · rw [hb]; exact h₇
  · rw [hb]; exact h₈
  · rw [hb]; exact h₉
  · rw [hb, hs]; exact h₁₀
  · rw [hb]; exact h₁₁
  · rw [hb, hn]; exact h₁₂
  · rw [hn]; exact h₁₃

theorem Prologue.emits (h : Prologue func entry s) {is : List Inst} (e : Emits s is t) : Prologue func entry t := by
  have h' : Prologue func entry (s.append is) := h.append fun i hi => (e.plain i hi).2
  exact h'.congr (by rw [e.functions, State.append_functions]) e.blocks
    (by rw [e.insertPoint, State.append_insertPoint]) (by rw [e.nextSlot, State.append_nextSlot])
    (Nat.le_of_eq (by rw [e.nextLabel, State.append_nextLabel])) (by rw [e.namedValues, State.append_namedValues])

theorem Prologue.popLayer (h : Prologue func entry s) : Prologue func entry s.popLayer := by
  obtain ⟨h₁, h₂, h₃, h₄, h₅, h₆, h₇, h₈, h₉, h₁₀, h₁₁⟩ := h
  refine ⟨h₁, h₂, h₃, h₄, h₅, h₆, h₇, h₈, h₉, fun layer hl => h₁₀ layer (List.mem_of_mem_tail hl), ?_⟩
  show (s.namedValues.tail.flatten.map _).Nodup
  cases hn : s.namedValues with
  | nil => simp
  | cons layer outer =>
    rw [hn, List.flatten_cons, List.map_append] at h₁₁
    exact (List.nodup_append.mp h₁₁).2.1

/-- The alloca of a definition: a fresh slot, at the begin of the entry block. -/
theorem Prologue.emitAlloca (h : Prologue func entry s) {ty : Ty} {count : Option Value} (hc : AllocaShape ty count) :
    Prologue func entry (s.emitAlloca entry ty count) := by
  obtain ⟨h₁, h₂, h₃, h₄, ⟨as, js, hs, ha, hj⟩, h₆, h₇, h₈, h₉, h₁₀, h₁₁⟩ := h
  have hself : (s.emitAlloca entry ty count).blocks entry = .alloca s.nextSlot ty count :: s.blocks entry :=
    Function.update_self ..
  have hother : ∀ l, l ≠ entry → (s.emitAlloca entry ty count).blocks l = s.blocks l := fun l hl =>
    Function.update_of_ne hl ..
  have hslots : ((s.emitAlloca entry ty count).blocks entry).filterMap Inst.slot? =
      s.nextSlot :: (s.blocks entry).filterMap Inst.slot? := by
    rw [hself, List.filterMap_cons]; rfl
  refine ⟨h₁, h₂, h₃, fun l hl => ?_, ⟨.alloca s.nextSlot ty count :: as, js, ?_, ?_, hj⟩, fun l hl => ?_, ?_,
    fun k hk => ?_, fun k ty' count' hm => ?_, fun layer hl b hb => ?_, h₁₁⟩
  · rw [hother l (by have : s.nextLabel ≤ l := hl; omega)]
    exact h₄ l hl
  · rw [hself, hs]; rfl
  · simpa [Inst.isAlloca] using ha
  · rw [hother l (by omega)]; exact h₆ l hl
  · rw [hslots, List.nodup_cons]
    exact ⟨fun hm => Nat.lt_irrefl _ (h₈ _ hm), h₇⟩
  · rw [hslots, List.mem_cons] at hk
    rcases hk with rfl | hk
    · exact Nat.lt_succ_self _
    · exact Nat.lt_succ_of_lt (h₈ k hk)
  · rw [hself] at hm
    rcases List.mem_cons.mp hm with hm | hm
    · cases hm
      exact hc
    · exact h₉ k ty' count' hm
  · obtain ⟨c, hm⟩ := h₁₀ layer hl b hb
    exact ⟨c, by rw [hself]; exact List.mem_cons_of_mem _ hm⟩

/-- Naming an alloca whose slot no name has yet. -/
theorem Prologue.bind (h : Prologue func entry s) {layer : Layer} {outer : List Layer}
    (hn : s.namedValues = layer :: outer) {nv : NamedValue} {count : Option Value}
    (hm : Inst.alloca nv.alloca.slot nv.alloca.ty count ∈ s.blocks entry)
    (hd : nv.alloca.slot ∉ s.namedValues.flatten.map (·.2.alloca.slot)) (x : String) :
    Prologue func entry (s.bind x nv) := by
  obtain ⟨h₁, h₂, h₃, h₄, h₅, h₆, h₇, h₈, h₉, h₁₀, h₁₁⟩ := h
  have hb : (s.bind x nv).namedValues = ((x, nv) :: layer) :: outer := by simp [State.bind, hn]
  refine ⟨h₁, h₂, h₃, h₄, h₅, h₆, h₇, h₈, h₉, fun l hl b hb' => ?_, ?_⟩
  · rw [hb, List.mem_cons] at hl
    rcases hl with rfl | hl
    · rcases List.mem_cons.mp hb' with rfl | hb'
      · exact ⟨count, hm⟩
      · exact h₁₀ layer (by rw [hn]; exact List.mem_cons_self) b hb'
    · exact h₁₀ l (by rw [hn]; exact List.mem_cons_of_mem _ hl) b hb'
  · rw [hb]
    rw [hn] at hd h₁₁
    exact List.nodup_cons.mpr ⟨hd, h₁₁⟩

/-- The slots of the named values are slots of the entry block. -/
theorem Prologue.slot_lt (h : Prologue func entry s) :
    ∀ k ∈ s.namedValues.flatten.map (·.2.alloca.slot), k < s.nextSlot := by
  intro k hk
  obtain ⟨b, hb, rfl⟩ := List.mem_map.mp hk
  obtain ⟨layer, hl, hb⟩ := List.mem_flatten.mp hb
  obtain ⟨count, hm⟩ := h.named layer hl b hb
  exact h.slots_lt _ (List.mem_filterMap.mpr ⟨_, hm, rfl⟩)

theorem Emits.mem_blocks {is : List Inst} (e : Emits s is t) {l : Label} {i : Inst} (hi : i ∈ s.blocks l) :
    i ∈ t.blocks l := by
  rw [e.blocks]
  cases hp : s.insertPoint with
  | none => rw [State.append_of_none s hp]; exact hi
  | some p =>
    rw [State.append_blocks s hp]
    by_cases hl : l = p.block
    · rw [hl, Function.update_self, ← hl]
      exact List.mem_append_left _ hi
    · rw [Function.update_of_ne hl]; exact hi

theorem GenStep.prologue (hb : entry ≤ base) (h : GenStep func base s t) (hs : Prologue func entry s) :
    Prologue func entry t := by
  cases h with
  | emits e => exact hs.emits e
  | terminator h => exact hs.append (by simpa using isAlloca_of_isTerminator h)
  | emptyBack => exact hs.congr rfl rfl rfl rfl (Nat.le_refl _) rfl
  | newBlocks => exact hs.congr rfl rfl rfl rfl (Nat.le_add_right _ _) rfl
  | @enter l hbl hl =>
    obtain ⟨h₁, h₂, h₃, h₄, h₅, h₆, h₇, h₈, h₉, h₁₀, h₁₁⟩ := hs
    obtain ⟨p, hp, -⟩ := h₃
    have g : Grows func base p entry s (s.enter func l) := (GenStep.enter hbl hl).grows ⟨p, hp, Or.inl rfl⟩ h₁
    exact ⟨g.entry? _ h₁, h₂, ⟨l, rfl, Nat.le_trans hb hbl, hl⟩, h₄, h₅, h₆, h₇, h₈, h₉, h₁₀, h₁₁⟩
  | pushLoop => exact hs.congr rfl rfl rfl rfl (Nat.le_refl _) rfl
  | popLoop => exact hs.congr rfl rfl rfl rfl (Nat.le_refl _) rfl
  | pushLayer =>
    obtain ⟨h₁, h₂, h₃, h₄, h₅, h₆, h₇, h₈, h₉, h₁₀, h₁₁⟩ := hs
    refine ⟨h₁, h₂, h₃, h₄, h₅, h₆, h₇, h₈, h₉, fun layer hl b hb => ?_, h₁₁⟩
    rcases List.mem_cons.mp hl with rfl | hl
    · cases hb
    · exact h₁₀ layer hl b hb
  | popLayer => exact hs.popLayer
  | @define w is layer outer e x nv ty count hn hx he ha hsh hw =>
    obtain rfl : e = entry := Option.some.inj (he.symm.trans hs.head)
    have hlt := hs.slot_lt
    have hw' := (hs.emitAlloca hsh).emits hw
    refine hw'.bind (hw.namedValues.trans hn) (?_ : Inst.alloca nv.alloca.slot nv.alloca.ty count ∈ _) (fun hm => ?_) x
    · rw [ha]
      refine hw.mem_blocks ?_
      simp [State.emitAlloca]
    · rw [hw.namedValues, ha] at hm
      exact Nat.lt_irrefl _ (hlt _ hm)

theorem GenRun.prologue (hb : entry ≤ base) (h : GenRun func base s t) (hs : Prologue func entry s) :
    Prologue func entry t := by
  induction h with
  | refl => exact hs
  | tail _ h ih => exact h.prologue hb ih

/-- What a run from a prologue on grows by. -/
theorem Prologue.grows (h : Prologue func entry s) (r : GenRun func base s t) :
    ∃ home : Nat, s.insertPoint = some ⟨func, home⟩ ∧ Grows func base home entry s t := by
  obtain ⟨l, hl, -, -⟩ := h.point
  exact ⟨l, hl, r.grows ⟨l, hl, Or.inl rfl⟩ h.head⟩

/-- A block that was made before a run but is not the one the run starts in stays as it is. -/
theorem Prologue.blocks_eq (h : Prologue func entry s) (r : GenRun func base s t) (home : Nat) {l : Nat}
    (hh : s.insertPoint = some ⟨func, home⟩) (hl : l < base) (hne : l ≠ home) (he : l ≠ entry) :
    t.blocks l = s.blocks l := by
  obtain ⟨home', hh', g⟩ := h.grows r
  obtain rfl : home' = home := congrArg InsertPoint.block (Option.some.inj (hh'.symm.trans hh))
  obtain ⟨as, js, hb, ha, hj⟩ := g.blocks l
  rw [hb.1, ha he, hj hl hne]
  simp

theorem append_blocks_of_ne {p : InsertPoint} {l : Nat} (hp : s.insertPoint = some p) (hl : l ≠ p.block)
    (is : List Inst) : (s.append is).blocks l = s.blocks l := by
  rw [State.append_blocks s hp, Function.update_of_ne hl]

theorem brUnlessBranch_blocks_of_ne {p : InsertPoint} {l : Nat} {target : Label} (hp : s.insertPoint = some p)
    (hl : l ≠ p.block) : (s.brUnlessBranch p target).blocks l = s.blocks l := by
  unfold State.brUnlessBranch
  split
  · split
    · rfl
    · exact append_blocks_of_ne hp hl _
  · exact append_blocks_of_ne (s := { s with emptyBack := true }) hp hl _

/-! ### The new blocks of an `if` and a `while` are empty when they are entered -/

section If
variable {e : ExprNode} {thenStmt : StmtNode} {elseStmt : Option StmtNode} {v c : Value} {s₁ s₂ s₃ s₄ : State}
  {q r : InsertPoint}

variable [ConstantFolder]

theorem IfRun.start_blocks (hs : Prologue func entry s) (h : IfRun func e thenStmt elseStmt s v s₁ c s₂ s₃ q s₄ r t)
    {l : Nat} (hl : s.nextLabel ≤ l) : (s₂.thenStart func c).blocks l = [] := by
  obtain ⟨is, e₁⟩ := h.emits
  have hs₂ := hs.emits e₁
  obtain ⟨p, hp, -, hlt⟩ := hs₂.point
  rw [h.nextLabel] at hlt
  show (s₂.newBlocks.append [_]).blocks l = []
  rw [append_blocks_of_ne (s := s₂.newBlocks) hp (Nat.ne_of_gt (Nat.lt_of_lt_of_le hlt hl))]
  exact hs₂.fresh l (by rw [h.nextLabel]; exact hl)

/-- Where the then branch stops: in its first block, or in one made later. -/
theorem IfRun.then_point (hs : Prologue func entry s) (h : IfRun func e thenStmt elseStmt s v s₁ c s₂ s₃ q s₄ r t) :
    q.func = func ∧ (s.nextLabel = q.block ∨ s.nextLabel + 3 ≤ q.block) := by
  have hp := h.start.prologue (Nat.le_of_lt hs.entry_lt) hs
  obtain ⟨home, hh, g⟩ := hp.grows h.thenRun
  obtain rfl : s₂.nextLabel = home := congrArg InsertPoint.block (Option.some.inj hh)
  obtain ⟨l, hl, hb⟩ := g.point
  obtain rfl := Option.some.inj (h.thenPoint.symm.trans hl)
  rw [h.nextLabel] at hb
  exact ⟨rfl, hb.imp Eq.symm id⟩

theorem IfRun.then_blocks (hs : Prologue func entry s) (h : IfRun func e thenStmt elseStmt s v s₁ c s₂ s₃ q s₄ r t)
    {l : Nat} (hl : s.nextLabel < l) (hl' : l < s.nextLabel + 3) : s₃.blocks l = [] := by
  have hp := h.start.prologue (Nat.le_of_lt hs.entry_lt) hs
  have he := hs.entry_lt
  rw [hp.blocks_eq h.thenRun s₂.nextLabel rfl hl' (by rw [h.nextLabel]; omega) (by omega)]
  exact h.start_blocks hs (Nat.le_of_lt hl)

theorem IfRun.else_start_blocks (hs : Prologue func entry s)
    (h : IfRun func e thenStmt elseStmt s v s₁ c s₂ s₃ q s₄ r t) {l : Nat} (hl : s.nextLabel < l)
    (hl' : l < s.nextLabel + 3) :
    ((s₃.brUnlessBranch q (s₂.nextLabel + 2)).enter func (s₂.nextLabel + 1)).blocks l = [] := by
  obtain ⟨-, hq⟩ := h.then_point hs
  show (s₃.brUnlessBranch q _).blocks l = []
  rw [brUnlessBranch_blocks_of_ne h.thenPoint (by rcases hq with hq | hq <;> omega)]
  exact h.then_blocks hs hl hl'

theorem IfRun.else_prologue (hs : Prologue func entry s) (h : IfRun func e thenStmt elseStmt s v s₁ c s₂ s₃ q s₄ r t) :
    Prologue func entry ((s₃.brUnlessBranch q (s₂.nextLabel + 2)).enter func (s₂.nextLabel + 1)) := by
  have hb := Nat.le_of_lt hs.entry_lt
  exact h.middle.prologue hb (h.thenRun.prologue (by omega) (h.start.prologue hb hs))

theorem IfRun.else_point (hs : Prologue func entry s) (h : IfRun func e thenStmt elseStmt s v s₁ c s₂ s₃ q s₄ r t) :
    r.func = func ∧ (s.nextLabel + 1 = r.block ∨ s.nextLabel + 3 ≤ r.block) := by
  obtain ⟨home, hh, g⟩ := (h.else_prologue hs).grows h.elseRun
  obtain rfl : s₂.nextLabel + 1 = home := congrArg InsertPoint.block (Option.some.inj hh)
  obtain ⟨l, hl, hb⟩ := g.point
  obtain rfl := Option.some.inj (h.elsePoint.symm.trans hl)
  rw [h.nextLabel] at hb
  exact ⟨rfl, hb.imp Eq.symm id⟩

theorem IfRun.merge_blocks (hs : Prologue func entry s) (h : IfRun func e thenStmt elseStmt s v s₁ c s₂ s₃ q s₄ r t) :
    t.blocks (s.nextLabel + 2) = [] := by
  obtain ⟨-, hr⟩ := h.else_point hs
  have he := hs.entry_lt
  rw [h.result]
  show (s₄.brUnlessBranch r _).blocks _ = []
  rw [brUnlessBranch_blocks_of_ne h.elsePoint (by rcases hr with hr | hr <;> omega),
    (h.else_prologue hs).blocks_eq h.elseRun (s₂.nextLabel + 1) rfl (by omega) (by rw [h.nextLabel]; omega)
      (by omega)]
  exact h.else_start_blocks hs (by omega) (by omega)

end If

section While
variable {e : ExprNode} {body : StmtNode} {v c : Value} {s₁ s₂ s₃ : State} {q : InsertPoint}

theorem loopStart_blocks (hs : Prologue func entry s) {l : Nat} (hl : s.nextLabel ≤ l) :
    (s.loopStart func).blocks l = [] := by
  obtain ⟨p, hp, -, hlt⟩ := hs.point
  show ((s.newBlocks.pushLoop _).append [_]).blocks l = []
  rw [append_blocks_of_ne (s := s.newBlocks.pushLoop _) hp (Nat.ne_of_gt (Nat.lt_of_lt_of_le hlt hl))]
  exact hs.fresh l hl

theorem loopStart_prologue (hs : Prologue func entry s) : Prologue func entry (s.loopStart func) :=
  loopStart_run.prologue (Nat.le_of_lt hs.entry_lt) hs

variable [ConstantFolder]

theorem WhileRun.cond_point (h : WhileRun func e body s v s₁ c s₂ s₃ q t) :
    s₂.insertPoint = some ⟨func, s.nextLabel⟩ := by
  obtain ⟨is, e₁⟩ := h.emits
  exact e₁.insertPoint

theorem WhileRun.body_start_blocks (hs : Prologue func entry s) (h : WhileRun func e body s v s₁ c s₂ s₃ q t) {l : Nat}
    (hl : s.nextLabel < l) : (s₂.bodyStart func c s.nextLabel).blocks l = [] := by
  obtain ⟨is, e₁⟩ := h.emits
  show (s₂.append [_]).blocks l = []
  rw [append_blocks_of_ne h.cond_point (Nat.ne_of_gt hl), e₁.blocks,
    append_blocks_of_ne (s := s.loopStart func) rfl (Nat.ne_of_gt hl)]
  exact loopStart_blocks hs (Nat.le_of_lt hl)

theorem WhileRun.body_prologue (hs : Prologue func entry s) (h : WhileRun func e body s v s₁ c s₂ s₃ q t) :
    Prologue func entry (s₂.bodyStart func c s.nextLabel) :=
  h.start.prologue (Nat.le_of_lt hs.entry_lt) hs

theorem WhileRun.body_point (hs : Prologue func entry s) (h : WhileRun func e body s v s₁ c s₂ s₃ q t) :
    q.func = func ∧ (s.nextLabel + 1 = q.block ∨ s.nextLabel + 3 ≤ q.block) := by
  obtain ⟨home, hh, g⟩ := (h.body_prologue hs).grows h.bodyRun
  obtain rfl : s.nextLabel + 1 = home := congrArg InsertPoint.block (Option.some.inj hh)
  obtain ⟨l, hl, hb⟩ := g.point
  obtain rfl := Option.some.inj (h.bodyPoint.symm.trans hl)
  exact ⟨rfl, hb.imp Eq.symm id⟩

theorem WhileRun.after_blocks (hs : Prologue func entry s) (h : WhileRun func e body s v s₁ c s₂ s₃ q t) :
    t.blocks (s.nextLabel + 2) = [] := by
  obtain ⟨-, hq⟩ := h.body_point hs
  have he := hs.entry_lt
  rw [h.result]
  show (s₃.brUnlessBranch q _).blocks _ = []
  rw [brUnlessBranch_blocks_of_ne h.bodyPoint (by rcases hq with hq | hq <;> omega),
    (h.body_prologue hs).blocks_eq h.bodyRun (s.nextLabel + 1) rfl (by omega) (by omega) (by omega)]
  exact h.body_start_blocks hs (by omega)

end While

end Prologue

/-! ### What holds of all instructions of a function -/

/-- A property of all instructions in the blocks from `entry` on. -/
def AllFrom (P : Inst → Prop) (entry : Nat) (s : State) : Prop := ∀ l : Nat, entry ≤ l → ∀ i ∈ s.blocks l, P i

/-- The builder inserts into a block from `entry` on. -/
def Inserts (entry : Nat) (s : State) : Prop := ∃ p, s.insertPoint = some p ∧ entry ≤ p.block

section AllFrom
variable {P : Inst → Prop} {func entry : Nat} {s t : State}

theorem Prologue.inserts (h : Prologue func entry s) : Inserts entry s := by
  obtain ⟨l, hl, hle, -⟩ := h.point
  exact ⟨_, hl, hle⟩

theorem allFrom_congr (hb : t.blocks = s.blocks) : AllFrom P entry t ↔ AllFrom P entry s := by rw [AllFrom, hb, AllFrom]

theorem allFrom_append {is : List Inst} (hp : Inserts entry s) :
    AllFrom P entry (s.append is) ↔ AllFrom P entry s ∧ ∀ i ∈ is, P i := by
  obtain ⟨p, hp, hle⟩ := hp
  have hself : (s.append is).blocks p.block = s.blocks p.block ++ is := by
    rw [State.append_blocks s hp, Function.update_self]
  constructor
  · intro h
    refine ⟨fun l hl i hi => ?_, fun i hi => ?_⟩
    · by_cases hlp : l = p.block
      · refine h p.block hle i ?_
        rw [hself]
        exact List.mem_append_left _ (hlp ▸ hi)
      · refine h l hl i ?_
        rwa [append_blocks_of_ne hp hlp]
    · refine h p.block hle i ?_
      rw [hself]
      exact List.mem_append_right _ hi
  · rintro ⟨hold, hnew⟩ l hl i hi
    by_cases hlp : l = p.block
    · rw [hlp, hself] at hi
      rcases List.mem_append.mp hi with hi | hi
      · exact hold p.block hle i hi
      · exact hnew i hi
    · rw [append_blocks_of_ne hp hlp] at hi
      exact hold l hl i hi

theorem Emits.allFrom {is : List Inst} (e : Emits s is t) (hp : Inserts entry s) :
    AllFrom P entry t ↔ AllFrom P entry s ∧ ∀ i ∈ is, P i := (allFrom_congr e.blocks).trans (allFrom_append hp)

theorem allFrom_emitAlloca (ty : Ty) (count : Option Value) :
    AllFrom P entry (s.emitAlloca entry ty count) ↔ AllFrom P entry s ∧ P (.alloca s.nextSlot ty count) := by
  have hself : (s.emitAlloca entry ty count).blocks entry = .alloca s.nextSlot ty count :: s.blocks entry :=
    Function.update_self ..
  have hother : ∀ l, l ≠ entry → (s.emitAlloca entry ty count).blocks l = s.blocks l := fun l hl =>
    Function.update_of_ne hl ..
  constructor
  · intro h
    refine ⟨fun l hl i hi => ?_, h entry (Nat.le_refl _) _ ?_⟩
    · refine h l hl i ?_
      by_cases hle : l = entry
      · rw [hle, hself]
        exact List.mem_cons_of_mem _ (hle ▸ hi)
      · rwa [hother l hle]
    · rw [hself]
      exact List.mem_cons_self
  · rintro ⟨hold, hnew⟩ l hl i hi
    by_cases hle : l = entry
    · rw [hle, hself] at hi
      rcases List.mem_cons.mp hi with rfl | hi
      · exact hnew
      · exact hold entry (Nat.le_refl _) i hi
    · rw [hother l hle] at hi
      exact hold l hl i hi

theorem allFrom_brUnlessBranch {p : InsertPoint} {target : Label} (hp : Inserts entry s) (hbr : P (.br target)) :
    AllFrom P entry (s.brUnlessBranch p target) ↔ AllFrom P entry s := by
  have hall : ∀ i ∈ [Inst.br target], P i := List.forall_mem_singleton.mpr hbr
  unfold State.brUnlessBranch
  split
  · split
    · exact Iff.rfl
    · exact (allFrom_append hp).trans (and_iff_left hall)
  · have hempty : Inserts entry { s with emptyBack := true } := hp
    exact (allFrom_append hempty).trans (and_iff_left hall)

end AllFrom

end L24
