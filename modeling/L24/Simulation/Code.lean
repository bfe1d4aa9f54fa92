import L24.Ir.Machine
import L24.Theorems.Program

/-! The code of the finished program seen from a state of its generation: what stands behind the insertion
    point, and where a branch leads. -/

namespace L24
open Ir Relation

/-! ### What is left of a block -/

/-- The instructions of a block that are no allocas. -/
def codeOf (is : List Inst) : List Inst := is.filter (!·.isAlloca)

theorem codeOf_append (is js : List Inst) : codeOf (is ++ js) = codeOf is ++ codeOf js := List.filter_append ..

theorem codeOf_eq_self {is : List Inst} (h : ∀ i ∈ is, i.isAlloca = false) : codeOf is = is :=
  List.filter_eq_self.mpr fun i hi => by rw [h i hi]; rfl

theorem codeOf_allocas {is : List Inst} (h : ∀ i ∈ is, i.isAlloca = true) : codeOf is = [] :=
  List.filter_eq_nil_iff.mpr fun i hi => by rw [h i hi]; simp

theorem BlockGrows.codeOf {b b' as js : List Inst} (h : BlockGrows b b' as js) : codeOf b' = codeOf b ++ js := by
  rw [h.1, codeOf_append, codeOf_append, codeOf_allocas h.2.1, codeOf_eq_self h.2.2, List.nil_append]

/-- What stands in block `l` of `fin` behind the code that `s` has there. -/
def State.rest (s fin : State) (l : Label) : List Inst := (codeOf (fin.blocks l)).drop (codeOf (s.blocks l)).length

section Rest
variable {fin s t : State} {l : Label}

theorem rest_congr (h : codeOf (s.blocks l) = codeOf (t.blocks l)) : s.rest fin l = t.rest fin l := by
  rw [State.rest, State.rest, h]

/-- Of a block that has no code yet everything is left. -/
theorem rest_of_nil (hs : s.blocks l = []) (hf : ∀ i ∈ fin.blocks l, i.isAlloca = false) :
    s.rest fin l = fin.blocks l := by
  rw [State.rest, hs, codeOf_eq_self hf]
  rfl

theorem rest_of_append {is as js : List Inst} (hb : t.blocks l = s.blocks l ++ is) (hi : ∀ i ∈ is, i.isAlloca = false)
    (h : BlockGrows (t.blocks l) (fin.blocks l) as js) : s.rest fin l = is ++ t.rest fin l := by
  rw [State.rest, State.rest, h.codeOf, hb, codeOf_append, codeOf_eq_self hi, List.append_assoc, List.drop_left,
    ← List.append_assoc, List.drop_left]

end Rest

/-! ### The function in the finished program -/

/-- A function of the module, read off its object. -/
def State.toFunction (s : State) (f : FunctionObj) : Function :=
  { name := f.name, retTy := f.retTy, params := f.params, blocks := f.layout.map fun l => (l, s.blocks l) }

theorem toModule_function? (s : State) (x : String) : s.toModule.function? x = (s.function? x).map s.toFunction := by
  unfold Module.function? State.function?
  exact List.find?_map ..

theorem lookup_map_self {α β : Type} [DecidableEq α] (f : α → β) {a : α} : ∀ {l : List α}, a ∈ l →
    (l.map fun x => (x, f x)).lookup a = some (f a)
  | b :: l, h => by
    rw [List.map_cons, List.lookup_cons]
    by_cases hab : a = b
    · subst hab
      simp
    · rw [beq_eq_false_iff_ne.mpr hab]
      exact lookup_map_self f ((List.mem_cons.mp h).resolve_left hab)

theorem toFunction_block? {s : State} {f : FunctionObj} {l : Label} (h : l ∈ f.layout) :
    (s.toFunction f).block? l = some (s.blocks l) := lookup_map_self s.blocks h

/-- A function of the finished program `fin`: its object at the index `func`, its entry block, and a bound on
    its blocks. Only the entry block has allocas. -/
structure Target (fin : State) where
  func : Nat
  entry : Nat
  limit : Nat
  obj : FunctionObj
  obj_eq : fin.functions[func]? = some obj
  plain : ∀ l : Nat, entry < l → l < limit → ∀ i ∈ fin.blocks l, i.isAlloca = false

/-- What the finished program keeps of a state of the function's generation. -/
structure Later {fin : State} (T : Target fin) (s : State) : Prop where
  blocks : ∀ l : Nat, l < T.limit → ∃ as js, BlockGrows (s.blocks l) (fin.blocks l) as js
  nextLabel : s.nextLabel ≤ T.limit
  labels : ∀ f, s.functions[T.func]? = some f → f.layout ⊆ T.obj.layout
  function? : ∀ x f, s.function? x = some f → ∃ g, fin.function? x = some g ∧ g.retTy = f.retTy
  global? : ∀ x g, s.global? x = some g → fin.global? x = some g

section Later
variable {fin : State} {T : Target fin} {s t : State}

theorem find?_modify {fs : List FunctionObj} {i : Nat} {g : FunctionObj → FunctionObj} {x : String}
    (hg : ∀ f, (g f).name = f.name ∧ (g f).retTy = f.retTy) {f : FunctionObj} :
    fs.find? (·.name == x) = some f → ∃ f', (fs.modify i g).find? (·.name == x) = some f' ∧ f'.retTy = f.retTy := by
  induction fs generalizing i with
  | nil =>
    intro h
    cases h
  | cons k fs ih =>
    intro h
    rw [List.find?_cons] at h
    cases i with
    | zero =>
      rw [List.modify_zero_cons, List.find?_cons, (hg k).1]
      cases ha : k.name == x with
      | true =>
        rw [ha] at h
        cases h
        exact ⟨g f, rfl, (hg f).2⟩
      | false =>
        rw [ha] at h
        exact ⟨f, h, rfl⟩
    | succ i =>
      rw [List.modify_succ_cons, List.find?_cons]
      cases ha : k.name == x with
      | true =>
        rw [ha] at h
        cases h
        exact ⟨f, rfl, rfl⟩
      | false =>
        rw [ha] at h
        exact ih h

theorem Later.of_grows {base home entry : Nat} (g : Grows T.func base home entry s t) (h : Later T t) : Later T s := by
  obtain ⟨ls, -, hf⟩ := g.functions
  refine ⟨fun l hl => ?_, Nat.le_trans g.nextLabel h.nextLabel, fun f hs l hl => ?_, fun x f hx => ?_, fun x k hx => ?_⟩
  · obtain ⟨as, js, hb, -, -⟩ := g.blocks l
    obtain ⟨as', js', hb'⟩ := h.blocks l hl
    exact ⟨_, _, hb.trans hb'⟩
  · refine h.labels { f with layout := f.layout ++ ls } ?_ (List.mem_append_left _ hl)
    rw [hf, List.getElem?_modify, hs]
    simp
  · obtain ⟨f', hf', hr⟩ := find?_modify (i := T.func)
      (g := fun f => { f with layout := f.layout ++ ls }) (fun _ => ⟨rfl, rfl⟩) hx
    obtain ⟨k, hk, hr'⟩ := h.function? x f' (by rw [State.function?, hf]; exact hf')
    exact ⟨k, hk, hr'.trans hr⟩
  · exact h.global? x k (by rw [State.global?, g.globals]; exact hx)

theorem Later.of_run {base entry : Nat} (hs : Prologue T.func entry s) (r : GenRun T.func base s t) (h : Later T t) :
    Later T s := by
  obtain ⟨_, -, g⟩ := hs.grows r
  exact h.of_grows g

/-- The builder inserts into a block of the function. -/
def InBlock (T : Target fin) (s : State) (p : Label) : Prop := s.insertPoint = some ⟨T.func, p⟩ ∧ p < T.limit

theorem Later.append {is : List Inst} {p : Label} (hp : InBlock T s p) (hi : ∀ i ∈ is, i.isAlloca = false)
    (h : Later T (s.append is)) : Later T s := by
  have g : Grows T.func 0 p 0 s (s.append is) := .append hi ⟨p, hp.1, Or.inl rfl⟩
  exact h.of_grows g

theorem Later.emits {is : List Inst} {p : Label} (hp : InBlock T s p) (e : Emits s is t) (h : Later T t) :
    Later T s := by
  have g : Grows T.func 0 p 0 s t := e.grows ⟨p, hp.1, Or.inl rfl⟩
  exact h.of_grows g

theorem InBlock.emits {is : List Inst} {p : Label} (hp : InBlock T s p) (e : Emits s is t) : InBlock T t p :=
  ⟨e.insertPoint.trans hp.1, hp.2⟩

theorem InBlock.append {p : Label} (hp : InBlock T s p) (is : List Inst) : InBlock T (s.append is) p :=
  ⟨(State.append_insertPoint s _).trans hp.1, hp.2⟩

/-- Instructions inserted at `p` are what comes next there. -/
theorem Later.rest_append {is : List Inst} {p : Label} (h : Later T (s.append is)) (hp : InBlock T s p)
    (hi : ∀ i ∈ is, i.isAlloca = false) : s.rest fin p = is ++ (s.append is).rest fin p := by
  obtain ⟨as, js, hb⟩ := h.blocks p hp.2
  refine rest_of_append ?_ hi hb
  rw [State.append_blocks s hp.1, Function.update_self]

theorem Later.rest_emits {is : List Inst} {p : Label} (h : Later T t) (hp : InBlock T s p) (e : Emits s is t) :
    s.rest fin p = is ++ t.rest fin p := by
  obtain ⟨as, js, hb⟩ := h.blocks p hp.2
  refine rest_of_append ?_ (fun i hi => (e.plain i hi).2) hb
  rw [e.blocks, State.append_blocks s hp.1, Function.update_self]

end Later

end L24
