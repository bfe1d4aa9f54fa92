import L24.Theorems.Flow
import L24.Theorems.Redeclare

/-! Reading `back()`: where the generator looks at the last instruction of the insertion block, and a static
    analysis of the source that says whether there is one. -/

namespace L24
open Ir Relation

/-! ### The static analysis -/

/-- The insertion block: whether it is the function's entry block, and whether it has an instruction. -/
structure Tail where
  entry : Bool
  filled : Bool
  deriving DecidableEq, Repr

namespace Tail

/-- A block other than the entry block that has just been entered. -/
def empty : Tail := ⟨false, false⟩

/-- An instruction is inserted. -/
def fill (k : Tail) : Tail := { k with filled := true }

end Tail

/-- The builder folds literal expressions, and inserts something for all others. -/
def Exp.tail (e : Exp) (k : Tail) : Tail := if e.literal then k else k.fill

/-- A definition inserts the stores of its values, and an alloca into the entry block. -/
def Def.tail (d : Def) (k : Tail) : Tail :=
  if k.entry then k.fill
  else match d.exp with
    | none => k.fill
    | some e => if arrayElements e.core = 0 then k else k.fill

mutual

/-- The insertion block behind a statement. Behind an `if` or a `while` it is a new one. -/
def StmtNode.tail : StmtNode → Tail → Tail
  | .block items, k => itemsTail items k
  | .ifStmt _ _ _, _ => .empty
  | .whileStmt _ _, _ => .empty
  | .continueStmt, k => k.fill
  | .breakStmt, k => k.fill
  | .ret _, k => k.fill
  | .expr none, k => k
  | .expr (some e), k => e.core.tail k
  | .assign _ _ _, k => k.fill

def BlockItemNode.tail : BlockItemNode → Tail → Tail
  | .decl d, k => d.defs.foldl (fun k d => d.tail k) k
  | .stmt st, k => st.tail k

/-- What the items leave at the end of the block. -/
def itemsTail : List BlockItemNode → Tail → Tail
  | [], k => k
  | item :: items, k => itemsTail items (item.tail k)

end

mutual

/-- No branch of an `if` and no loop body in the statement leaves its last block empty. An `if` without `else`
    has an empty branch. -/
def StmtNode.leavesFilled : StmtNode → Bool
  | .block items => itemsLeaveFilled items
  | .ifStmt _ _ none => false
  | .ifStmt _ a (some b) => (a.tail .empty).filled && a.leavesFilled && (b.tail .empty).filled && b.leavesFilled
  | .whileStmt _ body => (body.tail .empty).filled && body.leavesFilled
  | .continueStmt => true
  | .breakStmt => true
  | .ret _ => true
  | .expr _ => true
  | .assign _ _ _ => true

def BlockItemNode.leavesFilled : BlockItemNode → Bool
  | .decl _ => true
  | .stmt st => st.leavesFilled

/-- The same for the items of a block. -/
def itemsLeaveFilled : List BlockItemNode → Bool
  | [] => true
  | item :: items => item.leavesFilled && itemsLeaveFilled items

end

/-- The entry block of a function with `n` parameters, when its body begins. -/
def Tail.start (n : Nat) : Tail := ⟨true, n != 0⟩

/-- The same for the branches and bodies of a function, and for its last block. -/
def FuncNode.leavesFilled (f : FuncNode) : Bool :=
  (itemsTail f.block (.start f.param.length)).filled && itemsLeaveFilled f.block

/-! ### What the analysis says about a state -/

/-- The insertion block of function number `func`, with the entry block `entry`, is as `k` says. -/
def Tail.Of (k : Tail) (func entry : Nat) (s : State) : Prop :=
  ∃ p, s.insertPoint = some ⟨func, p⟩ ∧ (k.entry = true ↔ p = entry) ∧ (k.filled = true ↔ s.blocks p ≠ [])

section Tail
variable {func entry : Nat} {k : Tail} {s t : State}

theorem Tail.Of.congr (h : k.Of func entry s) (hb : t.blocks = s.blocks) (hp : t.insertPoint = s.insertPoint) :
    k.Of func entry t := by
  obtain ⟨p, h₁, h₂, h₃⟩ := h
  exact ⟨p, hp.trans h₁, h₂, by rw [hb]; exact h₃⟩

theorem Tail.Of.append {is : List Inst} (h : k.Of func entry s) (hne : is ≠ []) :
    k.fill.Of func entry (s.append is) := by
  obtain ⟨p, h₁, h₂, -⟩ := h
  refine ⟨p, (State.append_insertPoint s is).trans h₁, h₂, ?_⟩
  rw [State.append_blocks s h₁, Function.update_self]
  simp [Tail.fill, hne]

theorem Tail.Of.emits {is : List Inst} (h : k.Of func entry s) (e : Emits s is t) (hne : is ≠ []) :
    k.fill.Of func entry t := by
  refine (h.append hne).congr e.blocks ?_
  rw [e.insertPoint, State.append_insertPoint]

theorem Tail.Of.folds {e : Exp} {c : Const} {v : Value} (h : k.Of func entry s) (hf : Folds e.literal c s v t) :
    (e.tail k).Of func entry t := by
  unfold Exp.tail
  rcases hf with ⟨hl, -, rfl⟩ | ⟨hl, -, is, hne, e⟩
  · simpa [hl] using h
  · simpa [hl] using h.emits e hne

/-- A block that has just been entered, and is not the entry block. -/
theorem Tail.Of.entered {l : Nat} (hl : entry < l) (hp : t.insertPoint = some ⟨func, l⟩) (hb : t.blocks l = []) :
    Tail.empty.Of func entry t := by
  refine ⟨l, hp, ?_, ?_⟩
  · simp [Tail.empty, Nat.ne_of_gt hl]
  · simp [Tail.empty, hb]

/-- Behind a fill, whether the block was filled before does not count. -/
theorem Tail.fill_fill (k : Tail) : k.fill.fill = k.fill := rfl

theorem Exp.tail_fill (e : Exp) (k : Tail) : (e.tail k).fill = k.fill := by
  unfold Exp.tail
  split <;> rfl

/-- The alloca of a definition: at the begin of the entry block. -/
theorem Tail.Of.emitAlloca (h : k.Of func entry s) (ty : Ty) (count : Option Value) :
    (if k.entry then k.fill else k).Of func entry (s.emitAlloca entry ty count) := by
  obtain ⟨p, hp, he, hf⟩ := h
  cases hk : k.entry with
  | true =>
    obtain rfl := he.mp hk
    have hself : (s.emitAlloca p ty count).blocks p = .alloca s.nextSlot ty count :: s.blocks p :=
      Function.update_self ..
    refine ⟨p, hp, ?_, ?_⟩
    · simp [Tail.fill, hk]
    · simp [Tail.fill, hself]
  | false =>
    have hne : p ≠ entry := by
      intro h
      rw [he.mpr h] at hk
      cases hk
    have hother : (s.emitAlloca entry ty count).blocks p = s.blocks p := Function.update_of_ne hne ..
    refine ⟨p, hp, ?_, ?_⟩
    · simpa [hk] using hne
    · simp [hother, hf]

variable [ConstantFolder]

/-- What a definition leaves, when stores are inserted and when there are none. -/
theorem defineValue_tail {x : String} {ty : ValType} {vals : List Value} {size : Option Value} {isPtr : Bool}
    (hf : InFunc func s) (hs : Prologue func entry s) (h : k.Of func entry s)
    (hg : defineValue x ty vals size isPtr s = .ok () t) :
    (if size ≠ none ∧ vals = [] then (if k.entry then k.fill else k) else k.fill).Of func entry t := by
  rcases defineValue_ok hg with ⟨hn, -⟩ | ⟨layer, outer, a, w, hn, -, hw, rfl⟩
  · exact absurd hn hf.layers
  · obtain ⟨p, w', hp, hw', hst⟩ := createDefineValueInst_ok hw
    obtain ⟨e, he, -, hsh, rfl⟩ := createEntryBlockAlloca_step hw'
    obtain ⟨l, hl, -, -⟩ := hs.point
    obtain rfl := Option.some.inj (hp.symm.trans hl)
    obtain rfl := Option.some.inj (he.symm.trans hs.head)
    have h' := h.emitAlloca a.ty size
    have hfill : (if k.entry then k.fill else k).fill = k.fill := by split <;> rfl
    refine Tail.Of.congr (s := w) ?_ rfl rfl
    rcases hst with ⟨rfl, v, hv, rfl⟩ | ⟨hne, rfl⟩
    · have := h'.append (List.cons_ne_nil (Inst.store v a.value) [])
      rw [hfill] at this
      simpa using this
    · cases vals with
      | nil =>
        have hb : ∀ w : State, (w.append []).blocks = w.blocks := by
          intro w
          unfold State.append
          split <;> simp
        rw [if_pos ⟨hne, rfl⟩]
        exact h'.congr (hb _) (State.append_insertPoint _ _)
      | cons v vs =>
        have hne : elementStores a 0 (s.emitAlloca e a.ty size).nextReg (v :: vs) ≠ [] := by simp [elementStores]
        have := h'.append hne
        rw [hfill] at this
        rw [if_neg (by simp)]
        exact this.congr rfl rfl

theorem Def.gen_tail {d : Def} (hf : InFunc func s) (hs : Prologue func entry s) (h : k.Of func entry s)
    (hg : d.gen s = .ok () t) : (d.tail k).Of func entry t := by
  obtain ⟨size, vs, w, hi, hdef⟩ := codeGenDef_ok.mp hg
  obtain ⟨is, e⟩ := hi.emits
  -- Behind the initial values, with the stores still to come.
  have hstore : ¬ (size ≠ none ∧ vs = []) → k.fill.Of func entry t := by
    intro hne
    by_cases his : is = []
    · subst his
      have hw : k.Of func entry w := by
        refine h.congr ?_ e.insertPoint
        rw [e.blocks]
        exact ((Emits.refl s).blocks).symm
      have := defineValue_tail (hf.emits e) (hs.emits e) hw hdef
      rwa [if_neg hne] at this
    · have := defineValue_tail (hf.emits e) (hs.emits e) (h.emits e his) hdef
      rwa [if_neg hne, Tail.fill_fill] at this
  have hfill : (if k.entry then k.fill else k.fill) = k.fill := by split <;> rfl
  unfold Def.tail
  cases hd : d.exp with
  | none =>
    rw [hd] at hi
    obtain ⟨rfl, hi⟩ := hi
    simp only [hfill]
    exact hstore (by simp)
  | some ex =>
    rw [hd] at hi
    obtain ⟨sz, rfl⟩ : ∃ sz, size = some sz := by
      obtain ⟨sz, _, rfl, -, -⟩ := hi
      exact ⟨sz, rfl⟩
    obtain ⟨n, -, hlen, hvals⟩ := genInit_const_size hf hi
    by_cases h₀ : arrayElements ex.core = 0
    · rw [h₀] at hlen hvals
      obtain ⟨rfl, rfl⟩ := initVals_zero_ok.mp hvals
      have := defineValue_tail hf hs h hdef
      simpa [h₀] using this
    · simp only [h₀, ↓reduceIte, hfill]
      refine hstore ?_
      rintro ⟨-, rfl⟩
      exact h₀ hlen.symm

theorem defs_tail : ∀ {ds : List Def} {k : Tail} {s t : State}, InFunc func s → Prologue func entry s →
    k.Of func entry s → ds.forM Def.gen s = .ok ⟨⟩ t → (ds.foldl (fun k d => d.tail k) k).Of func entry t
  | [], k, s, t, _, _, h, hg => by
    obtain rfl := forM_nil_ok.mp hg
    exact h
  | d :: ds, k, s, t, hf, hs, h, hg => by
    obtain ⟨w, hd, hg⟩ := forM_cons_ok.mp hg
    obtain ⟨r, hdef⟩ := Def.gen_run entry hf hd
    rw [List.foldl_cons]
    exact defs_tail (hf.run r hdef.layers) (r.prologue (Nat.le_refl _) hs) (Def.gen_tail hf hs h hd) hg

mutual

/-- Behind a statement the insertion block is as the analysis says. -/
theorem codeGenStmt_tail : ∀ (st : StmtNode) {k : Tail} {s t : State}, InFunc func s → Prologue func entry s →
    k.Of func entry s → codeGenStmt st s = .ok () t → (st.tail k).Of func entry t
  | .block items, k, s, t, hf, hs, h, hg => by
    obtain ⟨w, hw, rfl⟩ := codeGenStmt_block_ok.mp hg
    have hs' : Prologue func entry (s.pushLayer.log .push) :=
      (GenStep.pushLayer.prologue (Nat.le_refl _) hs).emits (Emits.log _)
    have hf' : InFunc func (s.pushLayer.log .push) := ⟨hf.point, List.cons_ne_nil _ _⟩
    have h' : k.Of func entry (s.pushLayer.log .push) := h.congr rfl rfl
    rw [StmtNode.tail]
    exact (codeGenBlockItems_tail items hf' hs' h' hw).congr rfl rfl
  | .ifStmt e a b, k, s, t, hf, hs, _, hg => by
    obtain ⟨v, s₁, c, s₂, s₃, q, s₄, r, hr⟩ := codeGenStmt_if_run
      (fun _ _ _ hf hb h => codeGenStmt_run a hf hb h) (fun _ _ _ hf hb h => codeGenStmt_run _ hf hb h) hf hg
    have he := hs.entry_lt
    rw [StmtNode.tail]
    -- The block behind the `if` has just been entered.
    refine .entered (l := s.nextLabel + 2) (by omega) ?_ (hr.merge_blocks hs)
    rw [hr.result, ← hr.nextLabel]
    rfl
  | .whileStmt e body, k, s, t, hf, hs, _, hg => by
    obtain ⟨v, s₁, c, s₂, s₃, q, hr⟩ :=
      codeGenStmt_while_run (fun _ _ _ hf hb h => codeGenStmt_run body hf hb h) hf hg
    have he := hs.entry_lt
    rw [StmtNode.tail]
    refine .entered (l := s.nextLabel + 2) (by omega) ?_ (hr.after_blocks hs)
    rw [hr.result]
    rfl
  | .continueStmt, k, s, t, _, _, h, hg => by
    obtain ⟨loop, outer, -, rfl⟩ := codeGenStmt_continue_ok.mp hg
    exact h.append (List.cons_ne_nil _ _)
  | .breakStmt, k, s, t, _, _, h, hg => by
    obtain ⟨loop, outer, -, rfl⟩ := codeGenStmt_break_ok.mp hg
    exact h.append (List.cons_ne_nil _ _)
  | .ret none, k, s, t, _, _, h, hg => by
    obtain rfl := codeGenStmt_retVoid_ok.mp hg
    exact h.append (List.cons_ne_nil _ _)
  | .ret (some e), k, s, t, hf, _, h, hg => by
    obtain ⟨v, w, hv, rfl⟩ := codeGenStmt_ret_ok.mp hg
    have := (h.folds (codeGenExp_folds hf.layers hv)).append (List.cons_ne_nil (Inst.ret (some v)) [])
    -- A return fills the block whether or not its expression does.
    rwa [Exp.tail_fill] at this
  | .expr none, k, s, t, _, _, h, hg => by
    obtain rfl := codeGenStmt_empty_ok.mp hg
    exact h
  | .expr (some e), k, s, t, hf, _, h, hg => by
    obtain ⟨v, hv⟩ := codeGenStmt_expr_ok.mp hg
    exact h.folds (codeGenExp_folds hf.layers hv)
  | .assign x sub e, k, s, t, hf, _, h, hg => by
    obtain ⟨v, w, idx, u, hv, hu, hx⟩ := codeGenStmt_assign_ok.mp hg
    obtain ⟨is, e₁⟩ := codeGenExp_emits hv
    obtain ⟨js, e₂⟩ := codeGenSubIdx_emits hu
    obtain ⟨ks, hne, e₃⟩ := setValue_emits_ne ((hf.emits e₁).emits e₂).layers hx
    exact h.emits ((e₁.trans e₂).trans e₃) (by simp [hne])

theorem codeGenBlockItem_tail : ∀ (item : BlockItemNode) {k : Tail} {s t : State}, InFunc func s →
    Prologue func entry s → k.Of func entry s → codeGenBlockItem item s = .ok () t → (item.tail k).Of func entry t
  | .decl d, k, s, t, hf, hs, h, hg => by
    rw [codeGenBlockItem_decl, codeGenDecl_defs] at hg
    rw [BlockItemNode.tail]
    exact defs_tail hf hs h hg
  | .stmt st, k, s, t, hf, hs, h, hg => by
    rw [BlockItemNode.tail]
    exact codeGenStmt_tail st hf hs h (codeGenBlockItem_stmt ▸ hg)

theorem codeGenBlockItems_tail : ∀ (items : List BlockItemNode) {k : Tail} {s t : State}, InFunc func s →
    Prologue func entry s → k.Of func entry s → codeGenBlockItems items s = .ok () t →
    (itemsTail items k).Of func entry t
  | [], k, s, t, _, _, h, hg => by
    obtain rfl := codeGenBlockItems_nil_ok.mp hg
    exact h
  | item :: items, k, s, t, hf, hs, h, hg => by
    obtain ⟨w, hw, hg⟩ := codeGenBlockItems_cons_ok.mp hg
    obtain ⟨r, d⟩ := codeGenBlockItem_run item hf (Nat.le_of_lt hs.entry_lt) hw
    rw [itemsTail]
    exact codeGenBlockItems_tail items (hf.run r d.layers) (r.prologue (Nat.le_refl _) hs)
      (codeGenBlockItem_tail item hf hs h hw) hg

end

end Tail

/-! ### The places where `back()` is read -/

/-- The calls that read `back()`. -/
def GenCall.readsBack : GenCall → Prop
  | .brUnlessBranch _ => True
  | .retUnlessReturn => True
  | _ => False

section
variable [ConstantFolder]

/-- Each time code generation reads `back()`, the insertion block has an instruction. -/
def BacksFilled (node : EntryNode) : Prop := ∀ v, Visited node v → v.call.readsBack →
  ∃ p, v.state.insertPoint = some p ∧ v.state.blocks p.block ≠ []

/-- Code generation has generated `st` and reads `back()` in the state `s`. Before `st` the insertion block was as
    `k` says: behind the condition of an `if` or a `while` it is empty, and the body of a function begins in the
    entry block, which has the code of the parameters. -/
inductive ReadsBack (node : EntryNode) : Tail → StmtNode → State → Prop
  | thenEnd {e : ExprNode} {a : StmtNode} {b : Option StmtNode} {c : Ctx} {s t u : State} {v : Value} {p : InsertPoint}
      (hv : Visited node ⟨.stmt (.ifStmt e a b), c, s⟩) (h : GenThen e a s v t p u) : ReadsBack node .empty a u
  | elseEnd {e : ExprNode} {a : StmtNode} {b : Option StmtNode} {c : Ctx} {s t u w : State} {v : Value}
      {p q : InsertPoint} (hv : Visited node ⟨.stmt (.ifStmt e a b), c, s⟩) (h : GenThen e a s v t p u)
      (hq : u.insertPoint = some q) (hb : codeGenStmt (elseBranch b) (t.elseStart u p q) = .ok () w) :
      ReadsBack node .empty (elseBranch b) w
  | whileEnd {e : ExprNode} {b : StmtNode} {c : Ctx} {s t u : State} {v : Value} {p : InsertPoint}
      (hv : Visited node ⟨.stmt (.whileStmt e b), c, s⟩) (hp : s.insertPoint = some p)
      (hc : GenCond e (s.loopStart p.func) v t) (hb : codeGenStmt b (t.bodyStart p.func v s.nextLabel) = .ok () u) :
      ReadsBack node .empty b u
  | funcEnd {i : Nat} {b : List BlockItemNode} {c : Ctx} {s t : State} (hv : Visited node ⟨.body i [] b, c, s⟩)
      (hb : codeGenStmt (.block b) s = .ok () t) : ReadsBack node (.start i) (.block b) t

/-- Every statement that `back()` is read behind fills the insertion block. -/
def SitesFilled (node : EntryNode) : Prop := ∀ k st s, ReadsBack node k st s → (st.tail k).filled = true

section Sites
variable {node : EntryNode} {func entry : Nat} {s t u w : State} {k : Tail} {st : StmtNode} {e : ExprNode}
    {a : StmtNode}
  {b : Option StmtNode} {v : Value} {p q : InsertPoint}

/-- The calls that read `back()` are the ones behind the statements of `ReadsBack`. -/
theorem readsBack_iff : (∃ k st, ReadsBack node k st s) ↔ ∃ call c, call.readsBack ∧ Visited node ⟨call, c, s⟩ := by
  constructor
  · rintro ⟨k, st, h⟩
    cases h with
    | thenEnd hv h => exact ⟨.brUnlessBranch _, _, trivial, hv.tail (.thenEnd h)⟩
    | elseEnd hv h hq hb => exact ⟨.brUnlessBranch _, _, trivial, hv.tail (.elseEnd h hq hb)⟩
    | whileEnd hv hp hc hb => exact ⟨.brUnlessBranch _, _, trivial, hv.tail (.whileEnd hp hc hb)⟩
    | funcEnd hv hb => exact ⟨.retUnlessReturn, _, trivial, hv.tail (.epilogue hb)⟩
  · rintro ⟨call, c, hr, hv⟩
    rcases hv.cases_tail with heq | ⟨w, hw, he⟩
    · cases heq
      cases hr
    · cases he with
      | thenEnd hg => exact ⟨_, _, .thenEnd hw hg⟩
      | elseEnd hg hq hb => exact ⟨_, _, .elseEnd hw hg hq hb⟩
      | whileEnd hp hc hb => exact ⟨_, _, .whileEnd hw hp hc hb⟩
      | epilogue hb => exact ⟨_, _, .funcEnd hw hb⟩
      | _ => cases hr

/-- While the parameters are defined, the insertion block is the entry block. -/
def Visit.InEntry (v : Visit) : Prop :=
  match v.call with
  | .body i _ _ => ∃ func entry, Inside func entry v.state ∧ (Tail.start i).Of func entry v.state
  | _ => True

theorem Enters.inEntry {v w : Visit} (hv : Enters v w) (hval : v.Valid) (h : v.InEntry) : w.InEntry := by
  cases hv with
  | @func f is c s hf =>
    have hs := hval.top trivial
    refine ⟨_, _, ⟨start_inFunc, start_prologue hs⟩, s.nextLabel, rfl, by simp [Tail.start], ?_⟩
    have hb : (f.start s).blocks s.nextLabel = [] := hs.fresh _ (Nat.le_refl _)
    simp [Tail.start, hb]
  | @nextParam i x p ps b c s t w a ha hd =>
    obtain ⟨func, entry, hin, hk⟩ := h
    obtain ⟨r, d⟩ := defineValue_run 0 hin.inFunc hd
    have := defineValue_tail hin.inFunc hin.prologue hk hd
    rw [if_neg (by simp)] at this
    obtain ⟨r', -⟩ := defineValue_run s.nextLabel hin.inFunc hd
    exact ⟨func, entry, hin.run r' d.layers, this⟩
  | _ => trivial

theorem Visited.inEntry {v : Visit} (h : Visited node v) : v.InEntry := by
  induction h with
  | refl => trivial
  | tail hv hw ih => exact hw.inEntry (Visited.valid hv) ih

theorem GenThen.else_start_blocks (hf : InFunc func s) (hs : Prologue func entry s) (h : GenThen e a s v t p u)
    (hq : u.insertPoint = some q) : (t.elseStart u p q).blocks (t.nextLabel + 1) = [] := by
  obtain ⟨hc, hp, ha⟩ := h
  obtain ⟨is, em⟩ := hc.emits
  have ht := hs.emits em
  obtain rfl := (hf.emits em).func_eq hp
  obtain ⟨r, k⟩ : GenRun p.func s.nextLabel s (t.thenStart p.func v) ∧ _ := thenStart_run em v
  have hthen := r.prologue (Nat.le_of_lt hs.entry_lt) hs
  have hle : t.nextLabel + 3 ≤ (t.thenStart p.func v).nextLabel := Nat.le_of_eq (thenStart_nextLabel v).symm
  obtain ⟨r', -⟩ := codeGenStmt_run a (hf.restored r k) hle ha
  obtain ⟨home, hh, g⟩ := hthen.grows r'
  obtain rfl : t.nextLabel = home := congrArg InsertPoint.block (Option.some.inj hh)
  have hl := em.nextLabel
  have he := hs.entry_lt
  have hfresh : (t.thenStart p.func v).blocks (t.nextLabel + 1) = [] := by
    obtain ⟨l, hl', -, hlt⟩ := ht.point
    show (t.newBlocks.append [_]).blocks _ = []
    rw [append_blocks_of_ne (s := t.newBlocks) hl' (Nat.ne_of_gt (Nat.lt_succ_of_lt hlt))]
    exact ht.fresh _ (Nat.le_succ _)
  obtain ⟨l, hl', hb⟩ := g.point
  obtain rfl := Option.some.inj (hq.symm.trans hl')
  have hne : t.nextLabel + 1 ≠ l := by
    rcases hb with hb | hb
    · rw [hb]
      exact Nat.succ_ne_self _
    · exact Nat.ne_of_lt (Nat.lt_of_lt_of_le (Nat.add_lt_add_left (by decide) _) hb)
  show (u.brUnlessBranch _ _).blocks _ = []
  rw [brUnlessBranch_blocks_of_ne hq hne,
    hthen.blocks_eq r' t.nextLabel rfl (by omega) (by omega) (by omega), hfresh]

omit [ConstantFolder] in
theorem bodyStart_blocks {is : List Inst} (hs : Prologue func entry s) (em : Emits (s.loopStart func) is t)
    (v : Value) :
    (t.bodyStart func v s.nextLabel).blocks (s.nextLabel + 1) = [] := by
  have hp : t.insertPoint = some ⟨func, s.nextLabel⟩ := em.insertPoint
  have hne : s.nextLabel + 1 ≠ s.nextLabel := Nat.succ_ne_self _
  show (t.append [_]).blocks _ = []
  rw [append_blocks_of_ne hp hne, em.blocks, append_blocks_of_ne (s := s.loopStart func) rfl hne]
  exact loopStart_blocks hs (Nat.le_succ _)

/-- Where `back()` is read, the insertion block is as the analysis says. -/
theorem ReadsBack.tail (h : ReadsBack node k st s) : ∃ func entry, (st.tail k).Of func entry s := by
  cases h with
  | @thenEnd e a b c s t u v p hv hg =>
    obtain ⟨func, entry, hin⟩ := hv.valid.inside (hv.valid.inner trivial)
    obtain ⟨hc, hp, ha⟩ := hg
    obtain ⟨is, em⟩ := hc.emits
    obtain rfl := (hin.inFunc.emits em).func_eq hp
    obtain ⟨r, k⟩ : GenRun p.func s.nextLabel s (t.thenStart p.func v) ∧ _ := thenStart_run em v
    have hs := r.prologue (Nat.le_of_lt hin.prologue.entry_lt) hin.prologue
    have hb : (t.thenStart p.func v).blocks t.nextLabel = [] := by
      have ht := hin.prologue.emits em
      obtain ⟨l, hl, -, hlt⟩ := ht.point
      show (t.newBlocks.append [_]).blocks _ = []
      rw [append_blocks_of_ne (s := t.newBlocks) hl (Nat.ne_of_gt hlt)]
      exact ht.fresh _ (Nat.le_refl _)
    have hlt : entry < t.nextLabel := (hin.prologue.emits em).entry_lt
    exact ⟨p.func, entry, codeGenStmt_tail _ (hin.inFunc.restored r k) hs (.entered hlt rfl hb) ha⟩
  | @elseEnd e a b c s t u w v p q hv hg hq hb =>
    obtain ⟨func, entry, hin⟩ := hv.valid.inside (hv.valid.inner trivial)
    obtain ⟨r, k⟩ := hg.else_run (q := q) hin.inFunc
    have hs := r.prologue (Nat.le_of_lt hin.prologue.entry_lt) hin.prologue
    have hlt : entry < t.nextLabel + 1 := by
      obtain ⟨is, em⟩ := hg.1.emits
      exact Nat.lt_succ_of_lt (hin.prologue.emits em).entry_lt
    have hp : (t.elseStart u p q).insertPoint = some ⟨func, t.nextLabel + 1⟩ := by
      rw [← (hg.run hin.inFunc).1]
      rfl
    have he := Tail.Of.entered hlt hp (hg.else_start_blocks hin.inFunc hin.prologue hq)
    exact ⟨func, entry, codeGenStmt_tail _ (hin.inFunc.restored r k) hs he hb⟩
  | @whileEnd e b c s t u v p hv hp hc hb =>
    obtain ⟨func, entry, hin⟩ := hv.valid.inside (hv.valid.inner trivial)
    obtain rfl := hin.inFunc.func_eq hp
    obtain ⟨is, em⟩ := hc.emits
    obtain ⟨r, k⟩ := bodyStart_run em v
    have hs := r.prologue (Nat.le_of_lt hin.prologue.entry_lt) hin.prologue
    have hn : (t.bodyStart p.func v s.nextLabel).namedValues ≠ [] := by
      rw [k.namedValues, loopStart_namedValues]
      exact hin.inFunc.layers
    have he := Tail.Of.entered (Nat.lt_succ_of_lt hin.prologue.entry_lt) rfl (bodyStart_blocks hin.prologue em v)
    exact ⟨p.func, entry, codeGenStmt_tail _ (hin.inFunc.run r hn) hs he hb⟩
  | funcEnd hv hb =>
    obtain ⟨func, entry, hin, hk⟩ := hv.inEntry
    exact ⟨func, entry, codeGenStmt_tail _ hin.inFunc hin.prologue hk hb⟩

/-- The insertion block where `back()` is read has an instruction exactly if the analysis says so. -/
theorem ReadsBack.filled_iff (h : ReadsBack node k st s) :
    (∃ p, s.insertPoint = some p ∧ s.blocks p.block ≠ []) ↔ (st.tail k).filled = true := by
  obtain ⟨func, entry, p, hp, -, hf⟩ := h.tail
  rw [hf]
  constructor
  · rintro ⟨q, hq, hb⟩
    obtain rfl := Option.some.inj (hp.symm.trans hq)
    exact hb
  · intro hb
    exact ⟨_, hp, hb⟩

theorem backsFilled_iff_sites : BacksFilled node ↔ SitesFilled node := by
  constructor
  · intro h k st s hr
    obtain ⟨call, c, hc, hv⟩ := readsBack_iff.mp ⟨k, st, hr⟩
    exact hr.filled_iff.mp (h _ hv hc)
  · rintro h ⟨call, c, s⟩ hv hc
    obtain ⟨k, st, hr⟩ := readsBack_iff.mpr ⟨call, c, hc, hv⟩
    exact hr.filled_iff.mpr (h k st s hr)

/-- In the rest of a call no branch, body or function leaves its last block empty. -/
def GenCall.leavesFilled : GenCall → Prop
  | .items _ is => ∀ f ∈ is.filterMap TopItem.func?, f.leavesFilled = true
  | .body i ps b => (itemsTail b (.start (i + ps.length))).filled = true ∧ itemsLeaveFilled b = true
  | .blockItems _ is => itemsLeaveFilled is = true
  | .stmt st => st.leavesFilled = true
  | _ => True

omit [ConstantFolder] in
theorem StmtNode.leavesFilled_if : (StmtNode.ifStmt e a b).leavesFilled = true ↔ (a.tail .empty).filled = true ∧
    a.leavesFilled = true ∧ ((elseBranch b).tail .empty).filled = true ∧ (elseBranch b).leavesFilled = true := by
  cases b with
  | none => simp [StmtNode.leavesFilled, elseBranch, StmtNode.tail, Tail.empty]
  | some b => simp [StmtNode.leavesFilled, elseBranch, and_assoc]

theorem Enters.leavesFilled {v w : Visit} (hv : Enters v w) (h : v.call.leavesFilled) : w.call.leavesFilled := by
  cases hv with
  | nextGlobalDef => exact h
  | decl => intro f hf; exact h f (by simpa [TopItem.func?] using hf)
  | @func f is c s hf =>
    have := h f (by simp [TopItem.func?])
    have hl : f.named.length = f.param.length := by rw [← named_snd f, List.length_map]
    simpa [FuncNode.leavesFilled, GenCall.leavesFilled, hl] using this
  | nextItem => intro f hf; exact h f (by simpa [TopItem.func?] using Or.inr hf)
  | @nextParam i x p ps b =>
    obtain ⟨h₁, h₂⟩ := h
    rw [List.length_cons, ← Nat.add_assoc, Nat.add_right_comm] at h₁
    exact ⟨h₁, h₂⟩
  | block =>
    have : itemsLeaveFilled _ = true := h.2
    simpa [GenCall.leavesFilled, StmtNode.leavesFilled] using this
  | nextLocalDef => exact h
  | blockDecl => simpa [GenCall.leavesFilled, itemsLeaveFilled, BlockItemNode.leavesFilled] using h
  | blockStmt =>
    have := h
    simp only [GenCall.leavesFilled, itemsLeaveFilled, BlockItemNode.leavesFilled, Bool.and_eq_true] at this
    exact this.1
  | nextStmt =>
    have := h
    simp only [GenCall.leavesFilled, itemsLeaveFilled, BlockItemNode.leavesFilled, Bool.and_eq_true] at this
    exact this.2
  | items => simpa [GenCall.leavesFilled, StmtNode.leavesFilled] using h
  | thenStmt => exact (StmtNode.leavesFilled_if.mp h).2.1
  | elseStmt => exact (StmtNode.leavesFilled_if.mp h).2.2.2
  | whileBody =>
    have := h
    simp only [GenCall.leavesFilled, StmtNode.leavesFilled, Bool.and_eq_true] at this
    exact this.2
  | _ => trivial

theorem Visited.leavesFilled (hn : ∀ f ∈ node.funcs, f.leavesFilled = true) {v : Visit} (h : Visited node v) :
    v.call.leavesFilled := by
  induction h with
  | refl => exact hn
  | tail _ hw ih => exact hw.leavesFilled ih

theorem ReadsBack.filled (hn : ∀ f ∈ node.funcs, f.leavesFilled = true) (h : ReadsBack node k st s) :
    (st.tail k).filled = true := by
  cases h with
  | thenEnd hv hg => exact (StmtNode.leavesFilled_if.mp (Visited.leavesFilled hn hv)).1
  | elseEnd hv hg hq hb => exact (StmtNode.leavesFilled_if.mp (Visited.leavesFilled hn hv)).2.2.1
  | whileEnd hv hp hc hb =>
    have := Visited.leavesFilled hn hv
    simp only [GenCall.leavesFilled, StmtNode.leavesFilled, Bool.and_eq_true] at this
    exact this.1
  | funcEnd hv hb =>
    rw [StmtNode.tail]
    exact (Visited.leavesFilled hn hv).1

mutual

theorem codeGenStmt_leavesFilled (hall : SitesFilled node) :
    ∀ (st : StmtNode) {c : Ctx} {s t : State}, Visited node ⟨.stmt st, c, s⟩ →
    codeGenStmt st s = .ok () t → st.leavesFilled = true
  | .block items, c, s, t, hv, h => by
    obtain ⟨w, hw, -⟩ := codeGenStmt_block_ok.mp h
    rw [StmtNode.leavesFilled]
    exact codeGenBlockItems_leavesFilled hall items (hv.tail .items) hw
  | .ifStmt e a b, c, s, t, hv, h => by
    obtain ⟨v, s₁, k, s₂, p, s₃, q, s₄, r, hv₁, hc, hp, h₃, hq, h₄, -, -⟩ := codeGenStmt_if_ok.mp h
    have hg : GenThen e a s k s₂ p s₃ := ⟨⟨v, s₁, hv₁, hc⟩, hp, h₃⟩
    have ha := codeGenStmt_leavesFilled hall a (hv.tail (.thenStmt hg.1 hp)) h₃
    have hthen := hall _ _ _ (.thenEnd hv hg)
    have helse := hall _ _ _ (.elseEnd hv hg hq h₄)
    refine StmtNode.leavesFilled_if.mpr ⟨hthen, ha, helse, ?_⟩
    exact codeGenStmt_elseBranch_leavesFilled hall b (hv.tail (.elseStmt hg hq)) h₄
  | .whileStmt e body, c, s, t, hv, h => by
    obtain ⟨p, v, s₁, k, s₂, s₃, q, hp, hv₁, hc, h₃, -, -⟩ := codeGenStmt_while_ok.mp h
    have hg : GenCond e (s.loopStart p.func) k s₂ := ⟨v, s₁, hv₁, hc⟩
    have hb := codeGenStmt_leavesFilled hall body (hv.tail (.whileBody hp hg)) h₃
    have hf := hall _ _ _ (.whileEnd hv hp hg h₃)
    simp [StmtNode.leavesFilled, hb, hf]
  | .continueStmt, _, _, _, _, _ => by rw [StmtNode.leavesFilled]
  | .breakStmt, _, _, _, _, _ => by rw [StmtNode.leavesFilled]
  | .ret _, _, _, _, _, _ => by rw [StmtNode.leavesFilled]
  | .expr _, _, _, _, _, _ => by rw [StmtNode.leavesFilled]
  | .assign _ _ _, _, _, _, _, _ => by rw [StmtNode.leavesFilled]

theorem codeGenStmt_elseBranch_leavesFilled (hall : SitesFilled node) :
    ∀ (st : Option StmtNode) {c : Ctx} {s t : State},
    Visited node ⟨.stmt (elseBranch st), c, s⟩ → codeGenStmt (elseBranch st) s = .ok () t →
    (elseBranch st).leavesFilled = true
  | none, _, _, _, _, _ => by simp [elseBranch, StmtNode.leavesFilled]
  | some st, c, s, t, hv, h => codeGenStmt_leavesFilled hall st hv h

theorem codeGenBlockItems_leavesFilled (hall : SitesFilled node) :
    ∀ (items : List BlockItemNode) {c : Ctx} {s t : State},
    Visited node ⟨.blockItems [] items, c, s⟩ → codeGenBlockItems items s = .ok () t → itemsLeaveFilled items = true
  | [], _, _, _, _, _ => by rw [itemsLeaveFilled]
  | .decl d :: items, c, s, t, hv, h => by
    obtain ⟨w, hw, h⟩ := codeGenBlockItems_cons_ok.mp h
    rw [codeGenBlockItem_decl, codeGenDecl_defs] at hw
    obtain ⟨c', hv'⟩ := Visited.blockItems_defs (hv.tail .blockDecl) hw
    rw [itemsLeaveFilled, BlockItemNode.leavesFilled, Bool.true_and]
    exact codeGenBlockItems_leavesFilled hall items hv' h
  | .stmt st :: items, c, s, t, hv, h => by
    obtain ⟨w, hw, h⟩ := codeGenBlockItems_cons_ok.mp h
    rw [codeGenBlockItem_stmt] at hw
    have hst := codeGenStmt_leavesFilled hall st (hv.tail .blockStmt) hw
    have hitems := codeGenBlockItems_leavesFilled hall items (hv.tail (.nextStmt hw)) h
    rw [itemsLeaveFilled, BlockItemNode.leavesFilled, hst, hitems, Bool.true_and]

end

theorem accepts_leavesFilled (hall : SitesFilled node) (h : Accepts node s) :
    ∀ f ∈ node.funcs, f.leavesFilled = true := by
  intro f hf
  obtain ⟨is, c, w, u, hv, hg⟩ := accepts_visits h f hf
  obtain ⟨hnone, s₁, s₂, p, hparams, hbody, -, -⟩ := codeGenFunc_ok hg
  rw [codeGenBlock_stmt] at hbody
  have hnamed : defineParams 0 (f.named.map fun p => (p.1, p.2.type)) (f.start w) = .ok () s₁ := by
    rw [named_args]
    exact hparams
  obtain ⟨c', hv'⟩ := Visited.params (hv.tail (.func hnone)) hnamed
  have hl : 0 + f.named.length = f.param.length := by rw [Nat.zero_add, ← named_snd f, List.length_map]
  rw [hl] at hv'
  have hfilled := hall _ _ _ (.funcEnd hv' hbody)
  have hleaves := codeGenStmt_leavesFilled hall _ (hv'.tail .block) hbody
  rw [StmtNode.tail] at hfilled
  rw [StmtNode.leavesFilled] at hleaves
  rw [FuncNode.leavesFilled, hfilled, hleaves, Bool.true_and]

end Sites

/-- Each time `back()` is read there is an instruction, exactly if no statement that is generated up to such a place
    leaves its last block empty. For an accepted program the condition is about its source alone. -/
theorem backsFilled_iff (node : EntryNode) :
    (BacksFilled node ↔ ∀ k st s, ReadsBack node k st s → (st.tail k).filled = true) ∧
    ∀ s, Accepts node s → (BacksFilled node ↔ ∀ f ∈ node.funcs, f.leavesFilled = true) := by
  refine ⟨backsFilled_iff_sites, ?_⟩
  intro s hs
  rw [backsFilled_iff_sites]
  constructor
  · intro h
    exact accepts_leavesFilled h hs
  · intro h k st s hr
    exact hr.filled h

end

section
attribute [local instance] ConstantFolder.symbolic

/-- The program is accepted, and `back()` is read in the empty block of the missing `else`. -/
theorem returnInBranch_back : (∃ s, returnInBranch.final? = some s) ∧ ¬ BacksFilled returnInBranch := by
  obtain ⟨s, hs⟩ := Option.isSome_iff_exists.mp (by decide +kernel : returnInBranch.final?.isSome = true)
  refine ⟨⟨s, hs⟩, ?_⟩
  rw [backsFilled_iff_sites]
  intro h
  have hf := accepts_leavesFilled h (final?_eq_some.mp hs)
  revert hf
  decide

end

end L24
