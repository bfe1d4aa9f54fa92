import L24.Ir.Control
import L24.Theorems.Produced
import L24.Theorems.Finished
import L24.Simulation.Code

/-! The order of calls: a function is declared before it is called, so the activations of a run stand in the order of
    their functions in the source, and no two functions call each other in turn. -/

namespace L24
open Ir Relation CallStack

/-! ### Who calls whom -/

/-- The functions have different names, and each calls functions of the module, whose numbers are `r`-related to its
    own. -/
structure Linked (r : Nat → Nat → Prop) (s : State) : Prop where
  names : (s.functions.map (·.name)).Nodup
  calls : ∀ n f, s.functions[n]? = some f → ∀ l ∈ f.layout, ∀ i ∈ s.blocks l, ∀ x, i.callee? = some x →
    ∃ m g, s.functions[m]? = some g ∧ g.name = x ∧ r m n

section Linked
variable {r : Nat → Nat → Prop} {s t fin : State} {node : EntryNode} {f : FuncNode} {known : List String}

theorem linked_library : Linked r State.library where
  names := by decide +kernel
  calls n f hf l hl := by
    obtain ⟨g, -, rfl⟩ := List.mem_map.mp (List.mem_of_getElem? hf)
    cases hl

variable [ConstantFolder]

theorem Linked.decl {d : DeclNode} (h : Linked r s) (hs : Idle s) (hd : codeGenDecl d s = .ok () t) : Linked r t := by
  obtain ⟨gs, tr, rfl, -⟩ := codeGenDecl_global hs.namedValues hd
  exact ⟨h.names, h.calls⟩

omit [ConstantFolder] in
theorem Produced.callee {callee : String → Prop} {slot : Slot → Ty → Prop} {i : Inst} (h : Produced callee slot i)
    {x : String} (hx : i.callee? = some x) : callee x := by
  cases h with
  | call hf =>
    cases hx
    exact hf
  | operation hi =>
    cases i with
    | call => cases hi
    | _ => cases hx
  | terminator hi =>
    cases i with
    | call => cases hi
    | _ => cases hx
  | _ => cases hx

/-- A new function calls those that its body names, and these are there. -/
theorem Linked.func (h : Linked r s) (hs : Idle s) (hg : codeGenFunc f s = .ok () t)
    (hr : ∀ m g, t.functions[m]? = some g → g.name ∈ f.calls → r m s.functions.length) : Linked r t := by
  obtain ⟨s₁, s₂, p, hrun⟩ := codeGenFunc_run hg
  obtain ⟨ls, hl, hf⟩ := hrun.functions hs
  have hx := codeGenFunc_extends hs hg
  have hp := codeGenFunc_produced hs hg
  have hfresh : (f.object s).name ∉ s.symbols := uniqueName_not_mem _ _ _ _
  refine ⟨?_, fun n o ho l hm i hi x hc => ?_⟩
  · rw [hf, List.map_append, List.map_singleton]
    refine List.nodup_append.mpr ⟨h.names, List.nodup_singleton _, fun a ha b hb he => hfresh ?_⟩
    rw [List.mem_singleton.mp hb] at he
    exact he ▸ List.mem_append_left _ ha
  · rcases Nat.lt_or_ge n s.functions.length with hn | hn
    · -- an old function
      rw [hf, List.getElem?_append_left hn] at ho
      rw [hx.blocks l (hs.layout o (List.mem_of_getElem? ho) l hm)] at hi
      obtain ⟨m, g, hg, hname, hr⟩ := h.calls n o ho l hm i hi x hc
      obtain ⟨hlt, -⟩ := List.getElem?_eq_some_iff.mp hg
      exact ⟨m, g, by rw [hf, List.getElem?_append_left hlt, hg], hname, hr⟩
    · -- the new one
      rw [hf, List.getElem?_append_right hn, List.getElem?_singleton] at ho
      split at ho
      · rename_i hz
        obtain rfl : n = s.functions.length := by omega
        cases ho
        have hle : s.nextLabel ≤ l := by
          rcases List.mem_cons.mp hm with rfl | hm
          · exact Nat.le_refl _
          · exact Nat.le_of_lt (hl l hm).1
        obtain ⟨hcalls, hmem⟩ := (hp l hle i hi).callee hc
        obtain ⟨g, hg, rfl⟩ := List.mem_map.mp hmem
        obtain ⟨m, hm⟩ := List.mem_iff_getElem?.mp hg
        exact ⟨m, g, hm, rfl, hr m g hm hcalls⟩
      · cases ho

/-- No function calls one behind it. -/
theorem accepts_linked (h : Accepts node fin) : Linked (· ≤ ·) fin := by
  refine accepts_invariant h linked_library fun {item s t} hl hs h => ?_
  cases item with
  | decl d => exact hl.decl hs h
  | func f =>
    refine hl.func hs h fun m g hm _ => ?_
    obtain ⟨s₁, s₂, p, hrun⟩ := codeGenFunc_run h
    obtain ⟨ls, -, hf⟩ := hrun.functions hs
    have hlt := (List.getElem?_eq_some_iff.mp hm).1
    rw [hf, List.length_append, List.length_singleton] at hlt
    exact Nat.le_of_lt_succ hlt

omit [ConstantFolder] in
theorem Extends.symbols (h : Extends s t) {x : String} (hx : x ∈ s.symbols) : x ∈ t.symbols := by
  obtain ⟨fs, hf⟩ := h.functions
  obtain ⟨gs, hg⟩ := h.globals
  rw [State.symbols, hf, hg, List.map_append, List.map_append]
  rcases List.mem_append.mp hx with hx | hx
  · exact List.mem_append_left _ (List.mem_append_left _ hx)
  · exact List.mem_append_right _ (List.mem_append_left _ hx)

/-- The identifier of a generated function is taken, be it by another object. -/
theorem codeGenFunc_symbols (hs : Idle s) (h : codeGenFunc f s = .ok () t) : f.ident ∈ t.symbols := by
  by_cases hx : f.ident ∈ s.symbols
  · exact (codeGenFunc_extends hs h).symbols hx
  · obtain ⟨s₁, s₂, p, hrun⟩ := codeGenFunc_run h
    obtain ⟨ls, -, hf⟩ := hrun.functions hs
    have hname : (f.object s).name = f.ident := congrArg Prod.fst (uniqueName_of_not_mem hx)
    rw [State.symbols, hf, List.map_append]
    refine List.mem_append_left _ (List.mem_append_right _ ?_)
    rw [List.map_singleton, List.mem_singleton]
    exact hname.symm

/-- Where each function of the source calls earlier ones only, so do the generated ones. -/
theorem items_linked : ∀ {items : List TopItem} {known : List String} {s t : State}, Idle s → Linked (· < ·) s →
    (∀ x ∈ known, x ∈ s.symbols) → callsEarlier known items = true → items.forM codeGenTopItem s = .ok ⟨⟩ t →
    Linked (· < ·) t
  | [], known, s, t, _, hl, _, _, h => by
    obtain rfl := forM_nil_ok.mp h
    exact hl
  | .decl d :: items, known, s, t, hs, hl, hk, hc, h => by
    obtain ⟨w, hw, h⟩ := forM_cons_ok.mp h
    have hw' : codeGenDecl d s = .ok () w := hw
    rw [callsEarlier] at hc
    obtain ⟨e, hi⟩ := codeGenDecl_extends hs hw'
    exact items_linked hi (hl.decl hs hw') (fun x hx => e.symbols (hk x hx)) hc h
  | .func f :: items, known, s, t, hs, hl, hk, hc, h => by
    obtain ⟨w, hw, h⟩ := forM_cons_ok.mp h
    rw [callsEarlier, Bool.and_eq_true] at hc
    have hw' : codeGenFunc f s = .ok () w := hw
    obtain ⟨s₁, s₂, p, hrun⟩ := codeGenFunc_run hw'
    obtain ⟨ls, -, hf⟩ := hrun.functions hs
    have hfree := (codeGenFunc_ok hw').1
    refine items_linked (codeGenFunc_idle hs hw') (hl.func hs hw' fun m g hm hcall => ?_) (fun x hx => ?_) hc.2 h
    · -- a known name is not the fresh one of the new function
      have hx : g.name ∈ known := by simpa using List.all_eq_true.mp hc.1 _ hcall
      rcases Nat.lt_or_ge m s.functions.length with hlt | hge
      · exact hlt
      · rw [hf, List.getElem?_append_right hge, List.getElem?_singleton] at hm
        split at hm
        · cases hm
          exact absurd (hk _ hx) (uniqueName_not_mem _ _ _ _)
        · cases hm
    · rcases List.mem_cons.mp hx with rfl | hx
      · exact codeGenFunc_symbols hs hw'
      · exact (codeGenFunc_extends hs hw').symbols (hk x hx)

theorem accepts_callsEarlier (h : Accepts node fin) (hc : node.callsEarlier = true) : Linked (· < ·) fin :=
  items_linked library_idle linked_library (fun x hx => List.mem_append_left _ (by simpa [State.library] using hx)) hc
    (accepts_items.mp h)

/-! ### The module -/

omit [ConstantFolder] in
theorem toModule_mem {F : Function} (hF : F ∈ s.toModule.functions) :
    ∃ (n : Nat) (o : FunctionObj), s.functions[n]? = some o ∧ F = s.toFunction o := by
  obtain ⟨o, ho, hF⟩ := List.mem_map.mp hF
  obtain ⟨n, hn⟩ := List.mem_iff_getElem?.mp ho
  exact ⟨n, o, hn, hF.symm⟩

omit [ConstantFolder] in
theorem toModule_position (hn : (s.functions.map (·.name)).Nodup) {n : Nat} {o : FunctionObj}
    (ho : s.functions[n]? = some o) : s.toModule.position (s.toFunction o) = n := by
  obtain ⟨hlt, rfl⟩ := List.getElem?_eq_some_iff.mp ho
  have hlt' : n < (s.functions.map (·.name)).length := by rwa [List.length_map]
  have hfind : s.toModule.position (s.toFunction s.functions[n]) =
      (s.functions.map (·.name)).idxOf s.functions[n].name := by
    rw [Module.position, State.toModule, List.findIdx_map, List.idxOf, List.findIdx_map]
    rfl
  rw [hfind]
  have hidx := hn.idxOf_getElem n hlt'
  rwa [List.getElem_map] at hidx

omit [ConstantFolder] in
/-- The function of a number is the one of its name. -/
theorem toModule_found (hn : (s.functions.map (·.name)).Nodup) {n : Nat} {o : FunctionObj}
    (ho : s.functions[n]? = some o) : s.toModule.function? o.name = some (s.toFunction o) := by
  rw [toModule_function?, State.function?]
  have hmem := List.mem_of_getElem? ho
  cases hf : s.functions.find? (·.name == o.name) with
  | none => simpa using List.find?_eq_none.mp hf o hmem
  | some g =>
    have hname : g.name = o.name := by simpa using List.find?_some hf
    rw [List.inj_on_of_nodup_map hn (List.mem_of_find?_eq_some hf) hmem hname]
    rfl

omit [ConstantFolder] in
theorem Linked.callsTo (h : Linked r s) : s.toModule.CallsTo r := by
  intro F hF b hb i hi x hx
  obtain ⟨n, o, hn, rfl⟩ := toModule_mem hF
  obtain ⟨l, hl, rfl⟩ := List.mem_map.mp hb
  obtain ⟨m, g, hg, rfl, hr⟩ := h.calls n o hn l hl i hi x hx
  refine ⟨_, toModule_found h.names hg, ?_⟩
  rw [toModule_position h.names hg, toModule_position h.names hn]
  exact hr

omit [ConstantFolder] in
/-- Functions of the module at the same place are the same. -/
theorem toModule_position_inj (hn : (s.functions.map (·.name)).Nodup) {F G : Function} (hF : F ∈ s.toModule.functions)
    (hG : G ∈ s.toModule.functions) (h : s.toModule.position F = s.toModule.position G) : F = G := by
  obtain ⟨n, o, ho, rfl⟩ := toModule_mem hF
  obtain ⟨m, p, hp, rfl⟩ := toModule_mem hG
  rw [toModule_position hn ho, toModule_position hn hp] at h
  subst h
  rw [Option.some.inj (ho.symm.trans hp)]

/-- The library functions come first, and then those of the program. -/
theorem accepts_functions (h : Accepts node fin) :
    ∃ os, fin.functions = State.library.functions ++ os ∧ os.length = node.funcs.length := by
  let P : List TopItem → State → Prop := fun items s =>
    ∃ os, s.functions = State.library.functions ++ os ∧ os.length = (items.filterMap TopItem.func?).length
  refine accepts_induct (P := P) h ⟨[], by simp, rfl⟩ fun {items item s t} hp hs h => ?_
  obtain ⟨os, hos, hlen⟩ := hp
  cases item with
  | decl d =>
    obtain ⟨gs, tr, rfl, -⟩ := codeGenDecl_global hs.namedValues h
    exact ⟨os, hos, by simp [hlen, TopItem.func?]⟩
  | func f =>
    obtain ⟨s₁, s₂, p, hrun⟩ := codeGenFunc_run h
    obtain ⟨ls, -, hf⟩ := hrun.functions hs
    refine ⟨os ++ [{ f.object s with layout := s.nextLabel :: ls }], by rw [hf, hos, List.append_assoc], ?_⟩
    simp [hlen, TopItem.func?]

/-- A function with code is one of the program. -/
theorem position_of_blocks (h : Accepts node fin) {F : Function} (hF : F ∈ fin.toModule.functions)
    (hb : F.blocks ≠ []) :
    standardLibrary.length ≤ fin.toModule.position F ∧
      fin.toModule.position F < standardLibrary.length + node.funcs.length := by
  obtain ⟨os, hos, hlen⟩ := accepts_functions h
  obtain ⟨n, o, hn, rfl⟩ := toModule_mem hF
  have hlib : State.library.functions.length = standardLibrary.length := List.length_map _
  obtain ⟨hlt, -⟩ := List.getElem?_eq_some_iff.mp hn
  rw [toModule_position (accepts_linked h).names hn]
  rw [hos, List.length_append, hlen, hlib] at hlt
  refine ⟨Nat.le_of_not_lt fun hlt' => hb ?_, hlt⟩
  rw [hos, List.getElem?_append_left (hlib ▸ hlt')] at hn
  obtain ⟨g, -, rfl⟩ := List.mem_map.mp (List.mem_of_getElem? hn)
  rfl

end Linked

/-! ### The activations of a run -/

section Runs
variable {W : Type} {ext : Ext W} {node : EntryNode} {fin : State} {name : String} {args : List Val} {mem : Mem} {w : W}
  {c d : Config W}

variable [ConstantFolder]

/-- In every state of a run of an accepted program, the activations are in the order of their functions in the module,
    a called function never behind its caller. So between two activations of one function there are only activations
    of that function. -/
theorem activations_ordered (h : Accepts node fin) (hc : Config.start fin.toModule name args mem w = some c)
    (hd : Steps.Reaches (step fin.toModule ext) c d) :
    (d.frames.map fun fr => fin.toModule.position fr.func).Pairwise (· ≤ ·) ∧
      ∀ a b e, [a, b, e].Sublist d.frames → a.func = e.func → b.func = a.func := by
  have hl := accepts_linked h
  have ho := hl.callsTo.ordered hc hd
  have hsorted : d.frames.Pairwise fun a b => fin.toModule.position a.func ≤ fin.toModule.position b.func :=
    (List.pairwise_map.mp ho.sorted).imp id
  refine ⟨List.pairwise_map.mpr hsorted, fun a b e hsub hae => ?_⟩
  have hin : ∀ fr ∈ d.frames, fr.func ∈ fin.toModule.functions := fun fr hfr =>
    (ho.ok fr.point (List.mem_map_of_mem hfr)).func
  obtain ⟨hab, hbe⟩ := List.pairwise_cons.mp (hsorted.sublist hsub)
  have hle := hab b (by simp)
  have hge := (List.pairwise_cons.mp hbe).1 e (by simp)
  rw [← hae] at hge
  exact toModule_position_inj hl.names (hin b (hsub.mem (by simp))) (hin a (hsub.mem (by simp)))
    (Nat.le_antisymm hge hle)

/-- If no function of the program calls itself, a run has never more activations than the program has functions. -/
theorem depth_bounded (h : Accepts node fin) (he : node.callsEarlier = true)
    (hc : Config.start fin.toModule name args mem w = some c) (hd : Steps.Reaches (step fin.toModule ext) c d) :
    d.frames.length ≤ node.funcs.length := by
  have ho := (accepts_callsEarlier h he).callsTo.ordered hc hd
  have hle := ho.length_le fun p hp => position_of_blocks h (ho.ok p hp).func fun hb => by
    obtain ⟨b, hm, -⟩ := (ho.ok p hp).code
    rw [hb] at hm
    cases hm
  rwa [Config.points, List.length_map] at hle

end Runs

section
attribute [local instance] ConstantFolder.symbolic

/-- `int clip(int n) { if (n < 0) then n = 0; end return n; }` and `int main() { return clip(1); }`. -/
def clipMain : EntryNode :=
  let n : UnaryExprNode := .primary (.lVal (.mk "n" none))
  let zero : UnaryExprNode := .primary (.number ⟨0⟩)
  let negative : ExprNode := .mk (.land (.eq (.rel (.rel .less (.add (.mul (.unary n))) (.mul (.unary zero))))))
  let clip : FuncNode := ⟨.int, "clip", [⟨.int, "n"⟩], [
    .stmt (.ifStmt negative (.assign "n" none zero.toExpr) none),
    .stmt (.ret (some n.toExpr))]⟩
  ⟨.progFunc (.func clip)
    ⟨.int, "main", [], [.stmt (.ret (some (UnaryExprNode.toExpr (.call "clip" [NumberNode.toExpr ⟨1⟩]))))]⟩⟩

/-- The call of `clip` in `main`. -/
theorem clipMain_calls : ∃ fin c d, Accepts clipMain fin ∧
    Config.start fin.toModule "main" [] (Mem.initial fin.globals) () = some c ∧
    Steps.Reaches (step fin.toModule fun _ _ _ _ => none) c d ∧ d.frames.map (·.func.name) = ["clip", "main"] := by
  have hrun : clipMain.final?.any
    (fun fin => (Config.start fin.toModule "main" [] (Mem.initial fin.globals) ()).any fun c =>
      (Steps.runs (step fin.toModule fun _ _ _ _ => none) 1 c).any fun d =>
        d.frames.map (·.func.name) == ["clip", "main"]) = true := by decide +kernel
  obtain ⟨fin, hfin, hrun⟩ := (Option.any_eq_true ..).mp hrun
  obtain ⟨c, hc, hrun⟩ := (Option.any_eq_true ..).mp hrun
  obtain ⟨d, hd, hrun⟩ := (Option.any_eq_true ..).mp hrun
  exact ⟨fin, c, d, final?_eq_some.mp hfin, hc, ⟨1, hd⟩, eq_of_beq hrun⟩

theorem clipMain_ordered : ∃ fin c d, Accepts clipMain fin ∧
    Config.start fin.toModule "main" [] (Mem.initial fin.globals) () = some c ∧
    Steps.Reaches (step fin.toModule fun _ _ _ _ => none) c d ∧ d.frames.map (·.func.name) = ["clip", "main"] ∧
    (d.frames.map fun fr => fin.toModule.position fr.func).Pairwise (· ≤ ·) := by
  obtain ⟨fin, c, d, ha, hc, hd, hnames⟩ := clipMain_calls
  exact ⟨fin, c, d, ha, hc, hd, hnames, (activations_ordered ha hc hd).1⟩

theorem clipMain_depth : ∃ fin c d, Accepts clipMain fin ∧
    Config.start fin.toModule "main" [] (Mem.initial fin.globals) () = some c ∧
    Steps.Reaches (step fin.toModule fun _ _ _ _ => none) c d ∧ d.frames.map (·.func.name) = ["clip", "main"] ∧
    d.frames.length ≤ clipMain.funcs.length := by
  obtain ⟨fin, c, d, ha, hc, hd, hnames⟩ := clipMain_calls
  exact ⟨fin, c, d, ha, hc, hd, hnames, depth_bounded ha (by decide +kernel) hc hd⟩

end

end L24
