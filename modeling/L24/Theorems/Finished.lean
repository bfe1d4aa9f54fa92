import L24.Theorems.Program

/-! Finished functions: what is generated behind a function leaves its blocks as they are, and a declaration between the
    functions, where the builder still stands in the last block of a function, inserts nothing. -/

namespace L24
open Ir

section Finished
variable {s t u fin : State} {node : EntryNode} {item : TopItem} {items before later : List TopItem}

variable [ConstantFolder]

theorem items_extends : ∀ {items : List TopItem} {s t : State}, Idle s → items.forM codeGenTopItem s = .ok ⟨⟩ t →
    Extends s t ∧ Idle t
  | [], s, t, hs, h => by
    obtain rfl := forM_nil_ok.mp h
    exact ⟨.refl _, hs⟩
  | item :: items, s, t, hs, h => by
    obtain ⟨w, hw, h⟩ := forM_cons_ok.mp h
    obtain ⟨e₁, hi⟩ := codeGenTopItem_extends hs hw
    obtain ⟨e₂, ht⟩ := items_extends hi h
    exact ⟨e₁.trans e₂, ht⟩

/-- The generation of a list of items goes through a state between any two of them. -/
theorem items_append_ok : ∀ {before later : List TopItem} {s u : State},
    (before ++ later).forM codeGenTopItem s = .ok ⟨⟩ u →
      ∃ t, before.forM codeGenTopItem s = .ok ⟨⟩ t ∧ later.forM codeGenTopItem t = .ok ⟨⟩ u
  | [], _, s, u, h => ⟨s, forM_nil_ok.mpr rfl, h⟩
  | item :: before, later, s, u, h => by
    obtain ⟨w, hw, h⟩ := forM_cons_ok.mp h
    obtain ⟨t, hb, hl⟩ := items_append_ok h
    exact ⟨t, forM_cons_ok.mpr ⟨w, hw, hb⟩, hl⟩

omit [ConstantFolder] in
/-- The functions of the module stay, with their blocks and instructions. -/
theorem Extends.functions_kept (h : Extends s t) (hs : Idle s) : s.toModule.functions <+: t.toModule.functions := by
  obtain ⟨fs, hf⟩ := h.functions
  unfold State.toModule
  rw [hf, List.map_append]
  refine ⟨fs.map fun f => ⟨f.name, f.retTy, f.params, f.layout.map fun l => (l, t.blocks l)⟩, congrArg (· ++ _) ?_⟩
  refine List.map_congr_left fun f hm => ?_
  have hb : f.layout.map (fun l => (l, s.blocks l)) = f.layout.map fun l => (l, t.blocks l) :=
    List.map_congr_left fun l hl => by rw [h.blocks l (hs.layout f hm l hl)]
  rw [hb]

/-- An item of an accepted program, and the states before and behind its generation. -/
structure GenItem (fin : State) (before : List TopItem) (item : TopItem) (later : List TopItem) (s t : State) :
    Prop where
  before : before.forM codeGenTopItem State.library = .ok ⟨⟩ s
  run : codeGenTopItem item s = .ok () t
  later : later.forM codeGenTopItem t = .ok ⟨⟩ fin

theorem accepts_genItem (h : Accepts node fin) (hi : node.prog.items = before ++ item :: later) :
    ∃ s t, GenItem fin before item later s t := by
  have hrun := accepts_items.mp h
  rw [hi] at hrun
  obtain ⟨s, hb, hrun⟩ := items_append_ok hrun
  obtain ⟨t, ht, hl⟩ := forM_cons_ok.mp hrun
  exact ⟨s, t, hb, ht, hl⟩

theorem GenItem.idle (h : GenItem fin before item later s t) : Idle s := (items_extends library_idle h.before).2

/-- A function that has been generated is the last one of the module; its entry block was made first. -/
theorem codeGenFunc_appends {f : FuncNode} (hs : Idle s) (h : codeGenFunc f s = .ok () t) :
    ∃ ls : List Nat, (∀ l ∈ ls, s.nextLabel < l) ∧ t.toModule.functions = s.toModule.functions ++
      [⟨(f.object s).name, (f.object s).retTy, (f.object s).params,
      (s.nextLabel :: ls).map fun l => (l, t.blocks l)⟩] := by
  obtain ⟨s₁, s₂, p, hr⟩ := codeGenFunc_run h
  obtain ⟨ls, hl, hf⟩ := hr.functions hs
  have hblocks : ∀ g ∈ s.functions, g.layout.map (fun l => (l, t.blocks l)) = g.layout.map fun l => (l, s.blocks l) :=
    fun g hg => List.map_congr_left fun l hl => by rw [(codeGenFunc_extends hs h).blocks l (hs.layout g hg l hl)]
  refine ⟨ls, fun l hm => (hl l hm).1, ?_⟩
  unfold State.toModule
  rw [hf, List.map_append, List.map_congr_left fun g hg => by rw [hblocks g hg]]
  rfl

/-- In an accepted program each function ends up in the module as its own generation left it, with its blocks and their
    instructions, and a declaration between the functions inserts nothing into any block. -/
theorem functions_finished (h : Accepts node fin) (hi : node.prog.items = before ++ item :: later) :
    ∃ s t, GenItem fin before item later s t ∧ t.toModule.functions <+: fin.toModule.functions ∧
      (∀ f, item = .func f → ∃ F, t.toModule.functions = s.toModule.functions ++ [F]) ∧
      (∀ d, item = .decl d → t.blocks = s.blocks ∧ t.functions = s.functions ∧ t.insertPoint = s.insertPoint) := by
  obtain ⟨s, t, hg⟩ := accepts_genItem h hi
  have hs := hg.idle
  have ht := (codeGenTopItem_extends hs hg.run).2
  refine ⟨s, t, hg, (items_extends ht hg.later).1.functions_kept ht, fun f hf => ?_, fun d hd => ?_⟩
  · subst hf
    obtain ⟨ls, -, hF⟩ := codeGenFunc_appends hs hg.run
    exact ⟨_, hF⟩
  · subst hd
    obtain ⟨gs, tr, rfl, -⟩ := codeGenDecl_global hs.namedValues hg.run
    exact ⟨rfl, rfl, rfl⟩

end Finished

section
attribute [local instance] ConstantFolder.symbolic

/-- `void f() { } int x = 1 + 2;` -/
def funcThenDecl : EntryNode :=
  ⟨.progDecl (.func ⟨.void, "f", [], []⟩) (.varDecl ⟨.int, [⟨"x", some (.exp (.mk (.land (.eq (.rel (.add (.add .plus
    (.mul (.unary (.primary (.number ⟨1⟩)))) (.unary (.primary (.number ⟨2⟩)))))))))), none⟩]⟩)⟩

theorem funcThenDecl_finished : ∃ fin d s t, Accepts funcThenDecl fin ∧
    GenItem fin [.func ⟨.void, "f", [], []⟩] (.decl d) [] s t ∧ t.blocks = s.blocks := by
  have hsome : funcThenDecl.final?.isSome = true := by decide +kernel
  obtain ⟨fin, hfin⟩ := Option.isSome_iff_exists.mp hsome
  have ha := final?_eq_some.mp hfin
  obtain ⟨s, t, hg, -, -, hd⟩ := @functions_finished fin funcThenDecl _ [_] [] _ ha rfl
  exact ⟨fin, _, s, t, ha, hg, (hd _ rfl).1⟩

end

end L24
