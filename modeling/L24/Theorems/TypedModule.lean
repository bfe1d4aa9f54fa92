import L24.Theorems.Ended
import L24.Theorems.TypedCode
import L24.Theorems.Variables

/-! Well-typed modules: what is generated for an accepted program whose kinds fit is a well-typed module. -/

namespace L24
open Ir Relation

/-! ### Functions -/

section Functions
variable {T : Tables} {func entry base : Nat} {s t : State} {node : FuncNode}

variable [ConstantFolder]

end Functions

/-! ### Programs -/

section Programs
variable {prog : EntryNode} {fin s t : State} {node : FuncNode} {ls : List Nat} {F : Function}

variable [ConstantFolder]

theorem items_kinds : ∀ {items : List TopItem} {s t : State}, Idle s → items.forM codeGenTopItem s = .ok ⟨⟩ t →
    t.kinds = items.foldl (fun k item => item.declared k) s.kinds
  | [], s, t, _, h => by
    obtain rfl := forM_nil_ok.mp h
    rfl
  | item :: items, s, t, hs, h => by
    obtain ⟨w, hw, h⟩ := forM_cons_ok.mp h
    rw [items_kinds (codeGenTopItem_extends hs hw).2 h, codeGenTopItem_kinds hs hw, List.foldl_cons]

theorem topItemsTyped_mid : ∀ {before later : List TopItem} {k : Kinds},
    topItemsTyped (before ++ .func node :: later) k = true →
    node.typed (before.foldl (fun k item => item.declared k) k) = true
  | [], later, k, h => by
    rw [List.nil_append, topItemsTyped, Bool.and_eq_true] at h
    exact h.1
  | item :: before, later, k, h => by
    rw [List.cons_append, topItemsTyped, Bool.and_eq_true] at h
    rw [List.foldl_cons]
    exact topItemsTyped_mid h.2

omit [ConstantFolder] in
theorem library_kinds : State.library.kinds = libraryKinds := by
  simp [State.kinds, libraryKinds, State.library, FunctionObj.signature, Function.comp_def]

theorem EmittedBy.typed (h : EmittedBy prog fin node s t ls F) (hty : prog.typed = true) :
    node.typed s.kinds = true := by
  obtain ⟨before, later, hi, hg⟩ := h.item
  rw [items_kinds library_idle hg.before, library_kinds]
  rw [EntryNode.typed, hi] at hty
  exact topItemsTyped_mid hty

theorem EmittedBy.extends (h : EmittedBy prog fin node s t ls F) : Extends t fin := by
  obtain ⟨before, later, -, hg⟩ := h.item
  exact (items_extends (codeGenTopItem_extends hg.idle hg.run).2 hg.later).1

theorem defs_shapes : ∀ {ds : List Def} {s t : State}, s.namedValues = [] → ds.forM Def.gen s = .ok ⟨⟩ t →
    (∀ g ∈ s.globals, g.valueTy = .i64 ∨ ∃ n elt, g.valueTy = .array n elt) →
    ∀ g ∈ t.globals, g.valueTy = .i64 ∨ ∃ n elt, g.valueTy = .array n elt
  | [], s, t, _, h, hs => by
    obtain rfl := forM_nil_ok.mp h
    exact hs
  | d :: ds, s, t, hn, h, hs => by
    obtain ⟨w, hd, h⟩ := forM_cons_ok.mp h
    obtain ⟨g, tr, size, vs, u, rfl, -, hshape, -⟩ := Def.gen_global hn hd
    refine defs_shapes (s := { s with globals := s.globals ++ [g], trace := tr }) hn h ?_
    refine List.forall_mem_append.mpr ⟨hs, List.forall_mem_singleton.mpr ?_⟩
    exact hshape.imp (fun h => h.2.1) fun h => by
      obtain ⟨sz, n, ns, -, -, -, hty, -⟩ := h
      exact ⟨_, _, hty⟩

/-- Functions give integers or nothing, and global variables are integers or arrays. -/
theorem accepts_shapes (h : Accepts prog fin) : (∀ f ∈ fin.functions, f.retTy = .i64 ∨ f.retTy = .void) ∧
    ∀ g ∈ fin.globals, g.valueTy = .i64 ∨ ∃ n elt, g.valueTy = .array n elt := by
  refine accepts_invariant (P := fun s => (∀ f ∈ s.functions, f.retTy = .i64 ∨ f.retTy = .void) ∧
    ∀ g ∈ s.globals, g.valueTy = .i64 ∨ ∃ n elt, g.valueTy = .array n elt) h ⟨?_, fun g hg => by cases hg⟩ ?_
  · decide +kernel
  · intro item s t hp hs hg
    obtain ⟨hfs, hgs⟩ := hp
    cases item with
    | decl d =>
      obtain ⟨gs, tr, rfl, -⟩ := codeGenDecl_global hs.namedValues hg
      rw [codeGenTopItem, codeGenDecl_defs] at hg
      exact ⟨hfs, defs_shapes hs.namedValues hg hgs⟩
    | func node =>
      obtain ⟨o, hnew, -, -, hret, -⟩ := codeGenFunc_allFrom (P := fun _ => True) hs hg
      obtain ⟨s₁, s₂, p, hr⟩ := codeGenFunc_run hg
      refine ⟨?_, ?_⟩
      · rw [hnew]
        refine List.forall_mem_append.mpr ⟨hfs, List.forall_mem_singleton.mpr ?_⟩
        rw [hret, FuncNode.object, FuncType.retTy]
        split
        · exact .inl rfl
        · exact .inr rfl
      · rw [hr.run.globals]
        exact hgs

/-- The tables of a function know the functions and the global variables that there were before it. -/
theorem EmittedBy.externals (h : EmittedBy prog fin node s t ls F) (hacc : Accepts prog fin)
    (spill : Nat → Slot → Prop) :
    Externals { F.tables fin.toModule with spill := spill } t := by
  obtain ⟨hrets, hglobals⟩ := accepts_shapes hacc
  obtain ⟨⟨fs, hfs⟩, ⟨gs, hgs⟩, -, -⟩ := h.extends
  refine ⟨fun f hf => ?_, fun g hg => hglobals g (hgs ▸ List.mem_append_left _ hg)⟩
  have hm : f ∈ fin.functions := hfs ▸ List.mem_append_left _ hf
  obtain ⟨n, hn⟩ := List.mem_iff_getElem?.mp hm
  exact ⟨⟨_, toModule_found (accepts_linked hacc).names hn, rfl, rfl⟩, hrets f hm,
    ((accepts_knows hacc).functions f hm).2⟩

end Programs

end L24
