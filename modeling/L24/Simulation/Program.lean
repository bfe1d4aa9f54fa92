import L24.Visits
import L24.Simulation.Func

/-! Programs: every function of an accepted program is in the module under its name, and a run of its code
    simulates the calls of it, to any depth. -/

namespace L24
open Ir Relation Steps

variable {W : Type} {lib : Library W} {fin : State} {node : EntryNode} {mem : Mem} {w : World W}

/-! ### The functions of a program -/

/-- Two parameters of a function have different names, and a function and a global variable too. -/
structure EntryNode.NamesDistinct (node : EntryNode) : Prop where
  params : ∀ g ∈ node.funcs, (g.param.map (·.ident)).Nodup
  globals : ∀ g ∈ node.funcs, g.ident ∉ node.globals

section
variable [ConstantFolder]

/-- What the state has behind the generation of `items`: their functions, and no others but the library ones. -/
structure Generated (items : List TopItem) (s : State) : Prop where
  emitted : ∀ g ∈ items.filterMap TopItem.func?, ∃ r s₁ s₂ q ls t, Emitted g r s₁ s₂ q ls t s
  functions : ∀ f ∈ s.functions, f ∈ State.library.functions ∨ ∃ g ∈ items.filterMap TopItem.func?, f.name = g.ident
  globals : ∀ k ∈ s.globals, k.name ∈ items.flatMap TopItem.globals

section Generated
variable {items : List TopItem} {item : TopItem} {s t : State}

theorem generated_library : Generated [] State.library :=
  ⟨fun _ hg => (by cases hg), fun _ hf => Or.inl hf, fun _ hk => (by cases hk)⟩

theorem Generated.extend (h : Generated items s) (hx : Extends s t) {g : FuncNode}
    (hg : g ∈ items.filterMap TopItem.func?) : ∃ r s₁ s₂ q ls u, Emitted g r s₁ s₂ q ls u t := by
  obtain ⟨r, s₁, s₂, q, ls, u, he⟩ := h.emitted g hg
  exact ⟨r, s₁, s₂, q, ls, u, he.idle, he.free, he.run, he.functions, he.kept.trans hx⟩

theorem Generated.decl {d : DeclNode} (h : Generated items s) (hs : Idle s) (hd : codeGenDecl d s = .ok () t) :
    Generated (items ++ [.decl d]) t := by
  have hx := (codeGenDecl_extends hs hd).1
  obtain ⟨gs, tr, rfl, hnames⟩ := codeGenDecl_global hs.namedValues hd
  have hfuncs : (items ++ [TopItem.decl d]).filterMap TopItem.func? = items.filterMap TopItem.func? := by
    simp [TopItem.func?]
  refine ⟨fun g hg => h.extend hx (hfuncs ▸ hg), fun f hf => by rw [hfuncs]; exact h.functions f hf, fun k hk => ?_⟩
  rw [List.flatMap_append]
  rcases List.mem_append.mp hk with hk | hk
  · exact List.mem_append_left _ (h.globals k hk)
  · refine List.mem_append_right _ ?_
    rw [List.flatMap_singleton, TopItem.globals, ← hnames]
    exact List.mem_map_of_mem hk

theorem Generated.func {g : FuncNode} (h : Generated items s) (hs : Idle s) (hg : codeGenFunc g s = .ok () t)
    (hn : g.ident ∉ items.flatMap TopItem.globals) : Generated (items ++ [.func g]) t := by
  have hx := codeGenFunc_extends hs hg
  obtain ⟨s₁, s₂, q, hr⟩ := codeGenFunc_run hg
  obtain ⟨ls, -, hf⟩ := hr.functions hs
  have hfree : g.ident ∉ s.symbols := not_mem_symbols.mpr ⟨(codeGenFunc_ok hg).1, global?_eq_none.mpr fun k hk he =>
    hn (he ▸ h.globals k hk)⟩
  have hfuncs : (items ++ [TopItem.func g]).filterMap TopItem.func? = items.filterMap TopItem.func? ++ [g] := by
    simp [TopItem.func?]
  refine ⟨fun k hk => ?_, fun f hm => ?_, fun k hk => ?_⟩
  · rw [hfuncs] at hk
    rcases List.mem_append.mp hk with hk | hk
    · exact h.extend hx hk
    · obtain rfl := List.mem_singleton.mp hk
      exact ⟨s, s₁, s₂, q, ls, t, hs, hfree, hr, hf, .refl t⟩
  · rw [hfuncs]
    rw [hf] at hm
    rcases List.mem_append.mp hm with hm | hm
    · rcases h.functions f hm with hm | ⟨k, hk, hkf⟩
      · exact Or.inl hm
      · exact Or.inr ⟨k, List.mem_append_left _ hk, hkf⟩
    · obtain rfl := List.mem_singleton.mp hm
      exact Or.inr ⟨g, List.mem_append_right _ List.mem_cons_self, congrArg Prod.fst (uniqueName_of_not_mem hfree)⟩
  · rw [(hr.grows hs).globals] at hk
    have := h.globals k hk
    simpa [TopItem.globals] using this

theorem accepts_generated (h : Accepts node fin) (hn : node.NamesDistinct) : Generated node.prog.items fin := by
  let P (items : List TopItem) (s : State) : Prop :=
    (∀ g ∈ items.filterMap TopItem.func?, g.ident ∉ items.flatMap TopItem.globals) → Generated items s
  have hstep : ∀ {items : List TopItem} {item : TopItem} {s t : State}, P items s → Idle s →
      codeGenTopItem item s = .ok () t → P (items ++ [item]) t := by
    intro items item s t hp hs hi hd
    have hd' : ∀ g ∈ (items ++ [item]).filterMap TopItem.func?, g.ident ∉ items.flatMap TopItem.globals := by
      intro g hg hm
      exact hd g hg (by rw [List.flatMap_append]; exact List.mem_append_left _ hm)
    have hgen := hp fun g hg => hd' g (by rw [List.filterMap_append]; exact List.mem_append_left _ hg)
    cases item with
    | decl d => exact hgen.decl hs hi
    | func g => exact hgen.func hs hi (hd' g (by simp [TopItem.func?]))
  have hlib : P [] State.library := fun _ => generated_library
  exact accepts_induct (P := P) h hlib hstep hn.globals

end Generated

/-! ### Calls -/

section Calls
variable {fr : Frame} {stack : List Frame} {e : W} {r : Reg} {f name : String} {ty : Ty} {vs : List Value}
  {xs : List Val} {code : List Inst}

omit [ConstantFolder] in
theorem machine_call (hc : fr.code = .call r f ty vs name :: code) (hv : vs.mapM fr.eval = some xs) :
    machine lib fin (.run fr stack mem e) =
      Config.call fin.toModule (libraryExt lib) { fr with code } stack mem e r f xs := by
  have heval : ({ fr with code } : Frame).eval = fr.eval := funext (eval_code fr code)
  rw [machine_run hc, exec, heval, hv]
  rfl

omit [ConstantFolder] in
theorem int?_map (is : List (BitVec 64)) : (is.map Val.int).mapM Val.int? = some is := by
  induction is with
  | nil => rfl
  | cons i is ih =>
    rw [List.map_cons, List.mapM_cons, ih]
    rfl

omit [ConstantFolder] in
theorem library_lookup : ∀ l ∈ standardLibrary, standardLibrary.lookup l.1 = some l.2 := by decide

omit [ConstantFolder] in
/-- A library function with a result is declared to return an integer. -/
theorem libraryResult_ty {fo : FunctionObj} {v : BitVec 64} (hf : fo ∈ State.library.functions)
    (hv : libraryResult fo.name v ≠ none) : fo.retTy = .i64 := by
  obtain ⟨l, hl, rfl⟩ := List.mem_map.mp hf
  unfold libraryResult at hv
  rw [library_lookup l hl] at hv
  show l.2.1 = .i64
  split at hv
  · rename_i hm
    exact congrArg Prod.fst (Option.some.inj hm)
  · exact absurd rfl hv

omit [ConstantFolder] in
/-- The code of a library call, and the call. -/
theorem callLibrary_sim {fo : FunctionObj} {is : List (BitVec 64)} {n : Nat} (hf : fin.function? f = some fo)
    (hlib : fo ∈ State.library.functions) (hc : fr.code = .call r f ty vs name :: code)
    (hv : vs.mapM fr.eval = some (is.map .int)) (hw : WorldMatch fin w mem) :
    Sim (machine lib fin) n (.run fr stack mem w.ext) (callLibrary lib f is w) fun q d => ∃ mem',
      d = .run (match q.1 with
        | some i => ({ fr with code } : Frame).setReg r (.int i)
        | none => { fr with code }) stack mem' q.2.ext ∧
      MemKept mem.next mem mem' ∧ WorldMatch fin q.2 mem' ∧ (q.1 ≠ none → fo.retTy = .i64) := by
  obtain rfl := function?_name hf
  refine sim_defined ?_
  intro r' hb
  obtain ⟨v, e⟩ := r'
  have hblocks : (fin.toFunction fo).blocks = [] := by
    obtain ⟨l, -, rfl⟩ := List.mem_map.mp hlib
    rfl
  have hstep : machine lib fin (.run fr stack mem w.ext) = some (.run (match libraryResult fo.name v with
      | some i => ({ fr with code } : Frame).setReg r (.int i)
      | none => { fr with code }) stack mem e) := by
    rw [machine_call hc hv, Config.call, toModule_function?, hf]
    simp only [Option.map_some, hblocks, libraryExt, int?_map, Option.bind_some, hb]
    cases libraryResult fo.name v <;> rfl
  exact .head hstep (.pure ⟨mem, rfl, .refl mem, hw, libraryResult_ty hlib⟩)

/-- A call instruction simulates a call, whatever its depth. -/
theorem callAt_sim (hg : Generated node.prog.items fin) (hn : ∀ g ∈ node.funcs, (g.param.map (·.ident)).Nodup)
    (n : Nat) : CallsSim lib fin n (callAt lib node n) := by
  induction n with
  | zero =>
    intro f fo vs is r ty name code fr stack mem w hf hc hv hw
    exact ⟨_, rfl⟩
  | succ n ih =>
    intro f fo vs is r ty name code fr stack mem w hf hc hv hw
    rw [callAt]
    cases hfind : node.funcs.find? (·.ident == f) with
    | some g =>
      have hmem : g ∈ node.funcs := List.mem_of_find?_eq_some hfind
      obtain rfl : g.ident = f := by simpa using List.find?_some hfind
      obtain ⟨s, s₁, s₂, q, ls, t, he⟩ := hg.emitted g hmem
      obtain rfl : he.target.obj = fo := Option.some.inj (he.function?.symm.trans hf)
      have hstep : machine lib fin (.run fr stack mem w.ext) = some (.run (Frame.enter (fin.toFunction he.target.obj)
          (is.map .int) (fin.blocks s.nextLabel) r) ({ fr with code } :: stack) mem w.ext) := by
        rw [machine_call hc hv, Config.call, toModule_function?, hf]
        rfl
      refine .succ hstep ((callFunc_sim he (hn g hmem) ih is hw).imp ?_)
      intro r d hpost
      obtain ⟨o, w'⟩ := r
      obtain ⟨fr', mem', hd, hdest, hk, hw', hty⟩ := hpost
      refine ⟨mem', ?_, hk, hw', fun ho => ?_⟩
      · subst hd hdest
        cases o <;> rfl
      · show g.type.retTy = .i64
        rw [hty ho]
        rfl
    | none =>
      have hmem : fo ∈ fin.functions := List.mem_of_find?_eq_some hf
      rcases hg.functions fo hmem with hlib | ⟨g, hm, he⟩
      · exact callLibrary_sim hf hlib hc hv hw
      · have := List.find?_eq_none.mp hfind g hm
        rw [← he, function?_name hf, beq_self_eq_true] at this
        exact absurd rfl this

end Calls

/-- The global scalars when the program starts, as their initialisers say. -/
def World.initial (s : State) (ext : W) : World W where
  globals x := match s.global? x with
    | some ⟨_, .i64, some (.int v)⟩ => some v
    | _ => none
  ext := ext

end

section
attribute [local instance] ConstantFolder.symbolic

end

end L24
