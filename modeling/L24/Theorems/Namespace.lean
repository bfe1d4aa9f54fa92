import L24.Theorems.Objects

/-! The module's symbol table: which names functions and global variables get, for every order of the items.
    A definition looks for its name among the objects of its own kind only. -/

namespace L24
open Ir Relation

/-- The generator stops with `LogError`, and has added no function and no global variable. -/
def Rejects {α : Type} (m : CG α) (s : State) : Prop := ∃ msg u, m s = .error (.logError msg) u ∧ u.objects = s.objects

section
variable [ConstantFolder]

/-- A function gets its identifier as its name; if the name is taken, the definition is rejected. -/
structure FuncNode.Intact (f : FuncNode) (s : State) : Prop where
  taken : f.ident ∈ s.symbols → Rejects (codeGenFunc f) s
  named : ∀ {t : State}, codeGenFunc f s = .ok () t → ∃ o, t.functions = s.functions ++ [o] ∧ o.name = f.ident

/-- A global variable gets its identifier as its name, and an initialiser; if the name is taken, the definition is
    rejected. -/
structure Def.Intact (d : Def) (s : State) : Prop where
  taken : d.ident ∈ s.symbols → Rejects d.gen s
  named : ∀ {t : State}, d.gen s = .ok () t → ∃ g c, t.globals = s.globals ++ [g] ∧ g.name = d.ident ∧ g.init = some c

/-- What rejects the definition of a global: its size, the size zero, or an initial value, or a variable of its name. A
    size that is no integer is not rejected but dereferenced as null, as is the missing block of a load. -/
def Def.Rejected (d : Def) (s : State) : Prop :=
  match d.forms s with
  | .error stop => stop.isLogged = true
  | .ok _ => s.declared d.ident = true

section Items
variable {s t u : State} {f : FuncNode} {d : Def}

/-! ### Functions -/

theorem codeGenFunc_redefined (h : (s.function? f.ident).isSome = true) :
    codeGenFunc f s = .error (.logError "function can't be redefined") s := by
  unfold codeGenFunc
  rw [bind_of_ok (get_ok.mpr ⟨rfl, rfl⟩), if_pos h]
  rfl

/-- A definition that gets past the search for its name adds a function. -/
theorem codeGenFunc_adds {e : Stop} (h : s.function? f.ident = none) (he : codeGenFunc f s = .error e u) :
    u.functionNames = s.functionNames ++ [(s.uniqueName f.ident).1] := by
  rw [codeGenFunc_start h] at he
  have hu := body_leaves.error he
  rw [hu, State.functionNames, start_functions, List.map_append]
  rfl

theorem FuncNode.intact_iff (hs : Idle s) : f.Intact s ↔ (s.function? f.ident = none → s.global? f.ident = none) := by
  constructor
  · intro h hf
    by_contra hg
    have hm : f.ident ∈ s.symbols := by
      by_contra hm
      exact hg (not_mem_symbols.mp hm).2
    obtain ⟨msg, u, he, hu⟩ := h.taken hm
    have hfs : u.functionNames = s.functionNames := congrArg Prod.fst hu
    have hlen := congrArg List.length ((codeGenFunc_adds hf he).symm.trans hfs)
    rw [List.length_append, List.length_singleton] at hlen
    omega
  · intro h
    refine ⟨fun hm => ?_, fun {t} ht => ?_⟩
    · have hf : s.function? f.ident ≠ none := fun hf => not_mem_symbols.mpr ⟨hf, h hf⟩ hm
      exact ⟨_, s, codeGenFunc_redefined (Option.isSome_iff_ne_none.mpr hf), rfl⟩
    · obtain ⟨hf, -⟩ := codeGenFunc_ok ht
      obtain ⟨s₁, s₂, p, hr⟩ := codeGenFunc_run ht
      obtain ⟨ls, -, hfs⟩ := hr.functions hs
      exact ⟨_, hfs, congrArg Prod.fst (uniqueName_of_not_mem (not_mem_symbols.mpr ⟨hf, h hf⟩))⟩

/-! ### Global variables -/

/-- A definition is logged as an error exactly if it is rejected. -/
theorem Def.logs_iff : Logs d.gen s ↔ d.Rejected s := by
  have h := Def.forms_made d s
  unfold Def.Rejected
  cases hf : d.forms s with
  | error stop =>
    rw [hf] at h
    exact h.logs_iff
  | ok p =>
    rw [hf] at h
    obtain ⟨sz, vs, w, hi⟩ := h
    exact hi.logs_iff

omit [ConstantFolder] in
theorem defineGlobalValue_error {x : String} {vals : List Value} {size : Option Value} {msg : String}
    (h : defineGlobalValue x vals size s = .error (.logError msg) u) : u = s := by
  have hg := defineGlobalValue_logError.mp ⟨msg, u, h⟩
  unfold defineGlobalValue at h
  rw [bind_of_ok (get_ok.mpr ⟨rfl, rfl⟩), if_pos hg] at h
  cases h
  rfl

/-- Outside all functions a definition that is logged as an error has added nothing. -/
theorem Def.rejects_iff (hn : s.namedValues = []) : Rejects d.gen s ↔ Logs d.gen s := by
  constructor
  · rintro ⟨msg, u, h, -⟩
    exact ⟨msg, u, h⟩
  · rintro ⟨msg, u, h⟩
    refine ⟨msg, u, h, ?_⟩
    have hdef : ∀ {vs : List Value} {size : Option Value} {w : State}, GenInit d.init d.exp s size vs w →
        defineValue d.ident d.ty vs size false w = .error (.logError msg) u → u.objects = s.objects := by
      intro vs size w hi hw
      have hwn := hi.sameScope.namedValues.trans hn
      unfold defineValue at hw
      rw [bind_of_ok (get_ok.mpr ⟨rfl, rfl⟩), hwn] at hw
      rcases bind_error.mp hw with hw | ⟨a, x, -, hw⟩
      · rw [defineGlobalValue_error hw, State.objects, hi.sameScope.functions, hi.sameScope.globals]
        rfl
      · cases hw
    cases hd : d.exp with
    | none =>
      rw [Def.gen_none hd] at h
      rcases bind_error.mp h with h | ⟨vs, w, hvs, h⟩
      · exact (getInitVals_leaves d.init none).error h
      · refine hdef ?_ h
        rw [hd]
        exact ⟨rfl, hvs⟩
    | some e =>
      rw [Def.gen_some hd] at h
      rcases bind_error.mp h with h | ⟨sz, x, hsz, h⟩
      · exact (codeGenExp_leaves e).error h
      · rcases bind_error.mp h with h | ⟨vs, w, hvs, h⟩
        · exact ((getInitVals_leaves d.init (some sz)).error h).trans ((codeGenExp_leaves e).ok hsz)
        · refine hdef ?_ h
          rw [hd]
          exact ⟨sz, x, rfl, hsz, hvs⟩

omit [ConstantFolder] in
theorem GlobalShape.init {g : GlobalVariable} {size : Option Value} {vs : List Value} (h : GlobalShape g size vs) :
    ∃ c, g.init = some c := by
  rcases h with ⟨-, -, n, -, h⟩ | ⟨sz, n, ns, -, -, -, -, h⟩ <;> exact ⟨_, h⟩

theorem Def.intact_iff (hn : s.namedValues = []) : d.Intact s ↔ (d.ident ∈ s.symbols → d.Rejected s) := by
  rw [← Def.logs_iff, ← Def.rejects_iff hn]
  refine ⟨fun h => h.taken, fun h => ⟨h, fun {t} ht => ?_⟩⟩
  obtain ⟨g, tr, size, vs, w, rfl, hg, hsh, -⟩ := Def.gen_global hn ht
  obtain ⟨c, hc⟩ := hsh.init
  exact ⟨g, c, rfl, hg, hc⟩

end Items

/-! ### Programs -/

/-- The objects of the module are the library's functions and the ones of `items`, each under its identifier. -/
structure State.Named (s : State) (items : List TopItem) : Prop where
  functions : s.functionNames = standardLibrary.map (·.1) ++ (items.filterMap TopItem.func?).map (·.ident)
  globals : s.globals.map (·.name) = items.flatMap TopItem.globals
  distinct : s.symbols.Nodup
  inits : ∀ g ∈ s.globals, ∃ c, g.init = some c

/-- Each definition that is reached, of a function or of a global variable, gets its identifier as its name or is
    rejected, and an accepted program has its items' names. -/
structure NamespaceIntact (node : EntryNode) : Prop where
  functions : ∀ {f : FuncNode} {is : List TopItem} {c : Ctx} {s : State},
    Visited node ⟨.items [] (.func f :: is), c, s⟩ → f.Intact s
  globals : ∀ {d : Def} {c : Ctx} {s : State}, Visited node ⟨.define d, c, s⟩ → c.locals = [] → d.Intact s
  accepted : ∀ {s : State}, Accepts node s → s.Named node.prog.items

section Program
variable {node : EntryNode} {s t : State} {c : Ctx} {items : List TopItem}

omit [ConstantFolder] in
theorem library_named : State.library.Named [] where
  functions := by decide +kernel
  globals := rfl
  distinct := by decide +kernel
  inits g hg := by cases hg

/-- A definition outside all functions adds its variable. -/
theorem Def.gen_named {d : Def} (hn : s.namedValues = []) (h : d.gen s = .ok () t) (hs : s.symbols.Nodup)
    (hi : ∀ g ∈ s.globals, ∃ c, g.init = some c) :
    t.functions = s.functions ∧ t.globals.map (·.name) = s.globals.map (·.name) ++ [d.ident] ∧ t.symbols.Nodup ∧
      (∀ g ∈ t.globals, ∃ c, g.init = some c) ∧ t.namedValues = [] := by
  obtain ⟨g, tr, size, vs, w, rfl, hg, hsh, hgl, hf, -⟩ := Def.gen_global hn h
  refine ⟨rfl, ?_, ?_, ?_, hn⟩
  · rw [List.map_append, List.map_singleton, hg]
  · have hx := not_mem_symbols.mpr ⟨hf, hgl⟩
    have hsym : s.symbols ++ [d.ident] = State.symbols { s with globals := s.globals ++ [g], trace := tr } := by
      simp [State.symbols, hg]
    rw [← hsym, List.nodup_append]
    exact ⟨hs, List.nodup_singleton _, fun a ha b hb he => hx (by rwa [← List.mem_singleton.mp hb, ← he])⟩
  · intro k hk
    rcases List.mem_append.mp hk with hk | hk
    · exact hi k hk
    · rw [List.mem_singleton.mp hk]
      exact hsh.init

theorem defs_named : ∀ {ds : List Def} {s t : State}, s.namedValues = [] → ds.forM Def.gen s = .ok ⟨⟩ t →
    s.symbols.Nodup → (∀ g ∈ s.globals, ∃ c, g.init = some c) → t.functions = s.functions ∧
      t.globals.map (·.name) = s.globals.map (·.name) ++ ds.map (·.ident) ∧ t.symbols.Nodup ∧
      ∀ g ∈ t.globals, ∃ c, g.init = some c
  | [], s, t, _, h, hs, hi => by
    obtain rfl := forM_nil_ok.mp h
    exact ⟨rfl, by simp, hs, hi⟩
  | d :: ds, s, t, hn, h, hs, hi => by
    obtain ⟨w, hd, h⟩ := forM_cons_ok.mp h
    obtain ⟨hf, hg, hs, hi, hn⟩ := Def.gen_named hn hd hs hi
    obtain ⟨hf', hg', hs', hi'⟩ := defs_named hn h hs hi
    exact ⟨hf'.trans hf, by rw [hg', hg]; simp, hs', hi'⟩

/-- The items whose functions keep their names keep the whole symbol table. -/
theorem Visited.named (hint : ∀ {f : FuncNode} {is : List TopItem} {c : Ctx} {s : State},
      Visited node ⟨.items [] (.func f :: is), c, s⟩ → f.Intact s) :
    ∀ {is done : List TopItem} {c : Ctx} {s t : State}, Visited node ⟨.items [] is, c, s⟩ →
      is.forM codeGenTopItem s = .ok ⟨⟩ t → s.Named done → t.Named (done ++ is)
  | [], done, c, s, t, _, h, hs => by
    obtain rfl := forM_nil_ok.mp h
    simpa using hs
  | .decl d :: is, done, c, s, t, hv, h, hs => by
    obtain ⟨w, hd, h⟩ := forM_cons_ok.mp h
    rw [codeGenTopItem, codeGenDecl_defs] at hd
    obtain ⟨c', hv'⟩ := Visited.items_defs (hv.tail .decl) hd
    have hidle : Idle s := (Visited.valid hv).top trivial
    obtain ⟨hf, hg, hnd, hi⟩ := defs_named hidle.namedValues hd hs.distinct hs.inits
    have hw : w.Named (done ++ [.decl d]) := by
      refine ⟨?_, ?_, hnd, hi⟩
      · rw [State.functionNames, hf]
        exact hs.functions.trans (by simp [TopItem.func?])
      · rw [hg, hs.globals]
        simp [TopItem.globals]
    simpa using Visited.named hint hv' h hw
  | .func f :: is, done, c, s, t, hv, h, hs => by
    obtain ⟨w, hf, h⟩ := forM_cons_ok.mp h
    have hidle : Idle s := (Visited.valid hv).top trivial
    have hgl := (FuncNode.intact_iff hidle).mp (hint hv)
    obtain ⟨o, ho, hname⟩ := (hint hv).named hf
    obtain ⟨hfree, -⟩ := codeGenFunc_ok hf
    obtain ⟨s₁, s₂, p, hr⟩ := codeGenFunc_run hf
    have hg : w.globals = s.globals := (hr.grows hidle).globals
    have hfs : w.functionNames = s.functionNames ++ [f.ident] := by
      rw [State.functionNames, ho, List.map_append, List.map_singleton, hname]
      rfl
    have hw : w.Named (done ++ [.func f]) := by
      refine ⟨?_, ?_, ?_, by rw [hg]; exact hs.inits⟩
      · rw [hfs, hs.functions]
        simp [TopItem.func?]
      · rw [hg, hs.globals]
        simp [TopItem.globals]
      · have hx := not_mem_symbols.mpr ⟨hfree, hgl hfree⟩
        have hsym : w.symbols = s.functionNames ++ ([f.ident] ++ s.globals.map (·.name)) := by
          rw [← List.append_assoc, ← hfs, ← hg]
          rfl
        rw [hsym]
        exact List.nodup_middle.mpr (List.nodup_cons.mpr ⟨hx, hs.distinct⟩)
    simpa using Visited.named hint (hv.tail (.nextItem hf)) h hw

end Program

/-- The names of the module are intact exactly if no function that is reached has the name of an earlier global
    variable, and each global variable that is reached under a name already taken is rejected for its size, its initial
    values or a variable of its name. -/
theorem namespaceIntact_iff (node : EntryNode) : NamespaceIntact node ↔
    (∀ f is c s, Visited node ⟨.items [] (.func f :: is), c, s⟩ → s.function? f.ident = none →
      s.global? f.ident = none) ∧
    ∀ d c s, Visited node ⟨.define d, c, s⟩ → c.locals = [] → d.ident ∈ s.symbols → d.Rejected s := by
  constructor
  · intro h
    refine ⟨fun f is c s hv => ?_, fun d c s hv hc => ?_⟩
    · exact (FuncNode.intact_iff ((Visited.valid hv).top trivial)).mp (h.functions hv)
    · exact (Def.intact_iff (hv.outside hc)).mp (h.globals hv hc)
  · rintro ⟨hf, hd⟩
    have hint : ∀ {f : FuncNode} {is : List TopItem} {c : Ctx} {s : State},
        Visited node ⟨.items [] (.func f :: is), c, s⟩ → f.Intact s :=
      fun hv => (FuncNode.intact_iff ((Visited.valid hv).top trivial)).mpr (hf _ _ _ _ hv)
    refine ⟨hint, fun hv hc => ?_, fun {s} h => ?_⟩
    · exact (Def.intact_iff (hv.outside hc)).mpr (hd _ _ _ hv hc)
    · exact Visited.named hint .refl (accepts_items.mp h) library_named

end

section
attribute [local instance] ConstantFolder.symbolic

/-- `int f; int f() { return 0; }` -/
def globalThenFunction : EntryNode :=
  ⟨.progFunc (.decl (.varDecl ⟨.int, [⟨"f", none, none⟩]⟩))
    ⟨.int, "f", [], [.stmt (.ret (some (NumberNode.toExpr ⟨0⟩)))]⟩⟩

/-- The function is not rejected: it gets another name. -/
theorem globalThenFunction_renamed :
    globalThenFunction.final?.map State.functionNames = some (standardLibrary.map (·.1) ++ ["f.1"]) ∧
      ¬ NamespaceIntact globalThenFunction := by
  have hfinal : globalThenFunction.final?.map State.functionNames = some (standardLibrary.map (·.1) ++ ["f.1"]) := by
    decide +kernel
  refine ⟨hfinal, fun h => ?_⟩
  obtain ⟨s, hs, hnames⟩ := Option.map_eq_some_iff.mp hfinal
  have hf := (h.accepted (final?_eq_some.mp hs)).functions
  rw [hnames] at hf
  exact absurd hf (by decide +kernel)

end

end L24
