import L24.Theorems.Program

/-! The parameters of a function: the names of its arguments, the parameter layer, and the stores of the
    arguments into the allocas of the parameters. -/

namespace L24
open Ir Relation

/-! ### The names of the arguments -/

theorem argNames_foldl : ∀ {rest taken : List String} {lastUnique : Nat}, taken.Nodup →
    (rest.foldl setName (taken, lastUnique)).1.Nodup ∧
      (rest.foldl setName (taken, lastUnique)).1.length = taken.length + rest.length
  | [], taken, _, h => ⟨h, rfl⟩
  | x :: rest, taken, k, h => by
    have hn : (taken ++ [(uniqueName "" taken k x).1]).Nodup := by
      rw [List.nodup_append]
      refine ⟨h, List.nodup_singleton _, fun a ha b hb he => ?_⟩
      rw [List.mem_singleton.mp hb] at he
      exact uniqueName_not_mem "" taken k x (he ▸ ha)
    obtain ⟨h₁, h₂⟩ := argNames_foldl hn
    refine ⟨h₁, h₂.trans ?_⟩
    rw [List.length_append, List.length_cons]
    exact Nat.add_right_comm _ _ _

theorem argNames_length (idents : List String) : (argNames idents).length = idents.length := by
  have h := (@argNames_foldl idents [] 0 List.nodup_nil).2
  simpa [argNames] using h

theorem argNames_of_nodup {idents : List String} (h : idents.Nodup) : argNames idents = idents := by
  have hfold : ∀ (rest taken : List String), (taken ++ rest).Nodup →
      (rest.foldl setName (taken, 0)) = (taken ++ rest, 0) := by
    intro rest
    induction rest with
    | nil => simp
    | cons x rest ih =>
      intro taken hn
      have hx : x ∉ taken := fun hm => (List.nodup_append.mp hn).2.2 x hm x List.mem_cons_self rfl
      rw [List.foldl_cons, setName, uniqueName_of_not_mem hx, ih _ (by simpa using hn)]
      simp
  exact congrArg Prod.fst (hfold idents [] h)

/-- The parameters, with the names of their arguments. -/
def FuncNode.named (f : FuncNode) : List (String × FuncFParamNode) :=
  (argNames (f.param.map (·.ident))).zip f.param

theorem named_snd (f : FuncNode) : f.named.map (·.2) = f.param := by
  rw [FuncNode.named, List.map_snd_zip]
  simp [argNames_length]

theorem named_args (f : FuncNode) : f.named.map (fun p => (p.1, p.2.type)) = f.args := by
  rw [FuncNode.args, FuncNode.named, List.zip_map_right]
  rfl

/-! ### The parameter layer -/

/-- The alloca of parameter number `i`, behind the slots below `base`. -/
def FuncFParamNode.slot (p : FuncFParamNode) (base i : Nat) : AllocaInst := ⟨base + i, p.type.ty⟩

/-- The entries of the parameters in their layer, first parameter first. -/
def paramEntries (base : Nat) (ps : List (String × FuncFParamNode)) : Layer :=
  ps.zipIdx.map fun p => (p.1.1, .varVal (p.1.2.slot base p.2))

/-- The stores of the arguments. -/
def paramStores (base : Nat) (ps : List (String × FuncFParamNode)) : List Inst :=
  ps.zipIdx.map fun p => .store (.arg p.2 p.1.2.type.ty) (p.1.2.slot base p.2).value

/-- The parameters `ps` have been defined in the entry block of function number `func`. -/
structure ParamsDone (func entry base : Nat) (ps : List (String × FuncFParamNode)) (s : State) : Prop where
  point : s.insertPoint = some ⟨func, entry⟩
  head : s.entry? func = some entry
  slot : s.nextSlot = base + ps.length
  layers : s.namedValues = [(paramEntries base ps).reverse]
  stores : (s.blocks entry).filter (!·.isAlloca) = paramStores base ps

section Params
variable {func entry base : Nat} {ps qs : List (String × FuncFParamNode)} {s t : State} {x : String}
    {p : FuncFParamNode}

theorem paramEntries_append : paramEntries base (ps ++ [(x, p)]) =
    paramEntries base ps ++ [(x, .varVal (p.slot base ps.length))] := by
  simp [paramEntries, List.zipIdx_append]

theorem paramStores_append : paramStores base (ps ++ [(x, p)]) =
    paramStores base ps ++ [.store (.arg ps.length p.type.ty) (p.slot base ps.length).value] := by
  simp [paramStores, List.zipIdx_append]

theorem paramEntries_keys : (paramEntries base ps).map (·.1) = ps.map (·.1) := by
  conv_rhs => rw [← List.zipIdx_map_fst 0 ps]
  rw [paramEntries, List.map_map, List.map_map]
  rfl

theorem lookup_eq_none {layer : Layer} (h : x ∉ layer.map (·.1)) : layer.lookup x = none := by
  induction layer with
  | nil => rfl
  | cons b layer ih =>
    rw [List.map_cons, List.mem_cons, not_or] at h
    rw [List.lookup_cons, beq_eq_false_iff_ne.mpr h.1]
    exact ih h.2

variable [ConstantFolder]

/-- A parameter whose argument has a new name is defined. -/
theorem ParamsDone.define (h : ParamsDone func entry base ps s) (hx : x ∉ ps.map (·.1)) :
    ∃ t, defineValue x .var [.arg ps.length p.type.ty] none p.type.isPtr s = .ok () t ∧
      ParamsDone func entry base (ps ++ [(x, p)]) t := by
  have hslot : p.slot base ps.length = ⟨s.nextSlot, p.type.ty⟩ := by rw [FuncFParamNode.slot, h.slot]
  let w := s.emitAlloca entry p.type.ty none
  let st : Inst := .store (.arg ps.length p.type.ty) (p.slot base ps.length).value
  have hvoid : (Value.arg ps.length p.type.ty).ty ≠ .void := by
    cases p.type <;> simp [Value.ty, FParamType.ty, FParamType.isPtr]
  have hw : createDefineValueInst [.arg ps.length p.type.ty] none p.type.isPtr s =
      .ok (p.slot base ps.length) (w.append [st]) := by
    rw [createDefineValueInst_scalar h.point h.head hvoid]
    simp only [st, hslot]
    rfl
  have hl : (paramEntries base ps).reverse.lookup x = none :=
    lookup_eq_none (by rw [List.map_reverse, List.mem_reverse, paramEntries_keys]; exact hx)
  refine ⟨_, defineValue_local h.layers hl hw, ?_⟩
  have hpw : w.insertPoint = some ⟨func, entry⟩ := h.point
  have hself : w.blocks entry = .alloca s.nextSlot p.type.ty none :: s.blocks entry := Function.update_self ..
  refine ⟨?_, ?_, ?_, ?_, ?_⟩
  · exact (State.append_insertPoint w _).trans h.point
  · show State.entry? (w.append [st]) func = _
    rw [State.entry?, State.append_functions]
    exact h.head
  · show (w.append [st]).nextSlot = _
    rw [State.append_nextSlot, List.length_append]
    show s.nextSlot + 1 = _
    rw [h.slot, Nat.add_assoc]
    rfl
  · have hn : w.namedValues = [(paramEntries base ps).reverse] := h.layers
    simp [State.log, State.bind, hn, paramEntries_append, ValType.named]
  · show ((w.append [st]).blocks entry).filter _ = _
    rw [State.append_blocks w hpw, Function.update_self, hself, paramStores_append, ← h.stores]
    simp [st, Inst.isAlloca]

/-- All parameters are defined, as the names of the arguments differ. -/
theorem ParamsDone.defineParams : ∀ {qs ps : List (String × FuncFParamNode)} {s : State},
    ParamsDone func entry base ps s → ((ps ++ qs).map (·.1)).Nodup →
    ∃ t, L24.defineParams ps.length (qs.map fun q => (q.1, q.2.type)) s = .ok () t ∧
      ParamsDone func entry base (ps ++ qs) t
  | [], ps, s, h, _ => ⟨s, by rw [List.map_nil, L24.defineParams]; rfl, by simpa using h⟩
  | (x, p) :: qs, ps, s, h, hn => by
    have hx : x ∉ ps.map (·.1) := fun hm => by
      rw [List.map_append] at hn
      exact (List.nodup_append.mp hn).2.2 x hm x List.mem_cons_self rfl
    obtain ⟨t, ht, hd⟩ := h.define (p := p) hx
    have happ : ps ++ [(x, p)] ++ qs = ps ++ (x, p) :: qs := by simp
    obtain ⟨u, hu, hd'⟩ := hd.defineParams (happ ▸ hn)
    rw [List.length_append] at hu
    refine ⟨u, ?_, happ ▸ hd'⟩
    rw [List.map_cons, L24.defineParams]
    exact (bind_of_ok ht).trans hu

end Params

variable [ConstantFolder]

end L24
