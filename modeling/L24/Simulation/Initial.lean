import L24.Simulation.Constant
import L24.Simulation.Store
import L24.Theorems.Reserved

/-! The elements of an array behind its definition. Outside all functions the listed values fold to the initialiser of
    a global variable. In a function their code comes first, and then the stores into the elements. Both cover exactly
    the elements of the array. -/

namespace L24
open Ir Relation Steps

/-! ### What an initialiser lists -/

section
variable [ConstantFolder]

section Values
variable {P : State → Frame → Prop} {val : String → Option (BitVec 64)} {s t w : State} {fr : Frame} {mem : Mem}
  {init : Option InitValNode} {idx n : Nat} {k : BitVec 64} {es : List (BitVec 64)}

omit [ConstantFolder] in
/-- A list of expressions has no characters. -/
theorem InitValNode.exps_nil {k : InitValNode} {c : BitVec 8} (h : k.stringLiteral[idx]? = some c) : k.exps = [] := by
  cases k with
  | string bytes => rfl
  | exp e => cases h
  | list es => cases h

end Values

/-! ### What a definition leaves -/

section Define
variable {val : String → Option (BitVec 64)} {s t u w : State} {d : Def} {n : BitVec 64} {es : List (BitVec 64)}
  {size : Option Value} {sz : Value} {vs : List Value} {x : String}

end Define

/-! ### Programs -/

section Programs
variable {node : EntryNode} {fin s t : State} {d : Def} {c : Ctx} {v : Visit}

theorem defs_extends : ∀ {ds : List Def} {s t : State}, Idle s → ds.forM Def.gen s = .ok ⟨⟩ t → Extends s t ∧ Idle t
  | [], s, t, hs, h => by
    obtain rfl := forM_nil_ok.mp h
    exact ⟨.refl _, hs⟩
  | d :: ds, s, t, hs, h => by
    obtain ⟨w, hw, h⟩ := forM_cons_ok.mp h
    obtain ⟨g, tr, -, -, -, rfl, -⟩ := Def.gen_global hs.namedValues hw
    have hi : Idle { s with globals := s.globals ++ [g], trace := tr } :=
      ⟨hs.namedValues, hs.nestedBlocks, hs.fresh, hs.layout⟩
    obtain ⟨e, ht⟩ := defs_extends hi h
    have e₁ : Extends s { s with globals := s.globals ++ [g], trace := tr } :=
      ⟨⟨[], by simp⟩, ⟨[g], rfl⟩, fun _ _ => rfl, Nat.le_refl _⟩
    exact ⟨e₁.trans e, ht⟩

/-- In an accepted program, what is left of the items ends in the finished module. -/
theorem Visited.ends (h : Accepts node fin) (hv : Visited node v) : v.call.top → v.call.run v.state = .ok () fin := by
  induction hv with
  | refl =>
    intro _
    exact seq_ok.mpr ⟨_, forM_nil_ok.mpr rfl, accepts_items.mp h⟩
  | tail _ hw ih =>
    intro ht
    cases hw with
    | nextGlobalDef hd =>
      obtain ⟨t, hds, his⟩ := seq_ok.mp (ih trivial)
      obtain ⟨w, hd', hds⟩ := forM_cons_ok.mp hds
      rw [hd] at hd'
      cases hd'
      exact seq_ok.mpr ⟨t, hds, his⟩
    | decl =>
      obtain ⟨t, hds, his⟩ := seq_ok.mp (ih trivial)
      obtain rfl := forM_nil_ok.mp hds
      obtain ⟨w, hd, his⟩ := forM_cons_ok.mp his
      rw [codeGenTopItem, codeGenDecl_defs] at hd
      exact seq_ok.mpr ⟨w, hd, his⟩
    | nextItem hf =>
      obtain ⟨t, hds, his⟩ := seq_ok.mp (ih trivial)
      obtain rfl := forM_nil_ok.mp hds
      obtain ⟨w, hf', his⟩ := forM_cons_ok.mp his
      rw [codeGenTopItem, hf] at hf'
      cases hf'
      exact seq_ok.mpr ⟨_, forM_nil_ok.mpr rfl, his⟩
    | _ => cases ht

end Programs

end

section
attribute [local instance] ConstantFolder.symbolic

end

end L24
