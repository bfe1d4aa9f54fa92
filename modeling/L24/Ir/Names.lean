import Mathlib.Data.Finset.Card
import Mathlib.Data.Finset.Range
import L24.Ir.Syntax

/-! Fresh names: among one more candidates than there are taken names, one is not taken. -/

namespace Ir

theorem repr_injective {m n : Nat} (h : toString m = toString n) : m = n := by
  have hd : Nat.toDigits 10 m = Nat.toDigits 10 n := by
    rw [← Nat.toList_repr, ← Nat.toList_repr]
    exact congrArg String.toList h
  rw [← Nat.ofDigitChars_toDigits (b := 10) (n := m) (by decide) (by decide), hd,
    Nat.ofDigitChars_toDigits (by decide) (by decide)]

theorem suffixed_injective (sep name : String) : Function.Injective fun k : Nat => name ++ sep ++ toString k := by
  intro j k h
  exact repr_injective ((String.append_right_inj _).mp h)

/-- Some candidate is not taken. -/
theorem exists_not_taken (sep : String) (taken : List String) (first : Nat) (name : String) :
    ∃ k ∈ List.range' first (taken.length + 1), name ++ sep ++ toString k ∉ taken := by
  by_contra hall
  have hsub : (List.range' first (taken.length + 1)).toFinset.image (fun k => name ++ sep ++ toString k) ⊆
      taken.toFinset := by
    intro x hx
    obtain ⟨k, hk, rfl⟩ := Finset.mem_image.mp hx
    rw [List.mem_toFinset]
    by_contra hn
    exact hall ⟨k, List.mem_toFinset.mp hk, hn⟩
  have hcard := Finset.card_le_card hsub
  rw [Finset.card_image_of_injective _ (suffixed_injective sep name),
    List.toFinset_card_of_nodup List.nodup_range', List.length_range'] at hcard
  have := taken.toFinset_card_le
  omega

section UniqueName
variable {sep : String} {taken : List String} {lastUnique : Nat} {name : String}

theorem uniqueName_not_mem (sep : String) (taken : List String) (lastUnique : Nat) (name : String) :
    (uniqueName sep taken lastUnique name).1 ∉ taken := by
  unfold uniqueName
  split
  · obtain ⟨k, hk, hn⟩ := exists_not_taken sep taken (lastUnique + 1) name
    cases hf : (List.range' (lastUnique + 1) (taken.length + 1)).find? fun k => name ++ sep ++ toString k ∉ taken with
    | none => exact absurd (by simpa using hn) (List.find?_eq_none.mp hf k hk)
    | some j => simpa using List.find?_some hf
  · assumption

/-- A name that is not taken stays, and no number is used. -/
theorem uniqueName_of_not_mem (h : name ∉ taken) : uniqueName sep taken lastUnique name = (name, lastUnique) := if_neg h

theorem uniqueName_ne (h : name ∈ taken) : (uniqueName sep taken lastUnique name).1 ≠ name := fun he =>
  uniqueName_not_mem sep taken lastUnique name (by rw [he]; exact h)

end UniqueName

end Ir
