import Mathlib.Logic.Relation
import Mathlib.Data.List.Perm.Subperm
import Mathlib.Data.List.Range

/-! Machines with a stack of activations, seen from their control alone. Where every call goes to an activation whose
    rank is related to the caller's, so are the ranks on the stack. Where calls lower the rank, the stack has a bounded
    depth, and if moreover each activation has only so much left to do, so is the length of a run. -/

namespace CallStack
open Relation

/-- What activations can do. -/
structure Machine (A : Type) where
  /-- The activation goes on. -/
  goes : A → A → Prop
  /-- `calls a c b`: the activation `a` starts `c`, and waits as `b`. -/
  calls : A → A → A → Prop
  ends : A → Prop

variable {A : Type} {m : Machine A} {s t : List A} {a : A}

/-- A step of a machine with a stack, the innermost activation first. -/
inductive Step (m : Machine A) : List A → List A → Prop
  | goes {a b : A} {s : List A} (h : m.goes a b) : Step m (a :: s) (b :: s)
  | calls {a b c : A} {s : List A} (h : m.calls a c b) : Step m (a :: s) (c :: b :: s)
  | ends {a : A} {s : List A} (h : m.ends a) : Step m (a :: s) s

/-! ### Ranks -/

section Ranks
variable {K : Type} {r : K → K → Prop} {ok : A → Prop} {rank : A → K}

/-- Activations stay as `ok` says and keep their rank, and that of a called one is `r`-related to the caller's. -/
structure Ranked (m : Machine A) (ok : A → Prop) (rank : A → K) (r : K → K → Prop) : Prop where
  goes : ∀ {a b}, ok a → m.goes a b → ok b ∧ rank b = rank a
  calls : ∀ {a b c}, ok a → m.calls a c b → (ok c ∧ r (rank c) (rank a)) ∧ ok b ∧ rank b = rank a

/-- The stack is in order: the rank of an activation is related to those of all activations that wait for it. -/
structure Ordered (ok : A → Prop) (rank : A → K) (r : K → K → Prop) (s : List A) : Prop where
  ok : ∀ a ∈ s, ok a
  sorted : s.Pairwise fun a b => r (rank a) (rank b)

theorem Ordered.single (h : ok a) : Ordered ok rank r [a] := ⟨by simpa using h, List.pairwise_singleton _ _⟩

theorem Ranked.step_ok (hm : Ranked m ok rank r) (h : Step m s t) (hs : ∀ a ∈ s, ok a) : ∀ a ∈ t, ok a := by
  cases h with
  | @goes a b s h =>
    obtain ⟨ha, hs⟩ := List.forall_mem_cons.mp hs
    exact List.forall_mem_cons.mpr ⟨(hm.goes ha h).1, hs⟩
  | @calls a b c s h =>
    obtain ⟨ha, hs⟩ := List.forall_mem_cons.mp hs
    obtain ⟨⟨hc, -⟩, hb, -⟩ := hm.calls ha h
    exact List.forall_mem_cons.mpr ⟨hc, List.forall_mem_cons.mpr ⟨hb, hs⟩⟩
  | ends => exact (List.forall_mem_cons.mp hs).2

theorem Ranked.step [IsTrans K r] (hm : Ranked m ok rank r) (h : Step m s t) (hs : Ordered ok rank r s) :
    Ordered ok rank r t := by
  refine ⟨hm.step_ok h hs.ok, ?_⟩
  obtain ⟨hok, hs⟩ := hs
  cases h with
  | @goes a b s h =>
    obtain ⟨hab, hs⟩ := List.pairwise_cons.mp hs
    obtain ⟨-, hrank⟩ := hm.goes (hok a List.mem_cons_self) h
    exact List.pairwise_cons.mpr ⟨fun c hc => hrank ▸ hab c hc, hs⟩
  | @calls a b c s h =>
    obtain ⟨hab, hs⟩ := List.pairwise_cons.mp hs
    obtain ⟨⟨-, hca⟩, -, hrank⟩ := hm.calls (hok a List.mem_cons_self) h
    refine List.pairwise_cons.mpr ⟨fun d hd => ?_, List.pairwise_cons.mpr ⟨fun d hd => hrank ▸ hab d hd, hs⟩⟩
    rcases List.mem_cons.mp hd with rfl | hd
    · rwa [hrank]
    · exact IsTrans.trans _ _ _ hca (hab d hd)
  | ends => exact (List.pairwise_cons.mp hs).2

theorem Ranked.run [IsTrans K r] (hm : Ranked m ok rank r) (h : ReflTransGen (Step m) s t) (hs : Ordered ok rank r s) :
    Ordered ok rank r t := by
  induction h with
  | refl => exact hs
  | tail _ h ih => exact hm.step h ih

/-- Where the ranks are strictly ordered, the stack is no deeper than there are ranks. -/
theorem Ordered.length_le {rank : A → Nat} {lo n : Nat} (hs : Ordered ok rank (· < ·) s)
    (hn : ∀ a ∈ s, lo ≤ rank a ∧ rank a < lo + n) : s.length ≤ n := by
  have hnodup : (s.map rank).Nodup := (List.pairwise_map.mpr hs.sorted).imp Nat.ne_of_lt
  have hsub : s.map rank ⊆ List.range' lo n := by
    intro k hk
    obtain ⟨a, ha, rfl⟩ := List.mem_map.mp hk
    exact List.mem_range'_1.mpr (hn a ha)
  simpa using (hnodup.subperm hsub).length_le

end Ranks

/-! ### Lengths of runs -/

section Weights
variable {ok : A → Prop} {rank left : A → Nat} {bound k n : Nat}

/-- An activation at work has something left, of which each step takes some; a new one has at most `bound` left, and a
    lower rank. -/
structure Spending (m : Machine A) (ok : A → Prop) (rank left : A → Nat) (bound : Nat) : Prop where
  ranked : Ranked m ok rank (· < ·)
  goes : ∀ {a b}, ok a → m.goes a b → left b < left a
  calls : ∀ {a b c}, ok a → m.calls a c b → left c ≤ bound ∧ left b < left a
  ends : ∀ {a}, ok a → m.ends a → 0 < left a

/-- What one unit of work of rank `k` can cost in all. -/
def price (bound : Nat) : Nat → Nat
  | 0 => 1
  | k + 1 => (bound + 1) * price bound k

theorem price_pos (bound : Nat) : ∀ k, 0 < price bound k
  | 0 => Nat.one_pos
  | k + 1 => Nat.mul_pos (Nat.succ_pos _) (price_pos bound k)

theorem price_mono (h : k ≤ n) : price bound k ≤ price bound n := by
  induction h with
  | refl => exact Nat.le_refl _
  | @step n _ ih => exact Nat.le_trans ih (Nat.le_mul_of_pos_left _ (Nat.succ_pos _))

/-- The work of a called activation costs less than one unit of the caller's. -/
theorem work_lt_price {w : Nat} (hw : w ≤ bound) (h : k < n) : w * price bound k < price bound n := by
  have hlt : w * price bound k < (bound + 1) * price bound k :=
    Nat.mul_lt_mul_of_pos_right (Nat.lt_succ_of_le hw) (price_pos bound k)
  exact Nat.lt_of_lt_of_le hlt (price_mono h)

/-- What all activations have left to do, with the calls they can make. -/
def weight (rank left : A → Nat) (bound : Nat) : List A → Nat
  | [] => 0
  | a :: s => left a * price bound (rank a) + weight rank left bound s

/-- A unit less to do. -/
theorem work_step (bound k : Nat) {w w' : Nat} (h : w' < w) :
    w' * price bound k + price bound k ≤ w * price bound k := by
  rw [← Nat.succ_mul]
  exact Nat.mul_le_mul_right _ h

theorem Spending.step (hm : Spending m ok rank left bound) (h : Step m s t) (hs : ∀ a ∈ s, ok a) :
    weight rank left bound t < weight rank left bound s := by
  cases h with
  | @goes a b s h =>
    have ha := hs a List.mem_cons_self
    have hwork := work_step bound (rank a) (hm.goes ha h)
    have hpos := price_pos bound (rank a)
    simp only [weight, (hm.ranked.goes ha h).2]
    omega
  | @calls a b c s h =>
    have ha := hs a List.mem_cons_self
    obtain ⟨⟨-, hrank⟩, -, hb⟩ := hm.ranked.calls ha h
    obtain ⟨hc, hleft⟩ := hm.calls ha h
    have hcall := work_lt_price hc hrank
    have hwork := work_step bound (rank a) hleft
    simp only [weight, hb]
    omega
  | @ends a s h =>
    have hwork := work_step bound (rank a) (hm.ends (hs a List.mem_cons_self) h)
    have hpos := price_pos bound (rank a)
    simp only [weight]
    omega

end Weights

end CallStack
