import Mathlib.Data.List.Induction

/-! Unique reading of phrases from their tokens. A phrase is told from the others when, with something behind it that
    cannot continue it, its tokens are those of no other phrase and end where it does. Sequences, and the
    left-recursive rules of operators, are told when their parts are. -/

namespace Readable

section Phrases
variable {σ α β : Type} {F G : List σ → Prop}

/-- With what follows it, the phrase `a` is told from every other one by the tokens. -/
def Told (tokens : α → List σ) (F : List σ → Prop) (a : α) : Prop :=
  ∀ b r s, F r → F s → tokens a ++ r = tokens b ++ s → a = b ∧ r = s

theorem Told.mono {tokens : α → List σ} {a : α} (h : Told tokens G a) (hfg : ∀ r, F r → G r) : Told tokens F a := by
  intro b r s hr hs htok
  exact h b r s (hfg r hr) (hfg s hs) htok

/-- A phrase that is told from others because what it is made of is. -/
theorem Told.of_injective {tokens : α → List σ} {parts : β → List σ} {f : α → β} {a : α}
    (hf : ∀ a b, f a = f b → a = b) (ht : ∀ a, tokens a = parts (f a)) (h : Told parts F (f a)) : Told tokens F a := by
  intro b r s hr hs htok
  rw [ht, ht] at htok
  obtain ⟨hab, hrs⟩ := h (f b) r s hr hs htok
  exact ⟨hf a b hab, hrs⟩

theorem Told.append {xs : α → List σ} {ys : β → List σ} {p : α × β} (hx : Told xs G p.1) (hy : Told ys F p.2)
    (hg : ∀ b r, F r → G (ys b ++ r)) : Told (fun p => xs p.1 ++ ys p.2) F p := by
  intro q r s hr hs htok
  rw [List.append_assoc, List.append_assoc] at htok
  obtain ⟨h1, htok⟩ := hx q.1 _ _ (hg _ r hr) (hg _ s hs) htok
  obtain ⟨h2, hrs⟩ := hy q.2 r s hr hs htok
  exact ⟨Prod.ext h1 h2, hrs⟩

/-- Phrases one behind another, none of which starts as something behind them all can. -/
theorem Told.flatMap {item : α → List σ} {S : σ → Prop} (hitem : ∀ a, ∃ x ts, item a = x :: ts ∧ S x)
    (hF : ∀ x r, F (x :: r) → ¬ S x) (hG : ∀ r, F r → G r) (hstarts : ∀ x r, S x → G (x :: r)) :
    ∀ {as : List α}, (∀ a ∈ as, Told item G a) → Told (fun as : List α => as.flatMap item) F as := by
  have hafter : ∀ (as : List α) r, F r → G (as.flatMap item ++ r) := by
    intro as r hr
    cases as with
    | nil => exact hG r hr
    | cons a as =>
      obtain ⟨x, ts, hx, hs⟩ := hitem a
      rw [List.flatMap_cons, hx]
      exact hstarts x _ hs
  intro as
  induction as with
  | nil =>
    intro _ bs r s hr hs htok
    cases bs with
    | nil => exact ⟨rfl, htok⟩
    | cons b bs =>
      obtain ⟨x, ts, hx, hstart⟩ := hitem b
      simp only [List.flatMap_nil, List.nil_append, List.flatMap_cons, hx, List.cons_append] at htok
      exact absurd hstart (hF x _ (htok ▸ hr))
  | cons a as ih =>
    intro h bs r s hr hs htok
    obtain ⟨ha, has⟩ := List.forall_mem_cons.mp h
    cases bs with
    | nil =>
      obtain ⟨x, ts, hx, hstart⟩ := hitem a
      simp only [List.flatMap_nil, List.nil_append, List.flatMap_cons, hx, List.cons_append] at htok
      exact absurd hstart (hF x _ (htok ▸ hs))
    | cons b bs =>
      simp only [List.flatMap_cons, List.append_assoc] at htok
      obtain ⟨hab, htok⟩ := ha b _ _ (hafter as r hr) (hafter bs s hs) htok
      obtain ⟨hasbs, hrs⟩ := ih has bs r s hr hs htok
      exact ⟨by rw [hab, hasbs], hrs⟩

end Phrases

section Operators
variable {σ α ω : Type} {prec : σ → Nat} {k : Nat}

/-- What follows starts with no operator of precedence `k` or above. -/
def Below (prec : σ → Nat) (k : Nat) (r : List σ) : Prop := ∀ x ∈ r.head?, prec x < k

theorem below_cons {x : σ} {r : List σ} : Below prec k (x :: r) ↔ prec x < k := by simp [Below]

theorem Below.succ {r : List σ} (h : Below prec k r) : Below prec (k + 1) r := by
  intro x hx
  have := h x hx
  omega

/-- `op` and a phrase behind it, any number of times. -/
theorem Told.operands {tokens : α → List σ} {op : ω → σ} (hinj : ∀ o o', op o = op o' → o = o')
    (hprec : ∀ o, prec (op o) = k) {ps : List (ω × α)} (h : ∀ p ∈ ps, Told tokens (Below prec (k + 1)) p.2) :
    Told (fun ps : List (ω × α) => ps.flatMap fun p => op p.1 :: tokens p.2) (Below prec k) ps := by
  refine Told.flatMap (G := Below prec (k + 1)) (S := fun x => prec x = k) ?_ ?_ ?_ ?_ ?_
  · intro p
    exact ⟨op p.1, tokens p.2, rfl, hprec p.1⟩
  · intro x r hr
    have := below_cons.mp hr
    omega
  · intro r hr
    exact hr.succ
  · intro x r hx
    rw [below_cons]
    omega
  · intro p hp q r s hr hs htok
    simp only [List.cons_append, List.cons.injEq] at htok
    obtain ⟨hpq, hrs⟩ := h p hp q.2 r s hr hs htok.2
    exact ⟨Prod.ext (hinj _ _ htok.1) hpq, hrs⟩

/-- A left-recursive rule: an operand, or a phrase of the rule, an operator of precedence `k` and an operand. -/
structure Layer (σ α β ω : Type) (prec : σ → Nat) (k : Nat) where
  tokens : β → List σ
  operandTokens : α → List σ
  op : ω → σ
  operand : α → β
  node : β → ω → α → β
  tokens_operand : ∀ a, tokens (operand a) = operandTokens a
  tokens_node : ∀ b o a, tokens (node b o a) = tokens b ++ op o :: operandTokens a
  op_injective : ∀ o o', op o = op o' → o = o'
  op_prec : ∀ o, prec (op o) = k
  induct : ∀ {P : β → Prop}, (∀ a, P (operand a)) → (∀ b o a, P b → P (node b o a)) → ∀ b, P b

namespace Layer
variable {β : Type} (L : Layer σ α β ω prec k)

/-- The phrase of an operand and the operators and operands behind it. -/
def ofOperands (p : α × List (ω × α)) : β := p.2.foldl (fun b q => L.node b q.1 q.2) (L.operand p.1)

theorem ofOperands_concat (a : α) (ps : List (ω × α)) (p : ω × α) :
    L.ofOperands (a, ps ++ [p]) = L.node (L.ofOperands (a, ps)) p.1 p.2 := by
  simp [ofOperands, List.foldl_append]

theorem tokens_ofOperands (a : α) (ps : List (ω × α)) :
    L.tokens (L.ofOperands (a, ps)) = L.operandTokens a ++ ps.flatMap fun p => L.op p.1 :: L.operandTokens p.2 := by
  induction ps using List.reverseRecOn with
  | nil => simp [ofOperands, L.tokens_operand]
  | append_singleton ps p ih => simp [L.ofOperands_concat, L.tokens_node, ih]

/-- The phrase is made of operands with `P`. -/
inductive Of (P : α → Prop) : β → Prop
  | operand {a : α} (h : P a) : Of P (L.operand a)
  | node {b : β} {o : ω} {a : α} (hb : Of P b) (ha : P a) : Of P (L.node b o a)

variable {L}

theorem Of.exists_operands {P : α → Prop} {b : β} (h : L.Of P b) :
    ∃ a ps, b = L.ofOperands (a, ps) ∧ P a ∧ ∀ p ∈ ps, P p.2 := by
  induction h with
  | operand ha => exact ⟨_, [], rfl, ha, by simp⟩
  | @node b o a _ ha ih =>
    obtain ⟨a₀, ps, rfl, ha₀, hps⟩ := ih
    refine ⟨a₀, ps ++ [(o, a)], (L.ofOperands_concat a₀ ps (o, a)).symm, ha₀, ?_⟩
    intro p hp
    rcases List.mem_append.mp hp with hp | hp
    · exact hps p hp
    · rw [List.mem_singleton.mp hp]
      exact ha

theorem of_trivial (b : β) : L.Of (fun _ => True) b :=
  L.induct (fun _ => .operand trivial) (fun _ _ _ hb => .node hb trivial) b

/-- A phrase of operators is told from the others when its operands are. -/
theorem Of.told {b : β} (h : L.Of (Told L.operandTokens (Below prec (k + 1))) b) : Told L.tokens (Below prec k) b := by
  obtain ⟨a, ps, rfl, ha, hps⟩ := h.exists_operands
  intro b r s hr hs htok
  obtain ⟨c, qs, rfl, -, -⟩ := (of_trivial (L := L) b).exists_operands
  have hrest : ∀ (qs : List (ω × α)) r, Below prec k r →
      Below prec (k + 1) ((qs.flatMap fun p => L.op p.1 :: L.operandTokens p.2) ++ r) := by
    intro qs r hr
    cases qs with
    | nil => exact hr.succ
    | cons q qs =>
      rw [List.flatMap_cons, List.cons_append, List.cons_append, below_cons, L.op_prec]
      omega
  rw [L.tokens_ofOperands, L.tokens_ofOperands] at htok
  obtain ⟨hpq, hrs⟩ :=
    Told.append (p := (a, ps)) ha (Told.operands L.op_injective L.op_prec hps) hrest (c, qs) r s hr hs htok
  exact ⟨by rw [hpq], hrs⟩

end Layer
end Operators

end Readable
