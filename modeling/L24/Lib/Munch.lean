import Mathlib.Data.List.Basic
import Mathlib.Data.List.TakeWhile

/-! Lexers by maximal munch: the longest match of some rules is the next token, the earliest rule of these deciding
    its kind; where no rule matches, some characters are skipped as an error. -/

namespace Munch

section Rules
variable {σ : Type} [BEq σ]

/-- The length of a rule's match at the start of the input. -/
abbrev Matcher (σ : Type) := List σ → Option Nat

/-- Exactly the word `w`. -/
def word (w : List σ) : Matcher σ := fun input => if w.isPrefixOf input then some w.length else none

/-- One character of the class `first` and all of the class `next` behind it. -/
def run (first next : σ → Bool) : Matcher σ
  | [] => none
  | c :: cs => if first c then some ((cs.takeWhile next).length + 1) else none

/-- The characters up to the first `closing`, with it. -/
def through (closing : List σ) : Matcher σ
  | [] => if closing.isEmpty then some 0 else none
  | c :: cs => if closing.isPrefixOf (c :: cs) then some closing.length else (through closing cs).map (· + 1)

/-- The word `opening`, and then what `m` matches. -/
def after (opening : List σ) (m : Matcher σ) : Matcher σ := fun input =>
  if opening.isPrefixOf input then (m (input.drop opening.length)).map (· + opening.length) else none

/-- The longer one of two matches. -/
def orElse (m₁ m₂ : Matcher σ) : Matcher σ := fun input =>
  match m₁ input, m₂ input with
  | some n, some k => some (max n k)
  | some n, none => some n
  | none, o => o

end Rules

section Scan
variable {σ κ : Type}

/-- A rule of the lexer, and the kind of its tokens. -/
structure Rule (σ κ : Type) where
  kind : κ
  matcher : Matcher σ

/-- The longest match, and the earliest rule that makes it. -/
def longest (input : List σ) : List (Rule σ κ) → Option (κ × Nat)
  | [] => none
  | r :: rs => match r.matcher input, longest input rs with
    | some n, some (k, m) => if m ≤ n then some (r.kind, n) else some (k, m)
    | some n, none => some (r.kind, n)
    | none, o => o

/-- A piece of the input: a token, or characters that no rule matches. -/
inductive Lexeme (σ κ : Type)
  | token (kind : κ) (text : List σ)
  | error (text : List σ)

namespace Lexeme

/-- The piece of the input. -/
def text : Lexeme σ κ → List σ
  | .token _ text => text
  | .error text => text

/-- No rule matched here. -/
def isError : Lexeme σ κ → Bool
  | .token _ _ => false
  | .error _ => true

end Lexeme

/-- The pieces of the input, with fuel for their number. `skip` says how many characters behind the first one an error
    takes along. -/
def scan (rules : List (Rule σ κ)) (skip : List σ → Nat) : Nat → List σ → List (Lexeme σ κ)
  | 0, _ => []
  | _, [] => []
  | n + 1, c :: cs => match longest (c :: cs) rules with
    | some (k, m + 1) => .token k (c :: cs.take m) :: scan rules skip n (cs.drop m)
    | _ => .error (c :: cs.take (skip (c :: cs))) :: scan rules skip n (cs.drop (skip (c :: cs)))

/-- The pieces of the whole input. -/
def lexemes (rules : List (Rule σ κ)) (skip : List σ → Nat) (input : List σ) : List (Lexeme σ κ) :=
  scan rules skip input.length input

section
variable {rules : List (Rule σ κ)} {skip : List σ → Nat} {input : List σ}

theorem scan_text_ne_nil (n : Nat) : ∀ l ∈ scan rules skip n input, l.text ≠ [] := by
  induction n generalizing input with
  | zero => simp [scan]
  | succ n ih =>
    cases input with
    | nil => simp [scan]
    | cons c cs =>
      intro l hl
      rw [scan] at hl
      split at hl
      · rcases List.mem_cons.mp hl with rfl | hl
        · exact List.cons_ne_nil _ _
        · exact ih l hl
      · rcases List.mem_cons.mp hl with rfl | hl
        · exact List.cons_ne_nil _ _
        · exact ih l hl

theorem scan_flatten (n : Nat) (h : input.length ≤ n) : (scan rules skip n input).flatMap Lexeme.text = input := by
  induction n generalizing input with
  | zero =>
    obtain rfl := List.eq_nil_of_length_eq_zero (Nat.le_zero.mp h)
    rfl
  | succ n ih =>
    cases input with
    | nil => rfl
    | cons c cs =>
      have hrest : ∀ m, (cs.drop m).length ≤ n := fun m => by
        rw [List.length_drop]
        rw [List.length_cons] at h
        omega
      rw [scan]
      split
      · rw [List.flatMap_cons, ih (hrest _), Lexeme.text, List.cons_append, List.take_append_drop]
      · rw [List.flatMap_cons, ih (hrest _), Lexeme.text, List.cons_append, List.take_append_drop]

/-- Nothing of the input is lost between the pieces. -/
theorem lexemes_flatten : (lexemes rules skip input).flatMap Lexeme.text = input := scan_flatten _ (Nat.le_refl _)

theorem length_flatMap_text (ls : List (Lexeme σ κ)) :
    ((ls.filter fun l => !l.isError).flatMap Lexeme.text).length +
    ((ls.filter Lexeme.isError).flatMap Lexeme.text).length =
      (ls.flatMap Lexeme.text).length := by
  induction ls with
  | nil => rfl
  | cons l ls ih =>
    cases hl : l.isError with
    | true =>
      rw [List.filter_cons_of_neg (by simp [hl]), List.filter_cons_of_pos hl, List.flatMap_cons, List.flatMap_cons,
        List.length_append, List.length_append]
      omega
    | false =>
      rw [List.filter_cons_of_pos (by simp [hl]), List.filter_cons_of_neg (by simp [hl]), List.flatMap_cons,
        List.flatMap_cons, List.length_append, List.length_append]
      omega

/-- The tokens make up the whole input exactly when no piece is an error. -/
theorem tokens_flatten_iff : ((lexemes rules skip input).filter fun l => !l.isError).flatMap Lexeme.text = input ↔
    ∀ l ∈ lexemes rules skip input, l.isError = false := by
  constructor
  · intro h l hl
    by_contra hl'
    rw [Bool.not_eq_false] at hl'
    have hlen := length_flatMap_text (lexemes rules skip input)
    rw [h, lexemes_flatten] at hlen
    have hmem : l ∈ (lexemes rules skip input).filter Lexeme.isError := List.mem_filter.mpr ⟨hl, hl'⟩
    have hnil : ((lexemes rules skip input).filter Lexeme.isError).flatMap Lexeme.text = [] :=
      List.eq_nil_of_length_eq_zero (by omega)
    exact scan_text_ne_nil _ l hl (List.flatMap_eq_nil_iff.mp hnil l hmem)
  · intro h
    rw [List.filter_eq_self.mpr fun l hl => by rw [h l hl]; rfl]
    exact lexemes_flatten

theorem scan_fuel (n : Nat) (h : input.length ≤ n) : scan rules skip n input = lexemes rules skip input := by
  have hgen : ∀ n m (input : List σ), input.length ≤ n → input.length ≤ m →
      scan rules skip n input = scan rules skip m input := by
    intro n
    induction n with
    | zero =>
      intro m input hn _
      obtain rfl := List.eq_nil_of_length_eq_zero (Nat.le_zero.mp hn)
      cases m <;> rfl
    | succ n ih =>
      intro m input hn hm
      cases input with
      | nil => cases m <;> rfl
      | cons c cs =>
        obtain ⟨m, rfl⟩ := Nat.exists_eq_succ_of_ne_zero (Nat.ne_of_gt (Nat.lt_of_lt_of_le (Nat.succ_pos _) hm))
        rw [List.length_cons] at hn hm
        have hrest : ∀ k, scan rules skip n (cs.drop k) = scan rules skip m (cs.drop k) := by
          intro k
          refine ih m (cs.drop k) ?_ ?_ <;> rw [List.length_drop] <;> omega
        rw [scan, scan]
        split
        · rw [hrest]
        · rw [hrest]
  exact hgen n input.length input h (Nat.le_refl _)

/-- Some text of which the longest match takes all is the next token. -/
theorem lexemes_append {k : κ} {w rest : List σ} (hne : w ≠ []) (h : longest (w ++ rest) rules = some (k, w.length)) :
    lexemes rules skip (w ++ rest) = .token k w :: lexemes rules skip rest := by
  cases w with
  | nil => exact absurd rfl hne
  | cons c cs =>
    rw [lexemes, List.cons_append, List.length_cons, scan]
    rw [List.cons_append, List.length_cons] at h
    rw [h]
    simp only [List.take_left, List.drop_left]
    rw [scan_fuel _ (by simp)]

theorem longest_congr {input input' : List σ} (h : ∀ r ∈ rules, r.matcher input = r.matcher input') :
    longest input rules = longest input' rules := by
  induction rules with
  | nil => rfl
  | cons r rs ih =>
    obtain ⟨hr, hrs⟩ := List.forall_mem_cons.mp h
    rw [longest, longest, hr, ih hrs]

theorem longest_mem {k : κ} {n : Nat} (h : longest input rules = some (k, n)) :
    ∃ r ∈ rules, r.kind = k ∧ r.matcher input = some n := by
  induction rules with
  | nil => cases h
  | cons r rs ih =>
    have hlater : longest input rs = some (k, n) → ∃ r' ∈ r :: rs, r'.kind = k ∧ r'.matcher input = some n := by
      intro hrs
      obtain ⟨r', hr', hk⟩ := ih hrs
      exact ⟨r', List.mem_cons_of_mem _ hr', hk⟩
    rw [longest] at h
    split at h
    · rename_i m k' m' hm hrs
      split at h
      · cases h
        exact ⟨r, List.mem_cons_self, rfl, hm⟩
      · exact hlater (hrs.trans h)
    · rename_i m hm hrs
      cases h
      exact ⟨r, List.mem_cons_self, rfl, hm⟩
    · exact hlater h

theorem longest_le {r : Rule σ κ} {n : Nat} (hr : r ∈ rules) (hn : r.matcher input = some n) :
    ∃ k m, longest input rules = some (k, m) ∧ n ≤ m := by
  induction rules with
  | nil => cases hr
  | cons r₀ rs ih =>
    rw [longest]
    rcases List.mem_cons.mp hr with rfl | hr
    · rw [hn]
      cases hrs : longest input rs with
      | none => exact ⟨r.kind, n, rfl, Nat.le_refl _⟩
      | some best =>
        obtain ⟨k, m⟩ := best
        by_cases hm : m ≤ n
        · exact ⟨r.kind, n, by simp [hm], Nat.le_refl _⟩
        · exact ⟨k, m, by simp [hm], Nat.le_of_not_le hm⟩
    · obtain ⟨k, m, hrs, hm⟩ := ih hr
      rw [hrs]
      cases h₀ : r₀.matcher input with
      | none => exact ⟨k, m, rfl, hm⟩
      | some n₀ =>
        by_cases hm₀ : m ≤ n₀
        · exact ⟨r₀.kind, n₀, by simp [hm₀], Nat.le_trans hm hm₀⟩
        · exact ⟨k, m, by simp [hm₀], hm⟩

/-- A match that only rules of its kind reach is the longest. -/
theorem longest_eq {r : Rule σ κ} {n : Nat} (hr : r ∈ rules) (hn : r.matcher input = some n)
    (h : ∀ r' ∈ rules, ∀ m, r'.matcher input = some m → m ≤ n ∧ (m = n → r'.kind = r.kind)) :
    longest input rules = some (r.kind, n) := by
  obtain ⟨k, m, hbest, hle⟩ := longest_le hr hn
  obtain ⟨r', hr', rfl, hm⟩ := longest_mem hbest
  obtain ⟨hm', hkind⟩ := h r' hr' m hm
  obtain rfl := Nat.le_antisymm hm' hle
  rw [hbest, hkind rfl]

end

end Scan

section Append
variable {σ : Type} [BEq σ] [LawfulBEq σ] {w rest : List σ}

theorem word_eq_some {v input : List σ} {n : Nat} (h : word v input = some n) : v <+: input ∧ n = v.length := by
  rw [word] at h
  split at h
  · rename_i hp
    exact ⟨List.isPrefixOf_iff_prefix.mp hp, (Option.some.inj h).symm⟩
  · cases h

/-- A word none of whose characters can follow `w` does not reach behind it. -/
theorem isPrefixOf_append {v : List σ} (h : ∀ c ∈ rest.head?, c ∉ v) : v.isPrefixOf (w ++ rest) = v.isPrefixOf w := by
  induction v generalizing w with
  | nil => simp
  | cons x v ih =>
    cases w with
    | nil =>
      cases rest with
      | nil => rfl
      | cons c rest =>
        have hc : x ≠ c := by
          rintro rfl
          exact h x rfl List.mem_cons_self
        simp [List.isPrefixOf, hc]
    | cons y w =>
      have hv : v.isPrefixOf (w ++ rest) = v.isPrefixOf w := by
        apply ih
        intro c hc hmem
        exact h c hc (List.mem_cons_of_mem _ hmem)
      rw [List.cons_append, List.isPrefixOf, List.isPrefixOf, hv]

theorem word_append {v : List σ} (h : ∀ c ∈ rest.head?, c ∉ v) : word v (w ++ rest) = word v w := by
  rw [word, word, isPrefixOf_append h]

omit [BEq σ] [LawfulBEq σ] in
theorem run_append {first next : σ → Bool} (hne : w ≠ []) (h : ∀ c ∈ rest.head?, next c = false) :
    run first next (w ++ rest) = run first next w := by
  cases w with
  | nil => exact absurd rfl hne
  | cons x w =>
    have hstop : rest.takeWhile next = [] := by
      cases rest with
      | nil => rfl
      | cons c rest => simp [h c rfl]
    have htake : ∀ w : List σ, (w ++ rest).takeWhile next = w.takeWhile next := by
      intro w
      induction w with
      | nil => simpa using hstop
      | cons y w ih => simp [List.takeWhile_cons, ih]
    rw [List.cons_append, run, run, htake]

theorem through_bounds {closing input : List σ} {n : Nat} (h : through closing input = some n) :
    closing.length ≤ n ∧ n ≤ input.length := by
  induction input generalizing n with
  | nil =>
    rw [through] at h
    split at h
    · rename_i hc
      cases h
      rw [List.isEmpty_iff.mp hc]
      exact ⟨Nat.le_refl _, Nat.le_refl _⟩
    · cases h
  | cons x xs ih =>
    rw [through] at h
    split at h
    · rename_i hc
      cases h
      exact ⟨Nat.le_refl _, (List.isPrefixOf_iff_prefix.mp hc).length_le⟩
    · obtain ⟨m, hm, rfl⟩ := Option.map_eq_some_iff.mp h
      obtain ⟨hlo, hhi⟩ := ih hm
      rw [List.length_cons]
      omega

/-- The first closing stays the first one. -/
theorem through_append {closing : List σ} {n : Nat} (h : through closing w = some n) :
    through closing (w ++ rest) = some n := by
  induction w generalizing n with
  | nil =>
    rw [through] at h
    split at h
    · rename_i hc
      cases h
      obtain rfl := List.isEmpty_iff.mp hc
      cases rest <;> rfl
    · cases h
  | cons x w ih =>
    rw [through] at h
    rw [List.cons_append, through]
    split at h
    · rename_i hc
      have hp := (List.isPrefixOf_iff_prefix.mp hc).trans (List.prefix_append (x :: w) rest)
      rw [if_pos (List.isPrefixOf_iff_prefix.mpr (by simpa using hp))]
      exact h
    · rename_i hc
      obtain ⟨m, hm, rfl⟩ := Option.map_eq_some_iff.mp h
      have hlen := through_bounds hm
      have hnot : ¬ closing.isPrefixOf (x :: (w ++ rest)) = true := by
        intro hp
        have hp' : closing <+: (x :: w) ++ rest := List.isPrefixOf_iff_prefix.mp hp
        have hle : closing.length ≤ (x :: w).length := by
          rw [List.length_cons]
          omega
        exact hc (List.isPrefixOf_iff_prefix.mpr (List.prefix_of_prefix_length_le hp' (List.prefix_append _ _) hle))
      rw [if_neg hnot, ih hm]
      rfl

/-- A match whose opening `w` has and whose end lies in `w`. -/
theorem after_append {opening : List σ} {m : Matcher σ} (hopen : opening.isPrefixOf (w ++ rest) = opening.isPrefixOf w)
    (hm : opening.isPrefixOf w = true → m (w.drop opening.length ++ rest) = m (w.drop opening.length)) :
    after opening m (w ++ rest) = after opening m w := by
  rw [after, after, hopen]
  split
  · rename_i hp
    have hle := (List.isPrefixOf_iff_prefix.mp hp).length_le
    rw [List.drop_append_of_le_length hle, hm hp]
  · rfl

omit [BEq σ] [LawfulBEq σ] in
theorem orElse_append {m₁ m₂ : Matcher σ} (h₁ : m₁ (w ++ rest) = m₁ w) (h₂ : m₂ (w ++ rest) = m₂ w) :
    orElse m₁ m₂ (w ++ rest) = orElse m₁ m₂ w := by
  rw [orElse, orElse, h₁, h₂]

end Append

section Whole
variable {σ : Type} [BEq σ] [LawfulBEq σ] {input : List σ}

theorem word_all {v : List σ} (h : word v input = some input.length) : input = v := by
  obtain ⟨hp, hlen⟩ := word_eq_some h
  exact (hp.eq_of_length hlen.symm).symm

omit [BEq σ] [LawfulBEq σ] in
theorem run_all {first next : σ → Bool} (h : run first next input = some input.length) :
    ∃ c cs, input = c :: cs ∧ first c = true ∧ ∀ x ∈ cs, next x = true := by
  cases input with
  | nil => cases h
  | cons c cs =>
    rw [run] at h
    split at h
    · rename_i hc
      have hlen : (cs.takeWhile next).length = cs.length := by simpa using h
      have hall : cs.takeWhile next = cs := (List.takeWhile_prefix _).eq_of_length hlen
      refine ⟨c, cs, rfl, hc, ?_⟩
      intro x hx
      rw [← hall] at hx
      exact List.all_eq_true.mp List.all_takeWhile x hx
    · cases h

theorem through_all {closing : List σ} (h : through closing input = some input.length) :
    ∃ body, input = body ++ closing := by
  induction input with
  | nil =>
    rw [through] at h
    split at h
    · rename_i hc
      exact ⟨[], (List.isEmpty_iff.mp hc).symm⟩
    · cases h
  | cons x xs ih =>
    rw [through] at h
    split at h
    · rename_i hc
      exact ⟨[], ((List.isPrefixOf_iff_prefix.mp hc).eq_of_length (Option.some.inj h)).symm⟩
    · obtain ⟨n, hn, hlen⟩ := Option.map_eq_some_iff.mp h
      obtain rfl : n = xs.length := by simpa using hlen
      obtain ⟨body, rfl⟩ := ih hn
      exact ⟨x :: body, rfl⟩

theorem after_all {opening : List σ} {m : Matcher σ} (h : after opening m input = some input.length) :
    ∃ rest, input = opening ++ rest ∧ m rest = some rest.length := by
  rw [after] at h
  split at h
  · rename_i hp
    obtain ⟨rest, rfl⟩ := List.isPrefixOf_iff_prefix.mp hp
    obtain ⟨n, hn, hlen⟩ := Option.map_eq_some_iff.mp h
    rw [List.drop_left] at hn
    obtain rfl : n = rest.length := by
      rw [List.length_append] at hlen
      omega
    exact ⟨rest, rfl, hn⟩
  · cases h

omit [BEq σ] [LawfulBEq σ] in
theorem orElse_eq_some {m₁ m₂ : Matcher σ} {n : Nat} (h : orElse m₁ m₂ input = some n) :
    m₁ input = some n ∨ m₂ input = some n := by
  rw [orElse] at h
  split at h
  · rename_i n₁ n₂ h₁ h₂
    rcases Nat.le_total n₁ n₂ with hle | hle
    · rw [Nat.max_eq_right hle] at h
      exact Or.inr (h₂.trans h)
    · rw [Nat.max_eq_left hle] at h
      exact Or.inl (h₁.trans h)
  · rename_i n₁ h₁ h₂
    exact Or.inl (h₁.trans h)
  · exact Or.inr h

/-- The rule matches no more than there is. -/
def Bounded (m : Matcher σ) : Prop := ∀ input n, m input = some n → n ≤ input.length

theorem word_bounded (v : List σ) : Bounded (word v) := by
  intro input n h
  obtain ⟨hp, rfl⟩ := word_eq_some h
  exact hp.length_le

omit [BEq σ] [LawfulBEq σ] in
theorem run_bounded (first next : σ → Bool) : Bounded (run first next) := by
  intro input n h
  cases input with
  | nil => cases h
  | cons c cs =>
    rw [run] at h
    split at h
    · cases h
      exact Nat.succ_le_succ (List.takeWhile_prefix _).length_le
    · cases h

theorem after_bounded {opening : List σ} {m : Matcher σ} (hm : Bounded m) : Bounded (after opening m) := by
  intro input n h
  rw [after] at h
  split at h
  · rename_i hp
    obtain ⟨k, hk, rfl⟩ := Option.map_eq_some_iff.mp h
    have hle := hm _ _ hk
    have := (List.isPrefixOf_iff_prefix.mp hp).length_le
    rw [List.length_drop] at hle
    omega
  · cases h

omit [BEq σ] [LawfulBEq σ] in
theorem orElse_bounded {m₁ m₂ : Matcher σ} (h₁ : Bounded m₁) (h₂ : Bounded m₂) : Bounded (orElse m₁ m₂) := by
  intro input n h
  rcases orElse_eq_some h with h | h
  · exact h₁ input n h
  · exact h₂ input n h

/-- A match that is the start of some input is one of its own text. -/
def Local (m : Matcher σ) : Prop := ∀ w rest, m (w ++ rest) = some w.length → m w = some w.length

theorem word_local (v : List σ) : Local (word v) := by
  intro w rest h
  obtain ⟨hp, hlen⟩ := word_eq_some h
  have hv : v = w := (List.prefix_of_prefix_length_le hp (List.prefix_append _ _) (Nat.le_of_eq hlen.symm)).eq_of_length
    hlen.symm
  rw [word, hv, if_pos (List.isPrefixOf_iff_prefix.mpr (List.prefix_refl w))]

omit [BEq σ] [LawfulBEq σ] in
theorem length_takeWhile_local {p : σ → Bool} {w rest : List σ} (h : ((w ++ rest).takeWhile p).length = w.length) :
    (w.takeWhile p).length = w.length := by
  have hall : (w ++ rest).takeWhile p = w :=
    (List.prefix_of_prefix_length_le (List.takeWhile_prefix p) (List.prefix_append w rest)
      (Nat.le_of_eq h)).eq_of_length h
  have hw : ∀ x ∈ w, p x = true := by
    intro x hx
    rw [← hall] at hx
    exact List.all_eq_true.mp List.all_takeWhile x hx
  rw [List.takeWhile_eq_self_iff.mpr hw]

omit [BEq σ] [LawfulBEq σ] in
theorem run_local (first next : σ → Bool) : Local (run first next) := by
  intro w rest h
  cases w with
  | nil =>
    cases rest with
    | nil => exact h
    | cons c rest =>
      simp only [List.nil_append, run] at h
      split at h <;> cases h
  | cons c w =>
    rw [List.cons_append, run] at h
    split at h
    · rename_i hc
      have hlen : ((w ++ rest).takeWhile next).length = w.length := by simpa using h
      rw [run, if_pos hc, length_takeWhile_local hlen]
      rfl
    · cases h

theorem through_local (closing : List σ) : Local (through closing) := by
  intro w
  induction w with
  | nil =>
    intro rest h
    have hc : closing = [] := List.eq_nil_of_length_eq_zero (Nat.le_zero.mp (through_bounds h).1)
    subst hc
    rfl
  | cons x w ih =>
    intro rest h
    rw [List.cons_append, through] at h
    split at h
    · rename_i hc
      have hlen : closing.length = (x :: w).length := Option.some.inj h
      have hp : closing <+: (x :: w) ++ rest := List.isPrefixOf_iff_prefix.mp hc
      have heq : closing = x :: w :=
        (List.prefix_of_prefix_length_le hp (List.prefix_append _ _) (Nat.le_of_eq hlen)).eq_of_length hlen
      rw [through, heq, if_pos (List.isPrefixOf_iff_prefix.mpr (List.prefix_refl (x :: w)))]
    · rename_i hc
      obtain ⟨n, hn, hlen⟩ := Option.map_eq_some_iff.mp h
      obtain rfl : n = w.length := by simpa using hlen
      have hnot : ¬ closing.isPrefixOf (x :: w) = true := by
        intro hp
        have hpre := (List.isPrefixOf_iff_prefix.mp hp).trans (List.prefix_append (x :: w) rest)
        exact hc (List.isPrefixOf_iff_prefix.mpr (by simpa using hpre))
      rw [through, if_neg hnot, ih rest hn]
      rfl

theorem after_local {opening : List σ} {m : Matcher σ} (hm : Local m) : Local (after opening m) := by
  intro w rest h
  rw [after] at h
  split at h
  · rename_i hp
    obtain ⟨n, hn, hlen⟩ := Option.map_eq_some_iff.mp h
    have hpre : opening <+: w := List.prefix_of_prefix_length_le (List.isPrefixOf_iff_prefix.mp hp)
      (List.prefix_append _ _) (by omega)
    obtain ⟨v, rfl⟩ := hpre
    rw [List.append_assoc, List.drop_left] at hn
    obtain rfl : n = v.length := by
      rw [List.length_append] at hlen
      omega
    rw [after, if_pos (List.isPrefixOf_iff_prefix.mpr (List.prefix_append _ _)), List.drop_left, hm v rest hn,
      Option.map_some,
      hlen]
  · cases h

omit [BEq σ] [LawfulBEq σ] in
theorem orElse_local {m₁ m₂ : Matcher σ} (h₁ : Local m₁) (h₂ : Local m₂) (hb₁ : Bounded m₁) (hb₂ : Bounded m₂) :
    Local (orElse m₁ m₂) := by
  intro w rest h
  rw [orElse]
  rcases orElse_eq_some h with h | h
  · rw [h₁ w rest h]
    cases hw : m₂ w with
    | none => rfl
    | some n => simp [hb₂ w n hw]
  · rw [h₂ w rest h]
    cases hw : m₁ w with
    | none => rfl
    | some n => simp [hb₁ w n hw]

omit [BEq σ] [LawfulBEq σ] in
/-- Every token is a match of the rule of its kind on its own text. -/
theorem lexemes_local {κ : Type} {rules : List (Rule σ κ)} {skip : List σ → Nat} {k : κ} {text : List σ}
    (hb : ∀ r ∈ rules, Bounded r.matcher) (h : ∀ r ∈ rules, Local r.matcher)
    (hmem : .token k text ∈ lexemes rules skip input) :
    ∃ r ∈ rules, r.kind = k ∧ r.matcher text = some text.length := by
  have hgen : ∀ n (input : List σ), .token k text ∈ scan rules skip n input →
      ∃ r ∈ rules, r.kind = k ∧ r.matcher text = some text.length := by
    intro n
    induction n with
    | zero =>
      intro input hmem
      cases hmem
    | succ n ih =>
      intro input hmem
      cases input with
      | nil => cases hmem
      | cons c cs =>
        rw [scan] at hmem
        split at hmem
        · rename_i k' m hlongest
          rcases List.mem_cons.mp hmem with heq | hmem
          · obtain ⟨rfl, rfl⟩ := Lexeme.token.inj heq
            obtain ⟨r, hr, hkind, hm⟩ := longest_mem hlongest
            have hle : m + 1 ≤ (c :: cs).length := hb r hr _ _ hm
            have hlen : (c :: cs.take m).length = m + 1 := by
              rw [List.length_cons] at hle ⊢
              rw [List.length_take]
              omega
            refine ⟨r, hr, hkind, h r hr (c :: cs.take m) (cs.drop m) ?_⟩
            rw [List.cons_append, List.take_append_drop, hm, hlen]
          · exact ih _ hmem
        · rcases List.mem_cons.mp hmem with heq | hmem
          · cases heq
          · exact ih _ hmem
  exact hgen input.length input hmem

end Whole

end Munch
