import L24.Frontend.Parse
import L24.Frontend.Print

/-! The lexer reads back what tokens are written as: with a blank and any mix of blanks, line ends and comments between
    them, no rule matches across the end of a token, and what stands between two tokens never reaches the parser. -/

namespace L24
open Munch TokenType

/-- The words that are no identifiers. -/
def keywords : List String :=
  ["if", "then", "else", "end", "while", "continue", "break", "return", "const", "int", "char", "void"]

/-- A token that the parser sees, by the text that its rule matches as a whole; for a string literal, this means that
    the only quotes are the first and the last character. -/
structure Token.Plain (k : Token) : Prop where
  lexed : k.Lexed
  visible : k.type.isHidden = false
  ident : k.type = .Ident → k.text ∉ keywords

instance (k : Token) : Decidable k.Plain :=
  decidable_of_iff (k.Lexed ∧ k.type.isHidden = false ∧ (k.type = .Ident → k.text ∉ keywords))
    ⟨fun h => ⟨h.1, h.2.1, h.2.2⟩, fun h => ⟨h.lexed, h.visible, h.ident⟩⟩

/-- Any mix of blanks, line ends, block comments, and line comments with the end of their line. -/
inductive Gap : List Char → Prop
  | nil : Gap []
  | blank {c : Char} {g : List Char} (hc : isBlank c = true) (hg : Gap g) : Gap (c :: g)
  | lineEnd {c : Char} {g : List Char} (hc : isLineEnd c = true) (hg : Gap g) : Gap (c :: g)
  | block {comment g : List Char} (h : BlockComments.matcher comment = some comment.length) (hg : Gap g) :
    Gap (comment ++ g)
  | line {comment g : List Char} {c : Char} (h : LINECOMMENT.matcher comment = some comment.length)
    (hc : isLineEnd c = true) (hg : Gap g) : Gap (comment ++ c :: g)

/-- What separates two tokens: a blank or a line end, and more behind it. -/
def Separator (sep : List Char) : Prop := ∃ c g, sep = c :: g ∧ (isBlank c = true ∨ isLineEnd c = true) ∧ Gap g

/-- The texts of the tokens in order, with separators between them, and perhaps one at the end. -/
inductive Written : List Token → List Char → Prop
  | nil : Written [] []
  | last (k : Token) : Written [k] k.text.toList
  | cons {k : Token} {toks : List Token} {sep text : List Char} (hsep : Separator sep) (h : Written toks text) :
    Written (k :: toks) (k.text.toList ++ (sep ++ text))

/-! ### The rules at the start of a text -/

theorem matcher_bounded (t : TokenType) : Bounded t.matcher := by
  have hthrough : ∀ closing : List Char, Bounded (through closing) := fun _ _ _ h => (through_bounds h).2
  cases t with
  | Int => exact orElse_bounded (word_bounded _) (word_bounded _)
  | IntLiteral | Ident | Whitespace => exact run_bounded _ _
  | StringLiteral | BlockComments => exact after_bounded (hthrough _)
  | Newline => exact orElse_bounded (word_bounded _) (run_bounded _ _)
  | LINECOMMENT =>
    have hline : Bounded fun input : List Char => some (input.takeWhile fun c => !isLineEnd c).length := by
      intro input n h
      cases h
      exact (List.takeWhile_prefix _).length_le
    exact after_bounded hline
  | _ => exact word_bounded _

theorem matcher_local (t : TokenType) : Local t.matcher := by
  cases t with
  | Int => exact orElse_local (word_local _) (word_local _) (word_bounded _) (word_bounded _)
  | IntLiteral | Ident | Whitespace => exact run_local _ _
  | StringLiteral | BlockComments => exact after_local (through_local _)
  | Newline => exact orElse_local (word_local _) (run_local _ _) (word_bounded _) (run_bounded _ _)
  | LINECOMMENT =>
    have hline : Local fun input : List Char => some (input.takeWhile fun c => !isLineEnd c).length := by
      intro w rest h
      exact congrArg some (length_takeWhile_local (Option.some.inj h))
    exact after_local hline
  | _ => exact word_local _

/-- The lexer makes tokens whose texts their rules match. -/
theorem defaultTokens_lexed {skip : List Char → Nat} {text : List Char} {k : Token}
    (hk : k ∈ defaultTokens (lex skip text)) : k.Lexed := by
  obtain ⟨l, hl, hlk⟩ := List.mem_filterMap.mp hk
  cases l with
  | error w => cases hlk
  | token t w =>
    have hb : ∀ r ∈ lexerRules, Bounded r.matcher := by
      intro r hr
      obtain ⟨t', -, rfl⟩ := List.mem_map.mp hr
      exact matcher_bounded t'
    have hlocal : ∀ r ∈ lexerRules, Local r.matcher := by
      intro r hr
      obtain ⟨t', -, rfl⟩ := List.mem_map.mp hr
      exact matcher_local t'
    obtain ⟨r, hr, hkind, hm⟩ := lexemes_local hb hlocal hl
    obtain ⟨t', -, rfl⟩ := List.mem_map.mp hr
    simp only at hkind hm
    subst hkind
    rw [defaultToken?] at hlk
    split at hlk
    · cases hlk
    · cases hlk
      simpa [Token.Lexed] using hm

/-- A blank, a line end or nothing: what a token cannot go on with. -/
def Separates (rest : List Char) : Prop := ∀ c ∈ rest.head?, isBlank c = true ∨ isLineEnd c = true

/-- How the text of a token begins: not as a blank or a comment, and if it is a string, that one is closed. -/
structure Begins (w : List Char) : Prop where
  visible : w.head?.any (fun c => !isBlank c && !isLineEnd c) = true
  block : ['/', '*'].isPrefixOf w = false
  line : ['/', '/'].isPrefixOf w = false
  quote : ['"'].isPrefixOf w = true → (through ['"'] (w.drop 1)).isSome = true

section Start
variable {w rest : List Char}

theorem separator_part {c : Char} (h : isBlank c = true ∨ isLineEnd c = true) :
    isDigit c = false ∧ isIdentPart c = false := by
  simp only [isBlank, isLineEnd, Bool.or_eq_true, beq_iff_eq] at h
  rcases h with (rfl | rfl) | (rfl | rfl) <;> decide

theorem Separates.not_mem {v : List Char} (h : Separates rest)
    (hv : v.all (fun c => !isBlank c && !isLineEnd c) = true) :
    ∀ c ∈ rest.head?, c ∉ v := by
  intro c hc hmem
  have hv := List.all_eq_true.mp hv c hmem
  rcases h c hc with hb | hb <;> simp [hb] at hv

theorem Separates.next {next : Char → Bool} (h : Separates rest)
    (hn : ∀ c, isBlank c = true ∨ isLineEnd c = true → next c = false) :
    ∀ c ∈ rest.head?, next c = false := fun c hc => hn c (h c hc)

theorem Begins.cons (h : Begins w) : ∃ c cs, w = c :: cs ∧ isBlank c = false ∧ isLineEnd c = false := by
  cases w with
  | nil => cases h.visible
  | cons c cs =>
    have hv := h.visible
    simp only [List.head?_cons, Option.any_some, Bool.and_eq_true, Bool.not_eq_true'] at hv
    exact ⟨c, cs, rfl, hv⟩

/-- No rule of what the parser does not see matches where a token begins. -/
theorem matcher_hidden {t : TokenType} (ht : t.isHidden = true) (hw : Begins w) (hrest : Separates rest) :
    t.matcher (w ++ rest) = none := by
  obtain ⟨c, cs, rfl, hblank, hend⟩ := hw.cons
  have hopen : ∀ v : List Char, v.all (fun c => !isBlank c && !isLineEnd c) = true → v.isPrefixOf (c :: cs) = false →
      ∀ m, after v m (c :: cs ++ rest) = none := by
    intro v hv hp m
    rw [after, isPrefixOf_append (hrest.not_mem hv), hp]
    rfl
  cases t with
  | Whitespace => simp [TokenType.matcher, run, hblank]
  | Newline =>
    have hc : c ≠ '\r' := by
      rintro rfl
      cases hend
    simp [TokenType.matcher, orElse, word, run, hend, List.isPrefixOf, hc.symm]
  | BlockComments => exact hopen _ rfl hw.block _
  | LINECOMMENT =>
    rw [TokenType.matcher]
    exact hopen _ rfl hw.line _
  | _ => cases ht

theorem matcher_hidden_alone {t : TokenType} (ht : t.isHidden = true) (hw : Begins w) : t.matcher w = none := by
  have hend : Separates [] := by simp [Separates]
  have hnone := matcher_hidden ht hw hend
  rwa [List.append_nil] at hnone

/-- No rule of a token matches across the end of another one. -/
theorem matcher_append {t : TokenType} (ht : t.isHidden = false) (hw : Begins w) (hrest : Separates rest) :
    t.matcher (w ++ rest) = t.matcher w := by
  obtain ⟨c, cs, rfl, -, -⟩ := hw.cons
  have hword : ∀ v : List Char, v.all (fun c => !isBlank c && !isLineEnd c) = true →
      word v (c :: cs ++ rest) = word v (c :: cs) := fun v hv => word_append (hrest.not_mem hv)
  have hrun : ∀ first next : Char → Bool, (∀ c, isBlank c = true ∨ isLineEnd c = true → next c = false) →
      run first next (c :: cs ++ rest) = run first next (c :: cs) :=
    fun first next hn => run_append (List.cons_ne_nil _ _) (hrest.next hn)
  cases t with
  | Int => exact orElse_append (hword _ rfl) (hword _ rfl)
  | IntLiteral => exact hrun _ _ fun c hc => (separator_part hc).1
  | Ident => exact hrun _ _ fun c hc => (separator_part hc).2
  | StringLiteral =>
    refine after_append (isPrefixOf_append (hrest.not_mem rfl)) ?_
    intro hp
    obtain ⟨n, hn⟩ := Option.isSome_iff_exists.mp (hw.quote hp)
    exact (through_append hn).trans hn.symm
  | Whitespace | Newline | BlockComments | LINECOMMENT => cases ht
  | _ => exact hword _ rfl

end Start

/-! ### Tokens -/

theorem Token.Lexed.literal {t : TokenType} {text : String} (h : Token.Lexed ⟨t, text⟩) (ht : t.literal ≠ "") :
    text = t.literal := by
  have hword : word t.literal.toList text.toList = some text.toList.length := by
    cases t with
    | Int | IntLiteral | StringLiteral | Ident | Whitespace | Newline | BlockComments | LINECOMMENT => cases ht rfl
    | _ => exact h
  exact String.toList_inj.mp (word_all hword)

theorem Token.Lexed.int {text : String} (h : Token.Lexed ⟨.Int, text⟩) : text = "int" ∨ text = "char" := by
  rcases orElse_eq_some h with h | h
  · exact Or.inl (String.toList_inj.mp (word_all h))
  · exact Or.inr (String.toList_inj.mp (word_all h))

/-- The class of the first character of a token that is no fixed word. -/
def startClass : TokenType → Char → Bool
  | .IntLiteral => isDigit
  | .StringLiteral => (· == '"')
  | _ => isIdentStart

theorem Token.Lexed.start {t : TokenType} {text : String} (h : Token.Lexed ⟨t, text⟩)
    (ht : t = .IntLiteral ∨ t = .StringLiteral ∨ t = .Ident) :
    ∃ c cs, text.toList = c :: cs ∧ startClass t c = true := by
  rcases ht with rfl | rfl | rfl
  · obtain ⟨c, cs, htext, hc, -⟩ := @run_all _ _ isDigit isDigit h
    exact ⟨c, cs, htext, hc⟩
  · obtain ⟨body, htext⟩ := h.quoted
    exact ⟨_, _, htext, rfl⟩
  · obtain ⟨c, cs, htext, hc, -⟩ := @run_all _ _ isIdentStart isIdentPart h
    exact ⟨c, cs, htext, hc⟩

theorem digit_not_start {c : Char} (h : isDigit c = true) : isIdentStart c = false := by
  simp only [isDigit, Bool.and_eq_true, decide_eq_true_eq, Char.le_def, UInt32.le_iff_toNat_le] at h
  have hlo : 48 ≤ c.val.toNat := h.1
  have hhi : c.val.toNat ≤ 57 := h.2
  have hne : c ≠ '_' := by
    rintro rfl
    exact absurd hhi (by decide)
  have hlower : ¬ 'a' ≤ c := by
    intro hle
    rw [Char.le_def, UInt32.le_iff_toNat_le] at hle
    have hle : 97 ≤ c.val.toNat := hle
    omega
  have hupper : ¬ 'A' ≤ c := by
    intro hle
    rw [Char.le_def, UInt32.le_iff_toNat_le] at hle
    have hle : 65 ≤ c.val.toNat := hle
    omega
  simp [isIdentStart, hne, hlower, hupper]

theorem quote_class {c : Char} (h : (c == '"') = true) : isDigit c = false ∧ isIdentStart c = false := by
  rw [beq_iff_eq.mp h]
  exact ⟨rfl, rfl⟩

theorem startClass_injective {t t' : TokenType} {c : Char} (ht : t = .IntLiteral ∨ t = .StringLiteral ∨ t = .Ident)
    (ht' : t' = .IntLiteral ∨ t' = .StringLiteral ∨ t' = .Ident) (hc : startClass t c = true)
    (hc' : startClass t' c = true) :
    t = t' := by
  rcases ht with rfl | rfl | rfl <;> rcases ht' with rfl | rfl | rfl
  · rfl
  · exact absurd hc (by simp [startClass, (quote_class hc').1])
  · exact absurd hc' (by simp [startClass, digit_not_start hc])
  · exact absurd hc' (by simp [startClass, (quote_class hc).1])
  · rfl
  · exact absurd hc' (by simp [startClass, (quote_class hc).2])
  · exact absurd hc (by simp [startClass, digit_not_start hc'])
  · exact absurd hc (by simp [startClass, (quote_class hc').2])
  · rfl

/-- The fixed words: keywords and operators. -/
def fixedWords : List String :=
  keywords ++ ["=", "<", ">", "<=", ">=", "!=", "==", "&&", "||", "*", "/", "%", "+", "-", ";", ",", "\x7b", "\x7d",
    "(",
    ")", "[", "]", "!"]

theorem Token.Lexed.kind {t : TokenType} {text : String} (h : Token.Lexed ⟨t, text⟩) (hv : t.isHidden = false) :
    (t = .IntLiteral ∨ t = .StringLiteral ∨ t = .Ident) ∨ text ∈ fixedWords := by
  cases t with
  | Int => rcases h.int with rfl | rfl <;> exact Or.inr (by decide)
  | IntLiteral | StringLiteral | Ident => exact Or.inl (by simp)
  | Whitespace | Newline | BlockComments | LINECOMMENT => cases hv
  | _ =>
    rw [h.literal (by decide)]
    exact Or.inr (by decide)

theorem begins_of_class {p : Char → Bool} {c : Char} {cs : List Char} (hc : p c = true)
    (hp : [' ', '\t', '\r', '\n', '/', '"'].all (fun d => !p d) = true) : Begins (c :: cs) := by
  have hne : ∀ d ∈ [' ', '\t', '\r', '\n', '/', '"'], c ≠ d := by
    rintro d hd rfl
    have := List.all_eq_true.mp hp c hd
    simp [hc] at this
  simp only [List.mem_cons, List.not_mem_nil, or_false, forall_eq_or_imp, forall_eq] at hne
  obtain ⟨h1, h2, h3, h4, h5, h6⟩ := hne
  refine ⟨?_, ?_, ?_, ?_⟩
  · simp [isBlank, isLineEnd, h1, h2, h3, h4]
  · simp [List.isPrefixOf, h5.symm]
  · simp [List.isPrefixOf, h5.symm]
  · simp [List.isPrefixOf, h6.symm]

theorem begins_word {text : String} (h : text ∈ fixedWords) : Begins text.toList := by
  have hall : fixedWords.all (fun text => text.toList.head?.any (fun c => !isBlank c && !isLineEnd c) &&
      !(['/', '*'].isPrefixOf text.toList || ['/', '/'].isPrefixOf text.toList || ['"'].isPrefixOf text.toList)) =
        true := by
    decide +kernel
  have := List.all_eq_true.mp hall text h
  simp only [Bool.and_eq_true, Bool.not_eq_true', Bool.or_eq_false_iff] at this
  obtain ⟨h1, ⟨h2, h3⟩, h4⟩ := this
  exact ⟨h1, h2, h3, by simp [h4]⟩

theorem Token.Lexed.begins {t : TokenType} {text : String} (h : Token.Lexed ⟨t, text⟩) (hv : t.isHidden = false) :
    Begins text.toList := by
  rcases h.kind hv with (rfl | rfl | rfl) | hw
  · obtain ⟨c, cs, htext, hc⟩ := h.start (by simp)
    rw [htext]
    exact begins_of_class hc (by decide)
  · obtain ⟨rest, htext, hrest⟩ := @after_all _ _ _ _ ['"'] (through ['"']) h
    rw [htext]
    exact ⟨rfl, rfl, rfl, fun _ => by simp [hrest]⟩
  · obtain ⟨c, cs, htext, hc⟩ := h.start (by simp)
    rw [htext]
    exact begins_of_class hc (by decide)
  · exact begins_word hw

/-- A fixed word starts as a name only if it is a keyword, and never as a literal. -/
theorem startClass_word {t : TokenType} {text : String} {c : Char} {cs : List Char}
    (ht : t = .IntLiteral ∨ t = .StringLiteral ∨ t = .Ident) (hw : text ∈ fixedWords) (htext : text.toList = c :: cs)
    (hc : startClass t c = true) : t = .Ident ∧ text ∈ keywords := by
  have hall : fixedWords.all (fun text => text.toList.head?.all fun c => !isDigit c && c != '"' &&
      (!isIdentStart c || keywords.contains text)) = true := by decide +kernel
  have := List.all_eq_true.mp hall text hw
  rw [htext] at this
  simp only [List.head?_cons, Option.all_some, Bool.and_eq_true, Bool.or_eq_true, Bool.not_eq_true', bne_iff_ne,
    List.contains_iff_mem] at this
  obtain ⟨⟨hdigit, hquote⟩, hname⟩ := this
  rcases ht with rfl | rfl | rfl <;> simp only [startClass] at hc
  · simp [hdigit] at hc
  · exact absurd (beq_iff_eq.mp hc) hquote
  · rcases hname with hname | hname
    · simp [hname] at hc
    · exact ⟨rfl, hname⟩

theorem Token.Plain.only {k : Token} (h : k.Plain)
    (hk : k.type = .IntLiteral ∨ k.type = .StringLiteral ∨ k.type = .Ident)
    {t : TokenType} (ht : Token.Lexed ⟨t, k.text⟩) : t = k.type := by
  obtain ⟨c, cs, htext, hc⟩ := h.lexed.start hk
  cases hv : t.isHidden with
  | true => cases (matcher_hidden_alone hv (h.lexed.begins h.visible)).symm.trans ht
  | false =>
    rcases ht.kind hv with hspecial | hw
    · obtain ⟨c', cs', htext', hc'⟩ := ht.start hspecial
      obtain ⟨rfl, -⟩ := List.cons.inj (htext.symm.trans htext')
      exact startClass_injective hspecial hk hc' hc
    · obtain ⟨hident, hkey⟩ := startClass_word hk hw htext hc
      exact absurd hkey (h.ident hident)

theorem mem_lexerRules (t : TokenType) : (⟨t, t.matcher⟩ : Rule Char TokenType) ∈ lexerRules :=
  List.mem_map_of_mem (by cases t <;> decide)

theorem Token.Plain.longest {k : Token} (h : k.Plain) :
    Munch.longest k.text.toList lexerRules = some (k.type, k.text.toList.length) := by
  by_cases hk : k.type = .IntLiteral ∨ k.type = .StringLiteral ∨ k.type = .Ident
  · refine longest_eq (mem_lexerRules k.type) h.lexed ?_
    intro r' hr' m hm
    obtain ⟨t, -, rfl⟩ := List.mem_map.mp hr'
    exact ⟨matcher_bounded t _ _ hm, fun hmn => h.only hk (hm.trans (congrArg some hmn))⟩
  · obtain ⟨t, text⟩ := k
    have hlexed := h.lexed
    cases t with
    | IntLiteral | StringLiteral | Ident => simp at hk
    | Whitespace | Newline | BlockComments | LINECOMMENT => cases h.visible
    | Int => rcases hlexed.int with rfl | rfl <;> rfl
    | _ =>
      obtain rfl := hlexed.literal (by decide)
      rfl

/-- A token before a separator, or at the end, is the next one. -/
theorem Token.Plain.next {k : Token} (h : k.Plain) {skip : List Char → Nat} {rest : List Char}
    (hrest : Separates rest) :
    lex skip (k.text.toList ++ rest) = .token k.type k.text.toList :: lex skip rest := by
  have hbegins := h.lexed.begins h.visible
  obtain ⟨c, cs, htext, -, -⟩ := hbegins.cons
  refine lexemes_append (by simp [htext]) ?_
  rw [← h.longest]
  refine longest_congr ?_
  intro r hr
  obtain ⟨t, -, rfl⟩ := List.mem_map.mp hr
  cases ht : t.isHidden with
  | true => exact (matcher_hidden ht hbegins hrest).trans (matcher_hidden_alone ht hbegins).symm
  | false => exact matcher_append ht hbegins hrest

/-! ### Separators -/

section Gaps
variable {skip : List Char → Nat} {text : List Char}

/-- Only the rule `t` matches at all, and what it matches does not reach the parser. -/
theorem defaultTokens_hidden {t : TokenType} {w rest : List Char} (ht : t.isHidden = true) (hne : w ≠ [])
    (hmatch : t.matcher (w ++ rest) = some w.length)
    (honly : ∀ t' n, t' ≠ t → t'.matcher (w ++ rest) = some n → n < w.length) :
    defaultTokens (lex skip (w ++ rest)) = defaultTokens (lex skip rest) := by
  have hlongest : longest (w ++ rest) lexerRules = some (t, w.length) := by
    refine longest_eq (mem_lexerRules t) hmatch ?_
    intro r' hr' m hm
    obtain ⟨t', -, rfl⟩ := List.mem_map.mp hr'
    by_cases htt : t' = t
    · subst htt
      cases hmatch.symm.trans hm
      exact ⟨Nat.le_refl _, fun _ => rfl⟩
    · have := honly t' m htt hm
      exact ⟨Nat.le_of_lt this, fun h => absurd h (Nat.ne_of_lt this)⟩
  rw [lex, lexemes_append hne hlongest]
  simp [defaultTokens, defaultToken?, ht, lex]

theorem matcher_blank {c : Char} (hc : isBlank c = true) {t : TokenType} (ht : t ≠ .Whitespace) :
    t.matcher (c :: text) = none := by
  simp only [isBlank, Bool.or_eq_true, beq_iff_eq] at hc
  rcases hc with rfl | rfl <;> cases t <;> first | rfl | exact absurd rfl ht

theorem matcher_lineEnd {c : Char} (hc : isLineEnd c = true) {t : TokenType} (ht : t ≠ .Newline) :
    t.matcher (c :: text) = none := by
  simp only [isLineEnd, Bool.or_eq_true, beq_iff_eq] at hc
  rcases hc with rfl | rfl <;> cases t <;> first | rfl | exact absurd rfl ht

/-- All the blanks at the start are one piece. -/
theorem defaultTokens_blanks {c : Char} (hc : isBlank c = true) :
    defaultTokens (lex skip (c :: text)) = defaultTokens (lex skip (text.dropWhile isBlank)) := by
  have htext : c :: text = (c :: text.takeWhile isBlank) ++ text.dropWhile isBlank := by
    rw [List.cons_append, List.takeWhile_append_dropWhile]
  have hmatch : TokenType.Whitespace.matcher (c :: text) = some (c :: text.takeWhile isBlank).length := by
    simp [TokenType.matcher, run, hc]
  rw [htext] at hmatch ⊢
  refine defaultTokens_hidden rfl (List.cons_ne_nil _ _) hmatch ?_
  intro t n ht hn
  rw [List.cons_append, matcher_blank hc ht] at hn
  cases hn

theorem defaultTokens_blank {c : Char} (hc : isBlank c = true) :
    defaultTokens (lex skip (c :: text)) = defaultTokens (lex skip text) := by
  rw [defaultTokens_blanks hc]
  cases text with
  | nil => rfl
  | cons d text =>
    cases hd : isBlank d with
    | true => rw [List.dropWhile_cons_of_pos hd, defaultTokens_blanks hd]
    | false => rw [List.dropWhile_cons_of_neg (by simp [hd])]

theorem defaultTokens_newline {w : List Char} {c : Char} {cs : List Char} (hw : w = c :: cs) (hc : isLineEnd c = true)
    (hmatch : TokenType.Newline.matcher (w ++ text) = some w.length) :
    defaultTokens (lex skip (w ++ text)) = defaultTokens (lex skip text) := by
  subst hw
  refine defaultTokens_hidden rfl (List.cons_ne_nil _ _) hmatch ?_
  intro t n ht hn
  rw [List.cons_append, matcher_lineEnd hc ht] at hn
  cases hn

/-- One character is a line end, unless it is the first one of two. -/
theorem matcher_newline {c : Char} (hc : isLineEnd c = true) (h : ['\r', '\n'].isPrefixOf (c :: text) = false) :
    TokenType.Newline.matcher (c :: text) = some 1 := by
  have hnone : text.takeWhile (fun _ => false) = [] := by cases text <;> rfl
  simp [TokenType.matcher, orElse, word, run, h, hc, hnone]

theorem defaultTokens_lineEnd {c : Char} (hc : isLineEnd c = true) :
    defaultTokens (lex skip (c :: text)) = defaultTokens (lex skip text) := by
  cases h : ['\r', '\n'].isPrefixOf (c :: text) with
  | false => exact defaultTokens_newline (w := [c]) rfl hc (matcher_newline hc h)
  | true =>
    -- the next line end is part of this one, and not seen either way
    obtain ⟨text, htext⟩ := List.isPrefixOf_iff_prefix.mp h
    simp only [List.cons_append, List.nil_append, List.cons.injEq] at htext
    obtain ⟨rfl, rfl⟩ := htext
    have hboth : TokenType.Newline.matcher (['\r', '\n'] ++ text) = some 2 := by
      have hnone : ('\n' :: text).takeWhile (fun _ => false) = [] := rfl
      simp [TokenType.matcher, orElse, word, run, isLineEnd, List.isPrefixOf, hnone]
    have hsecond : defaultTokens (lex skip ('\n' :: text)) = defaultTokens (lex skip text) :=
      defaultTokens_newline (w := ['\n']) rfl rfl (matcher_newline rfl rfl)
    rw [hsecond]
    exact defaultTokens_newline (w := ['\r', '\n']) rfl rfl hboth

theorem defaultTokens_block {comment : List Char} (h : BlockComments.matcher comment = some comment.length) :
    defaultTokens (lex skip (comment ++ text)) = defaultTokens (lex skip text) := by
  obtain ⟨body, rfl, hbody⟩ := @after_all _ _ _ _ ['/', '*'] (through ['*', '/']) h
  have hmatch : BlockComments.matcher (['/', '*'] ++ body ++ text) = some (['/', '*'] ++ body).length := by
    simp [TokenType.matcher, after, List.isPrefixOf, through_append hbody]
  refine defaultTokens_hidden rfl (by simp) hmatch ?_
  intro t n ht hn
  simp only [List.cons_append, List.nil_append] at hn
  cases t <;> first | exact absurd rfl ht | cases hn <;> simp [TokenType.literal]

theorem defaultTokens_line {comment : List Char} {c : Char} (h : LINECOMMENT.matcher comment = some comment.length)
    (hc : isLineEnd c = true) :
    defaultTokens (lex skip (comment ++ c :: text)) = defaultTokens (lex skip text) := by
  refine Eq.trans ?_ (defaultTokens_lineEnd hc)
  obtain ⟨body, rfl, hbody⟩ := @after_all _ _ _ _ ['/', '/']
    (fun input => some (input.takeWhile fun c => !isLineEnd c).length) h
  have hall : body.takeWhile (fun c => !isLineEnd c) = body :=
    (List.takeWhile_prefix _).eq_of_length (Option.some.inj hbody)
  have htake : (body ++ c :: text).takeWhile (fun c => !isLineEnd c) = body := by
    have hbodyEnd : ∀ x ∈ body, (!isLineEnd x) = true := by
      rw [← hall]
      exact fun x hx => List.all_eq_true.mp List.all_takeWhile x hx
    rw [List.takeWhile_append_of_pos hbodyEnd, List.takeWhile_cons_of_neg (by simp [hc]), List.append_nil]
  have hmatch : LINECOMMENT.matcher (['/', '/'] ++ body ++ c :: text) = some (['/', '/'] ++ body).length := by
    simp [TokenType.matcher, after, List.isPrefixOf, htake]
  refine defaultTokens_hidden rfl (by simp) hmatch ?_
  intro t n ht hn
  simp only [List.cons_append, List.nil_append] at hn
  cases t <;> first | exact absurd rfl ht | cases hn <;> simp [TokenType.literal]

/-- What stands between two tokens does not reach the parser. -/
theorem Gap.defaultTokens {g : List Char} (h : Gap g) :
    L24.defaultTokens (lex skip (g ++ text)) = L24.defaultTokens (lex skip text) := by
  induction h with
  | nil => rfl
  | blank hc _ ih => exact (defaultTokens_blank hc).trans ih
  | lineEnd hc _ ih => exact (defaultTokens_lineEnd hc).trans ih
  | block hcomment _ ih =>
    rw [List.append_assoc]
    exact (defaultTokens_block hcomment).trans ih
  | line hcomment hc _ ih =>
    rw [List.append_assoc, List.cons_append]
    exact (defaultTokens_line hcomment hc).trans ih

end Gaps

/-! ### Reading back -/

theorem Separator.separates {sep text : List Char} (h : Separator sep) : Separates (sep ++ text) := by
  obtain ⟨c, g, rfl, hc, -⟩ := h
  intro d hd
  cases hd
  exact hc

theorem Separator.defaultTokens {skip : List Char → Nat} {sep text : List Char} (h : Separator sep) :
    L24.defaultTokens (lex skip (sep ++ text)) = L24.defaultTokens (lex skip text) := by
  obtain ⟨c, g, rfl, hc, hg⟩ := h
  rcases hc with hc | hc
  · exact (Gap.blank hc hg).defaultTokens
  · exact (Gap.lineEnd hc hg).defaultTokens

theorem Token.Plain.defaultTokens_cons {k : Token} (h : k.Plain) {ls : List (Lexeme Char TokenType)} :
    defaultTokens (.token k.type k.text.toList :: ls) = k :: defaultTokens ls := by
  simp [defaultTokens, defaultToken?, h.visible]

/-- Tokens written with separators between them are read back, in their order and with their texts. -/
theorem lex_written (skip : List Char → Nat) (toks : List Token) (text : List Char) (hk : ∀ k ∈ toks, k.Plain)
    (h : Written toks text) : defaultTokens (lex skip text) = toks := by
  induction h with
  | nil => rfl
  | last k =>
    have hplain := hk k (List.mem_singleton.mpr rfl)
    have hend : Separates [] := by simp [Separates]
    have hnext : lex skip (k.text.toList ++ []) = _ := hplain.next hend
    rw [List.append_nil] at hnext
    rw [hnext, hplain.defaultTokens_cons]
    rfl
  | @cons k toks sep text hsep _ ih =>
    obtain ⟨hplain, hrest⟩ := List.forall_mem_cons.mp hk
    rw [hplain.next hsep.separates, hplain.defaultTokens_cons, hsep.defaultTokens, ih hrest]

/-- `if`, a name that starts with it, and a string that holds a comment. -/
def oddTokens : List Token := [If.token, ⟨.Ident, "if_"⟩, ⟨.StringLiteral, "\"/* //\""⟩, Slash.token, Slash.token]

def oddText : List Char := "if /* \" */if_\t// /*\r\n\"/* //\" / /".toList

theorem oddText_lexes : defaultTokens (lex (fun _ => 0) oddText) = oddTokens := by
  have hblock : Separator " /* \" */".toList :=
    ⟨' ', "/* \" */".toList ++ [], rfl, Or.inl rfl, .block (by decide +kernel) .nil⟩
  have hline : Separator "\t// /*\r\n".toList :=
    ⟨'\t', "// /*".toList ++ '\r' :: ['\n'], rfl, Or.inl rfl, .line (by decide +kernel) rfl (.lineEnd rfl .nil)⟩
  have hblank : Separator " ".toList := ⟨' ', [], rfl, Or.inl rfl, .nil⟩
  exact lex_written _ oddTokens oddText (by decide +kernel)
    (.cons hblock (.cons hline (.cons hblank (.cons hblank (.last Slash.token)))))

end L24
