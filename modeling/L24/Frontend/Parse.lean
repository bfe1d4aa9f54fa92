import L24.Frontend.TopLevel

/-! `FrontEnd::parse` (`src/frontend/front_end.cpp`), and how much of a text it accepts: the start rule of the grammar
    does not end with `EOF`, and the lexer's errors are not counted. -/

namespace L24
open Munch L24.Tree

/-- No declaration or function can start here. -/
def Stops (rest : List Token) : Prop := ∀ tok ∈ rest.head?, startsItem tok.type = false

/-- What is assumed of the parser that ANTLR generates. `entry` gives the tree of the consumed tokens, if no syntax
    error is counted: its start rule succeeds on a program prefix after which no item can start, wherever there is
    one. -/
structure Antlr (entry : List Token → Option Entry) : Prop where
  sound : ∀ toks t, entry toks = some t → ∃ rest, toks = t.tokens ++ rest ∧ Stops rest
  complete : ∀ t rest, Stops rest → ∃ t', entry (Entry.tokens t ++ rest) = some t'

/-- The lexer; `skip` says how much it leaves out where no rule matches. -/
def lex (skip : List Char → Nat) (text : List Char) : List (Lexeme Char TokenType) := lexemes lexerRules skip text

/-- `FrontEnd::parse` up to the tree that it builds the AST from. -/
def parse (entry : List Token → Option Entry) (skip : List Char → Nat) (text : List Char) : Option Entry :=
  entry (defaultTokens (lex skip text))

/-- The text of the tokens is the whole text, and a program derives all that the parser sees of them. -/
def WholeInput (skip : List Char → Nat) (text : List Char) : Prop :=
  ((lex skip text).filter fun l => !l.isError).flatMap Lexeme.text = text ∧
    ∃ t : Entry, t.tokens = defaultTokens (lex skip text)

/-! ### Accepted texts -/

theorem scanTop_between {rest : List Token} (h : Stops rest) (hr : rest ≠ []) : scanTop .between rest = none := by
  cases rest with
  | nil => exact absurd rfl hr
  | cons tok rest =>
    have hstart : startsItem tok.type = false := h tok rfl
    rw [scanTop, List.foldlM_cons, Place.next, hstart]
    rfl

/-- Behind a program, the scan finds something out of place unless nothing is left. -/
theorem topLevel_iff {t : Entry} {rest : List Token} (h : Stops rest) : TopLevel (t.tokens ++ rest) ↔ rest = [] := by
  rw [TopLevel, Entry.tokens, scanTop_append t.program.scan]
  constructor
  · intro hs
    by_contra hr
    rw [scanTop_between h hr] at hs
    cases hs
  · rintro rfl
    rfl

theorem Tree.Entry.topLevel (t : Entry) : TopLevel t.tokens := by
  have := (@topLevel_iff t [] fun _ h => by cases h).mpr rfl
  rwa [List.append_nil] at this

/-- An accepted text is accepted as a whole exactly when the lexer skips none of it as an error, and at the top level
    each complete declaration or function is followed by the start of another one or by the end. -/
theorem parse_wholeInput_iff {entry : List Token → Option Entry} {skip : List Char → Nat} {text : List Char} {t : Entry}
    (ha : Antlr entry) (h : parse entry skip text = some t) : WholeInput skip text ↔
      (∀ l ∈ lex skip text, l.isError = false) ∧ TopLevel (defaultTokens (lex skip text)) := by
  have hlexed : ((lex skip text).filter fun l => !l.isError).flatMap Lexeme.text = text ↔
      ∀ l ∈ lex skip text, l.isError = false := tokens_flatten_iff
  obtain ⟨rest, htoks, hstops⟩ := ha.sound _ _ h
  rw [WholeInput, hlexed]
  refine and_congr_right fun _ => ⟨fun ht => ?_, fun htop => ?_⟩
  · obtain ⟨t', ht'⟩ := ht
    rw [← ht']
    exact t'.topLevel
  · rw [htoks] at htop
    obtain rfl := (topLevel_iff hstops).mp htop
    exact ⟨t, by rw [htoks, List.append_nil]⟩

/-- There is a parser that does what is assumed. -/
theorem exists_antlr : ∃ entry, Antlr entry := by
  classical
  refine ⟨fun toks => if h : ∃ t : Entry, ∃ rest, toks = t.tokens ++ rest ∧ Stops rest then some h.choose else none, ?_,
    ?_⟩
  · intro toks t ht
    split at ht
    · rename_i h
      cases ht
      exact h.choose_spec
    · cases ht
  · intro t rest hstops
    exact ⟨_, dif_pos ⟨t, rest, rfl, hstops⟩⟩

/-- The expression `0`. -/
def zeroExp : Tree.Exp :=
  .mk (.lAndExp (.eqExp (.relExp (.addExp (.mulExp (.unaryExp (.primaryExp (.number "0"))))))))

/-- `int main(){return 0;}` -/
def returnZero : Entry := ⟨.func ⟨some .int, "main", none, .mk [.stmt (.ret (some zeroExp))]⟩⟩

def wholeText : List Char := "int main()\x7breturn 0;\x7d".toList

theorem parse_wholeInput_main : ∃ entry t, Antlr entry ∧ parse entry (fun _ => 0) wholeText = some t ∧
    (WholeInput (fun _ => 0) wholeText ↔ (∀ l ∈ lex (fun _ => 0) wholeText, l.isError = false) ∧
      TopLevel (defaultTokens (lex (fun _ => 0) wholeText))) := by
  obtain ⟨entry, ha⟩ := exists_antlr
  have htoks : returnZero.tokens ++ [] = defaultTokens (lex (fun _ => 0) wholeText) := by decide +kernel
  obtain ⟨t, ht⟩ := ha.complete returnZero [] fun _ h => by cases h
  rw [htoks] at ht
  exact ⟨entry, t, ha, ht, parse_wholeInput_iff ha ht⟩

/-- Every text that the parser accepts is accepted as a whole. -/
def AcceptsWhole : Prop :=
    ∀ (entry : List Token → Option Entry) (skip : List Char → Nat) (text : List Char) (t : Entry),
  Antlr entry → parse entry skip text = some t → WholeInput skip text

/-- A function behind a brace too many. -/
def droppedText : List Char := "int main()\x7breturn 0;\x7d \x7d int f()\x7breturn 1;\x7d".toList

theorem not_acceptsWhole : ¬ AcceptsWhole := by
  intro hall
  obtain ⟨entry, ha⟩ := exists_antlr
  obtain ⟨rest, htoks, hstart⟩ : ∃ rest, defaultTokens (lex (fun _ => 0) droppedText) = returnZero.tokens ++ rest ∧
      (rest.head?.all fun tok => !startsItem tok.type) = true :=
    ⟨(defaultTokens (lex (fun _ => 0) droppedText)).drop 9, by decide +kernel, by decide +kernel⟩
  have hstops : Stops rest := by
    intro tok htok
    rw [Option.mem_def.mp htok] at hstart
    simpa using hstart
  obtain ⟨t, ht⟩ := ha.complete returnZero rest hstops
  rw [← htoks] at ht
  obtain ⟨-, t', ht'⟩ := hall entry (fun _ => 0) droppedText t ha ht
  have htop := t'.topLevel
  rw [ht'] at htop
  have hscan : (scanTop .between (defaultTokens (lex (fun _ => 0) droppedText))).isSome = false := by decide +kernel
  exact absurd htop (by rw [TopLevel, hscan]; decide)

end L24
