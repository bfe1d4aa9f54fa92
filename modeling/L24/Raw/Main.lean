import L24.Raw.Agree
import L24.Theorems.Program

/-! `FrontEnd::parse` (`src/frontend/front_end.cpp`) and `main` (`src/driver.cpp`): what becomes of the syntax errors
    that the parser counts. -/

namespace L24.Raw

/-- `Parser.entry()` with ANTLR's recovery from errors, and `Parser.getNumberOfSyntaxErrors()` after it. -/
abbrev Recover := List Token → Context × Nat

/-- `FrontEnd::parse`. `debug` says whether `LLVM_DEBUG` is compiled in; what it prints is left out. -/
def parse (debug : Bool) (recover : Recover) (skip : List Char → Nat) (text : List Char) : Build Node :=
  let entry := recover (defaultTokens (lex skip text))
  if debug && entry.2 != 0 then return .null else build entry.1

/-- How the process ends. -/
inductive Exit
  | status (n : Nat)
  | uncaught
  /-- It uses a null pointer; nothing is known from then on. -/
  | nullPointer
  /-- LLVM dies, where it finds a value that no correct caller has or a module that its back end cannot compile. -/
  | crash
  deriving DecidableEq, Repr

/-- What nobody catches ends the process. -/
def Fault.exit : Fault → Exit
  | .nullPointer => .nullPointer
  | .invalidArgument | .outOfRange => .uncaught

/-- `LogError` exits with status 1. -/
def GenStop.exit : GenStop → Exit
  | .stop (.logError _) => .status 1
  | .stop .nullDeref | .nullNode | .nullValue => .nullPointer
  | .stop .unreachable => .crash

/-- What LLVM's back end makes of a module: assembly, or no file (there is no target, or it cannot emit one), or it
    dies, as it may of a module that is not well-typed. -/
inductive Assembled
  | file (assembly : String)
  | noFile
  | crash

/-- What there is of a run of the compiler from outside. -/
structure Process where
  /-- The module that `codeGenEntry` prints. -/
  printed : Option Ir.Module := none
  /-- What is written into `output.S`. -/
  assembly : Option String := none
  exit : Exit

/-- `codeGenEntry` prints the module at its end, and `asmGen` hands it to the back end. -/
def emit (asmGen : Ir.Module → Assembled) (m : Ir.Module) : Process :=
  match asmGen m with
  | .file assembly => { printed := some m, assembly := some assembly, exit := .status 0 }
  | .noFile => { printed := some m, exit := .status 0 }
  | .crash => { printed := some m, exit := .crash }

section
variable [Ir.ConstantFolder]

/-- `codeGenEntry` and `asmGen`. -/
def generate (asmGen : Ir.Module → Assembled) (entryNode : Node) : Process :=
  match compile entryNode with
  | .ok _ s => emit asmGen s.ctx.toModule
  | .error stop _ => { exit := stop.exit }

/-- `main`, with the files that can be read. -/
def main (debug : Bool) (recover : Recover) (skip : List Char → Nat) (asmGen : Ir.Module → Assembled)
    (files : String → Option (List Char)) (argv : List String) : Process :=
  match argv with
  | [_, filename] => match files filename with
    | none => { exit := .status 1 }
    | some text => match parse debug recover skip text with
      | .ok entryNode => generate asmGen entryNode
      | .error fault => { exit := fault.exit }
  | _ => { exit := .status 1 }

/-- The text is turned down: neither module nor assembly, not status zero, and no null pointer is used. -/
structure Process.Rejects (p : Process) : Prop where
  printed : p.printed = none
  assembly : p.assembly = none
  success : p.exit ≠ .status 0
  nullPointer : p.exit ≠ .nullPointer

/-- Both builds turn down every text with a syntax error. -/
def SyntaxErrorsStop : Prop :=
  ∀ (recover : Recover) (skip : List Char → Nat) (asmGen : Ir.Module → Assembled)
    (files : String → Option (List Char)) (name filename : String) (text : List Char), files filename = some text →
    (recover (defaultTokens (lex skip text))).2 ≠ 0 →
      ∀ debug, (main debug recover skip asmGen files [name, filename]).Rejects

variable {debug : Bool} {recover : Recover} {skip : List Char → Nat} {asmGen : Ir.Module → Assembled}
  {files : String → Option (List Char)} {name filename : String} {text : List Char}

/-- Of the null AST, `codeGenEntry` reads `_prog`; the library is there by then. -/
theorem compile_null : compile .null = .error .nullNode { ctx := State.library } := by
  have hlib : codeGenStandardLibrary {} = .ok () State.library := codeGenStandardLibrary_ok.mpr rfl
  have hlift : (lift codeGenStandardLibrary : Gen Unit) {} = .ok () { ctx := State.library } := by
    rw [lift]
    have hctx : GenState.ctx {} = {} := rfl
    rw [hctx, hlib]
  unfold compile codeGenEntry
  simp only [monadLift_eq, bind, EStateM.bind, hlift]
  rfl

theorem generate_null : generate asmGen .null = { exit := .nullPointer } := by
  rw [generate, compile_null]
  rfl

/-- Where the debug output is compiled in, the null AST of a text with syntax errors goes on to code generation. -/
theorem main_debug (hfile : files filename = some text) (herr : (recover (defaultTokens (lex skip text))).2 ≠ 0) :
    main true recover skip asmGen files [name, filename] = { exit := .nullPointer } := by
  have hparse : parse true recover skip text = .ok .null := by
    rw [parse, if_pos (by simp [herr])]
    rfl
  simp only [main, hfile, hparse, generate_null]

/-- Where it is not, errors that leave the tree of a program are not noticed. -/
theorem main_ndebug {t : Tree.Entry} {ast : EntryNode} {s : State} (hfile : files filename = some text)
    (htree : (recover (defaultTokens (lex skip text))).1 = t.ctx) (h : AllLexed t.tokens) (hast : L24.build t = .ok ast)
    (hs : Accepts ast s) : main false recover skip asmGen files [name, filename] =
      emit asmGen s.toModule := by
  have hparse : parse false recover skip text = .ok ast.toNode := by
    rw [parse, if_neg (by simp), htree, t.build_ctx h, hast]
    rfl
  have hctx : L24.codeGenEntry ast (GenState.ctx {}) = .ok () s := hs
  have hcompile : compile ast.toNode = .ok () { ctx := s } := by
    rw [compile, t.gen_build h hast, lift, hctx]
  simp only [main, hfile, hparse, generate, hcompile]

/-- No text with a syntax error is turned down by both builds. -/
theorem main_not_rejects (hfile : files filename = some text) (herr : (recover (defaultTokens (lex skip text))).2 ≠ 0) :
    ¬ ∀ debug, (main debug recover skip asmGen files [name, filename]).Rejects := by
  intro h
  have hdebug := (h true).nullPointer
  rw [main_debug hfile herr] at hdebug
  exact hdebug rfl

end

/-- A program whose last brace is missing. -/
def unclosedText : List Char := "int main()\x7breturn 0;".toList

/-- What ANTLR makes of it: the missing brace becomes an error node, which no accessor reads, and counts as one
    error. -/
def recoverBrace : Recover := fun _ => (returnZero.ctx, 1)

/-- The file system with that text in one file. -/
def unclosedFile : String → Option (List Char) := fun filename => if filename = "a.l24" then some unclosedText else none

theorem unclosedFile_text : unclosedFile "a.l24" = some unclosedText := if_pos rfl

theorem recoverBrace_errors (toks : List Token) : (recoverBrace toks).2 ≠ 0 := Nat.one_ne_zero

section
attribute [local instance] Ir.ConstantFolder.symbolic

theorem main_not_rejects_unclosed : ¬ ∀ debug,
    (main debug recoverBrace (fun _ => 0) (fun _ => .file "") unclosedFile ["l24", "a.l24"]).Rejects :=
  main_not_rejects unclosedFile_text (recoverBrace_errors _)

theorem returnZero_lexed : AllLexed returnZero.tokens := by
  have h : ∀ k ∈ returnZero.tokens, k.Lexed := by decide +kernel
  exact h

theorem returnZero_accepted : ∃ ast s, L24.build returnZero = .ok ast ∧ Accepts ast s := by
  have hsome : ((L24.build returnZero).toOption.bind EntryNode.final?).isSome = true := by decide +kernel
  cases hast : L24.build returnZero with
  | error e =>
    rw [hast] at hsome
    cases hsome
  | ok ast =>
    rw [hast] at hsome
    simp only [Except.toOption, Option.bind_some] at hsome
    obtain ⟨s, hs⟩ := Option.isSome_iff_exists.mp hsome
    exact ⟨ast, s, rfl, final?_eq_some.mp hs⟩

/-- The one build uses a null pointer, the other one prints a module and writes assembly for it. -/
theorem main_unclosed : ∃ m, main true recoverBrace (fun _ => 0) (fun _ => .file "") unclosedFile ["l24", "a.l24"] =
      { exit := .nullPointer } ∧
    main false recoverBrace (fun _ => 0) (fun _ => .file "") unclosedFile ["l24", "a.l24"] =
      { printed := some m, assembly := some "", exit := .status 0 } := by
  obtain ⟨ast, s, hast, hs⟩ := returnZero_accepted
  refine ⟨s.toModule, ?_, ?_⟩
  · exact main_debug unclosedFile_text (recoverBrace_errors _)
  · have htree : ∀ toks, (recoverBrace toks).1 = returnZero.ctx := fun _ => rfl
    exact main_ndebug unclosedFile_text (htree _) returnZero_lexed hast hs

theorem not_syntaxErrorsStop : ¬ SyntaxErrorsStop := by
  intro h
  obtain ⟨m, -, hrun⟩ := main_unclosed
  have hprinted := (h recoverBrace (fun _ => 0)
    (fun _ => .file "") unclosedFile "l24" "a.l24" unclosedText unclosedFile_text
    (recoverBrace_errors _) false).printed
  rw [hrun] at hprinted
  cases hprinted

end

end L24.Raw
