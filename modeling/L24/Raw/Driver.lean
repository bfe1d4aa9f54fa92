import L24.Frontend.Reread
import L24.Raw.Main
import L24.Simulation.Whole

/-! The whole compiler, from the text of a program to the run of the module that it prints. -/

namespace L24.Raw
open Ir Steps

/-- What is assumed of the generated parser where it counts no errors: there is nothing to recover from. -/
def Parses (entry : List Token → Option Tree.Entry) (recover : Recover) : Prop :=
  ∀ toks t, entry toks = some t → recover toks = (t.ctx, 0)

section
variable [ConstantFolder]

/-- What becomes of a syntax tree: its module is printed and assembled, or generation stops. -/
def generated (asmGen : Ir.Module → Assembled) (node : EntryNode) : Process :=
  match L24.compile node with
  | .ok _ s => emit asmGen s.toModule
  | .error stop _ => { exit := (GenStop.stop stop).exit }

variable {entry : List Token → Option Tree.Entry} {recover : Recover} {node : EntryNode} {text : List Char}
  {asmGen : Ir.Module → Assembled} {files : String → Option (List Char)} {name filename : String} {debug : Bool}
  {skip : List Char → Nat}

/-- `main` on a text that is parsed without errors into a tree of which the node is built. -/
theorem main_tree {t : Tree.Entry} (ha : Antlr entry) (hr : Parses entry recover) (hfile : files filename = some text)
    (ht : L24.parse entry skip text = some t) (hb : L24.build t = .ok node) :
    main debug recover skip asmGen files [name, filename] = generated asmGen node := by
  have hl : AllLexed t.tokens := parse_allLexed ha ht
  have hparse : parse debug recover skip text = .ok node.toNode := by
    rw [parse, hr _ t ht]
    simp only [bne_self_eq_false, Bool.and_false, Bool.false_eq_true, if_false]
    rw [t.build_ctx hl, hb]
    rfl
  have hcompile : compile node.toNode = L24.Raw.lift (L24.codeGenEntry node) {} := by rw [compile, t.gen_build hl hb]
  simp only [main, hfile, hparse]
  rw [generate, hcompile, generated, L24.compile, L24.Raw.lift]
  cases L24.codeGenEntry node {} <;> rfl

/-- `main` on a text of a printable tree, in either build: the text alone decides what becomes of it, and how its tokens
    are separated does not matter. -/
theorem main_text (ha : Antlr entry) (hr : Parses entry recover) (hp : node.Printable) (hw : Written node.print text)
    (hfile : files filename = some text) :
    main debug recover skip asmGen files [name, filename] = generated asmGen node := by
  obtain ⟨t, hb, htoks⟩ := node.reads hp
  have hplain : ∀ k ∈ t.tokens, k.Plain := htoks ▸ hp.plain
  exact main_tree ha hr hfile (ha.parse_written skip hplain (htoks ▸ hw)) hb

end

/-- There is a parser that does what is assumed, and counts no errors where it succeeds. -/
theorem exists_parses : ∃ entry recover, Antlr entry ∧ Parses entry recover := by
  obtain ⟨entry, ha⟩ := exists_antlr
  refine ⟨entry, fun toks => (entry toks).elim (returnZero.ctx, 1) fun t => (t.ctx, 0), ha, fun toks t ht => ?_⟩
  simp only [ht, Option.elim_some]

section
attribute [local instance] ConstantFolder.symbolic

/-- The file system with one file. -/
def oneFile (text : List Char) : String → Option (List Char) :=
    fun filename => if filename = "a.l24" then some text else none

theorem oneFile_text (text : List Char) : oneFile text "a.l24" = some text := if_pos rfl

/-- `void f() { x = 1; }`: the name is unknown. -/
def unknownName : EntryNode :=
  ⟨.func ⟨.void, "f", [], [.stmt (.assign "x" none (NumberNode.toExpr ⟨1⟩))]⟩⟩

theorem unknownName_printable : unknownName.Printable where
  plain := by decide +kernel
  small := by
    have h : ∀ k ∈ unknownName.print, k.type = .IntLiteral → decimal k.text < 0x80000000 := by decide +kernel
    exact h
  complete := ⟨trivial, trivial⟩

/-- Its text ends the process with status 1. -/
theorem unknownName_exits : ∃ recover, ∀ debug,
    main debug recover (fun _ => 0) (fun _ => .noFile) (oneFile (spaced unknownName.print)) ["l24", "a.l24"] =
      { exit := .status 1 } := by
  obtain ⟨entry, recover, ha, hr⟩ := exists_parses
  refine ⟨recover, fun debug => ?_⟩
  have h : main debug recover (fun _ => 0) (fun _ => .noFile) (oneFile (spaced unknownName.print)) ["l24", "a.l24"] =
      generated (fun _ => .noFile) unknownName :=
    main_text ha hr unknownName_printable (written_spaced _) (oneFile_text _)
  have hexit : (generated (fun _ => .noFile) unknownName).exit = .status 1 := by decide +kernel
  rw [h]
  rw [generated] at hexit ⊢
  cases hc : L24.compile unknownName with
  | ok u s =>
    rw [hc] at hexit
    cases hexit
  | error stop s =>
    rw [hc] at hexit
    exact congrArg (Process.mk none none) hexit

end

end L24.Raw
