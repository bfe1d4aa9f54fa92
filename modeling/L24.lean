import L24.Lib.Steps
import L24.Lib.CallStack
import L24.Ir.Syntax
import L24.Ir.Names
import L24.Ir.Machine
import L24.Ir.Straight
import L24.Ir.Frame
import L24.Ir.Effects
import L24.Ir.Control
import L24.Ir.Private
import L24.Ir.Typing
import L24.Ir.Soundness
import L24.Ast
import L24.Lib.Munch
import L24.Lib.Readable
import L24.Frontend.Token
import L24.Frontend.Grammar
import L24.Frontend.Builder
import L24.Frontend.TopLevel
import L24.Frontend.Parse
import L24.Context
import L24.CodeGen
import L24.Frontend.Literals
import L24.Semantics
import L24.Theorems.Basic
import L24.Flow
import L24.Theorems.Emit
import L24.Theorems.Expr
import L24.Theorems.Registers
import L24.Theorems.Stmt
import L24.Calls
import L24.Forms
import L24.Theorems.Run
import L24.Theorems.Growth
import L24.Theorems.Program
import L24.Theorems.Finished
import L24.Kinds
import L24.Theorems.Kinds
import L24.Theorems.Params
import L24.Visits
import L24.Theorems.Visits
import L24.Theorems.Forms
import L24.Theorems.Jumps
import L24.Theorems.Redeclare
import L24.Theorems.Scopes
import L24.Theorems.Consts
import L24.Theorems.Initialisers
import L24.Theorems.Objects
import L24.Theorems.Namespace
import L24.Theorems.Dominance
import L24.Theorems.Returns
import L24.Frontend.Spelling
import L24.Frontend.Print
import L24.Frontend.Unambiguous
import L24.Frontend.Lexing
import L24.Frontend.Reread
import L24.Raw.Builder
import L24.Raw.CodeGen
import L24.Raw.Shape
import L24.Raw.Agree
import L24.Raw.Main
import L24.Theorems.Flow
import L24.Theorems.Reserved
import L24.Theorems.Operands
import L24.Theorems.Backs
import L24.Simulation.Logical
import L24.Simulation.Code
import L24.Simulation.Match
import L24.Simulation.Straight
import L24.Simulation.Expr
import L24.Simulation.Store
import L24.Simulation.Stmt
import L24.Simulation.Func
import L24.Simulation.Program
import L24.Simulation.Constant
import L24.Simulation.Initial
import L24.Simulation.Arrays
import L24.Simulation.Whole
import L24.Theorems.Produced
import L24.Theorems.CallOrder
import L24.Theorems.Variables
import L24.Theorems.Termination
import L24.Theorems.Ended
import L24.Theorems.Typed
import L24.Theorems.TypedCode
import L24.Theorems.TypedModule
import L24.Theorems.Soundness
import L24.Raw.Driver
