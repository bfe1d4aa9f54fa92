import L24.Theorems.Stmt
import L24.Flow

/-! The kinds of the values that expressions have, and of the variables that declarations make: what there is of
    types in the language, which neither the nodes nor the scope tables record. -/

namespace L24
open Ir

/-- What is known of a value or a variable without running the program. -/
inductive Kind
  | int
  | bool
  | pointer
  | array
  | void
  | noBits
  deriving DecidableEq, Repr

/-- The kind of a type. -/
def kindOf : Ty → Kind
  | .i64 => .int
  | .i1 => .bool
  | .ptr => .pointer
  | .array _ _ => .array
  | .void => .void
  | .i0 => .noBits

/-- The variables in scope, innermost scope and latest first, the global variables, and the functions, with their
    results and parameters. -/
structure Kinds where
  locals : List (List (String × Kind))
  globals : List GlobalVariable
  functions : List (String × Kind × List Kind)
  /-- `LastUnique` of the module's symbol table. -/
  lastUnique : Nat

namespace Kinds

/-- A new innermost scope. -/
def push (k : Kinds) : Kinds := { k with locals := [] :: k.locals }

/-- A name in the innermost scope. -/
def declare (k : Kinds) (x : String) (kind : Kind) : Kinds :=
  { k with locals := match k.locals with
      | [] => []
      | scope :: outer => ((x, kind) :: scope) :: outer }

/-- The kind of the innermost local variable of that name. -/
def local? (k : Kinds) (x : String) : Option Kind := k.locals.findSome? (List.lookup x)

/-- The global variable of that name. -/
def global? (k : Kinds) (x : String) : Option GlobalVariable := k.globals.find? (·.name == x)

/-- The kind of a read. An array gives the address of its first element, but a global one all its elements, with
    and without a subscript. -/
def read (k : Kinds) (x : String) (sub : Bool) : Option Kind :=
  match k.local? x with
  | some .array => some (if sub then .int else .pointer)
  | some kind => some (if sub then .int else kind)
  | none => (k.global? x).map fun g => kindOf g.valueTy

end Kinds

/-- The kind of an expression's value. -/
def Exp.kind (k : Kinds) : Exp → Option Kind
  | .number _ => some .int
  | .name x => k.read x false
  | .index x _ => k.read x true
  | .call f _ => (k.functions.lookup f).map (·.1)
  | .unary .not _ => some .int
  | .unary _ e => e.kind k
  | .arith _ a _ => a.kind k
  | .cmp _ _ _ | .land _ _ | .lor _ _ => some .int

/-! ### Declarations -/

/-- A variable with a size is an array. -/
def Def.kind (d : Def) : Kind := if d.exp.isSome then .array else .int

/-- The kind of a parameter. -/
def FParamType.kind (t : FParamType) : Kind := kindOf t.ty

/-- The kinds behind a declaration in a block. -/
def Kinds.define (k : Kinds) (ds : List Def) : Kinds := ds.foldl (fun k d => k.declare d.ident d.kind) k

/-- What an item of a block declares. -/
def BlockItemNode.declared : BlockItemNode → Kinds → Kinds
  | .decl d, k => k.define d.defs
  | .stmt _, k => k

/-- The kinds where the body of a function begins: the function itself, and its parameters. -/
def Kinds.inFunc (k : Kinds) (f : FuncNode) : Kinds :=
  let unique := uniqueName "." (k.functions.map (·.1) ++ k.globals.map (·.name)) k.lastUnique f.ident
  let self := (unique.1, kindOf f.type.retTy, f.param.map (·.type.kind))
  let params := (argNames (f.param.map (·.ident))).zip (f.param.map (·.type))
  params.foldl (fun k p => k.declare p.1 p.2.kind)
    { k with functions := k.functions ++ [self], lastUnique := unique.2 }.push

/-- The kinds of a layer of the scope tables. -/
def layerKinds (layer : Layer) : List (String × Kind) := layer.map fun b => (b.1, kindOf b.2.alloca.ty)

/-- The kinds of a function: of its result and of its parameters. -/
def FunctionObj.signature (f : FunctionObj) : String × Kind × List Kind := (f.name, kindOf f.retTy, f.params.map kindOf)

/-- The kinds in a state. -/
def State.kinds (s : State) : Kinds where
  locals := s.namedValues.map layerKinds
  globals := s.globals
  functions := s.functions.map FunctionObj.signature
  lastUnique := s.lastUnique

end L24
