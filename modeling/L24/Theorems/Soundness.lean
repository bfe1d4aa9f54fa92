import L24.Ir.Soundness
import L24.Theorems.TypedModule

/-! Well-typed programs at run time: what such a program can stop at, what its addresses refer to, and what the array
    parameters of its functions are. -/

namespace L24
open Ir Relation

section Runs
variable {W : Type} {ext : Ext W} {prog : EntryNode} {fin : State} {name : String} {args : List Val} {mem : Mem}
    {w w' : W}
  {c d : Config W} {fr : Frame} {outer : List Frame}

variable [ConstantFolder]

end Runs

section
attribute [local instance] ConstantFolder.symbolic

end

end L24
