import TermAlgebra.SimpleType

/-!
# Constants

Function symbols. The theory mark and the precedence are for printing and for users of the
algebra; two constants of one name and type are the same symbol.
-/

namespace TermAlgebra

structure Constant where
  name : String
  ty : SimpleType
  /-- The symbol is interpreted by a theory. -/
  interpreted : Bool := false
  /-- How tightly the symbol binds when it is written between two arguments. -/
  precedence : Option UInt8 := none
deriving DecidableEq

namespace Constant

def same (c d : Constant) : Bool := c.name == d.name && c.ty == d.ty

end Constant

end TermAlgebra
