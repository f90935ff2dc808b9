import TermAlgebra.Text.Quoted
import TermAlgebra.Theory

/-!
# Literals

Values of the theory sorts, leaves of terms without further structure.
-/

namespace TermAlgebra

inductive Literal where
  | int (n : Int64)
  | bool (b : Bool)
  | string (s : String)
deriving DecidableEq

namespace Literal

def sort : Literal → SimpleType
  | int _ => Theory.intSort
  | bool _ => Theory.boolSort
  | string _ => Theory.stringSort

def text : Literal → String
  | int n => toString n.toInt
  | bool b => if b then "true" else "false"
  | string s => Text.quoted s

instance : ToString Literal := ⟨text⟩

end Literal

end TermAlgebra
