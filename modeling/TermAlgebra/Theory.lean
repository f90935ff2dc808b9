import TermAlgebra.Constant

/-!
# Theory sorts and symbols

The sorts of literals and the standard symbols on them. All symbols but the negation are written
between their two arguments.
-/

namespace TermAlgebra.Theory

def intSort : SimpleType := .base "Int"

def boolSort : SimpleType := .base "Bool"

def stringSort : SimpleType := .base "String"

inductive Symbol where
  | or | and | not
  | equal | distinct | less | lessEq | greater | greaterEq
  | plus | minus | times | div | modulo

namespace Symbol

def name : Symbol → String
  | or => "∨"
  | and => "∧"
  | not => "¬"
  | equal => "="
  | distinct => "≠"
  | less => "<"
  | lessEq => "≤"
  | greater => ">"
  | greaterEq => "≥"
  | plus => "+"
  | minus => "-"
  | times => "*"
  | div => "/"
  | modulo => "%"

def precedence : Symbol → Option UInt8
  | not => none
  | or => some 10
  | and => some 20
  | equal | distinct | less | lessEq | greater | greaterEq => some 30
  | plus | minus => some 40
  | times | div | modulo => some 50

def ty : Symbol → SimpleType
  | not => .arrow boolSort boolSort
  | or | and => .arrows [boolSort, boolSort] boolSort
  | equal | distinct | less | lessEq | greater | greaterEq => .arrows [intSort, intSort] boolSort
  | plus | minus | times | div | modulo => .arrows [intSort, intSort] intSort

def constant (s : Symbol) : Constant := ⟨s.name, s.ty, true, s.precedence⟩

end Symbol

end TermAlgebra.Theory
