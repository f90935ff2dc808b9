/-!
# Sources

The file names on the command line. A lone hyphen stands for standard input, also with separators
and periods behind it, which do not change the place that a name denotes.
-/

namespace TermAlgebra.Program

/-- A piece of a file name that leads nowhere else. -/
def isEmptyPiece (piece : String) : Bool := piece.isEmpty || piece == "."

def isStandardInput (file : String) : Bool :=
  match file.splitOn "/" with
  | "-" :: pieces => pieces.all isEmptyPiece
  | _ => false

end TermAlgebra.Program
