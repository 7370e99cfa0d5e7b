
namespace SpimCompiler

inductive Json where
  | null
  | bool (b : Bool)
  | int (n : Int)
  | real (spelling : String)
  | str (s : String)
  | arr (items : List Json)
  | obj (members : List (String × Json))

/-- Why a text is not what was to be read: it ends too early, it is not JSON at some point, or it
is JSON for something else. -/
inductive ReadError where
  | truncated
  | malformed
  | unexpected
deriving DecidableEq, Repr

namespace Json

def isBlank (c : Char) : Bool := c == ' ' || c == '\n' || c == '\t' || c == '\r'

def skipBlanks (cs : List Char) : List Char := cs.dropWhile isBlank

def isDigit (c : Char) : Bool := '0' ≤ c && c ≤ '9'

def digitValue (c : Char) : Nat := c.toNat - '0'.toNat

end Json

end SpimCompiler
