/-!
# What goes wrong outside of the library
-/

namespace ScopedFlow

inductive HostError where
  | notFound
  | alreadyThere
  | notDirectory
  | isDirectory
  | other (text : String)
  deriving DecidableEq, Repr

def HostError.message : HostError → String
  | .notFound => "No such file or directory (os error 2)"
  | .alreadyThere => "File exists (os error 17)"
  | .notDirectory => "Not a directory (os error 20)"
  | .isDirectory => "Is a directory (os error 21)"
  | .other text => text

end ScopedFlow
