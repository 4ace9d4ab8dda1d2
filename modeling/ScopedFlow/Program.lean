import ScopedFlow.Build
import ScopedFlow.Link
import ScopedFlow.Source.Module

/-!
# From the text of a module to its graph
-/

namespace ScopedFlow

namespace Graph

def ofSource (supply : Supply) (text : String) : Except Diagnostic (Graph × Supply) :=
  match Source.parse text with
  | .ok stmts => .ok (build supply stmts)
  | .error d => .error d

def ofSourceLinked (supply : Supply) (text : String) : Except Diagnostic (Graph × Supply) :=
  match ofSource supply text with
  | .ok (g, supply) => .ok (g.link.1, supply)
  | .error d => .error d

end Graph

end ScopedFlow
