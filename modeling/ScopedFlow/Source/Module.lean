import ScopedFlow.Source.Block
import ScopedFlow.Source.Diagnostic

/-!
# Whole modules
-/

namespace ScopedFlow.Source

/-- The statements of a module, or the place of the first line that cannot be read. -/
def topLevel : (fuel : Nat) → Cursor → Except Cursor (List Stmt)
  | 0, c => .error c
  | fuel + 1, c =>
    match c.lineStart 0 with
    | .blockEnd => .ok []
    | .statement _ place =>
      match statement (block fuel) ⟨0, .checked⟩ place with
      | none => .error place
      | some (stmts, next) =>
        match topLevel fuel next with
        | .ok others => .ok (stmts ++ others)
        | .error place => .error place

def shownLength : Nat := 40

/-- The text up to its first line end; a return right before that does not belong to it. -/
def firstLine (cs : List Char) : List Char :=
  let line := cs.takeWhile (· ≠ '\n')
  if line.length < cs.length && line.getLast? = some '\r' then line.dropLast else line

/-- What an error message says about the text that it is about. -/
def complaint (cs : List Char) : String :=
  let shown := Text.trimChars ((firstLine cs).take shownLength)
  if shown.isEmpty then "invalid syntax"
  else "invalid syntax near `" ++ String.ofList shown ++ "`"

def diagnosticAt (text : List Char) (place : Cursor) : Diagnostic :=
  let before := text.take place.offset
  let lineBefore := (before.reverse.takeWhile (· ≠ '\n')).reverse
  ⟨complaint place.rest, before.count '\n' + 1, (String.ofList lineBefore).utf8ByteSize + 1⟩

def parse (text : String) : Except Diagnostic (List Stmt) :=
  match topLevel (text.length + 1) (.start text) with
  | .ok stmts => .ok stmts
  | .error place => .error (diagnosticAt text.toList place)

end ScopedFlow.Source
