import ScopedFlow.Host.Error
import ScopedFlow.Table

/-!
# A tree of text files
-/

namespace ScopedFlow

namespace Path

def pieces : List Char → List (List Char)
  | [] => [[]]
  | c :: rest =>
    match pieces rest with
    | [] => [[c]]
    | p :: ps => if c = '/' then [] :: p :: ps else (c :: p) :: ps

/-- One more piece of a path; the last part stands first. -/
def step (parts : List String) (piece : List Char) : List String :=
  if piece = [] || piece = ['.'] then parts
  else if piece = ['.', '.'] then parts.drop 1
  else String.ofList piece :: parts

def parts (path : String) : List String := ((pieces path.toList).foldl step []).reverse

/-- Whether the form of a path asks for a directory. -/
def wantsDirectory (path : String) : Bool :=
  let last := ((pieces path.toList).getLast?).getD []
  last = [] || last = ['.'] || last = ['.', '.']

/-- The path without its last piece; empty if it has one piece only. -/
def parent (path : String) : String :=
  let trimEnd (cs : List Char) : List Char := (cs.reverse.dropWhile (· == '/')).reverse
  let body := trimEnd path.toList
  let upper := (body.reverse.dropWhile (· != '/')).reverse
  let kept := trimEnd upper
  if kept.isEmpty && !upper.isEmpty then "/" else String.ofList kept

end Path

/-- A text, or no text for a directory, under the names that lead to it. -/
structure Files where
  entries : Table (List String) (Option String)

namespace Files

def empty : Files := ⟨.empty⟩

def entry? (f : Files) (parts : List String) : Option (Option String) :=
  if parts.isEmpty then some none else f.entries.get? parts

/-- Whether a file stands where the way to a place needs a directory. -/
def isBlocked (f : Files) (parts : List String) : Bool :=
  (List.range parts.length).any fun n =>
    match f.entry? (parts.take n) with
    | some (some _) => true
    | _ => false

def read (f : Files) (path : String) : Except HostError String :=
  let parts := Path.parts path
  if path = "" then .error .notFound
  else if f.isBlocked parts then .error .notDirectory
  else
    match f.entry? parts with
    | none => .error .notFound
    | some none => .error .isDirectory
    | some (some text) => if Path.wantsDirectory path then .error .notDirectory else .ok text

def has (f : Files) (path : String) : Bool :=
  let parts := Path.parts path
  path ≠ "" && !f.isBlocked parts &&
    match f.entry? parts with
    | none => false
    | some none => true
    | some (some _) => !Path.wantsDirectory path

def write (f : Files) (path text : String) : Except HostError Files :=
  let parts := Path.parts path
  if path = "" then .error .notFound
  else if f.isBlocked parts then .error .notDirectory
  else
    match f.entry? parts with
    | some none => .error .isDirectory
    | some (some _) =>
      if Path.wantsDirectory path then .error .notDirectory
      else .ok ⟨f.entries.insert parts (some text)⟩
    | none =>
      if Path.wantsDirectory path then .error .isDirectory
      else
        match f.entry? parts.dropLast with
        | some _ => .ok ⟨f.entries.insert parts (some text)⟩
        | none => .error .notFound

def makeDirectory (f : Files) (path : String) : Except HostError Files :=
  let parts := Path.parts path
  if f.isBlocked parts then .error .notDirectory
  else
    match f.entry? parts with
    | some (some _) => .error .alreadyThere
    | _ =>
      .ok ⟨(List.range parts.length).foldl (fun t n =>
        let upper := parts.take (n + 1)
        if t.contains upper then t else t.insert upper none) f.entries⟩

end Files

end ScopedFlow
