/-!
# Arguments of the command line

Options may stand anywhere behind the command they belong to; the general ones may also stand before
it. Every option is given at most once in each of the two places.
-/

namespace ScopedFlow.Command

/-- What an option takes. A path is not empty. -/
inductive Taken where
  | nothing
  | text
  | path
  deriving DecidableEq, Repr

structure Flag where
  name : String
  short : Option Char
  taken : Taken
  deriving DecidableEq, Repr

def generalOptions : List Flag :=
  [⟨"verbose", some 'v', .nothing⟩, ⟨"json", none, .nothing⟩, ⟨"config", some 'c', .path⟩,
    ⟨"help", some 'h', .nothing⟩]

def versionOption : Flag := ⟨"version", some 'V', .nothing⟩

inductive Stop where
  | wrong
  | help
  | version
  deriving DecidableEq, Repr

/-- The options given so far with their values, and the other words. -/
structure Scan where
  given : List (String × String)
  words : List String
  deriving DecidableEq, Repr

namespace Scan

def empty : Scan := ⟨[], []⟩

def value? (s : Scan) (name : String) : Option String :=
  (s.given.find? fun g => g.1 = name).map (·.2)

def has (s : Scan) (name : String) : Bool := (s.value? name).isSome

def add (s : Scan) (o : Flag) (value : String) : Except Stop Scan :=
  if o.name = "help" then .error .help
  else if o.name = "version" then .error .version
  else if s.has o.name || (o.taken = .path && value = "") then .error .wrong
  else .ok { s with given := s.given ++ [(o.name, value)] }

def addWord (s : Scan) (limit : Nat) (word : String) : Except Stop Scan :=
  if s.words.length < limit then .ok { s with words := s.words ++ [word] } else .error .wrong

end Scan

/-- Words that can be the value of an option before them. -/
def isValue (word : String) : Bool := word = "-" || word.toList.head? ≠ some '-'

/-- Reads short options written together. Returns an option that still needs its value. -/
def cluster (options : List Flag) : List Char → Scan → Except Stop (Scan × Option Flag)
  | [], s => .ok (s, none)
  | c :: more, s =>
    match options.find? fun o => o.short = some c with
    | none => .error .wrong
    | some o =>
      if o.taken = .nothing then (s.add o "").bind (cluster options more)
      else
        match more with
        | [] => .ok (s, some o)
        | '=' :: value => (s.add o (String.ofList value)).map (·, none)
        | value => (s.add o (String.ofList value)).map (·, none)

def longOption (options : List Flag) (body : List Char) (s : Scan) :
    Except Stop (Scan × Option Flag) :=
  let name := body.takeWhile (· != '=')
  match options.find? fun o => o.name = String.ofList name, body.drop name.length with
  | none, _ => .error .wrong
  | some o, [] => if o.taken = .nothing then (s.add o "").map (·, none) else .ok (s, some o)
  | some o, _ :: value =>
    if o.taken = .nothing then .error .wrong else (s.add o (String.ofList value)).map (·, none)

/-- Reads the options of a command and at most `limit` other words. -/
def scan (options : List Flag) (limit : Nat) : List String → Scan → Except Stop Scan
  | [], s => .ok s
  | arg :: rest, s =>
    match arg.toList with
    | ['-', '-'] => rest.foldlM (fun s w => s.addWord limit w) s
    | '-' :: c :: more => do
      let (s, pending) ←
        if c = '-' then longOption options more s else cluster options (c :: more) s
      match pending, rest with
      | none, rest => scan options limit rest s
      | some _, [] => .error .wrong
      | some o, value :: rest =>
        if isValue value then scan options limit rest (← s.add o value) else .error .wrong
    | _ => do scan options limit rest (← s.addWord limit arg)

/-- Reads the options before the command. Returns the words from the command on. -/
def scanFront (options : List Flag) : List String → Scan → Except Stop (Scan × List String)
  | [], s => .ok (s, [])
  | arg :: rest, s =>
    match arg.toList with
    | ['-', '-'] => .error .wrong
    | '-' :: c :: more => do
      let (s, pending) ←
        if c = '-' then longOption options more s else cluster options (c :: more) s
      match pending, rest with
      | none, rest => scanFront options rest s
      | some _, [] => .error .wrong
      | some o, value :: rest =>
        if isValue value then scanFront options rest (← s.add o value) else .error .wrong
    | _ => .ok (s, arg :: rest)

inductive Request where
  | parse (source : String) (output : Option String)
  | synth (graph world node : Option String)
  | inject (snippet : String) (graph : Option String) (world : String)
  | run (graph : Option String)
  | stats (graph : Option String)
  | init (force : Bool)
  deriving DecidableEq, Repr

structure Invocation where
  json : Bool
  config : Option String
  request : Request
  deriving DecidableEq, Repr

def graphOption : Flag := ⟨"graph", some 'g', .path⟩

def form? (command : String) : Option (List Flag × Nat) :=
  match command with
  | "parse" => some ([⟨"output", some 'o', .path⟩], 1)
  | "synth" => some ([graphOption, ⟨"world", none, .text⟩, ⟨"node", none, .text⟩], 0)
  | "inject" => some ([graphOption, ⟨"world", none, .text⟩], 1)
  | "run" | "stats" => some ([graphOption], 0)
  | "init" => some ([⟨"force", none, .nothing⟩], 0)
  | _ => none

/-- The request of a command; a file to read is named and not empty. -/
def request? (command : String) (s : Scan) : Option Request :=
  match command, s.words with
  | "parse", [source] => if source = "" then none else some (.parse source (s.value? "output"))
  | "synth", [] =>
    if s.has "world" && s.has "node" then none
    else some (.synth (s.value? "graph") (s.value? "world") (s.value? "node"))
  | "inject", [snippet] =>
    if snippet = "" then none
    else some (.inject snippet (s.value? "graph") ((s.value? "world").getD "root"))
  | "run", [] => some (.run (s.value? "graph"))
  | "stats", [] => some (.stats (s.value? "graph"))
  | "init", [] => some (.init (s.has "force"))
  | _, _ => none

/-- Reads the arguments of the program. A general option behind the command wins over the same one
before it. -/
def Invocation.ofArguments (args : List String) : Except Stop Invocation := do
  let (front, rest) ← scanFront (versionOption :: generalOptions) args .empty
  match rest with
  | [] => .error .wrong
  | "help" :: topics =>
    match topics with
    | [] => .error .help
    | [topic] =>
      if topic = "help" || (form? topic).isSome then .error .help else .error .wrong
    | _ => .error .wrong
  | command :: rest =>
    match form? command with
    | none => .error .wrong
    | some (options, limit) =>
      let s ← scan (options ++ generalOptions) limit rest .empty
      match request? command s with
      | none => .error .wrong
      | some request =>
        return ⟨front.has "json" || s.has "json", (s.value? "config").or (front.value? "config"),
          request⟩

end ScopedFlow.Command
