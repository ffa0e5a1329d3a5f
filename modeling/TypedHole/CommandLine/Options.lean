import TypedHole.CommandLine.Quoted
import TypedHole.Command
import TypedHole.Config

/-! The options of the command line.
An option may stand anywhere; its value is the argument after it. Options are taken out of the list
one kind after the other, and the first argument that is left then is the file. -/
namespace TypedHole
namespace CommandLine

/-- Messages from the outermost to the innermost cause. -/
abbrev Failure : Type := List String

/-- A decimal number below 2^64, which may have a plus sign. -/
def readNumber (text : String) : Except String Nat :=
  match text.toList with
  | [] => .error "cannot parse integer from empty string"
  | '+' :: c :: cs => digits (c :: cs) 0
  | cs => digits cs 0
where
  digits : List Char → Nat → Except String Nat
    | [], n => .ok n
    | c :: cs, n =>
      if ¬ c.isDigit then .error "invalid digit found in string"
      else
        let m := 10 * n + (c.toNat - '0'.toNat)
        if m < 2 ^ 64 then digits cs m else .error "number too large to fit in target type"

def readCommand (text : String) : Except String Command :=
  match Command.ofText? text with
  | some c => .ok c
  | none => .error (Command.unknownMessage text)

def readExtension (text : String) : Except String Extension :=
  match Extension.ofName? text with
  | some e => .ok e
  | none => .error (Extension.unknownMessage text)

def findKey (keys args : List String) : Option (String × Nat) :=
  keys.findSome? fun k => (args.findIdx? (· == k)).map (k,·)

def takeFlag (keys args : List String) : Bool × List String :=
  match findKey keys args with
  | some (_,i) => (true,args.eraseIdx i)
  | none => (false,args)

def takeOption {α : Type} (keys : List String) (read : String → Except String α)
    (args : List String) : Except Failure (Option α × List String) :=
  match findKey keys args with
  | none => .ok (none,args)
  | some (k,i) =>
    match args[i + 1]? with
    | none => .error [s!"the '{k}' option doesn't have an associated value"]
    | some v =>
      match read v with
      | .ok a => .ok (some a,(args.eraseIdx i).eraseIdx i)
      | .error why => .error [s!"failed to parse '{v}': {why}"]

/-- Takes an option out of the arguments as often as it occurs, at most `n` times. -/
def takeOptions {α : Type} (keys : List String) (read : String → Except String α) :
    Nat → List String → Except Failure (List α × List String)
  | 0, args => .ok ([],args)
  | n + 1, args => do
    match ← takeOption keys read args with
    | (none,args) => pure ([],args)
    | (some a,args) =>
      let (as,args) ← takeOptions keys read n args
      pure (a :: as,args)

structure Job where
  command : Option Command
  binding : Option Name
  hole : Nat
  config : Config
  path : String

inductive Request
  | help
  | version
  | job (j : Job)

/-- Reads the arguments. Help comes before the version, and both before anything that is wrong. -/
def Request.ofArguments (args : List String) : Except Failure Request := do
  let (asksHelp,args) := takeFlag ["-h","--help"] args
  if asksHelp then return .help
  let (asksVersion,args) := takeFlag ["-v","--version"] args
  if asksVersion then return .version
  let (command,args) ← takeOption ["-t","--tactic"] readCommand args
  let (binding,args) ← takeOption ["-b","--binding"] .ok args
  let (hole,args) ← takeOption ["-n","--hole"] readNumber args
  let (timeout,args) ← takeOption ["--timeout"] readNumber args
  let (extensions,args) ← takeOptions ["-x","--extension"] readExtension args.length args
  let base : Config := {}
  let config : Config :=
    { base with timeout := timeout.getD base.timeout
                extensions := extensions.foldl .enable base.extensions }
  match args with
  | [] => throw ["missing FILE argument, see --help","free-standing argument is missing"]
  | [path] => return .job ⟨command,binding,hole.getD 0,config,path⟩
  | _ :: rest => throw [s!"unexpected arguments: {quoteList rest}"]

end CommandLine
end TypedHole
