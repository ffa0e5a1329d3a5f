import TypedHole.Action
import TypedHole.CommandLine.Options
import TypedHole.Program.Load
import TypedHole.Program.Resolve
import TypedHole.Run

/-! What the command line answers: the actions at every hole of a file, or the result of a command at
one of them. -/
namespace TypedHole
namespace CommandLine

def help : String := String.join [
  "Usage: holefill [OPTIONS] FILE\n",
  "\n",
  "Lists the tactic actions available at every hole of FILE, or runs one.\n",
  "\n",
  "Options:\n",
  "  -t, --tactic NAME      run NAME (e.g. auto, destruct, homomorphism-lambda-case)\n",
  "  -b, --binding NAME     the binding a destruct or homomorphism works on\n",
  "  -n, --hole N           the hole to work on, counted from 0 [default: 0]\n",
  "      --timeout MS       search budget in milliseconds [default: 200]\n",
  "  -x, --extension NAME   enable a language extension (e.g. LambdaCase)\n",
  "  -h, --help             print this help\n",
  "  -v, --version          print the version\n"]

def version : String := "holefill 0.1.0\n"

/-- Writes a message with its later lines moved in. -/
def indented (first later message : String) : String :=
  first ++ String.join (message.toList.map fun c => if c = '\n' then "\n" ++ later else c.toString)

/-- A failure with its causes, which are numbered if there are several. -/
def failureText : Failure → String
  | [] => "Error: \n"
  | [m] => s!"Error: {m}\n"
  | [m,cause] => s!"Error: {m}\n\nCaused by:\n" ++ indented "    " "    " cause ++ "\n"
  | m :: causes =>
    let numbered := causes.mapIdx fun i cause =>
      indented (String.ofList (List.replicate (5 - (toString i).length) ' ') ++ s!"{i}: ") "       "
        cause ++ "\n"
    s!"Error: {m}\n\nCaused by:\n" ++ String.join numbered

def holeLines (s : Source) (cfg : Config) (p : Program) (index : Nat) (h : HoleSite) : String :=
  let place := s.position h.span.start
  let start := s!"hole #{index} at {place.line}:{place.column}: "
  match p.resolve s index with
  | .ok r =>
    let lines := (actions cfg r.context r.judgement r.span).map fun a =>
      s!"  {a.command.id}: {a.title}\n"
    start ++ r.judgement.goal.text ++ "\n" ++ String.join lines
  | .error e => start ++ e.message ++ "\n"

def listing (s : Source) (cfg : Config) (p : Program) : String :=
  String.join (p.holes.mapIdx fun i h => holeLines s cfg p i h)

def resultText (r : RunResult) : String :=
  s!"{r.extract.text}\n-- {r.others.length} other solutions\n" ++
    String.join (r.others.map fun t => s!"-- {t.text}\n")

def perform (s : Source) (cfg : Config) (p : Program) (job : Job) (c : Command) :
    Except Failure String := do
  if c.takesBinding && job.binding.isNone then throw [s!"{c.name} needs --binding NAME"]
  match p.resolve s job.hole with
  | .error e => throw [e.message]
  | .ok r =>
    match c.invoke cfg r.context r.judgement job.binding with
    | .error e => throw [s!"{c.name} failed at hole #{job.hole}",e.message]
    | .ok result => return resultText result

def Job.answer (job : Job) (text : String) : Reply Failure String :=
  let s : Source := ⟨0,job.path,text⟩
  match Program.load s with
  | .brokenOff => .brokenOff
  | .error e => .error (e.messages s)
  | .ok p =>
    let cfg := p.configure job.config
    match job.command with
    | none => .ok (listing s cfg p)
    | some c =>
      match perform s cfg p job c with
      | .ok out => .ok out
      | .error ms => .error ms

def Job.respond (job : Job) : Except String String → Reply Failure String
  | .ok text => job.answer text
  | .error why => .error [s!"failed to read `{job.path}`",why]

/-- The answer to the arguments, given the contents of files. -/
def respond (args : List String) (read : String → Except String String) : Reply Failure String :=
  match Request.ofArguments args with
  | .error ms => .error ms
  | .ok .help => .ok help
  | .ok .version => .ok version
  | .ok (.job j) => j.respond (read j.path)

end CommandLine
end TypedHole
