import TypedHole.Parser.Declaration
import TypedHole.Program

/-! Programs read from their source. -/
namespace TypedHole

inductive LoadError
  | parse (e : ParseError)
  | program (e : ProgramError)
  deriving DecidableEq

def LoadError.messages (s : Source) : LoadError → List String
  | parse e => "parse error" :: e.messages s
  | program e => "elaboration error" :: e.messages s

/-- The result of reading something from a text. A text can be broken off: then its end was to be
reported but is no place in it. -/
inductive Reply (ε α : Type)
  | ok (a : α)
  | error (e : ε)
  | brokenOff

def Program.load (s : Source) : Reply LoadError Program :=
  match Parser.wholeModule.runOn s with
  | .error (.error e) => .error (.parse e)
  | .error .noEnd => .brokenOff
  | .error .exhausted => .brokenOff
  | .ok (m,_) =>
    match Program.ofModule m with
    | .error e => .error (.program e)
    | .ok p => .ok p

end TypedHole
