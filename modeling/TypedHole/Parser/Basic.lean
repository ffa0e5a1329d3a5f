import TypedHole.Token

/-! Parsers of token lists.
A parser takes tokens from the front of what is left. The scanner's verdict on the end of the text
counts only when a parser gets there. -/
namespace TypedHole

inductive Expectation
  | identifier | symbol (text : String) | arrow | capitalizedName | typeAtom | pattern | expression
  | declaration | nothing
  deriving DecidableEq

def Expectation.message : Expectation → String
  | identifier => "expected identifier"
  | symbol s => s!"expected symbol '{s}'"
  | arrow => "expected '->'"
  | capitalizedName => "expected a capitalized name"
  | typeAtom => "expected a primary type expression"
  | pattern => "expected a pattern"
  | expression => "expected an expression"
  | declaration => "expected a declaration"
  | nothing => "expected EOF but tokens remain"

inductive ParseError
  | unknownCharacter (place : Span)
  | unexpected (wanted : Expectation) (found : Span)
  | endOfInput
  deriving DecidableEq

namespace ParseError

def unknownCharacterMessage (s : Source) (place : Span) : String :=
  s!"unrecognizable character at {s.excerpt place}"

def messages (s : Source) : ParseError → List String
  | unknownCharacter p => ["tokenize error",unknownCharacterMessage s p]
  | unexpected w p => [s!"parse error: {w.message} at {s.excerpt p}"]
  | endOfInput => [s!"unexpected end of input at {s.excerpt s.lastByte}"]

end ParseError

inductive Stop
  | error (e : ParseError)
  /-- The end of input is to be reported, but the text ends in a character of several bytes and its
  last byte is no place in the text. No other parser is tried after this. -/
  | noEnd
  /-- More rounds than there are tokens; no parser gets here. -/
  | exhausted
  deriving DecidableEq

/-- The tokens that are left, and the end of the last token taken. -/
structure Input where
  tokens : List Token
  lastStop : Nat

structure Reading where
  source : Source
  ending : Ending

/-- What happens to a parser that needs a token where none is left. -/
def Reading.noToken (r : Reading) : Stop :=
  match r.ending with
  | .unknown p => .error (.unknownCharacter p)
  | .complete => if r.source.hasEnd then .error .endOfInput else .noEnd

def Parser (α : Type) : Type := Reading → Input → Except Stop (α × Input)

namespace Parser

variable {α β : Type}

instance : Monad Parser where
  pure a := fun _ i => .ok (a,i)
  bind p f := fun r i => match p r i with
    | .ok (a,i') => f a r i'
    | .error e => .error e

def stop (e : Stop) : Parser α := fun _ _ => .error e

def refuse (wanted : Expectation) (t : Token) : Parser α := fun r _ =>
  .error (.error (.unexpected wanted (r.source.span t.start t.stop)))

def peek : Parser Token := fun r i =>
  match i.tokens with
  | t :: _ => .ok (t,i)
  | [] => .error (r.noToken)

def peek? : Parser (Option Token) := fun r i =>
  match i.tokens, r.noToken with
  | t :: _, _ => .ok (some t,i)
  | [], .error _ => .ok (none,i)
  | [], e => .error e

def take : Parser Token := fun r i =>
  match i.tokens with
  | t :: ts => .ok (t,⟨ts,t.stop⟩)
  | [] => .error (r.noToken)

/-- The next token of the same declaration. -/
def peekInside? : Parser (Option Token) := do
  let t ← peek?
  pure (t.filter fun t => !t.atLineStart)

def offset : Parser Nat := fun _ i => .ok ((i.tokens.head?.map (·.start)).getD i.lastStop,i)

/-- The span from an offset to the end of the last token taken. -/
def spanFrom (start : Nat) : Parser Span := fun r i => .ok (r.source.spanSince start i.lastStop,i)

def symbol? (text : String) : Parser Bool := do
  match ← peek? with
  | some t => if t.isSymbol text then do let _ ← take; pure true else pure false
  | none => pure false

def symbol (text : String) : Parser Unit := do
  let t ← take
  if t.isSymbol text then pure () else refuse (.symbol text) t

def arrow? : Parser Bool := do
  match ← peekInside? with
  | some t => if t.isArrow then do let _ ← take; pure true else pure false
  | none => pure false

def arrow : Parser Unit := do
  let t ← take
  if t.isArrow then pure () else refuse .arrow t

def identifier : Parser String := do
  let t ← take
  if t.isIdent then pure t.text else refuse .identifier t

/-- Runs a parser with one more round than there are tokens. -/
def measured (p : Nat → Parser α) : Parser α := fun r i => p (i.tokens.length + 1) r i

def extendWhile (test : Token → Bool) (step : α → Parser α) : Nat → α → Parser α
  | 0, _ => stop .exhausted
  | n + 1, a => do
    match ← peekInside? with
    | some t => if test t then do let b ← step a; extendWhile test step n b else pure a
    | none => pure a

def itemsUntil (close : String) (item : Parser α) : Nat → Parser (List α)
  | 0 => stop .exhausted
  | n + 1 => do
    if ← symbol? close then pure []
    else do
      let a ← item
      let as ← itemsUntil close item n
      pure (a :: as)

def itemsBetween (between : String) (item : Parser α) : Nat → Parser (List α)
  | 0 => stop .exhausted
  | n + 1 => do
    let a ← item
    if ← symbol? between then do
      let as ← itemsBetween between item n
      pure (a :: as)
    else pure [a]

def names : Parser (List String) := measured fun n => extendWhile Token.isIdent (fun xs => do
  let x ← identifier
  pure (xs ++ [x])) n []

def finish : Parser Unit := do
  match ← peek? with
  | some t => refuse .nothing t
  | none => pure ()

def runOn (p : Parser α) (s : Source) : Except Stop (α × Input) :=
  p ⟨s,s.tokens.2⟩ ⟨s.tokens.1,0⟩

end Parser
end TypedHole
