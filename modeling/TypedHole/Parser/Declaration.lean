import TypedHole.Module
import TypedHole.Parser.Type

/-! Patterns, expressions and declarations as they are written.
A token in the first column begins a new declaration and ends whatever could have gone on. -/
namespace TypedHole
namespace Parser

def patternWithin : Nat → Parser Pat
  | 0 => stop .exhausted
  | n + 1 => do
    let start ← offset
    let t ← take
    if t.isIdent then do
      let span ← spanFrom start
      if isHoleName t.text then pure (.wildcard span)
      else if Name.isCapitalized t.text then pure (.ctor t.text [] span)
      else pure (.var t.text span)
    else if t.isSymbol "(" then do
      let head ← peek
      if head.isIdent && Name.isCapitalized head.text then do
        let ctor ← capitalizedName
        let args ← measured (itemsUntil ")" (patternWithin n))
        let span ← spanFrom start
        pure (.ctor ctor args span)
      else do
        let p ← patternWithin n
        symbol ")"
        pure p
    else refuse .pattern t

def pattern : Parser Pat := measured patternWithin

/-- The symbols that never stand between two operands. -/
def reservedSymbols : List String := ["=","|","->","→",":",",","(",")","\x7b","\x7d","\\","λ"]

def isOperator (t : Token) : Bool := t.kind == .symbol && !reservedSymbols.contains t.text

def startsAtom (t : Token) : Bool := t.isIdent || t.isNumber || t.isSymbol "("

def atom (inner : Parser Expr) : Parser Expr := do
  let start ← offset
  let t ← take
  if t.isIdent then do
    let span ← spanFrom start
    pure (if isHoleName t.text then .hole t.text span else .var t.text span)
  else if t.isNumber then do
    let span ← spanFrom start
    pure (.number t.text span)
  else if t.isSymbol "(" then do
    let e ← inner
    if ← symbol? ":" then do
      let ty ← type
      symbol ")"
      let span ← spanFrom start
      pure (.ann e ty span)
    else do
      symbol ")"
      pure e
  else refuse .expression t

def application (inner : Parser Expr) : Parser Expr := do
  let start ← offset
  let fn ← atom inner
  measured fun n => extendWhile startsAtom (fun fn => do
    let arg ← atom inner
    let span ← spanFrom start
    pure (.app fn arg span)) n fn

/-- Operands with operators between them; all operators bind alike and group to the left. -/
def operation (inner : Parser Expr) : Parser Expr := do
  let start ← offset
  let lhs ← application inner
  measured fun n => extendWhile isOperator (fun lhs => do
    let op ← take
    let rhs ← application inner
    let span ← spanFrom start
    pure (.binary op.text lhs rhs span)) n lhs

/-- The part of a lambda after its sign, which is at `start`. -/
def lambda (inner : Parser Expr) (start : Nat) : Parser Expr := do
  let x ← identifier
  let xs ← names
  arrow
  let body ← inner
  let span ← spanFrom start
  pure (.lam (x :: xs) body span)

def expressionWithin : Nat → Parser Expr
  | 0 => stop .exhausted
  | n + 1 => do
    let start ← offset
    match ← peek? with
    | some t =>
      if t.isLambda then do
        let _ ← take
        lambda (expressionWithin n) start
      else operation (expressionWithin n)
    | none => operation (expressionWithin n)

def expression : Parser Expr := measured expressionWithin

def constructor : Parser Constructor := do
  let name ← capitalizedName
  let fields ← measured fun n => extendWhile startsTypeAtom (fun fields => do
    let field ← typeAtom type
    pure (fields ++ [field])) n []
  pure ⟨name,fields⟩

def datatype : Parser Datatype := do
  let name ← capitalizedName
  let params ← names
  if ← symbol? "=" then do
    let ctors ← measured (itemsBetween "|" constructor)
    pure ⟨name,params,ctors⟩
  else pure ⟨name,params,[]⟩

def method : Parser (Name × Ty) := do
  let name ← identifier
  symbol ":"
  let ty ← type
  pure (name,ty)

def classDecl : Parser ClassDecl := do
  let name ← capitalizedName
  let param ← identifier
  symbol "\x7b"
  if ← symbol? "\x7d" then pure ⟨name,param,[]⟩
  else do
    let methods ← measured (itemsBetween "," method)
    symbol "\x7d"
    pure ⟨name,param,methods⟩

def instanceDecl : Parser InstanceDecl := do
  let cls ← capitalizedName
  let ty ← typeAtom type
  pure ⟨cls,ty⟩

/-- A signature or an equation, after its name at `start`. -/
def definition (name : Name) (start : Nat) : Parser Decl := do
  if ← symbol? ":" then do
    let ty ← type
    pure (.signature name ty)
  else do
    let pats ← measured (itemsUntil "=" pattern)
    let rhs ← expression
    let span ← spanFrom start
    pure (.equation ⟨name,pats,rhs,span⟩)

def declaration : Parser Decl := do
  let start ← offset
  let t ← take
  match t.kind, t.text with
  | .keyword, "data" => do pure (.datatype (← datatype))
  | .keyword, "type" => do pure (.primitive (← capitalizedName))
  | .keyword, "class" => do pure (.cls (← classDecl))
  | .keyword, "instance" => do pure (.inst (← instanceDecl))
  | .keyword, "extension" => do
    let name ← identifier
    let span ← spanFrom start
    pure (.extension name span)
  | .ident, name => definition name start
  | _, _ => refuse .declaration t

def isComplete : Parser Bool := fun r i => .ok (i.tokens.isEmpty && r.ending == .complete,i)

def declarations : Nat → Parser (List Decl)
  | 0 => stop .exhausted
  | n + 1 => do
    if ← isComplete then pure []
    else do
      let d ← declaration
      let ds ← declarations n
      pure (d :: ds)

def wholeModule : Parser Module := do
  let decls ← measured declarations
  pure ⟨decls⟩

end Parser
end TypedHole
