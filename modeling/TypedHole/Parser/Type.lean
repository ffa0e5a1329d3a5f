import TypedHole.Parser.Basic
import TypedHole.Ty

/-! Types as they are written: applications associate to the left, arrows to the right. -/
namespace TypedHole
namespace Parser

def capitalizedName : Parser Name := do
  let t ← take
  if !t.isIdent then refuse .identifier t
  else if Name.isCapitalized t.text then pure t.text
  else refuse .capitalizedName t

def namedType (x : Name) : Ty := if Name.isCapitalized x then .const x else .var x

def startsTypeAtom (t : Token) : Bool := t.isIdent || t.isSymbol "("

def typeAtom (inner : Parser Ty) : Parser Ty := do
  let t ← take
  if t.isIdent then pure (namedType t.text)
  else if t.isSymbol "(" then do
    let ty ← inner
    symbol ")"
    pure ty
  else refuse .typeAtom t

def typeApplication (inner : Parser Ty) : Parser Ty := do
  let fn ← typeAtom inner
  measured fun n => extendWhile startsTypeAtom (fun fn => do
    let arg ← typeAtom inner
    pure (.app fn arg)) n fn

/-- A type that nests no deeper than `n`. -/
def typeWithin : Nat → Parser Ty
  | 0 => stop .exhausted
  | n + 1 => do
    let dom ← typeApplication (typeWithin n)
    if ← arrow? then do
      let cod ← typeWithin n
      pure (.arrow dom cod)
    else pure dom

def type : Parser Ty := measured typeWithin

end Parser
end TypedHole
