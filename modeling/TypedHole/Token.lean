import TypedHole.Source
import TypedHole.Alphabet.Blank
import TypedHole.Alphabet.CasedLetter
import TypedHole.Alphabet.Numeric
import TypedHole.Alphabet.Sign

/-! Tokens, and the scanner that cuts a text into them.
White space and `--` comments separate tokens. A `Cursor` is a place in a text that scanning can be
resumed from. -/
namespace TypedHole

inductive TokenKind
  | ident | symbol | number | keyword
  deriving DecidableEq

structure Token where
  kind : TokenKind
  text : String
  start : Nat
  stop : Nat
  /-- In the first column, where a new declaration begins. -/
  atLineStart : Bool
  deriving DecidableEq

namespace Token

def isIdent (t : Token) : Bool := t.kind == .ident

def isNumber (t : Token) : Bool := t.kind == .number

def isSymbol (t : Token) (text : String) : Bool := t.kind == .symbol && t.text == text

def isArrow (t : Token) : Bool := t.isSymbol "->" || t.isSymbol "→"

def isLambda (t : Token) : Bool := t.isSymbol "\\" || t.isSymbol "λ"

end Token

namespace Lexeme

inductive Class
  | word | sign | numeral
  deriving DecidableEq

def startsWord (c : Char) : Bool := Alphabet.isCasedLetter c || c == '_'

def continuesWord (c : Char) : Bool :=
  Alphabet.isCasedLetter c || Alphabet.isNumeric c || c == '_' || c == '\''

/-- Brackets and the comma stand alone, whatever follows them. -/
def standsAlone (c : Char) : Bool := c ∈ ['(',')','\x7b','\x7d',',']

def joinsOperator (c : Char) : Bool :=
  Alphabet.isSign c && c ∉ ['(',')','\x7b','\x7d','[',']',',','_','\'','"']

def isDigit (c : Char) : Bool := '0' ≤ c && c ≤ '9'

/-- The number of characters at the start of a text that separate tokens: a run of white space, or a
comment up to the end of its line. -/
def gap : List Char → Nat
  | [] => 0
  | c :: cs =>
    if Alphabet.isBlank c then 1 + (cs.takeWhile Alphabet.isBlank).length
    else if c = '-' ∧ cs.head? = some '-' then 1 + (cs.takeWhile (· ≠ '\n')).length
    else 0

theorem gap_le (cs : List Char) : gap cs ≤ cs.length := by
  cases cs with
  | nil => simp [gap]
  | cons c cs =>
    have h p := (cs.takeWhile_prefix (p := p)).length_le
    simp only [gap,List.length_cons]
    split
    · have := h Alphabet.isBlank; omega
    split
    · have := h (· ≠ '\n'); omega
    · omega

/-- The class of the token that a text starts with, and its length in characters. -/
def first? : List Char → Option (Class × Nat)
  | [] => none
  | c :: cs =>
    if startsWord c then some (.word,1 + (cs.takeWhile continuesWord).length)
    else if standsAlone c then some (.sign,1)
    else if joinsOperator c then some (.sign,1 + (cs.takeWhile joinsOperator).length)
    else if c = '0' then some (.numeral,1)
    else if isDigit c then some (.numeral,1 + (cs.takeWhile isDigit).length)
    else none

theorem pos_of_first? {cs : List Char} {k : Class} {n : Nat} (h : first? cs = some (k,n)) :
    0 < n := by
  cases cs with
  | nil => simp [first?] at h
  | cons c cs =>
    simp only [first?] at h
    repeat' split at h
    all_goals cases h
    all_goals omega

theorem ne_nil_of_first? {cs : List Char} {k : Class} {n : Nat} (h : first? cs = some (k,n)) :
    cs ≠ [] := by
  rintro rfl
  simp [first?] at h

def keywords : List String := ["data","class","instance","extension","type"]

/-- The kind of token that a piece makes; a lone `λ` is a symbol although it is a letter. -/
def kind : Class → String → TokenKind
  | .word, text => if text = "λ" then .symbol else if text ∈ keywords then .keyword else .ident
  | .sign, _ => .symbol
  | .numeral, _ => .number

end Lexeme

structure Cursor where
  offset : Nat
  atLineStart : Bool
  rest : List Char

namespace Cursor

def skip (p : Cursor) (n : Nat) : Cursor where
  offset := p.offset + byteSize (p.rest.take n)
  atLineStart := match (p.rest.take n).getLast? with
    | some c => c == '\n'
    | none => p.atLineStart
  rest := p.rest.drop n

@[simp] theorem rest_skip (p : Cursor) (n : Nat) : (p.skip n).rest = p.rest.drop n := rfl

def skipGaps (p : Cursor) : Cursor :=
  if Lexeme.gap p.rest = 0 then p else (p.skip (Lexeme.gap p.rest)).skipGaps
termination_by p.rest.length
decreasing_by
  have := Lexeme.gap_le p.rest
  simp; omega

theorem length_rest_skipGaps (p : Cursor) : p.skipGaps.rest.length ≤ p.rest.length := by
  fun_induction skipGaps p with
  | case1 => exact Nat.le_refl _
  | case2 p _ ih => simp at ih ⊢; omega

inductive Next
  | done (rest : Cursor)
  /-- No token starts with the character at the cursor. -/
  | unknown (rest : Cursor)
  | token (t : Token) (rest : Cursor)

def scan (p : Cursor) : Next :=
  match Lexeme.first? p.rest with
  | some (k,n) =>
    let text := String.ofList (p.rest.take n)
    .token ⟨Lexeme.kind k text,text,p.offset,(p.skip n).offset,p.atLineStart⟩ (p.skip n)
  | none => if p.rest.isEmpty then .done p else .unknown p

def next (p : Cursor) : Next := p.skipGaps.scan

theorem length_rest_next {p q : Cursor} {t : Token} (h : p.next = .token t q) :
    q.rest.length < p.rest.length := by
  have := p.length_rest_skipGaps
  simp only [next,scan] at h
  split at h
  next k n hf =>
    have := Lexeme.pos_of_first? hf
    have := List.length_pos_iff.2 (Lexeme.ne_nil_of_first? hf)
    cases h
    simp; omega
  next => split at h <;> cases h

def isDone (p : Cursor) : Bool :=
  match p.next with
  | .done _ => true
  | _ => false

/-- The place just before the next token; the cursor itself when there is none. -/
def tokenStart (p : Cursor) : Cursor :=
  match p.next with
  | .token .. => p.skipGaps
  | _ => p

end Cursor

inductive Ending
  | complete
  | unknown (place : Span)
  deriving DecidableEq

namespace Source

def cursor (s : Source) : Cursor := ⟨0,true,s.chars⟩

def charAt (s : Source) (p : Cursor) : Span := s.span p.offset (p.skip 1).offset

def tokensFrom (s : Source) (p : Cursor) : List Token × Ending :=
  match _h : p.next with
  | .done _ => ([],.complete)
  | .unknown q => ([],.unknown (s.charAt q))
  | .token t q => let (ts,e) := s.tokensFrom q; (t :: ts,e)
termination_by p.rest.length
decreasing_by exact Cursor.length_rest_next _h

def tokens (s : Source) : List Token × Ending := s.tokensFrom s.cursor

/-- The stretch from a saved place up to the end of the last token taken. -/
def spanSince (s : Source) (start stop : Nat) : Span := s.span start (max stop start)

end Source
end TypedHole
