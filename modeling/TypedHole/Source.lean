/-! Source texts and the places in them.
Places are byte offsets into the UTF-8 form of the text; lines and columns are counted in
characters from one. -/
namespace TypedHole

/-- A text to work on. Two sources may agree in name and text, so `key` tells them apart. -/
structure Source where
  key : Nat
  name : String
  text : String
  deriving DecidableEq

structure Span where
  source : Nat
  start : Nat
  stop : Nat
  deriving DecidableEq

def Span.contains (outer inner : Span) : Bool :=
  outer.source == inner.source && outer.start ≤ inner.start && inner.stop ≤ outer.stop

structure Position where
  line : Nat
  column : Nat
  deriving DecidableEq

def byteSize (cs : List Char) : Nat := cs.foldr (fun c n => c.utf8Size + n) 0

@[simp] theorem byteSize_nil : byteSize [] = 0 := rfl

@[simp] theorem byteSize_cons (c : Char) (cs : List Char) :
    byteSize (c :: cs) = c.utf8Size + byteSize cs := rfl

@[simp] theorem byteSize_append (cs ds : List Char) :
    byteSize (cs ++ ds) = byteSize cs + byteSize ds := by
  induction cs with
  | nil => simp
  | cons c cs ih => simp [ih,Nat.add_assoc]

/-- The characters that end at or before a byte offset. -/
def charsBefore : Nat → List Char → List Char
  | _, [] => []
  | n, c :: cs => if c.utf8Size ≤ n then c :: charsBefore (n - c.utf8Size) cs else []

/-- Whether a byte offset lies between two characters, or at either end of the text. -/
def isBoundary : Nat → List Char → Bool
  | 0, _ => true
  | _ + 1, [] => false
  | n + 1, c :: cs => c.utf8Size ≤ n + 1 && isBoundary (n + 1 - c.utf8Size) cs

/-- The pieces between line breaks; there is always at least one. -/
def splitLines : List Char → List (List Char)
  | [] => [[]]
  | c :: cs =>
    match c == '\n', splitLines cs with
    | true, lines => [] :: lines
    | false, [] => [[c]]
    | false, line :: lines => (c :: line) :: lines

def positionAfter (before : List Char) : Position where
  line := 1 + before.count '\n'
  column := 1 + (before.reverse.takeWhile (· ≠ '\n')).length

namespace Source

def chars (s : Source) : List Char := s.text.toList

def size (s : Source) : Nat := byteSize s.chars

def span (s : Source) (start stop : Nat) : Span := ⟨s.key,start,stop⟩

/-- The line and column of a byte offset; an offset past the end stands for the end. -/
def position (s : Source) (offset : Nat) : Position := positionAfter (charsBefore offset s.chars)

def position? (s : Source) (offset : Nat) : Option Position :=
  if isBoundary (min offset s.size) s.chars then some (s.position offset) else none

def line (s : Source) : Nat → String
  | 0 => ""
  | n + 1 => String.ofList ((splitLines s.chars)[n]?.getD [])

def holds (s : Source) (p : Span) : Bool :=
  p.start ≤ p.stop && p.stop ≤ s.size && isBoundary p.start s.chars && isBoundary p.stop s.chars

/-- A span as shown in messages: name, line and column, then the line with the span underlined by
carets. An empty span still gets one caret. -/
def excerpt (s : Source) (p : Span) : String :=
  let place := s.position p.start
  let width := (charsBefore p.stop s.chars).length - (charsBefore p.start s.chars).length
  s!"{s.name}:{place.line}:{place.column}\n\n{s.line place.line}\n" ++
    String.ofList (List.replicate (place.column - 1) ' ' ++ List.replicate (max 1 width) '^') ++ "\n"

def excerpt? (s : Source) (p : Span) : Option String :=
  if s.holds p then some (s.excerpt p) else none

def lastByte (s : Source) : Span := s.span (s.size - 1) s.size

/-- Whether the end of input can be reported: an ending in a character of several bytes has no
place for it. -/
def hasEnd (s : Source) : Bool := s.holds s.lastByte

end Source
end TypedHole
