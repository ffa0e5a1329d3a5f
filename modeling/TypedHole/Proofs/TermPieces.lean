import TypedHole.Proofs.PlainNames
import TypedHole.Proofs.TypeText

/-! Terms as pieces.
The pieces of a term are its names and signs in the order in which they are written, with the parentheses that its
place asks for. Main statement: where the names of a term are identifiers, its text is scanned as its pieces, whatever
follows that ends a word (`Term.scans_textAt`). -/
namespace TypedHole

/-! Scanning texts that are put together. -/

/-- A text that is scanned as some pieces, unless a character follows that joins its last one. -/
def Scans (joins : Char → Bool) (x : String) (ws : List String) : Prop :=
  ∀ (s : Source) (p : Cursor) (post : List Char), p.rest = x.toList ++ post → (∀ c ∈ post.head?, joins c = false) →
    ∃ ts q, s.Yields p ts q ∧ q.rest = post ∧ ts.map (·.text) = ws

def never : Char → Bool := fun _ => false

namespace Scans

variable {f g : Char → Bool} {x y : String} {vs ws : List String}

theorem piece {k : Lexeme.Class} (hline : '\n' ∉ x.toList) (hgap : ∀ post, Lexeme.gap (x.toList ++ post) = 0)
    (hfirst : ∀ post : List Char, (∀ c ∈ post.head?, f c = false) →
      Lexeme.first? (x.toList ++ post) = some (k,x.toList.length)) : Scans f x [x] := by
  intro s p post hrest hpost
  obtain ⟨t,q,hyields,-,htext,-,hq,-⟩ := s.yields_piece hrest (by rw [hrest,hgap]) (hfirst post hpost) hline
  exact ⟨[t],q,hyields,hq,by simp [htext]⟩

theorem identifier (h : Lexeme.IsIdentifier x) : Scans Lexeme.continuesWord x [x] :=
  .piece h.newline (Lexeme.gap_identifier h) fun _ => Lexeme.first?_identifier h

theorem bracket (h : x ∈ ["(",")","\x7b","\x7d"]) : Scans never x [x] := by
  simp only [List.mem_cons,List.not_mem_nil,or_false] at h
  rcases h with rfl | rfl | rfl | rfl <;>
    exact .piece (k := .sign) (by decide) (fun _ => rfl) fun _ _ => rfl

theorem operator (h : x ∈ ["\\","->",";"]) : Scans Lexeme.joinsOperator x [x] := by
  simp only [List.mem_cons,List.not_mem_nil,or_false] at h
  rcases h with rfl | rfl | rfl <;>
    exact .piece (k := .sign) (by decide) (fun _ => rfl) fun _ => Lexeme.first?_operator (by decide +kernel)

theorem empty : Scans f "" [] :=
  fun _ p _ hrest _ => ⟨[],p,rfl,hrest,rfl⟩

theorem blank : Scans never " " [] := by
  intro s p post hrest _
  obtain ⟨hyields,hskip,-⟩ := s.yields_blank hrest
  exact ⟨[],_,hyields,hskip,rfl⟩

theorem tokens {s : Source} (h : Scans f s.text ws) : s.tokens.1.map (·.text) = ws ∧ s.tokens.2 = .complete := by
  obtain ⟨ts,q,hyields,hq,hts⟩ := h s s.cursor [] (by simp [Source.cursor,Source.chars]) (by simp)
  rw [Source.Yields,Source.tokensFrom_nil hq,List.append_nil] at hyields
  rw [Source.tokens,hyields]
  exact ⟨hts,rfl⟩

theorem mono (h : Scans never x ws) : Scans f x ws :=
  fun s p post hrest _ => h s p post hrest fun _ _ => rfl

theorem append_of (hx : Scans f x vs) (hy : Scans g y ws)
    (hfront : ∀ post : List Char, (∀ c ∈ post.head?, g c = false) → ∀ c ∈ (y.toList ++ post).head?, f c = false) :
    Scans g (x ++ y) (vs ++ ws) := by
  intro s p post hrest hpost
  obtain ⟨ts,q,hyields,hq,hts⟩ := hx s p (y.toList ++ post) (by simp [hrest]) (hfront post hpost)
  obtain ⟨us,r,hyields',hr,hus⟩ := hy s q post hq hpost
  exact ⟨ts ++ us,r,hyields.trans hyields',hr,by rw [List.map_append,hts,hus]⟩

theorem append (hx : Scans never x vs) (hy : Scans g y ws) : Scans g (x ++ y) (vs ++ ws) :=
  hx.append_of hy fun _ _ _ _ => rfl

/-- A text may follow when its first character does not join the last piece. -/
theorem followed (hx : Scans f x vs) (hy : Scans g y ws) (h : y.toList.head?.any (!f ·) = true) :
    Scans g (x ++ y) (vs ++ ws) := by
  refine hx.append_of hy fun post _ c hc => ?_
  obtain ⟨d,hd,hjoins⟩ := (Option.any_eq_true ..).1 h
  rw [List.head?_append,hd] at hc
  cases hc
  simpa using hjoins

theorem spaced (hx : Scans Lexeme.continuesWord x vs) (hy : Scans g y ws) : Scans g (x ++ " " ++ y) (vs ++ ws) := by
  simpa using (hx.followed blank (by decide +kernel)).append hy

theorem parens (h : Scans Lexeme.continuesWord x ws) :
    Scans never ("(" ++ x ++ ")") ("(" :: (ws ++ [")"])) := by
  have hopen : Scans never "(" ["("] := .bracket (by decide)
  exact (hopen.append h).followed (.bracket (by decide)) (by decide +kernel)

theorem arrow : Scans never " -> " ["->"] :=
  (blank.append (.operator (x := "->") (by decide))).followed blank (by decide +kernel)

theorem names (x : Name) {xs : List Name} (h : ∀ y ∈ x :: xs, Lexeme.IsIdentifier y) :
    Scans Lexeme.continuesWord (" ".intercalate (x :: xs)) (x :: xs) := by
  induction xs generalizing x with
  | nil =>
    rw [String.intercalate_singleton]
    exact .identifier (h x (by simp))
  | cons y xs ih =>
    rw [String.intercalate_cons_cons]
    exact (identifier (h x (by simp))).spaced (ih y fun z hz => h z (List.mem_cons_of_mem _ hz))

end Scans

/-! Pieces of terms. -/

/-- The names that programs give to values and constructors: identifiers that mark no hole. -/
def IsPlainName (x : Name) : Prop := Lexeme.IsIdentifier x ∧ isHoleName x = false

instance (x : Name) : Decidable (IsPlainName x) := inferInstanceAs (Decidable (_ ∧ _))

/-- The sign of a lambda is not read as part of a name. -/
theorem IsPlainName.head {x : Name} (h : IsPlainName x) : x.toList.head?.any (!Lexeme.joinsOperator ·) = true := by
  obtain ⟨c,cs,hx,hstart,-⟩ := h.1.chars
  have hjoins : Lexeme.joinsOperator c = false := by
    refine Bool.eq_false_iff.2 fun hjoins => ?_
    rw [Lexeme.not_startsWord_of_joinsOperator hjoins] at hstart
    cases hstart
  simp [hx,hjoins]

namespace Place

def widePieces (p : Place) (ws : List String) : List String := if p = whole then ws else "(" :: (ws ++ [")"])

def tightPieces (p : Place) (ws : List String) : List String := if p = argument then "(" :: (ws ++ [")"]) else ws

end Place

namespace Term

mutual

def names : Term → List Name
  | var x => [x]
  | hole _ => []
  | app f a => f.names ++ a.names
  | lam xs b => xs ++ b.names
  | case s as => s.names ++ namesAlts as
  | lamCase as => namesAlts as

def namesAlts : List (Alt Term) → List Name
  | [] => []
  | ⟨c,xs,b⟩ :: as => c :: xs ++ b.names ++ namesAlts as

end

mutual

/-- The names and signs of a term as its place needs them; all holes look alike. -/
def pieces : Place → Term → List String
  | _, var x => [x]
  | _, hole _ => ["_"]
  | p, app f a => p.tightPieces (f.pieces .left ++ a.pieces .argument)
  | p, lam xs b => p.widePieces ("\\" :: xs ++ ["->"] ++ b.pieces .whole)
  | p, case s as => p.widePieces (["case"] ++ s.pieces .left ++ ["of","\x7b"] ++ piecesAlts as ++ ["\x7d"])
  | p, lamCase as => p.widePieces (["\\","case","\x7b"] ++ piecesAlts as ++ ["\x7d"])

def piecesAlts : List (Alt Term) → List String
  | [] => []
  | [⟨c,xs,b⟩] => c :: xs ++ ["->"] ++ b.pieces .whole
  | ⟨c,xs,b⟩ :: as => c :: xs ++ ["->"] ++ b.pieces .whole ++ [";"] ++ piecesAlts as

end

end Term

namespace Scans

variable {x : String} {ws : List String}

theorem wide (h : Scans Lexeme.continuesWord x ws) (p : Place) :
    Scans Lexeme.continuesWord (p.wide x) (p.widePieces ws) := by
  rw [Place.wide,Place.widePieces]
  split
  next => exact h
  next => exact h.parens.mono

theorem tight (h : Scans Lexeme.continuesWord x ws) (p : Place) :
    Scans Lexeme.continuesWord (p.tight x) (p.tightPieces ws) := by
  rw [Place.tight,Place.tightPieces]
  split
  next => exact h.parens.mono
  next => exact h

theorem head?_names {f : Char → Bool} {xs : List Name} (h : x.toList.head?.any f = true) :
    (" ".intercalate (x :: xs)).toList.head?.any f = true := by
  cases xs with
  | nil => simpa using h
  | cons y xs =>
    obtain ⟨c,hc,hf⟩ := (Option.any_eq_true ..).1 h
    simp [String.intercalate_cons_cons,hc,hf]

theorem binders {xs : List Name} (h : ∀ x ∈ xs, IsPlainName x) :
    Scans never ("\\" ++ " ".intercalate xs ++ " -> ") ("\\" :: xs ++ ["->"]) := by
  have hsign : Scans Lexeme.joinsOperator "\\" ["\\"] := .operator (by decide)
  -- Without binders the arrow follows, and it would join the sign but for its blank.
  cases xs with
  | nil => exact hsign.followed arrow (by decide +kernel)
  | cons x xs =>
    have hnames := names x fun y hy => (h y hy).1
    exact (hsign.followed hnames (head?_names (h x (by simp)).head)).followed arrow (by decide +kernel)

theorem alternative {c : Name} {xs : List Name} (h : ∀ x ∈ c :: xs, IsPlainName x)
    (hb : Scans Lexeme.continuesWord x ws) :
    Scans Lexeme.continuesWord (" " ++ Term.patternText c xs ++ " -> " ++ x) (c :: xs ++ ["->"] ++ ws) :=
  ((blank.append (names c fun y hy => (h y hy).1)).followed arrow (by decide +kernel)).append hb

theorem caseSign : Scans never "case " ["case"] :=
  (identifier (x := "case") (by decide +kernel)).followed blank (by decide +kernel)

theorem ofSign : Scans never " of \x7b" ["of","\x7b"] :=
  ((blank.append (identifier (x := "of") (by decide +kernel))).followed blank (by decide +kernel)).append
    (.bracket (x := "\x7b") (by decide))

theorem lamCaseSign : Scans never "\\case \x7b" ["\\","case","\x7b"] :=
  (((operator (x := "\\") (by decide)).followed (identifier (x := "case") (by decide +kernel))
    (by decide +kernel)).followed blank (by decide +kernel)).append (.bracket (x := "\x7b") (by decide))

theorem closing : Scans never " \x7d" ["\x7d"] := blank.append (.bracket (x := "\x7d") (by decide))

end Scans

namespace Term

theorem head?_textAlts (a : Alt Term) (as : List (Alt Term)) : (textAlts (a :: as)).toList.head? = some ' ' := by
  cases as <;> simp [textAlts]

/-- The text of a term is scanned as the pieces of the term. -/
theorem scans_textAt (t : Term) : (∀ x ∈ t.names, IsPlainName x) →
    ∀ p, Scans Lexeme.continuesWord (t.textAt p) (t.pieces p) := by
  refine induct (P := fun t => (∀ x ∈ t.names, IsPlainName x) →
      ∀ p, Scans Lexeme.continuesWord (t.textAt p) (t.pieces p))
    (Q := fun as => (∀ x ∈ namesAlts as, IsPlainName x) →
      Scans Lexeme.continuesWord (textAlts as) (piecesAlts as)) ?var ?app ?lam ?case ?lamCase ?hole ?nil ?cons t
  case var => exact fun x h p => .identifier (h x (by simp [names])).1
  case hole => exact fun _ _ _ => .identifier (x := "_") (by decide +kernel)
  case app =>
    intro f a hf ha h p
    simp only [names,List.forall_mem_append] at h
    exact ((hf h.1 .left).spaced (ha h.2 .argument)).tight p
  case lam =>
    intro xs b hb h p
    simp only [names,List.forall_mem_append] at h
    exact ((Scans.binders h.1).append (hb h.2 .whole)).wide p
  case case =>
    intro s as hs has h p
    simp only [names,List.forall_mem_append] at h
    have hhead := (Scans.caseSign.append (hs h.1 .left)).followed .ofSign (by decide +kernel)
    exact ((hhead.append (has h.2)).followed .closing (by decide +kernel)).mono.wide p
  case lamCase =>
    intro as has h p
    exact ((Scans.lamCaseSign.append (has h)).followed .closing (by decide +kernel)).mono.wide p
  case nil => exact fun _ => .empty
  case cons =>
    intro c xs b as hb has h
    simp only [namesAlts,List.forall_mem_append] at h
    have halt := Scans.alternative h.1.1 (hb h.1.2 .whole)
    cases as with
    | nil => exact halt
    | cons a as =>
      have hsemicolon := halt.followed (.operator (x := ";") (by decide)) (by decide +kernel)
      exact hsemicolon.followed (has h.2) (by rw [head?_textAlts]; decide +kernel)

end Term
end TypedHole
