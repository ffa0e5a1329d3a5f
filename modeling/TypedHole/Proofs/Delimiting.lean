import TypedHole.Proofs.Scanning
import TypedHole.Proofs.Totality

/-! Where declarations end.
What a parser returns from some tokens it also returns when a token follows that begins a line, unless it looks at
that token without regard to the line. Main statement: the declarations of a module are read from pieces of its
tokens, and a token in the first column is inside of a piece only where the piece could not have ended before it, or
where the alternatives of a data type go on (`declarations_delimited`). -/
namespace TypedHole
namespace Parser

/-- What can follow the tokens of one reading in another one: a token that begins a line, and more. -/
structure Sequel where
  short : Reading
  long : Reading
  source : long.source = short.source
  next : Token
  line : next.atLineStart = true
  rest : List Token

def Sequel.after (x : Sequel) (ts : List Token) : List Token := ts ++ x.next :: x.rest

@[simp] theorem Sequel.after_nil (x : Sequel) : x.after [] = x.next :: x.rest := rfl

variable {α β : Type} {x : Sequel}

/-- What the first parser returns in the shorter reading, if it meets a condition, the second one returns in the
longer reading, and leaves what follows as well. -/
def Carries (x : Sequel) (c : α → List Token → Prop) (p q : Parser α) : Prop :=
  ∀ ts n a left n', p x.short ⟨ts,n⟩ = .ok (a,⟨left,n'⟩) → c a left →
    q x.long ⟨x.after ts,n⟩ = .ok (a,⟨x.after left,n'⟩)

/-- The same without a condition. -/
def Persists (x : Sequel) (p q : Parser α) : Prop := Carries x (fun _ _ => True) p q

/-- The same where the shorter reading has a token to look at. -/
def PersistsAhead (x : Sequel) (p q : Parser α) : Prop :=
  ∀ t ts n a left n', p x.short ⟨t :: ts,n⟩ = .ok (a,⟨left,n'⟩) →
    q x.long ⟨x.after (t :: ts),n⟩ = .ok (a,⟨x.after left,n'⟩)

/-- A parser that returns nothing where no token is left. -/
def Needs (p : Parser α) : Prop := ∀ r n a, p r ⟨[],n⟩ ≠ .ok a

/-! What needs a token. -/

namespace Needs

variable {p : Parser α}

theorem stop {e : Stop} : Needs (Parser.stop e : Parser α) := fun _ _ _ h => by cases h

theorem take : Needs Parser.take := fun _ _ _ h => by cases h

theorem bind {f : α → Parser β} (h : Needs p) : Needs (p >>= f) := by
  rintro r n ⟨b,j⟩ hb
  obtain ⟨a,i,ha,-⟩ := bind_eq_ok hb
  exact h r n _ ha

theorem measured {p : Nat → Parser α} (h : ∀ m, Needs (p m)) : Needs (Parser.measured p) := fun r n => h _ r n

theorem bind_offset {f : Nat → Parser β} (h : ∀ start, Needs (f start)) : Needs (Parser.offset >>= f) :=
  fun r n b hb => h n r n b hb

theorem eq_none_of_peek? {r : Reading} {i : Input} {n : Nat} {t : Option Token}
    (h : Parser.peek? r ⟨[],n⟩ = .ok (t,i)) : t = none := by
  simp only [Parser.peek?] at h
  split at h <;> cases h
  · simp_all
  · rfl

theorem bind_peek? {f : Option Token → Parser β} (h : Needs (f none)) : Needs (Parser.peek? >>= f) := by
  rintro r n ⟨b,j⟩ hb
  obtain ⟨t,i,ht,hb⟩ := bind_eq_ok hb
  cases eq_of_peek? ht
  cases eq_none_of_peek? ht
  exact h r n (b,j) hb

theorem eq_false_of_symbol? {text : String} {r : Reading} {i : Input} {n : Nat} {b : Bool}
    (h : Parser.symbol? text r ⟨[],n⟩ = .ok (b,i)) : b = false := by
  obtain ⟨t,i',ht,h⟩ := bind_eq_ok h
  cases eq_none_of_peek? ht
  cases h
  rfl

theorem bind_symbol? {text : String} {f : Bool → Parser β} (h : Needs (f false)) :
    Needs (Parser.symbol? text >>= f) := by
  rintro r n ⟨a,j⟩ ha
  obtain ⟨b,i,hb,ha⟩ := bind_eq_ok ha
  cases eq_false_of_symbol? hb
  cases eq_of_symbol? hb
  exact h r n (a,j) ha

theorem symbol (text : String) : Needs (Parser.symbol text) := take.bind

theorem identifier : Needs Parser.identifier := take.bind

theorem patternWithin (n : Nat) : Needs (Parser.patternWithin n) := by
  cases n with
  | zero => exact stop
  | succ n => exact bind_offset fun _ => take.bind

theorem itemsUntil (close : String) {item : Parser α} (h : Needs item) (n : Nat) :
    Needs (Parser.itemsUntil close item n) := by
  cases n with
  | zero => exact stop
  | succ n => exact bind_symbol? h.bind

theorem itemsBetween (between : String) {item : Parser α} (h : Needs item) (n : Nat) :
    Needs (Parser.itemsBetween between item n) := by
  cases n with
  | zero => exact stop
  | succ n => exact h.bind

theorem atom (inner : Parser Expr) : Needs (Parser.atom inner) := bind_offset fun _ => take.bind

theorem application (inner : Parser Expr) : Needs (Parser.application inner) := bind_offset fun _ => (atom inner).bind

theorem operation (inner : Parser Expr) : Needs (Parser.operation inner) :=
  bind_offset fun _ => (application inner).bind

theorem expressionWithin (n : Nat) : Needs (Parser.expressionWithin n) := by
  cases n with
  | zero => exact stop
  | succ n => exact bind_offset fun _ => bind_peek? (operation _)

theorem pattern : Needs Parser.pattern := measured patternWithin

theorem method : Needs Parser.method := identifier.bind

end Needs

/-! How parsers go on. -/

namespace Carries

variable {c : α → List Token → Prop} {p q : Parser α}

theorem stop {e : Stop} : Carries x c (Parser.stop e) q := fun _ _ _ _ _ h => by cases h

theorem pure {a : α} : Carries x c (Pure.pure a : Parser α) (Pure.pure a) := by
  intro ts n b left n' h _
  cases h
  rfl

/-- A condition on what is left is one on the last parser that takes tokens. -/
theorem map {c : List Token → Prop} (h : Carries x (fun _ left => c left) p q) (f : α → β) :
    Carries x (fun _ left => c left) (p >>= fun a => Pure.pure (f a)) (q >>= fun a => Pure.pure (f a)) := by
  intro ts n b left n' hb hc
  obtain ⟨a,i,ha,hb⟩ := bind_eq_ok hb
  cases hb
  rw [bind_of_eq_ok (h ts n a left n' ha hc)]
  rfl

theorem refuse {w : Expectation} {t : Token} : Carries x c (Parser.refuse w t) q :=
  fun _ _ _ _ _ h => by cases h

theorem ite {b : Bool} {p' q' : Parser α} (h : b = true → Carries x c p q)
    (h' : b = false → Carries x c p' q') : Carries x c (if b then p else p') (if b then q else q') := by
  cases b with
  | true => exact h rfl
  | false => exact h' rfl

theorem measured {p q : Nat → Parser α} (h : ∀ n m, n ≤ m → Carries x c (p n) (q m)) :
    Carries x c (Parser.measured p) (Parser.measured q) := by
  intro ts n a left n' ha hc
  refine h (ts.length + 1) ((x.after ts).length + 1) ?_ ts n a left n' ha hc
  rw [Sequel.after,List.length_append]
  omega

/-- Parsers with a number of rounds go on when each round does; the longer reading may have more of them. -/
theorem rounds {p q : Nat → Parser α} (hzero : ∀ q', Carries x c (p 0) q')
    (hsucc : ∀ n m, Carries x c (p n) (q m) → Carries x c (p (n + 1)) (q (m + 1))) {n m : Nat} (h : n ≤ m) :
    Carries x c (p n) (q m) := by
  induction n generalizing m with
  | zero => exact hzero _
  | succ n ih =>
    obtain ⟨m,rfl⟩ : ∃ k, m = k + 1 := ⟨m - 1,by omega⟩
    exact hsucc n m (ih (by omega))

end Carries

theorem Persists.bind {c : β → List Token → Prop} {p q : Parser α} {f g : α → Parser β} (h : Persists x p q)
    (hf : ∀ a, Carries x c (f a) (g a)) : Carries x c (p >>= f) (q >>= g) := by
  intro ts n b left n' hb hc
  obtain ⟨a,⟨mid,k⟩,ha,hb⟩ := bind_eq_ok hb
  rw [bind_of_eq_ok (h ts n a mid k ha trivial)]
  exact hf a mid k b left n' hb hc

/-- A look at the next token persists if what comes after it needs one. -/
theorem PersistsAhead.bind {c : β → List Token → Prop} {p q : Parser α} {f g : α → Parser β}
    (h : PersistsAhead x p q) (hneeds : Needs (p >>= f)) (hf : ∀ a, Carries x c (f a) (g a)) :
    Carries x c (p >>= f) (q >>= g) := by
  intro ts n b left n' hb hc
  cases ts with
  | nil => exact absurd hb (hneeds _ _ _)
  | cons t ts =>
    obtain ⟨a,⟨mid,k⟩,ha,hb⟩ := bind_eq_ok hb
    rw [bind_of_eq_ok (h t ts n a mid k ha)]
    exact hf a mid k b left n' hb hc

namespace Persists

variable {p q : Parser α}

theorem pure {a : α} : Persists x (Pure.pure a : Parser α) (Pure.pure a) := Carries.pure

theorem take : Persists x Parser.take Parser.take := by
  intro ts n t left n' h _
  cases ts with
  | nil => cases h
  | cons t ts =>
    cases h
    rfl

theorem peek : Persists x Parser.peek Parser.peek := by
  intro ts n t left n' h _
  cases ts with
  | nil => cases h
  | cons t ts =>
    cases h
    rfl

theorem spanFrom (start : Nat) : Persists x (Parser.spanFrom start) (Parser.spanFrom start) := by
  intro ts n s left n' h _
  cases h
  rw [Parser.spanFrom,Source.spanSince,Source.spanSince,x.source]

/-- A token that begins a line is no part of the declaration before it. -/
theorem peekInside? : Persists x Parser.peekInside? Parser.peekInside? := by
  intro ts n t left n' h _
  obtain ⟨t',i,ht,h⟩ := bind_eq_ok h
  cases h
  cases ts with
  | nil =>
    cases eq_of_peek? ht
    cases Needs.eq_none_of_peek? ht
    simp [Parser.peekInside?,Parser.peek?,Bind.bind,Pure.pure,x.line]
  | cons t ts =>
    cases ht
    rfl

end Persists

namespace PersistsAhead

theorem offset : PersistsAhead x Parser.offset Parser.offset := by
  intro t ts n start left n' h
  cases h
  rfl

theorem peek? : PersistsAhead x Parser.peek? Parser.peek? := by
  intro t ts n t' left n' h
  cases h
  rfl

theorem symbol? (text : String) : PersistsAhead x (Parser.symbol? text) (Parser.symbol? text) := by
  intro t ts n b left n' h
  obtain ⟨t',i,ht,h⟩ := bind_eq_ok h
  cases ht
  rcases ite_eq_ok h with ⟨hsymbol,h⟩ | ⟨hsymbol,h⟩
  all_goals
    cases h
    rw [Parser.symbol?,bind_of_eq_ok rfl]
    simp only [hsymbol]
    rfl

end PersistsAhead

/-! Loops and productions. -/

namespace Persists

variable {p q : Parser α}

/-- A symbol that is not what follows can be left out. -/
theorem symbol? {text : String} (h : x.next.isSymbol text = false) :
    Persists x (Parser.symbol? text) (Parser.symbol? text) := by
  intro ts n b left n' hb _
  cases ts with
  | nil =>
    cases Needs.eq_false_of_symbol? hb
    cases eq_of_symbol? hb
    rw [Parser.symbol?,Sequel.after_nil,bind_of_eq_ok rfl]
    simp only [h]
    rfl
  | cons t ts => exact PersistsAhead.symbol? text t ts n b left n' hb

theorem symbol (text : String) : Persists x (Parser.symbol text) (Parser.symbol text) :=
  take.bind fun _ => .ite (fun _ => pure) fun _ => .refuse

theorem arrow : Persists x Parser.arrow Parser.arrow :=
  take.bind fun _ => .ite (fun _ => pure) fun _ => .refuse

theorem arrow? : Persists x Parser.arrow? Parser.arrow? :=
  peekInside?.bind fun t => match t with
    | some _ => .ite (fun _ => take.bind fun _ => pure) fun _ => pure
    | none => pure

theorem identifier : Persists x Parser.identifier Parser.identifier :=
  take.bind fun _ => .ite (fun _ => pure) fun _ => .refuse

theorem capitalizedName : Persists x Parser.capitalizedName Parser.capitalizedName :=
  take.bind fun _ => .ite (fun _ => .refuse) fun _ => .ite (fun _ => pure) fun _ => .refuse

theorem extendWhile {test : Token → Bool} {step step' : α → Parser α} (h : ∀ a, Persists x (step a) (step' a))
    {n m : Nat} (hn : n ≤ m) (a : α) :
    Persists x (Parser.extendWhile test step n a) (Parser.extendWhile test step' m a) := by
  induction n generalizing m a with
  | zero => exact .stop
  | succ n ih =>
    obtain ⟨m,rfl⟩ : ∃ k, m = k + 1 := ⟨m - 1,by omega⟩
    exact peekInside?.bind fun t => match t with
      | some _ => .ite (fun _ => (h a).bind fun b => ih (by omega) b) fun _ => pure
      | none => pure

theorem itemsUntil (close : String) (h : Persists x p q) (hneeds : Needs p) {n m : Nat} (hn : n ≤ m) :
    Persists x (Parser.itemsUntil close p n) (Parser.itemsUntil close q m) :=
  Carries.rounds (q := Parser.itemsUntil close q) (fun _ => .stop) (fun n _ ih =>
    (PersistsAhead.symbol? close).bind (Needs.itemsUntil close hneeds (n + 1)) fun _ =>
      .ite (fun _ => pure) fun _ => h.bind fun _ => Persists.bind ih fun _ => pure) hn

theorem itemsBetween {between : String} (hnext : x.next.isSymbol between = false) (h : Persists x p q) {n m : Nat}
    (hn : n ≤ m) : Persists x (Parser.itemsBetween between p n) (Parser.itemsBetween between q m) :=
  .rounds (fun _ => .stop) (fun _ _ ih => h.bind fun _ => (symbol? hnext).bind fun _ =>
    .ite (fun _ => Persists.bind ih fun _ => pure) fun _ => pure) hn

theorem names : Persists x Parser.names Parser.names :=
  .measured fun _ _ hn => extendWhile (fun _ => identifier.bind fun _ => pure) hn []

theorem typeAtom {inner inner' : Parser Ty} (h : Persists x inner inner') :
    Persists x (Parser.typeAtom inner) (Parser.typeAtom inner') :=
  take.bind fun _ => .ite (fun _ => pure) fun _ =>
    .ite (fun _ => h.bind fun _ => (symbol ")").bind fun _ => pure) fun _ => .refuse

theorem typeApplication {inner inner' : Parser Ty} (h : Persists x inner inner') :
    Persists x (Parser.typeApplication inner) (Parser.typeApplication inner') :=
  (typeAtom h).bind fun fn => .measured fun _ _ hk => extendWhile (fun _ => (typeAtom h).bind fun _ => pure) hk fn

theorem typeWithin {n m : Nat} (hn : n ≤ m) : Persists x (Parser.typeWithin n) (Parser.typeWithin m) :=
  .rounds (fun _ => .stop) (fun _ _ ih => (typeApplication ih).bind fun _ => arrow?.bind fun _ =>
    .ite (fun _ => Persists.bind ih fun _ => pure) fun _ => pure) hn

theorem type : Persists x Parser.type Parser.type := .measured fun _ _ => typeWithin

theorem patternWithin {n m : Nat} (hn : n ≤ m) : Persists x (Parser.patternWithin n) (Parser.patternWithin m) := by
  refine .rounds (fun _ => .stop) (fun n m ih => ?_) hn
  have ih : Persists x (Parser.patternWithin n) (Parser.patternWithin m) := ih
  have hargs : Persists x (Parser.measured (Parser.itemsUntil ")" (Parser.patternWithin n)))
      (Parser.measured (Parser.itemsUntil ")" (Parser.patternWithin m))) :=
    .measured fun _ _ => itemsUntil ")" ih (Needs.patternWithin n)
  refine PersistsAhead.offset.bind (Needs.patternWithin (n + 1)) fun start => take.bind fun t => .ite
    (fun _ => (spanFrom start).bind fun _ => .ite (fun _ => pure) fun _ => .ite (fun _ => pure) fun _ => pure)
    fun _ => .ite (fun _ => peek.bind fun _ => .ite (fun _ => ?ctor) fun _ => ?inner) fun _ => .refuse
  case ctor =>
    exact capitalizedName.bind fun _ => hargs.bind fun _ => (spanFrom start).bind fun _ => pure
  case inner => exact ih.bind fun _ => (symbol ")").bind fun _ => pure

theorem pattern : Persists x Parser.pattern Parser.pattern := .measured fun _ _ => patternWithin

section

variable {inner inner' : Parser Expr}

theorem atom (h : Persists x inner inner') : Persists x (Parser.atom inner) (Parser.atom inner') := by
  refine PersistsAhead.offset.bind (Needs.atom inner) fun start => take.bind fun t => .ite
    (fun _ => (spanFrom start).bind fun _ => pure) fun _ => .ite
      (fun _ => (spanFrom start).bind fun _ => pure) fun _ => .ite (fun _ => h.bind fun _ => ?_) fun _ => .refuse
  refine (PersistsAhead.symbol? ":").bind (Needs.bind_symbol? (Needs.symbol ")").bind) fun _ => .ite
    (fun _ => type.bind fun _ => (symbol ")").bind fun _ => (spanFrom start).bind fun _ => pure) fun _ =>
      (symbol ")").bind fun _ => pure

theorem application (h : Persists x inner inner') :
    Persists x (Parser.application inner) (Parser.application inner') :=
  PersistsAhead.offset.bind (Needs.application inner) fun start => (atom h).bind fun fn =>
    .measured fun _ _ hk => extendWhile (fun _ => (atom h).bind fun _ => (spanFrom start).bind fun _ => pure) hk fn

theorem operation (h : Persists x inner inner') : Persists x (Parser.operation inner) (Parser.operation inner') :=
  PersistsAhead.offset.bind (Needs.operation inner) fun start => (application h).bind fun lhs =>
    .measured fun _ _ hk => extendWhile (fun _ => take.bind fun _ => (application h).bind fun _ =>
      (spanFrom start).bind fun _ => pure) hk lhs

theorem lambda (h : Persists x inner inner') (start : Nat) :
    Persists x (Parser.lambda inner start) (Parser.lambda inner' start) :=
  identifier.bind fun _ => names.bind fun _ => arrow.bind fun _ => h.bind fun _ => (spanFrom start).bind fun _ => pure

end

theorem expressionWithin {n m : Nat} (hn : n ≤ m) :
    Persists x (Parser.expressionWithin n) (Parser.expressionWithin m) := by
  refine .rounds (fun _ => .stop) (fun n m ih => ?_) hn
  refine PersistsAhead.offset.bind (Needs.expressionWithin (n + 1)) fun start => ?_
  refine PersistsAhead.peek?.bind (Needs.bind_peek? (Needs.operation _)) fun t => ?_
  cases t with
  | none => exact operation ih
  | some t => exact .ite (fun _ => take.bind fun _ => lambda ih start) fun _ => operation ih

theorem expression : Persists x Parser.expression Parser.expression := .measured fun _ _ => expressionWithin

/-! Declarations. -/

theorem constructor : Persists x Parser.constructor Parser.constructor :=
  capitalizedName.bind fun _ => Persists.bind (.measured fun _ _ hk =>
    extendWhile (fun _ => (typeAtom type).bind fun _ => pure) hk []) fun _ => pure

/-- The alternatives of a data type go on with whatever sign for them follows, in the first column too. -/
theorem datatype (hequals : x.next.isSymbol "=" = false) (hbar : x.next.isSymbol "|" = false) :
    Persists x Parser.datatype Parser.datatype :=
  capitalizedName.bind fun _ => names.bind fun _ => (symbol? hequals).bind fun _ =>
    .ite (fun _ => Persists.bind (.measured fun _ _ => itemsBetween hbar constructor) fun _ => pure) fun _ => pure

theorem method : Persists x Parser.method Parser.method :=
  identifier.bind fun _ => (symbol ":").bind fun _ => type.bind fun _ => pure

theorem instanceDecl : Persists x Parser.instanceDecl Parser.instanceDecl :=
  capitalizedName.bind fun _ => (typeAtom type).bind fun _ => pure

theorem definition (name : Name) (start : Nat) :
    Persists x (Parser.definition name start) (Parser.definition name start) := by
  have hpats : Persists x (Parser.measured (Parser.itemsUntil "=" Parser.pattern)) _ :=
    .measured fun _ _ => itemsUntil "=" pattern Needs.pattern
  have hneeds : Needs (Parser.measured (Parser.itemsUntil "=" Parser.pattern)) :=
    .measured fun n => Needs.itemsUntil "=" Needs.pattern n
  exact (PersistsAhead.symbol? ":").bind (Needs.bind_symbol? hneeds.bind) fun _ => .ite
    (fun _ => type.bind fun _ => pure) fun _ => hpats.bind fun _ => expression.bind fun _ =>
      (spanFrom start).bind fun _ => pure

end Persists

/-- Items persist where a token is left behind the last one. -/
theorem Carries.itemsBetween {between : String} {p q : Parser α} (h : Persists x p q) {n m : Nat} (hn : n ≤ m) :
    Carries x (fun _ left => left ≠ []) (Parser.itemsBetween between p n) (Parser.itemsBetween between q m) := by
  refine .rounds (fun _ => .stop) (fun n m ih => h.bind fun a => ?_) hn
  intro ts k as left k' has hleft
  cases ts with
  | nil =>
    -- no token is left behind the last item
    obtain ⟨b,i,hb,has⟩ := bind_eq_ok has
    cases Needs.eq_false_of_symbol? hb
    cases eq_of_symbol? hb
    cases has
    exact absurd rfl hleft
  | cons t ts =>
    obtain ⟨b,⟨mid,l⟩,hb,has⟩ := bind_eq_ok has
    rw [bind_of_eq_ok (PersistsAhead.symbol? between t ts k b mid l hb)]
    exact Carries.ite (c := fun _ left => left ≠ []) (fun _ => ih.map _) (fun _ => .pure) mid l as left k' has hleft

/-- What persists where a token is left persists before a parser that needs one. -/
theorem Carries.bind_needs {c : β → List Token → Prop} {p q : Parser α} {f g : α → Parser β}
    (h : Carries x (fun _ left => left ≠ []) p q) (hneeds : ∀ a, Needs (f a)) (hf : ∀ a, Carries x c (f a) (g a)) :
    Carries x c (p >>= f) (q >>= g) := by
  intro ts n b left n' hb hc
  obtain ⟨a,⟨mid,k⟩,ha,hb⟩ := bind_eq_ok hb
  have hmid : mid ≠ [] := by
    rintro rfl
    exact hneeds a _ _ _ hb
  rw [bind_of_eq_ok (h ts n a mid k ha hmid)]
  exact hf a mid k b left n' hb hc

theorem Persists.classDecl : Persists x Parser.classDecl Parser.classDecl := by
  have hmethods : Carries x (fun _ left => left ≠ []) (Parser.measured (Parser.itemsBetween "," Parser.method)) _ :=
    .measured fun _ _ => .itemsBetween method
  have hneeds : Needs (Parser.measured (Parser.itemsBetween "," Parser.method)) :=
    .measured fun n => Needs.itemsBetween "," Needs.method n
  exact capitalizedName.bind fun _ => identifier.bind fun _ => (symbol "\x7b").bind fun _ =>
    (PersistsAhead.symbol? "\x7d").bind (Needs.bind_symbol? hneeds.bind) fun _ => .ite (fun _ => pure) fun _ =>
      hmethods.bind_needs (fun _ => (Needs.symbol "\x7d").bind) fun _ => (symbol "\x7d").bind fun _ => pure

/-- A declaration persists, unless it is that of a data type and a sign for its alternatives follows. -/
theorem Carries.declaration : Carries x (fun d _ => (∃ e, d = .datatype e) →
    x.next.isSymbol "=" = false ∧ x.next.isSymbol "|" = false) Parser.declaration Parser.declaration := by
  refine PersistsAhead.offset.bind (Needs.bind_offset fun _ => Needs.take.bind) fun start =>
    Persists.take.bind fun t => ?_
  split
  · intro ts n d left n' h hc
    have hdata : ∃ e, d = .datatype e := by
      obtain ⟨e,i,-,h⟩ := bind_eq_ok h
      cases h
      exact ⟨e,rfl⟩
    obtain ⟨hequals,hbar⟩ := hc hdata
    have hpersists := Persists.bind (c := fun _ _ => True) (Persists.datatype hequals hbar)
      fun e => Carries.pure (a := Decl.datatype e)
    exact hpersists ts n d left n' h trivial
  · exact Persists.bind .capitalizedName fun _ => .pure
  · exact Persists.bind .classDecl fun _ => .pure
  · exact Persists.bind .instanceDecl fun _ => .pure
  · exact Persists.bind .identifier fun _ => Persists.bind (.spanFrom start) fun _ => .pure
  · exact fun ts n d left n' h _ => Persists.definition _ start ts n d left n' h trivial
  · exact .refuse

/-- A way to cut an input into pieces each of which is read as a declaration. -/
inductive Cut (r : Reading) : Input → List (List Token × Decl) → Prop
  | nil (n : Nat) : Cut r ⟨[],n⟩ []
  | cons {piece rest : List Token} {d : Decl} {ps : List (List Token × Decl)} {n n' : Nat}
      (h : declaration r ⟨piece ++ rest,n⟩ = .ok (d,⟨rest,n'⟩)) (later : Cut r ⟨rest,n'⟩ ps) :
      Cut r ⟨piece ++ rest,n⟩ ((piece,d) :: ps)

theorem cut_of_declarations {n : Nat} {r : Reading} {i i' : Input} {ds : List Decl}
    (h : declarations n r i = .ok (ds,i')) :
    r.ending = .complete ∧ i'.tokens = [] ∧ ∃ ps, Cut r i ps ∧ ps.map Prod.snd = ds := by
  induction n generalizing i ds with
  | zero => cases h
  | succ n ih =>
    obtain ⟨ts,k⟩ := i
    obtain ⟨b,i₁,hb,h⟩ := bind_eq_ok h
    cases hb
    rcases ite_eq_ok h with ⟨hdone,h⟩ | ⟨-,h⟩
    · cases h
      simp only [Bool.and_eq_true,List.isEmpty_iff,beq_iff_eq] at hdone
      obtain ⟨rfl,hending⟩ := hdone
      exact ⟨hending,rfl,[],.nil k,rfl⟩
    · obtain ⟨d,i₂,hd,h⟩ := bind_eq_ok h
      obtain ⟨ds,i₃,hds,h⟩ := bind_eq_ok h
      cases h
      obtain ⟨hending,hrest,ps,hps,rfl⟩ := ih hds
      obtain ⟨piece,-,htokens⟩ := declaration_takes hd
      cases htokens
      exact ⟨hending,hrest,(piece,d) :: ps,.cons hd hps,rfl⟩

namespace Cut

variable {r : Reading} {i : Input} {ps : List (List Token × Decl)}

theorem flatten (h : Cut r i ps) : (ps.map Prod.fst).flatten = i.tokens := by
  induction h with
  | nil => rfl
  | cons _ _ ih => rw [List.map_cons,List.flatten_cons,ih]

theorem ne_nil (h : Cut r i ps) : ∀ q ∈ ps, q.1 ≠ [] := by
  induction h with
  | nil => exact nofun
  | cons hd _ ih =>
    refine List.forall_mem_cons.2 ⟨?_,ih⟩
    rintro rfl
    obtain ⟨piece,hpiece,htokens⟩ := declaration_takes hd
    exact hpiece (List.self_eq_append_left.1 htokens)

theorem eq_nil_of_tokens (h : Cut r i ps) (hi : i.tokens = []) : ps = [] := by
  rw [← h.flatten,List.flatten_eq_nil_iff] at hi
  exact List.eq_nil_iff_forall_not_mem.2 fun q hq => h.ne_nil q hq (hi q.1 (List.mem_map_of_mem hq))

/-- The parser decides where each piece ends, so there is no other way to cut the input. -/
theorem unique {qs : List (List Token × Decl)} (h : Cut r i ps) (h' : Cut r i qs) : ps = qs := by
  induction h generalizing qs with
  | nil n => exact (h'.eq_nil_of_tokens rfl).symm
  | @cons piece rest d ps n n' hd later ih =>
    generalize hi : (⟨piece ++ rest,n⟩ : Input) = i at h'
    cases h' with
    | nil => exact (Cut.cons hd later).eq_nil_of_tokens (congrArg Input.tokens hi)
    | @cons piece' rest' d' ps' k k' hd' later' =>
      rw [hi] at hd
      cases hd.symm.trans hd'
      obtain rfl : piece = piece' := List.append_cancel_right (congrArg Input.tokens hi)
      rw [ih later']

/-- What comes before a token that begins a line is no declaration by itself, unless the token is a sign for the
alternatives of a data type and a data type is what comes before it. -/
theorem delimited (h : Cut r i ps) : ∀ q ∈ ps, ∀ before t after, q.1 = before ++ t :: after → t.atLineStart = true →
    ∀ r' n d n', r'.source = r.source → declaration r' ⟨before,n⟩ = .ok (d,⟨[],n'⟩) →
      (∃ e, d = .datatype e) ∧ (t.isSymbol "=" = true ∨ t.isSymbol "|" = true) := by
  induction h with
  | nil => exact nofun
  | @cons piece rest d ps n n' hd _ ih =>
    refine List.forall_mem_cons.2 ⟨?_,ih⟩
    rintro before t after rfl ht r' k d' k' hr hbefore
    obtain ⟨ts,hts,htokens⟩ := declaration_takes hbefore
    obtain ⟨u,us,rfl⟩ := List.exists_cons_of_ne_nil hts
    obtain rfl : before = u :: us := by simpa using htokens
    by_contra hexception
    have hnext : (∃ e, d' = .datatype e) → t.isSymbol "=" = false ∧ t.isSymbol "|" = false := by
      intro hdata
      simpa [hdata] using hexception
    -- the same declaration is read with more behind it, so the piece would have ended before the token
    let x : Sequel := ⟨r',r,hr.symm,t,ht,after ++ rest⟩
    have hlong : Parser.declaration r ⟨x.after (u :: us),k⟩ = .ok (d',⟨x.after [],k'⟩) :=
      Carries.declaration (u :: us) k d' [] k' hbefore hnext
    have hpiece : Parser.declaration r ⟨x.after (u :: us),k⟩ = .ok (d,⟨rest,n'⟩) := by
      have hafter : x.after (u :: us) = u :: us ++ t :: after ++ rest := by simp [Sequel.after,x]
      rw [hafter]
      exact hd
    rw [hpiece] at hlong
    have hrest : rest = x.after [] := congrArg (fun y => y.2.tokens) (Except.ok.inj hlong)
    have hlength := congrArg List.length hrest
    simp [x] at hlength
    omega

end Cut

end Parser

/-- The declarations of a module are read from pieces of the tokens, and no piece goes on with a token in the first
column where it could have ended, but for the signs of the alternatives of a data type, which are taken in the first
column too. -/
theorem declarations_delimited {s : Source} {m : Module} {i : Input}
    (h : Parser.wholeModule.runOn s = .ok (m,i)) :
    s.tokens.2 = .complete ∧ i.tokens = [] ∧ ∃ ps, Parser.Cut ⟨s,.complete⟩ ⟨s.tokens.1,0⟩ ps ∧
      ps.map Prod.snd = m.decls ∧ (ps.map Prod.fst).flatten = s.tokens.1 ∧
      ∀ q ∈ ps, q.1 ≠ [] ∧ ∀ before t after, q.1 = before ++ t :: after → (s.position t.start).column = 1 →
        ∀ r n d n', r.source = s → Parser.declaration r ⟨before,n⟩ = .ok (d,⟨[],n'⟩) →
          (∃ e, d = .datatype e) ∧ (t.isSymbol "=" = true ∨ t.isSymbol "|" = true) := by
  obtain ⟨ds,i',hds,h⟩ := Parser.bind_eq_ok h
  cases h
  obtain ⟨hending,hrest,ps,hcut,rfl⟩ := Parser.cut_of_declarations hds
  have hflatten : (ps.map Prod.fst).flatten = s.tokens.1 := hcut.flatten
  have hending : s.tokens.2 = .complete := hending
  rw [hending] at hcut
  refine ⟨hending,hrest,ps,hcut,rfl,hflatten,fun q hq => ⟨hcut.ne_nil q hq,fun before t after hpiece hcolumn => ?_⟩⟩
  have ht : t ∈ s.tokens.1 := by
    rw [← hflatten]
    refine List.mem_flatten.2 ⟨q.1,List.mem_map_of_mem hq,?_⟩
    simp [hpiece]
  obtain ⟨pre,post,hstands⟩ := Source.stands_of_mem_tokens ht
  exact hcut.delimited q hq before t after hpiece (hstands.column_eq_one_iff.1 hcolumn)

def Source.unindented : Source := ⟨0,"t.hole","data T\n= A\ntype Int\n"⟩

theorem Source.tokens_unindented : Source.unindented.tokens =
    ([⟨.keyword,"data",0,4,true⟩,⟨.ident,"T",5,6,false⟩,⟨.symbol,"=",7,8,true⟩,⟨.ident,"A",9,10,false⟩,
      ⟨.keyword,"type",11,15,true⟩,⟨.ident,"Int",16,19,false⟩],.complete) := by
  decide +kernel

theorem declarations_delimited_unindented : ∃ m i ps before t after later,
    Parser.wholeModule.runOn .unindented = .ok (m,i) ∧
      m.decls = [.datatype ⟨"T",[],[⟨"A",[]⟩]⟩,.primitive "Int"] ∧
      Parser.Cut ⟨.unindented,.complete⟩ ⟨Source.unindented.tokens.1,0⟩ ps ∧ ps.map Prod.snd = m.decls ∧
      (ps.map Prod.fst).flatten = Source.unindented.tokens.1 ∧
      ps.map Prod.fst = [before ++ t :: after,later] ∧
      before.map Token.text = ["data","T"] ∧ t.text = "=" ∧ after.map Token.text = ["A"] ∧
      later.map Token.text = ["type","Int"] ∧ (Source.unindented.position t.start).column = 1 ∧
      ∃ d n, Parser.declaration ⟨.unindented,.complete⟩ ⟨before,0⟩ = .ok (d,⟨[],n⟩) ∧
        (∃ e, d = .datatype e) ∧ (t.isSymbol "=" = true ∨ t.isSymbol "|" = true) := by
  obtain ⟨m,i,hm,hdecls⟩ : ∃ m i, Parser.wholeModule.runOn .unindented = .ok (m,i) ∧
      m.decls = [.datatype ⟨"T",[],[⟨"A",[]⟩]⟩,.primitive "Int"] := by
    rw [Parser.runOn,Source.tokens_unindented]
    exact ⟨_,_,rfl,rfl⟩
  obtain ⟨-,-,ps,hcut,hsnd,hflatten,hpieces⟩ := declarations_delimited hm
  have hfirst : Parser.declaration ⟨.unindented,.complete⟩
      ⟨[⟨.keyword,"data",0,4,true⟩,⟨.ident,"T",5,6,false⟩] ++ ⟨.symbol,"=",7,8,true⟩ :: [⟨.ident,"A",9,10,false⟩] ++
        [⟨.keyword,"type",11,15,true⟩,⟨.ident,"Int",16,19,false⟩],0⟩ =
      .ok (.datatype ⟨"T",[],[⟨"A",[]⟩]⟩,
        ⟨[⟨.keyword,"type",11,15,true⟩,⟨.ident,"Int",16,19,false⟩],10⟩) := rfl
  have hlast : Parser.declaration ⟨.unindented,.complete⟩
      ⟨[⟨.keyword,"type",11,15,true⟩,⟨.ident,"Int",16,19,false⟩] ++ [],10⟩ = .ok (.primitive "Int",⟨[],19⟩) := rfl
  have htokens := hcut
  rw [Source.tokens_unindented] at htokens
  obtain rfl := htokens.unique (.cons hfirst (.cons hlast (.nil 19)))
  have hcolumn : (Source.unindented.position 7).column = 1 := by decide +kernel
  obtain ⟨d,n,hbefore⟩ : ∃ d n, Parser.declaration ⟨.unindented,.complete⟩
      ⟨[⟨.keyword,"data",0,4,true⟩,⟨.ident,"T",5,6,false⟩],0⟩ = .ok (d,⟨[],n⟩) := ⟨_,_,rfl⟩
  obtain ⟨-,hbreak⟩ := hpieces _ List.mem_cons_self
  have hexception := hbreak _ _ _ rfl hcolumn _ _ _ _ rfl hbefore
  exact ⟨m,i,_,_,_,_,_,hm,hdecls,hcut,hsnd,hflatten,rfl,rfl,rfl,rfl,rfl,hcolumn,d,n,hbefore,hexception⟩

end TypedHole
