import TypedHole.Proofs.HoleListing
import TypedHole.Proofs.Scanning

/-! Parsing always comes to an end.
A parser that works within some tokens takes tokens from the front, and if it stops without a result, then for want
of a token or at one of them. Each loop has more rounds than there are tokens, and each round takes one.
Main statement: the parser of modules settles, whatever the tokens are (`Parser.Settles.wholeModule`). -/
namespace TypedHole

/-- Why a parser can stop within some tokens: none is left where one is needed, or one of them is refused. -/
inductive Stop.Arises (r : Reading) (all : List Token) : Stop → Prop
  | noToken : Arises r all r.noToken
  | refused (w : Expectation) {t : Token} (ht : t ∈ all) :
      Arises r all (.error (.unexpected w (r.source.span t.start t.stop)))

/-- An offset where one of some tokens begins or ends, or where the text begins. -/
def Token.Mark (all : List Token) (n : Nat) : Prop := n = 0 ∨ ∃ t ∈ all, n = t.start ∨ n = t.stop

/-- A span between such offsets. -/
def Span.Marked (all : List Token) (s : Span) : Prop := Token.Mark all s.start ∧ Token.Mark all s.stop

/-- An input that is what remains of some tokens. -/
structure Input.Remains (all : List Token) (i : Input) : Prop where
  tokens : i.tokens <:+ all
  lastStop : Token.Mark all i.lastStop

def Decl.spans : Decl → List Span
  | .extension _ s => [s]
  | .equation e => e.nodes.map Node.span
  | _ => []

def Module.spans (m : Module) : List Span := m.decls.flatMap Decl.spans

namespace Parser

variable {α β : Type}

/-- Where fewer than `n` tokens remain, a parser returns something with a property and has taken at least `k`
tokens, or it stops for a reason that can arise. -/
def Settles (all : List Token) (n k : Nat) (p : Parser α) (Q : α → Prop) : Prop :=
  ∀ r i, i.Remains all → i.tokens.length < n →
    (∃ a i', p r i = .ok (a,i') ∧ i'.Remains all ∧ i'.tokens.length + k ≤ i.tokens.length ∧ Q a) ∨
      ∃ e, p r i = .error e ∧ e.Arises r all

namespace Settles

variable {all : List Token} {n n' k k' : Nat} {p : Parser α} {P : α → Prop} {Q : β → Prop}

theorem zero : p.Settles all 0 k P := fun _ _ _ h => absurd h (Nat.not_lt_zero _)

theorem mono {Q : α → Prop} (h : p.Settles all n k P) (hn : n' ≤ n) (hk : k' ≤ k) (hq : ∀ a, P a → Q a) :
    p.Settles all n' k' Q := by
  intro r i hi hlt
  rcases h r i hi (by omega) with ⟨a,i',hok,hi',hlength,ha⟩ | hstop
  · exact .inl ⟨a,i',hok,hi',by omega,hq a ha⟩
  · exact .inr hstop

theorem fewer (h : p.Settles all n k P) (hn : n' ≤ n) : p.Settles all n' k P :=
  h.mono hn (Nat.le_refl k) fun _ ha => ha

/-- What has been taken need not be counted. -/
theorem within (h : p.Settles all n k P) (hn : n' ≤ n) : p.Settles all n' 0 P :=
  h.mono hn (Nat.zero_le _) fun _ ha => ha

theorem pure {a : α} (h : P a) : Settles all n 0 (Pure.pure a : Parser α) P := fun _ i hi _ =>
  .inl ⟨a,i,rfl,hi,Nat.le_refl _,h⟩

theorem refuse (w : Expectation) {t : Token} (ht : t ∈ all) : (Parser.refuse w t : Parser α).Settles all n k P :=
  fun _ _ _ _ => .inr ⟨_,rfl,.refused w ht⟩

/-- What the first parser takes leaves fewer rounds to the second. -/
theorem bind_taken {f : α → Parser β} (hp : p.Settles all n k P) (hf : ∀ a, P a → (f a).Settles all (n - k) 0 Q) :
    (p >>= f).Settles all n k Q := by
  intro r i hi hlt
  rcases hp r i hi hlt with ⟨a,i',hok,hi',hlength,ha⟩ | ⟨e,herror,he⟩
  · simp only [Bind.bind,hok]
    rcases hf a ha r i' hi' (by omega) with ⟨b,i'',hok',hi'',hlength',hb⟩ | hstop
    · exact .inl ⟨b,i'',hok',hi'',by omega,hb⟩
    · exact .inr hstop
  · exact .inr ⟨e,by simp only [Bind.bind,herror],he⟩

/-- The tokens that the second parser takes count when the first one need not take any. -/
theorem bind {f : α → Parser β} (hp : p.Settles all n k P) (hf : ∀ a, P a → (f a).Settles all n k' Q) :
    (p >>= f).Settles all n k' Q := by
  intro r i hi hlt
  rcases hp r i hi hlt with ⟨a,i',hok,hi',hlength,ha⟩ | ⟨e,herror,he⟩
  · simp only [Bind.bind,hok]
    rcases hf a ha r i' hi' (by omega) with ⟨b,i'',hok',hi'',hlength',hb⟩ | hstop
    · exact .inl ⟨b,i'',hok',hi'',by omega,hb⟩
    · exact .inr hstop
  · exact .inr ⟨e,by simp only [Bind.bind,herror],he⟩

theorem ite {b : Bool} {p' : Parser α} (hp : b = true → p.Settles all n k P)
    (hp' : b = false → p'.Settles all n k P) : (if b then p else p').Settles all n k P := by
  cases b with
  | true => exact hp rfl
  | false => exact hp' rfl

/-! What looks at tokens or takes them. -/

theorem take : Parser.take.Settles all n 1 (· ∈ all) := by
  rintro r ⟨ts,m⟩ ⟨hsuffix,-⟩ -
  cases ts with
  | nil => exact .inr ⟨_,rfl,.noToken⟩
  | cons t ts =>
    have ht : t ∈ all := hsuffix.subset List.mem_cons_self
    exact .inl ⟨t,_,rfl,⟨(List.suffix_cons t ts).trans hsuffix,.inr ⟨t,ht,.inr rfl⟩⟩,Nat.le_refl _,ht⟩

theorem peek : Parser.peek.Settles all n 0 (· ∈ all) := by
  rintro r ⟨ts,m⟩ hi -
  cases ts with
  | nil => exact .inr ⟨_,rfl,.noToken⟩
  | cons t ts => exact .inl ⟨t,_,rfl,hi,Nat.le_refl _,hi.tokens.subset List.mem_cons_self⟩

theorem peek? : Parser.peek?.Settles all n 0 fun t => ∀ t' ∈ t, t' ∈ all := by
  rintro r ⟨ts,m⟩ hi -
  cases ts with
  | nil =>
    cases hnone : r.noToken with
    | error e => exact .inl ⟨none,_,by simp [Parser.peek?,hnone],hi,Nat.le_refl _,nofun⟩
    | noEnd => exact .inr ⟨_,by simp [Parser.peek?,hnone],.noToken⟩
    | exhausted => exact .inr ⟨_,by simp [Parser.peek?,hnone],.noToken⟩
  | cons t ts =>
    refine .inl ⟨some t,_,rfl,hi,Nat.le_refl _,fun t' ht' => ?_⟩
    exact Option.some.inj ht' ▸ hi.tokens.subset List.mem_cons_self

theorem peekInside? : Parser.peekInside?.Settles all n 0 fun _ => True := peek?.bind fun _ _ => .pure trivial

theorem offset : Parser.offset.Settles all n 0 (Token.Mark all) := by
  rintro r ⟨ts,m⟩ hi -
  refine .inl ⟨_,_,rfl,hi,Nat.le_refl _,?_⟩
  cases ts with
  | nil => exact hi.lastStop
  | cons t ts => exact .inr ⟨t,hi.tokens.subset List.mem_cons_self,.inl rfl⟩

theorem spanFrom {start : Nat} (h : Token.Mark all start) :
    (Parser.spanFrom start).Settles all n 0 (Span.Marked all) := by
  intro r i hi _
  refine .inl ⟨_,_,rfl,hi,Nat.le_refl _,h,?_⟩
  rcases Nat.le_total i.lastStop start with hle | hle
  · simpa [Source.spanSince,Source.span,Nat.max_eq_right hle] using h
  · simpa [Source.spanSince,Source.span,Nat.max_eq_left hle] using hi.lastStop

theorem isComplete : Parser.isComplete.Settles all n 0 fun _ => True := fun _ i hi _ =>
  .inl ⟨_,i,rfl,hi,Nat.le_refl _,trivial⟩

theorem taken {test : Token → Bool} {p : Parser (Option Token)} {P : Option Token → Prop}
    (hp : p.Settles all n 0 P) :
    (do
      match ← p with
      | some t => if test t then do let _ ← Parser.take; Pure.pure true else Pure.pure false
      | none => Pure.pure false : Parser Bool).Settles all n 0 fun _ => True :=
  hp.bind fun t _ => match t with
    | some _ => .ite (fun _ => take.bind fun _ _ => .pure trivial) fun _ => .pure trivial
    | none => .pure trivial

theorem symbol? (text : String) : (Parser.symbol? text).Settles all n 0 fun _ => True := taken peek?

theorem arrow? : Parser.arrow?.Settles all n 0 fun _ => True := taken peekInside?

theorem symbol (text : String) : (Parser.symbol text).Settles all n 1 fun _ => True :=
  take.bind_taken fun _ ht => .ite (fun _ => .pure trivial) fun _ => .refuse _ ht

theorem arrow : Parser.arrow.Settles all n 1 fun _ => True :=
  take.bind_taken fun _ ht => .ite (fun _ => .pure trivial) fun _ => .refuse _ ht

theorem identifier : Parser.identifier.Settles all n 1 fun _ => True :=
  take.bind_taken fun _ ht => .ite (fun _ => .pure trivial) fun _ => .refuse _ ht

theorem capitalizedName : Parser.capitalizedName.Settles all n 1 fun _ => True :=
  take.bind_taken fun _ ht => .ite (fun _ => .refuse _ ht) fun _ =>
    .ite (fun _ => .pure trivial) fun _ => .refuse _ ht

/-! Loops. Of `m` rounds and `n` tokens the smaller number bounds what they can take. -/

theorem measured {p : Nat → Parser α} (h : ∀ m, (p m).Settles all (min m n) k P) :
    (Parser.measured p).Settles all n k P := fun r i hi hlt =>
  h (i.tokens.length + 1) r i hi (by omega)

theorem extendWhile {test : Token → Bool} {step : α → Parser α} (h : ∀ a, P a → (step a).Settles all n 1 P)
    (m : Nat) {a : α} (ha : P a) : (Parser.extendWhile test step m a).Settles all (min m n) 0 P := by
  induction m generalizing a with
  | zero => exact Nat.zero_min n ▸ zero
  | succ m ih =>
    refine peekInside?.bind fun t _ => match t with
      | some _ => .ite (fun _ => ?_) fun _ => .pure ha
      | none => .pure ha
    have hround := (h a ha).fewer (Nat.min_le_right (m + 1) n)
    exact (hround.bind_taken fun b hb => (ih hb).within (by omega)).within (Nat.le_refl _)

theorem itemsUntil (close : String) {item : Parser α} (h : item.Settles all n 1 P) (m : Nat) :
    (Parser.itemsUntil close item m).Settles all (min m n) 0 fun as => ∀ a ∈ as, P a := by
  induction m with
  | zero => exact Nat.zero_min n ▸ zero
  | succ m ih =>
    refine (symbol? close).bind fun _ _ => .ite (fun _ => .pure (by simp)) fun _ => ?_
    have hround := h.fewer (Nat.min_le_right (m + 1) n)
    refine (hround.bind_taken fun a ha => ?_).within (Nat.le_refl _)
    exact (ih.within (by omega)).bind fun _ has => .pure (List.forall_mem_cons.2 ⟨ha,has⟩)

theorem itemsBetween (between : String) {item : Parser α} (h : item.Settles all n 1 P) (m : Nat) :
    (Parser.itemsBetween between item m).Settles all (min m n) 0 fun as => ∀ a ∈ as, P a := by
  induction m with
  | zero => exact Nat.zero_min n ▸ zero
  | succ m ih =>
    have hround := h.fewer (Nat.min_le_right (m + 1) n)
    refine (hround.bind_taken fun a ha => ?_).within (Nat.le_refl _)
    refine (symbol? between).bind fun _ _ => .ite (fun _ => ?_) fun _ => .pure (by simpa using ha)
    exact (ih.within (by omega)).bind fun _ has => .pure (List.forall_mem_cons.2 ⟨ha,has⟩)

theorem names : Parser.names.Settles all n 0 fun _ => True :=
  measured fun m => extendWhile (fun _ _ => identifier.bind_taken fun _ _ => .pure trivial) m trivial

/-! Types. -/

theorem typeAtom {inner : Parser Ty} (h : inner.Settles all n 1 fun _ => True) :
    (Parser.typeAtom inner).Settles all (n + 1) 1 fun _ => True :=
  take.bind_taken fun _ ht => .ite (fun _ => .pure trivial) fun _ =>
    .ite (fun _ => (h.within (Nat.le_refl _)).bind fun _ _ => (symbol ")").bind fun _ _ => .pure trivial)
      fun _ => .refuse _ ht

theorem typeApplication {inner : Parser Ty} (h : inner.Settles all n 1 fun _ => True) :
    (Parser.typeApplication inner).Settles all (n + 1) 1 fun _ => True := by
  have hatom := typeAtom h
  refine hatom.bind_taken fun _ _ => ?_
  exact (measured fun m => extendWhile (fun _ _ => hatom.bind_taken fun _ _ => .pure trivial) m trivial).within
    (Nat.sub_le ..)

theorem typeWithin (n : Nat) : (Parser.typeWithin n).Settles all n 1 fun _ => True := by
  induction n with
  | zero => exact zero
  | succ n ih =>
    exact (typeApplication ih).bind_taken fun _ _ => arrow?.bind fun _ _ =>
      .ite (fun _ => (ih.within (Nat.le_refl _)).bind fun _ _ => .pure trivial) fun _ => .pure trivial

theorem type : Parser.type.Settles all n 1 fun _ => True :=
  measured fun m => (typeWithin m).fewer (Nat.min_le_left m n)

/-! Patterns and expressions, with the spans of all their parts. -/

theorem patternWithin (n : Nat) :
    (Parser.patternWithin n).Settles all n 1 fun p => ∀ d ∈ p.nodes, d.span.Marked all := by
  induction n with
  | zero => exact zero
  | succ n ih =>
    refine offset.bind fun start hstart => take.bind_taken fun t ht => .ite
      (fun _ => (spanFrom hstart).bind fun span hspan => ?name) fun _ => .ite (fun _ => peek.bind fun head hhead =>
        .ite (fun _ => ?ctor) fun _ => ?inner) fun _ => .refuse _ ht
    case name =>
      exact .ite (fun _ => .pure (by simpa [Pat.nodes,Node.span,Pat.span] using hspan)) fun _ =>
        .ite (fun _ => .pure (by simpa [Pat.nodes,Pat.nodesOfList,Node.span,Pat.span] using hspan)) fun _ =>
          .pure (by simpa [Pat.nodes,Node.span,Pat.span] using hspan)
    case ctor =>
      refine capitalizedName.bind fun c _ => (measured (itemsUntil ")" ih)).bind fun args hargs =>
        (spanFrom hstart).bind fun span hspan => .pure ?_
      rw [Pat.nodes,List.forall_mem_cons,Node.nodesOfList_eq]
      refine ⟨hspan,fun d hd => ?_⟩
      obtain ⟨arg,harg,hd⟩ := List.mem_flatMap.1 hd
      exact hargs arg harg d hd
    case inner => exact ih.bind fun p hp => (symbol ")").bind fun _ _ => .pure hp

theorem pattern : Parser.pattern.Settles all n 1 fun p => ∀ d ∈ p.nodes, d.span.Marked all :=
  measured fun m => (patternWithin m).fewer (Nat.min_le_left m n)

section

variable {inner : Parser Expr}

theorem atom (h : inner.Settles all n 1 fun e => ∀ d ∈ e.nodes, d.span.Marked all) :
    (Parser.atom inner).Settles all (n + 1) 1 fun e => ∀ d ∈ e.nodes, d.span.Marked all := by
  refine offset.bind fun start hstart => take.bind_taken fun t ht => .ite
    (fun _ => (spanFrom hstart).bind fun span hspan => .pure ?name) fun _ => .ite
      (fun _ => (spanFrom hstart).bind fun span hspan => .pure ?number) fun _ => .ite
        (fun _ => h.bind fun e he => (symbol? ":").bind fun _ _ => .ite (fun _ => ?annotated) fun _ =>
          (symbol ")").bind fun _ _ => .pure he) fun _ => .refuse _ ht
  case name => split <;> simpa [Expr.nodes,Node.span,Expr.span] using hspan
  case number => simpa [Expr.nodes,Node.span,Expr.span] using hspan
  case annotated =>
    exact type.bind fun _ _ => (symbol ")").bind fun _ _ => (spanFrom hstart).bind fun span hspan =>
      .pure (by
        rw [Expr.nodes,List.forall_mem_cons]
        exact ⟨hspan,he⟩)

theorem application (h : inner.Settles all n 1 fun e => ∀ d ∈ e.nodes, d.span.Marked all) :
    (Parser.application inner).Settles all (n + 1) 1 fun e => ∀ d ∈ e.nodes, d.span.Marked all := by
  have hatom := atom h
  refine offset.bind fun start hstart => hatom.bind_taken fun fn hfn => ?_
  refine (measured fun m => extendWhile (fun fn hfn => hatom.bind_taken fun arg harg => ?_) m hfn).within
    (Nat.sub_le ..)
  refine (spanFrom hstart).bind fun span hspan => .pure ?_
  simp only [Expr.nodes,List.forall_mem_cons,List.forall_mem_append]
  exact ⟨hspan,hfn,harg⟩

theorem operation (h : inner.Settles all n 1 fun e => ∀ d ∈ e.nodes, d.span.Marked all) :
    (Parser.operation inner).Settles all (n + 1) 1 fun e => ∀ d ∈ e.nodes, d.span.Marked all := by
  have happlication := application h
  refine offset.bind fun start hstart => happlication.bind_taken fun lhs hlhs => ?_
  refine (measured fun m => extendWhile (fun lhs hlhs => take.bind_taken fun op _ =>
    (happlication.within (Nat.sub_le ..)).bind fun rhs hrhs => ?_) m hlhs).within (Nat.sub_le ..)
  refine (spanFrom hstart).bind fun span hspan => .pure ?_
  simp only [Expr.nodes,List.forall_mem_cons,List.forall_mem_append]
  exact ⟨hspan,hlhs,hrhs⟩

theorem lambda (h : inner.Settles all n 1 fun e => ∀ d ∈ e.nodes, d.span.Marked all) {start : Nat}
    (hstart : Token.Mark all start) :
    (Parser.lambda inner start).Settles all n 0 fun e => ∀ d ∈ e.nodes, d.span.Marked all :=
  identifier.bind fun _ _ => names.bind fun _ _ => arrow.bind fun _ _ => h.bind fun body hbody =>
    (spanFrom hstart).bind fun span hspan => .pure (by
      rw [Expr.nodes,List.forall_mem_cons]
      exact ⟨hspan,hbody⟩)

theorem expressionWithin (n : Nat) :
    (Parser.expressionWithin n).Settles all n 1 fun e => ∀ d ∈ e.nodes, d.span.Marked all := by
  induction n with
  | zero => exact zero
  | succ n ih =>
    exact offset.bind fun start hstart => peek?.bind fun t _ => match t with
      | some _ => .ite (fun _ => take.bind_taken fun _ _ => lambda ih hstart) fun _ => operation ih
      | none => operation ih

theorem expression : Parser.expression.Settles all n 1 fun e => ∀ d ∈ e.nodes, d.span.Marked all :=
  measured fun m => (expressionWithin m).fewer (Nat.min_le_left m n)

end

/-! Declarations. -/

theorem fieldType : (Parser.typeAtom Parser.type).Settles all n 1 fun _ => True :=
  (typeAtom type).fewer (Nat.le_succ n)

theorem constructor : Parser.constructor.Settles all n 1 fun _ => True :=
  capitalizedName.bind_taken fun _ _ => (measured fun m => extendWhile (P := fun _ => True)
    (fun _ _ => fieldType.bind_taken fun _ _ => .pure trivial) m trivial).bind fun _ _ => .pure trivial

theorem datatype : Parser.datatype.Settles all n 0 fun _ => True :=
  capitalizedName.bind fun _ _ => names.bind fun _ _ => (symbol? "=").bind fun _ _ =>
    .ite (fun _ => (measured (itemsBetween "|" constructor)).bind fun _ _ => .pure trivial) fun _ => .pure trivial

theorem method : Parser.method.Settles all n 1 fun _ => True :=
  identifier.bind_taken fun _ _ => (symbol ":").bind fun _ _ => type.bind fun _ _ => .pure trivial

theorem classDecl : Parser.classDecl.Settles all n 0 fun _ => True :=
  capitalizedName.bind fun _ _ => identifier.bind fun _ _ => (symbol "\x7b").bind fun _ _ =>
    (symbol? "\x7d").bind fun _ _ => .ite (fun _ => .pure trivial) fun _ =>
      (measured (itemsBetween "," method)).bind fun _ _ => (symbol "\x7d").bind fun _ _ => .pure trivial

theorem instanceDecl : Parser.instanceDecl.Settles all n 0 fun _ => True :=
  capitalizedName.bind fun _ _ => fieldType.bind fun _ _ => .pure trivial

theorem definition (name : Name) {start : Nat} (hstart : Token.Mark all start) :
    (Parser.definition name start).Settles all n 0 fun d => ∀ s ∈ d.spans, s.Marked all := by
  refine (symbol? ":").bind fun _ _ => .ite (fun _ => type.bind fun _ _ => .pure nofun) fun _ =>
    (measured (itemsUntil "=" pattern)).bind fun pats hpats => expression.bind fun rhs hrhs =>
      (spanFrom hstart).bind fun span hspan => .pure ?_
  simp only [Decl.spans,List.forall_mem_map,Equation.nodes,List.forall_mem_cons,List.forall_mem_append,
    List.forall_mem_flatMap]
  exact ⟨hspan,hpats,hrhs⟩

theorem declaration : Parser.declaration.Settles all n 1 fun d => ∀ s ∈ d.spans, s.Marked all := by
  refine offset.bind fun start hstart => take.bind_taken fun t ht => ?_
  split
  · exact datatype.bind fun _ _ => .pure nofun
  · exact (capitalizedName.within (Nat.le_refl _)).bind fun _ _ => .pure nofun
  · exact classDecl.bind fun _ _ => .pure nofun
  · exact instanceDecl.bind fun _ _ => .pure nofun
  · exact identifier.bind fun _ _ => (spanFrom hstart).bind fun _ hspan => .pure (by simpa [Decl.spans] using hspan)
  · exact definition _ hstart
  · exact .refuse _ ht

theorem declarations (m : Nat) :
    (Parser.declarations m).Settles all (min m n) 0 fun ds => ∀ d ∈ ds, ∀ s ∈ d.spans, s.Marked all := by
  induction m with
  | zero => exact Nat.zero_min n ▸ zero
  | succ m ih =>
    refine isComplete.bind fun _ _ => .ite (fun _ => .pure (by simp)) fun _ => ?_
    refine (declaration.bind_taken fun d hd => ?_).within (Nat.le_refl _)
    exact (ih.within (by omega)).bind fun ds hds => .pure (List.forall_mem_cons.2 ⟨hd,hds⟩)

/-- The parser of modules comes to an end, whatever the tokens are. -/
theorem wholeModule : Parser.wholeModule.Settles all n 0 fun m => ∀ s ∈ m.spans, s.Marked all :=
  (measured declarations).bind fun _ hds => .pure fun s hs =>
    have ⟨d,hd,hs⟩ := List.mem_flatMap.1 hs
    hds d hd s hs

end Settles

theorem Settles.takes {α : Type} {p : Parser α} {Q : List Token → α → Prop} (h : ∀ all n, p.Settles all n 1 (Q all))
    {r : Reading} {i i' : Input} {a : α} (ha : p r i = .ok (a,i')) :
    ∃ ts, ts ≠ [] ∧ i.tokens = ts ++ i'.tokens := by
  -- a token that ends where the last one did, so that the input remains of the tokens
  let t : Token := ⟨.symbol,"",0,i.lastStop,false⟩
  have hi : i.Remains (t :: i.tokens) := ⟨List.suffix_cons t i.tokens,.inr ⟨t,List.mem_cons_self,.inr rfl⟩⟩
  rcases h (t :: i.tokens) (i.tokens.length + 1) r i hi (Nat.lt_succ_self _) with
    ⟨b,j,hb,hj,hlength,-⟩ | ⟨e,he,-⟩
  · rw [ha] at hb
    cases hb
    rcases List.suffix_cons_iff.1 hj.tokens with heq | ⟨ts,hts⟩
    · rw [heq,List.length_cons] at hlength
      omega
    · refine ⟨ts,?_,hts.symm⟩
      rintro rfl
      rw [← hts,List.nil_append] at hlength
      omega
  · rw [ha] at he
    cases he

theorem declaration_takes {r : Reading} {i i' : Input} {d : Decl} (h : declaration r i = .ok (d,i')) :
    ∃ ts, ts ≠ [] ∧ i.tokens = ts ++ i'.tokens :=
  Settles.takes (fun _ _ => Settles.declaration) h

end Parser

end TypedHole
