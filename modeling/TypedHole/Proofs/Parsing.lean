import TypedHole.Parser.Declaration

/-! What the parser makes sure of.
It takes tokens from the front only, and tokens follow one another in the text; so what is read later
stands further on. Main statement: in the declarations that have been read, names of types and constructors
start with a capital letter, and variables of patterns neither do so nor mark holes
(`Parser.Reads.declarations`). -/
namespace TypedHole

mutual

/-- The variables of a pattern from left to right. -/
def Pat.vars : Pat → List Name
  | .var x _ => [x]
  | .wildcard _ => []
  | .ctor _ args _ => Pat.varsOfList args

def Pat.varsOfList : List Pat → List Name
  | [] => []
  | p :: ps => p.vars ++ Pat.varsOfList ps

end

theorem Pat.mem_varsOfList {x : Name} {ps : List Pat} : x ∈ varsOfList ps ↔ ∃ p ∈ ps, x ∈ p.vars := by
  induction ps with
  | nil => simp [varsOfList]
  | cons p ps ih => simp [varsOfList,ih]

/-- Tokens that follow one another, from an offset on. -/
def Token.InOrder : Nat → List Token → Prop
  | _, [] => True
  | n, t :: ts => n ≤ t.start ∧ t.start < t.stop ∧ InOrder t.stop ts

theorem byteSize_pos {cs : List Char} (h : cs ≠ []) : 0 < byteSize cs := by
  obtain ⟨c,cs,rfl⟩ := List.exists_cons_of_ne_nil h
  have := c.utf8Size_pos
  rw [byteSize_cons]
  omega

namespace Cursor

theorem offset_le_skip (p : Cursor) (n : Nat) : p.offset ≤ (p.skip n).offset := Nat.le_add_right ..

theorem offset_le_skipGaps (p : Cursor) : p.offset ≤ p.skipGaps.offset := by
  fun_induction skipGaps p with
  | case1 => exact Nat.le_refl _
  | case2 p _ ih => exact Nat.le_trans (p.offset_le_skip _) ih

/-- A token takes up room, and scanning goes on behind it. -/
theorem token_of_next {p q : Cursor} {t : Token} (h : p.next = .token t q) :
    p.offset ≤ t.start ∧ t.start < t.stop ∧ q.offset = t.stop := by
  have hgaps := p.offset_le_skipGaps
  simp only [next,scan] at h
  split at h
  next k n hf =>
    have hne : p.skipGaps.rest.take n ≠ [] := fun he => (List.take_eq_nil_iff.1 he).elim
      (Nat.ne_of_gt (Lexeme.pos_of_first? hf)) (Lexeme.ne_nil_of_first? hf)
    have := byteSize_pos hne
    cases h
    refine ⟨hgaps,?_,rfl⟩
    simp only [skip]
    omega
  next => split at h <;> cases h

end Cursor

theorem Source.inOrder_tokensFrom (s : Source) (p : Cursor) : Token.InOrder p.offset (s.tokensFrom p).1 := by
  fun_induction s.tokensFrom p with
  | case1 => trivial
  | case2 => trivial
  | case3 p t q h ts e he ih =>
    obtain ⟨hs,ht,hq⟩ := Cursor.token_of_next h
    rw [he,hq] at ih
    exact ⟨hs,ht,ih⟩

theorem Source.spanSince_of_le (s : Source) {start stop : Nat} (h : start ≤ stop) :
    s.spanSince start stop = s.span start stop := by
  rw [spanSince,Nat.max_eq_left h]

/-- What is left follows what has been taken. -/
def Input.InOrder (i : Input) : Prop := Token.InOrder i.lastStop i.tokens

/-- An input that comes after another one. -/
def Input.Before (i i' : Input) : Prop := i.InOrder → i'.InOrder ∧ i.lastStop ≤ i'.lastStop

theorem Input.Before.refl (i : Input) : i.Before i := fun h => ⟨h,Nat.le_refl _⟩

theorem Input.Before.trans {i j k : Input} (h : i.Before j) (h' : j.Before k) : i.Before k := fun hi =>
  have ⟨hj,hl⟩ := h hi
  have ⟨hk,hl'⟩ := h' hj
  ⟨hk,Nat.le_trans hl hl'⟩

namespace Parser

variable {α β : Type}

/-- Whatever a parser returns has a property, and is followed by what is left. -/
def Reads (p : Parser α) (Q : α → Prop) : Prop :=
  ∀ r i a i', p r i = .ok (a,i') → i.Before i' ∧ Q a

theorem bind_eq_ok {p : Parser α} {f : α → Parser β} {r : Reading} {i i'' : Input} {b : β}
    (h : (p >>= f) r i = .ok (b,i'')) : ∃ a i', p r i = .ok (a,i') ∧ f a r i' = .ok (b,i'') := by
  simp only [Bind.bind] at h
  cases hp : p r i with
  | error e =>
    rw [hp] at h
    cases h
  | ok x =>
    obtain ⟨a,i'⟩ := x
    rw [hp] at h
    exact ⟨a,i',rfl,h⟩

theorem bind_of_eq_ok {p : Parser α} {f : α → Parser β} {r : Reading} {i i' : Input} {a : α}
    (h : p r i = .ok (a,i')) : (p >>= f) r i = f a r i' := by
  simp only [Bind.bind,h]

namespace Reads

variable {p : Parser α} {P : α → Prop} {Q : β → Prop}

theorem mono {Q : α → Prop} (h : p.Reads P) (hq : ∀ a, P a → Q a) : p.Reads Q := fun r i a i' ha =>
  (h r i a i' ha).imp_right (hq a)

theorem bind {f : α → Parser β} (hp : p.Reads P) (hf : ∀ a, P a → (f a).Reads Q) : (p >>= f).Reads Q := by
  intro r i b i'' h
  obtain ⟨a,i',ha,hb⟩ := bind_eq_ok h
  obtain ⟨hi,hPa⟩ := hp r i a i' ha
  obtain ⟨hi',hQb⟩ := hf a hPa r i' b i'' hb
  exact ⟨hi.trans hi',hQb⟩

theorem pure {a : α} (h : P a) : Reads (Pure.pure a : Parser α) P := by
  intro r i b i' hb
  cases hb
  exact ⟨.refl i,h⟩

theorem ite {b : Bool} {p' : Parser α} (hp : b = true → p.Reads P) (hp' : b = false → p'.Reads P) :
    (if b then p else p').Reads P := by
  cases b with
  | true => exact hp rfl
  | false => exact hp' rfl

theorem stop {e : Stop} : (Parser.stop e : Parser α).Reads P := by
  intro r i a i' h
  cases h

theorem refuse {w : Expectation} {t : Token} : (Parser.refuse w t : Parser α).Reads P := by
  intro r i a i' h
  cases h

theorem take : Parser.take.Reads fun _ => True := by
  rintro r ⟨ts,n⟩ t i' h
  cases ts with
  | nil => cases h
  | cons t ts =>
    cases h
    exact ⟨fun hi => ⟨hi.2.2,Nat.le_of_lt (Nat.lt_of_le_of_lt hi.1 hi.2.1)⟩,trivial⟩

theorem peek : Parser.peek.Reads fun _ => True := by
  rintro r ⟨ts,n⟩ t i' h
  cases ts with
  | nil => cases h
  | cons t ts =>
    cases h
    exact ⟨.refl _,trivial⟩

theorem peek? : Parser.peek?.Reads fun _ => True := by
  rintro r ⟨ts,n⟩ t i' h
  simp only [Parser.peek?] at h
  split at h <;> cases h
  all_goals exact ⟨.refl _,trivial⟩

theorem offset : Parser.offset.Reads fun _ => True := by
  intro r i n i' h
  cases h
  exact ⟨.refl _,trivial⟩

theorem spanFrom (start : Nat) : (Parser.spanFrom start).Reads fun _ => True := by
  intro r i s i' h
  cases h
  exact ⟨.refl _,trivial⟩

theorem isComplete : Parser.isComplete.Reads fun _ => True := by
  intro r i b i' h
  cases h
  exact ⟨.refl _,trivial⟩

theorem peekInside? : Parser.peekInside?.Reads fun _ => True := peek?.bind fun _ _ => .pure trivial

/-- After a look at the next token it is taken or left. -/
theorem taken {test : Token → Bool} {p : Parser (Option Token)} (hp : p.Reads fun _ => True) :
    (do
      match ← p with
      | some t => if test t then do let _ ← Parser.take; Pure.pure true else Pure.pure false
      | none => Pure.pure false : Parser Bool).Reads fun _ => True :=
  hp.bind fun t _ => match t with
    | some _ => .ite (fun _ => take.bind fun _ _ => .pure trivial) fun _ => .pure trivial
    | none => .pure trivial

theorem symbol? (text : String) : (Parser.symbol? text).Reads fun _ => True := taken peek?

theorem arrow? : Parser.arrow?.Reads fun _ => True := taken peekInside?

theorem symbol (text : String) : (Parser.symbol text).Reads fun _ => True :=
  take.bind fun _ _ => .ite (fun _ => .pure trivial) fun _ => .refuse

theorem arrow : Parser.arrow.Reads fun _ => True :=
  take.bind fun _ _ => .ite (fun _ => .pure trivial) fun _ => .refuse

theorem identifier : Parser.identifier.Reads fun _ => True :=
  take.bind fun _ _ => .ite (fun _ => .pure trivial) fun _ => .refuse

theorem measured {p : Nat → Parser α} (h : ∀ n, (p n).Reads P) : (Parser.measured p).Reads P :=
  fun r i a i' ha => h _ r i a i' ha

theorem extendWhile {test : Token → Bool} {step : α → Parser α} (h : ∀ a, P a → (step a).Reads P)
    (n : Nat) {a : α} (ha : P a) : (Parser.extendWhile test step n a).Reads P := by
  induction n generalizing a with
  | zero => exact .stop
  | succ n ih =>
    exact peekInside?.bind fun t _ => match t with
      | some _ => .ite (fun _ => (h a ha).bind fun _ hb => ih hb) fun _ => .pure ha
      | none => .pure ha

theorem itemsUntil (close : String) {item : Parser α} (h : item.Reads P) (n : Nat) :
    (Parser.itemsUntil close item n).Reads fun as => ∀ a ∈ as, P a := by
  induction n with
  | zero => exact .stop
  | succ n ih =>
    exact (symbol? close).bind fun _ _ => .ite (fun _ => .pure (by simp)) fun _ =>
      h.bind fun _ ha => ih.bind fun _ has => .pure (List.forall_mem_cons.2 ⟨ha,has⟩)

theorem itemsBetween (between : String) {item : Parser α} (h : item.Reads P) (n : Nat) :
    (Parser.itemsBetween between item n).Reads fun as => ∀ a ∈ as, P a := by
  induction n with
  | zero => exact .stop
  | succ n ih =>
    exact h.bind fun _ ha => (symbol? between).bind fun _ _ =>
      .ite (fun _ => ih.bind fun _ has => .pure (List.forall_mem_cons.2 ⟨ha,has⟩)) fun _ =>
        .pure (by simpa using ha)

theorem names : Parser.names.Reads fun _ => True :=
  measured fun n => extendWhile (fun _ _ => identifier.bind fun _ _ => .pure trivial) n trivial

/-! Types. -/

theorem capitalizedName : Parser.capitalizedName.Reads fun x => Name.isCapitalized x = true :=
  take.bind fun _ _ => .ite (fun _ => .refuse) fun _ => .ite (fun h => .pure h) fun _ => .refuse

theorem typeAtom {inner : Parser Ty} (h : inner.Reads fun _ => True) :
    (Parser.typeAtom inner).Reads fun _ => True :=
  take.bind fun _ _ => .ite (fun _ => .pure trivial) fun _ =>
    .ite (fun _ => h.bind fun _ _ => (symbol ")").bind fun _ _ => .pure trivial) fun _ => .refuse

theorem typeApplication {inner : Parser Ty} (h : inner.Reads fun _ => True) :
    (Parser.typeApplication inner).Reads fun _ => True :=
  (typeAtom h).bind fun _ _ => measured fun n =>
    extendWhile (fun _ _ => (typeAtom h).bind fun _ _ => .pure trivial) n trivial

theorem typeWithin (n : Nat) : (Parser.typeWithin n).Reads fun _ => True := by
  induction n with
  | zero => exact .stop
  | succ n ih =>
    exact (typeApplication ih).bind fun _ _ => arrow?.bind fun _ _ =>
      .ite (fun _ => ih.bind fun _ _ => .pure trivial) fun _ => .pure trivial

theorem type : Parser.type.Reads fun _ => True := measured typeWithin

/-! Patterns. -/

theorem patternWithin (n : Nat) :
    (Parser.patternWithin n).Reads fun p =>
      ∀ x ∈ p.vars, Name.isCapitalized x = false ∧ isHoleName x = false := by
  induction n with
  | zero => exact .stop
  | succ n ih =>
    refine offset.bind fun _ _ => take.bind fun t _ => .ite (fun _ => (spanFrom _).bind fun _ _ => ?name)
      fun _ => .ite (fun _ => peek.bind fun _ _ => .ite (fun _ => ?ctor) fun _ => ?inner) fun _ => .refuse
    case name =>
      exact .ite (fun _ => .pure (by simp [Pat.vars])) fun hhole =>
        .ite (fun _ => .pure (by simp [Pat.vars,Pat.varsOfList])) fun hcapital =>
          .pure (by simpa [Pat.vars] using ⟨hcapital,hhole⟩)
    case ctor =>
      refine capitalizedName.bind fun c _ => (measured (itemsUntil ")" ih)).bind fun args hargs =>
        (spanFrom _).bind fun _ _ => .pure fun x hx => ?_
      obtain ⟨p,hp,hx⟩ := Pat.mem_varsOfList.1 hx
      exact hargs p hp x hx
    case inner => exact ih.bind fun p hp => (symbol ")").bind fun _ _ => .pure hp

theorem pattern :
    Parser.pattern.Reads fun p => ∀ x ∈ p.vars, Name.isCapitalized x = false ∧ isHoleName x = false :=
  measured patternWithin

/-! Expressions. -/

section

variable {inner : Parser Expr}

theorem atom (h : inner.Reads fun _ => True) : (Parser.atom inner).Reads fun _ => True :=
  offset.bind fun _ _ => take.bind fun _ _ => .ite (fun _ => (spanFrom _).bind fun _ _ => .pure trivial)
    fun _ => .ite (fun _ => (spanFrom _).bind fun _ _ => .pure trivial) fun _ =>
      .ite (fun _ => h.bind fun _ _ => (symbol? ":").bind fun _ _ =>
        .ite (fun _ => type.bind fun _ _ => (symbol ")").bind fun _ _ => (spanFrom _).bind fun _ _ =>
          .pure trivial) fun _ => (symbol ")").bind fun _ _ => .pure trivial) fun _ => .refuse

theorem application (h : inner.Reads fun _ => True) : (Parser.application inner).Reads fun _ => True :=
  offset.bind fun _ _ => (atom h).bind fun _ _ => measured fun n =>
    extendWhile (fun _ _ => (atom h).bind fun _ _ => (spanFrom _).bind fun _ _ => .pure trivial) n trivial

theorem operation (h : inner.Reads fun _ => True) : (Parser.operation inner).Reads fun _ => True :=
  offset.bind fun _ _ => (application h).bind fun _ _ => measured fun n =>
    extendWhile (fun _ _ => take.bind fun _ _ => (application h).bind fun _ _ =>
      (spanFrom _).bind fun _ _ => .pure trivial) n trivial

theorem lambda (h : inner.Reads fun _ => True) (start : Nat) :
    (Parser.lambda inner start).Reads fun _ => True :=
  identifier.bind fun _ _ => names.bind fun _ _ => arrow.bind fun _ _ => h.bind fun _ _ =>
    (spanFrom _).bind fun _ _ => .pure trivial

theorem expressionWithin (n : Nat) : (Parser.expressionWithin n).Reads fun _ => True := by
  induction n with
  | zero => exact .stop
  | succ n ih =>
    exact offset.bind fun _ _ => peek?.bind fun t _ => match t with
      | some _ => .ite (fun _ => take.bind fun _ _ => lambda ih _) fun _ => operation ih
      | none => operation ih

theorem expression : Parser.expression.Reads fun _ => True := measured expressionWithin

end

end Reads

end Parser

/-! Declarations. -/

/-- The constructors that a declaration introduces start with capital letters, and the variables that it
matches do not. -/
def Decl.Cased : Decl → Prop
  | .datatype d => ∀ c ∈ d.ctors, Name.isCapitalized c.name = true
  | .equation e => ∀ x ∈ Pat.varsOfList e.pats, Name.isCapitalized x = false
  | _ => True

/-- The types that a declaration introduces start with capital letters, and the variables that it matches do
not mark holes. -/
def Decl.Named : Decl → Prop
  | .datatype d => Name.isCapitalized d.name = true
  | .primitive x => Name.isCapitalized x = true
  | .equation e => ∀ x ∈ Pat.varsOfList e.pats, isHoleName x = false
  | _ => True

namespace Parser.Reads

theorem fields : (Parser.measured fun n => Parser.extendWhile startsTypeAtom (fun fields => do
    let field ← Parser.typeAtom Parser.type
    Pure.pure (fields ++ [field])) n []).Reads fun _ => True :=
  measured fun n => extendWhile (fun _ _ => (typeAtom type).bind fun _ _ => .pure trivial) n trivial

theorem constructor : Parser.constructor.Reads fun c => Name.isCapitalized c.name = true :=
  capitalizedName.bind fun _ hc => fields.bind fun _ _ => .pure hc

theorem datatype : Parser.datatype.Reads fun d =>
    (∀ c ∈ d.ctors, Name.isCapitalized c.name = true) ∧ Name.isCapitalized d.name = true :=
  capitalizedName.bind fun _ hname => names.bind fun _ _ => (symbol? "=").bind fun _ _ =>
    .ite (fun _ => (measured (itemsBetween "|" constructor)).bind fun _ hcs => .pure ⟨hcs,hname⟩)
      fun _ => .pure ⟨by simp,hname⟩

theorem method : Parser.method.Reads fun _ => True :=
  identifier.bind fun _ _ => (symbol ":").bind fun _ _ => type.bind fun _ _ => .pure trivial

theorem classDecl : Parser.classDecl.Reads fun _ => True :=
  capitalizedName.bind fun _ _ => identifier.bind fun _ _ => (symbol "\x7b").bind fun _ _ =>
    (symbol? "\x7d").bind fun _ _ => .ite (fun _ => .pure trivial) fun _ =>
      (measured (itemsBetween "," method)).bind fun _ _ => (symbol "\x7d").bind fun _ _ => .pure trivial

theorem instanceDecl : Parser.instanceDecl.Reads fun _ => True :=
  capitalizedName.bind fun _ _ => (typeAtom type).bind fun _ _ => .pure trivial

theorem definition (name : Name) (start : Nat) :
    (Parser.definition name start).Reads fun d => d.Cased ∧ d.Named :=
  (symbol? ":").bind fun _ _ => .ite (fun _ => type.bind fun _ _ => .pure ⟨trivial,trivial⟩) fun _ =>
    (measured (itemsUntil "=" pattern)).bind fun _ hpats => expression.bind fun _ _ =>
      (spanFrom start).bind fun _ _ =>
        have hvars x (hx : x ∈ Pat.varsOfList _) :=
          have ⟨p,hp,hx⟩ := Pat.mem_varsOfList.1 hx
          hpats p hp x hx
        .pure ⟨fun x hx => (hvars x hx).1,fun x hx => (hvars x hx).2⟩

theorem declaration : Parser.declaration.Reads fun d => d.Cased ∧ d.Named := by
  refine offset.bind fun start _ => take.bind fun t _ => ?_
  split
  · exact datatype.bind fun _ hd => .pure hd
  · exact capitalizedName.bind fun _ hx => .pure ⟨trivial,hx⟩
  · exact classDecl.bind fun _ _ => .pure ⟨trivial,trivial⟩
  · exact instanceDecl.bind fun _ _ => .pure ⟨trivial,trivial⟩
  · exact identifier.bind fun _ _ => (spanFrom start).bind fun _ _ => .pure ⟨trivial,trivial⟩
  · exact definition _ start
  · exact .refuse

theorem declarations (n : Nat) : (Parser.declarations n).Reads fun ds => ∀ d ∈ ds, d.Cased ∧ d.Named := by
  induction n with
  | zero => exact .stop
  | succ n ih =>
    exact isComplete.bind fun _ _ => .ite (fun _ => .pure (by simp)) fun _ =>
      declaration.bind fun _ hd => ih.bind fun _ hds => .pure (List.forall_mem_cons.2 ⟨hd,hds⟩)

end Parser.Reads

end TypedHole
