import TypedHole.Proofs.TypeGrammar

/-! The grammar of expressions.
A lambda extends as far right as it can; otherwise operands stand between operators that all bind alike and group to
the left, operands are atoms in a row, and atoms are names, numerals or stand in parentheses, perhaps with a type.
The grammar does not look at lines: it is about a text all of whose tokens belong to one declaration. Main
statement: the parser of expressions accepts only what the grammar derives (`Parser.derives_of_expression`). -/
namespace TypedHole

/-- The tokens that make a type at a place, wherever they begin a line. -/
inductive Ty.Derives : Place → List Token → Ty → Prop
  | name {t : Token} (h : t.isIdent = true) : Derives .argument [t] (Parser.namedType t.text)
  | parens {o c : Token} {ts : List Token} {ty : Ty} (ho : o.isSymbol "(" = true) (inner : Derives .whole ts ty)
      (hc : c.isSymbol ")" = true) : Derives .argument (o :: (ts ++ [c])) ty
  | argument {ts : List Token} {ty : Ty} (h : Derives .argument ts ty) : Derives .left ts ty
  | app {ts us : List Token} {f a : Ty} (fn : Derives .left ts f) (arg : Derives .argument us a) :
      Derives .left (ts ++ us) (.app f a)
  | application {ts : List Token} {ty : Ty} (h : Derives .left ts ty) : Derives .whole ts ty
  | arrow {ts us : List Token} {o : Token} {d c : Ty} (dom : Derives .left ts d) (ho : o.isArrow = true)
      (cod : Derives .whole us c) : Derives .whole (ts ++ o :: us) (.arrow d c)

/-- No token but perhaps the first one begins a line. -/
def Token.Inside (ts : List Token) : Prop := ∀ t ∈ ts.tail, t.atLineStart = false

def Token.firstStart (ts : List Token) : Nat := (ts.head?.map (·.start)).getD 0

def Token.lastStop (ts : List Token) : Nat := (ts.getLast?.map (·.stop)).getD 0

def Source.stretch (s : Source) (ts : List Token) : Span := s.spanSince (Token.firstStart ts) (Token.lastStop ts)

inductive Expr.Level
  | atom | application | operation | whole

/-- The tokens that make an expression, with the stretches of the text that its parts take. -/
inductive Expr.Derives (s : Source) : Level → List Token → Expr → Prop
  | name {t : Token} (ident : t.isIdent = true) (named : isHoleName t.text = false) :
      Derives s .atom [t] (.var t.text (s.stretch [t]))
  | hole {t : Token} (ident : t.isIdent = true) (marked : isHoleName t.text = true) :
      Derives s .atom [t] (.hole t.text (s.stretch [t]))
  | number {t : Token} (numeral : t.isNumber = true) : Derives s .atom [t] (.number t.text (s.stretch [t]))
  | parens {o c : Token} {ts : List Token} {e : Expr} (ho : o.isSymbol "(" = true)
      (inner : Derives s .whole ts e) (hc : c.isSymbol ")" = true) : Derives s .atom (o :: (ts ++ [c])) e
  | annotated {o m c : Token} {ts us : List Token} {e : Expr} {ty : Ty} (ho : o.isSymbol "(" = true)
      (inner : Derives s .whole ts e) (hm : m.isSymbol ":" = true) (type : Ty.Derives .whole us ty)
      (hc : c.isSymbol ")" = true) : Derives s .atom (o :: (ts ++ m :: (us ++ [c])))
        (.ann e ty (s.stretch (o :: (ts ++ m :: (us ++ [c])))))
  | head {ts : List Token} {e : Expr} (h : Derives s .atom ts e) : Derives s .application ts e
  | app {ts us : List Token} {f a : Expr} (fn : Derives s .application ts f) (arg : Derives s .atom us a) :
      Derives s .application (ts ++ us) (.app f a (s.stretch (ts ++ us)))
  | operand {ts : List Token} {e : Expr} (h : Derives s .application ts e) : Derives s .operation ts e
  | binary {ts us : List Token} {o : Token} {l r : Expr} (lhs : Derives s .operation ts l)
      (ho : Parser.isOperator o = true) (rhs : Derives s .application us r) :
      Derives s .operation (ts ++ o :: us) (.binary o.text l r (s.stretch (ts ++ o :: us)))
  | operation {ts : List Token} {e : Expr} (h : Derives s .operation ts e) : Derives s .whole ts e
  | lam {sign x o : Token} {xs us : List Token} {b : Expr} (hsign : sign.isLambda = true) (hx : x.isIdent = true)
      (hxs : ∀ x ∈ xs, x.isIdent = true) (ho : o.isArrow = true) (body : Derives s .whole us b) :
      Derives s .whole (sign :: x :: (xs ++ o :: us))
        (.lam (x.text :: xs.map (·.text)) b (s.stretch (sign :: x :: (xs ++ o :: us))))

/-! What the parser takes. -/

/-- Some tokens, at least one, have been taken from the front of an input. -/
structure Input.Took (i : Input) (ts : List Token) (i' : Input) : Prop where
  tokens : i.tokens = ts ++ i'.tokens
  stop : ts.getLast?.map (·.stop) = some i'.lastStop

namespace Input.Took

variable {i i' i'' : Input} {ts us : List Token}

theorem behind (h : i'.Took us i'') (ht : i.tokens = ts ++ i'.tokens) : i.Took (ts ++ us) i'' := by
  refine ⟨by rw [ht,h.tokens,List.append_assoc],?_⟩
  obtain ⟨t,hlast,hstop⟩ := Option.map_eq_some_iff.1 h.stop
  rw [List.getLast?_append,hlast,Option.some_or,Option.map_some,hstop]

theorem trans (h : i.Took ts i') (h' : i'.Took us i'') : i.Took (ts ++ us) i'' := h'.behind h.tokens

theorem cons (h : i'.Took us i'') {t : Token} (ht : i.tokens = t :: i'.tokens) : i.Took (t :: us) i'' :=
  show i.Took ([t] ++ us) i'' from h.behind ht

theorem ne_nil (h : i.Took ts i') : ts ≠ [] := by
  rintro rfl
  cases h.stop

theorem stretch (h : i.Took ts i') (s : Source) : s.stretch ts = s.spanSince i.offset i'.lastStop := by
  obtain ⟨t,ts',rfl⟩ := List.exists_cons_of_ne_nil h.ne_nil
  rw [Source.stretch,Token.lastStop,h.stop,Input.offset,h.tokens]
  rfl

end Input.Took

namespace Parser

variable {α : Type}

theorem took_of_take {r : Reading} {i i' : Input} {t : Token} (h : take r i = .ok (t,i')) : i.Took [t] i' := by
  obtain ⟨ts,n⟩ := i
  cases ts with
  | nil => cases h
  | cons t ts =>
    cases h
    exact ⟨rfl,rfl⟩

theorem took_of_expect {test : Token → Bool} {wanted : Expectation} {f : Token → α} {r : Reading} {i i' : Input}
    {a : α} (h : (do let t ← take; if test t then Pure.pure (f t) else refuse wanted t : Parser α) r i = .ok (a,i')) :
    ∃ t, test t = true ∧ a = f t ∧ i.Took [t] i' := by
  obtain ⟨t,i₁,ht,h⟩ := bind_eq_ok h
  rcases ite_eq_ok h with ⟨htest,h⟩ | ⟨-,h⟩
  · cases h
    exact ⟨t,htest,rfl,took_of_take ht⟩
  · cases h

theorem head?_of_peek? {r : Reading} {i i' : Input} {t : Token} (h : peek? r i = .ok (some t,i')) :
    i.tokens.head? = some t := by
  simp only [peek?] at h
  split at h <;> cases h
  next htokens => simp [htokens]

theorem took_of_symbol? {text : String} {r : Reading} {i i' : Input} (h : symbol? text r i = .ok (true,i')) :
    ∃ t, t.isSymbol text = true ∧ i.Took [t] i' := by
  obtain ⟨t,i₁,ht,h⟩ := bind_eq_ok h
  cases eq_of_peek? ht
  cases t with
  | none => cases h
  | some t =>
    rcases ite_eq_ok h with ⟨hsymbol,h⟩ | ⟨-,h⟩
    · obtain ⟨u,i₂,hu,h⟩ := bind_eq_ok h
      cases h
      have hhead := head?_of_peek? ht
      have htook := took_of_take hu
      rw [htook.tokens] at hhead
      cases hhead
      exact ⟨_,hsymbol,htook⟩
    · cases h

theorem names_eq_ok {r : Reading} {i i' : Input} {xs : List String} (h : names r i = .ok (xs,i')) :
    ∃ ts, i.tokens = ts ++ i'.tokens ∧ (∀ t ∈ ts, t.isIdent = true) ∧ xs = ts.map (·.text) := by
  refine extendWhile_invariant (I := fun xs k => ∃ ts, i.tokens = ts ++ k.tokens ∧
    (∀ t ∈ ts, t.isIdent = true) ∧ xs = ts.map (·.text)) (fun xs ys t k k' ⟨ts,hts,hident,hxs⟩ _ _ _ hstep => ?_)
    h ⟨[],rfl,nofun,rfl⟩
  obtain ⟨x,k₁,hx,hstep⟩ := bind_eq_ok hstep
  cases hstep
  obtain ⟨u,hu,rfl,htook⟩ := took_of_expect hx
  refine ⟨ts ++ [u],by simp [hts,htook.tokens],?_,by simp [hxs]⟩
  exact List.forall_mem_append.2 ⟨hident,List.forall_mem_singleton.2 hu⟩

end Parser

theorem Ty.Written.derives {p : Place} {ts : List Token} {ty : Ty} (h : Written p ts ty) : Derives p ts ty := by
  induction h with
  | name h => exact .name h
  | parens ho _ hc ih => exact .parens ho ih hc
  | argument _ ih => exact .argument ih
  | app _ _ _ ihf iha => exact .app ihf iha
  | application _ ih => exact .application ih
  | arrow _ ho _ _ ihd ihc => exact .arrow ihd ho ihc

namespace Parser

/-- A parser takes tokens from the front from which the grammar derives what it returns. -/
def Derived (l : Expr.Level) (p : Parser Expr) : Prop :=
  ∀ r i e i', p r i = .ok (e,i') → ∃ ts, i.Took ts i' ∧ Expr.Derives r.source l ts e

variable {inner : Parser Expr}

def enclosed (inner : Parser Expr) (start : Nat) : Parser Expr := do
  let e ← inner
  if ← symbol? ":" then do
    let ty ← type
    symbol ")"
    let span ← spanFrom start
    Pure.pure (.ann e ty span)
  else do
    symbol ")"
    Pure.pure e

theorem derived_enclosed (h : inner.Derived .whole) {r : Reading} {i i₁ i' : Input} {o : Token} {e : Expr}
    (ho : o.isSymbol "(" = true) (ht : i.tokens = o :: i₁.tokens)
    (h' : enclosed inner i.offset r i₁ = .ok (e,i')) :
    ∃ ts, i.Took ts i' ∧ Expr.Derives r.source .atom ts e := by
  obtain ⟨e₁,i₂,he,h'⟩ := bind_eq_ok h'
  obtain ⟨b,i₃,hb,h'⟩ := bind_eq_ok h'
  obtain ⟨ts,hts,hinner⟩ := h _ _ _ _ he
  rcases ite_eq_ok h' with ⟨hbt,h'⟩ | ⟨hbf,h'⟩
  · obtain ⟨ty,i₄,hty,h'⟩ := bind_eq_ok h'
    obtain ⟨u,i₅,hclose,h'⟩ := bind_eq_ok h'
    obtain ⟨span,i₆,hspan,h'⟩ := bind_eq_ok h'
    obtain ⟨m,hm,hmtook⟩ := took_of_symbol? (hbt ▸ hb)
    obtain ⟨us,hus,hwritten⟩ := written_of_type _ _ _ _ hty
    obtain ⟨c,hc,-,hctook⟩ := took_of_expect hclose
    have hall : i.Took (o :: (ts ++ m :: (us ++ [c]))) i₅ :=
      (hts.trans ((hctook.behind hus).cons hmtook.tokens)).cons ht
    cases hspan
    rw [← hall.stretch] at h'
    cases h'
    exact ⟨_,hall,.annotated ho hinner hm hwritten.derives hc⟩
  · obtain ⟨u,i₄,hclose,h'⟩ := bind_eq_ok h'
    cases h'
    cases eq_of_symbol? (hbf ▸ hb)
    obtain ⟨c,hc,-,hctook⟩ := took_of_expect hclose
    exact ⟨_,(hts.trans hctook).cons ht,.parens ho hinner hc⟩

theorem derived_atom (h : inner.Derived .whole) : (atom inner).Derived .atom := by
  intro r i e i' h'
  obtain ⟨start,i₁,hstart,h'⟩ := bind_eq_ok h'
  obtain ⟨rfl,rfl⟩ := offset_eq_ok hstart
  obtain ⟨t,i₂,ht,h'⟩ := bind_eq_ok h'
  have htook := took_of_take ht
  rcases ite_eq_ok h' with ⟨hident,h'⟩ | ⟨-,h'⟩
  · obtain ⟨span,i₃,hspan,h'⟩ := bind_eq_ok h'
    cases hspan
    rw [← htook.stretch] at h'
    by_cases hx : isHoleName t.text = true
    · rw [if_pos hx] at h'
      cases h'
      exact ⟨[t],htook,.hole hident hx⟩
    · rw [if_neg hx] at h'
      cases h'
      exact ⟨[t],htook,.name hident (Bool.eq_false_iff.2 hx)⟩
  rcases ite_eq_ok h' with ⟨hnumber,h'⟩ | ⟨-,h'⟩
  · obtain ⟨span,i₃,hspan,h'⟩ := bind_eq_ok h'
    cases hspan
    rw [← htook.stretch] at h'
    cases h'
    exact ⟨[t],htook,.number hnumber⟩
  rcases ite_eq_ok h' with ⟨hopen,h'⟩ | ⟨-,h'⟩
  · exact derived_enclosed h hopen htook.tokens h'
  · cases h'

theorem derived_application (h : inner.Derived .whole) : (application inner).Derived .application := by
  intro r i e i' h'
  obtain ⟨start,i₁,hstart,h'⟩ := bind_eq_ok h'
  obtain ⟨rfl,rfl⟩ := offset_eq_ok hstart
  obtain ⟨fn,i₂,hfn,h'⟩ := bind_eq_ok h'
  obtain ⟨ts,hts,hderives⟩ := derived_atom h _ _ _ _ hfn
  refine extendWhile_invariant (I := fun f k => ∃ ts, i.Took ts k ∧ Expr.Derives r.source .application ts f)
    (fun f b t k k' ⟨ts,hts,hf⟩ _ _ _ hstep => ?_) h' ⟨ts,hts,.head hderives⟩
  obtain ⟨arg,k₁,harg,hstep⟩ := bind_eq_ok hstep
  obtain ⟨span,k₂,hspan,hstep⟩ := bind_eq_ok hstep
  obtain ⟨us,hus,hatom⟩ := derived_atom h _ _ _ _ harg
  have hall := hts.trans hus
  cases hspan
  rw [← hall.stretch] at hstep
  cases hstep
  exact ⟨_,hall,.app hf hatom⟩

theorem derived_operation (h : inner.Derived .whole) : (operation inner).Derived .operation := by
  intro r i e i' h'
  obtain ⟨start,i₁,hstart,h'⟩ := bind_eq_ok h'
  obtain ⟨rfl,rfl⟩ := offset_eq_ok hstart
  obtain ⟨lhs,i₂,hlhs,h'⟩ := bind_eq_ok h'
  obtain ⟨ts,hts,hderives⟩ := derived_application h _ _ _ _ hlhs
  refine extendWhile_invariant (I := fun l k => ∃ ts, i.Took ts k ∧ Expr.Derives r.source .operation ts l)
    (fun l b t k k' ⟨ts,hts,hl⟩ hhead htest _ hstep => ?_) h' ⟨ts,hts,.operand hderives⟩
  obtain ⟨op,k₁,hop,hstep⟩ := bind_eq_ok hstep
  obtain ⟨rhs,k₂,hrhs,hstep⟩ := bind_eq_ok hstep
  obtain ⟨span,k₃,hspan,hstep⟩ := bind_eq_ok hstep
  obtain ⟨us,hus,happ⟩ := derived_application h _ _ _ _ hrhs
  have htokens := take_eq_cons hop
  have hall := hts.trans (hus.cons htokens)
  -- the operator is the token that has been looked at
  rw [htokens] at hhead
  cases hhead
  cases hspan
  rw [← hall.stretch] at hstep
  cases hstep
  exact ⟨_,hall,.binary hl htest happ⟩

theorem derived_lambda (h : inner.Derived .whole) {r : Reading} {i i₁ i' : Input} {sign : Token} {e : Expr}
    (hsign : sign.isLambda = true) (ht : i.tokens = sign :: i₁.tokens)
    (h' : lambda inner i.offset r i₁ = .ok (e,i')) :
    ∃ ts, i.Took ts i' ∧ Expr.Derives r.source .whole ts e := by
  obtain ⟨x,i₂,hx,h'⟩ := bind_eq_ok h'
  obtain ⟨xs,i₃,hxs,h'⟩ := bind_eq_ok h'
  obtain ⟨u,i₄,harrow,h'⟩ := bind_eq_ok h'
  obtain ⟨b,i₅,hb,h'⟩ := bind_eq_ok h'
  obtain ⟨span,i₆,hspan,h'⟩ := bind_eq_ok h'
  obtain ⟨y,hy,rfl,hytook⟩ := took_of_expect hx
  obtain ⟨ys,hys,hident,rfl⟩ := names_eq_ok hxs
  obtain ⟨o,ho,-,hotook⟩ := took_of_expect harrow
  obtain ⟨us,hus,hbody⟩ := h _ _ _ _ hb
  have hall : i.Took (sign :: y :: (ys ++ o :: us)) i₅ :=
    (((hus.cons hotook.tokens).behind hys).cons hytook.tokens).cons ht
  cases hspan
  rw [← hall.stretch] at h'
  cases h'
  exact ⟨_,hall,.lam hsign hy hident ho hbody⟩

theorem derived_expressionWithin (n : Nat) : (expressionWithin n).Derived .whole := by
  induction n with
  | zero =>
    intro r i e i' h
    cases h
  | succ n ih =>
    intro r i e i' h
    obtain ⟨start,i₁,hstart,h⟩ := bind_eq_ok h
    obtain ⟨rfl,rfl⟩ := offset_eq_ok hstart
    obtain ⟨t,i₂,ht,h⟩ := bind_eq_ok h
    have hoperation (h : operation (expressionWithin n) r i = .ok (e,i')) :
        ∃ ts, i.Took ts i' ∧ Expr.Derives r.source .whole ts e :=
      (derived_operation ih r i e i' h).imp fun _ hts => ⟨hts.1,.operation hts.2⟩
    cases eq_of_peek? ht
    cases t with
    | none => exact hoperation h
    | some t =>
      rcases ite_eq_ok h with ⟨hsign,h⟩ | ⟨-,h⟩
      · obtain ⟨t',i₃,ht',h⟩ := bind_eq_ok h
        have hhead := head?_of_peek? ht
        have htokens := take_eq_cons ht'
        rw [htokens] at hhead
        cases hhead
        exact derived_lambda ih hsign htokens h
      · exact hoperation h

/-- The parser of expressions accepts only expressions. -/
theorem derives_of_expression : expression.Derived .whole := fun r i e i' h =>
  derived_expressionWithin (i.tokens.length + 1) r i e i' h

end Parser

end TypedHole
