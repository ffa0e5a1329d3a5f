import Mathlib.Data.List.Induction
import TypedHole.Proofs.ExpressionGrammar
import TypedHole.Proofs.Scanning

/-! Acceptance of expressions.
What the grammar derives the parser takes, whatever stands behind it, as long as that goes on with neither an
argument nor an operator. Applications and operations are not taken in one piece: their first part is, and the loop
for the others gets through the tokens that are left (`Parser.Passes`). Main statements: the parser takes all that is
an expression (`Expr.Derives.accepted`), and so it accepts exactly its grammar (`expression_grammar`). -/
namespace TypedHole

namespace Token

variable {ts us : List Token}

theorem firstStart_append (h : ts ≠ []) (us : List Token) : firstStart (ts ++ us) = firstStart ts := by
  obtain ⟨t,ts,rfl⟩ := List.exists_cons_of_ne_nil h
  rfl

theorem lastStop_append (ts : List Token) (h : us ≠ []) : lastStop (ts ++ us) = lastStop us := by
  rw [lastStop,lastStop,List.getLast?_append,List.getLast?_eq_some_getLast h,Option.some_or]

@[simp] theorem lastStop_concat (ts : List Token) (t : Token) : lastStop (ts ++ [t]) = t.stop :=
  lastStop_append ts (List.cons_ne_nil t [])

theorem Inside.left (h : Inside (ts ++ us)) (hts : ts ≠ []) : Inside ts := by
  obtain ⟨t,ts,rfl⟩ := List.exists_cons_of_ne_nil hts
  exact fun t' ht' => h t' (List.mem_append_left us ht')

theorem Inside.right (h : Inside (ts ++ us)) (hts : ts ≠ []) : ∀ t ∈ us, t.atLineStart = false := by
  obtain ⟨t,ts,rfl⟩ := List.exists_cons_of_ne_nil hts
  exact fun t' ht' => h t' (List.mem_append_right ts ht')

theorem inside_of_forall (h : ∀ t ∈ ts, t.atLineStart = false) : Inside ts :=
  fun t ht => h t (List.mem_of_mem_tail ht)

end Token

theorem Ty.Derives.ne_nil {p : Place} {ts : List Token} {ty : Ty} (h : Derives p ts ty) : ts ≠ [] := by
  induction h with
  | argument _ ih => exact ih
  | application _ ih => exact ih
  | _ => simp_all

/-- Within a declaration the lines of a type do not matter. -/
theorem Ty.Derives.written {p : Place} {ts : List Token} {ty : Ty} (h : Derives p ts ty) (hin : Token.Inside ts) :
    Written p ts ty := by
  induction h with
  | name h => exact .name h
  | parens ho _ hc ih =>
    obtain ⟨hts,-⟩ := List.forall_mem_append.1 hin
    exact .parens ho (ih (Token.inside_of_forall hts)) hc
  | argument _ ih => exact .argument (ih hin)
  | app fn arg ihf iha =>
    have harg := hin.right fn.ne_nil
    exact .app (ihf (hin.left fn.ne_nil)) (iha (Token.inside_of_forall harg)) fun t ht =>
      harg t (List.mem_of_mem_head? ht)
  | application _ ih => exact .application (ih hin)
  | arrow dom ho _ ihd ihc =>
    obtain ⟨hline,hcod⟩ := List.forall_mem_cons.1 (hin.right dom.ne_nil)
    exact .arrow (ihd (hin.left dom.ne_nil)) ho hline (ihc (Token.inside_of_forall hcod))

namespace Parser

variable {α : Type}

theorem offset_append {ts : List Token} (h : ts ≠ []) (r : Reading) (rest : List Token) (k : Nat) :
    offset r ⟨ts ++ rest,k⟩ = .ok (Token.firstStart ts,⟨ts ++ rest,k⟩) := by
  obtain ⟨t,ts,rfl⟩ := List.exists_cons_of_ne_nil h
  rfl

theorem symbol?_cons {text : String} {t : Token} (h : t.isSymbol text = true) (r : Reading) (ts : List Token)
    (n : Nat) : symbol? text r ⟨t :: ts,n⟩ = .ok (true,⟨ts,t.stop⟩) := by
  rw [symbol?,bind_of_eq_ok rfl]
  simp only [h]
  rfl

theorem symbol?_other {text : String} {t : Token} (h : t.isSymbol text = false) (r : Reading) (ts : List Token)
    (n : Nat) : symbol? text r ⟨t :: ts,n⟩ = .ok (false,⟨t :: ts,n⟩) := by
  rw [symbol?,bind_of_eq_ok rfl]
  simp only [h]
  rfl

/-- A loop gets through some tokens, with a round for each of them at most. -/
def Passes (loop : Nat → α → Parser α) (r : Reading) (rest : List Token) (a : α) (mid : List Token) (k : Nat)
    (b : α) (k' : Nat) : Prop :=
  ∀ m, mid.length ≤ m → ∃ m', m ≤ mid.length + m' ∧ loop m a r ⟨mid ++ rest,k⟩ = loop m' b r ⟨rest,k'⟩

section

variable {test : Token → Bool} {step : α → Parser α} {r : Reading} {rest mid : List Token} {a b : α} {k k' : Nat}

theorem Passes.refl (loop : Nat → α → Parser α) (r : Reading) (rest : List Token) (a : α) (k : Nat) :
    Passes loop r rest a [] k a k := fun m _ => ⟨m,by simp,rfl⟩

theorem Passes.next {t : Token} {ts : List Token} {c : α} {k'' : Nat}
    (h : Passes (extendWhile test step) r (t :: ts ++ rest) a mid k b k') (htest : test t = true)
    (hline : t.atLineStart = false) (hstep : step b r ⟨t :: ts ++ rest,k'⟩ = .ok (c,⟨rest,k''⟩)) :
    Passes (extendWhile test step) r rest a (mid ++ t :: ts) k c k'' := by
  intro m hm
  rw [List.length_append,List.length_cons] at hm
  obtain ⟨m',hm',hloop⟩ := h m (by omega)
  obtain ⟨m',rfl⟩ : ∃ l, m' = l + 1 := ⟨m' - 1,by omega⟩
  refine ⟨m',by simp; omega,?_⟩
  rw [List.append_assoc,hloop]
  exact extendWhile_goes htest hline hstep m'

theorem Passes.stops (h : Passes (extendWhile test step) r rest a mid k b k') (hrest : StopsAt r test rest) :
    extendWhile test step ((mid ++ rest).length + 1) a r ⟨mid ++ rest,k⟩ = .ok (b,⟨rest,k'⟩) := by
  obtain ⟨m',hm',hloop⟩ := h ((mid ++ rest).length + 1) (by simp; omega)
  obtain ⟨m,rfl⟩ : ∃ m, m' = m + 1 := ⟨m' - 1,by simp at hm'; omega⟩
  rw [hloop]
  exact extendWhile_stops hrest m k' b

end

theorem identifier_cons {t : Token} (h : t.isIdent = true) (r : Reading) (ts : List Token) (n : Nat) :
    identifier r ⟨t :: ts,n⟩ = .ok (t.text,⟨ts,t.stop⟩) := by
  rw [identifier,bind_of_eq_ok rfl,if_pos h]
  rfl

theorem arrow_cons {t : Token} (h : t.isArrow = true) (r : Reading) (ts : List Token) (n : Nat) :
    arrow r ⟨t :: ts,n⟩ = .ok ((),⟨ts,t.stop⟩) := by
  rw [arrow,bind_of_eq_ok rfl,if_pos h]
  rfl

theorem names_append {xs : List Token} (hident : ∀ x ∈ xs, x.isIdent = true)
    (hline : ∀ x ∈ xs, x.atLineStart = false) {r : Reading} {rest : List Token} (hrest : StopsAt r Token.isIdent rest)
    (k : Nat) : ∃ k', names r ⟨xs ++ rest,k⟩ = .ok (xs.map (·.text),⟨rest,k'⟩) := by
  have hpasses (rest : List Token) : ∃ k', Passes (extendWhile Token.isIdent fun (xs : List String) => do
      let x ← identifier
      Pure.pure (xs ++ [x])) r rest [] xs k (xs.map (·.text)) k' := by
    -- what stands behind the names that are taken so far grows shorter, hence the induction from their end
    induction xs using List.reverseRecOn generalizing rest with
    | nil => exact ⟨k,.refl _ r rest [] k⟩
    | append_singleton xs x ih =>
      obtain ⟨hident,hx⟩ := List.forall_mem_append.1 hident
      obtain ⟨hline,hxline⟩ := List.forall_mem_append.1 hline
      rw [List.forall_mem_singleton] at hx hxline
      obtain ⟨k',hpasses⟩ := ih hident hline (x :: rest)
      refine ⟨x.stop,hpasses.next hx hxline ?_⟩
      rw [List.singleton_append,bind_of_eq_ok (identifier_cons hx r rest k'),List.map_append]
      rfl
  obtain ⟨k',hpasses⟩ := hpasses rest
  exact ⟨k',hpasses.stops hrest⟩

end Parser

namespace Token

variable {t : Token} {text : String}

theorem isSymbol_iff : t.isSymbol text = true ↔ t.kind = .symbol ∧ t.text = text := by
  simp [isSymbol]

theorem not_isSymbol_of_ne {text' : String} (h : t.isSymbol text = true) (hne : text ≠ text') :
    t.isSymbol text' = false := by
  simp [isSymbol,isSymbol_iff.1 h,hne]

theorem isIdent_of_kind (h : t.kind = .symbol) : t.isIdent = false := by
  simp [isIdent,h]

theorem isNumber_of_kind (h : t.kind = .symbol) : t.isNumber = false := by
  simp [isNumber,h]

theorem not_isIdent_of_isNumber (h : t.isNumber = true) : t.isIdent = false := by
  simp [isIdent,beq_iff_eq.1 h]

theorem kind_of_isArrow (h : t.isArrow = true) : t.kind = .symbol := by
  rcases Bool.or_eq_true_iff.1 h with h | h <;> exact (isSymbol_iff.1 h).1

theorem startsAtom_of_kind (h : t.kind = .symbol) : Parser.startsAtom t = (t.text == "(") := by
  simp [Parser.startsAtom,isIdent_of_kind h,isNumber_of_kind h,isSymbol,h]

theorem not_isLambda_of_startsAtom (h : Parser.startsAtom t = true) : t.isLambda = false := by
  refine Bool.eq_false_iff.2 fun hsign => ?_
  rcases Bool.or_eq_true_iff.1 hsign with hsign | hsign <;>
    · obtain ⟨hkind,htext⟩ := isSymbol_iff.1 hsign
      rw [startsAtom_of_kind hkind,htext] at h
      exact absurd h (by decide)

theorem not_startsAtom_of_isOperator (h : Parser.isOperator t = true) : Parser.startsAtom t = false := by
  obtain ⟨hkind,hfree⟩ := Bool.and_eq_true_iff.1 h
  rw [startsAtom_of_kind (beq_iff_eq.1 hkind)]
  refine beq_eq_false_iff_ne.2 fun htext => ?_
  rw [htext] at hfree
  exact absurd hfree (by decide)

end Token

namespace Parser

/-- Whether an expression goes on with a token: with an argument, or with an operator. -/
def goesOn (t : Token) : Bool := startsAtom t || isOperator t

/-- A reserved symbol other than an opening parenthesis ends an expression. -/
theorem stopsAt_reserved {t : Token} {text : String} (h : t.isSymbol text = true) (hr : text ∈ reservedSymbols)
    (ho : text ≠ "(") (r : Reading) (rest : List Token) : StopsAt r goesOn (t :: rest) := by
  obtain ⟨hkind,rfl⟩ := Token.isSymbol_iff.1 h
  intro ht
  simp [goesOn,Token.startsAtom_of_kind hkind,isOperator,hr,ho] at ht

/-- The arguments that follow in an application that begins at an offset. -/
def arguments (inner : Parser Expr) (start : Nat) : Nat → Expr → Parser Expr :=
  extendWhile startsAtom fun fn => do
    let arg ← atom inner
    let span ← spanFrom start
    Pure.pure (.app fn arg span)

/-- The operators with their right operands that follow in an operation that begins at an offset. -/
def operands (inner : Parser Expr) (start : Nat) : Nat → Expr → Parser Expr :=
  extendWhile isOperator fun lhs => do
    let op ← take
    let rhs ← application inner
    let span ← spanFrom start
    Pure.pure (.binary op.text lhs rhs span)

end Parser

namespace Expr.Derives

variable {s : Source} {ts : List Token} {e : Expr}

theorem ne_nil {l : Level} (h : Derives s l ts e) : ts ≠ [] := by
  induction h with
  | head _ ih => exact ih
  | operand _ ih => exact ih
  | operation _ ih => exact ih
  | _ => simp_all

/-- Whatever is no lambda begins with a token that begins an atom. -/
theorem starts {l : Level} (h : Derives s l ts e) (hl : l ≠ .whole) :
    ∃ t us, ts = t :: us ∧ Parser.startsAtom t = true := by
  induction h with
  | name h => exact ⟨_,[],rfl,by simp [Parser.startsAtom,h]⟩
  | hole h => exact ⟨_,[],rfl,by simp [Parser.startsAtom,h]⟩
  | number h => exact ⟨_,[],rfl,by simp [Parser.startsAtom,h]⟩
  | parens ho => exact ⟨_,_,rfl,by simp [Parser.startsAtom,ho]⟩
  | annotated ho => exact ⟨_,_,rfl,by simp [Parser.startsAtom,ho]⟩
  | head _ ih => exact ih nofun
  | operand _ ih => exact ih nofun
  | app _ _ ih =>
    obtain ⟨t,us,rfl,h⟩ := ih nofun
    exact ⟨t,_,rfl,h⟩
  | binary _ _ _ ih =>
    obtain ⟨t,us,rfl,h⟩ := ih nofun
    exact ⟨t,_,rfl,h⟩
  | operation => cases hl rfl
  | lam => cases hl rfl

end Expr.Derives

namespace Parser

/-- How the parser of expressions takes what stands at a level, if expressions nest no deeper than `n`: an atom
without looking further, an application up to the arguments that may follow, an operation up to the operands that may
follow, and a whole expression up to where it stops. -/
def TakesUp (r : Reading) (n : Nat) (ts : List Token) (e : Expr) : Expr.Level → Prop
  | .atom => ∀ rest k, atom (expressionWithin n) r ⟨ts ++ rest,k⟩ = .ok (e,⟨rest,Token.lastStop ts⟩)
  | .application => ∀ rest k, ∃ fn mid k₁, atom (expressionWithin n) r ⟨ts ++ rest,k⟩ = .ok (fn,⟨mid ++ rest,k₁⟩) ∧
      Passes (arguments (expressionWithin n) (Token.firstStart ts)) r rest fn mid k₁ e (Token.lastStop ts)
  | .operation => ∀ rest k, StopsAt r startsAtom rest → ∃ lhs mid k₁,
      application (expressionWithin n) r ⟨ts ++ rest,k⟩ = .ok (lhs,⟨mid ++ rest,k₁⟩) ∧
      Passes (operands (expressionWithin n) (Token.firstStart ts)) r rest lhs mid k₁ e (Token.lastStop ts)
  | .whole => ∀ rest k, StopsAt r goesOn rest →
      expressionWithin (n + 1) r ⟨ts ++ rest,k⟩ = .ok (e,⟨rest,Token.lastStop ts⟩)

theorem atom_opens {inner : Parser Expr} {t : Token} (h : t.isSymbol "(" = true) (r : Reading) (ts : List Token)
    (k : Nat) : atom inner r ⟨t :: ts,k⟩ = enclosed inner t.start r ⟨ts,t.stop⟩ := by
  obtain ⟨hkind,-⟩ := Token.isSymbol_iff.1 h
  rw [atom,bind_of_eq_ok rfl,bind_of_eq_ok rfl,Token.isIdent_of_kind hkind,if_neg nofun,Token.isNumber_of_kind hkind,
    if_neg nofun,if_pos h]
  rfl

namespace TakesUp

variable {r : Reading} {n : Nat} {ts us rest : List Token} {e e' : Expr}

theorem application_eq_ok (h : TakesUp r n ts e .application) (hts : ts ≠ []) (hrest : StopsAt r startsAtom rest)
    (k : Nat) : application (expressionWithin n) r ⟨ts ++ rest,k⟩ = .ok (e,⟨rest,Token.lastStop ts⟩) := by
  obtain ⟨fn,mid,k₁,hfn,hargs⟩ := h rest k
  rw [application,bind_of_eq_ok (offset_append hts r rest k),bind_of_eq_ok hfn]
  exact hargs.stops hrest

theorem operation_eq_ok (h : TakesUp r n ts e .operation) (hts : ts ≠ []) (hrest : StopsAt r goesOn rest)
    (k : Nat) : operation (expressionWithin n) r ⟨ts ++ rest,k⟩ = .ok (e,⟨rest,Token.lastStop ts⟩) := by
  obtain ⟨lhs,mid,k₁,hlhs,hrhs⟩ := h rest k (hrest.mono fun t ht => by simp [goesOn,ht])
  rw [operation,bind_of_eq_ok (offset_append hts r rest k),bind_of_eq_ok hlhs]
  exact hrhs.stops (hrest.mono fun t ht => by simp [goesOn,ht])

theorem parens (h : TakesUp r n ts e .whole) {o c : Token} (ho : o.isSymbol "(" = true)
    (hc : c.isSymbol ")" = true) : TakesUp r (n + 1) (o :: (ts ++ [c])) e .atom := by
  intro rest k
  have hinner := h (c :: rest) o.stop (stopsAt_reserved hc (by decide) (by decide) r rest)
  have hother : c.isSymbol ":" = false := Token.not_isSymbol_of_ne hc (by decide)
  have hlast : Token.lastStop (o :: (ts ++ [c])) = c.stop := Token.lastStop_concat (o :: ts) c
  rw [List.cons_append,List.append_assoc,List.singleton_append,atom_opens ho,enclosed,bind_of_eq_ok hinner,
    bind_of_eq_ok (symbol?_other hother r rest _),hlast]
  simp only [Bool.false_eq_true,if_false]
  rw [bind_of_eq_ok (symbol_cons hc r rest _)]
  rfl

theorem annotated (h : TakesUp r n ts e .whole) {ty : Ty} (type : Ty.Written .whole us ty) {o m c : Token}
    (ho : o.isSymbol "(" = true) (hm : m.isSymbol ":" = true) (hc : c.isSymbol ")" = true) :
    TakesUp r (n + 1) (o :: (ts ++ m :: (us ++ [c])))
      (.ann e ty (r.source.stretch (o :: (ts ++ m :: (us ++ [c]))))) .atom := by
  intro rest k
  have hinner := h (m :: (us ++ c :: rest)) o.stop (stopsAt_reserved hm (by decide) (by decide) r _)
  obtain ⟨k',htype⟩ := type.accepted (Ty.Written.stopsAt_close hc r rest) m.stop
  have hlast : Token.lastStop (o :: (ts ++ m :: (us ++ [c]))) = c.stop := by
    simpa using Token.lastStop_concat (o :: (ts ++ m :: us)) c
  rw [List.cons_append,List.append_assoc,List.cons_append,List.append_assoc,List.singleton_append,atom_opens ho,
    enclosed,bind_of_eq_ok hinner,bind_of_eq_ok (symbol?_cons hm r _ _)]
  simp only [if_true]
  rw [bind_of_eq_ok htype,bind_of_eq_ok (symbol_cons hc r rest k'),Source.stretch,hlast]
  rfl

theorem head (h : TakesUp r n ts e .atom) : TakesUp r n ts e .application := fun rest k =>
  ⟨e,[],_,h rest k,.refl _ r rest e _⟩

theorem app (h : TakesUp r n ts e .application) (hts : ts ≠ []) (arg : TakesUp r n us e' .atom)
    (hus : ∃ t vs, us = t :: vs ∧ startsAtom t = true) (hline : ∀ t ∈ us, t.atLineStart = false) :
    TakesUp r n (ts ++ us) (.app e e' (r.source.stretch (ts ++ us))) .application := by
  intro rest k
  obtain ⟨t,vs,rfl,hstarts⟩ := hus
  obtain ⟨fn,mid,k₁,hfn,hargs⟩ := h (t :: vs ++ rest) k
  refine ⟨fn,mid ++ t :: vs,k₁,by rw [List.append_assoc,hfn,List.append_assoc],?_⟩
  rw [Source.stretch,Token.firstStart_append hts,Token.lastStop_append ts (List.cons_ne_nil t vs)]
  refine hargs.next hstarts (hline t List.mem_cons_self) ?_
  rw [bind_of_eq_ok (arg rest _)]
  rfl

theorem operand (h : TakesUp r n ts e .application) (hts : ts ≠ []) : TakesUp r n ts e .operation :=
  fun rest k hrest => ⟨e,[],_,h.application_eq_ok hts hrest k,.refl _ r rest e _⟩

theorem binary (h : TakesUp r n ts e .operation) (hts : ts ≠ []) {o : Token} (ho : isOperator o = true)
    (hline : o.atLineStart = false) (rhs : TakesUp r n us e' .application) (hus : us ≠ []) :
    TakesUp r n (ts ++ o :: us) (.binary o.text e e' (r.source.stretch (ts ++ o :: us))) .operation := by
  intro rest k hrest
  have hstops : StopsAt r startsAtom (o :: us ++ rest) := fun hstarts => by
    simp [Token.not_startsAtom_of_isOperator ho] at hstarts
  obtain ⟨lhs,mid,k₁,hlhs,hops⟩ := h (o :: us ++ rest) k hstops
  have hlast : Token.lastStop (ts ++ o :: us) = Token.lastStop us := by
    simpa using Token.lastStop_append (ts ++ [o]) hus
  refine ⟨lhs,mid ++ o :: us,k₁,by rw [List.append_assoc,hlhs,List.append_assoc],?_⟩
  rw [Source.stretch,Token.firstStart_append hts,hlast]
  refine hops.next ho hline ?_
  rw [List.cons_append,bind_of_eq_ok rfl,bind_of_eq_ok (rhs.application_eq_ok hus hrest o.stop)]
  rfl

theorem operation (h : TakesUp r n ts e .operation) (hts : ∃ t us, ts = t :: us ∧ startsAtom t = true) :
    TakesUp r n ts e .whole := by
  intro rest k hrest
  obtain ⟨t,us,rfl,hstarts⟩ := hts
  rw [expressionWithin,bind_of_eq_ok rfl,List.cons_append,bind_of_eq_ok rfl]
  simp only [Token.not_isLambda_of_startsAtom hstarts]
  exact h.operation_eq_ok (List.cons_ne_nil t us) hrest k

theorem lam (h : TakesUp r n us e .whole) (hus : us ≠ []) {sign x o : Token} {xs : List Token}
    (hsign : sign.isLambda = true) (hx : x.isIdent = true) (hxs : ∀ x ∈ xs, x.isIdent = true)
    (hline : ∀ x ∈ xs, x.atLineStart = false) (ho : o.isArrow = true) :
    TakesUp r (n + 1) (sign :: x :: (xs ++ o :: us))
      (.lam (x.text :: xs.map (·.text)) e (r.source.stretch (sign :: x :: (xs ++ o :: us)))) .whole := by
  intro rest k hrest
  have hstops : StopsAt r Token.isIdent (o :: (us ++ rest)) := fun h => by
    simp [Token.isIdent_of_kind (Token.kind_of_isArrow ho)] at h
  obtain ⟨k',hnames⟩ := names_append hxs hline hstops x.stop
  have hlast : Token.lastStop (sign :: x :: (xs ++ o :: us)) = Token.lastStop us := by
    simpa using Token.lastStop_append (sign :: x :: (xs ++ [o])) hus
  rw [expressionWithin,bind_of_eq_ok rfl,List.cons_append,bind_of_eq_ok rfl]
  simp only [hsign,if_true]
  rw [bind_of_eq_ok rfl,lambda,List.cons_append,bind_of_eq_ok (identifier_cons hx r _ _),List.append_assoc,
    List.cons_append,bind_of_eq_ok hnames,bind_of_eq_ok (arrow_cons ho r _ k'),bind_of_eq_ok (h rest o.stop hrest),
    Source.stretch,hlast]
  rfl

end TakesUp

end Parser

namespace Expr.Derives

open TypedHole.Parser

variable {ts : List Token} {e : Expr}

/-- The parser takes up all that the grammar derives, given as many levels of nesting as there are tokens. -/
theorem takesUp {r : Reading} {l : Level} (h : Derives r.source l ts e) (hin : Token.Inside ts) {n : Nat}
    (hn : ts.length ≤ n) : TakesUp r n ts e l := by
  -- only what stands in parentheses or under a lambda uses up a level
  induction h generalizing n with
  | @name t ident named =>
    intro rest k
    rw [atom,List.singleton_append,bind_of_eq_ok rfl,bind_of_eq_ok rfl,if_pos ident,bind_of_eq_ok rfl,named]
    rfl
  | @hole t ident marked =>
    intro rest k
    rw [atom,List.singleton_append,bind_of_eq_ok rfl,bind_of_eq_ok rfl,if_pos ident,bind_of_eq_ok rfl,marked]
    rfl
  | @number t numeral =>
    intro rest k
    rw [atom,List.singleton_append,bind_of_eq_ok rfl,bind_of_eq_ok rfl,Token.not_isIdent_of_isNumber numeral,
      if_neg nofun,if_pos numeral,bind_of_eq_ok rfl]
    rfl
  | parens ho _ hc ih =>
    simp only [List.length_cons,List.length_append] at hn
    obtain ⟨n,rfl⟩ : ∃ m, n = m + 1 := ⟨n - 1,by omega⟩
    obtain ⟨hts,-⟩ := List.forall_mem_append.1 hin
    exact (ih (Token.inside_of_forall hts) (by omega)).parens ho hc
  | annotated ho _ hm type hc ih =>
    simp only [List.length_cons,List.length_append] at hn
    obtain ⟨n,rfl⟩ : ∃ m, n = m + 1 := ⟨n - 1,by omega⟩
    obtain ⟨hts,hus⟩ := List.forall_mem_append.1 hin
    obtain ⟨hus,-⟩ := List.forall_mem_append.1 (List.forall_mem_cons.1 hus).2
    have htype := type.written (Token.inside_of_forall hus)
    exact (ih (Token.inside_of_forall hts) (by omega)).annotated htype ho hm hc
  | head _ ih => exact (ih hin hn).head
  | app fn arg ihf iha =>
    rw [List.length_append] at hn
    have hline := hin.right fn.ne_nil
    have hfn := ihf (hin.left fn.ne_nil) (n := n) (by omega)
    have harg := iha (Token.inside_of_forall hline) (n := n) (by omega)
    exact hfn.app fn.ne_nil harg (arg.starts nofun) hline
  | operand h ih => exact (ih hin hn).operand h.ne_nil
  | binary lhs ho rhs ihl ihr =>
    rw [List.length_append,List.length_cons] at hn
    obtain ⟨hline,hus⟩ := List.forall_mem_cons.1 (hin.right lhs.ne_nil)
    have hlhs := ihl (hin.left lhs.ne_nil) (n := n) (by omega)
    have hrhs := ihr (Token.inside_of_forall hus) (n := n) (by omega)
    exact hlhs.binary lhs.ne_nil ho hline hrhs rhs.ne_nil
  | operation h ih => exact (ih hin hn).operation (h.starts nofun)
  | lam hsign hx hxs ho body ih =>
    simp only [List.length_cons,List.length_append] at hn
    obtain ⟨n,rfl⟩ : ∃ m, n = m + 1 := ⟨n - 1,by omega⟩
    obtain ⟨hline,hus⟩ := List.forall_mem_append.1 (List.forall_mem_cons.1 hin).2
    have hbody := ih (Token.inside_of_forall (List.forall_mem_cons.1 hus).2) (n := n) (by omega)
    exact hbody.lam body.ne_nil hsign hx hxs hline ho

/-- The parser of expressions takes a whole expression up to where nothing more of it follows. -/
theorem accepted {r : Reading} {rest : List Token} (h : Derives r.source .whole ts e) (hin : Token.Inside ts)
    (hrest : StopsAt r goesOn rest) (k : Nat) :
    expression r ⟨ts ++ rest,k⟩ = .ok (e,⟨rest,Token.lastStop ts⟩) :=
  h.takesUp hin (n := (ts ++ rest).length) (by simp) rest k hrest

end Expr.Derives

/-- In a text that is one declaration only the first token begins a line. -/
theorem Source.inside_tokens {s : Source} (h : ∀ t ∈ s.tokens.1.tail, (s.position t.start).column ≠ 1) :
    Token.Inside s.tokens.1 := by
  intro t ht
  obtain ⟨pre,post,hstands⟩ := s.stands_of_mem_tokens (List.mem_of_mem_tail ht)
  exact Bool.eq_false_iff.2 fun hline => h t ht (hstands.column_eq_one_iff.2 hline)

theorem Token.Inside.suffix {ts us : List Token} (h : Inside us) (hts : ts <:+ us) : Inside ts := by
  obtain ⟨pre,rfl⟩ := hts
  rcases pre with - | ⟨t,pre⟩
  · exact h
  · exact inside_of_forall fun t ht => h t (List.mem_append_right pre ht)

/-- In a text that is scanned to its end, ends with a line and has one declaration, the parser of expressions accepts
exactly its grammar, wherever it starts: what it takes is an expression, and it takes an expression as soon as no
argument and no operator follows. -/
theorem expression_grammar {s : Source} (hscan : s.tokens.2 = .complete) (hend : s.chars.getLast? = some '\n')
    (hline : ∀ t ∈ s.tokens.1.tail, (s.position t.start).column ≠ 1) {i : Input} (hi : i.tokens <:+ s.tokens.1) :
    (∀ e i', Parser.expression ⟨s,s.tokens.2⟩ i = .ok (e,i') →
      ∃ ts, i.tokens = ts ++ i'.tokens ∧ Expr.Derives s .whole ts e) ∧
    ∀ ts rest e, i.tokens = ts ++ rest → Expr.Derives s .whole ts e →
      (∀ t ∈ rest.head?, Parser.startsAtom t = false ∧ Parser.isOperator t = false) →
      Parser.expression ⟨s,s.tokens.2⟩ i = .ok (e,⟨rest,Token.lastStop ts⟩) := by
  refine ⟨fun e i' h => ?_,fun ts rest e hts h hrest => ?_⟩
  · obtain ⟨ts,htook,hderives⟩ := Parser.derives_of_expression _ _ _ _ h
    exact ⟨ts,htook.tokens,hderives⟩
  · have hin : Token.Inside (ts ++ rest) := hts ▸ (s.inside_tokens hline).suffix hi
    have hstops : Parser.StopsAt ⟨s,s.tokens.2⟩ Parser.goesOn rest := by
      cases rest with
      | nil =>
        have hhas : s.hasEnd = true := Source.hasEnd_of_getLast? (by rw [hend]; simp; decide)
        exact ⟨.endOfInput,by simp [Reading.noToken,hscan,hhas]⟩
      | cons t rest =>
        obtain ⟨hatom,hoperator⟩ := hrest t rfl
        intro ht
        simp [Parser.goesOn,hatom,hoperator] at ht
    obtain ⟨ts',k⟩ := i
    cases hts
    exact h.accepted (hin.left h.ne_nil) hstops k

def Source.curried : Source := ⟨0,"d.hole","d = λ x y → (f x : A→B) + _z 2\n"⟩

theorem Source.tokens_curried : Source.curried.tokens =
    ([⟨.ident,"d",0,1,true⟩,⟨.symbol,"=",2,3,false⟩,⟨.symbol,"λ",4,6,false⟩,⟨.ident,"x",7,8,false⟩,
      ⟨.ident,"y",9,10,false⟩,⟨.symbol,"→",11,14,false⟩,⟨.symbol,"(",15,16,false⟩,⟨.ident,"f",16,17,false⟩,
      ⟨.ident,"x",18,19,false⟩,⟨.symbol,":",20,21,false⟩,⟨.ident,"A",22,23,false⟩,⟨.symbol,"→",23,26,false⟩,
      ⟨.ident,"B",26,27,false⟩,⟨.symbol,")",27,28,false⟩,⟨.symbol,"+",29,30,false⟩,⟨.ident,"_z",31,33,false⟩,
      ⟨.number,"2",34,35,false⟩],.complete) := by
  decide +kernel

def Expr.curried : Expr := .lam ["x","y"]
  (.binary "+" (.ann (.app (.var "f" ⟨0,16,17⟩) (.var "x" ⟨0,18,19⟩) ⟨0,16,19⟩) (.arrow (.const "A") (.const "B"))
    ⟨0,15,28⟩) (.app (.hole "_z" ⟨0,31,33⟩) (.number "2" ⟨0,34,35⟩) ⟨0,31,35⟩) ⟨0,15,35⟩) ⟨0,4,35⟩

theorem Expr.derives_curried : Derives .curried .whole (Source.curried.tokens.1.drop 2) .curried := by
  rw [Source.tokens_curried]
  have hf : Derives .curried .atom [⟨.ident,"f",16,17,false⟩] (.var "f" ⟨0,16,17⟩) := .name rfl (by decide +kernel)
  have hx : Derives .curried .atom [⟨.ident,"x",18,19,false⟩] (.var "x" ⟨0,18,19⟩) := .name rfl (by decide +kernel)
  have hz : Derives .curried .atom [⟨.ident,"_z",31,33,false⟩] (.hole "_z" ⟨0,31,33⟩) := .hole rfl (by decide +kernel)
  have htwo : Derives .curried .atom [⟨.number,"2",34,35,false⟩] (.number "2" ⟨0,34,35⟩) := .number rfl
  have hA : Ty.Derives .left [⟨.ident,"A",22,23,false⟩] (.const "A") := .argument (.name rfl)
  have hB : Ty.Derives .whole [⟨.ident,"B",26,27,false⟩] (.const "B") := .application (.argument (.name rfl))
  have htype : Ty.Derives .whole _ (.arrow (.const "A") (.const "B")) :=
    .arrow (o := ⟨.symbol,"→",23,26,false⟩) hA rfl hB
  have hleft := Derives.annotated (o := ⟨.symbol,"(",15,16,false⟩) (m := ⟨.symbol,":",20,21,false⟩)
    (c := ⟨.symbol,")",27,28,false⟩) rfl (.operation (.operand ((Derives.head hf).app hx))) rfl htype rfl
  have hbody := Derives.binary (o := ⟨.symbol,"+",29,30,false⟩) (.operand (.head hleft)) (by decide)
    ((Derives.head hz).app htwo)
  have hsign : Token.isLambda ⟨.symbol,"λ",4,6,false⟩ = true := rfl
  have hy : ∀ y ∈ [⟨.ident,"y",9,10,false⟩], Token.isIdent y = true := List.forall_mem_singleton.2 rfl
  exact .lam (x := ⟨.ident,"x",7,8,false⟩) (o := ⟨.symbol,"→",11,14,false⟩) hsign rfl hy rfl (.operation hbody)

theorem expression_grammar_curried :
    Parser.expression ⟨.curried,Source.curried.tokens.2⟩ ⟨Source.curried.tokens.1.drop 2,3⟩ =
      .ok (.curried,⟨[],35⟩) ∧
    ∃ ts, Source.curried.tokens.1.drop 2 = ts ++ [] ∧ Expr.Derives .curried .whole ts .curried := by
  have h := expression_grammar (s := .curried) (by rw [Source.tokens_curried]) (by decide +kernel)
    (by rw [Source.tokens_curried]; decide +kernel) (i := ⟨Source.curried.tokens.1.drop 2,3⟩) (List.drop_suffix ..)
  have hlast : Token.lastStop (Source.curried.tokens.1.drop 2) = 35 := by
    rw [Source.tokens_curried]
    rfl
  have hparse := hlast ▸ h.2 _ [] _ (List.append_nil _).symm Expr.derives_curried nofun
  exact ⟨hparse,h.1 _ _ hparse⟩

end TypedHole
