import TypedHole.Proofs.Nesting

/-! The grammar of types.
The places in a written type are its levels: whole types join applications by arrows, applications join arguments,
and arguments are names or stand in parentheses. Main statements: the parser of types accepts only what the
grammar derives (`Parser.written_of_type`), and takes all that it derives where nothing more of a type follows
(`Ty.Written.accepted`). -/
namespace TypedHole

/-- The tokens that make a type at a place. Nothing that begins a line goes on with the type before it. -/
inductive Ty.Written : Place → List Token → Ty → Prop
  | name {t : Token} (h : t.isIdent = true) : Written .argument [t] (Parser.namedType t.text)
  | parens {o c : Token} {ts : List Token} {ty : Ty} (ho : o.isSymbol "(" = true) (inner : Written .whole ts ty)
      (hc : c.isSymbol ")" = true) : Written .argument (o :: (ts ++ [c])) ty
  | argument {ts : List Token} {ty : Ty} (h : Written .argument ts ty) : Written .left ts ty
  | app {ts us : List Token} {f a : Ty} (fn : Written .left ts f) (arg : Written .argument us a)
      (inside : ∀ t ∈ us.head?, t.atLineStart = false) : Written .left (ts ++ us) (.app f a)
  | application {ts : List Token} {ty : Ty} (h : Written .left ts ty) : Written .whole ts ty
  | arrow {ts us : List Token} {o : Token} {d c : Ty} (dom : Written .left ts d) (ho : o.isArrow = true)
      (inside : o.atLineStart = false) (cod : Written .whole us c) : Written .whole (ts ++ o :: us) (.arrow d c)

namespace Parser

variable {α : Type}

/-- A parser takes tokens from the front that are written as what it returns. -/
def Takes (p : Parser α) (W : List Token → α → Prop) : Prop :=
  ∀ r i a i', p r i = .ok (a,i') → ∃ ts, i.tokens = ts ++ i'.tokens ∧ W ts a

theorem take_eq_cons {r : Reading} {i i' : Input} {t : Token} (h : take r i = .ok (t,i')) :
    i.tokens = t :: i'.tokens := by
  obtain ⟨ts,n⟩ := i
  cases ts with
  | nil => cases h
  | cons t ts =>
    cases h
    rfl

theorem symbol_eq_cons {text : String} {r : Reading} {i i' : Input} {u : Unit} (h : symbol text r i = .ok (u,i')) :
    ∃ t, t.isSymbol text = true ∧ i.tokens = t :: i'.tokens := by
  obtain ⟨t,i₁,ht,h⟩ := bind_eq_ok h
  rcases ite_eq_ok h with ⟨hsymbol,h⟩ | ⟨-,h⟩
  · cases h
    exact ⟨t,hsymbol,take_eq_cons ht⟩
  · cases h

theorem arrow?_eq_true {r : Reading} {i i' : Input} (h : arrow? r i = .ok (true,i')) :
    ∃ t, t.isArrow = true ∧ t.atLineStart = false ∧ i.tokens = t :: i'.tokens := by
  obtain ⟨t,i₁,ht,h⟩ := bind_eq_ok h
  obtain ⟨rfl,hinside⟩ := peekInside?_eq_ok ht
  cases t with
  | none => cases h
  | some t =>
    rcases ite_eq_ok h with ⟨harrow,h⟩ | ⟨-,h⟩
    · obtain ⟨u,i₂,hu,h⟩ := bind_eq_ok h
      cases h
      obtain ⟨hline,hhead⟩ := hinside t rfl
      have htokens := take_eq_cons hu
      rw [htokens] at hhead
      cases hhead
      exact ⟨t,harrow,hline,htokens⟩
    · cases h

theorem eq_of_arrow? {r : Reading} {i i' : Input} (h : arrow? r i = .ok (false,i')) : i' = i := by
  obtain ⟨t,i₁,ht,h⟩ := bind_eq_ok h
  obtain ⟨rfl,-⟩ := peekInside?_eq_ok ht
  cases t with
  | none =>
    cases h
    rfl
  | some t =>
    rcases ite_eq_ok h with ⟨-,h⟩ | ⟨-,h⟩
    · obtain ⟨u,i₂,-,h⟩ := bind_eq_ok h
      cases h
    · cases h
      rfl

/-! What the parser of types takes is a type. -/

section

variable {inner : Parser Ty}

theorem written_of_typeAtom (h : inner.Takes (Ty.Written .whole)) :
    (typeAtom inner).Takes (Ty.Written .argument) := by
  intro r i ty i' h'
  obtain ⟨t,i₁,ht,h'⟩ := bind_eq_ok h'
  have htokens := take_eq_cons ht
  rcases ite_eq_ok h' with ⟨hident,h'⟩ | ⟨-,h'⟩
  · cases h'
    exact ⟨[t],htokens,.name hident⟩
  rcases ite_eq_ok h' with ⟨hopen,h'⟩ | ⟨-,h'⟩
  · obtain ⟨ty,i₂,hinner,h'⟩ := bind_eq_ok h'
    obtain ⟨u,i₃,hclose,h'⟩ := bind_eq_ok h'
    cases h'
    obtain ⟨ts,hts,hty⟩ := h _ _ _ _ hinner
    obtain ⟨c,hc,hrest⟩ := symbol_eq_cons hclose
    exact ⟨t :: (ts ++ [c]),by simp [htokens,hts,hrest],.parens hopen hty hc⟩
  · cases h'

theorem written_of_typeApplication (h : inner.Takes (Ty.Written .whole)) :
    (typeApplication inner).Takes (Ty.Written .left) := by
  intro r i ty i' h'
  obtain ⟨fn,i₁,hfn,h'⟩ := bind_eq_ok h'
  obtain ⟨ts,hts,hty⟩ := written_of_typeAtom h _ _ _ _ hfn
  refine extendWhile_invariant (I := fun f k => ∃ ts, i.tokens = ts ++ k.tokens ∧ Ty.Written .left ts f)
    (fun f b t k k' ⟨ts,hts,hf⟩ hhead _ hline hstep => ?_) h' ⟨ts,hts,.argument hty⟩
  obtain ⟨arg,k₁,harg,hstep⟩ := bind_eq_ok hstep
  cases hstep
  obtain ⟨us,hus,hwritten⟩ := written_of_typeAtom h _ _ _ _ harg
  refine ⟨ts ++ us,by simp [hts,hus],.app hf hwritten fun t' ht' => ?_⟩
  -- an argument has a token, and it is the one that has been looked at
  rw [hus,List.head?_append,Option.mem_def.1 ht'] at hhead
  cases hhead
  exact hline

end

theorem written_of_typeWithin (n : Nat) : (typeWithin n).Takes (Ty.Written .whole) := by
  induction n with
  | zero =>
    intro r i ty i' h
    cases h
  | succ n ih =>
    intro r i ty i' h
    obtain ⟨dom,i₁,hdom,h⟩ := bind_eq_ok h
    obtain ⟨b,i₂,hb,h⟩ := bind_eq_ok h
    obtain ⟨ts,hts,hwritten⟩ := written_of_typeApplication ih _ _ _ _ hdom
    rcases ite_eq_ok h with ⟨hbt,h⟩ | ⟨hbf,h⟩
    · obtain ⟨cod,i₃,hcod,h⟩ := bind_eq_ok h
      cases h
      obtain ⟨o,ho,hline,htokens⟩ := arrow?_eq_true (hbt ▸ hb)
      obtain ⟨us,hus,hwritten'⟩ := ih _ _ _ _ hcod
      exact ⟨ts ++ o :: us,by simp [hts,htokens,hus],.arrow hwritten ho hline hwritten'⟩
    · cases h
      cases eq_of_arrow? (hbf ▸ hb)
      exact ⟨ts,hts,.application hwritten⟩

/-- The parser of types accepts only types. -/
theorem written_of_type : type.Takes (Ty.Written .whole) := fun r i ty i' h =>
  written_of_typeWithin (i.tokens.length + 1) r i ty i' h

/-! All that is a type is taken. -/

theorem symbol_cons {text : String} {t : Token} (h : t.isSymbol text = true) (r : Reading) (ts : List Token)
    (n : Nat) : symbol text r ⟨t :: ts,n⟩ = .ok ((),⟨ts,t.stop⟩) := by
  rw [symbol,bind_of_eq_ok rfl,if_pos h]
  rfl

/-- Nothing follows that passes a test and goes on in the same line; at the end the look behind it is defined. -/
def StopsAt (r : Reading) (test : Token → Bool) : List Token → Prop
  | [] => ∃ e, r.noToken = .error e
  | t :: _ => test t = true → t.atLineStart = true

theorem StopsAt.mono {r : Reading} {test test' : Token → Bool} {rest : List Token} (h : StopsAt r test' rest)
    (htest : ∀ t, test t = true → test' t = true) : StopsAt r test rest := by
  cases rest with
  | nil => exact h
  | cons t rest => exact fun ht => h (htest t ht)

theorem peekInside?_cons {t : Token} (h : t.atLineStart = false) (r : Reading) (ts : List Token) (n : Nat) :
    peekInside? r ⟨t :: ts,n⟩ = .ok (some t,⟨t :: ts,n⟩) := by
  rw [peekInside?,bind_of_eq_ok rfl]
  simp [Pure.pure,h]

theorem peekInside?_stops {r : Reading} {test : Token → Bool} {rest : List Token} (h : StopsAt r test rest)
    (n : Nat) : ∃ t, peekInside? r ⟨rest,n⟩ = .ok (t,⟨rest,n⟩) ∧ ∀ t' ∈ t, test t' = false := by
  cases rest with
  | nil =>
    obtain ⟨e,he⟩ := h
    exact ⟨none,by simp [peekInside?,peek?,Bind.bind,Pure.pure,he],nofun⟩
  | cons t rest =>
    refine ⟨some t |>.filter fun t => !t.atLineStart,rfl,fun t' ht' => ?_⟩
    obtain ⟨ht',hline⟩ := Option.filter_eq_some_iff.1 ht'
    cases ht'
    refine Bool.eq_false_iff.2 fun htest => ?_
    rw [h htest] at hline
    cases hline

theorem extendWhile_stops {test : Token → Bool} {step : α → Parser α} {r : Reading} {rest : List Token}
    (h : StopsAt r test rest) (n k : Nat) (a : α) :
    extendWhile test step (n + 1) a r ⟨rest,k⟩ = .ok (a,⟨rest,k⟩) := by
  obtain ⟨t,ht,htest⟩ := peekInside?_stops h k
  rw [extendWhile,bind_of_eq_ok ht]
  cases t with
  | none => rfl
  | some t =>
    simp only [htest t rfl]
    rfl

theorem extendWhile_goes {test : Token → Bool} {step : α → Parser α} {r : Reading} {t : Token} {ts : List Token}
    {a b : α} {i : Input} {k : Nat} (htest : test t = true) (hline : t.atLineStart = false)
    (hstep : step a r ⟨t :: ts,k⟩ = .ok (b,i)) (n : Nat) :
    extendWhile test step (n + 1) a r ⟨t :: ts,k⟩ = extendWhile test step n b r i := by
  rw [extendWhile,bind_of_eq_ok (peekInside?_cons hline r ts k)]
  simp only [htest]
  exact bind_of_eq_ok hstep

theorem arrow?_stops {r : Reading} {rest : List Token} (h : StopsAt r Token.isArrow rest) (n : Nat) :
    arrow? r ⟨rest,n⟩ = .ok (false,⟨rest,n⟩) := by
  obtain ⟨t,ht,htest⟩ := peekInside?_stops h n
  rw [arrow?,bind_of_eq_ok ht]
  cases t with
  | none => rfl
  | some t =>
    simp only [htest t rfl]
    rfl

theorem arrow?_cons {t : Token} (ht : t.isArrow = true) (hline : t.atLineStart = false) (r : Reading)
    (ts : List Token) (n : Nat) : arrow? r ⟨t :: ts,n⟩ = .ok (true,⟨ts,t.stop⟩) := by
  rw [arrow?,bind_of_eq_ok (peekInside?_cons hline r ts n)]
  simp only [ht]
  rfl

def typeArguments (inner : Parser Ty) : Nat → Ty → Parser Ty :=
  extendWhile startsTypeAtom fun fn => do
    let arg ← typeAtom inner
    Pure.pure (.app fn arg)

/-- How the parser of types takes what is written at a place, if types nest no deeper than `n`: an argument without
looking further, an application up to the arguments that may follow, and a whole type up to where it stops. -/
def Accepts (n : Nat) (ts : List Token) (ty : Ty) : Place → Prop
  | .argument => ∀ r rest k, ∃ k', typeAtom (typeWithin n) r ⟨ts ++ rest,k⟩ = .ok (ty,⟨rest,k'⟩)
  | .left => ∀ r rest k, ∃ fn mid k₁, typeAtom (typeWithin n) r ⟨ts ++ rest,k⟩ = .ok (fn,⟨mid ++ rest,k₁⟩) ∧
      ∀ m, mid.length ≤ m → ∃ m' k', m ≤ mid.length + m' ∧
        typeArguments (typeWithin n) m fn r ⟨mid ++ rest,k₁⟩ = typeArguments (typeWithin n) m' ty r ⟨rest,k'⟩
  | .whole => ∀ r rest k, StopsAt r (fun t => startsTypeAtom t || t.isArrow) rest →
      ∃ k', typeWithin (n + 1) r ⟨ts ++ rest,k⟩ = .ok (ty,⟨rest,k'⟩)

theorem typeApplication_accepts {n : Nat} {ts : List Token} {ty : Ty} (h : Accepts n ts ty .left) {r : Reading}
    {rest : List Token} (hrest : StopsAt r startsTypeAtom rest) (k : Nat) :
    ∃ k', typeApplication (typeWithin n) r ⟨ts ++ rest,k⟩ = .ok (ty,⟨rest,k'⟩) := by
  obtain ⟨fn,mid,k₁,hfn,hargs⟩ := h r rest k
  obtain ⟨m',k',hm',hargs⟩ := hargs ((mid ++ rest).length + 1) (by simp; omega)
  obtain ⟨m,rfl⟩ : ∃ m, m' = m + 1 := ⟨m' - 1,by simp at hm'; omega⟩
  refine ⟨k',?_⟩
  rw [typeApplication,bind_of_eq_ok hfn]
  exact hargs.trans (extendWhile_stops hrest m k' ty)

end Parser

namespace Ty.Written

open TypedHole.Parser

variable {ts : List Token} {ty : Ty}

theorem starts (h : Written .argument ts ty) : ∃ t us, ts = t :: us ∧ startsTypeAtom t = true := by
  cases h with
  | name h => exact ⟨_,[],rfl,by simp [startsTypeAtom,h]⟩
  | parens ho => exact ⟨_,_,rfl,by simp [startsTypeAtom,ho]⟩

theorem stopsAt_close {t : Token} (h : t.isSymbol ")" = true) (r : Reading) (rest : List Token) :
    StopsAt r (fun t => startsTypeAtom t || t.isArrow) (t :: rest) := by
  intro ht
  simp only [Token.isSymbol,Bool.and_eq_true,beq_iff_eq] at h
  simp [startsTypeAtom,Token.isIdent,Token.isArrow,Token.isSymbol,h] at ht

theorem stopsAt_arrow {t : Token} (h : t.isArrow = true) (r : Reading) (rest : List Token) :
    StopsAt r startsTypeAtom (t :: rest) := by
  intro ht
  simp only [Token.isArrow,Token.isSymbol,Bool.or_eq_true,Bool.and_eq_true,beq_iff_eq] at h
  rcases h with h | h <;> simp [startsTypeAtom,Token.isIdent,Token.isSymbol,h] at ht

theorem ne_nil {p : Place} (h : Written p ts ty) : ts ≠ [] := by
  induction h with
  | argument _ ih => exact ih
  | application _ ih => exact ih
  | _ => simp_all

theorem accepts {p : Place} (h : Written p ts ty) {n : Nat} (hn : ts.length ≤ n) : Accepts n ts ty p := by
  induction h generalizing n with
  | @name t h =>
    intro r rest k
    refine ⟨t.stop,?_⟩
    rw [typeAtom,List.singleton_append,bind_of_eq_ok rfl,if_pos h]
    rfl
  | @parens o c ts ty ho inner hc ih =>
    intro r rest k
    rw [List.length_cons,List.length_append,List.length_singleton] at hn
    obtain ⟨n,rfl⟩ : ∃ m, n = m + 1 := ⟨n - 1,by omega⟩
    have hident : o.isIdent = false := by
      simp only [Token.isSymbol,Bool.and_eq_true,beq_iff_eq] at ho
      simp [Token.isIdent,ho]
    obtain ⟨k',hinner⟩ := ih (n := n) (by omega) r (c :: rest) o.stop (stopsAt_close hc r rest)
    refine ⟨c.stop,?_⟩
    rw [typeAtom,List.cons_append,bind_of_eq_ok rfl,hident,if_neg nofun,if_pos ho,List.append_assoc,
      List.singleton_append,bind_of_eq_ok hinner,bind_of_eq_ok (symbol_cons hc r rest k')]
    rfl
  | argument h ih =>
    intro r rest k
    obtain ⟨k',hatom⟩ := ih hn r rest k
    exact ⟨_,[],k',hatom,fun m _ => ⟨m,k',by simp,rfl⟩⟩
  | @app ts us f a fn arg inside ihf iha =>
    intro r rest k
    rw [List.length_append] at hn
    obtain ⟨t,vs,rfl,hstarts⟩ := arg.starts
    obtain ⟨fn,mid,k₁,hfn,hargs⟩ := ihf (n := n) (by omega) r (t :: vs ++ rest) k
    refine ⟨fn,mid ++ t :: vs,k₁,by rw [List.append_assoc,hfn,List.append_assoc],fun m hm => ?_⟩
    rw [List.length_append,List.length_cons] at hm
    obtain ⟨m',k₂,hm',hargs⟩ := hargs m (by omega)
    obtain ⟨m',rfl⟩ : ∃ l, m' = l + 1 := ⟨m' - 1,by omega⟩
    obtain ⟨k₃,harg⟩ := iha (n := n) (by omega) r rest k₂
    refine ⟨m',k₃,by simp; omega,?_⟩
    rw [List.cons_append] at harg hargs
    rw [List.append_assoc,List.cons_append,hargs]
    refine extendWhile_goes hstarts (inside t rfl) ?_ m'
    rw [bind_of_eq_ok harg]
    rfl
  | application h ih =>
    intro r rest k hrest
    obtain ⟨k',happ⟩ := typeApplication_accepts (ih hn) (hrest.mono fun t ht => by simp [ht]) k
    refine ⟨k',?_⟩
    rw [typeWithin,bind_of_eq_ok happ,bind_of_eq_ok (arrow?_stops (hrest.mono fun t ht => by simp [ht]) k')]
    rfl
  | @arrow ts us o d c dom ho inside cod ihd ihc =>
    intro r rest k hrest
    rw [List.length_append,List.length_cons] at hn
    obtain ⟨n,rfl⟩ : ∃ m, n = m + 1 := ⟨n - 1,by omega⟩
    obtain ⟨k₁,hdom⟩ := typeApplication_accepts (ihd (n := n + 1) (by omega)) (stopsAt_arrow ho r (us ++ rest)) k
    obtain ⟨k₂,hcod⟩ := ihc (n := n) (by omega) r rest o.stop hrest
    refine ⟨k₂,?_⟩
    rw [typeWithin,List.append_assoc,List.cons_append,bind_of_eq_ok hdom,
      bind_of_eq_ok (arrow?_cons ho inside r (us ++ rest) k₁)]
    simp only [if_true]
    rw [bind_of_eq_ok hcod]
    rfl

/-- The parser of types takes a whole type up to where nothing more of it follows. -/
theorem accepted (h : Written .whole ts ty) {r : Reading} {rest : List Token}
    (hrest : StopsAt r (fun t => startsTypeAtom t || t.isArrow) rest) (k : Nat) :
    ∃ k', type r ⟨ts ++ rest,k⟩ = .ok (ty,⟨rest,k'⟩) :=
  h.accepts (n := (ts ++ rest).length) (by simp) r rest k hrest

end Ty.Written
end TypedHole
