import TypedHole.Proofs.Parsing

/-! Where the parts of a module stand.
Main statement: in a module that has been read each part of a pattern or an expression stands within the
parts around it and behind the parts before it, and equations stand side by side, each around its patterns and
its right-hand side (`Parser.isWritten_of_runOn`). -/
namespace TypedHole

/-- A stretch of a source between two offsets that is not empty. -/
structure Span.Within (key lo hi : Nat) (s : Span) : Prop where
  source : s.source = key
  start : lo ≤ s.start
  nonempty : s.start < s.stop
  stop : s.stop ≤ hi

theorem Span.Within.mono {key lo hi lo' hi' : Nat} {s : Span} (h : s.Within key lo hi) (hl : lo' ≤ lo)
    (hu : hi ≤ hi') : s.Within key lo' hi' :=
  ⟨h.source,Nat.le_trans hl h.start,h.nonempty,Nat.le_trans h.stop hu⟩

namespace Pat

mutual

def Nested (key : Nat) : Nat → Nat → Pat → Prop
  | lo, hi, .var _ s => s.Within key lo hi
  | lo, hi, .wildcard s => s.Within key lo hi
  | lo, hi, .ctor _ args s => s.Within key lo hi ∧ NestedList key s.start s.stop args

def NestedList (key : Nat) : Nat → Nat → List Pat → Prop
  | _, _, [] => True
  | lo, hi, p :: ps => p.Nested key lo hi ∧ NestedList key p.span.stop hi ps

end

variable {key lo hi lo' hi' : Nat} {p : Pat} {ps : List Pat}

theorem Nested.span (h : p.Nested key lo hi) : p.span.Within key lo hi := by
  cases p with
  | ctor =>
    rw [Nested] at h
    exact h.1
  | _ =>
    rw [Nested] at h
    exact h

theorem Nested.mono (h : p.Nested key lo hi) (hl : lo' ≤ lo) (hu : hi ≤ hi') : p.Nested key lo' hi' := by
  cases p with
  | ctor =>
    rw [Nested] at h ⊢
    exact ⟨h.1.mono hl hu,h.2⟩
  | _ =>
    rw [Nested] at h ⊢
    exact h.mono hl hu

theorem NestedList.mono (h : NestedList key lo hi ps) (hl : lo' ≤ lo) (hu : hi ≤ hi') :
    NestedList key lo' hi' ps := by
  induction ps generalizing lo lo' with
  | nil => trivial
  | cons p ps ih =>
    rw [NestedList] at h ⊢
    exact ⟨h.1.mono hl hu,ih h.2 (Nat.le_refl _)⟩

end Pat

namespace Expr

/-- An expression between two offsets. Each part of it stands within the parts around it and behind the parts
before it, and its holes have names that mark holes. -/
def Nested (key : Nat) : Nat → Nat → Expr → Prop
  | lo, hi, .var _ s => s.Within key lo hi
  | lo, hi, .hole x s => s.Within key lo hi ∧ isHoleName x = true
  | lo, hi, .number _ s => s.Within key lo hi
  | lo, hi, .app f a s => s.Within key lo hi ∧ f.Nested key s.start s.stop ∧ a.Nested key f.span.stop s.stop
  | lo, hi, .binary _ l r s => s.Within key lo hi ∧ l.Nested key s.start s.stop ∧ r.Nested key l.span.stop s.stop
  | lo, hi, .lam _ b s => s.Within key lo hi ∧ b.Nested key s.start s.stop
  | lo, hi, .ann e _ s => s.Within key lo hi ∧ e.Nested key s.start s.stop

variable {key lo hi lo' hi' : Nat} {e : Expr}

theorem Nested.span (h : e.Nested key lo hi) : e.span.Within key lo hi := by
  cases e with
  | var | number => exact h
  | _ => exact h.1

theorem Nested.mono (h : e.Nested key lo hi) (hl : lo' ≤ lo) (hu : hi ≤ hi') : e.Nested key lo' hi' := by
  cases e with
  | var | number => exact Span.Within.mono h hl hu
  | _ => exact ⟨h.1.mono hl hu,h.2⟩

theorem Nested.behind {e' : Expr} (he : e.Nested key lo hi) (h : e'.Nested key e.span.stop hi') :
    e'.Nested key lo hi' :=
  h.mono (Nat.le_trans he.span.start (Nat.le_of_lt he.span.nonempty)) (Nat.le_refl _)

end Expr

def Input.offset (i : Input) : Nat := (i.tokens.head?.map (·.start)).getD i.lastStop

theorem Input.InOrder.lastStop_le_offset {i : Input} (h : i.InOrder) : i.lastStop ≤ i.offset := by
  obtain ⟨ts,n⟩ := i
  cases ts with
  | nil => exact Nat.le_refl n
  | cons t ts => exact h.1

namespace Parser

variable {α β : Type}

theorem offset_eq_ok {r : Reading} {i i' : Input} {n : Nat} (h : offset r i = .ok (n,i')) :
    n = i.offset ∧ i = i' := by
  cases h
  exact ⟨rfl,rfl⟩

theorem take_eq_ok {r : Reading} {i i' : Input} {t : Token} (ho : i.InOrder) (h : take r i = .ok (t,i')) :
    i.offset = t.start ∧ i.lastStop ≤ t.start ∧ t.start < t.stop ∧ i'.lastStop = t.stop ∧ i'.InOrder := by
  obtain ⟨ts,n⟩ := i
  cases ts with
  | nil => cases h
  | cons t ts =>
    cases h
    exact ⟨rfl,ho.1,ho.2.1,rfl,ho.2.2⟩

theorem ite_eq_ok {b : Bool} {p q : Parser α} {r : Reading} {i : Input} {x : α × Input}
    (h : (if b then p else q) r i = .ok x) : b = true ∧ p r i = .ok x ∨ b = false ∧ q r i = .ok x := by
  cases b with
  | true => exact .inl ⟨rfl,h⟩
  | false => exact .inr ⟨rfl,h⟩

theorem eq_of_peek? {r : Reading} {i i' : Input} {t : Option Token} (h : peek? r i = .ok (t,i')) :
    i' = i := by
  simp only [peek?] at h
  split at h <;> cases h <;> rfl

/-- What a look at the next token of a declaration finds: no token, one that begins a line, or one inside. -/
theorem peekInside?_eq_ok {r : Reading} {i i' : Input} {t : Option Token} (h : peekInside? r i = .ok (t,i')) :
    i' = i ∧ ∀ t' ∈ t, t'.atLineStart = false ∧ i.tokens.head? = some t' := by
  obtain ⟨t₁,i₁,ht,h⟩ := bind_eq_ok h
  cases h
  cases eq_of_peek? ht
  refine ⟨rfl,fun t' ht' => ?_⟩
  obtain ⟨rfl,hinside⟩ := Option.filter_eq_some_iff.1 ht'
  simp only [peek?] at ht
  split at ht <;> cases ht
  next t ts _ htokens => exact ⟨by simpa using hinside,by simp [htokens]⟩

theorem eq_of_symbol? {text : String} {r : Reading} {i i' : Input} (h : symbol? text r i = .ok (false,i')) :
    i' = i := by
  obtain ⟨t,i₁,ht,h⟩ := bind_eq_ok h
  cases eq_of_peek? ht
  cases t with
  | none =>
    cases h
    rfl
  | some t =>
    rcases ite_eq_ok h with ⟨-,h⟩ | ⟨-,h⟩
    · obtain ⟨u,i₂,-,h⟩ := bind_eq_ok h
      cases h
    · cases h
      rfl

theorem extendWhile_invariant {test : Token → Bool} {step : α → Parser α} {r : Reading}
    {I : α → Input → Prop}
    (hstep : ∀ a b t i i', I a i → i.tokens.head? = some t → test t = true → t.atLineStart = false →
      step a r i = .ok (b,i') → I b i')
    {n : Nat} {a b : α} {i i' : Input} (h : extendWhile test step n a r i = .ok (b,i')) (ha : I a i) : I b i' := by
  induction n generalizing a i with
  | zero => cases h
  | succ n ih =>
    obtain ⟨t,i₁,ht,h⟩ := bind_eq_ok h
    obtain ⟨rfl,hinside⟩ := peekInside?_eq_ok ht
    cases t with
    | none =>
      cases h
      exact ha
    | some t =>
      rcases ite_eq_ok h with ⟨htest,h⟩ | ⟨-,h⟩
      · obtain ⟨c,i₂,hc,h⟩ := bind_eq_ok h
        obtain ⟨hline,hhead⟩ := hinside t rfl
        exact ih h (hstep a c t _ i₂ ha hhead htest hline hc)
      · cases h
        exact ha

theorem within_spanSince (r : Reading) {start stop : Nat} (h : start < stop) :
    (r.source.spanSince start stop).Within r.source.key start stop ∧
      (r.source.spanSince start stop).start = start ∧ (r.source.spanSince start stop).stop = stop := by
  rw [r.source.spanSince_of_le (Nat.le_of_lt h)]
  exact ⟨⟨rfl,Nat.le_refl _,h,Nat.le_refl _⟩,rfl,rfl⟩

def NestsPattern (p : Parser Pat) : Prop :=
  ∀ r i i' a, i.InOrder → p r i = .ok (a,i') → a.Nested r.source.key i.offset i'.lastStop

namespace NestsPattern

variable {p : Parser Pat}

theorem itemsUntil {P : Pat → Prop} (close : String) (h : p.NestsPattern) (hp : p.Reads P) {n : Nat}
    {r : Reading} {i i' : Input} {ps : List Pat} (ho : i.InOrder)
    (h' : Parser.itemsUntil close p n r i = .ok (ps,i')) :
    Pat.NestedList r.source.key i.offset i'.lastStop ps := by
  induction n generalizing i ps with
  | zero => cases h'
  | succ n ih =>
    obtain ⟨b,i₁,hb,h'⟩ := bind_eq_ok h'
    rcases ite_eq_ok h' with ⟨-,h'⟩ | ⟨hbf,h'⟩
    · cases h'
      trivial
    · obtain ⟨a,i₂,ha,h'⟩ := bind_eq_ok h'
      obtain ⟨as,i₃,has,h'⟩ := bind_eq_ok h'
      cases h'
      cases eq_of_symbol? (hbf ▸ hb)
      have hfirst := h _ _ _ _ ho ha
      obtain ⟨ho₂,-⟩ := (hp _ _ _ _ ha).1 ho
      obtain ⟨-,hl⟩ := (Reads.itemsUntil close hp n _ _ _ _ has).1 ho₂
      rw [Pat.NestedList]
      exact ⟨hfirst.mono (Nat.le_refl _) hl,(ih ho₂ has).mono
        (Nat.le_trans hfirst.span.stop ho₂.lastStop_le_offset) (Nat.le_refl _)⟩

theorem patternWithin (n : Nat) : (Parser.patternWithin n).NestsPattern := by
  induction n with
  | zero =>
    intro r i i' a _ h
    cases h
  | succ n ih =>
    intro r i i' a ho h
    obtain ⟨start,i₁,hstart,h⟩ := bind_eq_ok h
    obtain ⟨rfl,rfl⟩ := offset_eq_ok hstart
    obtain ⟨t,i₂,ht,h⟩ := bind_eq_ok h
    obtain ⟨hstart,-,hlt,hstop,ho₂⟩ := take_eq_ok ho ht
    rw [hstart] at h ⊢
    rcases ite_eq_ok h with ⟨-,h⟩ | ⟨-,h⟩
    · -- a name by itself
      obtain ⟨span,i₃,hspan,h⟩ := bind_eq_ok h
      cases hspan
      rw [hstop] at h
      have hwithin := (within_spanSince r hlt).1
      rcases ite_eq_ok h with ⟨-,h⟩ | ⟨-,h⟩
      · cases h
        rw [Pat.Nested]
        exact hstop ▸ hwithin
      rcases ite_eq_ok h with ⟨-,h⟩ | ⟨-,h⟩
      · cases h
        rw [Pat.Nested]
        exact ⟨hstop ▸ hwithin,trivial⟩
      · cases h
        rw [Pat.Nested]
        exact hstop ▸ hwithin
    rcases ite_eq_ok h with ⟨-,h⟩ | ⟨-,h⟩
    · obtain ⟨head,i₃,hhead,h⟩ := bind_eq_ok h
      obtain ⟨ho₃,hl₃⟩ := (Reads.peek _ _ _ _ hhead).1 ho₂
      rcases ite_eq_ok h with ⟨-,h⟩ | ⟨-,h⟩
      · -- a constructor with its arguments
        obtain ⟨c,i₄,hc,h⟩ := bind_eq_ok h
        obtain ⟨args,i₅,hargs,h⟩ := bind_eq_ok h
        obtain ⟨span,i₆,hspan,h⟩ := bind_eq_ok h
        cases hspan
        cases h
        obtain ⟨ho₄,hl₄⟩ := (Reads.capitalizedName _ _ _ _ hc).1 ho₃
        obtain ⟨-,hl₅⟩ := (Reads.measured (Reads.itemsUntil ")" (Reads.patternWithin n)) _ _ _ _ hargs).1 ho₄
        have hnested := itemsUntil ")" ih (Reads.patternWithin n) ho₄ hargs
        have hle := ho₄.lastStop_le_offset
        have hlt' : t.start < i'.lastStop := by omega
        obtain ⟨hwithin,hs,hu⟩ := within_spanSince r hlt'
        rw [Pat.Nested,hs,hu]
        exact ⟨hwithin,hnested.mono (by omega) (Nat.le_refl _)⟩
      · -- a pattern in parentheses, which is no part of its own
        obtain ⟨p,i₄,hp,h⟩ := bind_eq_ok h
        obtain ⟨u,i₅,hclose,h⟩ := bind_eq_ok h
        cases h
        have hnested := ih _ _ _ _ ho₃ hp
        obtain ⟨ho₄,-⟩ := (Reads.patternWithin n _ _ _ _ hp).1 ho₃
        obtain ⟨-,hl₅⟩ := (Reads.symbol _ _ _ _ _ hclose).1 ho₄
        have hle := ho₃.lastStop_le_offset
        exact hnested.mono (by omega) hl₅
    · cases h

theorem pattern : Parser.pattern.NestsPattern := fun r i i' a ho h =>
  patternWithin (i.tokens.length + 1) r i i' a ho h

end NestsPattern

def Nests (p : Parser Expr) : Prop :=
  ∀ r i i' e, i.InOrder → p r i = .ok (e,i') → e.Nested r.source.key i.offset i'.lastStop

namespace Nests

variable {inner : Parser Expr}

theorem atom (h : inner.Nests) (hi : inner.Reads fun _ => True) : (Parser.atom inner).Nests := by
  intro r i i' e ho h'
  obtain ⟨start,i₁,hstart,h'⟩ := bind_eq_ok h'
  obtain ⟨rfl,rfl⟩ := offset_eq_ok hstart
  obtain ⟨t,i₂,ht,h'⟩ := bind_eq_ok h'
  obtain ⟨hstart,hl,hlt,hstop,ho'⟩ := take_eq_ok ho ht
  rw [hstart] at h' ⊢
  rcases ite_eq_ok h' with ⟨-,h'⟩ | ⟨-,h'⟩
  · obtain ⟨span,i₃,hspan,h'⟩ := bind_eq_ok h'
    cases hspan
    rw [hstop] at h'
    have hwithin := (within_spanSince r hlt).1
    by_cases hx : isHoleName t.text = true
    · rw [if_pos hx] at h'
      cases h'
      exact ⟨hstop ▸ hwithin,hx⟩
    · rw [if_neg hx] at h'
      cases h'
      exact hstop ▸ hwithin
  rcases ite_eq_ok h' with ⟨-,h'⟩ | ⟨-,h'⟩
  · obtain ⟨span,i₃,hspan,h'⟩ := bind_eq_ok h'
    cases hspan
    cases h'
    exact (within_spanSince r (hstop ▸ hlt)).1
  rcases ite_eq_ok h' with ⟨-,h'⟩ | ⟨-,h'⟩
  · obtain ⟨e₁,i₃,he,h'⟩ := bind_eq_ok h'
    obtain ⟨b,i₄,hb,h'⟩ := bind_eq_ok h'
    have hinner := h _ _ _ _ ho' he
    have hle := ho'.lastStop_le_offset
    obtain ⟨ho₃,hl₃⟩ := (hi _ _ _ _ he).1 ho'
    obtain ⟨ho₄,hl₄⟩ := (Reads.symbol? _ _ _ _ _ hb).1 ho₃
    rcases ite_eq_ok h' with ⟨-,h'⟩ | ⟨-,h'⟩
    · obtain ⟨ty,i₅,hty,h'⟩ := bind_eq_ok h'
      obtain ⟨u,i₆,hclose,h'⟩ := bind_eq_ok h'
      obtain ⟨span,i₇,hspan,h'⟩ := bind_eq_ok h'
      cases hspan
      cases h'
      obtain ⟨-,hl₆⟩ := ((Reads.type _ _ _ _ hty).1.trans (Reads.symbol _ _ _ _ _ hclose).1) ho₄
      have hlt : t.start < i'.lastStop := by omega
      obtain ⟨hwithin,hs,hu⟩ := within_spanSince r hlt
      refine ⟨hwithin,?_⟩
      rw [hs,hu]
      exact hinner.mono (by omega) (by omega)
    · obtain ⟨u,i₅,hclose,h'⟩ := bind_eq_ok h'
      cases h'
      obtain ⟨-,hl₅⟩ := (Reads.symbol _ _ _ _ _ hclose).1 ho₄
      exact hinner.mono (by omega) (by omega)
  · cases h'

theorem pair {r : Reading} {start stop mid lo : Nat} {a b : Expr}
    (ha : a.Nested r.source.key start mid) (hb : b.Nested r.source.key lo stop) (hl : mid ≤ lo) :
    (r.source.spanSince start stop).Within r.source.key start stop ∧
      a.Nested r.source.key (r.source.spanSince start stop).start (r.source.spanSince start stop).stop ∧
      b.Nested r.source.key a.span.stop (r.source.spanSince start stop).stop := by
  obtain ⟨-,hsa,hna,hua⟩ := ha.span
  obtain ⟨-,hsb,hnb,hub⟩ := hb.span
  have hlt : start < stop := by omega
  obtain ⟨hwithin,hs,hu⟩ := within_spanSince r hlt
  rw [hs,hu]
  exact ⟨hwithin,ha.mono (Nat.le_refl _) (by omega),hb.mono (by omega) (Nat.le_refl _)⟩

theorem application (h : inner.Nests) (hi : inner.Reads fun _ => True) :
    (Parser.application inner).Nests := by
  intro r i i' e ho h'
  obtain ⟨start,i₁,hstart,h'⟩ := bind_eq_ok h'
  obtain ⟨rfl,rfl⟩ := offset_eq_ok hstart
  obtain ⟨fn,i₂,hfn,h'⟩ := bind_eq_ok h'
  have ho₂ := ((Reads.atom hi _ _ _ _ hfn).1 ho).1
  refine (extendWhile_invariant (I := fun e k => k.InOrder ∧ e.Nested r.source.key i.offset k.lastStop)
    (fun a b _ k k' ⟨hk,ha⟩ _ _ _ hstep => ?_) h' ⟨ho₂,h.atom hi _ _ _ _ ho hfn⟩).2
  obtain ⟨arg,k₁,harg,hstep⟩ := bind_eq_ok hstep
  obtain ⟨span,k₂,hspan,hstep⟩ := bind_eq_ok hstep
  cases hspan
  cases hstep
  exact ⟨((Reads.atom hi _ _ _ _ harg).1 hk).1,
    pair ha (h.atom hi _ _ _ _ hk harg) hk.lastStop_le_offset⟩

theorem operation (h : inner.Nests) (hi : inner.Reads fun _ => True) : (Parser.operation inner).Nests := by
  intro r i i' e ho h'
  obtain ⟨start,i₁,hstart,h'⟩ := bind_eq_ok h'
  obtain ⟨rfl,rfl⟩ := offset_eq_ok hstart
  obtain ⟨lhs,i₂,hlhs,h'⟩ := bind_eq_ok h'
  have ho₂ := ((Reads.application hi _ _ _ _ hlhs).1 ho).1
  refine (extendWhile_invariant (I := fun e k => k.InOrder ∧ e.Nested r.source.key i.offset k.lastStop)
    (fun a b _ k k' ⟨hk,ha⟩ _ _ _ hstep => ?_) h' ⟨ho₂,h.application hi _ _ _ _ ho hlhs⟩).2
  obtain ⟨op,k₁,hop,hstep⟩ := bind_eq_ok hstep
  obtain ⟨rhs,k₂,hrhs,hstep⟩ := bind_eq_ok hstep
  obtain ⟨span,k₃,hspan,hstep⟩ := bind_eq_ok hstep
  cases hspan
  cases hstep
  obtain ⟨-,hl,hlt,hstop,hk₁⟩ := take_eq_ok hk hop
  have hle := hk₁.lastStop_le_offset
  exact ⟨((Reads.application hi _ _ _ _ hrhs).1 hk₁).1,
    pair ha (h.application hi _ _ _ _ hk₁ hrhs) (by omega)⟩

theorem lambda (h : inner.Nests) (hi : inner.Reads fun _ => True) {r : Reading} {i i' : Input} {start : Nat}
    {e : Expr} (ho : i.InOrder) (hs : start < i.lastStop) (h' : Parser.lambda inner start r i = .ok (e,i')) :
    e.Nested r.source.key start i'.lastStop := by
  obtain ⟨x,i₁,hx,h'⟩ := bind_eq_ok h'
  obtain ⟨xs,i₂,hxs,h'⟩ := bind_eq_ok h'
  obtain ⟨u,i₃,harrow,h'⟩ := bind_eq_ok h'
  obtain ⟨b,i₄,hb,h'⟩ := bind_eq_ok h'
  obtain ⟨span,i₅,hspan,h'⟩ := bind_eq_ok h'
  cases hspan
  cases h'
  obtain ⟨ho₃,hl₃⟩ := ((Reads.identifier _ _ _ _ hx).1.trans
    ((Reads.names _ _ _ _ hxs).1.trans (Reads.arrow _ _ _ _ harrow).1)) ho
  obtain ⟨-,hl₄⟩ := (hi _ _ _ _ hb).1 ho₃
  have hle := ho₃.lastStop_le_offset
  have hlt : start < i'.lastStop := by omega
  obtain ⟨hwithin,hs',hu⟩ := within_spanSince r hlt
  refine ⟨hwithin,?_⟩
  rw [hs',hu]
  exact (h _ _ _ _ ho₃ hb).mono (by omega) (Nat.le_refl _)

theorem expressionWithin (n : Nat) : (Parser.expressionWithin n).Nests := by
  induction n with
  | zero =>
    intro r i i' e _ h
    cases h
  | succ n ih =>
    intro r i i' e ho h
    obtain ⟨start,i₁,hstart,h⟩ := bind_eq_ok h
    obtain ⟨rfl,rfl⟩ := offset_eq_ok hstart
    obtain ⟨t,i₂,ht,h⟩ := bind_eq_ok h
    cases eq_of_peek? ht
    have hoperation := ih.operation (Reads.expressionWithin n) r i i' e ho
    cases t with
    | none => exact hoperation h
    | some t =>
      rcases ite_eq_ok h with ⟨-,h⟩ | ⟨-,h⟩
      · obtain ⟨t',i₃,ht',h⟩ := bind_eq_ok h
        obtain ⟨hstart,hl,hlt,hstop,ho'⟩ := take_eq_ok ho ht'
        exact ih.lambda (Reads.expressionWithin n) ho' (by omega) h
      · exact hoperation h

theorem expression : Parser.expression.Nests := fun r i i' e ho h =>
  expressionWithin (i.tokens.length + 1) r i i' e ho h

end Nests

end Parser

/-- An equation that stands around its patterns and, behind them, its right-hand side. -/
structure Equation.Placed (key : Nat) (e : Equation) : Prop where
  source : e.span.source = key
  pats : Pat.NestedList key e.span.start e.rhs.span.start e.pats
  rhs : e.rhs.Nested key e.span.start e.span.stop

namespace Parser

/-- An equation that a parser returns begins at an offset from before and ends with the last token taken. -/
def Encloses (start : Nat) (p : Parser Decl) : Prop :=
  ∀ r i i' e, i.InOrder → start ≤ i.lastStop → p r i = .ok (.equation e,i') →
    e.Placed r.source.key ∧ e.span.start = start ∧ e.span.stop = i'.lastStop

theorem Encloses.of_reads {start : Nat} {p : Parser Decl} (h : p.Reads fun d => ∀ e, d ≠ .equation e) :
    p.Encloses start := fun r i i' e _ _ he => absurd rfl ((h r i _ i' he).2 e)

theorem Encloses.definition (name : Name) (start : Nat) : (Parser.definition name start).Encloses start := by
  intro r i i' e ho hs h
  obtain ⟨b,i₁,hb,h⟩ := bind_eq_ok h
  obtain ⟨ho₁,hl₁⟩ := (Reads.symbol? _ _ _ _ _ hb).1 ho
  rcases ite_eq_ok h with ⟨-,h⟩ | ⟨-,h⟩
  · obtain ⟨ty,i₂,-,h⟩ := bind_eq_ok h
    cases h
  · obtain ⟨pats,i₂,hpats,h⟩ := bind_eq_ok h
    obtain ⟨rhs,i₃,hrhs,h⟩ := bind_eq_ok h
    obtain ⟨span,i₄,hspan,h⟩ := bind_eq_ok h
    cases h
    obtain ⟨ho₂,hl₂⟩ := (Reads.measured (Reads.itemsUntil "=" Reads.pattern) _ _ _ _ hpats).1 ho₁
    obtain ⟨-,hl₃⟩ := (Reads.expression _ _ _ _ hrhs).1 ho₂
    cases hspan
    rw [r.source.spanSince_of_le (by omega)]
    have hnested := Nests.expression _ _ _ _ ho₂ hrhs
    have hpatterns := NestsPattern.itemsUntil "=" .pattern Reads.pattern ho₁ hpats
    have hle₁ := ho₁.lastStop_le_offset
    have hle₂ := ho₂.lastStop_le_offset
    have hbehind : i₂.lastStop ≤ rhs.span.start := Nat.le_trans hle₂ hnested.span.start
    exact ⟨⟨rfl,hpatterns.mono (by simp only [Source.span]; omega) hbehind,
      hnested.mono (by simp only [Source.span]; omega) (Nat.le_refl _)⟩,rfl,rfl⟩

theorem placed_of_declaration {r : Reading} {i i' : Input} {e : Equation} (ho : i.InOrder)
    (h : declaration r i = .ok (.equation e,i')) :
    e.Placed r.source.key ∧ i.lastStop ≤ e.span.start ∧ e.span.stop = i'.lastStop := by
  obtain ⟨start,i₁,hstart,h⟩ := bind_eq_ok h
  obtain ⟨rfl,rfl⟩ := offset_eq_ok hstart
  obtain ⟨t,i₂,ht,h⟩ := bind_eq_ok h
  obtain ⟨hstart,hl,hlt,hstop,ho'⟩ := take_eq_ok ho ht
  rw [hstart] at h
  have hencloses (p : Parser Decl) (hp : p.Encloses t.start) (h : p r i₂ = .ok (.equation e,i')) :
      e.Placed r.source.key ∧ i.lastStop ≤ e.span.start ∧ e.span.stop = i'.lastStop := by
    obtain ⟨hplaced,hs,hu⟩ := hp _ _ _ _ ho' (hstop ▸ Nat.le_of_lt hlt) h
    exact ⟨hplaced,hs ▸ hl,hu⟩
  refine hencloses _ ?_ h
  split
  · exact .of_reads (Reads.datatype.bind fun _ _ => .pure nofun)
  · exact .of_reads (Reads.capitalizedName.bind fun _ _ => .pure nofun)
  · exact .of_reads (Reads.classDecl.bind fun _ _ => .pure nofun)
  · exact .of_reads (Reads.instanceDecl.bind fun _ _ => .pure nofun)
  · exact .of_reads (Reads.identifier.bind fun _ _ => (Reads.spanFrom _).bind fun _ _ => .pure nofun)
  · exact .definition _ _
  · exact .of_reads .refuse

theorem placed_of_declarations {n : Nat} {r : Reading} {i i' : Input} {ds : List Decl} (ho : i.InOrder)
    (h : declarations n r i = .ok (ds,i')) :
    (∀ e ∈ Module.equations ⟨ds⟩, e.Placed r.source.key ∧ i.lastStop ≤ e.span.start) ∧
      (Module.equations ⟨ds⟩).Pairwise fun a b => a.span.stop ≤ b.span.start := by
  induction n generalizing i ds with
  | zero => cases h
  | succ n ih =>
    obtain ⟨b,i₁,hb,h⟩ := bind_eq_ok h
    cases hb
    rcases ite_eq_ok h with ⟨-,h⟩ | ⟨-,h⟩
    · cases h
      exact ⟨by simp [Module.equations],.nil⟩
    · obtain ⟨d,i₂,hd,h⟩ := bind_eq_ok h
      obtain ⟨ds,i₃,hds,h⟩ := bind_eq_ok h
      cases h
      obtain ⟨ho₂,hl⟩ := (Reads.declaration _ _ _ _ hd).1 ho
      obtain ⟨hplaced,hapart⟩ := ih ho₂ hds
      have hlater : ∀ e ∈ Module.equations ⟨ds⟩, e.Placed r.source.key ∧ i.lastStop ≤ e.span.start :=
        fun e he => ⟨(hplaced e he).1,Nat.le_trans hl (hplaced e he).2⟩
      cases d with
      | equation e =>
        obtain ⟨he,hs,hu⟩ := placed_of_declaration ho hd
        exact ⟨List.forall_mem_cons.2 ⟨⟨he,hs⟩,hlater⟩,
          List.pairwise_cons.2 ⟨fun a ha => hu ▸ (hplaced a ha).2,hapart⟩⟩
      | _ => exact ⟨hlater,hapart⟩

end Parser

/-- A module as it can have been read from a source. -/
structure Module.IsWritten (key : Nat) (m : Module) : Prop where
  cased : ∀ d ∈ m.decls, d.Cased
  named : ∀ d ∈ m.decls, d.Named
  placed : ∀ e ∈ m.equations, e.Placed key
  apart : m.equations.Pairwise fun a b => a.span.stop ≤ b.span.start

theorem Parser.isWritten_of_runOn {s : Source} {m : Module} {i : Input}
    (h : wholeModule.runOn s = .ok (m,i)) : m.IsWritten s.key := by
  obtain ⟨ds,i',hds,h⟩ := bind_eq_ok h
  cases h
  obtain ⟨hplaced,hapart⟩ := placed_of_declarations (i := ⟨s.tokens.1,0⟩) (s.inOrder_tokensFrom s.cursor) hds
  have hread := (Reads.declarations _ _ _ _ _ hds).2
  exact ⟨fun d hd => (hread d hd).1,fun d hd => (hread d hd).2,fun e he => (hplaced e he).1,hapart⟩

end TypedHole
