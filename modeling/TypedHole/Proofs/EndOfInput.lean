import TypedHole.Proofs.ExpressionGrammar
import TypedHole.Proofs.Partition
import TypedHole.Proofs.Totality

/-! The end of the input.
The test for the end sees tokens only, so it takes a character that starts no token for the end. Main statement: the
test accepts exactly where no token is left, and then every token of the text has been taken, and the text has been
scanned whole unless such a character comes next (`end_found`). -/
namespace TypedHole

theorem Reading.noToken_eq_error {r : Reading} (h : r.source.hasEnd = true) : ∃ e, r.noToken = .error e := by
  rw [noToken]
  split
  · exact ⟨_,rfl⟩
  · rw [if_pos h]
    exact ⟨_,rfl⟩

namespace Parser

theorem finish_eq {r : Reading} (h : r.source.hasEnd = true) (i : Input) : finish r i =
    match i.tokens with
    | [] => .ok ((),i)
    | t :: _ => .error (.error (.unexpected .nothing (r.source.span t.start t.stop))) := by
  obtain ⟨ts,n⟩ := i
  cases ts with
  | nil =>
    obtain ⟨e,he⟩ := Reading.noToken_eq_error h
    have hpeek : peek? r ⟨[],n⟩ = .ok (none,⟨[],n⟩) := by simp [peek?,he]
    rw [finish,bind_of_eq_ok hpeek]
    rfl
  | cons t ts => rfl

end Parser

namespace Cursor

variable {s : Source} {p : Cursor}

theorem tokensFrom_eq_nil (h : (s.tokensFrom p).1 = []) :
    p.isDone = true ∧ (s.tokensFrom p).2 = .complete ∨
      ∃ q, p.next = .unknown q ∧ (s.tokensFrom p).2 = .unknown (s.charAt q) := by
  rw [Source.tokensFrom_eq] at h ⊢
  split at h
  next hnext => exact .inl ⟨by rw [isDone,hnext],rfl⟩
  next q hnext => exact .inr ⟨q,hnext,rfl⟩
  next => cases h

theorem tokensFrom_of_isDone (h : p.isDone = true) : s.tokensFrom p = ([],.complete) := by
  rw [isDone] at h
  split at h
  next hnext => rw [Source.tokensFrom_eq,hnext]
  next => cases h

end Cursor

/-- What the test for the end says where a parser has taken some tokens of a text, stands at a cursor and has left an
input. -/
structure Source.EndTest (s : Source) (ts : List Token) (p : Cursor) (i : Input) : Prop where
  taken : s.cursor.Takes ts p
  left : s.tokens.1 = ts ++ i.tokens ∧ s.tokensFrom p = (i.tokens,s.tokens.2)
  accepts : i.tokens = [] → Parser.finish ⟨s,s.tokens.2⟩ i = .ok ((),i)
  refuses : ∀ t ∈ i.tokens.head?,
    Parser.finish ⟨s,s.tokens.2⟩ i = .error (.error (.unexpected .nothing (s.span t.start t.stop)))
  /-- Where the end is accepted all tokens have been taken, and the text has been scanned to its end or up to a
  character that starts no token and comes next. -/
  accepted : ∀ i', Parser.finish ⟨s,s.tokens.2⟩ i = .ok ((),i') → ts = s.tokens.1 ∧
    (p.isDone = true ∧ s.tokens.2 = .complete ∨ ∃ q, p.next = .unknown q ∧ s.tokens.2 = .unknown (s.charAt q))

theorem Source.endTest {s : Source} (hend : s.hasEnd = true) {ts : List Token} {i : Input}
    (h : s.tokens.1 = ts ++ i.tokens) : ∃ p, s.EndTest ts p i := by
  obtain ⟨p,htakes,hp⟩ := Cursor.takes_of_tokensFrom h
  have hyields : s.tokens = (ts ++ (s.tokensFrom p).1,(s.tokensFrom p).2) := htakes.yields
  have hleft : s.tokensFrom p = (i.tokens,s.tokens.2) := by rw [hyields,← hp]
  have hfinish := Parser.finish_eq (r := ⟨s,s.tokens.2⟩) hend i
  refine ⟨p,htakes,⟨h,hleft⟩,fun htokens => ?_,fun t ht => ?_,fun i' hi' => ?_⟩
  · rw [hfinish,htokens]
  · obtain ⟨us,hus⟩ := List.head?_eq_some_iff.1 ht
    rw [hfinish,hus]
  · have htokens : i.tokens = [] := by
      rw [hfinish] at hi'
      split at hi'
      next htokens => exact htokens
      next => cases hi'
    have hends := Cursor.tokensFrom_eq_nil (s := s) (p := p) (by rw [hleft,htokens])
    rw [hleft] at hends
    exact ⟨by rw [h,htokens,List.append_nil],hends⟩

/-- Behind whatever a parser returns from a text the test for the end says what it should. -/
def Parser.FindsEnd {α : Type} (p : Parser α) (s : Source) : Prop :=
  ∀ a i, p.runOn s = .ok (a,i) → ∃ ts q, s.EndTest ts q i

theorem Parser.FindsEnd.of_takes {α : Type} {p : Parser α} {s : Source} (hend : s.hasEnd = true)
    (h : ∀ r i a i', p r i = .ok (a,i') → ∃ ts, i.tokens = ts ++ i'.tokens) : p.FindsEnd s := by
  intro a i ha
  obtain ⟨ts,hts⟩ := h _ _ _ _ ha
  exact ⟨ts,s.endTest hend hts⟩

/-- In a text that is empty or ends in a character of one byte, the test for the end accepts behind a type, an
expression or a declaration exactly where no token is left. Then every token of the text has been taken and, unless a
character that starts no token comes next, the text has been scanned to its end. At the end of the text it accepts,
wherever it is made. -/
theorem end_found {s : Source} (hend : ∀ c ∈ s.chars.getLast?, c.utf8Size = 1) :
    Parser.type.FindsEnd s ∧ Parser.expression.FindsEnd s ∧ Parser.declaration.FindsEnd s ∧
    ∀ p n, p.isDone = true →
      Parser.finish ⟨s,(s.tokensFrom p).2⟩ ⟨(s.tokensFrom p).1,n⟩ = .ok ((),⟨(s.tokensFrom p).1,n⟩) := by
  have hend := Source.hasEnd_of_getLast? hend
  refine ⟨.of_takes hend fun r i ty i' h => ?type,.of_takes hend fun r i e i' h => ?expression,
    .of_takes hend fun r i d i' h => ?declaration,fun p n hp => ?done⟩
  case type =>
    obtain ⟨ts,hts,-⟩ := Parser.written_of_type _ _ _ _ h
    exact ⟨ts,hts⟩
  case expression =>
    obtain ⟨ts,htook,-⟩ := Parser.derives_of_expression _ _ _ _ h
    exact ⟨ts,htook.tokens⟩
  case declaration =>
    obtain ⟨ts,-,hts⟩ := Parser.declaration_takes h
    exact ⟨ts,hts⟩
  case done =>
    rw [Cursor.tokensFrom_of_isDone hp]
    exact Parser.finish_eq (r := ⟨s,.complete⟩) hend ⟨[],n⟩

def Source.bracket : Source := ⟨0,"t.hole","Int [\n"⟩

theorem Source.tokens_bracket : Source.bracket.tokens = ([⟨.ident,"Int",0,3,true⟩],.unknown ⟨0,4,5⟩) := by
  decide +kernel

theorem end_found_bracket : (∀ c ∈ Source.bracket.chars.getLast?, c.utf8Size = 1) ∧
    Parser.type.runOn .bracket = .ok (.const "Int",⟨[],3⟩) ∧
    Parser.finish ⟨.bracket,Source.bracket.tokens.2⟩ ⟨[],3⟩ = .ok ((),⟨[],3⟩) ∧
    ∃ p q, Source.bracket.cursor.Takes Source.bracket.tokens.1 p ∧ p.next = .unknown q ∧
      Source.bracket.tokens.2 = .unknown (Source.bracket.charAt q) := by
  have hlast : Source.bracket.chars.getLast? = some '\n' := by decide +kernel
  have hend : ∀ c ∈ Source.bracket.chars.getLast?, c.utf8Size = 1 := by
    rw [hlast]
    rintro _ ⟨⟩
    rfl
  have hread : Parser.type.runOn .bracket = .ok (.const "Int",⟨[],3⟩) := by
    rw [Parser.runOn,Source.tokens_bracket]
    rfl
  have hfinish : Parser.finish ⟨.bracket,Source.bracket.tokens.2⟩ ⟨[],3⟩ = .ok ((),⟨[],3⟩) := by
    rw [Source.tokens_bracket]
    rfl
  obtain ⟨ts,p,h⟩ := (end_found hend).1 _ _ hread
  obtain ⟨rfl,⟨-,hcomplete⟩ | ⟨q,hq,hunknown⟩⟩ := h.accepted _ hfinish
  · rw [Source.tokens_bracket] at hcomplete
    cases hcomplete
  · exact ⟨hend,hread,hfinish,p,q,h.taken,hq,hunknown⟩

end TypedHole
