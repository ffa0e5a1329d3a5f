import TypedHole.Proofs.Scanning

/-! The text as tokens and what separates them.
Main statement: taking tokens from a text cuts it into tokens and gaps, up to its end or to a character that starts
neither, and goes on in the same way from each place that has been saved in between (`tokens_partition`). -/
namespace TypedHole

/-- A token that is the longest piece of its class before what follows. -/
def Token.IsCut (t : Token) (post : List Char) : Prop :=
  ∃ k, t.kind = Lexeme.kind k t.text ∧ Lexeme.Cut k t.text.toList post

inductive Cursor.Takes : Cursor → List Token → Cursor → Prop
  | nil {p : Cursor} : Takes p [] p
  | cons {p q r : Cursor} {t : Token} {ts : List Token} (next : p.next = .token t q) (rest : Takes q ts r) :
      Takes p (t :: ts) r

namespace Source

/-- The text behind some characters as tokens with gaps before them, up to where the last of them ends. No token is
taken where a comment starts. -/
inductive Partition (s : Source) : List Char → List Token → List Char → Prop
  | nil {pre : List Char} : Partition s pre [] pre
  | cons {pre gap post last : List Char} {t : Token} {ts : List Token}
      (before : Lexeme.Gaps gap (t.text.toList ++ post)) (stands : t.Stands s (pre ++ gap) post) (cut : t.IsCut post)
      (comment : ¬ ['-','-'] <+: t.text.toList ++ post) (rest : Partition s (pre ++ gap ++ t.text.toList) ts last) :
      Partition s pre (t :: ts) last

/-- How scanning ends at a cursor behind some characters: at the end of the text, or at a character that starts
neither a token nor a gap. -/
inductive Ends (s : Source) (p : Cursor) (pre : List Char) : Ending → Prop
  | complete {q : Cursor} {gap : List Char} (next : p.next = .done q) (offset : q.offset = s.size)
      (chars : s.chars = pre ++ gap) (before : Lexeme.Gaps gap []) : Ends s p pre .complete
  | unknown {q : Cursor} {gap post : List Char} {c : Char} (next : p.next = .unknown q)
      (chars : s.chars = pre ++ gap ++ c :: post) (before : Lexeme.Gaps gap (c :: post))
      (token : ∀ k cs, cs <+: c :: post → ¬ Lexeme.Matches k cs) (blank : Alphabet.isBlank c = false)
      (comment : ¬ ['-','-'] <+: c :: post) :
      Ends s p pre (.unknown (s.span (byteSize (pre ++ gap)) (byteSize (pre ++ gap ++ [c]))))

def cursorAt (s : Source) (offset : Nat) : Cursor where
  offset := offset
  atLineStart := (charsBefore offset s.chars).getLast?.all (· == '\n')
  rest := s.chars.drop (charsBefore offset s.chars).length

/-- A place where scanning goes on with some of the tokens of a text, also when only its offset has been kept. -/
structure Resumes (s : Source) (p : Cursor) (ts : List Token) : Prop where
  restored : s.cursorAt p.offset = p
  tokens : s.tokensFrom p = (ts,s.tokens.2)

end Source

namespace Token

variable {n : Nat} {t : Token} {ts : List Token}

theorem InOrder.le_start (h : InOrder n ts) (ht : t ∈ ts) : n ≤ t.start := by
  induction ts generalizing n with
  | nil => cases ht
  | cons u us ih =>
    obtain ⟨hn,hu,hus⟩ := h
    rcases List.mem_cons.1 ht with rfl | ht
    · exact hn
    · have := ih hus ht
      omega

theorem InOrder.pairwise (h : InOrder n ts) : ts.Pairwise (·.stop ≤ ·.start) := by
  induction ts generalizing n with
  | nil => exact .nil
  | cons t ts ih =>
    obtain ⟨-,-,hts⟩ := h
    exact .cons (fun u hu => hts.le_start hu) (ih hts)

end Token

namespace Cursor

variable {s : Source} {p q : Cursor} {pre : List Char} {t : Token} {ts : List Token}

/-! Saved places. -/

theorem Behind.restored (h : p.Behind s pre) : s.cursorAt p.offset = p := by
  have hbefore : charsBefore p.offset s.chars = pre := by rw [h.offset,h.chars,charsBefore_append]
  rw [Source.cursorAt,hbefore,← h.line,h.chars,List.drop_left]

theorem gap_skipGaps (p : Cursor) : Lexeme.gap p.skipGaps.rest = 0 := by
  fun_induction skipGaps p with
  | case1 _ h => exact h
  | case2 _ _ ih => exact ih

theorem next_skipGaps (p : Cursor) : p.skipGaps.next = p.next := by
  rw [next,skipGaps_of_gap p.gap_skipGaps,next]

theorem next_tokenStart (p : Cursor) : p.tokenStart.next = p.next := by
  rw [tokenStart]
  split
  next => exact p.next_skipGaps
  next => rfl

theorem Behind.tokenStart (h : p.Behind s pre) : ∃ pre', p.tokenStart.Behind s pre' := by
  rw [Cursor.tokenStart]
  split
  next =>
    obtain ⟨gap,-,hgaps⟩ := h.skipGaps
    exact ⟨_,hgaps⟩
  next => exact ⟨pre,h⟩

theorem offset_tokenStart (h : p.next = .token t q) : p.tokenStart.offset = t.start := by
  have hstart : p.tokenStart = p.skipGaps := by rw [tokenStart,h]
  obtain ⟨k,n,-,-,rfl⟩ := next_eq_token h
  rw [hstart]

/-! Taking tokens. -/

theorem Takes.behind (h : p.Takes ts q) (hp : p.Behind s pre) : ∃ pre', q.Behind s pre' := by
  induction h generalizing pre with
  | nil => exact ⟨pre,hp⟩
  | cons hnext _ ih =>
    obtain ⟨gap,-,-,hq⟩ := hp.stands hnext
    exact ih hq

theorem Takes.yields (h : p.Takes ts q) : s.Yields p ts q := by
  induction h with
  | nil => rfl
  | cons hnext _ ih => exact (Source.yields_of_next_token hnext).trans ih

theorem Takes.offset (h : p.Takes ts q) : ∀ t ∈ ts.getLast?, q.offset = t.stop := by
  induction h with
  | nil => nofun
  | @cons p q r t ts hnext hrest ih =>
    cases hrest with
    | nil =>
      rintro _ ⟨⟩
      exact (token_of_next hnext).2.2
    | cons => simpa [List.getLast?_cons_cons] using ih

theorem takes_of_tokensFrom {us : List Token} (h : (s.tokensFrom p).1 = ts ++ us) :
    ∃ q, p.Takes ts q ∧ (s.tokensFrom q).1 = us := by
  induction ts generalizing p with
  | nil => exact ⟨p,.nil,h⟩
  | cons t ts ih =>
    rw [Source.tokensFrom_eq] at h
    split at h
    next => cases h
    next => cases h
    next hnext =>
      obtain ⟨rfl,hrest⟩ := List.cons.inj h
      obtain ⟨r,htakes,hr⟩ := ih hrest
      exact ⟨r,.cons hnext htakes,hr⟩

theorem isCut_of_next (h : p.next = .token t q) : t.IsCut q.rest := by
  obtain ⟨k,n,hfirst,rfl,rfl⟩ := next_eq_token h
  exact ⟨k,rfl,by simpa using Lexeme.cut_of_first? hfirst⟩

theorem not_comment_of_next (h : p.next = .token t q) : ¬ ['-','-'] <+: t.text.toList ++ q.rest := by
  obtain ⟨k,n,-,rfl,rfl⟩ := next_eq_token h
  simpa using Lexeme.not_comment_of_gap p.gap_skipGaps

theorem Behind.ends_of_done (hp : p.Behind s pre) (h : p.next = .done q) : s.Ends p pre .complete := by
  obtain ⟨rfl,hrest⟩ := next_eq_done h
  obtain ⟨gap,hgap,hgaps⟩ := hp.skipGaps
  have hchars := hgaps.chars
  rw [hrest,List.append_nil] at hchars
  rw [hrest] at hgap
  refine .complete h ?_ hchars hgap
  rw [hgaps.offset,Source.size,hchars]

theorem Behind.ends_of_unknown (hp : p.Behind s pre) (h : p.next = .unknown q) :
    s.Ends p pre (.unknown (s.charAt q)) := by
  obtain ⟨rfl,hfirst,hne⟩ := next_eq_unknown h
  obtain ⟨gap,hgap,hgaps⟩ := hp.skipGaps
  obtain ⟨c,post,hrest⟩ := List.exists_cons_of_ne_nil hne
  have hstop := (hgaps.skip 1).offset
  have hskipped := p.gap_skipGaps
  have hchars := hgaps.chars
  rw [hrest] at hgap hfirst hskipped hchars hstop
  rw [Source.charAt,hgaps.offset,hstop]
  exact .unknown h hchars hgap (fun k cs => Lexeme.not_matches_of_first? hfirst)
    (Lexeme.not_blank_of_gap hskipped) (Lexeme.not_comment_of_gap hskipped)

theorem Behind.partition (hp : p.Behind s pre) : ∃ q last, p.Takes (s.tokensFrom p).1 q ∧
    s.Partition pre (s.tokensFrom p).1 last ∧ s.Ends q last (s.tokensFrom p).2 := by
  fun_induction s.tokensFrom p generalizing pre with
  | case1 p q h => exact ⟨p,pre,.nil,.nil,hp.ends_of_done h⟩
  | case2 p q h => exact ⟨p,pre,.nil,.nil,hp.ends_of_unknown h⟩
  | case3 p t q h ts e he ih =>
    obtain ⟨gap,hgap,hstands,hq⟩ := hp.stands h
    obtain ⟨r,last,htakes,hpartition,hends⟩ := ih hq
    rw [he] at htakes hpartition hends
    exact ⟨r,last,.cons h htakes,.cons hgap hstands (isCut_of_next h) (not_comment_of_next h) hpartition,hends⟩

end Cursor

/-- Scanning cuts a text into tokens and gaps, up to its end or to a character that starts neither; and it takes the
rest of the tokens from each place that is saved, behind a token or just before the next one. -/
theorem tokens_partition (s : Source) :
    (∃ p last, s.cursor.Takes s.tokens.1 p ∧ s.Partition [] s.tokens.1 last ∧ s.Ends p last s.tokens.2) ∧
    (∀ t ∈ s.tokens.1, t.start < t.stop ∧ s.holds (s.span t.start t.stop) = true) ∧
    s.tokens.1.Pairwise (·.stop ≤ ·.start) ∧
    ∀ ts us, s.tokens.1 = ts ++ us → ∃ p, s.cursor.Takes ts p ∧ s.Resumes p us ∧ s.Resumes p.tokenStart us ∧
      (∀ t ∈ ts.getLast?, p.offset = t.stop) ∧ ∀ t ∈ us.head?, p.tokenStart.offset = t.start := by
  have hstart := Cursor.behind_start s
  refine ⟨hstart.partition,?_,(s.inOrder_tokensFrom s.cursor).pairwise,?_⟩
  · intro t ht
    obtain ⟨pre,post,hstands⟩ := Source.stands_of_mem_tokens ht
    exact ⟨hstands.start_lt_stop,(s.holds_span_iff _ _).2 ⟨Nat.le_of_lt hstands.start_lt_stop,hstands.stop_le_size,
      hstands.boundary_start,hstands.boundary_stop⟩⟩
  · intro ts us h
    obtain ⟨p,htakes,hus⟩ := Cursor.takes_of_tokensFrom h
    obtain ⟨pre,hp⟩ := htakes.behind hstart
    obtain ⟨pre',hp'⟩ := hp.tokenStart
    have hyields : s.tokens = (ts ++ (s.tokensFrom p).1,(s.tokensFrom p).2) := htakes.yields
    have htokens : s.tokensFrom p = (us,s.tokens.2) := by rw [hyields,← hus]
    have htokens' : s.tokensFrom p.tokenStart = (us,s.tokens.2) := by
      rw [Source.tokensFrom_eq,p.next_tokenStart,← Source.tokensFrom_eq,htokens]
    refine ⟨p,htakes,⟨hp.restored,htokens⟩,⟨hp'.restored,htokens'⟩,htakes.offset,?_⟩
    intro t ht
    rw [← hus,Source.tokensFrom_eq] at ht
    split at ht
    next => cases ht
    next => cases ht
    next hnext =>
      cases ht
      exact Cursor.offset_tokenStart hnext

/-- A comment starts where a token may start, a numeral ends behind a leading zero, and no token starts with `[`. -/
example : (⟨0,"t.hole","x+-- 01-- y\n["⟩ : Source).tokens =
    ([⟨.ident,"x",0,1,true⟩,⟨.symbol,"+--",1,4,false⟩,⟨.number,"0",5,6,false⟩,⟨.number,"1",6,7,false⟩],
      .unknown ⟨0,12,13⟩) := by
  decide +kernel

end TypedHole
