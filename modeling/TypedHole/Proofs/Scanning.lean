import TypedHole.Proofs.Lexemes
import TypedHole.Proofs.Parsing

/-! Where tokens stand in their text.
A cursor stands behind some characters of the text, and scanning only moves it over whole characters.
Main statements: a token is the piece of the text that it spans, and it begins a line exactly when it is in the
first column (`Source.stands_of_mem_tokens`, `Token.Stands.column_eq_one_iff`). -/
namespace TypedHole

/-! Offsets that are reached over whole characters. -/

@[simp] theorem charsBefore_append (pre post : List Char) :
    charsBefore (byteSize pre) (pre ++ post) = pre := by
  induction pre with
  | nil =>
    cases post with
    | nil => rfl
    | cons c cs => simp [charsBefore,Nat.ne_of_gt c.utf8Size_pos]
  | cons c pre ih => simp [charsBefore,ih]

theorem Source.holds_span_iff (s : Source) (start stop : Nat) : s.holds (s.span start stop) = true ↔
    start ≤ stop ∧ stop ≤ s.size ∧ isBoundary start s.chars = true ∧ isBoundary stop s.chars = true := by
  simp only [holds,Bool.and_eq_true,decide_eq_true_eq,and_assoc]
  rfl

theorem isBoundary_cons (c : Char) (cs : List Char) (n : Nat) :
    isBoundary (c.utf8Size + n) (c :: cs) = isBoundary n cs := by
  have hpos := c.utf8Size_pos
  obtain ⟨m,hm⟩ : ∃ m, c.utf8Size + n = m + 1 := ⟨c.utf8Size + n - 1,by omega⟩
  rw [hm,isBoundary,← hm]
  simp

@[simp] theorem isBoundary_append (pre post : List Char) : isBoundary (byteSize pre) (pre ++ post) = true := by
  induction pre with
  | nil => simp [isBoundary]
  | cons c pre ih => simp [isBoundary_cons,ih]

theorem Source.hasEnd_of_getLast? {s : Source} (h : ∀ c ∈ s.chars.getLast?, c.utf8Size = 1) : s.hasEnd = true := by
  refine (s.holds_span_iff _ _).2 ⟨Nat.sub_le ..,Nat.le_refl _,?_,?_⟩
  · rw [size]
    rcases List.eq_nil_or_concat s.chars with hempty | ⟨pre,c,hchars⟩
    · rw [hempty]
      rfl
    · rw [List.concat_eq_append] at hchars
      have hc := h c (by simp [hchars])
      simp [hchars,hc]
  · simpa [size] using isBoundary_append s.chars []

/-- The column after some characters is the first one where they end a line, or where there are none. -/
theorem column_positionAfter (pre : List Char) :
    (positionAfter pre).column = 1 ↔ pre.getLast?.all (· == '\n') = true := by
  rw [positionAfter,← List.head?_reverse]
  cases pre.reverse with
  | nil => simp
  | cons c cs => by_cases hc : c = '\n' <;> simp [hc]

namespace Cursor

/-- A cursor that stands in a text just behind some characters. -/
structure Behind (p : Cursor) (s : Source) (pre : List Char) : Prop where
  chars : s.chars = pre ++ p.rest
  offset : p.offset = byteSize pre
  line : p.atLineStart = pre.getLast?.all (· == '\n')

variable {s : Source} {p q : Cursor} {pre : List Char} {t : Token}

theorem behind_start (s : Source) : s.cursor.Behind s [] := ⟨rfl,rfl,rfl⟩

theorem Behind.skip (h : p.Behind s pre) (n : Nat) : (p.skip n).Behind s (pre ++ p.rest.take n) := by
  constructor
  · simp [h.chars]
  · simp [Cursor.skip,h.offset]
  · cases hlast : (p.rest.take n).getLast? <;> simp [Cursor.skip,List.getLast?_append,hlast,h.line]

theorem Behind.skipGaps (h : p.Behind s pre) :
    ∃ gap, Lexeme.Gaps gap p.skipGaps.rest ∧ p.skipGaps.Behind s (pre ++ gap) := by
  fun_induction Cursor.skipGaps p generalizing pre with
  | case1 => exact ⟨[],.nil,by simpa using h⟩
  | case2 p hne ih =>
    obtain ⟨ds,hds,hbehind⟩ := ih (h.skip _)
    have hchars := (h.skip (Lexeme.gap p.rest)).chars.symm.trans hbehind.chars
    rw [List.append_assoc _ ds,List.append_cancel_left_eq] at hchars
    exact ⟨_,.of_gap hne hchars hds,by simpa using hbehind⟩

theorem Behind.boundary (h : p.Behind s pre) : p.offset ≤ s.size ∧ isBoundary p.offset s.chars = true := by
  rw [Source.size,h.offset,h.chars]
  simp

theorem skipGaps_of_gap (h : Lexeme.gap p.rest = 0) : p.skipGaps = p := by
  rw [skipGaps,if_pos h]

theorem next_eq_token (h : p.next = .token t q) :
    ∃ k n, Lexeme.first? p.skipGaps.rest = some (k,n) ∧ q = p.skipGaps.skip n ∧
      t = ⟨Lexeme.kind k (String.ofList (p.skipGaps.rest.take n)),String.ofList (p.skipGaps.rest.take n),
        p.skipGaps.offset,q.offset,p.skipGaps.atLineStart⟩ := by
  simp only [next,scan] at h
  split at h
  next k n hfirst =>
    cases h
    exact ⟨k,n,hfirst,rfl,rfl⟩
  next => split at h <;> cases h

theorem next_eq_unknown (h : p.next = .unknown q) :
    q = p.skipGaps ∧ Lexeme.first? p.skipGaps.rest = none ∧ p.skipGaps.rest ≠ [] := by
  simp only [next,scan] at h
  split at h
  next => cases h
  next hfirst =>
    split at h
    next => cases h
    next hrest =>
      cases h
      exact ⟨rfl,hfirst,by simpa using hrest⟩

theorem next_eq_done (h : p.next = .done q) : q = p.skipGaps ∧ p.skipGaps.rest = [] := by
  simp only [next,scan] at h
  split at h
  next => cases h
  next =>
    split at h
    next hrest =>
      cases h
      exact ⟨rfl,by simpa using hrest⟩
    next => cases h

end Cursor

/-- A token that is the piece of a text behind some characters. -/
structure Token.Stands (t : Token) (s : Source) (pre post : List Char) : Prop where
  chars : s.chars = pre ++ t.text.toList ++ post
  nonempty : t.text.toList ≠ []
  start : t.start = byteSize pre
  stop : t.stop = byteSize (pre ++ t.text.toList)
  line : t.atLineStart = pre.getLast?.all (· == '\n')

namespace Token.Stands

variable {s : Source} {t : Token} {pre post : List Char}

/-- A token begins a line exactly when it is in the first column. -/
theorem column_eq_one_iff (h : t.Stands s pre post) :
    (s.position t.start).column = 1 ↔ t.atLineStart = true := by
  rw [Source.position,h.start,h.chars,h.line,List.append_assoc,charsBefore_append,column_positionAfter]

theorem start_lt_stop (h : t.Stands s pre post) : t.start < t.stop := by
  have := byteSize_pos h.nonempty
  rw [h.start,h.stop,byteSize_append]
  omega

theorem stop_le_size (h : t.Stands s pre post) : t.stop ≤ s.size := by
  rw [Source.size,h.stop,h.chars]
  simp

theorem boundary_start (h : t.Stands s pre post) : isBoundary t.start s.chars = true := by
  rw [h.start,h.chars,List.append_assoc,isBoundary_append]

theorem boundary_stop (h : t.Stands s pre post) : isBoundary t.stop s.chars = true := by
  rw [h.stop,h.chars,isBoundary_append]

end Token.Stands

theorem Cursor.Behind.stands {s : Source} {p q : Cursor} {t : Token} {pre : List Char} (hp : p.Behind s pre)
    (h : p.next = .token t q) : ∃ gap, Lexeme.Gaps gap (t.text.toList ++ q.rest) ∧
      t.Stands s (pre ++ gap) q.rest ∧ q.Behind s (pre ++ gap ++ t.text.toList) := by
  obtain ⟨gap,hgap,hgaps⟩ := hp.skipGaps
  obtain ⟨k,n,hfirst,rfl,rfl⟩ := Cursor.next_eq_token h
  have hskip := hgaps.skip n
  refine ⟨gap,by simpa using hgap,⟨?_,?_,hgaps.offset,?_,hgaps.line⟩,?_⟩
  · simp [hgaps.chars]
  · simp [Nat.ne_of_gt (Lexeme.pos_of_first? hfirst),Lexeme.ne_nil_of_first? hfirst]
  · simp [hskip.offset]
  · simpa using hskip

namespace Source

/-- Scanning from a cursor yields some tokens first and goes on from another cursor. -/
def Yields (s : Source) (p : Cursor) (ts : List Token) (q : Cursor) : Prop :=
  s.tokensFrom p = (ts ++ (s.tokensFrom q).1,(s.tokensFrom q).2)

variable {s : Source} {p q r : Cursor} {ts us : List Token}

theorem Yields.trans (h : s.Yields p ts q) (h' : s.Yields q us r) : s.Yields p (ts ++ us) r := by
  rw [Yields,h,h',List.append_assoc]

theorem tokensFrom_eq (s : Source) (p : Cursor) : s.tokensFrom p = match p.next with
    | .done _ => ([],.complete)
    | .unknown q => ([],.unknown (s.charAt q))
    | .token t q => (t :: (s.tokensFrom q).1,(s.tokensFrom q).2) := by
  rw [tokensFrom]
  split <;> simp_all

theorem yields_of_next_token {t : Token} (h : p.next = .token t q) : s.Yields p [t] q := by
  rw [Yields,tokensFrom_eq,h]
  rfl

theorem yields_of_next_eq (h : p.next = q.next) : s.Yields p [] q := by
  rw [Yields,tokensFrom_eq,h,List.nil_append,← tokensFrom_eq]

variable {pre : List Char} {t : Token}

theorem stands_of_mem_tokensFrom (hp : p.Behind s pre) (ht : t ∈ (s.tokensFrom p).1) :
    ∃ pre post, t.Stands s pre post := by
  fun_induction s.tokensFrom p generalizing pre with
  | case1 => simp at ht
  | case2 => simp at ht
  | case3 p t' q h ts e he ih =>
    obtain ⟨gap,-,hstands,hq⟩ := hp.stands h
    rcases List.mem_cons.1 ht with rfl | ht
    · exact ⟨_,q.rest,hstands⟩
    · rw [he] at ih
      exact ih hq ht

/-- The tokens of a text are pieces of it. -/
theorem stands_of_mem_tokens (ht : t ∈ s.tokens.1) : ∃ pre post, t.Stands s pre post :=
  stands_of_mem_tokensFrom (Cursor.behind_start s) ht

theorem holds_of_tokensFrom_unknown {sp : Span} (hp : p.Behind s pre) (h : (s.tokensFrom p).2 = .unknown sp) :
    sp.source = s.key ∧ s.holds sp = true := by
  fun_induction s.tokensFrom p generalizing pre with
  | case1 => cases h
  | case2 p q hq =>
    obtain ⟨rfl,-⟩ := Cursor.next_eq_unknown hq
    obtain ⟨gap,-,hgaps⟩ := hp.skipGaps
    obtain ⟨-,hstart⟩ := hgaps.boundary
    obtain ⟨hsize,hstop⟩ := (hgaps.skip 1).boundary
    cases h
    exact ⟨rfl,(s.holds_span_iff _ _).2 ⟨Cursor.offset_le_skip _ 1,hsize,hstart,hstop⟩⟩
  | case3 p t' q hq ts e he ih =>
    obtain ⟨gap,-,-,hbehind⟩ := hp.stands hq
    rw [he] at ih
    exact ih hbehind h

end Source

end TypedHole
