import Mathlib.Data.List.TakeWhile
import TypedHole.Token

/-! The pieces that a text is cut into.
`Lexeme.Matches` says which pieces are tokens of a class, and `Lexeme.Gaps` which ones separate tokens, both without
the functions that scan. Main statements: what `gap` finds separates tokens (`Gaps.of_gap`), and what `first?` finds is
the longest piece of its class, or there is none of any class (`cut_of_first?`, `not_matches_of_first?`). -/
namespace TypedHole
namespace Lexeme

section

variable {α : Type} (p : α → Bool) (a : α) (as : List α)

theorem take_run : (a :: as).take (1 + (as.takeWhile p).length) = a :: as.takeWhile p := by
  rw [Nat.add_comm,List.take_succ_cons,← List.prefix_iff_eq_take.1 (as.takeWhile_prefix p)]

theorem drop_run : (a :: as).drop (1 + (as.takeWhile p).length) = as.dropWhile p := by
  have hsplit := (a :: as).take_append_drop (1 + (as.takeWhile p).length)
  rw [take_run,List.cons_append,List.cons_inj_right] at hsplit
  exact List.append_cancel_left (hsplit.trans as.takeWhile_append_dropWhile.symm)

theorem not_of_mem_head?_drop {d : α} (h : d ∈ ((a :: as).drop (1 + (as.takeWhile p).length)).head?) :
    p d = false := by
  rw [drop_run] at h
  have hnot := List.head?_dropWhile_not p as
  rw [h] at hnot
  exact hnot

end

/-! What separates tokens. -/

/-- Text in front of other text that has white space and comments only, each comment up to the end of its line. -/
inductive Gaps : List Char → List Char → Prop
  | nil {post : List Char} : Gaps [] post
  | blanks {cs ds post : List Char} (nonempty : cs ≠ []) (blank : ∀ c ∈ cs, Alphabet.isBlank c = true)
      (rest : Gaps ds post) : Gaps (cs ++ ds) post
  | comment {cs ds post : List Char} (inLine : '\n' ∉ cs) (lineEnd : ∀ c ∈ (ds ++ post).head?, c = '\n')
      (rest : Gaps ds post) : Gaps ('-' :: '-' :: cs ++ ds) post

theorem Gaps.of_gap {cs ds post : List Char} (h : gap cs ≠ 0) (hcs : cs.drop (gap cs) = ds ++ post)
    (hds : Gaps ds post) : Gaps (cs.take (gap cs) ++ ds) post := by
  cases cs with
  | nil => exact absurd rfl h
  | cons c cs =>
    by_cases hblank : Alphabet.isBlank c = true
    · have hgap : gap (c :: cs) = 1 + (cs.takeWhile Alphabet.isBlank).length := by rw [gap,if_pos hblank]
      rw [hgap,take_run]
      refine .blanks (by simp) ?_ hds
      exact List.forall_mem_cons.2 ⟨hblank,fun d hd => List.mem_takeWhile_imp hd⟩
    by_cases hdashes : c = '-' ∧ cs.head? = some '-'
    · have hgap : gap (c :: cs) = 1 + (cs.takeWhile (· ≠ '\n')).length := by rw [gap,if_neg hblank,if_pos hdashes]
      rw [hgap] at hcs
      obtain ⟨rfl,hhead⟩ := hdashes
      obtain ⟨cs,rfl⟩ := List.head?_eq_some_iff.1 hhead
      rw [hgap,take_run,List.takeWhile_cons_of_pos (by decide)]
      refine .comment ?_ ?_ hds
      · intro hmem
        simpa using List.mem_takeWhile_imp hmem
      · intro d hd
        rw [← hcs] at hd
        simpa using not_of_mem_head?_drop _ _ _ hd
    · exact absurd (by rw [gap,if_neg hblank,if_neg hdashes]) h

theorem not_blank_of_gap {c : Char} {cs : List Char} (h : gap (c :: cs) = 0) : Alphabet.isBlank c = false := by
  refine Bool.eq_false_iff.2 fun hblank => ?_
  simp [gap,hblank] at h

theorem not_comment_of_gap {cs : List Char} (h : gap cs = 0) : ¬ ['-','-'] <+: cs := by
  rintro ⟨ds,rfl⟩
  have hdash : Alphabet.isBlank '-' = false := by decide
  simp [gap,hdash] at h

/-! The tokens. -/

inductive Matches : Class → List Char → Prop
  | word {c : Char} {cs : List Char} (head : startsWord c = true) (tail : ∀ d ∈ cs, continuesWord d = true) :
      Matches .word (c :: cs)
  | bracket {c : Char} (head : standsAlone c = true) : Matches .sign [c]
  | operator {c : Char} {cs : List Char} (head : joinsOperator c = true) (tail : ∀ d ∈ cs, joinsOperator d = true) :
      Matches .sign (c :: cs)
  | zero : Matches .numeral ['0']
  | number {c : Char} {cs : List Char} (head : isDigit c = true) (nonzero : c ≠ '0')
      (tail : ∀ d ∈ cs, isDigit d = true) : Matches .numeral (c :: cs)

/-- A piece of a class that what follows does not make longer. -/
structure Cut (k : Class) (cs post : List Char) : Prop where
  piece : Matches k cs
  longest : ∀ c ∈ post.head?, ¬ Matches k (cs ++ [c])

theorem not_joinsOperator_of_standsAlone {c : Char} (h : standsAlone c = true) : joinsOperator c = false := by
  simp only [standsAlone,List.mem_cons,List.not_mem_nil,or_false,decide_eq_true_eq] at h
  rcases h with rfl | rfl | rfl | rfl | rfl <;> rfl

theorem Matches.tail {k : Class} {c d : Char} {cs : List Char} (h : Matches k (c :: cs ++ [d])) :
    (k = .word → continuesWord d = true) ∧ (k = .sign → joinsOperator c = true ∧ joinsOperator d = true) ∧
      (k = .numeral → c ≠ '0' ∧ isDigit d = true) := by
  generalize hxs : c :: cs ++ [d] = xs at h
  cases h with
  | word head tail =>
    cases hxs
    exact ⟨fun _ => tail d (by simp),nofun,nofun⟩
  | bracket => simp at hxs
  | operator head tail =>
    cases hxs
    exact ⟨nofun,fun _ => ⟨head,tail d (by simp)⟩,nofun⟩
  | zero => simp at hxs
  | number head nonzero tail =>
    cases hxs
    exact ⟨nofun,nofun,fun _ => ⟨nonzero,tail d (by simp)⟩⟩

theorem cut_run {k : Class} {p : Char → Bool} {c : Char} {cs : List Char} (hpiece : Matches k (c :: cs.takeWhile p))
    (htail : ∀ ds d, Matches k (c :: ds ++ [d]) → p d = true) :
    Cut k ((c :: cs).take (1 + (cs.takeWhile p).length)) ((c :: cs).drop (1 + (cs.takeWhile p).length)) := by
  rw [take_run]
  refine ⟨hpiece,fun d hd hlonger => ?_⟩
  have hnot := not_of_mem_head?_drop p c cs hd
  rw [htail _ d hlonger] at hnot
  cases hnot

/-- The token that is found at the start of a text is the longest piece of its class there. -/
theorem cut_of_first? {cs : List Char} {k : Class} {n : Nat} (h : first? cs = some (k,n)) :
    Cut k (cs.take n) (cs.drop n) := by
  have hall {p : Char → Bool} {ds : List Char} : ∀ d ∈ ds.takeWhile p, p d = true := fun d => List.mem_takeWhile_imp
  cases cs with
  | nil => cases h
  | cons c cs =>
    simp only [first?] at h
    split at h
    next hword =>
      cases h
      exact cut_run (.word hword hall) fun _ d hlonger => hlonger.tail.1 rfl
    split at h
    next halone =>
      cases h
      refine ⟨.bracket halone,fun d _ hlonger => ?_⟩
      have hjoins := (hlonger.tail.2.1 rfl).1
      rw [not_joinsOperator_of_standsAlone halone] at hjoins
      cases hjoins
    split at h
    next hjoins =>
      cases h
      exact cut_run (.operator hjoins hall) fun _ d hlonger => (hlonger.tail.2.1 rfl).2
    split at h
    next hzero =>
      cases h
      cases hzero
      exact ⟨.zero,fun d _ hlonger => (hlonger.tail.2.2 rfl).1 rfl⟩
    split at h
    next hzero hdigit =>
      cases h
      exact cut_run (.number hdigit hzero hall) fun _ d hlonger => (hlonger.tail.2.2 rfl).2
    next => cases h

theorem not_head_of_first? {c : Char} {cs : List Char} (h : first? (c :: cs) = none) :
    startsWord c = false ∧ standsAlone c = false ∧ joinsOperator c = false ∧ c ≠ '0' ∧ isDigit c = false := by
  simp only [first?] at h
  repeat' split at h
  all_goals simp_all

/-- Where no token is found no piece of any class starts. -/
theorem not_matches_of_first? {cs xs : List Char} {k : Class} (h : first? cs = none) (hxs : xs <+: cs) :
    ¬ Matches k xs := by
  intro hpiece
  obtain ⟨ys,rfl⟩ := hxs
  cases hpiece with
  | word head => exact absurd head (by simp [(not_head_of_first? h).1])
  | bracket head => exact absurd head (by simp [(not_head_of_first? h).2.1])
  | operator head => exact absurd head (by simp [(not_head_of_first? h).2.2.1])
  | zero => exact (not_head_of_first? h).2.2.2.1 rfl
  | number head => exact absurd head (by simp [(not_head_of_first? h).2.2.2.2])

end Lexeme
end TypedHole
