import TypedHole.Proofs.Scope

/-! New names, one after the other.
A name that is taken gets a number. The numbers are tried in turn with no end in sight; the trials end because they
differ and only finitely many names are taken. Main statement: names for several types are those that unbounded trials
give, and each is its type's own name or has the least number that is free at its turn (`names_least`). -/
namespace TypedHole
namespace NameSupply

/-- Numbers for a name that are tried in turn, from the first up to the second one, which is free. -/
inductive Probes (taken : List Name) (base : Name) : Nat → Nat → Prop
  | free {n : Nat} (free : numbered base n ∉ taken) : Probes taken base n n
  | next {n k : Nat} (used : numbered base n ∈ taken) (rest : Probes taken base (n + 1) k) : Probes taken base n k

/-- Names for several types; each one is taken when the next one is looked for. -/
inductive Draws : List Name → List Ty → List Name → Prop
  | nil {taken : List Name} : Draws taken [] []
  | cons {taken : List Name} {t : Ty} {ts : List Ty} {k : Nat} {xs : List Name}
      (first : Probes taken t.suggestedName 0 k)
      (rest : Draws (numbered t.suggestedName k :: taken) ts xs) :
      Draws taken (t :: ts) (numbered t.suggestedName k :: xs)

/-- A free name: the base itself, or where that is taken the base with the least number from one on that is free. -/
def LeastFree (taken : List Name) (base x : Name) : Prop :=
  x ∉ taken ∧ (x = base ∨ base ∈ taken ∧
    ∃ k, 1 ≤ k ∧ x = base ++ toString k ∧ ∀ m, 1 ≤ m → m < k → base ++ toString m ∈ taken)

variable {taken : List Name} {base x : Name} {n k : Nat}

theorem numbered_of_pos (base : Name) (h : 1 ≤ n) : numbered base n = base ++ toString n := by
  obtain ⟨n,rfl⟩ := Nat.exists_eq_succ_of_ne_zero (Nat.ne_of_gt h)
  rfl

namespace Probes

theorem least (h : Probes taken base n k) :
    n ≤ k ∧ numbered base k ∉ taken ∧ ∀ m, n ≤ m → m < k → numbered base m ∈ taken := by
  induction h with
  | free free => exact ⟨Nat.le_refl _,free,fun m hm hlt => absurd hm (Nat.not_le.2 hlt)⟩
  | @next n k used rest ih =>
    obtain ⟨hle,hfree,hused⟩ := ih
    refine ⟨Nat.le_of_succ_le hle,hfree,fun m hm hlt => ?_⟩
    rcases Nat.eq_or_lt_of_le hm with rfl | hm
    · exact used
    · exact hused m hm hlt

theorem unique {k' : Nat} (h : Probes taken base n k) (h' : Probes taken base n k') : k = k' := by
  obtain ⟨hle,hfree,hused⟩ := h.least
  obtain ⟨hle',hfree',hused'⟩ := h'.least
  rcases Nat.lt_trichotomy k k' with hlt | heq | hlt
  · exact absurd (hused' k hle hlt) hfree
  · exact heq
  · exact absurd (hused k' hle' hlt) hfree'

theorem leastFree (h : Probes taken base 0 k) : LeastFree taken base (numbered base k) := by
  obtain ⟨-,hfree,hused⟩ := h.least
  refine ⟨hfree,?_⟩
  rcases Nat.eq_zero_or_pos k with rfl | hpos
  · exact .inl rfl
  · refine .inr ⟨hused 0 (Nat.le_refl _) hpos,k,hpos,numbered_of_pos base hpos,fun m hm hlt => ?_⟩
    rw [← numbered_of_pos base hm]
    exact hused m (Nat.zero_le _) hlt

theorem of_firstFree {fuel : Nat} (h : numbered base (firstFree taken base fuel n) ∉ taken) :
    Probes taken base n (firstFree taken base fuel n) := by
  induction fuel generalizing n with
  | zero => exact .free h
  | succ fuel ih =>
    rw [firstFree] at h ⊢
    split at h
    next used =>
      rw [if_pos used]
      exact .next used (ih h)
    next free =>
      rw [if_neg free]
      exact .free free

end Probes

theorem probes_fresh (s : NameSupply) (t : Ty) :
    Probes s.used t.suggestedName 0 (firstFree s.used t.suggestedName s.used.length 0) :=
  .of_firstFree (s.fresh_not_mem t)

/-- The names for several types, and no others, come from unbounded trials. -/
theorem draws_iff (s : NameSupply) (ts : List Ty) (xs : List Name) :
    Draws s.used ts xs ↔ xs = (s.freshList ts).1 := by
  induction ts generalizing s xs with
  | nil => exact ⟨fun h => by cases h; rfl,fun h => h ▸ .nil⟩
  | cons t ts ih =>
    have hrest := ih (s.fresh t).2
    refine ⟨fun h => ?_,fun h => h ▸ .cons (s.probes_fresh t) ((hrest _).2 rfl)⟩
    cases h with
    | cons first rest =>
      cases first.unique (s.probes_fresh t)
      rw [(hrest _).1 rest]
      rfl

theorem LeastFree.congr {taken' : List Name} (h : LeastFree taken base x) (heq : ∀ y, y ∈ taken ↔ y ∈ taken') :
    LeastFree taken' base x := by
  simpa only [LeastFree,heq] using h

theorem leastFree_freshList (s : NameSupply) (ts : List Ty) (i : Nat) : ∀ t ∈ ts[i]?,
    ∃ x ∈ (s.freshList ts).1[i]?, LeastFree (s.used ++ (s.freshList ts).1.take i) t.suggestedName x := by
  induction ts generalizing s i with
  | nil => nofun
  | cons u ts ih =>
    intro t ht
    cases i with
    | zero =>
      cases ht
      refine ⟨_,rfl,?_⟩
      rw [List.take_zero,List.append_nil]
      exact (s.probes_fresh u).leastFree
    | succ i =>
      obtain ⟨x,hx,hleast⟩ := ih (s.fresh u).2 i t ht
      refine ⟨x,hx,hleast.congr fun y => ?_⟩
      exact List.perm_middle.symm.mem_iff

/-- Names for several types that start from a hypothesis: trials without a bound end, and end with them; they differ
from each other and from the names of the hypothesis; and each is the least one at its turn, when the names of the
hypothesis and those before it are taken. -/
theorem names_least (h : Hypothesis) (ts : List Ty) :
    (∀ xs, Draws h.names ts xs ↔ xs = ((ofHypothesis h).freshList ts).1) ∧
    ((ofHypothesis h).freshList ts).1.length = ts.length ∧
    ((ofHypothesis h).freshList ts).1.Nodup ∧
    (∀ x ∈ ((ofHypothesis h).freshList ts).1, h.contains x = false) ∧
    ∀ i, ∀ t ∈ ts[i]?, ∃ x ∈ ((ofHypothesis h).freshList ts).1[i]?,
      LeastFree (h.names ++ ((ofHypothesis h).freshList ts).1.take i) t.suggestedName x := by
  refine ⟨draws_iff (ofHypothesis h) ts,length_freshList _ ts,nodup_freshList _ ts,fun x hx => ?_,
    leastFree_freshList (ofHypothesis h) ts⟩
  have hnot : x ∉ h.names := freshList_not_mem (ofHypothesis h) ts x hx
  rw [Hypothesis.contains,List.any_eq_false]
  intro e he hname
  exact hnot (List.mem_map.2 ⟨e,he,eq_of_beq hname⟩)

/-- A type variable may be named like a function with a number. -/
example : ((ofHypothesis (.ofList [⟨"f",.const "T",.user⟩])).freshList
    [.arrow (.const "A") (.const "B"),.var "f1",.arrow (.const "A") (.const "B"),.var "f1"]).1 =
      ["f1","f11","f2","f12"] := by
  decide +kernel

end NameSupply
end TypedHole
