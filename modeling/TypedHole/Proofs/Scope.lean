import Mathlib.Data.List.Nodup
import Mathlib.Data.List.Perm.Subperm
import TypedHole.FreshName
import TypedHole.Judgement

/-! What names stand for.
A scope gives names their types. Main statements: entering names in a hypothesis binds them in its scope
(`Hypothesis.types_extend`), and new names differ from each other and from all that are taken
(`NameSupply.nodup_freshList`). -/
namespace TypedHole

abbrev Scope := Name → Option Ty

namespace Scope

def bind (Γ : Scope) (x : Name) (t : Ty) : Scope := fun y => if y = x then some t else Γ y

/-- Binds names one after the other; a later name hides an equal one from before. -/
def bindAll (Γ : Scope) (bs : List (Name × Ty)) : Scope := bs.foldl (fun Γ b => Γ.bind b.1 b.2) Γ

@[simp] theorem bindAll_cons (Γ : Scope) (b : Name × Ty) (bs : List (Name × Ty)) :
    Γ.bindAll (b :: bs) = (Γ.bind b.1 b.2).bindAll bs := rfl

theorem bindAll_of_not_mem {Γ : Scope} {bs : List (Name × Ty)} {x : Name} (h : x ∉ bs.map (·.1)) :
    Γ.bindAll bs x = Γ x := by
  induction bs generalizing Γ with
  | nil => rfl
  | cons b bs ih =>
    obtain ⟨hb,hbs⟩ := not_or.1 (fun hx => h (List.mem_cons.2 hx))
    rw [bindAll_cons,ih hbs,bind,if_neg hb]

theorem bindAll_of_innermost {Γ : Scope} {outer inner : List (Name × Ty)} {x : Name} {t : Ty}
    (hx : x ∉ inner.map (·.1)) : Γ.bindAll (outer ++ (x,t) :: inner) x = some t := by
  rw [bindAll,List.foldl_append]
  exact (bindAll_of_not_mem hx).trans (if_pos rfl)

theorem bindAll_of_mem {Γ : Scope} {bs : List (Name × Ty)} {x : Name} {t : Ty}
    (hn : (bs.map (·.1)).Nodup) (h : (x,t) ∈ bs) : Γ.bindAll bs x = some t := by
  induction bs generalizing Γ with
  | nil => cases h
  | cons b bs ih =>
    obtain ⟨hb,hbs⟩ := List.nodup_cons.1 hn
    rcases List.mem_cons.1 h with rfl | h
    · rw [bindAll_cons,bindAll_of_not_mem hb,bind,if_pos rfl]
    · exact ih hbs h

end Scope

namespace Hypothesis

def types (h : Hypothesis) : Scope := fun x => (h.find? x).map (·.ty)

theorem find?_place (e : Entry) (as : List Entry) (x : Name) :
    (place e as).find? (·.name == x) = if x = e.name then some e else as.find? (·.name == x) := by
  induction as with
  | nil => by_cases hx : x = e.name <;> simp [place,hx,Ne.symm]
  | cons a as ih =>
    simp only [place]
    split
    next => by_cases hx : x = e.name <;> simp [List.find?_cons,hx,Ne.symm]
    next nlt =>
      split
      next lt =>
        have hne : a.name ≠ e.name := fun he => String.lt_irrefl _ (he ▸ lt)
        by_cases ha : a.name = x
        · simp [ha,ha ▸ hne]
        · simpa [ha] using ih
      next nlt' =>
        have he : e.name = a.name := name_eq_of_not_lt nlt nlt'
        by_cases hx : x = e.name
        · simp [hx]
        · simp [hx,Ne.symm hx,he ▸ Ne.symm hx]

theorem types_insert (h : Hypothesis) (e : Entry) : (h.insert e).types = h.types.bind e.name e.ty := by
  funext x
  simp only [types,find?,insert,find?_place,Scope.bind]
  split <;> rfl

theorem types_extend (h : Hypothesis) (es : List Entry) :
    (h.extend es).types = h.types.bindAll (es.map fun e => (e.name,e.ty)) := by
  induction es generalizing h with
  | nil => rfl
  | cons e es ih =>
    have := ih (h.insert e)
    rwa [types_insert] at this

theorem mem_extend {h : Hypothesis} {es : List Entry} {e : Entry}
    (he : e ∈ (h.extend es).entries) : e ∈ h.entries ∨ e ∈ es := by
  induction es generalizing h with
  | nil => exact .inl he
  | cons a as ih =>
    rcases ih (h := h.insert a) he with he | he
    · rcases mem_place he with rfl | he
      · exact .inr List.mem_cons_self
      · exact .inl he
    · exact .inr (List.mem_cons_of_mem _ he)

theorem extend_append (h : Hypothesis) (es es' : List Entry) :
    h.extend (es ++ es') = (h.extend es).extend es' := List.foldl_append

theorem find?_extend_of_not_mem {h : Hypothesis} {es : List Entry} {x : Name} (hx : x ∉ es.map (·.name)) :
    (h.extend es).find? x = h.find? x := by
  induction es generalizing h with
  | nil => rfl
  | cons e es ih =>
    rw [List.map_cons,List.mem_cons,not_or] at hx
    have hinsert : (h.insert e).find? x = h.find? x := by
      rw [find?,insert,find?_place,if_neg hx.1]
      rfl
    exact (ih hx.2).trans hinsert

theorem find?_extend_of_mem {h : Hypothesis} {es : List Entry} {x : Name} (hx : x ∈ es.map (·.name)) :
    ∃ e ∈ es, (h.extend es).find? x = some e := by
  induction es generalizing h with
  | nil => cases hx
  | cons e es ih =>
    by_cases hes : x ∈ es.map (·.name)
    · obtain ⟨a,ha,hf⟩ := ih (h := h.insert e) hes
      exact ⟨a,List.mem_cons_of_mem _ ha,hf⟩
    · have he : x = e.name := (List.mem_cons.1 hx).resolve_right hes
      refine ⟨e,List.mem_cons_self,(find?_extend_of_not_mem (h := h.insert e) hes).trans ?_⟩
      rw [find?,insert,find?_place,if_pos he]

/-- The last one of the entries that have been added under a name is the one that counts. -/
theorem find?_extend_innermost {h : Hypothesis} {es : List Entry} {outer inner : List (Name × Ty)} {x : Name}
    {t : Ty} (hes : es.map (fun e => (e.name,e.ty)) = outer ++ (x,t) :: inner) (hx : x ∉ inner.map (·.1)) :
    ∃ e ∈ es, (h.extend es).find? x = some e ∧ e.ty = t := by
  have hmem : (x,t) ∈ es.map fun e => (e.name,e.ty) := by simp [hes]
  obtain ⟨e,he,heq⟩ := List.mem_map.1 hmem
  cases heq
  obtain ⟨a,ha,hfind⟩ := find?_extend_of_mem (h := h) (List.mem_map_of_mem he)
  have htypes : (h.extend es).types e.name = some e.ty := by
    rw [types_extend,hes]
    exact Scope.bindAll_of_innermost hx
  rw [types,hfind] at htypes
  exact ⟨a,ha,hfind,Option.some.inj htypes⟩

theorem find?_of_mem {h : Hypothesis} {e : Entry} (he : e ∈ h.entries) : h.find? e.name = some e := by
  obtain ⟨entries,sorted⟩ := h
  simp only [find?]
  induction entries with
  | nil => cases he
  | cons a as ih =>
    obtain ⟨ha,has⟩ := List.pairwise_cons.1 sorted
    rcases List.mem_cons.1 he with rfl | he
    · simp
    · have hne : a.name ≠ e.name := fun h => String.lt_irrefl _ (h ▸ ha e he)
      simpa [hne] using ih has he

/-- What is found by its provenance is the entry of least name that passes the test. -/
theorem findProvenance?_eq_some_iff {h : Hypothesis} {p : Provenance → Bool} {e : Entry} :
    h.findProvenance? p = some e ↔ e ∈ h.entries ∧ p e.provenance = true ∧
      ∀ a ∈ h.entries, p a.provenance = true → e.name ≤ a.name := by
  have hfound {e : Entry} (he : h.findProvenance? p = some e) : e ∈ h.entries ∧ p e.provenance = true :=
    ⟨List.mem_of_find?_eq_some he,List.find?_some (p := fun e : Entry => p e.provenance) he⟩
  have hleast {e : Entry} (he : h.findProvenance? p = some e) :
      ∀ a ∈ h.entries, p a.provenance = true → e.name ≤ a.name := by
    intro a ha hp
    obtain ⟨-,before,after,hentries,hbefore⟩ := List.find?_eq_some_iff_append.1 he
    have hsorted := h.sorted
    rw [hentries] at ha hsorted
    rcases List.mem_append.1 ha with ha | ha
    · have hnot := hbefore a ha
      simp [hp] at hnot
    rcases List.mem_cons.1 ha with rfl | ha
    · exact String.le_refl _
    · have hafter := (List.pairwise_append.1 hsorted).2.1
      exact String.not_lt.1 (String.lt_asymm (List.rel_of_pairwise_cons hafter ha))
  refine ⟨fun he => ⟨(hfound he).1,(hfound he).2,hleast he⟩,?_⟩
  rintro ⟨he,hp,hmin⟩
  obtain ⟨a,ha⟩ : ∃ a, h.findProvenance? p = some a :=
    Option.isSome_iff_exists.1 (List.find?_isSome.2 ⟨e,he,hp⟩)
  obtain ⟨hmem,hpa⟩ := hfound ha
  have hname : a.name = e.name := String.le_antisymm (hleast ha e he hp) (hmin a hmem hpa)
  have hsame := find?_of_mem hmem
  rw [hname,find?_of_mem he] at hsame
  rw [ha,hsame]

theorem types_of_mem {h : Hypothesis} {e : Entry} (he : e ∈ h.entries) : h.types e.name = some e.ty := by
  simp [types,find?_of_mem he]

theorem nodup_names (h : Hypothesis) : h.names.Nodup := by
  refine List.pairwise_map.2 (h.sorted.imp fun hlt he => ?_)
  rw [he] at hlt
  exact String.lt_irrefl _ hlt

theorem perm_place {e : Entry} {as : List Entry} (h : e.name ∉ as.map (·.name)) :
    (place e as).Perm (e :: as) := by
  induction as with
  | nil => exact .refl _
  | cons a as ih =>
    rw [List.map_cons,List.mem_cons,not_or] at h
    simp only [place]
    split
    next => exact .refl _
    next nlt =>
      split
      next => exact ((ih h.2).cons a).trans (.swap e a as)
      next nlt' => exact absurd (name_eq_of_not_lt nlt nlt') h.1

/-- Under new and distinct names entries join those that are there. -/
theorem perm_extend {h : Hypothesis} {es : List Entry} (hn : (es.map (·.name)).Nodup)
    (hnew : ∀ e ∈ es, e.name ∉ h.names) : (h.extend es).entries.Perm (h.entries ++ es) := by
  induction es generalizing h with
  | nil =>
    rw [List.append_nil]
    exact .refl _
  | cons e es ih =>
    obtain ⟨he,hes⟩ := List.nodup_cons.1 hn
    have hplace : (h.insert e).entries.Perm (e :: h.entries) := perm_place (hnew e List.mem_cons_self)
    have hrest : ∀ a ∈ es, a.name ∉ (h.insert e).names := by
      intro a ha hin
      rcases List.mem_cons.1 ((hplace.map (·.name)).mem_iff.1 hin) with heq | hin
      · exact he (heq ▸ List.mem_map_of_mem ha)
      · exact hnew a (List.mem_cons_of_mem _ ha) hin
    exact ((ih hes hrest).trans (hplace.append_right es)).trans List.perm_middle.symm

section

variable {h : Hypothesis} {es : List Entry} {e : Entry}

theorem mem_extend_of_mem (hnew : ∀ a ∈ es, a.name ∉ h.names) (he : e ∈ h.entries) :
    e ∈ (h.extend es).entries := by
  have hname : e.name ∉ es.map (·.name) := by
    intro hin
    obtain ⟨a,ha,heq⟩ := List.mem_map.1 hin
    have htaken : e.name ∈ h.names := List.mem_map_of_mem he
    rw [← heq] at htaken
    exact hnew a ha htaken
  have hfind : (h.extend es).find? e.name = some e := (find?_extend_of_not_mem hname).trans (find?_of_mem he)
  exact List.mem_of_find?_eq_some hfind

theorem append_names_subset (hnew : ∀ a ∈ es, a.name ∉ h.names) :
    h.names ++ es.map (·.name) ⊆ (h.extend es).names := by
  intro x hx
  rcases List.mem_append.1 hx with hx | hx
  · obtain ⟨e,he,rfl⟩ := List.mem_map.1 hx
    exact List.mem_map_of_mem (mem_extend_of_mem hnew he)
  · obtain ⟨e,-,he⟩ := find?_extend_of_mem (h := h) hx
    have hname : e.name = x := by simpa using List.find?_some he
    exact hname ▸ List.mem_map_of_mem (List.mem_of_find?_eq_some he)

theorem types_eq_none {x : Name} (hx : x ∉ h.names) : h.types x = none := by
  have hnone : h.find? x = none := by
    refine List.find?_eq_none.2 fun e he heq => hx ?_
    have hname : e.name = x := by simpa using heq
    exact hname ▸ List.mem_map_of_mem he
  rw [types,hnone]
  rfl

theorem name_ne_of_provenance {a b : Entry} (ha : a ∈ h.entries)
    (hb : b ∈ h.entries) (hne : a.provenance ≠ b.provenance) : a.name ≠ b.name := by
  intro hname
  have hfind := find?_of_mem ha
  rw [hname,find?_of_mem hb] at hfind
  cases hfind
  exact hne rfl

end

end Hypothesis

namespace NameSupply

theorem numbered_injective (base : Name) {m n : Nat} (h : numbered base m = numbered base n) : m = n := by
  have hne (k : Nat) : base ≠ base ++ toString (k + 1) := by
    intro hk
    have hempty : base ++ "" = base ++ toString (k + 1) := by rwa [String.append_empty]
    exact Nat.repr_ne_empty ((String.append_right_inj base).1 hempty).symm
  cases m with
  | zero =>
    cases n with
    | zero => rfl
    | succ n => exact absurd h (hne n)
  | succ m =>
    cases n with
    | zero => exact absurd h.symm (hne m)
    | succ n =>
      have hrepr : (m + 1).repr = (n + 1).repr := (String.append_right_inj base).1 h
      have hdigits := congrArg (fun s => Nat.ofDigitChars 10 s.toList 0) hrepr
      simpa [Nat.toList_repr,Nat.ofDigitChars_ten_toDigits] using hdigits

/-- The search for an unused name ends at a used one only when all candidates are used. -/
theorem used_of_firstFree {used : List Name} {base : Name} {fuel n : Nat}
    (h : numbered base (firstFree used base fuel n) ∈ used) :
    ∀ k, n ≤ k → k ≤ n + fuel → numbered base k ∈ used := by
  induction fuel generalizing n with
  | zero =>
    intro k hl hu
    rw [Nat.le_antisymm hu hl]
    exact h
  | succ fuel ih =>
    rw [firstFree] at h
    split at h
    next hn =>
      intro k hl hu
      by_cases hk : k = n
      · exact hk ▸ hn
      · exact ih h k (by omega) (by omega)
    next hn => exact absurd h hn

theorem fresh_not_mem (s : NameSupply) (t : Ty) : (s.fresh t).1 ∉ s.used := by
  intro h
  have hall := used_of_firstFree h
  have hsub : (List.range (s.used.length + 1)).map (numbered t.suggestedName) ⊆ s.used := by
    intro x hx
    obtain ⟨k,hk,rfl⟩ := List.mem_map.1 hx
    have := List.mem_range.1 hk
    exact hall k (Nat.zero_le _) (by omega)
  have hnodup : ((List.range (s.used.length + 1)).map (numbered t.suggestedName)).Nodup :=
    List.Nodup.map (fun _ _ => numbered_injective _) List.nodup_range
  have := (hnodup.subperm hsub).length_le
  rw [List.length_map,List.length_range] at this
  omega

@[simp] theorem length_freshList (s : NameSupply) (ts : List Ty) : (s.freshList ts).1.length = ts.length := by
  induction ts generalizing s with
  | nil => rfl
  | cons t ts ih => simp [freshList,ih]

theorem freshList_not_mem (s : NameSupply) (ts : List Ty) : ∀ x ∈ (s.freshList ts).1, x ∉ s.used := by
  induction ts generalizing s with
  | nil => simp [freshList]
  | cons t ts ih =>
    intro x hx hu
    rcases List.mem_cons.1 hx with rfl | hx
    · exact s.fresh_not_mem t hu
    · exact ih _ x hx (List.mem_cons_of_mem _ hu)

theorem nodup_freshList (s : NameSupply) (ts : List Ty) : (s.freshList ts).1.Nodup := by
  induction ts generalizing s with
  | nil => simp [freshList]
  | cons t ts ih =>
    refine List.nodup_cons.2 ⟨fun hx => ?_,ih _⟩
    exact freshList_not_mem _ ts _ hx (List.mem_cons_self)

end NameSupply
end TypedHole
