import TypedHole.Proofs.AutoRuns

/-! Splits that are settled early.
The automatic tactic lets nothing be split inside an argument that is in scope outside. Whatever a tactic
without this restriction would split there can be split above the application, where it is bound. Main
statements: values may be taken apart to any depth in advance (`Solvable.saturate`), a derivation needs no
split of values that have been taken apart deep enough (`Solvable.settle`), and so the restriction loses
nothing that can be solved (`auto_settled`). -/
namespace TypedHole

/-- A value has been taken apart to some depth: of each algebraic type on the way one constructor is known,
with its fields. -/
def Known (types : TypeTable) : Nat → Set Ty → Ty → Prop
  | 0, _, _ => True
  | n + 1, A, t => ∀ cs, types.constructors? t = some cs →
    ∃ c ∈ cs, ∀ u ∈ c.fields, u ∈ A ∧ Known types n A u

section

variable {types : TypeTable} {n m : Nat} {A B : Set Ty} {t : Ty}

theorem Known.mono (h : Known types n A t) (hm : m ≤ n) (hA : A ⊆ B) : Known types m B t := by
  induction m generalizing n t with
  | zero => trivial
  | succ m ih =>
    obtain ⟨n,rfl⟩ := Nat.exists_eq_add_of_le' (Nat.le_of_add_left_le hm)
    intro cs hcs
    obtain ⟨c,hc,hfields⟩ := h cs hcs
    refine ⟨c,hc,fun u hu => ?_⟩
    have hknown := hfields u hu
    exact ⟨hA hknown.1,ih hknown.2 (Nat.le_of_succ_le_succ hm)⟩

theorem Solvable.mono_settled {P Q : Pool} (h : Solvable types Pool.settled n P t) (hm : n ≤ m)
    (hP : P.Within Q) : Solvable types Pool.settled m Q t :=
  h.mono (fun _ _ => Pool.Within.settled) hm hP

/-- To solve a goal it suffices to solve it wherever the values of the listed types, which may be split, have
been taken apart to some depth. The number of rules does not depend on what else is known. -/
theorem Solvable.saturate (types : TypeTable) (n : Nat) : ∀ (ss : List Ty) (k : Nat), ∃ m,
    ∀ (A : Set Ty) (S : Multiset Ty) (t : Ty),
      (∀ B, A ⊆ B → (∀ s ∈ ss, Known types n B s) → Solvable types Pool.settled k ⟨B,S⟩ t) →
        Solvable types Pool.settled m ⟨A,(ss : Multiset Ty) + S⟩ t := by
  -- one level of depth after the other, and at each level one type after the other
  induction n with
  | zero =>
    intro ss k
    refine ⟨k,fun A S t h => ?_⟩
    have hsolved := h A (Set.Subset.refl _) fun _ _ => trivial
    exact hsolved.mono_settled le_rfl ⟨Set.Subset.refl _,Multiset.le_add_left _ _⟩
  | succ n ihn =>
    intro ss
    induction ss with
    | nil =>
      intro k
      refine ⟨k,fun A S t h => ?_⟩
      have hsolved := h A (Set.Subset.refl _) (by simp)
      simpa using hsolved
    | cons s ss ihs =>
      intro k
      obtain ⟨k₁,hk₁⟩ := ihs k
      cases hcs : types.constructors? s with
      | none =>
        refine ⟨k₁,fun A S t h => ?_⟩
        have hknown (B : Set Ty) : Known types (n + 1) B s := fun cs h => by cases hcs.symm.trans h
        have hsolved := hk₁ A S t fun B hB hss => h B hB (List.forall_mem_cons.2 ⟨hknown B,hss⟩)
        have hmore : ((ss : Multiset Ty) + S) ≤ ((s :: ss : List Ty) : Multiset Ty) + S :=
          Multiset.add_le_add_iff_right.2 (Multiset.le_cons_self _ s)
        exact hsolved.mono_settled le_rfl ⟨Set.Subset.refl _,hmore⟩
      | some cs =>
        obtain ⟨m,hm⟩ := exists_forall_of_list cs (P := fun c m => ∀ (A : Set Ty) (S : Multiset Ty) (t : Ty),
          (∀ B, A ⊆ B → (∀ u ∈ c.fields, Known types n B u) → Solvable types Pool.settled k₁ ⟨B,S⟩ t) →
            Solvable types Pool.settled m ⟨A,(c.fields : Multiset Ty) + S⟩ t) fun c _ => by
          obtain ⟨m,hm⟩ := ihn c.fields k₁
          exact ⟨m,fun m' hle A S t h => (hm A S t h).mono_settled hle (.refl _)⟩
        refine ⟨m + 1,fun A S t h => .split (s := s) (by simp) hcs fun c hc => ?_⟩
        have hbranch : Solvable types Pool.settled m
            ⟨A ∪ {u | u ∈ c.fields},(c.fields : Multiset Ty) + ((ss : Multiset Ty) + S)⟩ t := by
          refine hm m le_rfl c hc _ _ t fun B hB hfields => hk₁ B S t fun B' hB' hss => ?_
          refine h B' (fun u hu => hB' (hB (.inl hu))) (List.forall_mem_cons.2 ⟨fun cs' hcs' => ?_,hss⟩)
          cases hcs.symm.trans hcs'
          exact ⟨c,hc,fun u hu => ⟨hB' (hB (.inr hu)),(hfields u hu).mono le_rfl hB'⟩⟩
        have hpool : (⟨A,((s :: ss : List Ty) : Multiset Ty) + S⟩ : Pool).unpack s c.fields =
            ⟨A ∪ {u | u ∈ c.fields},(c.fields : Multiset Ty) + ((ss : Multiset Ty) + S)⟩ := by
          have hsplittable : (((s :: ss : List Ty) : Multiset Ty) + S).erase s = (ss : Multiset Ty) + S := by
            rw [← Multiset.cons_coe,Multiset.cons_add,Multiset.erase_cons_head]
          rw [Pool.unpack,hsplittable,Pool.add,Multiset.add_comm (c.fields : Multiset Ty)]
        rw [hpool]
        exact hbranch

/-- Where the values that a derivation may split have been taken apart to its depth, nothing has to be split
but what it binds itself, and that at once. -/
theorem Solvable.settle {P : Pool} (h : Solvable types id n P t) : ∃ m, ∀ A : Set Ty, P.usable ⊆ A →
    (∀ s ∈ P.splittable, s ∈ A ∧ Known types n A s) → Solvable types Pool.settled m ⟨A,0⟩ t := by
  have harguments {n : Nat} {P : Pool} {us : List Ty}
      (ih : ∀ u ∈ us, ∃ m, ∀ A : Set Ty, P.usable ⊆ A → (∀ s ∈ P.splittable, s ∈ A ∧ Known types n A s) →
        Solvable types Pool.settled m ⟨A,0⟩ u) :
      ∃ m, ∀ A : Set Ty, P.usable ⊆ A → (∀ s ∈ P.splittable, s ∈ A ∧ Known types (n + 1) A s) →
        ∀ u ∈ us, Solvable types Pool.settled m ⟨A,0⟩ u := by
    obtain ⟨m,hm⟩ := exists_forall_of_list us (P := fun u m => ∀ A : Set Ty, P.usable ⊆ A →
      (∀ s ∈ P.splittable, s ∈ A ∧ Known types (n + 1) A s) →
        Solvable types Pool.settled m ⟨A,0⟩ u) fun u hu => by
      obtain ⟨m,hm⟩ := ih u hu
      refine ⟨m,fun m' hle A hA hS => ?_⟩
      have hless : ∀ s ∈ P.splittable, s ∈ A ∧ Known types n A s :=
        fun s hs => ⟨(hS s hs).1,(hS s hs).2.mono (Nat.le_succ n) (Set.Subset.refl A)⟩
      exact (hm A hA hless).mono_settled hle (.refl _)
    exact ⟨m,fun A hA hS u hu => hm m le_rfl u hu A hA hS⟩
  induction h with
  | entry mem => exact ⟨1,fun A hA _ => .entry (hA mem)⟩
  | @lam n P t domains _ ih =>
    obtain ⟨k,hk⟩ := ih
    obtain ⟨m,hm⟩ := saturate types n t.domains k
    refine ⟨m + 1,fun A hA hS => .lam domains ?_⟩
    have hbody : Solvable types Pool.settled m ⟨A ∪ {u | u ∈ t.domains},(t.domains : Multiset Ty) + 0⟩
        t.result := by
      refine hm _ 0 _ fun B hB hdomains => hk B (Set.union_subset ?_ ?_) fun s hs => ?_
      · exact fun u hu => hB (.inl (hA hu))
      · exact fun u hu => hB (.inr hu)
      · rcases Multiset.mem_add.1 hs with hs | hs
        · have hknown := hS s hs
          exact ⟨hB (.inl hknown.1),hknown.2.mono (Nat.le_succ n) fun u hu => hB (.inl hu)⟩
        · exact ⟨hB (.inr hs),hdomains s hs⟩
    rwa [Multiset.add_comm] at hbody
  | constructor ctors mem _ ih =>
    obtain ⟨m,hm⟩ := harguments ih
    exact ⟨m + 1,fun A hA hS => .constructor ctors mem (hm A hA hS)⟩
  | function mem arrow _ ih =>
    obtain ⟨m,hm⟩ := harguments ih
    exact ⟨m + 1,fun A hA hS => .function (hA mem) arrow (hm A hA hS)⟩
  | @split n P s t cs mem ctors _ ih =>
    obtain ⟨m,hm⟩ := exists_forall_of_list cs (P := fun c m => ∀ A : Set Ty,
      (P.unpack s c.fields).usable ⊆ A →
        (∀ u ∈ (P.unpack s c.fields).splittable, u ∈ A ∧ Known types n A u) →
          Solvable types Pool.settled m ⟨A,0⟩ t) fun c hc => by
      obtain ⟨m,hm⟩ := ih c hc
      exact ⟨m,fun m' hle A hA hS => (hm A hA hS).mono_settled hle (.refl _)⟩
    refine ⟨m,fun A hA hS => ?_⟩
    -- the value has been taken apart already, so only the branch of its constructor counts
    obtain ⟨c,hc,hfields⟩ := (hS s mem).2 cs ctors
    refine hm m le_rfl c hc A (Set.union_subset hA fun u hu => (hfields u hu).1) fun u hu => ?_
    rcases Multiset.mem_add.1 hu with hu | hu
    · have hknown := hS u (Multiset.mem_of_mem_erase hu)
      exact ⟨hknown.1,hknown.2.mono (Nat.le_succ n) (Set.Subset.refl A)⟩
    · exact hfields u hu

end

open TypedHole.Tactic

/-- Where an automatic tactic that makes plain judgements for arguments finds a closed derivation, within some
depth bound, so does the automatic tactic of the library within some bound. -/
theorem auto_settled {κ : Type} (own : κ → Tactic (Label κ)) (ctx : Context) (j : Judgement) (hj : j.Scoped)
    (bound limit : Nat) (h : Solves (bodiesWith Judgement.subgoal own) ctx bound limit j auto) :
    ∃ bound', ∀ limit', 0 < limit' → Solves (bodies own) ctx bound' limit' j auto := by
  have hsolvable := h.solvable .subgoal hj
  obtain ⟨k,hk⟩ := hsolvable.settle
  obtain ⟨m,hm⟩ := Solvable.saturate ctx.types bound ((splittable j).map (·.ty)) k
  have hsettled : Solvable ctx.types Pool.settled m ⟨j.pool.usable,j.pool.splittable + 0⟩ j.goal :=
    hm _ 0 _ fun B hB hknown => hk B hB fun s hs =>
      ⟨hB (Judgement.usable_of_splittable hs),hknown s hs⟩
  rw [Multiset.add_zero] at hsettled
  refine ⟨m,fun limit' hl => ?_⟩
  rw [← bodiesWith_argument]
  exact hsettled.solves .argument hj hl

def TypeTable.box : TypeTable where
  datatypes := [⟨"P",[],[⟨"Q",[.const "A",.const "B"]⟩]⟩,⟨"W",[],[⟨"V",[.const "A"]⟩]⟩]

def Judgement.ofBox : Judgement := { Judgement.ofPair with goal := .const "W" }

theorem auto_settled_box :
    Judgement.ofBox.destructed = .empty ∧
      (∃ left f d, (Frontier.start .ofBox auto).explore (bodiesWith Judgement.subgoal Empty.elim)
          ⟨[],.empty,.box⟩ 3 1 100 = some (left,f) ∧ f.found = [d] ∧
        d.term = .app (.var "V") (.case (.var "p") [⟨"Q",["a","b"],.var "a"⟩])) ∧
      ∃ bound, ∀ limit, 0 < limit → Solves (bodies Empty.elim) ⟨[],.empty,.box⟩ bound limit .ofBox auto := by
  refine ⟨rfl,⟨_,_,_,rfl,rfl,rfl⟩,auto_settled Empty.elim _ _ (fun x hx => by cases hx) 3 1 ?_⟩
  exact ⟨100,_,_,rfl,_,List.mem_cons_self,rfl⟩

end TypedHole
