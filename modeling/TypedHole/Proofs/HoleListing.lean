import TypedHole.Proofs.Loading

/-! The holes of a module and the places of its parts.
Looking for holes trusts spans alone: the walk drops neighbours with one span, and equations are found by what
they contain. Main statement: in a module that has been read the spans agree with the tree, so that each hole is
listed once and in order, with the type next to it, and is found in its own equation (`holes_listed`). -/
namespace TypedHole

/-- A stretch that is not empty and ends before another one begins. -/
def Span.Precedes (a b : Span) : Prop := a.start < a.stop ∧ a.stop ≤ b.start

theorem Span.Precedes.ne {a b : Span} (h : a.Precedes b) : a ≠ b := by
  rintro rfl
  exact absurd h.2 (Nat.not_le.2 h.1)

theorem Span.Within.contains {outer inner : Span} (h : inner.Within outer.source outer.start outer.stop) :
    outer.contains inner = true := by
  simp [Span.contains,h.source,h.start,h.stop]

theorem Span.Within.precedes {key lo hi lo' hi' : Nat} {a b : Span} (ha : a.Within key lo hi)
    (hb : b.Within key lo' hi') (h : hi ≤ lo') : a.Precedes b :=
  ⟨ha.nonempty,Nat.le_trans ha.stop (Nat.le_trans h hb.start)⟩

namespace Pat

variable {key lo hi : Nat} {ps : List Pat}

theorem NestedList.within (h : NestedList key lo hi ps) : ∀ p ∈ ps, p.Nested key lo hi := by
  induction ps generalizing lo with
  | nil => simp
  | cons p ps ih =>
    rw [NestedList] at h
    have hle : lo ≤ p.span.stop := Nat.le_trans h.1.span.start (Nat.le_of_lt h.1.span.nonempty)
    exact List.forall_mem_cons.2 ⟨h.1,fun q hq => (ih h.2 q hq).mono hle (Nat.le_refl _)⟩

theorem NestedList.ordered (h : NestedList key lo hi ps) : ps.Pairwise fun p q => p.span.Precedes q.span := by
  induction ps generalizing lo with
  | nil => exact .nil
  | cons p ps ih =>
    rw [NestedList] at h
    exact List.pairwise_cons.2 ⟨fun q hq => ⟨h.1.span.nonempty,(h.2.within q hq).span.start⟩,ih h.2⟩

end Pat

/-! The tree below a node. -/

namespace Node

def children : Node → List Node
  | .equation e => e.pats.map .pat ++ [.expr e.rhs]
  | .pat (.ctor _ args _) => args.map .pat
  | .pat _ => []
  | .expr (.app f a _) => [.expr f,.expr a]
  | .expr (.binary _ l r _) => [.expr l,.expr r]
  | .expr (.lam _ b _) => [.expr b]
  | .expr (.ann e _ _) => [.expr e]
  | .expr _ => []

def nodes : Node → List Node
  | .equation e => e.nodes
  | .pat p => p.nodes
  | .expr e => e.nodes

theorem nodesOfList_eq (ps : List Pat) : Pat.nodesOfList ps = ps.flatMap Pat.nodes := by
  induction ps with
  | nil => rfl
  | cons p ps ih => rw [Pat.nodesOfList,List.flatMap_cons,ih]

theorem nodes_eq (n : Node) : n.nodes = n :: n.children.flatMap nodes := by
  cases n with
  | equation e => simp [nodes,children,Equation.nodes,List.flatMap_map]
  | pat p => cases p <;> simp [nodes,children,Pat.nodes,nodesOfList_eq,List.flatMap_map]
  | expr e => cases e <;> simp [nodes,children,Expr.nodes]

theorem sizeOf_children {n c : Node} (h : c ∈ n.children) : sizeOf c < sizeOf n := by
  cases n with
  | equation e =>
    obtain ⟨f,ps,r,sp⟩ := e
    simp only [children,List.mem_append,List.mem_map,List.mem_singleton] at h
    obtain ⟨p,hp,rfl⟩ | rfl := h
    · have := List.sizeOf_lt_of_mem hp
      simp +arith
      omega
    · simp +arith
  | pat p =>
    cases p with
    | ctor c args s =>
      obtain ⟨p,hp,rfl⟩ := List.mem_map.1 h
      have := List.sizeOf_lt_of_mem hp
      simp +arith
      omega
    | _ => cases h
  | expr e => cases e <;> simp [children] at h <;> grind

theorem forall_nodes {P : Node → Prop} (hP : ∀ n, P n → ∀ c ∈ n.children, P c) (n : Node) (h : P n) :
    ∀ n' ∈ n.nodes, P n' := by
  rw [nodes_eq]
  refine List.forall_mem_cons.2 ⟨h,fun n' hn' => ?_⟩
  obtain ⟨c,hc,hn'⟩ := List.mem_flatMap.1 hn'
  have hsmaller := sizeOf_children hc
  exact forall_nodes hP c (hP n h c hc) n' hn'
termination_by sizeOf n

theorem exists_pat_of_mem_nodes {p : Pat} : ∀ n ∈ p.nodes, ∃ q, n = .pat q := by
  refine forall_nodes (P := fun n => ∃ q, n = .pat q) ?_ (.pat p) ⟨p,rfl⟩
  rintro n ⟨q,rfl⟩ c hc
  cases q with
  | ctor c args s =>
    obtain ⟨q,-,rfl⟩ := List.mem_map.1 hc
    exact ⟨q,rfl⟩
  | _ => cases hc

/-- What patterns have none of is only in the right-hand side of an equation. -/
theorem filterMap_nodes_equation {α : Type} {f : Node → Option α} {e : Equation} (he : f (.equation e) = none)
    (hp : ∀ p, f (.pat p) = none) : e.nodes.filterMap f = e.rhs.nodes.filterMap f := by
  have hpats : (e.pats.flatMap Pat.nodes).filterMap f = [] := by
    refine List.filterMap_eq_nil_iff.2 fun n hn => ?_
    obtain ⟨p,-,hn⟩ := List.mem_flatMap.1 hn
    obtain ⟨q,rfl⟩ := exists_pat_of_mem_nodes n hn
    exact hp q
  rw [Equation.nodes,List.filterMap_cons_none he,List.filterMap_append,hpats,List.nil_append]

theorem expr_mem_nodes_equation {e : Equation} {x : Expr} : Node.expr x ∈ e.nodes ↔ Node.expr x ∈ e.rhs.nodes := by
  rw [Equation.nodes,List.mem_cons,List.mem_append,List.mem_flatMap]
  constructor
  · rintro (hn | ⟨p,-,hn⟩ | hn)
    · cases hn
    · obtain ⟨q,hq⟩ := exists_pat_of_mem_nodes _ hn
      cases hq
    · exact hn
  · exact fun hn => .inr (.inr hn)

def holeSpan? : Node → Option Span
  | .expr (.hole _ s) => some s
  | _ => none

theorem holeSpan?_eq_some {n : Node} {s : Span} (h : n.holeSpan? = some s) : ∃ x, n = .expr (.hole x s) := by
  unfold holeSpan? at h
  split at h
  next x s' =>
    cases h
    exact ⟨x,rfl⟩
  next => cases h

/-- A node whose stretch is not empty, contains its children, and has them one behind the other. -/
structure Arranged (n : Node) : Prop where
  nonempty : n.span.start < n.span.stop
  contains : ∀ c ∈ n.children, n.span.contains c.span = true
  ordered : n.children.Pairwise fun a b => a.span.Precedes b.span

def Nested (key : Nat) : Node → Prop
  | .equation e => e.Placed key
  | .pat p => ∃ lo hi, p.Nested key lo hi
  | .expr e => ∃ lo hi, e.Nested key lo hi

variable {key : Nat} {n : Node}

theorem Nested.children (h : n.Nested key) : ∀ c ∈ n.children, c.Nested key := by
  cases n with
  | equation e =>
    intro c hc
    rcases List.mem_append.1 hc with hc | hc
    · obtain ⟨p,hp,rfl⟩ := List.mem_map.1 hc
      exact ⟨_,_,h.pats.within p hp⟩
    · rw [List.mem_singleton.1 hc]
      exact ⟨_,_,h.rhs⟩
  | pat p =>
    obtain ⟨lo,hi,h⟩ := h
    cases p with
    | ctor c args s =>
      rw [Pat.Nested] at h
      intro c hc
      obtain ⟨p,hp,rfl⟩ := List.mem_map.1 hc
      exact ⟨_,_,h.2.within p hp⟩
    | _ => exact List.forall_mem_nil _
  | expr e =>
    obtain ⟨lo,hi,h⟩ := h
    cases e with
    | var | hole | number => exact List.forall_mem_nil _
    | app | binary => exact List.forall_mem_cons.2 ⟨⟨_,_,h.2.1⟩,List.forall_mem_singleton.2 ⟨_,_,h.2.2⟩⟩
    | lam | ann => exact List.forall_mem_singleton.2 ⟨_,_,h.2⟩

theorem Nested.source (h : n.Nested key) : n.span.source = key := by
  cases n with
  | equation e => exact Equation.Placed.source h
  | pat p =>
    obtain ⟨lo,hi,h⟩ := h
    exact h.span.source
  | expr e =>
    obtain ⟨lo,hi,h⟩ := h
    exact h.span.source

theorem Nested.nonempty (h : n.Nested key) : n.span.start < n.span.stop := by
  cases n with
  | equation e =>
    have hrhs := h.rhs.span
    exact Nat.lt_of_le_of_lt hrhs.start (Nat.lt_of_lt_of_le hrhs.nonempty hrhs.stop)
  | pat p =>
    obtain ⟨lo,hi,h⟩ := h
    exact h.span.nonempty
  | expr e =>
    obtain ⟨lo,hi,h⟩ := h
    exact h.span.nonempty

theorem Nested.within (h : n.Nested key) : ∀ c ∈ n.children, c.span.Within key n.span.start n.span.stop := by
  cases n with
  | equation e =>
    have hrhs := h.rhs.span
    intro c hc
    rcases List.mem_append.1 hc with hc | hc
    · obtain ⟨p,hp,rfl⟩ := List.mem_map.1 hc
      have hp := (h.pats.within p hp).span
      exact hp.mono (Nat.le_refl _) (Nat.le_trans (Nat.le_of_lt hrhs.nonempty) hrhs.stop)
    · rw [List.mem_singleton.1 hc]
      exact hrhs
  | pat p =>
    obtain ⟨lo,hi,h⟩ := h
    cases p with
    | ctor c args s =>
      rw [Pat.Nested] at h
      intro c hc
      obtain ⟨p,hp,rfl⟩ := List.mem_map.1 hc
      exact (h.2.within p hp).span
    | _ => exact List.forall_mem_nil _
  | expr e =>
    obtain ⟨lo,hi,h⟩ := h
    cases e with
    | var | hole | number => exact List.forall_mem_nil _
    | app | binary =>
      exact List.forall_mem_cons.2 ⟨h.2.1.span,List.forall_mem_singleton.2 (h.2.1.behind h.2.2).span⟩
    | lam | ann => exact List.forall_mem_singleton.2 h.2.span

theorem Nested.ordered (h : n.Nested key) : n.children.Pairwise fun a b => a.span.Precedes b.span := by
  cases n with
  | equation e =>
    refine List.pairwise_append.2 ⟨List.pairwise_map.2 h.pats.ordered,List.pairwise_singleton _ _,?_⟩
    intro a ha b hb
    obtain ⟨p,hp,rfl⟩ := List.mem_map.1 ha
    rw [List.mem_singleton.1 hb]
    have hp := (h.pats.within p hp).span
    exact ⟨hp.nonempty,hp.stop⟩
  | pat p =>
    obtain ⟨lo,hi,h⟩ := h
    cases p with
    | ctor =>
      rw [Pat.Nested] at h
      exact List.pairwise_map.2 h.2.ordered
    | _ => exact .nil
  | expr e =>
    obtain ⟨lo,hi,h⟩ := h
    cases e with
    | var | hole | number => exact .nil
    | app | binary => exact List.pairwise_pair.2 ⟨h.2.1.span.nonempty,h.2.2.span.start⟩
    | lam | ann => exact List.pairwise_singleton _ _

theorem Nested.arranged (h : n.Nested key) : n.Arranged :=
  ⟨h.nonempty,fun c hc => Span.Within.contains (h.source ▸ h.within c hc),h.ordered⟩

end Node

theorem Module.IsWritten.arranged {key : Nat} {m : Module} (h : m.IsWritten key) : ∀ n ∈ m.nodes, n.Arranged := by
  intro n hn
  obtain ⟨e,he,hn⟩ := List.mem_flatMap.1 hn
  exact (Node.forall_nodes (fun _ => Node.Nested.children) (.equation e) (h.placed e he) n hn).arranged

/-! Holes with the types next to them. -/

namespace Expr

/-- The holes of an expression from left to right; `given` is the type that is written next to it. -/
def sites (given : Option Ty) : Expr → List HoleSite
  | .hole _ s => [⟨s,given⟩]
  | .var .. | .number .. => []
  | .app f a _ => f.sites none ++ a.sites none
  | .binary _ l r _ => l.sites none ++ r.sites none
  | .lam _ b _ => b.sites none
  | .ann e t _ => e.sites (some t)

variable {key lo hi : Nat} {e : Expr}

theorem Nested.sites_within (h : e.Nested key lo hi) (given : Option Ty) :
    ∀ a ∈ e.sites given, a.span.Within key lo hi := by
  induction e generalizing lo hi given with
  | var | number => exact nofun
  | hole => simpa [sites] using h.1
  | app f a s ihf iha =>
    intro b hb
    rcases List.mem_append.1 hb with hb | hb
    · exact (ihf h.2.1 none b hb).mono h.1.start h.1.stop
    · exact (iha (h.2.1.behind h.2.2) none b hb).mono h.1.start h.1.stop
  | binary op l r s ihl ihr =>
    intro b hb
    rcases List.mem_append.1 hb with hb | hb
    · exact (ihl h.2.1 none b hb).mono h.1.start h.1.stop
    · exact (ihr (h.2.1.behind h.2.2) none b hb).mono h.1.start h.1.stop
  | lam _ _ _ ih | ann _ _ _ ih => exact fun b hb => (ih h.2 _ b hb).mono h.1.start h.1.stop

theorem Nested.tight (h : e.Nested key lo hi) : e.Nested key e.span.start e.span.stop := by
  cases e with
  | var | number => exact ⟨h.source,Nat.le_refl _,h.nonempty,Nat.le_refl _⟩
  | _ => exact ⟨⟨h.1.source,Nat.le_refl _,h.1.nonempty,Nat.le_refl _⟩,h.2⟩

theorem Nested.sites_append {e' : Expr} {hi' : Nat} (h : e.Nested key lo hi)
    (h' : e'.Nested key e.span.stop hi') (given given' : Option Ty)
    (ho : (e.sites given).Pairwise fun a b => a.span.Precedes b.span)
    (ho' : (e'.sites given').Pairwise fun a b => a.span.Precedes b.span) :
    (e.sites given ++ e'.sites given').Pairwise fun a b => a.span.Precedes b.span := by
  refine List.pairwise_append.2 ⟨ho,ho',fun a ha b hb => ?_⟩
  exact (h.tight.sites_within given a ha).precedes (h'.sites_within given' b hb) (Nat.le_refl _)

theorem Nested.sites_ordered (h : e.Nested key lo hi) (given : Option Ty) :
    (e.sites given).Pairwise fun a b => a.span.Precedes b.span := by
  induction e generalizing lo hi given with
  | var | number => exact .nil
  | hole => exact List.pairwise_singleton _ _
  | app f a s ihf iha => exact h.2.1.sites_append h.2.2 none none (ihf h.2.1 none) (iha h.2.2 none)
  | binary op l r s ihl ihr => exact h.2.1.sites_append h.2.2 none none (ihl h.2.1 none) (ihr h.2.2 none)
  | lam _ _ _ ih | ann _ _ _ ih => exact ih h.2 _

end Expr

/-- How often the walk meets a hole: once more, without its type, when there is one next to it. -/
def HoleSite.visits (a : HoleSite) : List HoleSite := a :: if a.given.isSome then [⟨a.span,none⟩] else []

theorem Expr.filterMap_nodes (e : Expr) :
    e.nodes.filterMap Node.holeSite? = (e.sites none).flatMap HoleSite.visits := by
  induction e with
  | var | hole | number => rfl
  | app f a s ihf iha =>
    rw [nodes,List.filterMap_cons_none rfl,List.filterMap_append,ihf,iha,sites,List.flatMap_append]
  | binary op l r s ihl ihr =>
    rw [nodes,List.filterMap_cons_none rfl,List.filterMap_append,ihl,ihr,sites,List.flatMap_append]
  | lam xs b s ih => rw [nodes,List.filterMap_cons_none rfl,ih,sites]
  | ann e t s ih =>
    cases e with
    | hole => rfl
    | _ => exact ih

namespace HoleSite

theorem mergeAfter_visits {last : Span} {as : List HoleSite} (h : (last :: as.map (·.span)).Pairwise (· ≠ ·)) :
    mergeAfter last (as.flatMap visits) = as := by
  induction as generalizing last with
  | nil => rfl
  | cons a as ih =>
    obtain ⟨hlast,has⟩ := List.pairwise_cons.1 h
    have ha : a.span ≠ last := (hlast a.span List.mem_cons_self).symm
    have hrest := ih has
    cases hg : a.given <;> simp [visits,hg,mergeAfter,ha,hrest]

/-- Dropping neighbours with one span leaves each hole once, with its type. -/
theorem merge_visits {as : List HoleSite} (h : (as.map (·.span)).Pairwise (· ≠ ·)) :
    merge (as.flatMap visits) = as := by
  cases as with
  | nil => rfl
  | cons a as =>
    have hrest := mergeAfter_visits h
    cases hg : a.given <;> simp [visits,hg,merge,mergeAfter,hrest]

end HoleSite

namespace Module.IsWritten

variable {key : Nat} {m : Module}

theorem sites_ordered (h : m.IsWritten key) :
    (m.equations.flatMap fun e => e.rhs.sites none).Pairwise fun a b => a.span.Precedes b.span := by
  rw [List.pairwise_flatMap]
  refine ⟨fun e he => (h.placed e he).rhs.sites_ordered none,?_⟩
  refine h.apart.imp_of_mem fun {e e'} he he' hle a ha b hb => ?_
  have hwithin := (h.placed e he).rhs.sites_within none a ha
  exact hwithin.precedes ((h.placed e' he').rhs.sites_within none b hb) hle

theorem holes_eq (h : m.IsWritten key) : m.holes = m.equations.flatMap fun e => e.rhs.sites none := by
  have hvisits : m.nodes.filterMap Node.holeSite? =
      (m.equations.flatMap fun e => e.rhs.sites none).flatMap HoleSite.visits := by
    rw [nodes,List.filterMap_flatMap,List.flatMap_assoc]
    congr 1
    funext e
    exact (Node.filterMap_nodes_equation rfl fun _ => rfl).trans e.rhs.filterMap_nodes
  rw [holes,hvisits]
  exact HoleSite.merge_visits (List.pairwise_map.2 (h.sites_ordered.imp fun hab => hab.ne))

theorem holes_ordered (h : m.IsWritten key) : m.holes.Pairwise fun a b => a.span.Precedes b.span :=
  h.holes_eq ▸ h.sites_ordered

end Module.IsWritten

namespace Expr

theorem map_sites (e : Expr) (given : Option Ty) :
    (e.sites given).map (·.span) = e.nodes.filterMap Node.holeSpan? := by
  induction e generalizing given with
  | var | hole | number => rfl
  | app f a s ihf iha =>
    rw [nodes,List.filterMap_cons_none rfl,List.filterMap_append,sites,List.map_append,ihf,iha]
  | binary op l r s ihl ihr =>
    rw [nodes,List.filterMap_cons_none rfl,List.filterMap_append,sites,List.map_append,ihl,ihr]
  | lam xs b s ih | ann b t s ih => rw [nodes,List.filterMap_cons_none rfl,sites,ih]

theorem annotated_of_mem_sites {e : Expr} {given : Option Ty} {a : HoleSite} {t : Ty} (ha : a ∈ e.sites given)
    (ht : a.given = some t) : (given = some t ∧ ∃ x, e = .hole x a.span) ∨
      ∃ x sp, Node.expr (.ann (.hole x a.span) t sp) ∈ e.nodes := by
  induction e generalizing given with
  | var | number => cases ha
  | hole x s =>
    cases List.mem_singleton.1 ha
    exact .inl ⟨ht,x,rfl⟩
  | app f b s ihf ihb =>
    right
    rcases List.mem_append.1 ha with ha | ha
    · obtain ⟨x,sp,hn⟩ := (ihf ha).resolve_left nofun
      exact ⟨x,sp,by simp [nodes,hn]⟩
    · obtain ⟨x,sp,hn⟩ := (ihb ha).resolve_left nofun
      exact ⟨x,sp,by simp [nodes,hn]⟩
  | binary op l r s ihl ihr =>
    right
    rcases List.mem_append.1 ha with ha | ha
    · obtain ⟨x,sp,hn⟩ := (ihl ha).resolve_left nofun
      exact ⟨x,sp,by simp [nodes,hn]⟩
    · obtain ⟨x,sp,hn⟩ := (ihr ha).resolve_left nofun
      exact ⟨x,sp,by simp [nodes,hn]⟩
  | lam xs b s ih =>
    obtain ⟨x,sp,hn⟩ := (ih ha).resolve_left nofun
    exact .inr ⟨x,sp,by simp [nodes,hn]⟩
  | ann b t' s ih =>
    right
    rcases ih ha with ⟨ht',x,rfl⟩ | ⟨x,sp,hn⟩
    · cases ht'
      exact ⟨x,s,by simp [nodes]⟩
    · exact ⟨x,sp,by simp [nodes,hn]⟩

theorem mem_sites_of_annotated {e : Expr} {x : Name} {t : Ty} {s sp : Span}
    (h : Node.expr (.ann (.hole x s) t sp) ∈ e.nodes) (given : Option Ty) : ⟨s,some t⟩ ∈ e.sites given := by
  induction e generalizing given with
  | var | hole | number => simp [nodes] at h
  | app f a _ ihf iha =>
    simp only [nodes,List.mem_cons,Node.expr.injEq,reduceCtorEq,false_or,List.mem_append] at h
    exact List.mem_append.2 (h.imp (ihf · none) (iha · none))
  | binary _ l r _ ihl ihr =>
    simp only [nodes,List.mem_cons,Node.expr.injEq,reduceCtorEq,false_or,List.mem_append] at h
    exact List.mem_append.2 (h.imp (ihl · none) (ihr · none))
  | lam _ b _ ih =>
    simp only [nodes,List.mem_cons,Node.expr.injEq,reduceCtorEq,false_or] at h
    exact ih h none
  | ann b t' _ ih =>
    rcases List.mem_cons.1 h with h | h
    · cases h
      exact List.mem_singleton_self _
    · exact ih h (some t')

end Expr

namespace Module.IsWritten

variable {key : Nat} {m : Module}

/-- A hole is listed with a type exactly when that type is written right next to it. -/
theorem given_iff (h : m.IsWritten key) {a : HoleSite} (ha : a ∈ m.holes) (t : Ty) :
    a.given = some t ↔ ∃ x sp, Node.expr (.ann (.hole x a.span) t sp) ∈ m.nodes := by
  constructor
  · intro ht
    rw [h.holes_eq] at ha
    obtain ⟨e,he,ha⟩ := List.mem_flatMap.1 ha
    obtain ⟨x,sp,hn⟩ := (Expr.annotated_of_mem_sites ha ht).resolve_left nofun
    exact ⟨x,sp,List.mem_flatMap.2 ⟨e,he,by simp [Equation.nodes,hn]⟩⟩
  · rintro ⟨x,sp,hn⟩
    obtain ⟨e,he,hn⟩ := List.mem_flatMap.1 hn
    have hsite : ⟨a.span,some t⟩ ∈ m.holes := by
      rw [h.holes_eq]
      exact List.mem_flatMap.2 ⟨e,he,Expr.mem_sites_of_annotated (Node.expr_mem_nodes_equation.1 hn) none⟩
    have hnodup : (m.holes.map (·.span)).Nodup := List.pairwise_map.2 (h.holes_ordered.imp fun hab => hab.ne)
    rw [List.inj_on_of_nodup_map hnodup ha hsite rfl]

theorem map_holes (h : m.IsWritten key) : m.holes.map (·.span) = m.nodes.filterMap Node.holeSpan? := by
  rw [h.holes_eq,List.map_flatMap,nodes,List.filterMap_flatMap]
  congr 1
  funext e
  exact (e.rhs.map_sites none).trans (Node.filterMap_nodes_equation rfl fun _ => rfl).symm

variable {e : Equation} {x : Name} {sp : Span}

theorem contains_of_mem_rhs (h : m.IsWritten key) (he : e ∈ m.equations) (hn : .expr (.hole x sp) ∈ e.rhs.nodes) :
    e.span.contains sp = true ∧ sp.start < sp.stop ∧ isHoleName x = true := by
  have hplaced := h.placed e he
  have hsite : sp ∈ (e.rhs.sites none).map (·.span) := by
    rw [e.rhs.map_sites none]
    exact List.mem_filterMap.2 ⟨_,hn,rfl⟩
  obtain ⟨a,ha,rfl⟩ := List.mem_map.1 hsite
  have hwithin := hplaced.rhs.sites_within none a ha
  refine ⟨Span.Within.contains (hplaced.source ▸ hwithin),hwithin.nonempty,?_⟩
  obtain ⟨lo,hi,-,hx⟩ := Node.forall_nodes (fun _ => Node.Nested.children) (.expr e.rhs) ⟨_,_,hplaced.rhs⟩ _ hn
  exact hx

theorem enclosingEquation?_of_mem_rhs (h : m.IsWritten key) (he : e ∈ m.equations)
    (hn : .expr (.hole x sp) ∈ e.rhs.nodes) : m.enclosingEquation? sp = some e := by
  obtain ⟨hc,hlt,-⟩ := h.contains_of_mem_rhs he hn
  exact find?_eq_some_of_unique he hc fun e' he' hc' => h.eq_of_contains he he' hlt hc hc'

/-- Only an equation that is a hole as a whole is found at its top. -/
theorem topHoleEquation?_of_mem_rhs (h : m.IsWritten key) (he : e ∈ m.equations)
    (hn : .expr (.hole x sp) ∈ e.rhs.nodes) :
    (e.rhs = .hole x sp → m.topHoleEquation? sp = some e) ∧
      (e.rhs ≠ .hole x sp → m.topHoleEquation? sp = none) := by
  obtain ⟨hc,hlt,hx⟩ := h.contains_of_mem_rhs he hn
  constructor
  · intro hr
    refine find?_eq_some_of_unique he (by simp [hc,hr,hx]) fun e' he' hc' => ?_
    exact h.eq_of_contains he he' hlt hc (Bool.and_eq_true_iff.1 hc').1
  · intro hr
    refine List.find?_eq_none.2 fun e' he' hfound => hr ?_
    obtain ⟨hc',htop⟩ := Bool.and_eq_true_iff.1 hfound
    cases h.eq_of_contains he he' hlt hc hc'
    cases hrhs : e.rhs with
    | hole y s =>
      rw [hrhs] at hn
      cases List.mem_singleton.1 hn
      rfl
    | _ =>
      rw [hrhs] at htop
      cases htop

end Module.IsWritten

/-- In a module that has been read each part stands within what is around it and behind what is before it, so that
every hole is listed once, in order and with the type right next to it, and is found in its own equation. -/
theorem holes_listed {s : Source} {m : Module} {i : Input} (h : Parser.wholeModule.runOn s = .ok (m,i)) :
    (∀ n ∈ m.nodes, n.Arranged) ∧ (m.equations.Pairwise fun a b => a.span.Precedes b.span) ∧
    m.holes.map (·.span) = m.nodes.filterMap Node.holeSpan? ∧
    (m.holes.Pairwise fun a b => a.span.Precedes b.span) ∧
    (∀ a ∈ m.holes, ∀ t, a.given = some t ↔ ∃ x sp, Node.expr (.ann (.hole x a.span) t sp) ∈ m.nodes) ∧
    ∀ a ∈ m.holes, ∃ e ∈ m.equations, ∃ x, .expr (.hole x a.span) ∈ e.rhs.nodes ∧
      m.enclosingEquation? a.span = some e ∧ (e.rhs = .hole x a.span → m.topHoleEquation? a.span = some e) ∧
      (e.rhs ≠ .hole x a.span → m.topHoleEquation? a.span = none) := by
  have hm := Parser.isWritten_of_runOn h
  have hequations : m.equations.Pairwise fun a b => a.span.Precedes b.span :=
    hm.apart.imp_of_mem fun {e e'} he _ hle => ⟨Node.Nested.nonempty (n := .equation e) (hm.placed e he),hle⟩
  refine ⟨hm.arranged,hequations,hm.map_holes,hm.holes_ordered,fun a ha t => hm.given_iff ha t,fun a ha => ?_⟩
  have hspan : a.span ∈ m.nodes.filterMap Node.holeSpan? := hm.map_holes ▸ List.mem_map_of_mem ha
  obtain ⟨n,hn,hs⟩ := List.mem_filterMap.1 hspan
  obtain ⟨e,he,hn⟩ := List.mem_flatMap.1 hn
  obtain ⟨x,rfl⟩ := Node.holeSpan?_eq_some hs
  have hn := Node.expr_mem_nodes_equation.1 hn
  exact ⟨e,he,x,hn,hm.enclosingEquation?_of_mem_rhs he hn,hm.topHoleEquation?_of_mem_rhs he hn⟩

def Source.annotated : Source := ⟨0,"annotated","f (C x) = g x (_ : A)\ng = _h\n"⟩

theorem Source.tokens_annotated : Source.annotated.tokens =
    ([⟨.ident,"f",0,1,true⟩,⟨.symbol,"(",2,3,false⟩,⟨.ident,"C",3,4,false⟩,⟨.ident,"x",5,6,false⟩,
      ⟨.symbol,")",6,7,false⟩,⟨.symbol,"=",8,9,false⟩,⟨.ident,"g",10,11,false⟩,⟨.ident,"x",12,13,false⟩,
      ⟨.symbol,"(",14,15,false⟩,⟨.ident,"_",15,16,false⟩,⟨.symbol,":",17,18,false⟩,⟨.ident,"A",19,20,false⟩,
      ⟨.symbol,")",20,21,false⟩,⟨.ident,"g",22,23,true⟩,⟨.symbol,"=",24,25,false⟩,
      ⟨.ident,"_h",26,28,false⟩],.complete) := by
  decide +kernel

theorem holes_listed_annotated :
    ∃ m i, Parser.wholeModule.runOn .annotated = .ok (m,i) ∧
      m.holes = [⟨⟨0,15,16⟩,some (.const "A")⟩,⟨⟨0,26,28⟩,none⟩] ∧ (∀ n ∈ m.nodes, n.Arranged) ∧
      (∃ x sp, Node.expr (.ann (.hole x ⟨0,15,16⟩) (.const "A") sp) ∈ m.nodes) ∧
      ∀ a ∈ m.holes, ∃ e ∈ m.equations, m.enclosingEquation? a.span = some e := by
  obtain ⟨m,i,hm,hholes⟩ : ∃ m i, Parser.wholeModule.runOn .annotated = .ok (m,i) ∧
      m.holes = [⟨⟨0,15,16⟩,some (.const "A")⟩,⟨⟨0,26,28⟩,none⟩] := by
    rw [Parser.runOn,Source.tokens_annotated]
    exact ⟨_,_,rfl,rfl⟩
  obtain ⟨harranged,-,-,-,hgiven,hfound⟩ := holes_listed hm
  have hfirst : ⟨⟨0,15,16⟩,some (.const "A")⟩ ∈ m.holes := by simp [hholes]
  refine ⟨m,i,hm,hholes,harranged,(hgiven _ hfirst _).1 rfl,fun a ha => ?_⟩
  obtain ⟨e,he,-,-,henclosing,-⟩ := hfound a ha
  exact ⟨e,he,henclosing⟩

end TypedHole
