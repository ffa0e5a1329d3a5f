import TypedHole.Proofs.Homomorphism

/-! What is known at a hole, name by name.
Three passes overwrite each other: the bindings in scope are entered one after the other, those that are parameters are
marked with their positions, and all of them are entered over the methods. Main statements: the passes over a table
that is ordered by names, with marks that replace each other, make the entries of the judgement
(`EntryTable.atHole_eq`), and these are under each name the last binding or else the method
(`HoleFacts.judgement_knows`). -/
namespace TypedHole

def Equation.IsHoleAt (e : Equation) (sp : Span) : Prop :=
  e.span.contains sp = true ∧ ∃ x, isHoleName x = true ∧ e.rhs = .hole x sp

/-- The first equation whose whole right-hand side is the hole at a span. -/
def Module.TopHole (m : Module) (sp : Span) (e : Equation) : Prop :=
  e.IsHoleAt sp ∧ ∃ before after, m.equations = before ++ e :: after ∧ ∀ e' ∈ before, ¬ e'.IsHoleAt sp

/-- The last one of some entries that has a name. -/
def Entry.LastNamed (es : List Entry) (x : Name) (b : Entry) : Prop :=
  b.name = x ∧ ∃ outer inner, es = outer ++ b :: inner ∧ x ∉ inner.map (·.name)

/-- What is known under a name at a hole: the last binding, where it is a parameter of the equation with that
provenance, and the method of the name where nothing is bound. -/
inductive Entry.KnownAt (m : Module) (sp : Span) (bindings : List Entry) (methods : Hypothesis) (x : Name) :
    Entry → Prop
  | argument {b : Entry} {e : Equation} {i : Nat} (last : LastNamed bindings x b) (top : m.TopHole sp e)
      (position : Pat.LastAt e.pats x i) : KnownAt m sp bindings methods x ⟨x,b.ty,.argument e.name i⟩
  | binding {b : Entry} (last : LastNamed bindings x b)
      (other : ∀ e i, m.TopHole sp e → ¬ Pat.LastAt e.pats x i) : KnownAt m sp bindings methods x b
  | method {a : Entry} (unbound : x ∉ bindings.map (·.name)) (known : methods.find? x = some a) :
      KnownAt m sp bindings methods x a

/-! The equation of a hole. -/

theorem Pat.lookup_iff {α : Type} {mark : Nat → α} {ps : List Pat} {x : Name} {a : α} :
    (lastOfEach (marks mark ps)).lookup x = some a ↔ ∃ i, a = mark i ∧ LastAt ps x i := by
  refine ⟨lastAt_of_lookup,?_⟩
  rintro ⟨i,rfl,hi⟩
  obtain ⟨s,hs⟩ := hi.1
  have hmem := mem_marks mark (List.mem_of_getElem? hs)
  obtain ⟨a,ha⟩ := Option.isSome_iff_exists.1 (lookup_lastOfEach_isSome hmem)
  obtain ⟨k,rfl,hk⟩ := lastAt_of_lookup ha
  rw [ha,hk.unique hi]

namespace Module

variable {m : Module} {sp : Span} {e : Equation} {x : Name} {q : Provenance}

theorem topHoleEquation?_eq_some_iff : m.topHoleEquation? sp = some e ↔ m.TopHole sp e := by
  obtain ⟨test,htest,hfind⟩ : ∃ test : Equation → Bool, (∀ e, test e = true ↔ e.IsHoleAt sp) ∧
      m.topHoleEquation? sp = m.equations.find? test := by
    refine ⟨_,fun e => ?_,rfl⟩
    rw [Equation.IsHoleAt,Bool.and_eq_true]
    cases e.rhs <;> simp
  rw [hfind,List.find?_eq_some_iff_append,TopHole]
  simp only [Bool.not_eq_true',← Bool.not_eq_true,htest]

theorem lookup_argumentsAt_iff : (m.argumentsAt sp).lookup x = some q ↔
    ∃ e i, m.TopHole sp e ∧ Pat.LastAt e.pats x i ∧ q = .argument e.name i := by
  cases htop : m.topHoleEquation? sp with
  | none =>
    rw [argumentsAt,htop]
    constructor
    · intro h
      cases h
    · rintro ⟨e,i,he,-⟩
      cases htop.symm.trans (topHoleEquation?_eq_some_iff.2 he)
  | some e =>
    rw [argumentsAt,htop]
    change (lastOfEach (Pat.marks (.argument e.name) e.pats)).lookup x = some q ↔ _
    rw [Pat.lookup_iff]
    constructor
    · rintro ⟨i,rfl,hi⟩
      exact ⟨e,i,topHoleEquation?_eq_some_iff.1 htop,hi,rfl⟩
    · rintro ⟨e',i,he',hi,rfl⟩
      cases htop.symm.trans (topHoleEquation?_eq_some_iff.2 he')
      exact ⟨i,rfl,hi⟩

end Module

/-! Tables. -/

/-- Entries under names, in the order of these names. -/
abbrev EntryTable : Type := List (Name × Entry)

def Hypothesis.table (h : Hypothesis) : EntryTable := h.entries.map fun e => (e.name,e)

theorem Hypothesis.map_table (h : Hypothesis) : h.table.map (·.2) = h.entries := by
  rw [table,List.map_map]
  exact List.map_id _

def addMark (marks : Name → Option Provenance) (p : Name × Provenance) : Name → Option Provenance :=
  Function.update marks p.1 (some p.2)

/-- Marks for names, of which later ones replace earlier ones. -/
def collectMarks (ps : List (Name × Provenance)) : Name → Option Provenance := ps.foldl addMark fun _ => none

def Module.marksAt (m : Module) (sp : Span) : Name → Option Provenance :=
  match m.topHoleEquation? sp with
  | some e => collectMarks (Pat.marks (.argument e.name) e.pats)
  | none => collectMarks []

namespace EntryTable

def put (x : Name) (e : Entry) : EntryTable → EntryTable
  | [] => [(x,e)]
  | (y,a) :: t => if x < y then (x,e) :: (y,a) :: t else if y < x then (y,a) :: put x e t else (x,e) :: t

def enter (t : EntryTable) (es : List Entry) : EntryTable := es.foldl (fun t e => t.put e.name e) t

/-- Gives what stands under marked names the marks as provenance. -/
def splice (t : EntryTable) (marks : Name → Option Provenance) : EntryTable :=
  t.map fun p => (p.1,{ p.2 with provenance := (marks p.1).getD p.2.provenance })

def atHole (m : Module) (sp : Span) (bindings : List Entry) (methods : Hypothesis) : EntryTable :=
  methods.table.enter ((splice (enter [] bindings) (m.marksAt sp)).map (·.2))

theorem put_table (h : Hypothesis) (e : Entry) : h.table.put e.name e = (h.insert e).table := by
  obtain ⟨es,hes⟩ := h
  simp only [Hypothesis.table,Hypothesis.insert]
  clear hes
  induction es with
  | nil => rfl
  | cons a es ih =>
    rw [List.map_cons,put,ih,Hypothesis.place]
    split
    · rfl
    · split <;> rfl

theorem enter_table (h : Hypothesis) (es : List Entry) : h.table.enter es = (h.extend es).table := by
  induction es generalizing h with
  | nil => rfl
  | cons e es ih =>
    rw [enter,List.foldl_cons,put_table]
    exact ih (h.insert e)

theorem splice_table (h : Hypothesis) {marks : Name → Option Provenance} {ps : List (Name × Provenance)}
    (hmarks : ∀ x, marks x = ps.lookup x) : splice h.table marks = (h.withProvenance ps).table := by
  simp only [splice,Hypothesis.table,Hypothesis.withProvenance,List.map_map,Function.comp_def,hmarks]

theorem lookup_lastOfEach_of_not_mem {ps : List (Name × Provenance)} {x : Name} (h : x ∉ ps.map (·.1)) :
    (lastOfEach ps).lookup x = none := by
  induction ps with
  | nil => rfl
  | cons p ps ih =>
    rw [List.map_cons,List.mem_cons,not_or] at h
    rw [lastOfEach]
    split
    · exact ih h.2
    · rw [List.lookup_cons,beq_false_of_ne h.1]
      exact ih h.2

theorem foldl_addMark (ps : List (Name × Provenance)) (marks : Name → Option Provenance) (x : Name) :
    ps.foldl addMark marks x = ((lastOfEach ps).lookup x).or (marks x) := by
  induction ps generalizing marks with
  | nil => rfl
  | cons p ps ih =>
    have hany : ps.any (·.1 == p.1) = true ↔ p.1 ∈ ps.map (·.1) := by simp
    rw [List.foldl_cons,ih,lastOfEach,addMark]
    by_cases hx : x = p.1
    · subst hx
      rw [Function.update_self]
      split
      next h =>
        obtain ⟨q,hq⟩ := Option.isSome_iff_exists.1 (lookup_lastOfEach_isSome (hany.1 h))
        rw [hq]
        rfl
      next h =>
        rw [lookup_lastOfEach_of_not_mem (mt hany.2 h),List.lookup_cons,BEq.rfl]
        rfl
    · rw [Function.update_of_ne hx]
      split
      · rfl
      · rw [List.lookup_cons,beq_false_of_ne hx]

theorem collectMarks_eq (ps : List (Name × Provenance)) (x : Name) :
    collectMarks ps x = (lastOfEach ps).lookup x :=
  (foldl_addMark ps _ x).trans (Option.or_none ..)

theorem marksAt_eq (m : Module) (sp : Span) (x : Name) : m.marksAt sp x = (m.argumentsAt sp).lookup x := by
  rw [Module.marksAt,Module.argumentsAt]
  cases m.topHoleEquation? sp with
  | none => rfl
  | some e => exact collectMarks_eq (Pat.marks (.argument e.name) e.pats) x

/-- The passes over tables make what is known at a hole, under the names of the entries. -/
theorem atHole_eq (m : Module) (sp : Span) (bindings : List Entry) (methods : Hypothesis) :
    atHole m sp bindings methods =
      (methods.union ((Hypothesis.ofList bindings).withProvenance (m.argumentsAt sp))).table := by
  have hlocal : enter [] bindings = (Hypothesis.ofList bindings).table := enter_table .empty bindings
  rw [atHole,hlocal,splice_table _ (marksAt_eq m sp),Hypothesis.map_table,enter_table]
  rfl

end EntryTable

/-! Names that are bound more than once. -/

namespace Entry

variable {es : List Entry} {x : Name} {b : Entry}

theorem exists_lastNamed (h : x ∈ es.map (·.name)) : ∃ b, LastNamed es x b := by
  induction es with
  | nil => cases h
  | cons e es ih =>
    by_cases hes : x ∈ es.map (·.name)
    · obtain ⟨b,hb,outer,inner,rfl,hx⟩ := ih hes
      exact ⟨b,hb,e :: outer,inner,rfl,hx⟩
    · exact ⟨e,((List.mem_cons.1 h).resolve_right hes).symm,[],es,rfl,hes⟩

theorem LastNamed.mem (hb : LastNamed es x b) : x ∈ es.map (·.name) := by
  obtain ⟨rfl,outer,inner,rfl,-⟩ := hb
  exact List.mem_map_of_mem (List.mem_append_cons_self ..)

theorem LastNamed.find?_ofList (hb : LastNamed es x b) : (Hypothesis.ofList es).find? x = some b := by
  obtain ⟨rfl,outer,inner,rfl,hx⟩ := hb
  rw [Hypothesis.ofList,Hypothesis.extend_append]
  refine (Hypothesis.find?_extend_of_not_mem (h := (Hypothesis.ofList outer).insert b) hx).trans ?_
  rw [Hypothesis.find?,Hypothesis.insert,Hypothesis.find?_place,if_pos rfl]

end Entry

namespace Hypothesis

variable {h methods : Hypothesis} {x : Name}

theorem contains_iff : h.contains x = true ↔ ∃ a, h.find? x = some a := by
  rw [contains,find?,← Option.isSome_iff_exists,List.find?_isSome,List.any_eq_true]

theorem mem_names_ofList {es : List Entry} (hx : x ∈ (ofList es).names) : x ∈ es.map (·.name) := by
  obtain ⟨e,he,rfl⟩ := List.mem_map.1 hx
  exact (mem_extend he).elim nofun List.mem_map_of_mem

theorem find?_union_of_unbound {es : List Entry} (hx : x ∉ es.map (·.name)) (ps : List (Name × Provenance)) :
    (methods.union ((ofList es).withProvenance ps)).find? x = methods.find? x := by
  have hnames : ((ofList es).withProvenance ps).names = (ofList es).names := by
    simp only [names,withProvenance,List.map_map,Function.comp_def]
  refine find?_extend_of_not_mem fun h => hx (mem_names_ofList ?_)
  rw [← hnames]
  exact h

end Hypothesis

namespace Entry.KnownAt

variable {m : Module} {sp : Span} {bindings : List Entry} {methods : Hypothesis} {x : Name} {a : Entry}

theorem find?_eq (h : KnownAt m sp bindings methods x a) :
    (methods.union ((Hypothesis.ofList bindings).withProvenance (m.argumentsAt sp))).find? x = some a := by
  cases h with
  | @argument b e i last top position =>
    have hmark : (m.argumentsAt sp).lookup b.name = some (.argument e.name i) := by
      rw [last.1]
      exact Module.lookup_argumentsAt_iff.2 ⟨e,i,top,position,rfl⟩
    rw [Hypothesis.find?_union_withProvenance methods _ last.find?_ofList,hmark,last.1]
    rfl
  | binding last other =>
    have hmark : (m.argumentsAt sp).lookup a.name = none := by
      rw [last.1,Option.eq_none_iff_forall_ne_some]
      intro q hq
      obtain ⟨e,i,htop,hi,-⟩ := Module.lookup_argumentsAt_iff.1 hq
      exact other e i htop hi
    rw [Hypothesis.find?_union_withProvenance methods _ last.find?_ofList,hmark]
    rfl
  | method unbound known => exact (Hypothesis.find?_union_of_unbound unbound _).trans known

theorem exists_of_bound (hx : x ∈ bindings.map (·.name)) : ∃ a, KnownAt m sp bindings methods x a := by
  obtain ⟨b,hb⟩ := Entry.exists_lastNamed hx
  by_cases hparam : ∃ e i, m.TopHole sp e ∧ Pat.LastAt e.pats x i
  · obtain ⟨e,i,htop,hi⟩ := hparam
    exact ⟨_,.argument hb htop hi⟩
  · exact ⟨b,.binding hb fun e i htop hi => hparam ⟨e,i,htop,hi⟩⟩

theorem exists_iff : (∃ a, KnownAt m sp bindings methods x a) ↔
    x ∈ bindings.map (·.name) ∨ methods.contains x = true := by
  constructor
  · rintro ⟨a,h⟩
    cases h with
    | argument last => exact .inl last.mem
    | binding last => exact .inl last.mem
    | method unbound known => exact .inr (Hypothesis.contains_iff.2 ⟨a,known⟩)
  · intro h
    by_cases hx : x ∈ bindings.map (·.name)
    · exact exists_of_bound hx
    · obtain ⟨a,ha⟩ := Hypothesis.contains_iff.1 (h.resolve_left hx)
      exact ⟨a,.method hx ha⟩

theorem find?_iff :
    (methods.union ((Hypothesis.ofList bindings).withProvenance (m.argumentsAt sp))).find? x = some a ↔
      KnownAt m sp bindings methods x a := by
  refine ⟨fun h => ?_,find?_eq⟩
  by_cases hx : x ∈ bindings.map (·.name)
  -- something is known under a bound name, and a hypothesis has one entry under a name
  · obtain ⟨b,hb⟩ : ∃ b, KnownAt m sp bindings methods x b := exists_of_bound hx
    cases h.symm.trans hb.find?_eq
    exact hb
  · rw [Hypothesis.find?_union_of_unbound hx] at h
    exact .method hx h

end Entry.KnownAt

/-- The judgement at a hole whose facts are all there. It knows the names of the bindings and of the methods: under the
name of a binding the last one, which has its position as provenance where it is a parameter of the equation whose
right-hand side is the hole, and under any other name the method. The table has the entries in strict order of the
names, each one under its own. -/
theorem HoleFacts.judgement_knows (sp : Span) (goal : Ty) (bindings : List Entry) (m : Module) (methods : Hypothesis)
    (types : TypeTable) :
    ∃ j c, (⟨sp,some goal,some bindings,some m,some methods,some types⟩ : HoleFacts).judgement? = some (j,c) ∧
      (∀ x, j.hypothesis.contains x = true ↔ x ∈ bindings.map (·.name) ∨ methods.contains x = true) ∧
      (∀ x a, j.hypothesis.find? x = some a ↔ Entry.KnownAt m sp bindings methods x a) ∧
      (EntryTable.atHole m sp bindings methods).map (·.2) = j.hypothesis.entries ∧
      (EntryTable.atHole m sp bindings methods).Pairwise (·.1 < ·.1) ∧
      ∀ p ∈ EntryTable.atHole m sp bindings methods, p.1 = p.2.name := by
  refine ⟨_,_,rfl,fun x => ?contains,fun x a => Entry.KnownAt.find?_iff,?entries,?order,?keys⟩
  case contains =>
    rw [Hypothesis.contains_iff]
    exact (exists_congr fun a => Entry.KnownAt.find?_iff).trans Entry.KnownAt.exists_iff
  case entries =>
    rw [EntryTable.atHole_eq]
    exact Hypothesis.map_table _
  case order =>
    rw [EntryTable.atHole_eq]
    exact List.pairwise_map.2 (Hypothesis.sorted _)
  case keys =>
    rw [EntryTable.atHole_eq]
    intro p hp
    obtain ⟨e,-,rfl⟩ := List.mem_map.1 hp
    rfl

end TypedHole
