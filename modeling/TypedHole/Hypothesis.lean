import TypedHole.Ty

/-! What is known at a hole.
A hypothesis maps names to types. Each entry also records where it comes from, which guides naming
and search but never decides whether a term is well typed. -/
namespace TypedHole

inductive Provenance
  /-- The pattern at a position of a top-level equation. -/
  | argument (function : Name) (index : Nat)
  | method (cls : Name) (instanceType : Ty)
  /-- The definition whose right-hand side is being written. -/
  | recursive
  /-- A field bound by a case split on a scrutinee, if that has a name. -/
  | field (scrutinee : Option Name) (ctor : Name) (index : Nat)
  | global
  /-- Bound by a step of a tactic, or of unknown origin. -/
  | user
  deriving DecidableEq

namespace Provenance

/-- Bound inside the definition being written, so that a case split may target it. -/
def isLocal : Provenance → Bool
  | argument .. | field .. | user => true
  | method .. | recursive | global => false

def text : Provenance → String
  | argument f i => s!"argument {i} of {f}"
  | method c t => s!"method of {c} ({t.text})"
  | recursive => "recursive"
  | field (some s) c i => s!"field {i} of {c} in {s}"
  | field none c i => s!"field {i} of {c}"
  | global => "global"
  | user => "user"

end Provenance

structure Entry where
  name : Name
  ty : Ty
  provenance : Provenance
  deriving DecidableEq

def Entry.text (e : Entry) : String := s!"{e.name} : {e.ty.text} [{e.provenance.text}]"

/-- Entries under distinct names, in the order of the names. -/
structure Hypothesis where
  entries : List Entry
  sorted : entries.Pairwise fun a b => a.name < b.name

namespace Hypothesis

instance : DecidableEq Hypothesis := fun a b =>
  decidable_of_iff (a.entries = b.entries) (by cases a; cases b; simp)

def empty : Hypothesis := ⟨[],.nil⟩

def place (e : Entry) : List Entry → List Entry
  | [] => [e]
  | a :: as => if e.name < a.name then e :: a :: as
    else if a.name < e.name then a :: place e as
    else e :: as

theorem name_eq_of_not_lt {x y : Name} (h : ¬ x < y) (h' : ¬ y < x) : x = y :=
  String.le_antisymm (String.not_lt.1 h') (String.not_lt.1 h)

theorem mem_place {e a : Entry} {as : List Entry} (h : a ∈ place e as) : a = e ∨ a ∈ as := by
  induction as with
  | nil => simpa [place] using h
  | cons b bs ih =>
    simp only [place] at h
    split at h
    · simpa using h
    split at h
    · rcases List.mem_cons.1 h with h | h
      · simp [h]
      · rcases ih h with h | h <;> simp [h]
    · rcases List.mem_cons.1 h with h | h <;> simp [h]

theorem sorted_place (e : Entry) {as : List Entry} (h : as.Pairwise fun a b => a.name < b.name) :
    (place e as).Pairwise fun a b => a.name < b.name := by
  induction as with
  | nil => simp [place]
  | cons a as ih =>
    obtain ⟨ha,has⟩ := List.pairwise_cons.1 h
    simp only [place]
    split
    next lt =>
      refine List.pairwise_cons.2 ⟨fun b hb => ?_,h⟩
      rcases List.mem_cons.1 hb with rfl | hb
      · exact lt
      · exact String.lt_trans lt (ha b hb)
    next nlt =>
      split
      next lt =>
        refine List.pairwise_cons.2 ⟨fun b hb => ?_,ih has⟩
        rcases mem_place hb with rfl | hb
        · exact lt
        · exact ha b hb
      next nlt' =>
        refine List.pairwise_cons.2 ⟨fun b hb => ?_,has⟩
        rw [name_eq_of_not_lt nlt nlt']
        exact ha b hb

/-- Adds an entry; it replaces one of the same name. -/
def insert (h : Hypothesis) (e : Entry) : Hypothesis := ⟨place e h.entries,sorted_place e h.sorted⟩

def extend (h : Hypothesis) (es : List Entry) : Hypothesis := es.foldl insert h

def ofList (es : List Entry) : Hypothesis := empty.extend es

def find? (h : Hypothesis) (name : Name) : Option Entry := h.entries.find? (·.name == name)

def contains (h : Hypothesis) (name : Name) : Bool := h.entries.any (·.name == name)

def names (h : Hypothesis) : List Name := h.entries.map (·.name)

/-- Both hypotheses together; under a common name the entry of `other` counts. -/
def union (h other : Hypothesis) : Hypothesis := h.extend other.entries

/-- Gives entries another provenance where one is listed, the first one for a name. -/
def withProvenance (h : Hypothesis) (ps : List (Name × Provenance)) : Hypothesis where
  entries := h.entries.map fun e => { e with provenance := (ps.lookup e.name).getD e.provenance }
  sorted := List.pairwise_map.2 h.sorted

def findProvenance? (h : Hypothesis) (p : Provenance → Bool) : Option Entry :=
  h.entries.find? (p ·.provenance)

def text (h : Hypothesis) : String := "\n".intercalate (h.entries.map Entry.text)

end Hypothesis

structure NameSet where
  names : List Name
  sorted : names.Pairwise (· < ·)

namespace NameSet

def empty : NameSet := ⟨[],.nil⟩

def place (x : Name) : List Name → List Name
  | [] => [x]
  | y :: ys => if x < y then x :: y :: ys else if y < x then y :: place x ys else y :: ys

theorem mem_place {x y : Name} {ys : List Name} (h : y ∈ place x ys) : y = x ∨ y ∈ ys := by
  induction ys with
  | nil => simpa [place] using h
  | cons z zs ih =>
    simp only [place] at h
    split at h
    · simpa using h
    split at h
    · rcases List.mem_cons.1 h with h | h
      · simp [h]
      · rcases ih h with h | h <;> simp [h]
    · exact .inr h

theorem sorted_place (x : Name) {ys : List Name} (h : ys.Pairwise (· < ·)) :
    (place x ys).Pairwise (· < ·) := by
  induction ys with
  | nil => simp [place]
  | cons y ys ih =>
    obtain ⟨hy,hys⟩ := List.pairwise_cons.1 h
    simp only [place]
    split
    next lt =>
      refine List.pairwise_cons.2 ⟨fun z hz => ?_,h⟩
      rcases List.mem_cons.1 hz with rfl | hz
      · exact lt
      · exact String.lt_trans lt (hy z hz)
    next nlt =>
      split
      next lt =>
        refine List.pairwise_cons.2 ⟨fun z hz => ?_,ih hys⟩
        rcases mem_place hz with rfl | hz
        · exact lt
        · exact hy z hz
      next => exact h

def insert (s : NameSet) (x : Name) : NameSet := ⟨place x s.names,sorted_place x s.sorted⟩

def contains (s : NameSet) (x : Name) : Bool := s.names.contains x

def ofList (xs : List Name) : NameSet := xs.foldl insert empty

end NameSet
end TypedHole
