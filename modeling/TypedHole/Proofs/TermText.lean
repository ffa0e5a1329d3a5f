import TypedHole.Proofs.Filling
import TypedHole.Proofs.TermPieces

/-! Terms and their texts.
A reader goes over the pieces of a term from left to right and keeps what it is in the middle of. Main statement:
two terms have the same text only when they differ in nothing but the numbers of their holes (`Term.text_eq_iff`). -/
namespace TypedHole
namespace Term

/-- What a reader is in the middle of. -/
inductive Frame
  | parens (before : List Term)
  | binders
  | lam (xs : List Name)
  /-- The place for another alternative; a function that splits its argument has no scrutinee. -/
  | split (scrutinee : Option Term) (done : List (Alt Term))
  | alt (scrutinee : Option Term) (done : List (Alt Term)) (ctor : Name) (xs : List Name)

/-- The parts of an application that have been read, and what it stands in, from the inside out. -/
structure Reader where
  spine : List Term
  frames : List Frame

namespace Reader

def complete (t : Term) : List Frame → Term × List Frame
  | .lam xs :: fs => complete (.lam xs t) fs
  | fs => (t,fs)

def ended : Reader → Option (Term × List Frame)
  | ⟨f :: as,fs⟩ => some (complete (f.apply as) fs)
  | _ => none

def push (t : Term) (r : Reader) : Option Reader := some ⟨r.spine ++ [t],r.frames⟩

def openParens (r : Reader) : Option Reader := some ⟨[],.parens r.spine :: r.frames⟩

def closeParens (r : Reader) : Option Reader :=
  match r.ended with
  | some (t,.parens before :: fs) => some ⟨before ++ [t],fs⟩
  | _ => none

def openLambda : Reader → Option Reader
  | ⟨[],fs⟩ => some ⟨[],.binders :: fs⟩
  | _ => none

def names (as : List Term) : List Name := as.flatMap Term.names

/-- What stands before an arrow are binders, or a constructor with its binders. -/
def arrow : Reader → Option Reader
  | ⟨as,.binders :: fs⟩ => some ⟨[],.lam (names as) :: fs⟩
  | ⟨var c :: as,.split s done :: fs⟩ => some ⟨[],.alt s done c (names as) :: fs⟩
  | _ => none

/-- What stands before a brace is `case` behind the sign of a lambda, or `case` and `of` around a scrutinee. -/
def openBrace : Reader → Option Reader
  | ⟨[var "case"],.binders :: fs⟩ => some ⟨[],.split none [] :: fs⟩
  | ⟨var "case" :: f :: as,fs⟩ =>
    if as.getLast? = some (var "of") then some ⟨[],.split (some (f.apply as.dropLast)) [] :: fs⟩ else none
  | _ => none

def endAlternative (r : Reader) : Option Reader :=
  match r.ended with
  | some (b,.alt s done c xs :: fs) => some ⟨[],.split s (done ++ [⟨c,xs,b⟩]) :: fs⟩
  | _ => none

def splitTerm : Option Term → List (Alt Term) → Term
  | some s, as => .case s as
  | none, as => .lamCase as

def endSplit : Reader → Option Reader
  | ⟨[],.split s done :: fs⟩ => some ⟨[splitTerm s done],fs⟩
  | _ => none

/-- Before a closing brace an alternative ends, unless there is none. -/
def closeBrace (r : Reader) : Option Reader :=
  if r.spine.isEmpty then r.endSplit else r.endAlternative.bind endSplit

def step : String → Reader → Option Reader
  | "(" => openParens
  | ")" => closeParens
  | "\\" => openLambda
  | "->" => arrow
  | "\x7b" => openBrace
  | ";" => endAlternative
  | "\x7d" => closeBrace
  | "_" => push (hole 0)
  | x => push (var x)

def run (ws : List String) (r : Reader) : Option Reader := ws.foldlM (fun r w => step w r) r

end Reader

def ofPieces? (ws : List String) : Option Term :=
  match (Reader.run ws ⟨[],[]⟩).bind Reader.ended with
  | some (t,[]) => some t
  | _ => none

def ofText? (x : String) : Option Term := ofPieces? ((Source.mk 0 "" x).tokens.1.map (·.text))

namespace Reader

@[simp] theorem run_nil (r : Reader) : run [] r = some r := rfl

@[simp] theorem run_cons (w : String) (ws : List String) (r : Reader) :
    run (w :: ws) r = (step w r).bind (run ws) := rfl

@[simp] theorem run_append (vs ws : List String) (r : Reader) :
    run (vs ++ ws) r = (run vs r).bind (run ws) := List.foldlM_append

theorem step_name {x : Name} (h : IsPlainName x) : step x = push (var x) := by
  unfold step
  split
  case h_9 => rfl
  all_goals exact absurd h (by decide +kernel)

theorem run_names {xs : List Name} (h : ∀ x ∈ xs, IsPlainName x) (as : List Term) (fs : List Frame) :
    run xs ⟨as,fs⟩ = some ⟨as ++ xs.map var,fs⟩ := by
  induction xs generalizing as with
  | nil => simp
  | cons x xs ih =>
    obtain ⟨hx,hxs⟩ := List.forall_mem_cons.1 h
    rw [run_cons,step_name hx,push,Option.bind_some,ih hxs]
    simp

@[simp] theorem names_map_var (xs : List Name) : names (xs.map var) = xs := by
  simp [names,List.flatMap_map,Term.names]

/-- Pieces that a reader takes for a term at a place. -/
def Reads : Place → List String → Term → Prop
  | .whole, ws, t => ∀ fs, ∃ r, run ws ⟨[],fs⟩ = some r ∧ r.ended = some (complete t fs)
  | .left, ws, t => ∃ f as, f.apply as = t ∧ ∀ bs fs, run ws ⟨bs,fs⟩ = some ⟨bs ++ f :: as,fs⟩
  | .argument, ws, t => ∀ bs fs, run ws ⟨bs,fs⟩ = some ⟨bs ++ [t],fs⟩

def ReadsAlts (ws : List String) (as : List (Alt Term)) : Prop :=
  ∀ s done fs, run (ws ++ ["\x7d"]) ⟨[],.split s done :: fs⟩ = some ⟨[splitTerm s (done ++ as)],fs⟩

namespace Reads

variable {ws vs : List String} {t f a b s : Term} {as : List (Alt Term)}

theorem name {x : Name} (h : IsPlainName x) : Reads .argument [x] (var x) := by
  intro bs fs
  rw [run_cons,step_name h]
  rfl

theorem hole : Reads .argument ["_"] (hole 0) := fun _ _ => rfl

theorem left (h : Reads .argument ws t) : Reads .left ws t := ⟨t,[],rfl,h⟩

theorem whole (h : Reads .left ws t) : Reads .whole ws t := by
  obtain ⟨f,as,rfl,hrun⟩ := h
  exact fun fs => ⟨_,hrun [] fs,rfl⟩

theorem parens (h : Reads .whole ws t) : Reads .argument ("(" :: (ws ++ [")"])) t := by
  intro bs fs
  obtain ⟨r,hrun,hended⟩ := h (.parens bs :: fs)
  have hopen : step "(" ⟨bs,fs⟩ = some ⟨[],.parens bs :: fs⟩ := rfl
  have hclose : step ")" r = some ⟨bs ++ [t],fs⟩ := by
    rw [step,closeParens,hended]
    rfl
  rw [run_cons,hopen,Option.bind_some,run_append,hrun,Option.bind_some,run_cons,hclose]
  rfl

theorem wide (h : Reads .whole ws t) (p : Place) : Reads p (p.widePieces ws) t := by
  cases p with
  | whole => exact h
  | left => exact h.parens.left
  | argument => exact h.parens

theorem tight (h : Reads .left ws t) (p : Place) : Reads p (p.tightPieces ws) t := by
  cases p with
  | whole => exact h.whole
  | left => exact h
  | argument => exact h.whole.parens

theorem single (h : Reads .argument ws t) (p : Place) : Reads p ws t := by
  cases p with
  | whole => exact h.left.whole
  | left => exact h.left
  | argument => exact h

theorem app (hf : Reads .left vs f) (ha : Reads .argument ws a) : Reads .left (vs ++ ws) (f.app a) := by
  obtain ⟨f,as,rfl,hrun⟩ := hf
  refine ⟨f,as ++ [a],by rw [apply_append]; rfl,fun bs fs => ?_⟩
  rw [run_append,hrun,Option.bind_some,ha,List.append_assoc,List.cons_append]

theorem lam {xs : List Name} (hxs : ∀ x ∈ xs, IsPlainName x) (hb : Reads .whole ws b) :
    Reads .whole ("\\" :: xs ++ ["->"] ++ ws) (.lam xs b) := by
  intro fs
  obtain ⟨r,hrun,hended⟩ := hb (.lam xs :: fs)
  have hopen : step "\\" ⟨[],fs⟩ = some ⟨[],.binders :: fs⟩ := rfl
  have harrow : step "->" ⟨xs.map var,.binders :: fs⟩ = some ⟨[],.lam xs :: fs⟩ := by
    rw [step,arrow,names_map_var]
  -- The body ends the lambda when it ends itself.
  refine ⟨r,?_,hended⟩
  simp [hopen,run_names hxs,harrow,hrun]

theorem splitTerm (h : ReadsAlts ws as) {s : Option Term}
    (hvs : ∀ fs, run vs ⟨[],fs⟩ = some ⟨[],.split s [] :: fs⟩) :
    Reads .whole (vs ++ ws ++ ["\x7d"]) (Reader.splitTerm s as) := by
  intro fs
  refine ⟨⟨[Reader.splitTerm s as],fs⟩,?_,rfl⟩
  rw [List.append_assoc,run_append,hvs,Option.bind_some,h,List.nil_append]

theorem case (hs : Reads .left vs s) (has : ReadsAlts ws as) :
    Reads .whole (["case"] ++ vs ++ ["of","\x7b"] ++ ws ++ ["\x7d"]) (.case s as) := by
  refine splitTerm (s := some s) has fun fs => ?_
  obtain ⟨f,as,rfl,hrun⟩ := hs
  -- `case` and `of` are read as if they were the function and the last argument of an application.
  have hopen : step "\x7b" ⟨var "case" :: f :: (as ++ [var "of"]),fs⟩ =
      some ⟨[],.split (some (f.apply as)) [] :: fs⟩ := by
    rw [step,openBrace,List.getLast?_concat,if_pos rfl,List.dropLast_concat]
  have hcase : step "case" ⟨[],fs⟩ = some ⟨[var "case"],fs⟩ := rfl
  have hof : step "of" ⟨var "case" :: f :: as,fs⟩ = some ⟨var "case" :: f :: (as ++ [var "of"]),fs⟩ := rfl
  simp [hcase,hrun,hof,hopen]

theorem lamCase (has : ReadsAlts ws as) : Reads .whole (["\\","case","\x7b"] ++ ws ++ ["\x7d"]) (.lamCase as) :=
  splitTerm (s := none) has fun _ => rfl

end Reads

namespace ReadsAlts

variable {ws vs : List String} {b : Term} {c : Name} {xs : List Name} {as : List (Alt Term)}

theorem nil : ReadsAlts [] [] := fun s done fs => by rw [List.append_nil]; rfl

theorem alternative (hxs : ∀ x ∈ c :: xs, IsPlainName x) (hb : Reads .whole ws b) (s : Option Term)
    (done : List (Alt Term)) (fs : List Frame) : ∃ r, run (c :: xs ++ ["->"] ++ ws) ⟨[],.split s done :: fs⟩ = some r ∧
      r.endAlternative = some ⟨[],.split s (done ++ [⟨c,xs,b⟩]) :: fs⟩ ∧ r.spine.isEmpty = false := by
  obtain ⟨r,hrun,hended⟩ := hb (.alt s done c xs :: fs)
  have harrow : step "->" ⟨var c :: xs.map var,.split s done :: fs⟩ = some ⟨[],.alt s done c xs :: fs⟩ := by
    rw [step,arrow,names_map_var]
  refine ⟨r,?_,?_,?_⟩
  · rw [List.append_assoc,run_append,run_names hxs,Option.bind_some,List.singleton_append,run_cons]
    simp [harrow,hrun]
  · rw [endAlternative,hended]
    rfl
  · obtain ⟨_ | ⟨f,as⟩,fs⟩ := r
    · cases hended
    · rfl

theorem single (hxs : ∀ x ∈ c :: xs, IsPlainName x) (hb : Reads .whole ws b) :
    ReadsAlts (c :: xs ++ ["->"] ++ ws) [⟨c,xs,b⟩] := by
  intro s done fs
  obtain ⟨r,hrun,hend,hspine⟩ := alternative hxs hb s done fs
  have hclose : step "\x7d" r = some ⟨[splitTerm s (done ++ [⟨c,xs,b⟩])],fs⟩ := by
    rw [step,closeBrace,hspine,hend]
    rfl
  rw [run_append,hrun,Option.bind_some,run_cons,hclose]
  rfl

theorem cons (hxs : ∀ x ∈ c :: xs, IsPlainName x) (hb : Reads .whole ws b) (has : ReadsAlts vs as) :
    ReadsAlts (c :: xs ++ ["->"] ++ ws ++ [";"] ++ vs) (⟨c,xs,b⟩ :: as) := by
  intro s done fs
  obtain ⟨r,hrun,hend,-⟩ := alternative hxs hb s done fs
  have hnext : step ";" r = some ⟨[],.split s (done ++ [⟨c,xs,b⟩]) :: fs⟩ := hend
  rw [List.append_assoc,List.append_assoc,run_append,hrun,Option.bind_some,List.singleton_append,run_cons,hnext,
    Option.bind_some,has,List.append_assoc,List.singleton_append]

end ReadsAlts

/-- The pieces of a term at a place are read as the term there. -/
theorem reads_pieces (t : Term) : (∀ x ∈ t.names, IsPlainName x) → ∀ p, Reads p (t.pieces p) t.blank := by
  refine induct (P := fun t => (∀ x ∈ t.names, IsPlainName x) → ∀ p, Reads p (t.pieces p) t.blank)
    (Q := fun as => (∀ x ∈ namesAlts as, IsPlainName x) →
      ReadsAlts (piecesAlts as) (bindAlts (fun _ => .hole 0) as)) ?var ?app ?lam ?case ?lamCase ?hole ?nil ?cons t
  case var => exact fun x h p => (Reads.name (h x (by simp [Term.names]))).single p
  case hole => exact fun _ _ p => Reads.hole.single p
  case app =>
    intro f a hf ha h p
    simp only [Term.names,List.forall_mem_append] at h
    exact ((hf h.1 .left).app (ha h.2 .argument)).tight p
  case lam =>
    intro xs b hb h p
    simp only [Term.names,List.forall_mem_append] at h
    exact (Reads.lam h.1 (hb h.2 .whole)).wide p
  case case =>
    intro s as hs has h p
    simp only [Term.names,List.forall_mem_append] at h
    exact (Reads.case (hs h.1 .left) (has h.2)).wide p
  case lamCase => exact fun as has h p => (Reads.lamCase (has h)).wide p
  case nil => exact fun _ => .nil
  case cons =>
    intro c xs b as hb has h
    simp only [namesAlts,List.forall_mem_append] at h
    cases as with
    | nil => exact .single h.1.1 (hb h.1.2 .whole)
    | cons a as => exact .cons h.1.1 (hb h.1.2 .whole) (has h.2)

end Reader

/-- A term is read back from its text, but for the numbers of its holes. -/
theorem ofText?_text {t : Term} (h : ∀ x ∈ t.names, IsPlainName x) : ofText? t.text = some t.blank := by
  obtain ⟨r,hrun,hended⟩ := Reader.reads_pieces t h .whole []
  rw [ofText?,((t.scans_textAt h .whole).tokens (s := ⟨0,"",t.text⟩)).1,ofPieces?,hrun,Option.bind_some,hended]
  rfl

@[simp] theorem textAt_blank (t : Term) : ∀ p, t.blank.textAt p = t.textAt p := by
  refine induct (P := fun t => ∀ p, t.blank.textAt p = t.textAt p)
    (Q := fun as => textAlts (bindAlts (fun _ => hole 0) as) = textAlts as) ?_ ?_ ?_ ?_ ?_ ?_ ?_ ?cons t
  case cons =>
    intro c xs b as hb has
    cases as <;> simp_all [bindAlts,textAlts,blank]
  all_goals
    intros
    simp_all [blank,bind,bindAlts,textAt,textAlts]

/-- Terms whose names are plain have the same text exactly when they differ in nothing but the numbers of their
holes. -/
theorem text_eq_iff {t u : Term} (ht : ∀ x ∈ t.names, IsPlainName x) (hu : ∀ x ∈ u.names, IsPlainName x) :
    t.text = u.text ↔ t.blank = u.blank := by
  constructor
  · intro h
    have hread := ofText?_text ht
    rw [h,ofText?_text hu] at hread
    exact (Option.some.inj hread).symm
  · intro h
    rw [text,← textAt_blank,h,textAt_blank,text]

def nestedCase (i j : Nat) : Term :=
  lam ["case","of"] (case (app (var "case") (var "of"))
    [⟨"Cons",["case"],lamCase [⟨"Nil",[],hole i⟩]⟩,⟨"Nil",[],app (var "of") (lam [] (hole j))⟩])

theorem text_eq_iff_nestedCase : (∀ x ∈ (nestedCase 0 1).names, IsPlainName x) ∧
    (∀ x ∈ (nestedCase 2 2).names, IsPlainName x) ∧
    (nestedCase 0 1).text =
      "\\case of -> case case of of \x7b Cons case -> \\case \x7b Nil -> _ \x7d; Nil -> of (\\ -> _) \x7d" ∧
    ((nestedCase 0 1).text = (nestedCase 2 2).text ↔ (nestedCase 0 1).blank = (nestedCase 2 2).blank) := by
  have hnames (i j : Nat) : ∀ x ∈ (nestedCase i j).names, IsPlainName x := by
    have hlist : (nestedCase i j).names = ["case","of","case","of","Cons","case","Nil","Nil","of"] := rfl
    rw [hlist]
    decide +kernel
  exact ⟨hnames 0 1,hnames 2 2,by decide +kernel,text_eq_iff (hnames 0 1) (hnames 2 2)⟩

end Term
end TypedHole
