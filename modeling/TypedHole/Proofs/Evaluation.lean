import Mathlib.Data.List.Forall2
import TypedHole.Module
import TypedHole.Term

/-! Evaluation of terms.
Arguments are evaluated before calls. A term is evaluated where one definition with a single equation may
be called; a constructor is a name that some data type owns. Fuel bounds the depth of an evaluation, and a
term settles to a value when it has this value from some fuel on. Main statements: how applications and
case splits settle (`Definition.Settles.apply_con`, `Definition.Settles.apply_call`,
`Definition.Settles.case`). -/
namespace TypedHole

inductive Value
  | con (name : Name) (fields : List Value)
  /-- The definition with fewer arguments than its equation takes. -/
  | waiting (args : List Value)
  | closure (env : List (Name × Value)) (binders : List Name) (body : Term)
  | split (env : List (Name × Value)) (alts : List (Alt Term))
  /-- A value of which nothing is known. -/
  | foreign (id : Nat)

abbrev Env := List (Name × Value)

mutual

def Pat.match? : Pat → Value → Option Env
  | .var x _, v => some [(x,v)]
  | .wildcard _, _ => some []
  | .ctor c ps _, .con d vs => if c = d then Pat.matchAll? ps vs else none
  | .ctor .., _ => none

/-- Matches values against as many patterns. Of two patterns with one variable the later counts. -/
def Pat.matchAll? : List Pat → List Value → Option Env
  | [], [] => some []
  | p :: ps, v :: vs => do
    let env ← p.match? v
    let rest ← Pat.matchAll? ps vs
    pure (rest ++ env)
  | _, _ => none

end

structure Definition where
  name : Name
  pats : List Pat
  body : Term

namespace Definition

abbrev Evaluator := Env → Term → Option Value

/-- Calls a definition as soon as there are enough arguments. -/
def enter (d : Definition) (ev : Evaluator) (args : List Value) : Option Value :=
  if args.length < d.pats.length then some (.waiting args)
  else do
    let env ← Pat.matchAll? d.pats args
    ev env d.body

def select (ev : Evaluator) (env : Env) (alts : List (Alt Term)) : Value → Option Value
  | .con c vs =>
    match alts.find? (·.ctor == c) with
    | some a => if a.binders.length = vs.length then ev (a.binders.zip vs ++ env) a.body else none
    | none => none
  | _ => none

def applyTo (d : Definition) (ev : Evaluator) (arg : Value) : Value → Option Value
  | .con c vs => some (.con c (vs ++ [arg]))
  | .waiting vs => d.enter ev (vs ++ [arg])
  | .closure env [x] b => ev ((x,arg) :: env) b
  | .closure env (x :: xs) b => some (.closure ((x,arg) :: env) xs b)
  | .closure _ [] _ => none
  | .split env as => select ev env as arg
  | .foreign _ => none

/-- Evaluates a term. Variables hide the definition, which hides constructors. -/
def eval (d : Definition) (types : TypeTable) : Nat → Env → Term → Option Value
  | 0, _, _ => none
  | n + 1, env, t =>
    match t with
    | .var x =>
      match env.lookup x with
      | some v => some v
      | none =>
        if x = d.name then d.enter (eval d types n) []
        else if (types.owner? x).isSome then some (.con x [])
        else none
    | .app f a => do
      let v ← eval d types n env f
      let w ← eval d types n env a
      d.applyTo (eval d types n) w v
    | .lam xs b => some (.closure env xs b)
    | .case s as => do
      let v ← eval d types n env s
      select (eval d types n) env as v
    | .lamCase as => some (.split env as)
    | .hole _ => none

/-- A term has a value from some fuel on. -/
def Settles (d : Definition) (types : TypeTable) (env : Env) (t : Term) (v : Value) : Prop :=
  ∃ n, ∀ m, n ≤ m → d.eval types m env t = some v

variable {d : Definition} {types : TypeTable} {env env' : Env} {x : Name} {f a s : Term} {v w : Value}
  {vs ws : List Value} {alts : List (Alt Term)} {args : List Term}

theorem Settles.of_succ {t : Term} (n : Nat) (h : ∀ m, n ≤ m → d.eval types (m + 1) env t = some v) :
    d.Settles types env t v := by
  refine ⟨n + 1,fun m hm => ?_⟩
  obtain ⟨m,rfl⟩ : ∃ k, m = k + 1 := ⟨m - 1,by omega⟩
  exact h m (Nat.le_of_succ_le_succ hm)

theorem Settles.var (h : env.lookup x = some v) : d.Settles types env (.var x) v :=
  .of_succ 0 fun m _ => by simp only [eval,h]

theorem Settles.ctor (h : env.lookup x = none) (hx : x ≠ d.name) (ho : (types.owner? x).isSome = true) :
    d.Settles types env (.var x) (.con x []) :=
  .of_succ 0 fun m _ => by simp only [eval,h,if_neg hx,if_pos ho]

theorem Settles.definition (h : env.lookup d.name = none) (hp : d.pats ≠ []) :
    d.Settles types env (.var d.name) (.waiting []) :=
  .of_succ 0 fun m _ => by
    have hpos : ([] : List Value).length < d.pats.length := List.length_pos_iff.2 hp
    simp only [eval,h,if_true,enter,if_pos hpos]

theorem Settles.app (hf : d.Settles types env f v) (ha : d.Settles types env a w) {u : Value} (n : Nat)
    (h : ∀ m, n ≤ m → d.applyTo (d.eval types m) w v = some u) : d.Settles types env (.app f a) u := by
  obtain ⟨k,hf⟩ := hf
  obtain ⟨l,ha⟩ := ha
  refine .of_succ (max n (max k l)) fun m hm => ?_
  simp only [eval,hf m (by omega),ha m (by omega),Option.bind_eq_bind,Option.bind_some]
  exact h m (by omega)

theorem Settles.apply_con {c : Name} (hf : d.Settles types env f (.con c vs))
    (ha : List.Forall₂ (d.Settles types env) args ws) :
    d.Settles types env (f.apply args) (.con c (vs ++ ws)) := by
  induction ha generalizing f vs with
  | nil => simpa using hf
  | cons ha _ ih =>
    have := ih (hf.app ha 0 fun m _ => rfl)
    rwa [List.append_assoc] at this

theorem Settles.apply_call (hf : d.Settles types env f (.waiting vs))
    (ha : List.Forall₂ (d.Settles types env) args ws) (hne : args ≠ [])
    (hl : vs.length + args.length = d.pats.length) (hm : Pat.matchAll? d.pats (vs ++ ws) = some env')
    (hb : d.Settles types env' d.body v) : d.Settles types env (f.apply args) v := by
  induction ha generalizing f vs with
  | nil => exact absurd rfl hne
  | @cons a w args ws ha has ih =>
    have hlen : (vs ++ [w]).length = vs.length + 1 := by simp
    have hm' : Pat.matchAll? d.pats (vs ++ [w] ++ ws) = some env' := by rwa [List.append_assoc]
    cases args with
    | nil =>
      cases has
      obtain ⟨n,hb⟩ := hb
      have hnot : ¬ (vs ++ [w]).length < d.pats.length := by
        rw [hlen,← hl]
        exact Nat.lt_irrefl _
      rw [List.append_nil] at hm'
      refine hf.app ha n fun m hnm => ?_
      simp only [applyTo,enter,if_neg hnot,hm',Option.bind_eq_bind,Option.bind_some]
      exact hb m hnm
    | cons a' args =>
      simp only [List.length_cons] at hl
      have hlt : (vs ++ [w]).length < d.pats.length := by omega
      have hnext : d.Settles types env (.app f a) (.waiting (vs ++ [w])) :=
        hf.app ha 0 fun m _ => by simp only [applyTo,enter,if_pos hlt]
      refine ih hnext (by simp) ?_ hm'
      rw [hlen,List.length_cons]
      omega

theorem Settles.case {c : Name} (hs : d.Settles types env s (.con c vs)) {alt : Alt Term}
    (hc : alts.find? (·.ctor == c) = some alt) (hl : alt.binders.length = vs.length)
    (hb : d.Settles types (alt.binders.zip vs ++ env) alt.body v) :
    d.Settles types env (.case s alts) v := by
  obtain ⟨k,hs⟩ := hs
  obtain ⟨l,hb⟩ := hb
  refine .of_succ (max k l) fun m hm => ?_
  simp only [eval,hs m (by omega),Option.bind_eq_bind,Option.bind_some,select,hc,if_pos hl]
  exact hb m (by omega)

end Definition
end TypedHole
