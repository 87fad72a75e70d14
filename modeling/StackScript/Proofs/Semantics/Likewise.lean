import StackScript.Proofs.Semantics.Beside

/-!
# StackScript.Proofs.Semantics.Likewise

Scripts that are alike do the same.

* `Likewise`: calls do the same in two evaluations.
* `Likewise.expr`: then so do expressions.
* `Moves`, `Onward`: what two evaluations of statements lead to.
* `Likewise.stmt`: statements that are alike do the same, by induction on how they are alike.
* `likewise_invoke`: calls do the same, by induction on how deep they go.
-/

namespace StackScript
namespace Semantics

open Syntax (Alike Expr Exprs Stmt)

/-- Calls do the same in two evaluations. -/
def Likewise (R : Race) (call call' : Site → Val → List Val → Eval Val) : Prop :=
  ∀ {κ : Pairing} {σ σ' : Site} {s t : Store} (f : Val) (vs : List Val), Kin R κ s t →
    Beside R κ [] σ σ' → Concur R (Still R κ) (call σ f vs s) (call' σ' f vs t)

variable {R : Race} {call call' : Site → Val → List Val → Eval Val}

section Expressions

namespace Likewise

mutual

theorem expr (fair : R.Fair) (calls : Likewise R call call') (e : Expr) {κ : Pairing} {σ σ' : Site}
    {s t : Store} (k : Kin R κ s t) (b : Beside R κ e.names σ σ') :
    Concur R (Still R κ) (Semantics.expr R.near call σ e s)
      (Semantics.expr R.far call' σ' e t) := by
  cases e with
  | nil | bool | number | string => exact b.put fair k _
  | get name =>
    refine (b.read k List.mem_cons_self).bind fun v w s t ⟨e, κ', l, k⟩ => .still l ?_
    subst e
    exact (b.later l).put fair k v
  | set name e =>
    refine (expr fair calls e k (b.sub fun _ => List.mem_cons_of_mem _)).bind
      fun v w s t ⟨e, κ', l, k⟩ => .still l ?_
    subst e
    refine ((b.later l).assign k List.mem_cons_self v).bind fun _ _ s t ⟨_, κ', l, k⟩ => .still l ?_
    exact .pure (k.still v)
  | unary op e =>
    refine (expr fair calls e k b).bind fun v w s t ⟨e, κ', l, k⟩ => .still l ?_
    subst e
    exact (b.later l).lift k _
  | binary op a e =>
    refine (expr fair calls a k b.left).bind fun v w s t ⟨e, κ', l, k⟩ => .still l ?_
    subst e
    refine (expr fair calls _ k (b.right.up.later l)).bind fun v w s t ⟨e, κ', l', k⟩ => .still l' ?_
    subst e
    exact ((b.later l).later l').lift k _
  | and a e =>
    refine (expr fair calls a k b.left).bind fun v w s t ⟨e, κ', l, k⟩ => .still l ?_
    subst e
    split
    · exact .pure (k.still v)
    · exact expr fair calls _ k (b.right.later l)
  | or a e =>
    refine (expr fair calls a k b.left).bind fun v w s t ⟨e, κ', l, k⟩ => .still l ?_
    subst e
    split
    · exact expr fair calls _ k (b.right.later l)
    · exact .pure (k.still v)
  | call e es =>
    refine (expr fair calls e k b.left).bind fun v w s t ⟨e, κ', l, k⟩ => .still l ?_
    subst e
    refine (exprs fair calls es k (b.right.up.later l)).bind fun vs ws s t ⟨e, κ', l', k⟩ => .still l' ?_
    subst e
    exact calls v vs k (((b.later l).later l').sub (by simp))
  | index a i =>
    refine (expr fair calls a k b.left).bind fun v w s t ⟨e, κ', l, k⟩ => .still l ?_
    subst e
    refine (expr fair calls i k (b.right.up.later l)).bind fun v' w s t ⟨e, κ', l', k⟩ => .still l' ?_
    subst e
    refine .get ?_
    rw [k.element_eq]
    refine (((b.later l).later l').lift k _).bind fun p q s t ⟨e, κ', l, k⟩ => .still l ?_
    subst e
    refine .get ?_
    rw [k.elements_eq]
    exact .pure (k.still _)
  | setIndex a i e =>
    refine (expr fair calls a k b.left).bind fun v w s t ⟨e, κ', l, k⟩ => .still l ?_
    subst e
    refine (expr fair calls i k (b.right.left.up.later l)).bind fun v' w s t ⟨e, κ', l', k⟩ => .still l' ?_
    subst e
    refine (expr fair calls e k ((b.right.right.up.up.later l).later l')).bind
      fun v'' w s t ⟨e, κ', l'', k⟩ => .still l'' ?_
    subst e
    refine .get ?_
    rw [k.element_eq]
    refine ((((b.later l).later l').later l'').lift k _).bind fun p q s t ⟨e, κ', l, k⟩ => .still l ?_
    subst e
    exact .ok ((k.mapArrays (·.modify p.1 (·.setIfInBounds p.2 v''))).still v'')
  | array es =>
    refine (exprs fair calls es k b).bind fun vs ws s t ⟨e, κ', l, k⟩ => .still l ?_
    subst e
    show Concur R _ (Semantics.put R.near σ (.array s.arrays.size) _)
      (Semantics.put R.far σ' (.array t.arrays.size) _)
    rw [show t.arrays.size = s.arrays.size from congrArg Array.size k.arrays.symm]
    exact (b.later l).put fair (k.mapArrays (·.push vs.toArray)) _

theorem exprs (fair : R.Fair) (calls : Likewise R call call') (es : Exprs) {κ : Pairing} {σ σ' : Site}
    {s t : Store} (k : Kin R κ s t) (b : Beside R κ es.names σ σ') :
    Concur R (Still R κ) (Semantics.exprs R.near call σ es s)
      (Semantics.exprs R.far call' σ' es t) := by
  cases es with
  | nil => exact .pure (k.still _)
  | cons e es =>
    refine (expr fair calls e k b.left).bind fun v w s t ⟨e, κ', l, k⟩ => .still l ?_
    subst e
    refine (exprs fair calls es k (b.right.up.later l)).bind fun vs ws s t ⟨e, κ', l', k⟩ => .still l' ?_
    subst e
    exact .pure (k.still _)

end

section Clauses

variable {κ : Pairing} {σ σ' : Site} {s t : Store}

theorem holds (fair : R.Fair) (calls : Likewise R call call') (c : Option Expr) (k : Kin R κ s t)
    (b : Beside R κ (c.elim [] Expr.names) σ σ') :
    Concur R (Still R κ) (Semantics.holds R.near call σ c s) (Semantics.holds R.far call' σ' c t) := by
  cases c with
  | none => exact .pure (k.still true)
  | some e =>
    refine (expr fair calls e k b).bind fun v w s t ⟨e, κ', l, k⟩ => .still l ?_
    subst e
    exact .pure (k.still _)

/-- A condition that holds in place of none. -/
theorem holds_default (fair : R.Fair) (calls : Likewise R call call') (c : Option Expr)
    (endless : c = none → R.endless) (k : Kin R κ s t)
    (b : Beside R κ (c.elim [] Expr.names) σ σ') :
    Concur R (Still R κ) (Semantics.holds R.near call σ c s)
      (Semantics.holds R.far call' σ' (some (c.getD (.bool true))) t) := by
  cases c with
  | some e => exact holds fair calls (some e) k b
  | none =>
    show Concur R _ (some (.ok true, s)) ((Semantics.put R.far σ' (.bool true) >>= fun v =>
      pure !v.isFalsey) t)
    unfold Semantics.put
    split
    · exact .ok (k.still true)
    · exact .far (fair.endless (endless rfl) _)

theorem perform (fair : R.Fair) (calls : Likewise R call call') (e : Option Expr) (k : Kin R κ s t)
    (b : Beside R κ (e.elim [] Expr.names) σ σ') :
    Concur R (Still R κ) (Semantics.perform R.near call σ e s)
      (Semantics.perform R.far call' σ' e t) := by
  cases e with
  | none => exact .pure (k.still ())
  | some e =>
    refine (expr fair calls e k b).bind fun v w s t ⟨_, κ', l, k⟩ => .still l ?_
    exact .pure (k.still ())

/-- The third clause of a loop at the end of a block. -/
theorem perform_stepped (fair : R.Fair) (calls : Likewise R call call') (e : Option Expr) (n : Nat)
    (k : Kin R κ s t) (b : Beside R κ (e.elim [] Expr.names) σ σ') :
    Concur R (fun _ f s t => f = .next σ' ∧ ∃ κ', κ.Le κ' ∧ Kin R κ' s t)
      (Semantics.perform R.near call σ e s)
      (Semantics.stmt R.far call' n σ' (Stmt.stepped e) t) := by
  cases e with
  | none => exact .ok ⟨rfl, κ, .refl κ, k⟩
  | some e =>
    rw [Stmt.stepped, Option.elim_some, Semantics.stmt, Semantics.stmt, bind_assoc]
    refine (expr fair calls e k b).bind fun v w s t ⟨_, κ', l, k⟩ => ?_
    exact .ok ⟨rfl, κ', l, k⟩

end Clauses

end Likewise

end Expressions

section Flows

/-- Where declarations are global in both evaluations, or in none. -/
inductive Level (R : Race) (σ σ' : Site) : Prop where
  | nested : σ.nested = true → σ'.nested = true → Level R σ σ'
  | top : σ.nested = false → σ'.nested = false → σ.env = [] → σ'.env = [] → R.moved = [] →
      Level R σ σ'

/-- From two sites on, some variables have been declared. -/
structure Moves (R : Race) (κ : Pairing) (names : List String) (σ σ' τ τ' : Site) : Prop where
  sees : ∀ κ', κ.Le κ' → ∀ x,
    x ∈ names ∨ Sees R κ' x (σ.env.lookup x) (σ'.env.lookup x) →
      Sees R κ' x (τ.env.lookup x) (τ'.env.lookup x)
  beside : Beside R κ [] τ τ'
  level : Level R σ σ' → Level R τ τ'

namespace Moves

variable {κ κ' : Pairing} {xs ys : List String} {σ σ' τ τ' υ υ' : Site}

theorem refl (b : Beside R κ ys σ σ') : Moves R κ [] σ σ' σ σ' :=
  ⟨fun _ _ _ h => h.resolve_left List.not_mem_nil, b.sub (by simp), id⟩

theorem later (m : Moves R κ xs σ σ' τ τ') (l : κ.Le κ') : Moves R κ' xs σ σ' τ τ' :=
  ⟨fun κ₁ l₁ => m.sees κ₁ (l.trans l₁), m.beside.later l, m.level⟩

theorem trans (m : Moves R κ xs σ σ' τ τ') (m' : Moves R κ ys τ τ' υ υ') :
    Moves R κ (ys ++ xs) σ σ' υ υ' where
  sees κ₁ l x h := by
    refine m'.sees κ₁ l x ?_
    by_cases hx : x ∈ ys
    · exact .inl hx
    · refine .inr (m.sees κ₁ l x (h.imp_left fun h => ?_))
      exact (List.mem_append.1 h).resolve_left hx
  beside := m'.beside
  level h := m'.level (m.level h)

/-- Names that are not declared mean what they have meant. -/
theorem behind (m : Moves R κ xs σ σ' τ τ') (b : Beside R κ (ys.filter (· ∉ xs)) σ σ') :
    Beside R κ ys τ τ' where
  sees x hx := by
    refine m.sees κ (.refl κ) x ?_
    by_cases declared : x ∈ xs
    · exact .inl declared
    · exact .inr (b.sees x (List.mem_filter.2 ⟨hx, decide_eq_true declared⟩))
  calls := m.beside.calls
  height := m.beside.height

end Moves

/-- What two evaluations of a statement lead to. -/
inductive Onward (R : Race) (κ : Pairing) (a : Stmt) (σ σ' : Site) : Flow → Flow → Prop where
  | next {τ τ' : Site} : Moves R κ a.declared σ σ' τ τ' →
      (a.declaresNothing = true → τ = σ ∧ τ' = σ') → Onward R κ a σ σ' (.next τ) (.next τ')
  | returned (v : Val) : Onward R κ a σ σ' (.returned v) (.returned v)

/-- The same with kindred stores. -/
def Led (R : Race) (κ : Pairing) (a : Stmt) (σ σ' : Site) (f g : Flow) (s t : Store) : Prop :=
  ∃ κ', κ.Le κ' ∧ Kin R κ' s t ∧ Onward R κ' a σ σ' f g

theorem Concur.led {κ κ' : Pairing} {a : Stmt} {σ σ' : Site} {r r' : Option (Except Halt Flow × Store)}
    (l : κ.Le κ') (h : Concur R (Led R κ' a σ σ') r r') : Concur R (Led R κ a σ σ') r r' :=
  h.imp fun _ _ _ _ ⟨κ₁, l', k, o⟩ => ⟨κ₁, l.trans l', k, o⟩

end Flows

section Declarations

variable {κ κ' : Pairing} {names : List String} {σ σ' : Site} {s t : Store} {x : String}

theorem Kin.paired (k : Kin R κ s t) :
    (κ.cells ++ [t.cells.size])[s.cells.size]? = some t.cells.size := by
  rw [← k.size]
  exact List.getElem?_concat_length

theorem Kin.le_newCell (κ : Pairing) (c : Nat) : κ.Le ⟨κ.cells ++ [c], κ.tops⟩ :=
  ⟨List.prefix_append _ _, rfl⟩

/-- A variable that both declare with a new cell. -/
theorem Kin.sees_newCell (k : Kin R κ s t) (x : String) (E E' : Env) {κ' : Pairing}
    (l : Pairing.Le ⟨κ.cells ++ [t.cells.size], κ.tops⟩ κ') (y : String)
    (h : y ∈ [x] ∨ Sees R κ' y (E.lookup y) (E'.lookup y)) :
    Sees R κ' y (List.lookup y ((x, s.cells.size) :: E)) (List.lookup y ((x, t.cells.size) :: E')) := by
  by_cases e : y = x
  · subst e
    rw [List.lookup_cons_self, List.lookup_cons_self]
    exact Sees.later (.cell k.paired) l
  · have ne : (y == x) = false := beq_false_of_ne e
    rw [List.lookup_cons, List.lookup_cons, ne]
    exact h.resolve_left fun h => e (List.mem_singleton.1 h)

/-- The sites behind a variable that both declare with a new cell. -/
theorem Beside.moves_newCell (b : Beside R κ names σ σ') (k : Kin R κ s t)
    (near : σ.nested = true) (far : σ'.nested = true) (x : String) :
    Moves R ⟨κ.cells ++ [t.cells.size], κ.tops⟩ [x] σ σ'
      { σ.up with env := (x, s.cells.size) :: σ.env }
      { σ'.up with env := (x, t.cells.size) :: σ'.env } where
  sees _ l y h := k.sees_newCell x σ.env σ'.env l y h
  beside := ⟨by simp, b.calls, b.up.height⟩
  level _ := .nested near far

/-- Behind a declaration. -/
def Declared (R : Race) (κ : Pairing) (x : String) (σ σ' τ τ' : Site) (s t : Store) : Prop :=
  ∃ κ', κ.Le κ' ∧ Kin R κ' s t ∧ Moves R κ' [x] σ σ' τ τ'

theorem Beside.declare (b : Beside R κ names σ σ') (level : Level R σ σ') (k : Kin R κ s t)
    (x : String) (v : Val) :
    Concur R (Declared R κ x σ σ') (σ.declare x v s) (σ'.declare x v t) := by
  unfold Site.declare
  cases level with
  | nested near far =>
    rw [near, far, if_pos rfl, if_pos rfl]
    exact .ok ⟨_, Kin.le_newCell κ _, k.newCell v, b.moves_newCell k near far x⟩
  | top near far env env' all =>
    have global (y : String) : y ∉ R.moved := by simp [all]
    rw [near, far, if_neg Bool.false_ne_true, if_neg Bool.false_ne_true]
    refine .ok ⟨κ, .refl κ, k.define (global x) v, ?_, b.sub (by simp), id⟩
    intro κ' _ y _
    rw [env, env']
    exact .global (global y)

/-- The closures of a function do the same. -/
theorem Beside.closure (fair : R.Fair) {xs : List String} {a a' : Stmt} (h : Alike R.endless a a')
    (b : Beside R κ (a.free.filter (· ∉ x :: xs)) σ σ') (level : Level R σ σ') (k : Kin R κ s t) :
    Concur R (Declared R κ x σ σ') (Semantics.closure R.near σ x xs a s)
      (Semantics.closure R.far σ' x xs a' t) := by
  unfold Semantics.closure
  have size := k.size_closures
  cases level with
  | nested near far =>
    rw [near, far, if_pos rfl, if_pos rfl]
    have k₁ := k.newCell .nil
    have moves := b.moves_newCell k near far x
    have l := Kin.le_newCell κ t.cells.size
    have twin : Twin R ⟨κ.cells ++ [t.cells.size], κ.tops⟩ ⟨x, xs, a, (x, s.cells.size) :: σ.env⟩
        ⟨x, xs, a', (x, t.cells.size) :: σ'.env⟩ := by
      refine ⟨rfl, rfl, h, fun y hy hp => moves.sees _ (.refl _) y ?_⟩
      by_cases e : y = x
      · exact .inl (List.mem_singleton.2 e)
      · exact .inr ((b.sees y (by simp [hy, e, hp])).later l)
    show Concur R _ ((Semantics.put R.near σ (.closure s.closures.size) >>= fun v =>
        setCell s.cells.size v >>= fun _ => pure { σ.up with env := (x, s.cells.size) :: σ.env }) _)
      ((Semantics.put R.far σ' (.closure t.closures.size) >>= fun v =>
        setCell t.cells.size v >>= fun _ => pure { σ'.up with env := (x, t.cells.size) :: σ'.env }) _)
    rw [size]
    refine ((b.later l).put fair (k₁.newClosure twin) _).bind fun v w s t ⟨e, κ₁, l₁, k₁⟩ => ?_
    subst e
    exact .ok ⟨κ₁, l.trans l₁, k₁.setCell (getElem?_longer l₁.cells k.paired) v, moves.later l₁⟩
  | top near far env env' all =>
    rw [near, far, if_neg Bool.false_ne_true, if_neg Bool.false_ne_true]
    have twin : Twin R κ ⟨x, xs, a, σ.env⟩ ⟨x, xs, a', σ'.env⟩ := by
      refine ⟨rfl, rfl, h, fun y _ _ => ?_⟩
      rw [env, env']
      exact .global (by simp [all])
    show Concur R _ ((Semantics.put R.near σ (.closure s.closures.size) >>= σ.declare x) _)
      ((Semantics.put R.far σ' (.closure t.closures.size) >>= σ'.declare x) _)
    rw [size]
    refine (b.put fair (k.newClosure twin) _).bind fun v w s t ⟨e, κ₁, l₁, k₁⟩ => ?_
    subst e
    refine ((b.later l₁).declare (.top near far env env' all) k₁ x v).imp
      fun _ _ _ _ ⟨κ₂, l₂, k₂, moves⟩ => ⟨κ₂, l₁.trans l₂, k₂, moves⟩

end Declarations

section Rounds

variable {κ : Pairing} {n n' : Nat} {σ σ' τ τ' ρ : Site} {s t : Store} {c c' : Eval Bool}
  {body body' : Eval Flow} {step step' : Eval Unit} {a : Stmt}

/-- One round of a loop. -/
def round (σ : Site) (condition : Eval Bool) (body : Eval Flow) (step : Eval Unit) :
    Eval (Option Flow) := do
  if ← condition then
    match ← body with
    | .next _ =>
      step
      return .none
    | .returned v => return some (.returned v)
  else return some (.next σ)

/-- Two evaluations go on at given sites, or return the same. -/
inductive Leaves (σ ρ : Site) : Flow → Flow → Prop where
  | next : Leaves σ ρ (.next σ) (.next ρ)
  | returned (v : Val) : Leaves σ ρ (.returned v) (.returned v)

def Left (R : Race) (κ : Pairing) (σ ρ : Site) (f g : Flow) (s t : Store) : Prop :=
  Leaves σ ρ f g ∧ ∃ κ', κ.Le κ' ∧ Kin R κ' s t

theorem Left.mono {κ' : Pairing} {f g : Flow} (h : Left R κ' σ ρ f g s t) (l : κ.Le κ') :
    Left R κ σ ρ f g s t := by
  obtain ⟨leaves, κ₁, l', k⟩ := h
  exact ⟨leaves, κ₁, l.trans l', k⟩

/-- Rounds of two loops. -/
theorem Concur.rounds (timed : R.Timed n n')
    (each : ∀ {κ' : Pairing} {s t : Store}, κ.Le κ' → Kin R κ' s t →
      Concur R (Round (fun s t => ∃ κ₁, κ.Le κ₁ ∧ Kin R κ₁ s t) (Left R κ σ ρ))
        (round σ c body step s) (round ρ c' body' step' t))
    (k : Kin R κ s t) :
    Concur R (Left R κ σ ρ) (Semantics.rounds n σ c body step s)
      (Semantics.rounds n' ρ c' body' step' t) :=
  Concur.loop (P := fun s t => ∃ κ₁, κ.Le κ₁ ∧ Kin R κ₁ s t) (fun _ _ ⟨_, l, k⟩ => each l k) timed
    ⟨κ, .refl κ, k⟩

/-- A round of two loops with the same clauses. -/
theorem Concur.round {κ' : Pairing} (l : κ.Le κ') (cond : Concur R (Still R κ') (c s) (c' t))
    (first : ∀ {κ₁ : Pairing} {s t : Store}, κ.Le κ₁ → Kin R κ₁ s t →
      Concur R (Led R κ₁ a τ τ') (body s) (body' t))
    (next : ∀ {κ₁ : Pairing} {s t : Store}, κ.Le κ₁ → Kin R κ₁ s t →
      Concur R (Still R κ₁) (step s) (step' t)) :
    Concur R (Round (fun s t => ∃ κ₁, κ.Le κ₁ ∧ Kin R κ₁ s t) (Left R κ σ ρ))
      (Semantics.round σ c body step s) (Semantics.round ρ c' body' step' t) := by
  refine cond.bind fun holds holds' s t ⟨e, κ₁, l₁, k⟩ => ?_
  subst e
  have l₁ := l.trans l₁
  cases holds with
  | true =>
    refine (first l₁ k).bind fun f g s t ⟨κ₂, l₂, k, onward⟩ => ?_
    have l₂ := l₁.trans l₂
    cases onward with
    | next =>
      refine (next l₂ k).bind fun _ _ s t ⟨_, κ₃, l₃, k⟩ => ?_
      exact .ok ⟨κ₃, l₂.trans l₃, k⟩
    | returned v => exact .ok ⟨.returned v, κ₂, l₂, k⟩
  | false => exact .ok ⟨.next, κ₁, l₁, k⟩

/-- Behind a statement whose variables are not in scope any more. -/
theorem Led.leave {b : Stmt} {names : List String} {f g : Flow} (none : b.declared = [])
    (h : Led R κ a τ τ' f g s t) (beside : Beside R κ names σ σ') :
    Led R κ b σ σ' (f.leave σ) (g.leave σ') s t := by
  obtain ⟨κ', l, k, onward⟩ := h
  refine ⟨κ', l, k, ?_⟩
  cases onward with
  | next => exact .next (none ▸ .refl (beside.later l)) fun _ => ⟨rfl, rfl⟩
  | returned v => exact .returned v

theorem Left.led {b : Stmt} {names : List String} {f g : Flow} (none : b.declared = [])
    (h : Left R κ σ σ' f g s t) (beside : Beside R κ names σ σ') : Led R κ b σ σ' f g s t := by
  obtain ⟨leaves, κ', l, k⟩ := h
  refine ⟨κ', l, k, ?_⟩
  cases leaves with
  | next => exact .next (none ▸ .refl (beside.later l)) fun _ => ⟨rfl, rfl⟩
  | returned v => exact .returned v

end Rounds

section Unrolled

variable {L : Limits} {n : Nat}

/-- What comes behind a statement, unless it returns. -/
def Flow.andThen (f : Flow) (next : Site → Eval Flow) : Eval Flow :=
  match f with
  | .next τ => next τ
  | .returned v => return .returned v

theorem stmt_seq (σ : Site) (a b : Stmt) : stmt L call n σ (.seq a b) =
    stmt L call n σ a >>= fun f => f.andThen fun τ => stmt L call n τ b := rfl

theorem andThen_empty (f : Flow) : (f.andThen fun τ => stmt L call n τ .empty) = pure f := by
  cases f <;> rfl

/-- A loop that is written with `while`. -/
theorem stmt_asWhile (σ : Site) (i : Stmt) (c e : Option Expr) (a : Stmt) :
    stmt L call n σ (Stmt.asWhile i c e a) = stmt L call n σ.inside i >>= fun f =>
      f.andThen fun τ =>
        rounds n τ (holds L call τ (some (c.getD (.bool true))))
          (stmt L call n τ.inside a >>= fun f => do
            return (← f.andThen fun υ => stmt L call n υ (Stmt.stepped e)).leave τ) (return ()) >>=
          fun f => return f.leave σ := by
  have rest (τ : Site) : stmt L call n τ (.seq (.while (c.getD (.bool true))
      (.block (.seq a (Stmt.stepped e)))) .empty) =
        rounds n τ (holds L call τ (some (c.getD (.bool true))))
          (stmt L call n τ.inside a >>= fun f => do
            return (← f.andThen fun υ => stmt L call n υ (Stmt.stepped e)).leave τ) (return ()) := by
    rw [stmt_seq, funext andThen_empty, bind_pure, stmt]
    congr 1
    rw [stmt, stmt_seq, bind_assoc]
  have started : stmt L call n σ.inside (i.started (.seq (.while (c.getD (.bool true))
      (.block (.seq a (Stmt.stepped e)))) .empty)) = stmt L call n σ.inside i >>= fun f =>
        f.andThen fun τ => stmt L call n τ (.seq (.while (c.getD (.bool true))
          (.block (.seq a (Stmt.stepped e)))) .empty) := by
    cases i with
    | empty => rfl
    | _ => exact stmt_seq _ _ _
  rw [Stmt.asWhile, stmt, started, bind_assoc]
  congr 1
  funext f
  cases f with
  | returned v => rfl
  | next τ => rw [Flow.andThen, Flow.andThen, rest]

end Unrolled

section Statements

variable {n n' : Nat}

theorem Likewise.stmt (fair : R.Fair) (timed : R.Timed n n') (calls : Likewise R call call')
    {a a' : Stmt} (h : Alike R.endless a a') :
    ∀ {κ : Pairing} {σ σ' : Site} {s t : Store}, Kin R κ s t → Beside R κ a.free σ σ' →
      a.declaresNothing = true ∨ Level R σ σ' →
      Concur R (Led R κ a σ σ') (Semantics.stmt R.near call n σ a s)
        (Semantics.stmt R.far call' n' σ' a' t) := by
  induction h with
  | empty => exact fun k b _ => .ok ⟨_, .refl _, k, .next (.refl b) fun _ => ⟨rfl, rfl⟩⟩
  | @seq a a' d d' _ _ ih ih' =>
    intro κ σ σ' s t k b level
    have level := level.resolve_left Bool.false_ne_true
    rw [Semantics.stmt, Semantics.stmt]
    refine (ih k b.left (.inr level)).bind fun f g s t ⟨κ₁, l₁, k, onward⟩ => .led l₁ ?_
    cases onward with
    | returned v => exact .ok ⟨κ₁, .refl κ₁, k, .returned v⟩
    | next moves _ =>
      refine (ih' k (moves.behind (b.right.later l₁)) (.inr (moves.level level))).imp
        fun f g s t ⟨κ₂, l₂, k, onward⟩ => ⟨κ₂, l₂, k, ?_⟩
      cases onward with
      | returned v => exact .returned v
      | next moves' _ => exact .next ((moves.later l₂).trans moves') nofun
  | expression e =>
    intro κ σ σ' s t k b _
    rw [Semantics.stmt, Semantics.stmt]
    refine (Likewise.expr fair calls e k b).bind fun v w s t ⟨_, κ₁, l₁, k⟩ => ?_
    exact .ok ⟨κ₁, l₁, k, .next (.refl (b.later l₁)) fun _ => ⟨rfl, rfl⟩⟩
  | print e =>
    intro κ σ σ' s t k b _
    rw [Semantics.stmt, Semantics.stmt]
    refine (Likewise.expr fair calls e k b).bind fun v w s t ⟨e, κ₁, l₁, k⟩ => ?_
    subst e
    refine (k.printLine v).bind fun _ _ s t ⟨_, κ₂, l₂, k⟩ => ?_
    exact .ok ⟨κ₂, l₁.trans l₂, k, .next (.refl ((b.later l₁).later l₂)) fun _ => ⟨rfl, rfl⟩⟩
  | var x e =>
    intro κ σ σ' s t k b level
    have level := level.resolve_left Bool.false_ne_true
    rw [Semantics.stmt, Semantics.stmt]
    refine (Likewise.expr fair calls e k b).bind fun v w s t ⟨e, κ₁, l₁, k⟩ => .led l₁ ?_
    subst e
    refine ((b.later l₁).declare level k x v).bind fun τ τ' s t ⟨κ₂, l₂, k, moves⟩ => ?_
    exact .ok ⟨κ₂, l₂, k, .next moves nofun⟩
  | function x xs h _ =>
    intro κ σ σ' s t k b level
    have level := level.resolve_left Bool.false_ne_true
    rw [Semantics.stmt, Semantics.stmt]
    refine (b.closure fair h level k).bind fun τ τ' s t ⟨κ₁, l₁, k, moves⟩ => ?_
    exact .ok ⟨κ₁, l₁, k, .next moves nofun⟩
  | block _ ih =>
    intro κ σ σ' s t k b _
    rw [Semantics.stmt, Semantics.stmt]
    refine (ih k b.inside (.inr (.nested rfl rfl))).bind fun f g s t led => ?_
    exact .ok (led.leave rfl b)
  | ifElse e ha hb na nb ih ih' =>
    intro κ σ σ' s t k b _
    rw [Semantics.stmt, Semantics.stmt]
    refine (Likewise.holds fair calls (some e) k b.left).bind
      fun c c' s t ⟨e, κ₁, l₁, k⟩ => .led l₁ ?_
    subst e
    have b := b.later l₁
    cases c with
    | true =>
      refine (ih k b.right.left (.inl na)).bind fun f g s t led => ?_
      exact .ok (led.leave rfl b)
    | false =>
      refine (ih' k b.right.right (.inl nb)).bind fun f g s t led => ?_
      exact .ok (led.leave rfl b)
  | «while» e ha na ih =>
    intro κ σ σ' s t k b _
    rw [Semantics.stmt, Semantics.stmt]
    refine (Concur.rounds timed (fun l k => ?_) k).imp fun f g s t left => left.led rfl b
    exact .round l (Likewise.holds fair calls (some e) k (b.left.later l))
      (fun l k => ih k (b.right.later l) (.inl na)) fun _ k => .ok (k.still ())
  | «for» c e hi ha na ih ih' =>
    intro κ σ σ' s t k b _
    rw [Semantics.stmt, Semantics.stmt]
    refine (ih k b.left.inside (.inr (.nested rfl rfl))).bind
      fun f g s t ⟨κ₁, l₁, k, onward⟩ => .led l₁ ?_
    have b := b.later l₁
    cases onward with
    | returned v => exact .ok ⟨κ₁, .refl κ₁, k, .returned v⟩
    | next moves _ =>
      have inner := moves.behind b.right.inside
      refine (Concur.rounds timed (fun l k => ?_) k).imp fun f g s t left => left.led rfl b
      exact .round l (Likewise.holds fair calls c k (inner.left.later l))
        (fun l k => ih' k (inner.right.right.later l) (.inl na))
        fun l k => Likewise.perform fair calls e k (inner.right.left.later l)
  | «return» e =>
    intro κ σ σ' s t k b _
    rw [Semantics.stmt, Semantics.stmt]
    refine (Likewise.expr fair calls e k b).bind fun v w s t ⟨e, κ₁, l₁, k⟩ => ?_
    subst e
    exact .ok ⟨κ₁, l₁, k, .returned v⟩
  | asWhile c e hi ha na endless ih ih' =>
    intro κ σ σ' s t k b _
    rw [Semantics.stmt, stmt_asWhile]
    refine (ih k b.left.inside (.inr (.nested rfl rfl))).bind
      fun f g s t ⟨κ₁, l₁, k, onward⟩ => .led l₁ ?_
    have b := b.later l₁
    cases onward with
    | returned v => exact .ok ⟨κ₁, .refl κ₁, k, .returned v⟩
    | @next τ τ' moves _ =>
      have inner := moves.behind b.right.inside
      dsimp only [Flow.andThen]
      rw [← bind_pure (rounds n σ _ _ _)]
      refine (Concur.rounds (σ := σ) (ρ := τ') timed (fun l k => ?_) k).bind fun f g s t left => ?_
      · refine (Likewise.holds_default fair calls c endless k (inner.left.later l)).bind
          fun holds holds' s t ⟨e, κ₂, l₂, k⟩ => ?_
        subst e
        have l₂ := l.trans l₂
        have inner := inner.within.later l₂
        cases holds with
        | false => exact .ok ⟨.next, κ₂, l₂, k⟩
        | true =>
          rw [if_pos rfl, if_pos rfl, bind_assoc]
          refine (ih' k inner.right.right (.inl na)).bind fun f g s t ⟨κ₃, l₃, k, onward⟩ => ?_
          have l₄ := l₂.trans l₃
          cases onward with
          | returned v => exact .ok ⟨.returned v, κ₃, l₄, k⟩
          | next _ stays =>
            obtain ⟨rfl, rfl⟩ := stays na
            rw [bind_assoc]
            refine (Likewise.perform_stepped fair calls _ _ k (inner.right.left.later l₃)).bind
              fun _ f s t ⟨e, κ₄, l₅, k⟩ => ?_
            subst e
            exact .ok ⟨κ₄, l₄.trans l₅, k⟩
      · obtain ⟨leaves, κ₂, l₂, k⟩ := left
        refine .ok ⟨κ₂, l₂, k, ?_⟩
        cases leaves with
        | next => exact .next (.refl (b.later l₂)) fun _ => ⟨rfl, rfl⟩
        | returned v => exact .returned v

end Statements

section Calls

variable {κ : Pairing} {σ σ' : Site} {s t : Store} {n n' : Nat}

/-- Arguments become variables of both functions. -/
theorem Kin.bindAll {xs : List String} : ∀ {vs : List Val} (E E' : Env) {κ : Pairing} {s t : Store},
    xs.length = vs.length → Kin R κ s t → Concur R
      (fun F F' s t => ∃ κ', κ.Le κ' ∧ Kin R κ' s t ∧
        ∀ x, x ∈ xs ∨ Sees R κ' x (E.lookup x) (E'.lookup x) →
          Sees R κ' x (F.lookup x) (F'.lookup x))
      (Semantics.bindAll E xs vs s) (Semantics.bindAll E' xs vs t) := by
  induction xs with
  | nil =>
    intro vs E E' κ s t _ k
    exact .ok ⟨κ, .refl κ, k, fun _ h => h.resolve_left List.not_mem_nil⟩
  | cons x xs ih =>
    intro vs E E' κ s t length k
    cases vs with
    | nil => cases length
    | cons v vs =>
      refine (ih ((x, s.cells.size) :: E) ((x, t.cells.size) :: E') (Nat.succ.inj length)
        (k.newCell v)).imp fun F F' s' t' ⟨κ', l, k', sees⟩ => ?_
      refine ⟨κ', (Kin.le_newCell κ _).trans l, k', fun y h => sees y ?_⟩
      by_cases hy : y ∈ xs
      · exact .inl hy
      · refine .inr (k.sees_newCell x E E' l y (h.imp_left fun h => ?_))
        exact List.mem_singleton.2 ((List.mem_cons.1 h).resolve_right hy)

/-- The result of a function. -/
theorem Led.result (fair : R.Fair) {a : Stmt} {f g : Flow} (h : Led R κ a σ σ' f g s t) :
    Concur R (Still R κ) (f.result R.near s) (g.result R.far t) := by
  obtain ⟨κ', l, k, onward⟩ := h
  refine .still l ?_
  cases onward with
  | next moves _ => exact moves.beside.put fair k .nil
  | returned v => exact .pure (k.still v)

/-- Two closures that do the same are called. -/
theorem Twin.concur (fair : R.Fair) (timed : R.Timed n n') (calls : Likewise R call call')
    {f g : Lambda} (twin : Twin R κ f g) {vs : List Val} (length : vs.length = f.parameters.length)
    (k : Kin R κ s t) (b : Beside R κ [] σ σ') :
    Concur R (Still R κ)
      ((do
        let env ← bindAll f.env f.parameters vs
        let flow ← stmt R.near call n ⟨env, true, σ.height + 1 + vs.length, some f.name :: σ.calls⟩
          f.body
        flow.result R.near : Eval Val) s)
      ((do
        let env ← bindAll g.env f.parameters vs
        let flow ← stmt R.far call' n'
          ⟨env, true, σ'.height + 1 + vs.length, some f.name :: σ'.calls⟩ g.body
        flow.result R.far : Eval Val) t) := by
  refine (k.bindAll _ _ length.symm).bind fun E E' s t ⟨κ', l, k, sees⟩ => .still l ?_
  have beside : Beside R κ' f.body.free ⟨E, true, σ.height + 1 + vs.length, some f.name :: σ.calls⟩
      ⟨E', true, σ'.height + 1 + vs.length, some f.name :: σ'.calls⟩ := by
    refine ⟨fun x hx => sees x ?_, congrArg (some f.name :: ·) b.calls,
      b.height.imp_left (congrArg (· + 1 + vs.length))⟩
    by_cases hp : x ∈ f.parameters
    · exact .inl hp
    · exact .inr ((twin.sees x hx hp).later l)
  exact (Likewise.stmt fair timed calls twin.body k beside (.inr (.nested rfl rfl))).bind
    fun f g s t led => led.result fair

theorem likewise_invoke (fair : R.Fair) (timed : R.Timed n n') :
    Likewise R (invoke R.near n) (invoke R.far n') := by
  induction n generalizing n' with
  | zero =>
    intro κ σ σ' s t f vs _ _
    cases n' with
    | zero => exact .late
    | succ n' => exact .nearLate (timed.late (Nat.succ_pos _))
  | succ n ih =>
    intro κ σ σ' s t f vs k b
    cases n' with
    | zero => exact absurd timed.le (Nat.not_succ_le_zero n)
    | succ n' =>
      cases f with
      | closure id =>
        refine .get ?_
        cases hf : s.closures[id]? with
        | none =>
          rw [Array.getElem?_eq_none (k.size_closures ▸ Array.getElem?_eq_none_iff.1 hf)]
          exact b.fail k _
        | some f =>
          rw [← Array.getElem?_toList] at hf
          obtain ⟨g, hg, twin⟩ := forall₂_getElem? k.closures hf
          rw [Array.getElem?_toList] at hg
          rw [hg]
          dsimp only
          rw [twin.name, b.calls]
          by_cases length : vs.length = f.parameters.length
          · rw [if_neg (not_not_intro length), if_neg (not_not_intro (twin.parameters ▸ length))]
            cases near : R.near.calls.all (σ'.calls.length < ·) with
            | true =>
              rw [if_pos rfl]
              cases far : R.far.calls.all (σ'.calls.length < ·) with
              | true =>
                have done := twin.concur fair timed.pred (ih timed.pred) length k b
                rw [b.calls] at done
                rw [if_pos rfl, twin.parameters]
                exact done
              | false => exact .far (fair.farDeep _ near far _)
            | false =>
              rw [if_neg Bool.false_ne_true]
              cases far : R.far.calls.all (σ'.calls.length < ·) with
              | true => exact .near (b.calls ▸ fair.nearDeep _ far near _)
              | false => exact b.fail k _
          · rw [if_pos length, if_pos (twin.parameters ▸ length), twin.parameters]
            exact b.fail k _
      | native builtin =>
        rw [invoke, invoke]
        split
        · exact b.fail k _
        · exact b.native k builtin _
      | _ => exact b.fail k _

/-- The stores that scripts start with. -/
theorem kin_initial (R : Race) (output : Machine.Output) (world : Machine.World) :
    Kin R ⟨[], []⟩ (Store.initial output world) (Store.initial output world) :=
  ⟨rfl, fun _ _ h => (nomatch h), fun _ h => (nomatch h), .nil, .nil, fun _ h => (nomatch h),
    fun _ _ => rfl, rfl, .nil, rfl, rfl⟩

/-- Scripts that are alike do the same. -/
theorem script_alike (fair : R.Fair) (timed : R.Timed n n') (moved : R.moved = []) {a a' : Stmt}
    (h : Alike R.endless a a') (output : Machine.Output) (world : Machine.World) :
    Concur R (fun _ _ s t => s.output = t.output)
      (script R.near n a (Store.initial output world))
      (script R.far n' a' (Store.initial output world)) := by
  have b (names : List String) : Beside R ⟨[], []⟩ names .script .script :=
    ⟨fun x _ => .global (by simp [moved]), rfl, .inl rfl⟩
  refine (Likewise.stmt fair timed (likewise_invoke fair timed) h (kin_initial R output world)
    (b _) (.inr (.top rfl rfl rfl rfl moved))).bind fun f g s t led => ?_
  refine (led.result fair).bind fun _ _ s t ⟨_, κ, _, k⟩ => ?_
  exact .ok k.output

end Calls

end Semantics
end StackScript
