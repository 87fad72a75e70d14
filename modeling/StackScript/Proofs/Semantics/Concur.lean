import StackScript.Proofs.Semantics.Follow

/-!
# StackScript.Proofs.Semantics.Concur

Two evaluations that do the same.

* `Race`: what may differ between a near evaluation and a far one.
* `Concur`: what two evaluations have come to is the same, unless that of one of them is excused.
* `Concur.bind`, `Concur.loop`: one evaluation after the other, and rounds of a loop.
-/

namespace StackScript
namespace Semantics

structure Race where
  near : Limits
  far : Limits
  /-- how the near evaluation may end although the far one does not; `none` is to take too long -/
  nearExcused : Option Halt → Prop
  farExcused : Halt → Prop
  /-- the variables that are global in the near script, and local to a block in the far one -/
  moved : List String
  /-- whether loops without a condition may have one in the far script -/
  endless : Prop

/-- Whoever has tighter limits is excused for them. -/
structure Race.Fair (R : Race) : Prop where
  nearFull : ∀ n, R.far.places.all (n < ·) = true → R.near.places.all (n < ·) = false →
    ∀ calls, R.nearExcused (some (.full calls))
  farFull : ∀ n, R.near.places.all (n < ·) = true → R.far.places.all (n < ·) = false →
    ∀ calls, R.farExcused (.full calls)
  nearDeep : ∀ n, R.far.calls.all (n < ·) = true → R.near.calls.all (n < ·) = false →
    ∀ calls, R.nearExcused (some (.fault .stackOverflow calls))
  farDeep : ∀ n, R.near.calls.all (n < ·) = true → R.far.calls.all (n < ·) = false →
    ∀ calls, R.farExcused (.fault .stackOverflow calls)
  endless : R.endless → ∀ calls, R.farExcused (.full calls)

/-- The near evaluation has less time, unless it is excused for that. -/
structure Race.Timed (R : Race) (n n' : Nat) : Prop where
  le : n ≤ n'
  late : n < n' → R.nearExcused none

theorem Race.Timed.pred {R : Race} {n n' : Nat} (h : R.Timed (n + 1) (n' + 1)) : R.Timed n n' :=
  ⟨Nat.le_of_succ_le_succ h.le, fun lt => h.late (Nat.succ_lt_succ lt)⟩

section Concur

variable {α β γ δ : Type} {R : Race} {P : Store → Store → Prop} {Q : α → β → Store → Store → Prop}
  {x : Eval α} {y : Eval β} {f : α → Eval γ} {g : β → Eval δ} {s t : Store} {n n' : Nat}

/-- What a near and a far evaluation have come to is the same, unless one of them is excused. -/
inductive Concur (R : Race) (Q : α → β → Store → Store → Prop) :
    Option (Except Halt α × Store) → Option (Except Halt β × Store) → Prop where
  | ok {a : α} {b : β} {s t : Store} : Q a b s t → Concur R Q (some (.ok a, s)) (some (.ok b, t))
  | halt {halt : Halt} {s t : Store} : s.output = t.output →
      Concur R Q (some (.error halt, s)) (some (.error halt, t))
  | late : Concur R Q none none
  | near {halt : Halt} {s : Store} {r : Option (Except Halt β × Store)} :
      R.nearExcused (some halt) → Concur R Q (some (.error halt, s)) r
  | nearLate {r : Option (Except Halt β × Store)} : R.nearExcused none → Concur R Q none r
  | far {halt : Halt} {t : Store} {r : Option (Except Halt α × Store)} :
      R.farExcused halt → Concur R Q r (some (.error halt, t))

namespace Concur

theorem pure {a : α} {b : β} (h : Q a b s t) :
    Concur R Q ((Pure.pure a : Eval α) s) ((Pure.pure b : Eval β) t) := .ok h

theorem imp {Q' : α → β → Store → Store → Prop} {r : Option (Except Halt α × Store)}
    {r' : Option (Except Halt β × Store)} (h : Concur R Q r r')
    (q : ∀ a b s t, Q a b s t → Q' a b s t) : Concur R Q' r r' := by
  cases h with
  | ok h => exact .ok (q _ _ _ _ h)
  | halt e => exact .halt e
  | late => exact .late
  | near e => exact .near e
  | nearLate e => exact .nearLate e
  | far e => exact .far e

theorem bind {S : γ → δ → Store → Store → Prop} (h : Concur R Q (x s) (y t))
    (k : ∀ a b s t, Q a b s t → Concur R S (f a s) (g b t)) :
    Concur R S ((x >>= f) s) ((y >>= g) t) := by
  rw [bind_apply, bind_apply]
  generalize x s = r, y t = r' at h
  cases h with
  | ok h => exact k _ _ _ _ h
  | halt e => exact .halt e
  | late => exact .late
  | near e => exact .near e
  | nearLate e => exact .nearLate e
  | far e => exact .far e

/-- Both go on with what they have in store. -/
theorem get {f : Store → Eval γ} {g : Store → Eval δ} {S : γ → δ → Store → Store → Prop}
    (h : Concur R S (f s s) (g t t)) :
    Concur R S ((MonadState.get >>= f : Eval γ) s) ((MonadState.get >>= g : Eval δ) t) := h

/-- What one round of a loop leads to. -/
def Round (P : Store → Store → Prop) (Q : α → β → Store → Store → Prop) :
    Option α → Option β → Store → Store → Prop
  | some a, some b => Q a b
  | none, none => P
  | _, _ => fun _ _ => False

theorem loop {x : Eval (Option α)} {y : Eval (Option β)}
    (each : ∀ s t, P s t → Concur R (Round P Q) (x s) (y t)) (timed : R.Timed n n') :
    ∀ {s t : Store}, P s t → Concur R Q (Semantics.loop n x s) (Semantics.loop n' y t) := by
  induction n generalizing n' with
  | zero =>
    intro s t p
    cases n' with
    | zero => exact .late
    | succ n' => exact .nearLate (timed.late (Nat.succ_pos _))
  | succ n ih =>
    intro s t p
    cases n' with
    | zero => exact absurd timed.le (Nat.not_succ_le_zero n)
    | succ n' =>
      refine (each s t p).bind fun a b s t round => ?_
      cases a with
      | some a =>
        cases b with
        | some b => exact .pure round
        | none => exact round.elim
      | none =>
        cases b with
        | some b => exact round.elim
        | none => exact ih timed.pred round

end Concur
end Concur

end Semantics
end StackScript
