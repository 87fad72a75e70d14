import StackScript.Proofs.Semantics.Operate

/-!
# StackScript.Proofs.Semantics.Expression

The code of an expression does what evaluating the expression does, given that calls do.

* `Calling`: a call instruction does what a call of the language does.
* `ExprCode.follows`, `ExprsCode.follows`: by induction on the code.
-/

namespace StackScript
namespace Semantics

open Compile (Context ExprCode ExprsCode ClauseCode countLimit jumpLimit andCode orCode)
open Instruction (width)
open Machine

/-- Calls are followed, given the callee and the arguments on the stack. -/
def Calling (H : Heap) (n : Nat) (call : Site → Val → List Val → Eval Val) : Prop :=
  ∀ {A : Activation} {s : Store} {ip : Nat} {ℓ : List (String × Nat)} {θ : List Val} {f : Val}
    {us : List Val} {m : Machine} (nested : Bool),
    Stands H A s ip ℓ (θ ++ [f] ++ us) m → Coded A ip [.call us.length.toUInt8] →
    us.length ≤ countLimit → Follows n (call (A.site nested ℓ θ) f us s) m fun v s' m' =>
      Stands H A s' (ip + 2) ℓ (θ ++ [v]) m'

section Code

variable {H : Heap} {A : Activation} {nested : Bool} {ℓ : List (String × Nat)} {n : Nat}
  {call : Site → Val → List Val → Eval Val}

/-- A distance that fits in an operand. -/
theorem toNat_distance {k : Nat} (h : k ≤ jumpLimit) : k.toUInt16.toNat = k := by
  have : k < 65536 := Nat.lt_succ_of_le h
  simpa using this

section Shortcuts

variable {s : Store} {ip : Nat} {θ : List Val} {v : Val} {m : Machine} {js : List Instruction}
  {right : Eval Val}

theorem width_andCode (js : List Instruction) : width (andCode js) = 4 + width js := by
  rw [andCode, Instruction.width_cons, Instruction.width_cons]
  exact (Nat.add_assoc 3 1 _).symm

theorem width_orCode (js : List Instruction) : width (orCode js) = 7 + width js := by
  rw [orCode, Instruction.width_cons, Instruction.width_cons, Instruction.width_cons,
    ← Nat.add_assoc, ← Nat.add_assoc]
  rfl

/-- The right operand is evaluated if the left one does not decide. -/
theorem Stands.andThen (st : Stands H A s ip ℓ (θ ++ [v]) m) (code : Coded A ip (andCode js))
    (short : width js + 1 ≤ jumpLimit)
    (follows : ∀ {m : Machine}, Stands H A s (ip + 4) ℓ θ m → Coded A (ip + 4) js →
      Follows n (right s) m fun v s' m' => Stands H A s' (ip + 4 + width js) ℓ (θ ++ [v]) m') :
    Follows n ((if v.isFalsey then return v else right : Eval Val) s) m fun v s' m' =>
      Stands H A s' (ip + width (andCode js)) ℓ (θ ++ [v]) m' := by
  obtain ⟨m₁, step, st⟩ := st.branches code
  refine Follows.less (.step step ?_) (Nat.le_succ n)
  rw [width_andCode, ← Nat.add_assoc]
  rw [toNat_distance short] at st
  cases hv : v.isFalsey with
  | true =>
    rw [hv, if_pos rfl] at st
    rw [if_pos rfl]
    refine .pure ?_
    rwa [show ip + 4 + width js = ip + 3 + (width js + 1) by omega]
  | false =>
    rw [hv, if_neg Bool.false_ne_true] at st
    rw [if_neg Bool.false_ne_true]
    obtain ⟨m₂, step, st⟩ := st.drops code.tail
    exact Follows.less (.step step (follows st code.tail.tail)) (Nat.le_succ n)

theorem Stands.orElse (st : Stands H A s ip ℓ (θ ++ [v]) m) (code : Coded A ip (orCode js))
    (short : width js + 1 ≤ jumpLimit)
    (follows : ∀ {m : Machine}, Stands H A s (ip + 7) ℓ θ m → Coded A (ip + 7) js →
      Follows n (right s) m fun v s' m' => Stands H A s' (ip + 7 + width js) ℓ (θ ++ [v]) m') :
    Follows n ((if v.isFalsey then right else return v : Eval Val) s) m fun v s' m' =>
      Stands H A s' (ip + width (orCode js)) ℓ (θ ++ [v]) m' := by
  obtain ⟨m₁, step, st⟩ := st.branches code
  refine Follows.less (.step step ?_) (Nat.le_succ n)
  rw [width_orCode, ← Nat.add_assoc]
  cases hv : v.isFalsey with
  | true =>
    rw [hv, if_pos rfl] at st
    rw [if_pos rfl]
    obtain ⟨m₂, step, st⟩ := st.drops code.tail.tail
    exact Follows.less (.step step (follows st code.tail.tail.tail)) (Nat.le_succ n)
  | false =>
    rw [hv, if_neg Bool.false_ne_true] at st
    rw [if_neg Bool.false_ne_true]
    obtain ⟨m₂, step, st⟩ := st.jumps code.tail
    rw [toNat_distance short, show ip + 3 + 3 + (width js + 1) = ip + 7 + width js by omega] at st
    exact Follows.less (.step step (.pure st)) (Nat.le_succ n)

end Shortcuts

mutual

theorem ExprCode.follows (calling : Calling H n call) (hs : H.size ≤ UInt32.size) {c c' : Context}
    {e : Syntax.Expr} {is : List Instruction} (he : ExprCode c e is c') :
    ∀ {s : Store} {ip : Nat} {θ : List Val} {m : Machine}, Placed A nested ℓ c → e.Named →
      e.Plain → c'.Before A.chain A.body.chunk.constants H → Coded A ip is →
      Stands H A s ip ℓ θ m →
      Follows n (expr machineLimits call (A.site nested ℓ θ) e s) m fun v s' m' =>
        Stands H A s' (ip + width is) ℓ (θ ++ [v]) m' := by
  cases he with
  | nil => exact fun _ _ _ _ code st => st.pushes code (fun _ _ => .nil) rfl
  | true => exact fun _ _ _ _ code st => st.pushes code (fun _ _ => .bool true) rfl
  | false => exact fun _ _ _ _ code st => st.pushes code (fun _ _ => .bool false) rfl
  | number hk =>
    intro s ip θ m pl _ plain b code st
    have found := (pl.plain.added hk fun x e => Value.number.inj e ▸ plain).2
    exact st.literal code (b.pool found) fun _ _ _ => .number _
  | string hk =>
    intro s ip θ m pl _ _ b code st
    obtain ⟨r, found, text⟩ := Context.textConstant?_value hk
    have text := b.heap.string? (text (Nat.le_trans b.heap.size_le hs))
    exact st.literal code (b.pool found) fun _ _ kept => .string (kept.string? text)
  | get hr =>
    intro s ip θ m pl named _ b code st
    have means := pl.means hr (Syntax.Expr.named_get.1 named) b hs
    obtain ⟨pre, post, code, at_⟩ := code.at_
    exact st.read means code at_
  | set hr he =>
    intro s ip θ m pl named plain b code st
    obtain ⟨hn, named⟩ := Syntax.Expr.named_set.1 named
    have pl₁ := pl.resolve hr hn
    have b₁ := (he.grows.grown pl₁.proper).before b
    have means := pl.means hr hn b₁ hs
    rw [expr, Instruction.width_append, ← Nat.add_assoc]
    refine (ExprCode.follows calling hs he pl₁ named plain b code.left st).bind fun v s' m' st => ?_
    obtain ⟨pre, post, code, at_⟩ := code.right.at_
    exact st.assign means code at_
  | unary he =>
    intro s ip θ m pl named plain b code st
    rw [expr, Instruction.width_append, ← Nat.add_assoc]
    refine (ExprCode.follows calling hs he pl named plain b code.left st).bind fun v s' m' st => ?_
    exact st.unary _ code.right rfl
  | binary he he' =>
    intro s ip θ m pl named plain b code st
    obtain ⟨na, nb⟩ := Syntax.Expr.named_binary.1 named
    have pl₁ := pl.expr he na plain.1
    have b₁ := (he'.grows.grown pl₁.proper).before b
    rw [expr, Instruction.width_append, Instruction.width_append, ← Nat.add_assoc, ← Nat.add_assoc]
    refine (ExprCode.follows calling hs he pl na plain.1 b₁ code.left st).bind fun v s' m' st => ?_
    rw [Activation.site_up]
    refine (ExprCode.follows calling hs he' pl₁ nb plain.2 b code.right.left st).bind
      fun w s' m' st => ?_
    exact st.binary code.right.right rfl
  | and he he' short =>
    intro s ip θ m pl named plain b code st
    obtain ⟨na, nb⟩ := Syntax.Expr.named_and.1 named
    have pl₁ := pl.expr he na plain.1
    have b₁ := (he'.grows.grown pl₁.proper).before b
    rw [expr, Instruction.width_append, ← Nat.add_assoc]
    refine (ExprCode.follows calling hs he pl na plain.1 b₁ code.left st).bind fun v s' m' st => ?_
    exact st.andThen code.right short fun st code =>
      ExprCode.follows calling hs he' pl₁ nb plain.2 b code st
  | or he he' short =>
    intro s ip θ m pl named plain b code st
    obtain ⟨na, nb⟩ := Syntax.Expr.named_or.1 named
    have pl₁ := pl.expr he na plain.1
    have b₁ := (he'.grows.grown pl₁.proper).before b
    rw [expr, Instruction.width_append, ← Nat.add_assoc]
    refine (ExprCode.follows calling hs he pl na plain.1 b₁ code.left st).bind fun v s' m' st => ?_
    exact st.orElse code.right short fun st code =>
      ExprCode.follows calling hs he' pl₁ nb plain.2 b code st
  | call he hes few =>
    intro s ip θ m pl named plain b code st
    obtain ⟨na, nb⟩ := Syntax.Expr.named_call.1 named
    have pl₁ := pl.expr he na plain.1
    have b₁ := (hes.grows.grown pl₁.proper).before b
    rw [expr, Instruction.width_append, Instruction.width_append, ← Nat.add_assoc, ← Nat.add_assoc]
    refine (ExprCode.follows calling hs he pl na plain.1 b₁ code.left st).bind fun f s' m' st => ?_
    rw [Activation.site_up]
    refine (ExprsCode.follows calling hs hes pl₁ nb plain.2 b code.right.left st).bind
      fun us s' m' ⟨length, st⟩ => ?_
    rw [← length] at few
    exact calling nested st (length ▸ code.right.right) few
  | index he he' =>
    intro s ip θ m pl named plain b code st
    obtain ⟨na, nb⟩ := Syntax.Expr.named_index.1 named
    have pl₁ := pl.expr he na plain.1
    have b₁ := (he'.grows.grown pl₁.proper).before b
    rw [expr, Instruction.width_append, Instruction.width_append, ← Nat.add_assoc, ← Nat.add_assoc]
    refine (ExprCode.follows calling hs he pl na plain.1 b₁ code.left st).bind fun v s' m' st => ?_
    rw [Activation.site_up]
    refine (ExprCode.follows calling hs he' pl₁ nb plain.2 b code.right.left st).bind
      fun w s' m' st => ?_
    exact st.readElement code.right.right rfl
  | setIndex he he' he'' =>
    intro s ip θ m pl named plain b code st
    obtain ⟨na, nb, nc⟩ := Syntax.Expr.named_setIndex.1 named
    have pl₁ := pl.expr he na plain.1
    have pl₂ := pl₁.expr he' nb plain.2.1
    have b₂ := (he''.grows.grown pl₂.proper).before b
    have b₁ := (he'.grows.grown pl₁.proper).before b₂
    rw [expr, Instruction.width_append, Instruction.width_append, Instruction.width_append,
      ← Nat.add_assoc, ← Nat.add_assoc, ← Nat.add_assoc]
    refine (ExprCode.follows calling hs he pl na plain.1 b₁ code.left st).bind fun u s' m' st => ?_
    rw [Activation.site_up]
    refine (ExprCode.follows calling hs he' pl₁ nb plain.2.1 b₂ code.right.left st).bind
      fun v s' m' st => ?_
    rw [Activation.site_up]
    refine (ExprCode.follows calling hs he'' pl₂ nc plain.2.2 b code.right.right.left st).bind
      fun w s' m' st => ?_
    exact st.assignElement code.right.right.right rfl
  | array hes few =>
    intro s ip θ m pl named plain b code st
    rw [expr, Instruction.width_append, ← Nat.add_assoc]
    refine (ExprsCode.follows calling hs hes pl named plain b code.left st).bind
      fun us s' m' ⟨length, st⟩ => ?_
    rw [← length] at few
    exact st.array few (length ▸ code.right)

theorem ExprsCode.follows (calling : Calling H n call) (hs : H.size ≤ UInt32.size) {c c' : Context}
    {es : Syntax.Exprs} {is : List Instruction} (he : ExprsCode c es is c') :
    ∀ {s : Store} {ip : Nat} {θ : List Val} {m : Machine}, Placed A nested ℓ c → es.Named →
      es.Plain → c'.Before A.chain A.body.chunk.constants H → Coded A ip is →
      Stands H A s ip ℓ θ m →
      Follows n (exprs machineLimits call (A.site nested ℓ θ) es s) m fun us s' m' =>
        us.length = es.length ∧ Stands H A s' (ip + width is) ℓ (θ ++ us) m' := by
  cases he with
  | nil =>
    intro s ip θ m _ _ _ _ _ st
    refine .pure ⟨rfl, ?_⟩
    rwa [List.append_nil]
  | cons he hes =>
    intro s ip θ m pl named plain b code st
    obtain ⟨na, nb⟩ := Syntax.Exprs.named_cons.1 named
    have pl₁ := pl.expr he na plain.1
    have b₁ := (hes.grows.grown pl₁.proper).before b
    rw [exprs, Instruction.width_append]
    refine (ExprCode.follows calling hs he pl na plain.1 b₁ code.left st).bind fun v s' m' st => ?_
    rw [Activation.site_up]
    refine (ExprsCode.follows calling hs hes pl₁ nb plain.2 b code.right st).bind
      fun us s' m' ⟨length, st⟩ => .pure ⟨congrArg (· + 1) length, ?_⟩
    rwa [List.append_assoc, Nat.add_assoc] at st

end

end Code

end Semantics
end StackScript
