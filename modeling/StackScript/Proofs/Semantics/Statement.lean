import StackScript.Proofs.Semantics.Control

/-!
# StackScript.Proofs.Semantics.Statement

The code of a statement does what the statement does, given that calls do: `StmtCode.follows`, by
induction on the code.
-/

namespace StackScript
namespace Semantics

open Compile (Context Local StmtCode ExprCode ClauseCode Loop choiceCode)
open Instruction (width stream)
open Machine
open Syntax (Stmt)

variable {H : Heap} {A : Activation} {n : Nat} {call : Site → Val → List Val → Eval Val}

section Goes

variable {nested : Bool} {ℓ new : List (String × Nat)} {names names' : List String} {ip : Nat}
  {σ : Site} {s : Store} {m : Machine}

theorem Goes.nothing (g : Goes H A nested ℓ names ip σ s m) (none : names = []) :
    σ = A.site nested ℓ [] ∧ Stands H A s ip ℓ [] m := by
  obtain ⟨new, rfl, e, st⟩ := g
  rw [none, ite_self, List.map_eq_nil_iff] at e
  subst e
  exact ⟨rfl, st⟩

/-- One statement behind another. -/
theorem Goes.append (g : Goes H A nested (new ++ ℓ) names' ip σ s m)
    (e : new.map Prod.fst = if nested then names else []) :
    Goes H A nested ℓ (names' ++ names) ip σ s m := by
  obtain ⟨new', rfl, e', st⟩ := g
  refine ⟨new' ++ new, by rw [List.append_assoc], ?_, by rwa [List.append_assoc]⟩
  rw [List.map_append, e, e']
  cases nested <;> rfl

theorem map_append_names (e : new.map Prod.fst = if nested then names else []) :
    (new ++ ℓ).map Prod.fst = (if nested then names else []) ++ ℓ.map Prod.fst := by
  rw [List.map_append, e]

end Goes

section Blocks

variable {nested : Bool} {ℓ new : List (String × Nat)} {c c' : Context}

theorem Placed.openScope (pl : Placed A nested ℓ c) : Placed A true ℓ c.openScope :=
  ⟨Context.openScope_proper pl.proper, ⟨pl.rooted.draft, pl.rooted.enclosing⟩, pl.plain.congr rfl,
    by rw [Context.scopes_openScope, pl.scopes]; rfl⟩

theorem Placed.clause (pl : Placed A nested ℓ c) {e : Option Syntax.Expr}
    {is : Option (List Instruction)} (h : ClauseCode c e is c') (named : ∀ a ∈ e, a.Named)
    (plain : ∀ a ∈ e, a.Plain) : Placed A nested ℓ c' := by
  cases h with
  | absent => exact pl
  | present h => exact pl.expr h (named _ rfl) (plain _ rfl)

/-- The variables of a scope go at its end. -/
theorem Stands.scopeEnd {s : Store} {ip : Nat} {m : Machine} {news : List Local}
    (settled : c.draft.Settled) (e : c.openScope.Extends news c')
    (names : new.map Prod.fst = news.map Local.name) (code : Coded A ip c'.scopeCode)
    (st : Stands H A s ip (new ++ ℓ) [] m) :
    ∃ k m', m.run k = (.running, m') ∧ Stands H A s (ip + width c'.scopeCode) ℓ [] m' := by
  have scopeCode : c'.scopeCode =
      (news.map Local.captured).map fun b => if b then .closeUpvalue else .pop := by
    rw [(e.closeScope settled).1, List.map_map]
    rfl
  rw [scopeCode] at code ⊢
  exact st.leaves (by simpa using (congrArg List.length names).symm) code

end Blocks

theorem StmtCode.follows (calling : Calling H n call) (hs : H.size ≤ UInt32.size) {c c' : Context}
    {a : Stmt} {is : List Instruction} (h : StmtCode c a is c') :
    ∀ {nested : Bool} {ℓ : List (String × Nat)} {s : Store} {ip : Nat} {m : Machine},
      Placed A nested ℓ c → c.draft.Settled → a.Named → a.Plain →
      c'.Before A.chain A.body.chunk.constants H → Coded A ip is → Stands H A s ip ℓ [] m →
      Follows n (stmt machineLimits call n (A.site nested ℓ []) a s) m
        (Flows H A (Goes H A nested ℓ a.declared (ip + width is))) := by
  induction h with
  | empty =>
    intro nested ℓ s ip m _ _ _ _ _ _ st
    exact .pure (a := Flow.next (A.site nested ℓ [])) (Goes.here st _ fun _ => rfl)
  | seq ha hb ih ih' =>
    intro nested ℓ s ip m pl settled named plain b code st
    obtain ⟨_, e, hp₁, -⟩ := ha.extends pl.proper settled
    obtain ⟨_, e', -, -⟩ := hb.extends hp₁ (e.settled settled)
    rw [stmt, Instruction.width_append, ← Nat.add_assoc]
    refine (ih pl settled named.1 plain.1 (e'.before b) code.left st).bind fun f s' m' flows => ?_
    cases f with
    | returned v => exact .pure (a := Flow.returned v) flows
    | next τ =>
      obtain ⟨new, rfl, names, st⟩ := flows
      obtain ⟨pl', settled'⟩ := pl.stmt settled ha named.1 plain.1 (map_append_names names)
      exact (ih' pl' settled' named.2 plain.2 b code.right st).imp fun f s m flows =>
        flows.imp fun σ g => g.append names
  | expression he =>
    intro nested ℓ s ip m pl _ named plain b code st
    rw [stmt, Instruction.width_append, ← Nat.add_assoc]
    refine (ExprCode.follows calling hs he pl named plain b code.left st).bind fun v s' m' st => ?_
    obtain ⟨m'', step, st⟩ := Stands.drops (θ := []) st code.right
    exact .stepped step (.pure (a := Flow.next (A.site nested ℓ [])) (Goes.here st _ fun _ => rfl))
  | print he =>
    intro nested ℓ s ip m pl _ named plain b code st
    rw [stmt, Instruction.width_append, ← Nat.add_assoc]
    refine (ExprCode.follows calling hs he pl named plain b code.left st).bind fun v s' m' st => ?_
    refine (Stands.prints (θ := []) st code.right).bind fun _ s' m' st => ?_
    exact .pure (a := Flow.next (A.site nested ℓ [])) (Goes.here st _ fun _ => rfl)
  | var hv he =>
    intro nested ℓ s ip m pl settled named plain b code st
    have pl₁ := pl.newVariable settled hv
    have pl' := pl₁.expr he named plain
    have b' := Context.before_makeReadable b
    rw [pl'.definition] at code ⊢
    rw [stmt, Instruction.width_append, ← Nat.add_assoc]
    refine (ExprCode.follows calling hs he pl₁ named plain b' code.left st).bind
      fun v s' m' st => ?_
    refine (Stands.declares st code.right fun top => ?_).bind fun σ s' m' goes =>
      .pure (a := Flow.next σ) goes
    refine Context.newVariable?_text hv ((he.grows.grown pl₁.proper).before b') hs ?_
    simpa [pl.nested_eq] using top
  | @function c c₁ c₂ c₃ c' name k k' xs a is lines hv hx hb hl hc _ =>
    intro nested ℓ s ip m pl settled named plain b code st
    have definition (ℓ' : List (String × Nat))
        (names : ℓ'.map Prod.fst = (if nested then [name] else []) ++ ℓ.map Prod.fst) :
        c'.definition k = defining nested k := by
      obtain ⟨pl', -⟩ := pl.stmt settled (.function hv hx hb hl hc) named plain names
      rw [← pl'.definition, Context.definition, Context.definition, Context.depth_makeReadable]
    rw [stmt]
    cases nested with
    | true =>
      rw [definition ((name, s.cells.size) :: ℓ) rfl] at code ⊢
      obtain ⟨-, x, made⟩ := pl.function settled ((name, s.cells.size) :: ℓ) hs hv hx hb hl hc
        named plain b rfl
      rw [defining, if_pos rfl, List.append_nil] at code ⊢
      exact (st.localFunction made code).bind fun σ s' m' goes => .pure (a := Flow.next σ) goes
    | false =>
      rw [definition ℓ rfl] at code ⊢
      obtain ⟨b₁, x, made⟩ := pl.function settled ℓ hs hv hx hb hl hc named plain b rfl
      have top : ¬0 < c.draft.depth := by simpa using pl.nested_eq
      exact (st.globalFunction made code (Context.newVariable?_text hv b₁ hs top)).bind
        fun σ s' m' goes => .pure (a := Flow.next σ) goes
  | block ha ih =>
    intro nested ℓ s ip m pl settled named plain b code st
    obtain ⟨news, e, -, names⟩ := ha.extends (Context.openScope_proper pl.proper)
      (Context.openScope_settled settled)
    have names : news.map Local.name = _ := names.trans (if_pos (Nat.succ_pos _))
    rw [stmt, Instruction.width_append, ← Nat.add_assoc]
    refine (ih pl.openScope (Context.openScope_settled settled) named plain
      ⟨b.chain, b.pool, b.heap⟩ code.left st).bind fun f s' m' flows => flows.leave fun τ g => ?_
    obtain ⟨new, rfl, names', st⟩ := g
    obtain ⟨k, m'', run, st⟩ := st.scopeEnd settled e (names'.trans names.symm) code.right
    exact ⟨k, m'', run, Goes.here st _ fun _ => rfl⟩
  | ifElse he ha hb none none' short short' ih ih' =>
    intro nested ℓ s ip m pl settled named plain b code st
    have pl₁ := pl.expr he named.1 plain.1
    have g := he.grows.grown pl.proper
    have settled₁ := g.draft.settled settled
    obtain ⟨_, e, hp₂, -⟩ := ha.extends pl₁.proper settled₁
    obtain ⟨_, e', -, -⟩ := hb.extends hp₂ (e.settled settled₁)
    have none := Stmt.declared_of_declaresNothing none
    have none' := Stmt.declared_of_declaresNothing none'
    obtain ⟨pl₂, settled₂⟩ := pl₁.stmt settled₁ ha named.2.1 plain.2.1
      (show ℓ.map Prod.fst = _ from by simp [none])
    have b₂ := e'.before b
    rw [stmt, Instruction.width_append, ← Nat.add_assoc]
    have hold : Follows n (holds machineLimits call (A.site nested ℓ []) (some _) s) m
        fun b s' m' => ∃ v, b = !v.isFalsey ∧ Stands H A s' (ip + width _) ℓ [v] m' :=
      (ExprCode.follows calling hs he pl named.1 plain.1 (e.before b₂) code.left st).bind
        fun v s' m' st => .pure ⟨v, rfl, st⟩
    refine hold.bind fun b' s' m' holds => ?_
    obtain ⟨v, e, st⟩ := holds
    have swap {x y : Eval Flow} :
        (if b' = true then x else y) = if v.isFalsey = true then y else x := by
      rw [e]
      cases v.isFalsey <;> rfl
    rw [swap]
    refine st.choice code.right short short' (fun st code => ?_) (fun st code => ?_)
      fun st => Goes.here st _ fun _ => rfl
    · exact (ih pl₁ settled₁ named.2.1 plain.2.1 b₂ code st).imp fun f s m flows =>
        flows.imp fun σ g => (g.nothing none).2
    · exact (ih' pl₂ settled₂ named.2.2 plain.2.2 b code st).imp fun f s m flows =>
        flows.imp fun σ g => (g.nothing none').2
  | «while» he ha none fits ih =>
    intro nested ℓ s ip m pl settled named plain b code st
    have pl₁ := pl.expr he named.1 plain.1
    have settled₁ := (he.grows.grown pl.proper).draft.settled settled
    obtain ⟨_, e, -, -⟩ := ha.extends pl₁.proper settled₁
    have none := Stmt.declared_of_declaresNothing none
    have bodyCode := code.loopBody.left
    rw [stmt]
    refine (st.rounds code fits (fun st => ?_) (fun st => ?_) fun st => ?_).imp fun f s m flows =>
      flows.imp fun σ goes => goes.1 ▸ Goes.here goes.2 _ fun _ => rfl
    · exact st.condition calling hs (.present he) pl (fun _ h => Option.some.inj h ▸ named.1)
        (fun _ h => Option.some.inj h ▸ plain.1) (e.before b) code fits
    · exact (ih pl₁ settled₁ named.2 plain.2 b bodyCode st).imp fun f s m flows =>
        flows.imp fun σ g => (g.nothing none).2
    · exact st.between (e := Option.none) calling hs .absent pl (fun _ h => by cases h)
        (fun _ h => by cases h)
        ((he.grows.grown pl.proper).before (e.before b)) code fits
  | @«for» _ c₁ c₂ c₃ c' _ _ _ _ _ _ _ _ hi h₁ h₂ ha none fits ih ih' =>
    intro nested ℓ s ip m pl settled named plain b code st
    obtain ⟨ni, n₁, n₂, na⟩ := named
    obtain ⟨pi, p₁, p₂, pa⟩ := plain
    have settled₀ := Context.openScope_settled settled
    obtain ⟨_, e₀, hp₁, names₀⟩ := hi.extends (Context.openScope_proper pl.proper) settled₀
    have g₂ := h₁.grows.grown hp₁
    have g₃ := h₂.grows.grown (h₁.grows.proper hp₁)
    have hp₃ := h₂.grows.proper (h₁.grows.proper hp₁)
    obtain ⟨_, raised, e₁⟩ := e₀.transGrown (g₂.trans g₃)
    obtain ⟨_, e₂, -, names₂⟩ := ha.extends hp₃ (e₁.settled settled₀)
    have none := Stmt.declared_of_declaresNothing none
    rw [none, ite_self] at names₂
    obtain ⟨news, raised', e⟩ := e₁.transGrown (e₂.ofNames names₂)
    have names : news.map Local.name = _ :=
      (Context.names_of_raised raised').trans ((Context.names_of_raised raised).trans
        (names₀.trans (if_pos (Nat.succ_pos _))))
    have b' : c'.Before A.chain A.body.chunk.constants H := ⟨b.chain, b.pool, b.heap⟩
    have b₃ := e₂.before b'
    have b₂ := g₃.before b₃
    have loopCode := code.right.left
    rw [stmt, Instruction.width_append, Instruction.width_append, ← Nat.add_assoc, ← Nat.add_assoc]
    refine (ih pl.openScope settled₀ ni pi (g₂.before b₂) code.left st).bind fun f s' m' flows => ?_
    cases f with
    | returned v => exact .pure (a := Flow.returned v) flows
    | next τ =>
      obtain ⟨new, rfl, names', st⟩ := flows
      obtain ⟨pl₁, settled₁⟩ := pl.openScope.stmt settled₀ hi ni pi (map_append_names names')
      have pl₂ := pl₁.clause h₁ n₁ p₁
      have pl₃ := pl₂.clause h₂ n₂ p₂
      have settled₃ := g₃.draft.settled (g₂.draft.settled settled₁)
      refine (st.rounds loopCode fits (fun st => ?_) (fun st => ?_) fun st => ?_).further
        fun f s m flows => flows.further fun σ goes => ?_
      · exact st.condition calling hs h₁ pl₁ n₁ p₁ b₂ loopCode fits
      · exact (ih' pl₃ settled₃ na pa b' loopCode.loopBody.left st).imp
          fun f s m flows => flows.imp fun σ g => (g.nothing none).2
      · exact st.between calling hs h₂ pl₂ n₂ p₂ b₃ loopCode fits
      · obtain ⟨e', st⟩ := goes
        obtain ⟨k, m'', run, st⟩ := st.scopeEnd settled e (names'.trans names.symm) code.right.right
        exact ⟨k, m'', run, e' ▸ Goes.here st _ fun _ => rfl⟩
  | «return» kind he =>
    intro nested ℓ s ip m pl _ named plain b code st
    rw [stmt]
    refine (ExprCode.follows calling hs he pl named plain b code.left st).bind fun v s' m' st => ?_
    exact .pure (a := Flow.returned v) ⟨_, _, st, code.right⟩

end Semantics
end StackScript
