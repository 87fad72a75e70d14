import StackScript.Proofs.Compile.Growth

/-!
# StackScript.Proofs.Compile.Body

The body of a script does not return.

* `Silent`: code without a return. `ExprCode.silent`: that of expressions.
* `StmtCode.silent`: that of statements at the level of the script.
* `Function.IsScript`: what scripts become.
-/

namespace StackScript
namespace Compile

open Syntax Instruction

/-- Code that does not end a call. -/
def Silent (is : List Instruction) : Prop := .ret ∉ is

namespace Silent

variable {is js : List Instruction}

theorem nil : Silent [] := List.not_mem_nil

theorem append (h : Silent is) (h' : Silent js) : Silent (is ++ js) := fun hm =>
  (List.mem_append.1 hm).elim h h'

theorem cons {i : Instruction} (hi : i ≠ .ret) (h : Silent is) : Silent (i :: is) := fun hm =>
  (List.mem_cons.1 hm).elim (fun e => hi e.symm) h

theorem single {i : Instruction} (hi : i ≠ .ret) : Silent [i] := .cons hi .nil

end Silent

variable {c c' : Context}

theorem ne_ret_of_resolve? {name : String} {p : Place} (h : c.resolve? name = some (c', p)) :
    p.read ≠ .ret ∧ p.assign ≠ .ret := by
  unfold Context.resolve? at h
  split at h
  next =>
    split at h
    next =>
      cases h
      simp
    next => cases h
  next =>
    split at h
    next =>
      split at h
      next =>
        cases h
        simp
      next => cases h
    next =>
      obtain ⟨_, -, e⟩ := Option.map_eq_some_iff.1 h
      cases e
      simp

theorem silent_binary (op : BinaryOperator) : Silent (binaryCode op) := by
  cases op <;> simp [Silent, binaryCode]

theorem silent_definition (c : Context) (k : UInt8) : Silent (c.definition k) := by
  unfold Context.definition
  split
  · exact .nil
  · exact .single (by simp)

theorem silent_scopeCode (c : Context) : Silent c.scopeCode := by
  intro hm
  obtain ⟨l, -, e⟩ := List.mem_map.1 hm
  split at e <;> cases e

theorem silent_closureCode (c : Context) (k : UInt8) : Silent (c.closureCode k) := by
  unfold Context.closureCode Silent
  simp

mutual

theorem ExprCode.silent {c c' : Context} {e : Expr} {is : List Instruction}
    (h : ExprCode c e is c') : Silent is := by
  cases h with
  | nil | true | false | number | string => exact .single (by simp)
  | get h => exact .single (ne_ret_of_resolve? h).1
  | set h h' => exact h'.silent.append (.single (ne_ret_of_resolve? h).2)
  | @unary _ _ op _ _ h => exact h.silent.append (.single (by cases op <;> simp [unaryCode]))
  | binary h h' => exact h.silent.append (h'.silent.append (silent_binary _))
  | and h h' => exact h.silent.append (.cons (by simp) (.cons (by simp) h'.silent))
  | or h h' =>
    exact h.silent.append (.cons (by simp) (.cons (by simp) (.cons (by simp) h'.silent)))
  | call h h' => exact h.silent.append (h'.silent.append (.single (by simp)))
  | index h h' => exact h.silent.append (h'.silent.append (.single (by simp)))
  | setIndex h h' h'' =>
    exact h.silent.append (h'.silent.append (h''.silent.append (.single (by simp))))
  | array h => exact h.silent.append (.single (by simp))

theorem ExprsCode.silent {c c' : Context} {es : Exprs} {is : List Instruction}
    (h : ExprsCode c es is c') : Silent is := by
  cases h with
  | nil => exact .nil
  | cons h h' => exact h.silent.append h'.silent

end

theorem ClauseCode.silent {e : Option Expr} {is : Option (List Instruction)}
    (h : ClauseCode c e is c') : ∀ js ∈ is, Silent js := by
  cases h with
  | absent => simp
  | present h =>
    rintro js ⟨⟩
    exact h.silent

theorem silent_loop {l : Loop} (condition : ∀ is ∈ l.condition, Silent is)
    (step : ∀ is ∈ l.step, Silent is) (body : Silent l.body) : Silent l.code := by
  obtain ⟨is₁, is₂, js⟩ := l
  have head : Silent (Loop.head ⟨is₁, is₂, js⟩) := by
    cases is₁ with
    | none => exact .nil
    | some is => exact (condition is rfl).append (.cons (by simp) (.single (by simp)))
  have again : Silent (Loop.stepCode ⟨is₁, is₂, js⟩) := by
    cases is₂ with
    | none => exact .nil
    | some is =>
      exact .cons (by simp) ((step is rfl).append (.cons (by simp) (.single (by simp))))
  have tail : Silent (Loop.tail ⟨is₁, is₂, js⟩) := by
    cases is₁ with
    | none => exact .nil
    | some => exact .single (by simp)
  exact head.append (again.append (body.append (.cons (by simp) tail)))

theorem kind_of_extends {news : List Local} (h : c.Extends news c') :
    c'.draft.kind = c.draft.kind := by
  obtain ⟨_, -, g, -⟩ := h
  exact g.draft.kind

/-- Only functions return. -/
theorem StmtCode.silent {a : Stmt} {is : List Instruction} (h : StmtCode c a is c') :
    c.Proper → c.draft.Settled → c.draft.kind = .script → Silent is := by
  induction h with
  | empty => exact fun _ _ _ => .nil
  | seq ha _ ih ih' =>
    intro hp hs hk
    obtain ⟨_, e, hp₁, -⟩ := ha.extends hp hs
    exact (ih hp hs hk).append (ih' hp₁ (e.settled hs) ((kind_of_extends e).trans hk))
  | expression he | print he => exact fun _ _ _ => he.silent.append (.single (by simp))
  | var _ he => exact fun _ _ _ => he.silent.append (silent_definition _ _)
  | function => exact fun _ _ _ => (silent_closureCode _ _).append (silent_definition _ _)
  | block _ ih =>
    intro hp hs hk
    exact (ih (Context.openScope_proper hp) (Context.openScope_settled hs) hk).append
      (silent_scopeCode _)
  | ifElse he ha _ _ _ _ _ ih ih' =>
    intro hp hs hk
    have g := he.grows.grown hp
    have hp₁ := he.grows.proper hp
    have hs₁ := g.draft.settled hs
    obtain ⟨_, e, hp₂, -⟩ := ha.extends hp₁ hs₁
    have hk₁ := g.draft.kind.trans hk
    exact he.silent.append (.cons (by simp) (.cons (by simp) ((ih hp₁ hs₁ hk₁).append
      (.cons (by simp) (.cons (by simp) (ih' hp₂ (e.settled hs₁) ((kind_of_extends e).trans hk₁)))))))
  | «while» he _ _ _ ih =>
    intro hp hs hk
    have g := he.grows.grown hp
    refine silent_loop ?_ (by simp) (ih (he.grows.proper hp) (g.draft.settled hs)
      (g.draft.kind.trans hk))
    rintro js ⟨⟩
    exact he.silent
  | «for» hi h₁ h₂ _ _ _ ih ih' =>
    intro hp hs hk
    have hp₀ := Context.openScope_proper hp
    have hs₀ := Context.openScope_settled hs
    obtain ⟨_, e, hp₁, -⟩ := hi.extends hp₀ hs₀
    have g := (h₁.grows.trans h₂.grows).grown hp₁
    have hk₁ := (kind_of_extends e).trans hk
    exact (ih hp₀ hs₀ hk).append ((silent_loop h₁.silent h₂.silent
      (ih' ((h₁.grows.trans h₂.grows).proper hp₁) (g.draft.settled (e.settled hs₀))
        (g.draft.kind.trans hk₁))).append (silent_scopeCode _))
  | «return» hk' =>
    intro _ _ hk
    rw [hk] at hk'
    cases hk'

/-- The body of a script, in front of its last two instructions. -/
theorem silent_script {h : Heap} {a : Stmt} {is : List Instruction}
    (hc : StmtCode (Context.script h) a is c) : Silent is :=
  hc.silent (Context.script_proper h) (Context.script_settled h) rfl

end Compile

open Compile Instruction

/-- A function without a name that returns in its last octet only. -/
structure Function.IsScript (f : Function) : Prop where
  name : f.name = none
  code : ∃ is, f.chunk.code.toList = stream (is ++ [.pushNil, .ret]) ∧ Silent is

end StackScript
