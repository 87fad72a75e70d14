import StackScript.Proofs.Compile.Verify

/-!
# StackScript.Proofs.Compile.Operation

The code of an operation stands right behind the code of its operands.

* `Operation`: a binary operator with its operands. `Stmt.operations`: all of a tree, those in the
  bodies of functions too.
* `Operates`: code in which an operation is compiled.
* `Emitted`: a function on the heap has such code.
* `compile_emits`: every operation of a source that compiles is emitted.
-/

namespace StackScript

namespace Syntax

open Compile (BinaryOperator)

structure Operation where
  operator : BinaryOperator
  left : Expr
  right : Expr

mutual

def Expr.operations : Expr → List Operation
  | .nil | .bool _ | .number _ | .string _ | .get _ => []
  | .set _ e | .unary _ e => e.operations
  | .binary op a b => ⟨op, a, b⟩ :: (a.operations ++ b.operations)
  | .and a b | .or a b | .index a b => a.operations ++ b.operations
  | .call e es => e.operations ++ es.operations
  | .setIndex a i v => a.operations ++ (i.operations ++ v.operations)
  | .array es => es.operations

def Exprs.operations : Exprs → List Operation
  | .nil => []
  | .cons e es => e.operations ++ es.operations

end

def Stmt.operations : Stmt → List Operation
  | .empty => []
  | .seq a b => a.operations ++ b.operations
  | .expression e | .print e | .var _ e | .return e => e.operations
  | .function _ _ a | .block a => a.operations
  | .ifElse e a b => e.operations ++ (a.operations ++ b.operations)
  | .while e a => e.operations ++ a.operations
  | .for i c s a =>
    i.operations ++ (c.elim [] Expr.operations ++ (s.elim [] Expr.operations ++ a.operations))

end Syntax

/-- What was allocated stays on the heap. -/
theorem Heap.Extends.mem_allocate {h h' : Heap} {o : Object}
    (e : (h.allocate o).1.Extends h') : o ∈ h'.objects :=
  Array.mem_of_getElem? (e (Array.getElem?_push_size ..))

namespace Compile

open Syntax Instruction

/-- The operands of an operation are compiled one after the other, and its operator behind. -/
def Operates (t : Operation) (is : List Instruction) : Prop :=
  ∃ pre js ks post c c₁ c₂, ExprCode c t.left js c₁ ∧ ExprCode c₁ t.right ks c₂ ∧
    is = pre ++ (js ++ (ks ++ (t.operator.code ++ post)))

/-- A function on the heap computes an operation. -/
def Emitted (h : Heap) (t : Operation) : Prop :=
  ∃ f is, .function f ∈ h.objects ∧ f.chunk.code.toList = stream is ∧ Operates t is

namespace Operates

variable {t : Operation} {is js : List Instruction}

theorem behind (h : Operates t is) (ks : List Instruction) : Operates t (ks ++ is) := by
  obtain ⟨pre, js, ks', post, c, c₁, c₂, hl, hr, rfl⟩ := h
  exact ⟨ks ++ pre, js, ks', post, c, c₁, c₂, hl, hr, (List.append_assoc ..).symm⟩

theorem before (h : Operates t is) (ks : List Instruction) : Operates t (is ++ ks) := by
  obtain ⟨pre, js, ks', post, c, c₁, c₂, hl, hr, rfl⟩ := h
  exact ⟨pre, js, ks', post ++ ks, c, c₁, c₂, hl, hr, by simp only [List.append_assoc]⟩

end Operates

/-- Operations are compiled in some code, or in functions on the heap. -/
def Computes (h : Heap) (ts : List Operation) (is : List Instruction) : Prop :=
  ∀ t ∈ ts, Operates t is ∨ Emitted h t

namespace Computes

variable {h : Heap} {ts us : List Operation} {is js : List Instruction}

theorem nil : Computes h [] is := fun _ ht => absurd ht List.not_mem_nil

theorem behind (ht : Computes h ts is) (ks : List Instruction) : Computes h ts (ks ++ is) :=
  fun t hm => (ht t hm).imp_left (·.behind ks)

theorem before (ht : Computes h ts is) (ks : List Instruction) : Computes h ts (is ++ ks) :=
  fun t hm => (ht t hm).imp_left (·.before ks)

theorem cons {i : Instruction} (ht : Computes h ts is) : Computes h ts (i :: is) := ht.behind [i]

theorem append (ht : Computes h ts is) (hu : Computes h us js) :
    Computes h (ts ++ us) (is ++ js) := by
  intro t hm
  obtain hm | hm := List.mem_append.1 hm
  · exact ht.before js t hm
  · exact hu.behind is t hm

end Computes

section Code

variable {h : Heap}

mutual

theorem ExprCode.computes {c c' : Context} {e : Expr} {is : List Instruction}
    (he : ExprCode c e is c') : Computes h e.operations is := by
  cases he with
  | nil | true | false | number | string | get =>
    rw [Expr.operations]
    exact .nil
  | set _ he | unary he =>
    rw [Expr.operations]
    exact he.computes.before _
  | @binary _ c₁ _ op a b is js ha hb =>
    rw [Expr.operations]
    intro t ht
    obtain rfl | ht := List.mem_cons.1 ht
    · exact .inl ⟨[], is, js, [], c, c₁, c', ha, hb, by simp [code_binary]⟩
    · exact ha.computes.append (hb.computes.before _) t ht
  | and ha hb =>
    rw [Expr.operations]
    exact ha.computes.append hb.computes.cons.cons
  | or ha hb =>
    rw [Expr.operations]
    exact ha.computes.append hb.computes.cons.cons.cons
  | index ha hb =>
    rw [Expr.operations]
    exact ha.computes.append (hb.computes.before _)
  | call ha hb =>
    rw [Expr.operations]
    exact ha.computes.append (hb.computes.before _)
  | setIndex ha hi hv =>
    rw [Expr.operations]
    exact ha.computes.append (hi.computes.append (hv.computes.before _))
  | array he =>
    rw [Expr.operations]
    exact he.computes.before _

theorem ExprsCode.computes {c c' : Context} {es : Exprs} {is : List Instruction}
    (he : ExprsCode c es is c') : Computes h es.operations is := by
  cases he with
  | nil =>
    rw [Exprs.operations]
    exact .nil
  | cons he hes =>
    rw [Exprs.operations]
    exact he.computes.append hes.computes

end

theorem ClauseCode.computes {c c' : Context} {e : Option Expr} {is : Option (List Instruction)}
    (he : ClauseCode c e is c') : Computes h (e.elim [] Expr.operations) (is.elim [] id) := by
  cases he with
  | absent => exact .nil
  | present he => exact he.computes

theorem computes_loop {ts₁ ts₂ ts₃ : List Operation} {l : Loop}
    (h₁ : Computes h ts₁ (l.condition.elim [] id)) (h₂ : Computes h ts₂ (l.step.elim [] id))
    (h₃ : Computes h ts₃ l.body) : Computes h (ts₁ ++ (ts₂ ++ ts₃)) l.code := by
  have head : Computes h ts₁ l.head := by
    unfold Loop.head
    cases hc : l.condition with
    | none => rwa [hc] at h₁
    | some is =>
      rw [hc] at h₁
      exact h₁.before _
  have step : Computes h ts₂ l.stepCode := by
    unfold Loop.stepCode
    cases hc : l.step with
    | none => rwa [hc] at h₂
    | some is =>
      rw [hc] at h₂
      exact (h₂.before _).cons
  exact head.append (step.append (h₃.before _))

/-- A function is on the heap behind its declaration, so that what its body computes is emitted. -/
theorem Computes.emitted {ts : List Operation} {is js : List Instruction} {f : Function}
    (ht : Computes h ts is) (hf : .function f ∈ h.objects) (code : f.chunk.code.toList = stream is) :
    Computes h ts js :=
  fun t hm => .inr ((ht t hm).elim (fun o => ⟨f, is, hf, code, o⟩) id)

theorem StmtCode.computes {c c' : Context} {a : Stmt} {is : List Instruction}
    (ha : StmtCode c a is c') : c.Proper → c.draft.Settled → c'.heap.Extends h →
    Computes h a.operations is := by
  induction ha with
  | empty => exact fun _ _ _ => .nil
  | seq ha hb ih ih' =>
    intro hp st ext
    obtain ⟨hp₁, st₁, -⟩ := ha.later hp st
    obtain ⟨-, -, ext₂⟩ := hb.later hp₁ st₁
    exact (ih hp st (ext₂.trans ext)).append (ih' hp₁ st₁ ext)
  | expression he | print he | var _ he | «return» _ he => exact fun _ _ _ => he.computes.before _
  | @function c c₁ c₂ c₃ c' name k k' xs a is lines hv hx hb hl hc ih =>
    intro hp st ext
    obtain ⟨_, e, hp₁, -, -⟩ := Context.extends_variable hv hp (.refl _)
    obtain ⟨hp₂, st₂, around, ext₂, -⟩ := Context.enterFunction_proper hx hp₁ (e.settled st)
    obtain ⟨_, ⟨_, -, g, -⟩, hp₃, -⟩ := hb.extends hp₂ st₂
    have growns := g.enclosing
    rw [around] at growns
    obtain ⟨-, -, -, -, heap, -⟩ := Context.leaveFunction?_grown hc hp₃ growns (ext₂.trans g.heap)
    have last : Heap.Extends _ h := heap ▸ (Context.heap_makeReadable c' ▸ ext)
    have body := ih hp₂ st₂ ((c₃.heap.extends_allocate _).trans last)
    exact (body.before _).emitted last.mem_allocate rfl
  | block ha ih =>
    intro hp st ext
    exact (ih (Context.openScope_proper hp) (Context.openScope_settled st) ext).before _
  | ifElse he ha hb _ _ _ _ ih ih' =>
    intro hp st ext
    have hp₁ := he.grows.proper hp
    have st₁ := (he.grows.grown hp).draft.settled st
    obtain ⟨hp₂, st₂, -⟩ := ha.later hp₁ st₁
    obtain ⟨-, -, ext₂⟩ := hb.later hp₂ st₂
    have yes := ih hp₁ st₁ (ext₂.trans ext)
    have no := ih' hp₂ st₂ ext
    exact he.computes.append (yes.append no.cons.cons).cons.cons
  | «while» he ha _ _ ih =>
    intro hp st ext
    have body := ih (he.grows.proper hp) ((he.grows.grown hp).draft.settled st) ext
    exact computes_loop (l := ⟨some _, none, _⟩) he.computes .nil body
  | «for» hi h₁ h₂ ha _ _ ih ih' =>
    intro hp st ext
    have st₀ := Context.openScope_settled st
    obtain ⟨hp₁, st₁, -⟩ := hi.later (Context.openScope_proper hp) st₀
    have grows := h₁.grows.trans h₂.grows
    have hp₃ := grows.proper hp₁
    have st₃ := (grows.grown hp₁).draft.settled st₁
    obtain ⟨-, -, ext₄⟩ := ha.later hp₃ st₃
    have start := ih (Context.openScope_proper hp) st₀
      ((grows.grown hp₁).heap.trans (ext₄.trans ext))
    have body := ih' hp₃ st₃ ext
    exact start.append ((computes_loop (l := ⟨_, _, _⟩) h₁.computes h₂.computes body).before _)

end Code

/-- Every operation of a source that compiles stands in a function that was put on the heap, right
behind the code of its operands. -/
theorem compile_emits {source : String} {heap : Heap} {r : Ref}
    (hc : (compile source heap).result = .ok r) :
    ∃ a, Parses source a ∧ ∀ t ∈ a.operations, Emitted (compile source heap).heap t := by
  obtain ⟨a, f, heap', parses, code, allocated⟩ := compile_ok hc
  cases code with
  | @intro c _ is lines code hlines =>
    have last : Heap.Extends (c.heap.allocate (.function (c.finish
        (stream (is ++ [.pushNil, .ret])) lines))).1 (compile source heap).heap := by
      rw [allocated]
      exact .refl _
    have computes := code.computes (Context.script_proper heap) (Context.script_settled heap)
      ((c.heap.extends_allocate _).trans last)
    refine ⟨a, parses, fun t ht => ?_⟩
    obtain o | emitted := (computes.before [.pushNil, .ret]) t ht
    · exact ⟨_, _, last.mem_allocate, rfl, o⟩
    · exact emitted

end Compile
end StackScript
