import StackScript.Proofs.Semantics.Declare
import StackScript.Proofs.Semantics.Expression

/-!
# StackScript.Proofs.Semantics.Control

What the instructions of statements do.

* `Stands.prints`: a value is printed.
* `Agrees.close`: places are taken from the stack, and captured variables stay behind their
  upvalues. `Stands.leaves`: the variables of a scope go.
* `Flows`: a machine is behind a statement, or at the end of a function with its result.
* `Stands.choice`, `Stands.rounds`: the code of an `if` and of a loop, given what its parts do.
-/

namespace StackScript
namespace Semantics

open Compile (Context ClauseCode ExprCode Loop jumpLimit choiceCode)
open Instruction (width stream)
open Machine

variable {H : Heap} {A : Activation} {τ : Ties} {s : Store} {ip : Nat} {ℓ ℓ' : List (String × Nat)}
  {θ : List Val} {v : Val} {m : Machine} {is : List Instruction} {n : Nat} {nested : Bool}

section Output

theorem Rests.written (r : Rests H A τ s ip ℓ θ m) (output : Output) :
    Rests H A τ { s with output } ip ℓ θ { m with output } :=
  ⟨r.frames, r.later, r.agrees.celled, ⟨r.agrees.backed.stored, r.agrees.backed.listed,
    r.agrees.backed.unshared, r.agrees.backed.kept⟩, rfl, r.agrees.world⟩

/-- A value is printed. -/
theorem Stands.prints (st : Stands H A s ip ℓ (θ ++ [v]) m) (code : Coded A ip (.print :: is)) :
    Follows n (printLine v s) m fun _ s' m' => Stands H A s' (ip + 1) ℓ θ m' := by
  obtain ⟨pre, post, code, at_⟩ := code.at_
  have ends {τ : Ties} {m₁ : Machine} {Q : Unit → Machine → Prop} {E : Stop → Machine → Prop}
      (r : Fetched H A τ s (ip + 1) ℓ (θ ++ [v]) m₁)
      (h : ∀ m', m'.output = (s.output.write (s.display v ++ "\n")).1 →
        Rests H A τ { s with output := (s.output.write (s.display v ++ "\n")).1 } (ip + 1) ℓ θ m' →
        if (s.output.write (s.display v ++ "\n")).2 then Q () m' else E (.output .full) m') :
      Ends (execute .print) m₁ Q E := by
    obtain ⟨stack, w, hw, same, under⟩ := r.pop
    rw [show execute .print = printTop from rfl, printTop_eq]
    refine .bind (ends_pop_push hw (.bind (.modifyGet ?_)))
    have shown : m₁.heap.display w = s.display v := same.display r.agrees.backed
    have output : m₁.output = s.output := r.agrees.output
    rw [shown, output]
    have behind := h _ rfl (under.written (s.output.write (s.display v ++ "\n")).1)
    show Ends (do
      unless (s.output.write (s.display v ++ "\n")).2 do
        throw (.output .full)) _ Q E
    cases fits : (s.output.write (s.display v ++ "\n")).2 with
    | true =>
      rw [fits, if_pos rfl] at behind
      exact .pure behind
    | false =>
      rw [fits, if_neg Bool.false_ne_true] at behind
      exact .throw behind
  rw [printLine_apply]
  dsimp only
  cases fits : (s.output.write (s.display v ++ "\n")).2 with
  | true =>
    have step : ∃ m', m.step = (.running, m') ∧
        Stands H A { s with output := (s.output.write (s.display v ++ "\n")).1 } (ip + 1) ℓ θ m' :=
      st.next code at_ fun τ m₁ r => ends r fun m' _ r' => by
        rw [fits, if_pos rfl]
        exact fun _ => ⟨τ, r'⟩
    obtain ⟨m', step, st'⟩ := step
    exact Follows.less (.step step (.pure st')) (Nat.le_succ n)
  | false =>
    obtain ⟨m', e, output⟩ : ∃ m' : Machine, m.step = m'.stopWith (.output .full) ∧
        m'.output = (s.output.write (s.display v ++ "\n")).1 :=
      st.stops code at_ fun τ m₁ r => ends r fun m' output _ => by
        rw [fits]
        exact ⟨rfl, output⟩
    refine ⟨0, m, rfl, ?_, ?_, nofun⟩
    · rw [e]
      rfl
    · rw [e]
      exact output

end Output

section Scopes

/-- Places are taken from the stack. Captured variables stay behind their upvalues. -/
theorem Agrees.close {slots xs : List Slot} (a : Agrees H τ s (slots ++ xs) m)
    (tracked : ∃ σ, Tracked m.heap m.openUpvalues σ) (fits : m.heap.size ≤ UInt32.size) :
    m.heap.Kept (m.closeUpvalues slots.length).heap ∧
      Agrees H τ s slots
        { m.closeUpvalues slots.length with stack := m.stack.shrink slots.length } := by
  obtain ⟨σ, tracked⟩ := tracked
  obtain ⟨kept, size, -⟩ := closeFrom_kept slots.length m.stack m.openUpvalues m.heap
  rw [closeUpvalues_eq]
  refine ⟨kept, a.celled.close tracked.opened tracked.sorted, ?_, a.output, a.world⟩
  refine a.backed.calm (.closeFrom slots.length m.stack m.openUpvalues m.heap) (.refl τ) rfl rfl ?_
  rwa [size]

/-- The last variable goes. It is not captured: no upvalue is open on a slot that is taken. -/
theorem Stands.pops {name : String} {c : Nat} (st : Stands H A s ip ((name, c) :: ℓ) [] m)
    (code : Coded A ip (.pop :: is)) :
    ∃ m', m.step = (.running, m') ∧ Stands H A s (ip + 1) ℓ [] m' := by
  obtain ⟨pre, post, code, at_⟩ := code.at_
  obtain ⟨τ, r⟩ := st.rests
  have read := Activation.read? code at_
  have size := r.size
  rw [Activation.slots_cons, List.length_append, List.length_singleton] at size
  have ends : Ends instruction m
      (fun _ m' => m' = { m with frames := A.frame (ip + 1) :: A.outer, stack := m.stack.pop })
      fun _ _ => False := by
    refine ends_instruction_at r code at_ (.bind (.pop ?_ fun _ _ => .pure rfl))
    show 0 < m.stack.size
    omega
  have step : m.step = (.running, { m with
      frames := A.frame (ip + 1) :: A.outer, stack := m.stack.pop }) := by
    obtain ⟨m', rfl, e⟩ | ⟨_, _, none, -⟩ := step_cases r.frames ends
    · exact e
    · exact none.elim
  refine ⟨_, step, st.live.step step, τ, rfl, r.later, ?_, r.agrees.backed, r.agrees.output,
    r.agrees.world⟩
  have celled := r.agrees.celled
  rw [Activation.slots_cons] at celled
  refine celled.popCell fun u hu => ?_
  have lower := st.live.invariant.closes (by rw [step]; exact st.live.size)
    (by rw [step]; exact nofun) hu (by rw [step]; exact hu)
  have floor : m.floor = m.stack.size - 1 := by
    have next : m.next? = some (A.frame ip, .pop) := by
      rw [next?, r.frames]
      simp only [Activation.frame, r.function, read, Option.bind_eq_bind, Option.bind_some,
        Option.pure_def]
    rw [Machine.floor, next]
    rfl
  omega

/-- The last variable goes. If it is captured, it is behind its upvalue from then on. -/
theorem Stands.closes {name : String} {c : Nat} (st : Stands H A s ip ((name, c) :: ℓ) [] m)
    (code : Coded A ip (.closeUpvalue :: is)) :
    ∃ m', m.step = (.running, m') ∧ Stands H A s (ip + 1) ℓ [] m' := by
  obtain ⟨pre, post, code, at_⟩ := code.at_
  refine st.next code at_ fun τ m₁ r => ?_
  have size := r.size
  have agrees := r.agrees
  rw [Activation.slots_cons] at agrees
  rw [Activation.slots_cons, List.length_append, List.length_singleton] at size
  obtain ⟨kept, agrees⟩ := agrees.close r.tracked r.fits
  refine .bind (.modify (.bind (.pop (by show 0 < m₁.stack.size; omega) fun w _ => .pure fun _ =>
    ⟨τ, ?_⟩)))
  have least : m₁.stack.size - 1 = (A.slots ℓ []).length := by omega
  have popped : m₁.stack.pop = m₁.stack.shrink (A.slots ℓ []).length := by
    apply Array.ext'
    rw [← least]
    simp [List.dropLast_eq_take]
  rw [least]
  refine ⟨r.frames, r.later.trans ⟨.refl τ, kept⟩, ?_⟩
  show Agrees H τ s (A.slots ℓ [])
    { m₁.closeUpvalues (A.slots ℓ []).length with stack := m₁.stack.pop }
  rw [popped]
  exact agrees

/-- The variables of a scope go, the last one first. -/
theorem Stands.leaves {captured : List Bool} {new : List (String × Nat)}
    (length : captured.length = new.length) (st : Stands H A s ip (new ++ ℓ) [] m)
    (code : Coded A ip (captured.map fun b => if b then .closeUpvalue else .pop)) :
    ∃ k m', m.run k = (.running, m') ∧
      Stands H A s (ip + width (captured.map fun b => if b then .closeUpvalue else .pop)) ℓ [] m' := by
  induction captured generalizing new ip m with
  | nil =>
    obtain rfl : new = [] := List.length_eq_zero_iff.1 length.symm
    exact ⟨0, m, rfl, st⟩
  | cons b captured ih =>
    cases new with
    | nil => cases length
    | cons p new =>
      have step : ∃ m', m.step = (.running, m') ∧ Stands H A s (ip + 1) (new ++ ℓ) [] m' := by
        cases b with
        | false => exact st.pops code
        | true => exact st.closes code
      obtain ⟨m₁, step, st⟩ := step
      have one : (if b then Instruction.closeUpvalue else .pop).size = 1 := by cases b <;> rfl
      have code := code.tail
      rw [one] at code
      obtain ⟨k, m', run, st⟩ := ih (Nat.succ.inj length) st code
      refine ⟨k + 1, m', ?_, ?_⟩
      · rw [run_of_running (by rw [step]), step]
        exact run
      · rw [List.map_cons, Instruction.width_cons, one, ← Nat.add_assoc]
        exact st

end Scopes

section Flows

variable {Q : Site → Store → Machine → Prop}

/-- A machine is at the end of its function, with the result on top of the stack. -/
def Returns (H : Heap) (A : Activation) (v : Val) (s : Store) (m : Machine) : Prop :=
  ∃ ip ℓ, Stands H A s ip ℓ [v] m ∧ Coded A ip [.ret]

/-- A machine is behind a statement, or at the end of its function. -/
def Flows (H : Heap) (A : Activation) (Q : Site → Store → Machine → Prop) :
    Flow → Store → Machine → Prop
  | .next σ, s, m => Q σ s m
  | .returned v, s, m => Returns H A v s m

theorem Flows.imp {f : Flow} {R : Site → Store → Machine → Prop} (h : Flows H A Q f s m)
    (next : ∀ σ, Q σ s m → R σ s m) : Flows H A R f s m := by
  cases f with
  | next σ => exact next σ h
  | returned v => exact h

/-- Steps behind a statement. -/
theorem Flows.further {f : Flow} {R : Site → Store → Machine → Prop} (h : Flows H A Q f s m)
    (behind : ∀ σ, Q σ s m → ∃ k m', m.run k = (.running, m') ∧ R σ s m') :
    ∃ k m', m.run k = (.running, m') ∧ Flows H A R f s m' := by
  cases f with
  | next σ => exact behind σ h
  | returned v => exact ⟨0, m, rfl, h⟩

/-- Behind a scope. The variables of the scope are still on the stack in front of its end. -/
theorem Flows.leave {f : Flow} {σ : Site} {R : Site → Store → Machine → Prop}
    (h : Flows H A Q f s m) (behind : ∀ τ, Q τ s m → ∃ k m', m.run k = (.running, m') ∧ R σ s m') :
    Follows n ((return f.leave σ : Eval Flow) s) m (Flows H A R) := by
  cases f with
  | next τ =>
    obtain ⟨k, m', run, r⟩ := behind τ h
    exact .reach run r
  | returned v => exact .pure h

end Flows

section Choice

theorem width_choiceCode (js ks : List Instruction) :
    width (choiceCode js ks) = 8 + width js + width ks := by
  rw [choiceCode, Instruction.width_cons, Instruction.width_cons, Instruction.width_append,
    Instruction.width_cons, Instruction.width_cons]
  show 3 + (1 + (width js + (3 + (1 + width ks)))) = _
  omega

/-- One of two branches is taken. -/
theorem Stands.choice {js ks : List Instruction} {yes no : Eval Flow} {σ : Site}
    {Q : Site → Store → Machine → Prop} (st : Stands H A s ip ℓ [v] m)
    (code : Coded A ip (choiceCode js ks)) (short : width js + 4 ≤ jumpLimit)
    (short' : width ks + 1 ≤ jumpLimit)
    (hyes : ∀ {m : Machine}, Stands H A s (ip + 4) ℓ [] m → Coded A (ip + 4) js →
      Follows n (yes s) m (Flows H A fun _ s m => Stands H A s (ip + 4 + width js) ℓ [] m))
    (hno : ∀ {m : Machine}, Stands H A s (ip + 8 + width js) ℓ [] m →
      Coded A (ip + 8 + width js) ks →
      Follows n (no s) m (Flows H A fun _ s m => Stands H A s (ip + 8 + width js + width ks) ℓ [] m))
    (behind : ∀ {s m}, Stands H A s (ip + width (choiceCode js ks)) ℓ [] m → Q σ s m) :
    Follows n ((if v.isFalsey then (do return (← no).leave σ) else (do return (← yes).leave σ) :
      Eval Flow) s) m (Flows H A Q) := by
  rw [width_choiceCode] at behind
  obtain ⟨m₁, step, st⟩ := Stands.branches (θ := []) st code
  refine .stepped step ?_
  rw [toNat_distance short] at st
  cases hv : v.isFalsey with
  | true =>
    rw [hv, if_pos rfl, show ip + 3 + (width js + 4) = ip + 7 + width js by omega] at st
    rw [if_pos rfl]
    have code := code.tail.tail.right.tail
    have e : ip + 3 + 1 + width js + 3 = ip + 7 + width js := by omega
    have code : Coded A (ip + 7 + width js) (.pop :: ks) := e ▸ code
    obtain ⟨m₂, step, st⟩ := Stands.drops (θ := []) st code
    refine .stepped step ?_
    have e : ip + 7 + width js + 1 = ip + 8 + width js := by omega
    have code : Coded A (ip + 8 + width js) ks := e ▸ code.tail
    rw [e] at st
    refine (hno st code).bind fun f s' m' flows => flows.leave fun τ st => ⟨0, m', rfl, behind ?_⟩
    rwa [show ip + (8 + width js + width ks) = ip + 8 + width js + width ks by omega]
  | false =>
    rw [hv, if_neg Bool.false_ne_true] at st
    rw [if_neg Bool.false_ne_true]
    obtain ⟨m₂, step, st⟩ := Stands.drops (θ := []) st code.tail
    refine .stepped step ?_
    refine (hyes st code.tail.tail.left).bind fun f s' m' flows => flows.leave fun τ st => ?_
    obtain ⟨m'', step, st⟩ := st.jumps code.tail.tail.right
    rw [toNat_distance short'] at st
    refine ⟨1, m'', by rw [run_of_running (by rw [step]), step]; rfl, behind ?_⟩
    rwa [show ip + (8 + width js + width ks) = ip + 4 + width js + 3 + (width ks + 1) by omega]

end Choice

section Loops

variable {call : Site → Val → List Val → Eval Val} {c c' : Context} {e : Option Syntax.Expr}
  {l : Loop}

/-- Where the body of a loop ends. -/
def bodyEnd (ip : Nat) (l : Loop) : Nat := ip + width l.head + l.stepWidth + width l.body

theorem width_loop (l : Loop) :
    width l.code = width l.head + l.stepWidth + width l.body + (3 + width l.tail) := by
  rw [Loop.code, Instruction.width_append, Instruction.width_append, Instruction.width_append,
    l.width_stepCode, Instruction.width_cons]
  show _ + (_ + (_ + (3 + _))) = _
  omega

theorem Coded.loopBody (code : Coded A ip l.code) :
    Coded A (ip + width l.head + l.stepWidth) (l.body ++ .loop l.back.toUInt16 :: l.tail) := by
  have := code.right.right
  rwa [l.width_stepCode] at this

/-- The condition decides between the loop and what is behind it. -/
theorem Stands.condition (calling : Calling H n call) (hs : H.size ≤ UInt32.size)
    (he : ClauseCode c e l.condition c') (pl : Placed A nested ℓ c) (named : ∀ a ∈ e, a.Named)
    (plain : ∀ a ∈ e, a.Plain) (b : c'.Before A.chain A.body.chunk.constants H)
    (code : Coded A ip l.code) (fits : l.Fits) (st : Stands H A s ip ℓ [] m) :
    Follows n (holds machineLimits call (A.site nested ℓ []) e s) m fun b s' m' =>
      Stands H A s' (if b then ip + width l.head else ip + width l.code) ℓ [] m' := by
  have behind := code.loopBody.right.tail
  have head := code.left
  have total := width_loop l
  have short := fits.exit
  obtain ⟨condition, step, body⟩ := l
  cases he with
  | absent => exact .pure st
  | @present _ e is he =>
    have headWidth : width (Loop.head ⟨some is, step, body⟩) = width is + 4 := by
      rw [Loop.head, Option.elim_some, Instruction.width_append]
      rfl
    have tailWidth : width (Loop.tail ⟨some is, step, body⟩) = 1 := rfl
    have exit : Loop.exit ⟨some is, step, body⟩ =
        Loop.stepWidth ⟨some is, step, body⟩ + (width body + 4) := rfl
    refine (ExprCode.follows calling hs he pl (named e rfl) (plain e rfl) b head.left st).bind
      fun v s' m' st => ?_
    obtain ⟨m₁, step₁, st⟩ := Stands.branches (θ := []) st head.right
    refine .stepped step₁ ?_
    rw [toNat_distance (short rfl)] at st
    cases hv : v.isFalsey with
    | true =>
      rw [hv, if_pos rfl] at st
      have e : ip + width (Loop.head ⟨some is, step, body⟩) + Loop.stepWidth ⟨some is, step, body⟩ +
          width body + 3 = ip + width is + 3 + Loop.exit ⟨some is, step, body⟩ := by omega
      have behind : Coded A (ip + width is + 3 + Loop.exit ⟨some is, step, body⟩) [.pop] :=
        e ▸ behind
      obtain ⟨m₂, step₂, st⟩ := Stands.drops (θ := []) st behind
      refine .stepped step₂ (.pure (a := !true) ?_)
      rw [if_neg (by simp), total]
      rwa [show ip + (width (Loop.head ⟨some is, step, body⟩) +
        Loop.stepWidth ⟨some is, step, body⟩ + width body +
        (3 + width (Loop.tail ⟨some is, step, body⟩))) =
        ip + width is + 3 + Loop.exit ⟨some is, step, body⟩ + 1 by omega]
    | false =>
      rw [hv, if_neg Bool.false_ne_true] at st
      obtain ⟨m₂, step₂, st⟩ := Stands.drops (θ := []) st head.right.tail
      refine .stepped step₂ (.pure (a := !false) ?_)
      rw [if_pos (by simp), headWidth]
      exact st

/-- What runs between two rounds. It ends where the machine goes back to the condition. -/
theorem Stands.between (calling : Calling H n call) (hs : H.size ≤ UInt32.size)
    (he : ClauseCode c e l.step c') (pl : Placed A nested ℓ c) (named : ∀ a ∈ e, a.Named)
    (plain : ∀ a ∈ e, a.Plain) (b : c'.Before A.chain A.body.chunk.constants H)
    (code : Coded A ip l.code) (fits : l.Fits) (st : Stands H A s (bodyEnd ip l) ℓ [] m) :
    Follows n (perform machineLimits call (A.site nested ℓ []) e s) m fun _ s' m' =>
      ∃ m'', m'.step = (.running, m'') ∧ Stands H A s' ip ℓ [] m'' := by
  have back := code.loopBody.right
  have stepCode := code.right.left
  have short := fits.back
  have again := fits.step
  obtain ⟨condition, step, body⟩ := l
  cases he with
  | absent =>
    refine .pure (st.loops back ?_)
    rw [toNat_distance short]
    show ip + width (Loop.head ⟨condition, none, body⟩) + 0 + width body + 3 =
      ip + (width (Loop.head ⟨condition, none, body⟩) + (width body + 3))
    omega
  | @present _ e is he =>
    have again : width (Loop.head ⟨condition, some is, body⟩) + (width is + 7) ≤ jumpLimit :=
      again rfl
    obtain ⟨m₁, step₁, st⟩ := st.loops (j := ip + width (Loop.head ⟨condition, some is, body⟩) + 3)
      back (by
        rw [toNat_distance short]
        show ip + width (Loop.head ⟨condition, some is, body⟩) + (width is + 7) + width body + 3 =
          ip + width (Loop.head ⟨condition, some is, body⟩) + 3 + (width is + 4 + (width body + 3))
        omega)
    refine .stepped step₁ ?_
    have stepCode := stepCode.tail
    refine (ExprCode.follows calling hs he pl (named e rfl) (plain e rfl) b stepCode.left st).bind
      fun v s' m' st => ?_
    obtain ⟨m₂, step₂, st⟩ := Stands.drops (θ := []) st stepCode.right
    refine .stepped step₂ (.pure (st.loops stepCode.right.tail ?_))
    show ip + width (Loop.head ⟨condition, some is, body⟩) + 3 + width is + 1 + 3 =
      ip + (width (Loop.head ⟨condition, some is, body⟩) + (width is + 7)).toUInt16.toNat
    rw [toNat_distance again]
    omega

/-- The step stands in front of the body. -/
theorem Stands.skip (code : Coded A ip l.code) (fits : l.Fits)
    (st : Stands H A s (ip + width l.head) ℓ [] m) :
    ∃ k m', m.run k = (.running, m') ∧ Stands H A s (ip + width l.head + l.stepWidth) ℓ [] m' := by
  have stepCode := code.right.left
  have again := fits.step
  obtain ⟨condition, step, body⟩ := l
  cases step with
  | none => exact ⟨0, m, rfl, st⟩
  | some is =>
    have again : width (Loop.head ⟨condition, some is, body⟩) + (width is + 7) ≤ jumpLimit :=
      again rfl
    obtain ⟨m', step, st⟩ := st.jumps stepCode
    refine ⟨1, m', by rw [run_of_running (by rw [step]), step]; rfl, ?_⟩
    rw [toNat_distance (by omega)] at st
    rwa [show ip + width (Loop.head ⟨condition, some is, body⟩) +
      Loop.stepWidth ⟨condition, some is, body⟩ =
      ip + width (Loop.head ⟨condition, some is, body⟩) + 3 + (width is + 4) by
        show _ + (width is + 7) = _
        omega]

/-- A loop, given what its parts do. -/
theorem Stands.rounds {condition : Eval Bool} {body : Eval Flow} {step : Eval Unit} {σ : Site}
    (st : Stands H A s ip ℓ [] m) (code : Coded A ip l.code) (fits : l.Fits)
    (hcondition : ∀ {s m}, Stands H A s ip ℓ [] m → Follows n (condition s) m fun b s' m' =>
      Stands H A s' (if b then ip + width l.head else ip + width l.code) ℓ [] m')
    (hbody : ∀ {s m}, Stands H A s (ip + width l.head + l.stepWidth) ℓ [] m →
      Follows n (body s) m (Flows H A fun _ s m => Stands H A s (bodyEnd ip l) ℓ [] m))
    (hstep : ∀ {s m}, Stands H A s (bodyEnd ip l) ℓ [] m → Follows n (step s) m fun _ s' m' =>
      ∃ m'', m'.step = (.running, m'') ∧ Stands H A s' ip ℓ [] m'') :
    Follows n (Semantics.rounds n σ condition body step s) m
      (Flows H A fun τ s m => τ = σ ∧ Stands H A s (ip + width l.code) ℓ [] m) := by
  refine Follows.loop (P := fun s m => Stands H A s ip ℓ [] m) (fun s m st => ?_) (Nat.le_refl n) st
  refine (hcondition st).bind fun b s' m' st => ?_
  cases b with
  | false => exact .pure (a := some (Flow.next σ)) ⟨rfl, st⟩
  | true =>
    obtain ⟨k, m₁, run, st⟩ := st.skip code fits
    refine ((hbody st).bind fun f s' m' flows => ?_).after run |>.less (Nat.le_add_left n k)
    cases f with
    | next τ => exact (hstep flows).bind fun _ s'' m'' again => .pure (a := none) again
    | returned v => exact .pure (a := some (Flow.returned v)) flows

end Loops

end Semantics
end StackScript
