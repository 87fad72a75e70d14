import StackScript.Machine.Run

/-!
# StackScript.Proofs.Machine.Blind

Only `print` touches the output.

* `Machine.onto`: a machine with another output.
* `Blind`: a computation that neither reads nor changes the output.
* `Blind.execute`: all instructions but `print`.
-/

namespace StackScript
namespace Machine

/-- The machine with another output. -/
def onto (m : Machine) (o : Output) : Machine := { m with output := o }

/-- The same end of a computation, with another output. -/
def ontoResult {α : Type} (o : Output) :
    EStateM.Result Stop Machine α → EStateM.Result Stop Machine α
  | .ok a m => .ok a (m.onto o)
  | .error s m => .error s (m.onto o)

/-- A computation ends in the same way whatever the output is, and leaves it alone. -/
def Blind {α : Type} (x : Exec α) : Prop := ∀ m o, x (m.onto o) = ontoResult o (x m)

namespace Blind

section Monad

variable {α β : Type} {x : Exec α} {f : α → Exec β}

theorem pure (a : α) : Blind (Pure.pure a : Exec α) := fun _ _ => rfl

theorem throw (s : Stop) : Blind (throw s : Exec α) := fun _ _ => rfl

theorem fail (f : Fault) : Blind (fail f : Exec α) := fun _ _ => rfl

theorem malformed (cause : Malformed) : Blind (malformed cause : Exec α) := fun _ _ => rfl

theorem require (a : Option α) (cause : Malformed) : Blind (require a cause) := by
  cases a with
  | some a => exact .pure a
  | none => exact .malformed cause

theorem bind (h : Blind x) (h' : ∀ a, Blind (f a)) : Blind (x >>= f) := by
  intro m o
  simp only [Bind.bind, EStateM.bind, h m o]
  cases x m with
  | ok a m' => exact h' a m' o
  | error s m' => rfl

/-- What follows may look at anything but the output. -/
theorem get {f : Machine → Exec β} (same : ∀ m o, f (m.onto o) = f m) (h : ∀ m, Blind (f m)) :
    Blind (MonadState.get >>= f) := by
  intro m o
  show f (m.onto o) (m.onto o) = ontoResult o (f m m)
  rw [same, h m m o]

theorem modify {f : Machine → Machine} (h : ∀ m o, f (m.onto o) = (f m).onto o) :
    Blind (modify f : Exec Unit) := by
  intro m o
  show EStateM.Result.ok () (f (m.onto o)) = .ok () ((f m).onto o)
  rw [h]

theorem modifyGet {f : Machine → α × Machine}
    (h : ∀ m o, f (m.onto o) = ((f m).1, (f m).2.onto o)) : Blind (modifyGet f : Exec α) := by
  intro m o
  show EStateM.Result.ok (f (m.onto o)).1 (f (m.onto o)).2 = .ok (f m).1 ((f m).2.onto o)
  rw [h]

end Monad

section Primitives

theorem push (v : Value) : Blind (push v) := by
  refine .get (fun _ _ => rfl) fun m => ?_
  split
  · exact .modify fun _ _ => rfl
  · exact .fail _

theorem pop : Blind pop := by
  refine .get (fun _ _ => rfl) fun m => ?_
  split
  · exact .bind (.modify fun _ _ => rfl) fun _ => .pure _
  · exact .malformed _

theorem peek (distance : Nat) : Blind (peek distance) := by
  refine .get (fun _ _ => rfl) fun m => ?_
  dsimp only
  split
  · exact .require _ _
  · exact .malformed _

theorem slot (i : Nat) : Blind (slot i) := .get (fun _ _ => rfl) fun _ => .require _ _

theorem setSlot (i : Nat) (v : Value) : Blind (setSlot i v) := by
  refine .get (fun _ _ => rfl) fun m => ?_
  split
  · exact .modify fun _ _ => rfl
  · exact .malformed _

theorem truncate (size : Nat) : Blind (truncate size) := .modify fun _ _ => rfl

theorem drop (count : Nat) : Blind (drop count) := .modify fun _ _ => rfl

theorem frame : Blind frame := by
  refine .get (fun _ _ => rfl) fun m => ?_
  split
  · exact .pure _
  · exact .malformed _

theorem setIp (ip : Nat) : Blind (setIp ip) := by
  refine .modify fun m o => ?_
  cases hf : m.frames <;> simp [onto, hf]

theorem chunk : Blind chunk := by
  refine .bind .frame fun call => .get (fun _ _ => rfl) fun m => ?_
  split
  · exact .pure _
  · exact .malformed _

theorem constant (i : UInt8) : Blind (constant i) := .bind .chunk fun _ => .require _ _

theorem nameConstant (i : UInt8) : Blind (nameConstant i) := by
  refine .bind (.constant i) fun v => ?_
  split
  · exact .get (fun _ _ => rfl) fun _ => .bind (.require _ _) fun _ => .pure _
  · exact .malformed _

theorem upvalueRef (i : UInt8) : Blind (upvalueRef i) :=
  .bind .frame fun _ => .get (fun _ _ => rfl) fun _ => .require _ _

theorem allocate (o : Object) : Blind (allocate o) := .modifyGet fun _ _ => rfl

theorem intern (text : String) : Blind (intern text) := .modifyGet fun _ _ => rfl

end Primitives

section Instructions

theorem fetch : Blind fetch :=
  .bind .frame fun _ => .bind .chunk fun _ => .bind (.require _ _) fun _ =>
    .bind (.setIp _) fun _ => .pure _

theorem popNumbers : Blind popNumbers := by
  refine .bind (.peek 1) fun a => .bind (.peek 0) fun b => ?_
  split
  · exact .bind (.drop 2) fun _ => .pure _
  · exact .fail _

theorem assignGlobal (i : UInt8) : Blind (assignGlobal i) := by
  refine .bind (.nameConstant i) fun (key, name) => .bind (.peek 0) fun v =>
    .bind (.modifyGet fun _ _ => rfl) fun isNew => ?_
  split
  · exact .bind (.modify fun _ _ => rfl) fun _ => .fail _
  · exact .pure _

theorem assignUpvalue (i : UInt8) : Blind (assignUpvalue i) := by
  refine .bind (.upvalueRef i) fun r => .bind (.peek 0) fun v => .get (fun _ _ => rfl) fun m => ?_
  split
  · exact .setSlot _ _
  · exact .modify fun _ _ => rfl
  · exact .malformed _

theorem element (target index : Value) : Blind (element target index) := by
  unfold Machine.element
  split
  · refine .get (fun _ _ => rfl) fun m => ?_
    split
    · split
      · split
        · exact .pure _
        · exact .fail _
      · exact .fail _
    · exact .fail _
  · exact .fail _

theorem sum (a b : Value) : Blind (sum a b) := by
  unfold Machine.sum
  split
  · exact .pure _
  · refine .get (fun _ _ => rfl) fun m => ?_
    dsimp only
    split
    · exact .bind (.intern _) fun _ => .pure _
    · exact .fail _

theorem jumpAhead (d : UInt16) : Blind (jumpAhead d) := .bind .frame fun _ => .setIp _

theorem callClosure (r : Ref) (count : Nat) : Blind (callClosure r count) := by
  refine .get (fun _ _ => rfl) fun m => ?_
  dsimp only
  split
  · exact .malformed _
  · split
    · exact .fail _
    · refine .get (fun _ _ => rfl) fun m => ?_
      split
      · exact .modify fun _ _ => rfl
      · exact .fail _

theorem runProcedure (p : Procedure) (arguments : List Value) :
    Blind (runProcedure p arguments) := by
  cases p with
  | builtin b =>
    refine .get (fun _ _ => rfl) fun m => ?_
    split
    · exact .bind (.modify fun _ _ => rfl) fun _ => .pure _
    · exact .fail _
    · exact .throw _
  | host index =>
    refine .get (fun _ _ => rfl) fun m => ?_
    split
    · exact .fail _
    · refine .bind (.modifyGet fun _ _ => rfl) fun result => ?_
      split
      · exact .pure _
      · exact .fail _

theorem callNative (r : Ref) (count : Nat) : Blind (callNative r count) := by
  refine .get (fun _ _ => rfl) fun m => ?_
  split
  · exact .malformed _
  · split
    · exact .fail _
    · exact .get (fun _ _ => rfl) fun _ => .bind (.runProcedure _ _) fun _ =>
        .bind (.truncate _) fun _ => .push _

theorem startCall (count : UInt8) : Blind (startCall count) := by
  refine .bind (.peek count.toNat) fun callee => ?_
  split
  · refine .get (fun _ _ => rfl) fun m => ?_
    dsimp only
    split
    · exact .callClosure _ _
    · split
      · exact .callNative _ _
      · exact .fail _
  · exact .fail _

theorem captures (base n : Nat) : ∀ refs : Array Ref, Blind (captures base n refs) := by
  induction n with
  | zero => exact fun _ => .pure _
  | succ n ih =>
    refine fun refs => .bind .frame fun _ => .bind .chunk fun _ => ?_
    split
    next c _ =>
      have rest (ip : Nat) (r : Ref) :
          Blind (do Machine.setIp ip; Machine.captures base n (refs.push r)) :=
        .bind (.setIp _) fun _ => ih _
      dsimp only
      split
      · refine .bind (.modifyGet fun m o => ?_) fun r => rest _ r
        unfold captureSlot
        dsimp only [onto]
        split <;> rfl
      · exact .bind (.upvalueRef _) fun r => rest _ r
    · exact .malformed _

theorem makeClosure (i : UInt8) : Blind (makeClosure i) := by
  refine .bind (.constant i) fun v => ?_
  split
  · refine .get (fun _ _ => rfl) fun m => ?_
    split
    · exact .bind .frame fun _ => .bind (.captures _ _ _) fun _ =>
        .bind (.allocate _) fun _ => .push _
    · exact .malformed _
  · exact .malformed _

theorem endCall : Blind endCall := by
  refine .bind .pop fun v => .bind .frame fun call => .bind (.modify fun _ _ => rfl) fun _ =>
    .bind (.truncate _) fun _ => .get (fun _ _ => rfl) fun m => ?_
  split
  · exact .pure _
  · exact .push _

/-- No instruction but `print` touches the output. -/
theorem execute {i : Instruction} (hi : i ≠ .print) : Blind (execute i) := by
  cases i with
  | constant i => exact .bind (.constant i) fun _ => .push _
  | pushNil | pushTrue | pushFalse => exact .push _
  | pop => exact .bind .pop fun _ => .pure _
  | getLocal i => exact .bind .frame fun _ => .bind (.slot _) fun _ => .push _
  | setLocal i => exact .bind .frame fun _ => .bind (.peek 0) fun _ => .setSlot _ _
  | getGlobal i =>
    refine .bind (.nameConstant i) fun (key, name) => .get (fun _ _ => rfl) fun m => ?_
    split
    · exact .push _
    · exact .fail _
  | defineGlobal i =>
    exact .bind (.nameConstant i) fun _ => .bind (.peek 0) fun _ =>
      .bind (.modify fun _ _ => rfl) fun _ => .bind .pop fun _ => .pure _
  | setGlobal i => exact .assignGlobal i
  | getUpvalue i =>
    refine .bind (.upvalueRef i) fun r => .get (fun _ _ => rfl) fun m => ?_
    split
    · exact .bind (.slot _) fun _ => .push _
    · exact .push _
    · exact .malformed _
  | setUpvalue i => exact .assignUpvalue i
  | getIndex =>
    exact .bind .pop fun _ => .bind .pop fun _ => .bind (.element _ _) fun _ =>
      .get (fun _ _ => rfl) fun _ => .push _
  | setIndex =>
    exact .bind .pop fun _ => .bind .pop fun _ => .bind .pop fun _ => .bind (.element _ _) fun _ =>
      .bind (.modify fun _ _ => rfl) fun _ => .push _
  | equal => exact .bind .pop fun _ => .bind .pop fun _ => .push _
  | greater | less | subtract | multiply | divide => exact .bind .popNumbers fun _ => .push _
  | add =>
    exact .bind (.peek 1) fun _ => .bind (.peek 0) fun _ => .bind (.sum _ _) fun _ =>
      .bind (.drop 2) fun _ => .push _
  | negation => exact .bind .pop fun _ => .push _
  | negate =>
    refine .bind (.peek 0) fun v => ?_
    split
    · exact .bind .pop fun _ => .push _
    · exact .fail _
  | print => exact absurd rfl hi
  | jump d => exact .jumpAhead d
  | jumpIfFalse d =>
    refine .bind (.peek 0) fun v => ?_
    split
    · exact .jumpAhead d
    · exact .pure _
  | loop d =>
    refine .bind .frame fun call => ?_
    dsimp only
    split
    · exact .setIp _
    · exact .malformed _
  | call n => exact .startCall n
  | closure i => exact .makeClosure i
  | capture => exact .throw _
  | closeUpvalue => exact .bind (.modify fun _ _ => rfl) fun _ => .bind .pop fun _ => .pure _
  | array n =>
    refine .get (fun _ _ => rfl) fun m => ?_
    dsimp only
    split
    · exact .bind (.truncate _) fun _ => .bind (.allocate _) fun _ => .push _
    · exact .fail _
  | ret => exact .endCall

/-- Setting up the call of a script. -/
theorem enter (function : Ref) : Blind (enter function) :=
  .bind (.allocate _) fun _ => .bind (.push _) fun _ => .callClosure _ _

end Instructions

end Blind
end Machine
end StackScript
