import StackScript.Proofs.Machine.Step

/-!
# StackScript.Proofs.Machine.Stable

Properties of machines that every instruction keeps, for whatever bytecode.

* `Stable`: a property that is kept by each change that an instruction makes to a machine.
* `Gentle`: a property that assignments need not keep.
* `Keeps`: a computation keeps a property. All instructions keep what is stable, apart from the end
  of a call, and those that assign nothing (`Calm`) keep what is gentle.
-/

namespace StackScript

namespace Machine

/-- A property that survives each change that an instruction makes to a machine. -/
structure Stable (I : Machine → Prop) : Prop where
  hosts {m : Machine} : I m → m.hosts = #[]
  push {m : Machine} (v : Value) : I m → m.stack.size < stackLimit →
    I { m with stack := m.stack.push v }
  shrink {m : Machine} {stack : Array Value} : I m → stack.size ≤ m.stack.size →
    I { m with stack }
  ip {m : Machine} {call : Frame} {outer : List Frame} (ip : Nat) : I m → m.frames = call :: outer →
    I { m with frames := { call with ip } :: outer }
  call {m : Machine} (closure function : Ref) (base : Nat) : I m → m.frames.length < frameLimit →
    I { m with frames := ⟨closure, function, 0, base⟩ :: m.frames }
  heap {m : Machine} {heap : Heap} : I m → m.heap.Onward heap → I { m with heap }
  upvalues {m : Machine} (openUpvalues : List Ref) : I m → I { m with openUpvalues }
  globals {m : Machine} (globals : Table Value) : I m → I { m with globals }
  outside {m : Machine} (output : Output) (world : World) : I m → I { m with output, world }

/-- A property that survives each change that an instruction makes to a machine, unless it assigns
to a global, to an upvalue that is closed, or to an element of an array. -/
structure Gentle (I : Machine → Prop) : Prop where
  host {m : Machine} {index : Nat} {f : HostFunction} (arguments : List Value) : I m →
    m.hosts[index]? = some f → I { m with heap := (f m.heap arguments).1 }
  push {m : Machine} (v : Value) : I m → m.stack.size < stackLimit →
    I { m with stack := m.stack.push v }
  shrink {m : Machine} {stack : Array Value} : I m → stack.size ≤ m.stack.size →
    I { m with stack }
  ip {m : Machine} {call : Frame} {outer : List Frame} (ip : Nat) : I m → m.frames = call :: outer →
    I { m with frames := { call with ip } :: outer }
  call {m : Machine} (closure function : Ref) (base : Nat) : I m → m.frames.length < frameLimit →
    I { m with frames := ⟨closure, function, 0, base⟩ :: m.frames }
  allocate {m : Machine} {o : Object} (native : ∀ n, o ≠ .native n)
    (string : ∀ text, o ≠ .string text) : I m → I { m with heap := (m.heap.allocate o).1 }
  intern {m : Machine} (text : String) : I m → I { m with heap := (m.heap.intern text).1 }
  close {m : Machine} {r : Ref} {slot : Nat} (v : Value) :
    m.heap.upvalue? r = some (.opened slot) → I m →
      I { m with heap := m.heap.set r (.upvalue (.closed v)) }
  upvalues {m : Machine} (openUpvalues : List Ref) : I m → I { m with openUpvalues }
  outside {m : Machine} (output : Output) (world : World) : I m → I { m with output, world }

theorem Stable.gentle {I : Machine → Prop} (s : Stable I) : Gentle I where
  host _ h hf := by
    rw [s.hosts h] at hf
    cases hf
  push := s.push
  shrink := s.shrink
  ip := s.ip
  call := s.call
  allocate native string h := s.heap h (.allocate native string .refl)
  intern text h := s.heap h (.intern text .refl)
  close v hr h := s.heap h (.close v hr .refl)
  upvalues := s.upvalues
  outside := s.outside

instance {I : Machine → Prop} : Coe (Stable I) (Gentle I) := ⟨Stable.gentle⟩

def Keeps {α : Type} (I : Machine → Prop) (x : Exec α) : Prop :=
  ∀ m, I m → Ends x m (fun _ => I) fun _ => I

namespace Keeps

variable {α β : Type} {I : Machine → Prop} {x : Exec α} {f : α → Exec β}

theorem pure (a : α) : Keeps I (Pure.pure a) := fun _ h => h

theorem throw (s : Stop) : Keeps I (throw s : Exec α) := fun _ h => h

theorem fail (f : Fault) : Keeps I (fail f : Exec α) := throw _

theorem malformed (cause : Malformed) : Keeps I (malformed cause : Exec α) := throw _

theorem bind (hx : Keeps I x) (hf : ∀ a, Keeps I (f a)) : Keeps I (x >>= f) :=
  fun m h => .bind ((hx m h).imp (fun a m' => hf a m') fun _ _ => id)

theorem get : Keeps I (MonadState.get : Exec Machine) := fun _ h => h

theorem modifyGet {f : Machine → α × Machine} (hf : ∀ m, I m → I (f m).2) :
    Keeps I (modifyGet f : Exec α) := hf

theorem modify {f : Machine → Machine} (hf : ∀ m, I m → I (f m)) :
    Keeps I (modify f : Exec Unit) := hf

theorem require (o : Option α) (cause : Malformed) : Keeps I (require o cause) := by
  unfold Machine.require
  split
  · exact pure _
  · exact malformed _

theorem peek (distance : Nat) : Keeps I (peek distance) := by
  refine .bind .get fun m => ?_
  dsimp only
  split
  · exact .require _ _
  · exact .malformed _

theorem slot (i : Nat) : Keeps I (slot i) := .bind .get fun _ => .require _ _

theorem frame : Keeps I frame := by
  refine .bind .get fun m => ?_
  split
  · exact .pure _
  · exact .malformed _

theorem chunk : Keeps I chunk := by
  refine .bind .frame fun call => .bind .get fun m => ?_
  split
  · exact .pure _
  · exact .malformed _

theorem constant (i : UInt8) : Keeps I (constant i) := .bind .chunk fun _ => .require _ _

theorem nameConstant (i : UInt8) : Keeps I (nameConstant i) := by
  refine .bind (.constant i) fun v => ?_
  split
  · exact .bind .get fun _ => .bind (.require _ _) fun _ => .pure _
  · exact .malformed _

theorem upvalueRef (i : UInt8) : Keeps I (upvalueRef i) :=
  .bind .frame fun _ => .bind .get fun _ => .require _ _

theorem element (target index : Value) : Keeps I (element target index) := by
  unfold Machine.element
  split
  · refine .bind .get fun m => ?_
    split
    · split
      · split
        · exact .pure _
        · exact .fail _
      · exact .fail _
    · exact .fail _
  · exact .fail _

theorem assignGlobal (i : UInt8) (globals : ∀ m globals, I m → I { m with globals }) :
    Keeps I (assignGlobal i) := by
  refine .bind (.nameConstant i) fun (key, name) => .bind (.peek 0) fun v =>
    .bind (.modifyGet fun _ h => globals _ _ h) fun isNew => ?_
  split
  · exact .bind (.modify fun _ h => globals _ _ h) fun _ => .fail _
  · exact .pure _

end Keeps

/-- Closing upvalues, one after the other. -/
theorem onward_closeFrom (least : Nat) (stack : Array Value) (opens : List Ref) :
    ∀ h : Heap, h.Onward (closeFrom least stack h opens).1 := by
  induction opens with
  | nil => exact fun _ => .refl
  | cons a opens ih =>
    intro h
    rw [closeFrom]
    split
    next slot ha =>
      split
      · exact .refl
      · exact Heap.Onward.trans (.close _ ha .refl) (ih _)
    next => exact ih h

namespace Gentle

variable {I : Machine → Prop} (s : Gentle I)

include s

theorem closeFrom (least : Nat) (stack : Array Value) (opens : List Ref) :
    ∀ m : Machine, I m → I { m with heap := (closeFrom least stack m.heap opens).1 } := by
  induction opens with
  | nil => exact fun _ h => h
  | cons r opens ih =>
    intro m h
    rw [Machine.closeFrom]
    split
    next slot hr =>
      split
      · exact h
      · exact ih _ (s.close _ hr h)
    next => exact ih m h

theorem closeUpvalues {m : Machine} (h : I m) (least : Nat) : I (m.closeUpvalues least) := by
  rw [closeUpvalues_eq]
  exact s.upvalues _ (s.closeFrom least m.stack m.openUpvalues m h)

theorem captureSlot {m : Machine} (h : I m) (slot : Nat) : I (m.captureSlot slot).1 := by
  unfold Machine.captureSlot
  split
  · exact h
  · exact s.upvalues _ (s.allocate (o := .upvalue (.opened slot)) (by simp) (by simp) h)

end Gentle

/-- Instructions that assign to nothing but stack slots, and do not end a call. -/
def Calm : Instruction → Prop
  | .defineGlobal _ | .setGlobal _ | .setUpvalue _ | .setIndex | .ret => False
  | _ => True

namespace Keeps

variable {I : Machine → Prop} (s : Gentle I)

include s

theorem push (v : Value) : Keeps I (push v) := by
  intro m h
  refine .bind (.get ?_)
  split
  next room => exact s.push v h room
  next => exact fail _ m h

theorem pop : Keeps I pop := by
  refine .bind .get fun m => ?_
  split
  · exact .bind (.modify fun m h => s.shrink h (Array.size_pop ▸ Nat.sub_le ..)) fun _ => .pure _
  · exact .malformed _

theorem setSlot (i : Nat) (v : Value) : Keeps I (setSlot i v) := by
  refine .bind .get fun m => ?_
  split
  · exact .modify fun m h => s.shrink h (Nat.le_of_eq Array.size_setIfInBounds)
  · exact .malformed _

theorem truncate (size : Nat) : Keeps I (truncate size) :=
  .modify fun _ h => s.shrink h (Array.size_shrink ▸ Nat.min_le_right ..)

theorem drop (count : Nat) : Keeps I (drop count) :=
  .modify fun _ h => s.shrink h (Array.size_shrink ▸ Nat.min_le_right ..)

theorem setIp (ip : Nat) : Keeps I (setIp ip) := by
  refine .modify fun m h => ?_
  split
  next hf => exact s.ip ip h hf
  next => exact h

theorem allocate {o : Object} (native : ∀ n, o ≠ .native n) (string : ∀ text, o ≠ .string text) :
    Keeps I (allocate o) :=
  .modifyGet fun _ h => s.allocate native string h

theorem intern (text : String) : Keeps I (intern text) :=
  .modifyGet fun _ h => s.intern text h

theorem fetch : Keeps I fetch :=
  .bind .frame fun _ => .bind .chunk fun _ => .bind (.require _ _) fun _ =>
    .bind (.setIp s _) fun _ => .pure _

theorem popNumbers : Keeps I popNumbers := by
  refine .bind (.peek 1) fun a => .bind (.peek 0) fun b => ?_
  split
  · exact .bind (.drop s 2) fun _ => .pure _
  · exact .fail _

theorem sum (a b : Value) : Keeps I (sum a b) := by
  unfold Machine.sum
  split
  · exact .pure _
  · refine .bind .get fun m => ?_
    dsimp only
    split
    · exact .bind (.intern s _) fun _ => .pure _
    · exact .fail _

theorem captures (base n : Nat) : ∀ refs : Array Ref, Keeps I (captures base n refs) := by
  induction n with
  | zero => exact fun _ => .pure _
  | succ n ih =>
    refine fun refs => .bind .frame fun _ => .bind .chunk fun _ => ?_
    split
    next c _ =>
      have rest (ip : Nat) (r : Ref) :
          Keeps I (do Machine.setIp ip; Machine.captures base n (refs.push r)) :=
        .bind (.setIp s _) fun _ => ih _
      dsimp only
      split
      · exact .bind (.modifyGet fun _ h => s.captureSlot h _) fun r => rest _ r
      · exact .bind (.upvalueRef _) fun r => rest _ r
    · exact .malformed _

theorem makeClosure (i : UInt8) : Keeps I (makeClosure i) := by
  refine .bind (.constant i) fun v => ?_
  split
  · refine .bind .get fun m => ?_
    split
    · exact .bind .frame fun _ => .bind (.captures s _ _ _) fun _ =>
        .bind (.allocate s (by simp) (by simp)) fun _ => .push s _
    · exact .malformed _
  · exact .malformed _

theorem callClosure (r : Ref) (count : Nat) : Keeps I (callClosure r count) := by
  intro m h
  refine .bind (.get ?_)
  dsimp only
  split
  · exact malformed _ m h
  · split
    · exact fail _ m h
    · refine .bind (.get ?_)
      split
      next room => exact s.call _ _ _ h room
      next => exact fail _ m h

theorem runProcedure (p : Procedure) (arguments : List Value) :
    Keeps I (runProcedure p arguments) := by
  intro m h
  unfold Machine.runProcedure
  cases p with
  | builtin b =>
    refine .bind (.get ?_)
    split
    next v world heap hc =>
      refine .bind (.modify (.pure (s.outside m.output world (m := { m with heap }) ?_)))
      obtain rfl | ⟨text, rfl⟩ := call_heap hc
      · exact h
      · exact s.intern text h
    next => exact fail _ m h
    next => exact throw _ m h
  | host index =>
    refine .bind (.get ?_)
    split
    · exact fail _ m h
    next f hf =>
      refine .bind (.modifyGet ?_)
      have kept := s.host arguments h hf
      split
      · exact kept
      · exact fail _ _ kept

theorem callNative (r : Ref) (count : Nat) : Keeps I (callNative r count) := by
  refine .bind .get fun m => ?_
  split
  · exact .malformed _
  · split
    · exact .fail _
    · exact .bind .get fun _ => .bind (.runProcedure s _ _) fun _ => .bind (.truncate s _) fun _ =>
        .push s _

theorem startCall (count : UInt8) : Keeps I (startCall count) := by
  refine .bind (.peek _) fun callee => ?_
  split
  · refine .bind .get fun m => ?_
    dsimp only
    split
    · exact .callClosure s _ _
    · split
      · exact .callNative s _ _
      · exact .fail _
  · exact .fail _

theorem printTop : Keeps I printTop := by
  refine .bind (.pop s) fun v => .bind (.modifyGet fun m h => s.outside _ m.world h) fun fits => ?_
  split
  · exact .pure _
  · exact .throw _

theorem jumpAhead (d : UInt16) : Keeps I (jumpAhead d) := .bind .frame fun _ => .setIp s _

theorem calmly {i : Instruction} (hi : Calm i) : Keeps I (execute i) := by
  cases i with
  | constant i => exact .bind (.constant i) fun v => .push s v
  | pushNil | pushTrue | pushFalse => exact .push s _
  | pop => exact .bind (.pop s) fun _ => .pure _
  | getLocal i => exact .bind .frame fun _ => .bind (.slot _) fun _ => .push s _
  | setLocal i => exact .bind .frame fun _ => .bind (.peek 0) fun _ => .setSlot s _ _
  | getGlobal i =>
    refine .bind (.nameConstant i) fun (key, name) => .bind .get fun m => ?_
    split
    · exact .push s _
    · exact .fail _
  | getUpvalue i =>
    refine .bind (.upvalueRef i) fun r => .bind .get fun m => ?_
    split
    · exact .bind (.slot _) fun _ => .push s _
    · exact .push s _
    · exact .malformed _
  | getIndex =>
    exact .bind (.pop s) fun index => .bind (.pop s) fun target =>
      .bind (.element target index) fun p => .bind .get fun m => .push s _
  | equal => exact .bind (.pop s) fun _ => .bind (.pop s) fun _ => .push s _
  | greater | less => exact .bind (.popNumbers s) fun _ => .push s _
  | add =>
    exact .bind (.peek 1) fun a => .bind (.peek 0) fun b => .bind (.sum s a b) fun v =>
      .bind (.drop s 2) fun _ => .push s v
  | subtract | multiply | divide => exact .bind (.popNumbers s) fun _ => .push s _
  | negation => exact .bind (.pop s) fun _ => .push s _
  | negate =>
    refine .bind (.peek 0) fun v => ?_
    split
    · exact .bind (.pop s) fun _ => .push s _
    · exact .fail _
  | print => exact .printTop s
  | jump d => exact .jumpAhead s d
  | jumpIfFalse d =>
    refine .bind (.peek 0) fun v => ?_
    split
    · exact .jumpAhead s d
    · exact .pure _
  | loop d =>
    refine .bind .frame fun call => ?_
    dsimp only
    split
    · exact .setIp s _
    · exact .malformed _
  | call n => exact .startCall s n
  | closure i => exact .makeClosure s i
  | capture => exact .throw _
  | closeUpvalue =>
    exact .bind (.modify fun _ h => s.closeUpvalues h _) fun _ => .bind (.pop s) fun _ => .pure _
  | array n =>
    refine .bind .get fun m => ?_
    dsimp only
    split
    · exact .bind (.truncate s _) fun _ => .bind (.allocate s (by simp) (by simp)) fun _ => .push s _
    · exact .fail _
  | defineGlobal | setGlobal | setUpvalue | setIndex | ret => exact hi.elim

/-- A property that does not depend on the calls is kept where a call ends, too. -/
theorem endCall (tail : ∀ m, I m → I { m with frames := m.frames.tail }) : Keeps I endCall := by
  refine .bind (.pop s) fun v => .bind .frame fun call => .bind
    (.modify fun m h => s.closeUpvalues (tail m h) _) fun _ => .bind (.truncate s _) fun _ =>
      .bind .get fun m => ?_
  split
  · exact .pure _
  · exact .push s _

theorem assignUpvalue (i : UInt8) (closed : ∀ m r w v, m.heap.upvalue? r = some (.closed w) → I m →
    I { m with heap := m.heap.set r (.upvalue (.closed v)) }) : Keeps I (assignUpvalue i) := by
  refine .bind (.upvalueRef i) fun r => .bind (.peek 0) fun v => ?_
  intro m h
  refine .bind (.get ?_)
  split
  · exact setSlot s _ _ m h
  next w hw => exact closed m r w v hw h
  · exact malformed _ m h

theorem assignElement (set : ∀ m r i v, I m → I { m with heap := m.heap.setElement r i v }) :
    Keeps I assignElement :=
  .bind (.pop s) fun v => .bind (.pop s) fun index => .bind (.pop s) fun target =>
    .bind (.element target index) fun (r, i) => .bind (.modify fun m h => set m r i v h) fun _ =>
      .push s v

theorem defineGlobal (i : UInt8) (globals : ∀ m globals, I m → I { m with globals }) :
    Keeps I (defineGlobal i) :=
  .bind (.nameConstant i) fun _ => .bind (.peek 0) fun _ =>
    .bind (.modify fun _ h => globals _ _ h) fun _ => .bind (.pop s) fun _ => .pure _

/-- All instructions, those that assign included. -/
theorem assigning (tail : ∀ m, I m → I { m with frames := m.frames.tail })
    (globals : ∀ m globals, I m → I { m with globals })
    (closed : ∀ m r w v, m.heap.upvalue? r = some (.closed w) → I m →
      I { m with heap := m.heap.set r (.upvalue (.closed v)) })
    (set : ∀ m r i v, I m → I { m with heap := m.heap.setElement r i v }) : Keeps I instruction := by
  refine .bind (.fetch s) fun i => ?_
  cases i with
  | defineGlobal i => exact .defineGlobal s i globals
  | setGlobal i => exact .assignGlobal i globals
  | setUpvalue i => exact .assignUpvalue s i closed
  | setIndex => exact .assignElement s set
  | ret => exact .endCall s tail
  | _ => exact .calmly s trivial

end Keeps

namespace Keeps

variable {I : Machine → Prop} (s : Stable I)

include s

theorem execute {i : Instruction} (hi : i ≠ .ret) : Keeps I (execute i) := by
  have globals (m : Machine) (globals : Table Value) : I m → I { m with globals } := s.globals globals
  cases i with
  | defineGlobal i => exact .defineGlobal s i globals
  | setGlobal i => exact .assignGlobal i globals
  | setUpvalue i => exact .assignUpvalue s i fun _ _ _ v hr h => s.heap h (.close v hr .refl)
  | setIndex => exact .assignElement s fun _ r i v h => s.heap h (.setElement r i v .refl)
  | ret => exact (hi rfl).elim
  | _ => exact .calmly s trivial

theorem instruction (tail : ∀ m, I m → I { m with frames := m.frames.tail }) :
    Keeps I instruction :=
  .assigning s tail (fun _ => s.globals) (fun _ _ _ v hr h => s.heap h (.close v hr .refl))
    fun _ r i v h => s.heap h (.setElement r i v .refl)

end Keeps
end Machine
end StackScript
