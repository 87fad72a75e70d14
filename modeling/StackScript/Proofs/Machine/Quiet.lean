import StackScript.Proofs.Machine.Floor

/-!
# StackScript.Proofs.Machine.Quiet

Most instructions leave the calls alone, also where they fail, and none puts a function on the heap
or writes a file.

* `Still`: the calls are the same, no function is new, and no text is there to read that was not.
* `Quiet`: a property that is kept by what changes nothing else. `Modest`: a property that is kept
  if there is nothing new on the heap either.
* `Modest.execute`, `Quiet.execute`: instructions that neither jump nor call keep what is quiet. All
  instructions do, if the property does not depend on the calls (`Quiet.instruction`).
-/

namespace StackScript
namespace Machine

/-- Neither the calls nor the functions of the host are changed, no function is new, and if there was
no text to read, there is none. -/
structure Still (m m' : Machine) : Prop where
  frames : m'.frames = m.frames
  hosts : m'.hosts = m.hosts
  functions : m.heap.Limits m'.heap
  textless : m.world.Textless → m'.world.Textless

theorem Still.refl (m : Machine) : Still m m := ⟨rfl, rfl, .refl _, id⟩

theorem Still.trans {m₁ m₂ m₃ : Machine} (h : Still m₁ m₂) (h' : Still m₂ m₃) : Still m₁ m₃ where
  frames := h'.frames.trans h.frames
  hosts := h'.hosts.trans h.hosts
  functions := h.functions.trans h'.functions
  textless none := h'.textless (h.textless none)

/-- Nor is anything new on the heap. -/
structure Spared (m m' : Machine) : Prop extends Still m m' where
  size : m'.heap.size = m.heap.size

/-- A property of machines without functions of the host that may depend on how much is on the
heap. -/
structure Modest (I : Machine → Prop) : Prop where
  hosts {m : Machine} : I m → m.hosts = #[]
  spared {m m' : Machine} : I m → Spared m m' → I m'

/-- A property of machines without functions of the host that depends on the calls, and on
the functions of the heap and the texts of files in that there are no others. -/
structure Quiet (I : Machine → Prop) : Prop where
  hosts {m : Machine} : I m → m.hosts = #[]
  still {m m' : Machine} : I m → Still m m' → I m'

theorem Quiet.modest {I : Machine → Prop} (q : Quiet I) : Modest I :=
  ⟨q.hosts, fun h spared => q.still h spared.toStill⟩

/-- Instructions that go on with the next one in the same call. -/
def Onwards : Instruction → Prop
  | .jump _ | .jumpIfFalse _ | .loop _ | .call _ | .closure _ | .ret => False
  | _ => True

section Heap

variable (m : Machine)

theorem still_allocate {o : Object} (ho : ∀ f, o ≠ .function f) :
    Still m { m with heap := (m.heap.allocate o).1 } :=
  ⟨rfl, rfl, m.heap.limits_allocate ho, id⟩

theorem still_intern (text : String) : Still m { m with heap := (m.heap.intern text).1 } :=
  ⟨rfl, rfl, m.heap.limits_intern text, id⟩

theorem still_captureSlot (slot : Nat) : Still m (m.captureSlot slot).1 := by
  unfold captureSlot
  split
  · exact .refl m
  · exact ⟨rfl, rfl, m.heap.limits_allocate nofun, id⟩

theorem limits_closeFrom (least : Nat) (stack : Array Value) (opens : List Ref) :
    ∀ h : Heap, h.Limits (closeFrom least stack h opens).1 := by
  induction opens with
  | nil => exact .refl
  | cons r opens ih =>
    intro h
    rw [closeFrom]
    split
    next slot _ =>
      split
      · exact .refl h
      · exact (h.limits_set r _).trans (ih _)
    next => exact ih h

theorem size_closeFrom (least : Nat) (stack : Array Value) (opens : List Ref) :
    ∀ h : Heap, (closeFrom least stack h opens).1.size = h.size := by
  induction opens with
  | nil => exact fun _ => rfl
  | cons r opens ih =>
    intro h
    rw [closeFrom]
    split
    next slot _ =>
      split
      · rfl
      · rw [ih, Heap.size_set]
    next => exact ih h

namespace Spared

theorem stack (stack : Array Value) : Spared m { m with stack } := ⟨⟨rfl, rfl, .refl _, id⟩, rfl⟩

theorem globals (globals : Table Value) : Spared m { m with globals } :=
  ⟨⟨rfl, rfl, .refl _, id⟩, rfl⟩

theorem outside (output : Output) {world : World} (h : m.world.Textless → world.Textless) :
    Spared m { m with output, world } :=
  ⟨⟨rfl, rfl, .refl _, h⟩, rfl⟩

end Spared

theorem spared_set (r : Ref) (u : Upvalue) :
    Spared m { m with heap := m.heap.set r (.upvalue u) } :=
  ⟨⟨rfl, rfl, m.heap.limits_set r u, id⟩, m.heap.size_set r _⟩

theorem spared_setElement (r : Ref) (i : Nat) (v : Value) :
    Spared m { m with heap := m.heap.setElement r i v } :=
  ⟨⟨rfl, rfl, m.heap.limits_setElement r i v, id⟩, m.heap.size_setElement r i v⟩

theorem spared_closeUpvalues (least : Nat) : Spared m (m.closeUpvalues least) := by
  rw [closeUpvalues_eq]
  exact ⟨⟨rfl, rfl, limits_closeFrom least m.stack m.openUpvalues m.heap, id⟩,
    size_closeFrom least m.stack m.openUpvalues m.heap⟩

end Heap

namespace Modest

variable {I : Machine → Prop} (q : Modest I)

include q

theorem modify {f : Machine → Machine} (h : ∀ m, Spared m (f m)) : Keeps I (modify f : Exec Unit) :=
  .modify fun m hm => q.spared hm (h m)

theorem modifyGet {α : Type} {f : Machine → α × Machine} (h : ∀ m, Spared m (f m).2) :
    Keeps I (modifyGet f : Exec α) :=
  .modifyGet fun m hm => q.spared hm (h m)

theorem push (v : Value) : Keeps I (push v) := by
  refine .bind .get fun m => ?_
  split
  · exact q.modify fun _ => .stack _ _
  · exact .fail _

theorem pop : Keeps I pop := by
  refine .bind .get fun m => ?_
  split
  · exact .bind (q.modify fun _ => .stack _ _) fun _ => .pure _
  · exact .malformed _

theorem setSlot (i : Nat) (v : Value) : Keeps I (setSlot i v) := by
  refine .bind .get fun m => ?_
  split
  · exact q.modify fun _ => .stack _ _
  · exact .malformed _

theorem truncate (size : Nat) : Keeps I (truncate size) := q.modify fun _ => .stack _ _

theorem drop (count : Nat) : Keeps I (drop count) := q.modify fun _ => .stack _ _

theorem popNumbers : Keeps I popNumbers := by
  refine .bind (.peek 1) fun a => .bind (.peek 0) fun b => ?_
  split
  · exact .bind (q.drop 2) fun _ => .pure _
  · exact .fail _

theorem assignUpvalue (i : UInt8) : Keeps I (assignUpvalue i) := by
  refine .bind (.upvalueRef i) fun r => .bind (.peek 0) fun v => .bind .get fun m => ?_
  split
  · exact q.setSlot _ _
  · exact q.modify fun m => m.spared_set r _
  · exact .malformed _

theorem assignElement : Keeps I assignElement :=
  .bind q.pop fun v => .bind q.pop fun index => .bind q.pop fun target =>
    .bind (.element target index) fun (r, i) =>
      .bind (q.modify fun m => m.spared_setElement r i v) fun _ => q.push v

theorem printTop : Keeps I printTop := by
  refine .bind q.pop fun v => .bind (q.modifyGet fun _ => .outside _ _ id) fun fits => ?_
  split
  · exact .pure _
  · exact .throw _

/-- A call of a native keeps a property that its procedure keeps. -/
theorem callNative (r : Ref) (count : Nat)
    (h : ∀ p arguments, Keeps I (runProcedure p arguments)) : Keeps I (callNative r count) := by
  refine .bind .get fun m => ?_
  split
  · exact .malformed _
  · split
    · exact .fail _
    · exact .bind .get fun _ => .bind (h _ _) fun _ => .bind (q.truncate _) fun _ => q.push _

/-- The calls are left alone, also by an instruction that fails, and only sums and arrays put
something on the heap. -/
theorem execute {i : Instruction} (hi : Onwards i) (sum : i ≠ .add) (array : ∀ n, i ≠ .array n) :
    Keeps I (execute i) := by
  cases i with
  | constant i => exact .bind (.constant i) fun v => q.push v
  | pushNil | pushTrue | pushFalse => exact q.push _
  | pop => exact .bind q.pop fun _ => .pure _
  | getLocal i => exact .bind .frame fun _ => .bind (.slot _) fun _ => q.push _
  | setLocal i => exact .bind .frame fun _ => .bind (.peek 0) fun _ => q.setSlot _ _
  | getGlobal i =>
    refine .bind (.nameConstant i) fun (key, name) => .bind .get fun m => ?_
    split
    · exact q.push _
    · exact .fail _
  | defineGlobal i =>
    exact .bind (.nameConstant i) fun _ => .bind (.peek 0) fun _ =>
      .bind (q.modify fun _ => .globals _ _) fun _ => .bind q.pop fun _ => .pure _
  | setGlobal i => exact .assignGlobal i fun _ _ h => q.spared h (.globals _ _)
  | getUpvalue i =>
    refine .bind (.upvalueRef i) fun r => .bind .get fun m => ?_
    split
    · exact .bind (.slot _) fun _ => q.push _
    · exact q.push _
    · exact .malformed _
  | setUpvalue i => exact q.assignUpvalue i
  | getIndex =>
    exact .bind q.pop fun index => .bind q.pop fun target =>
      .bind (.element target index) fun p => .bind .get fun m => q.push _
  | setIndex => exact q.assignElement
  | equal => exact .bind q.pop fun _ => .bind q.pop fun _ => q.push _
  | greater | less | subtract | multiply | divide => exact .bind q.popNumbers fun _ => q.push _
  | negation => exact .bind q.pop fun _ => q.push _
  | negate =>
    refine .bind (.peek 0) fun v => ?_
    split
    · exact .bind q.pop fun _ => q.push _
    · exact .fail _
  | print => exact q.printTop
  | capture => exact .throw _
  | closeUpvalue =>
    exact .bind (q.modify fun m => m.spared_closeUpvalues _) fun _ => .bind q.pop fun _ => .pure _
  | add => exact (sum rfl).elim
  | array n => exact (array n rfl).elim
  | jump | jumpIfFalse | loop | call | closure | ret => exact hi.elim

end Modest

namespace Quiet

variable {I : Machine → Prop} (q : Quiet I)

include q

theorem allocate {o : Object} (ho : ∀ f, o ≠ .function f) : Keeps I (allocate o) :=
  .modifyGet fun m hm => q.still hm (m.still_allocate ho)

theorem intern (text : String) : Keeps I (intern text) :=
  .modifyGet fun m hm => q.still hm (m.still_intern text)

theorem sum (a b : Value) : Keeps I (sum a b) := by
  unfold Machine.sum
  split
  · exact .pure _
  · refine .bind .get fun m => ?_
    dsimp only
    split
    · exact .bind (q.intern _) fun _ => .pure _
    · exact .fail _

theorem runProcedure (p : Procedure) (arguments : List Value) :
    Keeps I (runProcedure p arguments) := by
  intro m h
  unfold Machine.runProcedure
  cases p with
  | builtin b =>
    refine .bind (.get ?_)
    split
    next v world heap hc =>
      refine .bind (.modify (.pure (q.still h ⟨rfl, rfl, ?_, textless_call hc⟩)))
      obtain rfl | ⟨text, rfl⟩ := call_heap hc
      · exact .refl m.heap
      · exact m.heap.limits_intern text
    next => exact Keeps.fail _ m h
    next => exact Keeps.throw _ m h
  | host index =>
    refine .bind (.get ?_)
    rw [q.hosts h]
    exact Keeps.fail _ m h

/-- The calls are left alone, also by an instruction that fails. -/
theorem execute {i : Instruction} (hi : Onwards i) : Keeps I (execute i) := by
  cases i with
  | add =>
    exact .bind (.peek 1) fun a => .bind (.peek 0) fun b => .bind (q.sum a b) fun v =>
      .bind (q.modest.drop 2) fun _ => q.modest.push v
  | array n =>
    refine .bind .get fun m => ?_
    dsimp only
    split
    · exact .bind (q.modest.truncate _) fun _ => .bind (q.allocate nofun) fun _ => q.modest.push _
    · exact .fail _
  | _ => exact q.modest.execute hi nofun nofun

/-- A call that is refused leaves the calls alone, and so does a native. -/
theorem ends_startCall {m : Machine} (h : I m) (count : UInt8) :
    Ends (startCall count) m (fun _ m' => I m' ∨ ∃ frames, m' = { m with frames }) fun _ => I := by
  refine .bind ((Keeps.peek count.toNat m rfl :
    Ends _ _ (fun _ m' => m' = m) fun _ m' => m' = m).imp (fun callee m' e => ?_) fun _ m' e => ?_)
  · subst e
    split
    · refine .bind (.get ?_)
      dsimp only
      split
      · exact (ends_callClosure_frames _ _).imp (fun _ _ ⟨_, e⟩ => .inr ⟨_, e⟩) fun _ _ e => e ▸ h
      · split
        · exact (q.modest.callNative _ _ q.runProcedure _ h).imp (fun _ _ => .inl) fun _ _ => id
        · exact .fail h
    · exact .fail h
  · exact e ▸ h

end Quiet

section Calls

variable {I : Machine → Prop}

theorem keeps_setIp (frames : ∀ m frames, I m → I { m with frames }) (ip : Nat) :
    Keeps I (setIp ip) := by
  refine .modify fun m h => ?_
  split
  · exact frames m _ h
  · exact h

theorem keeps_jumpAhead (frames : ∀ m frames, I m → I { m with frames }) (d : UInt16) :
    Keeps I (jumpAhead d) :=
  .bind .frame fun _ => keeps_setIp frames _

/-- Capturing variables changes the calls, upvalues and nothing else. -/
theorem keeps_captures (frames : ∀ m frames, I m → I { m with frames })
    (slot : ∀ m i, I m → I (m.captureSlot i).1) (base n : Nat) :
    ∀ refs : Array Ref, Keeps I (captures base n refs) := by
  induction n with
  | zero => exact fun _ => .pure _
  | succ n ih =>
    refine fun refs => .bind .frame fun _ => .bind .chunk fun _ => ?_
    split
    next c _ =>
      have rest (ip : Nat) (r : Ref) :
          Keeps I (do Machine.setIp ip; Machine.captures base n (refs.push r)) :=
        .bind (keeps_setIp frames _) fun _ => ih _
      dsimp only
      split
      · exact .bind (.modifyGet fun m h => slot m _ h) fun r => rest _ r
      · exact .bind (.upvalueRef _) fun r => rest _ r
    · exact .malformed _

variable (q : Quiet I) (frames : ∀ m frames, I m → I { m with frames })

include q frames

theorem Quiet.captures (base n : Nat) (refs : Array Ref) : Keeps I (captures base n refs) :=
  keeps_captures frames (fun m i h => q.still h (m.still_captureSlot i)) base n refs

theorem Quiet.makeClosure (i : UInt8) : Keeps I (makeClosure i) := by
  refine .bind (.constant i) fun v => ?_
  split
  · refine .bind .get fun m => ?_
    split
    · exact .bind .frame fun _ => .bind (q.captures frames _ _ _) fun _ =>
        .bind (q.allocate nofun) fun _ => q.modest.push _
    · exact .malformed _
  · exact .malformed _

theorem Quiet.endCall : Keeps I endCall := by
  refine .bind q.modest.pop fun v => .bind .frame fun call => .bind
    (.modify fun m h => q.still (frames m _ h) (spared_closeUpvalues _ _).toStill) fun _ =>
      .bind (q.modest.truncate _) fun _ => .bind .get fun m => ?_
  split
  · exact .pure _
  · exact q.modest.push _

/-- What does not depend on the calls is kept by all instructions. -/
theorem Quiet.instruction : Keeps I instruction := by
  refine .bind (.bind .frame fun _ => .bind .chunk fun _ => .bind (.require _ _) fun _ =>
    .bind (keeps_setIp frames _) fun _ => .pure _) fun i => ?_
  cases i with
  | jump d => exact keeps_jumpAhead frames d
  | jumpIfFalse d =>
    refine .bind (.peek 0) fun v => ?_
    split
    · exact keeps_jumpAhead frames d
    · exact .pure _
  | loop d =>
    refine .bind .frame fun call => ?_
    dsimp only
    split
    · exact keeps_setIp frames _
    · exact .malformed _
  | call n =>
    refine fun m h => (q.ends_startCall h n).imp (fun _ m' h' => ?_) fun _ _ => id
    obtain h' | ⟨fs, rfl⟩ := h'
    · exact h'
    · exact frames m fs h
  | closure i => exact q.makeClosure frames i
  | ret => exact q.endCall frames
  | _ => exact q.execute trivial

theorem Quiet.enter (r : Ref) : Keeps I (enter r) :=
  .bind (q.allocate nofun) fun _ => .bind (q.modest.push _) fun _ => fun m h =>
    (ends_callClosure_frames _ _).imp (fun _ _ ⟨_, e⟩ => e ▸ frames m _ h) fun _ _ e => e ▸ h

theorem Quiet.step {m : Machine} (h : I m) : I m.step.2 := by
  cases hf : m.frames with
  | nil =>
    rw [step_idle hf]
    exact h
  | cons call outer =>
    have reset (m' : Machine) (h : I m') : I m'.reset :=
      q.still (frames m' [] h) ⟨rfl, rfl, limits_closeFrom 0 m'.stack m'.openUpvalues m'.heap, id⟩
    obtain ⟨m', h, e⟩ | ⟨s, m', h, e⟩ := step_cases hf (q.instruction frames m h)
    · rw [e]
      exact h
    · rw [e]
      cases s with
      | exit => exact h
      | _ => exact reset m' h

theorem Quiet.run (n : Nat) {m : Machine} (h : I m) : I (m.run n).2 := by
  induction n generalizing m with
  | zero => exact h
  | succ n ih =>
    by_cases running : m.step.1 = .running
    · rw [run_of_running running]
      exact ih (q.step frames h)
    · rw [run_of_stopped running]
      exact q.step frames h

end Calls

/-- The functions of a heap, at most. -/
theorem Quiet.functions (h : Heap) : Quiet fun m => m.hosts = #[] ∧ h.Limits m.heap where
  hosts := And.left
  still {_ _} hm same :=
    ⟨same.hosts.trans hm.1, hm.2.trans same.functions⟩

theorem Quiet.textless : Quiet fun m => m.hosts = #[] ∧ m.world.Textless where
  hosts := And.left
  still {_ _} hm same := ⟨same.hosts.trans hm.1, same.textless hm.2⟩

/-- No step puts a function on the heap. -/
theorem limits_step {m : Machine} (hosts : m.hosts = #[]) : m.heap.Limits m.step.2.heap :=
  ((Quiet.functions m.heap).step (fun _ _ => id) ⟨hosts, .refl m.heap⟩).2

end Machine
end StackScript
