import StackScript.Proofs.Machine.Safety

/-!
# StackScript.Proofs.Machine.Captured

Captured variables are cells that closures share, in their slots and on the heap.

* `floor`: the slots that the next instruction does not take.
* `KeepsCells`: what a step does to the values of captured variables, to the slots of open upvalues,
  and to the closures that share them.
* `Reachable.step_keepsCells`: every step of compiled scripts does that, also one that fails.
-/

namespace StackScript
namespace Machine

open Bytecode
open Bytecode.Shape (temporaries Below)
open Instruction (width stream)

/-- The next instruction takes slots from this one on only. A return takes all slots of its call. -/
def floor (m : Machine) : Nat :=
  match m.next? with
  | some (call, .ret) => call.base
  | some (_, i) => m.stack.size - (effect i).1
  | none => m.stack.size

/-- The upvalues of a closure are what the captures behind an instruction tell. -/
def Collects (m : Machine) (call : Frame) (k : Closure) (refs : Array Ref) (h : Heap) : Prop :=
  ∃ f, m.heap.function? call.function = some f ∧ ∀ j r, refs[j]? = some r →
    ∃ c, f.chunk.read? (call.ip + 2 + 3 * j) = some (.capture c) ∧
      CapturedAs h call.base k.upvalues c r

/-- What a step from a machine does to captured variables. -/
structure KeepsCells (m : Machine) : Prop where
  /-- Every captured variable has a value, in its slot or on the heap. -/
  present : ∀ r u, m.heap.upvalue? r = some u → ∃ v, content m.stack m.heap r = some v
  /-- The value stays unless the step assigns to that variable. -/
  kept : ∀ r u, m.heap.upvalue? r = some u → ¬m.Assigns r →
    content m.step.2.stack m.step.2.heap r = content m.stack m.heap r
  /-- Otherwise the variable has the value that is assigned. -/
  assigned : ∀ r, m.Assigns r → ∃ v, m.stack.back? = some v ∧
    content m.step.2.stack m.step.2.heap r = some v
  /-- Reading through an upvalue gives the value of the variable. -/
  read : ∀ call i k r v, m.next? = some (call, .getUpvalue i) →
    m.heap.closure? call.closure = some k → k.upvalues[i.toNat]? = some r →
    content m.stack m.heap r = some v → m.step.1 = .running → m.step.2.stack = m.stack.push v
  /-- A slot has one upvalue at most. -/
  unique : ∀ r r' slot, m.heap.upvalue? r = some (.opened slot) →
    m.heap.upvalue? r' = some (.opened slot) → r = r'
  /-- An upvalue that is open has been open on its slot since it was made. -/
  lasts : ∀ r u slot, m.heap.upvalue? r = some u →
    m.step.2.heap.upvalue? r = some (.opened slot) → u = .opened slot
  /-- An upvalue stays open only while its slot is not taken. -/
  closes : m.step.1.Stays → ∀ r slot, m.heap.upvalue? r = some (.opened slot) →
    m.step.2.heap.upvalue? r = some (.opened slot) → slot < m.floor
  /-- A failure closes all upvalues. -/
  fails : ∀ e, m.step.1 = .failed e → ∀ r slot, m.step.2.heap.upvalue? r ≠ some (.opened slot)
  /-- A new closure shares the upvalue of a slot, or one of the closure around it. -/
  shares : ∀ call i, m.next? = some (call, .closure i) → m.step.1 = .running →
    ∃ k r k', m.heap.closure? call.closure = some k ∧ m.step.2.stack.back? = some (.object r) ∧
      m.step.2.heap.closure? r = some k' ∧ Collects m call k k'.upvalues m.step.2.heap

section Parts

variable {m : Machine} {call : Frame} {outer : List Frame}

theorem Invariant.content (inv : Invariant m) {r : Ref} {u : Upvalue}
    (hu : m.heap.upvalue? r = some u) : ∃ v, content m.stack m.heap r = some v := by
  obtain ⟨σ, size, -, tracked⟩ := inv.stacked
  exact tracked.content size hu

theorem next?_eq_some {i : Instruction} (h : m.next? = some (call, i)) :
    ∃ outer f, m.frames = call :: outer ∧ m.heap.function? call.function = some f ∧
      f.chunk.read? call.ip = some i := by
  unfold next? at h
  cases hf : m.frames with
  | nil => simp [hf] at h
  | cons call' outer =>
    simp only [hf, Option.bind_eq_bind, Option.bind_eq_some_iff, Option.pure_def,
      Option.some.injEq, Prod.mk.injEq] at h
    obtain ⟨f, hf', i', hi, rfl, rfl⟩ := h
    exact ⟨outer, f, rfl, hf', hi⟩

/-- The call in front of the next instruction. -/
theorem Invariant.aheadOf (inv : Invariant m) {i : Instruction} (h : m.next? = some (call, i)) :
    ∃ outer k f c pre post x τ ρ is, Ahead m call outer k f c pre post x τ ρ ∧ x.code = i :: is := by
  obtain ⟨outer, f, hf, -, -⟩ := next?_eq_some h
  obtain ⟨k, f, c, pre, post, x, τ, ρ, a⟩ := inv.ahead hf
  cases x with
  | plain i' =>
    cases h.symm.trans (a.next? rfl)
    exact ⟨outer, k, f, c, pre, post, _, τ, ρ, _, a, rfl⟩
  | closure j captures =>
    cases h.symm.trans (a.next? rfl)
    exact ⟨outer, k, f, c, pre, post, _, τ, ρ, _, a, rfl⟩

/-- A value is there to be assigned. -/
theorem Invariant.assigned (inv : Invariant m) {r : Ref} (h : m.Assigns r) :
    ∃ v, m.stack.back? = some v := by
  unfold Assigns at h
  cases hn : m.next? with
  | none => simp [hn] at h
  | some p =>
    obtain ⟨call, i⟩ := p
    rw [hn] at h
    obtain ⟨outer, k, f, c, pre, post, x, τ, ρ, is, a, hx⟩ := inv.aheadOf hn
    obtain ⟨-, taken⟩ := a.provided hx
    have room : 0 < m.stack.size := by
      cases i with
      | setLocal | setUpvalue =>
        simp only [effect] at taken
        omega
      | _ => exact h.elim
    have last : m.stack.size - 1 < m.stack.size := by omega
    exact ⟨_, Array.getElem?_eq_getElem last⟩

theorem Invariant.fails (inv : Invariant m) (hf : m.frames = []) {r : Ref} {slot : Nat} :
    m.heap.upvalue? r ≠ some (.opened slot) := by
  obtain ⟨σ, -, stacked, tracked⟩ := inv.stacked
  rw [hf] at stacked
  cases stacked
  intro hu
  have := (tracked.allowed r slot hu).lt
  simp at this

theorem frames_stopWith {s : Stop} (stays : (m.stopWith s).1.Stays) :
    (m.stopWith s).2.frames = [] := by
  cases s with
  | exit code => exact absurd rfl (stays code)
  | _ => rfl

/-- No call is left where a run stops, unless it ends the program. -/
theorem frames_step (stopped : m.step.1 ≠ .running) (stays : m.step.1.Stays) :
    m.step.2.frames = [] := by
  cases hf : m.frames with
  | nil =>
    rw [step_idle hf]
    exact hf
  | cons call outer =>
    have ends : Ends instruction m (fun _ _ => True) fun _ _ => True := by
      unfold Ends
      split <;> trivial
    obtain ⟨m', -, hs⟩ | ⟨s, m', -, hs⟩ := step_cases hf ends
    · rw [hs] at stopped ⊢
      unfold progress at stopped
      dsimp only at stopped
      split at stopped
      next none => exact List.isEmpty_iff.1 none
      next => exact absurd rfl stopped
    · rw [hs] at stays ⊢
      exact frames_stopWith stays

/-- Slots that are captured are not taken before they are closed. -/
theorem Invariant.closes (inv : Invariant m) (hb : m.step.2.heap.size ≤ UInt32.size)
    (stays : m.step.1.Stays) {r : Ref} {slot : Nat} (hr : m.heap.upvalue? r = some (.opened slot))
    (hr' : m.step.2.heap.upvalue? r = some (.opened slot)) : slot < m.floor := by
  have old := Nat.le_trans (Larger.step inv.hosts).size hb
  have inv' := (inv.step old).invariant hb stays
  cases hf : m.frames with
  | nil => exact absurd hr (inv.fails hf)
  | cons call outer =>
    obtain ⟨k, f, c, pre, post, x, τ, ρ, a⟩ := inv.ahead hf
    have allowed := a.tracked.allowed r slot hr
    have size := a.size
    have ends {Q : Machine → Prop} {E : Stop → Machine → Prop}
        (h : Ends instruction m (fun _ => Q) E) (hQ : ∀ m', m'.heap.size ≤ UInt32.size → Q m' →
          m'.heap.upvalue? r = some (.opened slot) → slot < m.floor) : slot < m.floor := by
      obtain ⟨m', q, e⟩ | ⟨s, m', -, e⟩ := step_cases hf h
      · rw [e] at hb hr'
        exact hQ m' hb q hr'
      · rw [e] at inv' stays hr'
        exact absurd hr' (inv'.fails (frames_stopWith stays))
    cases x with
    | closure i captures =>
      rw [floor, a.next? rfl]
      simp only [effect, size]
      exact allowed.lt
    | plain i =>
      have next := a.next? rfl
      obtain ⟨top, rest, rfl, -, takes, -, -⟩ := a.fine
      rw [List.append_assoc] at allowed size
      rw [List.length_append] at size
      have holds : Holds m.heap (fun _ _ => False) _ _ _ :=
        (a.holds inv (call.ip + i.size)).weaken fun _ _ => False.elim
      rw [List.append_assoc] at holds
      cases i with
      | ret =>
        obtain rfl := takes
        refine ends (.bind (.fetch hf a.active.function (a.read? rfl)
          (ends_endCall (σ := rest) (ρ := ρ) holds a.base))) fun m' hb h hu => ?_
        rw [floor, next]
        simp only [a.base]
        obtain ⟨-, h⟩ | ⟨-, h⟩ := h
        · exact ((h.tracked hb).allowed r slot hu).lt
        · exact (((h.tracked hb).allowed r slot hu).ofTemporaries (n := 1)).lt
      | closeUpvalue =>
        obtain ⟨b, rfl⟩ := List.length_eq_one_iff.1 takes
        refine ends (.bind (.fetch hf a.active.function (a.read? rfl)
          (leads_closeTop (σ := rest ++ ρ) (b := b) holds))) fun m' hb h hu => ?_
        have := ((h.tracked hb).allowed r slot hu).lt
        rw [floor, next]
        simp only [effect, List.length_cons, List.length_nil] at size ⊢
        omega
      | _ =>
        obtain rfl := takes
        rw [floor, next]
        simp only [Shape.length_temporaries] at size ⊢
        have := allowed.ofTemporaries.lt
        omega

/-- What a captured variable holds is pushed. -/
theorem ends_readUpvalue {i : UInt8} {k : Closure} {r : Ref} {v : Value}
    (hf : m.frames = call :: outer) (hk : m.heap.closure? call.closure = some k)
    (hr : k.upvalues[i.toNat]? = some r) (hv : content m.stack m.heap r = some v) :
    Ends (readUpvalue i) m (fun _ m' => m' = { m with stack := m.stack.push v }) fun _ _ => True := by
  refine .bind (.upvalueRef hf hk hr (.bind (.get ?_)))
  unfold content at hv
  cases hu : m.heap.upvalue? r with
  | none => simp [hu] at hv
  | some u =>
    rw [hu] at hv
    cases u with
    | opened slot =>
      obtain ⟨inside, -⟩ := Array.getElem?_eq_some_iff.1 hv
      refine .bind (.slot inside fun w hw => .push ?_ trivial)
      rw [Option.some.inj (hv.symm.trans hw)]
    | closed w =>
      obtain rfl := Option.some.inj hv
      exact .push rfl trivial

theorem running_stopWith {s : Stop} : (m.stopWith s).1 ≠ .running := by
  cases s <;> exact fun e => by cases e

/-- What holds behind a step that was not stopped. -/
theorem step_running {Q : Machine → Prop} {E : Stop → Machine → Prop}
    (hf : m.frames = call :: outer) (h : Ends instruction m (fun _ => Q) E)
    (running : m.step.1 = .running) : Q m.step.2 := by
  obtain ⟨m', q, e⟩ | ⟨s, m', -, e⟩ := step_cases hf h
  · rw [e]
    exact q
  · rw [e] at running
    exact absurd running running_stopWith

theorem Invariant.shares (inv : Invariant m) (hb : m.step.2.heap.size ≤ UInt32.size) {i : UInt8}
    (next : m.next? = some (call, .closure i)) (running : m.step.1 = .running) :
    ∃ k r k', m.heap.closure? call.closure = some k ∧ m.step.2.stack.back? = some (.object r) ∧
      m.step.2.heap.closure? r = some k' ∧ Collects m call k k'.upvalues m.step.2.heap := by
  obtain ⟨outer, k, f, c, pre, post, x, τ, ρ, is, a, hx⟩ := inv.aheadOf next
  cases x with
  | plain i' =>
    cases hx
    obtain ⟨_, _, _, _, _, admits, _⟩ := a.fine
    exact admits.elim
  | closure i' captures =>
    cases hx
    have made := a.ends_closure (W := fun _ _ => False) inv fun _ _ => False.elim
    obtain ⟨-, shared⟩ := step_running a.frames made running
    obtain ⟨r, r', refs, last, closure, each⟩ := shared hb
    refine ⟨k, r', _, a.active.closure, last, closure, f, a.active.function, fun j ref hj => ?_⟩
    rw [← Array.getElem?_toList] at hj
    obtain ⟨cap, hc, captured⟩ := forall₂_getElem? each.flip hj
    refine ⟨cap, ?_, captured⟩
    obtain ⟨before, after, split, rfl⟩ : ∃ before after, captures = before ++ cap :: after ∧
        before.length = j := by
      obtain ⟨inside, rfl⟩ := List.getElem?_eq_some_iff.1 hc
      exact ⟨captures.take j, captures.drop (j + 1), by simp, by simp; omega⟩
    have code := a.code
    rw [Item.code, split] at code
    have found := Chunk.read?_of_code (c := f.chunk) (i := .capture cap)
      (stream pre.code ++ stream (.closure i :: before.map .capture))
      (stream (after.map .capture) ++ stream post.code) (by rw [code]; simp)
    have offset : (stream pre.code ++ stream (.closure i :: before.map .capture)).length =
        call.ip + 2 + 3 * before.length := by
      rw [List.length_append, Instruction.length_stream, Instruction.length_stream,
        Instruction.width_cons, Instruction.width_captures, ← a.ip, ← Nat.add_assoc]
      rfl
    rwa [offset] at found

end Parts

/-- Captured variables behave as cells that closures share, in every step of compiled scripts. -/
theorem Reachable.step_keepsCells {m : Machine} (h : Reachable m)
    (hb : m.step.2.heap.size ≤ UInt32.size) : KeepsCells m := by
  have old := Nat.le_trans (Larger.step h.hosts).size hb
  have inv := h.invariant old
  have stepped := inv.step old
  refine ⟨fun r u hu => inv.content hu, fun r u hu none => ?_, fun r assigns => ?_,
    fun call i k r v next hk hr hv running => ?_, ?_, fun r u slot hu hu' => ?_,
    fun stays r slot => inv.closes hb stays, fun e failed r slot => ?_,
    fun call i next running => inv.shares hb next running⟩
  · obtain ⟨v, hv⟩ := inv.content hu
    exact (stepped.contents hb r v (.inr ⟨none, hv⟩)).trans hv.symm
  · obtain ⟨v, hv⟩ := inv.assigned assigns
    exact ⟨v, hv, stepped.contents hb r v (.inl ⟨assigns, hv⟩)⟩
  · obtain ⟨outer, f, hf, function, read⟩ := next?_eq_some next
    have ends := ends_readUpvalue (m := { m with frames :=
      { call with ip := call.ip + (Instruction.getUpvalue i).size } :: outer }) rfl hk hr hv
    have pushed := step_running hf (.bind (.fetch hf function read ends)) running
    rw [pushed]
  · obtain ⟨σ, -, -, tracked⟩ := inv.stacked
    exact fun r r' slot hr hr' => tracked.unique hr hr'
  · obtain ⟨u', hu'', rfl | ⟨v, rfl⟩⟩ := stepped.kept.upvalue? hu
    · exact Option.some.inj (hu''.symm.trans hu')
    · cases hu''.symm.trans hu'
  · have stays : m.step.1.Stays := fun code exits => by
      rw [failed] at exits
      cases exits
    exact (stepped.invariant hb stays).fails (frames_step (by rw [failed]; nofun) stays)

/-- A machine that is about to assign to a captured variable in its slot. -/
theorem step_keepsCells_in_function :
    let m := (((new .unlimited .still).load "{ var x; fun f() { x = nil; } f(); }").2.run 5).2
    Reachable m ∧ m.step.2.heap.size ≤ UInt32.size ∧ KeepsCells m := by
  have size : (((new .unlimited .still).load "{ var x; fun f() { x = nil; } f(); }").2.run
      5).2.step.2.heap.size = 26 := by
    decide +kernel
  have small : (((new .unlimited .still).load "{ var x; fun f() { x = nil; } f(); }").2.run
      5).2.step.2.heap.size ≤ UInt32.size := by
    rw [size]
    decide
  exact ⟨reachable_in_function, small, reachable_in_function.step_keepsCells small⟩

end Machine
end StackScript
