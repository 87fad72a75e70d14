import StackScript.Proofs.Machine.Floor

/-!
# StackScript.Proofs.Machine.Transparent

Calls are transparent to the caller.

* `Based`: each call has its frame above those of the calls around it, and no captured variable is
  in the lowest slot of a frame.
* `Seated`: the lowest slot of every frame has the closure of the call.
* `InCall`: a machine that is in the call that a step begins.
* `Reachable.call_transparent`: when a call has returned, its result is in the place of the callee
  and the arguments, and the caller goes on with the slots below as they were.
-/

namespace StackScript
namespace Machine

open Bytecode

structure Based (m : Machine) : Prop where
  falling : m.frames.Pairwise fun a b => b.base < a.base
  free : ∀ call ∈ m.frames, ∀ r, m.heap.upvalue? r ≠ some (.opened call.base)

section Based

variable {h : Heap} {call : Frame} {fs outer : List Frame} {k : Closure} {f : Function} {c : Layout}
  {σ ρ : Shape} {m m' : Machine}

theorem Active.rooted (active : Active h call k f c) {ip : Nat} (at_ : c.At ip σ) : σ.Rooted := by
  obtain ⟨pre, τ, x, post, hc, -, below⟩ := at_
  have fine := active.fits.fine pre τ x post hc
  have rooted : τ.Rooted := by
    cases x with
    | plain i =>
      obtain ⟨top, rest, rfl, rooted, -⟩ := fine
      exact rooted.append top
    | closure => exact fine.1
  exact rooted.lower below

/-- The slots of one more call come on top. -/
theorem based_cons (rooted : σ.Rooted) (base : call.base = ρ.length)
    (h : outer.Pairwise (fun a b => b.base < a.base) ∧
      ∀ call ∈ outer, call.base < ρ.length ∧ ¬Allows ρ call.base) :
    (call :: outer).Pairwise (fun a b => b.base < a.base) ∧
      ∀ g ∈ call :: outer, g.base < (σ ++ ρ).length ∧ ¬Allows (σ ++ ρ) g.base := by
  obtain ⟨falling, free⟩ := h
  have more := List.length_pos_iff.2 rooted.ne_nil
  refine ⟨List.pairwise_cons.2 ⟨fun g hg => base ▸ (free g hg).1, falling⟩, fun g hg => ?_⟩
  rw [List.length_append]
  obtain rfl | hg := List.mem_cons.1 hg
  · refine ⟨by omega, fun allowed => ?_⟩
    unfold Allows at allowed
    rw [base, List.reverse_append, List.getElem?_append_right (by simp), List.length_reverse,
      Nat.sub_self, ← List.head?_eq_getElem?, List.head?_reverse, show σ.getLast? = some false from
        rooted] at allowed
    cases allowed
  · obtain ⟨lt, none⟩ := free g hg
    exact ⟨by omega, fun allowed => none (allowed.ofAppend lt)⟩

theorem Calls.based (calls : Calls h fs ρ) : fs.Pairwise (fun a b => b.base < a.base) ∧
    ∀ call ∈ fs, call.base < ρ.length ∧ ¬Allows ρ call.base := by
  induction calls with
  | nil => exact ⟨.nil, by simp⟩
  | cons _ _ rooted base _ ih => exact based_cons rooted base ih

theorem Stacked.based (stacked : Stacked h fs ρ) : fs.Pairwise (fun a b => b.base < a.base) ∧
    ∀ call ∈ fs, call.base < ρ.length ∧ ¬Allows ρ call.base := by
  cases stacked with
  | idle => exact ⟨.nil, by simp⟩
  | active active at_ base calls => exact based_cons (active.rooted at_) base calls.based

theorem Invariant.based (inv : Invariant m) : Based m := by
  obtain ⟨σ, -, stacked, tracked⟩ := inv.stacked
  have based := stacked.based
  exact ⟨based.1, fun call hc r hr => (based.2 call hc).2 (tracked.allowed r _ hr)⟩

theorem Based.free_of_setsOpen (based : Based m) (hc : call ∈ m.frames) :
    ¬m.SetsOpen call.base :=
  fun ⟨_, _, _, r, _, _, _, hr⟩ => based.free call hc r hr

theorem Invariant.moves (inv : Invariant m) (hf : m.frames = call :: outer)
    (running : m.step.1 = .running) : Moves m call outer m.step.2 := by
  obtain ⟨k, f, c, pre, post, x, τ, ρ, a⟩ := inv.ahead hf
  exact a.moves running

theorem getElem?_returned {xs : Array Value} {base slot : Nat} (v : Value) (hs : slot < base)
    (hb : base < xs.size - 1) : ((xs.pop.shrink base).push v)[slot]? = xs[slot]? := by
  have size : (xs.pop.shrink base).size = base := by
    rw [Array.size_shrink, Array.size_pop]
    omega
  have inside : slot < (xs.pop.shrink base).size := by omega
  rw [Array.getElem?_push_lt inside, ← Array.getElem?_eq_getElem inside, getElem?_shrink hs,
    Array.getElem?_pop, if_pos (by omega)]

/-- Below the frame of the innermost call, a step assigns through open upvalues only. -/
theorem Moves.below (moves : Moves m call outer m') {slot : Nat} (hs : slot < call.base)
    (other : ¬m.SetsOpen slot) : m'.stack[slot]? = m.stack[slot]? := by
  cases moves with
  | onward _ _ below => exact below slot (Nat.le_of_lt hs) other
  | called _ _ _ _ _ _ _ stack => rw [stack]
  | returned v _ _ _ room stack => rw [stack, getElem?_returned v hs room]

end Based

/-- The lowest slot of every frame has the closure of the call. -/
def Seated (m : Machine) : Prop :=
  ∀ call ∈ m.frames, m.stack[call.base]? = some (.object call.closure)

section Seated

variable {call : Frame} {outer : List Frame} {m m' : Machine}

theorem seated_of_idle (h : m.frames = []) : Seated m := by
  intro call hc
  rw [h] at hc
  cases hc

theorem Moves.seated (moves : Moves m call outer m') (hf : m.frames = call :: outer)
    (based : Based m) (h : Seated m) : Seated m' := by
  have falling := based.falling
  rw [hf] at falling
  obtain ⟨above, -⟩ := List.pairwise_cons.1 falling
  have here : call ∈ m.frames := hf ▸ List.mem_cons_self
  have around {g : Frame} (hg : g ∈ outer) : g ∈ m.frames := hf ▸ List.mem_cons_of_mem _ hg
  have outside {g : Frame} (hg : g ∈ outer) : m'.stack[g.base]? = some (.object g.closure) :=
    (moves.below (above g hg) (based.free_of_setsOpen (around hg))).trans (h g (around hg))
  intro g hg
  cases moves with
  | onward ip frames below =>
    rw [frames] at hg
    obtain rfl | hg := List.mem_cons.1 hg
    · exact (below _ (Nat.le_refl _) (based.free_of_setsOpen here)).trans (h call here)
    · exact outside hg
  | called n r function _ callee _ _ stack frames =>
    rw [frames] at hg
    obtain rfl | hg := List.mem_cons.1 hg
    · rw [stack]
      dsimp only
      rwa [Nat.sub_right_comm]
    · obtain rfl | hg := List.mem_cons.1 hg
      · rw [stack]
        exact h call here
      · exact outside hg
  | returned _ _ _ frames => exact outside (frames ▸ hg)

/-- A run that does not go on leaves no call behind, unless the program ends. -/
theorem frames_of_stopped (stays : m.step.1.Stays) (stopped : m.step.1 ≠ .running) :
    m.step.2.frames = [] := by
  cases hf : m.frames with
  | nil =>
    rw [step_idle hf]
    exact hf
  | cons call outer =>
    have ends : Ends instruction m (fun _ _ => True) fun _ _ => True := by
      unfold Ends
      split <;> trivial
    obtain ⟨m', -, e⟩ | ⟨s, m', -, e⟩ := step_cases hf ends
    · rw [e] at stopped ⊢
      unfold progress at stopped
      dsimp only at stopped
      split at stopped
      next idle => exact List.isEmpty_iff.1 idle
      next => exact absurd rfl stopped
    · rw [e] at stays ⊢
      exact frames_stopWith stays

theorem Invariant.step_seated (inv : Invariant m) (stays : m.step.1.Stays) (h : Seated m) :
    Seated m.step.2 := by
  by_cases running : m.step.1 = .running
  · cases hf : m.frames with
    | nil =>
      rw [step_idle hf] at running
      cases running
    | cons call outer => exact (inv.moves hf running).seated hf inv.based h
  · exact seated_of_idle (frames_of_stopped stays running)

theorem ends_enter_seated (hf : m.frames = []) (hs : m.stack.size = 0) (r : Ref) :
    Ends (enter r) m (fun _ => Seated) fun _ => Seated := by
  refine .bind (.allocate (.bind (.push ?_ (seated_of_idle hf))))
  refine (ends_callClosure_frames _ 0).imp (fun _ m' ⟨function, e⟩ => ?_) fun _ m' e => ?_
  · subst e
    intro call hc
    simp only [hf, List.mem_singleton] at hc
    subst hc
    have last : (m.stack.push (.object (m.heap.allocate (.closure ⟨r, #[]⟩)).2))[m.stack.size]? =
        some (.object (m.heap.allocate (.closure ⟨r, #[]⟩)).2) := Array.getElem?_push_size
    simpa [hs] using last
  · subst e
    exact seated_of_idle hf

theorem load_seated (hf : m.frames = []) (hs : m.stack.size = 0) (source : String) :
    Seated (m.load source).2 := by
  rw [load_eq]
  split
  next => exact seated_of_idle hf
  next r _ =>
    have entered := ends_enter_seated (m := { m with
      heap := (Compile.compile source m.heap).heap }) hf hs r
    unfold Ends at entered
    simp only [EStateM.run]
    split
    next hx =>
      rw [hx] at entered
      exact entered
    next hx =>
      rw [hx] at entered
      exact entered

theorem Invariant.size_of_idle (inv : Invariant m) (hf : m.frames = []) : m.stack.size = 0 := by
  obtain ⟨σ, size, stacked, -⟩ := inv.stacked
  rw [hf] at stacked
  cases stacked
  exact size

theorem Reachable.run_seated (h : Reachable m) (seated : Seated m) {n : Nat}
    (hb : (m.run n).2.heap.size ≤ UInt32.size) (stays : (m.run n).1.Stays) :
    Seated (m.run n).2 := by
  induction n generalizing m with
  | zero => exact seated
  | succ n ih =>
    have larger := Larger.step h.hosts
    by_cases hs : m.step.1 = .running
    · rw [run_of_running hs] at hb stays ⊢
      have goesOn : m.step.1.Stays := fun _ e => by rw [hs] at e; cases e
      have size := Nat.le_trans larger.size (Nat.le_trans (Larger.run n larger.hosts).size hb)
      exact ih (h.step goesOn) ((h.invariant size).step_seated goesOn seated) hb stays
    · rw [run_of_stopped hs] at hb stays ⊢
      exact (h.invariant (Nat.le_trans larger.size hb)).step_seated stays seated

/-- The lowest slot of every frame has its closure, in every machine that only runs scripts. -/
theorem Reachable.seated (h : Reachable m) (hb : m.heap.size ≤ UInt32.size) : Seated m := by
  induction h with
  | new output world => exact seated_of_idle (holds_new output world).frames
  | outside world _ ih => exact ih hb
  | load source h idle ih =>
    have inv := h.invariant (Nat.le_trans (Larger.load h.hosts source).size hb)
    exact load_seated idle (inv.size_of_idle idle) source
  | step h stays ih =>
    have size := Nat.le_trans (Larger.step h.hosts).size hb
    exact (h.invariant size).step_seated stays (ih size)
  | run n h stays ih => exact h.run_seated (ih (Nat.le_trans (Larger.run n h.hosts).size hb)) hb stays
  | @interpret m n source h idle stays ih =>
    have inv := h.invariant (Nat.le_trans (Larger.interpret h.hosts n source).size hb)
    have loaded := load_seated idle (inv.size_of_idle idle) source
    obtain e | ⟨err, e⟩ := m.interpret_cases n source
    · rw [e] at hb stays ⊢
      exact (h.load source idle).run_seated loaded hb stays
    · rw [e]
      exact loaded

end Seated

/-- A machine in the call that the next step of `m` begins, up to where it returns. `ms` are the
machines that took a step meanwhile, the last one first; the world outside may change between two
steps. -/
inductive InCall (m : Machine) : List Machine → Machine → Prop where
  | start : m.step.1 = .running → m.frames.length < m.step.2.frames.length → InCall m [] m.step.2
  | outside {ms : List Machine} {m' : Machine} (world : World) : InCall m ms m' →
      InCall m ms { m' with world }
  | step {ms : List Machine} {m' : Machine} : InCall m ms m' → m'.step.1 = .running →
      m.frames.length < m'.step.2.frames.length → InCall m (m' :: ms) m'.step.2

/-- What a call with `n` arguments is to the caller. `ms` are the machines that took a step
meanwhile, and `v` is the result. -/
structure Answered (m : Machine) (call : Frame) (n : UInt8) (ms : List Machine) (v : Value)
    (m' : Machine) : Prop where
  size : m'.stack.size + n.toNat = m.stack.size
  result : m'.stack.back? = some v
  frames : m'.frames = { call with ip := call.ip + 2 } :: m.frames.tail
  below : ∀ slot < m.stack.size - n.toNat - 1, (∀ s ∈ ms, ¬s.SetsOpen slot) →
    m'.stack[slot]? = m.stack[slot]?

section InCall

variable {m m' : Machine} {ms : List Machine} {call : Frame} {outer : List Frame} {n : UInt8}

theorem running_stays (running : m.step.1 = .running) : m.step.1.Stays := fun code e => by
  rw [running] at e
  cases e

theorem InCall.reachable (inside : InCall m ms m') (h : Reachable m) : Reachable m' := by
  induction inside with
  | start running => exact h.step (running_stays running)
  | outside world _ ih => exact .outside world ih
  | step _ running _ ih => exact ih.step (running_stays running)

theorem InCall.larger (inside : InCall m ms m') (h : Reachable m) : Larger m m' := by
  induction inside with
  | start => exact .step h.hosts
  | outside world _ ih => exact ⟨ih.hosts, ih.onward⟩
  | step _ _ _ ih => exact ih.trans (.step ih.hosts)

/-- A call is on top of the caller, with its frame from `base` on. -/
structure Above (m : Machine) (outer : List Frame) (base : Nat) (ms : List Machine)
    (m' : Machine) : Prop where
  frames : ∃ inner top, m'.frames = inner ++ top :: outer ∧ top.base = base
  below : ∀ slot < base, (∀ s ∈ ms, ¬s.SetsOpen slot) → m'.stack[slot]? = m.stack[slot]?

/-- The innermost call is the one on top of the caller, or one that came later. -/
theorem Above.le_base {base : Nat} {inner : Frame} {rest : List Frame}
    (above : Above m outer base ms m') (based : Based m') (hf : m'.frames = inner :: rest) :
    base ≤ inner.base := by
  obtain ⟨later, top, frames, rfl⟩ := above.frames
  have falling := based.falling
  rw [hf] at frames falling
  cases later with
  | nil =>
    obtain ⟨rfl, -⟩ := List.cons.inj frames
    exact Nat.le_refl _
  | cons g later =>
    obtain ⟨rfl, rfl⟩ := List.cons.inj frames
    exact Nat.le_of_lt ((List.pairwise_cons.1 falling).1 top (by simp))

theorem Above.step {base : Nat} {inner : Frame} {rest : List Frame} {m'' : Machine}
    (above : Above m outer base ms m') (based : Based m') (hf : m'.frames = inner :: rest)
    (moves : Moves m' inner rest m'') (longer : outer.length < m''.frames.length) :
    Above m outer base (m' :: ms) m'' := by
  have least := above.le_base based hf
  refine ⟨?_, fun slot hs other => ?_⟩
  · obtain ⟨later, top, frames, e⟩ := above.frames
    rw [hf] at frames
    cases later with
    | nil =>
      obtain ⟨rfl, rfl⟩ := List.cons.inj frames
      cases moves with
      | onward ip frames => exact ⟨[], { inner with ip }, frames, e⟩
      | called n r function _ _ _ _ _ frames => exact ⟨[_], { inner with ip := _ }, frames, e⟩
      | returned v _ _ frames =>
        rw [frames] at longer
        exact absurd longer (Nat.lt_irrefl _)
    | cons g later =>
      obtain ⟨rfl, rfl⟩ := List.cons.inj frames
      cases moves with
      | onward ip frames => exact ⟨{ inner with ip } :: later, top, frames, e⟩
      | called n r function _ _ _ _ _ frames =>
        exact ⟨_ :: { inner with ip := _ } :: later, top, frames, e⟩
      | returned v _ _ frames => exact ⟨later, top, frames, e⟩
  · obtain ⟨here, before⟩ := List.forall_mem_cons.1 other
    obtain hs' | hs' := Nat.lt_or_ge slot inner.base
    · exact (moves.below hs' here).trans (above.below slot hs before)
    · omega

/-- A step that adds a call calls a closure. -/
theorem Moves.starts (moves : Moves m call outer m') (hf : m.frames = call :: outer)
    (longer : m.frames.length < m'.frames.length) (next : m.next? = some (call, .call n)) :
    Above m ({ call with ip := call.ip + 2 } :: outer) (m.stack.size - n.toNat - 1) [] m' := by
  rw [hf] at longer
  cases moves with
  | onward ip frames =>
    rw [frames] at longer
    exact absurd longer (Nat.lt_irrefl _)
  | returned v _ _ frames =>
    rw [frames, List.length_cons] at longer
    omega
  | called n' r function next' _ _ room stack frames =>
    obtain ⟨-, e⟩ := Prod.mk.inj (Option.some.inj (next.symm.trans next'))
    cases e
    exact ⟨⟨[], _, frames, rfl⟩, fun _ _ _ => by rw [stack]⟩

theorem InCall.above (inside : InCall m ms m') (h : Reachable m)
    (hb : m'.heap.size ≤ UInt32.size) (hf : m.frames = call :: outer)
    (next : m.next? = some (call, .call n)) :
    Above m ({ call with ip := call.ip + 2 } :: outer) (m.stack.size - n.toNat - 1) ms m' := by
  induction inside with
  | start running longer =>
    have inv := h.invariant (Nat.le_trans (Larger.step h.hosts).size hb)
    exact (inv.moves hf running).starts hf longer next
  | outside world _ ih => exact ⟨(ih hb).frames, (ih hb).below⟩
  | @step ms m' inside running longer ih =>
    have reachable := inside.reachable h
    have size := Nat.le_trans (Larger.step reachable.hosts).size hb
    have inv := reachable.invariant size
    cases hf' : m'.frames with
    | nil =>
      rw [step_idle hf'] at running
      cases running
    | cons inner rest =>
      rw [hf] at longer
      exact (ih size).step inv.based hf' (inv.moves hf' running) longer

/-- The step that brings the number of calls back returns from the call on top of the caller. -/
theorem Above.answered {base : Nat} {inner : Frame} {rest : List Frame} {m'' : Machine}
    (above : Above m outer base ms m') (hf : m'.frames = inner :: rest)
    (moves : Moves m' inner rest m'') (count : m''.frames.length = outer.length) :
    ∃ v, m'.next? = some (inner, .ret) ∧ m'.stack.back? = some v ∧ m''.frames = outer ∧
      m''.stack.size = base + 1 ∧ m''.stack.back? = some v ∧
      ∀ slot < base, (∀ s ∈ ms, ¬s.SetsOpen slot) → m''.stack[slot]? = m.stack[slot]? := by
  obtain ⟨later, top, frames, e⟩ := above.frames
  rw [hf] at frames
  have size := congrArg List.length frames
  simp only [List.length_append, List.length_cons] at size
  cases moves with
  | onward ip frames' =>
    rw [frames', List.length_cons] at count
    omega
  | called n r function _ _ _ _ _ frames' =>
    rw [frames', List.length_cons, List.length_cons] at count
    omega
  | returned v next last frames' room stack =>
    rw [frames'] at count
    obtain rfl : later = [] := List.length_eq_zero_iff.1 (by omega)
    obtain ⟨rfl, rfl⟩ := List.cons.inj frames
    subst e
    refine ⟨v, next, last, frames', ?_, ?_, fun slot hs other => ?_⟩
    · rw [stack, Array.size_push, Array.size_shrink, Array.size_pop]
      omega
    · rw [stack, Array.back?_push]
    · rw [stack, getElem?_returned v hs room]
      exact above.below slot hs other

/-- Calls are transparent to the caller. In all machines that only run compiled scripts the lowest
slot of each frame has the closure of its call. When a call with `n` arguments has returned, its
result is in the place of the callee and the arguments, the caller is behind the call, and the slots
below the callee are as they were, but for those that were assigned through an open upvalue. -/
theorem Reachable.call_transparent (h : Reachable m) :
    (m.heap.size ≤ UInt32.size → Seated m) ∧
    ∀ call n ms m', m.next? = some (call, .call n) → InCall m ms m' → m'.step.1 = .running →
      m'.step.2.frames.length = m.frames.length → m'.step.2.heap.size ≤ UInt32.size →
      ∃ last v, m'.next? = some (last, .ret) ∧ m'.stack.back? = some v ∧
        Answered m call n ms v m'.step.2 := by
  refine ⟨h.seated, fun call n ms m' next inside running count hb => ?_⟩
  have reachable := inside.reachable h
  have size := Nat.le_trans (Larger.step reachable.hosts).size hb
  have inv := reachable.invariant size
  have first := h.invariant (Nat.le_trans (inside.larger h).size size)
  obtain ⟨outer, _, _, _, _, _, _, _, _, _, a, hx⟩ := first.aheadOf next
  have room := a.room hx
  have above := inside.above h size a.frames next
  cases hf' : m'.frames with
  | nil =>
    rw [step_idle hf'] at running
    cases running
  | cons inner rest =>
    rw [a.frames] at count
    obtain ⟨v, ret, last, frames, size, result, below⟩ :=
      above.answered hf' (inv.moves hf' running) count
    simp only [effect] at room
    exact ⟨inner, v, ret, last, by omega, result, by rw [frames, a.frames, List.tail_cons], below⟩

/-- A function that returns its argument, up to its return. -/
theorem call_transparent_identity :
    let m := (((new .unlimited .still).load "fun f(a) { return a; } f(true);").2.run 4).2
    Reachable m ∧ Seated m ∧ ∃ call v, m.next? = some (call, .call 1) ∧
      m.step.2.step.2.stack.back? = some v ∧
      Answered m call 1 [m.step.2] v m.step.2.step.2.step.2 := by
  intro m
  have stays : m.step.1 = .running ∧ m.step.2.step.1 = .running ∧
      m.step.2.step.2.step.1 = .running ∧ m.frames.length = 1 ∧ m.step.2.frames.length = 2 ∧
      m.step.2.step.2.frames.length = 2 ∧ m.step.2.step.2.step.2.frames.length = 1 ∧
      m.heap.size = 25 ∧ m.step.2.step.2.step.2.heap.size = 25 := by
    decide +kernel
  obtain ⟨r₀, r₁, r₂, l, l₁, l₂, l₃, size, size₃⟩ := stays
  have runs : (((new .unlimited .still).load "fun f(a) { return a; } f(true);").2.run 4).1 =
      .running := by
    decide +kernel
  have reachable : Reachable m := by
    refine .run 4 (.load _ (.new _ _) (by decide +kernel)) fun code e => ?_
    rw [runs] at e
    cases e
  have inside : InCall m [m.step.2] m.step.2.step.2 :=
    .step (.start r₀ (by rw [l, l₁]; decide)) r₁ (by rw [l, l₂]; decide)
  obtain ⟨seated, transparent⟩ := reachable.call_transparent
  have next : ∃ call, m.next? = some (call, .call 1) := by
    have : (m.next?.map Prod.snd) = some (.call 1) := by decide +kernel
    obtain ⟨⟨call, i⟩, e, rfl⟩ := Option.map_eq_some_iff.1 this
    exact ⟨call, e⟩
  obtain ⟨call, next⟩ := next
  obtain ⟨_, v, -, last, answered⟩ := transparent call 1 _ _ next inside r₂ (by rw [l, l₃])
    (by rw [size₃]; decide)
  exact ⟨reachable, seated (by rw [size]; decide), call, v, next, last, answered⟩

end InCall

end Machine
end StackScript
