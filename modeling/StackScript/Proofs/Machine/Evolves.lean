import StackScript.Proofs.Machine.Captured
import StackScript.Proofs.Machine.Grows

/-!
# StackScript.Proofs.Machine.Evolves

What may become of the objects of a heap, whatever the bytecode is.

* `elementWrite?`: the element of an array that the next instruction writes.
* `Object.Settles`: an object stays as it is, or is an open upvalue that is closed. An instruction
  that is stopped changes nothing else.
* `Evolves`: what a step does to all objects. Strings, functions, closures and natives stay, arrays
  change in the element that is written only, upvalues are closed once.
* `Object.Persists`: the same for runs.
-/

namespace StackScript

/-- What becomes of an object where nothing is assigned. -/
inductive Object.Settles : Object → Object → Prop where
  | same (o : Object) : Settles o o
  | closed (slot : Nat) (v : Value) : Settles (.upvalue (.opened slot)) (.upvalue (.closed v))

theorem Object.Settles.trans {a b c : Object} (h : a.Settles b) (h' : b.Settles c) :
    a.Settles c := by
  cases h with
  | same => exact h'
  | closed =>
    cases h' with
    | same => exact .closed _ _

/-- What an object may be later in a run. -/
inductive Object.Persists : Object → Object → Prop where
  | same (o : Object) : Persists o o
  | array (xs ys : Array Value) : xs.size = ys.size → Persists (.array xs) (.array ys)
  | closed (u : Upvalue) (v : Value) : Persists (.upvalue u) (.upvalue (.closed v))

theorem Object.Persists.trans {a b c : Object} (h : a.Persists b) (h' : b.Persists c) :
    a.Persists c := by
  cases h with
  | same => exact h'
  | array _ _ size =>
    cases h' with
    | same => exact .array _ _ size
    | array _ _ size' => exact .array _ _ (size.trans size')
  | closed =>
    cases h' with
    | same => exact .closed _ _
    | closed => exact .closed _ _

/-- Objects that never change. -/
def Object.Fixed : Object → Prop
  | .upvalue _ | .array _ => False
  | _ => True

namespace Heap

/-- All objects of a heap are on another one, and only open upvalues have changed. -/
def Settles (h h' : Heap) : Prop :=
  ∀ ⦃r : Ref⦄ ⦃o : Object⦄, h.get? r = some o → ∃ o', h'.get? r = some o' ∧ o.Settles o'

def Persists (h h' : Heap) : Prop :=
  ∀ ⦃r : Ref⦄ ⦃o : Object⦄, h.get? r = some o → ∃ o', h'.get? r = some o' ∧ o.Persists o'

variable {h h₁ h' : Heap}

theorem Settles.refl (h : Heap) : Settles h h := fun _ o ho => ⟨o, ho, .same o⟩

theorem Settles.trans (s : Settles h h₁) (s' : Settles h₁ h') : Settles h h' := by
  intro r o ho
  obtain ⟨o₁, h₁, b⟩ := s ho
  obtain ⟨o', h', b'⟩ := s' h₁
  exact ⟨o', h', b.trans b'⟩

theorem Extends.settles (e : h.Extends h') : h.Settles h' := fun _ o ho => ⟨o, e.get? ho, .same o⟩

theorem settles_close {r : Ref} {slot : Nat} {v : Value} (hr : h.upvalue? r = some (.opened slot)) :
    h.Settles (h.set r (.upvalue (.closed v))) := by
  intro r' o ho
  rw [get?_set_upvalue hr]
  split
  next e =>
    subst e
    obtain rfl := Option.some.inj ((upvalue?_eq_some.1 hr).symm.trans ho)
    exact ⟨_, rfl, .closed slot v⟩
  next => exact ⟨o, ho, .same o⟩

theorem Settles.upvalue? (s : h.Settles h') {r : Ref} {u : Upvalue}
    (hr : h.upvalue? r = some u) : h'.upvalue? r = some u ∨
      ∃ slot v, u = .opened slot ∧ h'.upvalue? r = some (.closed v) := by
  obtain ⟨o', ho', b⟩ := s (upvalue?_eq_some.1 hr)
  cases b with
  | same => exact .inl (upvalue?_eq_some.2 ho')
  | closed slot v => exact .inr ⟨slot, v, rfl, upvalue?_eq_some.2 ho'⟩

theorem Persists.refl (h : Heap) : Persists h h := fun _ o ho => ⟨o, ho, .same o⟩

theorem Persists.trans (p : Persists h h₁) (p' : Persists h₁ h') : Persists h h' := by
  intro r o ho
  obtain ⟨o₁, h₁, b⟩ := p ho
  obtain ⟨o', h', b'⟩ := p' h₁
  exact ⟨o', h', b.trans b'⟩

/-- Writing an element changes nothing but the array. -/
theorem get?_setElement_other {r r' : Ref} {o : Object} (i : Nat) (v : Value)
    (ho : h.get? r' = some o) (other : ∀ xs, o ≠ .array xs) :
    (h.setElement r i v).get? r' = some o := by
  obtain ⟨o', ho', b⟩ := kept_setElement h r i v ho
  obtain old | ⟨xs, ys, rfl, old⟩ := get?_setElement ho'
  · exact ho'.trans (old.symm.trans ho)
  · exact (other xs (Option.some.inj (ho.symm.trans old))).elim

end Heap

namespace Machine

/-- The position that a value denotes in the array that another value is. -/
def element? (h : Heap) : Value → Value → Option (Ref × Nat)
  | .object r, .number x => do
    let elements ← h.array? r
    let i ← (position elements.size x).toOption
    return (r, i)
  | _, _ => none

/-- The element that an assignment is about, and the value. The array, the position and the value
are on top of the stack. -/
def assignment? (stack : Array Value) (h : Heap) : Option (Ref × Nat × Value) := do
  let v ← stack.back?
  let index ← stack.pop.back?
  let target ← stack.pop.pop.back?
  let (r, i) ← element? h target index
  return (r, i, v)

/-- The element that the next instruction writes, and what it writes there. -/
def elementWrite? (m : Machine) : Option (Ref × Nat × Value) :=
  match m.next? with
  | some (_, .setIndex) => assignment? m.stack m.heap
  | _ => none

/-- The elements of an array behind the next instruction. -/
def written (m : Machine) (r : Ref) (elements : Array Value) : Array Value :=
  match m.elementWrite? with
  | some (r', i, v) => if r' = r then elements.setIfInBounds i v else elements
  | none => elements

/-- What a step from a machine does to the objects of its heap. -/
structure Evolves (m : Machine) : Prop where
  /-- Objects are added only. -/
  size : m.heap.size ≤ m.step.2.heap.size
  /-- A handle stays one of an object of the same kind. -/
  kind : ∀ r o, m.heap.get? r = some o → ∃ o', m.step.2.heap.get? r = some o' ∧ o'.kind = o.kind
  /-- Strings, functions, closures and natives stay as they are. -/
  fixed : ∀ r o, m.heap.get? r = some o → o.Fixed → m.step.2.heap.get? r = some o
  /-- No element of an array changes but the one that is written. -/
  array : ∀ r elements, m.heap.array? r = some elements →
    m.step.2.heap.array? r = some (m.written r elements)
  /-- An upvalue that is open stays on its slot until it is closed. -/
  opened : ∀ r slot, m.heap.upvalue? r = some (.opened slot) →
    m.step.2.heap.upvalue? r = some (.opened slot) ∨
      ∃ v, m.step.2.heap.upvalue? r = some (.closed v)
  /-- An upvalue that is closed stays closed, with its value unless the step assigns to it. -/
  closed : ∀ r v, m.heap.upvalue? r = some (.closed v) →
    m.step.2.heap.upvalue? r = some (.closed v) ∨
      m.Assigns r ∧ ∃ v', m.stack.back? = some v' ∧ m.step.2.heap.upvalue? r = some (.closed v')
  /-- Writing an element does not fail. -/
  writes : m.elementWrite?.isSome → m.step.1 = .running
  /-- A step that does not go on changes nothing but the upvalues that it closes. -/
  stops : m.step.1 ≠ .running → m.heap.Settles m.step.2.heap

/-- A machine whose heap has settled from that of another one. -/
structure Settling (m m' : Machine) : Prop where
  hosts : m'.hosts = #[]
  size : m.heap.size ≤ m'.heap.size
  settles : m.heap.Settles m'.heap

theorem Settling.refl {m : Machine} (h : m.hosts = #[]) : Settling m m :=
  ⟨h, Nat.le_refl _, .refl _⟩

theorem Settling.gentle (m : Machine) : Gentle (Settling m) where
  host _ h hf := by
    rw [h.hosts] at hf
    cases hf
  push _ h _ := ⟨h.hosts, h.size, h.settles⟩
  shrink h _ := ⟨h.hosts, h.size, h.settles⟩
  ip _ h _ := ⟨h.hosts, h.size, h.settles⟩
  call _ _ _ h _ := ⟨h.hosts, h.size, h.settles⟩
  allocate _ _ h :=
    have e := Heap.extends_allocate _ _
    ⟨h.hosts, Nat.le_trans h.size e.size_le, h.settles.trans e.settles⟩
  intern text h :=
    have e := Heap.extends_intern _ text
    ⟨h.hosts, Nat.le_trans h.size e.size_le, h.settles.trans e.settles⟩
  close _ hr h :=
    ⟨h.hosts, Nat.le_trans h.size (Nat.le_of_eq (Heap.size_set ..).symm),
      h.settles.trans (Heap.settles_close hr)⟩
  upvalues _ h := ⟨h.hosts, h.size, h.settles⟩
  outside _ _ h := ⟨h.hosts, h.size, h.settles⟩

theorem Settling.reset {m m' : Machine} (h : Settling m m') : Settling m m'.reset :=
  have closed := (Settling.gentle m).closeUpvalues h 0
  ⟨closed.hosts, closed.size, closed.settles⟩

theorem Settling.stopWith {m m' : Machine} (h : Settling m m') (s : Stop) :
    Settling m (m'.stopWith s).2 := by
  cases s with
  | exit => exact h
  | _ => exact h.reset

section Instructions

variable {m : Machine} {α : Type} {E : Stop → Machine → Prop}

theorem ends_pop {Q : Value → Machine → Prop}
    (some : ∀ v, m.stack.back? = some v → Q v { m with stack := m.stack.pop })
    (none : m.stack.back? = none → E (.malformed .emptyStack) m) : Ends pop m Q E := by
  refine .bind (.get ?_)
  split
  next v hv => exact some v hv
  next hv => exact none hv

/-- The next instruction is the one that is fetched. -/
theorem ends_fetch {Q : Instruction → Machine → Prop}
    (some : ∀ call outer i, m.frames = call :: outer → m.next? = some (call, i) →
      Q i { m with frames := { call with ip := call.ip + i.size } :: outer })
    (none : m.next? = none → ∀ s, E s m) : Ends fetch m Q E := by
  cases hn : m.next? with
  | some p =>
    obtain ⟨call, i⟩ := p
    obtain ⟨outer, f, hf, hr, hi⟩ := next?_eq_some hn
    exact .fetch hf hr hi (some call outer i hf hn)
  | none =>
    have stays (s : Stop) : E s m := none hn s
    unfold next? at hn
    cases hf : m.frames with
    | nil =>
      refine .bind (.bind (.get ?_))
      rw [hf]
      exact stays _
    | cons call outer =>
      refine .bind (.frame hf (.bind (.bind (.frame hf (.bind (.get ?_))))))
      rw [hf] at hn
      cases hr : m.heap.function? call.function with
      | none => exact stays _
      | some f =>
        cases hi : f.chunk.read? call.ip with
        | none =>
          refine .pure (.bind ?_)
          rw [hi]
          exact stays _
        | some i => simp [hr, hi] at hn

theorem ends_element_cases {Q : Ref × Nat → Machine → Prop} {target index : Value}
    (some : ∀ p, element? m.heap target index = some p → Q p m)
    (none : element? m.heap target index = none → ∀ s, E s m) :
    Ends (element target index) m Q E := by
  unfold element
  split
  next r =>
    refine .bind (.get ?_)
    cases ha : m.heap.array? r with
    | none => exact none (by cases index <;> simp [element?, ha]) _
    | some elements =>
      cases index with
      | number x =>
        dsimp only
        cases hp : position elements.size x with
        | ok i => exact some (r, i) (by simp [element?, ha, hp, Except.toOption])
        | error e => exact none (by simp [element?, ha, hp, Except.toOption]) _
      | _ => exact none rfl _
  next other => exact none (by cases target <;> first | rfl | exact (other _ rfl).elim) _

theorem ends_push {Q : Unit → Machine → Prop} {v : Value} (room : m.stack.size < stackLimit)
    (h : Q () { m with stack := m.stack.push v }) : Ends (push v) m Q E := by
  refine .bind (.get ?_)
  rw [if_pos room]
  exact .modify h

theorem ends_assignElement_cases (limit : m.stack.size ≤ stackLimit) : Ends assignElement m
    (fun _ m' => m'.frames = m.frames ∧ ∃ r i v, assignment? m.stack m.heap = some (r, i, v) ∧
      m'.heap = m.heap.setElement r i v)
    (fun _ m' => assignment? m.stack m.heap = none ∧ m'.hosts = m.hosts ∧ m'.heap = m.heap) := by
  refine .bind (ends_pop (fun v hv => ?_) fun hv => ⟨by simp [assignment?, hv], rfl, rfl⟩)
  refine .bind (ends_pop (fun index hindex => ?_) fun hi => ⟨by simp [assignment?, hv, hi], rfl, rfl⟩)
  refine .bind (ends_pop (fun target htarget => ?_)
    fun ht => ⟨by simp [assignment?, hv, hindex, ht], rfl, rfl⟩)
  refine .bind (ends_element_cases (fun (r, i) hp => .bind (.modify (ends_push ?_ ?_))) fun hp s => ?_)
  · have taken : m.stack.pop.pop.pop.size = m.stack.size - 1 - 1 - 1 := by simp
    have filled : 0 < m.stack.size := by
      cases he : m.stack.size with
      | zero => simp [Array.eq_empty_of_size_eq_zero he] at hv
      | succ n => exact Nat.succ_pos n
    show m.stack.pop.pop.pop.size < stackLimit
    omega
  · exact ⟨rfl, r, i, v, by simp [assignment?, hv, hindex, htarget, hp], rfl⟩
  · exact ⟨by simp [assignment?, hv, hindex, htarget, hp], rfl, rfl⟩

/-- An assignment to a captured variable that has a slot changes the stack only. -/
theorem ends_assignUpvalue_cases {call : Frame} {outer : List Frame} (hf : m.frames = call :: outer)
    (j : UInt8) : Ends (assignUpvalue j) m
    (fun _ m' => m'.frames = m.frames ∧ m'.hosts = m.hosts ∧ (m'.heap = m.heap ∨
      ∃ r w v, Targets m.heap call (.setUpvalue j) r ∧ m.heap.upvalue? r = some (.closed w) ∧
        m.stack.back? = some v ∧ m'.heap = m.heap.set r (.upvalue (.closed v))))
    (fun _ m' => m'.hosts = m.hosts ∧ m'.heap = m.heap) := by
  refine .bind (.bind (.frame hf (.bind (.get ?_))))
  cases hr : (m.heap.closure? call.closure).bind fun c => c.upvalues[j.toNat]? with
  | none => exact .throw ⟨rfl, rfl⟩
  | some r =>
    refine .require rfl (.bind ?_)
    by_cases filled : 0 < m.stack.size
    · refine .peek filled fun v hv => .bind (.get ?_)
      have last : m.stack.back? = some v := by rwa [Array.back?]
      split
      next slot _ =>
        refine .bind (.get ?_)
        split
        · exact .modify ⟨rfl, rfl, .inl rfl⟩
        · exact .throw ⟨rfl, rfl⟩
      next w hw =>
        obtain ⟨k, hk, hr⟩ := Option.bind_eq_some_iff.1 hr
        exact .modify ⟨rfl, rfl, .inr ⟨r, w, v, ⟨k, hk, hr⟩, hw, last, rfl⟩⟩
      next => exact .throw ⟨rfl, rfl⟩
    · refine .bind (.get ?_)
      rw [if_neg filled]
      exact .throw ⟨rfl, rfl⟩

end Instructions

section Step

variable {m : Machine}

theorem ends_settling (hosts : m.hosts = #[]) (element : ∀ call, m.next? ≠ some (call, .setIndex))
    (upvalue : ∀ call j, m.next? ≠ some (call, .setUpvalue j)) :
    Ends instruction m (fun _ => Settling m) fun _ => Settling m := by
  have s := Settling.gentle m
  have globals (m' : Machine) (globals : Table Value) (h : Settling m m') :
      Settling m { m' with globals } := ⟨h.hosts, h.size, h.settles⟩
  refine .bind (ends_fetch (fun call outer i hf hn => ?_) fun _ _ => .refl hosts)
  have start := s.ip (call.ip + i.size) (.refl hosts) hf
  cases i with
  | setIndex => exact (element call hn).elim
  | setUpvalue j => exact (upvalue call j hn).elim
  | defineGlobal i => exact Keeps.defineGlobal s i globals _ start
  | setGlobal i => exact Keeps.assignGlobal i globals _ start
  | ret => exact Keeps.endCall s (fun _ h => ⟨h.hosts, h.size, h.settles⟩) _ start
  | _ =>
    refine Keeps.calmly s ?_ _ start
    trivial

/-- A step that assigns nothing on the heap. -/
theorem Settling.evolves (h : Settling m m.step.2) (none : m.elementWrite? = none) : Evolves m where
  size := h.size
  kind r o ho := by
    obtain ⟨o', ho', b⟩ := h.settles ho
    refine ⟨o', ho', ?_⟩
    cases b <;> rfl
  fixed r o ho fixed := by
    obtain ⟨o', ho', b⟩ := h.settles ho
    cases b with
    | same => exact ho'
    | closed => exact fixed.elim
  array r elements hr := by
    obtain ⟨o', ho', b⟩ := h.settles (Heap.array?_eq_some.1 hr)
    cases b
    rw [written, none]
    exact Heap.array?_eq_some.2 ho'
  opened r slot hr := (h.settles.upvalue? hr).imp id fun ⟨_, v, _, hv⟩ => ⟨v, hv⟩
  closed r v hr := (h.settles.upvalue? hr).imp id fun ⟨_, _, e, _⟩ => by cases e
  writes some := by simp [none] at some
  stops _ := h.settles

/-- A step that writes an element. -/
theorem evolves_setElement {r : Ref} {i : Nat} {v : Value} (hw : m.elementWrite? = some (r, i, v))
    (running : m.step.1 = .running) (heap : m.step.2.heap = m.heap.setElement r i v) :
    Evolves m where
  size := by
    rw [heap]
    exact Nat.le_of_eq (Heap.size_setElement ..).symm
  kind r' o ho := by
    rw [heap]
    obtain ⟨o', ho', b⟩ := Heap.kept_setElement m.heap r i v ho
    refine ⟨o', ho', ?_⟩
    cases b <;> rfl
  fixed r' o ho fixed := by
    rw [heap]
    refine Heap.get?_setElement_other i v ho ?_
    rintro xs rfl
    exact fixed
  array r' elements hr := by
    rw [heap, Heap.array?_setElement, written, hw, hr]
    dsimp only
    split <;> rfl
  opened r' slot hr := by
    rw [heap]
    exact .inl (Heap.upvalue?_eq_some.2
      (Heap.get?_setElement_other i v (Heap.upvalue?_eq_some.1 hr) nofun))
  closed r' w hr := by
    rw [heap]
    exact .inl (Heap.upvalue?_eq_some.2
      (Heap.get?_setElement_other i v (Heap.upvalue?_eq_some.1 hr) nofun))
  writes _ := running
  stops stopped := (stopped running).elim

/-- A step that assigns to a captured variable without a slot. -/
theorem evolves_setUpvalue {r : Ref} {v w : Value} (hr : m.heap.upvalue? r = some (.closed w))
    (assigns : m.Assigns r) (last : m.stack.back? = some v) (none : m.elementWrite? = none)
    (running : m.step.1 = .running) (heap : m.step.2.heap = m.heap.set r (.upvalue (.closed v))) :
    Evolves m where
  size := by
    rw [heap]
    exact Nat.le_of_eq (Heap.size_set ..).symm
  kind r' o ho := by
    rw [heap]
    obtain ⟨o', ho', b⟩ := Heap.kept_set (v := v) hr ho
    refine ⟨o', ho', ?_⟩
    cases b <;> rfl
  fixed r' o ho fixed := by
    rw [heap, Heap.get?_set_upvalue hr, if_neg, ho]
    rintro rfl
    cases Option.some.inj (ho.symm.trans (Heap.upvalue?_eq_some.1 hr))
    exact fixed
  array r' elements ha := by
    rw [heap, written, none]
    refine Heap.array?_eq_some.2 ?_
    rw [Heap.get?_set_upvalue hr, if_neg, Heap.array?_eq_some.1 ha]
    rintro rfl
    cases Option.some.inj ((Heap.array?_eq_some.1 ha).symm.trans (Heap.upvalue?_eq_some.1 hr))
  opened r' slot ho := by
    rw [heap, Heap.upvalue?_set hr]
    split
    next e => cases Option.some.inj (ho.symm.trans (e ▸ hr))
    next => exact .inl ho
  closed r' w' hw := by
    rw [heap, Heap.upvalue?_set hr]
    split
    next e => exact .inr ⟨e ▸ assigns, v, last, rfl⟩
    next => exact .inl hw
  writes some := by simp [none] at some
  stops stopped := (stopped running).elim

theorem elementWrite?_eq_none (other : ∀ call, m.next? ≠ some (call, .setIndex)) :
    m.elementWrite? = none := by
  unfold elementWrite?
  split
  next call hn => exact (other call hn).elim
  next => rfl

theorem Settling.same {m' : Machine} (hosts : m.hosts = #[]) (hosts' : m'.hosts = m.hosts)
    (heap : m'.heap = m.heap) : Settling m m' :=
  ⟨hosts'.trans hosts, Nat.le_of_eq (by rw [heap]), by rw [heap]; exact .refl _⟩

theorem progress_cons {m' : Machine} {call : Frame} {outer : List Frame}
    (hf : m'.frames = call :: outer) : m'.progress = .running := by
  rw [progress, hf]
  rfl

theorem evolves_assignElement {call : Frame} (hn : m.next? = some (call, .setIndex))
    (hosts : m.hosts = #[]) (limit : m.stack.size ≤ stackLimit) : Evolves m := by
  obtain ⟨outer, f, hf, hr, hi⟩ := next?_eq_some hn
  have write : m.elementWrite? = assignment? m.stack m.heap := by rw [elementWrite?, hn]
  have ends : Ends instruction m (fun _ m' => ∃ call r i v, m'.frames = call :: outer ∧
        m.elementWrite? = some (r, i, v) ∧ m'.heap = m.heap.setElement r i v)
      (fun _ m' => m.elementWrite? = none ∧ Settling m m') := by
    rw [write]
    refine .bind (.fetch hf hr hi (Ends.imp (x := assignElement) (ends_assignElement_cases limit) ?_ ?_))
    · rintro _ m' ⟨frames, r, i, v, hw, heap⟩
      exact ⟨_, r, i, v, frames, hw, heap⟩
    · rintro _ m' ⟨hw, hosts', heap⟩
      exact ⟨hw, .same hosts hosts' heap⟩
  obtain ⟨m', ⟨_, r, i, v, frames, hw, heap⟩, e⟩ | ⟨s, m', ⟨none, settling⟩, e⟩ := step_cases hf ends
  · refine evolves_setElement hw ?_ (by rw [e]; exact heap)
    rw [e]
    exact progress_cons frames
  · refine Settling.evolves ?_ none
    rw [e]
    exact settling.stopWith s

theorem evolves_assignUpvalue {call : Frame} {j : UInt8}
    (hn : m.next? = some (call, .setUpvalue j)) (hosts : m.hosts = #[]) : Evolves m := by
  obtain ⟨outer, f, hf, hr, hi⟩ := next?_eq_some hn
  have none : m.elementWrite? = none := elementWrite?_eq_none fun call' hn' => by
    cases hn.symm.trans hn'
  have ends : Ends instruction m (fun _ m' => Settling m m' ∨ ∃ call' r w v,
        m'.frames = call' :: outer ∧ Targets m.heap call (.setUpvalue j) r ∧
        m.heap.upvalue? r = some (.closed w) ∧ m.stack.back? = some v ∧
          m'.heap = m.heap.set r (.upvalue (.closed v)))
      (fun _ m' => Settling m m') := by
    refine .bind (.fetch hf hr hi
      (Ends.imp (x := assignUpvalue j) (ends_assignUpvalue_cases rfl j) ?_ ?_))
    · rintro _ m' ⟨frames, hosts', heap | ⟨r, w, v, targets, hw, last, heap⟩⟩
      · exact .inl (.same hosts hosts' heap)
      · exact .inr ⟨_, r, w, v, frames, targets, hw, last, heap⟩
    · rintro _ m' ⟨hosts', heap⟩
      exact .same hosts hosts' heap
  obtain ⟨m', settling | ⟨_, r, w, v, frames, targets, hw, last, heap⟩, e⟩ | ⟨s, m', settling, e⟩ :=
    step_cases hf ends
  · refine Settling.evolves ?_ none
    rw [e]
    exact settling
  · refine evolves_setUpvalue hw ?_ last none ?_ (by rw [e]; exact heap)
    · rw [Assigns, hn]
      exact targets
    · rw [e]
      exact progress_cons frames
  · refine Settling.evolves ?_ none
    rw [e]
    exact settling.stopWith s

/-- What a step does to the heap, for whatever bytecode. -/
theorem step_evolves (hosts : m.hosts = #[]) (limit : m.stack.size ≤ stackLimit) : Evolves m := by
  by_cases element : ∃ call, m.next? = some (call, .setIndex)
  · obtain ⟨call, hn⟩ := element
    exact evolves_assignElement hn hosts limit
  by_cases upvalue : ∃ call j, m.next? = some (call, .setUpvalue j)
  · obtain ⟨call, j, hn⟩ := upvalue
    exact evolves_assignUpvalue hn hosts
  have element : ∀ call, m.next? ≠ some (call, .setIndex) := fun call hn => element ⟨call, hn⟩
  refine Settling.evolves ?_ (elementWrite?_eq_none element)
  cases hf : m.frames with
  | nil =>
    rw [step_idle hf]
    exact .refl hosts
  | cons call outer =>
    obtain ⟨m', settling, e⟩ | ⟨s, m', settling, e⟩ :=
      step_cases hf (ends_settling hosts element fun call j hn => upvalue ⟨call, j, hn⟩)
    · rw [e]
      exact settling
    · rw [e]
      exact settling.stopWith s

theorem Evolves.persists (e : Evolves m) : m.heap.Persists m.step.2.heap := by
  intro r o ho
  cases o with
  | array elements =>
    have after := Heap.array?_eq_some.1 (e.array r elements (Heap.array?_eq_some.2 ho))
    refine ⟨_, after, .array _ _ ?_⟩
    unfold written
    split
    · split
      · exact Array.size_setIfInBounds.symm
      · rfl
    · rfl
  | upvalue u =>
    cases u with
    | opened slot =>
      obtain same | ⟨v, closed⟩ := e.opened r slot (Heap.upvalue?_eq_some.2 ho)
      · exact ⟨_, Heap.upvalue?_eq_some.1 same, .same _⟩
      · exact ⟨_, Heap.upvalue?_eq_some.1 closed, .closed _ v⟩
    | closed v =>
      obtain same | ⟨-, v', -, closed⟩ := e.closed r v (Heap.upvalue?_eq_some.2 ho)
      · exact ⟨_, Heap.upvalue?_eq_some.1 same, .same _⟩
      · exact ⟨_, Heap.upvalue?_eq_some.1 closed, .closed _ v'⟩
  | _ => exact ⟨_, e.fixed r _ ho trivial, .same _⟩

end Step

/-- A machine whose stack is within its limit. -/
structure Limited (m : Machine) : Prop where
  hosts : m.hosts = #[]
  stack : m.stack.size ≤ stackLimit

theorem Limited.stable : Stable Limited where
  hosts h := h.hosts
  push v h room := ⟨h.hosts, by rw [Array.size_push]; exact room⟩
  shrink h fewer := ⟨h.hosts, Nat.le_trans fewer h.stack⟩
  ip _ h _ := ⟨h.hosts, h.stack⟩
  call _ _ _ h _ := ⟨h.hosts, h.stack⟩
  heap h _ := ⟨h.hosts, h.stack⟩
  upvalues _ h := ⟨h.hosts, h.stack⟩
  globals _ h := ⟨h.hosts, h.stack⟩
  outside _ _ h := ⟨h.hosts, h.stack⟩

theorem Limited.step {m : Machine} (h : Limited m) : Limited m.step.2 := by
  cases hf : m.frames with
  | nil =>
    rw [step_idle hf]
    exact h
  | cons call outer =>
    obtain ⟨m', l, e⟩ | ⟨s, m', l, e⟩ :=
      step_cases hf (Keeps.instruction Limited.stable (fun _ l => ⟨l.hosts, l.stack⟩) m h)
    · rw [e]
      exact l
    · rw [e]
      cases s with
      | exit => exact l
      | _ => exact ⟨l.hosts, Nat.zero_le _⟩

/-- What a step does to the heap is done by every step of a run. -/
theorem Limited.run_persists {m : Machine} (h : Limited m) (n : Nat) :
    m.heap.Persists (m.run n).2.heap := by
  induction n generalizing m with
  | zero => exact .refl _
  | succ n ih =>
    have first := (step_evolves h.hosts h.stack).persists
    by_cases running : m.step.1 = .running
    · rw [run_of_running running]
      exact first.trans (ih h.step)
    · rw [run_of_stopped running]
      exact first

/-- The heap changes in few ways only. A step of any bytecode keeps the kinds of all objects, and
the strings, functions, closures and natives themselves; it changes an array in the element that it
writes without failing, and an upvalue by closing it or by assigning to it. So does a run, step by
step. Compiling a source, with success or without, adds objects and changes none. -/
theorem heap_evolves :
    (∀ m : Machine, m.hosts = #[] → m.stack.size ≤ stackLimit →
      Evolves m ∧ ∀ n, m.heap.size ≤ (m.run n).2.heap.size ∧ m.heap.Persists (m.run n).2.heap) ∧
    ∀ (source : String) (heap : Heap), heap.size ≤ (Compile.compile source heap).heap.size ∧
      ∀ r o, heap.get? r = some o → (Compile.compile source heap).heap.get? r = some o := by
  refine ⟨fun m hosts limit => ⟨step_evolves hosts limit, fun n => ?_⟩, fun source heap => ?_⟩
  · exact ⟨(Larger.run n hosts).size, Limited.run_persists ⟨hosts, limit⟩ n⟩
  · have e := (Compile.compile_gains source heap).extends
    exact ⟨e.size_le, fun r o ho => e.get? ho⟩

/-- A script about to write the second element of an array that two variables share. -/
theorem heap_evolves_shared_array :
    let m := (((new .unlimited .still).load
      "var a = [1, 2]; var b = a; a[1] = nil; print b;").2.run 9).2
    m.hosts = #[] ∧ m.stack.size ≤ stackLimit ∧ m.elementWrite? = some (⟨24⟩, 1, .nil) ∧
      m.heap.array? ⟨24⟩ = some #[.number 1, .number 2] ∧
      m.step.2.heap.array? ⟨24⟩ = some #[.number 1, .nil] ∧ Evolves m := by
  have write : (((new .unlimited .still).load "var a = [1, 2]; var b = a; a[1] = nil; print b;").2.run
      9).2.elementWrite? = some (⟨24⟩, 1, .nil) := by
    decide +kernel
  have before : (((new .unlimited .still).load "var a = [1, 2]; var b = a; a[1] = nil; print b;").2.run
      9).2.heap.array? ⟨24⟩ = some #[.number 1, .number 2] := by
    decide +kernel
  have hosts := (Larger.run 9 (Larger.load (Reachable.new .unlimited .still).hosts
    "var a = [1, 2]; var b = a; a[1] = nil; print b;").hosts).hosts
  have limit : (((new .unlimited .still).load "var a = [1, 2]; var b = a; a[1] = nil; print b;").2.run
      9).2.stack.size ≤ stackLimit := by
    decide +kernel
  have evolves := (heap_evolves.1 _ hosts limit).1
  have after := evolves.array _ _ before
  rw [written, write] at after
  exact ⟨hosts, limit, write, before, after, evolves⟩

end Machine
end StackScript
