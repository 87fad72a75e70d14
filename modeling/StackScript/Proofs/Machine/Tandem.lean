import StackScript.Proofs.Machine.Invariant
import StackScript.Proofs.Machine.Parallel

/-!
# StackScript.Proofs.Machine.Tandem

Calls and closures, executed by two machines that do the same.

* `both_…`, `roomed_…`: rules for the instructions that change what is called, or where a call goes
  on.
* `roomed_execute`: all instructions that have no captures behind them.
-/

namespace StackScript
namespace Machine

open Instruction (stream)

section Calls

variable {s : Setting} {b : Bridge} {k : Nat} {m n : Machine} {v w : Value} {r q : Ref}
  {E : Stop → Machine → Machine → Prop}

theorem both_callClosure {count : Nat} (h : Mid s b (k + 1 + (count + 1)) m n) (refs : b.Refs r q) :
    Both (callClosure r count) (callClosure q count) m n (Done s) (Halts s) := by
  refine .bind (.get ?_)
  have closures := h.matched.closure? refs
  rw [h.near, h.far] at closures
  dsimp only
  cases hr : m.heap.closure? r with
  | none => exact .bad
  | some c =>
    cases hq : n.heap.closure? q with
    | none =>
      rw [hr, hq] at closures
      cases closures
    | some d =>
      rw [hr, hq] at closures
      cases closures with
      | some same =>
        obtain ⟨⟨f, hf⟩, pair, upvalues⟩ := same
        obtain ⟨ne, -, g, hg, functions⟩ := h.matched.function? pair hf
        have call : SameCall s b ⟨r, c.function, 0, m.stack.size - count - 1⟩
            ⟨q, d.function, 0, n.stack.size - count - 1⟩ := by
          refine ⟨by rw [h.size], ?_, ⟨f, g, hf, hg, ?_, Nat.zero_le _⟩,
            ⟨c, d, h.near ▸ hr, h.far ▸ hq, upvalues⟩, fun e => absurd e ne⟩
          · rw [Setting.start_of_ne ne]
            rfl
          · rw [Setting.start_of_ne ne, Setting.limit_of_ne ne]
            exact functions
        rw [h.near] at hf
        rw [h.far] at hg
        simp only [hf, hg, Option.elim_some, functions.arity]
        split
        · exact .fail (h.halts _)
        · refine .bind (.get ?_)
          rw [h.calls.length_eq]
          split
          · exact .modify ⟨b, h.toTwin.reframe (.call call ne h.calls), h.moved⟩
          · exact .fail (h.halts _)

theorem roomed_runProcedure {p : Procedure} {vs ws : List Value} (h : Mid s b k m n)
    (arguments : List.Forall₂ b.Values vs ws) :
    Roomed (runProcedure p vs) (runProcedure p ws) m n
      (fun x y m' n' => ∃ b', Mid s b' k m' n' ∧ b'.Values x y) (Halts s) := by
  unfold runProcedure
  cases p with
  | builtin native =>
    have first : b.Values (vs.headD .nil) (ws.headD .nil) := by
      cases arguments with
      | nil => exact .nil
      | cons hv _ => exact hv
    have answers := Bridge.answers_call h.matched first native m.world
    refine .bind (.get ?_)
    rw [h.world, ← h.near, ← h.far]
    generalize native.call m.world b.near (vs.headD .nil) = x at answers
    generalize native.call m.world b.far (ws.headD .nil) = y at answers
    cases answers with
    | refused e =>
      cases e with
      | fault e => exact (Both.fail (h.halts _)).roomed
      | exit code => exact (Both.throw (h.halts _)).roomed
    | plain world hv =>
      refine Both.roomed (.bind (.modify (.pure ⟨b, ⟨?_, h.count, h.moved⟩, hv⟩)))
      exact ⟨⟨rfl, rfl, h.matched, h.globals, h.output, rfl, h.hosts, h.hosts'⟩, h.calls, h.size,
        h.slots, h.opens⟩
    | text content world =>
      intro room room'
      obtain ⟨b', below, matched, near, far, refs⟩ := h.matched.intern _ room room'
      have t := h.toTwin.onward below matched near far
      refine .bind (.modify (.pure ⟨b', ⟨?_, h.count, h.moved⟩, .object refs⟩))
      exact ⟨⟨t.near, t.far, t.matched, t.globals, t.output, rfl, t.hosts, t.hosts'⟩, t.calls,
        t.size, t.slots, t.opens⟩
  | host index =>
    refine .bind (.get ?_)
    rw [h.hosts, h.hosts']
    exact (Both.fail (h.halts _)).roomed

theorem roomed_callNative {count : Nat} (h : Mid s b (k + 1 + (count + 1)) m n)
    (refs : b.Refs r q) :
    Roomed (callNative r count) (callNative q count) m n (Done s) (Halts s) := by
  have size := h.count
  have natives := h.matched.native? refs
  rw [h.near, h.far] at natives
  unfold callNative
  refine .bind (.get ?_)
  rw [natives]
  split
  · exact Both.bad.roomed
  next native _ =>
    split
    · exact (Both.fail (h.halts _)).roomed
    · refine .bind (.get ?_)
      have arguments := h.toTwin.extract (m.stack.size - count) (by omega)
      dsimp only
      rw [h.size] at arguments ⊢
      have grows (v : Value) : Grows (do truncate (m.stack.size - count - 1); push v) := fun m =>
        .bind (.truncate (Larger.stable m) _) fun _ => .push (Larger.stable m) v
      refine .andThen h.hosts h.hosts' (fun m => .runProcedure (Larger.stable m) _ _)
        (fun m => .runProcedure (Larger.stable m) _ _) grows grows
        (roomed_runProcedure h arguments) fun v w m' n' e => Both.roomed ?_
      obtain ⟨b', h, values⟩ := e
      refine .bind ((both_truncate h _).imp fun _ _ m' n' h => ?_)
      rw [size, show min (k + 1 + (count + 1) - count - 1) (k + 1 + (count + 1)) = k + 1 by omega]
        at h
      exact done_push h values

theorem roomed_startCall {count : UInt8} (h : Mid s b (k + 1 + (count.toNat + 1)) m n) :
    Roomed (startCall count) (startCall count) m n (Done s) (Halts s) := by
  refine .bind (both_peek h (by omega) fun v w hv => ?_)
  cases hv with
  | @object r q refs =>
    refine .bind (.get ?_)
    have closures := h.matched.closure? refs
    have natives := h.matched.native? refs
    rw [h.near, h.far] at closures natives
    have isSome : (n.heap.closure? q).isSome = (m.heap.closure? r).isSome := by
      generalize m.heap.closure? r = x at closures ⊢
      generalize n.heap.closure? q = y at closures ⊢
      cases closures <;> rfl
    dsimp only
    rw [isSome, natives]
    split
    · exact (both_callClosure h refs).roomed
    · split
      · exact roomed_callNative h refs
      · exact (Both.fail (h.halts _)).roomed
  | _ => exact (Both.fail (h.halts _)).roomed

theorem frames_pop (m : Machine) :
    Ends pop m (fun _ m' => m'.frames = m.frames) fun _ _ => True := by
  unfold pop
  refine .bind (.get ?_)
  split
  · exact .bind (.modify (.pure rfl))
  · trivial

/-- The innermost call ends, and there is another one around it. -/
theorem both_endCall {c : Frame} {cs : List Frame} (h : Mid s b (k + 2) m n)
    (hm : m.frames = c :: cs) (inner : c.function ≠ s.script) :
    Both endCall endCall m n (Done s) (Halts s) := by
  refine .bind (((both_pop h).withEnds (frames_pop m)).imp fun v w m₁ n₁ e => ?_)
  obtain ⟨⟨hv, h⟩, same⟩ := e
  have hm := same.trans hm
  refine .bind (both_frame h.toTwin fun c' d cs' ds hm' hn' call => ?_)
  obtain ⟨rfl, rfl⟩ := List.cons.inj (hm.symm.trans hm')
  have calls := h.calls
  rw [hm] at calls
  have outer := calls.tail inner
  obtain ⟨b', t', below⟩ := (h.toTwin.reframe outer).close c.base
  have mid : Mid s b' (k + 1)
      ({ m₁ with frames := cs }.closeUpvalues c.base)
      ({ n₁ with frames := n₁.frames.tail }.closeUpvalues c.base) :=
    ⟨t', h.count, fun call hc => h.moved call (hm ▸ List.mem_cons_of_mem c hc)⟩
  refine .bind (.modify ?_)
  rw [call.base, hm]
  refine .bind ((both_truncate mid _).imp fun _ _ m₂ n₂ mid => .bind (.get ?_))
  have calls := mid.calls
  cases hf : m₂.frames with
  | nil =>
    rw [hf] at calls
    cases calls
  | cons c₂ cs₂ =>
    rw [hf] at calls
    obtain ⟨d₂, ds₂, hn, -⟩ := calls.uncons
    rw [hn]
    exact done_push mid (below.values hv)

/-- Both machines go on somewhere else in the innermost calls. -/
theorem both_setIp {c d : Frame} {cs ds : List Frame} {f : Function} {ip ip' : Nat}
    (t : Twin s b m n) (hm : m.frames = c :: cs) (hn : n.frames = d :: ds)
    (hf : b.near.function? c.function = some f) (le : ip ≤ s.limit c.function f)
    (same : ip' = s.start c.function + ip) : Both (setIp ip) (setIp ip') m n (fun _ _ m' n' =>
      m' = { m with frames := { c with ip } :: cs } ∧
      n' = { n with frames := { d with ip := ip' } :: ds } ∧ Twin s b m' n') E := by
  have calls := t.calls
  rw [hm, hn] at calls
  obtain ⟨d', ds', e, call, go⟩ := calls.uncons
  obtain ⟨rfl, rfl⟩ := List.cons.inj e
  obtain ⟨f', g, hf', hg, functions, -⟩ := call.code
  obtain rfl := Option.some.inj (hf.symm.trans hf')
  have moved := go { c with ip } { d with ip := ip' }
    ⟨call.base, same, ⟨f, g, hf, hg, functions, le⟩, call.upvalues, call.host⟩ rfl
  refine .modify ?_
  rw [hm, hn]
  exact ⟨rfl, rfl, t.reframe moved⟩

/-- Both machines jump in the innermost calls. -/
theorem done_setIp {c d : Frame} {cs ds : List Frame} {f : Function} {ip ip' : Nat}
    (h : Mid s b k m n) (hm : m.frames = c :: cs) (hn : n.frames = d :: ds)
    (hf : b.near.function? c.function = some f) (le : ip ≤ s.limit c.function f)
    (same : ip' = s.start c.function + ip) :
    Both (setIp ip) (setIp ip') m n (Done s) (Halts s) :=
  (both_setIp h.toTwin hm hn hf le same).imp fun _ _ m' n' e => by
    obtain ⟨rfl, rfl, t⟩ := e
    exact ⟨b, t, fun call hc => h.moved call (hm ▸ List.mem_cons_of_mem c hc)⟩

section Jumps

variable {c : Frame} {cs : List Frame} {f : Function} {d : UInt16}

theorem both_jumpAhead (h : Mid s b k m n) (hm : m.frames = c :: cs)
    (hf : b.near.function? c.function = some f) (le : c.ip + d.toNat ≤ s.limit c.function f) :
    Both (jumpAhead d) (jumpAhead d) m n (Done s) (Halts s) := by
  refine .bind (both_frame h.toTwin fun c' e cs' es hm' hn call => ?_)
  obtain ⟨rfl, rfl⟩ := List.cons.inj (hm.symm.trans hm')
  exact done_setIp h hm hn hf le (by rw [call.ip]; omega)

theorem both_jumpAheadIfFalse (h : Mid s b (k + 2) m n) (hm : m.frames = c :: cs)
    (hf : b.near.function? c.function = some f) (le : c.ip + d.toNat ≤ s.limit c.function f) :
    Both (jumpAheadIfFalse d) (jumpAheadIfFalse d) m n (Done s) (Halts s) := by
  refine .bind (both_peek h (by omega) fun v w hv => ?_)
  rw [hv.isFalsey]
  split
  · exact both_jumpAhead h hm hf le
  · exact .pure h.meets

theorem both_jumpBack (h : Mid s b k m n) (hm : m.frames = c :: cs)
    (hf : b.near.function? c.function = some f) (le : d.toNat ≤ c.ip)
    (inside : c.ip ≤ s.limit c.function f) :
    Both (jumpBack d) (jumpBack d) m n (Done s) (Halts s) := by
  refine .bind (both_frame h.toTwin fun c' e cs' es hm' hn call => ?_)
  obtain ⟨rfl, rfl⟩ := List.cons.inj (hm.symm.trans hm')
  have ip := call.ip
  dsimp only
  rw [if_pos le, if_pos (by omega)]
  exact done_setIp h hm hn hf (by omega) (by omega)

end Jumps

end Calls

section Closures

variable {s : Setting} {b : Bridge} {k : Nat} {m n : Machine} {E : Stop → Machine → Machine → Prop}
  {c d : Frame} {outer outer' : List Frame} {f g : Function}

/-- The innermost calls of both machines stand in front of the same captures. -/
structure Facing (s : Setting) (b : Bridge) (m n : Machine) (c d : Frame) (f g : Function)
    (cs : List Capture) : Prop where
  near : ∃ outer, m.frames = c :: outer
  far : ∃ outer, n.frames = d :: outer
  function : b.near.function? c.function = some f
  function' : b.far.function? d.function = some g
  code : ∃ before behind : List UInt8,
    f.chunk.code.toList = before ++ (stream (cs.map .capture) ++ behind) ∧ c.ip = before.length
  code' : ∃ before behind : List UInt8,
    g.chunk.code.toList = before ++ (stream (cs.map .capture) ++ behind) ∧ d.ip = before.length
  inside : c.ip + 3 * cs.length ≤ s.limit c.function f

namespace Facing

variable {x : Capture} {cs : List Capture} {b' : Bridge} {m' n' : Machine}

theorem read? (h : Facing s b m n c d f g (x :: cs)) :
    f.chunk.read? c.ip = some (.capture x) ∧ g.chunk.read? d.ip = some (.capture x) := by
  obtain ⟨before, behind, code, ip⟩ := h.code
  obtain ⟨before', behind', code', ip'⟩ := h.code'
  rw [ip, ip']
  rw [List.map_cons, Instruction.stream_cons, List.append_assoc] at code code'
  exact ⟨Chunk.read?_of_code _ _ code, Chunk.read?_of_code _ _ code'⟩

/-- Behind the first capture. -/
theorem next (h : Facing s b m n c d f g (x :: cs)) (hb : b.Below b')
    (near : ∃ outer, m'.frames = { c with ip := c.ip + 3 } :: outer)
    (far : ∃ outer, n'.frames = { d with ip := d.ip + 3 } :: outer) :
    Facing s b' m' n' { c with ip := c.ip + 3 } { d with ip := d.ip + 3 } f g cs := by
  obtain ⟨before, behind, code, ip⟩ := h.code
  obtain ⟨before', behind', code', ip'⟩ := h.code'
  rw [List.map_cons, Instruction.stream_cons, List.append_assoc] at code code'
  have size : (Instruction.capture x).encode.length = 3 := rfl
  have inside := h.inside
  rw [List.length_cons] at inside
  refine ⟨near, far, hb.near.function? h.function, hb.far.function? h.function',
    ⟨before ++ (Instruction.capture x).encode, behind, ?_, ?_⟩,
    ⟨before' ++ (Instruction.capture x).encode, behind', ?_, ?_⟩, ?_⟩
  · rw [code, List.append_assoc]
  · rw [List.length_append, size, ip]
  · rw [code', List.append_assoc]
  · rw [List.length_append, size, ip']
  · show c.ip + 3 + 3 * cs.length ≤ s.limit c.function f
    omega

end Facing

theorem roomed_captures {base : Nat} (cs : List Capture) :
    ∀ {b : Bridge} {m n : Machine} {c d : Frame} {refs refs' : Array Ref}, Mid s b k m n →
    Facing s b m n c d f g cs → (∀ x ∈ cs, x.isLocal = true → x.index ≠ 0) →
    List.Forall₂ b.pairs refs.toList refs'.toList →
    Roomed (captures base cs.length refs) (captures base cs.length refs') m n
      (fun rs rs' m' n' => ∃ b', Mid s b' k m' n' ∧ b.Below b' ∧
        List.Forall₂ b'.pairs rs.toList rs'.toList) E := by
  induction cs with
  | nil => exact fun h _ _ hr => (Both.pure ⟨_, h, .refl _, hr⟩).roomed
  | cons x cs ih =>
    intro b m n c d refs refs' h facing locals hr
    obtain ⟨outer, hm⟩ := facing.near
    obtain ⟨outer', hn⟩ := facing.far
    obtain ⟨near, far⟩ := facing.read?
    -- What is done behind a capture, whatever was captured.
    have rest {r q : Ref} {b' : Bridge} {m' n' : Machine} (h' : Mid s b' k m' n')
        (hb : b.Below b') (pair : b'.pairs r q) (hm' : m'.frames = c :: outer)
        (hn' : n'.frames = d :: outer') :
        Roomed (do setIp (c.ip + 3); captures base cs.length (refs.push r))
          (do setIp (d.ip + 3); captures base cs.length (refs'.push q)) m' n'
          (fun rs rs' m' n' => ∃ b', Mid s b' k m' n' ∧ b.Below b' ∧
            List.Forall₂ b'.pairs rs.toList rs'.toList) E := by
      have calls := h'.calls
      rw [hm', hn'] at calls
      obtain ⟨d', _, e, call, -⟩ := calls.uncons
      obtain ⟨rfl, rfl⟩ := List.cons.inj e
      have ip := call.ip
      have inside := facing.inside
      rw [List.length_cons] at inside
      refine .bind ((both_setIp h'.toTwin hm' hn' (hb.near.function? facing.function) (by omega)
        (by omega)).imp fun _ _ m₁ n₁ e => ?_)
      obtain ⟨rfl, rfl, t⟩ := e
      have mid : Mid s b' k { m' with frames := { c with ip := c.ip + 3 } :: outer }
          { n' with frames := { d with ip := d.ip + 3 } :: outer' } := by
        refine ⟨t, h'.count, fun call hc => ?_⟩
        obtain rfl | hc := List.mem_cons.1 hc
        · exact Nat.succ_pos _
        · exact h'.moved call (hm' ▸ List.mem_cons_of_mem c hc)
      refine (ih mid (facing.next hb ⟨outer, rfl⟩ ⟨outer', rfl⟩)
        (fun y hy => locals y (List.mem_cons_of_mem x hy)) ?_).imp fun rs rs' m₂ n₂ e => ?_
      · rw [Array.toList_push, Array.toList_push]
        exact List.rel_append (hr.imp hb.pairs) (.cons pair .nil)
      · obtain ⟨b₂, mid, below, same⟩ := e
        exact ⟨b₂, mid, hb.trans below, same⟩
    have grows (ip : Nat) (refs : Array Ref) (r : Ref) :
        Grows (do setIp (ip + 3); captures base cs.length (refs.push r)) := fun m =>
      .bind (.setIp (Larger.stable m) _) fun _ => .captures (Larger.stable m) _ _ _
    refine .bind (both_frame h.toTwin fun c' d' _ _ hm' hn' call => ?_)
    obtain ⟨rfl, rfl⟩ := List.cons.inj (hm.symm.trans hm')
    obtain ⟨rfl, rfl⟩ := List.cons.inj (hn.symm.trans hn')
    have inner : Inner b m n f g :=
      ⟨c, outer, d, outer', hm, hn, facing.function, facing.function'⟩
    refine .bind (both_chunk h.toTwin inner ?_)
    simp only [near, far]
    split
    next isLocal =>
      have pos : 0 < base + x.index.toNat := by
        have := locals x List.mem_cons_self isLocal
        have : x.index.toNat ≠ 0 := fun e => this (UInt8.toNat_inj.1 e)
        omega
      refine .andThen h.hosts h.hosts' (fun m => .modifyGet fun _ h =>
        (Larger.stable m).gentle.captureSlot h _) (fun m => .modifyGet fun _ h =>
        (Larger.stable m).gentle.captureSlot h _) (grows _ _) (grows _ _)
        (Q := fun r q m' n' => ∃ b', Mid s b' k m' n' ∧ b.Below b' ∧ b'.pairs r q ∧
          m'.frames = c :: outer ∧ n'.frames = d :: outer') ?_ fun r q m' n' e => ?_
      · intro room room'
        obtain ⟨b', t, below, pair⟩ := h.toTwin.capture pos room room'
        obtain ⟨near, stack, -⟩ := same_captureSlot m (base + x.index.toNat)
        obtain ⟨far, -⟩ := same_captureSlot n (base + x.index.toNat)
        refine .modifyGet ⟨b', ⟨t, ?_, ?_⟩, below, pair, near.trans hm, far.trans hn⟩
        · exact (congrArg Array.size stack).trans h.count
        · exact near.symm ▸ h.moved
      · obtain ⟨b', h', hb, pair, hm', hn'⟩ := e
        exact rest h' hb pair hm' hn'
    next => exact .bind (both_upvalueRef h.toTwin _ fun r q pair => rest h (.refl b) pair hm hn)

/-- Both machines make a closure of functions that belong together. -/
theorem roomed_makeClosure {i j : UInt8} {cs : List Capture} {r : Ref} {made : Function}
    (h : Mid s b k m n) (facing : Facing s b m n c d f g cs)
    (constants : b.Constants f.chunk.constants g.chunk.constants i j)
    (pool : f.chunk.constants[i.toNat]? = some (.object r)) (hr : b.near.function? r = some made)
    (count : cs.length = made.upvalueCount) (locals : ∀ x ∈ cs, x.isLocal = true → x.index ≠ 0) :
    Roomed (makeClosure i) (makeClosure j) m n (Done s) (Halts s) := by
  obtain ⟨outer, hm⟩ := facing.near
  obtain ⟨outer', hn⟩ := facing.far
  have inner : Inner b m n f g :=
    ⟨c, outer, d, outer', hm, hn, facing.function, facing.function'⟩
  obtain ⟨v, w, hv, hw, values⟩ := constants
  obtain rfl := Option.some.inj (hv.symm.trans pool)
  cases values with
  | @object _ q refs =>
    have plain : b.near.string? r = none := by
      rw [Heap.string?, Heap.function?_eq_some.1 hr]
    have pair := refs.pairs_of_plain plain
    obtain ⟨-, -, made', hq, functions⟩ := h.matched.function? pair hr
    have same := functions.upvalues
    have hr' := hr
    have hq' := hq
    rw [h.near] at hr'
    rw [h.far] at hq'
    refine .bind (both_pool h.toTwin inner hv hw (.bind (.get ?_)))
    rw [hr', hq']
    dsimp only
    rw [same, ← count]
    refine .bind (both_frame h.toTwin fun c' d' _ _ hm' hn' call => ?_)
    rw [call.base]
    have grows (r : Ref) (refs : Array Ref) :
        Grows (do push (.object (← allocate (.closure ⟨r, refs⟩)))) := fun m =>
      .bind (.allocate (Larger.stable m) (by simp) (by simp)) fun _ => .push (Larger.stable m) _
    refine .andThen h.hosts h.hosts' (fun m => .captures (Larger.stable m) _ _ _)
      (fun m => .captures (Larger.stable m) _ _ _) (grows r) (grows q)
      (roomed_captures cs h facing locals .nil) fun refs refs' m' n' e => ?_
    obtain ⟨b', h', below, upvalues⟩ := e
    refine .andThen h'.hosts h'.hosts' (fun m => .allocate (Larger.stable m) (by simp) (by simp))
      (fun m => .allocate (Larger.stable m) (by simp) (by simp)) (fun r => grows_push _)
      (fun r => grows_push _) (roomed_allocate h' fun _ _ =>
        .closure (below.near.function? hr) (below.pairs pair) upvalues) fun r q m' n' e => ?_
    obtain ⟨b₂, h₂, -, closures⟩ := e
    exact (done_push h₂ (.object (.paired closures))).roomed

end Closures

section Execute

open Bytecode

variable {s : Setting} {b : Bridge} {k : Nat} {m n : Machine} {c : Frame} {cs : List Frame}
  {f g : Function} {i j : Instruction} {p : Operands} {σ τ : Shape}

/-- Instructions that are alike, given what the layout of the near function tells. The call of a
script does not end by itself. -/
theorem roomed_execute (h : Mid s b (k + 1 + (effect i).1) m n) (hm : m.frames = c :: cs)
    (inner : Inner b m n f g)
    (alike : Instruction.Alike (b.Constants f.chunk.constants g.chunk.constants) i j)
    (admits : Admits p σ i) (inside : c.ip ≤ s.limit c.function f)
    (flows : Flows (fun o _ => o ≤ s.limit c.function f) c.ip τ i)
    (ends : i = .ret → c.function ≠ s.script) :
    Roomed (execute i) (execute j) m n (Done s) (Halts s) := by
  have hf : b.near.function? c.function = some f := by
    obtain ⟨c', cs', d, ds, hm', -, hf, -⟩ := inner
    obtain ⟨rfl, rfl⟩ := List.cons.inj (hm.symm.trans hm')
    exact hf
  cases alike with
  | constant hk => exact (both_readConstant h inner hk).roomed
  | getGlobal hk => exact (both_readGlobal h inner hk).roomed
  | defineGlobal hk => exact (both_defineGlobal h inner hk).roomed
  | setGlobal hk => exact (both_assignGlobal h inner hk).roomed
  | closure => exact admits.elim
  | same hi =>
    cases i with
    | constant | getGlobal | defineGlobal | setGlobal | closure => cases hi
    | capture => exact admits.elim
    | pushNil => exact (done_push h .nil).roomed
    | pushTrue | pushFalse => exact (done_push h (.bool _)).roomed
    | pop => exact (Both.bind ((both_pop h).imp fun _ _ _ _ e => .pure e.2.meets)).roomed
    | getLocal => exact (both_readLocal h admits.1).roomed
    | setLocal => exact (both_assignLocal h).roomed
    | getUpvalue => exact (both_readUpvalue h).roomed
    | setUpvalue => exact (both_assignUpvalue h).roomed
    | getIndex => exact (both_readElement h).roomed
    | setIndex => exact (both_assignElement h).roomed
    | equal => exact (both_compareEqual h).roomed
    | greater => exact (both_comparison h fun a b => decide (b < a)).roomed
    | less => exact (both_comparison h fun a b => decide (a < b)).roomed
    | add => exact roomed_addOperands h
    | subtract => exact (both_numeric h (· - ·)).roomed
    | multiply => exact (both_numeric h (· * ·)).roomed
    | divide => exact (both_numeric h (· / ·)).roomed
    | negation => exact (both_invertTruth h).roomed
    | negate => exact (both_negateNumber h).roomed
    | print => exact (both_printTop h).roomed
    | jump => exact (both_jumpAhead h hm hf flows).roomed
    | jumpIfFalse => exact (both_jumpAheadIfFalse h hm hf flows.2).roomed
    | loop => exact (both_jumpBack h hm hf flows.1 inside).roomed
    | call => exact roomed_startCall h
    | closeUpvalue => exact (both_closeTop h).roomed
    | array => exact roomed_makeArray h
    | ret => exact (both_endCall h hm (ends rfl)).roomed

end Execute
end Machine
end StackScript
