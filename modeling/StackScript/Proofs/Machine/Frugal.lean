import StackScript.Proofs.Bytecode.Sweep
import StackScript.Proofs.Machine.Interpreted
import StackScript.Proofs.Machine.Quiet

/-!
# StackScript.Proofs.Machine.Frugal

Code that puts nothing on the heap.

* `Instruction.frugal`, `Function.frugal`, `Heap.frugal`: code without sums, arrays and closures,
  wherever it is entered. A script may start with the closure of a function.
* `Frugal`: a machine in the middle of such code, which has no texts to read.
* `Frugal.run`: its heap stays as large as it is.
* `size_interpret_frugal`: so does the heap of a script behind its first instruction.
-/

namespace StackScript

/-- An instruction that puts nothing on the heap. A function without parameters is not called, and
does not go back. -/
def Instruction.frugal (arity : Nat) : Instruction → Bool
  | .add | .array _ | .closure _ => false
  | .call n => n != 0
  | .loop _ => arity != 0
  | _ => true

namespace Function

/-- The octets of a closure, with which a script may start. -/
def prologue (f : Function) : Nat := if f.arity = 0 then 2 else 0

/-- All code from an offset on is frugal behind the prologue, even if it is entered between two
instructions. -/
def frugalFrom (f : Function) : Nat → List UInt8 → Bool
  | _, [] => true
  | ip, octet :: octets =>
    (decide (ip < f.prologue) ||
      (Instruction.decode? (octet :: octets)).all (Instruction.frugal f.arity)) &&
    f.frugalFrom (ip + 1) octets

def frugal (f : Function) : Bool := f.frugalFrom 0 f.chunk.code.toList

theorem frugal_decode? {f : Function} {octets : List UInt8} {i : Instruction} {start : Nat}
    (j : Nat) (h : f.frugalFrom start octets = true) (behind : f.prologue ≤ start + j)
    (hi : Instruction.decode? (octets.drop j) = some i) : i.frugal f.arity = true := by
  induction octets generalizing start j with
  | nil =>
    rw [List.drop_nil] at hi
    cases hi
  | cons octet octets ih =>
    rw [frugalFrom, Bool.and_eq_true] at h
    cases j with
    | zero =>
      rw [List.drop_zero] at hi
      have behind : ¬start < f.prologue := Nat.not_lt.2 behind
      simpa [behind, hi] using h.1
    | succ j => exact ih j h.2 (by omega) hi

theorem frugal_read? {f : Function} (h : f.frugal = true) {ip : Nat} {i : Instruction}
    (behind : f.prologue ≤ ip) (hi : f.chunk.read? ip = some i) : i.frugal f.arity = true :=
  frugal_decode? ip h (by rwa [Nat.zero_add]) (Chunk.read?_eq .. ▸ hi)

end Function

def Object.frugal : Object → Bool
  | .function f => f.frugal
  | _ => true

/-- All functions are frugal. -/
def Heap.frugal (h : Heap) : Bool := h.objects.all Object.frugal

theorem Heap.frugal_function? {h : Heap} (code : h.frugal = true) {r : Ref} {f : Function}
    (hf : h.function? r = some f) : f.frugal = true :=
  Array.all_eq_true_iff_forall_mem.1 code _ (Array.mem_of_getElem? (function?_eq_some.1 hf))

/-- A native has nothing to put on the heap if there is no text to read. -/
theorem Builtin.heap_call {b : Builtin} {w w' : Machine.World} {heap heap' : Heap}
    {argument v : Value} (h : b.call w heap argument = .ok (v, w', heap'))
    (none : w.Textless) : heap' = heap := by
  cases b with
  | clock | random =>
    cases h
    rfl
  | sleep | fileExists | least | greatest | seed =>
    obtain ⟨_, -, h⟩ := Machine.answer_bind h
    cases h
    rfl
  | readFile =>
    obtain ⟨path, -, h⟩ := Machine.answer_bind h
    dsimp only at h
    split at h
    next content e => exact (none.next path content e).elim
    next =>
      cases h
      rfl
  | length =>
    dsimp only [call] at h
    split at h
    next =>
      cases h
      rfl
    next =>
      obtain ⟨_, -, h⟩ := Machine.answer_bind h
      cases h
      rfl
  | exit =>
    obtain ⟨_, -, h⟩ := Machine.answer_bind h
    cases h

namespace Machine

/-- A machine that runs frugal code of a heap and has put nothing on it. -/
structure Frugal (h : Heap) (m : Machine) : Prop where
  hosts : m.hosts = #[]
  textless : m.world.Textless
  size : m.heap.size = h.size
  functions : h.Limits m.heap
  behind : ∀ call ∈ m.frames, ∀ f, h.function? call.function = some f → f.prologue ≤ call.ip

variable {h : Heap} {m : Machine} {call : Frame} {outer : List Frame} {f : Function}

theorem Frugal.modest (h : Heap) : Modest (Frugal h) where
  hosts k := k.hosts
  spared k s := {
    hosts := s.hosts.trans k.hosts
    textless := s.textless k.textless
    size := s.size.trans k.size
    functions := k.functions.trans s.functions
    behind := s.frames ▸ k.behind }

namespace Frugal

theorem function? (k : Frugal h m) {r : Ref} (hf : m.heap.function? r = some f) :
    h.function? r = some f :=
  Heap.function?_eq_some.2 (k.functions _ _ (Heap.function?_eq_some.1 hf))

/-- The calls may change as long as none is in its prologue. -/
theorem withFrames (k : Frugal h m) {frames : List Frame}
    (behind : ∀ call ∈ frames, ∀ f, h.function? call.function = some f → f.prologue ≤ call.ip) :
    Frugal h { m with frames } :=
  ⟨k.hosts, k.textless, k.size, k.functions, behind⟩

theorem setIp (k : Frugal h m) (hf : m.frames = call :: outer) {ip : Nat}
    (behind : ∀ f, h.function? call.function = some f → f.prologue ≤ ip) :
    Ends (setIp ip) m (fun _ => Frugal h) fun _ => Frugal h := by
  refine .setIp hf (k.withFrames (List.forall_mem_cons.2 ⟨behind, fun c hc => ?_⟩))
  exact k.behind c (hf ▸ List.mem_cons_of_mem call hc)

/-- Behind the place where a call is. -/
theorem at_ (k : Frugal h m) (hf : m.frames = call :: outer)
    (hr : h.function? call.function = some f) : f.prologue ≤ call.ip :=
  k.behind call (hf ▸ List.mem_cons_self) f hr

theorem jumpAhead (k : Frugal h m) (hf : m.frames = call :: outer) (d : UInt16) :
    Ends (jumpAhead d) m (fun _ => Frugal h) fun _ => Frugal h :=
  .bind (.frame hf (k.setIp hf fun _ hr => Nat.le_add_right_of_le (k.at_ hf hr)))

theorem fetch (code : h.frugal = true) (k : Frugal h m) (hf : m.frames = call :: outer) :
    Ends fetch m (fun i m' => Frugal h m' ∧ ∃ call outer f, m'.frames = call :: outer ∧
      h.function? call.function = some f ∧ i.frugal f.arity = true) fun _ => Frugal h := by
  cases hr : m.heap.function? call.function with
  | none =>
    refine .bind (.frame hf (.bind (.bind (.frame hf (.bind (.get ?_))))))
    rw [hr]
    exact .throw k
  | some f =>
    cases hi : f.chunk.read? call.ip with
    | none =>
      refine .bind (.frame hf (.bind (.chunk hf hr (.bind ?_))))
      rw [hi]
      exact .throw k
    | some i =>
      have hr' := k.function? hr
      have here := k.at_ hf hr'
      have frugal := Function.frugal_read? (Heap.frugal_function? code hr') here hi
      refine .fetch hf hr hi
        ⟨k.withFrames (List.forall_mem_cons.2 ⟨fun g hg => ?_, fun c hc => ?_⟩),
        _, _, f, rfl, hr', frugal⟩
      · obtain rfl := Option.some.inj (hr'.symm.trans hg)
        exact Nat.le_add_right_of_le here
      · exact k.behind c (hf ▸ List.mem_cons_of_mem call hc)

theorem runProcedure (p : Procedure) (arguments : List Value) :
    Keeps (Frugal h) (runProcedure p arguments) := by
  intro m k
  unfold Machine.runProcedure
  cases p with
  | builtin b =>
    refine .bind (.get ?_)
    split
    next v world heap hc =>
      obtain rfl := Builtin.heap_call hc k.textless
      exact .bind (.modify (.pure ((modest h).spared k ⟨⟨rfl, rfl, .refl _, textless_call hc⟩, rfl⟩)))
    next => exact Keeps.fail _ m k
    next => exact Keeps.throw _ m k
  | host index =>
    refine .bind (.get ?_)
    rw [k.hosts]
    exact Keeps.fail _ m k

theorem callClosure (k : Frugal h m) (r : Ref) {n : Nat} (some : n ≠ 0) :
    Ends (callClosure r n) m (fun _ => Frugal h) fun _ => Frugal h := by
  refine .bind (.get ?_)
  dsimp only
  split
  · exact .throw k
  · next c _ =>
    split
    · exact .fail k
    next arity =>
    refine .bind (.get ?_)
    split
    · refine .modify (k.withFrames (List.forall_mem_cons.2 ⟨fun f hf => ?_, k.behind⟩))
      have arity := not_not.1 arity
      cases hg : m.heap.function? c.function with
      | none =>
        rw [hg] at arity
        exact absurd arity some
      | some g =>
        rw [hg] at arity
        obtain rfl := Option.some.inj ((k.function? hg).symm.trans hf)
        rw [Function.prologue, if_neg fun zero : g.arity = 0 => some (arity.trans zero)]
    · exact .fail k

theorem startCall (k : Frugal h m) {n : UInt8} (some : n ≠ 0) :
    Ends (startCall n) m (fun _ => Frugal h) fun _ => Frugal h := by
  refine .bind ((Keeps.peek n.toNat m k).imp (fun callee m k => ?_) fun _ _ => id)
  split
  · refine .bind (.get ?_)
    dsimp only
    split
    · exact k.callClosure _ fun zero => some (UInt8.toNat_inj.1 zero)
    · split
      · exact (modest h).callNative _ _ runProcedure m k
      · exact .fail k
  · exact .fail k

theorem endCall : Keeps (Frugal h) endCall := by
  refine .bind (modest h).pop fun v => .bind .frame fun call => .bind (.modify fun m k => ?_)
    fun _ => .bind ((modest h).truncate _) fun _ => .bind .get fun m => ?_
  · refine (modest h).spared (k.withFrames fun c hc => ?_) (spared_closeUpvalues _ _)
    exact k.behind c (List.mem_of_mem_tail hc)
  · split
    · exact .pure _
    · exact (modest h).push _

theorem instruction (code : h.frugal = true) (k : Frugal h m) (hf : m.frames = call :: outer) :
    Ends instruction m (fun _ => Frugal h) fun _ => Frugal h := by
  refine .bind ((k.fetch code hf).imp (fun i m k => ?_) fun _ _ => id)
  obtain ⟨k, call, outer, f, hf, hr, frugal⟩ := k
  cases i with
  | jump d => exact k.jumpAhead hf d
  | jumpIfFalse d =>
    refine .bind ((Keeps.peek 0 m rfl : Ends _ _ (fun _ m' => m' = m) fun _ m' => m' = m).imp
      (fun v m' e => ?_) fun _ m' e => e ▸ k)
    subst e
    split
    · exact k.jumpAhead hf d
    · exact .pure k
  | loop d =>
    refine .bind (.frame hf ?_)
    dsimp only
    split
    · refine k.setIp hf fun g hg => ?_
      obtain rfl := Option.some.inj (hr.symm.trans hg)
      rw [Function.prologue, if_neg (bne_iff_ne.1 frugal)]
      exact Nat.zero_le _
    · exact .throw k
  | call n => exact k.startCall (bne_iff_ne.1 frugal)
  | ret => exact endCall m k
  | add | array | closure => cases frugal
  | _ =>
    refine (?_ : Keeps (Frugal h) (execute _)) m k
    exact (modest h).execute trivial nofun nofun

theorem reset (k : Frugal h m) : Frugal h m.reset := by
  have k := (modest h).spared k (spared_closeUpvalues m 0)
  exact ⟨k.hosts, k.textless, k.size, k.functions, nofun⟩

theorem step (code : h.frugal = true) (k : Frugal h m) : Frugal h m.step.2 := by
  cases hf : m.frames with
  | nil =>
    rw [step_idle hf]
    exact k
  | cons call outer =>
    obtain ⟨m', k, e⟩ | ⟨s, m', k, e⟩ := step_cases hf (k.instruction code hf)
    · rw [e]
      exact k
    · rw [e]
      cases s with
      | exit => exact k
      | _ => exact k.reset

/-- Frugal code leaves the heap as large as it is. -/
theorem run (code : h.frugal = true) (k : Frugal h m) (n : Nat) : Frugal h (m.run n).2 := by
  induction n generalizing m with
  | zero => exact k
  | succ n ih =>
    by_cases running : m.step.1 = .running
    · rw [run_of_running running]
      exact ih (k.step code)
    · rw [run_of_stopped running]
      exact k.step code

end Frugal

/-- No script writes a file. -/
theorem textless_interpret (hosts : m.hosts = #[]) (none : m.world.Textless) (source : String)
    (n : Nat) : (m.interpret n source).2.world.Textless := by
  have q := Quiet.textless
  have loaded : (m.load source).2.hosts = #[] ∧ (m.load source).2.world.Textless := by
    rw [load_eq]
    split
    next => exact ⟨hosts, none⟩
    next r _ =>
      have entered := q.enter (fun _ _ => id) r
        { m with heap := (Compile.compile source m.heap).heap } ⟨hosts, none⟩
      unfold Ends at entered
      rw [EStateM.run]
      split at entered
      next e => rw [e]; exact entered
      next e => rw [e]; exact entered
  unfold interpret
  cases hl : m.load source with
  | mk result m' =>
    rw [hl] at loaded
    cases result with
    | ok => exact (q.run (fun _ _ => id) n loaded).2
    | error => exact loaded.2

/-- A script of frugal functions puts nothing on the heap behind its first instruction. -/
theorem size_interpret_frugal {source : String} (hosts : m.hosts = #[])
    (running : (m.interpret 1 source).1 = .running)
    (code : (m.interpret 1 source).2.heap.frugal = true)
    (k : Frugal (m.interpret 1 source).2.heap (m.interpret 1 source).2) (n : Nat) :
    (m.interpret n source).2.heap.size ≤ (m.interpret 1 source).2.heap.size := by
  cases n with
  | zero =>
    have loaded := load_le_interpret hosts source 1
    unfold interpret at loaded ⊢
    cases hl : m.load source with
    | mk result m' =>
      rw [hl] at loaded
      cases result <;> exact loaded
  | succ n =>
    have kept := k.run code n
    unfold interpret at running kept ⊢
    cases hl : m.load source with
    | mk result m' =>
      rw [hl] at running kept
      cases result with
      | ok =>
        have once : m'.run 1 = (.running, (m'.run 1).2) := Prod.ext running rfl
        show (m'.run (n + 1)).2.heap.size ≤ _
        rw [Nat.add_comm, run_add once n]
        exact Nat.le_of_eq kept.size
      | error => cases running

end Machine
end StackScript
