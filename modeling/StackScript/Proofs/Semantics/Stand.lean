import StackScript.Proofs.Semantics.Follow
import StackScript.Proofs.Semantics.Shown

/-!
# StackScript.Proofs.Semantics.Stand

Where a machine stands in a call while it follows an evaluation.

* `Activation`: a call, with what is known of its function and of the calls around it.
* `Rests`: at an offset of its code, with its variables and with values above them.
* `Stands`: the same of a machine between two steps.
* `Stands.next`, `Stands.fault`: the next step, given what its instruction does.
-/

namespace StackScript
namespace Semantics

open Instruction (width stream)
open Machine

/-- A function of the heap has a name, or none if it is a script. -/
def Named (h : Heap) (r : Ref) (name : Option String) : Prop :=
  ∃ f, h.function? r = some f ∧ name.map some = f.name.map h.string?

theorem Named.kept {h h' : Heap} {r : Ref} {name : Option String} (n : Named h r name)
    (kept : h.Kept h') : Named h' r name := by
  obtain ⟨f, hf, e⟩ := n
  refine ⟨f, kept.function? hf, e.trans ?_⟩
  cases hn : f.name with
  | none => rfl
  | some key =>
    rw [hn] at e
    cases name with
    | none => cases e
    | some text =>
      have hk : h.string? key = some text := (Option.some.inj e).symm
      rw [Option.map_some, Option.map_some, hk, kept.string? hk]

/-- A call of a function, with the calls around it. What is known of them holds on a heap of its
own from then on. -/
structure Activation where
  /-- the places of the stack below that of the callee -/
  below : List Slot
  closure : Ref
  function : Ref
  outer : List Frame
  upvalues : Array Ref
  body : Function
  code : List Instruction
  chain : List (Array Capture)
  levels : Levels
  calls : List (Option String)
  ties : Ties
  heap : Heap
  isClosure : heap.closure? closure = some ⟨function, upvalues⟩
  isFunction : heap.function? function = some body
  encoded : body.chunk.code.toList = stream code
  backs : Backs ties upvalues chain levels
  named : List.Forall₂ (Named heap) (function :: outer.map Frame.function) calls

namespace Activation

variable (A : Activation)

def frame (ip : Nat) : Frame := ⟨A.closure, A.function, ip, A.below.length⟩

/-- The places of the stack, given the variables of the function, the last one first, and the values
above them. -/
def slots (ℓ : List (String × Nat)) (θ : List Val) : List Slot :=
  A.below ++ .callee :: (ℓ.reverse.map (fun p => .cell p.2) ++ θ.map .value)

/-- Where something is evaluated in the call. -/
def site (nested : Bool) (ℓ : List (String × Nat)) (θ : List Val) : Site :=
  ⟨(ℓ :: A.levels).flatten, nested, A.below.length + 1 + ℓ.length + θ.length, A.calls⟩

variable {A} {nested : Bool} {ℓ : List (String × Nat)} {θ ws : List Val} {v : Val}

theorem slots_append : A.slots ℓ (θ ++ ws) = A.slots ℓ θ ++ ws.map .value := by
  simp [slots]

theorem slots_push : A.slots ℓ (θ ++ [v]) = A.slots ℓ θ ++ [.value v] := slots_append

theorem slots_cons (name : String) {c : Nat} :
    A.slots ((name, c) :: ℓ) [] = A.slots ℓ [] ++ [.cell c] := by
  simp [slots]

theorem length_slots :
    (A.slots ℓ θ).length = A.below.length + 1 + ℓ.length + θ.length := by
  simp only [slots, List.length_append, List.length_cons, List.length_map, List.length_reverse]
  omega

theorem height_site (nested : Bool) : (A.site nested ℓ θ).height = (A.slots ℓ θ).length := length_slots.symm

theorem site_up : (A.site nested ℓ θ).up = A.site nested ℓ (θ ++ [v]) := by
  rw [Site.up, site, site, List.length_append]
  rfl

end Activation

/-- A machine is at an offset of the code of a call. -/
structure Rests (H : Heap) (A : Activation) (τ : Ties) (s : Store) (ip : Nat)
    (ℓ : List (String × Nat)) (θ : List Val) (m : Machine) : Prop where
  frames : m.frames = A.frame ip :: A.outer
  later : Later A.ties A.heap τ m.heap
  agrees : Agrees H τ s (A.slots ℓ θ) m

/-- The same between two steps. -/
structure Stands (H : Heap) (A : Activation) (s : Store) (ip : Nat) (ℓ : List (String × Nat))
    (θ : List Val) (m : Machine) : Prop where
  live : Live m
  rests : ∃ τ, Rests H A τ s ip ℓ θ m

section Rests

variable {H : Heap} {A : Activation} {τ : Ties} {s : Store} {ip : Nat} {ℓ : List (String × Nat)}
  {θ ws : List Val} {v : Val} {w : Value} {m : Machine}

namespace Rests

theorem closure (r : Rests H A τ s ip ℓ θ m) :
    m.heap.closure? A.closure = some ⟨A.function, A.upvalues⟩ :=
  r.later.kept.closure? A.isClosure

theorem function (r : Rests H A τ s ip ℓ θ m) : m.heap.function? A.function = some A.body :=
  r.later.kept.function? A.isFunction

theorem size (r : Rests H A τ s ip ℓ θ m) : m.stack.size = (A.slots ℓ θ).length := by
  rw [← Array.length_toList, r.agrees.celled.stack.length_eq]

theorem move (r : Rests H A τ s ip ℓ θ m) (ip' : Nat) :
    Rests H A τ s ip' ℓ θ { m with frames := A.frame ip' :: A.outer } :=
  ⟨rfl, r.later, r.agrees.celled, r.agrees.backed, r.agrees.output, r.agrees.world⟩

theorem named (r : Rests H A τ s ip ℓ θ m) :
    List.Forall₂ (Named m.heap) (m.frames.map Frame.function) A.calls := by
  rw [r.frames]
  exact A.named.imp fun _ _ n => n.kept r.later.kept

end Rests

/-- The names of the active calls are those that the trace of a fault tells. -/
theorem ended_fault (live : Live m) {calls : List (Option String)} {f : Fault} {m' : Machine}
    (named : List.Forall₂ (Named m.heap) (m.frames.map Frame.function) calls)
    (e : m.step = m'.stopWith (.fault f)) :
    ∃ trace, m.step.1 = .failed (.runtime f trace) ∧ trace.map TraceLine.function = calls := by
  obtain ⟨script, runs⟩ := live.runs
  have failed : m.step = (.failed (.runtime f m'.trace), m'.reset) := e
  obtain ⟨call, outer, t, ts, hf, trace, ⟨g, i, tells⟩, rest⟩ := runs.traces live.size failed
  refine ⟨m'.trace, by rw [failed], ?_⟩
  have told : List.Forall₂ (fun (call : Frame) (t : TraceLine) => ∃ f offset i,
      Tells m.heap call f offset i t) m.frames m'.trace := by
    rw [hf, trace]
    exact .cons ⟨g, _, i, tells⟩ (rest.imp fun waiting t ⟨f, n, tells⟩ => ⟨f, _, _, tells⟩)
  generalize m'.trace = ts, m.frames = frames at told named
  clear trace rest tells hf e failed runs
  induction told generalizing calls with
  | nil =>
    cases named
    rfl
  | cons tells _ ih =>
    obtain ⟨name, names, ⟨f, hf, e⟩, others, rfl⟩ := List.forall₂_cons_left_iff.1 named
    obtain ⟨f', offset, i, tells⟩ := tells
    obtain rfl := Option.some.inj (hf.symm.trans tells.function)
    rw [List.map_cons, ih others]
    congr 1
    exact Option.map_injective (Option.some_injective _) (tells.name.trans e.symm)

end Rests

section Steps

variable {H : Heap} {A : Activation} {s s' : Store} {ip : Nat} {ℓ : List (String × Nat)}
  {θ : List Val} {m : Machine} {i : Instruction} {pre post : List Instruction}

theorem Activation.read? (code : A.code = pre ++ i :: post) (at_ : ip = width pre) :
    A.body.chunk.read? ip = some i := by
  have := Chunk.read?_of_code (c := A.body.chunk) (i := i) (stream pre) (stream post)
    (by rw [A.encoded, code]; simp)
  rwa [Instruction.length_stream, ← at_] at this

/-- The instruction at an offset of the code. -/
theorem ends_instruction_at {τ : Ties} {Q : Machine → Prop} {E : Stop → Machine → Prop}
    (r : Rests H A τ s ip ℓ θ m) (code : A.code = pre ++ i :: post) (at_ : ip = width pre)
    (h : Ends (execute i) { m with frames := A.frame (ip + i.size) :: A.outer } (fun _ => Q) E) :
    Ends instruction m (fun _ => Q) E :=
  .bind (.fetch r.frames r.function (Activation.read? code at_) h)

/-- What is known of a machine behind fetching an instruction. -/
structure Fetched (H : Heap) (A : Activation) (τ : Ties) (s : Store) (ip : Nat)
    (ℓ : List (String × Nat)) (θ : List Val) (m : Machine) : Prop extends
    Rests H A τ s ip ℓ θ m where
  fits : m.heap.size ≤ UInt32.size
  room : m.stack.size ≤ stackLimit
  hosts : m.hosts = #[]
  tracked : ∃ σ, Tracked m.heap m.openUpvalues σ

theorem Stands.fetched {τ : Ties} (st : Stands H A s ip ℓ θ m) (r : Rests H A τ s ip ℓ θ m)
    (ip' : Nat) : Fetched H A τ s ip' ℓ θ { m with frames := A.frame ip' :: A.outer } where
  toRests := r.move ip'
  fits := st.live.size
  room := st.live.room
  hosts := st.live.hosts
  tracked := by
    obtain ⟨σ, -, -, tracked⟩ := st.live.invariant.stacked
    exact ⟨σ, tracked⟩

namespace Stands

/-- The next step leads on, perhaps to another call. -/
theorem next {B : Activation} {ip' : Nat} {ℓ' : List (String × Nat)} {ws : List Val}
    (st : Stands H A s ip ℓ θ m) (code : A.code = pre ++ i :: post) (at_ : ip = width pre)
    (h : ∀ τ m₁, Fetched H A τ s (ip + i.size) ℓ θ m₁ →
      Ends (execute i) m₁ (fun _ m' => m'.heap.size ≤ UInt32.size →
        ∃ τ', Rests H B τ' s' ip' ℓ' ws m') fun _ _ => False) :
    ∃ m', m.step = (.running, m') ∧ Stands H B s' ip' ℓ' ws m' := by
  obtain ⟨τ, r⟩ := st.rests
  have ends := ends_instruction_at r code at_ (h τ _ (st.fetched r _))
  obtain ⟨m', q, e⟩ | ⟨_, _, none, -⟩ := step_cases r.frames ends
  · have fits := st.live.size_step
    rw [e] at fits
    obtain ⟨τ', r'⟩ := q fits
    have running : m'.progress = .running := by
      rw [progress, r'.frames]
      rfl
    rw [running] at e
    exact ⟨m', e, st.live.step e, τ', r'⟩
  · exact none.elim

theorem stops {stop : Stop} {output : Output} (st : Stands H A s ip ℓ θ m) (code : A.code = pre ++ i :: post)
    (at_ : ip = width pre)
    (h : ∀ τ m₁, Fetched H A τ s (ip + i.size) ℓ θ m₁ →
      Ends (execute i) m₁ (fun _ _ => False) fun e m' => e = stop ∧ m'.output = output) :
    ∃ m' : Machine, m.step = m'.stopWith stop ∧ m'.output = output := by
  obtain ⟨τ, r⟩ := st.rests
  have ends := ends_instruction_at (Q := fun _ => False) r code at_
    (h τ _ (st.fetched r _))
  obtain ⟨_, none, -⟩ | ⟨e, m', ⟨rfl, output⟩, step⟩ := step_cases r.frames ends
  · exact none.elim
  · exact ⟨m', step, output⟩

/-- The next step ends the run with a fault. -/
theorem fault {f : Fault} (st : Stands H A s ip ℓ θ m) (code : A.code = pre ++ i :: post)
    (at_ : ip = width pre)
    (h : ∀ τ m₁, Fetched H A τ s (ip + i.size) ℓ θ m₁ →
      Ends (execute i) m₁ (fun _ _ => False) fun e m' => e = .fault f ∧ m'.output = s'.output) :
    Ended (.fault f A.calls) s' m := by
  obtain ⟨m', e, output⟩ := st.stops code at_ h
  obtain ⟨τ, r⟩ := st.rests
  exact ⟨ended_fault st.live r.named e, by rw [e]; exact output, nofun⟩

/-- The next step finds no place on the stack. -/
theorem overflows (st : Stands H A s ip ℓ θ m) (code : A.code = pre ++ i :: post)
    (at_ : ip = width pre) (full : m.stack.size = stackLimit)
    (h : ∀ τ m₁, Fetched H A τ s (ip + i.size) ℓ θ m₁ → m₁.stack.size = stackLimit →
      Ends (execute i) m₁ (fun _ _ => False)
        fun e m' => e = .fault .stackOverflow ∧ m'.output = s'.output) :
    Ended (.full A.calls) s' m := by
  obtain ⟨τ, r⟩ := st.rests
  have ends := ends_instruction_at (Q := fun _ => False) r code at_
    (h τ _ (st.fetched r _) full)
  obtain ⟨_, none, -⟩ | ⟨e, m', ⟨rfl, output⟩, step⟩ := step_cases r.frames ends
  · exact none.elim
  · exact ⟨ended_fault st.live r.named step, by rw [step]; exact output, fun _ _ => full⟩

end Stands
end Steps

end Semantics
end StackScript
