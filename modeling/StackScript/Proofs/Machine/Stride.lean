import StackScript.Proofs.Compile.Body
import StackScript.Proofs.Machine.Grows
import StackScript.Proofs.Machine.Tandem

/-!
# StackScript.Proofs.Machine.Stride

Steps and runs of two machines that do the same.

* `AtSeam`: a machine at the end of the body of its script.
* `Abreast`: two machines between two instructions. `Abreast.step`, `Abreast.run`: they stay abreast
  until the near one is at the end of its script, or both are stopped for the same reason.
-/

namespace StackScript

namespace Bytecode

open Instruction (width stream)

variable {p : Operands} {J J' : Nat → Shape → Prop} {o : Nat} {σ : Shape} {x : Item}

theorem Flows.imp (hJ : ∀ o σ, J o σ → J' o σ) {i : Instruction} (h : Flows J o σ i) :
    Flows J' o σ i := by
  cases i with
  | ret => trivial
  | jumpIfFalse => exact ⟨hJ _ _ h.1, hJ _ _ h.2⟩
  | loop => exact ⟨h.1, hJ _ _ h.2⟩
  | _ => exact hJ _ _ h

theorem Fine.imp (hJ : ∀ o σ, J o σ → J' o σ) (h : Fine p J o σ x) : Fine p J' o σ x := by
  cases x with
  | plain i =>
    obtain ⟨top, rest, e, rooted, takes, admits, flows⟩ := h
    exact ⟨top, rest, e, rooted, takes, admits, flows.imp hJ⟩
  | closure =>
    obtain ⟨rooted, r, f, self, pool, hf, count, captured, last⟩ := h
    exact ⟨rooted, r, f, self, pool, hf, count, captured, hJ _ _ last⟩

theorem Layout.At.le {c : Layout} (h : c.At o σ) : o ≤ width c.code := by
  obtain ⟨pre, τ, x, post, rfl, rfl, -⟩ := h
  simp

theorem Takes.length {i : Instruction} {top : Shape} (h : Takes i top) :
    top.length = (effect i).1 := by
  cases i <;> first | exact h | (obtain rfl : top = _ := h; exact Shape.length_temporaries _)

/-- Only slots that may be captured are captured, and the lowest one may not be. -/
theorem Captures.index_ne {c : Capture} {self : Bool} (h : Captures p σ self c) (hσ : σ.Rooted)
    (isLocal : c.isLocal = true) : c.index ≠ 0 := by
  intro e
  rw [Captures, if_pos isLocal, e] at h
  have lowest : (self :: σ).getLast? = some false := hσ.cons self
  rw [show (0 : UInt8).toNat = 0 from rfl, ← List.head?_eq_getElem?, List.head?_reverse,
    lowest] at h
  cases h

end Bytecode

namespace Machine

open Bytecode
open Instruction (width stream)

/-- The body of the script has come to its end. -/
def AtSeam (s : Setting) (m : Machine) : Prop :=
  ∃ call f, m.frames = [call] ∧ call.function = s.script ∧
    m.heap.function? call.function = some f ∧ call.ip = f.chunk.code.size - 2

section Step

variable {s : Setting} {b : Bridge} {k : Nat} {m n : Machine} {c d : Frame} {cs ds : List Frame}
  {f g : Function} {E : Stop → Machine → Machine → Prop}

/-- Both machines move on behind the next instruction. -/
theorem both_fetch {i j : Instruction} (t : Twin s b m n) (hm : m.frames = c :: cs)
    (hn : n.frames = d :: ds) (hf : b.near.function? c.function = some f)
    (hg : b.far.function? d.function = some g) (hi : f.chunk.read? c.ip = some i)
    (hj : g.chunk.read? d.ip = some j) (size : j.size = i.size)
    (le : c.ip + i.size ≤ s.limit c.function f) : Both fetch fetch m n (fun x y m' n' =>
      x = i ∧ y = j ∧ m' = { m with frames := { c with ip := c.ip + i.size } :: cs } ∧
      n' = { n with frames := { d with ip := d.ip + i.size } :: ds } ∧ Twin s b m' n') E := by
  have inner : Inner b m n f g := ⟨c, cs, d, ds, hm, hn, hf, hg⟩
  refine .bind (both_frame t fun c' d' _ _ hm' hn' call => ?_)
  obtain ⟨rfl, rfl⟩ := List.cons.inj (hm.symm.trans hm')
  obtain ⟨rfl, rfl⟩ := List.cons.inj (hn.symm.trans hn')
  have ip := call.ip
  refine .bind (both_chunk t inner ?_)
  rw [hi, hj]
  refine .bind (.pure ?_)
  rw [size]
  refine .bind ((both_setIp t hm hn hf le (by omega)).imp fun _ _ m' n' e => .pure ?_)
  exact ⟨rfl, rfl, e⟩

/-- Behind fetching, with all calls moved. -/
theorem Twin.mid {ip ip' : Nat}
    (t : Twin s b { m with frames := { c with ip } :: cs }
      { n with frames := { d with ip := ip' } :: ds })
    (hm : m.frames = c :: cs) (size : m.stack.size = k) (pos : 0 < ip)
    (moved : ∀ call ∈ m.frames.tail, 0 < call.ip) :
    Mid s b k { m with frames := { c with ip } :: cs }
      { n with frames := { d with ip := ip' } :: ds } := by
  refine ⟨t, size, fun call hc => ?_⟩
  rw [hm] at moved
  obtain rfl | hc := List.mem_cons.1 hc
  · exact pos
  · exact moved call hc

section Instruction

variable {k₀ : Closure} {l pre post : Layout} {x : Item} {τ ρ : Shape}

/-- What the layout tells of the next item, with what both functions have in common as the places
where it may lead. -/
theorem Ahead.fineWithin (a : Ahead m c cs k₀ f l pre post x τ ρ)
    (lt : c.ip < s.limit c.function f) :
    Fine ⟨m.heap, f.chunk.constants, f.upvalueCount⟩ (fun o _ => o ≤ s.limit c.function f) c.ip τ
      x := by
  have size : f.chunk.code.size = width l.code := by
    rw [← Array.length_toList, a.active.fits.code, Instruction.length_stream]
  by_cases hs : c.function = s.script
  · rw [Setting.limit, if_pos hs] at lt ⊢
    rw [a.ip] at lt ⊢
    exact a.active.fits.confined pre τ x post a.layout lt
  · rw [Setting.limit_of_ne hs, size]
    exact a.fine.imp fun o σ h => h.le

/-- The body of a script has no return. -/
theorem Ahead.ne_ret {i : Instruction} (a : Ahead m c cs k₀ f l pre post (.plain i) τ ρ)
    (lt : c.ip < s.limit c.function f) (hs : c.function = s.script) (script : f.IsScript) :
    i ≠ .ret := by
  rintro rfl
  obtain ⟨is, code, none⟩ := script.code
  have whole : is ++ [.pushNil, .ret] = pre.code ++ .ret :: post.code := by
    refine Instruction.stream_injective (code.symm.trans ?_)
    rw [a.active.fits.code, a.layout]
    simp [Item.code]
  have size : f.chunk.code.size = width is + 2 := by
    rw [← Array.length_toList, code, Instruction.length_stream, Instruction.width_append]
    rfl
  rw [Setting.limit, if_pos hs, size, a.ip] at lt
  obtain ⟨more, rfl, -⟩ := Instruction.split_of_width_lt whole (by omega)
  exact none (by simp)

end Instruction

theorem roomed_instruction (t : Twin s b m n) (moved : ∀ call ∈ m.frames.tail, 0 < call.ip)
    (inv : Invariant m) (hm : m.frames = c :: cs) (hf : m.heap.function? c.function = some f)
    (lt : c.ip < s.limit c.function f) (script : c.function = s.script → f.IsScript) :
    Roomed instruction instruction m n (Done s) (Halts s) := by
  obtain ⟨k₀, f', l, pre, post, x, τ, ρ, a⟩ := inv.ahead hm
  obtain rfl := Option.some.inj (hf.symm.trans a.active.function)
  have fine := a.fineWithin lt
  have calls := t.calls
  rw [hm] at calls
  obtain ⟨d, ds, hn, call, -⟩ := calls.uncons
  obtain ⟨f', g, hf', hg, functions, inside⟩ := call.code
  obtain rfl := Option.some.inj ((t.near ▸ hf).symm.trans hf')
  have code : f.chunk.code.toList = stream (pre.code ++ (x.code ++ post.code)) := by
    rw [a.code]
    simp
  have size := a.size
  have lt' : width pre.code < s.limit c.function f := a.ip ▸ lt
  cases x with
  | plain i =>
    obtain ⟨top, rest, rfl, rooted, takes, admits, flows⟩ := fine
    have room := functions.within code lt'
    obtain ⟨j, hj, alike⟩ := functions.read? code lt'
    rw [← a.ip] at room hj
    rw [← call.ip] at hj
    have pos : 0 < rest.length := List.length_pos_iff.2 rooted.ne_nil
    have forward := i.size_pos
    have count : m.stack.size = rest.length - 1 + ρ.length + 1 + (effect i).1 := by
      rw [size, ← takes.length]
      simp only [List.length_append]
      omega
    refine .bind ((both_fetch t hm hn hf' hg (a.read? rfl) hj alike.size room).imp
      fun _ _ m' n' e => ?_)
    obtain ⟨ei, ej, rfl, rfl, t'⟩ := e
    rw [ei, ej]
    refine roomed_execute (t'.mid hm count (by omega) moved) rfl
      ⟨_, cs, _, ds, rfl, rfl, hf', hg⟩ alike admits room flows fun e hs => ?_
    exact a.ne_ret lt hs (script hs) (e ▸ rfl)
  | closure i captures =>
    obtain ⟨rooted, r, made, self, pool, hr, count, captured, last⟩ := fine
    have code : f.chunk.code.toList =
        stream (pre.code ++ .closure i :: (captures.map .capture ++ post.code)) := by
      rw [code]
      rfl
    obtain ⟨j, before, behind, code', place, constants⟩ := functions.captures code lt'
    rw [← a.ip, ← call.ip] at place
    rw [Item.code, Instruction.width_cons, Instruction.width_captures] at last
    have hj : g.chunk.read? d.ip = some (.closure j) := place ▸ Chunk.read?_of_code before _ code'
    refine .bind ((both_fetch t hm hn hf' hg (a.read? rfl) hj rfl (by omega)).imp
      fun _ _ m' n' e => ?_)
    obtain ⟨ei, ej, rfl, rfl, t'⟩ := e
    rw [ei, ej]
    have forward := (Instruction.closure i).size_pos
    refine roomed_makeClosure (t'.mid hm rfl (by omega) moved) ⟨⟨cs, rfl⟩, ⟨ds, rfl⟩, hf', hg,
      ⟨stream (pre.code ++ [.closure i]), stream post.code, ?_, ?_⟩,
      ⟨before ++ (Instruction.closure j).encode, behind, ?_, ?_⟩, ?_⟩ constants pool
      (t.near ▸ hr) count fun x hx hl => (captured x hx).index_ne rooted hl
    · rw [code]
      simp
    · rw [Instruction.length_stream, Instruction.width_append, ← a.ip]
      rfl
    · rw [code']
      simp
    · rw [List.length_append, Instruction.length_encode, place]
      rfl
    · show c.ip + (Instruction.closure i).size + 3 * captures.length ≤ s.limit c.function f
      omega

/-- Two machines between two instructions. -/
structure Abreast (s : Setting) (m n : Machine) : Prop where
  meets : Meets s m n
  invariant : Invariant m
  script : ∃ f, m.heap.function? s.script = some f ∧ f.IsScript

theorem size_reset (m : Machine) : m.reset.heap.size = m.heap.size :=
  (closeFrom_kept 0 m.stack m.openUpvalues m.heap).2.1

theorem size_stopWith (m : Machine) (e : Stop) : (m.stopWith e).2.heap.size = m.heap.size := by
  cases e with
  | exit => rfl
  | _ => exact m.size_reset

theorem size_left (hm : m.frames = c :: cs) :
    (left (instruction m)).heap.size = m.step.2.heap.size := by
  rw [step_eq hm]
  cases instruction m with
  | ok => rfl
  | error e m' => exact (m'.size_stopWith e).symm

theorem progress_of_cons (hm : m.frames = c :: cs) : m.progress = .running := by
  rw [progress, hm]
  rfl

/-- Two machines whose next instruction is not executed to its end, for the same reason. -/
structure Stopping (s : Setting) (e : Stop) (m n p q : Machine) : Prop where
  near : instruction m = .error e p
  step : m.step = p.stopWith e
  step' : n.step = q.stopWith e
  halts : Halts s e p q

theorem SameCalls.cons (h : SameCalls s b cs ds) :
    ∃ c cs' d ds', cs = c :: cs' ∧ ds = d :: ds' := by
  cases h with
  | script => exact ⟨_, _, _, _, rfl, rfl⟩
  | call => exact ⟨_, _, _, _, rfl, rfl⟩

/-- In front of its end, the innermost call is in the part that both functions have. -/
theorem Twin.inside (t : Twin s b m n) (inv : Invariant m) (seam : ¬AtSeam s m)
    (hm : m.frames = c :: cs) (hf : m.heap.function? c.function = some f) :
    c.ip < s.limit c.function f := by
  have calls := t.calls
  rw [hm] at calls
  obtain ⟨d, ds, -, call, -⟩ := calls.uncons
  obtain ⟨f', g, hf', -, -, inside⟩ := call.code
  obtain rfl := Option.some.inj ((t.near ▸ hf).symm.trans hf')
  by_cases hs : c.function = s.script
  · refine Nat.lt_of_le_of_ne inside fun e => seam ?_
    rw [Setting.limit, if_pos hs] at e
    generalize n.frames = fs at calls
    cases calls with
    | script => exact ⟨c, f, hm, hs, hf, e⟩
    | call _ ne => exact absurd hs ne
  · obtain ⟨k₀, f', l, pre, post, x, τ, ρ, a⟩ := inv.ahead hm
    obtain rfl := Option.some.inj (hf.symm.trans a.active.function)
    rw [Setting.limit_of_ne hs, ← Array.length_toList, a.code, a.ip]
    have := Layout.width_pos x
    simp only [List.length_append, Instruction.length_stream]
    omega

/-- One step. -/
theorem Abreast.step (h : Abreast s m n) (seam : ¬AtSeam s m)
    (room : m.step.2.heap.size ≤ UInt32.size) (room' : n.step.2.heap.size ≤ UInt32.size) :
    (m.step.1 = .running ∧ n.step.1 = .running ∧ Abreast s m.step.2 n.step.2) ∨
    ∃ e p q, Stopping s e m n p q := by
  obtain ⟨b, t, moved⟩ := h.meets
  obtain ⟨fs, hs, script⟩ := h.script
  obtain ⟨c, cs, d, ds, hm, hn⟩ := t.calls.cons
  have larger := Larger.step t.hosts
  have stepped := h.invariant.step (Nat.le_trans larger.size room)
  obtain ⟨k₀, f, l, pre, post, x, τ, ρ, a⟩ := h.invariant.ahead hm
  have hf := a.active.function
  have both := roomed_instruction t moved h.invariant hm hf (t.inside h.invariant seam hm hf)
    (fun e => by rwa [Option.some.inj (hf.symm.trans (e ▸ hs))]) (size_left hm ▸ room)
    (size_left hn ▸ room')
  have next := step_eq hm
  have next' := step_eq hn
  unfold Both at both
  cases hx : instruction m with
  | ok _ m' =>
    rw [hx] at both next
    cases hy : instruction n with
    | ok _ n' =>
      rw [hy] at both next'
      cases both with
      | ok meets =>
        obtain ⟨b', t', -⟩ := id meets
        obtain ⟨c', cs', d', ds', hm', hn'⟩ := t'.calls.cons
        dsimp only at next next'
        rw [progress_of_cons hm'] at next
        rw [progress_of_cons hn'] at next'
        refine .inl ⟨by rw [next], by rw [next'], ?_⟩
        have inv := stepped.invariant room fun code e => by
          rw [next] at e
          cases e
        have kept := stepped.kept
        rw [next, next']
        rw [next] at inv kept
        exact ⟨meets, inv, fs, kept.function? hs, script⟩
    | error e n' =>
      rw [hy] at both
      cases both
  | error e p =>
    rw [hx] at both next
    cases hy : instruction n with
    | ok _ n' =>
      rw [hy] at both
      cases both
      exact ((next ▸ stepped.proper : Progress.Proper (.failed (.malformed _)))).elim
    | error e' q =>
      rw [hy] at both next'
      cases both with
      | malformed => exact ((next ▸ stepped.proper : Progress.Proper (.failed (.malformed _)))).elim
      | stopped halts => exact .inr ⟨e, p, q, hx, next, next', halts⟩

/-- A run keeps two machines abreast up to the end of the near script, or up to an instruction that
is not executed to its end. -/
theorem Abreast.run (h : Abreast s m n) (count : Nat)
    (room : (m.run count).2.heap.size ≤ UInt32.size)
    (room' : (n.run count).2.heap.size ≤ UInt32.size) :
    (∃ i ≤ count, ∃ m' n', m.run i = (.running, m') ∧ n.run i = (.running, n') ∧
      Abreast s m' n' ∧ (i = count ∨ AtSeam s m')) ∨
    ∃ i < count, ∃ m' n' e p q, m.run i = (.running, m') ∧ n.run i = (.running, n') ∧
      Stopping s e m' n' p q := by
  induction count generalizing m n with
  | zero => exact .inl ⟨0, Nat.le_refl 0, m, n, rfl, rfl, h, .inl rfl⟩
  | succ count ih =>
    by_cases seam : AtSeam s m
    · exact .inl ⟨0, Nat.zero_le _, m, n, rfl, rfl, h, .inr seam⟩
    · obtain ⟨b, t, -⟩ := h.meets
      have larger := Larger.step t.hosts
      have larger' := Larger.step t.hosts'
      have first : m.step.2.heap.size ≤ UInt32.size := by
        by_cases e : m.step.1 = .running
        · rw [run_of_running e] at room
          exact Nat.le_trans (Larger.run count larger.hosts).size room
        · rwa [run_of_stopped e] at room
      have first' : n.step.2.heap.size ≤ UInt32.size := by
        by_cases e : n.step.1 = .running
        · rw [run_of_running e] at room'
          exact Nat.le_trans (Larger.run count larger'.hosts).size room'
        · rwa [run_of_stopped e] at room'
      obtain ⟨e, e', next⟩ | ⟨e, p, q, stopping⟩ := h.step seam first first'
      · rw [run_of_running e] at room
        rw [run_of_running e'] at room'
        obtain ⟨i, le, m', n', hm, hn, rest⟩ | ⟨i, lt, m', n', e₁, p, q, hm, hn, rest⟩ :=
          ih next room room'
        · refine .inl ⟨i + 1, Nat.succ_le_succ le, m', n', ?_, ?_, rest.1,
            rest.2.imp_left (congrArg Nat.succ)⟩
          · rw [run_of_running e, hm]
          · rw [run_of_running e', hn]
        · refine .inr ⟨i + 1, Nat.succ_lt_succ lt, m', n', e₁, p, q, ?_, ?_, rest⟩
          · rw [run_of_running e, hm]
          · rw [run_of_running e', hn]
      · exact .inr ⟨0, Nat.succ_pos _, m, n, e, p, q, rfl, rfl, stopping⟩

end Step
end Machine
end StackScript
