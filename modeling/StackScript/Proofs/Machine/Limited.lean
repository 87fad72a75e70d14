import StackScript.Proofs.Machine.Blind
import StackScript.Proofs.Machine.Evolves
import StackScript.Proofs.Machine.Printing

/-!
# StackScript.Proofs.Machine.Limited

An output with little room sees the beginning of what an output without a limit sees.

* `Output.upTo`: what of an output fits into a number of octets.
* `Bounded`, `bounded_step`: a step with an output that is limited, compared with a step with one
  that is not.
* `run_limited`, `interpret_limited`: runs.
-/

namespace StackScript
namespace Machine

namespace Output

/-- The first octets of an output without a limit, and the room behind them. -/
def upTo (n : Nat) (o : Output) : Output := ⟨o.octets.extract 0 n, some (n - o.octets.size)⟩

variable {o : Output} {n : Nat}

theorem write_unlimited (h : o.room = none) (text : String) :
    o.write text = (⟨o.octets ++ text.toUTF8, none⟩, true) := by
  simp only [write, h]

/-- Writing to what fits into `n` octets. -/
theorem write_upTo (h : o.room = none) (inside : o.octets.size ≤ n) (text : String) :
    (o.upTo n).write text =
      ((o.write text).1.upTo n, decide ((o.write text).1.octets.size ≤ n)) := by
  rw [write_unlimited h]
  simp only [upTo, write, extract_of_le inside, extract_append_of_le inside,
    ByteArray.size_append]
  by_cases fits : text.toUTF8.size ≤ n - o.octets.size
  · rw [if_pos fits, extract_of_le fits, Nat.sub_sub]
    exact congrArg _ (decide_eq_true (by omega)).symm
  · rw [if_neg fits, show n - (o.octets.size + text.toUTF8.size) = 0 by omega]
    exact congrArg _ (decide_eq_false (by omega)).symm

end Output

/-- The machine with an output that has room for `n` octets in all. -/
def upTo (n : Nat) (m : Machine) : Machine := m.onto (m.output.upTo n)

variable {m : Machine} {n : Nat}

/-- The outputs of two machines are not limited, and the second one has what the first one has
and maybe more. -/
structure Writes (m m' : Machine) : Prop where
  free : m'.output.room = none
  more : ∃ octets, m'.output.octets = m.output.octets ++ octets

theorem Writes.ofEq (free : m.output.room = none) {m' : Machine} (e : m'.output = m.output) :
    Writes m m' :=
  ⟨e ▸ free, .empty, by rw [e, ByteArray.append_empty]⟩

theorem Writes.trans {m₁ m' : Machine} (w : Writes m m₁) (w' : Writes m₁ m') : Writes m m' := by
  obtain ⟨a, ha⟩ := w.more
  obtain ⟨b, hb⟩ := w'.more
  exact ⟨w'.free, a ++ b, by rw [hb, ha, ByteArray.append_assoc]⟩

/-- How a computation ends without a limit, and with a limit of `n` octets in all. Under some
condition only it can print more than that, and then goes on if there is no limit. -/
inductive CutEnd {α : Type} (n : Nat) (m : Machine) (prints : Prop) :
    EStateM.Result Stop Machine α → EStateM.Result Stop Machine α → Prop where
  | ok {a : α} {m' : Machine} (writes : Writes m m') (fits : m'.output.octets.size ≤ n) :
      CutEnd n m prints (.ok a m') (.ok a (m'.upTo n))
  | error {s : Stop} {m' : Machine} (writes : Writes m m') (fits : m'.output.octets.size ≤ n) :
      CutEnd n m prints (.error s m') (.error s (m'.upTo n))
  | full {a : α} {m' : Machine} (printing : prints) (running : m'.progress = .running)
      (writes : Writes m m') (past : n < m'.output.octets.size) :
      CutEnd n m prints (.ok a m') (.error (.output .full) (m'.upTo n))

section Ends

variable {α β : Type} {prints : Prop}

/-- A computation that leaves the output alone, and another one behind it. -/
theorem Blind.cutEnd_bind {x : Exec α} {f : α → Exec β} (blind : Blind x)
    (free : m.output.room = none) (fits : m.output.octets.size ≤ n)
    (behind : ∀ a m', x m = .ok a m' → m'.output = m.output →
      CutEnd n m prints (f a m') (f a (m'.upTo n))) :
    CutEnd n m prints ((x >>= f) m) ((x >>= f) (m.upTo n)) := by
  have own := blind m m.output
  have cut := blind m (m.output.upTo n)
  rw [show m.onto m.output = m from rfl] at own
  simp only [Bind.bind, EStateM.bind]
  rw [upTo, cut]
  cases hx : x m with
  | ok a m' =>
    rw [hx] at own
    have same : m'.output = m.output := (congrArg output (EStateM.Result.ok.inj own).2).trans rfl
    rw [← same]
    exact behind a m' hx same
  | error s m' =>
    rw [hx] at own
    have same : m'.output = m.output :=
      (congrArg output (EStateM.Result.error.inj own).2).trans rfl
    rw [← same]
    exact .error (.ofEq free same) (same ▸ fits)

theorem Blind.cutEnd {x : Exec α} (blind : Blind x) (free : m.output.room = none)
    (fits : m.output.octets.size ≤ n) : CutEnd n m prints (x m) (x (m.upTo n)) := by
  rw [← bind_pure x]
  exact blind.cutEnd_bind free fits fun a m' _ same => .ok (.ofEq free same) (same ▸ fits)

theorem CutEnd.before {m₁ : Machine} {r r' : EStateM.Result Stop Machine α}
    (h : CutEnd n m₁ prints r r') (w : Writes m m₁) : CutEnd n m prints r r' := by
  cases h with
  | ok writes fits => exact .ok (w.trans writes) fits
  | error writes fits => exact .error (w.trans writes) fits
  | full printing running writes past => exact .full printing running (w.trans writes) past

theorem pop_frames {v : Value} {m' : Machine} (h : pop m = .ok v m') : m'.frames = m.frames := by
  have ends : Ends pop m (fun _ m' => m'.frames = m.frames) fun _ _ => True :=
    ends_pop (fun _ _ => rfl) fun _ => trivial
  rwa [Ends, h] at ends

theorem cutEnd_printTop (h : prints) (calls : m.progress = .running)
    (free : m.output.room = none) (fits : m.output.octets.size ≤ n) :
    CutEnd n m prints (printTop m) (printTop (m.upTo n)) := by
  rw [printTop_eq]
  refine Blind.pop.cutEnd_bind free fits fun v m' popped same => ?_
  have running : m'.progress = .running := by
    rw [progress, pop_frames popped]
    exact calls
  rw [← same] at free fits
  let printed (p : Output × Bool) : EStateM.Result Stop Machine Unit :=
    (unless p.2 do throw (.output .full) : Exec Unit) (m'.onto p.1)
  show CutEnd n m prints (printed (m'.output.write (m'.heap.display v ++ "\n")))
    (printed ((m'.output.upTo n).write (m'.heap.display v ++ "\n")))
  rw [Output.write_upTo free fits, Output.write_unlimited free]
  have writes : Writes m (m'.onto ⟨m'.output.octets ++ (m'.heap.display v ++ "\n").toUTF8, none⟩) :=
    ⟨rfl, _, congrArg (·.octets ++ _) same⟩
  by_cases all : (m'.output.octets ++ (m'.heap.display v ++ "\n").toUTF8).size ≤ n
  · simp only [decide_eq_true all]
    exact .ok writes all
  · simp only [decide_eq_false all]
    exact .full h running writes (Nat.lt_of_not_le all)

theorem fetch_next? {i : Instruction} {m' : Machine} (h : fetch m = .ok i m') :
    (∃ call, m.next? = some (call, i)) ∧ m'.progress = .running := by
  have ends : Ends fetch m
      (fun i m' => (∃ call, m.next? = some (call, i)) ∧ m'.progress = .running)
      fun _ _ => True :=
    ends_fetch (fun call _ _ _ next => ⟨⟨call, next⟩, rfl⟩) fun _ _ => trivial
  rwa [Ends, h] at ends

theorem cutEnd_instruction (free : m.output.room = none) (fits : m.output.octets.size ≤ n) :
    CutEnd n m (∃ call, m.next? = some (call, .print)) (instruction m)
      (instruction (m.upTo n)) := by
  refine Blind.fetch.cutEnd_bind free fits fun i m' fetched same => ?_
  obtain ⟨next, running⟩ := fetch_next? fetched
  have before := Writes.ofEq free same
  rw [← same] at free fits
  by_cases hi : i = .print
  · subst hi
    exact (cutEnd_printTop next running free fits).before before
  · exact ((Blind.execute hi).cutEnd free fits).before before

end Ends

/-- How a step ends without a limit, and with a limit of `n` octets in all. -/
inductive CutStep (n : Nat) (m : Machine) : Progress × Machine → Progress × Machine → Prop where
  | fits {p : Progress} {m' : Machine} (writes : Writes m m') (fits : m'.output.octets.size ≤ n) :
      CutStep n m (p, m') (p, m'.upTo n)
  | full {call : Frame} {m' : Machine} (printing : m.next? = some (call, .print))
      (writes : Writes m m') (past : n < m'.output.octets.size) :
      CutStep n m (.running, m') (.failed (.output .full), m'.reset.upTo n)

theorem stopWith_output (m : Machine) (s : Stop) : (m.stopWith s).2.output = m.output := by
  cases s <;> rfl

theorem stopWith_upTo (m : Machine) (s : Stop) :
    (m.upTo n).stopWith s = ((m.stopWith s).1, (m.stopWith s).2.upTo n) := by
  cases s <;> rfl

theorem cutStep (free : m.output.room = none) (fits : m.output.octets.size ≤ n) :
    CutStep n m m.step (m.upTo n).step := by
  cases hf : m.frames with
  | nil =>
    have hf' : (m.upTo n).frames = [] := hf
    rw [step_idle hf, step_idle hf']
    exact .fits (.ofEq free rfl) fits
  | cons call outer =>
    have hf' : (m.upTo n).frames = call :: outer := hf
    rw [step_eq hf, step_eq hf']
    have cut := cutEnd_instruction free fits
    generalize instruction m = r, instruction (m.upTo n) = r' at cut
    cases cut with
    | ok writes fits => exact .fits writes fits
    | @error s m' writes fits =>
      have out := m'.stopWith_output s
      show CutStep n m (m'.stopWith s) ((m'.upTo n).stopWith s)
      rw [stopWith_upTo]
      exact .fits (writes.trans (.ofEq writes.free out)) (out ▸ fits)
    | full printing running writes past =>
      obtain ⟨call, next⟩ := printing
      simp only [running]
      exact .full next writes past

/-- Nothing that was printed is taken back. -/
theorem writes_step (free : m.output.room = none) : Writes m m.step.2 := by
  have cut := cutStep free (Nat.le_refl m.output.octets.size)
  generalize m.step = r, (m.upTo m.output.octets.size).step = r' at cut
  cases cut with
  | fits writes | full _ writes => exact writes

theorem writes_run (k : Nat) (free : m.output.room = none) : Writes m (run k m).2 := by
  induction k generalizing m with
  | zero => exact .ofEq free rfl
  | succ k ih =>
    have step := writes_step free
    by_cases running : m.step.1 = .running
    · rw [run_of_running running]
      exact step.trans (ih step.free)
    · rwa [run_of_stopped running]

/-- A run that goes beyond a limit of `n` octets within `k` steps, given what comes of any number of
steps without and with the limit. It comes to a machine `a` after `j` steps, and ends there. -/
structure StopsAt (n k : Nat) (free cut : Nat → Progress × Machine) (j : Nat) (a : Machine) :
    Prop where
  before : j < k
  same : free j = (.running, a) ∧ cut j = (.running, a.upTo n)
  printing : ∃ call, a.next? = some (call, .print)
  /-- What was printed before fits, and what is printed now does not. -/
  past : a.output.octets.size ≤ n ∧ n < a.step.2.output.octets.size
  /-- The calls end, and nothing else is done. -/
  stops : cut k = (.failed (.output .full), a.step.2.reset.upTo n)
  /-- Without the limit, more may be printed behind. -/
  writes : Writes a.step.2 (free k).2

theorem StopsAt.later {k j : Nat} {a : Machine} {free cut free' cut' : Nat → Progress × Machine}
    (h : StopsAt n k free cut j a) (hf : ∀ i, free' (i + 1) = free i)
    (hc : ∀ i, cut' (i + 1) = cut i) : StopsAt n (k + 1) free' cut' (j + 1) a :=
  ⟨Nat.succ_lt_succ h.before, ⟨(hf j).trans h.same.1, (hc j).trans h.same.2⟩,
    h.printing, h.past, (hc k).trans h.stops, hf k ▸ h.writes⟩

/-- A run with a limit of `n` octets is that without the limit, or it stops where the limit is
crossed. -/
theorem run_limited (k : Nat) (free : m.output.room = none) (fits : m.output.octets.size ≤ n) :
    ((run k m).2.output.octets.size ≤ n ∧ run k (m.upTo n) = ((run k m).1, (run k m).2.upTo n)) ∨
      ∃ j a, StopsAt n k (run · m) (run · (m.upTo n)) j a := by
  induction k generalizing m with
  | zero => exact .inl ⟨fits, rfl⟩
  | succ k ih =>
    have cut := cutStep free fits
    generalize hs : m.step = r, hs' : (m.upTo n).step = r' at cut
    cases cut with
    | @fits p m' writes fits' =>
      by_cases running : p = .running
      · subst running
        have run_m (i : Nat) : run (i + 1) m = run i m' := by
          rw [run_of_running (congrArg Prod.fst hs), hs]
        have run_up (i : Nat) : run (i + 1) (m.upTo n) = run i (m'.upTo n) := by
          rw [run_of_running (congrArg Prod.fst hs'), hs']
        rw [run_m, run_up]
        obtain same | ⟨j, a, stops⟩ := ih writes.free fits'
        · exact .inl same
        · exact .inr ⟨j + 1, a, stops.later run_m run_up⟩
      · have stopped : m.step.1 ≠ .running := by rwa [hs]
        have stopped' : (m.upTo n).step.1 ≠ .running := by rwa [hs']
        rw [run_of_stopped stopped, run_of_stopped stopped', hs, hs']
        exact .inl ⟨fits', rfl⟩
    | @full call m' printing writes past =>
      have stopped : (m.upTo n).step.1 ≠ .running := by
        rw [hs']
        nofun
      refine .inr ⟨0, m, Nat.succ_pos k, ⟨rfl, rfl⟩, ⟨call, printing⟩, ⟨fits, hs ▸ past⟩, ?_, ?_⟩
      · rw [run_of_stopped stopped, hs', hs]
      · rw [run_of_running (congrArg Prod.fst hs), hs]
        exact writes_run k writes.free

/-- Loading a source does not touch the output. -/
theorem load_onto (m : Machine) (source : String) (o : Output) :
    (m.onto o).load source = ((m.load source).1, (m.load source).2.onto o) := by
  unfold load
  dsimp only [onto]
  split
  next => rfl
  next function _ =>
    have entered := Blind.enter function
      { m with heap := (Compile.compile source m.heap).heap } o
    dsimp only [onto, EStateM.run] at entered ⊢
    rw [entered]
    cases enter function { m with heap := (Compile.compile source m.heap).heap } <;> rfl

theorem onto_limited (m : Machine) (n : Nat) : (m.onto .unlimited).upTo n = m.onto (.limited n) := by
  have none : ByteArray.empty.extract 0 n = ByteArray.empty := extract_of_le (Nat.zero_le n)
  show m.onto ⟨ByteArray.empty.extract 0 n, some (n - 0)⟩ = m.onto ⟨.empty, some n⟩
  rw [none]
  rfl

/-- A script whose output has room for `n` octets, compared with the same script without a limit,
after any number of steps. The octets are the first `n` ones. If there are no more, nothing else
differs; otherwise the run ends with the `print` that does not fit. A value is written in pieces, but
they join to its display, and in how many pieces a text is written makes no difference. -/
theorem interpret_limited (m : Machine) (source : String) (n k : Nat) :
    let free := fun j => interpret j source (m.onto .unlimited)
    let cut := fun j => interpret j source (m.onto (.limited n))
    (cut k).2.output.octets = (free k).2.output.octets.extract 0 n ∧
      ((free k).2.output.octets.size ≤ n → cut k = ((free k).1, (free k).2.upTo n)) ∧
      (n < (free k).2.output.octets.size → (cut k).1 = .failed (.output .full) ∧
        (cut k).2.frames = [] ∧ (cut k).2.stack = #[] ∧ (cut k).2.openUpvalues = [] ∧
        ∃ j a, StopsAt n k free cut j a) ∧
      (∀ (o : Output) (pieces : List String), o.writeEach pieces = o.write (String.join pieces)) ∧
      ∀ (h : Heap) (v : Value), String.join (h.pieces v) = h.display v := by
  intro free cut
  have ends : ((free k).2.output.octets.size ≤ n ∧ cut k = ((free k).1, (free k).2.upTo n)) ∨
      ∃ j a, StopsAt n k free cut j a := by
    have loaded := load_onto m source .unlimited
    have loaded' : (m.onto (.limited n)).load source =
        ((m.load source).1, ((m.load source).2.onto .unlimited).upTo n) := by
      rw [onto_limited]
      exact load_onto m source _
    have start : ((m.load source).2.onto .unlimited).output.octets.size ≤ n := Nat.zero_le n
    cases hr : (m.load source).1 with
    | error e =>
      left
      simp only [free, cut, interpret, loaded, loaded', hr]
      exact ⟨start, trivial⟩
    | ok =>
      simp only [free, cut, interpret, loaded, loaded', hr]
      exact run_limited k rfl start
  obtain ⟨fits, same⟩ | ⟨j, a, stops⟩ := ends
  · refine ⟨by rw [same]; rfl, fun _ => same, fun past => absurd fits (Nat.not_le_of_lt past),
      Output.writeEach_eq, Heap.join_pieces⟩
  · obtain ⟨octets, more⟩ := stops.writes.more
    have past := stops.past.2
    have first : (free k).2.output.octets.extract 0 n = a.step.2.output.octets.extract 0 n := by
      rw [more, extract_append_of_ge (Nat.le_of_lt past)]
    have large : n < (free k).2.output.octets.size := by
      rw [more, ByteArray.size_append]
      omega
    refine ⟨?_, fun fits => absurd fits (Nat.not_le_of_lt large), fun _ => ?_,
      Output.writeEach_eq, Heap.join_pieces⟩
    · rw [first, stops.stops]
      rfl
    · rw [stops.stops]
      exact ⟨rfl, rfl, rfl, rfl, j, a, stops⟩

/-- A limit inside an array that is printed. -/
example :
    let cut := interpret 20 "print [[1], 2]; print 3;" (new (.limited 4) .still)
    cut.1 = .failed (.output .full) ∧ cut.2.output.octets = "[[1]".toUTF8 := by
  decide +kernel

end Machine
end StackScript
