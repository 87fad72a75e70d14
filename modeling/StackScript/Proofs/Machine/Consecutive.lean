import StackScript.Proofs.Machine.Interpreted

/-!
# StackScript.Proofs.Machine.Consecutive

Two sources interpreted one after the other, and the source that has both as its lines.

* `Resembles`: machines that cannot be told apart by what they printed and by their globals.
* `Abreast.first`, `Underway.onward`: the joined script runs like the first one, then like the
  second.
* `interpret_joined`: both ways come to the same.
-/

namespace StackScript
namespace Machine

open Compile

/-- Two machines have printed the same, and their globals have values that stand for the same. The
code of the near functions stands further down in the far ones. -/
structure Resembles (shift : Ref → Nat) (m n : Machine) : Prop where
  output : n.output = m.output
  globals : ∃ (s : Setting) (b : Bridge), s.shift = shift ∧
    b.near = m.heap ∧ b.far = n.heap ∧ b.Matches s ∧
    ∀ name, Option.Rel b.Values (m.global? name) (n.global? name)

variable {s : Setting} {b β : Bridge} {c : Seam} {m n : Machine} {source : String} {r : Ref}
  {f f' g : Function}

theorem Shared.resembles (t : Shared s b m n) : Resembles s.shift m n := by
  obtain ⟨d, g, d', g', near, far, same⟩ := t.globals
  have sound := t.matched.near
  have sound' := t.matched.far
  rw [t.near] at near sound
  rw [t.far] at far sound'
  refine ⟨t.output, s, b, rfl, t.near, t.far, t.matched, fun name => ?_⟩
  rw [global?_eq sound near, global?_eq sound' far]
  exact same name

/-- What is not moved is the same. -/
theorem SameEnd.progress_eq {shift : Ref → Nat} {p q : Progress} (h : SameEnd shift m p q)
    (unmoved : ∀ r, shift r = 0) : q = p := by
  cases h with
  | same => rfl
  | fault => simp only [movedTrace, trace, unmoved, Nat.add_zero]

/-- A near run that comes to its end does so at the end of the script, which the far one passes, or
both end for the same reason. -/
theorem Abreast.first (h : Abreast s m n) {k : Nat} {p : Progress} {m₁ : Machine}
    (run : m.run k = (p, m₁)) (ended : p ≠ .running) (unmoved : ∀ r, s.shift r = 0)
    (fits : m₁.heap.size ≤ UInt32.size) (fits' : (n.run k).2.heap.size ≤ UInt32.size) :
    (p = .finished ∧ ∃ i ≤ k, ∃ m' n', m.run i = (.running, m') ∧ n.run i = (.running, n') ∧
      Abreast s m' n' ∧ AtSeam s m' ∧ m₁ = m'.cleared) ∨
    (p ≠ .finished ∧ ∃ n₁, n.run k = (p, n₁) ∧ n₁.output = m₁.output) := by
  obtain ⟨i, le, m', n', hm, hn, abreast, last⟩ | ⟨i, lt, m', n', e, p', q', hm, hn, stopping⟩ :=
    h.run k (by rwa [run]) fits'
  · have seam : AtSeam s m' := by
      obtain rfl | seam := last
      · rw [hm] at run
        exact absurd (congrArg Prod.fst run).symm ended
      · exact seam
    obtain ⟨j, rfl⟩ := Nat.exists_eq_add_of_le le
    rw [run_add hm] at run
    have finish := (abreast.spent seam).finish abreast.invariant
      (show (m'.run j).1 ≠ .running by rwa [run])
    rw [run] at finish
    obtain ⟨rfl, rfl⟩ := Prod.mk.inj finish
    exact .inl ⟨rfl, i, le, m', n', hm, hn, abreast, seam, rfl⟩
  · obtain ⟨near, far⟩ := stopping.run hm hn lt
    obtain ⟨b, shared⟩ := stopping.halts.shared
    have same := stopping.sameEnd hm
    rw [near] at run
    obtain ⟨rfl, rfl⟩ := Prod.mk.inj run
    refine .inr ⟨?_, (q'.stopWith e).2, ?_, shared.output⟩
    · cases e <;> simp
    · rw [far]
      exact Prod.ext (same.progress_eq unmoved) rfl

/-- The near machine has loaded the first of two sources, and the far one both. -/
structure Underway (s : Setting) (β : Bridge) (f g : Function) (m n : Machine) : Prop where
  abreast : Abreast s m n
  invariant : Invariant n
  near : m.heap.function? s.script = some f
  far : n.heap.function? s.host = some g
  kept : β.far.Kept n.heap

theorem Underway.run (h : Underway s β f g m n) {i : Nat} {m' n' : Machine}
    (hm : m.run i = (.running, m')) (hn : n.run i = (.running, n')) (abreast : Abreast s m' n')
    (fits : m'.heap.size ≤ UInt32.size) (fits' : n'.heap.size ≤ UInt32.size) :
    Underway s β f g m' n' := by
  have near := h.abreast.invariant.run_kept i (by rwa [hm])
  have far := h.invariant.run_kept i (by rwa [hn])
  have inv := h.invariant.run (n := i) (by rwa [hn]) (by rw [hn]; nofun)
  rw [hm] at near
  rw [hn] at far inv
  exact ⟨abreast, inv, near.function? h.near, far.function? h.far, h.kept.trans far⟩

/-- The near machine goes on with the second source, and the far one with what stands behind. -/
theorem Underway.onward (h : Underway s β f g m n) (seam : AtSeam s m) (start : s.offset = 0)
    (reachable : Reachable m.cleared) (upvalues : f.upvalueCount = 0) (script : g.IsScript)
    (ok : (compile source m.heap).result = .ok r)
    (inside : Inside c source m.heap r (f.chunk.code.size - 2) β f' g)
    (near : c.near = m.heap.size) (far : ∀ q, s.known q → q.index < c.far)
    (size : g.chunk.code.size - 2 = f.chunk.code.size - 2 + (f'.chunk.code.size - 2))
    (fits : (m.cleared.load source).2.heap.size ≤ UInt32.size) :
    let s' := s.extended c r s.host (f.chunk.code.size - 2) fun _ => True
    Abreast s' (m.cleared.load source).2 n ∧ Ending s' (m.cleared.load source).2 n := by
  have idle : m.cleared.Idle := idle_cleared reachable.hosts
  have invariant := (reachable.invariant (Nat.le_trans
    (Larger.load reachable.hosts source).size fits)).load idle.frames source fits
  obtain ⟨_, built⟩ := (Reachable.load source reachable idle.frames).built fits
  obtain ⟨b', twin⟩ := twin_onward h.abreast seam start h.near upvalues h.far ok inside near far
    h.kept fits built.sound
  obtain ⟨hf', -, -⟩ := found_script inside (Nat.le_trans
    (size_compiled (m := m.cleared) idle.hosts ok) fits)
  have found := (extends_load idle ok fits).function? hf'
  refine ⟨⟨⟨b', twin, fun call hc => ?_⟩, invariant, f', found, inside.script⟩, h.invariant, f', g,
    found, h.far, script, size⟩
  rw [load_ok idle ok fits] at hc
  cases hc

/-- A machine that interprets two sources one after the other does the same as one that interprets
the source with both as its lines. If the first one finishes, the joined run is `c` instructions
ahead from then on: it comes to the same end, with the lines of the second source moved down, and
leaves the same output and globals. If the first one fails, the joined one fails in the same way. -/
theorem interpret_joined {m m₁ : Machine} {a b : String} {k : Nat} {p : Progress} {r r' q : Ref}
    (h : Interpreted m) (first : m.interpret k a = (p, m₁)) (ended : p ≠ .running)
    (ok : (compile a m.heap).result = .ok r) (ok' : (compile b m₁.heap).result = .ok r')
    (joined : (compile (joinLines a b) m.heap).result = .ok q)
    (fits : ∀ n, (m₁.interpret n b).2.heap.size ≤ UInt32.size)
    (fits' : ∀ n, (m.interpret n (joinLines a b)).2.heap.size ≤ UInt32.size) :
    (p = .finished → ∃ c, ∀ n,
      SameEnd (movedBehind m₁.heap.size (lineCount a)) (m₁.load b).2 (m₁.interpret n b).1
        (m.interpret (c + n) (joinLines a b)).1 ∧
      Resembles (movedBehind m₁.heap.size (lineCount a)) (m₁.interpret n b).2
        (m.interpret (c + n) (joinLines a b)).2) ∧
    (p ≠ .finished → ∃ m₂, m.interpret k (joinLines a b) = (p, m₂) ∧
      m₂.output = m₁.output) := by
  obtain ⟨result, reached⟩ := Prod.ext_iff.1 first
  dsimp only at result reached
  have larger : m.Larger m₁ := reached ▸ Larger.interpret h.hosts k a
  have small := Nat.le_trans (load_le_interpret larger.hosts b 0) (fits 0)
  have large := Nat.le_trans (Larger.load larger.hosts b).size small
  have room := Nat.le_trans (load_le_interpret h.hosts a k) (reached ▸ large)
  have room' := Nat.le_trans (load_le_interpret h.hosts (joinLines a b) 0) (fits' 0)
  obtain ⟨reachable, idle, s, β₀, t, unmoved⟩ := h.shared (Nat.le_trans larger.size large)
  have whole (n : Nat) := interpret_ok idle joined room' n
  have compiled := Nat.le_trans (size_compiled h.hosts joined) room'
  obtain ⟨c, c', β, β', f, f', g, halves⟩ := compile_halves ok ok' joined
    (Nat.le_trans (size_compiled h.hosts ok) room)
    (Nat.le_trans (size_compiled larger.hosts ok') small) compiled
  obtain ⟨later, found⟩ := halves.found compiled
  obtain ⟨abreast, inv, hf, hg⟩ := abreast_load reachable reachable t idle idle ok joined
    halves.first halves.near halves.far (halves.later.trans later) found room room'
  have underway : Underway _ β' f g _ _ := ⟨abreast, inv, hf, hg,
    Heap.Extends.kept (later.trans (extends_load idle joined room'))⟩
  have still (x : Ref) : (s.extended c r q 0 fun q => q.index < β.far.size).shift x = 0 := by
    rw [Setting.extended_shift unmoved, halves.shift, movedBehind, ite_self]
  rw [interpret_ok idle ok room] at first
  obtain ⟨rfl, i, -, m', n', hm, hn, abreast', seam, rfl⟩ | ⟨failed, n₁, hn, output⟩ :=
    abreast.first first ended still large (by rw [← whole]; exact fits' k)
  · refine ⟨fun _ => ⟨i, fun n => ?_⟩, fun failed => absurd rfl failed⟩
    have stays : (m.interpret k a).1.Stays := fun code e => by
      rw [result] at e
      cases e
    have next (n : Nat) := interpret_ok (idle_cleared (m := m') larger.hosts) ok' small n
    have joint := fits' i
    rw [whole, hn] at joint
    obtain ⟨further, ending⟩ := (underway.run hm hn abreast' large joint).onward seam rfl
      (reached ▸ Reachable.interpret k a reachable idle.frames stays)
      halves.first.upvalues halves.script ok' halves.second halves.near'
      (fun q hq => by rw [halves.far']; exact hq) halves.size small
    obtain ⟨⟨b', shared⟩, same⟩ := further.outcome ending n (by rw [← next]; exact fits n)
      (by rw [← run_add hn, ← whole]; exact fits' (i + n))
    have moved := Setting.extended_shift still c' r' q (f.chunk.code.size - 2) fun _ => True
    rw [halves.near', halves.shift'] at moved
    rw [next, whole, run_add hn]
    exact ⟨moved ▸ same, moved ▸ shared.resembles⟩
  · refine ⟨fun e => absurd e failed, fun _ => ⟨n₁, ?_, output⟩⟩
    rw [whole]
    exact hn

/-- The second source prints a sum with the global that the first one defines. -/
theorem interpret_joined_sum :
    let m := new .unlimited .still
    let a := "var x = \"a\";"
    let b := "print x + \"b\";"
    let m₁ := (m.interpret 4 a).2
    Interpreted m ∧ (m.interpret 4 a).1 = .finished ∧
    (compile a m.heap).result = .ok ⟨22⟩ ∧ (compile b m₁.heap).result = .ok ⟨25⟩ ∧
    (compile (joinLines a b) m.heap).result = .ok ⟨23⟩ ∧
    (∀ n, (m₁.interpret n b).2.heap.size ≤ UInt32.size) ∧
    (∀ n, (m.interpret n (joinLines a b)).2.heap.size ≤ UInt32.size) ∧
    ∃ c, ∀ n,
      SameEnd (movedBehind m₁.heap.size 1) (m₁.load b).2 (m₁.interpret n b).1
        (m.interpret (c + n) (joinLines a b)).1 ∧
      Resembles (movedBehind m₁.heap.size 1) (m₁.interpret n b).2
        (m.interpret (c + n) (joinLines a b)).2 := by
  intro m a b m₁
  have new : Interpreted m := .new _ _
  have first : (m.interpret 4 a).1 = .finished := by decide +kernel
  have ok : (compile a m.heap).result = .ok ⟨22⟩ := by decide +kernel
  have ok' : (compile b m₁.heap).result = .ok ⟨25⟩ := by decide +kernel
  have joined : (compile (joinLines a b) m.heap).result = .ok ⟨23⟩ := by decide +kernel
  have size : (m₁.interpret 6 b).2.heap.size = 28 := by decide +kernel
  have size' : (m.interpret 8 (joinLines a b)).2.heap.size = 26 := by decide +kernel
  have ended : (m₁.interpret 6 b).1 ≠ .running := by decide +kernel
  have ended' : (m.interpret 8 (joinLines a b)).1 ≠ .running := by decide +kernel
  have fits (n : Nat) : (m₁.interpret n b).2.heap.size ≤ UInt32.size := by
    have le := size_interpret_le (Larger.interpret new.hosts 4 a).hosts ended n
    rw [size] at le
    exact Nat.le_trans le (by decide)
  have fits' (n : Nat) : (m.interpret n (joinLines a b)).2.heap.size ≤ UInt32.size := by
    have le := size_interpret_le new.hosts ended' n
    rw [size'] at le
    exact Nat.le_trans le (by decide)
  have lines : lineCount a = 1 := by decide +kernel
  have same := (interpret_joined new (Prod.ext first rfl) nofun ok ok' joined fits fits').1 rfl
  rw [lines] at same
  exact ⟨new, first, ok, ok', joined, fits, fits', same⟩

end Machine
end StackScript
