import Mathlib.Data.List.Induction
import StackScript.Bytecode.Listing
import StackScript.Proofs.Bytecode.Sweep

/-!
# StackScript.Proofs.Bytecode.Listed

Which offsets the listing of a chunk visits.

* `Chunk.Visits`: the walk of the listing as a loop without a bound.
* `Chunk.Listed`: the listing has a line for each offset of the walk, and the octets between one
  offset and the next make up the whole code. Every chunk has one, whatever its octets are.
* `Chunk.Written`: how code comes about, and the instructions that were written.
* `Written.visits`: the listing visits the offsets at which they were written.
-/

namespace StackScript
namespace Chunk

open Instruction

variable {c : Chunk} {h : Heap} {o : Nat} {os : List Nat}

theorem next_of_read? {i : Instruction} (read : c.read? o = some i) :
    (c.listInstruction h o).2 = o + i.size := by
  rw [listInstruction, read]

theorem next_of_unread (read : c.read? o = none) : (c.listInstruction h o).2 = o + 1 := by
  rw [listInstruction, read]

theorem lt_next (c : Chunk) (h : Heap) (o : Nat) : o < (c.listInstruction h o).2 := by
  cases read : c.read? o with
  | none =>
    rw [next_of_unread read]
    exact Nat.lt_succ_self o
  | some i =>
    have size := i.size_pos
    rw [next_of_read? read]
    omega

theorem next_le (inside : o < c.code.size) : (c.listInstruction h o).2 ≤ c.code.size := by
  cases read : c.read? o with
  | none =>
    rw [next_of_unread read]
    exact inside
  | some i =>
    rw [next_of_read? read]
    exact read?_fits read

/-- The offsets that the listing visits from an offset on. -/
inductive Visits (c : Chunk) (h : Heap) : Nat → List Nat → Prop where
  | done {o : Nat} (past : c.code.size ≤ o) : Visits c h o []
  | next {o : Nat} {os : List Nat} (inside : o < c.code.size)
      (rest : Visits c h (c.listInstruction h o).2 os) : Visits c h o (o :: os)

/-- The walk ends, and the listing has a line for each offset of it if it may have enough lines. -/
theorem exists_visits (c : Chunk) (h : Heap) : ∀ {count o : Nat}, c.code.size ≤ o + count →
    ∃ os, Visits c h o os ∧ c.listFrom h count o = os.map fun o => (c.listInstruction h o).1 := by
  intro count
  induction count with
  | zero => exact fun past => ⟨[], .done past, rfl⟩
  | succ count ih =>
    intro o enough
    by_cases inside : o < c.code.size
    · have further := lt_next c h o
      obtain ⟨os, rest, lines⟩ := ih (o := (c.listInstruction h o).2) (by omega)
      refine ⟨o :: os, .next inside rest, ?_⟩
      rw [listFrom, if_pos inside, List.map_cons, ← lines]
    · exact ⟨[], .done (Nat.le_of_not_lt inside), by rw [listFrom, if_neg inside]; rfl⟩

namespace Visits

theorem unique {os' : List Nat} (v : Visits c h o os) (v' : Visits c h o os') : os = os' := by
  induction v generalizing os' with
  | done past =>
    cases v' with
    | done => rfl
    | next inside => exact absurd inside (Nat.not_lt.2 past)
  | next inside _ ih =>
    cases v' with
    | done past => exact absurd inside (Nat.not_lt.2 past)
    | next _ rest => rw [ih rest]

theorem bounds (v : Visits c h o os) : ∀ x ∈ os, o ≤ x ∧ x < c.code.size := by
  induction v with
  | done => exact nofun
  | @next o os inside _ ih =>
    have further := lt_next c h o
    refine List.forall_mem_cons.2 ⟨⟨Nat.le_refl o, inside⟩, fun x hx => ?_⟩
    obtain ⟨le, lt⟩ := ih x hx
    exact ⟨by omega, lt⟩

/-- An offset is not in front of where the listing goes on behind an earlier one. -/
theorem apart (v : Visits c h o os) : os.Pairwise fun x y => (c.listInstruction h x).2 ≤ y := by
  induction v with
  | done => exact .nil
  | next inside rest ih => exact .cons (fun y hy => (rest.bounds y hy).1) ih

theorem covers (v : Visits c h o os) {b : Nat} (le : o ≤ b) (lt : b < c.code.size) :
    ∃ x ∈ os, x ≤ b ∧ b < (c.listInstruction h x).2 := by
  induction v with
  | done past => omega
  | @next o os inside _ ih =>
    by_cases here : b < (c.listInstruction h o).2
    · exact ⟨o, List.mem_cons_self, le, here⟩
    · obtain ⟨x, hx, found⟩ := ih (Nat.le_of_not_lt here)
      exact ⟨x, List.mem_cons_of_mem _ hx, found⟩

/-- Of two different offsets one is behind the octets of the other. -/
theorem once (v : Visits c h o os) {b x y : Nat} (hx : x ∈ os) (hy : y ∈ os)
    (at_x : x ≤ b ∧ b < (c.listInstruction h x).2) (at_y : y ≤ b ∧ b < (c.listInstruction h y).2) :
    x = y := by
  induction v with
  | done => cases hx
  | next _ rest ih =>
    obtain rfl | hx' := List.mem_cons.1 hx <;> obtain rfl | hy' := List.mem_cons.1 hy
    · rfl
    · have := (rest.bounds y hy').1
      omega
    · have := (rest.bounds x hx').1
      omega
    · exact ih hx' hy'

end Visits

/-- The listing of a chunk is one line for each of some offsets, which increase. Every octet is
listed once: it is behind exactly one of the offsets and in front of where the listing goes on. -/
structure Listed (c : Chunk) (name : String) (h : Heap) (offsets : List Nat) : Prop where
  visits : c.Visits h 0 offsets
  text : c.listing name h = "== " ++ name ++ " ==\n" ++
    String.join (offsets.map fun o => (c.listInstruction h o).1 ++ "\n")
  increases : offsets.Pairwise (· < ·)
  inside : ∀ o ∈ offsets, (c.listInstruction h o).2 ≤ c.code.size
  covers : ∀ b < c.code.size, ∃ o ∈ offsets, (o ≤ b ∧ b < (c.listInstruction h o).2) ∧
    ∀ o' ∈ offsets, o' ≤ b → b < (c.listInstruction h o').2 → o' = o

theorem Visits.listed {name : String} (v : c.Visits h 0 os) : c.Listed name h os where
  visits := v
  text := by
    obtain ⟨os', v', lines⟩ := exists_visits c h (Nat.le_add_left c.code.size 0)
    rw [listing, lines, v.unique v', List.map_map]
    rfl
  increases := v.apart.imp fun {x y} le => Nat.lt_of_lt_of_le (lt_next c h x) le
  inside := fun o ho => next_le (v.bounds o ho).2
  covers := by
    intro b hb
    obtain ⟨o, ho, le, lt⟩ := v.covers (Nat.zero_le b) hb
    exact ⟨o, ho, ⟨le, lt⟩, fun o' ho' le' lt' => v.once ho' ho ⟨le', lt'⟩ ⟨le, lt⟩⟩

theorem exists_listed (c : Chunk) (name : String) (h : Heap) : ∃ offsets, c.Listed name h offsets := by
  obtain ⟨os, v, -⟩ := exists_visits c h (Nat.le_add_left c.code.size 0)
  exact ⟨os, v.listed⟩

/-- The offsets of the instructions of a list that stands at an offset. -/
def starts : Nat → List Instruction → List Nat
  | _, [] => []
  | o, i :: is => o :: starts (o + i.size) is

theorem mem_starts {is : List Instruction} {t : Nat} :
    t ∈ starts o is ↔ ∃ pre i post, is = pre ++ i :: post ∧ t = o + width pre := by
  induction is generalizing o with
  | nil => simp [starts]
  | cons i is ih =>
    rw [starts, List.mem_cons, ih]
    constructor
    · rintro (rfl | ⟨pre, j, post, rfl, rfl⟩)
      · exact ⟨[], i, is, rfl, rfl⟩
      · exact ⟨i :: pre, j, post, rfl, by rw [width_cons, Nat.add_assoc]⟩
    · rintro ⟨pre, j, post, e, rfl⟩
      cases pre with
      | nil => exact .inl rfl
      | cons k pre =>
        obtain ⟨rfl, rfl⟩ := List.cons.inj e
        exact .inr ⟨pre, j, post, rfl, by rw [width_cons, Nat.add_assoc]⟩

/-- The listing visits the instructions that the code is made of. -/
theorem visits_starts {is : List Instruction} (code : c.code.toList.drop o = stream is) :
    c.Visits h o (starts o is) := by
  induction is generalizing o with
  | nil =>
    refine .done ?_
    rw [← Array.length_toList]
    exact List.drop_eq_nil_iff.1 code
  | cons i is ih =>
    have read : c.read? o = some i := by rw [read?_eq, code, stream_cons, decode?_encode]
    have size := i.size_pos
    have fits := read?_fits read
    refine .next (by omega) ?_
    rw [next_of_read? read]
    refine ih ?_
    rw [← List.drop_drop, code, stream_cons, ← length_encode, List.drop_left]

/-- How the code of a chunk comes about, and the instructions that are written, in order. -/
inductive Written : Chunk → List Instruction → Prop where
  | new : Written .empty []
  | emit {c : Chunk} {is : List Instruction} (w : Written c is) (i : Instruction) (line : Nat) :
    Written (c.emit i line) (is ++ [i])
  /-- a jump gets its distance -/
  | land {c : Chunk} {pre post : List Instruction} {jump : UInt16 → Instruction} {d : UInt16}
      (w : Written c (pre ++ jump d :: post)) (isJump : IsJump jump) (d' : UInt16) :
    Written (c.setDistance (width pre) d') (pre ++ jump d' :: post)
  /-- what is not code changes -/
  | other {c c' : Chunk} {is : List Instruction} (w : Written c is) (same : c'.code = c.code) :
    Written c' is

namespace Written

variable {is : List Instruction}

theorem code (w : c.Written is) : c.code.toList = stream is := by
  induction w with
  | new => rfl
  | emit _ i line ih => simp [Chunk.emit, ih]
  | @land c pre post jump d _ isJump d' ih =>
    rw [stream_append, stream_cons] at ih ⊢
    rw [← length_stream]
    exact code_setDistance isJump d' ih
  | other _ same ih => rw [same, ih]

theorem of_code (code : c.code.toList = stream is) : c.Written is := by
  induction is using List.reverseRecOn generalizing c with
  | nil =>
    refine .other .new (Array.toList_inj.1 ?_)
    rw [code]
    rfl
  | append_singleton is i ih =>
    have before : Written ⟨(stream is).toArray, #[], #[]⟩ is := ih (by simp)
    refine .other (before.emit i 0) (Array.toList_inj.1 ?_)
    rw [code]
    simp [Chunk.emit]

theorem visits (w : c.Written is) : c.Visits h 0 (starts 0 is) :=
  visits_starts w.code

end Written
end Chunk
end StackScript
