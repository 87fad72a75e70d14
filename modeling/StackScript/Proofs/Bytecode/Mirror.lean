import StackScript.Proofs.Bytecode.Verify
import StackScript.Proofs.Store.Bridge

/-!
# StackScript.Proofs.Bytecode.Mirror

Code that does the same with another pool of constants.

* `Instruction.Alike`: instructions that differ in the index of a constant only.
* `Bridge.Functions`: the first octets of a function are, but for the indexes of constants, a part of
  another function, and their lines are moved down there.
* `Bridge.Functions.read?`, `Bridge.Functions.captures`: what is read from one function is read
  from the other one.
-/

namespace StackScript

namespace Instruction

/-- The index of the constant that an instruction refers to. -/
def constant? : Instruction → Option UInt8
  | .constant k | .getGlobal k | .defineGlobal k | .setGlobal k | .closure k => some k
  | _ => none

/-- Instructions that are the same, or that refer to constants that are related. -/
inductive Alike (K : UInt8 → UInt8 → Prop) : Instruction → Instruction → Prop where
  | constant {k l : UInt8} : K k l → Alike K (.constant k) (.constant l)
  | getGlobal {k l : UInt8} : K k l → Alike K (.getGlobal k) (.getGlobal l)
  | defineGlobal {k l : UInt8} : K k l → Alike K (.defineGlobal k) (.defineGlobal l)
  | setGlobal {k l : UInt8} : K k l → Alike K (.setGlobal k) (.setGlobal l)
  | closure {k l : UInt8} : K k l → Alike K (.closure k) (.closure l)
  | same {i : Instruction} : i.constant? = none → Alike K i i

variable {K L : UInt8 → UInt8 → Prop} {i j : Instruction} {is js : List Instruction}

theorem Alike.size (h : Alike K i j) : j.size = i.size := by
  cases h <;> rfl

theorem Alike.imp (hK : ∀ k l, K k l → L k l) (h : Alike K i j) : Alike L i j := by
  cases h with
  | constant hk => exact .constant (hK _ _ hk)
  | getGlobal hk => exact .getGlobal (hK _ _ hk)
  | defineGlobal hk => exact .defineGlobal (hK _ _ hk)
  | setGlobal hk => exact .setGlobal (hK _ _ hk)
  | closure hk => exact .closure (hK _ _ hk)
  | same hi => exact .same hi

theorem width_alike (h : List.Forall₂ (Alike K) is js) : width js = width is := by
  induction h with
  | nil => rfl
  | cons h _ ih => rw [width_cons, width_cons, h.size, ih]

/-- Captures are like themselves only. -/
theorem eq_of_alike_captures {cs : List Capture}
    (h : List.Forall₂ (Alike K) (cs.map .capture) js) : js = cs.map .capture := by
  induction cs generalizing js with
  | nil =>
    cases h
    rfl
  | cons c cs ih =>
    obtain ⟨j, js, hj, hs, rfl⟩ := List.forall₂_cons_left_iff.1 h
    cases hj
    rw [ih hs]
    rfl

/-- An instruction in front of a place is among those up to the place. -/
theorem split_of_width_lt {tail pre rest : List Instruction} (h : is ++ tail = pre ++ i :: rest)
    (hw : width pre < width is) : ∃ more, is = pre ++ i :: more ∧ rest = more ++ tail := by
  obtain ⟨us, rfl, -⟩ | ⟨us, rfl, e⟩ := List.append_eq_append_iff.1 h
  · rw [width_append] at hw
    omega
  · cases us with
    | nil => simp at hw
    | cons u us =>
      obtain ⟨rfl, rfl⟩ := List.cons.inj e
      exact ⟨us, rfl, rfl⟩

end Instruction

namespace Bridge

open Instruction

/-- The octets of `f` up to `limit` stand in `g` from `start` on, with their lines moved down by
`shift`. No closure goes over the limit. -/
structure Functions (b : Bridge) (shift start limit : Nat) (f g : Function) : Prop where
  name : b.Names f.name g.name
  arity : g.arity = f.arity
  upvalues : g.upvalueCount = f.upvalueCount
  code : ∃ is tail js : List Instruction, ∃ before behind : List UInt8,
    f.chunk.code.toList = stream (is ++ tail) ∧ (∀ c, .capture c ∉ tail) ∧ width is = limit ∧
    g.chunk.code.toList = before ++ (stream js ++ behind) ∧ before.length = start ∧
    List.Forall₂ (Alike (b.Constants f.chunk.constants g.chunk.constants)) is js
  lines : ∀ o < limit, g.chunk.line? (start + o) = (f.chunk.line? o).map (· + shift)

variable {b b' : Bridge} {shift start limit : Nat} {f g : Function}

namespace Functions

theorem mono (h : b.Functions shift start limit f g) (hb : b.Below b') :
    b'.Functions shift start limit f g := by
  obtain ⟨is, tail, js, before, behind, hf, ht, hl, hg, hs, alike⟩ := h.code
  exact ⟨hb.names h.name, h.arity, h.upvalues, ⟨is, tail, js, before, behind, hf, ht, hl, hg, hs,
    alike.imp fun _ _ => .imp fun _ _ => hb.constants (.refl _) (.refl _)⟩, h.lines⟩

/-- No instruction goes over the limit. -/
theorem within (h : b.Functions shift start limit f g) {pre is : List Instruction}
    {i : Instruction} (hf : f.chunk.code.toList = stream (pre ++ i :: is))
    (hl : width pre < limit) : width pre + i.size ≤ limit := by
  obtain ⟨ks, tail, -, -, -, code, -, rfl, -⟩ := h.code
  obtain ⟨more, rfl, -⟩ := split_of_width_lt (stream_injective (code.symm.trans hf)) hl
  rw [width_append, width_cons]
  omega

/-- What follows an instruction in one function, up to the limit, follows it in the other one. -/
theorem behind (h : b.Functions shift start limit f g) {pre is : List Instruction}
    {i : Instruction} (hf : f.chunk.code.toList = stream (pre ++ i :: is))
    (hl : width pre < limit) : ∃ more tail js j, ∃ before behind : List UInt8, is = more ++ tail ∧
      (∀ c, .capture c ∉ tail) ∧
      g.chunk.code.toList = before ++ (j.encode ++ (stream js ++ behind)) ∧
      before.length = start + width pre ∧
      Alike (b.Constants f.chunk.constants g.chunk.constants) i j ∧
      List.Forall₂ (Alike (b.Constants f.chunk.constants g.chunk.constants)) more js := by
  obtain ⟨ks, tail, js, before, behind, code, ht, rfl, hg, hs, alike⟩ := h.code
  obtain ⟨more, rfl, rfl⟩ := split_of_width_lt (stream_injective (code.symm.trans hf)) hl
  obtain ⟨js₁, js₂, rfl, alike₁, alike₂⟩ := forall₂_append_left alike
  obtain ⟨j, js₃, hj, alike₃, rfl⟩ := List.forall₂_cons_left_iff.1 alike₂
  refine ⟨more, tail, js₃, j, before ++ stream js₁, behind, rfl, ht, ?_, ?_, hj, alike₃⟩
  · rw [hg]
    simp
  · rw [List.length_append, length_stream, width_alike alike₁, hs]

theorem read? (h : b.Functions shift start limit f g) {pre is : List Instruction}
    {i : Instruction} (hf : f.chunk.code.toList = stream (pre ++ i :: is))
    (hl : width pre < limit) : ∃ j, g.chunk.read? (start + width pre) = some j ∧
      Alike (b.Constants f.chunk.constants g.chunk.constants) i j := by
  obtain ⟨_, _, _, j, before, _, _, _, hg, size, alike, _⟩ := h.behind hf hl
  exact ⟨j, size ▸ Chunk.read?_of_code before _ hg, alike⟩

/-- The captures of a closure stand behind it in both functions. -/
theorem captures (h : b.Functions shift start limit f g) {pre is : List Instruction}
    {k : UInt8} {cs : List Capture}
    (hf : f.chunk.code.toList = stream (pre ++ .closure k :: (cs.map .capture ++ is)))
    (hl : width pre < limit) : ∃ l, ∃ before behind : List UInt8,
      g.chunk.code.toList =
        before ++ ((Instruction.closure l).encode ++ (stream (cs.map .capture) ++ behind)) ∧
      before.length = start + width pre ∧
      b.Constants f.chunk.constants g.chunk.constants k l := by
  obtain ⟨more, tail, js, j, before, behind, e, ht, hg, size, alike, alikes⟩ := h.behind hf hl
  have inside : ∃ us, more = cs.map .capture ++ us := by
    obtain ⟨us, rfl, -⟩ | ⟨us, hc, rfl⟩ := List.append_eq_append_iff.1 e
    · exact ⟨us, rfl⟩
    · cases us with
      | nil => exact ⟨[], by simp [hc]⟩
      | cons u us =>
        have hu : u ∈ cs.map Instruction.capture := by simp [hc]
        obtain ⟨c, -, rfl⟩ := List.mem_map.1 hu
        exact absurd (by simp) (ht c)
  obtain ⟨us, rfl⟩ := inside
  obtain ⟨js₁, js₂, rfl, alike₁, -⟩ := forall₂_append_left alikes
  obtain rfl := eq_of_alike_captures alike₁
  cases alike with
  | closure hk => exact ⟨_, before, stream js₂ ++ behind, by rw [hg]; simp, size, hk⟩
  | same hc => cases hc

end Functions
end Bridge
end StackScript
