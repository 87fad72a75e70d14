import Mathlib.Data.List.Chain
import StackScript.Proofs.Bytecode.Verify
import StackScript.Proofs.Compile.Echo

/-!
# StackScript.Proofs.Compile.Marks

The lines of a chunk, told by the instructions that were emitted.

* `Mark`: an instruction with the line it was emitted for.
* `Chunk.Marked`: the code of a chunk are some marked instructions, and every octet has the line of
  its instruction. Lines never decrease, and a capture has the line of the instruction in front.
* `Chunk.Marked.line?_instruction`, `Chunk.Marked.line?_capture`, `Chunk.Marked.line?_le`: what this
  says about the octets.
-/

namespace StackScript

open Compile (IsForward JumpAt)
open Instruction (stream width width_append width_cons width_nil)

structure Mark where
  instruction : Instruction
  line : Nat

namespace Mark

def code (ms : List Mark) : List Instruction := ms.map Mark.instruction

/-- The line of each octet. -/
def lines (ms : List Mark) : List Nat :=
  ms.flatMap fun m => List.replicate m.instruction.size m.line

/-- A capture has the line of what is in front of it. -/
def Joins (m n : Mark) : Prop := (∃ c, n.instruction = .capture c) → n.line = m.line

@[simp] theorem code_append (ms ns : List Mark) : code (ms ++ ns) = code ms ++ code ns :=
  List.map_append

@[simp] theorem lines_append (ms ns : List Mark) : lines (ms ++ ns) = lines ms ++ lines ns :=
  List.flatMap_append

@[simp] theorem code_cons (m : Mark) (ms : List Mark) : code (m :: ms) = m.instruction :: code ms :=
  rfl

@[simp] theorem lines_cons (m : Mark) (ms : List Mark) :
    lines (m :: ms) = List.replicate m.instruction.size m.line ++ lines ms :=
  rfl

@[simp] theorem length_lines (ms : List Mark) : (lines ms).length = width (code ms) := by
  induction ms with
  | nil => rfl
  | cons m ms ih => simp [ih]

/-- Marks are split where their code is. -/
theorem split {ms : List Mark} {pre post : List Instruction} {i : Instruction}
    (e : code ms = pre ++ i :: post) :
    ∃ before line behind, ms = before ++ ⟨i, line⟩ :: behind ∧ code before = pre ∧
      code behind = post := by
  obtain ⟨before, rest, rfl, hb, hr⟩ := List.map_eq_append_iff.1 e
  obtain ⟨m, behind, rfl, hi, hp⟩ := List.map_eq_cons_iff.1 hr
  exact ⟨before, m.line, behind, by rw [← hi], hb, hp⟩

end Mark

namespace Chunk

open Mark

structure Marked (c : Chunk) (ms : List Mark) : Prop where
  code : c.code.toList = stream (Mark.code ms)
  lines : c.lines.toList = Mark.lines ms
  inOrder : (ms.map Mark.line).Pairwise (· ≤ ·)
  joined : ms.IsChain Joins

variable {c : Chunk} {ms : List Mark}

theorem marked_empty : Chunk.empty.Marked [] := ⟨rfl, rfl, .nil, .nil⟩

namespace Marked

theorem full (h : c.Marked ms) : c.lines.size = c.code.size := by
  rw [← Array.length_toList, ← Array.length_toList, h.lines, h.code, length_lines,
    Instruction.length_stream]

theorem emit (h : c.Marked ms) {i : Instruction} {line : Nat} (after : ∀ m ∈ ms, m.line ≤ line)
    (joins : ∀ m ∈ ms.getLast?, Joins m ⟨i, line⟩) :
    (c.emit i line).Marked (ms ++ [⟨i, line⟩]) := by
  refine ⟨?_, ?_, ?_, ?_⟩
  · rw [Echo.code_emit, h.code]
    simp [Mark.code]
  · rw [Echo.lines_emit h.full, h.lines]
    simp [Mark.lines]
  · rw [List.map_append]
    refine List.pairwise_append.2 ⟨h.inOrder, List.pairwise_singleton .., fun l hl l' hl' => ?_⟩
    obtain ⟨m, hm, rfl⟩ := List.mem_map.1 hl
    rw [List.mem_singleton.1 hl']
    exact after m hm
  · exact h.joined.append (.singleton _) (by simpa using joins)

/-- A jump that has its distance stands where it stood, with the same line. -/
theorem setDistance (h : c.Marked ms) {offset : Nat} (jump : JumpAt (Mark.code ms) offset)
    (d : UInt16) : ∃ ms', (c.setDistance offset d).Marked ms' ∧
      ms'.map Mark.line = ms.map Mark.line ∧
      ∀ o, JumpAt (Mark.code ms) o → JumpAt (Mark.code ms') o := by
  obtain ⟨pre, jump, d₀, post, forward, e, rfl⟩ := jump
  obtain ⟨before, line, behind, rfl, rfl, rfl⟩ := Mark.split e
  have code : c.code.toList =
      stream (Mark.code before) ++ ((jump d₀).encode ++ stream (Mark.code behind)) := by
    rw [h.code]
    simp
  have placed := Chunk.code_setDistance forward.isJump d code
  rw [Instruction.length_stream] at placed
  refine ⟨before ++ ⟨jump d, line⟩ :: behind, ⟨?_, ?_, ?_, ?_⟩, ?_, fun o ho => ?_⟩
  · rw [placed]
    simp
  · show c.lines.toList = _
    rw [h.lines]
    simp [forward.size]
  · simpa using h.inOrder
  · obtain ⟨joined, joined', -⟩ := List.isChain_append.1 h.joined
    obtain ⟨next, rest⟩ := List.isChain_cons.1 joined'
    refine List.isChain_append.2 ⟨joined, List.isChain_cons.2 ⟨next, rest⟩, ?_⟩
    rintro m - n hn ⟨x, hx⟩
    cases hn
    obtain rfl | rfl := forward <;> cases hx
  · simp
  · simp only [code_append, code_cons] at ho ⊢
    exact ho.replace forward d

/-- The line of the last octet is that of the last instruction. -/
theorem back? {m : Mark} (h : c.Marked (ms ++ [m])) : c.lines.back? = some m.line := by
  have size := m.instruction.size_pos
  rw [← Array.getLast?_toList, h.lines, lines_append, lines_cons, List.getLast?_append]
  have last :
      (List.replicate m.instruction.size m.line ++ Mark.lines []).getLast? = some m.line := by
    rw [Mark.lines, List.flatMap_nil, List.append_nil, List.getLast?_replicate,
      if_neg (by omega)]
  rw [last, Option.some_or]

section Octets

variable {pre post : List Instruction} {i : Instruction}

/-- All octets of an instruction have its line. -/
theorem line?_mark {before behind : List Mark} {line : Nat}
    (h : c.Marked (before ++ ⟨i, line⟩ :: behind)) {j : Nat} (hj : j < i.size) :
    c.line? (width (Mark.code before) + j) = some line := by
  have octets := h.lines
  rw [lines_append, lines_cons] at octets
  rw [Chunk.line?, ← Array.getElem?_toList, octets, ← length_lines,
    List.getElem?_append_right (Nat.le_add_right ..), Nat.add_sub_cancel_left,
    List.getElem?_append_left (by simpa using hj), List.getElem?_replicate, if_pos hj]

theorem line?_instruction (h : c.Marked ms) (code : c.code.toList = stream (pre ++ i :: post)) :
    ∃ line, ∀ j < i.size, c.line? (width pre + j) = some line := by
  have e : Mark.code ms = pre ++ i :: post := Instruction.stream_injective (h.code.symm.trans code)
  obtain ⟨before, line, behind, rfl, rfl, -⟩ := Mark.split e
  exact ⟨line, fun j hj => h.line?_mark hj⟩

/-- A capture has the line of the octet in front of it. -/
theorem line?_capture (h : c.Marked ms) {x : Capture}
    (code : c.code.toList = stream (pre ++ .capture x :: post)) (ne : pre ≠ []) :
    c.line? (width pre + 2) = c.line? (width pre - 1) := by
  have e : Mark.code ms = pre ++ .capture x :: post :=
    Instruction.stream_injective (h.code.symm.trans code)
  obtain ⟨before, line, behind, rfl, rfl, -⟩ := Mark.split e
  obtain ⟨front, m, rfl⟩ : ∃ front m, before = front ++ [m] :=
    (List.eq_nil_or_concat' before).resolve_left fun e => ne (by rw [e]; rfl)
  obtain ⟨-, -, joins⟩ := List.isChain_append.1 h.joined
  have same : line = m.line := joins m (by simp) ⟨.capture x, line⟩ (by simp) ⟨x, rfl⟩
  have here := h.line?_mark (Nat.lt_succ_self 2)
  have size := m.instruction.size_pos
  have h' : c.Marked (front ++ ⟨m.instruction, m.line⟩ :: ⟨.capture x, line⟩ :: behind) := by
    simpa using h
  have front := h'.line?_mark (j := m.instruction.size - 1) (by omega)
  rw [here, same, ← front, code_append, code_cons, width_append, width_cons]
  congr 1
  simp only [Mark.code, List.map_nil, width_nil]
  omega

theorem sorted (h : c.Marked ms) : c.lines.toList.Pairwise (· ≤ ·) := by
  rw [h.lines]
  have inOrder := h.inOrder
  clear h
  induction ms with
  | nil => exact .nil
  | cons m ms ih =>
    obtain ⟨first, rest⟩ := List.pairwise_cons.1 inOrder
    refine List.pairwise_append.2 ⟨List.pairwise_replicate.2 (.inr (Nat.le_refl _)), ih rest, ?_⟩
    intro l hl l' hl'
    obtain ⟨n, hn, hl'⟩ := List.mem_flatMap.1 hl'
    rw [(List.mem_replicate.1 hl).2, (List.mem_replicate.1 hl').2]
    exact first n.line (List.mem_map_of_mem hn)

/-- Lines never decrease with the offset. -/
theorem line?_le (h : c.Marked ms) {o o' l l' : Nat} (le : o ≤ o') (hl : c.line? o = some l)
    (hl' : c.line? o' = some l') : l ≤ l' := by
  rw [Chunk.line?, ← Array.getElem?_toList] at hl hl'
  obtain ⟨inside, rfl⟩ := List.getElem?_eq_some_iff.1 hl
  obtain ⟨inside', rfl⟩ := List.getElem?_eq_some_iff.1 hl'
  obtain lt | rfl := Nat.lt_or_eq_of_le le
  · exact List.pairwise_iff_getElem.1 h.sorted o o' inside inside' lt
  · exact Nat.le_refl _

end Octets
end Marked
end Chunk
end StackScript
