import Mathlib.Logic.ExistsUnique
import StackScript.Debugger.Pane

/-!
# StackScript.Proofs.Debugger.Source

The source pane of the debugger.

* `lineRow`: what a pane shows of a source line; nothing behind the last one.
* `Drawing.Marked`: a row is marked as the current line.
* `source_pane_rows`: the rows of the pane are consecutive lines. The current one is among them, and
  the only one that is marked, if the pane has two rows at least; a single row shows the next line.
-/

namespace StackScript
namespace Debugger

/-- The row of the source line with an index, a blank one behind the last line. -/
def lineRow (source : String) (current index : Nat) : String :=
  match (Text.lines source)[index]? with
  | some text => sourceRow current (index + 1) text
  | none => ""

def Drawing.Marked (d : Drawing) : Prop := d.text.toList.head? = some '>'

instance (d : Drawing) : Decidable d.Marked := inferInstanceAs (Decidable (_ = _))

section Rows

variable (source : String) (current height i : Nat)

theorem getD_sourceRows : (sourceRows source (some current) height)[i]?.getD "" =
    lineRow source current (current - height / 2 + i) := by
  unfold sourceRows lineRow
  rw [Option.getD_some, List.getElem?_map, List.getElem?_drop, List.getElem?_zipIdx]
  cases (Text.lines source)[current - height / 2 + i]? with
  | none => rfl
  | some text => simp

/-- The first character of a row that is cut or padded. -/
theorem head?_fit {width : Nat} (h : 0 < width) (row : String) :
    (Text.fit width row).toList.head? = some (row.toList.head?.getD ' ') := by
  obtain ⟨width, rfl⟩ := Nat.exists_eq_succ_of_ne_zero (Nat.ne_of_gt h)
  unfold Text.fit Text.padRight
  cases e : row.toList with
  | nil => simp [List.replicate_succ]
  | cons c cs => simp

theorem head?_lineRow : (lineRow source current i).toList.head?.getD ' ' = '>' ↔
    i + 1 = current ∧ i < (Text.lines source).length := by
  unfold lineRow
  cases h : (Text.lines source)[i]? with
  | none =>
    have := List.getElem?_eq_none_iff.1 h
    simp
    omega
  | some text =>
    have := (List.getElem?_eq_some_iff.1 h).1
    by_cases e : i + 1 = current
    · simp [sourceRow, e, this]
    · simp [sourceRow, e]

end Rows

variable {source : String} {current : Nat} {p : Pane}

theorem length_draw (rows : List String) : (p.draw rows).length = p.height.toNat := by
  rw [Pane.draw, List.length_map, List.length_range]

theorem getElem?_draw {rows : List String} {i : Nat} {d : Drawing} (h : (p.draw rows)[i]? = some d) :
    i < p.height.toNat ∧ d.text = Text.fit p.width.toNat (rows[i]?.getD "") := by
  unfold Pane.draw at h
  rw [List.getElem?_map] at h
  obtain ⟨j, hj, rfl⟩ := Option.map_eq_some_iff.1 h
  obtain ⟨lt, rfl⟩ := List.getElem?_eq_some_iff.1 hj
  rw [List.length_range] at lt
  rw [List.getElem_range]
  exact ⟨lt, rfl⟩

/-- The rows of the source pane, before they are cut to its width, are consecutive source lines with
their numbers, and blank rows behind the last line. A row is marked exactly if it shows the current
line. There is one such row and only one, unless the pane has a single row. -/
theorem source_pane_rows (first : 1 ≤ current) (last : current ≤ (Text.lines source).length)
    (wide : 1 ≤ p.width.toNat) (tall : 1 ≤ p.height.toNat) :
    ∃ skipped,
      (∀ i < p.height.toNat, (sourceRows source (some current) p.height.toNat)[i]?.getD "" =
        lineRow source current (skipped + i)) ∧
      (∀ (i : Nat) (d : Drawing),
        (p.draw (sourceRows source (some current) p.height.toNat))[i]? = some d →
        d.text = Text.fit p.width.toNat (lineRow source current (skipped + i)) ∧
        (d.Marked ↔ skipped + i + 1 = current)) ∧
      ((∃! i : Nat, ∃ d : Drawing,
        (p.draw (sourceRows source (some current) p.height.toNat))[i]? = some d ∧ d.Marked) ↔
        2 ≤ p.height.toNat) := by
  have row (i : Nat) := getD_sourceRows source current p.height.toNat i
  generalize sourceRows source (some current) p.height.toNat = rows at row ⊢
  have marked {i : Nat} {d : Drawing} (hd : (p.draw rows)[i]? = some d) :
      d.Marked ↔ current - p.height.toNat / 2 + i + 1 = current := by
    rw [Drawing.Marked, (getElem?_draw hd).2, row, head?_fit wide, Option.some_inj, head?_lineRow]
    omega
  refine ⟨current - p.height.toNat / 2, fun i _ => row i, fun i d hd => ⟨?_, marked hd⟩, ?_⟩
  · rw [(getElem?_draw hd).2, row]
  constructor
  · intro ⟨i, ⟨d, hd, m⟩, _⟩
    have := (getElem?_draw hd).1
    have := (marked hd).1 m
    omega
  · intro two
    -- the row in which the current line is
    have lt : current - 1 - (current - p.height.toNat / 2) < (p.draw rows).length := by
      rw [length_draw]
      omega
    have found := List.getElem?_eq_getElem lt
    refine ⟨_, ⟨_, found, (marked found).2 (by omega)⟩, fun j ⟨d, hd, m⟩ => ?_⟩
    have := (marked hd).1 m
    omega

/-- The fourth of five lines in a pane of four rows, which begins with the third line. -/
theorem source_pane_rows_scrolled :
    (1 ≤ 4 ∧ 4 ≤ (Text.lines "a\nb\nc\nd\ne\n").length) ∧
    ∃ skipped, lineRow "a\nb\nc\nd\ne\n" 4 (skipped + 1) = ">   4 d" ∧
      ∃! i : Nat, ∃ d : Drawing,
        ((Layout.of 40 5).source.draw (sourceRows "a\nb\nc\nd\ne\n" (some 4) 4))[i]? = some d ∧
          d.Marked := by
  have last : 4 ≤ (Text.lines "a\nb\nc\nd\ne\n").length := by decide +kernel
  obtain ⟨skipped, rows, _, marked⟩ := source_pane_rows (p := (Layout.of 40 5).source)
    (by decide : 1 ≤ 4) last (by decide) (by decide)
  refine ⟨⟨by decide, last⟩, skipped, ?_, marked.2 (by decide)⟩
  rw [← rows 1 (by decide)]
  decide +kernel

/-- A pane with a single row shows the line behind the current one, which is not there in a source
with one line. -/
theorem source_line_hidden :
    (Layout.of 40 2).source.height = 1 ∧ 1 ≤ (Text.lines "print 1;").length ∧
    ¬∃ d ∈ (Layout.of 40 2).source.draw (sourceRows "print 1;" (some 1) 1), d.Marked := by
  decide +kernel

end Debugger
end StackScript
