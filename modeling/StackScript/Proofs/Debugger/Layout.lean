import StackScript.Debugger.Pane

/-!
# StackScript.Proofs.Debugger.Layout

Where the panes of the debugger are.

* `Pane.Within`, `Pane.Apart`: a pane lies on a terminal, and two panes have no place in common.
* `Layout.Exact`: nothing overflows when a layout is computed.
* `Layout.Fits`: the panes of a layout are on the terminal, do not overlap, and are drawn there.
* `layout_sound_iff`: the sizes for which that is so. A layout is computed in 16 bits, so three times
  the width and four times the height have to fit in 16 bits.
-/

namespace StackScript
namespace Debugger

namespace Pane

/-- A place of the terminal belongs to a pane. -/
def Covers (p : Pane) (x y : Nat) : Prop :=
  (p.x.toNat ≤ x ∧ x < p.x.toNat + p.width.toNat) ∧ p.y.toNat ≤ y ∧ y < p.y.toNat + p.height.toNat

instance (p : Pane) (x y : Nat) : Decidable (p.Covers x y) :=
  inferInstanceAs (Decidable (_ ∧ _))

structure Within (p : Pane) (width height : UInt16) : Prop where
  right : p.x.toNat + p.width.toNat ≤ width.toNat
  bottom : p.y.toNat + p.height.toNat ≤ height.toNat

def Apart (p q : Pane) : Prop := ∀ x y, p.Covers x y → ¬q.Covers x y

variable {p q : Pane} {width height : UInt16}

theorem apart_of_right (h : p.x.toNat + p.width.toNat ≤ q.x.toNat) : p.Apart q := by
  intro x y ⟨⟨_, _⟩, _⟩ ⟨⟨_, _⟩, _⟩
  omega

theorem apart_of_below (h : p.y.toNat + p.height.toNat ≤ q.y.toNat) : p.Apart q := by
  intro x y ⟨_, _, _⟩ ⟨_, _, _⟩
  omega

end Pane

end Debugger

theorem Text.length_fit (width : Nat) (text : String) : (Text.fit width text).length = width := by
  simp only [Text.fit, Text.padRight, String.length_append, String.length_ofList, List.length_take,
    List.length_replicate]
  omega

namespace Debugger

/-- The rows of a pane that lies on a terminal are drawn in the places that it takes. -/
theorem Pane.Within.drawn {p : Pane} {width height : UInt16} (within : p.Within width height)
    {rows : List String} {d : Drawing} (hd : d ∈ p.draw rows) :
    d.x = p.x.toNat ∧ d.text.length = p.width.toNat ∧ p.y.toNat ≤ d.y ∧
      d.y < p.y.toNat + p.height.toNat := by
  obtain ⟨i, hi, rfl⟩ := List.mem_map.1 hd
  have row : i < p.height.toNat := List.mem_range.1 hi
  have bottom := within.bottom
  have bound := height.toNat_lt
  have place : (p.y + i.toUInt16).toNat = p.y.toNat + i := by
    rw [UInt16.toNat_add, Nat.toUInt16, UInt16.toNat_ofNat', Nat.mod_eq_of_lt (a := i) (by omega),
      Nat.mod_eq_of_lt (by omega)]
  refine ⟨rfl, Text.length_fit _ _, ?_⟩
  dsimp only
  omega

namespace Layout

/-- Every number of a layout is what it would be if numbers had no limit. -/
structure Exact (l : Layout) (width height : Nat) : Prop where
  source : l.source.x.toNat = 0 ∧ l.source.y.toNat = 0 ∧ l.source.width.toNat = width / 2 ∧
    l.source.height.toNat = height * 4 / 5
  bytecode : l.bytecode.x.toNat = width / 2 ∧ l.bytecode.y.toNat = 0 ∧
    l.bytecode.width.toNat = width / 4 ∧ l.bytecode.height.toNat = height * 4 / 5
  stack : l.stack.x.toNat = width * 3 / 4 ∧ l.stack.y.toNat = 0 ∧
    l.stack.width.toNat = width / 4 ∧ l.stack.height.toNat = height / 2
  /-- The height of the output is a difference that is not negative. -/
  output : l.output.x.toNat = width * 3 / 4 ∧ l.output.y.toNat = height / 2 ∧
    l.output.width.toNat = width / 4 ∧ height / 2 + l.output.height.toNat = height * 4 / 5

def panes (l : Layout) : List Pane := [l.source, l.bytecode, l.stack, l.output]

/-- A layout fits a terminal: the panes are on it and have no place in common, and so do the rows that
are drawn in them. -/
structure Fits (l : Layout) (width height : UInt16) : Prop where
  within : ∀ p ∈ l.panes, p.Within width height
  apart : l.panes.Pairwise Pane.Apart
  drawn : ∀ p ∈ l.panes, ∀ rows, ∀ d ∈ p.draw rows,
    d.x + d.text.length ≤ width.toNat ∧ d.y < height.toNat

variable {width height : UInt16}

/-- Nothing overflows if three times the width and four times the height are numbers of 16 bits. -/
theorem exact_of (hw : width.toNat * 3 < UInt16.size) (hh : height.toNat * 4 < UInt16.size) :
    (Layout.of width height).Exact width.toNat height.toNat := by
  have half : (width / 2).toNat = width.toNat / 2 := UInt16.toNat_div _ _
  have quarter : (width / 4).toNat = width.toNat / 4 := UInt16.toNat_div _ _
  have threeQuarters : (width * 3 / 4).toNat = width.toNat * 3 / 4 := by
    rw [UInt16.toNat_div, UInt16.toNat_mul]
    exact congrArg (· / 4) (Nat.mod_eq_of_lt hw)
  have tall : (height * 4 / 5).toNat = height.toNat * 4 / 5 := by
    rw [UInt16.toNat_div, UInt16.toNat_mul]
    exact congrArg (· / 5) (Nat.mod_eq_of_lt hh)
  have middle : (height / 2).toNat = height.toNat / 2 := UInt16.toNat_div _ _
  have rest : (height * 4 / 5 - height / 2).toNat = height.toNat * 4 / 5 - height.toNat / 2 := by
    rw [UInt16.toNat_sub_of_le _ _ (UInt16.le_iff_toNat_le.2 (by omega)), tall, middle]
  refine ⟨⟨rfl, rfl, half, tall⟩, ⟨half, rfl, quarter, tall⟩, ⟨threeQuarters, rfl, quarter, middle⟩,
    threeQuarters, middle, quarter, ?_⟩
  rw [show (Layout.of width height).output.height.toNat = _ from rest]
  omega

/-- Exact fractions add up to no more than the whole. -/
theorem Exact.fits (e : (Layout.of width height).Exact width.toNat height.toNat) :
    (Layout.of width height).Fits width height := by
  generalize Layout.of width height = l at e
  obtain ⟨⟨sx, sy, sw, sh⟩, ⟨bx, by_, bw, bh⟩, ⟨tx, ty, tw, th⟩, ox, oy, ow, oh⟩ := e
  have within : ∀ p ∈ l.panes, p.Within width height := by
    simp only [panes, List.mem_cons, List.not_mem_nil, or_false, forall_eq_or_imp, forall_eq]
    refine ⟨⟨?_, ?_⟩, ⟨?_, ?_⟩, ⟨?_, ?_⟩, ⟨?_, ?_⟩⟩ <;> omega
  refine ⟨within, ?_, fun p hp rows d hd => ?_⟩
  · simp only [panes, List.pairwise_cons, List.mem_cons, List.not_mem_nil, or_false,
      forall_eq_or_imp, forall_eq, List.Pairwise.nil, and_true, false_implies, implies_true]
    refine ⟨⟨?_, ?_, ?_⟩, ⟨?_, ?_⟩, ?_⟩
    · exact Pane.apart_of_right (by omega)
    · exact Pane.apart_of_right (by omega)
    · exact Pane.apart_of_right (by omega)
    · exact Pane.apart_of_right (by omega)
    · exact Pane.apart_of_right (by omega)
    · exact Pane.apart_of_below (by omega)
  · obtain ⟨right, bottom⟩ := within p hp
    obtain ⟨x, length, _, y⟩ := (within p hp).drawn hd
    omega

/-- With a greater width or height a number overflows that another one shows: three quarters of the
width come out too small, or four fifths of the height do. -/
theorem Exact.bounds (e : (Layout.of width height).Exact width.toNat height.toNat) :
    width.toNat * 3 < UInt16.size ∧ height.toNat * 4 < UInt16.size := by
  have x : (width * 3 / 4).toNat = width.toNat * 3 / 4 := e.stack.1
  have tall : (height * 4 / 5).toNat = height.toNat * 4 / 5 := e.source.2.2.2
  have narrow := (width * 3).toNat_lt
  have short := (height * 4).toNat_lt
  rw [UInt16.toNat_div] at x tall
  have modulo : (width * 3).toNat = width.toNat * 3 % 2 ^ 16 := UInt16.toNat_mul _ _
  have modulo' : (height * 4).toNat = height.toNat * 4 % 2 ^ 16 := UInt16.toNat_mul _ _
  have three : (4 : UInt16).toNat = 4 := rfl
  have five : (5 : UInt16).toNat = 5 := rfl
  rw [three] at x
  rw [five] at tall
  unfold UInt16.size
  omega

end Layout

/-- A layout is computed without an overflow, and then fits its terminal, exactly for widths up to
21845 and heights up to 16383. -/
theorem layout_sound_iff (width height : UInt16) :
    ((Layout.of width height).Exact width.toNat height.toNat ∧
      (Layout.of width height).Fits width height) ↔
    width.toNat ≤ 21845 ∧ height.toNat ≤ 16383 := by
  constructor
  · intro ⟨e, _⟩
    obtain ⟨hw, hh⟩ := e.bounds
    unfold UInt16.size at hw hh
    omega
  · intro ⟨hw, hh⟩
    have e : (Layout.of width height).Exact width.toNat height.toNat :=
      Layout.exact_of (by unfold UInt16.size; omega) (by unfold UInt16.size; omega)
    exact ⟨e, e.fits⟩

/-- Three times this width do not fit in 16 bits, and the stack is drawn over the source. -/
theorem layout_overlaps :
    ¬((Layout.of 21846 2).Exact 21846 2 ∧ (Layout.of 21846 2).Fits 21846 2) := by
  intro ⟨_, fits⟩
  have apart := fits.apart
  have disjoint : Pane.Apart (Layout.of 21846 2).source (Layout.of 21846 2).stack :=
    (List.pairwise_cons.1 apart).1 _ (by simp)
  exact disjoint 0 0 (by decide) (by decide)

end Debugger
end StackScript
