import StackScript.Machine.Exec

/-!
# StackScript.Proofs.Machine.Printing

What `print` writes in pieces is what it writes as a whole.

* `Output.writeEach_eq`: whatever the pieces of a text are, and however much of it fits.
* `Heap.join_pieces`: the pieces of a value are those of its display.
* `printTop_eq`: `print` with the display as one text.
-/

namespace StackScript

namespace Heap

variable (h : Heap)

theorem join_intercalate (separator : String) (lists : List (List String)) :
    String.join ([separator].intercalate lists) = separator.intercalate (lists.map String.join) := by
  induction lists with
  | nil => rfl
  | cons pieces rest ih =>
    cases rest with
    | nil =>
      rw [List.intercalate_singleton]
      exact String.intercalate_singleton.symm
    | cons pieces' rest =>
      rw [List.intercalate_cons_cons, String.join_append, String.join_append, ih, List.map_cons,
        List.map_cons, List.map_cons, String.intercalate_cons_cons, String.join_cons,
        String.join_nil, String.append_empty]

theorem join_functionPieces (f : Function) :
    String.join (h.functionPieces f) = h.displayFunction f := by
  unfold functionPieces displayFunction
  cases f.name.bind h.string? with
  | none => rfl
  | some name => simp [String.join_cons, String.append_assoc]

theorem join_piecesUpTo (levels : Nat) (v : Value) :
    String.join (h.piecesUpTo levels v) = h.displayUpTo levels v := by
  induction levels using Nat.strongRecOn generalizing v with
  | ind levels ih =>
    fun_cases piecesUpTo h levels v with
    | case12 r xs hr levels =>
      have inner : (xs.toList.map (h.piecesUpTo levels)).map String.join =
          xs.toList.map (h.displayUpTo levels) := by
        rw [List.map_map]
        exact List.map_congr_left fun v _ => ih levels (Nat.lt_succ_self levels) v
      rw [String.join_append, String.join_cons, join_intercalate, inner, displayUpTo, hr]
      simp only [String.join_cons, String.join_nil, String.append_empty]
    | _ =>
      simp_all [displayUpTo, join_functionPieces, String.join_cons, String.append_assoc]

/-- The pieces that are written of a value are those of its display. -/
theorem join_pieces (v : Value) : String.join (h.pieces v) = h.display v :=
  h.join_piecesUpTo displayLevels v

end Heap

namespace Machine

theorem extract_of_le {a : ByteArray} {n : Nat} (h : a.size ≤ n) : a.extract 0 n = a := by
  rw [← Nat.max_eq_left h, ByteArray.extract_zero_max_size]

/-- The first octets of two parts, the first of which fits. -/
theorem extract_append_of_le {a b : ByteArray} {n : Nat} (h : a.size ≤ n) :
    (a ++ b).extract 0 n = a ++ b.extract 0 (n - a.size) := by
  rw [ByteArray.extract_append, extract_of_le h, Nat.zero_sub]

/-- The first octets of two parts, the first of which has enough. -/
theorem extract_append_of_ge {a b : ByteArray} {n : Nat} (h : n ≤ a.size) :
    (a ++ b).extract 0 n = a.extract 0 n := by
  rw [ByteArray.extract_append, Nat.sub_eq_zero_of_le h, Nat.zero_sub, ByteArray.extract_same,
    ByteArray.append_empty]

namespace Output

theorem write_append (o : Output) (s t : String) :
    o.write (s ++ t) = match o.write s with
      | (o, true) => o.write t
      | (o, false) => (o, false) := by
  obtain ⟨octets, room⟩ := o
  have parts : (s ++ t).toUTF8 = s.toUTF8 ++ t.toUTF8 := ByteArray.ext rfl
  cases room with
  | none => simp only [write, parts, ByteArray.append_assoc]
  | some room =>
    simp only [write, parts, ByteArray.size_append]
    by_cases first : s.toUTF8.size ≤ room
    · rw [if_pos first]
      by_cases both : s.toUTF8.size + t.toUTF8.size ≤ room
      · rw [if_pos both]
        simp only [if_pos (show t.toUTF8.size ≤ room - s.toUTF8.size by omega),
          ByteArray.append_assoc, Nat.sub_sub]
      · rw [if_neg both]
        simp only [if_neg (show ¬t.toUTF8.size ≤ room - s.toUTF8.size by omega),
          extract_append_of_le first, ByteArray.append_assoc]
    · rw [if_neg first, if_neg (show ¬s.toUTF8.size + t.toUTF8.size ≤ room by omega),
        extract_append_of_ge (by omega)]

theorem write_empty (o : Output) : o.write "" = (o, true) := by
  obtain ⟨octets, room⟩ := o
  cases room <;> simp [write]

/-- Pieces are written as the whole text is, whatever the pieces are. -/
theorem writeEach_eq (o : Output) (pieces : List String) :
    o.writeEach pieces = o.write (String.join pieces) := by
  induction pieces generalizing o with
  | nil => exact (String.join_nil ▸ o.write_empty).symm
  | cons text rest ih =>
    rw [writeEach, String.join_cons, write_append]
    obtain ⟨o', fits⟩ := o.write text
    cases fits with
    | true => exact ih o'
    | false => rfl

end Output

/-- What is printed is one text, the display of a value and the end of the line. -/
theorem printTop_eq : printTop = (do
    let v ← pop
    let fits ← modifyGet fun m =>
      let written := m.output.write (m.heap.display v ++ "\n")
      (written.2, { m with output := written.1 })
    unless fits do
      throw (.output .full)) := by
  unfold printTop
  congr
  funext v
  have whole (m : Machine) : m.output.writeEach (m.heap.pieces v ++ ["\n"]) =
      m.output.write (m.heap.display v ++ "\n") := by
    rw [Output.writeEach_eq, String.join_append, m.heap.join_pieces, String.join_cons,
      String.join_nil, String.append_empty]
  congr
  funext m
  exact congrArg (fun p : Output × Bool => (p.2, { m with output := p.1 })) (whole m)

end Machine
end StackScript
