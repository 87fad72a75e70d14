import Mathlib.Data.List.Forall2
import StackScript.Lexical.Scan

/-!
# StackScript.Proofs.Syntax.Joined

The tokens of two sources with a line break between them.

* `Token.Moved`: the same token some lines further down.
* `Lexical.scan_joined`: the tokens of the first source without its end, then those of the second
  one, moved down by the lines of the first.
-/

namespace StackScript

/-- A token that stands `k` lines below another one. -/
structure Token.Moved (k : Nat) (t u : Token) : Prop where
  kind : u.kind = t.kind
  lexeme : u.lexeme = t.lexeme
  line : u.line = t.line + k

theorem Token.Moved.refl (t : Token) : t.Moved 0 t := ⟨rfl, rfl, rfl⟩

/-- Two sources, one behind the other, with a line break between them. -/
def joinLines (a b : String) : String := a ++ "\n" ++ b

/-- How many lines a source adds in front of another one. -/
def lineCount (source : String) : Nat := source.toList.count '\n' + 1

namespace Position

theorem line_advance (text : List Char) : ∀ p : Position,
    (p.advance text).line = p.line + text.count '\n' := by
  induction text with
  | nil => exact fun p => rfl
  | cons c cs ih =>
    intro p
    have first : (p.advance (c :: cs)).line = (p.next c).line + cs.count '\n' := ih (p.next c)
    rw [first, List.count_cons, next]
    by_cases hc : c = '\n'
    · subst hc
      simp only [if_true, beq_self_eq_true]
      omega
    · simp [hc]

theorem advance_append (p : Position) (xs ys : List Char) :
    p.advance (xs ++ ys) = (p.advance xs).advance ys := List.foldl_append

end Position

namespace Lexical

section Seam

variable {cs ds : List Char}

/-- No class of characters that a token runs over has the line break in it. -/
theorem run_seam {p : Char → Bool} (hp : p '\n' = false) :
    run p (cs ++ '\n' :: ds) = run p cs := by
  unfold run
  rw [List.takeWhile_append]
  split
  next h => simp [hp, h]
  next => rfl

theorem run_le (p : Char → Bool) (cs : List Char) : run p cs ≤ cs.length :=
  (List.takeWhile_prefix p).length_le

theorem drop_seam {n : Nat} (h : n ≤ cs.length) :
    (cs ++ '\n' :: ds).drop n = cs.drop n ++ '\n' :: ds :=
  List.drop_append_of_le_length h

theorem numberTail_seam : numberTail (cs ++ '\n' :: ds) = numberTail cs := by
  unfold numberTail
  dsimp only
  rw [run_seam (by decide), drop_seam (run_le _ _)]
  generalize cs.drop (run isDigit cs) = es
  match es with
  | [] => rfl
  | [e] =>
    by_cases he : e = '.'
    · subst he
      rfl
    · simp [he]
  | e :: f :: fs =>
    by_cases he : e = '.'
    · subst he
      simp only [List.cons_append]
      rw [run_seam (by decide)]
    · simp [he]

theorem stringTail_seam : stringTail (cs ++ '\n' :: ds) = stringTail cs := by
  unfold stringTail
  dsimp only
  rw [run_seam (by decide), drop_seam (run_le _ _)]
  cases cs.drop (run (fun c => c != '"' && c != '\n') cs) with
  | nil => rfl
  | cons e es =>
    by_cases he : e = '"'
    · subst he
      rfl
    · simp [he]

theorem orEqual_seam (two one : Punctuation) :
    orEqual two one (cs ++ '\n' :: ds) = orEqual two one cs := by
  match cs with
  | [] => rfl
  | c :: cs =>
    by_cases hc : c = '='
    · subst hc
      rfl
    · simp [orEqual, hc]

theorem munch_seam (c : Char) : munch c (cs ++ '\n' :: ds) = munch c cs := by
  unfold munch
  rw [run_seam (by decide), numberTail_seam, stringTail_seam]
  simp only [orEqual_seam]
  rw [List.take_append_of_le_length (run_le _ _)]

theorem munch_le (c : Char) (cs : List Char) : (munch c cs).2 ≤ cs.length := by
  have number : numberTail cs ≤ cs.length := by
    unfold numberTail
    have := run_le isDigit cs
    dsimp only
    split
    next d ds h =>
      have whole := congrArg List.length h
      have fraction := run_le isDigit ds
      simp only [List.length_drop, List.length_cons] at whole
      split <;> omega
    next => exact this
  have string : (stringTail cs).2 ≤ cs.length := by
    unfold stringTail
    have := run_le (fun c => c != '"' && c != '\n') cs
    dsimp only
    split
    next ds h =>
      have whole := congrArg List.length h
      simp only [List.length_drop, List.length_cons] at whole
      dsimp only
      omega
    next => exact this
  have equal (two one : Punctuation) : (orEqual two one cs).2 ≤ cs.length := by
    unfold orEqual
    split <;> simp
  unfold munch
  split
  · exact run_le _ _
  · split
    · exact number
    · split <;> first | exact Nat.zero_le _ | exact equal _ _ | exact string

theorem layoutFrom_cons {c : Char} (h : ∀ es, c = '/' → cs = '/' :: es → False) :
    layoutFrom false (c :: cs) = if isBlank c then layoutFrom false cs + 1 else 0 := by
  rw [layoutFrom]
  exact h

theorem slashes_seam {c : Char} (h : ∀ es, c = '/' → cs = '/' :: es → False) (es : List Char)
    (hc : c = '/') (he : cs ++ '\n' :: ds = '/' :: es) : False := by
  cases cs with
  | nil =>
    obtain ⟨e, -⟩ := List.cons.inj he
    revert e
    decide
  | cons e es' =>
    obtain ⟨rfl, -⟩ := List.cons.inj he
    exact h es' hc rfl

/-- Layout ends in front of the line break, or goes on behind it. -/
theorem layoutFrom_seam (comment : Bool) (cs ds : List Char) :
    (layoutFrom comment cs < cs.length ∧
      layoutFrom comment (cs ++ '\n' :: ds) = layoutFrom comment cs) ∨
    (layoutFrom comment cs = cs.length ∧
      layoutFrom comment (cs ++ '\n' :: ds) = cs.length + 1 + layout ds) := by
  induction comment, cs using layoutFrom.induct with
  | case1 comment =>
    refine .inr ⟨by cases comment <;> rfl, ?_⟩
    cases comment with
    | true => simp [layoutFrom, layout]; omega
    | false =>
      have blank : isBlank '\n' = true := by decide
      simp [layoutFrom, layout, blank]; omega
  | case2 cs ih =>
    simp only [List.cons_append, layoutFrom, if_true, List.length_cons]
    omega
  | case3 c cs hc ih =>
    simp only [List.cons_append, layoutFrom, if_neg hc, List.length_cons]
    omega
  | case4 cs ih =>
    simp only [List.cons_append, layoutFrom, List.length_cons]
    omega
  | case5 c cs slashes blank ih =>
    rw [List.cons_append, layoutFrom_cons slashes, layoutFrom_cons (slashes_seam slashes),
      if_pos blank, if_pos blank, List.length_cons]
    omega
  | case6 c cs slashes blank =>
    rw [List.cons_append, layoutFrom_cons slashes, layoutFrom_cons (slashes_seam slashes),
      if_neg blank, if_neg blank, List.length_cons]
    exact .inl ⟨Nat.succ_pos _, rfl⟩

end Seam

section Scan

variable {cs : List Char} {p : Position}

theorem scanFrom_nil (h : cs.drop (layout cs) = []) :
    scanFrom cs p = [⟨.eof, "", p.advance (cs.take (layout cs))⟩] := by
  rw [scanFrom]
  split
  next => rfl
  next hc =>
    rw [h] at hc
    cases hc

theorem scanFrom_cons {c : Char} {rest : List Char} (h : cs.drop (layout cs) = c :: rest) :
    scanFrom cs p =
      ⟨(munch c rest).1, String.ofList (c :: rest.take (munch c rest).2),
        p.advance (cs.take (layout cs))⟩ ::
      scanFrom (rest.drop (munch c rest).2)
        ((p.advance (cs.take (layout cs))).advance (c :: rest.take (munch c rest).2)) := by
  rw [scanFrom]
  split
  next hc =>
    rw [h] at hc
    cases hc
  next c' rest' hc =>
    obtain ⟨rfl, rfl⟩ := List.cons.inj (hc.symm.trans h)
    rfl

theorem line_moved {k : Nat} {p q : Position} (h : q.line = p.line + k) (text : List Char) :
    (q.advance text).line = (p.advance text).line + k := by
  rw [Position.line_advance, Position.line_advance, h]
  omega

/-- The tokens of a text do not depend on where it stands, but for their places. -/
theorem scanFrom_moved {k : Nat} : ∀ {q : Position}, q.line = p.line + k →
    List.Forall₂ (Token.Moved k) (scanFrom cs p) (scanFrom cs q) := by
  induction cs, p using scanFrom.induct with
  | @case1 cs p skipped h =>
    intro q hq
    rw [scanFrom_nil h, scanFrom_nil h]
    exact .cons ⟨rfl, rfl, line_moved hq _⟩ .nil
  | @case2 cs p skipped start c rest h kind tail hm lexeme ih =>
    intro q hq
    rw [scanFrom_cons h, scanFrom_cons h, hm]
    exact .cons ⟨rfl, rfl, line_moved hq _⟩ (ih (line_moved (line_moved hq _) _))

/-- Behind a line break scanning goes on as it would from there. -/
theorem scanFrom_seam (cs ds : List Char) (p : Position) : ∃ us e, scanFrom cs p = us ++ [e] ∧ e.kind = .eof ∧
    scanFrom (cs ++ '\n' :: ds) p = us ++ scanFrom ds (p.advance (cs ++ ['\n'])) := by
  induction cs, p using scanFrom.induct with
  | case1 cs p skipped h =>
    have all : layout cs = cs.length ∧
        layout (cs ++ '\n' :: ds) = cs.length + 1 + layout ds := by
      obtain ⟨lt, -⟩ | more := layoutFrom_seam false cs ds
      · exact absurd (List.drop_eq_nil_iff.1 h) (Nat.not_le.2 lt)
      · exact more
    obtain ⟨all, more⟩ := all
    have skip : (cs ++ '\n' :: ds).drop (layout (cs ++ '\n' :: ds)) = ds.drop (layout ds) := by
      rw [more, List.append_cons, List.drop_append]
      simp
    have skipped : (cs ++ '\n' :: ds).take (layout (cs ++ '\n' :: ds)) =
        (cs ++ ['\n']) ++ ds.take (layout ds) := by
      rw [more, List.append_cons, List.take_append, List.take_of_length_le (by simp)]
      simp only [List.length_append, List.length_singleton, Nat.add_sub_cancel_left]
    refine ⟨[], _, scanFrom_nil h, rfl, ?_⟩
    cases hd : ds.drop (layout ds) with
    | nil =>
      rw [scanFrom_nil hd, scanFrom_nil (skip.trans hd), skipped, Position.advance_append]
      rfl
    | cons d rest =>
      rw [scanFrom_cons hd, scanFrom_cons (skip.trans hd), skipped, Position.advance_append]
      rfl
  | case2 cs p skipped start c rest h kind tail hm lexeme ih =>
    have front : layout cs < cs.length ∧ layout (cs ++ '\n' :: ds) = layout cs := by
      obtain more | ⟨all, -⟩ := layoutFrom_seam false cs ds
      · exact more
      · exact absurd (h.symm.trans (List.drop_eq_nil_iff.2 (Nat.le_of_eq all.symm))) (by simp)
    obtain ⟨lt, same⟩ := front
    have h' : (cs ++ '\n' :: ds).drop (layout (cs ++ '\n' :: ds)) = c :: (rest ++ '\n' :: ds) := by
      rw [same, drop_seam (Nat.le_of_lt lt), h]
      rfl
    have tail_le : tail ≤ rest.length := by
      have := munch_le c rest
      rwa [hm] at this
    obtain ⟨us, e, hus, he, more⟩ := ih
    have whole : cs.take (layout cs) ++ (c :: rest.take tail ++ (rest.drop tail ++ ['\n'])) =
        cs ++ ['\n'] := by
      rw [← List.append_assoc (c :: _), List.cons_append, List.take_append_drop, ← h,
        ← List.append_assoc, List.take_append_drop]
    rw [scanFrom_cons h, scanFrom_cons h', munch_seam, hm, same,
      List.take_append_of_le_length (Nat.le_of_lt lt)]
    dsimp only
    rw [List.take_append_of_le_length tail_le, drop_seam tail_le]
    refine ⟨_ :: us, e, congrArg _ hus, he, congrArg _ (more.trans ?_)⟩
    rw [← whole, ← Position.advance_append, ← Position.advance_append]
    rfl

end Scan

/-- The tokens of two sources with a line break between them are those of the first source without
its end, and those of the second one further down. -/
theorem scan_joined (a b : String) : ∃ us e vs, scan a = us ++ [e] ∧ e.kind = .eof ∧
    scan (joinLines a b) = us ++ vs ∧ List.Forall₂ (Token.Moved (lineCount a)) (scan b) vs := by
  obtain ⟨us, e, hus, he, more⟩ := scanFrom_seam a.toList b.toList .start
  refine ⟨us, e, _, hus, he, ?_, scanFrom_moved (p := .start) (q := Position.start.advance
    (a.toList ++ ['\n'])) ?_⟩
  · rw [← more, scan, joinLines]
    simp
  · rw [Position.line_advance, List.count_append]
    rfl

end Lexical
end StackScript
