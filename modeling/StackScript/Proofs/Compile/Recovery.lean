import StackScript.Proofs.Compile.Granted
import StackScript.Proofs.Compile.Order

/-!
# StackScript.Proofs.Compile.Recovery

What recovery leaves behind.

* `State.Notes`: what passing over tokens does to the errors and to `panicking`.
* `declaration_calm_iff`: a declaration ends calm exactly if its recovery passes over no fault of
  the source text.
-/

namespace StackScript
namespace Compile

/-- The error that a token is by itself, if it is a fault of the source text. -/
def Error.ofToken? (t : Token) : Option Error :=
  match t.kind with
  | .fault fault => some ⟨t, .lexical fault⟩
  | _ => none

theorem Error.ofToken?_eq_none {t : Token} : Error.ofToken? t = none ↔ t.Faultless := by
  unfold Error.ofToken? Token.Faultless
  split
  next fault hk => simp [hk]
  next other => simpa using other

/-- Of the faults among some tokens the first is recorded, unless the state is panicking already. -/
structure State.Notes (s : State) (ts : List Token) (s' : State) : Prop where
  errors : s'.errors.toList =
    s.errors.toList ++ if s.panicking then [] else (ts.findSome? Error.ofToken?).toList
  panicking : s'.panicking = (s.panicking || (ts.findSome? Error.ofToken?).isSome)

namespace State

variable {s s₁ s' : State} {ts us : List Token}

theorem Notes.trans (h : s.Notes ts s₁) (h' : s₁.Notes us s') : s.Notes (ts ++ us) s' := by
  obtain ⟨errors, panicking⟩ := h
  obtain ⟨errors', panicking'⟩ := h'
  rw [panicking] at panicking' errors'
  rw [errors] at errors'
  constructor
  · rw [errors', List.findSome?_append]
    cases s.panicking <;> cases ts.findSome? Error.ofToken? <;> simp
  · rw [panicking', List.findSome?_append]
    cases s.panicking <;> cases ts.findSome? Error.ofToken? <;> simp

/-- A fault of the source text is reported where it is found. -/
theorem notes_reportAt {t : Token} {fault : LexicalFault} (hk : t.kind = .fault fault) (s : State) :
    s.Notes [t] (s.reportAt t (.lexical fault)) := by
  have found : [t].findSome? Error.ofToken? = some ⟨t, .lexical fault⟩ := by
    simp [Error.ofToken?, hk]
  unfold State.reportAt
  split
  next h => exact ⟨by simp [h], by simp [h]⟩
  next h => exact ⟨by simp [h, found], by simp [found]⟩

theorem take_notes : ∀ {s : State}, ∃ us, ts = us ++ (s.take ts).rest ∧ s.Notes us (s.take ts) := by
  induction ts with
  | nil => exact ⟨[], rfl, by simp [State.take], by simp [State.take]⟩
  | cons t ts ih =>
    intro s
    unfold State.take
    split
    next fault hk =>
      obtain ⟨us, e, notes⟩ := @ih (s.reportAt t (.lexical fault))
      exact ⟨t :: us, congrArg (t :: ·) e, (notes_reportAt hk s).trans notes⟩
    next other =>
      have proper : Error.ofToken? t = none := Error.ofToken?_eq_none.2 other
      have none : [t].findSome? Error.ofToken? = none := by simp [proper]
      exact ⟨[t], rfl, by simp [none], by simp [none]⟩

theorem advance_notes (s : State) :
    ∃ us, s.rest = us ++ s.advance.rest ∧ s.Notes us s.advance := by
  obtain ⟨us, e, notes⟩ := @take_notes s.rest { s with previous := s.current }
  exact ⟨us, e, notes.errors, notes.panicking⟩

theorem skip_notes {n : Nat} : ∀ {s : State},
    ∃ us, s.rest = us ++ (State.skip n s).rest ∧ s.Notes us (State.skip n s) := by
  induction n with
  | zero => exact ⟨[], rfl, by simp [State.skip], by simp [State.skip]⟩
  | succ n ih =>
    intro s
    unfold State.skip
    split
    · exact ⟨[], rfl, by simp, by simp⟩
    · obtain ⟨us, e, notes⟩ := s.advance_notes
      obtain ⟨vs, e', notes'⟩ := @ih s.advance
      exact ⟨us ++ vs, by rw [e, List.append_assoc, ← e'], notes.trans notes'⟩

/-- Recovery forgets the panic first, so a fault that it passes over starts another one. -/
theorem recover_notes (s : State) : ∃ us, s.rest = us ++ s.recover.rest ∧
    s.recover.errors.toList = s.errors.toList ++ (us.findSome? Error.ofToken?).toList ∧
    (s.recover.panicking = false ↔ ∀ t ∈ us, t.Faultless) := by
  obtain ⟨us, e, notes⟩ := @skip_notes (s.rest.length + 1) { s with panicking := false }
  refine ⟨us, e, notes.errors, ?_⟩
  have panicking : s.recover.panicking = (us.findSome? Error.ofToken?).isSome := notes.panicking
  rw [panicking, Option.isSome_eq_false_iff, Option.isNone_iff_eq_none, List.findSome?_eq_none_iff]
  exact forall₂_congr fun t _ => Error.ofToken?_eq_none

end State

variable {n : Nat} {s s' : State}

theorem declaration_recovers (h : declaration (n + 1) s = some ((), s')) :
    ∃ m, construct n s = some ((), m) ∧ s' = if m.panicking then m.recover else m := by
  rw [declaration_succ] at h
  obtain ⟨⟨⟩, m, hm, h⟩ := bind_eq_some.1 h
  refine ⟨m, hm, ?_⟩
  rw [get_bind] at h
  split at h
  next panicking =>
    rw [if_pos panicking]
    exact (congrArg Prod.snd (Option.some.inj h)).symm
  next calm =>
    rw [if_neg calm]
    exact (congrArg Prod.snd (Option.some.inj h)).symm

/-- What a declaration leaves behind. Unless its recovery passes over a fault of the source text, it
ends calm, so that the next error is recorded. Such a fault is recorded as an error of its own, but
then the next declaration is panicking from its start. -/
theorem declaration_calm_iff (h : declaration (n + 1) s = some ((), s')) :
    ∃ m passed, construct n s = some ((), m) ∧ (s' = if m.panicking then m.recover else m) ∧
      m.rest = passed ++ s'.rest ∧
      s'.errors.toList = m.errors.toList ++ (passed.findSome? Error.ofToken?).toList ∧
      (s'.panicking = false ↔ ∀ t ∈ passed, t.Faultless) := by
  obtain ⟨m, hm, e⟩ := declaration_recovers h
  cases panicking : m.panicking with
  | true =>
    rw [if_pos panicking] at e
    obtain ⟨passed, rest, errors, calm⟩ := m.recover_notes
    exact ⟨m, passed, hm, by rw [if_pos panicking]; exact e, e ▸ rest, e ▸ errors, e ▸ calm⟩
  | false =>
    rw [if_neg (by simp [panicking])] at e
    subst e
    exact ⟨s', [], hm, by simp [panicking], rfl, by simp, by simp [panicking]⟩

/-- Recovery passes over a number and a semicolon. -/
theorem declaration_calm_iff_number :
    let s := (State.new (Lexical.scan "+ 1;") .empty).advance
    ∃ s', declaration 64 s = some ((), s') ∧ s'.panicking = false ∧
      ∃ m passed, construct 63 s = some ((), m) ∧ (s' = if m.panicking then m.recover else m) ∧
        m.rest = passed ++ s'.rest ∧
        s'.errors.toList = m.errors.toList ++ (passed.findSome? Error.ofToken?).toList ∧
        (s'.panicking = false ↔ ∀ t ∈ passed, t.Faultless) := by
  intro s
  have runs : (declaration 64 s).map (fun p => p.2.panicking) = some false := by decide +kernel
  obtain ⟨⟨⟨⟩, s'⟩, h, calm⟩ := Option.map_eq_some_iff.1 runs
  exact ⟨s', h, calm, declaration_calm_iff h⟩

/-- In a source whose tokens are all proper, every declaration ends calm. -/
theorem declaration_calm {tokens : List Token} (o : s.Ordered tokens)
    (faultless : ∀ t ∈ tokens, t.Faultless) (h : declaration (n + 1) s = some ((), s')) :
    s'.panicking = false := by
  obtain ⟨m, hm, rfl⟩ := declaration_recovers h
  split
  next =>
    have ordered : m.Ordered tokens := (construct_ordered.carries o hm).toOrdered
    obtain ⟨passed, rest, -, calm⟩ := m.recover_notes
    refine calm.2 fun t ht => faultless t (ordered.known t (List.mem_cons_of_mem _ ?_))
    rw [rest]
    exact List.mem_append_left _ ht
  next calm => simpa using calm

/-- The second line has a fault of its own. -/
theorem declaration_panicking :
    let source := "+ 1 @;\n);\n"
    let s := (State.new (Lexical.scan source) .empty).advance
    let plus : Error := ⟨⟨.punctuation .plus, "+", ⟨0, 1⟩⟩, .expected .expression⟩
    let foreign : Error :=
      ⟨⟨.fault .unexpectedCharacter, "@", ⟨4, 1⟩⟩, .lexical .unexpectedCharacter⟩
    let paren : Error := ⟨⟨.punctuation .rightParen, ")", ⟨1, 2⟩⟩, .expected .expression⟩
    (declaration (budget (Lexical.scan source)) s).map (fun p => p.2.panicking) = some true ∧
      (compile source .empty).result = .error [plus, foreign] ∧
      (compile "\n);\n" .empty).result = .error [paren] := by
  refine ⟨?_, ?_, ?_⟩ <;> decide +kernel

end Compile
end StackScript
