import StackScript.Proofs.Semantics.Depth

/-!
# StackScript.Proofs.Semantics.Loops

A `for` loop does what a `while` loop does.

* `rewritten`: a script with `for` loops, and the same one with `while` loops, on one machine.
* `for_agrees_while`: they yield the same, except that a `while (true)` may overflow where a `for`
  without a condition does not.
* `while_overflows`: a script in which it does.
-/

namespace StackScript
namespace Semantics

open Machine
open Syntax (Alike Parses Stmt kind_word parses_spelled)

/-- Loops written with `for` against loops written with `while`, on one machine. A `while` without
end takes a place of the stack for its condition, a `for` does not. -/
def rewritten (endless : Prop) : Race where
  near := machineLimits
  far := machineLimits
  nearExcused _ := False
  farExcused halt := endless ∧ ∃ calls, halt = .full calls
  moved := []
  endless := endless

theorem rewritten_fair (endless : Prop) : (rewritten endless).Fair where
  nearFull _ h h' := absurd (h.symm.trans h') nofun
  farFull _ h h' := absurd (h.symm.trans h') nofun
  nearDeep _ h h' := absurd (h.symm.trans h') nofun
  farDeep _ h h' := absurd (h.symm.trans h') nofun
  endless h calls := ⟨h, calls, rfl⟩

variable {endless : Prop} {output : Output} {world : World} {source source' : String} {a a' : Stmt}

/-- A source with `for` loops, and the same one with `while` loops in their place, print the same
and end in the same way. If one of the loops has no condition, the second one may overflow. -/
theorem for_agrees_while (ha : Sourced output world source a)
    (ha' : Sourced output world source' a') (alike : Alike endless a a') :
    (∀ p printed, Yields output world source p printed →
      (∃ p', Yields output world source' p' printed ∧ unlined p' = unlined p) ∨
      endless ∧ ∃ p' printed', Yields output world source' p' printed' ∧ Overflows p') ∧
    ∀ p' printed', Yields output world source' p' printed' →
      (∃ p, Yields output world source p printed' ∧ unlined p' = unlined p) ∨
      endless ∧ Overflows p' := by
  have timed (n : Nat) : (rewritten endless).Timed n n :=
    ⟨Nat.le_refl n, fun lt => absurd lt (Nat.lt_irrefl n)⟩
  have race (n : Nat) := script_alike (rewritten_fair endless) (timed n) rfl alike output world
  constructor
  · intro p printed h
    obtain ⟨n, r, s, near, concludes, rfl⟩ := h.script ha
    have race := race n
    rw [show (rewritten endless).near = machineLimits from rfl, near] at race
    generalize hr : script (rewritten endless).far n a' (Store.initial output world) = far at race
    cases race with
    | ok same | halt same =>
      obtain ⟨p', yields, concludes'⟩ := ha'.yields hr
      exact .inl ⟨p', same ▸ yields, concludes'.unlined_eq concludes⟩
    | near excused => exact excused.elim
    | far excused =>
      obtain ⟨e, calls, rfl⟩ := excused
      obtain ⟨p', yields, trace, rfl, -⟩ := ha'.yields hr
      exact .inr ⟨e, _, _, yields, trace, rfl⟩
  · intro p' printed' h
    obtain ⟨n, r, s, far, concludes, rfl⟩ := h.script ha'
    have race := race n
    rw [show (rewritten endless).far = machineLimits from rfl, far] at race
    generalize hr : script (rewritten endless).near n a (Store.initial output world) = near at race
    cases race with
    | ok same | halt same =>
      obtain ⟨p, yields, concludes'⟩ := ha.yields hr
      exact .inl ⟨p, same ▸ yields, concludes.unlined_eq concludes'⟩
    | near excused | nearLate excused => exact excused.elim
    | far excused =>
      obtain ⟨e, calls, rfl⟩ := excused
      obtain ⟨trace, rfl, -⟩ := concludes
      exact .inr ⟨e, trace, rfl⟩

/-- A loop with all its clauses, and what it stands for. -/
theorem for_agrees_while_once :
    let source := "for (var i; !i; i = true) print i;"
    let source' := "\x7b var i; while (!i) \x7b print i; i = true; \x7d \x7d"
    let a : Stmt := .seq (.for (.var "i" .nil) (some (.unary .negation (.get "i")))
      (some (.set "i" (.bool true))) (.print (.get "i"))) .empty
    let a' : Stmt := .seq (.asWhile (.var "i" .nil) (some (.unary .negation (.get "i")))
      (some (.set "i" (.bool true))) (.print (.get "i"))) .empty
    let m := Machine.new .unlimited .still
    (Sourced .unlimited .still source a ∧ Sourced .unlimited .still source' a' ∧ Alike False a a') ∧
    ∃ p', Yields .unlimited .still source' p' (m.interpret 30 source).2.output ∧
      unlined p' = .finished := by
  intro source source' a a' m
  have i : Syntax.ExprPhrase .assignment _ (.get "i") := .simple (.get (kind_word "i"))
  have prints := Syntax.StmtPhrase.print (kind_word "print") i (kind_word ";")
  have step : Syntax.ExprPhrase .assignment _ (.set "i" (.bool true)) :=
    .set (kind_word "i") (kind_word "=") (.simple (.true (kind_word "true")))
  have bang : Syntax.UnarySign (Syntax.word (.punctuation .bang) "!").kind .negation := .negation
  have condition : Syntax.ExprPhrase .assignment _ (.unary .negation (.get "i")) :=
    (Syntax.ExprPhrase.unary bang (.simple (.get (kind_word "i")))).complete
  have parses : Parses source a := by
    refine parses_spelled ?_ (.more (.statement (.for (kind_word "for") (kind_word "(")
      (.startVar (kind_word "var") (kind_word "i") (.absent (kind_word ";")))
      (.present condition (kind_word ";")) (.present step (kind_word ")")) prints)) .none)
    decide +kernel
  have parses' : Parses source' a' := by
    refine parses_spelled ?_ (.more (.statement (.block (kind_word "\x7b")
      (.more (.var (kind_word "var") (kind_word "i") (.absent (kind_word ";")))
        (.more (.statement (.while (kind_word "while") (kind_word "(") condition (kind_word ")")
          (.block (kind_word "\x7b") (.more (.statement prints)
            (.more (.statement (.expression step (kind_word ";"))) .none)) (kind_word "\x7d"))))
          .none)) (kind_word "\x7d"))) .none)
    decide +kernel
  have finished : (m.interpret 30 source).1 = .finished := by decide +kernel
  have finished' : (m.interpret 30 source').1 = .finished := by decide +kernel
  have h : Sourced .unlimited .still source a := .of_run parses finished (by decide +kernel)
  have h' : Sourced .unlimited .still source' a' := .of_run parses' finished' (by decide +kernel)
  have alike : Alike False a a' := .seq (.asWhile _ _ (.var _ _) (.print _) rfl nofun) .empty
  refine ⟨⟨h, h', alike⟩, ?_⟩
  obtain agrees | ⟨none, -⟩ := (for_agrees_while h h' alike).1 _ _ (Yields.of_run finished)
  · exact agrees
  · exact none.elim

section Full

/-- Without a condition there is none to put on the stack. -/
theorem bottoms_for : Bottoms (.for .empty none none (.expression (.get "x")))
    fun halt => ∃ calls, halt = .fault (.undefinedVariable "x") calls := by
  intro n call σ s height env absent
  have undefined : Halts (fun halt => ∃ calls, halt = .fault (.undefinedVariable "x") calls)
      (stmt machineLimits call (n + 1) σ.inside (.expression (.get "x")) s) := by
    rw [stmt, expr]
    refine .bind (.bind ?_)
    rw [read_undefined (show σ.inside.env.lookup "x" = none from env) absent]
    exact ⟨_, _, rfl, _, rfl⟩
  rw [stmt]
  refine .after (by rw [stmt]; rfl) ?_
  dsimp only
  rw [rounds, loop]
  refine .bind (.after (by rw [holds]; rfl) ?_)
  rw [if_pos rfl]
  exact .bind undefined

theorem bottoms_while : Bottoms (Stmt.asWhile .empty none none (.expression (.get "x")))
    fun halt => ∃ calls, halt = .full calls := by
  intro n call σ s height env absent
  rw [Stmt.asWhile, Stmt.started, stmt, stmt, stmt, rounds, loop, holds, Option.getD_none, expr]
  refine .bind (.bind (.bind (.bind (.bind ⟨_, _, put_full ?_ _, _, rfl⟩))))
  exact Nat.not_lt.2 (Nat.le_of_eq height.symm)

/-- A source around a statement, given what its tokens are and how far a machine comes with it. -/
theorem sourced_plunged {ts : List Token} {bottom : Stmt} {source : String}
    (g : Syntax.StmtPhrase .statement ts bottom)
    (h : (Lexical.scanFrom (text source) .start).map Syntax.spelling =
        (plungeTokens ts).map Syntax.spelling ++ [(.eof, "")] ∧
      opened (begun (compiled (Lexical.scanFrom (text source) .start)
        (Machine.new .unlimited .still).heap) 1 (Machine.new .unlimited .still)) = true) :
    Sourced .unlimited .still (plunged source) (plunge bottom) := by
  refine .of_opened (parses_spelled ?_ (phrase_plunge g)) ?_
  · rw [scan_plunged]
    exact h.1
  · rw [interpret_begun, compile_plunged]
    exact h.2

theorem sourced_for : Sourced .unlimited .still (plunged "for(;;)x;")
    (plunge (.for .empty none none (.expression (.get "x")))) := by
  have body : Syntax.StmtPhrase .statement _ (.expression (.get "x")) :=
    .expression (.simple (.get (kind_word "x"))) (kind_word ";")
  have loop := Syntax.StmtPhrase.for (kind_word "for") (kind_word "(") (.startEmpty (kind_word ";"))
    (.absent (kind_word ";")) (.absent (kind_word ")")) body
  refine sourced_plunged loop ?_
  decide +kernel

theorem sourced_while : Sourced .unlimited .still (plunged "\x7bwhile(true)\x7bx;\x7d\x7d")
    (plunge (Stmt.asWhile .empty none none (.expression (.get "x")))) := by
  have body : Syntax.StmtPhrase .statement _ (.expression (.get "x")) :=
    .expression (.simple (.get (kind_word "x"))) (kind_word ";")
  have loop : Syntax.StmtPhrase .statement _ (.while (.bool true) _) :=
    .while (kind_word "while") (kind_word "(") (.simple (.true (kind_word "true"))) (kind_word ")")
      (.block (kind_word "\x7b") (.more (.statement body) .none) (kind_word "\x7d"))
  have block := Syntax.StmtPhrase.block (kind_word "\x7b") (.more (.statement loop) .none)
    (kind_word "\x7d")
  refine sourced_plunged block ?_
  decide +kernel

end Full

/-- Where all places of the stack are taken, a `for` without a condition goes on, and the `while`
that it stands for overflows. -/
theorem while_overflows :
    let source := plunged "for(;;)x;"
    let source' := plunged "\x7bwhile(true)\x7bx;\x7d\x7d"
    let a := plunge (.for .empty none none (.expression (.get "x")))
    let a' := plunge (.asWhile .empty none none (.expression (.get "x")))
    Sourced .unlimited .still source a ∧ Sourced .unlimited .still source' a' ∧ Alike True a a' ∧
    ∃ trace p' printed printed',
      Yields .unlimited .still source (.failed (.runtime (.undefinedVariable "x") trace)) printed ∧
      Yields .unlimited .still source' p' printed' ∧ Overflows p' := by
  intro source source' a a'
  have h : Sourced .unlimited .still source a := sourced_for
  have h' : Sourced .unlimited .still source' a' := sourced_while
  refine ⟨h, h', ?_, ?_⟩
  · exact alike_plunge (.asWhile none none .empty (.expression _) rfl fun _ => trivial)
  · obtain ⟨halt, s, ends, calls, rfl⟩ := halts_plunge bottoms_for .unlimited .still
    obtain ⟨halt', s', ends', calls', rfl⟩ := halts_plunge bottoms_while .unlimited .still
    obtain ⟨p, yields, trace, rfl, -⟩ := h.yields ends
    obtain ⟨p', yields', trace', rfl, -⟩ := h'.yields ends'
    exact ⟨trace, _, _, _, yields, yields', trace', rfl⟩

end Semantics
end StackScript
