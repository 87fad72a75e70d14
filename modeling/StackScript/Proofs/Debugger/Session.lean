import StackScript.Debugger.Session
import StackScript.Proofs.Machine.Outcome

/-!
# StackScript.Proofs.Debugger.Session

What the lines that are typed at the prompt come to.

* `reading`: what a line says. A line that is no text says nothing.
* `command?`, `repeated`: the command on a line, and the one that a blank line behind others repeats.
* `meant`, `steps`: what a line means behind others, and how many lines mean `next`.
* `Session.after`: the session behind lines that do not end it (`play_after`, `play_ended`).
* `session_obeys`: the machine has made as many steps as lines mean `next`, and when the script
  finishes the session returns what it prints.
-/

namespace StackScript
namespace Debugger

open Machine (run_add run_of_running run_of_stopped)

section Lines

def reading (line : ByteArray) : Option (Except CommandFault (Option Command)) :=
  (String.fromUTF8? line).map Command.parse

/-- The command on a line. -/
def command? (line : ByteArray) : Option Command :=
  match reading line with
  | some (.ok c) => c
  | _ => none

/-- The command of the closest line before that has one. -/
def repeated (before : List ByteArray) : Option Command := before.reverse.findSome? command?

/-- What a line means behind others. A blank one repeats. -/
def meant (before : List ByteArray) (line : ByteArray) : Option Command :=
  match reading line with
  | some (.ok typed) => typed.or (repeated before)
  | _ => none

/-- How many lines mean `next`. -/
def steps (lines : List ByteArray) : Nat :=
  (List.range lines.length).countP fun i =>
    (lines[i]?.bind (meant (lines.take i))) = some .next

variable {before : List ByteArray} {line : ByteArray}

/-- Only a command and a blank line mean anything. -/
theorem reading_of_meant {c : Command} (h : meant before line = some c) :
    ∃ typed, reading line = some (.ok typed) := by
  unfold meant at h
  split at h
  next typed hr => exact ⟨typed, hr⟩
  next => cases h

theorem repeated_append (before : List ByteArray) (line : ByteArray) :
    repeated (before ++ [line]) = (command? line).or (repeated before) := by
  simp [repeated, List.findSome?_cons]
  cases command? line <;> rfl

/-- Lines at the end do not change what those before mean. -/
theorem steps_append (before : List ByteArray) (line : ByteArray) :
    steps (before ++ [line]) =
      steps before + if meant before line = some .next then 1 else 0 := by
  unfold steps
  rw [List.length_append, List.length_singleton, List.range_succ, List.countP_append,
    List.countP_singleton]
  congr 1
  · refine List.countP_congr fun i hi => ?_
    have lt := List.mem_range.1 hi
    rw [List.getElem?_append_left lt, List.take_append_of_le_length (Nat.le_of_lt lt)]
  · rw [List.getElem?_concat_length, List.take_left]
    simp

end Lines

namespace Session

/-- What a line leads to; none if it is no text. A line without a command leads nowhere. -/
def reply (s : Session) (line : ByteArray) : Option Outcome :=
  (reading line).map fun said =>
    match said with
    | .ok typed => s.act typed
    | .error _ => .goesOn s ""

/-- The session behind lines, unless one of them ends it. -/
def after (s : Session) : List ByteArray → Option Session
  | [] => some s
  | line :: lines =>
    match s.reply line with
    | some (.goesOn s _) => s.after lines
    | _ => none

end Session

section Play

variable {t : Terminal} {s s' : Session} {line : ByteArray} {lines : List ByteArray}
  {printed : String}

/-- A transcript with something in front. -/
def Transcript.behind (scenes : List Scene) (messages : String) (rest : Transcript) : Transcript :=
  { rest with scenes := scenes ++ rest.scenes, messages := messages ++ rest.messages }

theorem Transcript.behind_behind (scenes scenes' : List Scene) (messages messages' : String)
    (rest : Transcript) : (rest.behind scenes' messages').behind scenes messages =
      rest.behind (scenes ++ scenes') (messages ++ messages') := by
  simp [behind, List.append_assoc, String.append_assoc]

/-- A line that does not end the session is followed by the rest. -/
theorem play_goesOn (t : Terminal) (printed : String) {more : String} (h : s.reply line = some (.goesOn s' more)) :
    ∃ scenes messages printed', ∀ rest, play t s printed (line :: rest) =
      (play t s' printed' rest).behind scenes messages := by
  unfold Session.reply reading at h
  obtain ⟨said, hr, h⟩ := Option.map_eq_some_iff.1 h
  obtain ⟨text, ht, rfl⟩ := Option.map_eq_some_iff.1 hr
  cases hp : Command.parse text with
  | error fault =>
    rw [hp] at h
    cases h
    refine ⟨[], errorMessage fault.message, printed ++ prompt, fun rest => ?_⟩
    simp only [play, ht, hp]
    rfl
  | ok typed =>
    rw [hp] at h
    refine ⟨[⟨screen t s.source s.machine, printed ++ more⟩], "", "", fun rest => ?_⟩
    simp only [play, ht, hp]
    rw [show s.act typed = .goesOn s' more from h]
    simp [Transcript.behind]

/-- Behind lines that do not end the session, it goes on with what else is typed. -/
theorem play_after (t : Terminal) (printed : String) (h : s.after lines = some s') :
    ∃ scenes messages printed', ∀ rest, play t s printed (lines ++ rest) =
      (play t s' printed' rest).behind scenes messages := by
  induction lines generalizing s printed with
  | nil =>
    cases h
    exact ⟨[], "", printed, fun rest => by simp [Transcript.behind]⟩
  | cons line lines ih =>
    rw [Session.after] at h
    split at h
    next s₁ more hs =>
      obtain ⟨scenes, messages, printed₁, first⟩ := play_goesOn t printed hs
      obtain ⟨scenes', messages', printed', others⟩ := ih printed₁ h
      refine ⟨scenes ++ scenes', messages ++ messages', printed', fun rest => ?_⟩
      rw [List.cons_append, first, others, Transcript.behind_behind]
    next => cases h

/-- Behind a line that has ended the session nothing is read. -/
theorem play_ended (h : s.after lines = none) (rest : List ByteArray) :
    play t s printed (lines ++ rest) = play t s printed lines := by
  induction lines generalizing s printed with
  | nil => cases h
  | cons line lines ih =>
    rw [Session.after] at h
    unfold Session.reply reading at h
    rw [List.cons_append, play, play]
    cases ht : String.fromUTF8? line with
    | none => rfl
    | some text =>
      rw [ht] at h
      dsimp only
      cases hp : Command.parse text with
      | error fault =>
        simp only [Option.map_some, hp] at h
        dsimp only
        rw [ih h]
      | ok typed =>
        simp only [Option.map_some, hp] at h
        dsimp only
        cases ha : s.act typed with
        | goesOn s₁ more =>
          rw [ha] at h
          dsimp only
          rw [ih h]
        | _ => rfl

end Play

section Steps

variable {source : String} {m m₀ : Machine} {s s' : Session} {before lines : List ByteArray}
  {line : ByteArray} {c : Command} {more : String} {output : ByteArray}

/-- Commands that only show something. -/
def Command.Shows : Command → Prop
  | .stack | .slot _ | .globals => True
  | .next | .quit => False

theorem perform_shows (s : Session) (h : c.Shows) :
    ∃ more, s.perform c = .goesOn { s with last := some c } more := by
  cases c with
  | stack | globals => exact ⟨_, rfl⟩
  | slot i =>
    unfold Session.perform
    dsimp only
    cases s.machine.stack[i]? <;> exact ⟨_, rfl⟩
  | next | quit => exact h.elim

theorem perform_next (s : Session) : s.perform .next =
    match s.machine.step with
    | (.running, machine) => .goesOn { s with machine, last := some .next } ""
    | (.finished, machine) => .closed machine.output.octets
    | (.failed e, _) => .failed e
    | (.exited code, _) => .exited code := rfl

/-- A command that goes on is repeated by a blank line. Only `next` changes the machine. -/
theorem perform_goesOn (h : s.perform c = .goesOn s' more) :
    s'.last = some c ∧ if c = .next then s.machine.step = (.running, s'.machine)
      else s'.machine = s.machine := by
  by_cases shows : c.Shows
  · obtain ⟨_, e⟩ := perform_shows s shows
    cases e.symm.trans h
    have other : c ≠ .next := by
      rintro rfl
      exact shows
    rw [if_neg other]
    exact ⟨rfl, rfl⟩
  · cases c with
    | next =>
      rw [perform_next] at h
      rw [if_pos rfl]
      split at h
      next step =>
        cases h
        exact ⟨rfl, step⟩
      all_goals cases h
    | quit => cases h
    | _ => exact (shows trivial).elim

/-- A session behind lines, given the machine that it began with. -/
structure Stands (m₀ : Machine) (lines : List ByteArray) (s : Session) : Prop where
  machine : m₀.run (steps lines) = (.running, s.machine)
  last : s.last = repeated lines

theorem Stands.act_eq (st : Stands m₀ before s) {typed : Option Command}
    (h : reading line = some (.ok typed)) :
    s.reply line = some ((meant before line).elim (.goesOn s "") s.perform) := by
  unfold Session.reply meant
  rw [h, ← st.last]
  dsimp only [Option.map_some, Session.act]
  cases typed.or s.last <;> rfl

theorem Stands.reply (st : Stands m₀ before s) (h : s.reply line = some (.goesOn s' more)) :
    Stands m₀ (before ++ [line]) s' := by
  cases hr : reading line with
  | none =>
    rw [Session.reply, hr] at h
    cases h
  | some said =>
    cases said with
    | error fault =>
      have none : meant before line = none := by rw [meant, hr]
      have silent : command? line = Option.none := by rw [command?, hr]
      rw [Session.reply, hr] at h
      cases h
      refine ⟨?_, ?_⟩
      · rw [steps_append, none]
        exact st.machine
      · rw [repeated_append, silent]
        exact st.last
    | ok typed =>
      have typed_eq : command? line = typed := by rw [command?, hr]
      have meant_eq : meant before line = typed.or (repeated before) := by rw [meant, hr]
      rw [st.act_eq hr] at h
      cases hm : meant before line with
      | none =>
        rw [hm] at h
        cases h
        refine ⟨?_, ?_⟩
        · rw [steps_append, hm]
          exact st.machine
        · rw [repeated_append, typed_eq, ← meant_eq, hm, st.last]
          exact (Option.or_eq_none_iff.1 (meant_eq.symm.trans hm)).2
      | some c =>
        rw [hm] at h
        obtain ⟨last, machine⟩ := perform_goesOn (Option.some.inj h)
        refine ⟨?_, ?_⟩
        · rw [steps_append, hm]
          by_cases next : c = .next
          · rw [if_pos next] at machine
            rw [if_pos (congrArg some next), run_add st.machine, run_of_running (by rw [machine]),
              machine]
            rfl
          · rw [if_neg next] at machine
            rw [if_neg (fun e => next (Option.some.inj e)), machine]
            exact st.machine
        · rw [repeated_append, typed_eq, ← meant_eq, hm, last]

/-- By induction on the lines. -/
theorem Stands.after (st : Stands m₀ before s) (h : s.after lines = some s') :
    Stands m₀ (before ++ lines) s' := by
  induction lines generalizing s before with
  | nil =>
    cases h
    rwa [List.append_nil]
  | cons line lines ih =>
    rw [Session.after] at h
    split at h
    next s₁ more hs =>
      rw [List.append_cons]
      exact ih (st.reply hs) h
    next => cases h

/-- The session begins with the machine that has the script loaded. -/
theorem stands_start (start : Session.start source m = .ok s) : Stands (m.load source).2 [] s := by
  unfold Session.start at start
  split at start
  next machine e =>
    cases start
    rw [e]
    exact ⟨rfl, rfl⟩
  next => cases start

theorem interpret_start (start : Session.start source m = .ok s) (n : Nat) :
    m.interpret n source = (m.load source).2.run n := by
  unfold Session.start at start
  unfold Machine.interpret
  split at start
  next machine e => rw [e]
  next => cases start

/-- From the steps of the lines on, the run goes on where the session is. -/
theorem Stands.interpret (st : Stands (m.load source).2 lines s')
    (start : Session.start source m = .ok s) (j : Nat) :
    m.interpret (steps lines + j) source = s'.machine.run j := by
  rw [interpret_start start, run_add st.machine]

theorem Stands.reply_next (st : Stands m₀ lines s) (h : meant lines line = some .next) :
    s.reply line = some (s.perform .next) := by
  obtain ⟨typed, hr⟩ := reading_of_meant h
  rw [st.act_eq hr, h]
  rfl

/-- A session is over with the step with which the script finishes, and has its output. -/
theorem Stands.closed_iff (st : Stands (m.load source).2 lines s')
    (start : Session.start source m = .ok s) (h : meant lines line = some .next) :
    s'.reply line = some (.closed output) ↔ ∃ m', m'.output.octets = output ∧
      ∀ n > steps lines, m.interpret n source = (.finished, m') := by
  rw [st.reply_next h, Option.some_inj, perform_next]
  constructor
  · intro closed
    cases step : s'.machine.step with
    | mk progress m' =>
      rw [step] at closed
      cases progress with
      | finished =>
        refine ⟨m', Outcome.closed.inj closed, fun n lt => ?_⟩
        obtain ⟨j, rfl⟩ := Nat.exists_eq_add_of_lt lt
        rw [Nat.add_assoc, st.interpret start, run_of_stopped (by rw [step]; nofun), step]
      | _ => cases closed
  · intro ⟨m', octets, finishes⟩
    have run := finishes (steps lines + 1) (Nat.lt_succ_self _)
    rw [st.interpret start] at run
    have step : s'.machine.step = (.finished, m') := by
      by_cases running : s'.machine.step.1 = .running
      · rw [run_of_running running] at run
        cases run
      · rwa [run_of_stopped running] at run
    rw [step]
    exact congrArg Outcome.closed octets

/-- What is seen of a session ends with its output. -/
theorem play_closed (t : Terminal) (printed : String) (h : s.reply line = some (.closed output))
    (rest : List ByteArray) : ∃ scene, play t s printed (line :: rest) = .close [scene] output := by
  unfold Session.reply reading at h
  obtain ⟨said, hr, h⟩ := Option.map_eq_some_iff.1 h
  obtain ⟨text, ht, rfl⟩ := Option.map_eq_some_iff.1 hr
  refine ⟨⟨screen t s.source s.machine, printed ++ ""⟩, ?_⟩
  simp only [play, ht]
  cases hp : Command.parse text with
  | error fault =>
    rw [hp] at h
    cases h
  | ok typed =>
    rw [hp] at h
    dsimp only
    rw [show s.act typed = .closed output from h]

/-- What lines that have not ended a session have come to. -/
structure Obeyed (source : String) (m : Machine) (s : Session) (lines : List ByteArray)
    (s' : Session) : Prop where
  /-- The machine has made one step for each line that means `next`. -/
  stepped : (m.load source).2.run (steps lines) = (.running, s'.machine)
  /-- A line that is no command changes nothing, and so nothing of what a blank line repeats. -/
  invalid : ∀ line fault, reading line = some (.error fault) → s'.reply line = some (.goesOn s' "")
  /-- A command that only shows something changes nothing but what a blank line repeats. -/
  shows : ∀ line c, meant lines line = some c → c.Shows →
    ∃ more, s'.reply line = some (.goesOn { s' with last := some c } more)
  /-- A blank line with no command before it does nothing. -/
  idle : ∀ line, reading line = some (.ok none) → repeated lines = none →
    s'.reply line = some (.goesOn s' "")
  /-- With a line that means `next` the session is over exactly if the script finishes with that
  step, and then it returns what the script prints. -/
  finishes : ∀ line output, meant lines line = some .next →
    (s'.reply line = some (.closed output) ↔ ∃ m', m'.output.octets = output ∧
      ∀ n > steps lines, m.interpret n source = (.finished, m'))
  /-- What is returned is written behind everything else. -/
  closes : ∀ line output, s'.reply line = some (.closed output) → ∀ t rest,
    (play t s "" (lines ++ line :: rest)).closing = leaveScreen.toUTF8 ++ output

/-- Lines that are typed make the machine do exactly the steps that they say. The script that is
stepped and the one that runs at once find the same outside at each look, which may be different
from look to look. -/
theorem session_obeys (start : Session.start source m = .ok s) (h : s.after lines = some s') :
    Obeyed source m s lines s' := by
  have st : Stands (m.load source).2 lines s' := (stands_start start).after h
  refine ⟨st.machine, fun line fault hr => ?_, fun line c hm shows => ?_, fun line hr none => ?_,
    fun line output hm => st.closed_iff start hm, fun line output closed t rest => ?_⟩
  · rw [Session.reply, hr]
    rfl
  · obtain ⟨typed, hr⟩ := reading_of_meant hm
    obtain ⟨more, e⟩ := perform_shows s' shows
    refine ⟨more, ?_⟩
    rw [st.act_eq hr, hm]
    exact congrArg some e
  · rw [st.act_eq hr, meant, hr]
    dsimp only
    rw [none]
    rfl
  · obtain ⟨scenes, messages, printed, all⟩ := play_after t "" h
    obtain ⟨scene, e⟩ := play_closed t printed closed rest
    rw [all, e]
    rfl

/-- Two steps, of which the second one is repeated, and a third one behind a line that is no
command, where a file appears as soon as the script has looked for it. -/
theorem session_obeys_repeated :
    let world := { Machine.World.still with changes := fun _ => some ⟨1, fun _ => .text ""⟩ }
    let m := Machine.new .unlimited world
    let source := "print exists(\"log\") == exists(\"log\");"
    let lines := ["n", "", "jump", " "].map String.toUTF8
    steps lines = 3 ∧ ∃ s s', Session.start source m = .ok s ∧ s.after lines = some s' ∧
      Obeyed source m s lines s' := by
  intro world m source lines
  have three : steps lines = 3 := by decide +kernel
  have reached : ((Session.start source m).toOption.bind (·.after lines)).isSome = true := by
    decide +kernel
  cases start : Session.start source m with
  | error e =>
    rw [start] at reached
    cases reached
  | ok s =>
    rw [start] at reached
    obtain ⟨s', h⟩ := Option.isSome_iff_exists.1 reached
    exact ⟨three, s, s', rfl, h, session_obeys start h⟩

end Steps

end Debugger
end StackScript
