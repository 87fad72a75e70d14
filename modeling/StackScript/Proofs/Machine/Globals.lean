import StackScript.Proofs.Machine.Evolves
import StackScript.Proofs.Store.Directory

/-!
# StackScript.Proofs.Machine.Globals

The globals of a machine are a map from names to values.

* `Access`, `access?`: what the next instruction does with a global.
* `History`: a machine, and the map that everything done to it so far leads to.
* `Keyed`: the table of globals has the entries of a map. All instructions keep this, and those for
  globals change the table as they change the map.
* `globals_agree`: reading a global, looking one up and listing them all show that map.
-/

namespace StackScript
namespace Machine

abbrev Globals : Type := Lexicon Value

/-- What an instruction does with a global. -/
inductive Access where
  | read (name : String)
  | define (name : String) (v : Value)
  | assign (name : String) (v : Value)
deriving DecidableEq

namespace Access

def name : Access → String
  | .read name | .define name _ | .assign name _ => name

/-- What becomes of the globals. Assigning does not define. -/
def apply : Access → Globals → Globals
  | .read _, g => g
  | .define name v, g => g.insert name v
  | .assign name v, g => if name ∈ g then g.insert name v else g

/-- Accesses to globals that have to be defined. -/
def Uses : Access → Prop
  | .define _ _ => False
  | _ => True

end Access

/-- The text of a constant that is a string. -/
def nameAt? (h : Heap) (call : Frame) (i : UInt8) : Option String := do
  let f ← h.function? call.function
  let v ← f.chunk.constants[i.toNat]?
  h.text? v

/-- What the next instruction does with a global. The value is on top of the stack. -/
def access? (m : Machine) : Option Access :=
  match m.next? with
  | some (call, .getGlobal i) => (nameAt? m.heap call i).map .read
  | some (call, .defineGlobal i) => do return .define (← nameAt? m.heap call i) (← m.stack.back?)
  | some (call, .setGlobal i) => do return .assign (← nameAt? m.heap call i) (← m.stack.back?)
  | _ => none

/-- The globals behind the next step. -/
def advance (m : Machine) (g : Globals) : Globals := m.access?.elim g fun a => a.apply g

/-- The globals behind a run. -/
def track : Nat → Machine → Globals → Globals
  | 0, _, g => g
  | n + 1, m, g => if m.step.1 = .running then track n m.step.2 (m.advance g) else m.advance g

/-- A function of the host that leaves the strings on the heap as they are. -/
def HostFunction.Honest (f : HostFunction) : Prop := ∀ (h : Heap) (arguments : List Value), h.Lasts (f h arguments).1

/-- The handle of a native that is made a global variable. -/
def nativeRef (m : Machine) (name : String) : Ref := Ref.ofIndex (m.heap.intern name).1.size

/-- A machine without any global. -/
def bare (output : Output) (world : World) : Machine :=
  { frames := [], stack := #[], globals := .empty, openUpvalues := [], heap := .empty, output,
    world, hosts := #[] }

/-- A machine with the map from names to values that natives, scripts and single steps make. Only
natives and the instructions for globals change the map. -/
inductive History : Machine → Globals → Prop where
  | bare (output : Output) (world : World) : History (bare output world) ∅
  | outside {m : Machine} {g : Globals} (world : World) : History m g → History { m with world } g
  | define {m : Machine} {g : Globals} (name : String) (arity : Nat) (b : Builtin) : History m g →
      History (m.define name arity (.builtin b)) (g.insert name (.object (m.nativeRef name)))
  | provide {m : Machine} {g : Globals} (name : String) (arity : Nat) {f : HostFunction}
      (honest : f.Honest) : History m g →
      History (m.provide name arity f) (g.insert name (.object (m.nativeRef name)))
  | load {m : Machine} {g : Globals} (source : String) : History m g →
      History (m.load source).2 g
  | step {m : Machine} {g : Globals} : History m g → History m.step.2 (m.advance g)

/-- The globals that can be seen from outside are those of a map. -/
structure Shows (m : Machine) (g : Globals) : Prop where
  global : ∀ name, m.global? name = g.lookup name
  /-- No name is listed twice. -/
  once : ((m.globals.named m.heap).map Prod.fst).Nodup
  listed : ∀ n v, (n, v) ∈ m.globals.named m.heap ↔ ∃ name, n = some name ∧ g.lookup name = some v

/-- The next instruction finds the globals of a map. -/
structure Obeys (m : Machine) (g : Globals) : Prop where
  read : ∀ name v, m.access? = some (.read name) → g.lookup name = some v →
    m.stack.size < stackLimit → m.step.1 = .running ∧ m.step.2.stack = m.stack.push v
  define : ∀ name v, m.access? = some (.define name v) →
    m.step.1 = .running ∧ m.step.2.stack = m.stack.pop
  assign : ∀ name v, m.access? = some (.assign name v) → name ∈ g →
    m.step.1 = .running ∧ m.step.2.stack = m.stack
  undefined : ∀ a, m.access? = some a → a.Uses → a.name ∉ g → m.advance g = g ∧
    ∃ trace, m.step.1 = .failed (.runtime (.undefinedVariable a.name) trace)

/-- The table of globals has the entries of a map, as long as there are handles. -/
structure Keyed (g : Globals) (m : Machine) : Prop where
  honest : ∀ f ∈ m.hosts, f.Honest
  sound : m.heap.size ≤ UInt32.size → m.heap.Sound
  directory : m.heap.size ≤ UInt32.size → ∃ d, Directory m.heap m.globals d g

/-- The global variables are read off the directory. -/
theorem global?_eq {m : Machine} {d : Dictionary Value} {g : Globals} (sound : m.heap.Sound)
    (f : Directory m.heap m.globals d g) (name : String) : m.global? name = g.lookup name := by
  unfold global?
  cases hk : m.heap.findString? name with
  | some key => exact f.get?_eq (Heap.string?_of_findString? hk)
  | none =>
    have absent : name ∉ g := fun hn => by
      obtain ⟨key, hk'⟩ := f.present name hn
      rw [sound.findString?_eq_some.2 hk'] at hk
      cases hk
    exact (Finmap.lookup_eq_none.2 absent).symm

namespace Keyed

variable {m : Machine} {g : Globals}

theorem lasts (k : Keyed g m) {heap : Heap} (l : m.heap.Lasts heap) : Keyed g { m with heap } where
  honest := k.honest
  sound fits := l.sound (k.sound (Nat.le_trans l.size fits)) fits
  directory fits := by
    have before := Nat.le_trans l.size fits
    obtain ⟨d, f⟩ := k.directory before
    exact ⟨d, f.lasts l (l.sound (k.sound before) fits)⟩

theorem gentle (g : Globals) : Gentle (Keyed g) where
  host arguments k hf := k.lasts (k.honest _ (Array.mem_of_getElem? hf) _ arguments)
  push _ k _ := ⟨k.honest, k.sound, k.directory⟩
  shrink k _ := ⟨k.honest, k.sound, k.directory⟩
  ip _ k _ := ⟨k.honest, k.sound, k.directory⟩
  call _ _ _ k _ := ⟨k.honest, k.sound, k.directory⟩
  allocate _ string k := k.lasts (.allocate _ string)
  intern text k := k.lasts (.intern _ text)
  close v hr k := k.lasts (.set hr (.closed v))
  upvalues _ k := ⟨k.honest, k.sound, k.directory⟩
  outside _ _ k := ⟨k.honest, k.sound, k.directory⟩

theorem reset (k : Keyed g m) : Keyed g m.reset :=
  have closed := (gentle g).closeUpvalues k 0
  ⟨closed.honest, closed.sound, closed.directory⟩

theorem stopWith (k : Keyed g m) (s : Stop) : Keyed g (m.stopWith s).2 := by
  cases s with
  | exit => exact k
  | _ => exact k.reset

theorem shows (k : Keyed g m) (fits : m.heap.size ≤ UInt32.size) : Shows m g := by
  obtain ⟨d, f⟩ := k.directory fits
  obtain ⟨once, listed⟩ := f.named (k.sound fits)
  exact ⟨global?_eq (k.sound fits) f, once, listed⟩

theorem globals (k : Keyed g m) {g' : Globals} {globals : Table Value}
    (directory : m.heap.size ≤ UInt32.size → ∃ d, Directory m.heap globals d g') :
    Keyed g' { m with globals } := ⟨k.honest, k.sound, directory⟩

end Keyed

section Instructions

variable {m : Machine} {g : Globals} {call : Frame} {outer : List Frame} {E : Stop → Machine → Prop}

theorem ends_nameConstant {Q : Ref × String → Machine → Prop} {i : UInt8}
    (hf : m.frames = call :: outer)
    (some : ∀ key name, nameAt? m.heap call i = some name → m.heap.string? key = some name →
      Q (key, name) m)
    (none : nameAt? m.heap call i = none → ∀ s, E s m) : Ends (nameConstant i) m Q E := by
  unfold nameAt? at some none
  refine .bind (.bind (.bind (.frame hf (.bind (.get ?_)))))
  cases hr : m.heap.function? call.function with
  | none => exact none (by rw [hr]; rfl) _
  | some f =>
    rw [hr] at some none
    refine .pure ?_
    cases hv : f.chunk.constants[i.toNat]? with
    | none => exact .throw (none (by simp [hv]) _)
    | some v =>
      refine .require rfl ?_
      cases v with
      | object key =>
        refine .bind (.get (.bind ?_))
        cases hn : m.heap.string? key with
        | none => exact .throw (none (by simp [hv, Heap.text?, hn]) _)
        | some name => exact .require rfl (.pure (some key name (by simp [hv, Heap.text?, hn]) hn))
      | _ => exact .throw (none (by simp [hv, Heap.text?]) _)

theorem ends_peek_top {Q : Value → Machine → Prop}
    (some : ∀ v, m.stack.back? = some v → Q v m)
    (none : m.stack.back? = none → ∀ s, E s m) : Ends (peek 0) m Q E := by
  by_cases filled : 0 < m.stack.size
  · exact .peek filled fun v hv => some v (by rwa [Array.back?])
  · refine .bind (.get ?_)
    rw [if_neg filled]
    exact none (Array.back?_eq_none_iff.2 (by simpa using filled)) _

/-- A global is defined if there are a name and a value; otherwise nothing is changed. -/
theorem ends_defineGlobal (k : Keyed g m) (hf : m.frames = call :: outer) (i : UInt8) :
    Ends (defineGlobal i) m
      (fun _ m' => ∃ name v, nameAt? m.heap call i = some name ∧ m.stack.back? = some v ∧
        m'.frames = m.frames ∧ m'.stack = m.stack.pop ∧ Keyed (g.insert name v) m')
      (fun _ m' => (nameAt? m.heap call i = none ∨ m.stack.back? = none) ∧ Keyed g m') := by
  refine .bind (ends_nameConstant hf (fun key name hn hk => ?_) fun hn s => ⟨.inl hn, k⟩)
  refine .bind (ends_peek_top (fun v hv => ?_) fun hv s => ⟨.inr hv, k⟩)
  have filled : 0 < m.stack.size := by
    cases he : m.stack.size with
    | zero => simp [Array.eq_empty_of_size_eq_zero he] at hv
    | succ n => exact Nat.succ_pos n
  refine .bind (.modify (.bind (.pop filled fun _ _ => .pure ?_)))
  refine ⟨name, v, hn, hv, rfl, rfl, k.honest, k.sound, fun fits => ?_⟩
  obtain ⟨d, f⟩ := k.directory fits
  exact ⟨_, f.insert (k.sound fits) hk v⟩

/-- A global is assigned if it is defined. Otherwise its new entry is taken back. -/
theorem ends_assignGlobal (k : Keyed g m) (fits : m.heap.size ≤ UInt32.size)
    (hf : m.frames = call :: outer) (i : UInt8) : Ends (assignGlobal i) m
      (fun _ m' => ∃ name v, nameAt? m.heap call i = some name ∧ m.stack.back? = some v ∧
        name ∈ g ∧ m'.frames = m.frames ∧ m'.stack = m.stack ∧ Keyed (g.insert name v) m')
      (fun s m' => Keyed g m' ∧ (nameAt? m.heap call i = none ∨ m.stack.back? = none ∨
        ∃ name v, nameAt? m.heap call i = some name ∧ m.stack.back? = some v ∧ name ∉ g ∧
          s = .fault (.undefinedVariable name))) := by
  refine .bind (ends_nameConstant hf (fun key name hn hk => ?_) fun hn s => ⟨k, .inl hn⟩)
  refine .bind (ends_peek_top (fun v hv => ?_) fun hv s => ⟨k, .inr (.inl hv)⟩)
  obtain ⟨d, f⟩ := k.directory fits
  have new := f.insert_new hk v
  have inserted := f.insert (k.sound fits) hk v
  have withdrawn := f.withdraw hk v
  refine .bind (.modifyGet ?_)
  generalize m.globals.insert key (Text.hash name) v = p at new inserted withdrawn
  obtain ⟨table, isNew⟩ := p
  by_cases present : name ∈ g
  · obtain rfl : isNew = false := new.trans (decide_eq_false (not_not.2 present))
    exact .pure ⟨name, v, hn, hv, present, rfl, rfl, k.globals fun _ => ⟨_, inserted⟩⟩
  · obtain rfl : isNew = true := new.trans (decide_eq_true present)
    exact .bind (.modify (.fail ⟨k.globals fun _ => ⟨_, withdrawn present⟩,
      .inr (.inr ⟨name, v, hn, hv, present, rfl⟩)⟩))

theorem ends_readGlobal (k : Keyed g m) (fits : m.heap.size ≤ UInt32.size)
    (hf : m.frames = call :: outer) {i : UInt8} {name : String}
    (hn : nameAt? m.heap call i = some name) : Ends (readGlobal i) m
      (fun _ m' => ∃ v, g.lookup name = some v ∧ m'.frames = m.frames ∧ m'.stack = m.stack.push v)
      (fun s _ => s = .fault (.undefinedVariable name) ∧ name ∉ g ∨
        name ∈ g ∧ stackLimit ≤ m.stack.size) := by
  refine .bind (ends_nameConstant hf (fun key name' hn' hk => ?_) fun none => by
    rw [hn] at none
    cases none)
  obtain rfl := Option.some.inj (hn.symm.trans hn')
  obtain ⟨d, f⟩ := k.directory fits
  refine .bind (.get ?_)
  rw [f.get?_eq hk]
  cases hv : g.lookup name with
  | none => exact .fail (.inl ⟨rfl, Finmap.lookup_eq_none.1 hv⟩)
  | some v =>
    have present := Finmap.mem_of_lookup_eq_some hv
    by_cases room : m.stack.size < stackLimit
    · exact ends_push room ⟨v, rfl, rfl, rfl⟩
    · refine .bind (.get ?_)
      rw [if_neg room]
      exact .fail (.inr ⟨present, Nat.le_of_not_lt room⟩)

end Instructions

/-- A machine with honest functions of the host that has run out of handles. -/
structure Crowded (m : Machine) : Prop where
  honest : ∀ f ∈ m.hosts, f.Honest
  size : UInt32.size < m.heap.size

namespace Crowded

variable {m : Machine}

theorem lasts (c : Crowded m) {heap : Heap} (l : m.heap.Lasts heap) : Crowded { m with heap } :=
  ⟨c.honest, Nat.lt_of_lt_of_le c.size l.size⟩

theorem gentle : Gentle Crowded where
  host arguments c hf := c.lasts (c.honest _ (Array.mem_of_getElem? hf) _ arguments)
  push _ c _ := ⟨c.honest, c.size⟩
  shrink c _ := ⟨c.honest, c.size⟩
  ip _ c _ := ⟨c.honest, c.size⟩
  call _ _ _ c _ := ⟨c.honest, c.size⟩
  allocate _ string c := c.lasts (.allocate _ string)
  intern text c := c.lasts (.intern _ text)
  close v hr c := c.lasts (.set hr (.closed v))
  upvalues _ c := ⟨c.honest, c.size⟩
  outside _ _ c := ⟨c.honest, c.size⟩

theorem instruction : Keeps Crowded instruction :=
  .assigning gentle (fun _ c => ⟨c.honest, c.size⟩) (fun _ _ c => ⟨c.honest, c.size⟩)
    (fun _ _ _ v hr c => c.lasts (.set hr (.closed v))) fun _ r i v c => c.lasts (.setElement _ r i v)

/-- Nothing is left to be shown without handles. -/
theorem keyed (c : Crowded m) (g : Globals) : Keyed g m :=
  ⟨c.honest, fun fits => absurd c.size (Nat.not_lt_of_le fits),
    fun fits => absurd c.size (Nat.not_lt_of_le fits)⟩

end Crowded

section Step

variable {m : Machine} {g : Globals} {call : Frame} {outer : List Frame}

theorem access?_eq_some {a : Access} (h : m.access? = some a) :
    ∃ call i, nameAt? m.heap call i = some a.name ∧
      match a with
      | .read _ => m.next? = some (call, .getGlobal i)
      | .define _ v => m.next? = some (call, .defineGlobal i) ∧ m.stack.back? = some v
      | .assign _ v => m.next? = some (call, .setGlobal i) ∧ m.stack.back? = some v := by
  unfold access? at h
  split at h
  next call i hn =>
    obtain ⟨name, hname, rfl⟩ := Option.map_eq_some_iff.1 h
    exact ⟨call, i, hname, hn⟩
  next call i hn =>
    simp only [Option.bind_eq_bind, Option.bind_eq_some_iff, Option.pure_def,
      Option.some.injEq] at h
    obtain ⟨name, hname, v, hv, rfl⟩ := h
    exact ⟨call, i, hname, hn, hv⟩
  next call i hn =>
    simp only [Option.bind_eq_bind, Option.bind_eq_some_iff, Option.pure_def,
      Option.some.injEq] at h
    obtain ⟨name, hname, v, hv, rfl⟩ := h
    exact ⟨call, i, hname, hn, hv⟩
  next => cases h

theorem advance_of_none (h : m.access? = none) : m.advance g = g := by
  rw [advance, h]
  rfl

theorem advance_of_some {a : Access} (h : m.access? = some a) : m.advance g = a.apply g := by
  rw [advance, h]
  rfl

theorem access?_define {i : UInt8} (hn : m.next? = some (call, .defineGlobal i)) :
    m.access? = do return .define (← nameAt? m.heap call i) (← m.stack.back?) := by
  rw [access?, hn]

theorem access?_assign {i : UInt8} (hn : m.next? = some (call, .setGlobal i)) :
    m.access? = do return .assign (← nameAt? m.heap call i) (← m.stack.back?) := by
  rw [access?, hn]

theorem advance_of_calm {i : Instruction} (hn : m.next? = some (call, i))
    (calm : ∀ j, i ≠ .defineGlobal j ∧ i ≠ .setGlobal j) : m.advance g = g := by
  cases ha : m.access? with
  | none => exact advance_of_none ha
  | some a =>
    obtain ⟨call', j, -, next⟩ := access?_eq_some ha
    rw [advance_of_some ha]
    cases a with
    | read => rfl
    | define =>
      cases hn.symm.trans next.1
      exact ((calm j).1 rfl).elim
    | assign =>
      cases hn.symm.trans next.1
      exact ((calm j).2 rfl).elim

theorem keyed_instruction (k : Keyed g m) (fits : m.heap.size ≤ UInt32.size) :
    Ends instruction m (fun _ => Keyed (m.advance g)) fun _ => Keyed (m.advance g) := by
  have s := Keyed.gentle g
  refine .bind (ends_fetch (fun call outer i hf hn => ?_) fun hn _ => ?_)
  · have start := s.ip (call.ip + i.size) k hf
    have same := advance_of_calm (g := g) hn
    cases i with
    | defineGlobal j =>
      refine (ends_defineGlobal start rfl j).imp ?_ ?_
      · rintro _ m' ⟨name, v, (hname : nameAt? m.heap call j = some name),
          (hv : m.stack.back? = some v), -, -, k'⟩
        have access : m.access? = some (.define name v) := by simp [access?_define hn, hname, hv]
        rwa [advance_of_some access]
      · rintro _ m' ⟨(missing | missing :
          nameAt? m.heap call j = none ∨ m.stack.back? = none), k'⟩
        · rwa [advance_of_none (by simp [access?_define hn, missing])]
        · rwa [advance_of_none (by simp [access?_define hn, missing])]
    | setGlobal j =>
      refine (ends_assignGlobal start fits rfl j).imp ?_ ?_
      · rintro _ m' ⟨name, v, (hname : nameAt? m.heap call j = some name),
          (hv : m.stack.back? = some v), present, -, -, k'⟩
        have access : m.access? = some (.assign name v) := by simp [access?_assign hn, hname, hv]
        rwa [advance_of_some access, Access.apply, if_pos present]
      · rintro _ m' ⟨k', (missing | missing | ⟨name, v, (hname : nameAt? m.heap call j = some name),
          (hv : m.stack.back? = some v), absent, -⟩ :
            nameAt? m.heap call j = none ∨ m.stack.back? = none ∨ _)⟩
        · rwa [advance_of_none (by simp [access?_assign hn, missing])]
        · rwa [advance_of_none (by simp [access?_assign hn, missing])]
        · have access : m.access? = some (.assign name v) := by simp [access?_assign hn, hname, hv]
          rwa [advance_of_some access, Access.apply, if_neg absent]
    | setUpvalue j =>
      rw [same (by simp)]
      exact Keeps.assignUpvalue s j (fun _ _ _ v hr k => k.lasts (.set hr (.closed v))) _ start
    | setIndex =>
      rw [same (by simp)]
      exact Keeps.assignElement s (fun _ r i v k => k.lasts (.setElement _ r i v)) _ start
    | ret =>
      rw [same (by simp)]
      exact Keeps.endCall s (fun _ k => ⟨k.honest, k.sound, k.directory⟩) _ start
    | _ =>
      rw [same (by simp)]
      refine Keeps.calmly s ?_ _ start
      trivial
  · rw [advance_of_none]
    · exact k
    · rw [access?, hn]

theorem Keyed.step (k : Keyed g m) : Keyed (m.advance g) m.step.2 := by
  cases hf : m.frames with
  | nil =>
    have idle : m.access? = none := by
      rw [access?, next?, hf]
    rw [step_idle hf, advance_of_none idle]
    exact k
  | cons call outer =>
    have ends : Ends instruction m (fun _ => Keyed (m.advance g)) fun _ => Keyed (m.advance g) := by
      by_cases fits : m.heap.size ≤ UInt32.size
      · exact keyed_instruction k fits
      · have crowded : Crowded m := ⟨k.honest, Nat.lt_of_not_le fits⟩
        exact (Crowded.instruction m crowded).imp (fun _ _ c => c.keyed _) fun _ _ c => c.keyed _
    obtain ⟨m', k', e⟩ | ⟨s, m', k', e⟩ := step_cases hf ends
    · rw [e]
      exact k'
    · rw [e]
      exact k'.stopWith s

/-- The outcome of a step, given what its instruction does behind the fetching. -/
theorem step_of_execute {i : Instruction} {Q : Machine → Prop} {E : Stop → Machine → Prop}
    (hn : m.next? = some (call, i))
    (ends : ∀ call' outer, call'.function = call.function → Ends (execute i)
      { m with frames := call' :: outer } (fun _ m' => m'.frames = call' :: outer ∧ Q m') E) :
    (m.step.1 = .running ∧ Q m.step.2) ∨ ∃ s m', E s m' ∧ m.step = m'.stopWith s := by
  obtain ⟨outer, f, hf, hr, hi⟩ := next?_eq_some hn
  obtain ⟨m', ⟨frames, q⟩, e⟩ | ⟨s, m', h, e⟩ := step_cases hf (.bind (.fetch hf hr hi (ends _ outer rfl)))
  · rw [e]
    exact .inl ⟨progress_cons frames, q⟩
  · exact .inr ⟨s, m', h, e⟩

theorem Keyed.calling (k : Keyed g m) (frames : List Frame) : Keyed g { m with frames } :=
  ⟨k.honest, k.sound, k.directory⟩

theorem failed_undefined {m' : Machine} {name : String}
    (e : m.step = m'.stopWith (.fault (.undefinedVariable name))) :
    ∃ trace, m.step.1 = .failed (.runtime (.undefinedVariable name) trace) := by
  rw [e]
  exact ⟨_, rfl⟩

theorem nameAt?_congr {h : Heap} {call call' : Frame} (same : call'.function = call.function)
    (i : UInt8) : nameAt? h call' i = nameAt? h call i := by
  rw [nameAt?, nameAt?, same]

theorem Keyed.reads (k : Keyed g m) (fits : m.heap.size ≤ UInt32.size) {name : String}
    (h : m.access? = some (.read name)) :
    (m.step.1 = .running ∧ ∃ v, g.lookup name = some v ∧ m.step.2.stack = m.stack.push v) ∨
      (name ∉ g ∧ ∃ trace, m.step.1 = .failed (.runtime (.undefinedVariable name) trace)) ∨
      (name ∈ g ∧ stackLimit ≤ m.stack.size) := by
  obtain ⟨call, i, hname, hn⟩ := access?_eq_some h
  have ends (call' : Frame) (outer : List Frame) (same : call'.function = call.function) :
      Ends (readGlobal i) { m with frames := call' :: outer }
        (fun _ m' => m'.frames = call' :: outer ∧
          ∃ v, g.lookup name = some v ∧ m'.stack = m.stack.push v)
        (fun s _ => s = .fault (.undefinedVariable name) ∧ name ∉ g ∨
          name ∈ g ∧ stackLimit ≤ m.stack.size) := by
    refine (ends_readGlobal (k.calling (call' :: outer)) fits rfl ((nameAt?_congr same i).trans hname)).imp
      (fun _ m' h => ?_) fun _ _ h => h
    obtain ⟨v, hv, frames, stack⟩ := h
    exact ⟨frames, v, hv, stack⟩
  obtain done | ⟨s, m', ⟨rfl, absent⟩ | full, e⟩ := step_of_execute hn ends
  · exact .inl done
  · exact .inr (.inl ⟨absent, failed_undefined e⟩)
  · exact .inr (.inr full)

theorem Keyed.defines (k : Keyed g m) {name : String} {v : Value}
    (h : m.access? = some (.define name v)) : m.step.1 = .running ∧ m.step.2.stack = m.stack.pop := by
  obtain ⟨call, i, hname, hn, hv⟩ := access?_eq_some h
  have ends (call' : Frame) (outer : List Frame) (same : call'.function = call.function) :
      Ends (defineGlobal i) { m with frames := call' :: outer }
        (fun _ m' => m'.frames = call' :: outer ∧ m'.stack = m.stack.pop) (fun _ _ => False) := by
    refine (ends_defineGlobal (k.calling (call' :: outer)) rfl i).imp (fun _ m' h => ?_) fun _ _ h => ?_
    · obtain ⟨_, _, _, _, frames, stack, _⟩ := h
      exact ⟨frames, stack⟩
    · obtain ⟨missing | missing, -⟩ := h
      · cases ((nameAt?_congr same i).trans hname).symm.trans missing
      · cases hv.symm.trans missing
  obtain done | ⟨s, m', none, -⟩ := step_of_execute hn ends
  · exact done
  · exact none.elim

theorem Keyed.assigns (k : Keyed g m) (fits : m.heap.size ≤ UInt32.size) {name : String} {v : Value}
    (h : m.access? = some (.assign name v)) :
    (m.step.1 = .running ∧ name ∈ g ∧ m.step.2.stack = m.stack) ∨
      (name ∉ g ∧ ∃ trace, m.step.1 = .failed (.runtime (.undefinedVariable name) trace)) := by
  obtain ⟨call, i, hname, hn, hv⟩ := access?_eq_some h
  have ends (call' : Frame) (outer : List Frame) (same : call'.function = call.function) :
      Ends (assignGlobal i) { m with frames := call' :: outer }
        (fun _ m' => m'.frames = call' :: outer ∧ name ∈ g ∧ m'.stack = m.stack)
        (fun s _ => s = .fault (.undefinedVariable name) ∧ name ∉ g) := by
    have hname := (nameAt?_congr same i).trans hname
    refine (ends_assignGlobal (k.calling (call' :: outer)) fits rfl i).imp (fun _ m' h => ?_) fun _ _ h => ?_
    · obtain ⟨name', v', hname', -, present, frames, stack, -⟩ := h
      obtain rfl := Option.some.inj (hname.symm.trans hname')
      exact ⟨frames, present, stack⟩
    · obtain ⟨-, missing | missing | ⟨name', v', hname', -, absent, rfl⟩⟩ := h
      · cases hname.symm.trans missing
      · cases hv.symm.trans missing
      · obtain rfl := Option.some.inj (hname.symm.trans hname')
        exact ⟨rfl, absent⟩
  obtain done | ⟨s, m', ⟨rfl, absent⟩, e⟩ := step_of_execute hn ends
  · exact .inl done
  · exact .inr ⟨absent, failed_undefined e⟩

/-- An instruction that uses a global goes on in its call, or tells that the global is undefined. -/
theorem Keyed.obeys (k : Keyed g m) (fits : m.heap.size ≤ UInt32.size) : Obeys m g where
  read name v h hv room := by
    obtain ⟨running, v', hv', stack⟩ | ⟨absent, -⟩ | ⟨-, full⟩ := k.reads fits h
    · obtain rfl := Option.some.inj (hv.symm.trans hv')
      exact ⟨running, stack⟩
    · exact (absent (Finmap.mem_of_lookup_eq_some hv)).elim
    · omega
  define name v h := k.defines h
  assign name v h present := by
    obtain ⟨running, -, stack⟩ | ⟨absent, -⟩ := k.assigns fits h
    · exact ⟨running, stack⟩
    · exact (absent present).elim
  undefined a h uses absent := by
    rw [advance_of_some h]
    cases a with
    | read name =>
      refine ⟨rfl, ?_⟩
      obtain ⟨-, v, hv, -⟩ | ⟨-, failed⟩ | ⟨present, -⟩ := k.reads fits h
      · exact (absent (Finmap.mem_of_lookup_eq_some hv)).elim
      · exact failed
      · exact (absent present).elim
    | assign name v =>
      refine ⟨if_neg absent, ?_⟩
      obtain ⟨-, present, -⟩ | ⟨-, failed⟩ := k.assigns fits h
      · exact (absent present).elim
      · exact failed
    | define => exact uses.elim

end Step

section History

variable {m : Machine} {g : Globals}

theorem keyed_bare (output : Output) (world : World) : Keyed ∅ (bare output world) where
  honest f hf := by simp [bare] at hf
  sound _ := Heap.sound_empty
  directory _ := ⟨∅, .empty _⟩

/-- A native is found under its name. -/
theorem Keyed.define (k : Keyed g m) (name : String) (arity : Nat) (p : Procedure) :
    Keyed (g.insert name (.object (m.nativeRef name))) (m.define name arity p) := by
  have named : m.heap.Lasts (m.heap.intern name).1 := .intern _ _
  have native : (m.heap.intern name).1.Lasts (m.define name arity p).heap :=
    .allocate _ (by simp)
  have both := k.lasts (named.trans native)
  refine both.globals fun fits => ?_
  obtain ⟨d, f⟩ := both.directory fits
  have key := native.string _ _ (m.heap.string?_intern name (Nat.le_trans native.size fits))
  exact ⟨_, f.insert (both.sound fits) key _⟩

theorem Keyed.provide (k : Keyed g m) (name : String) (arity : Nat) {f : HostFunction}
    (honest : f.Honest) :
    Keyed (g.insert name (.object (m.nativeRef name))) (m.provide name arity f) := by
  have more : Keyed g { m with hosts := m.hosts.push f } := by
    refine ⟨fun f' hf => ?_, k.sound, k.directory⟩
    obtain hf | rfl := Array.mem_push.1 hf
    · exact k.honest f' hf
    · exact honest
  exact more.define name arity _

theorem keyed_enter (k : Keyed g m) (r : Ref) : Ends (enter r) m (fun _ => Keyed g) fun _ => Keyed g :=
  have s := Keyed.gentle g
  Keeps.bind (.allocate s (by simp) (by simp)) (fun _ => .bind (.push s _) fun _ =>
    .callClosure s _ _) _ k

theorem Keyed.load (k : Keyed g m) (source : String) : Keyed g (m.load source).2 := by
  have compiled := k.lasts (Compile.compile_gains source m.heap).lasts
  rw [load_eq]
  split
  next => exact compiled
  next r _ =>
    have entered := keyed_enter compiled r
    unfold Ends at entered
    simp only [EStateM.run]
    split
    next hx =>
      rw [hx] at entered
      exact entered
    next hx =>
      rw [hx] at entered
      exact entered

theorem History.keyed (h : History m g) : Keyed g m := by
  induction h with
  | bare output world => exact keyed_bare output world
  | outside world _ k => exact ⟨k.honest, k.sound, k.directory⟩
  | define name arity b _ k => exact k.define name arity _
  | provide name arity honest _ k => exact k.provide name arity honest
  | load source _ k => exact k.load source
  | step _ k => exact k.step

/-- The globals of a new machine: its own natives. -/
def builtins (m : Machine) : List Builtin → Globals → Globals
  | [], g => g
  | b :: bs, g =>
    builtins (m.define b.name b.arity (.builtin b)) bs (g.insert b.name (.object (m.nativeRef b.name)))

theorem History.new (output : Output) (world : World) :
    History (.new output world) (builtins (Machine.bare output world) Builtin.all ∅) := by
  have fold (bs : List Builtin) (m : Machine) (g : Globals) (h : History m g) :
      History (bs.foldl (fun m b => m.define b.name b.arity (.builtin b)) m) (builtins m bs g) := by
    induction bs generalizing m g with
    | nil => exact h
    | cons b bs ih => exact ih _ _ (h.define _ _ _)
  unfold Machine.new
  exact fold Builtin.all (Machine.bare output world) ∅ (.bare output world)

theorem History.run (h : History m g) (n : Nat) : History (m.run n).2 (track n m g) := by
  induction n generalizing m g with
  | zero => exact h
  | succ n ih =>
    rw [track]
    split
    next running =>
      rw [run_of_running running]
      exact ih h.step
    next stopped =>
      rw [run_of_stopped stopped]
      exact h.step

/-- The globals behind a script: those that its instructions lead to, unless it does not compile. -/
def trackScript (n : Nat) (source : String) (m : Machine) (g : Globals) : Globals :=
  match m.load source with
  | (.ok _, m) => track n m g
  | (.error _, _) => g

theorem History.interpret (h : History m g) (n : Nat) (source : String) :
    History (m.interpret n source).2 (trackScript n source m g) := by
  have loaded := h.load source
  unfold Machine.interpret trackScript
  generalize m.load source = result at loaded
  obtain ⟨result, m'⟩ := result
  cases result with
  | ok => exact loaded.run n
  | error e => exact loaded

end History

/-- A native is on the heap under the handle that its name stands for. -/
theorem native?_define (m : Machine) (name : String) (arity : Nat) (p : Procedure)
    (fits : (m.define name arity p).heap.size ≤ UInt32.size) :
    (m.define name arity p).heap.native? (m.nativeRef name) = some ⟨name, arity, p⟩ := by
  have size := Heap.size_allocate (m.heap.intern name).1 (.native ⟨name, arity, p⟩)
  have larger : (m.define name arity p).heap.size = (m.heap.intern name).1.size + 1 := size
  have room : (m.heap.intern name).1.size < UInt32.size := by omega
  exact Heap.native?_eq_some.2 (Heap.get?_allocate (o := .native ⟨name, arity, p⟩) room)

/-- The globals of a machine are a map from names. Natives and definitions insert or overwrite,
assignments overwrite what is there, and nothing else changes the map, whatever scripts and natives
came before and whatever the hashes of the names are. Looking a global up, listing all globals and
the instructions that use a global agree with the map; those that use an undefined one fail. -/
theorem globals_agree :
    (∀ output world, History (.new output world) (builtins (bare output world) Builtin.all ∅)) ∧
    (∀ m g n source, History m g → History (m.interpret n source).2 (trackScript n source m g)) ∧
    (∀ (m : Machine) name arity p, (m.define name arity p).heap.size ≤ UInt32.size →
      (m.define name arity p).heap.native? (m.nativeRef name) = some ⟨name, arity, p⟩) ∧
    ∀ m g, History m g → m.heap.size ≤ UInt32.size → Shows m g ∧ Obeys m g :=
  ⟨.new, fun _ _ n source h => h.interpret n source, native?_define,
    fun _ _ h fits => ⟨h.keyed.shows fits, h.keyed.obeys fits⟩⟩

/-- A function of the host that does nothing. -/
def idle : HostFunction := fun h _ => (h, .ok .nil)

theorem honest_idle : idle.Honest := fun h _ => .refl h

/-- A script about to assign to a name that nothing has defined, beside a function of the host. -/
theorem globals_agree_undefined :
    let m := ((((new .unlimited .still).provide "idle" 0 idle).load "x = 1;").2.run 1).2
    ∃ g, History m g ∧ m.heap.size ≤ UInt32.size ∧ m.access? = some (.assign "x" (.number 1)) ∧
      Shows m g ∧ Obeys m g ∧ "x" ∉ g ∧ "idle" ∈ g ∧ Shows m.step.2 g := by
  have small : ((((new .unlimited .still).provide "idle" 0 idle).load "x = 1;").2.run
      1).2.heap.size ≤ UInt32.size := by
    decide +kernel
  have small' : ((((new .unlimited .still).provide "idle" 0 idle).load "x = 1;").2.run
      1).2.step.2.heap.size ≤ UInt32.size := by
    decide +kernel
  have access : ((((new .unlimited .still).provide "idle" 0 idle).load "x = 1;").2.run
      1).2.access? = some (.assign "x" (.number 1)) := by
    decide +kernel
  have x : ((((new .unlimited .still).provide "idle" 0 idle).load "x = 1;").2.run
      1).2.global? "x" = none := by
    decide +kernel
  have host : ((((new .unlimited .still).provide "idle" 0 idle).load "x = 1;").2.run
      1).2.global? "idle" ≠ none := by
    decide +kernel
  have history := (((History.new .unlimited .still).provide "idle" 0 honest_idle).load "x = 1;").run 1
  obtain ⟨shown, obeys⟩ := globals_agree.2.2.2 _ _ history small
  rw [shown.global, Finmap.lookup_eq_none] at x
  rw [shown.global, ne_eq, Finmap.lookup_eq_none, not_not] at host
  have after := (globals_agree.2.2.2 _ _ history.step small').1
  rw [(obeys.undefined _ access trivial x).1] at after
  exact ⟨_, history, small, access, shown, obeys, x, host, after⟩

end Machine
end StackScript
