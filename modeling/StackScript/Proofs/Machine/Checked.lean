import StackScript.Proofs.Machine.Stable
import StackScript.Proofs.Store.Guarded

/-!
# StackScript.Proofs.Machine.Checked

The machine once more, with a crash wherever it takes an element at an index or the difference of
two numbers without looking first, on its stack, in its arrays and in the slots of its tables.

* `Checked`: a computation that may crash. `item`, `minus`, `rest`, `guarded`: what crashes.
* `Search`: what is known about the search among the open upvalues.
* `Checked.execute`, `Checked.step`: instructions and steps.
* `Agrees`: a computation that may crash does what one that cannot does.
* `Safely`: a computation does not crash.
-/

namespace StackScript
namespace Machine

/-- A stop, or an index or a difference out of range. -/
inductive Halt where
  | stop (s : Stop)
  | crash

abbrev Checked := EStateM Halt Machine

/-- A search for a key: where it is, or else a place for it. -/
structure Search where
  run : List Nat → Nat → Except Nat Nat
  found : ∀ {keys key i}, run keys key = .ok i → keys[i]? = some key
  missing : ∀ {keys key i}, run keys key = .error i → i ≤ keys.length

namespace Checked

variable {α : Type}

def ofExec (x : Exec α) : Checked α := fun m =>
  match x m with
  | .ok a m' => .ok a m'
  | .error s m' => .error (.stop s) m'

/-- The element at an index. -/
def item {β : Type} (xs : List β) (i : Nat) : Checked β :=
  match xs[i]? with
  | some x => return x
  | none => throw .crash

/-- The difference of two numbers. -/
def minus (a b : Nat) : Checked Nat := if b ≤ a then return a - b else throw .crash

/-- The elements from an index on. -/
def rest (xs : Array Value) (start : Nat) : Checked (Array Value) :=
  if start ≤ xs.size then return xs.extract start xs.size else throw .crash

/-- What the search of a table gives. -/
def guarded {β : Type} : Option β → Checked β
  | some b => return b
  | none => throw .crash

def peek (distance : Nat) : Checked Value := do
  let stack := (← get).stack
  if distance + 1 ≤ stack.size then
    item stack.toList (stack.size - (distance + 1))
  else
    ofExec (malformed .emptyStack)

/-- Drops the topmost slots. -/
def drop (count : Nat) : Checked Unit := do
  let size ← minus (← get).stack.size count
  ofExec (truncate size)

def popNumbers : Checked (Float × Float) := do
  match ← peek 1, ← peek 0 with
  | .number a, .number b =>
    drop 2
    return (a, b)
  | _, _ => ofExec (fail .notNumbers)

def numeric (f : Float → Float → Float) : Checked Unit := do
  let (a, b) ← popNumbers
  ofExec (push (.number (f a b)))

def comparison (f : Float → Float → Bool) : Checked Unit := do
  let (a, b) ← popNumbers
  ofExec (push (.bool (f a b)))

def assignLocal (i : UInt8) : Checked Unit := do
  let base := (← ofExec frame).base
  let v ← peek 0
  ofExec (setSlot (base + i.toNat) v)

def readGlobal (i : UInt8) : Checked Unit := do
  let (key, name) ← ofExec (nameConstant i)
  match ← guarded (Table.Guarded.get? (← get).globals key (Text.hash name)) with
  | some v => ofExec (push v)
  | none => ofExec (fail (.undefinedVariable name))

/-- Sets the value of a global; also tells whether it is new. -/
def insertGlobal (key : Ref) (name : String) (v : Value) : Checked Bool := do
  let (globals, isNew) ← guarded (Table.Guarded.insert (← get).globals key (Text.hash name) v)
  modify fun m => { m with globals }
  return isNew

def defineGlobal (i : UInt8) : Checked Unit := do
  let (key, name) ← ofExec (nameConstant i)
  let v ← peek 0
  let _ ← insertGlobal key name v
  let _ ← ofExec pop

def assignGlobal (i : UInt8) : Checked Unit := do
  let (key, name) ← ofExec (nameConstant i)
  let v ← peek 0
  let isNew ← insertGlobal key name v
  if isNew then
    let (globals, _) ← guarded (Table.Guarded.erase (← get).globals key (Text.hash name))
    modify fun m => { m with globals }
    ofExec (fail (.undefinedVariable name))

def assignUpvalue (i : UInt8) : Checked Unit := do
  let r ← ofExec (upvalueRef i)
  let v ← peek 0
  match (← get).heap.upvalue? r with
  | some (.opened s) => ofExec (setSlot s v)
  | some (.closed _) => modify fun m => { m with heap := m.heap.set r (.upvalue (.closed v)) }
  | none => ofExec (malformed (.notAnUpvalue r))

/-- The elements of an array that was found. -/
def elements (r : Ref) : Checked (Array Value) := do
  match (← get).heap.array? r with
  | some elements => return elements
  | none => throw .crash

def readElement : Checked Unit := do
  let index ← ofExec pop
  let target ← ofExec pop
  let (r, i) ← ofExec (element target index)
  let v ← item (← elements r).toList i
  ofExec (push v)

def assignElement : Checked Unit := do
  let v ← ofExec pop
  let index ← ofExec pop
  let target ← ofExec pop
  let (r, i) ← ofExec (element target index)
  let _ ← item (← elements r).toList i
  modify fun m => { m with heap := m.heap.setElement r i v }
  ofExec (push v)

def intern (text : String) : Checked Ref := do
  let (heap, r) ← guarded ((← get).heap.guardedIntern text)
  modify fun m => { m with heap }
  return r

def sum (a b : Value) : Checked Value := do
  match a, b with
  | .number x, .number y => return .number (x + y)
  | _, _ =>
    let h := (← get).heap
    match h.text? a, h.text? b with
    | some s, some t => return .object (← intern (s ++ t))
    | _, _ => ofExec (fail .notAddable)

def addOperands : Checked Unit := do
  let a ← peek 1
  let b ← peek 0
  let v ← sum a b
  drop 2
  ofExec (push v)

def negateNumber : Checked Unit := do
  match ← peek 0 with
  | .number x =>
    let _ ← ofExec pop
    ofExec (push (.number (-x)))
  | _ => ofExec (fail .notANumber)

def jumpAheadIfFalse (distance : UInt16) : Checked Unit := do
  if (← peek 0).isFalsey then
    ofExec (jumpAhead distance)

def callClosure (r : Ref) (count : Nat) : Checked Unit := do
  let h := (← get).heap
  match h.closure? r with
  | none => ofExec (malformed (.notAClosure r))
  | some c =>
    let arity := (h.function? c.function).elim 0 Function.arity
    if count ≠ arity then
      ofExec (fail (.arguments arity count))
    else if (← get).frames.length < frameLimit then
      let start ← minus (← get).stack.size count
      let base ← minus start 1
      modify fun m => { m with frames := ⟨r, c.function, 0, base⟩ :: m.frames }
    else
      ofExec (fail .stackOverflow)

/-- Whether a native looks at its argument. -/
def takesArgument : Builtin → Bool
  | .clock | .random => false
  | _ => true

/-- The text of a file that a native reads, and puts on the heap. -/
def fileText? (b : Builtin) (m : Machine) (argument : Value) : Option String :=
  match b, m.heap.text? argument with
  | .readFile, some path =>
    match m.world.files path with
    | .text content => some content
    | _ => none
  | _, _ => none

/-- A native, behind the search among the strings that it makes. -/
def callBuiltin (b : Builtin) (argument : Value) : Checked Value := do
  let m ← get
  if let some content := fileText? b m argument then
    let _ ← guarded (m.heap.guardedIntern content)
  ofExec (Machine.runProcedure (.builtin b) [argument])

def runProcedure (p : Procedure) (arguments : Array Value) : Checked Value := do
  match p with
  | .builtin b =>
    let argument ← if takesArgument b then item arguments.toList 0 else pure .nil
    callBuiltin b argument
  | .host index => ofExec (Machine.runProcedure (.host index) arguments.toList)

def callNative (r : Ref) (count : Nat) : Checked Unit := do
  match (← get).heap.native? r with
  | none => ofExec (malformed (.notANative r))
  | some n =>
    if count ≠ n.arity then
      ofExec (fail (.arguments n.arity count))
    else
      let stack := (← get).stack
      let start ← minus stack.size count
      let arguments ← rest stack start
      let v ← runProcedure n.procedure arguments
      let size ← minus start 1
      ofExec (truncate size)
      ofExec (push v)

def startCall (count : UInt8) : Checked Unit := do
  match ← peek count.toNat with
  | .object r =>
    let h := (← get).heap
    if (h.closure? r).isSome then
      callClosure r count.toNat
    else if (h.native? r).isSome then
      callNative r count.toNat
    else
      ofExec (fail .notCallable)
  | _ => ofExec (fail .notCallable)

/-- The upvalue that a search has found, or else a new one at the place that the search tells. -/
def settle (slot : Nat) (rising : List Ref) : Except Nat Nat → Checked Ref
  | .ok i => item rising i
  | .error i =>
    if i ≤ rising.length then do
      let r ← ofExec (allocate (.upvalue (.opened slot)))
      modify fun m => { m with openUpvalues := (rising.take i ++ r :: rising.drop i).reverse }
      return r
    else
      throw .crash

/-- The upvalue of a slot. The search goes up the stack, where the list of open upvalues goes
down. -/
def captureSlot (s : Search) (slot : Nat) : Checked Ref := do
  let m ← get
  let rising := m.openUpvalues.reverse
  settle slot rising (s.run (rising.map (slotOf m.heap)) slot)

def captures (s : Search) (base : Nat) : Nat → Array Ref → Checked (Array Ref)
  | 0, upvalues => return upvalues
  | n + 1, upvalues => do
    let ip := (← ofExec frame).ip
    match (← ofExec chunk).read? ip with
    | some (.capture c) =>
      let r ← if c.isLocal then captureSlot s (base + c.index.toNat) else ofExec (upvalueRef c.index)
      ofExec (setIp (ip + 3))
      captures s base n (upvalues.push r)
    | _ => ofExec (malformed (.noCapture ip))

def makeClosure (s : Search) (i : UInt8) : Checked Unit := do
  match ← ofExec (constant i) with
  | .object r =>
    match (← get).heap.function? r with
    | some f =>
      let upvalues ← captures s (← ofExec frame).base f.upvalueCount #[]
      let closure ← ofExec (allocate (.closure ⟨r, upvalues⟩))
      ofExec (push (.object closure))
    | none => ofExec (malformed (.constantNotAFunction i))
  | _ => ofExec (malformed (.constantNotAFunction i))

def makeArray (count : UInt8) : Checked Unit := do
  let stack := (← get).stack
  if count.toNat ≤ stack.size then
    let start ← minus stack.size count.toNat
    let elements ← rest stack start
    ofExec (truncate start)
    let r ← ofExec (allocate (.array elements))
    ofExec (push (.object r))
  else
    ofExec (fail .stackUnderflow)

/-- One instruction. Those that take no element and no difference, and search no table, are as
before. -/
def execute (s : Search) : Instruction → Checked Unit
  | .setLocal i => assignLocal i
  | .getGlobal i => readGlobal i
  | .defineGlobal i => defineGlobal i
  | .setGlobal i => assignGlobal i
  | .setUpvalue i => assignUpvalue i
  | .getIndex => readElement
  | .setIndex => assignElement
  | .greater => comparison fun a b => decide (b < a)
  | .less => comparison fun a b => decide (a < b)
  | .add => addOperands
  | .subtract => numeric (· - ·)
  | .multiply => numeric (· * ·)
  | .divide => numeric (· / ·)
  | .negate => negateNumber
  | .jumpIfFalse d => jumpAheadIfFalse d
  | .call n => startCall n
  | .closure i => makeClosure s i
  | .array n => makeArray n
  | i => ofExec (Machine.execute i)

def instruction (s : Search) : Checked Unit := do
  execute s (← ofExec fetch)

/-- One instruction of the innermost call, unless it crashes. -/
def step (s : Search) (m : Machine) : Option (Progress × Machine) :=
  if m.frames.isEmpty then some (.finished, m)
  else
    match instruction s m with
    | .ok _ m => some (m.progress, m)
    | .error (.stop stop) m => some (m.stopWith stop)
    | .error .crash _ => none

end Checked

/-- A computation that may crash ends as one that cannot. -/
def Agrees {α : Type} (x : Checked α) (y : Exec α) (m : Machine) : Prop := x m = Checked.ofExec y m

/-- A native of the machine, with the number of arguments that it takes. -/
def IsBuiltin (n : Native) : Prop := ∃ b, n.procedure = .builtin b ∧ n.arity = b.arity

/-- All natives of a heap are natives of the machine. -/
def Builtins (h : Heap) : Prop := ∀ r n, h.native? r = some n → IsBuiltin n

theorem Builtins.onward {h h' : Heap} (b : Builtins h) (o : h.Onward h') : Builtins h' :=
  fun r n hn => b r n (o.natives hn)

/-- Behind a computation that gives a value. -/
theorem Keeps.ok {α : Type} {I : Machine → Prop} {x : Exec α} {m m' : Machine} {a : α}
    (k : Keeps I x) (h : I m) (e : x m = .ok a m') : I m' := by
  have := k m h
  rwa [Ends, e] at this

theorem get_bind {ε β : Type} {m : Machine} {f : Machine → EStateM ε Machine β} :
    (get >>= f) m = f m m := rfl

namespace Agrees

open Checked (ofExec)

variable {α β : Type} {x : Checked α} {y : Exec α} {f : α → Checked β} {g : α → Exec β}
  {m : Machine}

theorem ofExec (y : Exec α) : Agrees (ofExec y) y m := rfl

theorem pure (a : α) : Agrees (Pure.pure a) (Pure.pure a) m := rfl

theorem get : Agrees MonadState.get MonadState.get m := rfl

theorem bind (h : Agrees x y m) (hf : ∀ a m', y m = .ok a m' → Agrees (f a) (g a) m') :
    Agrees (x >>= f) (y >>= g) m := by
  unfold Agrees Checked.ofExec at *
  simp only [Bind.bind, EStateM.bind, h]
  cases hy : y m with
  | ok a m' => exact hf a m' hy
  | error s m' => rfl

/-- Looking at the machine. -/
theorem bind_get {f : Machine → Checked β} {g : Machine → Exec β} (h : Agrees (f m) (g m) m) :
    Agrees (MonadState.get >>= f) (MonadState.get >>= g) m := h

theorem look {f : Machine → Checked β} {y : Exec β} (h : Agrees (f m) y m) :
    Agrees (MonadState.get >>= f) y m := h

/-- An element in range. -/
theorem bind_item {γ : Type} {xs : List γ} {i : Nat} {a : γ} {f : γ → Checked β} {y : Exec β}
    (ha : xs[i]? = some a) (h : Agrees (f a) y m) : Agrees (Checked.item xs i >>= f) y m := by
  unfold Checked.item
  rw [ha]
  exact h

/-- A difference that is none below zero. -/
theorem bind_minus {a b : Nat} {f : Nat → Checked β} {y : Exec β} (hb : b ≤ a)
    (h : Agrees (f (a - b)) y m) : Agrees (Checked.minus a b >>= f) y m := by
  unfold Checked.minus
  rw [if_pos hb]
  exact h

theorem bind_rest {xs : Array Value} {start : Nat} {f : Array Value → Checked β} {y : Exec β}
    (hs : start ≤ xs.size) (h : Agrees (f (xs.extract start xs.size)) y m) :
    Agrees (Checked.rest xs start >>= f) y m := by
  unfold Checked.rest
  rw [if_pos hs]
  exact h

/-- A search that gives something. -/
theorem bind_guarded {γ : Type} {o : Option γ} {a : γ} {f : γ → Checked β} {y : Exec β}
    (ho : o = some a) (h : Agrees (f a) y m) : Agrees (Checked.guarded o >>= f) y m := by
  rw [ho]
  exact h

/-- The elements of an array that is there. -/
theorem bind_elements {r : Ref} {xs : Array Value} {f : Array Value → Checked β} {y : Exec β}
    (hr : m.heap.array? r = some xs) (h : Agrees (f xs) y m) :
    Agrees (Checked.elements r >>= f) y m := by
  have : Checked.elements r m = .ok xs m := by
    rw [Checked.elements, get_bind, hr]
    rfl
  unfold Agrees at h ⊢
  simp only [Bind.bind, EStateM.bind, this, h]

end Agrees

section Agree

variable {m m' : Machine}

theorem agrees_peek (distance : Nat) : Agrees (Checked.peek distance) (peek distance) m := by
  refine .bind_get ?_
  dsimp only
  by_cases inside : distance < m.stack.size
  · have same : m.stack.size - 1 - distance = m.stack.size - (distance + 1) := by omega
    have there : m.stack.size - (distance + 1) < m.stack.size := by omega
    rw [if_pos (by exact inside), if_pos inside, same]
    simp only [Checked.item, Array.getElem?_toList, Array.getElem?_eq_getElem there]
    rfl
  · rw [if_neg (by exact inside), if_neg inside]
    exact .ofExec _

/-- What is at a distance from the top is on the stack. -/
theorem peek_ok {distance : Nat} {v : Value} (h : peek distance m = .ok v m') :
    m' = m ∧ distance < m.stack.size := by
  by_cases inside : distance < m.stack.size
  · have there : m.stack.size - 1 - distance < m.stack.size := by omega
    have : peek distance m = .ok m.stack[m.stack.size - 1 - distance] m := by
      rw [peek, get_bind, if_pos inside, Array.getElem?_eq_getElem there]
      rfl
    rw [this] at h
    cases h
    exact ⟨rfl, inside⟩
  · have : peek distance m = .error (.malformed .emptyStack) m := by
      rw [peek, get_bind, if_neg inside]
      rfl
    rw [this] at h
    cases h

theorem agrees_drop {count : Nat} (hc : count ≤ m.stack.size) :
    Agrees (Checked.drop count) (drop count) m :=
  .bind_minus hc rfl

theorem agrees_popNumbers : Agrees Checked.popNumbers popNumbers m := by
  refine .bind (agrees_peek 1) fun a m₁ h₁ => ?_
  obtain ⟨rfl, two⟩ := peek_ok h₁
  refine .bind (agrees_peek 0) fun b m₂ h₂ => ?_
  obtain ⟨rfl, -⟩ := peek_ok h₂
  cases a with
  | number a =>
    cases b with
    | number b => exact .bind (agrees_drop two) fun _ _ _ => .pure _
    | _ => exact .ofExec _
  | _ => exact .ofExec _

theorem agrees_numeric (f : Float → Float → Float) : Agrees (Checked.numeric f) (numeric f) m :=
  .bind agrees_popNumbers fun _ _ _ => .ofExec _

theorem agrees_comparison (f : Float → Float → Bool) :
    Agrees (Checked.comparison f) (comparison f) m :=
  .bind agrees_popNumbers fun _ _ _ => .ofExec _

theorem stack_sum {a b v : Value} (h : sum a b m = .ok v m') : m'.stack = m.stack := by
  have : Ends (sum a b) m (fun _ m' => m'.stack = m.stack) fun _ _ => True := by
    unfold sum
    split
    · exact .pure rfl
    · refine .bind (.get ?_)
      dsimp only
      split
      · exact .bind (.intern (.pure rfl))
      · exact .fail trivial
  rwa [Ends, h] at this

theorem agrees_intern (text : String) : Agrees (Checked.intern text) (intern text) m :=
  .bind_get (.bind_guarded (m.heap.guardedIntern_eq text) rfl)

theorem agrees_sum (a b : Value) : Agrees (Checked.sum a b) (sum a b) m := by
  have texts : Agrees (do
      let h := (← get).heap
      match h.text? a, h.text? b with
      | some s, some t => return Value.object (← Checked.intern (s ++ t))
      | _, _ => Checked.ofExec (fail .notAddable)) (do
      let h := (← get).heap
      match h.text? a, h.text? b with
      | some s, some t => return Value.object (← intern (s ++ t))
      | _, _ => fail .notAddable) m := by
    refine .bind_get ?_
    dsimp only
    cases m.heap.text? a with
    | none => exact .ofExec _
    | some s =>
      cases m.heap.text? b with
      | none => exact .ofExec _
      | some t => exact .bind (agrees_intern _) fun _ _ _ => .pure _
  cases a with
  | number x =>
    cases b with
    | number y => exact .pure _
    | _ => exact texts
  | _ => exact texts

theorem agrees_addOperands : Agrees Checked.addOperands addOperands m := by
  refine .bind (agrees_peek 1) fun a m₁ h₁ => ?_
  obtain ⟨rfl, two⟩ := peek_ok h₁
  refine .bind (agrees_peek 0) fun b m₂ h₂ => ?_
  obtain ⟨rfl, -⟩ := peek_ok h₂
  refine .bind (agrees_sum a b) fun v m₃ h₃ => .bind (agrees_drop ?_) fun _ _ _ => .ofExec _
  rw [stack_sum h₃]
  exact two

theorem agrees_assignLocal (i : UInt8) : Agrees (Checked.assignLocal i) (assignLocal i) m :=
  .bind (.ofExec _) fun _ _ _ => .bind (agrees_peek 0) fun _ _ _ => .ofExec _

theorem agrees_readGlobal (i : UInt8) : Agrees (Checked.readGlobal i) (readGlobal i) m := by
  refine .bind (.ofExec _) fun (key, name) m₁ _ =>
    .bind_get (.bind_guarded (Table.Guarded.get?_eq _ _ _) ?_)
  cases m₁.globals.get? key (Text.hash name) <;> exact .ofExec _

theorem insertGlobal_eq (key : Ref) (name : String) (v : Value) :
    Checked.insertGlobal key name v m = .ok (m.globals.insert key (Text.hash name) v).2
      { m with globals := (m.globals.insert key (Text.hash name) v).1 } := by
  rw [Checked.insertGlobal, get_bind, Table.Guarded.insert_eq]
  rfl

theorem agrees_defineGlobal (i : UInt8) : Agrees (Checked.defineGlobal i) (defineGlobal i) m := by
  refine .bind (.ofExec _) fun (key, name) _ _ => .bind (agrees_peek 0) fun v m₂ _ => ?_
  simp only [Agrees, Bind.bind, EStateM.bind, insertGlobal_eq]
  exact Agrees.bind (.ofExec pop) fun _ _ _ => .pure _

theorem agrees_assignGlobal (i : UInt8) : Agrees (Checked.assignGlobal i) (assignGlobal i) m := by
  refine .bind (.ofExec _) fun (key, name) _ _ => .bind (agrees_peek 0) fun v m₂ _ =>
    .bind (insertGlobal_eq key name v) fun isNew m₃ _ => ?_
  cases isNew with
  | true =>
    exact .look (.bind_guarded (Table.Guarded.erase_eq _ _ _) (.bind rfl fun _ _ _ => .ofExec _))
  | false => exact .pure _

theorem agrees_assignUpvalue (i : UInt8) :
    Agrees (Checked.assignUpvalue i) (assignUpvalue i) m := by
  refine .bind (.ofExec _) fun r _ _ => .bind (agrees_peek 0) fun v m₂ _ => .bind_get ?_
  cases m₂.heap.upvalue? r with
  | none => exact .ofExec _
  | some u => cases u <;> rfl

/-- The position of an element is in range. -/
theorem element_ok {target index : Value} {r : Ref} {i : Nat}
    (h : element target index m = .ok (r, i) m') :
    m' = m ∧ ∃ xs, m.heap.array? r = some xs ∧ i < xs.size := by
  have position_lt {size : Nat} {x : Float} {i : Nat} (hi : position size x = .ok i) : i < size := by
    unfold position at hi
    split at hi
    next => cases hi
    next =>
      split at hi
      next =>
        cases hi
        omega
      next => cases hi
  have : Ends (element target index) m
      (fun p m' => m' = m ∧ ∃ xs, m.heap.array? p.1 = some xs ∧ p.2 < xs.size) fun _ _ => True := by
    unfold element
    split
    · refine .bind (.get ?_)
      split
      next xs hr =>
        split
        · split
          next hi => exact .pure ⟨rfl, xs, hr, position_lt hi⟩
          next => exact .fail trivial
        · exact .fail trivial
      next => exact .fail trivial
    · exact .fail trivial
  rwa [Ends, h] at this

theorem agrees_readElement : Agrees Checked.readElement readElement m := by
  refine .bind (.ofExec _) fun index _ _ => .bind (.ofExec _) fun target _ _ =>
    .bind (.ofExec _) fun (r, i) m₃ h₃ => ?_
  obtain ⟨rfl, xs, hr, inside⟩ := element_ok h₃
  have there : xs.toList[i]? = some xs[i] := by
    rw [Array.getElem?_toList, Array.getElem?_eq_getElem inside]
  have same : (m₃.heap.array? r).bind (·[i]?) = some xs[i] := by
    rw [hr]
    exact Array.getElem?_eq_getElem inside
  refine .bind_elements hr (.bind_item there ?_)
  show Checked.ofExec (push xs[i]) m₃ =
    Checked.ofExec (push (((m₃.heap.array? r).bind (·[i]?)).getD .nil)) m₃
  rw [same]
  rfl

theorem agrees_assignElement : Agrees Checked.assignElement assignElement m := by
  refine .bind (.ofExec _) fun v _ _ => .bind (.ofExec _) fun index _ _ =>
    .bind (.ofExec _) fun target _ _ => .bind (.ofExec _) fun (r, i) m₃ h₃ => ?_
  obtain ⟨rfl, xs, hr, inside⟩ := element_ok h₃
  have there : xs.toList[i]? = some xs[i] := by
    rw [Array.getElem?_toList, Array.getElem?_eq_getElem inside]
  exact .bind_elements hr (.bind_item there (.bind rfl fun _ _ _ => .ofExec _))

theorem agrees_negateNumber : Agrees Checked.negateNumber negateNumber m := by
  refine .bind (agrees_peek 0) fun v _ _ => ?_
  cases v with
  | number x => exact .bind (.ofExec _) fun _ _ _ => .ofExec _
  | _ => exact .ofExec _

theorem agrees_jumpAheadIfFalse (d : UInt16) :
    Agrees (Checked.jumpAheadIfFalse d) (jumpAheadIfFalse d) m := by
  refine .bind (agrees_peek 0) fun v _ _ => ?_
  split
  · exact .ofExec _
  · exact .pure _

theorem agrees_callClosure {r : Ref} {count : Nat} (hc : count < m.stack.size) :
    Agrees (Checked.callClosure r count) (callClosure r count) m := by
  refine .bind_get ?_
  dsimp only
  cases m.heap.closure? r with
  | none => exact .ofExec _
  | some c =>
    dsimp only
    split
    · exact .ofExec _
    · refine .bind_get ?_
      split
      · exact .bind_get (.bind_minus (Nat.le_of_lt hc) (.bind_minus (by omega) rfl))
      · exact .ofExec _

theorem agrees_callBuiltin (b : Builtin) (argument : Value) :
    Agrees (Checked.callBuiltin b argument) (runProcedure (.builtin b) [argument]) m := by
  refine .look ?_
  dsimp only
  split
  next content _ => exact .bind_guarded (m.heap.guardedIntern_eq content) (.ofExec _)
  next => exact .ofExec _

/-- Natives are called with as many arguments as they look at. -/
theorem agrees_runProcedure {n : Native} {arguments : Array Value} (hn : IsBuiltin n)
    (ha : arguments.size = n.arity) :
    Agrees (Checked.runProcedure n.procedure arguments)
      (runProcedure n.procedure arguments.toList) m := by
  obtain ⟨b, hp, arity⟩ := hn
  rw [hp]
  have all : runProcedure (.builtin b) arguments.toList =
      runProcedure (.builtin b) [arguments.toList.headD .nil] := rfl
  rw [all]
  unfold Checked.runProcedure
  by_cases looks : Checked.takesArgument b
  · have one : arguments.size = 1 := by
      rw [ha, arity]
      cases b <;> first | rfl | cases looks
    simp only [looks, if_true]
    have there : arguments.toList[0]? = some (arguments.toList.headD .nil) := by
      obtain ⟨v, hv⟩ := List.length_eq_one_iff.1 (Array.length_toList.trans one)
      rw [hv]
      rfl
    exact .bind_item there (agrees_callBuiltin b _)
  · have none : arguments.size = 0 := by
      rw [ha, arity]
      cases b <;> first | rfl | exact (looks rfl).elim
    rw [Array.size_eq_zero_iff.1 none]
    simp only [looks]
    exact agrees_callBuiltin b _

theorem agrees_callNative {r : Ref} {count : Nat} (hb : Builtins m.heap)
    (hc : count < m.stack.size) :
    Agrees (Checked.callNative r count) (callNative r count) m := by
  refine .bind_get ?_
  cases hn : m.heap.native? r with
  | none => exact .ofExec _
  | some n =>
    dsimp only
    split
    · exact .ofExec _
    next same =>
      have below : m.stack.size - count ≤ m.stack.size := Nat.sub_le ..
      refine .bind_get (.bind_minus (Nat.le_of_lt hc) (.bind_rest below ?_))
      refine .bind (agrees_runProcedure (hb r n hn) ?_) fun v _ _ =>
        .bind_minus (by omega) (.bind (.ofExec _) fun _ _ _ => .ofExec _)
      rw [Array.size_extract]
      omega

theorem agrees_startCall (count : UInt8) (hb : Builtins m.heap) :
    Agrees (Checked.startCall count) (startCall count) m := by
  refine .bind (agrees_peek _) fun callee m₁ h₁ => ?_
  obtain ⟨rfl, inside⟩ := peek_ok h₁
  cases callee with
  | object r =>
    refine .bind_get ?_
    dsimp only
    split
    · exact agrees_callClosure inside
    · split
      · exact agrees_callNative hb inside
      · exact .ofExec _
  | _ => exact .ofExec _

theorem agrees_makeArray (count : UInt8) : Agrees (Checked.makeArray count) (makeArray count) m := by
  refine .bind_get ?_
  dsimp only
  split
  next few =>
    refine .bind_minus few (.bind_rest (Nat.sub_le ..) ?_)
    exact .bind (.ofExec _) fun _ _ _ => .bind (.ofExec _) fun _ _ _ => .ofExec _
  next => exact .ofExec _

/-- Instructions that need no search do not crash. -/
theorem agrees_execute {s : Search} {i : Instruction} (hi : ∀ k, i ≠ .closure k)
    (hb : Builtins m.heap) : Agrees (Checked.execute s i) (execute i) m := by
  cases i with
  | setLocal i => exact agrees_assignLocal i
  | getGlobal i => exact agrees_readGlobal i
  | defineGlobal i => exact agrees_defineGlobal i
  | setGlobal i => exact agrees_assignGlobal i
  | setUpvalue i => exact agrees_assignUpvalue i
  | getIndex => exact agrees_readElement
  | setIndex => exact agrees_assignElement
  | greater => exact agrees_comparison fun a b => decide (b < a)
  | less => exact agrees_comparison fun a b => decide (a < b)
  | add => exact agrees_addOperands
  | subtract | multiply | divide => exact agrees_numeric _
  | negate => exact agrees_negateNumber
  | jumpIfFalse d => exact agrees_jumpAheadIfFalse d
  | call n => exact agrees_startCall n hb
  | closure k => exact (hi k rfl).elim
  | array n => exact agrees_makeArray n
  | _ => rfl

end Agree

section Linear

/-- Going down the slots to the one sought, or to the place behind all higher ones. -/
def runLinear (keys : List Nat) (key : Nat) : Except Nat Nat :=
  match keys.reverse.findIdx? (· == key) with
  | some j => .ok (keys.length - 1 - j)
  | none => .error (keys.length - (keys.reverse.takeWhile fun k => decide (key < k)).length)

theorem runLinear_ok {keys : List Nat} {key i : Nat} (h : runLinear keys key = .ok i) :
    keys[i]? = some key := by
  unfold runLinear at h
  split at h
  next j hj =>
    cases h
    obtain ⟨inside, same, -⟩ := List.findIdx?_eq_some_iff_getElem.1 hj
    rw [List.length_reverse] at inside
    rw [List.getElem_reverse] at same
    have there : keys.length - 1 - j < keys.length := by omega
    rw [List.getElem?_eq_getElem there]
    exact congrArg some (by simpa using same)
  next => cases h

theorem runLinear_error {keys : List Nat} {key i : Nat} (h : runLinear keys key = .error i) :
    i ≤ keys.length := by
  unfold runLinear at h
  split at h
  next => cases h
  next =>
    cases h
    exact Nat.sub_le ..

/-- The search that goes down the stack, and the place behind all higher slots. -/
def Search.linear : Search := ⟨runLinear, runLinear_ok, runLinear_error⟩

variable {m : Machine}

/-- What is found by going down the stack. -/
theorem find?_of_findIdx? {p : Ref → Bool} {opens : List Ref} {j : Nat}
    (h : opens.findIdx? p = some j) : opens.find? p = opens[j]? := by
  obtain ⟨inside, holds, first⟩ := List.findIdx?_eq_some_iff_getElem.1 h
  rw [List.getElem?_eq_getElem inside, List.find?_eq_some_iff_getElem]
  exact ⟨holds, j, inside, rfl, fun k hk => by simpa using first k hk⟩

/-- Going down the stack through the list of open upvalues. -/
theorem run_linear (key : Ref → Nat) (opens : List Ref) (slot : Nat) :
    Search.linear.run (opens.reverse.map key) slot =
      match opens.findIdx? fun r => key r == slot with
      | some j => .ok (opens.length - 1 - j)
      | none => .error (opens.length - (opens.takeWhile fun r => decide (slot < key r)).length) := by
  simp only [Search.linear, runLinear, List.map_reverse, List.reverse_reverse, List.length_reverse,
    List.length_map, List.findIdx?_map, List.takeWhile_map]
  rfl

/-- An upvalue put in its place, told from either end of the list. -/
theorem reverse_insert (p : Ref → Bool) (opens : List Ref) (r : Ref) :
    (opens.reverse.take (opens.length - (opens.takeWhile p).length) ++
      r :: opens.reverse.drop (opens.length - (opens.takeWhile p).length)).reverse =
    opens.takeWhile p ++ r :: opens.dropWhile p := by
  have split := List.takeWhile_append_dropWhile (p := p) (l := opens)
  have above : opens.take (opens.takeWhile p).length = opens.takeWhile p := by
    nth_rewrite 2 [← split]
    exact List.take_left
  have below : opens.drop (opens.takeWhile p).length = opens.dropWhile p := by
    nth_rewrite 2 [← split]
    exact List.drop_left
  have few : (opens.takeWhile p).length ≤ opens.length := (List.takeWhile_sublist p).length_le
  have back : opens.length - (opens.length - (opens.takeWhile p).length) =
      (opens.takeWhile p).length := by omega
  rw [List.take_reverse, List.drop_reverse, back, above, below]
  simp

theorem agrees_captureSlot (slot : Nat) : Agrees (Checked.captureSlot .linear slot)
    (modifyGet fun m => (m.captureSlot slot).swap) m := by
  show Checked.settle slot m.openUpvalues.reverse (Search.linear.run _ slot) m = _
  rw [run_linear]
  cases hj : m.openUpvalues.findIdx? fun r => slotOf m.heap r == slot with
  | some j =>
    have found := find?_of_findIdx? hj
    obtain ⟨inside, -⟩ := List.findIdx?_eq_some_iff_getElem.1 hj
    have back : m.openUpvalues.length - 1 - (m.openUpvalues.length - 1 - j) = j := by omega
    have there : m.openUpvalues.reverse[m.openUpvalues.length - 1 - j]? = m.openUpvalues[j]? := by
      rw [List.getElem?_reverse (by omega), back]
    rw [List.getElem?_eq_getElem inside] at found there
    have captured : m.captureSlot slot = (m, m.openUpvalues[j]) := by
      rw [captureSlot, found]
    show Checked.item _ _ m = .ok (m.captureSlot slot).2 (m.captureSlot slot).1
    rw [captured, Checked.item, there]
    rfl
  | none =>
    have missing : m.openUpvalues.find? (fun r => slotOf m.heap r == slot) = none :=
      List.find?_eq_none.2 fun r hr => by
        simpa using List.findIdx?_eq_none_iff.1 hj r hr
    have captured : m.captureSlot slot =
        ({ m with
            heap := (m.heap.allocate (.upvalue (.opened slot))).1
            openUpvalues := m.openUpvalues.takeWhile (fun r => decide (slot < slotOf m.heap r)) ++
              (m.heap.allocate (.upvalue (.opened slot))).2 ::
                m.openUpvalues.dropWhile fun r => decide (slot < slotOf m.heap r) },
          (m.heap.allocate (.upvalue (.opened slot))).2) := by
      rw [captureSlot, missing]
    show _ = EStateM.Result.ok (m.captureSlot slot).2 (m.captureSlot slot).1
    rw [captured, ← reverse_insert]
    dsimp only
    rw [Checked.settle, if_pos (by rw [List.length_reverse]; exact Nat.sub_le ..)]
    rfl

theorem agrees_captures (base n : Nat) : ∀ {m : Machine} (upvalues : Array Ref),
    Agrees (Checked.captures .linear base n upvalues) (captures base n upvalues) m := by
  induction n with
  | zero => exact fun _ => .pure _
  | succ n ih =>
    intro m upvalues
    refine .bind (.ofExec _) fun call _ _ => .bind (.ofExec _) fun chunk _ _ => ?_
    dsimp only
    cases chunk.read? call.ip with
    | none => exact .ofExec _
    | some i =>
      cases i with
      | capture c =>
        obtain ⟨isLocal, index⟩ := c
        cases isLocal with
        | true =>
          exact .bind (agrees_captureSlot _) fun _ _ _ => .bind (.ofExec _) fun _ _ _ => ih _
        | false => exact .bind (.ofExec _) fun _ _ _ => .bind (.ofExec _) fun _ _ _ => ih _
      | _ => exact .ofExec _

theorem agrees_makeClosure (i : UInt8) :
    Agrees (Checked.makeClosure .linear i) (makeClosure i) m := by
  refine .bind (.ofExec _) fun v m₁ _ => ?_
  cases v with
  | object r =>
    refine .bind_get ?_
    cases m₁.heap.function? r with
    | none => exact .ofExec _
    | some f =>
      exact .bind (.ofExec _) fun call _ _ => .bind (agrees_captures _ _ _) fun _ _ _ =>
        .bind (.ofExec _) fun _ _ _ => .ofExec _
  | _ => exact .ofExec _

/-- With the search of the machine, no instruction crashes. -/
theorem agrees_instruction {I : Machine → Prop} (s : Stable I) (hI : ∀ m, I m → Builtins m.heap)
    (h : I m) : Agrees (Checked.instruction .linear) instruction m := by
  refine .bind (.ofExec _) fun i m₁ fetched => ?_
  by_cases hi : ∃ k, i = .closure k
  · obtain ⟨k, rfl⟩ := hi
    exact agrees_makeClosure k
  · exact agrees_execute (fun k e => hi ⟨k, e⟩) (hI _ ((Keeps.fetch s).ok h fetched))

end Linear

/-- A computation does not crash. -/
def Safely {α : Type} (x : Checked α) (m : Machine) (Q : α → Machine → Prop)
    (E : Stop → Machine → Prop) : Prop :=
  match x m with
  | .ok a m' => Q a m'
  | .error (.stop s) m' => E s m'
  | .error .crash _ => False

namespace Safely

variable {α β : Type} {x : Checked α} {y : Exec α} {f : α → Checked β} {m : Machine}
  {Q : α → Machine → Prop} {R : β → Machine → Prop} {E : Stop → Machine → Prop}

theorem ofAgrees (a : Agrees x y m) (h : Ends y m Q E) : Safely x m Q E := by
  unfold Safely Agrees Checked.ofExec at *
  rw [a]
  unfold Ends at h
  cases hy : y m with
  | ok a m' => rwa [hy] at h
  | error s m' => rwa [hy] at h

theorem ofExec (h : Ends y m Q E) : Safely (Checked.ofExec y) m Q E := .ofAgrees (.ofExec y) h

theorem bind (h : Safely x m (fun a m' => Safely (f a) m' R E) E) : Safely (x >>= f) m R E := by
  unfold Safely at h ⊢
  simp only [Bind.bind, EStateM.bind]
  cases hx : x m with
  | ok a m' => simpa [hx] using h
  | error s m' =>
    rw [hx] at h
    cases s with
    | stop s => exact h
    | crash => exact h

theorem imp {Q' : α → Machine → Prop} {E' : Stop → Machine → Prop} (h : Safely x m Q E)
    (hQ : ∀ a m', Q a m' → Q' a m') (hE : ∀ s m', E s m' → E' s m') : Safely x m Q' E' := by
  unfold Safely at h ⊢
  cases hx : x m with
  | ok a m' =>
    rw [hx] at h
    exact hQ a m' h
  | error s m' =>
    rw [hx] at h
    cases s with
    | stop s => exact hE s m' h
    | crash => exact h

end Safely

section Search

variable {I : Machine → Prop} (st : Stable I) (s : Search)

include st

/-- Whatever the order of the open upvalues, the search leads to one of them or to a place among
them. -/
theorem safely_captureSlot {m : Machine} (h : I m) (slot : Nat) :
    Safely (Checked.captureSlot s slot) m (fun _ => I) fun _ => I := by
  show Safely (Checked.settle slot _ (s.run _ slot)) m _ _
  unfold Safely
  cases hk : s.run (m.openUpvalues.reverse.map (slotOf m.heap)) slot with
  | ok i =>
    have inside := s.found hk
    rw [List.getElem?_map] at inside
    obtain ⟨r, hr, -⟩ := Option.map_eq_some_iff.1 inside
    rw [Checked.settle, Checked.item, hr]
    exact h
  | error i =>
    have inside := s.missing hk
    rw [List.length_map] at inside
    rw [Checked.settle, if_pos inside]
    exact st.upvalues _ (st.heap h (.allocate (by simp) (by simp) .refl))

theorem safely_captures (base n : Nat) : ∀ {m : Machine} (upvalues : Array Ref), I m →
    Safely (Checked.captures s base n upvalues) m (fun _ => I) fun _ => I := by
  induction n with
  | zero => exact fun _ h => h
  | succ n ih =>
    intro m upvalues h
    refine .bind (.ofExec ((Keeps.frame m h).imp (fun call m₁ h => ?_) fun _ _ => id))
    refine .bind (.ofExec ((Keeps.chunk m₁ h).imp (fun chunk m₂ h => ?_) fun _ _ => id))
    have rest (r : Ref) (m₃ : Machine) (h : I m₃) :
        Safely (do Checked.ofExec (setIp (call.ip + 3)); Checked.captures s base n (upvalues.push r))
          m₃ (fun _ => I) fun _ => I :=
      .bind (.ofExec ((Keeps.setIp st _ m₃ h).imp (fun _ m₄ h => ih _ h) fun _ _ => id))
    dsimp only
    cases chunk.read? call.ip with
    | none => exact .ofExec (Keeps.malformed _ m₂ h)
    | some i =>
      cases i with
      | capture c =>
        obtain ⟨isLocal, index⟩ := c
        cases isLocal with
        | true => exact .bind ((safely_captureSlot st s h _).imp rest fun _ _ => id)
        | false => exact .bind (.ofExec ((Keeps.upvalueRef _ m₂ h).imp rest fun _ _ => id))
      | _ => exact .ofExec (Keeps.malformed _ m₂ h)

theorem safely_makeClosure {m : Machine} (h : I m) (i : UInt8) :
    Safely (Checked.makeClosure s i) m (fun _ => I) fun _ => I := by
  refine .bind (.ofExec ((Keeps.constant i m h).imp (fun v m₁ h => ?_) fun _ _ => id))
  cases v with
  | object r =>
    show Safely (match m₁.heap.function? r with
      | some f => do
        let upvalues ← Checked.captures s (← Checked.ofExec frame).base f.upvalueCount #[]
        let closure ← Checked.ofExec (allocate (.closure ⟨r, upvalues⟩))
        Checked.ofExec (push (.object closure))
      | none => Checked.ofExec (malformed (.constantNotAFunction i))) m₁ _ _
    cases m₁.heap.function? r with
    | none => exact .ofExec (Keeps.malformed _ m₁ h)
    | some f =>
      refine .bind (.ofExec ((Keeps.frame m₁ h).imp (fun call m₂ h => ?_) fun _ _ => id))
      refine .bind ((safely_captures st s _ _ _ h).imp (fun upvalues m₃ h => ?_) fun _ _ => id)
      have made : Keeps I (do
          let closure ← allocate (.closure ⟨r, upvalues⟩)
          push (.object closure)) :=
        .bind (.allocate st (by simp) (by simp)) fun _ => .push st _
      exact .ofExec (made m₃ h)
  | _ => exact .ofExec (Keeps.malformed _ m₁ h)

end Search
end Machine
end StackScript
