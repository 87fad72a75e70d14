import StackScript.Proofs.Compile.Faultless

/-!
# StackScript.Proofs.Compile.Unplaced

Where the tokens of a source stand shows in lines only, and of a fault of the source text its
message is all that shows.

* `Token.wording`: what a token says. `Token.unplaced`: a token of which no more is left than its
  kind and its wording.
* `Function.unlined`, `Heap.unlined`, `State.erase`: functions and states whose lines and places
  have been forgotten.
* `Coincide φ x y`: from states that are the same when erased, `x` and `y` come to states that are
  the same when erased, with results that `φ` takes to the same.
* `Blind`: computations that coincide with themselves. One rule for each step that productions are
  made of.
-/

namespace StackScript

namespace Token

/-- What a token says: its lexeme, or the message of a fault, whatever text the fault covers. -/
def wording (t : Token) : String :=
  match t.kind with
  | .fault f => f.message
  | _ => t.lexeme

/-- Kind and wording of a token. -/
def unplaced (t : Token) : Token := ⟨t.kind, t.wording, .start⟩

/-- A token moved to the start of a source, with the text that it covers. -/
def moved (t : Token) : Token := { t with position := .start }

theorem unplaced_of_proper {t : Token} (h : ∀ f, t.kind ≠ .fault f) : t.unplaced = t.moved := by
  unfold unplaced moved wording
  split
  next f hk => exact absurd hk (h f)
  next => rfl

end Token

/-- A chunk all of whose octets are on the first line. -/
def Chunk.unlined (c : Chunk) : Chunk := { c with lines := c.lines.map fun _ => 1 }

def Function.unlined (f : Function) : Function := { f with chunk := f.chunk.unlined }

def Object.unlined : Object → Object
  | .function f => .function f.unlined
  | o => o

def Heap.unlined (h : Heap) : Heap := { h with objects := h.objects.map Object.unlined }

namespace Chunk

theorem unlined_emit (c : Chunk) (i : Instruction) (line : Nat) :
    (c.emit i line).unlined = c.unlined.emit i 1 := by
  have lines (ls : Array Nat) (size : Nat) : (fillLines ls size line).map (fun _ => 1) =
      fillLines (ls.map fun _ => 1) size 1 := by
    unfold fillLines
    rw [Array.size_map]
    split
    · rw [Array.shrink_eq_take, Array.shrink_eq_take, Array.take_eq_extract, Array.take_eq_extract,
        Array.map_extract]
    · rw [Array.map_append, Array.map_replicate]
  simp only [emit, unlined, lines]

theorem unlined_addConstant? (c : Chunk) (v : Value) :
    c.unlined.addConstant? v = (c.addConstant? v).map fun p => (p.1.unlined, p.2) := by
  simp only [addConstant?, unlined]
  cases c.constants.findIdx? (· == v) with
  | none => by_cases h : c.constants.size < poolLimit <;> simp [h]
  | some i => by_cases h : i < poolLimit <;> simp [h]

end Chunk

namespace Heap

variable (h : Heap)

theorem get?_unlined (r : Ref) : h.unlined.get? r = (h.get? r).map Object.unlined :=
  Array.getElem?_map ..

theorem string?_unlined (r : Ref) : h.unlined.string? r = h.string? r := by
  rw [string?, string?, get?_unlined]
  cases h.get? r with
  | none => rfl
  | some o => cases o <;> rfl

theorem allocate_unlined (o : Object) :
    h.unlined.allocate o.unlined = ((h.allocate o).1.unlined, (h.allocate o).2) := by
  simp only [allocate, unlined, Array.map_push, Array.size_map]

theorem findString?_unlined (text : String) : h.unlined.findString? text = h.findString? text := by
  simp only [findString?, string?_unlined]
  rfl

theorem intern_unlined (text : String) :
    h.unlined.intern text = ((h.intern text).1.unlined, (h.intern text).2) := by
  unfold intern
  rw [findString?_unlined]
  split
  · rfl
  · have e := h.allocate_unlined (.string text)
    rw [Object.unlined] at e
    · rw [e]
      rfl
    · simp

end Heap

namespace Compile

/-- An error without its line. What else is reported of it depends on kind and wording only. -/
def Error.unplaced (e : Error) : Error := { e with token := e.token.unplaced }

def Draft.unlined (d : Draft) : Draft := { d with chunk := d.chunk.unlined }

def Resolution.unlined (r : Resolution) : Resolution :=
  { r with draft := r.draft.unlined, enclosing := r.enclosing.map Draft.unlined }

/-- A state without places and lines. The tokens that were read already are proper ones, so only
those to come and those of errors may cover text that does not show. -/
def State.erase (s : State) : State :=
  { s with
    rest := s.rest.map Token.unplaced
    current := s.current.moved
    previous := s.previous.moved
    errors := s.errors.map Error.unplaced
    heap := s.heap.unlined
    draft := s.draft.unlined
    enclosing := s.enclosing.map Draft.unlined }

theorem Draft.unlined_addCapture (d : Draft) (c : Capture) :
    d.unlined.addCapture c = ((d.addCapture c).1.unlined, (d.addCapture c).2) := by
  simp only [Draft.addCapture, Draft.unlined]
  cases d.captures.findIdx? (· == c) with
  | none => by_cases h : d.captures.size < slotLimit <;> simp [h]
  | some i => rfl

theorem resolveUpvalue_unlined (name : String) (ds : List Draft) : ∀ d : Draft,
    resolveUpvalue name d.unlined (ds.map Draft.unlined) =
      (resolveUpvalue name d ds).map Resolution.unlined := by
  induction ds with
  | nil => exact fun _ => rfl
  | cons o ds ih =>
    intro d
    have found : o.unlined.findLocal? name = o.findLocal? name := rfl
    simp only [List.map_cons, resolveUpvalue, found, ih o, Draft.unlined_addCapture]
    cases o.findLocal? name with
    | some p => rfl
    | none => cases resolveUpvalue name o ds <;> rfl

namespace State

variable (s : State)

theorem erase_reportAt (t : Token) (fault : Fault) :
    (s.reportAt t fault).erase = s.erase.reportAt t.unplaced fault := by
  unfold reportAt
  have panicking : s.erase.panicking = s.panicking := rfl
  rw [panicking]
  split
  · rfl
  · simp only [erase, Array.map_push]
    rfl

theorem erase_take (ts : List Token) : ∀ s : State,
    (s.take ts).erase = s.erase.take (ts.map Token.unplaced) := by
  induction ts with
  | nil => exact fun _ => rfl
  | cons t ts ih =>
    intro s
    have kind : t.unplaced.kind = t.kind := rfl
    rw [List.map_cons, take, take, kind]
    split
    · rw [ih, erase_reportAt]
    next proper =>
      rw [Token.unplaced_of_proper proper]
      rfl

theorem erase_advance : s.advance.erase = s.erase.advance := erase_take s.rest _

theorem erase_skip (n : Nat) : ∀ s : State, (s.skip n).erase = s.erase.skip n := by
  induction n with
  | zero => exact fun _ => rfl
  | succ n ih =>
    intro s
    have current : s.erase.current.kind = s.current.kind := rfl
    have previous : s.erase.previous.kind = s.previous.kind := rfl
    rw [skip, skip, current, previous]
    split
    · rfl
    · rw [ih, erase_advance]

theorem erase_recover : s.recover.erase = s.erase.recover := by
  have length : s.erase.rest.length = s.rest.length := List.length_map ..
  show (skip _ _).erase = skip (s.erase.rest.length + 1) _
  rw [erase_skip, length]
  rfl

theorem erase_emit (i : Instruction) : (s.emit i).erase = s.erase.emit i := by
  have chunk := s.draft.chunk.unlined_emit i s.previous.line
  show { s.erase with draft := { s.draft with chunk := (s.draft.chunk.emit i s.previous.line).unlined } } = _
  rw [chunk]
  rfl

theorem erase_dropLocals (ls : List Local) : ∀ s : State,
    (s.dropLocals ls).erase = s.erase.dropLocals ls := by
  induction ls with
  | nil => exact fun _ => rfl
  | cons l ls ih =>
    intro s
    have depth : s.erase.draft.depth = s.draft.depth := rfl
    rw [dropLocals, dropLocals, depth]
    split
    · rw [ih, erase_emit]
    · rfl

end State

/-- From states that are the same when erased, `x` and `y` come to states that are the same when
erased, with results that `φ` takes to the same. -/
def Coincide {α β : Type} (φ : α → β) (x y : Compiler α) : Prop :=
  ∀ s t : State, s.erase = t.erase →
    (x s).map (Prod.map φ State.erase) = (y t).map (Prod.map φ State.erase)

class Blind {α : Type} (x : Compiler α) : Prop where
  coincide : Coincide id x x

section Rules

variable {α β γ δ : Type} {x y : Compiler α}

theorem eq_none_or_some_of_map_eq {φ : α → β} {o o' : Option α} (h : o.map φ = o'.map φ) :
    (o = none ∧ o' = none) ∨ ∃ a b, o = some a ∧ o' = some b ∧ φ a = φ b := by
  cases o with
  | none => exact .inl ⟨rfl, Option.map_eq_none_iff.1 h.symm⟩
  | some a =>
    obtain ⟨b, rfl, e⟩ := Option.map_eq_some_iff.1 h.symm
    exact .inr ⟨a, b, rfl, rfl, e.symm⟩

theorem Coincide.bind {φ : α → β} {ψ : γ → δ} {f g : α → Compiler γ} (hx : Coincide φ x y)
    (hf : ∀ a b, φ a = φ b → Coincide ψ (f a) (g b)) : Coincide ψ (x >>= f) (y >>= g) := by
  intro s t same
  show ((x s).bind fun p => f p.1 p.2).map _ = ((y t).bind fun p => g p.1 p.2).map _
  obtain ⟨hs, ht⟩ | ⟨p, q, hs, ht, e⟩ := eq_none_or_some_of_map_eq (hx s t same) <;> rw [hs, ht]
  · rfl
  · obtain ⟨results, states⟩ := Prod.mk.inj e
    exact hf p.1 q.1 results p.2 q.2 states

/-- Two computations behind one that sees only what is left of a state. -/
theorem Coincide.after {f g : α → Compiler γ} {ψ : γ → δ} (hx : Blind x)
    (hf : ∀ a, Coincide ψ (f a) (g a)) : Coincide ψ (x >>= f) (x >>= g) :=
  hx.coincide.bind fun a b (e : a = b) => e ▸ hf a

theorem Coincide.pure {φ : α → β} {a b : α} (h : φ a = φ b) :
    Coincide φ (pure a : Compiler α) (pure b) :=
  fun _ _ same => congrArg some (Prod.ext h same)

theorem Coincide.modify {f g : State → State}
    (h : ∀ s t : State, s.erase = t.erase → (f s).erase = (g t).erase) :
    Coincide id (modify f) (modify g) :=
  fun s t same => congrArg (fun u => some ((), u)) (h s t same)

theorem Coincide.modifyGet {φ : α → β} {f g : State → α × State}
    (h : ∀ s t : State, s.erase = t.erase →
      Prod.map φ State.erase (f s) = Prod.map φ State.erase (g t)) :
    Coincide φ (modifyGet f) (modifyGet g) :=
  fun s t same => congrArg some (h s t same)

/-- A result and a change of the state that can be told from what is left of it. -/
theorem Coincide.modifyGet_self {φ : α → α} {f : State → α × State}
    (h : ∀ s : State, f s.erase = Prod.map φ State.erase (f s)) :
    Coincide φ (MonadStateOf.modifyGet f) (MonadStateOf.modifyGet f) :=
  .modifyGet fun s t same => (h s).symm.trans ((congrArg f same).trans (h t))

theorem Coincide.get {φ : α → β} {f g : State → Compiler α}
    (h : ∀ s t : State, s.erase = t.erase → Coincide φ (f s) (g t)) :
    Coincide φ (get >>= f) (get >>= g) :=
  fun s t same => h s t same s t same

namespace Blind

instance (a : α) : Blind (pure a : Compiler α) := ⟨.pure rfl⟩

instance : Blind (outOfFuel : Compiler α) := ⟨fun _ _ _ => rfl⟩

instance bind {f : α → Compiler β} [hx : Blind x] [hf : ∀ a, Blind (f a)] : Blind (x >>= f) :=
  ⟨.after hx fun a => (hf a).coincide⟩

instance {p : Prop} [Decidable p] [Blind x] [Blind y] : Blind (if p then x else y) := by
  split <;> infer_instance

theorem get {f : State → Compiler β}
    (h : ∀ s t : State, s.erase = t.erase → Coincide id (f s) (f t)) : Blind (get >>= f) :=
  ⟨.get h⟩

/-- What is read of a state is left of it when it is erased. -/
theorem reads {f : α → Compiler β} (v : State → α) (h : ∀ s, v s.erase = v s)
    (hf : ∀ a, Blind (f a)) : Blind (MonadState.get >>= fun s => f (v s)) :=
  .get fun s t same => by
    have seen : v s = v t := (h s).symm.trans ((congrArg v same).trans (h t))
    rw [seen]
    exact (hf (v t)).coincide

/-- A change of the state that can be told from what is left of it. -/
theorem modifyTo {f : State → State} (g : State → State) (h : ∀ s : State, (f s).erase = g s.erase) :
    Blind (modify f : Compiler Unit) :=
  ⟨.modify fun s t same => (h s).trans ((congrArg g same).trans (h t).symm)⟩

theorem modify {f : State → State} (h : ∀ s : State, (f s).erase = f s.erase) :
    Blind (modify f : Compiler Unit) :=
  .modifyTo f h

theorem andThen {f : α → Compiler β} (hx : Blind x) (hf : ∀ a, Blind (f a)) : Blind (x >>= f) :=
  inferInstance

end Blind
end Rules

section Reading

instance : Blind advance := .modify State.erase_advance

instance (fault : Fault) : Blind (report fault) :=
  .modifyTo (fun s => s.reportAt s.previous.unplaced fault) fun s => s.erase_reportAt _ _

instance (fault : Fault) : Blind (reportCurrent fault) :=
  .modifyTo (fun s => s.reportAt s.current.unplaced fault) fun s => s.erase_reportAt _ _

instance (k : TokenKind) : Blind (check k) :=
  .reads (fun s => s.current.kind == k) (fun _ => rfl) fun _ => inferInstance

instance (k : TokenKind) : Blind (accept k) := by unfold accept; infer_instance

instance (k : TokenKind) (what : Expectation) : Blind (consume k what) := by
  unfold consume; infer_instance

instance : Blind (modify State.recover : Compiler Unit) := .modify State.erase_recover

end Reading

section Emitting

instance (i : Instruction) : Blind (emit i) := .modify fun s => s.erase_emit i

instance (is : List Instruction) : Blind (emitAll is) := by
  induction is with
  | nil => unfold emitAll; infer_instance
  | cons i is ih => unfold emitAll; infer_instance

instance : Blind emitReturn := by unfold emitReturn; infer_instance

instance : Blind here := .reads (fun s => s.draft.chunk.code.size) (fun _ => rfl) fun _ => inferInstance

instance (jump : UInt16 → Instruction) : Blind (emitJump jump) := by unfold emitJump; infer_instance

instance (offset : Nat) : Blind (landJump offset) := by
  have (n : Nat) : Blind (modify fun s : State => { s with
      draft := { s.draft with chunk := s.draft.chunk.setDistance offset n.toUInt16 } }) :=
    .modify fun _ => rfl
  unfold landJump; infer_instance

instance (start : Nat) : Blind (emitBackJump start) := by unfold emitBackJump; infer_instance

instance (text : String) : Blind (intern text) where
  coincide := by
    refine .modifyGet_self fun s => ?_
    show (fun p : Heap × Ref => (p.2, { s.erase with heap := p.1 })) (s.heap.unlined.intern text) = _
    rw [s.heap.intern_unlined]
    rfl

instance (v : Value) : Blind (addConstant v) :=
  .get fun s t same => by
    have added (s : State) : s.erase.draft.chunk.addConstant? v =
        (s.draft.chunk.addConstant? v).map fun p => (p.1.unlined, p.2) :=
      s.draft.chunk.unlined_addConstant? v
    have both := (added s).symm.trans ((congrArg (·.draft.chunk.addConstant? v) same).trans (added t))
    obtain ⟨hs, ht⟩ | ⟨p, q, hs, ht, e⟩ := eq_none_or_some_of_map_eq both <;> rw [hs, ht]
    · exact Blind.coincide
    · obtain ⟨chunks, index⟩ := Prod.mk.inj e
      refine .bind (φ := id) (.modify fun s t same => ?_) fun _ _ _ => .pure index
      show { s.erase with draft := { s.erase.draft with chunk := p.1.unlined } } =
        { t.erase with draft := { t.erase.draft with chunk := q.1.unlined } }
      rw [same, chunks]

instance (v : Value) : Blind (emitConstant v) := by unfold emitConstant; infer_instance

instance (name : String) : Blind (nameConstant name) := by unfold nameConstant; infer_instance

end Emitting

section Declaring

instance : Blind depth := .reads (fun s => s.draft.depth) (fun _ => rfl) fun _ => inferInstance

instance (name : String) : Blind (addLocal name) := by
  have : Blind (modify fun s : State => { s with
      draft := { s.draft with locals := ⟨name, none, false⟩ :: s.draft.locals } }) :=
    .modify fun _ => rfl
  unfold addLocal
  exact .reads (fun s => s.draft.locals.length) (fun _ => rfl) fun n =>
    (inferInstance : Blind (if n < slotLimit then
      modify fun s : State => { s with
        draft := { s.draft with locals := ⟨name, none, false⟩ :: s.draft.locals } }
    else report (.exceeded .locals)))

instance : Blind declareVariable := by
  unfold declareVariable
  refine .andThen inferInstance fun d => ?_
  split
  · exact .reads (fun s => (s.previous.lexeme, s.draft.declares s.previous.lexeme)) (fun _ => rfl)
      fun p => (inferInstance : Blind (do
        if p.2 then
          report .duplicateVariable
        addLocal p.1))
  · infer_instance

instance (what : Expectation) : Blind (newVariable what) := by
  unfold newVariable
  refine .andThen inferInstance fun _ => .andThen inferInstance fun _ =>
    .andThen inferInstance fun d => ?_
  split
  · infer_instance
  · exact .reads (fun s => s.previous.lexeme) (fun _ => rfl) fun name =>
      (inferInstance : Blind (nameConstant name))

instance : Blind makeReadable := by
  have : Blind (modify fun s : State => { s with draft := s.draft.makeReadable }) :=
    .modify fun s => by
      have readable : s.draft.unlined.makeReadable = s.draft.makeReadable.unlined := by
        unfold Draft.makeReadable
        have locals : s.draft.unlined.locals = s.draft.locals := rfl
        rw [locals]
        split <;> rfl
      show _ = { s.erase with draft := s.draft.unlined.makeReadable }
      rw [readable]
      rfl
  unfold makeReadable; infer_instance

instance (global : UInt8) : Blind (defineVariable global) := by
  unfold defineVariable; infer_instance

instance (fault : Option Fault) : Blind (reportFault fault) := by
  unfold reportFault
  split <;> infer_instance

instance (name : String) : Blind (resolve name) :=
  .get fun s t same => by
    have found : s.draft.findLocal? name = t.draft.findLocal? name :=
      congrArg (·.draft.findLocal? name) same
    have up (s : State) : resolveUpvalue name s.erase.draft s.erase.enclosing =
        (resolveUpvalue name s.draft s.enclosing).map Resolution.unlined :=
      resolveUpvalue_unlined name s.enclosing s.draft
    have both := (up s).symm.trans
      ((congrArg (fun s => resolveUpvalue name s.draft s.enclosing) same).trans (up t))
    rw [found]
    cases t.draft.findLocal? name with
    | some p => exact Blind.coincide
    | none =>
      obtain ⟨hs, ht⟩ | ⟨p, q, hs, ht, e⟩ := eq_none_or_some_of_map_eq both <;> rw [hs, ht]
      · exact Blind.coincide
      · have drafts : p.draft.unlined = q.draft.unlined := congrArg Resolution.draft e
        have enclosing : p.enclosing.map Draft.unlined = q.enclosing.map Draft.unlined :=
          congrArg Resolution.enclosing e
        have index : p.index = q.index := (congrArg Resolution.index e :)
        have fault : p.fault = q.fault := (congrArg Resolution.fault e :)
        dsimp only
        rw [index, fault]
        refine .bind (φ := id) (.modify fun s t same => ?_) fun _ _ _ => Blind.coincide
        show { s.erase with draft := p.draft.unlined, enclosing := p.enclosing.map Draft.unlined } =
          { t.erase with draft := q.draft.unlined, enclosing := q.enclosing.map Draft.unlined }
        rw [same, drafts, enclosing]

end Declaring

section Scopes

instance : Blind openScope := .modify fun _ => rfl

instance : Blind closeScope :=
  .modify fun s => State.erase_dropLocals s.draft.locals
    { s with draft := { s.draft with depth := s.draft.depth - 1 } }

end Scopes

section Functions

theorem Draft.unlined_new (kind : BodyKind) (name : Option Ref) :
    (Draft.new kind name).unlined = .new kind name := by
  simp [Draft.unlined, Draft.new, Chunk.unlined, Chunk.empty]

instance (name : Ref) : Blind (beginFunction name) :=
  .modify fun s => by
    simp only [State.erase, Draft.unlined_new, List.map_cons]

theorem coincide_allocate {f g : Function} (h : f.unlined = g.unlined) :
    Coincide id (allocate (.function f)) (allocate (.function g)) := by
  have seen (f : Function) (s : State) : Prod.map id State.erase
      ((s.heap.allocate (.function f)).2, { s with heap := (s.heap.allocate (.function f)).1 }) =
      ((s.erase.heap.allocate (.function f.unlined)).2,
        { s.erase with heap := (s.erase.heap.allocate (.function f.unlined)).1 }) := by
    show _ = ((s.heap.unlined.allocate (Object.function f).unlined).2,
      { s.erase with heap := (s.heap.unlined.allocate (Object.function f).unlined).1 })
    rw [s.heap.allocate_unlined]
    rfl
  refine .modifyGet fun s t same => (seen f s).trans (Eq.trans ?_ (seen g t).symm)
  rw [same, h]

theorem summary_unlined (h : Heap) (f : Function) : Summary.of h.unlined f.unlined = .of h f := by
  have names : h.unlined.string? = h.string? := funext h.string?_unlined
  simp only [Summary.of, names]
  rfl

/-- A function ends, and its lines are forgotten. -/
theorem coincide_endFunction :
    Coincide (fun p => (p.1.unlined, p.2)) endFunction endFunction := by
  rw [endFunction_eq]
  refine .after inferInstance fun _ => .modifyGet_self fun s => ?_
  have summary : Summary.of s.erase.heap s.erase.draft.finish = .of s.heap s.draft.finish :=
    summary_unlined s.heap s.draft.finish
  have outer : s.erase.enclosing.headD (.new .script none) =
      (s.enclosing.headD (.new .script none)).unlined := by
    show (s.enclosing.map Draft.unlined).headD _ = _
    cases s.enclosing with
    | nil => exact (Draft.unlined_new _ _).symm
    | cons d ds => rfl
  have rest : s.erase.enclosing.tail = s.enclosing.tail.map Draft.unlined :=
    List.map_tail.symm
  rw [summary, outer, rest]
  rfl

instance : Blind closeFunction where
  coincide := by
    unfold closeFunction
    refine coincide_endFunction.bind fun (f, _) (g, _) same => ?_
    obtain ⟨functions, rfl⟩ := Prod.mk.inj same
    exact (coincide_allocate functions).bind fun r r' (e : r = r') => e ▸ Blind.coincide

instance (exit : Option Nat) : Blind (leaveLoop exit) := by
  unfold leaveLoop
  cases exit <;> infer_instance

end Functions

end Compile
end StackScript
