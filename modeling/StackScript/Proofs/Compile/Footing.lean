import StackScript.Proofs.Bytecode.Stream
import StackScript.Proofs.Compile.Mimic
import StackScript.Proofs.Compile.Rooted
import StackScript.Proofs.Compile.Script
import StackScript.Proofs.Syntax.Coverage

/-!
# StackScript.Proofs.Compile.Footing

The compiler that is watched never crashes, whatever errors it meets.

* `Footing`: how deep the scope of a function is, and how much code the function has at least.
* `State.On`: the functions around a place have their footings, and tokens of strings have quotes.
* `Smooth`: a step of the compiler that reads no token and leaves the functions around the place as
  deep as they were, with no less code.
* `Sure fs x gs`: from the footings `fs` on the computation `x` does not crash, and leads to `gs`.
* `Watched.script_sure`: a script does not crash.
-/

namespace StackScript
namespace Compile

section Onward

structure Draft.Onward (d d' : Draft) : Prop where
  depth : d'.depth = d.depth
  code : d.chunk.code.size ≤ d'.chunk.code.size
  locals : d.locals.length ≤ slotLimit → d'.locals.length ≤ slotLimit

theorem Draft.Onward.refl (d : Draft) : d.Onward d := ⟨rfl, Nat.le_refl _, id⟩

theorem Draft.Onward.trans {a b c : Draft} (h : a.Onward b) (h' : b.Onward c) : a.Onward c :=
  ⟨h'.depth.trans h.depth, Nat.le_trans h.code h'.code, h'.locals ∘ h.locals⟩

structure State.Onward (s s' : State) : Prop where
  rest : s'.rest = s.rest
  current : s'.current = s.current
  previous : s'.previous = s.previous
  drafts : List.Forall₂ Draft.Onward (s.draft :: s.enclosing) (s'.draft :: s'.enclosing)

namespace State.Onward

theorem refl (s : State) : s.Onward s := ⟨rfl, rfl, rfl, forall₂_refl .refl _⟩

theorem trans {s s₁ s₂ : State} (h : s.Onward s₁) (h' : s₁.Onward s₂) : s.Onward s₂ :=
  ⟨h'.rest.trans h.rest, h'.current.trans h.current, h'.previous.trans h.previous,
    forall₂_trans .trans h.drafts h'.drafts⟩

/-- A change to the innermost function. -/
theorem draft {s : State} {d : Draft} (h : s.draft.Onward d) : s.Onward { s with draft := d } :=
  ⟨rfl, rfl, rfl, .cons h (forall₂_refl .refl _)⟩

end State.Onward

theorem Chunk.size_emit (c : Chunk) (i : Instruction) (line : Nat) :
    (c.emit i line).code.size = c.code.size + i.size := by
  show (c.code ++ i.encode).size = _
  rw [← Array.length_toList, Array.toList_appendList, List.length_append, Instruction.length_encode,
    Array.length_toList]

theorem State.onward_emit (s : State) (i : Instruction) : s.Onward (s.emit i) :=
  .draft ⟨rfl, Nat.le_trans (Nat.le_add_right _ _) (Nat.le_of_eq (Chunk.size_emit ..).symm), id⟩

theorem State.onward_reportAt (s : State) (t : Token) (fault : Fault) :
    s.Onward (s.reportAt t fault) := by
  unfold State.reportAt
  split
  · exact .refl s
  · exact ⟨rfl, rfl, rfl, forall₂_refl .refl _⟩

theorem Draft.onward_addCapture (d : Draft) (c : Capture) : d.Onward (d.addCapture c).1 := by
  unfold Draft.addCapture
  split
  · exact .refl d
  · split
    · exact ⟨rfl, Nat.le_refl _, id⟩
    · exact .refl d

theorem Draft.onward_makeReadable (d : Draft) : d.Onward d.makeReadable := by
  unfold Draft.makeReadable
  split
  next => exact .refl d
  next l outer h => exact ⟨rfl, Nat.le_refl _, fun le => by simpa [h] using le⟩

theorem onward_resolveUpvalue {name : String} {ds : List Draft} :
    ∀ {d : Draft} {r : Resolution}, resolveUpvalue name d ds = some r →
      List.Forall₂ Draft.Onward (d :: ds) (r.draft :: r.enclosing) := by
  induction ds with
  | nil => exact fun h => by cases h
  | cons o ds ih =>
    intro d r h
    simp only [resolveUpvalue] at h
    split at h
    next =>
      cases h
      have marked : o.Onward (o.captureLocal name) :=
        ⟨rfl, Nat.le_refl _, fun le => by rwa [Draft.captureLocal, Draft.length_captureIn]⟩
      exact .cons (d.onward_addCapture _) (.cons marked (forall₂_refl .refl _))
    next =>
      split at h
      next => cases h
      next r' hr =>
        cases h
        exact .cons (d.onward_addCapture _) (ih hr)

end Onward

class Smooth {α : Type} (y : Compiler α) : Prop where
  onward : ∀ {s a s'}, y s = some (a, s') → s.Onward s'

section Smooth

variable {α β : Type}

instance (a : α) : Smooth (pure a : Compiler α) where
  onward h := by cases h; exact .refl _

instance : Smooth (get : Compiler State) where
  onward h := by cases h; exact .refl _

instance Smooth.bind {y : Compiler α} {g : α → Compiler β} [Smooth y] [∀ a, Smooth (g a)] :
    Smooth (y >>= g) where
  onward h := by
    obtain ⟨a, s₁, hy, hg⟩ := bind_eq_some.1 h
    exact (Smooth.onward hy).trans (Smooth.onward hg)

instance {p : Prop} [Decidable p] {x y : Compiler α} [Smooth x] [Smooth y] :
    Smooth (if p then x else y) := by
  split <;> infer_instance

/-- For continuations that are split before instances are looked for. -/
theorem Smooth.andThen {y : Compiler α} {g : α → Compiler β} (hy : Smooth y)
    (hg : ∀ a, Smooth (g a)) : Smooth (y >>= g) :=
  inferInstance

theorem Smooth.modify {f : State → State} (hf : ∀ s : State, s.Onward (f s)) :
    Smooth (modify f : Compiler Unit) where
  onward h := by cases h; exact hf _

theorem Smooth.modifyGet {f : State → α × State} (hf : ∀ s : State, s.Onward (f s).2) :
    Smooth (modifyGet f : Compiler α) where
  onward {s} _ _ h := by
    have e : f s = _ := Option.some.inj h
    have := hf s
    rwa [e] at this

instance (fault : Fault) : Smooth (report fault) := .modify fun s => s.onward_reportAt _ _

instance (fault : Fault) : Smooth (reportCurrent fault) := .modify fun s => s.onward_reportAt _ _

instance (k : TokenKind) : Smooth (check k) := by unfold check; infer_instance

instance (i : Instruction) : Smooth (emit i) := .modify fun s => s.onward_emit i

instance (is : List Instruction) : Smooth (emitAll is) := by
  induction is with
  | nil => unfold emitAll; infer_instance
  | cons i is ih => unfold emitAll; infer_instance

instance : Smooth emitReturn := by unfold emitReturn; infer_instance

instance : Smooth here := by unfold here; infer_instance

instance (text : String) : Smooth (intern text) :=
  .modifyGet fun _ => ⟨rfl, rfl, rfl, forall₂_refl .refl _⟩

instance (v : Value) : Smooth (addConstant v) where
  onward {s a s'} h := by
    unfold addConstant at h
    rw [get_bind] at h
    cases hc : s.draft.chunk.addConstant? v with
    | some p =>
      obtain ⟨chunk, i⟩ := p
      rw [hc] at h
      cases h
      obtain ⟨rfl, -⟩ | ⟨rfl, -⟩ := Chunk.addConstant?_cases hc
      · exact .draft (.refl _)
      · exact .draft ⟨rfl, Nat.le_refl _, id⟩
    | none =>
      rw [hc] at h
      cases h
      exact s.onward_reportAt _ _

instance (v : Value) : Smooth (emitConstant v) := by unfold emitConstant; infer_instance

instance (jump : UInt16 → Instruction) : Smooth (emitJump jump) := by
  unfold emitJump; infer_instance

instance (offset : Nat) : Smooth (landJump offset) := by
  have (n : Nat) : Smooth (modify fun s : State => { s with
      draft := { s.draft with chunk := s.draft.chunk.setDistance offset n.toUInt16 } }) :=
    .modify fun s => .draft ⟨rfl, by simp [Chunk.setDistance], id⟩
  unfold landJump; infer_instance

instance (start : Nat) : Smooth (emitBackJump start) := by unfold emitBackJump; infer_instance

instance (o : Object) : Smooth (allocate o) :=
  .modifyGet fun _ => ⟨rfl, rfl, rfl, forall₂_refl .refl _⟩

instance : Smooth depth := by unfold depth; infer_instance

instance (name : String) : Smooth (nameConstant name) := by unfold nameConstant; infer_instance

instance (name : String) : Smooth (addLocal name) where
  onward {s a s'} h := by
    unfold addLocal at h
    rw [get_bind] at h
    split at h
    next room =>
      cases h
      exact .draft ⟨rfl, Nat.le_refl _, fun _ => room⟩
    next =>
      cases h
      exact s.onward_reportAt _ _

instance : Smooth declareVariable := by unfold declareVariable; infer_instance

instance : Smooth makeReadable := by
  have : Smooth (modify fun s : State => { s with draft := s.draft.makeReadable }) :=
    .modify fun s => .draft s.draft.onward_makeReadable
  unfold makeReadable; infer_instance

instance (global : UInt8) : Smooth (defineVariable global) := by
  unfold defineVariable; infer_instance

instance (fault : Option Fault) : Smooth (reportFault fault) := by
  unfold reportFault
  split <;> infer_instance

instance (name : String) : Smooth (resolve name) where
  onward {s a s'} h := by
    unfold resolve at h
    rw [get_bind] at h
    cases hl : s.draft.findLocal? name with
    | some found =>
      obtain ⟨slot, l⟩ := found
      have : Smooth (do
          reportFault (readFault l)
          return (⟨.getLocal slot.toUInt8, .setLocal slot.toUInt8⟩ : Place)) := inferInstance
      rw [hl] at h
      exact this.onward h
    | none =>
      rw [hl] at h
      dsimp only at h
      cases hr : resolveUpvalue name s.draft s.enclosing with
      | some r =>
        have : Smooth (do
            reportFault r.fault
            return (⟨.getUpvalue r.index, .setUpvalue r.index⟩ : Place)) := inferInstance
        rw [hr] at h
        have found : s.Onward { s with draft := r.draft, enclosing := r.enclosing } :=
          ⟨rfl, rfl, rfl, onward_resolveUpvalue hr⟩
        exact found.trans (this.onward h)
      | none =>
        have : Smooth (do
            let i ← nameConstant name
            return (⟨.getGlobal i, .setGlobal i⟩ : Place)) := inferInstance
        rw [hr] at h
        exact this.onward h

instance : Smooth (outOfFuel : Compiler α) where
  onward h := by cases h

end Smooth

/-- The depth of a function's innermost scope, and a size that its code has reached. -/
structure Footing where
  depth : Nat
  size : Nat

structure Footing.Under (f : Footing) (d : Draft) : Prop where
  depth : d.depth = f.depth
  size : f.size ≤ d.chunk.code.size
  locals : d.locals.length ≤ slotLimit

theorem Footing.Under.onward {f : Footing} {d d' : Draft} (h : f.Under d) (o : d.Onward d') :
    f.Under d' :=
  ⟨o.depth.trans h.depth, Nat.le_trans h.size o.code, o.locals h.locals⟩

/-- A string is written between quotes. -/
def Quoted (t : Token) : Prop := t.kind = .string → Watched.hasInside t.lexeme = true

structure State.On (s : State) (fs : List Footing) : Prop where
  previous : Quoted s.previous
  current : Quoted s.current
  rest : ∀ t ∈ s.rest, Quoted t
  drafts : List.Forall₂ Footing.Under fs (s.draft :: s.enclosing)

section Sure

variable {α β : Type} {f : Footing} {fs gs : List Footing} {d b : Nat}

theorem State.On.onward {s s' : State} (h : s.On fs) (o : s.Onward s') : s'.On fs where
  previous := o.previous ▸ h.previous
  current := o.current ▸ h.current
  rest := o.rest ▸ h.rest
  drafts := forall₂_comp .onward h.drafts o.drafts

/-- What comes of a computation: the footings `gs`, or a halt other than a crash. -/
abbrev Reaches (gs : α → List Footing) : Except Halt (α × Course) → Prop :=
  Avoids .crash fun a c => c.state.On (gs a)

class Sure (fs : List Footing) (x : Watched α) (gs : outParam (α → List Footing)) : Prop where
  reaches : ∀ {c : Course}, c.state.On fs → Reaches gs (x c)

/-- Whatever the number of calls, a call does not crash. -/
theorem Reaches.called {x : Watched α} {gs : α → List Footing} {c : Course}
    (h : ∀ calls, Reaches gs (x { c with calls })) :
    Reaches gs ((Watched.call >>= fun _ => x) c) := by
  rw [Watched.bind_apply, Watched.call]
  by_cases more : c.calls < callLimit
  · rw [if_pos more]
    exact h _
  · rw [if_neg more]
    exact nofun

instance Sure.bind {x : Watched α} {g : α → Watched β} {gs : α → List Footing}
    {gs' : β → List Footing} [hx : Sure fs x gs] [hg : ∀ a, Sure (gs a) (g a) gs'] :
    Sure fs (x >>= g) gs' where
  reaches hc := (hx.reaches hc).bind fun a _ => (hg a).reaches

/-- For continuations that are split before instances are looked for. -/
theorem Sure.andThen {x : Watched α} {g : α → Watched β} {gs : α → List Footing}
    {gs' : β → List Footing} (hx : Sure fs x gs) (hg : ∀ a, Sure (gs a) (g a) gs') :
    Sure fs (x >>= g) gs' :=
  inferInstance

instance (a : α) : Sure fs (pure a : Watched α) fun _ => fs := ⟨id⟩

instance : Sure fs Watched.state fun _ => fs := ⟨id⟩

instance {p : Prop} [Decidable p] {x y : Watched α} {gs : α → List Footing} [Sure fs x gs]
    [Sure fs y gs] : Sure fs (if p then x else y) gs := by
  split <;> infer_instance

instance {y : Compiler α} [Smooth y] : Sure fs (liftM y : Watched α) fun _ => fs where
  reaches hc := .ofLift nofun fun _ _ h => hc.onward (Smooth.onward h)

instance : Sure fs Watched.call fun _ => fs where
  reaches hc := by
    unfold Watched.call
    split
    · exact hc
    · exact nofun

instance : Sure fs Watched.restart fun _ => fs := ⟨id⟩

theorem Watched.require_bind {holds : Bool} {x : Watched α} {c : Course} (h : holds = true) :
    (Watched.require holds >>= fun _ => x) c = x c := by
  rw [Watched.bind_apply, Watched.require, if_pos h]

theorem Sure.pure {a : α} {gs : α → List Footing} (h : gs a = fs) :
    Sure fs (Pure.pure a : Watched α) gs where
  reaches {c} hc := by
    show c.state.On (gs a)
    rwa [h]

theorem State.On.lower {s : State} {d b b' : Nat} (h : s.On (⟨d, b'⟩ :: fs)) (hb : b ≤ b') :
    s.On (⟨d, b⟩ :: fs) := by
  refine ⟨h.previous, h.current, h.rest, ?_⟩
  obtain _ | ⟨u, hs⟩ := h.drafts
  exact .cons ⟨u.depth, Nat.le_trans hb u.size, u.locals⟩ hs

/-- Less may be told of the code. -/
theorem Sure.lower {x : Watched α} {d b b' : Nat}
    (h : Sure gs x fun _ => ⟨d, b'⟩ :: fs) (hb : b ≤ b') : Sure gs x fun _ => ⟨d, b⟩ :: fs where
  reaches hc := (h.reaches hc).mono fun _ _ reached => reached.lower hb

theorem Sure.look {g : State → Watched α} {gs : α → List Footing}
    (h : ∀ {c : Course}, c.state.On fs → Reaches gs (g c.state c)) :
    Sure fs (Watched.state >>= g) gs where
  reaches hc := h hc

/-- There is always a function to compile. -/
theorem Sure.ofCons {x : Watched α}
    (h : ∀ d b fs, Sure (⟨d, b⟩ :: fs) x fun _ => ⟨d, b⟩ :: fs) : Sure fs x fun _ => fs where
  reaches {c} hc := by
    cases fs with
    | nil => cases hc.drafts
    | cons f fs => exact (h f.depth f.size fs).reaches hc

variable {g : Nat → Watched α} {gs : α → List Footing}

theorem Sure.here (h : ∀ start, b ≤ start → Sure (⟨d, start⟩ :: fs) (g start) gs) :
    Sure (⟨d, b⟩ :: fs) (liftM here >>= g) gs where
  reaches {c} hc := by
    obtain _ | ⟨u, hs⟩ := hc.drafts
    exact (h _ u.size).reaches
      ⟨hc.previous, hc.current, hc.rest, .cons ⟨u.depth, Nat.le_refl _, u.locals⟩ hs⟩

theorem Sure.jump {jump : UInt16 → Instruction} (hj : ∀ d, (jump d).size = 3)
    (h : ∀ o, b ≤ o → Sure (⟨d, o + 3⟩ :: fs) (g o) gs) :
    Sure (⟨d, b⟩ :: fs) (liftM (emitJump jump) >>= g) gs where
  reaches {c} hc := by
    obtain _ | ⟨u, hs⟩ := hc.drafts
    have emitted := c.state.onward_emit (jump 0xFFFF)
    have size : (c.state.emit (jump 0xFFFF)).draft.chunk.code.size =
        c.state.draft.chunk.code.size + 3 := by
      rw [← hj 0xFFFF]
      exact Chunk.size_emit ..
    obtain ⟨previous, current, rest, drafts⟩ := hc.onward emitted
    obtain _ | ⟨u', hs'⟩ := drafts
    exact (h _ u.size).reaches
      ⟨previous, current, rest, .cons ⟨u'.depth, Nat.le_of_eq size.symm, u'.locals⟩ hs'⟩

end Sure

section Steps

variable {fs : List Footing} {d b : Nat}

theorem State.On.take {ts : List Token} : ∀ {s : State}, s.On fs → (∀ t ∈ ts, Quoted t) →
    (s.take ts).On fs := by
  induction ts with
  | nil => exact fun h _ => ⟨h.previous, h.current, nofun, h.drafts⟩
  | cons t ts ih =>
    intro s h quoted
    obtain ⟨ht, hts⟩ := List.forall_mem_cons.1 quoted
    unfold State.take
    split
    · exact ih (h.onward (s.onward_reportAt _ _)) hts
    · exact ⟨h.previous, ht, hts, h.drafts⟩

instance : Sure fs (liftM advance : Watched Unit) fun _ => fs where
  reaches {c} hc := by
    have moved : State.On { c.state with previous := c.state.current } fs :=
      ⟨hc.current, hc.current, hc.rest, hc.drafts⟩
    exact moved.take hc.rest

instance : Sure fs Watched.advance fun _ => fs := by
  unfold Watched.advance
  infer_instance

instance (k : TokenKind) : Sure fs (Watched.accept k) fun _ => fs := by
  unfold Watched.accept
  infer_instance

instance (k : TokenKind) (what : Expectation) : Sure fs (Watched.consume k what) fun _ => fs := by
  unfold Watched.consume
  infer_instance

instance (what : Expectation) : Sure fs (Watched.newVariable what) fun _ => fs := by
  unfold Watched.newVariable
  infer_instance

instance (steps : Nat) : Sure fs (Watched.skip steps) fun _ => fs := by
  induction steps with
  | zero => exact ⟨fun _ => nofun⟩
  | succ steps ih =>
    unfold Watched.skip
    infer_instance

instance : Sure fs Watched.recover fun _ => fs := by
  have : Smooth (modify fun s : State => { s with panicking := false }) :=
    .modify fun _ => ⟨rfl, rfl, rfl, forall₂_refl .refl _⟩
  unfold Watched.recover
  infer_instance

theorem landJump_sure {offset : Nat} (fs : List Footing) (h : offset + 3 ≤ b) :
    Sure (⟨d, b⟩ :: fs) (Watched.landJump offset) fun _ => ⟨d, b⟩ :: fs where
  reaches {c} hc := by
    obtain _ | ⟨u, -⟩ := hc.drafts
    have size : b ≤ c.state.draft.chunk.code.size := u.size
    have landing : Watched.landJump offset c = (liftM (landJump offset) : Watched Unit) c :=
      Watched.require_bind (by simp; omega)
    rw [landing]
    exact Sure.reaches hc

theorem emitBackJump_sure {start : Nat} (fs : List Footing) (h : start ≤ b + 3) :
    Sure (⟨d, b⟩ :: fs) (Watched.emitBackJump start) fun _ => ⟨d, b⟩ :: fs where
  reaches {c} hc := by
    obtain _ | ⟨u, -⟩ := hc.drafts
    have size : b ≤ c.state.draft.chunk.code.size := u.size
    have jumping : Watched.emitBackJump start c = (liftM (emitBackJump start) : Watched Unit) c :=
      Watched.require_bind (by simp; omega)
    rw [jumping]
    exact Sure.reaches hc

instance : Sure (⟨d, b⟩ :: fs) (liftM openScope : Watched Unit) fun _ => ⟨d + 1, b⟩ :: fs where
  reaches {c} hc := by
    obtain _ | ⟨u, hs⟩ := hc.drafts
    exact ⟨hc.previous, hc.current, hc.rest,
      .cons ⟨congrArg (· + 1) u.depth, u.size, u.locals⟩ hs⟩

theorem State.On.dropLocals {f : Footing} {ls : List Local} : ∀ {s : State},
    s.On (f :: fs) → ls.length ≤ slotLimit → (s.dropLocals ls).On (f :: fs) := by
  induction ls with
  | nil => exact fun h _ => h.onward (.draft ⟨rfl, Nat.le_refl _, fun _ => Nat.zero_le _⟩)
  | cons l ls ih =>
    intro s h le
    unfold State.dropLocals
    split
    · exact ih (h.onward (s.onward_emit _)) (Nat.le_of_succ_le le)
    · exact h.onward (.draft ⟨rfl, Nat.le_refl _, fun _ => le⟩)

instance : Sure (⟨d + 1, b⟩ :: fs) Watched.closeScope fun _ => ⟨d, b⟩ :: fs where
  reaches {c} hc := by
    obtain _ | ⟨u, hs⟩ := hc.drafts
    have deep : c.state.draft.depth = d + 1 := u.depth
    have closing : Watched.closeScope c = (liftM closeScope : Watched Unit) c :=
      Watched.require_bind (by simp [deep])
    rw [closing]
    have shallow : State.On { c.state with
        draft := { c.state.draft with depth := c.state.draft.depth - 1 } } (⟨d, b⟩ :: fs) :=
      ⟨hc.previous, hc.current, hc.rest, .cons ⟨by simp [deep], u.size, u.locals⟩ hs⟩
    exact shallow.dropLocals u.locals

theorem under_new (kind : BodyKind) (name : Option Ref) : Footing.Under ⟨0, 0⟩ (.new kind name) :=
  ⟨rfl, Nat.zero_le _, Nat.succ_le_of_lt (Nat.succ_pos 255)⟩

instance (name : Ref) :
    Sure fs (liftM (beginFunction name) : Watched Unit) fun _ => ⟨0, 0⟩ :: fs where
  reaches hc := ⟨hc.previous, hc.current, hc.rest, .cons (under_new ..) hc.drafts⟩

/-- What goes on when a function ends: the one around it, or else a script without any code. -/
theorem endFunction_drafts {s s' : State} {p : Function × Array Capture}
    (h : endFunction s = some (p, s')) : ∃ s₁ : State, s.Onward s₁ ∧ s'.rest = s₁.rest ∧
      s'.current = s₁.current ∧ s'.previous = s₁.previous ∧
      s'.draft :: s'.enclosing = match s₁.enclosing with
        | [] => [.new .script none]
        | d :: ds => d :: ds := by
  obtain ⟨_, s₁, h₁, h₂⟩ := bind_eq_some.1 h
  refine ⟨s₁, Smooth.onward h₁, ?_⟩
  have ended := Option.some.inj h₂
  cases e : s₁.enclosing with
  | nil =>
    simp only [e] at ended
    cases ended
    exact ⟨rfl, rfl, rfl, rfl⟩
  | cons d ds =>
    simp only [e] at ended
    cases ended
    exact ⟨rfl, rfl, rfl, rfl⟩

theorem endFunction_sure {f : Footing} {fs gs : List Footing}
    (h : ∀ ds : List Draft, List.Forall₂ Footing.Under fs ds →
      List.Forall₂ Footing.Under gs (match ds with
        | [] => [.new .script none]
        | d :: ds => d :: ds)) :
    Sure (f :: fs) (liftM endFunction : Watched (Function × Array Capture)) fun _ => gs where
  reaches hc := .ofLift nofun fun _ _ he => by
    obtain ⟨s₁, onward, rest', current', previous', drafts'⟩ := endFunction_drafts he
    obtain ⟨previous, current, rest, drafts⟩ := hc.onward onward
    obtain _ | ⟨-, hs⟩ := drafts
    exact ⟨previous' ▸ previous, current' ▸ current, rest' ▸ rest, drafts' ▸ h _ hs⟩

instance {f g : Footing} : Sure (f :: g :: fs)
    (liftM endFunction : Watched (Function × Array Capture)) fun _ => g :: fs :=
  endFunction_sure fun ds hs => by
    cases hs with
    | cons u hs => exact .cons u hs

theorem hasSlot_of_le {name : String} {ds : List Draft}
    (h : ∀ d ∈ ds, d.locals.length ≤ slotLimit) : Watched.hasSlot name ds = true := by
  induction ds with
  | nil => rfl
  | cons d ds ih =>
    obtain ⟨hd, hds⟩ := List.forall_mem_cons.1 h
    unfold Watched.hasSlot
    split
    next slot l found =>
      have inside : slot < d.locals.length := (Draft.findIn_captureIn found).1
      have small : slot < 256 := Nat.lt_of_lt_of_le inside hd
      have slot' : slot.toUInt8.toNat = slot := by simpa using small
      rw [slot']
      simp [slotLimit, small, inside]
    next => exact ih hds

instance (name : String) : Sure fs (Watched.resolve name) fun _ => fs where
  reaches {c} hc := by
    have slots : ∀ d ∈ c.state.draft :: c.state.enclosing, d.locals.length ≤ slotLimit := by
      intro d hd
      obtain ⟨f, -, u⟩ := forall₂_mem_right hc.drafts hd
      exact u.locals
    have resolving : Watched.resolve name c = (liftM (resolve name) : Watched Place) c :=
      Watched.require_bind (hasSlot_of_le slots)
    rw [resolving]
    exact Sure.reaches hc

end Steps

section Expressions

structure SureExpressions (n : Nat) : Prop where
  expression : ∀ fs, Sure fs (Watched.expression n) fun _ => fs
  operand : ∀ fs p, Sure fs (Watched.operand n p) fun _ => fs
  operators : ∀ fs p b, Sure fs (Watched.operators n p b) fun _ => fs
  leading : ∀ fs form b {c : Course}, c.state.On fs →
    leading? c.state.previous.kind = some form → Reaches (fun _ => fs) (Watched.leading n form b c)
  trailing : ∀ fs form b, Sure fs (Watched.trailing n form b) fun _ => fs
  items : ∀ fs close limit what, Sure fs (Watched.items n close limit what) fun _ => fs
  itemsFrom : ∀ fs limit count, Sure fs (Watched.itemsFrom n limit count) fun _ => fs

variable {n : Nat} {fs : List Footing}

theorem kind_of_leading_string {k : TokenKind} (h : leading? k = some .string) : k = .string := by
  unfold leading? at h
  split at h <;> first | rfl | cases h

theorem operand_sure (ih : SureExpressions n) (p : Precedence) :
    Sure fs (Watched.operand (n + 1) p) fun _ => fs := by
  have := ih.operators
  unfold Watched.operand
  refine .andThen inferInstance fun _ => .andThen inferInstance fun _ => .look fun {c} hc => ?_
  cases h : leading? c.state.previous.kind with
  | none => exact Sure.reaches hc
  | some form =>
    dsimp only
    exact (ih.leading fs form _ hc h).bind fun _ _ => Sure.reaches

theorem leading_sure (ih : SureExpressions n) (form : Leading) (b : Bool) {c : Course}
    (hc : c.state.On fs) (h : leading? c.state.previous.kind = some form) :
    Reaches (fun _ => fs) (Watched.leading (n + 1) form b c) := by
  have := ih.expression
  have := ih.operand
  have := ih.items
  unfold Watched.leading
  cases form with
  | string =>
    have quoted := hc.previous (kind_of_leading_string h)
    refine Reaches.called fun calls => ?_
    have unquoting (text : String) : Reaches (fun _ => fs) ((do
        Watched.require (Watched.hasInside c.state.previous.lexeme)
        let r ← intern text
        emitConstant (.object r) : Watched Unit) { c with calls }) := by
      rw [Watched.require_bind quoted]
      exact Sure.reaches hc
    exact unquoting _
  | _ => exact Sure.reaches hc

theorem trailing_sure (ih : SureExpressions n) (form : Trailing) (b : Bool) :
    Sure fs (Watched.trailing (n + 1) form b) fun _ => fs := by
  have := ih.expression
  have := ih.operand
  have := ih.items
  unfold Watched.trailing
  cases form with
  | and =>
    refine .ofCons fun d b fs => .andThen inferInstance fun _ =>
      .jump (fun _ => rfl) fun past le => ?_
    have := landJump_sure (d := d) fs (Nat.le_refl (past + 3))
    exact .lower inferInstance (Nat.le_add_right_of_le le)
  | or =>
    refine .ofCons fun d b fs => .andThen inferInstance fun _ =>
      .jump (fun _ => rfl) fun otherwise le => .jump (fun _ => rfl) fun past le' => ?_
    have inner : otherwise + 3 ≤ past + 3 := by omega
    have := landJump_sure (d := d) fs inner
    have := landJump_sure (d := d) fs (Nat.le_refl (past + 3))
    exact .lower inferInstance (by omega)
  | _ => infer_instance

theorem sureExpressions (n : Nat) : SureExpressions n := by
  induction n with
  | zero =>
    have exhausted {α : Type} {fs : List Footing} :
        Sure fs (liftM (outOfFuel : Compiler α) : Watched α) fun _ => fs := inferInstance
    constructor
    case leading => exact fun fs form b c hc _ => exhausted.reaches hc
    all_goals intros; exact exhausted
  | succ n ih =>
    constructor
    · intro fs
      have := ih.operand
      unfold Watched.expression
      infer_instance
    · exact fun fs p => operand_sure ih p
    · intro fs p b
      have := ih.operators
      have := ih.trailing
      unfold Watched.operators
      refine .andThen inferInstance fun s => ?_
      split <;> infer_instance
    · exact fun fs form b => leading_sure ih form b
    · exact fun fs form b => trailing_sure ih form b
    · intro fs close limit what
      have := ih.itemsFrom
      unfold Watched.items
      infer_instance
    · intro fs limit count
      have := ih.expression
      have := ih.itemsFrom
      unfold Watched.itemsFrom
      dsimp only
      infer_instance

end Expressions

section Statements

set_option synthInstance.maxSize 5000

/-- Where the code has to reach behind the condition of a loop: past the jump that leaves the loop. -/
def exitEnd : Option Nat → Nat
  | some exit => exit + 3
  | none => 0

structure SureStatements (n : Nat) : Prop where
  declaration : ∀ fs, Sure fs (Watched.declaration n) fun _ => fs
  functionDeclaration : ∀ fs, Sure fs (Watched.functionDeclaration n) fun _ => fs
  variableDeclaration : ∀ fs, Sure fs (Watched.variableDeclaration n) fun _ => fs
  function : ∀ fs, Sure fs (Watched.function n) fun _ => fs
  parameters : ∀ fs, Sure fs (Watched.parameters n) fun _ => fs
  statement : ∀ fs, Sure fs (Watched.statement n) fun _ => fs
  block : ∀ fs, Sure fs (Watched.block n) fun _ => fs
  expressionStatement : ∀ fs, Sure fs (Watched.expressionStatement n) fun _ => fs
  returnStatement : ∀ fs, Sure fs (Watched.returnStatement n) fun _ => fs
  ifStatement : ∀ fs, Sure fs (Watched.ifStatement n) fun _ => fs
  whileStatement : ∀ fs, Sure fs (Watched.whileStatement n) fun _ => fs
  forStatement : ∀ fs, Sure fs (Watched.forStatement n) fun _ => fs
  forInitializer : ∀ fs, Sure fs (Watched.forInitializer n) fun _ => fs
  forCondition : ∀ d b fs, Sure (⟨d, b⟩ :: fs) (Watched.forCondition n)
    fun exit => ⟨d, max b (exitEnd exit)⟩ :: fs
  forIncrement : ∀ d b fs start, start ≤ b →
    Sure (⟨d, b⟩ :: fs) (Watched.forIncrement n start) fun start' => ⟨d, max b start'⟩ :: fs

variable {n : Nat} {fs : List Footing}

theorem function_sure (ih : SureStatements n) : Sure fs (Watched.function (n + 1)) fun _ => fs := by
  have := ih.parameters
  have := ih.block
  unfold Watched.function
  dsimp only
  refine .ofCons fun d b fs => ?_
  infer_instance

theorem statement_sure (ih : SureStatements n) : Sure fs (Watched.statement (n + 1)) fun _ => fs := by
  have := (sureExpressions n).expression
  have := ih.forStatement
  have := ih.ifStatement
  have := ih.returnStatement
  have := ih.whileStatement
  have := ih.block
  have := ih.expressionStatement
  have bracing : Sure fs (do
      openScope
      Watched.call
      Watched.block n
      Watched.closeScope) fun _ => fs :=
    .ofCons fun d b fs => inferInstance
  unfold Watched.statement
  infer_instance

theorem ifStatement_sure (ih : SureStatements n) :
    Sure fs (Watched.ifStatement (n + 1)) fun _ => fs := by
  have := (sureExpressions n).expression
  have := ih.statement
  unfold Watched.ifStatement
  dsimp only
  refine .ofCons fun d b fs => .andThen inferInstance fun _ => .andThen inferInstance fun _ =>
    .andThen inferInstance fun _ => .andThen inferInstance fun _ =>
    .jump (fun _ => rfl) fun otherwise le => .andThen inferInstance fun _ =>
    .andThen inferInstance fun _ => .jump (fun _ => rfl) fun past le' => ?_
  have inner : otherwise + 3 ≤ past + 3 := by omega
  have := landJump_sure (d := d) fs inner
  have := landJump_sure (d := d) fs (Nat.le_refl (past + 3))
  exact .lower inferInstance (by omega)

theorem whileStatement_sure (ih : SureStatements n) :
    Sure fs (Watched.whileStatement (n + 1)) fun _ => fs := by
  have := (sureExpressions n).expression
  have := ih.statement
  unfold Watched.whileStatement
  refine .ofCons fun d b fs => .andThen inferInstance fun _ => .here fun start le =>
    .andThen inferInstance fun _ => .andThen inferInstance fun _ => .andThen inferInstance fun _ =>
    .jump (fun _ => rfl) fun exit le' => ?_
  have behind : start ≤ exit + 3 + 3 := by omega
  have := emitBackJump_sure (d := d) fs behind
  have := landJump_sure (d := d) fs (Nat.le_refl (exit + 3))
  exact .lower inferInstance (by omega)

theorem forStatement_sure (ih : SureStatements n) :
    Sure fs (Watched.forStatement (n + 1)) fun _ => fs := by
  have := ih.forInitializer
  have := ih.statement
  unfold Watched.forStatement
  refine .ofCons fun d b fs => .andThen inferInstance fun _ => .andThen inferInstance fun _ =>
    .andThen inferInstance fun _ => .andThen inferInstance fun _ => .here fun start le =>
    .andThen (ih.forCondition ..) fun exit =>
    .andThen (ih.forIncrement _ _ _ _ (Nat.le_max_left ..)) fun start' => ?_
  have behind : start' ≤ max (max start (exitEnd exit)) start' + 3 := by omega
  have := emitBackJump_sure (d := d + 1) fs behind
  cases exit with
  | none => exact .lower inferInstance (by omega)
  | some exit =>
    have exitEnd : exitEnd (some exit) = exit + 3 := rfl
    have inner : exit + 3 ≤ max (max start (Compile.exitEnd (some exit))) start' := by omega
    have := landJump_sure (d := d + 1) fs inner
    exact .lower inferInstance (by omega)

theorem forCondition_sure {d b : Nat} : Sure (⟨d, b⟩ :: fs) (Watched.forCondition (n + 1))
    fun exit => ⟨d, max b (exitEnd exit)⟩ :: fs := by
  have := (sureExpressions n).expression
  unfold Watched.forCondition
  refine .andThen inferInstance fun absent => ?_
  split
  next => exact .pure (by simp [exitEnd])
  next =>
    refine .andThen inferInstance fun _ => .andThen inferInstance fun _ =>
      .jump (fun _ => rfl) fun exit le => .andThen inferInstance fun _ => .pure ?_
    have reached : max b (exit + 3) = exit + 3 := by omega
    rw [exitEnd, reached]

theorem forIncrement_sure {d b start : Nat} (h : start ≤ b) :
    Sure (⟨d, b⟩ :: fs) (Watched.forIncrement (n + 1) start)
      fun start' => ⟨d, max b start'⟩ :: fs := by
  have := (sureExpressions n).expression
  rw [Watched.forIncrement]
  refine .andThen inferInstance fun absent => ?_
  split
  next => exact .pure (by rw [Nat.max_eq_left h])
  next =>
    refine .jump (fun _ => rfl) fun body le => .here fun increment le' =>
      .andThen inferInstance fun _ => .andThen inferInstance fun _ =>
      .andThen inferInstance fun _ => ?_
    have behind : start ≤ increment + 3 := by omega
    have reached : max b increment = increment := by omega
    refine .andThen (emitBackJump_sure fs behind) fun _ => .andThen (landJump_sure fs le') fun _ =>
      .pure ?_
    rw [reached]

theorem sureStatements (n : Nat) : SureStatements n := by
  induction n with
  | zero =>
    have exhausted {α : Type} {fs : List Footing} {gs : α → List Footing} :
        Sure fs (liftM (outOfFuel : Compiler α) : Watched α) gs := ⟨fun _ => nofun⟩
    constructor <;> intros <;> exact exhausted
  | succ n ih =>
    have := (sureExpressions n).expression
    constructor
    · have := ih.functionDeclaration
      have := ih.variableDeclaration
      have := ih.statement
      intro fs
      unfold Watched.declaration
      dsimp only
      infer_instance
    · have := ih.function
      intro fs
      unfold Watched.functionDeclaration
      infer_instance
    · intro fs
      unfold Watched.variableDeclaration
      dsimp only
      infer_instance
    · exact fun fs => function_sure ih
    · have := ih.parameters
      have : Smooth (modify fun s : State =>
          { s with draft := { s.draft with arity := s.draft.arity + 1 } }) :=
        .modify fun s => .draft ⟨rfl, Nat.le_refl _, id⟩
      intro fs
      unfold Watched.parameters
      dsimp only
      infer_instance
    · exact fun fs => statement_sure ih
    · have := ih.declaration
      have := ih.block
      intro fs
      unfold Watched.block
      infer_instance
    · intro fs
      unfold Watched.expressionStatement
      infer_instance
    · intro fs
      unfold Watched.returnStatement
      dsimp only
      infer_instance
    · exact fun fs => ifStatement_sure ih
    · exact fun fs => whileStatement_sure ih
    · exact fun fs => forStatement_sure ih
    · have := ih.variableDeclaration
      have := ih.expressionStatement
      intro fs
      unfold Watched.forInitializer
      infer_instance
    · exact fun d b fs => forCondition_sure
    · exact fun d b fs start => forIncrement_sure

end Statements

section Script

theorem declarations_sure (n : Nat) : ∀ fs, Sure fs (Watched.declarations n) fun _ => fs := by
  induction n with
  | zero => exact fun fs => ⟨fun _ => nofun⟩
  | succ n ih =>
    have := (sureStatements n).declaration
    intro fs
    unfold Watched.declarations
    infer_instance

theorem hasInside_quotes (body : List Char) :
    Watched.hasInside (String.ofList ('"' :: (body ++ ['"']))) = true := by
  have first : (String.ofList ['"']).utf8ByteSize = 1 := rfl
  have front : (String.ofList ('"' :: body)).utf8ByteSize = 1 + (Lexical.octets body).length := by
    rw [Lexical.utf8ByteSize_ofList, Lexical.octets_cons, List.length_append]
    rfl
  have whole : (String.ofList ('"' :: (body ++ ['"']))).utf8ByteSize =
      1 + (Lexical.octets body).length + 1 := by
    rw [← front, Lexical.utf8ByteSize_ofList, Lexical.utf8ByteSize_ofList, ← List.cons_append,
      Lexical.octets_append, List.length_append]
    rfl
  have inFront : String.Pos.Raw.isValid (String.ofList ('"' :: (body ++ ['"']))) ⟨1⟩ = true :=
    String.Pos.Raw.isValid_eq_true_iff.2 (String.Pos.Raw.isValid_ofList.2 ⟨1, first.symm⟩)
  have behind : String.Pos.Raw.isValid (String.ofList ('"' :: (body ++ ['"'])))
      ⟨1 + (Lexical.octets body).length⟩ = true := by
    refine String.Pos.Raw.isValid_eq_true_iff.2
      (String.Pos.Raw.isValid_ofList.2 ⟨body.length + 1, ?_⟩)
    rw [List.take_succ_cons, List.take_left, front]
  rw [Watched.hasInside, whole, Nat.add_sub_cancel, inFront, behind]
  simp
theorem quoted_scan (source : String) : ∀ t ∈ Lexical.scan source, Quoted t := by
  intro t ht string
  obtain ⟨body, e⟩ := Lexical.quotes_scanFrom _ _ t ht string
  rw [e]
  exact hasInside_quotes body

/-- A script does not crash. -/
theorem Watched.script_sure (n : Nat) (source : String) (heap : Heap) :
    Watched.script n ⟨.new (Lexical.scan source) heap, 0⟩ ≠ .error .crash := by
  have start : (State.new (Lexical.scan source) heap).On [⟨0, 0⟩] :=
    ⟨nofun, nofun, quoted_scan source, .cons (under_new ..) .nil⟩
  have := declarations_sure n
  have ending : Sure [⟨0, 0⟩] (liftM endFunction : Watched (Function × Array Capture))
      fun _ => [⟨0, 0⟩] :=
    endFunction_sure fun ds hs => by
      cases hs with
      | nil => exact .cons (under_new ..) .nil
  have whole : Sure [⟨0, 0⟩] (Watched.script n) fun _ => [⟨0, 0⟩] := by
    unfold Watched.script
    infer_instance
  exact (whole.reaches start).ne

end Script
end Compile
end StackScript
