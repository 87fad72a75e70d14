import StackScript.Proofs.Compile.Faultless
import StackScript.Proofs.Entrywise
import StackScript.Proofs.Store.Bridge

/-!
# StackScript.Proofs.Compile.Renaming

Two compilers that read the same tokens on different heaps.

* `Function.Renamed`: functions that are the same but for the handles in them.
* `Bridge.Renames`: a bridge that takes strings to strings with the same text and functions to
  functions that are the same but for handles.
* `State.Renamed`: states that are the same but for handles.
* `Concur`: computations that lead from such states to such states. `Uniform`: computations that do
  so with the same result. One rule for each step that productions are made of.
-/

namespace StackScript

structure Chunk.Renamed (b : Bridge) (c c' : Chunk) : Prop where
  code : c'.code = c.code
  lines : c'.lines = c.lines
  constants : List.Forall₂ b.Values c.constants.toList c'.constants.toList

structure Function.Renamed (b : Bridge) (f g : Function) : Prop where
  name : b.Names f.name g.name
  arity : g.arity = f.arity
  upvalues : g.upvalueCount = f.upvalueCount
  chunk : f.chunk.Renamed b g.chunk

structure Bridge.Renames (b : Bridge) : Prop extends b.Faithful where
  functions : ∀ ⦃r q⦄, b.pairs r q → ∃ f g, b.near.function? r = some f ∧
    b.far.function? q = some g ∧ f.Renamed b g

variable {b b' : Bridge}

theorem Chunk.Renamed.mono {c c' : Chunk} (h : c.Renamed b c') (hb : b.Below b') :
    c.Renamed b' c' :=
  ⟨h.code, h.lines, h.constants.imp fun _ _ => hb.values⟩

theorem Chunk.Renamed.emit {c c' : Chunk} (h : c.Renamed b c') (i : Instruction) {line line' : Nat}
    (e : line' = line) : (c.emit i line).Renamed b (c'.emit i line') :=
  ⟨by simp only [Chunk.emit, h.code], by simp only [Chunk.emit, h.code, h.lines, e], h.constants⟩

theorem Chunk.Renamed.setDistance {c c' : Chunk} (h : c.Renamed b c') (offset : Nat) (d : UInt16) :
    (c.setDistance offset d).Renamed b (c'.setDistance offset d) :=
  ⟨by simp only [Chunk.setDistance, h.code], h.lines, h.constants⟩

theorem Function.Renamed.mono {f g : Function} (h : f.Renamed b g) (hb : b.Below b') :
    f.Renamed b' g :=
  ⟨hb.names h.name, h.arity, h.upvalues, h.chunk.mono hb⟩

/-- The strings with a text stand for the same. -/
theorem Bridge.values_of_text {text : String} {r q : Ref}
    (h : b.near.string? r = some text ∧ b.far.string? q = some text) :
    b.Values (.object r) (.object q) :=
  .object (.string h.1 h.2)

/-- Two heaps before anything is compiled: no functions belong together yet. -/
def Bridge.between (near far : Heap) : Bridge := ⟨fun _ _ => False, near, far⟩

theorem Bridge.renames_between {near far : Heap} (sound : near.Sound) (sound' : far.Sound) :
    (Bridge.between near far).Renames :=
  ⟨⟨fun _ _ _ h => h.elim, fun _ _ _ h => h.elim, fun _ _ h => h.elim, sound, sound'⟩,
    fun _ _ h => h.elim⟩

section Pool

/-- Values that are alike are found at the same place of a pool. -/
theorem Bridge.Faithful.findIdx?_eq (f : b.Faithful) {vs ws : List Value} {v w : Value}
    (hs : List.Forall₂ b.Values vs ws) (h : b.Values v w) :
    ws.findIdx? (· == w) = vs.findIdx? (· == v) := by
  induction hs with
  | nil => rfl
  | cons h' _ ih => rw [List.findIdx?_cons, List.findIdx?_cons, ih, f.beq_eq h' h]

/-- A value is added to both pools at the same place, or to none of them. -/
inductive Chunk.Added (b : Bridge) : Option (Chunk × UInt8) → Option (Chunk × UInt8) → Prop where
  | none : Added b none none
  | some {c c' : Chunk} (k : UInt8) : c.Renamed b c' → Added b (some (c, k)) (some (c', k))

theorem Chunk.Renamed.addConstant? {c c' : Chunk} (h : c.Renamed b c') (f : b.Faithful)
    {v w : Value} (hv : b.Values v w) : Chunk.Added b (c.addConstant? v) (c'.addConstant? w) := by
  have found : c'.constants.findIdx? (· == w) = c.constants.findIdx? (· == v) := by
    rw [← c.constants.toArray_toList, ← c'.constants.toArray_toList, List.findIdx?_toArray,
      List.findIdx?_toArray, f.findIdx?_eq h.constants hv]
  have size : c'.constants.size = c.constants.size := by
    simpa using h.constants.length_eq.symm
  simp only [Chunk.addConstant?, found, size]
  split
  · split
    · exact .some _ h
    · exact .none
  · split
    · refine .some _ ⟨h.code, h.lines, ?_⟩
      rw [Array.toList_push, Array.toList_push]
      exact List.rel_append h.constants (.cons hv .nil)
    · exact .none

end Pool

namespace Bridge.Renames

/-- Both heaps may gain objects. -/
theorem onward {near far : Heap} (h : b.Renames) (hn : b.near.Extends near)
    (hf : b.far.Extends far) (sound : near.Sound) (sound' : far.Sound) :
    b.Below ⟨b.pairs, near, far⟩ ∧ Bridge.Renames ⟨b.pairs, near, far⟩ := by
  have below : b.Below ⟨b.pairs, near, far⟩ := ⟨fun _ _ => id, hn.kept, hf.kept⟩
  have functions {r q : Ref} (hp : b.pairs r q) : ∃ f g, near.function? r = some f ∧
      far.function? q = some g ∧ f.Renamed ⟨b.pairs, near, far⟩ g := by
    obtain ⟨f, g, hr, hq, same⟩ := h.functions hp
    exact ⟨f, g, hn.function? hr, hf.function? hq, same.mono below⟩
  refine ⟨below, ⟨h.unique, h.injective, fun r q hp => ?_, sound, sound'⟩, fun _ _ => functions⟩
  obtain ⟨f, g, hr, hq, -⟩ := functions hp
  rw [Heap.function?_eq_some] at hr hq
  constructor
  · show near.string? r = none
    rw [Heap.string?, hr]
  · show far.string? q = none
    rw [Heap.string?, hq]

theorem intern (h : b.Renames) (text : String)
    (room : (b.near.intern text).1.size ≤ UInt32.size)
    (room' : (b.far.intern text).1.size ≤ UInt32.size) :
    let b' : Bridge := ⟨b.pairs, (b.near.intern text).1, (b.far.intern text).1⟩
    b.Below b' ∧ b'.Renames ∧ b'.near.string? (b.near.intern text).2 = some text ∧
      b'.far.string? (b.far.intern text).2 = some text := by
  obtain ⟨below, renames⟩ := h.onward (b.near.extends_intern text) (b.far.extends_intern text)
    (h.near.intern room) (h.far.intern room')
  exact ⟨below, renames, b.near.string?_intern text room, b.far.string?_intern text room'⟩

theorem index_lt_size {h : Heap} {r : Ref} {f : Function} (hf : h.function? r = some f) :
    r.index < h.size :=
  (Array.getElem?_eq_some_iff.1 (Heap.function?_eq_some.1 hf)).1

/-- Functions that are the same but for handles are put on both heaps. -/
theorem allocate (h : b.Renames) {f g : Function} (same : f.Renamed b g)
    (room : (b.near.allocate (.function f)).1.size ≤ UInt32.size)
    (room' : (b.far.allocate (.function g)).1.size ≤ UInt32.size) :
    let r := (b.near.allocate (.function f)).2
    let q := (b.far.allocate (.function g)).2
    let b' : Bridge := ⟨fun r' q' => b.pairs r' q' ∨ (r' = r ∧ q' = q),
      (b.near.allocate (.function f)).1, (b.far.allocate (.function g)).1⟩
    b.Below b' ∧ b'.Renames := by
  intro r q b'
  obtain ⟨⟨-, kept, kept'⟩, onward⟩ :=
    h.onward (b.near.extends_allocate (.function f)) (b.far.extends_allocate (.function g))
      (h.near.allocate nofun) (h.far.allocate nofun)
  have below : b.Below b' := ⟨fun _ _ => .inl, kept, kept'⟩
  rw [Heap.size_allocate] at room room'
  have hr : r.index = b.near.size := Heap.index_ofIndex room
  have hq : q.index = b.far.size := Heap.index_ofIndex room'
  have old {r' q' : Ref} (hp : b.pairs r' q') : r' ≠ r ∧ q' ≠ q := by
    obtain ⟨f', g', hf, hg, -⟩ := h.functions hp
    have lt := index_lt_size hf
    have lt' := index_lt_size hg
    exact ⟨fun e => by rw [e] at lt; omega, fun e => by rw [e] at lt'; omega⟩
  have new : b'.near.get? r = some (.function f) := Heap.get?_allocate room
  have new' : b'.far.get? q = some (.function g) := Heap.get?_allocate room'
  refine ⟨below, ⟨?_, ?_, ?_, onward.near, onward.far⟩, ?_⟩
  · rintro r' q₁ q₂ (hp | ⟨rfl, rfl⟩) (hp' | ⟨e, rfl⟩)
    · exact h.unique hp hp'
    · exact absurd e (old hp).1
    · exact absurd rfl (old hp').1
    · rfl
  · rintro r₁ r₂ q' (hp | ⟨rfl, rfl⟩) (hp' | ⟨rfl, e⟩)
    · exact h.injective hp hp'
    · exact absurd e (old hp).2
    · exact absurd rfl (old hp').2
    · rfl
  · rintro r' q' (hp | ⟨rfl, rfl⟩)
    · exact onward.plain hp
    · exact ⟨by rw [Heap.string?, new], by rw [Heap.string?, new']⟩
  · rintro r' q' (hp | ⟨rfl, rfl⟩)
    · obtain ⟨f', g', hf, hg, same'⟩ := h.functions hp
      exact ⟨f', g', kept.function? hf, kept'.function? hg, same'.mono below⟩
    · exact ⟨f, g, Heap.function?_eq_some.2 new, Heap.function?_eq_some.2 new', same.mono below⟩

end Bridge.Renames

namespace Compile

/-- Drafts that are the same but for handles. -/
structure Draft.Renamed (b : Bridge) (d d' : Draft) : Prop where
  kind : d'.kind = d.kind
  name : b.Names d.name d'.name
  arity : d'.arity = d.arity
  chunk : d.chunk.Renamed b d'.chunk
  locals : d'.locals = d.locals
  captures : d'.captures = d.captures
  depth : d'.depth = d.depth

namespace Draft.Renamed

variable {d d' : Draft}

theorem mono (h : d.Renamed b d') (hb : b.Below b') : d.Renamed b' d' :=
  ⟨h.kind, hb.names h.name, h.arity, h.chunk.mono hb, h.locals, h.captures, h.depth⟩

theorem withChunk (h : d.Renamed b d') {chunk chunk' : Chunk} (hc : chunk.Renamed b chunk') :
    Draft.Renamed b { d with chunk } { d' with chunk := chunk' } :=
  ⟨h.kind, h.name, h.arity, hc, h.locals, h.captures, h.depth⟩

theorem withLocals (h : d.Renamed b d') {locals locals' : List Local} (e : locals' = locals) :
    Draft.Renamed b { d with locals } { d' with locals := locals' } :=
  ⟨h.kind, h.name, h.arity, h.chunk, e, h.captures, h.depth⟩

theorem withDepth (h : d.Renamed b d') {depth depth' : Nat} (e : depth' = depth) :
    Draft.Renamed b { d with depth } { d' with depth := depth' } :=
  ⟨h.kind, h.name, h.arity, h.chunk, h.locals, h.captures, e⟩

theorem captureLocal (h : d.Renamed b d') (name : String) :
    (d.captureLocal name).Renamed b (d'.captureLocal name) :=
  h.withLocals (by rw [h.locals])

theorem makeReadable (h : d.Renamed b d') : d.makeReadable.Renamed b d'.makeReadable := by
  unfold Draft.makeReadable
  rw [h.locals]
  split
  · exact h
  · exact h.withLocals (by rw [h.depth])

theorem finish (h : d.Renamed b d') : d.finish.Renamed b d'.finish :=
  ⟨h.name, h.arity, congrArg Array.size h.captures, h.chunk⟩

theorem addCapture (h : d.Renamed b d') (c : Capture) :
    (d.addCapture c).1.Renamed b (d'.addCapture c).1 ∧
      (d'.addCapture c).2 = (d.addCapture c).2 := by
  unfold Draft.addCapture
  rw [h.captures]
  split
  · exact ⟨h, rfl⟩
  · split
    · exact ⟨⟨h.kind, h.name, h.arity, h.chunk, h.locals, rfl, h.depth⟩, rfl⟩
    · exact ⟨h, rfl⟩

theorem findLocal? (h : d.Renamed b d') (name : String) :
    d'.findLocal? name = d.findLocal? name := by
  rw [Draft.findLocal?, Draft.findLocal?, h.locals]

end Draft.Renamed

/-- A variable of an enclosing function is found in both compilers or in none. -/
inductive Resolution.Renamed (b : Bridge) : Option Resolution → Option Resolution → Prop where
  | none : Renamed b none none
  | some {r r' : Resolution} : r'.index = r.index → r'.fault = r.fault →
      r.draft.Renamed b r'.draft → List.Forall₂ (Draft.Renamed b) r.enclosing r'.enclosing →
      Renamed b (some r) (some r')

theorem resolveUpvalue_renamed (name : String) {ds ds' : List Draft}
    (hs : List.Forall₂ (Draft.Renamed b) ds ds') : ∀ {d d' : Draft}, d.Renamed b d' →
      Resolution.Renamed b (resolveUpvalue name d ds) (resolveUpvalue name d' ds') := by
  induction hs with
  | nil => exact fun _ => .none
  | @cons o o' ds ds' h₁ hs ih =>
    intro d d' h
    simp only [resolveUpvalue, h₁.findLocal?]
    cases o.findLocal? name with
    | some found =>
      obtain ⟨e, same⟩ := h.addCapture ⟨true, found.1.toUInt8⟩
      exact .some (congrArg (·.1) same) (congrArg (fun p => (readFault found.2).or p.2) same) e
        (.cons (h₁.captureLocal name) hs)
    | none =>
      have inner := ih h₁
      generalize resolveUpvalue name o ds = near at inner ⊢
      generalize resolveUpvalue name o' ds' = far at inner ⊢
      cases inner with
      | none => exact .none
      | @some r r' index fault draft enclosing =>
        obtain ⟨e, same⟩ := h.addCapture ⟨false, r.index⟩
        simp only [index, fault]
        exact .some (congrArg (·.1) same) (congrArg (fun p => r.fault.or p.2) same) e
          (.cons draft enclosing)

/-- States that are the same but for handles. -/
structure State.Renamed (b : Bridge) (s t : State) : Prop where
  rest : t.rest = s.rest
  current : t.current = s.current
  previous : t.previous = s.previous
  panicking : t.panicking = s.panicking
  errors : t.errors = s.errors
  summaries : t.summaries = s.summaries
  near : s.heap = b.near
  far : t.heap = b.far
  draft : s.draft.Renamed b t.draft
  enclosing : List.Forall₂ (Draft.Renamed b) s.enclosing t.enclosing
  renames : b.Renames

namespace State.Renamed

variable {s t : State}

theorem redraft (h : s.Renamed b t) {d d' : Draft} (hd : d.Renamed b d') :
    State.Renamed b { s with draft := d } { t with draft := d' } :=
  ⟨h.rest, h.current, h.previous, h.panicking, h.errors, h.summaries, h.near, h.far, hd,
    h.enclosing, h.renames⟩

/-- Both heaps are replaced by later ones. -/
theorem rebridge (h : s.Renamed b t) (hb : b.Below b') (renames : b'.Renames) :
    State.Renamed b' { s with heap := b'.near } { t with heap := b'.far } :=
  ⟨h.rest, h.current, h.previous, h.panicking, h.errors, h.summaries, rfl, rfl, h.draft.mono hb,
    h.enclosing.imp fun _ _ hd => hd.mono hb, renames⟩

theorem reportAt (h : s.Renamed b t) (token : Token) (fault : Fault) :
    (s.reportAt token fault).Renamed b (t.reportAt token fault) := by
  unfold State.reportAt
  rw [h.panicking]
  split
  · exact h
  · exact ⟨h.rest, h.current, h.previous, rfl, by simp only [h.errors], h.summaries, h.near, h.far,
      h.draft, h.enclosing, h.renames⟩

theorem take (h : s.Renamed b t) {tokens tokens' : List Token} (e : tokens' = tokens) :
    (s.take tokens).Renamed b (t.take tokens') := by
  subst e
  induction tokens' generalizing s t with
  | nil => exact ⟨rfl, h.current, h.previous, h.panicking, h.errors, h.summaries, h.near, h.far,
      h.draft, h.enclosing, h.renames⟩
  | cons token tokens ih =>
    unfold State.take
    split
    · exact ih (h.reportAt _ _)
    · exact ⟨rfl, rfl, h.previous, h.panicking, h.errors, h.summaries, h.near, h.far, h.draft,
        h.enclosing, h.renames⟩

theorem advance (h : s.Renamed b t) : s.advance.Renamed b t.advance := by
  have moved : State.Renamed b { s with previous := s.current } { t with previous := t.current } :=
    ⟨h.rest, h.current, h.current, h.panicking, h.errors, h.summaries, h.near, h.far, h.draft,
      h.enclosing, h.renames⟩
  exact moved.take h.rest

theorem skip {n n' : Nat} (e : n' = n) (h : s.Renamed b t) :
    (State.skip n s).Renamed b (State.skip n' t) := by
  subst e
  induction n' generalizing s t with
  | zero => exact h
  | succ n ih =>
    unfold State.skip
    rw [h.current, h.previous]
    split
    · exact h
    · exact ih h.advance

theorem recover (h : s.Renamed b t) : s.recover.Renamed b t.recover := by
  have calm : State.Renamed b { s with panicking := false } { t with panicking := false } :=
    ⟨h.rest, h.current, h.previous, rfl, h.errors, h.summaries, h.near, h.far, h.draft, h.enclosing,
      h.renames⟩
  exact calm.skip (by rw [h.rest])

theorem emit (h : s.Renamed b t) (i : Instruction) : (s.emit i).Renamed b (t.emit i) :=
  h.redraft (h.draft.withChunk (h.draft.chunk.emit i (by rw [h.previous])))

theorem dropLocals (h : s.Renamed b t) {ls ls' : List Local} (e : ls' = ls) :
    (s.dropLocals ls).Renamed b (t.dropLocals ls') := by
  subst e
  induction ls' generalizing s t with
  | nil => exact h.redraft (h.draft.withLocals rfl)
  | cons l ls ih =>
    unfold State.dropLocals
    rw [h.draft.depth]
    split
    · exact ih (h.emit _)
    · exact h.redraft (h.draft.withLocals rfl)

end State.Renamed

/-- Computations that lead from states that are the same but for handles to such states, as long as
there are handles. -/
def Concur {α β : Type} (b : Bridge) (P : Bridge → α → β → Prop) (x : Compiler α)
    (y : Compiler β) : Prop :=
  ∀ ⦃s t a a' s' t'⦄, s.Renamed b t → x s = some (a, s') → y t = some (a', t') →
    s'.heap.size ≤ UInt32.size → t'.heap.size ≤ UInt32.size →
    ∃ b', b.Below b' ∧ s'.Renamed b' t' ∧ P b' a a'

/-- The same result on both heaps. -/
abbrev Equal {α : Type} (_ : Bridge) (a a' : α) : Prop := a' = a

class Uniform {α : Type} (x : Compiler α) : Prop where
  keeps : Keeps x
  concur : ∀ b, Concur b Equal x x

section Rules

variable {α β γ δ : Type} {x : Compiler α} {y : Compiler β} {f : α → Compiler γ}
  {g : β → Compiler δ}

namespace Concur

theorem pure {P : Bridge → α → β → Prop} {a : α} {a' : β} (h : P b a a') :
    Concur b P (pure a) (pure a') := by
  intro s t _ _ _ _ hs hx hy _ _
  cases hx
  cases hy
  exact ⟨b, .refl b, hs, h⟩

theorem room [Keeps x] {s s' : State} {a : α} (h : x s = some (a, s'))
    (fits : s'.heap.size ≤ UInt32.size) : s.heap.size ≤ UInt32.size :=
  Nat.le_trans (Keeps.later h).heap.extends.size_le fits

theorem bind {P : Bridge → α → β → Prop} {Q : Bridge → γ → δ → Prop}
    (kf : ∀ a, Keeps (f a)) (kg : ∀ a, Keeps (g a)) (hx : Concur b P x y)
    (hf : ∀ b' a a', b.Below b' → P b' a a' → Concur b' Q (f a) (g a')) :
    Concur b Q (x >>= f) (y >>= g) := by
  intro s t c c' s' t' hs near far fits fits'
  obtain ⟨a, s₁, hx₁, hf₁⟩ := bind_eq_some.1 near
  obtain ⟨a', t₁, hy₁, hg₁⟩ := bind_eq_some.1 far
  obtain ⟨b₁, below, hs₁, p⟩ := hx hs hx₁ hy₁ (room hf₁ fits) (room hg₁ fits')
  obtain ⟨b₂, below', hs₂, q⟩ := hf b₁ a a' below p hs₁ hf₁ hg₁ fits fits'
  exact ⟨b₂, below.trans below', hs₂, q⟩

theorem get {Q : Bridge → γ → δ → Prop} {f : State → Compiler γ} {g : State → Compiler δ}
    (h : ∀ s t, s.Renamed b t → Concur b Q (f s) (g t)) :
    Concur b Q (get >>= f) (get >>= g) :=
  fun s t _ _ _ _ hs near far => h s t hs hs near far

theorem modify {P : Bridge → Unit → Unit → Prop} {f g : State → State}
    (h : ∀ s t, s.Renamed b t → (f s).Renamed b (g t)) (p : P b () ()) :
    Concur b P (modify f) (modify g) := by
  intro s t _ _ _ _ hs near far _ _
  cases near
  cases far
  exact ⟨b, .refl b, h s t hs, p⟩

theorem modifyGet {P : Bridge → α → β → Prop} {f : State → α × State} {g : State → β × State}
    (h : ∀ s t, s.Renamed b t → (f s).2.heap.size ≤ UInt32.size →
      (g t).2.heap.size ≤ UInt32.size →
      ∃ b', b.Below b' ∧ (f s).2.Renamed b' (g t).2 ∧ P b' (f s).1 (g t).1) :
    Concur b P (modifyGet f) (modifyGet g) := by
  intro s t a a' s' t' hs near far fits fits'
  obtain rfl : s' = (f s).2 := congrArg Prod.snd (Option.some.inj near).symm
  obtain rfl : a = (f s).1 := congrArg Prod.fst (Option.some.inj near).symm
  obtain rfl : t' = (g t).2 := congrArg Prod.snd (Option.some.inj far).symm
  obtain rfl : a' = (g t).1 := congrArg Prod.fst (Option.some.inj far).symm
  exact h s t hs fits fits'

end Concur

namespace Uniform

instance (a : α) : Uniform (Pure.pure a : Compiler α) := ⟨inferInstance, fun _ => .pure rfl⟩

instance : Uniform (outOfFuel : Compiler α) :=
  ⟨inferInstance, fun _ _ _ _ _ _ _ _ h => by cases h⟩

instance bind [hx : Uniform x] [hf : ∀ a, Uniform (f a)] : Uniform (x >>= f) where
  keeps := hx.keeps.andThen fun a => (hf a).keeps
  concur b := .bind (fun a => (hf a).keeps) (fun a => (hf a).keeps) (hx.concur b) fun b' a _ _ e =>
    e ▸ (hf a).concur b'

instance {p : Prop} [Decidable p] {x y : Compiler α} [Uniform x] [Uniform y] :
    Uniform (if p then x else y) := by
  split <;> infer_instance

/-- For continuations that are split before instances are looked for. -/
theorem andThen (hx : Uniform x) (hf : ∀ a, Uniform (f a)) : Uniform (x >>= f) :=
  inferInstance

theorem get {f : State → Compiler γ} (kf : ∀ s, Keeps (f s))
    (h : ∀ b s t, s.Renamed b t → Concur b Equal (f s) (f t)) : Uniform (get >>= f) :=
  ⟨.andThen inferInstance kf, fun b => .get (h b)⟩

theorem modify {f : State → State} (keeps : Keeps (modify f))
    (h : ∀ b s t, s.Renamed b t → (f s).Renamed b (f t)) : Uniform (modify f) :=
  ⟨keeps, fun b => .modify (h b) rfl⟩

end Uniform
end Rules

section Reading

instance : Uniform advance :=
  .modify (inferInstanceAs (Keeps advance)) fun _ _ _ h => h.advance

instance (fault : Fault) : Uniform (report fault) :=
  .modify (inferInstanceAs (Keeps (report fault))) fun _ s _ h => by
    rw [h.previous]
    exact h.reportAt s.previous fault

instance (fault : Fault) : Uniform (reportCurrent fault) :=
  .modify (inferInstanceAs (Keeps (reportCurrent fault))) fun _ s _ h => by
    rw [h.current]
    exact h.reportAt s.current fault

instance (k : TokenKind) : Uniform (check k) :=
  .get inferInstance fun b s t h => by
    rw [h.current]
    exact Uniform.concur b

instance (k : TokenKind) : Uniform (accept k) := by unfold accept; infer_instance

instance (k : TokenKind) (what : Expectation) : Uniform (consume k what) := by
  unfold consume; infer_instance

instance : Uniform (modify State.recover : Compiler Unit) :=
  .modify inferInstance fun _ _ _ h => h.recover

end Reading

section Emitting

instance (i : Instruction) : Uniform (emit i) :=
  .modify (inferInstanceAs (Keeps (emit i))) fun _ _ _ h => h.emit i

instance (is : List Instruction) : Uniform (emitAll is) := by
  induction is with
  | nil => unfold emitAll; infer_instance
  | cons i is ih => unfold emitAll; infer_instance

instance : Uniform emitReturn := by unfold emitReturn; infer_instance

instance : Uniform here :=
  .get inferInstance fun b s t h => by
    rw [h.draft.chunk.code]
    exact Uniform.concur b

instance (jump : UInt16 → Instruction) : Uniform (emitJump jump) := by
  unfold emitJump; infer_instance

instance (offset : Nat) : Uniform (landJump offset) := by
  have keeps (n : Nat) : Keeps (modify fun s : State => { s with
      draft := { s.draft with chunk := s.draft.chunk.setDistance offset n.toUInt16 } }) :=
    .modify fun _ => ⟨id, id, .refl _, id⟩
  have (n : Nat) : Uniform (modify fun s : State => { s with
      draft := { s.draft with chunk := s.draft.chunk.setDistance offset n.toUInt16 } }) :=
    .modify inferInstance fun _ _ _ h =>
      h.redraft (h.draft.withChunk (h.draft.chunk.setDistance offset _))
  unfold landJump; infer_instance

instance (start : Nat) : Uniform (emitBackJump start) := by unfold emitBackJump; infer_instance

theorem concur_intern (text : String) :
    Concur b (fun b' r q => b'.near.string? r = some text ∧ b'.far.string? q = some text)
      (intern text) (intern text) :=
  .modifyGet fun s t h room room' => by
    simp only [h.near, h.far] at room room' ⊢
    obtain ⟨below, renames, near, far⟩ := h.renames.intern text room room'
    exact ⟨_, below, h.rebridge below renames, near, far⟩

theorem concur_addConstant {v w : Value} (hv : b.Values v w) :
    Concur b Equal (addConstant v) (addConstant w) :=
  .get fun s t h => by
    have added := h.draft.chunk.addConstant? h.renames.toFaithful hv
    generalize s.draft.chunk.addConstant? v = near at added ⊢
    generalize t.draft.chunk.addConstant? w = far at added ⊢
    have keeps (chunk : Chunk) :
        Keeps (modify fun s : State => { s with draft := { s.draft with chunk } }) :=
      .modify fun _ => ⟨id, id, .refl _, id⟩
    cases added with
    | none => exact Uniform.concur b
    | some k hc =>
      refine .bind inferInstance inferInstance (P := fun _ _ _ => True)
        (.modify (fun s t h => h.redraft (h.draft.withChunk hc)) trivial)
        fun _ _ _ _ _ => .pure rfl

theorem concur_emitConstant {v w : Value} (hv : b.Values v w) :
    Concur b Equal (emitConstant v) (emitConstant w) :=
  .bind inferInstance inferInstance (concur_addConstant hv) fun b' _ _ _ e =>
    e ▸ Uniform.concur b'

instance (x : Float) : Uniform (emitConstant (.number x)) :=
  ⟨inferInstance, fun _ => concur_emitConstant (.number x)⟩

instance (name : String) : Uniform (nameConstant name) where
  keeps := inferInstance
  concur _ := .bind inferInstance inferInstance (concur_intern name) fun _ _ _ _ h =>
    concur_addConstant (Bridge.values_of_text h)

end Emitting

section Declaring

instance : Uniform depth :=
  .get inferInstance fun b s t h => by
    rw [h.draft.depth]
    exact Uniform.concur b

instance (name : String) : Uniform (addLocal name) := by
  have keeps : Keeps (modify fun s : State => { s with
      draft := { s.draft with locals := ⟨name, none, false⟩ :: s.draft.locals } }) :=
    .modify fun _ => ⟨id, id, .refl _, id⟩
  have : Uniform (modify fun s : State => { s with
      draft := { s.draft with locals := ⟨name, none, false⟩ :: s.draft.locals } }) :=
    .modify inferInstance fun _ _ _ h => h.redraft (h.draft.withLocals (by rw [h.draft.locals]))
  exact .get inferInstance fun b s t h => by
    rw [h.draft.locals]
    exact Uniform.concur b

instance : Uniform declareVariable := by
  unfold declareVariable
  refine .andThen inferInstance fun d => ?_
  split
  · refine .get inferInstance fun b s t h => ?_
    have declares (name : String) : t.draft.declares name = s.draft.declares name := by
      rw [Draft.declares, Draft.declares, h.draft.locals, h.draft.depth]
    simp only [declares, h.previous]
    exact Uniform.concur b
  · infer_instance

instance (what : Expectation) : Uniform (newVariable what) := by
  unfold newVariable
  refine .andThen inferInstance fun _ => .andThen inferInstance fun _ =>
    .andThen inferInstance fun d => ?_
  split
  · infer_instance
  · exact .get inferInstance fun b s t h => by
      rw [h.previous]
      exact Uniform.concur b

instance : Uniform makeReadable := by
  have keeps : Keeps (modify fun s : State => { s with draft := s.draft.makeReadable }) :=
    .modify fun _ => ⟨id, id, .refl _, id⟩
  have : Uniform (modify fun s : State => { s with draft := s.draft.makeReadable }) :=
    .modify inferInstance fun _ _ _ h => h.redraft h.draft.makeReadable
  unfold makeReadable; infer_instance

instance (global : UInt8) : Uniform (defineVariable global) := by
  unfold defineVariable; infer_instance

instance (fault : Option Fault) : Uniform (reportFault fault) := by
  unfold reportFault
  split <;> infer_instance

instance (name : String) : Uniform (resolve name) where
  keeps := inferInstance
  concur b := .get fun s t h => by
    have up := resolveUpvalue_renamed name h.enclosing h.draft
    rw [h.draft.findLocal?]
    cases s.draft.findLocal? name with
    | some found => exact Uniform.concur b
    | none =>
      generalize resolveUpvalue name s.draft s.enclosing = near at up ⊢
      generalize resolveUpvalue name t.draft t.enclosing = far at up ⊢
      cases up with
      | none => exact Uniform.concur b
      | @some r r' index fault draft enclosing =>
        have keeps (r : Resolution) : Keeps (modify fun s : State =>
            { s with draft := r.draft, enclosing := r.enclosing }) :=
          .modify fun _ => ⟨id, id, .refl _, id⟩
        have moved (s t : State) (h : s.Renamed b t) : State.Renamed b
            { s with draft := r.draft, enclosing := r.enclosing }
            { t with draft := r'.draft, enclosing := r'.enclosing } :=
          ⟨h.rest, h.current, h.previous, h.panicking, h.errors, h.summaries, h.near, h.far, draft,
            enclosing, h.renames⟩
        refine .bind inferInstance inferInstance (.modify (P := Equal) moved rfl)
          fun b' _ _ _ _ => ?_
        rw [index, fault]
        exact Uniform.concur b'

end Declaring

section Scopes

instance : Uniform openScope :=
  .modify (inferInstanceAs (Keeps openScope)) fun _ _ _ h =>
    h.redraft (h.draft.withDepth (by rw [h.draft.depth]))

instance : Uniform closeScope :=
  .modify (inferInstanceAs (Keeps closeScope)) fun _ _ _ h =>
    (h.redraft (h.draft.withDepth (congrArg (· - 1) h.draft.depth))).dropLocals h.draft.locals

end Scopes

section Functions

theorem concur_beginFunction {name : String} {r q : Ref}
    (h : b.near.string? r = some name ∧ b.far.string? q = some name) :
    Concur b Equal (beginFunction r) (beginFunction q) :=
  .modify (fun _ _ hs => ⟨hs.rest, hs.current, hs.previous, hs.panicking, hs.errors, hs.summaries,
    hs.near, hs.far, ⟨rfl, .some h.1 h.2, rfl, ⟨rfl, rfl, .nil⟩, rfl, rfl, rfl⟩,
    .cons hs.draft hs.enclosing, hs.renames⟩) rfl

theorem summary_renamed {f g : Function} (h : f.Renamed b g) :
    Summary.of b.far g = Summary.of b.near f := by
  have name : (g.name.bind b.far.string?).getD "<script>" =
      (f.name.bind b.near.string?).getD "<script>" := by
    have names := h.name
    generalize f.name = r at names ⊢
    generalize g.name = q at names ⊢
    cases names with
    | none => rfl
    | some hr hq => rw [Option.bind_some, Option.bind_some, hr, hq]
  have constants : g.chunk.constants.size = f.chunk.constants.size := by
    simpa using h.chunk.constants.length_eq.symm
  simp only [Summary.of, name, h.chunk.code, constants, h.upvalues]

/-- A function ends in both compilers, and the enclosing one goes on. -/
theorem State.Renamed.leave {s t : State} (h : s.Renamed b t) :
    State.Renamed b
      { s with
        draft := s.enclosing.headD (.new .script none)
        enclosing := s.enclosing.tail
        summaries := s.summaries.push (.of s.heap s.draft.finish) }
      { t with
        draft := t.enclosing.headD (.new .script none)
        enclosing := t.enclosing.tail
        summaries := t.summaries.push (.of t.heap t.draft.finish) } := by
  have summaries : t.summaries.push (.of t.heap t.draft.finish) =
      s.summaries.push (.of s.heap s.draft.finish) := by
    rw [h.summaries, h.near, h.far, summary_renamed h.draft.finish]
  obtain ⟨draft, enclosing⟩ : (s.enclosing.headD (.new .script none)).Renamed b
        (t.enclosing.headD (.new .script none)) ∧
      List.Forall₂ (Draft.Renamed b) s.enclosing.tail t.enclosing.tail := by
    have enclosing := h.enclosing
    generalize s.enclosing = ds at enclosing ⊢
    generalize t.enclosing = ds' at enclosing ⊢
    cases enclosing with
    | nil => exact ⟨⟨rfl, .none, rfl, ⟨rfl, rfl, .nil⟩, rfl, rfl, rfl⟩, .nil⟩
    | cons h hs => exact ⟨h, hs⟩
  exact ⟨h.rest, h.current, h.previous, h.panicking, h.errors, summaries, h.near, h.far, draft,
    enclosing, h.renames⟩

theorem concur_endFunction : Concur b (fun b' p p' => p.1.Renamed b' p'.1 ∧ p'.2 = p.2) endFunction
    endFunction := by
  rw [endFunction_eq]
  have keeps : Keeps (modifyGet fun s : State => ((s.draft.finish, s.draft.captures),
      { s with
        draft := s.enclosing.headD (.new .script none)
        enclosing := s.enclosing.tail
        summaries := s.summaries.push (.of s.heap s.draft.finish) })) :=
    .modifyGet fun s => ⟨id, id, .refl _, id⟩
  exact .bind inferInstance inferInstance (Uniform.concur b) fun b' _ _ _ _ =>
    .modifyGet fun s t h _ _ => ⟨b', .refl b', h.leave, h.draft.finish, h.draft.captures⟩

theorem concur_allocate {f g : Function} (h : f.Renamed b g) :
    Concur b (fun b' r q => b'.pairs r q) (allocate (.function f)) (allocate (.function g)) :=
  .modifyGet fun s t hs room room' => by
    simp only [hs.near, hs.far] at room room' ⊢
    obtain ⟨below, renames⟩ := hs.renames.allocate h room room'
    exact ⟨_, below, hs.rebridge below renames, .inr ⟨rfl, rfl⟩⟩

end Functions

end Compile
end StackScript
