import StackScript.Proofs.Compile.Echo

/-!
# StackScript.Proofs.Compile.Lockstep

The steps that productions are made of, taken by two compilers that are in front of the same token.

* `Rel`: two computations that lead to states in front of the same token again. Some do so only if
  the near run does not come to the end of its source: there the far run has more to read.
* `Guards`: computations that need another token. What is in front of them has not come to the end.
* `Rel.bind`, `Rel.andThen`: sequences. One rule for each step.
-/

namespace StackScript
namespace Compile

open Instruction

/-- Runs without errors of two computations, on heaps that handles are enough for. -/
structure Ran {α β : Type} (x : Compiler α) (y : Compiler β) (s t : State) (a : α) (b : β)
    (s' t' : State) : Prop where
  near : Runs x s a s'
  far : Runs y t b t'
  room : s'.heap.size ≤ UInt32.size
  room' : t'.heap.size ≤ UInt32.size

def Rel {α β : Type} (c : Seam) (inside : Bool) (w : World) (P : World → α → β → Prop)
    (x : Compiler α) (y : Compiler β) : Prop :=
  ∀ ⦃s t a b s' t'⦄, Echo c w s t → Ran x y s t a b s' t' → (inside = true → ¬s'.AtEnd) →
    ∃ w', Echo c w' s' t' ∧ P w' a b

/-- A computation that never ends without an error. -/
def Fails {α : Type} (x : Compiler α) : Prop := ∀ ⦃s a s'⦄, s.Sound → ¬Runs x s a s'

class Guards {α : Type} (x : Compiler α) : Prop where
  more : ∀ {s a s'}, s.Sound → Runs x s a s' → ¬s.AtEnd

/-- There are tokens in front of a computation if there are some behind it, or if it needs one. -/
class Links {α : Type} (inside : Bool) (x : Compiler α) : Prop where
  more : ∀ {s a s'}, s.Sound → Runs x s a s' → (inside = true → ¬s'.AtEnd) → ¬s.AtEnd

section Ends

variable {α β : Type} {inside : Bool}

theorem Links.ofKeeps {x : Compiler α} (keeps : Keeps x) : Links true x where
  more _ h more e := more rfl ((Keeps.later h.1).ended e)

instance (x : Compiler α) [Keeps x] : Links true x := .ofKeeps inferInstance

instance (x : Compiler α) [Guards x] : Links inside x where
  more hs h _ := Guards.more hs h

instance (x : Compiler α) (f : α → Compiler β) [Keeps x] [∀ a, Guards (f a)] :
    Guards (x >>= f) where
  more hs h e := by
    obtain ⟨a, s₁, hx, hf⟩ := bind_eq_some.1 h.1
    have later := Keeps.later hx
    exact Guards.more (later.sound hs) ⟨hf, h.2⟩ (later.ended e)

instance (x : Compiler α) (f : α → Compiler β) [Guards x] [∀ a, Keeps (f a)] :
    Guards (x >>= f) where
  more hs h := by
    obtain ⟨a, s₁, hx, hf⟩ := runs_bind h
    exact Guards.more hs hx

instance {p : Prop} [Decidable p] (x y : Compiler α) [Guards x] [Guards y] :
    Guards (if p then x else y) := by
  split <;> infer_instance

theorem guards_consume {k : TokenKind} (hk : k ≠ .eof) (what : Expectation) :
    Guards (consume k what) where
  more hs h e := hk ((runs_consume_cases h hs).1.symm.trans e.2)

instance (p : Punctuation) (what : Expectation) : Guards (consume (.punctuation p) what) :=
  guards_consume (by simp) what

instance (what : Expectation) : Guards (consume .identifier what) := guards_consume (by simp) what

instance (what : Expectation) : Guards (newVariable what) := by
  unfold newVariable
  infer_instance

theorem accept_of_ne {k : TokenKind} {s : State} (h : s.current.kind ≠ k) :
    accept k s = some (false, s) := by
  show (if (s.current.kind == k) = true then _ else pure false : Compiler Bool) s = _
  rw [if_neg (by simpa using h)]
  rfl

/-- At the end a token is not there. -/
theorem guards_ifAccept {k : TokenKind} (hk : k ≠ .eof) (x y : Compiler α) [Guards y] :
    Guards (accept k >>= fun b => if b = true then x else y) where
  more hs h e := by
    obtain ⟨b, s₁, h₁, h₂⟩ := bind_eq_some.1 h.1
    cases (accept_of_ne (e.2 ▸ hk.symm)).symm.trans h₁
    exact Guards.more (x := y) hs ⟨h₂, h.2⟩ e

instance (p : Punctuation) (x y : Compiler α) [Guards y] :
    Guards (accept (.punctuation p) >>= fun b => if b = true then x else y) :=
  guards_ifAccept (by simp) x y

instance (p : Keyword) (x y : Compiler α) [Guards y] :
    Guards (accept (.keyword p) >>= fun b => if b = true then x else y) :=
  guards_ifAccept (by simp) x y

theorem fails_report (fault : Fault) : Fails (report fault) := fun _ _ _ hs => not_runs_report hs

theorem Fails.bind {x : Compiler α} {f : α → Compiler β} [∀ a, Keeps (f a)] (hx : Fails x) :
    Fails (x >>= f) := fun _ _ _ hs h =>
  have ⟨_, _, h, _⟩ := runs_bind h
  hx hs h

end Ends

section Rules

variable {α β γ δ : Type} {c : Seam} {inside : Bool} {w : World} {x : Compiler α} {y : Compiler β}
  {f : α → Compiler γ} {g : β → Compiler δ}

namespace Rel

theorem weaken {P Q : World → α → β → Prop} (h : Rel c inside w P x y)
    (hP : ∀ w' a b, P w' a b → Q w' a b) : Rel c inside w Q x y := fun _ _ _ _ _ _ e ran more =>
  have ⟨w', e', p⟩ := h e ran more
  ⟨w', e', hP w' _ _ p⟩

/-- What holds without knowing what follows holds all the more. -/
theorem within {P : World → α → β → Prop} (h : Rel c false w P x y) : Rel c inside w P x y :=
  fun _ _ _ _ _ _ e ran _ => h e ran (fun h => by cases h)

theorem pure {P : World → α → β → Prop} {a : α} {b : β} (h : P w a b) :
    Rel c inside w P (pure a) (pure b) := by
  intro s t a' b' s' t' e ran _
  obtain ⟨rfl, rfl, -⟩ := runs_pure.1 ran.near
  obtain ⟨rfl, rfl, -⟩ := runs_pure.1 ran.far
  exact ⟨w, e, h⟩

/-- Where something follows, the next token can be looked at. -/
theorem ahead {P : World → γ → δ → Prop} {f : State → Compiler γ} {g : State → Compiler δ}
    (kf : ∀ s, Keeps (f s))
    (h : ∀ s t, Echo c w s t → ¬s.AtEnd → Rel c true w P (f s) (g t)) :
    Rel c true w P (get >>= f) (get >>= g) := fun s t _ _ _ _ e ran more =>
  have near : Runs (f s) s _ _ := ran.near
  have further : ¬s.AtEnd := fun h => more rfl (((kf s).later near.1).ended h)
  h s t e further e ⟨near, ran.far, ran.room, ran.room'⟩ more

theorem get {P : World → γ → δ → Prop} {f : State → Compiler γ} {g : State → Compiler δ}
    (h : ∀ s t, Echo c w s t → Rel c inside w P (f s) (g t)) :
    Rel c inside w P (get >>= f) (get >>= g) := fun s t _ _ _ _ e ran more =>
  h s t e e ⟨ran.near, ran.far, ran.room, ran.room'⟩ more

theorem modify {P : World → Unit → Unit → Prop} {f g : State → State}
    (h : ∀ s t, Echo c w s t → ∃ w', Echo c w' (f s) (g t) ∧ P w' () ()) :
    Rel c inside w P (modify f) (modify g) := by
  intro s t _ _ s' t' e ran _
  obtain ⟨rfl, -⟩ := runs_modify.1 ran.near
  obtain ⟨rfl, -⟩ := runs_modify.1 ran.far
  exact h s t e

theorem modifyGet {P : World → α → β → Prop} {f : State → α × State} {g : State → β × State}
    (h : ∀ s t, Echo c w s t → (f s).2.heap.size ≤ UInt32.size → (g t).2.heap.size ≤ UInt32.size →
      ∃ w', Echo c w' (f s).2 (g t).2 ∧ P w' (f s).1 (g t).1) :
    Rel c inside w P (modifyGet f) (modifyGet g) := by
  intro s t a b s' t' e ran _
  obtain ⟨hf, -⟩ := runs_modifyGet.1 ran.near
  obtain ⟨hg, -⟩ := runs_modifyGet.1 ran.far
  have := h s t e (by rw [hf]; exact ran.room) (by rw [hg]; exact ran.room')
  rwa [hf, hg] at this

theorem ofNear {P : World → α → β → Prop} (h : Fails x) : Rel c inside w P x y :=
  fun _ _ _ _ _ _ e ran _ => absurd ran.near (h e.steady.sound)

theorem ofFar {P : World → α → β → Prop} (h : Fails y) : Rel c inside w P x y :=
  fun _ _ _ _ _ _ e ran _ => absurd ran.far (h e.steady'.sound)

theorem room {s s' : State} [Keeps x] {a : α} (h : x s = some (a, s'))
    (fits : s'.heap.size ≤ UInt32.size) : s.heap.size ≤ UInt32.size :=
  Nat.le_trans (Keeps.later h).heap.extends.size_le fits

variable {Q : World → α → β → Prop} {P : World → γ → δ → Prop}

/-- A sequence whose second part needs another token. For continuations that are split before
instances are looked for. -/
theorem bindWith [Keeps x] (kf : ∀ a, Keeps (f a)) (kg : ∀ b, Keeps (g b))
    (links : ∀ a, Links inside (f a)) (hx : Rel c true w Q x y)
    (hf : ∀ w' a b, Q w' a b → Rel c inside w' P (f a) (g b)) :
    Rel c inside w P (x >>= f) (y >>= g) := by
  intro s t b b' s' t' e ran more
  obtain ⟨a, s₁, hx₁, hf₁⟩ := runs_bind ran.near
  obtain ⟨a', t₁, hy₁, hg₁⟩ := runs_bind ran.far
  have sound := (Keeps.later hx₁.1).sound e.steady.sound
  obtain ⟨w₁, e₁, q⟩ := hx e ⟨hx₁, hy₁, room hf₁.1 ran.room, room hg₁.1 ran.room'⟩
    fun _ => Links.more sound hf₁ more
  exact hf w₁ a a' q e₁ ⟨hf₁, hg₁, ran.room, ran.room'⟩ more

/-- A sequence whose first part is related whatever follows. -/
theorem andThenWith (kf : ∀ a, Keeps (f a)) (kg : ∀ b, Keeps (g b)) (hx : Rel c false w Q x y)
    (hf : ∀ w' a b, Q w' a b → Rel c inside w' P (f a) (g b)) :
    Rel c inside w P (x >>= f) (y >>= g) := by
  intro s t b b' s' t' e ran more
  obtain ⟨a, s₁, hx₁, hf₁⟩ := runs_bind ran.near
  obtain ⟨a', t₁, hy₁, hg₁⟩ := runs_bind ran.far
  obtain ⟨w₁, e₁, q⟩ := hx e ⟨hx₁, hy₁, room hf₁.1 ran.room, room hg₁.1 ran.room'⟩
    (fun h => by cases h)
  exact hf w₁ a a' q e₁ ⟨hf₁, hg₁, ran.room, ran.room'⟩ more

variable [∀ a, Keeps (f a)] [∀ b, Keeps (g b)]

theorem andThen (hx : Rel c false w Q x y)
    (hf : ∀ w' a b, Q w' a b → Rel c inside w' P (f a) (g b)) :
    Rel c inside w P (x >>= f) (y >>= g) :=
  andThenWith inferInstance inferInstance hx hf

theorem bind [Keeps x] [∀ a, Links inside (f a)] (hx : Rel c true w Q x y)
    (hf : ∀ w' a b, Q w' a b → Rel c inside w' P (f a) (g b)) :
    Rel c inside w P (x >>= f) (y >>= g) :=
  bindWith inferInstance inferInstance inferInstance hx hf

end Rel
end Rules

section Reading

variable {α β : Type} {c : Seam} {inside : Bool} {w : World}

/-- The world has not changed. -/
abbrev Same (w : World) (w' : World) (a b : α) : Prop := w' = w ∧ a = b

/-- What was related still is. -/
abbrev Onward (w : World) (w' : World) (a b : α) : Prop := w.Below w' ∧ a = b

theorem Rel.onward {x y : Compiler α} (h : Rel c inside w (Same w) x y) :
    Rel c inside w (Onward w) x y :=
  h.weaken fun _ _ _ h => ⟨h.1 ▸ .refl w, h.2⟩

/-- What is related behind a step is related behind everything in front of it. -/
theorem Rel.since {x y : Compiler α} {w₁ : World} (hw : w.Below w₁)
    (h : Rel c inside w₁ (Onward w₁) x y) : Rel c inside w₁ (Onward w) x y :=
  h.weaken fun _ _ _ h => ⟨hw.trans h.1, h.2⟩

section Sequence

variable {x y : Compiler α} {f g : α → Compiler β} [∀ a, Keeps (f a)] [∀ a, Keeps (g a)]

theorem Rel.seq (hx : Rel c false w (Onward w) x y)
    (hf : ∀ w' a, w.Below w' → Rel c inside w' (Onward w') (f a) (g a)) :
    Rel c inside w (Onward w) (x >>= f) (y >>= g) :=
  .andThen hx fun w' a b h => by
    obtain ⟨hw, rfl⟩ := h
    exact (hf w' a hw).since hw

theorem Rel.seqIn [Keeps x] [∀ a, Links inside (f a)] (hx : Rel c true w (Onward w) x y)
    (hf : ∀ w' a, w.Below w' → Rel c inside w' (Onward w') (f a) (g a)) :
    Rel c inside w (Onward w) (x >>= f) (y >>= g) :=
  .bind hx fun w' a b h => by
    obtain ⟨hw, rfl⟩ := h
    exact (hf w' a hw).since hw

theorem Rel.stay (hx : Rel c false w (Same w) x y)
    (hf : ∀ a, Rel c inside w (Onward w) (f a) (g a)) :
    Rel c inside w (Onward w) (x >>= f) (y >>= g) :=
  .andThen hx fun w' a b h => by
    obtain ⟨rfl, rfl⟩ := h
    exact hf a

end Sequence

theorem rel_advance : Rel c true w (Same w) advance advance := by
  intro s t _ _ s' t' e ran more
  exact ⟨w, e.advance (fun h => more rfl ((Keeps.later ran.near.1).ended h)) ran.near ran.far,
    rfl, rfl⟩

theorem rel_check (k : TokenKind) : Rel c true w (Same w) (check k) (check k) := by
  intro s t _ _ s' t' e ran more
  obtain ⟨rfl, rfl⟩ := runs_check ran.near
  obtain ⟨rfl, rfl⟩ := runs_check ran.far
  exact ⟨w, e, rfl, by rw [(e.current (more rfl)).2.kind]⟩

theorem Echo.accept {s t s' t' : State} {k : TokenKind} {a b : Bool} (e : Echo c w s t)
    (more : ¬s.AtEnd) (hs : Runs (accept k) s a s') (ht : Runs (accept k) t b t') :
    a = b ∧ Echo c w s' t' := by
  have kind := (e.current more).2.kind
  obtain ⟨rfl, hk, hs⟩ | ⟨rfl, hk, rfl⟩ := runs_accept_cases hs <;>
    obtain ⟨rfl, hk', ht⟩ | ⟨rfl, hk', rfl⟩ := runs_accept_cases ht
  · exact ⟨rfl, e.advance more hs ht⟩
  · exact absurd (kind.trans hk) hk'
  · exact absurd (kind.symm.trans hk') hk
  · exact ⟨rfl, e⟩

theorem rel_accept (k : TokenKind) : Rel c true w (Same w) (accept k) (accept k) := by
  intro s t _ _ s' t' e ran more
  obtain ⟨same, e'⟩ :=
    e.accept (fun h => more rfl ((Keeps.later ran.near.1).ended h)) ran.near ran.far
  exact ⟨w, e', rfl, same⟩

theorem Rel.ifAccept {k : TokenKind} {P : World → α → β → Prop} {x y : Compiler α}
    {x' y' : Compiler β} [Keeps x] [Keeps y] [Keeps x'] [Keeps y'] [Links inside y]
    (hk : k ≠ .eof) (hx : Rel c inside w P x x') (hy : Rel c inside w P y y') :
    Rel c inside w P (accept k >>= fun b => if b = true then x else y)
      (accept k >>= fun b => if b = true then x' else y') := by
  intro s t a b s' t' e ran more
  obtain ⟨d, s₁, h₁, h₂⟩ := runs_bind ran.near
  obtain ⟨d', t₁, h₁', h₂'⟩ := runs_bind ran.far
  have further : ¬s.AtEnd := fun h => by
    cases (accept_of_ne (h.2 ▸ hk.symm)).symm.trans h₁.1
    exact Links.more (x := y) e.steady.sound h₂ more h
  obtain ⟨rfl, e₁⟩ := e.accept further h₁ h₁'
  cases d with
  | true => exact hx e₁ ⟨h₂, h₂', ran.room, ran.room'⟩ more
  | false => exact hy e₁ ⟨h₂, h₂', ran.room, ran.room'⟩ more

/-- What comes behind the source of the near run does not begin with `else`. -/
theorem rel_acceptElse :
    Rel c inside w (Same w) (accept (.keyword .else)) (accept (.keyword .else)) := by
  intro s t _ _ s' t' e ran _
  by_cases h : s.AtEnd
  · have other : t.current.kind ≠ .keyword .else :=
      c.other t.current (by rw [← e.ended h]; rfl)
    have none : s.current.kind ≠ .keyword .else := h.2 ▸ by simp
    cases (accept_of_ne none).symm.trans ran.near.1
    cases (accept_of_ne other).symm.trans ran.far.1
    exact ⟨w, e, rfl, rfl⟩
  · obtain ⟨same, e'⟩ := e.accept h ran.near ran.far
    exact ⟨w, e', rfl, same⟩

theorem rel_consume {k : TokenKind} (hk : k ≠ .eof) (what : Expectation) :
    Rel c inside w (Same w) (consume k what) (consume k what) := by
  intro s t _ _ s' t' e ran _
  obtain ⟨near, hs⟩ := runs_consume_cases ran.near e.steady.sound
  obtain ⟨-, ht⟩ := runs_consume_cases ran.far e.steady'.sound
  exact ⟨w, e.advance (fun h => hk (near.symm.trans h.2)) hs ht, rfl, rfl⟩

end Reading

section Emitting

variable {c : Seam} {inside : Bool} {w : World}

theorem Draft.Echo.withChunk {b : Bridge} {shift : Nat} {l l' : Level} {d d' : Draft}
    (h : d.Echo b shift l d') {chunk chunk' : Chunk} (e : chunk.Echo b shift l' chunk')
    (hl : l'.depth = l.depth) :
    Draft.Echo b shift l' { d with chunk } { d' with chunk := chunk' } :=
  ⟨h.kind, h.name, h.arity, h.locals, h.captures, h.depth.trans hl.symm, h.depth'.trans hl.symm, e⟩

theorem Echo.emit {s t : State} (e : Echo c w s t) {i j : Instruction}
    (h : Alike w.level.constants i j) : Echo c w (s.emit i) (t.emit j) := by
  have draft := e.drafts.uncons.1
  have chunk := draft.chunk.emit h s.previous.line
  rw [← e.previous.line] at chunk
  exact e.redraft (draft.withChunk chunk rfl)

theorem rel_emit {i j : Instruction} (h : Alike w.level.constants i j) :
    Rel c inside w (Same w) (emit i) (emit j) :=
  .modify fun _ _ e => ⟨w, e.emit h, rfl, rfl⟩

theorem rel_emitAll {is js : List Instruction} (h : List.Forall₂ (Alike w.level.constants) is js) :
    Rel c inside w (Same w) (emitAll is) (emitAll js) := by
  induction h with
  | nil => exact .pure ⟨rfl, rfl⟩
  | cons h _ ih =>
    refine .andThen (rel_emit h) fun w' _ _ e => ?_
    obtain ⟨rfl, -⟩ := e
    exact ih

/-- An instruction without a constant. -/
theorem rel_same {i : Instruction} (h : i.constant? = none) :
    Rel c inside w (Same w) (emit i) (emit i) :=
  rel_emit (.same h)

theorem rel_here : Rel c inside w (fun w' a b => w' = w ∧ b = w.level.lead.length + a) here here :=
  .get fun _ _ e => .pure ⟨rfl, e.drafts.uncons.1.chunk.size⟩

theorem rel_emitJump {jump : UInt16 → Instruction} (forward : IsForward jump) :
    Rel c inside w (fun w' a b => w' = w.withLevel (w.level.withJump a) ∧
      b = w.level.lead.length + a) (emitJump jump) (emitJump jump) := by
  intro s t a b s' t' e ran _
  obtain ⟨rfl, rfl⟩ := runs_emitJump_eq ran.near
  obtain ⟨rfl, rfl⟩ := runs_emitJump_eq ran.far
  have draft := e.drafts.uncons.1
  have chunk := draft.chunk.emitJump forward 0xFFFF s.previous.line
  rw [← e.previous.line] at chunk
  exact ⟨_, e.redraft (draft.withChunk chunk rfl), rfl, draft.chunk.size⟩

theorem rel_landJump {offset : Nat} (h : w.level.jumps offset) :
    Rel c inside w (Same w) (landJump offset) (landJump (w.level.lead.length + offset)) := by
  refine .get fun s t e => ?_
  have size := e.drafts.uncons.1.chunk.size
  have distance : t.draft.chunk.code.size - (w.level.lead.length + offset + 3) =
      s.draft.chunk.code.size - (offset + 3) := by omega
  simp only [distance]
  split
  · refine .modify fun s t e => ?_
    have draft := e.drafts.uncons.1
    exact ⟨w, e.redraft (draft.withChunk (draft.chunk.setDistance h _) rfl), rfl, rfl⟩
  · exact .ofNear (fails_report _)

theorem rel_emitBackJump (start : Nat) :
    Rel c inside w (Same w) (emitBackJump start) (emitBackJump (w.level.lead.length + start)) := by
  refine .get fun s t e => ?_
  have size := e.drafts.uncons.1.chunk.size
  have distance : t.draft.chunk.code.size + 3 - (w.level.lead.length + start) =
      s.draft.chunk.code.size + 3 - start := by omega
  simp only [distance]
  split
  · exact rel_same rfl
  · exact .ofNear (fails_report _)

end Emitting

section Naming

variable {c : Seam} {inside : Bool} {w : World}

/-- The string with a text, in both runs. -/
def World.Texts (w : World) (text : String) (r q : Ref) : Prop :=
  w.bridge.near.string? r = some text ∧ w.bridge.far.string? q = some text

theorem rel_intern (text : String) :
    Rel c inside w (fun w' r q => w.Below w' ∧ w'.Texts text r q) (intern text) (intern text) :=
  .modifyGet fun s t e room room' => by
    have near : w.bridge.near.Extends (s.heap.intern text).1 :=
      e.near ▸ s.heap.extends_intern text
    have far : w.bridge.far.Extends (t.heap.intern text).1 := e.far ▸ t.heap.extends_intern text
    obtain ⟨below, linked⟩ := e.linked.onward near far
    exact ⟨_, e.rebridge below linked, World.below_withBridge below,
      s.heap.string?_intern text room, t.heap.string?_intern text room'⟩

theorem rel_addConstant {v v' : Value} (values : w.bridge.Values v v')
    (plain : ∀ x, v = .number x → Numeral.Unsigned x) :
    Rel c inside w (fun w' k k' => w.Below w' ∧ w'.level.constants k k') (addConstant v)
      (addConstant v') := by
  intro s t k k' s' t' e ran _
  obtain ⟨chunk, hc, rfl⟩ := runs_addConstant_eq ran.near e.steady.sound
  obtain ⟨chunk', hc', rfl⟩ := runs_addConstant_eq ran.far e.steady'.sound
  have draft := e.drafts.uncons.1
  exact ⟨_, e.redraft (draft.withChunk (draft.chunk.addConstant values plain hc hc') rfl),
    World.below_withLevel (w.level.below_withConstant k k'), .inr ⟨rfl, rfl⟩⟩

theorem rel_emitConstant {v v' : Value} (values : w.bridge.Values v v')
    (plain : ∀ x, v = .number x → Numeral.Unsigned x) :
    Rel c inside w (Onward w) (emitConstant v) (emitConstant v') := by
  refine .andThen (rel_addConstant values plain) fun w' k k' h => ?_
  exact (rel_emit (.constant h.2)).weaken fun _ _ _ e => ⟨e.1 ▸ h.1, e.2⟩

theorem World.Texts.values {text : String} {r q : Ref} (h : w.Texts text r q) :
    w.bridge.Values (.object r) (.object q) :=
  .object (.string h.1 h.2)

theorem rel_nameConstant (name : String) :
    Rel c inside w (fun w' k k' => w.Below w' ∧ w'.level.constants k k') (nameConstant name)
      (nameConstant name) := by
  refine .andThen (rel_intern name) fun w₁ r q h => ?_
  exact (rel_addConstant h.2.values (fun _ e => by cases e)).weaken fun w' k k' h' =>
    ⟨h.1.trans h'.1, h'.2⟩

/-- Both functions take an upvalue from the same place. -/
theorem Draft.Echo.addCapture {b : Bridge} {shift : Nat} {l : Level} {d d' : Draft}
    (h : d.Echo b shift l d') (x : Capture) :
    (d.addCapture x).1.Echo b shift l (d'.addCapture x).1 ∧
      (d'.addCapture x).2 = (d.addCapture x).2 := by
  unfold Draft.addCapture
  rw [h.captures]
  split
  · exact ⟨h, rfl⟩
  · split
    · exact ⟨⟨h.kind, h.name, h.arity, h.locals, by simp only, h.depth, h.depth', h.chunk⟩, rfl⟩
    · exact ⟨h, rfl⟩

theorem Draft.Echo.captureLocal {b : Bridge} {shift : Nat} {l : Level} {d d' : Draft}
    (h : d.Echo b shift l d') (name : String) :
    (d.captureLocal name).Echo b shift l (d'.captureLocal name) :=
  ⟨h.kind, h.name, h.arity, congrArg (Draft.captureIn name) h.locals, h.captures, h.depth, h.depth', h.chunk⟩

/-- A variable of an enclosing function is found in both runs or in none. -/
inductive SameResolution (b : Bridge) (shift : Nat) (ls : List Level) :
    Option Resolution → Option Resolution → Prop where
  | none : SameResolution b shift ls none none
  | some {r r' : Resolution} : r'.index = r.index → r'.fault = r.fault →
      Nest b shift ls (r.draft :: r.enclosing) (r'.draft :: r'.enclosing) →
      SameResolution b shift ls (some r) (some r')

theorem Nest.resolveUpvalue {b : Bridge} {shift : Nat} {ls : List Level} {ds ds' : List Draft}
    (name : String) (hs : Nest b shift ls ds ds') :
    ∀ {l : Level} {d d' : Draft}, d.Echo b shift l d' →
      SameResolution b shift (l :: ls) (resolveUpvalue name d ds) (resolveUpvalue name d' ds') := by
  induction hs with
  | nil => exact fun _ => .none
  | @cons l₁ o o' ls ds ds' h₁ hs ih =>
    intro l d d' h
    have find : o'.findLocal? name = o.findLocal? name := by
      rw [Draft.findLocal?, Draft.findLocal?, h₁.locals]
    simp only [Compile.resolveUpvalue, find]
    cases o.findLocal? name with
    | some found =>
      obtain ⟨e, same⟩ := h.addCapture ⟨true, found.1.toUInt8⟩
      exact .some (congrArg (·.1) same) (congrArg (fun p => (readFault found.2).or p.2) same)
        (.cons e (.cons (h₁.captureLocal name) hs))
    | none =>
      have inner := ih h₁
      generalize Compile.resolveUpvalue name o ds = near at inner ⊢
      generalize Compile.resolveUpvalue name o' ds' = far at inner ⊢
      cases inner with
      | none => exact .none
      | @some r r' index fault nest =>
        obtain ⟨e, same⟩ := h.addCapture ⟨false, r.index⟩
        simp only [index, fault]
        exact .some (congrArg (·.1) same) (congrArg (fun p => r.fault.or p.2) same) (.cons e nest)

theorem rel_resolve (name : String) :
    Rel c inside w (fun w' p q => w.Below w' ∧ Alike w'.level.constants p.read q.read ∧
      Alike w'.level.constants p.assign q.assign) (resolve name) (resolve name) := by
  intro s t p q s' t' e ran more
  obtain ⟨draft, outer⟩ := e.drafts.uncons
  have find : t.draft.findLocal? name = s.draft.findLocal? name := by
    rw [Draft.findLocal?, Draft.findLocal?, draft.locals]
  have up := outer.resolveUpvalue name draft
  have near := runs_resolve_cases ran.near e.steady.sound
  have far := runs_resolve_cases ran.far e.steady'.sound
  rw [find] at far
  obtain ⟨slot, l, hf, -, rfl, rfl⟩ | ⟨hf, r, hr, -, rfl, rfl⟩ | ⟨hf, hr, k, hk, rfl⟩ := near
  · obtain ⟨slot', l', hf', -, rfl, rfl⟩ | ⟨hf', -⟩ | ⟨hf', -⟩ := far
    · cases hf.symm.trans hf'
      exact ⟨w, e, .refl w, .same rfl, .same rfl⟩
    · cases hf.symm.trans hf'
    · cases hf.symm.trans hf'
  · obtain ⟨slot', l', hf', -⟩ | ⟨-, r', hr', -, rfl, rfl⟩ | ⟨-, hr', -⟩ := far
    · cases hf.symm.trans hf'
    · rw [hr, hr'] at up
      cases up with
      | some index _ nest =>
        rw [index]
        exact ⟨w, e.redrafts nest, .refl w, .same rfl, .same rfl⟩
    · rw [hr, hr'] at up
      cases up
  · obtain ⟨slot', l', hf', -⟩ | ⟨-, r', hr', -⟩ | ⟨-, hr', k', hk', rfl⟩ := far
    · cases hf.symm.trans hf'
    · rw [hr, hr'] at up
      cases up
    · obtain ⟨w', e', below, constants⟩ :=
        rel_nameConstant name e ⟨hk, hk', ran.room, ran.room'⟩ more
      exact ⟨w', e', below, .getGlobal constants, .setGlobal constants⟩

end Naming

section Declaring

variable {c : Seam} {inside : Bool} {w : World}

theorem rel_depth : Rel c inside w (fun w' a b => w' = w ∧ a = w.level.depth ∧ a = b) depth depth :=
  .get fun s t e => by
    have draft := e.drafts.uncons.1
    exact .pure ⟨rfl, draft.depth, draft.depth.trans draft.depth'.symm⟩

theorem rel_addLocal (name : String) :
    Rel c inside w (Same w) (addLocal name) (addLocal name) := by
  refine .get fun s t e => ?_
  rw [e.drafts.uncons.1.locals]
  split
  · refine .modify fun s t e => ?_
    have draft := e.drafts.uncons.1
    refine ⟨w, e.redraft (l := w.level) ⟨draft.kind, draft.name, draft.arity, ?_, draft.captures,
      draft.depth, draft.depth', draft.chunk⟩, rfl, rfl⟩
    rw [draft.locals]
  · exact .ofNear (fails_report _)

theorem rel_declareVariable : Rel c inside w (Same w) declareVariable declareVariable := by
  refine .andThen rel_depth fun w' d d' h => ?_
  obtain ⟨rfl, -, rfl⟩ := h
  split
  · refine .get fun s t e => ?_
    have draft := e.drafts.uncons.1
    have declares (name : String) : t.draft.declares name = s.draft.declares name := by
      rw [Draft.declares, Draft.declares, draft.locals, draft.depth, draft.depth']
    simp only [declares, e.previous.lexeme]
    split
    · exact .ofNear (fails_report _).bind
    · exact rel_addLocal _
  · exact .pure ⟨rfl, rfl⟩

theorem rel_newVariable (what : Expectation) :
    Rel c inside w (fun w' k k' => w.Below w' ∧ (w'.level.depth = 0 → w'.level.constants k k'))
      (newVariable what) (newVariable what) := by
  refine .andThen (rel_consume (by simp) what) fun w₁ _ _ h => ?_
  obtain ⟨rfl, -⟩ := h
  refine .andThen rel_declareVariable fun w₁ _ _ h => ?_
  obtain ⟨rfl, -⟩ := h
  refine .andThen rel_depth fun w₁ d d' h => ?_
  obtain ⟨rfl, rfl, rfl⟩ := h
  split
  next deep => exact .pure ⟨.refl _, fun h => by omega⟩
  next =>
    refine .get fun s t e => ?_
    rw [e.previous.lexeme]
    exact (rel_nameConstant _).weaken fun _ _ _ h => ⟨h.1, fun _ => h.2⟩

theorem rel_makeReadable : Rel c inside w (Same w) makeReadable makeReadable := by
  have : Keeps (modify fun s : State => { s with draft := s.draft.makeReadable }) :=
    .modify fun _ => ⟨id, id, .refl _, id⟩
  refine .andThen rel_depth fun w' d d' h => ?_
  obtain ⟨rfl, -, rfl⟩ := h
  split
  · refine .modify fun s t e => ?_
    have draft := e.drafts.uncons.1
    refine ⟨w', e.redraft (l := w'.level) ?_, rfl, rfl⟩
    unfold Draft.makeReadable
    rw [draft.locals, draft.depth, draft.depth']
    split
    · exact draft
    · exact ⟨draft.kind, draft.name, draft.arity, rfl, draft.captures, rfl, rfl, draft.chunk⟩
  · exact .pure ⟨rfl, rfl⟩

theorem rel_defineVariable {k k' : UInt8} (h : w.level.depth = 0 → w.level.constants k k') :
    Rel c inside w (Same w) (defineVariable k) (defineVariable k') := by
  refine .andThen rel_depth fun w' d d' h => ?_
  obtain ⟨rfl, rfl, rfl⟩ := h
  split
  · exact rel_makeReadable
  next shallow => exact rel_emit (.defineGlobal (h (by omega)))

end Declaring

section Scopes

variable {c : Seam} {inside : Bool} {w : World}

theorem Draft.Echo.atDepth {b : Bridge} {shift : Nat} {l : Level} {d d' : Draft}
    (h : d.Echo b shift l d') (depth : Nat) :
    Draft.Echo b shift (l.atDepth depth) { d with depth } { d' with depth } :=
  ⟨h.kind, h.name, h.arity, h.locals, h.captures, rfl, rfl, h.chunk.atDepth depth⟩

theorem rel_openScope :
    Rel c inside w (fun w' _ _ => w' = w.withLevel (w.level.atDepth (w.level.depth + 1))) openScope
      openScope :=
  .modify fun s t e => by
    have draft := e.drafts.uncons.1
    rw [draft.depth, draft.depth']
    exact ⟨_, e.redraft (draft.atDepth _), rfl⟩

theorem Echo.dropLocals {s t : State} (e : Echo c w s t) (ls : List Local) :
    Echo c w (s.dropLocals ls) (t.dropLocals ls) := by
  have locals {s t : State} (e : Echo c w s t) (locals : List Local) :
      Echo c w { s with draft := { s.draft with locals } }
        { t with draft := { t.draft with locals } } := by
    have draft := e.drafts.uncons.1
    exact e.redraft (l := w.level) ⟨draft.kind, draft.name, draft.arity, rfl, draft.captures,
      draft.depth, draft.depth', draft.chunk⟩
  induction ls generalizing s t with
  | nil => exact locals e []
  | cons l ls ih =>
    have draft := e.drafts.uncons.1
    unfold State.dropLocals
    rw [draft.depth, draft.depth']
    split
    · exact ih (e.emit (.same (by split <;> rfl)))
    · exact locals e (l :: ls)

theorem rel_closeScope :
    Rel c inside w (fun w' _ _ => w' = w.withLevel (w.level.atDepth (w.level.depth - 1))) closeScope
      closeScope :=
  .modify fun s t e => by
    have draft := e.drafts.uncons.1
    have e' := (e.redraft (draft.atDepth (w.level.depth - 1))).dropLocals s.draft.locals
    dsimp only
    rw [draft.depth, draft.depth']
    exact ⟨_, by simpa only [draft.locals] using e', rfl⟩

end Scopes

section Functions

variable {c : Seam} {inside : Bool} {w : World}

theorem rel_beginFunction {name : String} {r q : Ref} (h : w.Texts name r q) :
    Rel c inside w (fun w' _ _ => w' = w.nested) (beginFunction r) (beginFunction q) :=
  .modify fun s t e => by
    have chunk : Chunk.empty.Echo w.bridge c.shift .new .empty :=
      ⟨⟨[], [], rfl, rfl, .nil, fun _ h => h.elim⟩, rfl, rfl, fun _ _ h => h.elim,
        fun _ h => by simp [Chunk.empty] at h, fun _ h => by simp [Chunk.empty] at h, .refl _⟩
    have draft : Draft.Echo w.bridge c.shift .new (.new .function (some r))
        (.new .function (some q)) :=
      ⟨rfl, .some h.1 h.2, rfl, rfl, rfl, rfl, rfl, chunk⟩
    exact ⟨_, e.redrafts (.cons draft e.drafts), rfl⟩

theorem rel_endFunction {l : Level} {ls : List Level} (lead : w.level.lead = [])
    (outer : w.outer = l :: ls) :
    Rel c inside w (fun w' p p' => w' = { w with level := l, outer := ls } ∧
      w.bridge.Functions c.shift 0 p.1.chunk.code.size p.1 p'.1 ∧ p'.2 = p.2) endFunction
      endFunction := by
  intro s t p p' s' t' e ran _
  obtain ⟨rfl, hs⟩ := runs_endFunction_eq ran.near
  obtain ⟨rfl, ht⟩ := runs_endFunction_eq ran.far
  have draft := ((e.emit (.same (i := .pushNil) rfl)).emit (.same (i := .ret) rfl)).drafts.uncons.1
  obtain ⟨inner, nest⟩ := e.drafts.uncons
  rw [outer] at nest
  obtain ⟨d, ds, d', ds', near, far, nest⟩ := nest.exists_cons
  rw [near] at hs
  rw [far] at ht
  rw [hs, ht]
  have finish := draft.finish
  rw [lead] at finish
  exact ⟨_, (e.redrafts nest).withSummaries _ _, rfl, finish, inner.captures⟩

theorem rel_allocate {f g : Function} (h : w.bridge.Functions c.shift 0 f.chunk.code.size f g) :
    Rel c inside w (fun w' r q => w.Below w' ∧ w'.bridge.pairs r q) (allocate (.function f))
      (allocate (.function g)) :=
  .modifyGet fun s t e room room' => by
    obtain ⟨below, linked⟩ := e.linked.allocate h (by rw [e.near]; exact room)
      (by rw [e.far]; exact room')
    rw [e.near, e.far] at below linked
    exact ⟨_, e.rebridge below linked, World.below_withBridge below, .inr ⟨rfl, rfl⟩⟩

end Functions
end Compile
end StackScript
