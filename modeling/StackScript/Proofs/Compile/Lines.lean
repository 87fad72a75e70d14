import StackScript.Proofs.Compile.Ending
import StackScript.Proofs.Compile.Marks
import StackScript.Proofs.Compile.Order

/-!
# StackScript.Proofs.Compile.Lines

The compiler tells the line of every instruction, and the name of every function.

* `Function.Lined`: the lines of a finished function, told by its instructions, and its name.
  `Heap.LinedSince`: the same for all functions on a heap that were not on an older one.
* `State.Lined s fs`: the same for the functions that are being compiled. `fs` tells where their
  jumps wait for a distance.
* `Mute`: a step that reads no token and emits nothing.
* `Lining fs x gs`: a computation leads from jumps that wait at `fs` to jumps that wait at `gs`.
* `Heap.Lined`, `compile_functions`: compiling puts such functions on the heap only.
-/

namespace StackScript

/-- A name is a string of the heap, as long as handles do not run out. -/
def Heap.Names (h : Heap) (name : Option Ref) : Prop :=
  h.size ≤ UInt32.size → ∀ r, name = some r → ∃ text, h.string? r = some text

theorem Heap.Names.extends {h h' : Heap} {name : Option Ref} (names : h.Names name)
    (e : h.Extends h') : h'.Names name := by
  intro hb r hr
  obtain ⟨text, found⟩ := names (Nat.le_trans e.size_le hb) r hr
  exact ⟨text, e.string? found⟩

structure Function.Lined (h : Heap) (f : Function) : Prop where
  marks : ∃ ms, f.chunk.Marked ms
  named : h.Names f.name

theorem Function.Lined.extends {h h' : Heap} {f : Function} (lined : f.Lined h)
    (e : h.Extends h') : f.Lined h' :=
  ⟨lined.marks, lined.named.extends e⟩

/-- All functions on a heap were on the old one, or tell their lines and their names. -/
def Heap.LinedSince (old h : Heap) : Prop := ∀ (i : Nat) (f : Function),
  h.objects[i]? = some (.function f) → old.objects[i]? = some (.function f) ∨ f.Lined h

theorem Heap.LinedSince.allocate {old h : Heap} {f : Function} (since : old.LinedSince h)
    (hf : f.Lined h) : old.LinedSince (h.allocate (.function f)).1 := by
  have more := h.extends_allocate (.function f)
  intro i g hg
  simp only [Heap.allocate, Array.getElem?_push] at hg
  split at hg
  next =>
    cases hg
    exact .inr (hf.extends more)
  next => exact (since i g hg).imp id fun h => h.extends more

/-- Data of another instruction. -/
abbrev Instruction.isCapture : Instruction → Bool
  | .capture _ => true
  | _ => false

namespace Compile

/-- The chunk of a function, with jumps at some offsets. No line is behind `line`. -/
structure Draft.Lined (h : Heap) (line : Nat) (jumps : List Nat) (d : Draft) : Prop where
  marks : ∃ ms, d.chunk.Marked ms ∧ (∀ m ∈ ms, m.line ≤ line) ∧
    ∀ o ∈ jumps, JumpAt (Mark.code ms) o
  named : h.Names d.name

/-- Lines do not decrease from token to token, and what was emitted is not behind the token that was
read last. -/
structure State.Lined (old : Heap) (s : State) (fs : List (List Nat)) : Prop where
  inOrder : (s.previous :: s.current :: s.rest).Pairwise fun t u => t.line ≤ u.line
  drafts : List.Forall₂ (Draft.Lined s.heap s.previous.line) fs (s.draft :: s.enclosing)
  functions : old.LinedSince s.heap

section Mute

/-- The same code and lines, for a function of the same name. -/
structure Draft.Mute (d d' : Draft) : Prop where
  code : d'.chunk.code = d.chunk.code
  lines : d'.chunk.lines = d.chunk.lines
  name : d'.name = d.name

theorem Draft.Mute.refl (d : Draft) : d.Mute d := ⟨rfl, rfl, rfl⟩

theorem Draft.Mute.trans {a b c : Draft} (h : a.Mute b) (h' : b.Mute c) : a.Mute c :=
  ⟨h'.code.trans h.code, h'.lines.trans h.lines, h'.name.trans h.name⟩

structure State.Mute (s s' : State) : Prop where
  rest : s'.rest = s.rest
  current : s'.current = s.current
  previous : s'.previous = s.previous
  heap : s.heap.Extends s'.heap
  functions : s.heap.Limits s'.heap
  drafts : List.Forall₂ Draft.Mute (s.draft :: s.enclosing) (s'.draft :: s'.enclosing)

namespace State.Mute

theorem refl (s : State) : s.Mute s :=
  ⟨rfl, rfl, rfl, .refl _, .refl _, forall₂_refl .refl _⟩

theorem trans {s s₁ s₂ : State} (h : s.Mute s₁) (h' : s₁.Mute s₂) : s.Mute s₂ :=
  ⟨h'.rest.trans h.rest, h'.current.trans h.current, h'.previous.trans h.previous,
    Within.trans h.heap h'.heap, h.functions.trans h'.functions,
    forall₂_trans .trans h.drafts h'.drafts⟩

/-- A change to the innermost function. -/
theorem draft {s : State} {d : Draft} (h : s.draft.Mute d) : s.Mute { s with draft := d } :=
  ⟨rfl, rfl, rfl, .refl _, .refl _, .cons h (forall₂_refl .refl _)⟩

end State.Mute

theorem State.mute_reportAt (s : State) (t : Token) (fault : Fault) :
    s.Mute (s.reportAt t fault) := by
  unfold State.reportAt
  split
  · exact .refl s
  · exact ⟨rfl, rfl, rfl, .refl _, .refl _, forall₂_refl .refl _⟩

theorem Draft.mute_addCapture (d : Draft) (c : Capture) : d.Mute (d.addCapture c).1 := by
  unfold Draft.addCapture
  split
  · exact .refl d
  · split
    · exact ⟨rfl, rfl, rfl⟩
    · exact .refl d

theorem Draft.mute_makeReadable (d : Draft) : d.Mute d.makeReadable := by
  unfold Draft.makeReadable
  split
  · exact .refl d
  · exact ⟨rfl, rfl, rfl⟩

theorem mute_resolveUpvalue {name : String} {ds : List Draft} :
    ∀ {d : Draft} {r : Resolution}, resolveUpvalue name d ds = some r →
      List.Forall₂ Draft.Mute (d :: ds) (r.draft :: r.enclosing) := by
  induction ds with
  | nil => exact fun h => by cases h
  | cons o ds ih =>
    intro d r h
    simp only [resolveUpvalue] at h
    split at h
    next =>
      cases h
      exact .cons (d.mute_addCapture _) (.cons ⟨rfl, rfl, rfl⟩ (forall₂_refl .refl _))
    next =>
      split at h
      next => cases h
      next r' hr =>
        cases h
        exact .cons (d.mute_addCapture _) (ih hr)

end Mute

class Mutes {α : Type} (x : Compiler α) : Prop where
  mute : ∀ {s a s'}, x s = some (a, s') → s.Mute s'

section Mutes

variable {α β : Type}

instance (a : α) : Mutes (pure a : Compiler α) where
  mute h := by cases h; exact .refl _

instance : Mutes (get : Compiler State) where
  mute h := by cases h; exact .refl _

instance Mutes.bind {x : Compiler α} {g : α → Compiler β} [Mutes x] [∀ a, Mutes (g a)] :
    Mutes (x >>= g) where
  mute h := by
    obtain ⟨a, s₁, hx, hg⟩ := bind_eq_some.1 h
    exact (Mutes.mute hx).trans (Mutes.mute hg)

instance {p : Prop} [Decidable p] {x y : Compiler α} [Mutes x] [Mutes y] :
    Mutes (if p then x else y) := by
  split <;> infer_instance

theorem Mutes.modify {f : State → State} (hf : ∀ s : State, s.Mute (f s)) :
    Mutes (modify f : Compiler Unit) where
  mute h := by cases h; exact hf _

instance (fault : Fault) : Mutes (report fault) := .modify fun s => s.mute_reportAt _ _

instance (fault : Fault) : Mutes (reportCurrent fault) := .modify fun s => s.mute_reportAt _ _

instance (k : TokenKind) : Mutes (check k) := by unfold check; infer_instance

instance : Mutes here := by unfold here; infer_instance

instance : Mutes depth := by unfold depth; infer_instance

instance : Mutes openScope := .modify fun _ => .draft ⟨rfl, rfl, rfl⟩

instance (text : String) : Mutes (intern text) where
  mute {s a s'} h := by
    have e : s' = { s with heap := (s.heap.intern text).1 } :=
      congrArg Prod.snd (Option.some.inj h).symm
    subst e
    exact ⟨rfl, rfl, rfl, s.heap.extends_intern text, s.heap.limits_intern text,
      forall₂_refl .refl _⟩

instance (v : Value) : Mutes (addConstant v) where
  mute {s a s'} h := by
    unfold addConstant at h
    rw [get_bind] at h
    cases hc : s.draft.chunk.addConstant? v with
    | some p =>
      obtain ⟨chunk, i⟩ := p
      rw [hc] at h
      cases h
      obtain ⟨rfl, -⟩ | ⟨rfl, -⟩ := Chunk.addConstant?_cases hc
      · exact .draft (.refl _)
      · exact .draft ⟨rfl, rfl, rfl⟩
    | none =>
      rw [hc] at h
      cases h
      exact s.mute_reportAt _ _

instance (name : String) : Mutes (nameConstant name) := by unfold nameConstant; infer_instance

instance (name : String) : Mutes (addLocal name) := by
  have : Mutes (modify fun s : State => { s with
      draft := { s.draft with locals := ⟨name, none, false⟩ :: s.draft.locals } }) :=
    .modify fun _ => .draft ⟨rfl, rfl, rfl⟩
  unfold addLocal; infer_instance

instance : Mutes declareVariable := by unfold declareVariable; infer_instance

instance : Mutes makeReadable := by
  have : Mutes (modify fun s : State => { s with draft := s.draft.makeReadable }) :=
    .modify fun s => .draft s.draft.mute_makeReadable
  unfold makeReadable; infer_instance

instance (fault : Option Fault) : Mutes (reportFault fault) := by
  unfold reportFault
  split <;> infer_instance

end Mutes

/-- An evaluated condition that does not hold. -/
class Refuted (b : Bool) : Prop where
  eq : b = false

instance : Refuted false := ⟨rfl⟩

theorem resolve_mute {name : String} {s s' : State} {place : Place}
    (h : resolve name s = some (place, s')) :
    s.Mute s' ∧ place.read.isCapture = false ∧ place.assign.isCapture = false := by
  unfold resolve at h
  rw [get_bind] at h
  cases hl : s.draft.findLocal? name with
  | some found =>
    obtain ⟨slot, l⟩ := found
    rw [hl] at h
    obtain ⟨_, s₁, reported, h⟩ := bind_eq_some.1 h
    cases h
    exact ⟨Mutes.mute reported, rfl, rfl⟩
  | none =>
    rw [hl] at h
    dsimp only at h
    cases hr : resolveUpvalue name s.draft s.enclosing with
    | some r =>
      rw [hr] at h
      have found : s.Mute { s with draft := r.draft, enclosing := r.enclosing } :=
        ⟨rfl, rfl, rfl, .refl _, .refl _, mute_resolveUpvalue hr⟩
      dsimp only at h
      rw [modify_bind] at h
      obtain ⟨_, s₁, reported, h⟩ := bind_eq_some.1 h
      cases h
      exact ⟨found.trans (Mutes.mute reported), rfl, rfl⟩
    | none =>
      rw [hr] at h
      obtain ⟨i, s₁, named, h⟩ := bind_eq_some.1 h
      cases h
      exact ⟨Mutes.mute named, rfl, rfl⟩

section Lined

variable {old : Heap} {s s' : State} {jumps : List Nat} {fs : List (List Nat)}

theorem Draft.Lined.mute {h h' : Heap} {line : Nat} {d d' : Draft}
    (lined : d.Lined h line jumps) (e : h.Extends h') (mute : d.Mute d') :
    d'.Lined h' line jumps := by
  obtain ⟨ms, ⟨code, lines, inOrder, joined⟩, front⟩ := lined.marks
  refine ⟨⟨ms, ⟨?_, ?_, inOrder, joined⟩, front⟩, mute.name ▸ lined.named.extends e⟩
  · rw [mute.code, code]
  · rw [mute.lines, lines]

theorem State.Lined.mute (lined : s.Lined old fs) (l : s.Mute s') : s'.Lined old fs := by
  refine ⟨?_, ?_, fun i f hf => ?_⟩
  · rw [l.previous, l.current, l.rest]
    exact lined.inOrder
  · rw [l.previous]
    exact forall₂_comp (fun h l' => h.mute l.heap l') lined.drafts l.drafts
  · exact (lined.functions i f (l.functions i f hf)).imp id fun h => h.extends l.heap

/-- A change to the innermost function. -/
theorem State.Lined.draft {jumps' : List Nat} {d : Draft} (lined : s.Lined old (jumps :: fs))
    (h : s.draft.Lined s.heap s.previous.line jumps → d.Lined s.heap s.previous.line jumps') :
    State.Lined old { s with draft := d } (jumps' :: fs) := by
  obtain _ | ⟨top, outer⟩ := lined.drafts
  exact ⟨lined.inOrder, .cons (h top) outer, lined.functions⟩

namespace Draft.Lined

variable {h : Heap} {line : Nat} {d : Draft}

/-- Where an instruction was emitted a jump waits for its distance, if it is one. -/
theorem emitted {jumps' : List Nat} (lined : d.Lined h line jumps) {i : Instruction}
    (plain : i.isCapture = false ∨ d.chunk.lines.back? = some line)
    (waits : ∀ o ∈ jumps', o ∈ jumps ∨
      o = d.chunk.code.size ∧ ∃ jump x, IsForward jump ∧ i = jump x) :
    Draft.Lined h line jumps' { d with chunk := d.chunk.emit i line } := by
  obtain ⟨ms, marked, upTo, waiting⟩ := lined.marks
  refine ⟨⟨ms ++ [⟨i, line⟩], marked.emit upTo fun m last => ?_, fun m hm => ?_, fun o ho => ?_⟩,
    lined.named⟩
  · rintro ⟨c, rfl⟩
    obtain ⟨front, rfl⟩ := List.getLast?_eq_some_iff.1 last
    have same := plain.resolve_left nofun
    rw [marked.back?] at same
    exact (Option.some.inj same).symm
  · obtain hm | hm := List.mem_append.1 hm
    · exact upTo m hm
    · rw [List.mem_singleton.1 hm]
  · rw [Mark.code_append]
    obtain ho | ⟨rfl, jump, x, forward, rfl⟩ := waits o ho
    · exact (waiting o ho).append _
    · refine ⟨Mark.code ms, jump, x, [], forward, rfl, ?_⟩
      rw [← Array.length_toList, marked.code, Instruction.length_stream]

theorem emit (lined : d.Lined h line jumps) {i : Instruction} (plain : i.isCapture = false) :
    Draft.Lined h line jumps { d with chunk := d.chunk.emit i line } :=
  lined.emitted (.inl plain) fun _ => .inl

theorem emitJump (lined : d.Lined h line jumps) {jump : UInt16 → Instruction}
    (forward : IsForward jump) (x : UInt16) : Draft.Lined h line (d.chunk.code.size :: jumps)
      { d with chunk := d.chunk.emit (jump x) line } := by
  have plain : (jump x).isCapture = false := by obtain rfl | rfl := forward <;> rfl
  refine lined.emitted (.inl plain) fun o ho => ?_
  obtain rfl | ho := List.mem_cons.1 ho
  · exact .inr ⟨rfl, jump, x, forward, rfl⟩
  · exact .inl ho

/-- A capture goes on the line of what is in front. -/
theorem emitCapture (lined : d.Lined h line jumps) (last : d.chunk.lines.back? = some line)
    (c : Capture) : Draft.Lined h line jumps { d with chunk := d.chunk.emit (.capture c) line } :=
  lined.emitted (.inr last) fun _ => .inl

theorem back?_emit (lined : d.Lined h line jumps) (i : Instruction) :
    (d.chunk.emit i line).lines.back? = some line := by
  obtain ⟨ms, marked, -⟩ := lined.marks
  have size := i.size_pos
  rw [← Array.getLast?_toList, Chunk.Echo.lines_emit marked.full, List.getLast?_append,
    List.getLast?_replicate, if_neg (by omega), Option.some_or]

theorem land (lined : d.Lined h line jumps) {offset : Nat} (ho : offset ∈ jumps) (x : UInt16) :
    Draft.Lined h line jumps { d with chunk := d.chunk.setDistance offset x } := by
  obtain ⟨ms, marked, upTo, waiting⟩ := lined.marks
  obtain ⟨ms', marked', same, kept⟩ := marked.setDistance (waiting offset ho) x
  refine ⟨⟨ms', marked', fun m hm => ?_, fun o ho => kept o (waiting o ho)⟩, lined.named⟩
  have hm : m.line ∈ ms.map Mark.line := same ▸ List.mem_map_of_mem hm
  obtain ⟨n, hn, e⟩ := List.mem_map.1 hm
  exact e ▸ upTo n hn

theorem fewer {jumps' : List Nat} (lined : d.Lined h line jumps) (sub : jumps' ⊆ jumps) :
    d.Lined h line jumps' := by
  obtain ⟨ms, marked, upTo, waiting⟩ := lined.marks
  exact ⟨⟨ms, marked, upTo, fun o ho => waiting o (sub ho)⟩, lined.named⟩

theorem finish (lined : d.Lined h line jumps) : d.finish.Lined h := by
  obtain ⟨ms, marked, -⟩ := lined.marks
  exact ⟨⟨ms, marked⟩, lined.named⟩

end Draft.Lined

end Lined

/-- A computation leads from jumps that wait for a distance to others. -/
class Lining (fs : List (List Nat)) {α : Type} (x : Compiler α)
    (gs : outParam (α → List (List Nat))) : Prop where
  lined : ∀ {old s a s'}, State.Lined old s fs → x s = some (a, s') → s'.Lined old (gs a)

section Rules

variable {α β : Type} {fs : List (List Nat)} {gs : α → List (List Nat)}
  {hs : β → List (List Nat)} {x y : Compiler α} {f : α → Compiler β}

instance Lining.bind [hx : Lining fs x gs] [hf : ∀ a, Lining (gs a) (f a) hs] :
    Lining fs (x >>= f) hs where
  lined h e := by
    obtain ⟨a, s₁, hx₁, hf₁⟩ := bind_eq_some.1 e
    exact (hf a).lined (hx.lined h hx₁) hf₁

/-- For continuations that are split before instances are looked for. -/
theorem Lining.andThen (hx : Lining fs x gs) (hf : ∀ a, Lining (gs a) (f a) hs) :
    Lining fs (x >>= f) hs :=
  inferInstance

instance [Mutes x] : Lining fs x fun _ => fs where
  lined h e := h.mute (Mutes.mute e)

instance {p : Prop} [Decidable p] [Lining fs x gs] [Lining fs y gs] :
    Lining fs (if p then x else y) gs := by
  split <;> infer_instance

theorem Lining.pure {a : α} (h : gs a = fs) : Lining fs (Pure.pure a : Compiler α) gs where
  lined lined e := by
    cases e
    exact h ▸ lined

theorem Lining.outOfFuel : Lining fs (outOfFuel : Compiler α) gs where
  lined _ e := by cases e

end Rules

section Steps

variable {old : Heap} {fs : List (List Nat)} {jumps : List Nat} {s : State}

theorem Draft.Lined.later {h : Heap} {line line' : Nat} {d : Draft} (lined : d.Lined h line jumps)
    (le : line ≤ line') : d.Lined h line' jumps := by
  obtain ⟨ms, marked, upTo, waiting⟩ := lined.marks
  exact ⟨⟨ms, marked, fun m hm => Nat.le_trans (upTo m hm) le, waiting⟩, lined.named⟩

namespace State.Lined

theorem take {ts : List Token} : ∀ {s : State}, State.Lined old { s with rest := [] } fs →
    (s.previous :: ts).Pairwise (fun t u => t.line ≤ u.line) → (s.take ts).Lined old fs := by
  induction ts with
  | nil => exact fun h _ => h
  | cons t ts ih =>
    intro s lined inOrder
    obtain ⟨first, later⟩ := List.pairwise_cons.1 inOrder
    unfold State.take
    split
    next fault _ =>
      have same : { s.reportAt t (.lexical fault) with rest := [] } =
          State.reportAt { s with rest := [] } t (.lexical fault) := by
        unfold State.reportAt
        split <;> rfl
      refine ih (same ▸ lined.mute (State.mute_reportAt ..)) ?_
      rw [(s.mute_reportAt t (.lexical fault)).previous]
      exact List.pairwise_cons.2
        ⟨fun u hu => first u (List.mem_cons_of_mem t hu), (List.pairwise_cons.1 later).2⟩
    next => exact ⟨inOrder, lined.drafts, lined.functions⟩

theorem advance (lined : s.Lined old fs) : s.advance.Lined old fs := by
  obtain ⟨first, later⟩ := List.pairwise_cons.1 lined.inOrder
  have le : s.previous.line ≤ s.current.line := first s.current List.mem_cons_self
  refine State.Lined.take (s := { s with previous := s.current }) ⟨?_, ?_, lined.functions⟩ later
  · simp
  · exact lined.drafts.imp fun _ _ h => h.later le

theorem skip {n : Nat} : ∀ {s : State}, s.Lined old fs → (State.skip n s).Lined old fs := by
  induction n with
  | zero => exact id
  | succ n ih =>
    intro s lined
    unfold State.skip
    split
    · exact lined
    · exact ih lined.advance

theorem recover (lined : s.Lined old fs) : s.recover.Lined old fs := by
  have calm : State.Lined old { s with panicking := false } fs :=
    ⟨lined.inOrder, lined.drafts, lined.functions⟩
  exact calm.skip

theorem emit (lined : s.Lined old (jumps :: fs)) {i : Instruction} (plain : i.isCapture = false) :
    (s.emit i).Lined old (jumps :: fs) :=
  lined.draft fun h => h.emit plain

theorem dropLocals {ls : List Local} : ∀ {s : State}, s.Lined old (jumps :: fs) →
    (s.dropLocals ls).Lined old (jumps :: fs) := by
  induction ls with
  | nil => exact fun lined => lined.mute (.draft ⟨rfl, rfl, rfl⟩)
  | cons l ls ih =>
    intro s lined
    unfold State.dropLocals
    split
    · refine ih (lined.emit ?_)
      split <;> rfl
    · exact lined.mute (.draft ⟨rfl, rfl, rfl⟩)

end State.Lined

instance : Lining fs advance fun _ => fs where
  lined h e := by cases e; exact h.advance

instance (k : TokenKind) : Lining fs (accept k) fun _ => fs := by unfold accept; infer_instance

instance (k : TokenKind) (what : Expectation) : Lining fs (consume k what) fun _ => fs := by
  unfold consume; infer_instance

instance : Lining fs (modify State.recover : Compiler Unit) fun _ => fs where
  lined h e := by cases e; exact h.recover

instance (what : Expectation) : Lining fs (newVariable what) fun _ => fs := by
  unfold newVariable; infer_instance

instance {i : Instruction} [plain : Refuted i.isCapture] :
    Lining (jumps :: fs) (emit i) fun _ => jumps :: fs where
  lined h e := by cases e; exact h.emit plain.eq

instance : Lining (jumps :: fs) emitReturn fun _ => jumps :: fs := by
  unfold emitReturn; infer_instance

instance (v : Value) : Lining (jumps :: fs) (emitConstant v) fun _ => jumps :: fs := by
  unfold emitConstant; infer_instance

instance (op : UnaryOperator) : Lining (jumps :: fs) (emit op.code) fun _ => jumps :: fs := by
  cases op <;> unfold UnaryOperator.code <;> infer_instance

instance (op : BinaryOperator) : Lining (jumps :: fs) (emitAll op.code) fun _ => jumps :: fs := by
  cases op <;> simp only [BinaryOperator.code, emitAll] <;> infer_instance

instance (start : Nat) : Lining (jumps :: fs) (emitBackJump start) fun _ => jumps :: fs := by
  unfold emitBackJump; infer_instance

instance : Lining (jumps :: fs) closeScope fun _ => jumps :: fs where
  lined {old s _ _} h e := by
    cases e
    have shallow : State.Lined old
        { s with draft := { s.draft with depth := s.draft.depth - 1 } } (jumps :: fs) :=
      h.mute (.draft ⟨rfl, rfl, rfl⟩)
    exact shallow.dropLocals

instance (global : UInt8) : Lining (jumps :: fs) (defineVariable global) fun _ => jumps :: fs := by
  unfold defineVariable; infer_instance

theorem emitJump_lines {jump : UInt16 → Instruction} (forward : IsForward jump) :
    Lining (jumps :: fs) (emitJump jump) fun offset => (offset :: jumps) :: fs where
  lined h e := by
    cases e
    exact h.draft fun d => d.emitJump forward _

instance : Lining (jumps :: fs) (emitJump .jump) fun offset => (offset :: jumps) :: fs :=
  emitJump_lines (.inl rfl)

instance : Lining (jumps :: fs) (emitJump .jumpIfFalse) fun offset => (offset :: jumps) :: fs :=
  emitJump_lines (.inr rfl)

theorem landJump_lines {jumps' : List Nat} {offset : Nat} (waits : offset ∈ jumps)
    (sub : jumps' ⊆ jumps) : Lining (jumps :: fs) (landJump offset) fun _ => jumps' :: fs where
  lined {old s _ _} h e := by
    have fewer : s.Lined old (jumps' :: fs) := h.draft fun d => d.fewer sub
    unfold landJump at e
    obtain ⟨here, s₁, hh, e⟩ := bind_eq_some.1 e
    cases hh
    dsimp only at e
    split at e
    · cases e
      exact h.draft fun d => (d.land waits _).fewer sub
    · exact fewer.mute (Mutes.mute e)

instance (offset : Nat) : Lining ((offset :: jumps) :: fs) (landJump offset) fun _ => jumps :: fs :=
  landJump_lines List.mem_cons_self (List.subset_cons_self ..)

/-- Of two jumps that wait, the earlier one comes first. -/
instance (offset later : Nat) : Lining ((later :: offset :: jumps) :: fs) (landJump offset)
    fun _ => (later :: jumps) :: fs :=
  landJump_lines (List.mem_cons_of_mem _ List.mem_cons_self)
    (List.cons_subset_cons _ (List.subset_cons_self ..))

/-- A place is read and assigned by instructions of their own. -/
theorem Lining.resolve {α : Type} {name : String} {f : Place → Compiler α}
    {gs : α → List (List Nat)} (h : ∀ place : Place, Refuted place.read.isCapture →
      Refuted place.assign.isCapture → Lining fs (f place) gs) :
    Lining fs (resolve name >>= f) gs where
  lined lined e := by
    obtain ⟨place, s₁, hp, e⟩ := bind_eq_some.1 e
    obtain ⟨mute, read, assign⟩ := resolve_mute hp
    exact (h place ⟨read⟩ ⟨assign⟩).lined (lined.mute mute) e

/-- A function begins. -/
theorem Lining.beginFunction {α : Type} {text : String} {x : Compiler α}
    {gs : α → List (List Nat)} (h : Lining ([] :: fs) x gs) :
    Lining fs (intern text >>= fun r => beginFunction r >>= fun _ => x) gs where
  lined {old s _ _} lined e := by
    obtain ⟨r, s₁, hr, e⟩ := bind_eq_some.1 e
    have interned := lined.mute (Mutes.mute hr)
    have named : s₁.heap.Names (some r) := by
      cases hr
      intro hb r e
      cases e
      exact ⟨text, Heap.string?_intern _ _ hb⟩
    have begun : Draft.Lined s₁.heap s₁.previous.line [] (.new .function (some r)) :=
      ⟨⟨[], Chunk.marked_empty, nofun, nofun⟩, named⟩
    have inner : State.Lined old
        { s₁ with draft := .new .function (some r), enclosing := s₁.draft :: s₁.enclosing }
        ([] :: fs) :=
      ⟨interned.inOrder, .cons begun interned.drafts, interned.functions⟩
    exact h.lined inner e

/-- What has been compiled when a function ends. -/
theorem endFunction_lines {s' : State} {p : Function × Array Capture}
    (lined : s.Lined old (jumps :: fs)) (h : endFunction s = some (p, s')) :
    p.1.Lined s'.heap ∧ old.LinedSince s'.heap ∧ (fs ≠ [] → s'.Lined old fs) := by
  rw [endFunction_eq] at h
  obtain ⟨_, s₁, returned, ended⟩ := bind_eq_some.1 h
  have lined₁ : s₁.Lined old (jumps :: fs) := Lining.lined (x := emitReturn) lined returned
  obtain _ | ⟨top, outer⟩ := lined₁.drafts
  cases ended
  refine ⟨top.finish, lined₁.functions, fun more => ⟨lined₁.inOrder, ?_, lined₁.functions⟩⟩
  dsimp only
  generalize s₁.enclosing = ds at outer
  cases outer with
  | nil => exact (more rfl).elim
  | cons d ds => exact .cons d ds

theorem State.Lined.allocate {f : Function} (lined : s.Lined old fs) (hf : f.Lined s.heap) :
    State.Lined old { s with heap := (s.heap.allocate (.function f)).1 } fs where
  inOrder := lined.inOrder
  drafts := lined.drafts.imp fun _ _ h => h.mute (s.heap.extends_allocate _) (.refl _)
  functions := lined.functions.allocate hf

theorem State.Lined.captures {cs : List Capture} : ∀ {s s' : State} {u : Unit},
    s.Lined old (jumps :: fs) → s.draft.chunk.lines.back? = some s.previous.line →
      emitAll (cs.map .capture) s = some (u, s') → s'.Lined old (jumps :: fs) := by
  induction cs with
  | nil =>
    intro s s' u lined _ e
    cases e
    exact lined
  | cons c cs ih =>
    intro s s' u lined last e
    obtain ⟨_, s₁, e₁, e⟩ := bind_eq_some.1 e
    cases e₁
    obtain _ | ⟨top, -⟩ := lined.drafts
    exact ih (lined.draft fun h => h.emitCapture last c) (top.back?_emit _) e

/-- The captures of a closure are on its line: no token is read in between. -/
instance {jumps' : List Nat} :
    Lining (jumps :: jumps' :: fs) closeFunction fun _ => jumps' :: fs where
  lined {old _ _ s'} lined e := by
    unfold closeFunction at e
    obtain ⟨⟨f, captures⟩, s₁, ended, e⟩ := bind_eq_some.1 e
    obtain ⟨r, s₂, allocated, e⟩ := bind_eq_some.1 e
    obtain ⟨i, s₃, constant, e⟩ := bind_eq_some.1 e
    obtain ⟨_, s₄, closed, e⟩ := bind_eq_some.1 e
    obtain ⟨finished, -, inside⟩ := endFunction_lines lined ended
    have lined₂ : s₂.Lined old (jumps' :: fs) := by
      cases allocated
      exact (inside (List.cons_ne_nil _ _)).allocate finished
    have lined₃ := lined₂.mute (Mutes.mute constant)
    obtain _ | ⟨top, -⟩ := lined₃.drafts
    cases closed
    exact (lined₃.emit rfl).captures (top.back?_emit _) e

end Steps

section Expressions

/-- A literal is no data of another instruction. -/
def Leading.Plain (form : Leading) : Prop := ∀ i, form = .constant i → i.isCapture = false

theorem plain_of_leading {k : TokenKind} {form : Leading} (h : leading? k = some form) :
    form.Plain := by
  rintro i rfl
  unfold leading? at h
  split at h <;> cases h <;> rfl

structure LineExpressions (n : Nat) : Prop where
  expression : ∀ jumps fs, Lining (jumps :: fs) (expression n) fun _ => jumps :: fs
  operand : ∀ p jumps fs, Lining (jumps :: fs) (operand n p) fun _ => jumps :: fs
  operators : ∀ p b jumps fs, Lining (jumps :: fs) (operators n p b) fun _ => jumps :: fs
  leading : ∀ form b jumps fs, form.Plain →
    Lining (jumps :: fs) (leading n form b) fun _ => jumps :: fs
  trailing : ∀ form b jumps fs, Lining (jumps :: fs) (trailing n form b) fun _ => jumps :: fs
  items : ∀ close limit what jumps fs,
    Lining (jumps :: fs) (items n close limit what) fun _ => jumps :: fs
  itemsFrom : ∀ limit count jumps fs,
    Lining (jumps :: fs) (itemsFrom n limit count) fun _ => jumps :: fs

variable {n : Nat} {jumps : List Nat} {fs : List (List Nat)}

theorem operand_lines (ih : LineExpressions n) (p : Precedence) :
    Lining (jumps :: fs) (operand (n + 1) p) fun _ => jumps :: fs := by
  have := ih.operators
  unfold Compile.operand
  refine .andThen inferInstance fun _ => .andThen inferInstance fun s => ?_
  split
  next => infer_instance
  next form h =>
    have (b : Bool) : Lining (jumps :: fs) (Compile.leading n form b) fun _ => jumps :: fs :=
      ih.leading form b jumps fs (plain_of_leading h)
    infer_instance

theorem leading_lines (ih : LineExpressions n) {form : Leading} (b : Bool) (plain : form.Plain) :
    Lining (jumps :: fs) (leading (n + 1) form b) fun _ => jumps :: fs := by
  have := ih.expression
  have := ih.operand
  have := ih.items
  unfold Compile.leading
  cases form with
  | «variable» =>
    exact .andThen inferInstance fun s => .resolve fun place _ _ => inferInstance
  | constant i =>
    have : Refuted i.isCapture := ⟨plain i rfl⟩
    infer_instance
  | _ => infer_instance

theorem lineExpressions (n : Nat) : LineExpressions n := by
  induction n with
  | zero => constructor <;> intros <;> exact .outOfFuel
  | succ n ih =>
    constructor
    case expression =>
      intro jumps fs
      have := ih.operand
      unfold Compile.expression
      infer_instance
    case operand => exact fun p _ _ => operand_lines ih p
    case operators =>
      intro p b jumps fs
      have := ih.operators
      have := ih.trailing
      unfold Compile.operators
      refine .andThen inferInstance fun s => ?_
      split <;> infer_instance
    case leading => exact fun form b _ _ => leading_lines ih b
    case trailing =>
      intro form b jumps fs
      have := ih.expression
      have := ih.operand
      have := ih.items
      unfold Compile.trailing
      cases form <;> infer_instance
    case items =>
      intro close limit what jumps fs
      have := ih.itemsFrom
      unfold Compile.items
      infer_instance
    case itemsFrom =>
      intro limit count jumps fs
      have := ih.expression
      have := ih.itemsFrom
      unfold Compile.itemsFrom
      dsimp only
      infer_instance

end Expressions

section Statements

set_option synthInstance.maxSize 5000

structure LineStatements (n : Nat) : Prop where
  declaration : ∀ jumps fs, Lining (jumps :: fs) (declaration n) fun _ => jumps :: fs
  functionDeclaration : ∀ jumps fs,
    Lining (jumps :: fs) (functionDeclaration n) fun _ => jumps :: fs
  variableDeclaration : ∀ jumps fs,
    Lining (jumps :: fs) (variableDeclaration n) fun _ => jumps :: fs
  function : ∀ jumps fs, Lining (jumps :: fs) (function n) fun _ => jumps :: fs
  parameters : ∀ jumps fs, Lining (jumps :: fs) (parameters n) fun _ => jumps :: fs
  statement : ∀ jumps fs, Lining (jumps :: fs) (statement n) fun _ => jumps :: fs
  block : ∀ jumps fs, Lining (jumps :: fs) (block n) fun _ => jumps :: fs
  expressionStatement : ∀ jumps fs,
    Lining (jumps :: fs) (expressionStatement n) fun _ => jumps :: fs
  returnStatement : ∀ jumps fs, Lining (jumps :: fs) (returnStatement n) fun _ => jumps :: fs
  ifStatement : ∀ jumps fs, Lining (jumps :: fs) (ifStatement n) fun _ => jumps :: fs
  whileStatement : ∀ jumps fs, Lining (jumps :: fs) (whileStatement n) fun _ => jumps :: fs
  forStatement : ∀ jumps fs, Lining (jumps :: fs) (forStatement n) fun _ => jumps :: fs
  forInitializer : ∀ jumps fs, Lining (jumps :: fs) (forInitializer n) fun _ => jumps :: fs
  forCondition : ∀ jumps fs,
    Lining (jumps :: fs) (forCondition n) fun exit => (exit.toList ++ jumps) :: fs
  forIncrement : ∀ start jumps fs, Lining (jumps :: fs) (forIncrement n start) fun _ => jumps :: fs

variable {n : Nat} {jumps : List Nat} {fs : List (List Nat)}

theorem function_lines (ih : LineStatements n) :
    Lining (jumps :: fs) (function (n + 1)) fun _ => jumps :: fs := by
  have := ih.parameters
  have := ih.block
  rw [function_succ]
  exact .andThen inferInstance fun _ => .beginFunction inferInstance

theorem forCondition_lines :
    Lining (jumps :: fs) (forCondition (n + 1)) fun exit => (exit.toList ++ jumps) :: fs := by
  have := (lineExpressions n).expression
  unfold Compile.forCondition
  refine .andThen inferInstance fun absent => ?_
  split
  next => exact .pure rfl
  next =>
    exact .andThen inferInstance fun _ => .andThen inferInstance fun _ =>
      .andThen inferInstance fun exit => .andThen inferInstance fun _ => .pure rfl

/-- Behind the loop the jump that leaves it has its distance. -/
instance (exit : Option Nat) :
    Lining ((exit.toList ++ jumps) :: fs) (leaveLoop exit) fun _ => jumps :: fs := by
  unfold leaveLoop
  cases exit <;> dsimp only [Option.toList, List.cons_append, List.nil_append] <;> infer_instance

theorem forStatement_lines (ih : LineStatements n) :
    Lining (jumps :: fs) (forStatement (n + 1)) fun _ => jumps :: fs := by
  have := ih.forInitializer
  have := ih.forCondition
  have := ih.forIncrement
  have := ih.statement
  rw [forStatement_succ]
  infer_instance

theorem lineStatements (n : Nat) : LineStatements n := by
  induction n with
  | zero => constructor <;> intros <;> exact .outOfFuel
  | succ n ih =>
    have := (lineExpressions n).expression
    constructor
    case declaration =>
      intro jumps fs
      have := ih.functionDeclaration
      have := ih.variableDeclaration
      have := ih.statement
      unfold Compile.declaration
      dsimp only
      infer_instance
    case functionDeclaration =>
      intro jumps fs
      have := ih.function
      unfold Compile.functionDeclaration
      infer_instance
    case variableDeclaration =>
      intro jumps fs
      unfold Compile.variableDeclaration
      dsimp only
      infer_instance
    case function => exact fun _ _ => function_lines ih
    case parameters =>
      intro jumps fs
      have := ih.parameters
      have : Mutes (modify fun s : State =>
          { s with draft := { s.draft with arity := s.draft.arity + 1 } }) :=
        .modify fun _ => .draft ⟨rfl, rfl, rfl⟩
      unfold Compile.parameters
      dsimp only
      infer_instance
    case statement =>
      intro jumps fs
      have := ih.forStatement
      have := ih.ifStatement
      have := ih.returnStatement
      have := ih.whileStatement
      have := ih.block
      have := ih.expressionStatement
      unfold Compile.statement
      infer_instance
    case block =>
      intro jumps fs
      have := ih.declaration
      have := ih.block
      unfold Compile.block
      infer_instance
    case expressionStatement =>
      intro jumps fs
      unfold Compile.expressionStatement
      infer_instance
    case returnStatement =>
      intro jumps fs
      unfold Compile.returnStatement
      dsimp only
      infer_instance
    case ifStatement =>
      intro jumps fs
      have := ih.statement
      unfold Compile.ifStatement
      dsimp only
      infer_instance
    case whileStatement =>
      intro jumps fs
      have := ih.statement
      unfold Compile.whileStatement
      infer_instance
    case forStatement => exact fun _ _ => forStatement_lines ih
    case forInitializer =>
      intro jumps fs
      have := ih.variableDeclaration
      have := ih.expressionStatement
      unfold Compile.forInitializer
      infer_instance
    case forCondition => exact fun _ _ => forCondition_lines
    case forIncrement =>
      intro start jumps fs
      rw [Compile.forIncrement]
      infer_instance

instance (n : Nat) : Lining (jumps :: fs) (declarations n) fun _ => jumps :: fs := by
  induction n with
  | zero => exact .outOfFuel
  | succ n ih =>
    have := (lineStatements n).declaration
    unfold declarations
    infer_instance

end Statements

/-- The first token is read as if there were one on the first line in front of it. -/
theorem State.lined_new (source : String) (heap : Heap) :
    (State.new (Lexical.scan source) heap).Lined heap [[]] := by
  obtain ⟨first, inOrder⟩ := (Lexical.covers_scanFrom source.toList .start).inOrder
  refine ⟨?_, .cons ⟨⟨[], Chunk.marked_empty, nofun, nofun⟩, fun _ => nofun⟩ .nil,
    fun _ _ => .inl⟩
  have lines : (Lexical.scan source).Pairwise fun t u => t.line ≤ u.line := inOrder.imp And.right
  refine List.pairwise_cons.2 ⟨?_, List.pairwise_cons.2 ⟨fun t ht => (first t ht).2, lines⟩⟩
  intro t ht
  obtain rfl | ht := List.mem_cons.1 ht
  · exact Nat.le_refl _
  · exact (first t ht).2

/-- Every function was on the heap before, or has been compiled and tells its lines and its name. -/
theorem compile_functions (source : String) (heap : Heap) :
    heap.LinedSince (compile source heap).heap := by
  obtain ⟨f, s, ends, e⟩ := compile_eq_ofState source heap
  rw [script] at ends
  obtain ⟨_, s₁, h₁, ends⟩ := bind_eq_some.1 ends
  obtain ⟨_, s₂, h₂, ends⟩ := bind_eq_some.1 ends
  obtain ⟨p, s₃, h₃, ends⟩ := bind_eq_some.1 ends
  cases ends
  have start := Lining.lined (x := advance) (State.lined_new source heap) h₁
  have read := Lining.lined (x := declarations _) start h₂
  obtain ⟨finished, functions, -⟩ := endFunction_lines read h₃
  rw [e, Compilation.ofState]
  split
  next => exact functions.allocate finished
  next => exact functions

end Compile

/-- All functions on a heap tell their lines and their names. -/
def Heap.Lined (h : Heap) : Prop :=
  ∀ (i : Nat) (f : Function), h.objects[i]? = some (.function f) → f.Lined h

theorem Heap.Lined.compile {h : Heap} (lined : h.Lined) (source : String) :
    (Compile.compile source h).heap.Lined := fun i f hf =>
  (Compile.compile_functions source h i f hf).elim
    (fun old => (lined i f old).extends (Compile.compile_gains source h).extends) id

end StackScript
