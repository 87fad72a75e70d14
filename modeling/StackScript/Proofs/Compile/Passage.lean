import StackScript.Proofs.Compile.Context
import StackScript.Proofs.Compile.Faultless
import StackScript.Proofs.Bytecode.Branch

/-!
# StackScript.Proofs.Compile.Passage

The steps that productions are made of, when they end without an error.

* `Steady`: a state without errors, which has one more token `eof` in front of it, the last one.
* `Passes s ts is s'`: from `s` to `s'` the tokens `ts` were read and the instructions `is` were
  emitted.
-/

namespace StackScript
namespace Compile

open Instruction

/-- A list of tokens ends where the source does. -/
def EndsOnce (ts : List Token) : Prop :=
  ∃ us t, ts = us ++ [t] ∧ t.kind = .eof ∧ ∀ u ∈ us, u.kind ≠ .eof

theorem EndsOnce.tail {t : Token} {ts : List Token} (h : EndsOnce (t :: ts))
    (ht : t.kind ≠ .eof) : EndsOnce ts := by
  obtain ⟨us, e, hts, he, hus⟩ := h
  cases us with
  | nil =>
    obtain ⟨rfl, rfl⟩ : t = e ∧ ts = [] := by simpa using hts
    exact absurd he ht
  | cons u us =>
    obtain ⟨rfl, rfl⟩ : t = u ∧ ts = us ++ [e] := by simpa using hts
    exact ⟨us, e, rfl, he, fun v hv => hus v (List.mem_cons_of_mem _ hv)⟩

theorem EndsOnce.ne_nil {ts : List Token} (h : EndsOnce ts) : ts ≠ [] := by
  obtain ⟨us, t, rfl, -, -⟩ := h
  simp

theorem EndsOnce.eq_singleton {t : Token} {ts : List Token} (h : EndsOnce (t :: ts))
    (ht : t.kind = .eof) : ts = [] := by
  obtain ⟨us, e, hts, -, hus⟩ := h
  cases us with
  | nil =>
    obtain ⟨-, rfl⟩ : t = e ∧ ts = [] := by simpa using hts
    rfl
  | cons u us =>
    obtain ⟨rfl, -⟩ : t = u ∧ ts = us ++ [e] := by simpa using hts
    exact absurd ht (hus t (by simp))

def Draft.octets (d : Draft) : Array UInt8 × Array Nat := (d.chunk.code, d.chunk.lines)

structure Steady (s : State) : Prop where
  errors : s.errors = #[]
  calm : s.panicking = false
  tokens : EndsOnce (s.current :: s.rest)
  lines : s.draft.chunk.lines.size = s.draft.chunk.code.size

structure Passes (s : State) (ts : List Token) (is : List Instruction) (s' : State) : Prop where
  steady : Steady s'
  tokens : s.current :: s.rest = ts ++ s'.current :: s'.rest
  previous : s'.previous = ts.getLastD s.previous
  code : s'.draft.chunk.code.toList = s.draft.chunk.code.toList ++ stream is
  enclosing : s'.enclosing.map Draft.octets = s.enclosing.map Draft.octets

namespace Passes

variable {s s₁ s' : State} {ts us : List Token} {is js : List Instruction}

theorem refl (hs : Steady s) : Passes s [] [] s where
  steady := hs
  tokens := rfl
  previous := rfl
  code := by simp
  enclosing := rfl

theorem trans (h : Passes s ts is s₁) (h' : Passes s₁ us js s') :
    Passes s (ts ++ us) (is ++ js) s' where
  steady := h'.steady
  tokens := by rw [h.tokens, h'.tokens, List.append_assoc]
  previous := by
    rw [h'.previous, h.previous]
    simp [List.getLastD_eq_getLast?, List.getLast?_append]
  code := by rw [h'.code, h.code, stream_append, List.append_assoc]
  enclosing := h'.enclosing.trans h.enclosing

theorem size (h : Passes s ts is s') :
    s'.draft.chunk.code.size = s.draft.chunk.code.size + width is := by
  simpa using congrArg List.length h.code

theorem current (h : Passes s [] is s') : s'.current = s.current :=
  (List.cons.inj h.tokens).1.symm

theorem current_eq (h : Passes s ts is s₁) (h' : Passes s ts js s') : s'.current = s₁.current :=
  (List.cons.inj (List.append_cancel_left (h'.tokens.symm.trans h.tokens))).1

end Passes

section Monad

variable {α β : Type} {s s' : State}

@[simp] theorem runs_pure {a b : α} : Runs (pure a) s b s' ↔ a = b ∧ s = s' ∧ s.errors = #[] := by
  constructor
  · rintro ⟨h, he⟩
    cases h
    exact ⟨rfl, rfl, he⟩
  · rintro ⟨rfl, rfl, he⟩
    exact ⟨rfl, he⟩

theorem runs_get_bind {f : State → Compiler β} {b : β} :
    Runs (get >>= f) s b s' ↔ Runs (f s) s b s' := Iff.rfl

theorem runs_modify_bind {g : State → State} {f : Unit → Compiler β} {b : β} :
    Runs (modify g >>= f) s b s' ↔ Runs (f ()) (g s) b s' := Iff.rfl

theorem runs_modify {f : State → State} {u : Unit} :
    Runs (modify f) s u s' ↔ f s = s' ∧ (f s).errors = #[] := by
  constructor
  · rintro ⟨h, he⟩
    cases h
    exact ⟨rfl, he⟩
  · rintro ⟨rfl, he⟩
    exact ⟨rfl, he⟩

theorem runs_modifyGet {f : State → α × State} {a : α} :
    Runs (modifyGet f) s a s' ↔ f s = (a, s') ∧ s'.errors = #[] := by
  constructor
  · rintro ⟨h, he⟩
    exact ⟨Option.some.inj h, he⟩
  · rintro ⟨h, he⟩
    exact ⟨congrArg some h, he⟩

theorem Steady.sound (hs : Steady s) : s.Sound := by
  intro h
  rw [hs.calm] at h
  cases h

theorem not_runs_reportAt {t : Token} {fault : Fault} {u : Unit} (hs : s.Sound) :
    ¬Runs (modify fun s : State => s.reportAt t fault) s u s' := by
  intro h
  obtain ⟨rfl, he⟩ := runs_modify.1 h
  have calm : s.panicking = false :=
    eq_false_of_ne_true fun hp => hs hp ((s.later_reportAt t fault).errors he)
  simp [State.reportAt, calm] at he

/-- A recorded fault is never forgotten. -/
theorem not_runs_report {fault : Fault} {u : Unit} (hs : s.Sound) :
    ¬Runs (report fault) s u s' :=
  not_runs_reportAt (t := s.previous) hs

theorem not_runs_reportCurrent {fault : Fault} {u : Unit} (hs : s.Sound) :
    ¬Runs (reportCurrent fault) s u s' :=
  not_runs_reportAt (t := s.current) hs

end Monad

section Reading

variable {s s' : State} {u : Unit}

theorem take_faultless {ts : List Token} (hc : s.panicking = false)
    (h : (s.take ts).errors = #[]) (hts : ts ≠ []) :
    ∃ t us, ts = t :: us ∧ s.take ts = { s with current := t, rest := us } := by
  cases ts with
  | nil => exact absurd rfl hts
  | cons t us =>
    refine ⟨t, us, rfl, ?_⟩
    unfold State.take at h ⊢
    split at h
    · have := (State.take_records ..).1 h
      simp [State.reportAt, hc] at this
    · rfl

theorem previous_take {ts : List Token} : ∀ {s : State}, (s.take ts).previous = s.previous := by
  induction ts with
  | nil => exact rfl
  | cons t ts ih =>
    intro s
    unfold State.take
    split
    · rw [ih]
      unfold State.reportAt
      split <;> rfl
    · rfl

theorem previous_advance (s : State) : s.advance.previous = s.current := previous_take

theorem runs_advance_eq (h : Runs advance s u s') (hs : Steady s) (hk : s.current.kind ≠ .eof) :
    ∃ t us, s.rest = t :: us ∧ { s with previous := s.current, current := t, rest := us } = s' := by
  obtain ⟨rfl, he⟩ := runs_modify.1 h
  obtain ⟨t, us, hts, e⟩ := take_faultless (s := { s with previous := s.current }) hs.calm he
    (hs.tokens.tail hk).ne_nil
  exact ⟨t, us, hts, e.symm⟩

theorem runs_advance (h : Runs advance s u s') (hs : Steady s) (hk : s.current.kind ≠ .eof) :
    Passes s [s.current] [] s' ∧ s'.context = s.context := by
  obtain ⟨t, us, hts, rfl⟩ := runs_advance_eq h hs hk
  have hrest := hs.tokens.tail hk
  refine ⟨⟨⟨hs.errors, hs.calm, hts ▸ hrest, hs.lines⟩, ?_, rfl, by simp, rfl⟩, rfl⟩
  rw [hts]
  rfl

theorem runs_advance_bind {β : Type} {f : Unit → Compiler β} {b : β} :
    Runs (advance >>= f) s b s' ↔ Runs (f ()) s.advance b s' := Iff.rfl

theorem runs_check {k : TokenKind} {b : Bool} (h : Runs (check k) s b s') :
    (s.current.kind == k) = b ∧ s = s' := by
  unfold check at h
  rw [runs_get_bind, runs_pure] at h
  exact ⟨h.1, h.2.1⟩

theorem runs_accept_cases {k : TokenKind} {b : Bool} (h : Runs (accept k) s b s') :
    (b = true ∧ s.current.kind = k ∧ Runs advance s () s') ∨
      (b = false ∧ s.current.kind ≠ k ∧ s = s') := by
  unfold accept at h
  obtain ⟨c, s₁, h₁, h⟩ := runs_bind h
  obtain ⟨rfl, rfl⟩ := runs_check h₁
  split at h
  next heq =>
    obtain ⟨_, s₂, h₂, h⟩ := runs_bind h
    obtain ⟨rfl, rfl, -⟩ := runs_pure.1 h
    exact .inl ⟨rfl, by simpa using heq, h₂⟩
  next hne =>
    obtain ⟨rfl, rfl, -⟩ := runs_pure.1 h
    exact .inr ⟨rfl, by simpa using hne, rfl⟩

theorem runs_accept {k : TokenKind} {b : Bool} (h : Runs (accept k) s b s') (hs : Steady s)
    (hk : k ≠ .eof) :
    (b = true ∧ s.current.kind = k ∧ Passes s [s.current] [] s' ∧ s'.context = s.context) ∨
      (b = false ∧ s.current.kind ≠ k ∧ s = s') :=
  (runs_accept_cases h).imp_left fun ⟨hb, heq, h⟩ => ⟨hb, heq, runs_advance h hs (heq ▸ hk)⟩

theorem runs_consume_cases {k : TokenKind} {what : Expectation}
    (h : Runs (consume k what) s u s') (hs : s.Sound) :
    s.current.kind = k ∧ Runs advance s () s' := by
  unfold consume at h
  obtain ⟨b, s₁, h₁, h⟩ := runs_bind h
  obtain ⟨rfl, hc, h₁⟩ | ⟨rfl, -, rfl⟩ := runs_accept_cases h₁
  · obtain ⟨-, rfl, -⟩ := runs_pure.1 h
    exact ⟨hc, h₁⟩
  · exact absurd (h : Runs (reportCurrent _) s u s') (not_runs_reportCurrent hs)

theorem runs_consume {k : TokenKind} {what : Expectation} (h : Runs (consume k what) s u s')
    (hs : Steady s) (hk : k ≠ .eof) :
    s.current.kind = k ∧ Passes s [s.current] [] s' ∧ s'.context = s.context := by
  obtain ⟨hc, h⟩ := runs_consume_cases h hs.sound
  exact ⟨hc, runs_advance h hs (hc ▸ hk)⟩

end Reading

section Emitting

variable {s s' : State} {u : Unit}

theorem Steady.emit (hs : Steady s) (i : Instruction) : Passes s [] [i] (s.emit i) := by
  have size : (s.draft.chunk.code ++ i.encode).size = s.draft.chunk.code.size + i.size := by
    rw [← Array.length_toList, Array.toList_appendList, List.length_append, length_encode,
      Array.length_toList]
  refine ⟨⟨hs.errors, hs.calm, hs.tokens, ?_⟩, rfl, rfl, ?_, rfl⟩
  · have hl : ¬s.draft.chunk.code.size + i.size < s.draft.chunk.lines.size := by
      rw [hs.lines]
      omega
    simp only [State.emit, Chunk.emit, Chunk.fillLines, size, if_neg hl, Array.size_append,
      Array.size_replicate]
    omega
  · simp [State.emit, Chunk.emit]

theorem runs_emit {i : Instruction} (h : Runs (emit i) s u s') (hs : Steady s) :
    Passes s [] [i] s' ∧ s'.context = s.context := by
  obtain ⟨rfl, -⟩ := runs_modify.1 h
  exact ⟨hs.emit i, rfl⟩

theorem runs_emitAll {is : List Instruction} (h : Runs (emitAll is) s u s') (hs : Steady s) :
    Passes s [] is s' ∧ s'.context = s.context := by
  induction is generalizing s with
  | nil =>
    obtain ⟨-, rfl, -⟩ := runs_pure.1 h
    exact ⟨.refl hs, rfl⟩
  | cons i is ih =>
    unfold emitAll at h
    obtain ⟨_, s₁, h₁, h⟩ := runs_bind h
    obtain ⟨p₁, e₁⟩ := runs_emit h₁ hs
    obtain ⟨p₂, e₂⟩ := ih h p₁.steady
    exact ⟨p₁.trans p₂, e₂.trans e₁⟩

theorem runs_emitReturn (h : Runs emitReturn s u s') (hs : Steady s) :
    Passes s [] [.pushNil, .ret] s' ∧ s'.context = s.context :=
  runs_emitAll h hs

/-- A function ends behind a return, and the enclosing one goes on. -/
theorem runs_endFunction_eq {p : Function × Array Capture} (h : Runs endFunction s p s') :
    p = (((s.emit .pushNil).emit .ret).draft.finish, s.draft.captures) ∧
      s' = { s with
        draft := s.enclosing.headD (.new .script none)
        enclosing := s.enclosing.tail
        summaries := s'.summaries } := by
  have e := Option.some.inj h.1
  cases he : s.enclosing with
  | nil =>
    have he : ((s.emit .pushNil).emit .ret).enclosing = [] := he
    simp only [he] at e
    cases e
    exact ⟨rfl, rfl⟩
  | cons d ds =>
    have he : ((s.emit .pushNil).emit .ret).enclosing = d :: ds := he
    simp only [he] at e
    cases e
    exact ⟨rfl, rfl⟩

end Emitting

section Jumping

variable {s s' : State} {ts : List Token} {is₀ is : List Instruction}

theorem runs_here_bind {β : Type} {f : Nat → Compiler β} {b : β} :
    Runs (here >>= f) s b s' ↔ Runs (f s.draft.chunk.code.size) s b s' := Iff.rfl

theorem runs_emitJump_eq {jump : UInt16 → Instruction} {n : Nat}
    (h : Runs (emitJump jump) s n s') :
    s.draft.chunk.code.size = n ∧ s.emit (jump 0xFFFF) = s' := by
  unfold emitJump at h
  rw [runs_here_bind] at h
  obtain ⟨_, s₁, h₁, h⟩ := runs_bind h
  obtain ⟨rfl, rfl, -⟩ := runs_pure.1 h
  exact ⟨rfl, (runs_modify.1 h₁).1⟩

theorem runs_emitJump {jump : UInt16 → Instruction} {n : Nat} (h : Runs (emitJump jump) s n s')
    (hs : Steady s) :
    s.draft.chunk.code.size = n ∧ Passes s [] [jump 0xFFFF] s' ∧ s'.context = s.context := by
  obtain ⟨rfl, rfl⟩ := runs_emitJump_eq h
  exact ⟨rfl, hs.emit _, rfl⟩

/-- A jump that lands gets the width of what was emitted behind it. -/
theorem runs_landJump {jump : UInt16 → Instruction} (hj : Chunk.IsJump jump) {d : UInt16}
    {s₁ : State} {n : Nat} {u : Unit} (h : Runs (landJump n) s₁ u s')
    (hp : Passes s ts (is₀ ++ jump d :: is) s₁) (hd : (jump d).size = 3)
    (hn : s.draft.chunk.code.size + width is₀ = n) :
    width is ≤ jumpLimit ∧ Passes s ts (is₀ ++ jump (width is).toUInt16 :: is) s' ∧
      s'.context = s₁.context := by
  unfold landJump at h
  rw [runs_here_bind] at h
  have distance : s₁.draft.chunk.code.size - (n + 3) = width is := by
    rw [hp.size, width_append, width_cons, hd]
    omega
  simp only [distance] at h
  split at h
  next fits =>
    obtain ⟨rfl, -⟩ := runs_modify.1 h
    have code : s₁.draft.chunk.code.toList =
        (s.draft.chunk.code.toList ++ stream is₀) ++ ((jump d).encode ++ stream is) := by
      rw [hp.code, stream_append, stream_cons, List.append_assoc]
    have at_n : (s.draft.chunk.code.toList ++ stream is₀).length = n := by
      simpa using hn
    have landed := Chunk.code_setDistance hj (width is).toUInt16 code
    rw [at_n] at landed
    refine ⟨fits, ⟨⟨hp.steady.errors, hp.steady.calm, hp.steady.tokens, ?_⟩, hp.tokens,
      hp.previous, ?_, hp.enclosing⟩, rfl⟩
    · simpa [Chunk.setDistance] using hp.steady.lines
    · rw [landed, stream_append, stream_cons, List.append_assoc]
  next => exact absurd h (not_runs_report hp.steady.sound)

theorem runs_emitBackJump {n : Nat} {u : Unit} (h : Runs (emitBackJump n) s u s')
    (hs : Steady s) :
    s.draft.chunk.code.size + 3 - n ≤ jumpLimit ∧
      Passes s [] [.loop (s.draft.chunk.code.size + 3 - n).toUInt16] s' ∧
      s'.context = s.context := by
  unfold emitBackJump at h
  rw [runs_here_bind] at h
  simp only at h
  split at h
  next fits => exact ⟨fits, runs_emit h hs⟩
  next => exact absurd h (not_runs_report hs.sound)

end Jumping

section Naming

variable {s s' : State} {u : Unit}

/-- Only the pool and the heap of a state are changed. -/
theorem Passes.ofContext (hs : Steady s) (chunk : Chunk) (heap : Heap)
    (hc : chunk.code = s.draft.chunk.code) (hl : chunk.lines = s.draft.chunk.lines) :
    Passes s [] [] { s with draft := { s.draft with chunk }, heap } where
  steady := ⟨hs.errors, hs.calm, hs.tokens, by simpa [hc, hl] using hs.lines⟩
  tokens := rfl
  previous := rfl
  code := by simp [hc]
  enclosing := rfl

theorem runs_intern {text : String} {r : Ref} (h : Runs (intern text) s r s') (hs : Steady s) :
    Passes s [] [] s' ∧ s.context.intern text = (s'.context, r) := by
  obtain ⟨e, -⟩ := runs_modifyGet.1 h
  cases e
  exact ⟨.ofContext hs s.draft.chunk _ rfl rfl, rfl⟩

theorem Chunk.addConstant?_eq_some {c c' : Chunk} {v : Value} {k : UInt8}
    (h : c.addConstant? v = some (c', k)) :
    c'.code = c.code ∧ c'.lines = c.lines ∧
      Chunk.addConstant? { c with code := #[], lines := #[] } v =
        some ({ c' with code := #[], lines := #[] }, k) := by
  unfold Chunk.addConstant? at h ⊢
  split at h
  next i hi =>
    split at h
    next hlt =>
      cases h
      exact ⟨rfl, rfl, by simp only [hi, if_pos hlt]⟩
    next => cases h
  next hi =>
    split at h
    next hlt =>
      cases h
      exact ⟨rfl, rfl, by simp only [hi, if_pos hlt]⟩
    next => cases h

theorem runs_addConstant_eq {v : Value} {k : UInt8} (h : Runs (addConstant v) s k s')
    (hs : s.Sound) : ∃ chunk, s.draft.chunk.addConstant? v = some (chunk, k) ∧
      { s with draft := { s.draft with chunk } } = s' := by
  unfold addConstant at h
  rw [runs_get_bind] at h
  split at h
  next chunk i hc =>
    obtain ⟨_, s₁, h₁, h⟩ := runs_bind h
    obtain ⟨rfl, -⟩ := runs_modify.1 h₁
    obtain ⟨rfl, rfl, -⟩ := runs_pure.1 h
    exact ⟨chunk, hc, rfl⟩
  next =>
    obtain ⟨_, s₁, h₁, -⟩ := runs_bind h
    exact absurd h₁ (not_runs_report hs)

theorem runs_addConstant {v : Value} {k : UInt8} (h : Runs (addConstant v) s k s')
    (hs : Steady s) : Passes s [] [] s' ∧ s.context.addConstant? v = some (s'.context, k) := by
  obtain ⟨chunk, hc, rfl⟩ := runs_addConstant_eq h hs.sound
  obtain ⟨code, lines, bare⟩ := Chunk.addConstant?_eq_some hc
  refine ⟨.ofContext hs chunk s.heap code lines, ?_⟩
  simp only [Context.addConstant?, State.context, Draft.bare, bare, Option.map_some]

theorem runs_emitConstant {v : Value} (h : Runs (emitConstant v) s u s') (hs : Steady s) :
    ∃ k, Passes s [] [.constant k] s' ∧ s.context.addConstant? v = some (s'.context, k) := by
  unfold emitConstant at h
  obtain ⟨k, s₁, h₁, h⟩ := runs_bind h
  obtain ⟨p₁, e₁⟩ := runs_addConstant h₁ hs
  obtain ⟨p₂, e₂⟩ := runs_emit h p₁.steady
  exact ⟨k, p₁.trans p₂, e₂ ▸ e₁⟩

theorem runs_nameConstant {name : String} {k : UInt8} (h : Runs (nameConstant name) s k s')
    (hs : Steady s) : Passes s [] [] s' ∧ s.context.textConstant? name = some (s'.context, k) := by
  unfold nameConstant at h
  obtain ⟨r, s₁, h₁, h⟩ := runs_bind h
  obtain ⟨p₁, e₁⟩ := runs_intern h₁ hs
  obtain ⟨p₂, e₂⟩ := runs_addConstant h p₁.steady
  refine ⟨p₁.trans p₂, ?_⟩
  rw [Context.textConstant?, e₁]
  exact e₂

theorem runs_reportFault {fault : Option Fault} (h : Runs (reportFault fault) s u s')
    (hs : s.Sound) : fault = none ∧ s = s' := by
  unfold reportFault at h
  split at h
  next => exact absurd h (not_runs_report hs)
  next =>
    obtain ⟨-, rfl, -⟩ := runs_pure.1 h
    exact ⟨rfl, rfl⟩

def Resolution.bare (r : Resolution) : Resolution :=
  { r with draft := r.draft.bare, enclosing := r.enclosing.map Draft.bare }

theorem Draft.addCapture_bare (d : Draft) (c : Capture) :
    d.bare.addCapture c = ((d.addCapture c).1.bare, (d.addCapture c).2) := by
  have captures : d.bare.captures = d.captures := rfl
  unfold addCapture
  rw [captures]
  cases d.captures.findIdx? (· == c) with
  | some i => rfl
  | none => simp only; split <;> rfl

theorem Draft.octets_addCapture (d : Draft) (c : Capture) :
    (d.addCapture c).1.octets = d.octets := by
  unfold addCapture
  cases d.captures.findIdx? (· == c) with
  | some i => rfl
  | none => simp only; split <;> rfl

theorem Draft.bare_makeReadable (d : Draft) : d.makeReadable.bare = d.bare.makeReadable := by
  obtain ⟨kind, name, arity, chunk, locals, captures, depth⟩ := d
  cases locals <;> rfl

theorem Draft.octets_makeReadable (d : Draft) : d.makeReadable.octets = d.octets := by
  unfold makeReadable
  split <;> rfl

theorem resolveUpvalue_bare {name : String} {ds : List Draft} :
    ∀ {d : Draft}, resolveUpvalue name d.bare (ds.map Draft.bare) =
      (resolveUpvalue name d ds).map Resolution.bare := by
  induction ds with
  | nil => exact rfl
  | cons o ds ih =>
    intro d
    have find : o.bare.findLocal? name = o.findLocal? name := rfl
    simp only [List.map_cons, resolveUpvalue, find]
    cases o.findLocal? name with
    | some found =>
      simp only [Draft.addCapture_bare]
      rfl
    | none =>
      simp only [ih]
      cases resolveUpvalue name o ds with
      | none => rfl
      | some r => simp [Draft.addCapture_bare, Resolution.bare]

/-- Captures leave the octets of all functions alone. -/
theorem octets_resolveUpvalue {name : String} {ds : List Draft} :
    ∀ {d : Draft} {r : Resolution}, resolveUpvalue name d ds = some r →
      r.draft.octets = d.octets ∧ r.enclosing.map Draft.octets = ds.map Draft.octets := by
  induction ds with
  | nil => intro d r h; cases h
  | cons o ds ih =>
    intro d r h
    simp only [resolveUpvalue] at h
    split at h
    next =>
      cases h
      exact ⟨Draft.octets_addCapture _ _, rfl⟩
    next =>
      split at h
      next => cases h
      next r' hr =>
        obtain ⟨hd, hds⟩ := ih hr
        cases h
        exact ⟨Draft.octets_addCapture _ _, by simp [hd, hds]⟩

/-- A variable is a local one, one of an enclosing function, or a global one. -/
theorem runs_resolve_cases {name : String} {p : Place} (h : Runs (resolve name) s p s')
    (hs : s.Sound) :
    (∃ slot l, s.draft.findLocal? name = some (slot, l) ∧ l.depth.isSome ∧
      p = ⟨.getLocal slot.toUInt8, .setLocal slot.toUInt8⟩ ∧ s = s') ∨
    (s.draft.findLocal? name = none ∧ ∃ r, resolveUpvalue name s.draft s.enclosing = some r ∧
      r.fault = none ∧ p = ⟨.getUpvalue r.index, .setUpvalue r.index⟩ ∧
      { s with draft := r.draft, enclosing := r.enclosing } = s') ∨
    (s.draft.findLocal? name = none ∧ resolveUpvalue name s.draft s.enclosing = none ∧
      ∃ k, Runs (nameConstant name) s k s' ∧ p = ⟨.getGlobal k, .setGlobal k⟩) := by
  unfold resolve at h
  rw [runs_get_bind] at h
  cases hf : s.draft.findLocal? name with
  | some found =>
    obtain ⟨slot, l⟩ := found
    simp only [hf] at h
    obtain ⟨_, s₁, h₁, h⟩ := runs_bind h
    obtain ⟨hl, rfl⟩ := runs_reportFault h₁ hs
    obtain ⟨rfl, rfl, -⟩ := runs_pure.1 h
    have readable : l.depth.isSome := by
      simpa [readFault, Option.isNone_iff_eq_none, ← Option.isSome_iff_ne_none] using hl
    exact .inl ⟨slot, l, rfl, readable, rfl, rfl⟩
  | none =>
    simp only [hf] at h
    cases hr : resolveUpvalue name s.draft s.enclosing with
    | some r =>
      simp only [hr] at h
      obtain ⟨_, s₁, h₁, h⟩ := runs_bind h
      obtain ⟨rfl, -⟩ := runs_modify.1 h₁
      obtain ⟨_, s₁, h₁, h⟩ := runs_bind h
      obtain ⟨none, rfl⟩ := runs_reportFault h₁ hs
      obtain ⟨rfl, rfl, -⟩ := runs_pure.1 h
      exact .inr (.inl ⟨rfl, r, rfl, none, rfl, rfl⟩)
    | none =>
      simp only [hr] at h
      obtain ⟨k, s₁, h₁, h⟩ := runs_bind h
      obtain ⟨rfl, rfl, -⟩ := runs_pure.1 h
      exact .inr (.inr ⟨rfl, rfl, k, h₁, rfl⟩)

theorem runs_resolve {name : String} {p : Place} (h : Runs (resolve name) s p s')
    (hs : Steady s) : Passes s [] [] s' ∧ s.context.resolve? name = some (s'.context, p) := by
  have find : s.draft.bare.findLocal? name = s.draft.findLocal? name := rfl
  simp only [Context.resolve?, State.context, find, resolveUpvalue_bare]
  obtain ⟨slot, l, hf, readable, rfl, rfl⟩ | ⟨hf, r, hr, none, rfl, rfl⟩ | ⟨hf, hr, k, hk, rfl⟩ :=
    runs_resolve_cases h hs.sound
  · exact ⟨.refl hs, by simp [hf, readable]⟩
  · obtain ⟨code, enclosing⟩ := octets_resolveUpvalue hr
    obtain ⟨hcode, hlines⟩ := Prod.mk.inj code
    exact ⟨⟨⟨hs.errors, hs.calm, hs.tokens, by simpa [hcode, hlines] using hs.lines⟩, rfl, rfl,
      by simp [hcode], enclosing⟩, by simp [hf, hr, Resolution.bare, none]⟩
  · obtain ⟨p, e⟩ := runs_nameConstant hk hs
    exact ⟨p, by simpa [hf, hr, State.context] using e⟩

end Naming

section Declaring

variable {s s' : State} {u : Unit}

/-- Everything about the innermost function may change except its octets. -/
theorem Passes.ofDraft (hs : Steady s) {d : Draft} (hd : d.octets = s.draft.octets) :
    Passes s [] [] { s with draft := d } := by
  obtain ⟨hcode, hlines⟩ := Prod.mk.inj hd
  exact ⟨⟨hs.errors, hs.calm, hs.tokens, by simpa [hcode, hlines] using hs.lines⟩, rfl, rfl,
    by simp [hcode], rfl⟩

theorem runs_depth_bind {β : Type} {f : Nat → Compiler β} {b : β} :
    Runs (depth >>= f) s b s' ↔ Runs (f s.draft.depth) s b s' := Iff.rfl

theorem runs_declareVariable (h : Runs declareVariable s u s') (hs : Steady s) :
    Passes s [] [] s' ∧
      if 0 < s.draft.depth then s.context.addLocal? s.previous.lexeme = some s'.context
      else s = s' := by
  unfold declareVariable at h
  rw [runs_depth_bind] at h
  split at h
  next hd =>
    rw [if_pos hd]
    rw [runs_get_bind] at h
    simp only at h
    split at h
    next =>
      obtain ⟨_, s₁, h₁, -⟩ := runs_bind h
      exact absurd h₁ (not_runs_report hs.sound)
    next fresh =>
      unfold addLocal at h
      rw [runs_get_bind] at h
      split at h
      next room =>
        obtain ⟨rfl, -⟩ := runs_modify.1 h
        refine ⟨.ofDraft hs rfl, ?_⟩
        have room : s.context.draft.declares s.previous.lexeme = false ∧
            s.context.draft.locals.length < slotLimit := ⟨eq_false_of_ne_true fresh, room⟩
        rw [Context.addLocal?, if_pos room]
        rfl
      next => exact absurd h (not_runs_report hs.sound)
  next hd =>
    obtain ⟨-, rfl, -⟩ := runs_pure.1 h
    rw [if_neg hd]
    exact ⟨.refl hs, rfl⟩

theorem runs_newVariable {what : Expectation} {k : UInt8} (h : Runs (newVariable what) s k s')
    (hs : Steady s) : s.current.kind = .identifier ∧ Passes s [s.current] [] s' ∧
      s.context.newVariable? s.current.lexeme = some (s'.context, k) := by
  unfold newVariable at h
  obtain ⟨_, s₁, h₁, h⟩ := runs_bind h
  obtain ⟨hk, p₁, e₁⟩ := runs_consume h₁ hs (by simp)
  have previous : s₁.previous = s.current := by simpa using p₁.previous
  obtain ⟨_, s₂, h₂, h⟩ := runs_bind h
  obtain ⟨p₂, e₂⟩ := runs_declareVariable h₂ p₁.steady
  have depth : s₁.draft.depth = s.context.draft.depth := congrArg (·.draft.depth) e₁
  rw [runs_depth_bind] at h
  refine ⟨hk, ?_⟩
  rw [previous, e₁] at e₂
  by_cases hd : 0 < s.context.draft.depth
  · rw [if_pos (depth ▸ hd)] at e₂
    have hd₂ : 0 < s₂.context.draft.depth := Context.depth_addLocal? e₂ ▸ hd
    rw [if_pos (show 0 < s₂.draft.depth from hd₂)] at h
    obtain ⟨rfl, rfl, -⟩ := runs_pure.1 h
    exact ⟨p₁.trans p₂, by rw [Context.newVariable?, if_pos hd, e₂]; rfl⟩
  · rw [if_neg (depth ▸ hd)] at e₂
    subst e₂
    rw [if_neg (depth ▸ hd), runs_get_bind, previous] at h
    obtain ⟨p₃, e₃⟩ := runs_nameConstant h p₁.steady
    exact ⟨p₁.trans p₃, by rw [Context.newVariable?, if_neg hd, ← e₃, e₁]⟩

theorem runs_makeReadable (h : Runs makeReadable s u s') (hs : Steady s) :
    Passes s [] [] s' ∧ s'.context = s.context.makeReadable := by
  unfold makeReadable at h
  rw [runs_depth_bind] at h
  split at h
  next hd =>
    obtain ⟨rfl, -⟩ := runs_modify.1 h
    refine ⟨.ofDraft hs s.draft.octets_makeReadable, ?_⟩
    rw [Context.makeReadable, if_pos (show 0 < s.context.draft.depth from hd)]
    simp only [State.context, Draft.bare_makeReadable]
  next hd =>
    obtain ⟨-, rfl, -⟩ := runs_pure.1 h
    rw [Context.makeReadable, if_neg (show ¬0 < s.context.draft.depth from hd)]
    exact ⟨.refl hs, rfl⟩

theorem runs_defineVariable {k : UInt8} (h : Runs (defineVariable k) s u s') (hs : Steady s) :
    Passes s [] (s.context.definition k) s' ∧ s'.context = s.context.makeReadable := by
  unfold defineVariable at h
  rw [runs_depth_bind] at h
  split at h
  next hd =>
    rw [Context.definition, if_pos (show 0 < s.context.draft.depth from hd)]
    exact runs_makeReadable h hs
  next hd =>
    have hd : ¬0 < s.context.draft.depth := hd
    rw [Context.definition, if_neg hd, Context.makeReadable, if_neg hd]
    exact runs_emit h hs

theorem runs_openScope (h : Runs openScope s u s') (hs : Steady s) :
    Passes s [] [] s' ∧ s'.context = s.context.openScope := by
  obtain ⟨rfl, -⟩ := runs_modify.1 h
  exact ⟨.ofDraft hs rfl, rfl⟩

theorem dropLocals_passes (ls : List Local) : ∀ {s : State}, Steady s →
    let within := Draft.declaredWithin (s.draft.depth + 1)
    Passes s [] ((ls.takeWhile within).map fun l => if l.captured then .closeUpvalue else .pop)
        (s.dropLocals ls) ∧
      (s.dropLocals ls).context =
        { s.context with draft := { s.context.draft with locals := ls.dropWhile within } } := by
  induction ls with
  | nil => exact fun hs => ⟨.ofDraft hs rfl, rfl⟩
  | cons l ls ih =>
    intro s hs
    unfold State.dropLocals
    split
    next hl =>
      have p₁ := hs.emit (if l.captured then .closeUpvalue else .pop)
      obtain ⟨p₂, e₂⟩ := ih p₁.steady
      have depth : (s.emit (if l.captured then .closeUpvalue else .pop)).draft.depth =
        s.draft.depth := rfl
      simp only [depth] at p₂ e₂
      simp only [List.takeWhile_cons, List.dropWhile_cons, hl, if_true, List.map_cons]
      exact ⟨p₁.trans p₂, e₂⟩
    next hl =>
      simp only [List.takeWhile_cons, List.dropWhile_cons, hl]
      exact ⟨.ofDraft hs rfl, rfl⟩

theorem runs_closeScope (h : Runs closeScope s u s') (hs : Steady s) :
    Passes s [] s.context.scopeCode s' ∧ s'.context = s.context.closeScope := by
  obtain ⟨rfl, -⟩ := runs_modify.1 h
  have p := Passes.ofDraft hs (d := { s.draft with depth := s.draft.depth - 1 }) rfl
  obtain ⟨q, e⟩ := dropLocals_passes s.draft.locals p.steady
  exact ⟨p.trans q, e⟩

end Declaring

end Compile
end StackScript
