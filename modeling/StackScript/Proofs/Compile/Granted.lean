import StackScript.Proofs.Compile.Needs
import StackScript.Proofs.Compile.Valid

/-!
# StackScript.Proofs.Compile.Granted

The steps that productions are made of, where there is nothing to report.

* `Clean`: a state without errors, in front of tokens that are no faults of the source text.
* `Quiet`: a computation that never reports anything.
* `Context.Room`: the functions around can take some more needs.
* `granted_resolve`, `granted_newVariable`, ...: what a step asks for to end without an error.
-/

namespace StackScript

/-- Not a fault of the source text. -/
def Token.Faultless (t : Token) : Prop := ∀ fault, t.kind ≠ .fault fault

namespace Compile

open Syntax Instruction

structure Clean (s : State) : Prop where
  steady : Steady s
  faultless : ∀ t ∈ s.current :: s.rest, t.Faultless

theorem Passes.clean {s s' : State} {ts : List Token} {is : List Instruction}
    (p : Passes s ts is s') (hs : Clean s) : Clean s' :=
  ⟨p.steady, fun t ht => hs.faultless t (p.tokens ▸ List.mem_append_right ts ht)⟩

/-- A computation that reports nothing. -/
class Quiet {α : Type} (x : Compiler α) : Prop where
  errors : ∀ {s a s'}, x s = some (a, s') → s'.errors = s.errors

section Quiet

variable {α β : Type}

theorem Quiet.runs {x : Compiler α} [Quiet x] {s s' : State} {a : α} (h : x s = some (a, s'))
    (hs : Steady s) : Runs x s a s' :=
  ⟨h, (Quiet.errors h).trans hs.errors⟩

theorem Quiet.modify {f : State → State} (hf : ∀ s, (f s).errors = s.errors) :
    Quiet (modify f : Compiler Unit) where
  errors h := by cases h; exact hf _

theorem Quiet.modifyGet {f : State → α × State} (hf : ∀ s, (f s).2.errors = s.errors) :
    Quiet (modifyGet f : Compiler α) where
  errors {s} _ _ h := by
    have e : f s = _ := Option.some.inj h
    rw [← hf s, e]

instance (a : α) : Quiet (pure a : Compiler α) where
  errors h := by cases h; rfl

instance : Quiet (get : Compiler State) where
  errors h := by cases h; rfl

instance {x : Compiler α} {f : α → Compiler β} [Quiet x] [∀ a, Quiet (f a)] :
    Quiet (x >>= f) where
  errors h := by
    obtain ⟨a, s₁, hx, hf⟩ := bind_eq_some.1 h
    exact (Quiet.errors hf).trans (Quiet.errors hx)

instance {p : Prop} [Decidable p] {x y : Compiler α} [Quiet x] [Quiet y] :
    Quiet (if p then x else y) := by
  split <;> infer_instance

instance (k : TokenKind) : Quiet (check k) := by unfold check; infer_instance

instance (i : Instruction) : Quiet (emit i) := .modify fun _ => rfl

instance (is : List Instruction) : Quiet (emitAll is) := by
  induction is with
  | nil => unfold emitAll; infer_instance
  | cons i is ih => unfold emitAll; infer_instance

instance : Quiet emitReturn := by unfold emitReturn; infer_instance

instance : Quiet here := by unfold here; infer_instance

instance (jump : UInt16 → Instruction) : Quiet (emitJump jump) := by
  unfold emitJump; infer_instance

instance (text : String) : Quiet (intern text) := .modifyGet fun _ => rfl

instance (o : Object) : Quiet (allocate o) := .modifyGet fun _ => rfl

instance : Quiet depth := by unfold depth; infer_instance

instance : Quiet openScope := .modify fun _ => rfl

theorem errors_dropLocals (ls : List Local) : ∀ {s : State}, (s.dropLocals ls).errors = s.errors := by
  induction ls with
  | nil => exact rfl
  | cons l ls ih =>
    intro s
    unfold State.dropLocals
    split
    · exact ih
    · rfl

instance : Quiet closeScope := .modify fun _ => errors_dropLocals _

instance : Quiet makeReadable := by
  have : Quiet (modify fun s : State => { s with draft := s.draft.makeReadable }) :=
    .modify fun _ => rfl
  unfold makeReadable; infer_instance

instance (global : UInt8) : Quiet (defineVariable global) := by
  unfold defineVariable; infer_instance

instance : Quiet endFunction := by
  unfold endFunction
  have : Quiet (modifyGet fun s : State =>
      let f := s.draft.finish
      let summaries := s.summaries.push (.of s.heap f)
      let (draft, enclosing) := match s.enclosing with
        | [] => (.new .script none, [])
        | d :: ds => (d, ds)
      ((f, s.draft.captures), { s with draft, enclosing, summaries })) := by
    refine .modifyGet fun s => ?_
    cases s.enclosing <;> rfl
  infer_instance

end Quiet

section Monad

variable {β : Type} {s : State}

theorem here_bind {f : Nat → Compiler β} : (here >>= f) s = f s.draft.chunk.code.size s := rfl

theorem depth_bind {f : Nat → Compiler β} : (depth >>= f) s = f s.draft.depth s := rfl

end Monad

section Reading

variable {s s' : State} {u : Unit} {k : TokenKind}

theorem take_cons {t : Token} {ts : List Token} (ht : t.Faultless) :
    s.take (t :: ts) = { s with current := t, rest := ts } := by
  unfold State.take
  split
  next fault hf => exact absurd hf (ht fault)
  next => rfl

theorem granted_advance (h : advance s = some (u, s')) (hs : Clean s)
    (hk : s.current.kind ≠ .eof) : Runs advance s u s' := by
  refine ⟨h, ?_⟩
  cases h
  obtain ⟨t, ts, rest⟩ := List.exists_cons_of_ne_nil (hs.steady.tokens.tail hk).ne_nil
  have faultless : t.Faultless := hs.faultless t (by rw [rest]; simp)
  have e : s.advance = { s with previous := s.current, current := t, rest := ts } := by
    rw [State.advance, rest]
    exact take_cons faultless
  rw [e]
  exact hs.steady.errors

theorem granted_accept {b : Bool} (h : accept k s = some (b, s')) (hs : Clean s) (hk : k ≠ .eof) :
    Runs (accept k) s b s' := by
  refine ⟨h, ?_⟩
  unfold accept at h
  obtain ⟨c, s₁, h₁, h⟩ := bind_eq_some.1 h
  obtain ⟨rfl, rfl⟩ := runs_check (Quiet.runs h₁ hs.steady)
  split at h
  next heq =>
    obtain ⟨_, s₂, h₂, h⟩ := bind_eq_some.1 h
    cases h
    have heq : s.current.kind = k := by simpa using heq
    exact (granted_advance h₂ hs (heq ▸ hk)).2
  next =>
    cases h
    exact hs.steady.errors

theorem granted_consume {what : Expectation} (h : consume k what s = some (u, s')) (hs : Clean s)
    (hk : k ≠ .eof) (next : s.current.kind = k) : Runs (consume k what) s u s' := by
  refine ⟨h, ?_⟩
  unfold consume at h
  obtain ⟨b, s₁, h₁, h⟩ := bind_eq_some.1 h
  have r₁ := granted_accept h₁ hs hk
  obtain ⟨rfl, -⟩ | ⟨-, ne, -⟩ := runs_accept r₁ hs.steady hk
  · cases h
    exact r₁.2
  · exact absurd next ne

end Reading

section Jumping

variable {s s' : State} {u : Unit} {n : Nat}

/-- A jump lands if what was emitted behind it is short enough. -/
theorem granted_landJump {s₁ : State} {ts : List Token} {is₀ is : List Instruction}
    {jump : UInt16 → Instruction} {d : UInt16} (h : landJump n s₁ = some (u, s'))
    (hp : Passes s ts (is₀ ++ jump d :: is) s₁) (hd : (jump d).size = 3)
    (hn : s.draft.chunk.code.size + width is₀ = n) (short : width is ≤ jumpLimit) :
    Runs (landJump n) s₁ u s' := by
  refine ⟨h, ?_⟩
  have distance : s₁.draft.chunk.code.size - (n + 3) = width is := by
    rw [hp.size, width_append, width_cons, hd]
    omega
  rw [landJump, here_bind, distance, if_pos short] at h
  cases h
  exact hp.steady.errors

theorem granted_emitBackJump (h : emitBackJump n s = some (u, s')) (hs : Steady s)
    (fits : s.draft.chunk.code.size + 3 - n ≤ jumpLimit) : Runs (emitBackJump n) s u s' := by
  refine ⟨h, ?_⟩
  rw [emitBackJump, here_bind, if_pos fits] at h
  cases h
  exact hs.errors

end Jumping

/-- A variable that is found in a function around is declared there. -/
theorem lookup_resolveUpvalue {name : String} {ds : List Draft} :
    ∀ {d : Draft} {r : Resolution}, resolveUpvalue name d ds = some r → d.Chained ds →
      (lookup name (ds.map Draft.names)).isSome := by
  induction ds with
  | nil => exact fun h => by cases h
  | cons o ds ih =>
    intro d r h hc
    rw [List.map_cons, lookup, Draft.names]
    simp only [resolveUpvalue] at h
    split at h
    next slot l hl =>
      obtain ⟨k, hk, -⟩ := hc.2.1 l (Draft.mem_of_findIn hl)
      rw [slotIn_readable hl (Option.isSome_of_eq_some hk)]
      rfl
    next hl =>
      split at h
      next => cases h
      next r' hr =>
        rw [slotIn_readable_none hl]
        simpa using ih hr hc.2.2

namespace Context

variable {c c' : Context} {ns ms : List Need} {H : Heap}

/-- The functions around can take some more needs. -/
def Room (c : Context) (ns : List Need) : Prop :=
  ∃ needs, c.Tracked needs ∧ Roomy (tally ns needs)

theorem Room.front (h : c.Room (ns ++ ms)) : c.Room ns := by
  obtain ⟨needs, t, roomy⟩ := h
  exact ⟨needs, t, roomy.front⟩

/-- What is left of the room behind code that takes some of it. -/
theorem Room.behind (h : c.Room (ns ++ ms))
    (taken : ∀ {needs}, c.Tracked needs → c'.Tracked (tally ns needs)) : c'.Room ms := by
  obtain ⟨needs, t, roomy⟩ := h
  exact ⟨_, taken t, by rwa [tally_tally]⟩

theorem Room.addConstant? {n : Need} {v : Value} (h : c.Room [n]) (hs : H.Sound)
    (ext : c.heap.Extends H) (hc : n.isConstant = true) (hn : n ≠ .function)
    (hv : Stands c.heap n v) : (c.addConstant? v).isSome := by
  obtain ⟨needs, t, roomy⟩ := h
  obtain ⟨ns, outer, rfl⟩ := t.cons
  obtain ⟨p, hp⟩ := t.constant_room hc (fun m w hw => hw.beq hs ext hv hn) roomy
  rw [Context.addConstant?, hp]
  rfl

theorem Room.textConstant? {text : String} (h : c.Room [.text text]) (hs : H.Sound)
    (fits : H.size ≤ UInt32.size) (ext : (c.intern text).1.heap.Extends H) :
    (c.textConstant? text).isSome := by
  obtain ⟨needs, t, roomy⟩ := h
  exact Room.addConstant? ⟨needs, t.intern text, roomy⟩ hs ext rfl nofun (stands_intern fits ext)

/-- A variable of a function around finds room in all functions that hand it down. -/
theorem Room.resolveUpvalue {name : String} {r : Resolution} (h : c.Room [c.scopes.need name])
    (hp : c.Proper) (hl : c.draft.findLocal? name = none)
    (hr : resolveUpvalue name c.draft c.enclosing = some r) : r.fault = none := by
  obtain ⟨needs, t, roomy⟩ := h
  obtain ⟨ns, outer, rfl⟩ := t.cons
  obtain ⟨⟨levels, slot⟩, look⟩ := Option.isSome_iff_exists.1 (lookup_resolveUpvalue hr hp.chained)
  rw [need_upvalue hl look] at roomy
  exact (resolveUpvalue_tracked hr hp.enclosing hp.chained look t).1 roomy

end Context

section Naming

variable {s s' : State} {u : Unit} {k : UInt8} {H : Heap}

theorem Chunk.addConstant?_isSome {c : Chunk} {v : Value}
    (h : (Chunk.addConstant? { c with code := #[], lines := #[] } v).isSome) :
    (c.addConstant? v).isSome := by
  unfold Chunk.addConstant? at h ⊢
  split
  next i hi =>
    simp only [hi] at h
    split at h
    next hlt => rw [if_pos hlt]; rfl
    next => cases h
  next hi =>
    simp only [hi] at h
    split at h
    next hlt => rw [if_pos hlt]; rfl
    next => cases h

theorem granted_addConstant {v : Value} (h : addConstant v s = some (k, s'))
    (hs : s.errors = #[]) (room : (s.context.addConstant? v).isSome) : Runs (addConstant v) s k s' := by
  refine ⟨h, ?_⟩
  have room : (s.draft.chunk.addConstant? v).isSome := by
    rw [Context.addConstant?, Option.isSome_map] at room
    exact Chunk.addConstant?_isSome room
  obtain ⟨⟨chunk, i⟩, hc⟩ := Option.isSome_iff_exists.1 room
  rw [addConstant, get_bind] at h
  simp only [hc] at h
  cases h
  exact hs

theorem granted_emitConstant {v : Value} (h : emitConstant v s = some (u, s')) (hs : Steady s)
    (room : (s.context.addConstant? v).isSome) : Runs (emitConstant v) s u s' := by
  refine ⟨h, ?_⟩
  obtain ⟨k, s₁, h₁, h₂⟩ := bind_eq_some.1 h
  obtain ⟨p₁, -⟩ := runs_addConstant (granted_addConstant h₁ hs.errors room) hs
  exact (Quiet.runs h₂ p₁.steady).2

/-- The heap behind a step is part of the one in the end. -/
theorem heap_behind {α : Type} {x : Compiler α} [Keeps x] {a : α} (h : x s = some (a, s'))
    (ext : s'.heap.Extends H) : s.heap.Extends H :=
  (Keeps.later h).heap.extends.trans ext

variable (hH : H.Sound) (fits : H.size ≤ UInt32.size)
include hH fits

theorem granted_nameConstant {name : String} (h : nameConstant name s = some (k, s'))
    (hs : Steady s) (room : s.context.Room [.text name]) (ext : s'.heap.Extends H) :
    Runs (nameConstant name) s k s' := by
  refine ⟨h, ?_⟩
  obtain ⟨r, s₁, h₁, h₂⟩ := bind_eq_some.1 h
  obtain ⟨p₁, e₁⟩ := runs_intern (Quiet.runs h₁ hs) hs
  have found := room.textConstant? hH fits (by rw [e₁]; exact heap_behind h₂ ext)
  rw [Context.textConstant?, e₁] at found
  exact (granted_addConstant h₂ p₁.steady.errors found).2

theorem granted_resolve {name : String} {p : Place} (h : resolve name s = some (p, s'))
    (hs : Steady s) (hp : s.context.Proper) (clear : s.context.Clear name)
    (room : s.context.Room [s.context.scopes.need name]) (ext : s'.heap.Extends H) :
    Runs (resolve name) s p s' := by
  refine ⟨h, ?_⟩
  have find : s.context.draft.findLocal? name = s.draft.findLocal? name := rfl
  rw [resolve, get_bind] at h
  cases hl : s.draft.findLocal? name with
  | some found =>
    obtain ⟨slot, l⟩ := found
    have readable : readFault l = none := by
      have : l.depth.isSome := clear l.depth (by rw [find, hl]; rfl)
      obtain ⟨k, hk⟩ := Option.isSome_iff_exists.1 this
      simp [readFault, hk]
    simp only [hl, readable] at h
    cases h
    exact hs.errors
  | none =>
    have outer : resolveUpvalue name s.context.draft s.context.enclosing =
      (resolveUpvalue name s.draft s.enclosing).map Resolution.bare := resolveUpvalue_bare
    simp only [hl] at h
    cases hr : resolveUpvalue name s.draft s.enclosing with
    | some r =>
      rw [hr] at outer
      have fault : r.fault = none := room.resolveUpvalue (r := r.bare) hp hl outer
      simp only [hr, fault] at h
      cases h
      exact hs.errors
    | none =>
      rw [hr] at outer
      simp only [hr] at h
      obtain ⟨k, s₁, h₁, h⟩ := bind_eq_some.1 h
      cases h
      rw [Context.need_global hl outer] at room
      exact (granted_nameConstant hH fits h₁ hs room ext).2

omit hH fits in
theorem granted_declareVariable (h : declareVariable s = some (u, s')) (hs : Steady s)
    (room : 0 < s.draft.depth → (s.context.addLocal? s.previous.lexeme).isSome) :
    Runs declareVariable s u s' := by
  refine ⟨h, ?_⟩
  rw [declareVariable, depth_bind] at h
  split at h
  next hd =>
    obtain ⟨fresh, slot⟩ : s.draft.declares s.previous.lexeme = false ∧
        s.draft.locals.length < slotLimit := by
      have := room hd
      unfold Context.addLocal? at this
      split at this
      next h => exact h
      next => cases this
    rw [get_bind] at h
    dsimp only at h
    rw [if_neg (by simp [fresh]), addLocal, get_bind, if_pos slot] at h
    cases h
    exact hs.errors
  next =>
    cases h
    exact hs.errors

/-- A local variable is declared if its scope takes it, a global one if the pool takes its name. -/
theorem granted_newVariable {what : Expectation} (h : newVariable what s = some (k, s'))
    (hs : Clean s) (hk : s.current.kind = .identifier)
    (inner : 0 < s.draft.depth → (s.context.addLocal? s.current.lexeme).isSome)
    (top : ¬0 < s.draft.depth → s.context.Room [.text s.current.lexeme])
    (ext : s'.heap.Extends H) : Runs (newVariable what) s k s' := by
  refine ⟨h, ?_⟩
  obtain ⟨_, s₁, h₁, h⟩ := bind_eq_some.1 h
  obtain ⟨-, p₁, e₁⟩ := runs_consume (granted_consume h₁ hs (by simp) hk) hs.steady (by simp)
  have previous : s₁.previous = s.current := p₁.previous
  have depth : s₁.draft.depth = s.draft.depth := congrArg (·.draft.depth) e₁
  rw [← e₁] at inner top
  obtain ⟨_, s₂, h₂, h⟩ := bind_eq_some.1 h
  have r₂ := granted_declareVariable h₂ p₁.steady (by rwa [previous, depth])
  obtain ⟨p₂, e₂⟩ := runs_declareVariable r₂ p₁.steady
  rw [depth_bind] at h
  split at h
  next =>
    cases h
    exact r₂.2
  next hd₂ =>
    have hd : ¬0 < s₁.draft.depth := by
      intro hd
      rw [if_pos hd] at e₂
      exact hd₂ (Context.depth_addLocal? e₂ ▸ hd : 0 < s₂.context.draft.depth)
    rw [if_neg hd] at e₂
    subst e₂
    rw [get_bind, previous] at h
    exact (granted_nameConstant hH fits h p₁.steady (top (depth ▸ hd)) ext).2

end Naming

end Compile
end StackScript
