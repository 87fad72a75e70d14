import StackScript.Proofs.Compile.Body
import StackScript.Proofs.Compile.Dispatch
import StackScript.Proofs.Compile.Replay
import StackScript.Proofs.Compile.Rooted
import StackScript.Proofs.Compile.Unique

/-!
# StackScript.Proofs.Compile.Splice

Sources in front of other sources.

* `Fresh`: computations that do not look at the token that was read last. Declarations are.
* `replay_declarations`: two compilers, up to the end of the source of the near one.
* `Draft.Top`: the draft of a script between two of its declarations. `AtTop`: a compiler there.
* `Function.Leads`: a function that goes on where another one ends.
* `splice`: a source that is compiled alone, and in the middle of another one.
-/

namespace StackScript
namespace Compile

open Syntax Instruction

/-- A computation that does not look at the token that was read last. -/
def Fresh {α : Type} (x : Compiler α) : Prop :=
  ∀ (s : State) (previous : Token), x { s with previous } = x s

section Fresh

variable {α β : Type} {k : TokenKind}

theorem fresh_outOfFuel : Fresh (outOfFuel : Compiler α) := fun _ _ => rfl

theorem fresh_advance : Fresh advance := fun _ _ => rfl

theorem Fresh.bind {x : Compiler α} (h : Fresh x) (f : α → Compiler β) : Fresh (x >>= f) :=
  fun s previous => by simp only [Bind.bind, StateT.bind, h s previous]

theorem fresh_accept {f : Bool → Compiler α} (h : Fresh (f false)) : Fresh (accept k >>= f) :=
  fun s previous => by
    rw [accept_bind, accept_bind]
    split
    · exact fresh_advance.bind _ s previous
    · exact h s previous

theorem fresh_expression (n : Nat) : Fresh (expression n) := by
  unfold expression
  match n with
  | 0 => exact fresh_outOfFuel
  | 1 =>
    simp only [operand]
    exact fresh_outOfFuel
  | n + 2 =>
    simp only [operand]
    exact fresh_advance.bind _

theorem fresh_statement (n : Nat) : Fresh (statement n) := by
  unfold statement
  cases n with
  | zero => exact fresh_outOfFuel
  | succ n =>
    refine fresh_accept (fresh_accept (fresh_accept (fresh_accept (fresh_accept
      (fresh_accept ?_)))))
    show Fresh (expressionStatement n)
    unfold expressionStatement
    cases n with
    | zero => exact fresh_outOfFuel
    | succ n => exact (fresh_expression n).bind _

theorem fresh_declaration (n : Nat) : Fresh (declaration n) := by
  cases n with
  | zero =>
    unfold declaration
    exact fresh_outOfFuel
  | succ n =>
    rw [declaration_succ]
    exact (fresh_accept (fresh_accept (fresh_statement n))).bind _

theorem fresh_declarations (n : Nat) : Fresh (declarations n) := by
  unfold declarations
  cases n with
  | zero => exact fresh_outOfFuel
  | succ n => exact fresh_accept ((fresh_declaration n).bind _)

end Fresh

theorem declarations_of_end {n : Nat} {s s' : State} {u : Unit} (h : Runs (declarations n) s u s')
    (e : s.AtEnd) : s' = { s with previous := s.current, rest := [] } := by
  cases n with
  | zero => exact absurd h not_runs_outOfFuel
  | succ n =>
    have h := h.1
    rw [declarations, accept_bind, if_pos e.2] at h
    have same : s' = s.advance := (congrArg Prod.snd (Option.some.inj h)).symm
    rw [same, State.advance, e.1]
    rfl

theorem declarations_of_more {n : Nat} {s s' : State} {u : Unit}
    (h : Runs (declarations (n + 1)) s u s') (more : s.current.kind ≠ .eof) :
    ∃ v s₁, Runs (declaration n) s v s₁ ∧ Runs (declarations n) s₁ u s' := by
  have unfolded : Runs (do declaration n; declarations n) s u s' := by
    have e := h.1
    rw [declarations, accept_bind, if_neg more] at e
    exact ⟨e, h.2⟩
  exact runs_bind unfolded

/-- Two compilers, up to the end of the source of the near one. -/
theorem replay_declarations {n : Nat} : ∀ {c : Seam} {w : World} {s t s' t' : State} {n' : Nat}
    {u u' : Unit}, Echo c w s t → Ran (declarations n) (declarations n') s t u u' s' t' →
    ∃ w' s₁ t₁ k, w.Below w' ∧ Echo c w' s₁ t₁ ∧ s₁.AtEnd ∧
      s' = { s₁ with previous := s₁.current, rest := [] } ∧ Runs (declarations k) t₁ u' t' := by
  induction n with
  | zero => exact fun _ ran => absurd ran.near not_runs_outOfFuel
  | succ n ih =>
    intro c w s t s' t' n' u u' e ran
    by_cases ended : s.AtEnd
    · exact ⟨w, s, t, n', .refl w, e, ended, declarations_of_end ran.near ended, ran.far⟩
    · obtain ⟨more, same⟩ := e.current ended
      cases n' with
      | zero => exact absurd ran.far not_runs_outOfFuel
      | succ n' =>
        obtain ⟨v, s₁, near, nears⟩ := declarations_of_more ran.near more
        obtain ⟨v', t₁, far, fars⟩ := declarations_of_more ran.far (same.kind ▸ more)
        obtain ⟨w₁, e₁, onward⟩ := (replaysStatements n).declaration n' e
          ⟨near, far, Rel.room nears.1 ran.room, Rel.room fars.1 ran.room'⟩ nofun
        obtain ⟨w', s₂, t₂, k, below, rest⟩ := ih e₁ ⟨nears, fars, ran.room, ran.room'⟩
        exact ⟨w', s₂, t₂, k, onward.1.trans below, rest⟩

/-- The draft of a script between two of its declarations. -/
structure Draft.Top (d : Draft) : Prop where
  kind : d.kind = .script
  name : d.name = none
  arity : d.arity = 0
  locals : d.locals = [⟨"", some 0, false⟩]
  captures : d.captures = #[]
  depth : d.depth = 0

theorem Draft.top_new : (Draft.new .script none).Top := ⟨rfl, rfl, rfl, rfl, rfl, rfl⟩

/-- The compiler is between two declarations of a script. -/
structure AtTop (s : State) : Prop where
  steady : Steady s
  draft : s.draft.Top
  enclosing : s.enclosing = []
  plain : PlainPool s.draft.chunk.constants

/-- The compiler in front of the first token. -/
def State.opening (t : Token) (ts : List Token) (heap : Heap) : State :=
  { State.new ts heap with current := t }

/-- Scripts keep to themselves: behind their declarations there are no new locals and no captures,
and none of them returns. -/
theorem runs_opening {source : String} {t : Token} {ts : List Token} {heap : Heap} {n : Nat}
    {s : State} {u : Unit} (tokens : Lexical.scan source = t :: ts)
    (hs : Steady (.opening t ts heap)) (h : Runs (declarations n) (.opening t ts heap) u s) :
    s.draft.Top ∧ s.enclosing = [] ∧ ∃ is, s.draft.chunk.code.toList = stream is ∧ Silent is := by
  obtain ⟨us, a, is, s₁, passes, phrase, code, hk, rfl⟩ := runs_declarations h hs
  have rest : s₁.rest = [] := passes.steady.tokens.eq_singleton hk
  have parses : Parses source a := ⟨us, s₁.current, by
    have tokens : Lexical.scan source = us ++ s₁.current :: s₁.rest := tokens.trans passes.tokens
    rwa [rest] at tokens, hk, phrase⟩
  obtain ⟨g, -, outer, captures⟩ := Context.script_extends (h := heap) code
  obtain ⟨l, last, name, captured⟩ := (StmtCode.rooted code parses.named
    (Context.script_proper heap) (Context.script_settled heap) (Context.script_rooted heap)).draft
  obtain ⟨l', ls, raised, tail, locals⟩ := List.forall₂_cons_left_iff.1 g.draft.locals
  cases tail
  have locals : s₁.draft.locals = [l'] := locals
  obtain rfl : l' = l := Option.some.inj ((congrArg List.getLast? locals).symm.trans last)
  refine ⟨⟨g.draft.kind, g.draft.name, g.draft.arity, ?_, captures, g.draft.depth⟩,
    List.map_eq_nil_iff.1 outer, is, passes.code, silent_script code⟩
  obtain ⟨name', depth, -⟩ := raised
  obtain ⟨x, y, z⟩ := l'
  cases name
  cases captured
  cases depth
  exact locals

/-- What a source becomes that compiles. -/
theorem compile_opens {source : String} {heap : Heap} {r : Ref}
    (h : (compile source heap).result = .ok r) : ∃ t ts n s u, Lexical.scan source = t :: ts ∧
      Steady (.opening t ts heap) ∧ Runs (declarations n) (.opening t ts heap) u s ∧
      s.heap.allocate (.function ((s.emit .pushNil).emit .ret).draft.finish) =
        ((compile source heap).heap, r) := by
  unfold compile compileWithin at h ⊢
  dsimp only at h ⊢
  cases hs : script (budget (Lexical.scan source)) (.new (Lexical.scan source) heap) with
  | none => simp [hs] at h
  | some p =>
    obtain ⟨f, s'⟩ := p
    simp only [hs, Option.map_some, Option.getD_some, Compilation.ofState] at h ⊢
    split at h
    next he =>
      have ran : Runs (script _) _ f s' := ⟨hs, by simpa using he⟩
      obtain ⟨_, s₁, h₁, ran⟩ := runs_bind ran
      obtain ⟨e₁, he₁⟩ := runs_modify.1 h₁
      have ends := endsOnce_scan source
      obtain ⟨t, ts, hts, take⟩ := take_faultless (s := { State.new (Lexical.scan source) heap with
        previous := (State.new (Lexical.scan source) heap).current }) rfl he₁ ends.ne_nil
      obtain rfl := take.symm.trans e₁
      obtain ⟨_, s, h₂, ran⟩ := runs_bind ran
      obtain ⟨p, s₃, h₃, ran⟩ := runs_bind ran
      obtain ⟨e, rfl, -⟩ := runs_pure.1 ran
      obtain ⟨rfl, e₃⟩ := runs_endFunction_eq h₃
      refine ⟨t, ts, _, s, _, hts, ⟨rfl, rfl, hts ▸ ends, rfl⟩, h₂, ?_⟩
      have heap : s₃.heap = s.heap := by rw [e₃]
      rw [if_pos he]
      simp only [Except.ok.injEq] at h
      rw [← h, ← heap, ← e]
    next => cases h

end Compile

/-- A function that goes on where another one ends. -/
structure Function.Leads (f g : Function) : Prop where
  name : g.name = f.name
  arity : g.arity = f.arity
  upvalues : g.upvalueCount = f.upvalueCount
  code : ∃ more, g.chunk.code.toList = f.chunk.code.toList ++ more
  lines : ∃ more, g.chunk.lines.toList = f.chunk.lines.toList ++ more
  constants : Within f.chunk.constants g.chunk.constants

theorem Function.Leads.trans {f g h : Function} (l : f.Leads g) (l' : g.Leads h) : f.Leads h := by
  obtain ⟨more, code⟩ := l.code
  obtain ⟨more', code'⟩ := l'.code
  obtain ⟨lines, hl⟩ := l.lines
  obtain ⟨lines', hl'⟩ := l'.lines
  exact ⟨l'.name.trans l.name, l'.arity.trans l.arity, l'.upvalues.trans l.upvalues,
    ⟨more ++ more', by rw [code', code, List.append_assoc]⟩,
    ⟨lines ++ lines', by rw [hl', hl, List.append_assoc]⟩, l.constants.trans l'.constants⟩

namespace Compile

open Syntax Instruction

theorem leads_emit {s : State} (full : s.draft.chunk.lines.size = s.draft.chunk.code.size)
    (i : Instruction) : s.draft.finish.Leads (s.emit i).draft.finish :=
  ⟨rfl, rfl, rfl, ⟨_, Chunk.Echo.code_emit _ _ _⟩, ⟨_, Chunk.Echo.lines_emit full _ _⟩, .refl _⟩

/-- A script that ends. -/
theorem leads_return {s : State} (hs : Steady s) :
    s.draft.finish.Leads ((s.emit .pushNil).emit .ret).draft.finish :=
  (leads_emit hs.lines _).trans (leads_emit (hs.emit .pushNil).steady.lines _)

theorem code_return (s : State) :
    ((s.emit .pushNil).emit .ret).draft.finish.chunk.code.toList =
      s.draft.chunk.code.toList ++ stream [.pushNil, .ret] := by
  show (Chunk.emit (Chunk.emit _ _ _) _ _).code.toList = _
  rw [Chunk.Echo.code_emit, Chunk.Echo.code_emit]
  simp

theorem isScript_return {s : State} {is : List Instruction} (draft : s.draft.Top)
    (code : s.draft.chunk.code.toList = stream is) (silent : Silent is) :
    ((s.emit .pushNil).emit .ret).draft.finish.IsScript :=
  ⟨draft.name, is, by rw [code_return, code]; simp, silent⟩

/-- Drafts that belong together, up to their ends. -/
theorem Draft.Echo.leads {b : Bridge} {shift : Nat} {l : Level} {d d' : Draft} {f g : Function}
    (h : d.Echo b shift l d') (near : d.finish.Leads f) (far : d'.finish.Leads g)
    (ending : f.chunk.code.toList = d.chunk.code.toList ++ stream [.pushNil, .ret]) :
    b.Functions shift l.lead.length (f.chunk.code.size - 2) f g := by
  obtain ⟨is, js, hc, hc', alike, -⟩ := h.chunk.code
  obtain ⟨more, code⟩ := far.code
  obtain ⟨lines, hl⟩ := near.lines
  obtain ⟨lines', hl'⟩ := far.lines
  have octets : d.chunk.code.size = width is := by
    rw [← length_stream, ← hc, Array.length_toList]
  have size : f.chunk.code.size = width is + 2 := by
    rw [← Array.length_toList, ending, List.length_append, Array.length_toList, octets]
    rfl
  rw [size, Nat.add_sub_cancel]
  refine ⟨?_, ?_, ?_, ⟨is, [.pushNil, .ret], js, l.lead, more, ?_, by simp, rfl, ?_, rfl, ?_⟩,
    fun o ho => ?_⟩
  · rw [near.name, far.name]
    exact h.name
  · rw [near.arity, far.arity]
    exact h.arity
  · rw [near.upvalues, far.upvalues]
    exact congrArg Array.size h.captures
  · rw [ending, hc]
    simp
  · rw [code]
    show d'.chunk.code.toList ++ more = _
    rw [hc']
    simp
  · exact alike.imp fun _ _ => .imp fun k k' hk =>
      (Bridge.Below.refl b).constants near.constants far.constants (h.chunk.constants k k' hk)
  · have here : o < d.chunk.lines.toList.length := by
      rw [Array.length_toList, h.chunk.full, octets]
      exact ho
    show g.chunk.lines[l.lead.length + o]? = f.chunk.lines[o]?.map (· + shift)
    rw [← Array.getElem?_toList, ← Array.getElem?_toList, hl, hl']
    show ((d'.chunk.lines.toList ++ lines')[_]? : Option Nat) =
      ((d.chunk.lines.toList ++ lines)[o]?).map _
    rw [h.chunk.lines, List.append_assoc, ← l.full, List.getElem?_append_right (Nat.le_add_right ..),
      Nat.add_sub_cancel_left, List.getElem?_append_left (by rwa [List.length_map]),
      List.getElem?_append_left here, List.getElem?_map]

/-- The token in front of a source, as a compiler sees it some lines further down. -/
def above (shift : Nat) : Token := ⟨.eof, "", ⟨0, Position.start.line + shift⟩⟩

section Splice

variable {c : Seam} {source : String} {near : Heap} {r : Ref} {x : Token} {xs : List Token}
  {t t' : State} {u u' : Unit}

/-- What two compilers know when the near one is in front of a source, and the far one between two
declarations. -/
def World.opening (near : Heap) (top : AtTop t) : World where
  bridge := ⟨fun _ _ => False, near, t.heap⟩
  level :=
    { lead := t.draft.chunk.code.toList
      leadLines := t.draft.chunk.lines.toList
      full := by rw [Array.length_toList, Array.length_toList, top.steady.lines]
      pool := t.draft.chunk.constants
      depth := 0
      jumps := fun _ => False
      constants := fun _ _ => False }
  outer := []

theorem echo_opening (top : AtTop t) (hs : Steady (.opening x xs near))
    (tokens : ∃ us e vs, x :: xs = us ++ [e] ∧ e.kind = .eof ∧
      t.current :: t.rest = vs ++ c.behind ∧ List.Forall₂ (Token.Moved c.shift) us vs)
    (hn : c.near = near.size) (hf : c.far = t.heap.size) :
    Echo c (.opening near top) (.opening x xs near) { t with previous := above c.shift } where
  steady := hs
  steady' := ⟨top.steady.errors, top.steady.calm, top.steady.tokens, top.steady.lines⟩
  near := rfl
  far := rfl
  tokens := tokens
  previous := ⟨rfl, rfl, rfl⟩
  drafts := by
    have draft := top.draft
    show Nest _ _ _ _ (t.draft :: t.enclosing)
    rw [top.enclosing]
    refine .cons ⟨draft.kind, ?_, draft.arity, draft.locals, draft.captures, rfl, draft.depth, ?_⟩
      .nil
    · rw [draft.name]
      exact .none
    · exact ⟨⟨[], [], rfl, (List.append_nil _).symm, .nil, fun _ => False.elim⟩,
        (List.append_nil _).symm, rfl, fun _ _ => False.elim, nofun, top.plain, .refl _⟩
  linked := ⟨Nat.le_of_eq hn, Nat.le_of_eq hf, nofun, nofun, nofun⟩

/-- What comes of a source in the middle of another one, told by what comes of it alone. The far
compiler goes on behind it. -/
structure Spliced (c : Seam) (source : String) (near : Heap) (r : Ref) (t t₁ : State) (b : Bridge)
    (f : Function) : Prop where
  top : AtTop t₁
  tokens : t₁.current :: t₁.rest = c.behind
  near : b.near.allocate (.function f) = ((compile source near).heap, r)
  far : b.far = t₁.heap
  linked : Linked c b
  leads : t.draft.finish.Leads t₁.draft.finish
  script : f.IsScript
  arity : f.arity = 0
  upvalues : f.upvalueCount = 0
  size : t₁.draft.chunk.code.size = t.draft.chunk.code.size + (f.chunk.code.size - 2)
  functions : ∀ g, t₁.draft.finish.Leads g →
    b.Functions c.shift t.draft.chunk.code.size (f.chunk.code.size - 2) f g

theorem splice {n : Nat} (ok : (compile source near).result = .ok r)
    (room : (compile source near).heap.size ≤ UInt32.size) (top : AtTop t)
    (tokens : ∃ us e vs, Lexical.scan source = us ++ [e] ∧ e.kind = .eof ∧
      t.current :: t.rest = vs ++ c.behind ∧ List.Forall₂ (Token.Moved c.shift) us vs)
    (hn : c.near = near.size) (hf : c.far = t.heap.size) (far : Runs (declarations n) t u' t')
    (room' : t'.heap.size ≤ UInt32.size) :
    ∃ t₁ b f k, Spliced c source near r t t₁ b f ∧ Runs (declarations k) t₁ u' t' := by
  obtain ⟨x, xs, m, s, u, scanned, steady, ran, allocated⟩ := compile_opens ok
  obtain ⟨draft, outer, is, code, silent⟩ := runs_opening scanned steady ran
  rw [scanned] at tokens
  have size : s.heap.size ≤ UInt32.size := by
    have grown := (Heap.extends_allocate s.heap
      (.function ((s.emit .pushNil).emit .ret).draft.finish)).size_le
    rw [allocated] at grown
    exact Nat.le_trans grown room
  have far : Runs (declarations n) { t with previous := above c.shift } u' t' :=
    ⟨(fresh_declarations n t _).trans far.1, far.2⟩
  obtain ⟨w, s₁, t₁, k, below, e, ended, rfl, rest⟩ :=
    replay_declarations (echo_opening top steady tokens hn hf) ⟨ran, far, size, room'⟩
  have none : w.outer = [] := List.forall₂_nil_left_iff.1 below.outer
  have drafts := e.drafts
  have outer : s₁.enclosing = [] := outer
  rw [none, outer] at drafts
  have level := below.level
  have echo := drafts.uncons.1
  have enclosing : t₁.enclosing = [] := by
    have tail := drafts.uncons.2
    generalize t₁.enclosing = ds at tail
    cases tail
    rfl
  have name : t₁.draft.name = Option.none := by
    have names := echo.name
    rw [show s₁.draft.name = Option.none from draft.name] at names
    generalize t₁.draft.name = name at names
    cases names
    rfl
  have top₁ : AtTop t₁ := ⟨e.steady', ⟨echo.kind.trans draft.kind, name,
    echo.arity.trans draft.arity, echo.locals.trans draft.locals,
    echo.captures.trans draft.captures, echo.depth'.trans (echo.depth.symm.trans draft.depth)⟩,
    enclosing, echo.chunk.plain'⟩
  have lead : t.draft.finish.Leads t₁.draft.finish := by
    obtain ⟨-, js, -, hc', -⟩ := echo.chunk.code
    rw [level.lead] at hc'
    have lines := echo.chunk.lines
    rw [level.leadLines] at lines
    have grown := echo.chunk.grown
    rw [level.pool] at grown
    refine ⟨name.trans top.draft.name.symm, top₁.draft.arity.trans top.draft.arity.symm, ?_,
      ⟨_, hc'⟩, ⟨_, lines⟩, grown⟩
    exact congrArg Array.size (top₁.draft.captures.trans top.draft.captures.symm)
  have last : Steady { s₁ with previous := s₁.current, rest := [] } :=
    ⟨e.steady.errors, e.steady.calm, ⟨[], s₁.current, rfl, ended.2, nofun⟩, e.steady.lines⟩
  have leads := leads_return last
  have body := code_return { s₁ with previous := s₁.current, rest := [] }
  refine ⟨t₁, w.bridge, _, k, ⟨top₁, e.ended ended, ?_, e.far, e.linked, lead,
    isScript_return draft code silent, leads.arity.trans draft.arity,
      leads.upvalues.trans (congrArg Array.size draft.captures), ?_, fun g hg => ?_⟩, rest⟩
  · rw [e.near]
    exact allocated
  · have size := echo.chunk.size
    rw [level.lead] at size
    have near := congrArg List.length body
    simp only [List.length_append, Array.length_toList] at near
    rw [near, size]
    exact congrArg (_ + ·) (Nat.add_sub_cancel ..).symm
  · have functions := echo.leads leads hg body
    rw [level.lead] at functions
    exact functions

end Splice

/-- What comes of a source, found in the script `g` from an offset on. -/
structure Inside (c : Seam) (source : String) (near : Heap) (r : Ref) (start : Nat) (b : Bridge)
    (f g : Function) : Prop where
  near : b.near.allocate (.function f) = ((compile source near).heap, r)
  linked : Linked c b
  script : f.IsScript
  arity : f.arity = 0
  upvalues : f.upvalueCount = 0
  functions : b.Functions c.shift start (f.chunk.code.size - 2) f g

theorem Spliced.inside {c : Seam} {source : String} {near : Heap} {r : Ref} {t t₁ : State}
    {b : Bridge} {f g : Function} (h : Spliced c source near r t t₁ b f)
    (leads : t₁.draft.finish.Leads g) :
    Inside c source near r t.draft.chunk.code.size b f g :=
  ⟨h.near, h.linked, h.script, h.arity, h.upvalues, h.functions g leads⟩

theorem atTop_opening {x : Token} {xs : List Token} {heap : Heap}
    (hs : Steady (.opening x xs heap)) : AtTop (.opening x xs heap) :=
  ⟨hs, Draft.top_new, rfl, nofun⟩

/-- The far compiler comes to its end, too. -/
theorem Spliced.ends {c : Seam} {source : String} {near : Heap} {r : Ref} {t t₁ t' : State}
    {b : Bridge} {f : Function} {k : Nat} {u : Unit} {v : Token}
    (h : Spliced c source near r t t₁ b f) (behind : c.behind = [v]) (hv : v.kind = .eof)
    (rest : Runs (declarations k) t₁ u t') :
    t'.heap = b.far ∧ t₁.draft.finish.Leads ((t'.emit .pushNil).emit .ret).draft.finish ∧
      ((t'.emit .pushNil).emit .ret).draft.finish.chunk.code.size =
        t₁.draft.chunk.code.size + 2 := by
  have tokens := h.tokens
  rw [behind] at tokens
  obtain ⟨current, none⟩ := List.cons.inj tokens
  have kind : t₁.current.kind = .eof := current ▸ hv
  obtain rfl := declarations_of_end rest ⟨none, kind⟩
  have steady := h.top.steady
  have last : Steady { t₁ with previous := t₁.current, rest := [] } :=
    ⟨steady.errors, steady.calm, ⟨[], t₁.current, rfl, kind, nofun⟩, steady.lines⟩
  refine ⟨h.far.symm, leads_return last, ?_⟩
  have code := congrArg List.length (code_return { t₁ with previous := t₁.current, rest := [] })
  rwa [List.length_append, Array.length_toList, Array.length_toList] at code

/-- A source that is compiled twice. -/
theorem compile_twice {source : String} {heap : Heap} {r : Ref}
    (ok : (compile source heap).result = .ok r)
    (room : (compile source heap).heap.size ≤ UInt32.size) :
    ∃ c b f, c.shift = 0 ∧ c.near = heap.size ∧ c.far = heap.size ∧
      Inside c source heap r 0 b f f ∧
      b.far.allocate (.function f) = ((compile source heap).heap, r) := by
  obtain ⟨x, xs, n, s, u, scanned, steady, ran, allocated⟩ := compile_opens ok
  obtain ⟨us, e, ends, kind, -⟩ := endsOnce_scan source
  have size : s.heap.size ≤ UInt32.size := by
    have grown := (Heap.extends_allocate s.heap
      (.function ((s.emit .pushNil).emit .ret).draft.finish)).size_le
    rw [allocated] at grown
    exact Nat.le_trans grown room
  let c : Seam := ⟨0, [e], by simp [kind], heap.size, heap.size⟩
  obtain ⟨t₁, b, f, k, spliced, rest⟩ := splice (c := c) ok room (atTop_opening steady)
    ⟨us, e, us, ends, kind, scanned.symm.trans ends, forall₂_refl Token.Moved.refl us⟩ rfl rfl ran
    size
  obtain ⟨far, leads, -⟩ := spliced.ends rfl kind rest
  have allocated' := allocated
  rw [far] at allocated'
  have same : ((s.emit .pushNil).emit .ret).draft.finish = f := by
    have found := (Heap.Extends.refl _).function?_allocate (h := s.heap)
      (f := ((s.emit .pushNil).emit .ret).draft.finish) (by rw [allocated]; exact room)
    have found' := (Heap.Extends.refl _).function?_allocate (h := b.near) (f := f)
      (by rw [spliced.near]; exact room)
    rw [allocated] at found
    rw [spliced.near] at found'
    exact Option.some.inj (found.symm.trans found')
  rw [same] at leads allocated'
  exact ⟨c, b, f, rfl, rfl, rfl, spliced.inside leads, allocated'⟩

theorem first_ne_else {source : String} {a : Stmt} (h : Parses source a) :
    ∀ t ∈ (Lexical.scan source).head?, t.kind ≠ .keyword .else := by
  obtain ⟨ts, e, tokens, kind, phrase⟩ := h
  rw [tokens]
  cases phrase with
  | none => simp [kind]
  | more g _ =>
    obtain ⟨t, us, rfl, begins⟩ := StmtPhrase.begins g
    rintro _ ⟨⟩
    exact begins.2.2

/-- Two sources and the one that has both, compiled. -/
structure Halves (a b : String) (heap heap' : Heap) (r r' q : Ref) (c c' : Seam) (β β' : Bridge)
    (f f' g : Function) : Prop where
  shift : c.shift = 0
  near : c.near = heap.size
  far : c.far = heap.size
  shift' : c'.shift = lineCount a
  near' : c'.near = heap'.size
  far' : c'.far = β.far.size
  first : Inside c a heap r 0 β f g
  second : Inside c' b heap' r' (f.chunk.code.size - 2) β' f' g
  script : g.IsScript
  size : g.chunk.code.size - 2 = f.chunk.code.size - 2 + (f'.chunk.code.size - 2)
  later : β.far.Extends β'.far
  joined : β'.far.allocate (.function g) = ((compile (joinLines a b) heap).heap, q)

theorem Halves.found {a b : String} {heap heap' : Heap} {r r' q : Ref} {c c' : Seam} {β β' : Bridge}
    {f f' g : Function} (h : Halves a b heap heap' r r' q c c' β β' f f' g)
    (fits : (compile (joinLines a b) heap).heap.size ≤ UInt32.size) :
    β'.far.Extends (compile (joinLines a b) heap).heap ∧
      (compile (joinLines a b) heap).heap.function? q = some g := by
  have extends_ := Heap.extends_allocate β'.far (.function g)
  have found := (Heap.Extends.refl (β'.far.allocate (.function g)).1).function?_allocate
  rw [h.joined] at extends_ found
  exact ⟨extends_, found fits⟩

theorem compile_halves {a b : String} {heap heap' : Heap} {r r' q : Ref}
    (ok : (compile a heap).result = .ok r) (ok' : (compile b heap').result = .ok r')
    (joined : (compile (joinLines a b) heap).result = .ok q)
    (room : (compile a heap).heap.size ≤ UInt32.size)
    (room' : (compile b heap').heap.size ≤ UInt32.size)
    (large : (compile (joinLines a b) heap).heap.size ≤ UInt32.size) :
    ∃ c c' β β' f f' g, Halves a b heap heap' r r' q c c' β β' f f' g := by
  obtain ⟨x, xs, n, s, u, scanned, steady, ran, allocated⟩ := compile_opens joined
  obtain ⟨draft, -, is, code, silent⟩ := runs_opening scanned steady ran
  have size : s.heap.size ≤ UInt32.size := by
    have grown := (Heap.extends_allocate s.heap
      (.function ((s.emit .pushNil).emit .ret).draft.finish)).size_le
    rw [allocated] at grown
    exact Nat.le_trans grown large
  obtain ⟨us, e, vs, first, kind, whole, moved⟩ := Lexical.scan_joined a b
  obtain ⟨us', e', ends', kind', -⟩ := endsOnce_scan b
  obtain ⟨_, _, _, parses, -⟩ := compile_ok ok'
  have other : ∀ t ∈ vs.head?, t.kind ≠ .keyword .else := by
    have first := first_ne_else parses
    generalize Lexical.scan b = ts at moved first
    cases moved with
    | nil => nofun
    | cons m =>
      rintro _ ⟨⟩
      rw [m.kind]
      exact first _ rfl
  let c : Seam := ⟨0, vs, other, heap.size, heap.size⟩
  obtain ⟨t₁, β, f, k, spliced, rest⟩ := splice (c := c) ok room (atTop_opening steady)
    ⟨us, e, us, first, kind, scanned.symm.trans whole, forall₂_refl Token.Moved.refl us⟩ rfl rfl
    ran size
  rw [ends'] at moved
  obtain ⟨vs', ws, rfl, same, last⟩ := forall₂_append_left moved
  obtain ⟨v, _, mv, none, rfl⟩ := List.forall₂_cons_left_iff.1 last
  cases none
  have hv : v.kind = .eof := mv.kind.trans kind'
  let c' : Seam := ⟨lineCount a, [v], by simp [hv], heap'.size, t₁.heap.size⟩
  obtain ⟨t₂, β', f', k', spliced', rest'⟩ := splice (c := c') ok' room' spliced.top
    ⟨us', e', vs', ends', kind', spliced.tokens, same⟩ rfl rfl rest size
  obtain ⟨far, leads, octets⟩ := spliced'.ends rfl hv rest'
  have start : t₁.draft.chunk.code.size = f.chunk.code.size - 2 := by
    rw [spliced.size]
    exact Nat.zero_add _
  have second := spliced'.inside leads
  rw [start] at second
  refine ⟨c, c', β, β', f, f', _, rfl, rfl, rfl, rfl, rfl, congrArg Heap.size spliced.far.symm,
    spliced.inside (spliced'.leads.trans leads), second, isScript_return draft code silent, ?_, ?_,
    far ▸ allocated⟩
  · rw [octets, spliced'.size, start, Nat.add_sub_cancel]
  · rw [spliced.far, ← far]
    exact (Keeps.later rest.1).heap.extends

end Compile
end StackScript
