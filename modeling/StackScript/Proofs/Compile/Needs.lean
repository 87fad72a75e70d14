import StackScript.Proofs.Compile.Tally

/-!
# StackScript.Proofs.Compile.Needs

What a tree tells about its code.

* `Context.Tracked`: pools and captures are those that some needs call for.
* `ExprCode.tracked`: an expression takes up in the functions around it what its tree needs.
* `ExprCode.width_eq`, `ExprCode.fits`: the width of its code, and the limits that the tree keeps to.
* `StmtCode.told`: the same of a statement.
-/

namespace StackScript

namespace Compile

open Syntax Instruction

namespace Context

/-- Pools and captures are what the functions around need so far. -/
def Tracked (c : Context) (needs : List (List Need)) : Prop :=
  Compile.Tracked c.heap (c.draft :: c.enclosing) needs

variable {c c' : Context} {needs : List (List Need)} {H : Heap}

theorem Extends.heap {news : List Local} (h : c.Extends news c') : c.heap.Extends c'.heap := by
  obtain ⟨old, -, g, -⟩ := h
  exact g.heap

theorem Tracked.cons (t : c.Tracked needs) : ∃ ns outer, needs = ns :: outer := by
  cases needs with
  | nil => exact t.elim
  | cons ns outer => exact ⟨ns, outer, rfl⟩

/-- A number or text among the constants, on a heap where texts are unique. -/
theorem Tracked.addConstant? {n : Need} {v : Value} {k : UInt8} (t : c.Tracked needs)
    (hs : H.Sound) (ext : c.heap.Extends H) (hc : n.isConstant = true) (hn : n ≠ .function)
    (hv : Stands c.heap n v) (h : c.addConstant? v = some (c', k)) :
    c'.Tracked (tally [n] needs) := by
  obtain ⟨ns, outer, rfl⟩ := t.cons
  obtain ⟨⟨chunk, _⟩, hk, e⟩ := Option.map_eq_some_iff.1 h
  cases e
  exact t.constant hc (fun m w hw => hw.beq hs ext hv hn) (.refl _) hv hk

theorem stands_intern {text : String} (fits : H.size ≤ UInt32.size)
    (ext : (c.intern text).1.heap.Extends H) :
    Stands (c.intern text).1.heap (.text text) (.object (c.intern text).2) :=
  ⟨_, rfl, c.heap.string?_intern text (Nat.le_trans ext.size_le fits)⟩

theorem Tracked.intern (t : c.Tracked needs) (text : String) :
    (c.intern text).1.Tracked needs :=
  t.mono (c.heap.extends_intern text)

theorem heap_addConstant? {v : Value} {k : UInt8} (h : c.addConstant? v = some (c', k)) :
    c'.heap = c.heap := by
  obtain ⟨_, _, e⟩ := Option.map_eq_some_iff.1 h
  cases e
  rfl

theorem Tracked.textConstant? {text : String} {k : UInt8} (t : c.Tracked needs)
    (hs : H.Sound) (fits : H.size ≤ UInt32.size) (ext : c'.heap.Extends H)
    (h : c.textConstant? text = some (c', k)) : c'.Tracked (tally [.text text] needs) := by
  have heap : c'.heap = (c.intern text).1.heap := heap_addConstant? h
  rw [heap] at ext
  exact (t.intern text).addConstant? hs ext rfl nofun (stands_intern fits ext) h

theorem need_upvalue {name : String} {levels slot : Nat} (hl : c.draft.findLocal? name = none)
    (look : lookup name (c.enclosing.map Draft.names) = some (levels, slot)) :
    c.scopes.need name = .variable (levels + 1) slot := by
  have look : lookup name (c.enclosing.map fun d => (readable d.locals).map Local.name) =
    some (levels, slot) := look
  simp only [Scopes.need, Scopes.find, Context.scopes, lookup, slotIn_readable_none hl, look,
    Option.map_some]

theorem need_global {name : String} (hl : c.draft.findLocal? name = none)
    (hr : resolveUpvalue name c.draft c.enclosing = none) : c.scopes.need name = .text name := by
  simp only [Scopes.need, Scopes.find, Context.scopes, lookup, slotIn_readable_none hl,
    lookup_resolveUpvalue_none hr, Option.map_none]

/-- Looking a variable up makes the functions around need it. -/
theorem Tracked.resolve? {name : String} {p : Place} (t : c.Tracked needs) (hp : c.Proper)
    (hs : H.Sound) (fits : H.size ≤ UInt32.size) (ext : c'.heap.Extends H)
    (h : c.resolve? name = some (c', p)) : c'.Tracked (tally [c.scopes.need name] needs) := by
  unfold Context.resolve? at h
  split at h
  next slot l hl =>
    split at h
    next hread =>
      cases h
      have need : c.scopes.need name = .variable 0 slot := by
        simp only [Scopes.need, Scopes.find, Context.scopes, lookup, slotIn_readable hl hread]
      rw [need]
      exact Compile.Tracked.own t
    next => cases h
  next hl =>
    split at h
    next r hr =>
      split at h
      next hf =>
        cases h
        have hf : r.fault = none := by simpa using hf
        obtain ⟨levels, slot, look, -⟩ :=
          follow_resolveUpvalue hr hf hp.draft hp.enclosing hp.chained
        obtain ⟨ns, outer, rfl⟩ := t.cons
        rw [need_upvalue hl look]
        exact (resolveUpvalue_tracked hr hp.enclosing hp.chained look t).2 hf
      next => cases h
    next hr =>
      obtain ⟨⟨c₁, k⟩, hk, e⟩ := Option.map_eq_some_iff.1 h
      cases e
      rw [need_global hl hr]
      exact t.textConstant? hs fits ext hk

theorem Tracked.newVariable? {name : String} {k : UInt8} (t : c.Tracked needs) (hs : H.Sound)
    (fits : H.size ≤ UInt32.size) (ext : c'.heap.Extends H)
    (h : c.newVariable? name = some (c', k)) : c'.Tracked (tally (c.scopes.declare name) needs) := by
  by_cases hd : 0 < c.draft.depth
  · have none : c.scopes.declare name = [] := if_pos (decide_eq_true hd)
    rw [newVariable?_of_scope hd] at h
    obtain ⟨c₂, h₂, e⟩ := Option.map_eq_some_iff.1 h
    cases e
    obtain ⟨rfl, -⟩ := addLocal?_eq h₂
    obtain ⟨ns, outer, rfl⟩ := t.cons
    rw [none, tally_nil]
    exact t
  · have one : c.scopes.declare name = [.text name] := if_neg (by simpa [Context.scopes] using hd)
    rw [Context.newVariable?, if_neg hd] at h
    rw [one]
    exact t.textConstant? hs fits ext h

theorem tracked_makeReadable : c.makeReadable.Tracked needs ↔ c.Tracked needs := by
  unfold makeReadable Draft.makeReadable
  split
  · split <;> cases needs <;> exact Iff.rfl
  · exact Iff.rfl

theorem depth_openScope_pos (c : Context) : 0 < c.openScope.draft.depth := Nat.succ_pos _

theorem tracked_openScope : c.openScope.Tracked needs ↔ c.Tracked needs := by
  cases needs <;> exact Iff.rfl

theorem tracked_closeScope : c.closeScope.Tracked needs ↔ c.Tracked needs := by
  cases needs <;> exact Iff.rfl

/-- A new function needs nothing yet. -/
theorem Tracked.enterFunction {name : String} {xs : List String} (t : c.Tracked needs)
    (h : (c.enterFunction name).addParameters? xs = some c') : c'.Tracked ([] :: needs) := by
  obtain ⟨rfl, -⟩ := addParameters?_eq (c := c.enterFunction name) Nat.one_pos
    (show 1 ≤ slotLimit by decide) h
  exact ⟨.nil, .nil, t.intern name⟩

/-- A function that ends is a constant of the function around it. -/
theorem Tracked.leaveFunction? {f : Function} {k : UInt8} {ms : List Need}
    (t : c.Tracked (ms :: needs)) (fits : H.size ≤ UInt32.size) (ext : c'.heap.Extends H)
    (h : c.leaveFunction? f = some (c', k)) : c'.Tracked (tally [.function] needs) := by
  unfold Context.leaveFunction? at h
  split at h
  next => cases h
  next d ds hd =>
    obtain ⟨⟨chunk, _⟩, hk, e⟩ := Option.map_eq_some_iff.1 h
    cases e
    have t : Compile.Tracked c.heap (d :: ds) needs := hd ▸ t.2.2
    obtain ⟨ns, outer, rfl⟩ : ∃ ns outer, needs = ns :: outer := by
      cases needs with
      | nil => exact t.elim
      | cons ns outer => exact ⟨ns, outer, rfl⟩
    have larger : (c.heap.allocate (.function f)).1.size ≤ H.size := ext.size_le
    rw [Heap.size_allocate] at larger
    have room : c.heap.size < UInt32.size := by omega
    refine t.constant (v := .object (c.heap.allocate (.function f)).2) rfl
      (fun m w hw => hw.beq_fresh (Heap.get?_allocate_none room)) (c.heap.extends_allocate _)
      ⟨_, f, rfl, ?_⟩ hk
    rw [Heap.function?, Heap.get?_allocate room]

end Context

section Expressions

variable {H : Heap}

mutual

theorem ExprCode.tracked {c c' : Context} {e : Expr} {is : List Instruction}
    (he : ExprCode c e is c') (hs : H.Sound) (fits : H.size ≤ UInt32.size) :
    ∀ {needs : List (List Need)}, c.Proper → c'.heap.Extends H → c.Tracked needs →
      c'.Tracked (tally (e.needs c.scopes) needs) := by
  cases he with
  | nil | true | false =>
    intro needs _ _ t
    rw [Expr.needs, tally_nil]
    exact t
  | number h =>
    intro needs _ ext t
    rw [Expr.needs]
    exact t.addConstant? hs (Context.heap_addConstant? h ▸ ext) rfl nofun rfl h
  | string h =>
    intro needs _ ext t
    rw [Expr.needs]
    exact t.textConstant? hs fits ext h
  | get h =>
    intro needs hp ext t
    rw [Expr.needs]
    exact t.resolve? hp hs fits ext h
  | set h he =>
    intro needs hp ext t
    obtain ⟨g, hp₁⟩ := Context.resolve?_grown h hp
    have t₁ := t.resolve? hp hs fits ((he.grows.grown hp₁).heap.trans ext) h
    have t₂ := he.tracked hs fits hp₁ ext t₁
    rwa [g.scopes, tally_tally] at t₂
  | unary he => exact he.tracked hs fits
  | binary h₁ h₂ | and h₁ h₂ | or h₁ h₂ | index h₁ h₂ | call h₁ h₂ =>
    intro needs hp ext t
    have hp₁ := h₁.grows.proper hp
    have t₁ := h₁.tracked hs fits hp ((h₂.grows.grown hp₁).heap.trans ext) t
    have t₂ := h₂.tracked hs fits hp₁ ext t₁
    rwa [(h₁.grows.grown hp).scopes, tally_tally] at t₂
  | setIndex h₁ h₂ h₃ =>
    intro needs hp ext t
    have hp₁ := h₁.grows.proper hp
    have hp₂ := h₂.grows.proper hp₁
    have ext₂ := (h₃.grows.grown hp₂).heap.trans ext
    have t₁ := h₁.tracked hs fits hp ((h₂.grows.grown hp₁).heap.trans ext₂) t
    have t₂ := h₂.tracked hs fits hp₁ ext₂ t₁
    have t₃ := h₃.tracked hs fits hp₂ ext t₂
    rwa [(h₂.grows.grown hp₁).scopes, (h₁.grows.grown hp).scopes, tally_tally, tally_tally] at t₃
  | array h => exact h.tracked hs fits

theorem ExprsCode.tracked {c c' : Context} {es : Exprs} {is : List Instruction}
    (he : ExprsCode c es is c') (hs : H.Sound) (fits : H.size ≤ UInt32.size) :
    ∀ {needs : List (List Need)}, c.Proper → c'.heap.Extends H → c.Tracked needs →
      c'.Tracked (tally (es.needs c.scopes) needs) := by
  cases he with
  | nil =>
    intro needs _ _ t
    rw [Exprs.needs, tally_nil]
    exact t
  | cons h₁ h₂ =>
    intro needs hp ext t
    have hp₁ := h₁.grows.proper hp
    have t₁ := h₁.tracked hs fits hp ((h₂.grows.grown hp₁).heap.trans ext) t
    have t₂ := h₂.tracked hs fits hp₁ ext t₁
    rwa [(h₁.grows.grown hp).scopes, tally_tally] at t₂

end

theorem ClauseCode.tracked {c c' : Context} {e : Option Expr} {is : Option (List Instruction)}
    (he : ClauseCode c e is c') (hs : H.Sound) (fits : H.size ≤ UInt32.size)
    {needs : List (List Need)} (hp : c.Proper) (ext : c'.heap.Extends H) (t : c.Tracked needs) :
    c'.Tracked (tally (e.elim [] (·.needs c.scopes)) needs) := by
  cases he with
  | absent => rwa [Option.elim_none, tally_nil]
  | present he => exact he.tracked hs fits hp ext t

theorem width_single_place {c c' : Context} {name : String} {p : Place}
    (h : c.resolve? name = some (c', p)) : width [p.read] = 2 ∧ width [p.assign] = 2 := by
  unfold Context.resolve? at h
  split at h
  next =>
    split at h
    · cases h
      exact ⟨rfl, rfl⟩
    · cases h
  next =>
    split at h
    next =>
      split at h
      · cases h
        exact ⟨rfl, rfl⟩
      · cases h
    next =>
      obtain ⟨_, _, e⟩ := Option.map_eq_some_iff.1 h
      cases e
      exact ⟨rfl, rfl⟩

theorem size_jump (d : UInt16) : size (.jump d) = 3 := rfl

theorem size_jumpIfFalse (d : UInt16) : size (.jumpIfFalse d) = 3 := rfl

theorem width_unaryCode (op : UnaryOperator) : width [unaryCode op] = 1 := by
  cases op <;> rfl

theorem width_binaryCode (op : BinaryOperator) : width (binaryCode op) = binaryWidth op := by
  cases op <;> rfl

mutual

theorem ExprCode.width_eq {c c' : Context} {e : Expr} {is : List Instruction}
    (he : ExprCode c e is c') : width is = e.width := by
  cases he with
  | nil | true | false | number | string => rw [Expr.width]; rfl
  | get h => rw [(width_single_place h).1, Expr.width]
  | set h he => rw [width_append, he.width_eq, (width_single_place h).2, Expr.width]
  | unary he => rw [width_append, he.width_eq, width_unaryCode, Expr.width]
  | binary h₁ h₂ =>
    rw [width_append, width_append, h₁.width_eq, h₂.width_eq, width_binaryCode, Expr.width]
  | and h₁ h₂ =>
    rw [width_append, andCode, width_cons, width_pop_cons, h₁.width_eq, h₂.width_eq, Expr.width,
      size_jumpIfFalse]
    omega
  | or h₁ h₂ =>
    rw [width_append, orCode, width_cons, width_cons, width_pop_cons, h₁.width_eq, h₂.width_eq,
      Expr.width, size_jumpIfFalse, size_jump]
    omega
  | call h₁ h₂ =>
    rw [width_append, width_append, h₁.width_eq, h₂.width_eq, Expr.width]
    rfl
  | index h₁ h₂ =>
    rw [width_append, width_append, h₁.width_eq, h₂.width_eq, Expr.width]
    rfl
  | setIndex h₁ h₂ h₃ =>
    rw [width_append, width_append, width_append, h₁.width_eq, h₂.width_eq, h₃.width_eq, Expr.width]
    rfl
  | array h =>
    rw [width_append, h.width_eq, Expr.width]
    rfl

theorem ExprsCode.width_eq {c c' : Context} {es : Exprs} {is : List Instruction}
    (he : ExprsCode c es is c') : width is = es.width := by
  cases he with
  | nil => rw [Exprs.width]; rfl
  | cons h₁ h₂ => rw [width_append, h₁.width_eq, h₂.width_eq, Exprs.width]

end

mutual

/-- An expression that has code keeps to the limits. -/
theorem ExprCode.fits {c c' : Context} {e : Expr} {is : List Instruction}
    (he : ExprCode c e is c') : e.Fits := by
  cases he with
  | nil | true | false | number | string | get => exact trivial
  | set _ he | unary he => exact he.fits
  | binary h₁ h₂ | index h₁ h₂ => exact ⟨h₁.fits, h₂.fits⟩
  | and h₁ h₂ short | or h₁ h₂ short => exact ⟨h₁.fits, h₂.fits, h₂.width_eq ▸ short⟩
  | call h₁ h₂ few => exact ⟨h₁.fits, h₂.fits, few⟩
  | setIndex h₁ h₂ h₃ => exact ⟨h₁.fits, h₂.fits, h₃.fits⟩
  | array h few => exact ⟨h.fits, few⟩

theorem ExprsCode.fits {c c' : Context} {es : Exprs} {is : List Instruction}
    (he : ExprsCode c es is c') : es.Fits := by
  cases he with
  | nil => exact trivial
  | cons h₁ h₂ => exact ⟨h₁.fits, h₂.fits⟩

end

theorem ClauseCode.fits {c c' : Context} {e : Option Expr} {is : Option (List Instruction)}
    (he : ClauseCode c e is c') : ∀ a ∈ e, a.Fits := by
  cases he with
  | absent => exact nofun
  | present he =>
    intro a ha
    cases ha
    exact he.fits

theorem ClauseCode.width_eq {c c' : Context} {e : Option Expr} {is : Option (List Instruction)}
    (he : ClauseCode c e is c') : is.map width = e.map Expr.width := by
  cases he with
  | absent => rfl
  | present he => exact congrArg some he.width_eq

end Expressions

section Statements

/-- The widths of the parts of a loop. -/
def Loop.span (l : Loop) : Span := ⟨l.condition.map width, l.step.map width, width l.body⟩

namespace Loop

variable (l : Loop)

theorem stepWidth_span : l.span.stepWidth = l.stepWidth := by
  unfold Span.stepWidth stepWidth span
  cases l.step <;> rfl

theorem exit_span : l.span.exit = l.exit := by
  rw [Span.exit, exit, stepWidth_span]
  rfl

theorem head_span : l.span.head = width l.head := by
  unfold Span.head head span
  cases l.condition with
  | none => rfl
  | some is =>
    simp only [Option.elim_some, Option.map_some, width_append]
    rfl

theorem again_span : l.span.again = l.again := by
  rw [Span.again, again, stepWidth_span, head_span]

theorem back_span : l.span.back = l.back := by
  rw [Span.back, back, head_span]
  unfold span
  cases l.step <;> rfl

theorem fits_span : l.span.Fits ↔ l.Fits := by
  have condition : l.span.condition.isSome = l.condition.isSome := Option.isSome_map
  have step : l.span.step.isSome = l.step.isSome := Option.isSome_map
  constructor
  · rintro ⟨h₁, h₂, h₃⟩
    rw [exit_span, condition] at h₁
    rw [again_span, step] at h₂
    rw [back_span] at h₃
    exact ⟨h₁, h₂, h₃⟩
  · rintro ⟨h₁, h₂, h₃⟩
    refine ⟨?_, ?_, ?_⟩
    · rwa [exit_span, condition]
    · rwa [again_span, step]
    · rwa [back_span]

theorem width_code : width l.code = l.span.width := by
  have tail : width l.tail = l.span.condition.elim 0 fun _ => 1 := by
    unfold tail span
    cases l.condition <;> rfl
  have loop (d : UInt16) : size (.loop d) = 3 := rfl
  rw [code, width_append, width_append, width_append, width_cons, tail, width_stepCode, loop,
    Span.width, head_span, stepWidth_span]
  rfl

end Loop

theorem width_scopeCode (ls : List Local) :
    width (ls.map fun l => if l.captured then .closeUpvalue else .pop) = ls.length := by
  induction ls with
  | nil => rfl
  | cons l ls ih =>
    have one : size (if l.captured then .closeUpvalue else .pop) = 1 := by split <;> rfl
    rw [List.map_cons, width_cons, ih, one, List.length_cons, Nat.add_comm]

namespace Context

variable {c c₁ c' : Context} {name : String} {xs : List String} {k : UInt8}

/-- The body of a function sees its parameters and what the declaration of the function sees. -/
theorem scopes_enterFunction {a : Stmt} (hv : c.newVariable? name = some (c₁, k))
    (hx : (c₁.makeReadable.enterFunction name).addParameters? xs = some c') (hp : c.Proper)
    (st : c.draft.Settled) :
    c'.scopes = (c.scopes.behind (.function name xs a)).body xs := by
  obtain ⟨news, e, hp₁, n, -⟩ := extends_variable hv hp (.refl _)
  obtain ⟨-, st₂, around, -, depth, locals, -⟩ := enterFunction_proper hx hp₁ (e.settled st)
  rw [← e.scopes (a := .function name xs a) st n, Context.scopes, readable_settled st₂, around,
    depth, locals]
  simp [Context.scopes, Scopes.body, parameters, Function.comp_def]

theorem scopes_nested : c.scopes.nested = decide (0 < c.draft.depth) := rfl

/-- The slots behind a statement. -/
theorem Extends.slots {a : Stmt} {news : List Local} (e : c.Extends news c')
    (names : news.map Local.name = if 0 < c.draft.depth then a.declared else []) :
    c'.draft.locals.length =
      c.draft.locals.length + if c.scopes.nested then a.declared.length else 0 := by
  have declared : news.length = if c.scopes.nested then a.declared.length else 0 := by
    rw [← List.length_map Local.name, names, scopes_nested]
    by_cases hd : 0 < c.draft.depth
    · rw [if_pos hd, if_pos (decide_eq_true hd)]
    · rw [if_neg hd, if_neg (by simpa using hd)]
      rfl
  rw [e.length, declared, Nat.add_comm]

theorem width_definition (hd : c'.draft.depth = c.draft.depth) :
    width (c'.definition k) = if c.scopes.nested then 0 else 2 := by
  have nested : c.scopes.nested = decide (0 < c.draft.depth) := rfl
  rw [definition, hd, nested]
  by_cases h : 0 < c.draft.depth
  · rw [if_pos h, if_pos (decide_eq_true h)]
    rfl
  · rw [if_neg h, if_neg (by simpa using h)]
    rfl

end Context

variable {H : Heap}

/-- What the tree of a statement tells about its code: what it takes up, how wide it is, and the
limits that it keeps to. -/
structure Told (c : Context) (needs : List (List Need)) (a : Stmt) (is : List Instruction)
    (c' : Context) : Prop where
  tracked : c'.Tracked (tally (a.needs c.scopes) needs)
  width : width is = a.width c.scopes
  slots : c.draft.locals.length + a.locals c.scopes.nested ≤ slotLimit
  fits : a.Fits c.scopes

theorem StmtCode.told {c c' : Context} {a : Stmt} {is : List Instruction}
    (ha : StmtCode c a is c') (hs : H.Sound) (fits : H.size ≤ UInt32.size) :
    ∀ {needs : List (List Need)}, c.Proper → c.draft.Settled → c'.heap.Extends H →
      c.Tracked needs → Told c needs a is c' := by
  induction ha with
  | empty =>
    intro needs hp _ _ t
    refine ⟨?_, rfl, hp.draft.locals, trivial⟩
    rw [Stmt.needs, tally_nil]
    exact t
  | @seq c c₁ c' a b _ _ ha hb ih ih' =>
    intro needs hp st ext t
    obtain ⟨news, e, hp₁, n⟩ := ha.extends hp st
    obtain ⟨news', e', -, -⟩ := hb.extends hp₁ (e.settled st)
    obtain ⟨t₁, w₁, l₁, f₁⟩ := ih hp st (e'.heap.trans ext) t
    obtain ⟨t₂, w₂, l₂, f₂⟩ := ih' hp₁ (e.settled st) ext t₁
    rw [e.scopes st n] at t₂ w₂ l₂ f₂
    rw [tally_tally] at t₂
    have nested : (c.scopes.behind a).nested = c.scopes.nested := rfl
    rw [e.slots n, nested] at l₂
    refine ⟨t₂, by rw [width_append, w₁, w₂, Stmt.width], ?_, f₁, f₂⟩
    rw [Stmt.locals]
    omega
  | expression he | print he | «return» _ he =>
    intro needs hp _ ext t
    exact ⟨he.tracked hs fits hp ext t, by rw [width_append, he.width_eq]; rfl, hp.draft.locals,
      he.fits⟩
  | @var c _ _ name _ e _ hv he =>
    intro needs hp st ext t
    have hp₁ := Context.newVariable?_proper hv hp
    have g := he.grows.grown hp₁
    obtain ⟨news, ext', hp', n, -⟩ := Context.extends_variable hv hp he.grows
    have t₁ := t.newVariable? hs fits (g.heap.trans (Context.heap_makeReadable _ ▸ ext)) hv
    have t₂ := he.tracked hs fits hp₁ (Context.heap_makeReadable _ ▸ ext) t₁
    rw [Context.scopes_newVariable? hv st, tally_tally] at t₂
    refine ⟨Context.tracked_makeReadable.2 t₂, ?_, ?_, he.fits⟩
    · rw [width_append, he.width_eq, Context.width_definition
        ((Context.depth_makeReadable _).symm.trans ext'.depth)]
      rfl
    · exact ext'.slots (a := .var name e) n ▸ hp'.draft.locals
  | @function c c₁ c₂ c₃ c' name k k' xs a is lines hv hx hb hl hc ih =>
    intro needs hp st ext t
    obtain ⟨news, e, hp₁, n, -⟩ := Context.extends_variable hv hp (.refl _)
    obtain ⟨hp₂, st₂, around, heap, depth, locals, -, -, few⟩ :=
      Context.enterFunction_proper hx hp₁ (e.settled st)
    obtain ⟨news₂, ⟨old, -, g, -⟩, hp₃, -⟩ := hb.extends hp₂ st₂
    have growns := g.enclosing
    rw [around] at growns
    obtain ⟨grown, -, -, -, heap', -⟩ :=
      Context.leaveFunction?_grown hc hp₃ growns (heap.trans g.heap)
    have ext' : c'.heap.Extends H := Context.heap_makeReadable _ ▸ ext
    have ext₃ : c₃.heap.Extends H :=
      (heap' ▸ c₃.heap.extends_allocate _ : c₃.heap.Extends c'.heap).trans ext'
    have ext₁ : c₁.heap.Extends H := by
      have : c₁.makeReadable.heap.Extends H := (heap.trans g.heap).trans ext₃
      rwa [Context.heap_makeReadable] at this
    have t₁ := Context.tracked_makeReadable.2 (t.newVariable? hs fits ext₁ hv)
    obtain ⟨t₃, -, slots, body⟩ := ih hp₂ st₂ ext₃ (t₁.enterFunction hx)
    have nested : c₂.scopes.nested = true := by rw [Context.scopes_nested, depth]; rfl
    have count : c₂.draft.locals.length = 1 + xs.length := by
      simp [locals, Context.parameters, Nat.add_comm]
    rw [nested, count] at slots
    rw [Context.scopes_enterFunction hv hx hp st (a := a)] at t₃ body
    have captures : c₃.draft.captures.toList.length = _ := t₃.2.1.size
    have modest : Need.Modest (a.needs ((c.scopes.behind (.function name xs a)).body xs)) :=
      ⟨Nat.le_trans (Nat.le_of_eq t₃.1.size.symm) hp₃.draft.constants,
        Nat.le_trans (Nat.le_of_eq t₃.2.1.size.symm) hp₃.draft.captures⟩
    have t' := t₃.leaveFunction? fits ext' hc
    rw [tally_tally, tally_tally] at t'
    refine ⟨Context.tracked_makeReadable.2 t', ?_, ?_, few, slots, modest, body⟩
    · rw [width_append, Context.closureCode, width_cons, width_captures, captures,
        Context.width_definition ((Context.depth_makeReadable _).symm.trans
          ((Context.depth_makeReadable _).trans (grown.draft.depth.trans e.depth)))]
      rfl
    · exact e.slots (a := .function name xs a) n ▸ hp₁.draft.locals
  | block ha ih =>
    intro needs hp st ext t
    have st₁ := Context.openScope_settled st
    obtain ⟨news, e, -, n⟩ := ha.extends (Context.openScope_proper hp) st₁
    obtain ⟨t₁, w₁, l₁, f₁⟩ :=
      ih (Context.openScope_proper hp) st₁ ext (Context.tracked_openScope.2 t)
    rw [Context.scopes_openScope] at t₁ w₁ l₁ f₁
    refine ⟨Context.tracked_closeScope.2 t₁, ?_, l₁, f₁⟩
    rw [if_pos (Context.depth_openScope_pos _)] at n
    rw [width_append, (e.closeScope st).1, width_scopeCode, w₁, Stmt.width, ← n, List.length_map]
  | ifElse he ha hb n n' hw hw' ih ih' =>
    intro needs hp st ext t
    have hp₁ := he.grows.proper hp
    have g := he.grows.grown hp
    have st₁ := g.draft.settled st
    obtain ⟨news, e, hp₂, names⟩ := ha.extends hp₁ st₁
    rw [Stmt.declared_of_declaresNothing n, ite_self] at names
    have g' := e.ofNames names
    have st₂ := g'.draft.settled st₁
    obtain ⟨news', e', -, -⟩ := hb.extends hp₂ st₂
    have ext₂ := e'.heap.trans ext
    have t₁ := he.tracked hs fits hp (g'.heap.trans ext₂) t
    obtain ⟨t₂, w₂, l₂, f₂⟩ := ih hp₁ st₁ ext₂ t₁
    obtain ⟨t₃, w₃, l₃, f₃⟩ := ih' hp₂ st₂ ext t₂
    rw [g.scopes] at w₂ l₂ f₂
    rw [g'.scopes, g.scopes] at t₃ w₃ l₃ f₃
    rw [tally_tally, tally_tally] at t₃
    rw [← g.draft.locals.length_eq] at l₂
    rw [← g'.draft.locals.length_eq, ← g.draft.locals.length_eq] at l₃
    refine ⟨t₃, ?_, by rw [Stmt.locals]; omega, he.fits, f₂, f₃, w₂ ▸ hw, w₃ ▸ hw'⟩
    rw [width_append, choiceCode, width_cons, width_pop_cons, width_append, width_cons,
      width_pop_cons, he.width_eq, w₂, w₃, Stmt.width, size_jumpIfFalse, size_jump]
    omega
  | @«while» c _ _ e a is js he ha n short ih =>
    intro needs hp st ext t
    have hp₁ := he.grows.proper hp
    have g := he.grows.grown hp
    have st₁ := g.draft.settled st
    obtain ⟨news, ext', -, -⟩ := ha.extends hp₁ st₁
    have t₁ := he.tracked hs fits hp (ext'.heap.trans ext) t
    obtain ⟨t₂, w₂, l₂, f₂⟩ := ih hp₁ st₁ ext t₁
    rw [g.scopes] at t₂ w₂ l₂ f₂
    rw [tally_tally] at t₂
    rw [← g.draft.locals.length_eq] at l₂
    have span : Loop.span ⟨some is, none, js⟩ = ⟨some e.width, none, a.width c.scopes⟩ := by
      rw [Loop.span, w₂, Option.map_some, he.width_eq, Option.map_none]
    refine ⟨t₂, ?_, l₂, he.fits, f₂, span ▸ (Loop.fits_span _).2 short⟩
    rw [Loop.width_code, span, Stmt.width]
  | @«for» c c₁ c₂ c₃ c' i a e₁ e₂ is js is₁ is₂ hi h₁ h₂ ha n short ih ih' =>
    intro needs hp st ext t
    have st₀ := Context.openScope_settled st
    obtain ⟨news, e, hp₁, names⟩ := hi.extends (Context.openScope_proper hp) st₀
    have g₂ := h₁.grows.grown hp₁
    have hp₂ := h₁.grows.proper hp₁
    have g₃ := h₂.grows.grown hp₂
    have hp₃ := h₂.grows.proper hp₂
    have st₃ := g₃.draft.settled (g₂.draft.settled (e.settled st₀))
    obtain ⟨news', e', -, names'⟩ := ha.extends hp₃ st₃
    rw [Stmt.declared_of_declaresNothing n, ite_self] at names'
    have g' := e'.ofNames names'
    have scopes : c₁.scopes = c.scopes.block.behind i := by
      rw [e.scopes st₀ names, Context.scopes_openScope]
    have ext' : c'.heap.Extends H := ext
    have ext₃ := g'.heap.trans ext'
    have ext₂ := g₃.heap.trans ext₃
    obtain ⟨t₁, w₁, l₁, f₁⟩ := ih (Context.openScope_proper hp) st₀ (g₂.heap.trans ext₂)
      (Context.tracked_openScope.2 t)
    have t₂ := h₁.tracked hs fits hp₁ ext₂ t₁
    have t₃ := h₂.tracked hs fits hp₂ ext₃ t₂
    obtain ⟨t₄, w₄, l₄, f₄⟩ := ih' hp₃ st₃ ext' t₃
    have slots : c₁.draft.locals.length = c.draft.locals.length + i.declared.length := e.slots names
    rw [Context.scopes_openScope] at t₁ w₁ l₁ f₁
    rw [g₃.scopes, g₂.scopes, scopes] at t₄ w₄ l₄ f₄
    rw [tally_tally, tally_tally, tally_tally] at t₄
    rw [← g₃.draft.locals.length_eq, ← g₂.draft.locals.length_eq, slots] at l₄
    have span : Loop.span ⟨is₁, is₂, js⟩ =
        ⟨e₁.map Expr.width, e₂.map Expr.width, a.width (c.scopes.block.behind i)⟩ := by
      rw [Loop.span, h₁.width_eq, h₂.width_eq, w₄]
    have locals : c.draft.locals.length +
        max (i.locals true) (i.declared.length + a.locals true) ≤ slotLimit := by
      have start : c.draft.locals.length + i.locals true ≤ slotLimit := l₁
      have body : c.draft.locals.length + i.declared.length + a.locals true ≤ slotLimit := l₄
      omega
    refine ⟨Context.tracked_closeScope.2 t₄, ?_, locals, f₁, h₁.fits, h₂.fits, f₄,
      span ▸ (Loop.fits_span _).2 short⟩
    obtain ⟨news₁, raised, ext₁⟩ := e.transGrown (g₂.trans (g₃.trans g'))
    rw [if_pos (Context.depth_openScope_pos _)] at names
    have declared : news₁.length = i.declared.length := by
      rw [← raised.length_eq, ← List.length_map Local.name, names]
    rw [width_append, width_append, (ext₁.closeScope st).1, width_scopeCode, declared, w₁,
      Loop.width_code, span, Stmt.width]

end Statements

end Compile
end StackScript
