import StackScript.Proofs.Compile.AcceptExpression

/-!
# StackScript.Proofs.Compile.Hosts

Places where a statement can be compiled.

* `Context.Ready`: a place between two statements, with room for some needs.
* `Context.Allows`: a statement keeps to the limits and to the static rules at a place.
* `Context.Hosts`: there is room for the statement, and the place allows it.
-/

namespace StackScript
namespace Compile

open Syntax Instruction

namespace Context

variable {c c₁ c₂ c₃ c' : Context} {σ : Scopes} {a b i : Stmt} {e : Expr} {e₁ e₂ : Option Expr}
  {ns ms : List Need} {x : String} {xs : List String} {k : UInt8} {news : List Local}
  {is : List Instruction} {H : Heap}

/-- No initializer is being compiled, and there is room for some needs. -/
structure Ready (c : Context) (σ : Scopes) (ns : List Need) : Prop where
  scopes : c.scopes = σ
  proper : c.Proper
  settled : c.draft.Settled
  room : c.Room ns

/-- A statement keeps to the limits and to the static rules at a place. -/
structure Allows (c : Context) (a : Stmt) : Prop where
  locals : c.draft.locals.length + a.locals c.scopes.nested ≤ slotLimit
  fits : a.Fits c.scopes
  valid : a.Valid c.inside c.scope

/-- A statement can be compiled at a place. -/
structure Hosts (c : Context) (a : Stmt) : Prop where
  ready : c.Ready c.scopes (a.needs c.scopes)
  allows : c.Allows a

theorem Grown.allows (g : c.Grown c') (h : c.Allows a) : c'.Allows a := by
  refine ⟨?_, ?_, ?_⟩
  · rw [g.scopes, ← g.draft.locals.length_eq]
    exact h.locals
  · rw [g.scopes]
    exact h.fits
  · rw [g.inside, g.scope]
    exact h.valid

/-- What is allowed behind a statement. -/
theorem Extends.allows (ext : c.Extends news c')
    (names : news.map Local.name = if 0 < c.draft.depth then a.declared else [])
    (st : c.draft.Settled)
    (locals : c.draft.locals.length +
      ((if c.scopes.nested then a.declared.length else 0) + b.locals c.scopes.nested) ≤ slotLimit)
    (fits : b.Fits (c.scopes.behind a))
    (valid : b.Valid c.inside (c.scope.map (a.declared ++ ·))) : c'.Allows b := by
  have scopes := ext.scopes st names
  have nested : (c.scopes.behind a).nested = c.scopes.nested := rfl
  refine ⟨?_, ?_, ?_⟩
  · rw [scopes, nested, ext.slots names]
    omega
  · rwa [scopes]
  · rwa [ext.inside, ext.scope names]

namespace Ready

theorem front (h : c.Ready σ (ns ++ ms)) : c.Ready σ ns :=
  ⟨h.scopes, h.proper, h.settled, h.room.front⟩

theorem takes (h : c.Ready σ (e.needs σ)) : c.Takes σ e.names (e.needs σ) :=
  ⟨h.scopes, h.proper, fun x _ => clear_of_settled h.settled x, h.room⟩

theorem hosts (h : c.Ready σ (a.needs σ ++ ns)) (allows : c.Allows a) : c.Hosts a := by
  obtain ⟨rfl, -⟩ := id h
  exact ⟨h.front, allows⟩

theorem openScope (h : c.Ready σ ns) : c.openScope.Ready σ.block ns := by
  obtain ⟨rfl, hp, st, needs, t, roomy⟩ := h
  exact ⟨scopes_openScope, openScope_proper hp, openScope_settled st, needs, tracked_openScope.2 t,
    roomy⟩

variable (hH : H.Sound) (small : H.size ≤ UInt32.size)
include hH small

theorem expression (h : c.Ready σ (e.needs σ ++ ns)) (he : ExprCode c e is c')
    (ext : c'.heap.Extends H) : c.Grown c' ∧ c'.Ready σ ns := by
  obtain ⟨rfl, hp, st, room⟩ := h
  have g := he.grows.grown hp
  exact ⟨g, g.scopes, he.grows.proper hp, g.draft.settled st,
    room.behind (he.tracked hH small hp ext)⟩

theorem clause {e : Option Expr} {is : Option (List Instruction)}
    (h : c.Ready σ (e.elim [] (·.needs σ) ++ ns)) (he : ClauseCode c e is c')
    (ext : c'.heap.Extends H) : c.Grown c' ∧ c'.Ready σ ns := by
  cases he with
  | absent => exact ⟨.refl c, h⟩
  | present he => exact h.expression hH small he ext

theorem statement (h : c.Ready σ (a.needs σ ++ ns)) (ha : StmtCode c a is c')
    (ext : c'.heap.Extends H) : c'.Ready (σ.behind a) ns ∧ width is = a.width σ := by
  obtain ⟨rfl, hp, st, room⟩ := h
  obtain ⟨news, e, hp', names⟩ := ha.extends hp st
  obtain ⟨needs, t, -⟩ := id room
  exact ⟨⟨e.scopes st names, hp', e.settled st,
    room.behind fun t => (ha.told hH small hp st ext t).tracked⟩,
    (ha.told hH small hp st ext t).width⟩

/-- A statement that declares nothing leaves a place as it was. -/
theorem branch (h : c.Ready σ (a.needs σ ++ ns)) (ha : StmtCode c a is c')
    (n : a.declaresNothing = true) (ext : c'.heap.Extends H) :
    c.Grown c' ∧ c'.Ready σ ns ∧ width is = a.width σ := by
  obtain ⟨ready, w⟩ := h.statement hH small ha ext
  obtain ⟨news, e, -, names⟩ := ha.extends h.proper h.settled
  rw [Stmt.declared_of_declaresNothing n, ite_self] at names
  have g := e.ofNames names
  exact ⟨g, ⟨g.scopes.trans h.scopes, ready.proper, ready.settled, ready.room⟩, w⟩

end Ready

section Functions

theorem Room.makeReadable (h : c.Room ns) : c.makeReadable.Room ns := by
  obtain ⟨needs, t, roomy⟩ := h
  exact ⟨needs, tracked_makeReadable.2 t, roomy⟩

/-- Around a function there is room for its upvalues, and in it for its body. -/
theorem Room.enterFunction (h : c.Room (Need.outward ns ++ ms)) (modest : Need.Modest ns)
    (hx : (c.enterFunction x).addParameters? xs = some c') : c'.Room ns := by
  obtain ⟨needs, t, roomy⟩ := h
  refine ⟨_, t.enterFunction hx, fun ms hms => ?_⟩
  obtain rfl | hms := List.mem_cons.1 hms
  · exact modest
  · exact roomy.front ms hms

theorem leaveFunction?_isSome {f : Function} {outer : List (List Need)}
    (t : c.Tracked (ms :: ns :: outer)) (roomy : Roomy (tally [.function] (ns :: outer)))
    (room : c.heap.size < UInt32.size) : (c.leaveFunction? f).isSome := by
  unfold leaveFunction?
  split
  next none =>
    have t : Compile.Tracked c.heap [] (ns :: outer) := none ▸ t.2.2
    exact t.elim
  next d ds around =>
    have t : Compile.Tracked c.heap (d :: ds) (ns :: outer) := around ▸ t.2.2
    obtain ⟨p, hp⟩ := t.constant_room (v := .object (c.heap.allocate (.function f)).2) rfl
      (fun m w hw => hw.beq_fresh (Heap.get?_allocate_none room)) roomy
    simp [addConstant?, hp]

end Functions

namespace Hosts

theorem first (h : c.Hosts (.seq a b)) : c.Hosts a :=
  h.ready.hosts ⟨Nat.le_trans (Nat.add_le_add_left (Nat.le_max_left _ _) _) h.allows.locals,
    h.allows.fits.1, h.allows.valid.1⟩

theorem rest (h : c.Hosts (.seq a b)) (hH : H.Sound) (small : H.size ≤ UInt32.size)
    (ha : StmtCode c a is c') (ext : c'.heap.Extends H) : c'.Hosts b := by
  obtain ⟨news, e, -, names⟩ := ha.extends h.ready.proper h.ready.settled
  have ready := (h.ready.statement hH small ha ext).1
  have locals := h.allows.locals
  rw [Stmt.locals] at locals
  rw [← e.scopes h.ready.settled names] at ready
  exact ⟨ready, e.allows names h.ready.settled (by omega) h.allows.fits.2 h.allows.valid.2⟩

theorem block (h : c.Hosts (.block a)) : c.openScope.Hosts a := by
  refine ⟨scopes_openScope (c := c) ▸ h.ready.openScope, ?_, ?_, ?_⟩
  · exact h.allows.locals
  · rw [scopes_openScope]
    exact h.allows.fits
  · rw [scope_openScope h.ready.settled]
    exact h.allows.valid

/-- The first clause of a `for` stands in a scope of its own. -/
theorem start (h : c.Hosts (.for i e₁ e₂ a)) : c.openScope.Hosts i := by
  refine h.ready.openScope.hosts ⟨?_, ?_, ?_⟩
  · exact Nat.le_trans (Nat.add_le_add_left (Nat.le_max_left _ _) _) h.allows.locals
  · rw [scopes_openScope]
    exact h.allows.fits.1
  · rw [scope_openScope h.ready.settled]
    exact h.allows.valid.1

/-- A variable can be declared, in its scope or among the globals. -/
theorem declarable (fresh : ∀ names ∈ c.scope, x ∉ names)
    (slot : c.draft.locals.length + (if c.scopes.nested then 1 else 0) ≤ slotLimit)
    (room : c.Room (c.scopes.declare x)) :
    (0 < c.draft.depth → (c.addLocal? x).isSome) ∧ (¬0 < c.draft.depth → c.Room [.text x]) := by
  constructor
  · intro hd
    have nested : c.scopes.nested = true := decide_eq_true hd
    have hn : c.scope = some _ := if_pos hd
    rw [nested, if_pos rfl] at slot
    exact (addLocal?_isSome hn).2 ⟨fresh _ hn, slot⟩
  · intro hd
    have nested : c.scopes.nested = false := decide_eq_false hd
    rwa [Scopes.declare, nested] at room

variable (hH : H.Sound) (small : H.size ≤ UInt32.size)
include hH small

/-- What the scope of a `for` has to take behind the first clause. -/
theorem loop (h : c.Hosts (.for i e₁ e₂ a)) (hi : StmtCode c.openScope i is c₁)
    (ext : c₁.heap.Extends H) :
    let inner := c.scopes.block.behind i
    c₁.Ready inner (e₁.elim [] (·.needs inner) ++ (e₂.elim [] (·.needs inner) ++ a.needs inner)) ∧
      c₁.Allows a := by
  have opened := h.ready.openScope
  refine ⟨(opened.statement hH small hi ext).1, ?_⟩
  obtain ⟨news, ext, -, names⟩ := hi.extends opened.proper opened.settled
  have locals := h.allows.locals
  rw [Stmt.locals] at locals
  have nested : c.openScope.scopes.nested = true := by rw [scopes_openScope]; rfl
  refine ext.allows names opened.settled ?_ ?_ ?_
  · rw [nested, if_pos rfl]
    exact Nat.le_trans (Nat.add_le_add_left (Nat.le_max_right _ _) _) locals
  · rw [scopes_openScope]
    exact h.allows.fits.2.2.2.1
  · have valid := h.allows.valid.2
    rwa [scope_openScope h.ready.settled, Option.map_some, List.append_nil]

theorem initializer (h : c.Hosts (.var x e)) (hv : c.newVariable? x = some (c₁, k))
    (ext : c₁.heap.Extends H) : c₁.Takes c.scopes e.names (e.needs c.scopes) := by
  obtain ⟨⟨-, hp, st, room⟩, -, -, valid⟩ := h
  refine ⟨scopes_newVariable? hv st, newVariable?_proper hv hp, fun y hy => ?_,
    room.behind fun t => t.newVariable? hH small ext hv⟩
  refine (clear_newVariable? hv st).2 fun hd => ?_
  rintro rfl
  exact (valid _ (if_pos hd)).2 hy

/-- The body of a function can be compiled at its parameters. -/
theorem body (h : c.Hosts (.function x xs a)) (hv : c.newVariable? x = some (c₁, k))
    (hx : (c₁.makeReadable.enterFunction x).addParameters? xs = some c₂)
    (ext : c₁.heap.Extends H) : c₂.Hosts a := by
  obtain ⟨⟨-, hp, st, room⟩, -, fits, valid⟩ := h
  obtain ⟨few, slots, modest, inner⟩ := fits
  have scopes := scopes_enterFunction hv hx hp st (a := a)
  obtain ⟨news, e, hp₁, -⟩ := extends_variable hv hp (.refl _)
  obtain ⟨hp₂, st₂, -, -, depth, locals, -⟩ := enterFunction_proper hx hp₁ (e.settled st)
  have outer := room.behind fun t => t.newVariable? hH small ext hv
  have inside : c₂.inside = true := by
    obtain ⟨rfl, -⟩ := addParameters?_eq (c := c₁.makeReadable.enterFunction x) Nat.one_pos
      (show 1 ≤ slotLimit by decide) hx
    rfl
  have nested : c₂.scopes.nested = true := by rw [scopes_nested, depth]; rfl
  have count : c₂.draft.locals.length = xs.length + 1 := by simp [locals, parameters]
  rw [← scopes] at modest inner outer
  refine ⟨⟨rfl, hp₂, st₂, (outer.makeReadable).enterFunction modest hx⟩, ?_, inner, ?_⟩
  · rw [nested, count]
    unfold slotLimit
    omega
  · rw [inside, scope_enterFunction hx]
    exact valid.2.2

/-- There is room for the object of a function behind its body. -/
theorem leave {f : Function} (h : c.Hosts (.function x xs a))
    (hv : c.newVariable? x = some (c₁, k))
    (hx : (c₁.makeReadable.enterFunction x).addParameters? xs = some c₂)
    (hb : StmtCode c₂ a is c₃) (ext₁ : c₁.heap.Extends H)
    (ext : (c₃.heap.allocate (.function f)).1.Extends H) : (c₃.leaveFunction? f).isSome := by
  obtain ⟨⟨-, hp, st, room⟩, -⟩ := h
  have scopes := scopes_enterFunction hv hx hp st (a := a)
  obtain ⟨news, e, hp₁, -⟩ := extends_variable hv hp (.refl _)
  obtain ⟨hp₂, st₂, -⟩ := enterFunction_proper hx hp₁ (e.settled st)
  have outer := (room.behind fun t => t.newVariable? hH small ext₁ hv).makeReadable
  rw [← scopes] at outer
  obtain ⟨needs, t, roomy⟩ := outer
  obtain ⟨ns, outer, rfl⟩ := t.cons
  have ext₃ := (c₃.heap.extends_allocate (.function f)).trans ext
  have t₃ := (hb.told hH small hp₂ st₂ ext₃ (t.enterFunction hx)).tracked
  rw [← tally_tally] at roomy
  have larger : (c₃.heap.allocate (.function f)).1.size ≤ H.size := ext.size_le
  rw [Heap.size_allocate] at larger
  exact leaveFunction?_isSome t₃ roomy (by omega)

end Hosts

end Context
end Compile
end StackScript
