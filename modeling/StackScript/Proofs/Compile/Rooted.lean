import StackScript.Proofs.Compile.Growth
import StackScript.Proofs.Syntax.Named

/-!
# StackScript.Proofs.Compile.Rooted

The lowest slot of a frame has the function that is called. No variable lives there, because no
variable has the empty name.

* `Draft.Rooted`, `Context.Rooted`: the lowest local has no name and is not captured.
* `Context.local_ne_zero`: a variable that is a local is not in the lowest slot.
* `ExprCode.rooted`, `StmtCode.rooted`: code leaves the lowest local alone.
-/

namespace StackScript
namespace Compile

open Syntax

namespace Draft

def Rooted (d : Draft) : Prop :=
  ∃ l, d.locals.getLast? = some l ∧ l.name = "" ∧ l.captured = false

variable {d d' : Draft} {name : String}

theorem Rooted.ofLocals (h : d.Rooted) (e : d'.locals = d.locals) : d'.Rooted := by
  obtain ⟨l, last, root⟩ := h
  exact ⟨l, e ▸ last, root⟩

theorem Rooted.ne_nil (h : d.Rooted) : d.locals ≠ [] := by
  obtain ⟨l, last, -⟩ := h
  intro e
  rw [e] at last
  cases last

/-- Locals that come in front do not matter. -/
theorem Rooted.append (h : d.Rooted) {news : List Local} (e : d'.locals = news ++ d.locals) :
    d'.Rooted := by
  obtain ⟨l, last, root⟩ := h
  exact ⟨l, by rw [e, List.getLast?_append, last, Option.some_or], root⟩

theorem Rooted.ofAppend {news : List Local} (h : d.Rooted) (e : d.locals = news ++ d'.locals)
    (more : d'.locals ≠ []) : d'.Rooted := by
  obtain ⟨l, last, root⟩ := h
  rw [e, List.getLast?_append_of_ne_nil _ more] at last
  exact ⟨l, last, root⟩

theorem getLast?_captureIn {ls : List Local} {l : Local} (last : ls.getLast? = some l)
    (hn : l.name ≠ name) : (captureIn name ls).getLast? = some l := by
  induction ls with
  | nil => cases last
  | cons l' ls ih =>
    unfold captureIn
    cases ls with
    | nil =>
      obtain rfl : l' = l := Option.some.inj last
      rw [if_neg hn]
      rfl
    | cons l'' ls =>
      rw [List.getLast?_cons_cons] at last
      split
      · exact last
      · rw [List.getLast?_cons, ih last]
        rfl

theorem Rooted.captureLocal (h : d.Rooted) (hn : name ≠ "") : (d.captureLocal name).Rooted := by
  obtain ⟨l, last, root, free⟩ := h
  exact ⟨l, getLast?_captureIn last fun e => hn (e.symm.trans root), root, free⟩

theorem locals_addCapture (d : Draft) (c : Capture) : (d.addCapture c).1.locals = d.locals := by
  unfold addCapture
  split
  · rfl
  · split <;> rfl

theorem getLast?_of_findIn {ls : List Local} {l : Local} (h : findIn name ls = some (0, l)) :
    ls.getLast? = some l ∧ l.name = name := by
  induction ls with
  | nil => cases h
  | cons l' ls ih =>
    unfold findIn at h
    split at h
    next e =>
      obtain ⟨size, rfl⟩ := Prod.mk.inj (Option.some.inj h)
      obtain rfl := List.length_eq_zero_iff.1 size
      exact ⟨rfl, e⟩
    next =>
      obtain ⟨last, e⟩ := ih h
      rw [List.getLast?_cons, last]
      exact ⟨rfl, e⟩

end Draft

/-- Looking a variable up captures no lowest local. -/
theorem resolveUpvalue_rooted {name : String} (hn : name ≠ "") {ds : List Draft} :
    ∀ {d : Draft} {r : Resolution}, resolveUpvalue name d ds = some r → d.Rooted →
      (∀ o ∈ ds, o.Rooted) → r.draft.Rooted ∧ ∀ o ∈ r.enclosing, o.Rooted := by
  induction ds with
  | nil => exact fun h => by cases h
  | cons o ds ih =>
    intro d r h hd hds
    obtain ⟨ho, hds⟩ := List.forall_mem_cons.1 hds
    simp only [resolveUpvalue] at h
    split at h
    next =>
      cases h
      exact ⟨hd.ofLocals (d.locals_addCapture _),
        List.forall_mem_cons.2 ⟨ho.captureLocal hn, hds⟩⟩
    next =>
      split at h
      next => cases h
      next r' hr =>
        cases h
        obtain ⟨hd', hds'⟩ := ih hr ho hds
        exact ⟨hd.ofLocals (d.locals_addCapture _), List.forall_mem_cons.2 ⟨hd', hds'⟩⟩

namespace Context

structure Rooted (c : Context) : Prop where
  draft : c.draft.Rooted
  enclosing : ∀ d ∈ c.enclosing, d.Rooted

variable {c c' : Context} {name : String}

theorem addConstant?_rooted {v : Value} {k : UInt8} (h : c.addConstant? v = some (c', k))
    (hr : c.Rooted) : c'.Rooted := by
  obtain ⟨_, _, e⟩ := Option.map_eq_some_iff.1 h
  cases e
  exact ⟨hr.draft.ofLocals rfl, hr.enclosing⟩

theorem textConstant?_rooted {text : String} {k : UInt8}
    (h : c.textConstant? text = some (c', k)) (hr : c.Rooted) : c'.Rooted :=
  addConstant?_rooted h ⟨hr.draft, hr.enclosing⟩

theorem resolve?_rooted {p : Place} (h : c.resolve? name = some (c', p)) (hn : name ≠ "")
    (hr : c.Rooted) : c'.Rooted := by
  unfold resolve? at h
  split at h
  next =>
    split at h
    next =>
      cases h
      exact hr
    next => cases h
  next =>
    split at h
    next r he =>
      split at h
      next =>
        cases h
        obtain ⟨draft, enclosing⟩ := resolveUpvalue_rooted hn he hr.draft hr.enclosing
        exact ⟨draft, enclosing⟩
      next => cases h
    next =>
      obtain ⟨_, hk, e⟩ := Option.map_eq_some_iff.1 h
      cases e
      exact textConstant?_rooted hk hr

theorem local_ne_zero {i : UInt8} (h : c.resolve? name = some (c', ⟨.getLocal i, .setLocal i⟩))
    (hp : c.Proper) (hn : name ≠ "") (hr : c.Rooted) : i ≠ 0 := by
  unfold resolve? at h
  split at h
  next slot l hl =>
    split at h
    next =>
      obtain ⟨-, e⟩ := Prod.mk.inj (Option.some.inj h)
      cases e
      have bound : slot < 256 := Nat.lt_of_lt_of_le (Draft.findIn_captureIn hl).1 hp.draft.locals
      intro zero
      have zero : slot = 0 := by
        have := congrArg UInt8.toNat zero
        simpa [Nat.mod_eq_of_lt bound] using this
      subst zero
      obtain ⟨l', last, root, -⟩ := hr.draft
      obtain ⟨last', named⟩ := Draft.getLast?_of_findIn hl
      obtain rfl := Option.some.inj (last.symm.trans last')
      exact hn (named.symm.trans root)
    next => cases h
  next =>
    split at h
    next =>
      split at h
      next => simp at h
      next => cases h
    next =>
      obtain ⟨_, _, e⟩ := Option.map_eq_some_iff.1 h
      cases e

theorem newVariable?_rooted {k : UInt8} (h : c.newVariable? name = some (c', k))
    (hr : c.Rooted) : c'.Rooted := by
  by_cases hd : 0 < c.draft.depth
  · rw [newVariable?_of_scope hd] at h
    obtain ⟨c₂, h₂, e⟩ := Option.map_eq_some_iff.1 h
    obtain ⟨rfl, -⟩ := Prod.mk.inj e
    obtain ⟨rfl, -⟩ := addLocal?_eq h₂
    have front : (c.withLocals (⟨name, none, false⟩ :: c.draft.locals)).draft.locals =
        [⟨name, none, false⟩] ++ c.draft.locals := rfl
    exact ⟨hr.draft.append front, hr.enclosing⟩
  · rw [newVariable?, if_neg hd] at h
    exact textConstant?_rooted h hr

theorem makeReadable_rooted (hr : c.Rooted) : c.makeReadable.Rooted := by
  unfold makeReadable
  split
  · refine ⟨?_, hr.enclosing⟩
    obtain ⟨l, last, root⟩ := hr.draft
    unfold Draft.makeReadable
    cases hl : c.draft.locals with
    | nil => exact hr.draft
    | cons l' ls =>
      rw [hl] at last
      cases ls with
      | nil =>
        obtain rfl := Option.some.inj last
        exact ⟨_, rfl, root⟩
      | cons l'' ls => exact ⟨l, last, root⟩
  · exact hr

/-- The function itself is the lowest local of its body. -/
theorem enterFunction_rooted {xs : List String}
    (h : (c.enterFunction name).addParameters? xs = some c') (hp : c.Proper)
    (hs : c.draft.Settled) (hr : c.Rooted) : c'.Rooted := by
  obtain ⟨-, -, around, -, -, locals, -⟩ := enterFunction_proper h hp hs
  refine ⟨⟨⟨"", some 0, false⟩, by rw [locals, List.getLast?_concat], rfl, rfl⟩, ?_⟩
  rw [around]
  exact List.forall_mem_cons.2 ⟨hr.draft, hr.enclosing⟩

theorem leaveFunction?_rooted {f : Function} {k : UInt8} (h : c.leaveFunction? f = some (c', k))
    (hr : c.Rooted) : c'.Rooted := by
  unfold leaveFunction? at h
  split at h
  next => cases h
  next d ds he =>
    obtain ⟨draft, enclosing⟩ := List.forall_mem_cons.1 (he ▸ hr.enclosing)
    exact addConstant?_rooted h ⟨draft, enclosing⟩

theorem Extends.closeScope_rooted {news : List Local} (e : c.openScope.Extends news c')
    (hs : c.draft.Settled) (more : c.draft.locals ≠ []) (hr : c'.Rooted) : c'.closeScope.Rooted := by
  obtain ⟨-, g, locals⟩ := e.closeScope hs
  refine ⟨hr.draft.ofAppend locals fun none => more ?_, hr.enclosing⟩
  exact List.length_eq_zero_iff.1 (g.draft.locals.length_eq.trans (none ▸ rfl))

theorem script_rooted (h : Heap) : (script h).Rooted :=
  ⟨⟨_, rfl, rfl, rfl⟩, by simp [script]⟩

end Context

mutual

theorem ExprCode.rooted {c c' : Context} {e : Expr} {is : List Instruction}
    (h : ExprCode c e is c') : e.Named → c.Rooted → c'.Rooted := by
  cases h with
  | nil | true | false => exact fun _ => id
  | number h => exact fun _ => Context.addConstant?_rooted h
  | string h => exact fun _ => Context.textConstant?_rooted h
  | get h => exact fun named => Context.resolve?_rooted h (Expr.named_get.1 named)
  | set h h' =>
    intro named hr
    obtain ⟨hn, named⟩ := Expr.named_set.1 named
    exact h'.rooted named (Context.resolve?_rooted h hn hr)
  | unary h => exact h.rooted
  | binary h h' =>
    intro named hr
    obtain ⟨na, nb⟩ := Expr.named_binary.1 named
    exact h'.rooted nb (h.rooted na hr)
  | and h h' =>
    intro named hr
    obtain ⟨na, nb⟩ := Expr.named_and.1 named
    exact h'.rooted nb (h.rooted na hr)
  | or h h' =>
    intro named hr
    obtain ⟨na, nb⟩ := Expr.named_or.1 named
    exact h'.rooted nb (h.rooted na hr)
  | call h h' =>
    intro named hr
    obtain ⟨na, nb⟩ := Expr.named_call.1 named
    exact h'.rooted nb (h.rooted na hr)
  | index h h' =>
    intro named hr
    obtain ⟨na, nb⟩ := Expr.named_index.1 named
    exact h'.rooted nb (h.rooted na hr)
  | setIndex h h' h'' =>
    intro named hr
    obtain ⟨na, nb, nc⟩ := Expr.named_setIndex.1 named
    exact h''.rooted nc (h'.rooted nb (h.rooted na hr))
  | array h => exact h.rooted

theorem ExprsCode.rooted {c c' : Context} {es : Exprs} {is : List Instruction}
    (h : ExprsCode c es is c') : es.Named → c.Rooted → c'.Rooted := by
  cases h with
  | nil => exact fun _ => id
  | cons h h' =>
    intro named hr
    obtain ⟨na, nb⟩ := Exprs.named_cons.1 named
    exact h'.rooted nb (h.rooted na hr)

end

theorem ClauseCode.rooted {c c' : Context} {e : Option Expr} {is : Option (List Instruction)}
    (h : ClauseCode c e is c') (named : ∀ a ∈ e, a.Named) (hr : c.Rooted) : c'.Rooted := by
  cases h with
  | absent => exact hr
  | present h => exact h.rooted (named _ rfl) hr

theorem StmtCode.rooted {c c' : Context} {a : Stmt} {is : List Instruction}
    (h : StmtCode c a is c') :
    a.Named → c.Proper → c.draft.Settled → c.Rooted → c'.Rooted := by
  induction h with
  | empty => exact fun _ _ _ => id
  | seq ha hb ih ih' =>
    intro named hp hs hr
    obtain ⟨_, e, hp₁, -⟩ := ha.extends hp hs
    exact ih' named.2 hp₁ (e.settled hs) (ih named.1 hp hs hr)
  | expression he | print he | «return» _ he => exact fun named _ _ => he.rooted named
  | var hv he =>
    exact fun named _ _ hr =>
      Context.makeReadable_rooted (he.rooted named (Context.newVariable?_rooted hv hr))
  | function hv hx ha _ hc ih =>
    intro named hp hs hr
    obtain ⟨_, e, hp₁, -⟩ := Context.extends_variable hv hp (.refl _)
    obtain ⟨hp₂, hs₂, -⟩ := Context.enterFunction_proper hx hp₁ (e.settled hs)
    have hr₁ := Context.makeReadable_rooted (Context.newVariable?_rooted hv hr)
    have hr₂ := Context.enterFunction_rooted hx hp₁ (e.settled hs) hr₁
    exact Context.makeReadable_rooted (Context.leaveFunction?_rooted hc (ih named hp₂ hs₂ hr₂))
  | block ha ih =>
    intro named hp hs hr
    have hp₁ := Context.openScope_proper hp
    have hs₁ := Context.openScope_settled hs
    obtain ⟨_, e, -⟩ := ha.extends hp₁ hs₁
    exact e.closeScope_rooted hs hr.draft.ne_nil (ih named hp₁ hs₁ ⟨hr.draft, hr.enclosing⟩)
  | ifElse he ha hb _ _ _ _ ih ih' =>
    intro named hp hs hr
    have hp₁ := he.grows.proper hp
    have hs₁ := (he.grows.grown hp).draft.settled hs
    obtain ⟨_, e, hp₂, -⟩ := ha.extends hp₁ hs₁
    exact ih' named.2.2 hp₂ (e.settled hs₁) (ih named.2.1 hp₁ hs₁ (he.rooted named.1 hr))
  | «while» he _ _ _ ih =>
    intro named hp hs hr
    exact ih named.2 (he.grows.proper hp) ((he.grows.grown hp).draft.settled hs)
      (he.rooted named.1 hr)
  | «for» hi h₁ h₂ ha _ _ ih ih' =>
    intro named hp hs hr
    obtain ⟨n, n₁, n₂, na⟩ := named
    have hs₀ := Context.openScope_settled hs
    obtain ⟨_, e, hp₁, -⟩ := hi.extends (Context.openScope_proper hp) hs₀
    have grows := h₁.grows.trans h₂.grows
    obtain ⟨_, -, e₁⟩ := e.transGrown (grows.grown hp₁)
    obtain ⟨_, e₂, -⟩ := ha.extends (grows.proper hp₁) (e₁.settled hs₀)
    obtain ⟨_, -, e'⟩ := e₁.trans e₂
    have hr₁ := ih n (Context.openScope_proper hp) hs₀ ⟨hr.draft, hr.enclosing⟩
    exact e'.closeScope_rooted hs hr.draft.ne_nil (ih' na (grows.proper hp₁) (e₁.settled hs₀)
      (h₂.rooted n₂ (h₁.rooted n₁ hr₁)))

end Compile
end StackScript
