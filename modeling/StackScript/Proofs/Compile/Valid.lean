import StackScript.Proofs.Compile.Growth
import StackScript.Proofs.Syntax.Static

/-!
# StackScript.Proofs.Compile.Valid

What compiles keeps to the static rules.

* `Context.scope`: the names that were declared so far in the innermost scope.
* `Context.Clear`: a name that is not that of a variable whose initializer is being compiled.
* `StmtCode.valid`: a tree that has code keeps to the rules.
-/

namespace StackScript
namespace Compile

open Syntax Instruction

theorem takeWhile_raised {d : Nat} {ls ls' : List Local}
    (h : List.Forall₂ Local.Raised ls ls') :
    (ls'.takeWhile (Draft.declaredWithin d)).map Local.name =
      (ls.takeWhile (Draft.declaredWithin d)).map Local.name := by
  induction h with
  | nil => rfl
  | @cons l l' _ _ r _ ih =>
    have within : Draft.declaredWithin d l' = Draft.declaredWithin d l := by
      rw [Draft.declaredWithin, r.2.1, Draft.declaredWithin]
    rw [List.takeWhile_cons, List.takeWhile_cons, within]
    split
    · rw [List.map_cons, List.map_cons, ih, r.1]
    · rfl

/-- Locals that were raised are found where they were. -/
theorem findIn_raised {name : String} {ls ls' : List Local} (h : List.Forall₂ Local.Raised ls ls') :
    (Draft.findIn name ls').map (·.2.depth) = (Draft.findIn name ls).map (·.2.depth) := by
  induction h with
  | nil => rfl
  | cons r _ ih =>
    rw [Draft.findIn, Draft.findIn, r.1]
    split
    · exact congrArg some r.2.1
    · exact ih

namespace Context

variable {c c₁ c' : Context} {name x : String} {k : UInt8} {news : List Local}
  {names : List String}

/-- The names of the locals of the innermost scope. At the top of a script variables are global. -/
def scope (c : Context) : Option (List String) :=
  if 0 < c.draft.depth then
    some ((c.draft.locals.takeWhile (Draft.declaredWithin c.draft.depth)).map Local.name)
  else none

theorem depth_of_scope (hn : c.scope = some names) : 0 < c.draft.depth := by
  by_contra hd
  rw [scope, if_neg hd] at hn
  cases hn

/-- A name does not stand for a local whose initializer is being compiled. -/
def Clear (c : Context) (name : String) : Prop :=
  ∀ depth ∈ (c.draft.findLocal? name).map (·.2.depth), depth.isSome

theorem Grown.scope (g : c.Grown c') : c'.scope = c.scope := by
  rw [Context.scope, Context.scope, g.draft.depth, takeWhile_raised g.draft.locals]

theorem Extends.scope {a : Stmt} (e : c.Extends news c')
    (names : news.map Local.name = if 0 < c.draft.depth then a.declared else []) :
    c'.scope = c.scope.map (a.declared ++ ·) := by
  have depth := e.depth
  obtain ⟨old, locals, g, inside⟩ := e
  rw [Context.scope, Context.scope, depth]
  split
  next hd =>
    have within : ∀ l ∈ news, Draft.declaredWithin c.draft.depth l = true := by
      intro l hl
      simp [Draft.declaredWithin, inside l hl]
    have old := takeWhile_raised (d := c.draft.depth) g.draft.locals
    rw [if_pos hd] at names
    rw [locals, List.takeWhile_append_of_pos within, List.map_append, names, Option.map_some]
    exact congrArg (some <| a.declared ++ ·) old
  next => rfl

theorem scope_openScope (st : c.draft.Settled) : c.openScope.scope = some [] := by
  have none : c.draft.locals.takeWhile (Draft.declaredWithin (c.draft.depth + 1)) = [] := by
    cases hl : c.draft.locals with
    | nil => rfl
    | cons l ls =>
      obtain ⟨k, hk, le⟩ := st l (by rw [hl]; exact List.mem_cons_self)
      refine List.takeWhile_cons_of_neg ?_
      simp only [Draft.declaredWithin, hk, decide_eq_true_eq]
      omega
  rw [scope, if_pos (show 0 < c.openScope.draft.depth from Nat.succ_pos _)]
  exact congrArg (fun ls => some (ls.map Local.name)) none

theorem Grown.clear (g : c.Grown c') : c'.Clear x ↔ c.Clear x := by
  rw [Clear, Clear, Draft.findLocal?, Draft.findLocal?, findIn_raised g.draft.locals]

theorem clear_of_settled (st : c.draft.Settled) (x : String) : c.Clear x := by
  intro depth hd
  obtain ⟨⟨slot, l⟩, hl, rfl⟩ := Option.map_eq_some_iff.1 hd
  obtain ⟨k, hk, -⟩ := st l (Draft.mem_of_findIn hl)
  exact Option.isSome_of_eq_some hk

theorem declares_iff (hn : c.scope = some names) : c.draft.declares x = true ↔ x ∈ names := by
  rw [scope] at hn
  split at hn
  · cases hn
    simp [Draft.declares]
  · cases hn

/-- A name is declared if it is new in the scope, and there is a slot for it. -/
theorem addLocal?_isSome (hn : c.scope = some names) :
    (c.addLocal? x).isSome ↔ x ∉ names ∧ c.draft.locals.length < slotLimit := by
  rw [← declares_iff hn, addLocal?]
  split
  next h => simpa using h
  next h => simpa using h

theorem newVariable?_fresh (h : c.newVariable? name = some (c₁, k)) :
    ∀ names ∈ c.scope, name ∉ names := by
  intro names hn
  rw [newVariable?_of_scope (depth_of_scope hn)] at h
  obtain ⟨c₂, h₂, -⟩ := Option.map_eq_some_iff.1 h
  exact ((addLocal?_isSome hn).1 (Option.isSome_of_eq_some h₂)).1

/-- Behind the name of a variable only this name is not clear, if the variable is local. -/
theorem clear_newVariable? (h : c.newVariable? name = some (c₁, k)) (st : c.draft.Settled) :
    c₁.Clear x ↔ (0 < c.draft.depth → x ≠ name) := by
  by_cases hd : 0 < c.draft.depth
  · rw [newVariable?_of_scope hd] at h
    obtain ⟨c₂, h₂, e⟩ := Option.map_eq_some_iff.1 h
    cases e
    obtain ⟨rfl, -⟩ := addLocal?_eq h₂
    by_cases hx : x = name
    · subst hx
      simp [Clear, Draft.findLocal?, withLocals, Draft.findIn, hd]
    · have other : c.Clear x := clear_of_settled st x
      have ne : name ≠ x := fun e => hx e.symm
      have same : (c.withLocals (⟨name, none, false⟩ :: c.draft.locals)).draft.findLocal? x =
          c.draft.findLocal? x := if_neg ne
      rw [Clear, same]
      exact ⟨fun _ _ => hx, fun _ => other⟩
  · rw [newVariable?, if_neg hd] at h
    have g := textConstant?_grown h
    exact ⟨fun _ hd' => absurd hd' hd, fun _ => g.clear.2 (clear_of_settled st x)⟩

/-- The context behind a parameter. -/
def withParameter (c : Context) (x : String) : Context :=
  { c with draft := { c.draft with
      arity := c.draft.arity + 1
      locals := ⟨x, some c.draft.depth, false⟩ :: c.draft.locals } }

theorem scope_withParameter (hn : c.scope = some names) :
    (c.withParameter x).scope = some (x :: names) := by
  rw [scope] at hn ⊢
  split at hn
  next hd =>
    cases hn
    have within : Draft.declaredWithin c.draft.depth ⟨x, some c.draft.depth, false⟩ = true := by
      simp [Draft.declaredWithin]
    rw [if_pos (show 0 < (c.withParameter x).draft.depth from hd)]
    exact congrArg (fun ls => some (ls.map Local.name)) (List.takeWhile_cons_of_pos within)
  next => cases hn

theorem addParameter?_eq_some (hn : c.scope = some names) :
    c.addParameter? x = some c₁ ↔
      (c.draft.arity < countLimit ∧ x ∉ names ∧ c.draft.locals.length < slotLimit) ∧
        c.withParameter x = c₁ := by
  have hd := depth_of_scope hn
  let c' : Context := { c with draft := { c.draft with arity := c.draft.arity + 1 } }
  have readable : (c'.withLocals (⟨x, none, false⟩ :: c.draft.locals)).makeReadable =
      c.withParameter x := if_pos hd
  have room := addLocal?_isSome (c := c') (x := x) hn
  have step : c.addParameter? x =
      if c.draft.arity + 1 ≤ countLimit then (c'.addLocal? x).map makeReadable else none := rfl
  rw [step]
  constructor
  · intro h
    split at h
    next few =>
      obtain ⟨c₂, h₂, rfl⟩ := Option.map_eq_some_iff.1 h
      obtain ⟨rfl, -⟩ := addLocal?_eq h₂
      exact ⟨⟨few, room.1 (Option.isSome_of_eq_some h₂)⟩, readable.symm⟩
    next => cases h
  · rintro ⟨⟨few, fresh⟩, rfl⟩
    obtain ⟨c₂, h₂⟩ := Option.isSome_iff_exists.1 (room.2 fresh)
    obtain ⟨rfl, -⟩ := addLocal?_eq h₂
    rw [if_pos (Nat.succ_le_of_lt few), h₂, Option.map_some]
    exact congrArg some readable

/-- The parameters of a function are new in its scope, and not too many. -/
theorem addParameters?_isSome {xs : List String} : ∀ {c : Context} {names : List String},
    c.scope = some names → c.draft.arity ≤ countLimit → c.draft.locals.length ≤ slotLimit →
    ((c.addParameters? xs).isSome ↔ c.draft.arity + xs.length ≤ countLimit ∧
      c.draft.locals.length + xs.length ≤ slotLimit ∧ xs.Nodup ∧ ∀ x ∈ xs, x ∉ names) := by
  induction xs with
  | nil => exact fun _ arity locals => by simp [addParameters?, arity, locals]
  | cons x xs ih =>
    intro c names hn _ _
    have step : c.addParameters? (x :: xs) = (c.addParameter? x).bind (·.addParameters? xs) := rfl
    have behind := scope_withParameter (x := x) hn
    have arity : (c.withParameter x).draft.arity = c.draft.arity + 1 := rfl
    have locals : (c.withParameter x).draft.locals.length = c.draft.locals.length + 1 := rfl
    have disjoint : (xs.Nodup ∧ ∀ y ∈ xs, y ∉ x :: names) ∧ x ∉ names ↔
        (x :: xs).Nodup ∧ ∀ y ∈ x :: xs, y ∉ names := by
      simp only [List.nodup_cons, List.mem_cons, not_or, forall_eq_or_imp]
      constructor
      · rintro ⟨⟨distinct, apart⟩, fresh⟩
        exact ⟨⟨fun hx => (apart x hx).1 rfl, distinct⟩, fresh, fun y hy => (apart y hy).2⟩
      · rintro ⟨⟨hx, distinct⟩, fresh, apart⟩
        exact ⟨⟨distinct, fun y hy => ⟨fun e => hx (e ▸ hy), apart y hy⟩⟩, fresh⟩
    rw [← disjoint, List.length_cons, step]
    constructor
    · intro h
      obtain ⟨c₂, h⟩ := Option.isSome_iff_exists.1 h
      obtain ⟨c₁, h₁, h⟩ := Option.bind_eq_some_iff.1 h
      obtain ⟨⟨few, fresh, room⟩, rfl⟩ := (addParameter?_eq_some hn).1 h₁
      obtain ⟨few, room, rest⟩ := (ih behind few room).1 (Option.isSome_of_eq_some h)
      rw [arity] at few
      rw [locals] at room
      exact ⟨by omega, by omega, rest, fresh⟩
    · rintro ⟨few, room, rest, fresh⟩
      have few₁ : c.draft.arity < countLimit := by omega
      have room₁ : c.draft.locals.length < slotLimit := by omega
      rw [(addParameter?_eq_some hn).2 ⟨⟨few₁, fresh, room₁⟩, rfl⟩, Option.bind_some]
      exact (ih behind few₁ room₁).2 ⟨by rw [arity]; omega, by rw [locals]; omega, rest⟩

/-- The body of a function has the scope of its parameters. -/
theorem enterFunction_isSome {xs : List String} :
    ((c.enterFunction name).addParameters? xs).isSome ↔ xs.length ≤ countLimit ∧ xs.Nodup := by
  have scope : (c.enterFunction name).scope = some [] := rfl
  have arity : (c.enterFunction name).draft.arity = 0 := rfl
  have locals : (c.enterFunction name).draft.locals.length = 1 := rfl
  have room : xs.length ≤ countLimit → 1 + xs.length ≤ slotLimit := by
    unfold countLimit slotLimit
    omega
  rw [addParameters?_isSome scope (Nat.zero_le _) (show 1 ≤ slotLimit by decide), arity, locals,
    Nat.zero_add]
  exact ⟨fun ⟨few, _, distinct, _⟩ => ⟨few, distinct⟩,
    fun ⟨few, distinct⟩ => ⟨few, room few, distinct, fun _ _ => List.not_mem_nil⟩⟩

theorem scope_enterFunction {xs : List String}
    (h : (c.enterFunction name).addParameters? xs = some c') : c'.scope = some xs.reverse := by
  obtain ⟨rfl, -⟩ := addParameters?_eq (c := c.enterFunction name) Nat.one_pos
    (show 1 ≤ slotLimit by decide) h
  have within : ∀ l ∈ parameters 1 xs, Draft.declaredWithin 1 l = true := by
    intro l hl
    obtain ⟨x, -, rfl⟩ := List.mem_map.1 hl
    rfl
  have names : (parameters 1 xs).map Local.name = xs.reverse := by
    simp [parameters, Function.comp_def]
  rw [← names, ← List.append_nil (parameters 1 xs)]
  exact congrArg (fun ls => some (ls.map Local.name)) (List.takeWhile_append_of_pos within)

theorem resolve?_clear {p : Place} (h : c.resolve? name = some (c', p)) : c.Clear name := by
  intro depth hd
  obtain ⟨⟨slot, l⟩, hl, rfl⟩ := Option.map_eq_some_iff.1 hd
  unfold resolve? at h
  simp only [hl] at h
  split at h
  next readable => exact readable
  next => cases h

end Context

mutual

/-- An expression that has code is not inside the initializer of a variable that it mentions. -/
theorem ExprCode.clear {c c' : Context} {e : Expr} {is : List Instruction}
    (h : ExprCode c e is c') (hp : c.Proper) : ∀ x ∈ e.names, c.Clear x := by
  cases h with
  | nil | true | false | number | string => exact nofun
  | get h =>
    intro x hx
    cases List.mem_singleton.1 hx
    exact Context.resolve?_clear h
  | set h he =>
    obtain ⟨g, hp₁⟩ := Context.resolve?_grown h hp
    intro x hx
    obtain rfl | hx := List.mem_cons.1 hx
    · exact Context.resolve?_clear h
    · exact g.clear.1 (he.clear hp₁ x hx)
  | unary he => exact he.clear hp
  | binary h₁ h₂ | and h₁ h₂ | or h₁ h₂ | index h₁ h₂ | call h₁ h₂ =>
    intro x hx
    obtain hx | hx := List.mem_append.1 hx
    · exact h₁.clear hp x hx
    · exact (h₁.grows.grown hp).clear.1 (h₂.clear (h₁.grows.proper hp) x hx)
  | setIndex h₁ h₂ h₃ =>
    have hp₁ := h₁.grows.proper hp
    intro x hx
    obtain hx | hx := List.mem_append.1 hx
    · exact h₁.clear hp x hx
    refine (h₁.grows.grown hp).clear.1 ?_
    obtain hx | hx := List.mem_append.1 hx
    · exact h₂.clear hp₁ x hx
    · exact (h₂.grows.grown hp₁).clear.1 (h₃.clear (h₂.grows.proper hp₁) x hx)
  | array h => exact h.clear hp

theorem ExprsCode.clear {c c' : Context} {es : Exprs} {is : List Instruction}
    (h : ExprsCode c es is c') (hp : c.Proper) : ∀ x ∈ es.names, c.Clear x := by
  cases h with
  | nil => exact nofun
  | cons h₁ h₂ =>
    intro x hx
    obtain hx | hx := List.mem_append.1 hx
    · exact h₁.clear hp x hx
    · exact (h₁.grows.grown hp).clear.1 (h₂.clear (h₁.grows.proper hp) x hx)

end

/-- Whether a place is in a function. -/
def Context.inside (c : Context) : Bool := decide (c.draft.kind = .function)

theorem Context.Grown.inside {c c' : Context} (g : c.Grown c') : c'.inside = c.inside := by
  rw [Context.inside, Context.inside, g.draft.kind]

theorem Context.Extends.inside {c c' : Context} {news : List Local} (e : c.Extends news c') :
    c'.inside = c.inside := by
  obtain ⟨old, -, g, -⟩ := e
  exact g.inside

/-- A statement that has code keeps to the static rules. -/
theorem StmtCode.valid {c c' : Context} {a : Stmt} {is : List Instruction}
    (h : StmtCode c a is c') : c.Proper → c.draft.Settled → a.Valid c.inside c.scope := by
  induction h with
  | empty | expression | print => exact fun _ _ => trivial
  | seq ha _ ih ih' =>
    intro hp st
    obtain ⟨news, e, hp₁, n⟩ := ha.extends hp st
    have rest := ih' hp₁ (e.settled st)
    rw [e.inside, e.scope n] at rest
    exact ⟨ih hp st, rest⟩
  | @var c c₁ c' name k e is hv he =>
    intro hp st names hn
    refine ⟨Context.newVariable?_fresh hv names hn, fun hx => ?_⟩
    have clear := he.clear (Context.newVariable?_proper hv hp) name hx
    exact (Context.clear_newVariable? hv st).1 clear (Context.depth_of_scope hn) rfl
  | @function c c₁ c₂ c₃ c' name k k' xs a is lines hv hx hb hl hc ih =>
    intro hp st
    obtain ⟨news, e, hp₁, n, -⟩ := Context.extends_variable hv hp (.refl _)
    obtain ⟨hp₂, st₂, -⟩ := Context.enterFunction_proper hx hp₁ (e.settled st)
    have body := ih hp₂ st₂
    have inside : c₂.inside = true := by
      obtain ⟨rfl, -⟩ := Context.addParameters?_eq (c := c₁.makeReadable.enterFunction name)
        Nat.one_pos (show 1 ≤ slotLimit by decide) hx
      rfl
    rw [inside, Context.scope_enterFunction hx] at body
    exact ⟨Context.newVariable?_fresh hv,
      (Context.enterFunction_isSome.1 (Option.isSome_of_eq_some hx)).2, body⟩
  | block _ ih =>
    intro hp st
    have body := ih (Context.openScope_proper hp) (Context.openScope_settled st)
    rwa [Context.scope_openScope st] at body
  | ifElse he ha _ n n' _ _ ih ih' =>
    intro hp st
    have hp₁ := he.grows.proper hp
    have g := he.grows.grown hp
    have st₁ := g.draft.settled st
    obtain ⟨news, e, hp₂, names⟩ := ha.extends hp₁ st₁
    rw [Stmt.declared_of_declaresNothing n, ite_self] at names
    have g' := e.ofNames names
    have yes := ih hp₁ st₁
    have no := ih' hp₂ (g'.draft.settled st₁)
    rw [g.inside, g.scope] at yes
    rw [g'.inside, g'.scope, g.inside, g.scope] at no
    exact ⟨yes, no⟩
  | «while» he _ _ _ ih =>
    intro hp st
    have g := he.grows.grown hp
    have body := ih (he.grows.proper hp) (g.draft.settled st)
    rwa [g.inside, g.scope] at body
  | @«for» c c₁ c₂ c₃ c' i a _ _ _ _ _ _ hi h₁ h₂ _ _ _ ih ih' =>
    intro hp st
    have st₀ := Context.openScope_settled st
    obtain ⟨news, e, hp₁, names⟩ := hi.extends (Context.openScope_proper hp) st₀
    have start := ih (Context.openScope_proper hp) st₀
    have g := (h₁.grows.trans h₂.grows).grown hp₁
    have body := ih' ((h₁.grows.trans h₂.grows).proper hp₁) (g.draft.settled (e.settled st₀))
    rw [Context.scope_openScope st] at start
    rw [g.inside, g.scope, e.inside, e.scope names, Context.scope_openScope st, Option.map_some,
      List.append_nil] at body
    exact ⟨start, body⟩
  | «return» hk =>
    intro _ _
    exact decide_eq_true hk

end Compile
end StackScript
