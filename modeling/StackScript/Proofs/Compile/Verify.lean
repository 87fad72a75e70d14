import StackScript.Proofs.Bytecode.Verify
import StackScript.Proofs.Compile.Shape
import StackScript.Proofs.Store.Kept

/-!
# StackScript.Proofs.Compile.Verify

Compiled functions pass the verifier.

* `ExprCode.nested`, `StmtCode.nested`: jumps go over complete code.
* `Accepted`: a function is verified, and so are those in its pool.
* `Pooled`: the functions in the pools of a context are accepted. Code keeps this.
* `compile_verified`: a source that compiles becomes a function that is accepted.
-/

namespace StackScript
namespace Compile

open Syntax Instruction Bytecode

section Nested

theorem nested_read {c c' : Context} {name : String} {p : Place}
    (h : c.resolve? name = some (c', p)) : IsStraight p.read ∧ IsStraight p.assign := by
  unfold Context.resolve? at h
  split at h
  next =>
    split at h
    next =>
      cases h
      exact ⟨trivial, trivial⟩
    next => cases h
  next =>
    split at h
    next =>
      split at h
      next =>
        cases h
        exact ⟨trivial, trivial⟩
      next => cases h
    next =>
      obtain ⟨_, _, e⟩ := Option.map_eq_some_iff.1 h
      cases e
      exact ⟨trivial, trivial⟩

theorem nested_unary (op : UnaryOperator) : Nested [unaryCode op] := by
  cases op <;> exact .single trivial

theorem nested_binary (op : BinaryOperator) : Nested (binaryCode op) := by
  cases op <;> exact .straight (by simp [binaryCode, IsStraight])

theorem nested_definition (c : Context) (k : UInt8) : Nested (c.definition k) := by
  unfold Context.definition
  split
  · exact .nil
  · exact .single trivial

theorem nested_scopeCode (c : Context) : Nested c.scopeCode := by
  refine .straight fun i hi => ?_
  obtain ⟨l, -, rfl⟩ := List.mem_map.1 hi
  split <;> trivial

theorem nested_closureCode (c : Context) (k : UInt8) : Nested (c.closureCode k) := by
  refine .straight fun i hi => ?_
  obtain rfl | hi := List.mem_cons.1 hi
  · trivial
  · obtain ⟨x, -, rfl⟩ := List.mem_map.1 hi
    trivial

mutual

theorem ExprCode.nested {c c' : Context} {e : Expr} {is : List Instruction}
    (h : ExprCode c e is c') : Nested is := by
  cases h with
  | nil | true | false | number | string => exact .single trivial
  | get hr => exact .single (nested_read hr).1
  | set hr h => exact h.nested.append (.single (nested_read hr).2)
  | @unary _ _ op _ _ h => exact h.nested.append (nested_unary op)
  | @binary _ _ _ op _ _ _ _ h h' => exact h.nested.append (h'.nested.append (nested_binary op))
  | and h h' hw => exact h.nested.append (.and h'.nested hw)
  | or h h' hw => exact h.nested.append (.or h'.nested hw)
  | call h h' => exact h.nested.append (h'.nested.append (.single trivial))
  | index h h' => exact h.nested.append (h'.nested.append (.single trivial))
  | setIndex h h' h'' =>
    exact h.nested.append (h'.nested.append (h''.nested.append (.single trivial)))
  | array h => exact h.nested.append (.single trivial)

theorem ExprsCode.nested {c c' : Context} {es : Exprs} {is : List Instruction}
    (h : ExprsCode c es is c') : Nested is := by
  cases h with
  | nil => exact .nil
  | cons h h' => exact h.nested.append h'.nested

end

theorem ClauseCode.nested {c c' : Context} {e : Option Expr} {is : Option (List Instruction)}
    (h : ClauseCode c e is c') : ∀ js ∈ is, Nested js := by
  cases h with
  | absent => simp
  | present h =>
    rintro js ⟨⟩
    exact h.nested

theorem StmtCode.nested {c c' : Context} {a : Stmt} {is : List Instruction}
    (h : StmtCode c a is c') : Nested is := by
  induction h with
  | empty => exact .nil
  | seq _ _ ih ih' => exact ih.append ih'
  | expression h | print h | «return» _ h => exact h.nested.append (.single trivial)
  | var _ h => exact h.nested.append (nested_definition _ _)
  | function => exact (nested_closureCode _ _).append (nested_definition _ _)
  | block _ ih => exact ih.append (nested_scopeCode _)
  | ifElse h _ _ _ _ hw hw' ih ih' => exact h.nested.append (.choice ih ih' hw hw')
  | «while» h _ _ fits ih =>
    refine .loop (fun js hj => ?_) (by simp) ih fits
    cases hj
    exact h.nested
  | «for» _ h h' _ _ fits ih ih' =>
    exact ih.append ((Nested.loop h.nested h'.nested ih' fits).append (nested_scopeCode _))

/-- The code of a body, followed by its last return. -/
theorem StmtCode.nested_body {c c' : Context} {a : Stmt} {is : List Instruction}
    (h : StmtCode c a is c') : Nested (is ++ [.pushNil, .ret]) :=
  h.nested.append (.straight (by simp [IsStraight]))

end Nested

/-- A function and all those in its pool are verified. -/
def Accepted (h : Heap) (r : Ref) : Prop :=
  ∀ r' f, Part h r r' → h.function? r' = some f → ∃ xs depth, Verified h f xs depth

namespace Accepted

variable {h : Heap} {r : Ref}

theorem ofString {text : String} (hr : h.string? r = some text) : Accepted h r := by
  have none (f : Function) : h.function? r ≠ some f := fun hf => by
    have := (Heap.string?_eq_some.1 hr).symm.trans (Heap.function?_eq_some.1 hf)
    cases this
  intro r' f part hf
  cases part with
  | self => exact (none f hf).elim
  | inner hg => exact (none _ hg).elim

/-- A sound function is verified if its jumps are nested. -/
theorem ofSound {f : Function} {is : List Instruction} (sound : Sound h r)
    (hf : h.function? r = some f) (hc : f.chunk.code.toList = stream is) (nested : Nested is)
    (pool : ∀ r', .object r' ∈ f.chunk.constants → Accepted h r') : Accepted h r := by
  cases sound with
  | @intro _ g c hg fits makes =>
    obtain rfl := Option.some.inj (hf.symm.trans hg)
    have same : c.code = is := stream_injective (fits.code.symm.trans hc)
    intro r' f' part hf'
    cases part with
    | self =>
      obtain rfl := Option.some.inj (hf.symm.trans hf')
      exact ⟨c.items, c.depth, fits.verified (same ▸ nested)⟩
    | inner hg' member part =>
      obtain rfl := Option.some.inj (hf.symm.trans hg')
      exact pool _ member r' f' part hf'

end Accepted

namespace Context

/-- The pools of the functions at a place, innermost first. -/
def pools (c : Context) : List (Array Value) :=
  (c.draft :: c.enclosing).map fun d => d.chunk.constants

/-- The functions in the pools are accepted. -/
def Pooled (h : Heap) (c : Context) : Prop :=
  ∀ pool ∈ c.pools, ∀ r, .object r ∈ pool → Accepted h r

variable {h : Heap} {c c' : Context} {name : String} {k : UInt8}

theorem Pooled.congr (hc : c.Pooled h) (e : c'.pools = c.pools) : c'.Pooled h := by
  rwa [Pooled, e]

theorem addConstant?_pooled {v : Value} (hk : c.addConstant? v = some (c', k)) (hc : c.Pooled h)
    (hv : ∀ r, v = .object r → Accepted h r) : c'.Pooled h := by
  obtain ⟨⟨chunk, k'⟩, hk, e⟩ := Option.map_eq_some_iff.1 hk
  cases e
  have old : ∀ r, .object r ∈ c.draft.chunk.constants → Accepted h r := hc _ List.mem_cons_self
  have new : ∀ r, .object r ∈ chunk.constants → Accepted h r := by
    intro r hm
    unfold Chunk.addConstant? at hk
    split at hk
    next =>
      split at hk
      next =>
        cases hk
        exact old r hm
      next => cases hk
    next =>
      split at hk
      next =>
        cases hk
        obtain hm | e := Array.mem_push.1 hm
        · exact old r hm
        · exact hv r e.symm
      next => cases hk
  intro pool hp
  obtain rfl | hp := List.mem_cons.1 hp
  · exact new
  · exact hc pool (List.mem_cons_of_mem _ hp)

theorem textConstant?_pooled {text : String} (hk : c.textConstant? text = some (c', k))
    (hs : h.size ≤ UInt32.size) (ext : c'.heap.Extends h) (hc : c.Pooled h) : c'.Pooled h := by
  refine addConstant?_pooled hk (hc.congr rfl) fun r e => ?_
  obtain rfl := Value.object.inj e
  obtain ⟨_, _, e⟩ := Option.map_eq_some_iff.1 hk
  cases e
  exact .ofString (ext.string? (c.heap.string?_intern text (Nat.le_trans ext.size_le hs)))

theorem constants_addCapture (d : Draft) (x : Capture) :
    (d.addCapture x).1.chunk.constants = d.chunk.constants := by
  unfold Draft.addCapture
  split
  next => rfl
  next => split <;> rfl

theorem constants_resolveUpvalue {ds : List Draft} : ∀ {d : Draft} {r : Resolution},
    resolveUpvalue name d ds = some r →
      (r.draft :: r.enclosing).map (·.chunk.constants) = (d :: ds).map (·.chunk.constants) := by
  induction ds with
  | nil => exact fun hr => by cases hr
  | cons o ds ih =>
    intro d r hr
    rw [resolveUpvalue] at hr
    split at hr
    next =>
      cases hr
      rw [List.map_cons, List.map_cons, List.map_cons, List.map_cons]
      exact congrArg (· :: _) (constants_addCapture d _)
    next =>
      split at hr
      next => cases hr
      next r' hr' =>
        cases hr
        rw [List.map_cons, ih hr']
        exact congrArg (· :: _) (constants_addCapture d _)

theorem resolve?_pooled {p : Place} (hr : c.resolve? name = some (c', p))
    (hs : h.size ≤ UInt32.size) (ext : c'.heap.Extends h) (hc : c.Pooled h) : c'.Pooled h := by
  unfold resolve? at hr
  split at hr
  next =>
    split at hr
    next =>
      cases hr
      exact hc
    next => cases hr
  next =>
    split at hr
    next r hu =>
      split at hr
      next =>
        cases hr
        exact hc.congr (constants_resolveUpvalue hu)
      next => cases hr
    next =>
      obtain ⟨⟨c₁, k⟩, hk, e⟩ := Option.map_eq_some_iff.1 hr
      cases e
      exact textConstant?_pooled hk hs ext hc

theorem newVariable?_pooled (hv : c.newVariable? name = some (c', k)) (hs : h.size ≤ UInt32.size)
    (ext : c'.heap.Extends h) (hc : c.Pooled h) : c'.Pooled h := by
  by_cases hd : 0 < c.draft.depth
  · rw [newVariable?_of_scope hd] at hv
    obtain ⟨c₂, h₂, e⟩ := Option.map_eq_some_iff.1 hv
    cases e
    obtain ⟨rfl, -⟩ := addLocal?_eq h₂
    exact hc.congr rfl
  · rw [newVariable?, if_neg hd] at hv
    exact textConstant?_pooled hv hs ext hc

theorem pools_makeReadable (c : Context) : c.makeReadable.pools = c.pools := by
  unfold makeReadable Draft.makeReadable
  split
  next => cases hl : c.draft.locals <;> rfl
  next => rfl

theorem makeReadable_pooled (hc : c.Pooled h) : c.makeReadable.Pooled h :=
  hc.congr c.pools_makeReadable

/-- A function starts with an empty pool. -/
theorem enterFunction_pooled {xs : List String}
    (hx : (c.enterFunction name).addParameters? xs = some c') (hc : c.Pooled h) : c'.Pooled h := by
  obtain ⟨rfl, -, -⟩ := addParameters?_eq (c := c.enterFunction name) Nat.one_pos
    (show 1 ≤ slotLimit by decide) hx
  intro pool hp
  obtain rfl | hp := List.mem_cons.1 hp
  · intro r hm
    cases Array.not_mem_empty _ hm
  · exact hc pool hp

theorem leaveFunction?_pooled {f : Function} (hk : c.leaveFunction? f = some (c', k))
    (hc : c.Pooled h) (hf : Accepted h (c.heap.allocate (.function f)).2) : c'.Pooled h := by
  unfold leaveFunction? at hk
  split at hk
  next => cases hk
  next d ds he =>
    refine addConstant?_pooled hk (fun pool hp => hc pool ?_) fun r e => ?_
    · rw [pools, he]
      exact List.mem_cons_of_mem _ hp
    · obtain rfl := Value.object.inj e
      exact hf

end Context

/-- What every piece of code of an expression does to the pools, up to a last heap. -/
structure Pools (h : Heap) (c c' : Context) : Prop where
  grows : Grows c c'
  pooled : c.Proper → c'.heap.Extends h → c.Pooled h → c'.Pooled h

namespace Pools

variable {h : Heap}

theorem refl (c : Context) : Pools h c c := ⟨.refl c, fun _ _ => id⟩

theorem trans {c c₁ c' : Context} (a : Pools h c c₁) (b : Pools h c₁ c') : Pools h c c' where
  grows := a.grows.trans b.grows
  pooled hp ext hc := by
    have hp₁ := a.grows.proper hp
    exact b.pooled hp₁ ext (a.pooled hp ((b.grows.grown hp₁).heap.trans ext) hc)

end Pools

section Pools

variable {h : Heap}

theorem pools_resolve? {c c' : Context} {name : String} {p : Place}
    (hr : c.resolve? name = some (c', p)) (hs : h.size ≤ UInt32.size) : Pools h c c' :=
  ⟨⟨fun hp => (Context.resolve?_grown hr hp).1, fun hp => (Context.resolve?_grown hr hp).2⟩,
    fun _ => Context.resolve?_pooled hr hs⟩

mutual

theorem ExprCode.pools {c c' : Context} {e : Expr} {is : List Instruction}
    (he : ExprCode c e is c') (hs : h.size ≤ UInt32.size) : Pools h c c' := by
  cases he with
  | nil | true | false => exact .refl _
  | number hk =>
    exact ⟨⟨fun _ => (Context.addConstant?_grown hk).1, Context.addConstant?_proper hk⟩,
      fun _ _ hc => Context.addConstant?_pooled hk hc (by simp)⟩
  | string hk =>
    exact ⟨⟨fun _ => Context.textConstant?_grown hk, Context.textConstant?_proper hk⟩,
      fun _ => Context.textConstant?_pooled hk hs⟩
  | get hr => exact pools_resolve? hr hs
  | set hr he => exact (pools_resolve? hr hs).trans (he.pools hs)
  | unary he => exact he.pools hs
  | binary he he' | and he he' | or he he' | index he he' => exact (he.pools hs).trans (he'.pools hs)
  | call he hes => exact (he.pools hs).trans (hes.pools hs)
  | setIndex he he' he'' => exact (he.pools hs).trans ((he'.pools hs).trans (he''.pools hs))
  | array hes => exact hes.pools hs

theorem ExprsCode.pools {c c' : Context} {es : Exprs} {is : List Instruction}
    (hes : ExprsCode c es is c') (hs : h.size ≤ UInt32.size) : Pools h c c' := by
  cases hes with
  | nil => exact .refl _
  | cons he hes => exact (he.pools hs).trans (hes.pools hs)

end

theorem ClauseCode.pools {c c' : Context} {e : Option Expr} {is : Option (List Instruction)}
    (he : ClauseCode c e is c') (hs : h.size ≤ UInt32.size) : Pools h c c' := by
  cases he with
  | absent => exact .refl _
  | present he => exact he.pools hs

theorem StmtCode.later {c c' : Context} {a : Stmt} {is : List Instruction}
    (ha : StmtCode c a is c') (hp : c.Proper) (st : c.draft.Settled) :
    c'.Proper ∧ c'.draft.Settled ∧ c.heap.Extends c'.heap := by
  obtain ⟨_, e, hp', -⟩ := ha.extends hp st
  obtain ⟨_, -, g, -⟩ := id e
  exact ⟨hp', e.settled st, g.heap⟩

theorem StmtCode.pooled {c c' : Context} {a : Stmt} {is : List Instruction}
    (ha : StmtCode c a is c') (hs : h.size ≤ UInt32.size) : a.Named → c.Proper →
      c.draft.Settled → c.Rooted → c'.heap.Extends h → c.Pooled h → c'.Pooled h := by
  induction ha with
  | empty => exact fun _ _ _ _ _ hc => hc
  | seq ha hb ih ih' =>
    intro named hp st hr ext hc
    obtain ⟨hp₁, st₁, -⟩ := ha.later hp st
    obtain ⟨-, -, ext₂⟩ := hb.later hp₁ st₁
    exact ih' named.2 hp₁ st₁ (ha.rooted named.1 hp st hr) ext
      (ih named.1 hp st hr (ext₂.trans ext) hc)
  | expression he | print he | «return» _ he =>
    intro _ hp _ _ ext hc
    exact (he.pools hs).pooled hp ext hc
  | @var c c₁ c' name k e is hv he =>
    intro _ hp _ _ ext hc
    have ext : c'.heap.Extends h := Context.heap_makeReadable c' ▸ ext
    have hp₁ := Context.newVariable?_proper hv hp
    have ext₁ := ((he.pools hs).grows.grown hp₁).heap.trans ext
    exact Context.makeReadable_pooled
      ((he.pools hs).pooled hp₁ ext (Context.newVariable?_pooled hv hs ext₁ hc))
  | @block c c' a is ha ih =>
    intro named hp st hr ext hc
    exact (ih named (Context.openScope_proper hp) (Context.openScope_settled st)
      ⟨hr.draft, hr.enclosing⟩ ext (hc.congr rfl)).congr rfl
  | ifElse he ha hb _ _ _ _ ih ih' =>
    intro named hp st hr ext hc
    have pools := he.pools hs
    have hp₁ := pools.grows.proper hp
    have st₁ := (pools.grows.grown hp).draft.settled st
    obtain ⟨hp₂, st₂, ext₂⟩ := ha.later hp₁ st₁
    obtain ⟨-, -, ext₃⟩ := hb.later hp₂ st₂
    have ext₃ := ext₃.trans ext
    have ext₂ := ext₂.trans ext₃
    have hr₁ := he.rooted named.1 hr
    exact ih' named.2.2 hp₂ st₂ (ha.rooted named.2.1 hp₁ st₁ hr₁) ext
      (ih named.2.1 hp₁ st₁ hr₁ ext₃ (pools.pooled hp ext₂ hc))
  | «while» he ha _ _ ih =>
    intro named hp st hr ext hc
    have pools := he.pools hs
    have hp₁ := pools.grows.proper hp
    have st₁ := (pools.grows.grown hp).draft.settled st
    obtain ⟨-, -, ext₂⟩ := ha.later hp₁ st₁
    exact ih named.2 hp₁ st₁ (he.rooted named.1 hr) ext (pools.pooled hp (ext₂.trans ext) hc)
  | @«for» c _ _ _ c' i a _ _ _ _ _ _ hi h₁ h₂ ha _ _ ih ih' =>
    intro named hp st hr ext hc
    obtain ⟨n, n₁, n₂, na⟩ := named
    have hr : c.openScope.Rooted := ⟨hr.draft, hr.enclosing⟩
    have ext : c'.heap.Extends h := ext
    have hp := Context.openScope_proper hp
    have st := Context.openScope_settled st
    obtain ⟨hp₁, st₁, -⟩ := hi.later hp st
    have pools := (h₁.pools hs).trans (h₂.pools hs)
    have hp₃ := pools.grows.proper hp₁
    have st₃ := (pools.grows.grown hp₁).draft.settled st₁
    obtain ⟨-, -, ext₄⟩ := ha.later hp₃ st₃
    have ext₃ := ext₄.trans ext
    have ext₁ := (pools.grows.grown hp₁).heap.trans ext₃
    have first := ih n hp st hr ext₁ (hc.congr rfl)
    have hr₃ := h₂.rooted n₂ (h₁.rooted n₁ (hi.rooted n hp st hr))
    exact (ih' na hp₃ st₃ hr₃ ext (pools.pooled hp₁ ext₃ first)).congr rfl
  | @function c c₁ c₂ c₃ c' name k k' xs a is lines hv hx hb hlines hk ih =>
    intro named hp st hr ext hc
    have ext : c'.heap.Extends h := Context.heap_makeReadable c' ▸ ext
    obtain ⟨_, e, hp₁, -, -⟩ := Context.extends_variable hv hp (.refl _)
    have st₁ := e.settled st
    obtain ⟨hp₂, st₂, around, ext₂, -⟩ := Context.enterFunction_proper hx hp₁ st₁
    obtain ⟨_, e₂, hp₃, -⟩ := hb.extends hp₂ st₂
    obtain ⟨_, -, g, -⟩ := e₂
    have growns := g.enclosing
    rw [around] at growns
    obtain ⟨-, -, -, -, heap, -⟩ := Context.leaveFunction?_grown hk hp₃ growns (ext₂.trans g.heap)
    have last := heap ▸ ext
    have ext₃ : c₃.heap.Extends h := (c₃.heap.extends_allocate _).trans last
    have ext₁ : c₁.heap.Extends h :=
      Context.heap_makeReadable c₁ ▸ ext₂.trans (g.heap.trans ext₃)
    have outside := Context.makeReadable_pooled (Context.newVariable?_pooled hv hs ext₁ hc)
    have hr₂ := Context.enterFunction_rooted hx hp₁ st₁
      (Context.makeReadable_rooted (Context.newVariable?_rooted hv hr))
    have inside := ih named hp₂ st₂ hr₂ ext₃ (Context.enterFunction_pooled hx outside)
    have sound := sound_function hx hb hlines hp₁ st₁ hs (hb.rooted named hp₂ st₂ hr₂) last
      fun hh supplied _ _ root marks inner =>
        hb.segment hs hh hp₂ st₂ supplied named hr₂ root marks inner
    refine Context.makeReadable_pooled (Context.leaveFunction?_pooled hk inside ?_)
    exact .ofSound sound (last.function?_allocate hs) rfl hb.nested_body
      (inside _ List.mem_cons_self)

end Pools

/-- A source that compiles becomes a function without parameters and upvalues. The code of this
function and of every function in its pool, or in the pools of those, passes the verifier. -/
theorem compile_verified {source : String} {heap : Heap} {r : Ref}
    (hc : (compile source heap).result = .ok r)
    (hs : (compile source heap).heap.size ≤ UInt32.size) :
    (∃ f, (compile source heap).heap.function? r = some f ∧ f.arity = 0 ∧ f.upvalueCount = 0) ∧
      ∀ r' f, Part (compile source heap).heap r r' →
        (compile source heap).heap.function? r' = some f →
        ∃ xs depth, Verified (compile source heap).heap f xs depth := by
  obtain ⟨sound, known⟩ := compile_sound hc hs
  refine ⟨known, ?_⟩
  obtain ⟨a, f, heap', parses, code, allocated⟩ := compile_ok hc
  cases code with
  | @intro c _ is lines code hlines =>
    have last : Heap.Extends (c.heap.allocate
        (.function (c.finish (stream (is ++ [.pushNil, .ret])) lines))).1 (compile source heap).heap := by
      rw [allocated]
      exact .refl _
    have found := last.function?_allocate hs
    rw [allocated] at found
    have pooled := code.pooled hs parses.named (Context.script_proper heap)
      (Context.script_settled heap) (Context.script_rooted heap) ((c.heap.extends_allocate _).trans last) fun pool hp r hm => by
        obtain rfl := List.mem_singleton.1 hp
        cases Array.not_mem_empty _ hm
    exact Accepted.ofSound sound found rfl code.nested_body (pooled _ List.mem_cons_self)

/-- A loop around a branch, in a function that is called. -/
theorem compile_verified_loop :
    let compilation := compile "fun f(x) { while (x) x = nil and x; } f(nil);" .empty
    compilation.result = .ok ⟨2⟩ ∧ compilation.heap.size ≤ UInt32.size ∧
      (∃ f, compilation.heap.function? ⟨2⟩ = some f ∧ f.arity = 0 ∧ f.upvalueCount = 0) ∧
      ∀ r' f, Part compilation.heap ⟨2⟩ r' → compilation.heap.function? r' = some f →
        ∃ xs depth, Verified compilation.heap f xs depth := by
  have compiles : (compile "fun f(x) { while (x) x = nil and x; } f(nil);" .empty).result =
      .ok ⟨2⟩ := by
    decide +kernel
  have size : (compile "fun f(x) { while (x) x = nil and x; } f(nil);" .empty).heap.size = 3 := by
    decide +kernel
  have small : (compile "fun f(x) { while (x) x = nil and x; } f(nil);" .empty).heap.size ≤
      UInt32.size := by
    rw [size]
    decide
  exact ⟨compiles, small, compile_verified compiles small⟩

end Compile
end StackScript
