import StackScript.Proofs.Compile.Ending
import StackScript.Proofs.Semantics.Capture

/-!
# StackScript.Proofs.Semantics.Declare

Declarations.

* `Placed.stmt`: the variables that a context knows behind a statement.
* `Goes`: a machine is behind a statement, with the variables that the statement declares.
* `Stands.declares`: a variable is declared, with the value that is on top of the stack.
* `Made`: what the code of a function leaves on the heap is that function.
* `Stands.function`: a function is declared.
-/

namespace StackScript
namespace Semantics

open Compile (Context Draft Local StmtCode follow)
open Instruction (width stream)
open Machine
open Syntax (Stmt)

section Contexts

variable {A : Activation} {nested : Bool} {ℓ ℓ' : List (String × Nat)} {c c' : Context}

theorem Placed.nested_eq (pl : Placed A nested ℓ c) : nested = decide (0 < c.draft.depth) :=
  (congrArg Syntax.Scopes.nested pl.scopes).symm

/-- The variables that a statement declares are known behind it. -/
theorem Placed.stmt (pl : Placed A nested ℓ c) (settled : c.draft.Settled) {a : Stmt}
    {is : List Instruction} (h : StmtCode c a is c') (named : a.Named) (plain : a.Plain)
    (names : ℓ'.map Prod.fst = (if nested then a.declared else []) ++ ℓ.map Prod.fst) :
    Placed A nested ℓ' c' ∧ c'.draft.Settled := by
  obtain ⟨news, e, proper, n⟩ := h.extends pl.proper settled
  refine ⟨⟨proper, h.rooted named pl.proper settled pl.rooted, h.plain plain pl.plain, ?_⟩,
    e.settled settled⟩
  rw [e.scopes settled n, pl.scopes, Syntax.Scopes.behind]
  cases nested <;> simp [names]

theorem Placed.newVariable {name : String} {k : UInt8} (pl : Placed A nested ℓ c)
    (settled : c.draft.Settled) (h : c.newVariable? name = some (c', k)) : Placed A nested ℓ c' :=
  ⟨Context.newVariable?_proper h pl.proper, Context.newVariable?_rooted h pl.rooted,
    pl.plain.newVariable h, (Context.scopes_newVariable? h settled).trans pl.scopes⟩

/-- A captured local has a place on the stack. -/
theorem Placed.captured (pl : Placed A nested ℓ c) (settled : c.draft.Settled) {i : Nat} {l : Local}
    (hl : c.draft.locals.reverse[i]? = some l) (captured : l.captured = true) :
    ∃ d, (A.slots ℓ [])[A.below.length + i]? = some (.cell d) := by
  have names : c.draft.locals.map Local.name = ℓ.map Prod.fst ++ [""] := by
    have := congrArg Syntax.Scopes.names pl.scopes
    rwa [Context.scopes, Compile.readable_settled settled] at this
  have length : c.draft.locals.length = ℓ.length + 1 := by
    simpa using congrArg List.length names
  have inside : i < c.draft.locals.length := by
    simpa using (List.getElem?_eq_some_iff.1 hl).1
  cases i with
  | zero =>
    obtain ⟨root, last, -, free⟩ := pl.rooted.draft
    rw [← List.head?_eq_getElem?, List.head?_reverse, last] at hl
    cases hl
    rw [free] at captured
    cases captured
  | succ i =>
    have inside : i < ℓ.reverse.length := by
      rw [List.length_reverse]
      omega
    have cell : Levels.cell? [ℓ] 0 (i + 1) = some (ℓ.reverse[i]).2 := by
      simp [Levels.cell?, List.getElem?_eq_getElem inside]
    exact ⟨_, slots_of_cell? cell []⟩

/-- The name of a global variable is in the pool. -/
theorem Context.newVariable?_text {name : String} {k : UInt8} {chain : List (Array Capture)}
    {pool : Array Value} {H : Heap} (h : c.newVariable? name = some (c', k))
    (b : c'.Before chain pool H) (hs : H.size ≤ UInt32.size) (top : ¬0 < c.draft.depth) :
    ∃ key, pool[k.toNat]? = some (.object key) ∧ H.string? key = some name := by
  rw [Context.newVariable?, if_neg top] at h
  obtain ⟨key, hk, text⟩ := Context.textConstant?_value h
  exact ⟨key, b.pool hk, b.heap.string? (text (Nat.le_trans b.heap.size_le hs))⟩

end Contexts

section Variables

variable {H : Heap} {A : Activation} {τ : Ties} {s : Store} {ip : Nat} {ℓ : List (String × Nat)}
  {v : Val} {m : Machine} {nested : Bool} {name : String} {n : Nat}

/-- Behind a statement that declares variables with these names. -/
def Goes (H : Heap) (A : Activation) (nested : Bool) (ℓ : List (String × Nat)) (names : List String)
    (ip : Nat) (σ : Site) (s : Store) (m : Machine) : Prop :=
  ∃ new, σ = A.site nested (new ++ ℓ) [] ∧ new.map Prod.fst = (if nested then names else []) ∧
    Stands H A s ip (new ++ ℓ) [] m

theorem site_declare {c : Nat} {θ : List Val} :
    ({ (A.site nested ℓ θ).up with env := (name, c) :: (A.site nested ℓ θ).env } : Site) =
      A.site nested ((name, c) :: ℓ) θ := by
  simp only [Site.up, Activation.site, List.flatten_cons, List.cons_append, List.length_cons,
    Site.mk.injEq, true_and, and_true]
  omega

theorem Goes.here (st : Stands H A s ip ℓ [] m) (names : List String)
    (none : nested = true → names = []) : Goes H A nested ℓ names ip (A.site nested ℓ []) s m := by
  refine ⟨[], rfl, ?_, st⟩
  cases nested with
  | false => rfl
  | true => rw [none rfl]; rfl

theorem Goes.one {c : Nat} (st : Stands H A s ip ((name, c) :: ℓ) [] m) :
    Goes H A true ℓ [name] ip (A.site true ((name, c) :: ℓ) []) s m :=
  ⟨[(name, c)], rfl, rfl, st⟩

/-- The value on top of the stack is that of a new variable. -/
theorem Rests.declare (r : Rests H A τ s ip ℓ [v] m) (name : String) :
    Rests H A τ { s with cells := s.cells.push v } ip ((name, s.cells.size) :: ℓ) [] m where
  frames := r.frames
  later := r.later
  agrees := by
    have celled := r.agrees.celled
    rw [show ([v] : List Val) = [] ++ [v] from rfl, Activation.slots_push] at celled
    have celled := celled.declare
    rw [← Activation.slots_cons name] at celled
    exact ⟨celled, r.agrees.backed.cells _, r.agrees.output, r.agrees.world⟩

/-- What gives a declared variable its value. -/
def defining (nested : Bool) (k : UInt8) : List Instruction :=
  if nested then [] else [.defineGlobal k]

theorem Placed.definition {c : Context} (pl : Placed A nested ℓ c) (k : UInt8) :
    c.definition k = defining nested k := by
  rw [pl.nested_eq, Context.definition, defining]
  simp

/-- A variable is declared. Its value is on top of the stack. -/
theorem Stands.declares {k : UInt8} (st : Stands H A s ip ℓ [v] m)
    (code : Coded A ip (defining nested k))
    (text : nested = false →
      ∃ key, A.body.chunk.constants[k.toNat]? = some (.object key) ∧ H.string? key = some name) :
    Follows n ((A.site nested ℓ []).declare name v s) m
      (Goes H A nested ℓ [name] (ip + width (defining nested k))) := by
  cases nested with
  | true =>
    obtain ⟨τ, r⟩ := st.rests
    refine ⟨0, m, rfl, ?_⟩
    rw [show (A.site true ℓ []).env = (ℓ :: A.levels).flatten from rfl]
    have site : ({ (A.site true ℓ []).up with
        env := (name, s.cells.size) :: (A.site true ℓ []).env } : Site) =
        A.site true ((name, s.cells.size) :: ℓ) [] := site_declare
    exact site ▸ Goes.one ⟨st.live, τ, r.declare name⟩
  | false =>
    obtain ⟨key, hk, text⟩ := text rfl
    obtain ⟨pre, post, code, at_⟩ := code.at_
    have step : ∃ m', m.step = (.running, m') ∧ Stands H A (s.define name v) (ip + 2) ℓ [] m' := by
      refine st.next code at_ fun τ m₁ r => ?_
      obtain ⟨stack, w, h, same, under⟩ := Rests.pop (θ := []) r.toRests
      have name? := r.agrees.backed.kept.string? text
      exact .bind (.nameConstant r.frames r.function hk name? (.bind (ends_peek_push h
        (.bind (.modify (.bind (ends_pop_push h (.pure fun _ => ⟨τ, under.define name? same⟩))))))))
    obtain ⟨m', step, st'⟩ := step
    have behind : Goes H A false ℓ [name] (ip + 2) (A.site false ℓ []) (s.define name v) m' :=
      .here st' _ nofun
    exact Follows.less (.step step (.pure behind)) (Nat.le_succ n)

end Variables

section Functions

/-- The name of a function is on the heap. -/
theorem Context.enterFunction_text {c c' : Context} {name : String} {xs : List String}
    (h : (c.enterFunction name).addParameters? xs = some c') :
    c'.draft.kind = .function ∧ ∃ key, c'.draft.name = some key ∧
      (c'.heap.size ≤ UInt32.size → c'.heap.string? key = some name) := by
  obtain ⟨rfl, -⟩ := Context.addParameters?_eq (c := c.enterFunction name) Nat.one_pos
    (show 1 ≤ Compile.slotLimit by decide) h
  exact ⟨rfl, _, rfl, c.heap.string?_intern name⟩

/-- What the code of a function refers to is that function, and closures of it can be made in the
call `A`. -/
structure Made (H : Heap) (A : Activation) (ℓ : List (String × Nat)) (name : String)
    (parameters : List String) (body : Stmt) (k : UInt8) (cs : Array Capture) (x : Ref)
    (g : Function) : Prop where
  pool : A.body.chunk.constants[k.toNat]? = some (.object x)
  function : H.function? x = some g
  count : g.upvalueCount = cs.size
  locals : ∀ c ∈ cs, c.isLocal = true →
    ∃ d, (A.slots ℓ [])[A.below.length + c.index.toNat]? = some (.cell d)
  chained : ∀ c ∈ cs, c.isLocal = false → c.index.toNat < A.upvalues.size
  realizes : ∀ {τ : Ties} {refs : Array Ref}, Backs τ refs (cs :: A.chain) (ℓ :: A.levels) →
    Realizes H τ ⟨name, parameters, body, (ℓ :: A.levels).flatten⟩ ⟨x, refs⟩ g (cs :: A.chain)
      (ℓ :: A.levels)

variable {H : Heap} {A : Activation} {nested : Bool} {ℓ : List (String × Nat)}
  {c c₁ c₂ c₃ c' : Context} {name : String} {k k' : UInt8} {xs : List String} {a : Stmt}
  {is : List Instruction} {lines : Array Nat}

theorem Placed.function (pl : Placed A nested ℓ c) (settled : c.draft.Settled)
    (ℓ' : List (String × Nat)) (hs : H.size ≤ UInt32.size) (hv : c.newVariable? name = some (c₁, k))
    (hx : (c₁.makeReadable.enterFunction name).addParameters? xs = some c₂)
    (hb : StmtCode c₂ a is c₃) (hl : lines.size = width (is ++ [.pushNil, .ret]))
    (hc : c₃.leaveFunction? (c₃.finish (stream (is ++ [.pushNil, .ret])) lines) = some (c', k'))
    (named : a.Named) (plain : a.Plain)
    (b : c'.makeReadable.Before A.chain A.body.chunk.constants H)
    (names : ℓ'.map Prod.fst = (if nested then [name] else []) ++ ℓ.map Prod.fst) :
    c₁.Before A.chain A.body.chunk.constants H ∧
      ∃ x, Made H A ℓ' name xs a k' c₃.draft.captures x
        (c₃.finish (stream (is ++ [.pushNil, .ret])) lines) := by
  obtain ⟨news, e, hp₁, n, head⟩ := Context.extends_variable hv pl.proper (.refl _)
  obtain ⟨hp₂, st₂, around, heap, depth, locals, -, arity, -⟩ :=
    Context.enterFunction_proper hx hp₁ (e.settled settled)
  obtain ⟨kind, key, hkey, text⟩ := Context.enterFunction_text hx
  obtain ⟨news₂, ⟨old, -, g, -⟩, hp₃, -⟩ := hb.extends hp₂ st₂
  have growns := g.enclosing
  rw [around] at growns
  obtain ⟨grown, -, linked, outer, heap', constant⟩ :=
    Context.leaveFunction?_grown hc hp₃ growns (heap.trans g.heap)
  have readable : c'.makeReadable = c' := Context.makeReadable_grown grown e.depth head
  obtain ⟨pl', st'⟩ := pl.stmt settled (.function hv hx hb hl hc) named plain names
  rw [readable] at b pl' st'
  have allocated : c₃.heap.Extends H :=
    (heap' ▸ c₃.heap.extends_allocate _ : c₃.heap.Extends c'.heap).trans b.heap
  have scopes : c₂.scopes = ⟨xs.reverse ++ [""], Levels.names (ℓ' :: A.levels), true⟩ := by
    have outside : c₁.makeReadable.scopes = ⟨ℓ'.map Prod.fst ++ [""], A.levels.names, nested⟩ := by
      rw [e.scopes (a := .function name xs a) settled n, pl.scopes, Syntax.Scopes.behind, names]
      cases nested <;> rfl
    have names := congrArg Syntax.Scopes.names outside
    have others := congrArg Syntax.Scopes.outer outside
    rw [Context.scopes, Compile.readable_settled st₂, around, depth, locals]
    simp only [Context.scopes] at names others
    simp [Levels.names, names, others, Context.parameters, Function.comp_def]
  refine ⟨Context.before_makeReadable (grown.before b), _, b.pool constant, (heap' ▸ b.heap : Heap.Extends _ H).function?_allocate hs, rfl,
    fun x hx hl => ?_, fun x hx hl => ?_, fun {τ refs} backs => ⟨?_, ⟨key, ?_, ?_⟩, rfl, ?_, backs⟩⟩
  · have := linked x hx
    rw [if_pos hl] at this
    obtain ⟨l, hl, captured⟩ := this
    exact pl'.captured st' hl captured
  · have := linked x hx
    rw [if_neg (by simp [hl])] at this
    obtain ⟨cs, chain, within, -, e'⟩ := List.forall₂_cons_left_iff.1 b.chain
    rw [← A.backs.count cs (by rw [e']; rfl)]
    exact Nat.lt_of_lt_of_le this within.size_le
  · exact (heap' ▸ b.heap : Heap.Extends _ H).function?_allocate hs
  · exact g.draft.name.trans hkey
  · have grown : c₂.heap.Extends H := g.heap.trans allocated
    exact grown.string? (text (Nat.le_trans grown.size_le hs))
  · refine .intro hb named plain hp₂ ?_ ?_ st₂ kind arity scopes hl ⟨.cons (.refl _) ?_, .refl _,
      allocated⟩
    · exact Context.enterFunction_rooted hx hp₁ (e.settled settled)
        (Context.makeReadable_rooted (Context.newVariable?_rooted hv pl.rooted))
    · exact (pl.plain.newVariable hv).makeReadable.enterFunction hx
    · exact outer ▸ b.chain

variable {s : Store} {ip : Nat} {m : Machine} {n : Nat} {x : Ref} {g : Function}
  {cs : Array Capture}

theorem setIfInBounds_push {α : Type} (xs : Array α) (a b : α) :
    (xs.push a).setIfInBounds xs.size b = xs.push b := by
  apply Array.ext'
  simp

/-- A local variable gets a new closure, which can refer to it. -/
theorem Stands.localFunction (st : Stands H A s ip ℓ [] m)
    (made : Made H A ((name, s.cells.size) :: ℓ) name xs a k cs x g)
    (code : Coded A ip (.closure k :: cs.toList.map .capture)) :
    Follows n (closure machineLimits (A.site true ℓ []) name xs a s) m
      (Goes H A true ℓ [name] (ip + width (.closure k :: cs.toList.map .capture))) := by
  have captures := code.tail
  obtain ⟨pre, post, code, at_⟩ := code.at_
  let f : Lambda := ⟨name, xs, a, (((name, s.cells.size) :: ℓ) :: A.levels).flatten⟩
  let v : Val := .closure s.closures.size
  have e : closure machineLimits (A.site true ℓ []) name xs a s =
      (do
        setCell s.cells.size (← Semantics.put machineLimits (A.site true ℓ []) v)
        return { (A.site true ℓ []).up with env := (name, s.cells.size) :: (A.site true ℓ []).env } :
        Eval Site) { s with cells := s.cells.push .nil, closures := s.closures.push f } := rfl
  rw [e, site_declare]
  let s₁ : Store := { s with
    cells := (s.cells.push .nil).setIfInBounds s.cells.size v, closures := s.closures.push f }
  let s₂ : Store := { s with cells := s.cells.push .nil, closures := s.closures.push f }
  have placed : Follows n (Semantics.put machineLimits (A.site true ℓ []) v s₂) m
      fun v' s' m' => v' = v ∧ s' = s₂ ∧
        Stands H A s₁ (ip + width (.closure k :: cs.toList.map .capture))
          ((name, s.cells.size) :: ℓ) [] m' :=
    st.place code at_ (Nat.le_refl 0) fun τ m₁ r => by
      have celled := (r.agrees.celled.push (x := .value .nil) (w := .nil) rfl .nil).declare
      rw [← Activation.slots_cons name] at celled
      refine (r.makesClosure celled made.pool made.function made.count captures made.locals
        made.chained made.realizes).imp (fun _ m₂ ⟨room, h⟩ => ⟨r.size ▸ room, fun fits => ?_⟩)
        fun _ _ ⟨full, e, output⟩ => ⟨r.size ▸ full, e, output⟩
      obtain ⟨τ', w, frames, stack, later, celled, backed, same, output, world⟩ := h fits
      have top : (A.slots ((name, s.cells.size) :: ℓ) [])[m₁.stack.size]? =
          some (.cell s.cells.size) := by
        rw [Activation.slots_cons, r.size, List.getElem?_concat_length]
      have celled := celled.setSlot top same
      rw [setIfInBounds_push m₁.stack, ← stack] at celled
      refine ⟨τ', ?_, r.later.trans later, celled, backed.cells _, output, world⟩
      rw [frames, Instruction.width_cons, ← Nat.add_assoc]
  refine placed.bind fun v' s' m' ⟨hv, hs, st'⟩ => ?_
  subst hv hs
  exact .pure (.one st')

/-- A global variable gets a new closure. -/
theorem Stands.globalFunction (st : Stands H A s ip ℓ [] m)
    (made : Made H A ℓ name xs a k cs x g)
    (code : Coded A ip ((.closure k :: cs.toList.map .capture) ++ defining false k'))
    (text : ∃ key, A.body.chunk.constants[k'.toNat]? = some (.object key) ∧
      H.string? key = some name) :
    Follows n (closure machineLimits (A.site false ℓ []) name xs a s) m
      (Goes H A false ℓ [name]
        (ip + width ((.closure k :: cs.toList.map .capture) ++ defining false k'))) := by
  have behind := code.right
  have code := code.left
  have captures := code.tail
  obtain ⟨pre, post, code, at_⟩ := code.at_
  let f : Lambda := ⟨name, xs, a, (ℓ :: A.levels).flatten⟩
  let v : Val := .closure s.closures.size
  have e : closure machineLimits (A.site false ℓ []) name xs a s =
      (do (A.site false ℓ []).declare name (← Semantics.put machineLimits (A.site false ℓ []) v) : Eval Site)
        { s with closures := s.closures.push f } := rfl
  rw [e, Instruction.width_append, ← Nat.add_assoc]
  let s₁ : Store := { s with closures := s.closures.push f }
  have placed : Follows n (Semantics.put machineLimits (A.site false ℓ []) v s₁) m
      fun v' s' m' => v' = v ∧ s' = s₁ ∧
        Stands H A s₁ (ip + width (.closure k :: cs.toList.map .capture)) ℓ [v] m' :=
    st.place code at_ (Nat.le_refl 0) fun τ m₁ r => by
      refine (r.makesClosure r.agrees.celled made.pool made.function made.count captures made.locals
        made.chained made.realizes).imp (fun _ m₂ ⟨room, h⟩ => ⟨r.size ▸ room, fun fits => ?_⟩)
        fun _ _ ⟨full, e, output⟩ => ⟨r.size ▸ full, e, output⟩
      obtain ⟨τ', w, frames, stack, later, celled, backed, same, output, world⟩ := h fits
      have celled := celled.push (x := .value v) rfl same
      rw [← Activation.slots_push, ← stack] at celled
      refine ⟨τ', ?_, r.later.trans later, celled, backed, output, world⟩
      rw [frames, Instruction.width_cons, ← Nat.add_assoc]
  refine placed.bind fun v' s' m' ⟨hv, hs, st'⟩ => ?_
  subst hv hs
  exact st'.declares behind fun _ => text

end Functions

end Semantics
end StackScript
