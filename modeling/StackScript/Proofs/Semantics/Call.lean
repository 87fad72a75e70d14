import StackScript.Proofs.Semantics.Statement

/-!
# StackScript.Proofs.Semantics.Call

Calls do what they do in the language.

* `Callee`: the activation of a closure that is called.
* `Stands.enters`, `Stands.returns`: a call starts and ends.
* `Stands.native`: a native is called.
* `calling_invoke`: all calls, by induction on how deep they go.
-/

namespace StackScript
namespace Semantics

open Compile (Context StmtCode countLimit)
open Instruction (width stream)
open Machine

variable {H : Heap} {A : Activation} {τ : Ties} {s : Store} {ip : Nat} {ℓ : List (String × Nat)}
  {θ us : List Val} {f v : Val} {m : Machine} {n : Nat} {nested : Bool}

section Callee

/-- The callee and the arguments are on top of the stack. -/
theorem Rests.callee (r : Rests H A τ s ip ℓ (θ ++ [f] ++ us) m) :
    ∃ st w ws, m.stack = st ++ List.toArray (w :: ws) ∧ Same τ m.heap f w ∧
      List.Forall₂ (Same τ m.heap) us ws ∧ st.size = (A.slots ℓ θ).length ∧
      Rests H A τ s ip ℓ θ { m with stack := st } := by
  rw [List.append_assoc] at r
  obtain ⟨st, ws, e, same, size, under⟩ := r.pops
  obtain ⟨w, ws, one, rest, rfl⟩ := List.forall₂_cons_left_iff.1 same
  exact ⟨st, w, ws, e, one, rest, size, under⟩

theorem toNat_count (few : us.length ≤ countLimit) : us.length.toUInt8.toNat = us.length := by
  have : us.length < 256 := Nat.lt_succ_of_le few
  simpa using this

/-- A call finds its callee below the arguments. -/
theorem ends_peek_callee {Q : Value → Machine → Prop} {E : Stop → Machine → Prop} {st : Array Value}
    {w : Value} {ws : List Value} {count : Nat} (h : m.stack = st ++ List.toArray (w :: ws))
    (length : count = ws.length) (q : Q w m) : Ends (peek count) m Q E := by
  have size : m.stack.size = st.size + (ws.length + 1) := by rw [h]; simp
  refine .peek (by omega) fun v hv => ?_
  have at_ : m.stack.size - 1 - count = st.size := by omega
  rw [at_, h, Array.getElem?_append_right (Nat.le_refl _), Nat.sub_self] at hv
  obtain rfl : w = v := by simpa using hv
  exact q

end Callee

section Enter

/-- A call of a closure, on the heap of the moment. -/
def Rests.activation (r : Rests H A τ s ip ℓ (θ ++ [f] ++ us) m) {x : Ref} {k : Closure}
    {F : Lambda} {g : Function} {chain : List (Array Capture)} {ls : Levels}
    (hk : m.heap.closure? x = some k) (realizes : Realizes H τ F k g chain ls)
    (code : List Instruction) (encoded : g.chunk.code.toList = stream code) : Activation where
  below := A.slots ℓ θ
  closure := x
  function := k.function
  outer := A.frame ip :: A.outer
  upvalues := k.upvalues
  body := g
  code := code
  chain := chain
  levels := ls
  calls := some F.name :: A.calls
  ties := τ
  heap := m.heap
  isClosure := hk
  isFunction := r.agrees.backed.kept.function? realizes.function
  encoded := encoded
  backs := realizes.backs
  named := by
    refine .cons ⟨g, r.agrees.backed.kept.function? realizes.function, ?_⟩ ?_
    · obtain ⟨key, hn, text⟩ := realizes.name
      rw [hn, Option.map_some, Option.map_some, r.agrees.backed.kept.string? text]
    · have named := r.named
      rwa [r.frames] at named

/-- Arguments become variables. -/
theorem bindAll_apply {B : Activation} : ∀ {us : List Val} {xs : List String} {s : Store}
    {ℓ : List (String × Nat)} {stack : Array Value} {h : Heap}, us.length = xs.length →
    Celled τ s.cells (B.slots ℓ us) stack h → ∃ cells ℓ',
      bindAll (ℓ :: B.levels).flatten xs us s =
        some (.ok (ℓ' :: B.levels).flatten, { s with cells }) ∧
      ℓ'.map Prod.fst = xs.reverse ++ ℓ.map Prod.fst ∧
      Celled τ cells (B.slots ℓ' []) stack h := by
  intro us
  induction us with
  | nil =>
    intro xs s ℓ stack h length celled
    obtain rfl : xs = [] := List.length_eq_zero_iff.1 length.symm
    exact ⟨s.cells, ℓ, rfl, rfl, celled⟩
  | cons u us ih =>
    intro xs s ℓ stack h length celled
    cases xs with
    | nil => cases length
    | cons x xs =>
      have slots : B.slots ℓ (u :: us) =
          (B.below ++ .callee :: ℓ.reverse.map fun p => .cell p.2) ++ .value u :: us.map .value := by
        simp [Activation.slots]
      have slots' : B.slots ((x, s.cells.size) :: ℓ) us =
          (B.below ++ .callee :: ℓ.reverse.map fun p => .cell p.2) ++
            .cell s.cells.size :: us.map .value := by
        simp [Activation.slots]
      rw [slots] at celled
      have declared := celled.declare
      rw [← slots'] at declared
      obtain ⟨cells, ℓ', e, names, celled⟩ :=
        ih (s := { s with cells := s.cells.push u }) (Nat.succ.inj length) declared
      refine ⟨cells, ℓ', ?_, ?_, celled⟩
      · rw [← e]
        rfl
      · rw [names, List.reverse_cons, List.append_assoc]
        rfl

theorem Compiled.arity {xs : List String} {body : Syntax.Stmt} {outer : List (List String)}
    {chain : List (Array Capture)} {g : Function} (h : Compiled H xs body outer chain g) :
    g.arity = xs.length := by
  cases h with
  | intro code _ _ proper _ _ settled _ arity =>
    obtain ⟨_, ⟨_, -, grown, -⟩, -⟩ := code.extends proper settled
    exact grown.draft.arity.trans arity

theorem length_calls (A : Activation) : A.calls.length = A.outer.length + 1 := by
  rw [← A.named.length_eq, List.length_cons, List.length_map]

/-- What a call of a closure does. -/
theorem Fetched.calls {id : Nat} (r : Fetched H A τ s ip ℓ (θ ++ [.closure id] ++ us) m)
    (few : us.length ≤ countLimit) {F : Lambda} (hF : s.closures[id]? = some F)
    {Q : Unit → Machine → Prop} {E : Stop → Machine → Prop}
    (h : ∀ x k g chain ls, m.heap.closure? x = some k → Realizes H τ F k g chain ls →
      if us.length ≠ F.parameters.length then
        E (.fault (.arguments F.parameters.length us.length)) m
      else if A.calls.length < frameLimit then
        Q () { m with frames := ⟨x, k.function, 0, (A.slots ℓ θ).length⟩ :: m.frames }
      else E (.fault .stackOverflow) m) :
    Ends (execute (.call us.length.toUInt8)) m Q E := by
  obtain ⟨st, w, ws, e, same, each, size, -⟩ := r.callee
  cases same with
  | @closure _ x hx =>
    obtain ⟨F', k, g, chain, ls, hF', hk, realizes⟩ := r.agrees.backed.stored.closure hx
    obtain rfl := Option.some.inj (hF.symm.trans hF')
    have hg := r.agrees.backed.kept.function? realizes.function
    have h := h x k g chain ls hk realizes
    refine .bind (ends_peek_callee e (by rw [toNat_count few, each.length_eq]) (.bind (.get ?_)))
    dsimp only
    rw [if_pos (by rw [hk]; rfl)]
    refine .bind (.get ?_)
    dsimp only
    rw [hk]
    dsimp only
    rw [hg, Option.elim_some, realizes.compiled.arity, toNat_count few]
    split at h
    next wrong =>
      rw [if_pos wrong]
      exact .fail h
    next right =>
      rw [if_neg right]
      refine .bind (.get ?_)
      have depth : m.frames.length = A.calls.length := by
        rw [r.frames, List.length_cons, length_calls]
      have taken : m.stack.size = st.size + (ws.length + 1) := by rw [e]; simp
      have base : m.stack.size - us.length - 1 = (A.slots ℓ θ).length := by
        rw [taken, each.length_eq, ← size]
        omega
      rw [depth]
      split at h
      next fits =>
        rw [if_pos fits]
        refine .modify ?_
        rw [base]
        exact h
      next full =>
        rw [if_neg full]
        exact .fail h

/-- A call `B` of a function is made in a call `A`, and the arguments are in their variables. -/
structure Entered (H : Heap) (A : Activation) (ip : Nat) (ℓ : List (String × Nat)) (θ : List Val)
    (F : Lambda) (B : Activation) (ℓ' : List (String × Nat)) (c c' : Context)
    (is : List Instruction) : Prop where
  below : B.below = A.slots ℓ θ
  outer : B.outer = A.frame ip :: A.outer
  calls : B.calls = some F.name :: A.calls
  later : Later A.ties A.heap B.ties B.heap
  code : B.code = is ++ [.pushNil, .ret]
  body : StmtCode c F.body is c'
  named : F.body.Named
  plain : F.body.Plain
  placed : Placed B true ℓ' c
  settled : c.draft.Settled
  before : c'.Before B.chain B.body.chunk.constants H

/-- The machine is at the beginning of a function that is called. -/
theorem Fetched.enters {id : Nat} {F : Lambda} (r : Fetched H A τ s ip ℓ (θ ++ [.closure id] ++ us) m)
    (few : us.length ≤ countLimit) (hF : s.closures[id]? = some F)
    (length : us.length = F.parameters.length) (deep : A.calls.length < frameLimit) :
    Ends (execute (.call us.length.toUInt8)) m
      (fun _ m' => ∃ B cells ℓ' c c' is, Entered H A ip ℓ θ F B ℓ' c c' is ∧
        bindAll F.env F.parameters us s = some (.ok (ℓ' :: B.levels).flatten, { s with cells }) ∧
        ℓ'.length = us.length ∧ Rests H B τ { s with cells } 0 ℓ' [] m') fun _ _ => False := by
  refine r.calls few hF fun x k g chain ls hk realizes => ?_
  rw [if_neg (not_not_intro length), if_pos deep]
  obtain ⟨function, name, env, compiled, backs⟩ := realizes
  cases compiled with
  | @intro c c' is lines body named plain proper rooted free settled kind arity scopes _ before =>
    have realizes : Realizes H τ F k (c'.finish (stream (is ++ [.pushNil, .ret])) lines) chain ls :=
      ⟨function, name, env, .intro body named plain proper rooted free settled kind arity scopes
        ‹_› before, backs⟩
    let B := r.activation hk realizes (is ++ [.pushNil, .ret]) (by simp [Context.finish])
    have celled : Celled τ s.cells (B.slots [] us) m.stack m.heap := by
      have celled := r.agrees.celled
      rw [Activation.slots_append, Activation.slots_push, List.append_assoc] at celled
      exact celled.turn (y := .callee) rfl (fun _ _ => trivial) fun _ h => by cases h
    obtain ⟨cells, ℓ', bound, names, celled⟩ := bindAll_apply length celled
    have env' : F.env = ([] :: B.levels).flatten := env
    rw [← env'] at bound
    have e : ℓ'.map Prod.fst = F.parameters.reverse := names.trans (List.append_nil _)
    refine ⟨B, cells, ℓ', c, c', is, ⟨rfl, rfl, rfl, r.later, rfl, body, named, plain,
      ⟨proper, rooted, free, ?_⟩, settled, before⟩, bound, ?_, ?_⟩
    · rw [scopes, e]
      rfl
    · rw [← List.length_map (f := Prod.fst), e, List.length_reverse, length]
    · refine ⟨?_, .refl _ _, celled, r.agrees.backed.cells cells, r.agrees.output, r.agrees.world⟩
      rw [r.frames]
      rfl

/-- A call of a function starts. -/
theorem Stands.enters {id : Nat} {F : Lambda} (st : Stands H A s ip ℓ (θ ++ [.closure id] ++ us) m)
    (code : Coded A ip [.call us.length.toUInt8]) (few : us.length ≤ countLimit)
    (hF : s.closures[id]? = some F) (length : us.length = F.parameters.length)
    (deep : A.calls.length < frameLimit) :
    ∃ B cells ℓ' c c' is m', Entered H A (ip + 2) ℓ θ F B ℓ' c c' is ∧
      bindAll F.env F.parameters us s = some (.ok (ℓ' :: B.levels).flatten, { s with cells }) ∧
      ℓ'.length = us.length ∧ m.step = (.running, m') ∧
      Stands H B { s with cells } 0 ℓ' [] m' := by
  obtain ⟨pre, post, code, at_⟩ := code.at_
  obtain ⟨τ, r⟩ := st.rests
  have ends := ends_instruction_at r code at_ ((st.fetched r _).enters few hF length deep)
  obtain ⟨m', ⟨B, cells, ℓ', c, c', is, entered, bound, size, r'⟩, e⟩ | ⟨_, _, none, -⟩ :=
    step_cases r.frames ends
  · have running : m'.progress = .running := by
      rw [progress, r'.frames]
      rfl
    rw [running] at e
    exact ⟨B, cells, ℓ', c, c', is, m', entered, bound, size, e, st.live.step e, τ, r'⟩
  · exact none.elim

/-- A call of a function ends. Its variables go, and its result takes the place of the callee. -/
theorem Entered.returns {F : Lambda} {B : Activation} {ℓ' : List (String × Nat)} {c c' : Context}
    {is : List Instruction} (e : Entered H A ip ℓ θ F B ℓ' c c' is) (h : Returns H B v s m) :
    ∃ m', m.step = (.running, m') ∧ Stands H A s ip ℓ (θ ++ [v]) m' := by
  obtain ⟨_, ℓ'', st, code⟩ := h
  obtain ⟨pre, post, code, at_⟩ := code.at_
  refine st.next code at_ fun τ m₁ r => ?_
  obtain ⟨stack, w, hw, same, under⟩ := Rests.pop (θ := []) r.toRests
  have room := r.replace (θ := []) hw
  have frames : m₁.frames.tail = A.frame ip :: A.outer := by
    rw [r.frames]
    exact e.outer
  have agrees := under.agrees
  rw [Activation.slots] at agrees
  obtain ⟨kept, agrees⟩ := agrees.close r.tracked r.fits
  refine .bind (ends_pop_push hw (.bind (.frame r.frames (.bind (.modify (.bind (.truncate
    (.bind (.get ?_)))))))))
  show Ends (unless m₁.frames.tail.isEmpty do push w)
    { { m₁ with stack, frames := m₁.frames.tail }.closeUpvalues B.below.length with
      stack := stack.shrink B.below.length } _ _
  rw [frames]
  refine ends_push ?_ fun _ => ⟨τ, Rests.push ⟨rfl, ?_, ?_⟩ (same.later ⟨.refl τ, kept⟩)⟩
  · show (stack.shrink B.below.length).size < stackLimit
    rw [Array.size_shrink]
    omega
  · exact e.later.trans (r.later.trans ⟨.refl τ, kept⟩)
  · have celled := agrees.celled
    rw [show B.below = A.slots ℓ θ from e.below] at celled ⊢
    exact ⟨celled, e.below ▸ agrees.backed, agrees.output, agrees.world⟩

end Enter

section Closure

theorem invoke_closure {L : Limits} {σ : Site} {id : Nat} {F : Lambda}
    (hF : s.closures[id]? = some F) : invoke L (n + 1) σ (.closure id) us s =
      (if us.length ≠ F.parameters.length then
        σ.fail (.arguments F.parameters.length us.length)
      else if L.calls.all (σ.calls.length < ·) then do
        let env ← bindAll F.env F.parameters us
        let flow ← stmt L (invoke L n) n
          ⟨env, true, σ.height + 1 + us.length, some F.name :: σ.calls⟩ F.body
        flow.result L
      else σ.fail .stackOverflow : Eval Val) s := by
  rw [invoke, get_bind_apply, hF]

/-- The result of a function. Without one it is `nil`. -/
theorem Flows.result {B : Activation} {ℓ' : List (String × Nat)} {is : List Instruction} {flow : Flow}
    {names : List String} (e : B.code = is ++ [.pushNil, .ret])
    (h : Flows H B (Goes H B nested ℓ' names (width is)) flow s m) :
    Follows n (flow.result machineLimits s) m (Returns H B) := by
  cases flow with
  | next τ =>
    obtain ⟨new, rfl, -, st⟩ := h
    have code : Coded B (width is) [.pushNil, .ret] := ⟨is, [], by rw [e]; rfl, rfl⟩
    exact (Stands.pushes (θ := []) st code (fun _ _ => .nil) rfl).imp fun v s' m' st =>
      ⟨_, _, st, code.tail⟩
  | returned v => exact .pure h

/-- A closure is called. -/
theorem Stands.callsClosure {id : Nat} (calling : Calling H n (invoke machineLimits n))
    (hs : H.size ≤ UInt32.size) (st : Stands H A s ip ℓ (θ ++ [.closure id] ++ us) m)
    (code : Coded A ip [.call us.length.toUInt8]) (few : us.length ≤ countLimit) :
    Follows (n + 1) (invoke machineLimits (n + 1) (A.site nested ℓ θ) (.closure id) us s) m
      fun v s' m' => Stands H A s' (ip + 2) ℓ (θ ++ [v]) m' := by
  obtain ⟨F, hF⟩ : ∃ F, s.closures[id]? = some F := by
    obtain ⟨τ, r⟩ := st.rests
    obtain ⟨_, w, _, _, same, -⟩ := r.callee
    cases same with
    | closure hx =>
      obtain ⟨F, _, _, _, _, hF, -⟩ := r.agrees.backed.stored.closure hx
      exact ⟨F, hF⟩
  obtain ⟨pre, post, at_code, at_⟩ := code.at_
  rw [invoke_closure hF]
  split
  next wrong =>
    refine st.fails at_code at_ rfl fun τ m₁ r => r.calls few hF fun _ _ _ _ _ _ _ => ?_
    rw [if_pos wrong]
    exact ⟨rfl, r.agrees.output⟩
  next right =>
    have length : us.length = F.parameters.length := Decidable.not_not.1 right
    split
    next deep =>
      obtain ⟨B, cells, ℓ', c, c', is, m₁, entered, bound, size, step, st'⟩ :=
        st.enters code few hF length (of_decide_eq_true deep)
      refine .step step ?_
      have site : (⟨(ℓ' :: B.levels).flatten, true, (A.site nested ℓ θ).height + 1 + us.length,
          some F.name :: (A.site nested ℓ θ).calls⟩ : Site) = B.site true ℓ' [] := by
        rw [Activation.height_site, ← entered.below, ← size]
        show _ = Site.mk _ _ _ B.calls
        rw [entered.calls]
        rfl
      rw [bind_apply, bound]
      dsimp only
      rw [site]
      have body := StmtCode.follows calling hs entered.body entered.placed entered.settled
        entered.named entered.plain entered.before ⟨[], [.pushNil, .ret], entered.code, rfl⟩ st'
      rw [show width [] + width is = width is from Nat.zero_add _] at body
      refine (body.bind fun flow s' m' flows => flows.result entered.code).further
        fun v s' m' returns => ?_
      obtain ⟨m'', step, st⟩ := entered.returns returns
      exact ⟨1, m'', run_one step, st⟩
    next full =>
      have shallow : ¬A.calls.length < frameLimit := fun fits => full (decide_eq_true fits)
      refine st.fails at_code at_ rfl fun τ m₁ r => r.calls few hF fun _ _ _ _ _ _ _ => ?_
      rw [if_neg right, if_neg shallow]
      exact ⟨rfl, r.agrees.output⟩

end Closure

section Native

theorem Rests.inWorld (r : Rests H A τ s ip ℓ θ m) (world : World) :
    Rests H A τ { s with world } ip ℓ θ { m with world } :=
  ⟨r.frames, r.later, r.agrees.celled, ⟨r.agrees.backed.stored, r.agrees.backed.listed,
    r.agrees.backed.unshared, r.agrees.backed.kept⟩, r.agrees.output, rfl⟩

/-- What a call of a native does. -/
theorem Fetched.callsNative {b : Builtin} (r : Fetched H A τ s ip ℓ (θ ++ [.native b] ++ us) m)
    (few : us.length ≤ countLimit) {Q : Unit → Machine → Prop} {E : Stop → Machine → Prop}
    (wrong : us.length ≠ b.arity → E (.fault (.arguments b.arity us.length)) m)
    (returns : ∀ v world, us.length = b.arity → s.answer b (us.headD .nil) = .ok (v, world) →
      ∀ m', (m'.heap.size ≤ UInt32.size → Rests H A τ { s with world } ip ℓ (θ ++ [v]) m') →
        Q () m')
    (fault : ∀ f, us.length = b.arity → s.answer b (us.headD .nil) = .error (.fault f) →
      E (.fault f) m)
    (exit : ∀ code, us.length = b.arity → s.answer b (us.headD .nil) = .error (.exit code) →
      E (.exit code) m) :
    Ends (execute (.call us.length.toUInt8)) m Q E := by
  obtain ⟨st, w, ws, e, same, each, size, under⟩ := r.callee
  cases same with
  | @native _ x hx =>
    have kind := Heap.native?_eq_some.1 hx
    have other : m.heap.closure? x = none := by rw [Heap.closure?, kind]
    refine .bind (ends_peek_callee e (by rw [toNat_count few, each.length_eq]) (.bind (.get ?_)))
    dsimp only
    rw [other, hx, if_neg (by simp), if_pos Option.isSome_some, toNat_count few]
    refine .bind (.get ?_)
    dsimp only
    rw [hx]
    dsimp only
    split
    next no => exact .fail (wrong no)
    next right =>
      have right := Decidable.not_not.1 right
      have first : Same τ m.heap (us.headD .nil) (ws.headD .nil) := by
        cases each with
        | nil => exact .nil
        | cons same _ => exact same
      have answers := first.answer (n := b) r.agrees.backed
      have taken : m.stack.size = st.size + (ws.length + 1) := by rw [e]; simp
      have start : m.stack.size - us.length = st.size + 1 := by
        rw [taken, each.length_eq]
        omega
      have arguments : (m.stack.extract (st.size + 1) m.stack.size).toList = ws := by
        rw [e]
        simp
      have lower : m.stack.shrink st.size = st := by
        rw [e]
        apply Array.ext'
        simp
      have room : st.size < stackLimit := by
        have := r.room
        omega
      have world : m.world = s.world := r.agrees.world
      refine .bind (.get ?_)
      rw [start, arguments]
      refine .bind (.bind (.get ?_))
      rw [world]
      generalize hx : s.answer b (us.headD .nil) = x, b.call s.world m.heap (ws.headD .nil) = y
        at answers
      cases x with
      | ok p =>
        cases y with
        | ok p' =>
          obtain ⟨v, world⟩ := p
          obtain ⟨w', world', heap⟩ := p'
          obtain ⟨rfl, calm, ups, same⟩ := answers
          refine .bind (.modify (.pure (.bind (.truncate ?_))))
          rw [Nat.add_sub_cancel, lower]
          refine ends_push room (returns v world' right hx _ fun fits => ?_)
          exact ((under.calm calm ups fits).inWorld world').push (same fits)
        | error _ => exact answers.elim
      | error x =>
        cases y with
        | ok _ => exact answers.elim
        | error y =>
          obtain rfl : y = x := answers
          cases y with
          | fault f => exact .fail (fault f right hx)
          | exit code => exact .throw (exit code right hx)

theorem native_ok {σ : Site} {b : Builtin} {u : Val} {world : World}
    (h : s.answer b u = .ok (v, world)) : σ.native b u s = some (.ok v, { s with world }) := by
  rw [Site.native, get_bind_apply, h]
  rfl

theorem native_fault {σ : Site} {b : Builtin} {u : Val} {f : Fault}
    (h : s.answer b u = .error (.fault f)) : σ.native b u s = (σ.fail f : Eval Val) s := by
  rw [Site.native, get_bind_apply, h]

theorem native_exit {σ : Site} {b : Builtin} {u : Val} {status : UInt8}
    (h : s.answer b u = .error (.exit status)) :
    σ.native b u s = some (.error (.exit status), s) := by
  rw [Site.native, get_bind_apply, h]
  rfl

/-- A native is called. -/
theorem Stands.callsNative {b : Builtin} (st : Stands H A s ip ℓ (θ ++ [.native b] ++ us) m)
    (code : Coded A ip [.call us.length.toUInt8]) (few : us.length ≤ countLimit) :
    Follows n (invoke machineLimits (n + 1) (A.site nested ℓ θ) (.native b) us s) m
      fun v s' m' => Stands H A s' (ip + 2) ℓ (θ ++ [v]) m' := by
  obtain ⟨pre, post, code, at_⟩ := code.at_
  rw [invoke]
  split
  next wrong =>
    refine st.fails code at_ rfl fun τ m₁ r => r.callsNative few (fun _ => ?_)
      (fun _ _ right => absurd right wrong) (fun _ right => absurd right wrong)
      fun _ right => absurd right wrong
    exact ⟨rfl, r.agrees.output⟩
  next right =>
    cases answer : s.answer b (us.headD .nil) with
    | ok p =>
      obtain ⟨v, world⟩ := p
      have step : ∃ m', m.step = (.running, m') ∧
          Stands H A { s with world } (ip + 2) ℓ (θ ++ [v]) m' :=
        st.next code at_ fun τ m₁ r => r.callsNative few (fun wrong => (right wrong).elim)
          (fun v' world' _ e m' r' => by
            cases answer.symm.trans e
            exact fun fits => ⟨τ, r' fits⟩)
          (fun _ _ e => nomatch answer.symm.trans e) fun _ _ e => nomatch answer.symm.trans e
      obtain ⟨m', step, st'⟩ := step
      rw [native_ok answer]
      exact ⟨1, m', run_one step, st'⟩
    | error x =>
      cases x with
      | fault f =>
        rw [native_fault answer]
        refine st.fails code at_ rfl fun τ m₁ r => r.callsNative few
          (fun wrong => (right wrong).elim) (fun _ _ _ e => nomatch answer.symm.trans e)
          (fun f' _ e => ?_) fun _ _ e => nomatch answer.symm.trans e
        cases answer.symm.trans e
        exact ⟨rfl, r.agrees.output⟩
      | exit status =>
        rw [native_exit answer]
        obtain ⟨m', e, output⟩ : ∃ m' : Machine, m.step = m'.stopWith (.exit status) ∧
            m'.output = s.output := st.stops code at_ fun τ m₁ r =>
          r.callsNative few (fun wrong => (right wrong).elim)
            (fun _ _ _ e => nomatch answer.symm.trans e) (fun _ _ e => nomatch answer.symm.trans e)
            fun status' _ e => by
              cases answer.symm.trans e
              exact ⟨rfl, r.agrees.output⟩
        refine ⟨0, m, rfl, ?_, ?_, nofun⟩
        · rw [e]
          rfl
        · rw [e]
          exact output

end Native

section Other

/-- Nothing else can be called. -/
theorem Stands.callsOther (st : Stands H A s ip ℓ (θ ++ [f] ++ us) m)
    (code : Coded A ip [.call us.length.toUInt8]) (few : us.length ≤ countLimit)
    (closure : ∀ id, f ≠ .closure id) (native : ∀ b, f ≠ .native b) :
    Follows n (invoke machineLimits (n + 1) (A.site nested ℓ θ) f us s) m
      fun v s' m' => Stands H A s' (ip + 2) ℓ (θ ++ [v]) m' := by
  obtain ⟨pre, post, code, at_⟩ := code.at_
  have e : invoke machineLimits (n + 1) (A.site nested ℓ θ) f us =
      (A.site nested ℓ θ).fail .notCallable := by
    cases f with
    | closure id => exact (closure id rfl).elim
    | native b => exact (native b rfl).elim
    | _ => rfl
  rw [e]
  refine st.fails code at_ rfl fun τ m₁ r => ?_
  obtain ⟨stack, w, ws, h, same, each, -⟩ := r.callee
  have object {x : Ref} (noClosure : m₁.heap.closure? x = none)
      (noNative : m₁.heap.native? x = none) (e : w = .object x) :
      Ends (execute (.call us.length.toUInt8)) m₁ (fun _ _ => False)
        fun e m' => e = .fault .notCallable ∧ m'.output = s.output := by
    subst e
    refine .bind (ends_peek_callee h (by rw [toNat_count few, each.length_eq]) (.bind (.get ?_)))
    dsimp only
    rw [noClosure, noNative]
    exact .fail ⟨rfl, r.agrees.output⟩
  cases same with
  | closure => exact (closure _ rfl).elim
  | native => exact (native _ rfl).elim
  | string hx =>
    have kind := Heap.string?_eq_some.1 hx
    exact object (by rw [Heap.closure?, kind]) (by rw [Heap.native?, kind]) rfl
  | array hx =>
    obtain ⟨_, _, -, hy, -⟩ := r.agrees.backed.stored.array hx
    have kind := Heap.array?_eq_some.1 hy
    exact object (by rw [Heap.closure?, kind]) (by rw [Heap.native?, kind]) rfl
  | _ =>
    exact .bind (ends_peek_callee h (by rw [toNat_count few, each.length_eq])
      (.fail ⟨rfl, r.agrees.output⟩))

end Other

theorem calling_invoke (hs : H.size ≤ UInt32.size) (n : Nat) :
    Calling H n (invoke machineLimits n) := by
  induction n with
  | zero => exact fun _ _ _ _ => rfl
  | succ n calling =>
    intro A s ip ℓ θ f us m nested st code few
    cases f with
    | closure id => exact st.callsClosure calling hs code few
    | native b => exact st.callsNative code few
    | _ => exact st.callsOther code few nofun nofun

end Semantics
end StackScript
