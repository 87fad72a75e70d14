import StackScript.Proofs.Compile.Ending
import StackScript.Proofs.Compile.Footing

/-!
# StackScript.Proofs.Compile.Pace

The compiler that is watched never stalls. Between two tokens, and behind the last one, only so many
productions and rounds of loops begin, whatever errors are met on the way.

* `Paced x stay head tail most`: how many calls `x` makes if it reads no token (`stay`), in front of
  the first token it reads (`head`), behind the last (`tail`) and in between (`most`).
* `Strides x head tail most`: `x` also reads a token, unless the source is at its end.
* `compile_undisturbed`: the compiler that is watched ends, and with what the compiler ends with.
-/

namespace StackScript
namespace Compile

variable {α β : Type}

/-- A later point of a course. There is a bound for the calls since a token was read, whether it was
read before or not. -/
structure Course.Onto (c : Course) (stay tail : Nat) (c' : Course) : Prop where
  ending : c'.state.Ending
  calls : c'.state.rest.length = c.state.rest.length ∧ c'.calls ≤ c.calls + stay ∨
    c'.state.rest.length < c.state.rest.length ∧ c'.calls ≤ tail

/-- A later point of a course at which another token was read. -/
structure Course.Past (c : Course) (tail : Nat) (c' : Course) : Prop where
  ending : c'.state.Ending
  read : c'.state.rest.length < c.state.rest.length
  calls : c'.calls ≤ tail

class Paced (x : Watched α) (stay head tail most : outParam Nat) : Prop where
  spends : ∀ {c : Course}, c.state.Ending → most ≤ callLimit → c.calls + head ≤ callLimit →
    Avoids .stalled (fun _ => c.Onto stay tail) (x c)

class Strides (x : Watched α) (head tail most : outParam Nat) : Prop where
  advances : ∀ {c : Course}, c.state.Ending → c.state.current.kind ≠ .eof → most ≤ callLimit →
    c.calls + head ≤ callLimit → Avoids .stalled (fun _ => c.Past tail) (x c)

section Monad

variable {stay head tail most stay' head' tail' most' : Nat}

/-- The bounds may be larger. -/
theorem Paced.within {x : Watched α} [hx : Paced x stay head tail most]
    (le : stay ≤ stay' ∧ head ≤ head' ∧ tail ≤ tail' ∧ most ≤ most') :
    Paced x stay' head' tail' most' where
  spends hc hm hh := (hx.spends hc (by omega) (by omega)).mono fun _ _ spent =>
    ⟨spent.ending, by have := spent.calls; omega⟩

theorem Strides.within {x : Watched α} [hx : Strides x head tail most]
    (le : head ≤ head' ∧ tail ≤ tail' ∧ most ≤ most') : Strides x head' tail' most' where
  advances hc hk hm hh := (hx.advances hc hk (by omega) (by omega)).mono fun _ _ past =>
    ⟨past.ending, past.read, Nat.le_trans past.calls le.2.1⟩

instance Paced.bind {x : Watched α} {f : α → Watched β} [hx : Paced x stay head tail most]
    [hf : ∀ a, Paced (f a) stay' head' tail' most'] :
    Paced (x >>= f) (stay + stay') (max head (stay + head')) (max tail' (tail + stay'))
      (max (max most most') (tail + head')) where
  spends hc hm hh := by
    refine (hx.spends hc (by omega) (by omega)).bind fun a c₁ first => ?_
    have := first.calls
    refine ((hf a).spends first.ending (by omega) (by omega)).mono fun _ _ second => ?_
    have := second.calls
    exact ⟨second.ending, by omega⟩

instance {p : Prop} [Decidable p] {x y : Watched α} [hx : Paced x stay head tail most]
    [hy : Paced y stay' head' tail' most'] : Paced (if p then x else y) (max stay stay')
      (max head head') (max tail tail') (max most most') := by
  split
  · exact hx.within (by omega)
  · exact hy.within (by omega)

/-- For continuations that are split before instances are looked for. -/
theorem Paced.andThen {x : Watched α} {f : α → Watched β} (hx : Paced x stay head tail most)
    (hf : ∀ a, Paced (f a) stay' head' tail' most') :
    Paced (x >>= f) (stay + stay') (max head (stay + head')) (max tail' (tail + stay'))
      (max (max most most') (tail + head')) :=
  inferInstance

/-- What neither calls nor reads. -/
theorem Paced.idle {x : Watched α} (h : ∀ {c : Course}, c.state.Ending →
    Avoids .stalled (fun _ => c.Onto 0 0) (x c)) : Paced x 0 0 0 0 where
  spends hc _ _ := h hc

theorem Course.Past.onto {c c' : Course} (h : c.Past tail c') : c.Onto stay tail c' :=
  ⟨h.ending, .inr ⟨h.read, h.calls⟩⟩

/-- A computation that ran out of fuel makes no calls. -/
theorem exhausted_paced : Paced (liftM (outOfFuel : Compiler α) : Watched α) stay head tail most :=
  ⟨fun _ _ _ => nofun⟩

theorem Course.Onto.refl {c : Course} (hc : c.state.Ending) : c.Onto 0 0 c :=
  ⟨hc, .inl ⟨rfl, Nat.le_refl _⟩⟩

instance (a : α) : Paced (pure a : Watched α) 0 0 0 0 := .idle .refl

instance : Paced Watched.state 0 0 0 0 := .idle .refl

instance (holds : Bool) : Paced (Watched.require holds) 0 0 0 0 :=
  .idle fun hc => by
    unfold Watched.require
    split
    · exact .refl hc
    · exact nofun

/-- What the first part has read, the second one need not read. -/
instance Strides.bind {x : Watched α} {f : α → Watched β} [hx : Strides x head tail most]
    [hf : ∀ a, Paced (f a) stay' head' tail' most'] :
    Strides (x >>= f) head (max tail' (tail + stay')) (max (max most most') (tail + head')) where
  advances hc hk hm hh := by
    refine (hx.advances hc hk (by omega) (by omega)).bind fun a c₁ first => ?_
    have read := first.read
    have calls := first.calls
    refine ((hf a).spends first.ending (by omega) (by omega)).mono fun _ _ second => ?_
    have := second.calls
    exact ⟨second.ending, by omega, by omega⟩

instance Strides.called {x : Watched α} [hx : Strides x head tail most] :
    Strides (Watched.call >>= fun _ => x) (head + 1) tail most where
  advances {c} hc hk hm hh := by
    have room : c.calls < callLimit := by omega
    rw [Watched.bind_apply, Watched.call, if_pos room]
    have room' : c.calls + 1 + head ≤ callLimit := by omega
    exact (hx.advances (c := { c with calls := c.calls + 1 }) hc hk hm room').mono
      fun _ _ past => ⟨past.ending, past.read, past.calls⟩

instance : Paced Watched.call 1 1 0 0 where
  spends {c} hc _ hh := by
    have more : c.calls < callLimit := by omega
    rw [Watched.call, if_pos more]
    exact ⟨hc, .inl ⟨rfl, Nat.le_refl _⟩⟩

end Monad

section Still

/-- A step of the compiler that leaves the tokens alone. -/
class Still (y : Compiler α) : Prop where
  tokens : ∀ {s a s'}, y s = some (a, s') → s'.current = s.current ∧ s'.rest = s.rest

instance (y : Compiler α) [Smooth y] : Still y where
  tokens h := ⟨(Smooth.onward h).current, (Smooth.onward h).rest⟩

instance : Still openScope := ⟨fun h => by cases h; exact ⟨rfl, rfl⟩⟩

instance : Still closeScope where
  tokens h := by
    cases h
    exact State.tokens_dropLocals _

instance (name : Ref) : Still (beginFunction name) := ⟨fun h => by cases h; exact ⟨rfl, rfl⟩⟩

instance : Still endFunction where
  tokens h := by
    obtain ⟨s₁, onward, rest, current, -, -⟩ := endFunction_drafts h
    exact ⟨current.trans onward.current, rest.trans onward.rest⟩

instance (y : Compiler α) [Still y] : Paced (liftM y : Watched α) 0 0 0 0 :=
  .idle fun {c} hc => .ofLift nofun fun _ s h => by
    obtain ⟨current, rest⟩ := Still.tokens h
    refine ⟨?_, .inl ⟨congrArg List.length rest, Nat.le_refl _⟩⟩
    show EndsOnce (s.current :: s.rest)
    rw [current, rest]
    exact hc

end Still

section Steps

variable {stay head tail most stay' head' tail' most' : Nat}

theorem Watched.advance_apply {c : Course} (h : c.state.rest ≠ []) :
    Watched.advance c = .ok ((), ⟨c.state.advance, 0⟩) := by
  have more : c.state.rest.isEmpty = false := by simpa using h
  have unfolded : Watched.advance c =
      (if c.state.rest.isEmpty = true then (do call; Compile.advance) else
        (do restart; Compile.advance) : Watched Unit) c := rfl
  rw [unfolded, more]
  rfl

theorem Watched.advance_end {c : Course} (h : c.state.rest = []) (room : c.calls < callLimit) :
    Watched.advance c = .ok ((), ⟨c.state.advance, c.calls + 1⟩) := by
  have unfolded : Watched.advance c =
      (if c.state.rest.isEmpty = true then (do call; Compile.advance) else
        (do restart; Compile.advance) : Watched Unit) c := rfl
  rw [unfolded, h, List.isEmpty_nil, if_pos rfl, bind_apply, call, if_pos room]
  rfl

instance advance_strides : Strides Watched.advance 0 0 0 where
  advances {c} hc hk _ _ := by
    obtain ⟨ending, -, lt⟩ := State.advance_ending hc
    rw [Watched.advance_apply (EndsOnce.tail hc hk).ne_nil]
    exact ⟨ending, lt hk, Nat.le_refl _⟩

instance : Paced Watched.advance 1 1 0 0 where
  spends {c} hc hm hh := by
    by_cases hk : c.state.current.kind = .eof
    · have last : c.state.rest = [] := EndsOnce.eq_singleton hc hk
      have more : c.calls < callLimit := by omega
      obtain ⟨ending, le, -⟩ := State.advance_ending hc
      rw [Watched.advance_end last more]
      rw [last] at le
      exact ⟨ending, .inl ⟨by rw [last]; exact Nat.le_zero.1 le, Nat.le_refl _⟩⟩
    · exact (Strides.advances hc hk hm (by omega)).mono fun _ _ => Course.Past.onto

theorem Watched.accept_apply (k : TokenKind) (c : Course) : Watched.accept k c =
    if c.state.current.kind = k then (do Watched.advance; return true : Watched Bool) c
    else .ok (false, c) := by
  have unfolded : Watched.accept k c = (if (c.state.current.kind == k) = true then
      (do Watched.advance; return true) else return false : Watched Bool) c := rfl
  rw [unfolded]
  by_cases h : c.state.current.kind = k
  · rw [if_pos h, if_pos (by simpa using h)]
  · rw [if_neg h, if_neg (by simpa using h)]
    rfl

section AcceptThen

variable {k : TokenKind} {x y : Watched α}

/-- A token that is accepted makes room for other calls. -/
theorem accepted_past (hk : k ≠ .eof) {c : Course} (hc : c.state.Ending)
    (room : c.calls ≤ callLimit) (hit : c.state.current.kind = k) :
    Avoids .stalled (fun b c' => b = true ∧ c.Past 0 c') (Watched.accept k c) := by
  rw [Watched.accept_apply, if_pos hit]
  have more : c.state.current.kind ≠ .eof := hit ▸ hk
  exact (Strides.advances hc more (Nat.zero_le _) room).bind fun _ _ past => ⟨rfl, past⟩

theorem Paced.acceptThen (hk : k ≠ .eof) (hx : Paced x stay head tail most)
    (hy : Paced y stay' head' tail' most') :
    Paced (Watched.accept k >>= fun b => if b = true then x else y) stay' head'
      (max (max stay tail) tail') (max (max most most') head) where
  spends {c} hc hm hh := by
    by_cases hit : c.state.current.kind = k
    · refine (accepted_past hk hc (by omega) hit).bind fun b c₁ ⟨hb, past⟩ => ?_
      have read := past.read
      have calls := past.calls
      rw [hb, if_pos rfl]
      refine (hx.spends past.ending (by omega) (by omega)).mono fun _ _ behind => ?_
      have := behind.calls
      exact ⟨behind.ending, by omega⟩
    · rw [Watched.bind_apply, Watched.accept_apply, if_neg hit]
      exact (hy.spends hc (by omega) hh).mono fun _ _ behind =>
        ⟨behind.ending, by have := behind.calls; omega⟩

theorem Strides.acceptThen (hk : k ≠ .eof) (hx : Paced x stay head tail most)
    (hy : Strides y head' tail' most') :
    Strides (Watched.accept k >>= fun b => if b = true then x else y) head'
      (max (max stay tail) tail') (max (max most most') head) where
  advances {c} hc current hm hh := by
    by_cases hit : c.state.current.kind = k
    · refine (accepted_past hk hc (by omega) hit).bind fun b c₁ ⟨hb, past⟩ => ?_
      have read := past.read
      have calls := past.calls
      rw [hb, if_pos rfl]
      refine (hx.spends past.ending (by omega) (by omega)).mono fun _ _ behind => ?_
      have := behind.calls
      exact ⟨behind.ending, by omega, by omega⟩
    · rw [Watched.bind_apply, Watched.accept_apply, if_neg hit]
      exact (hy.advances hc current (by omega) hh).mono fun _ _ past =>
        ⟨past.ending, past.read, by have := past.calls; omega⟩

end AcceptThen

instance {p : Punctuation} {x y : Watched α} [Paced x stay head tail most]
    [Paced y stay' head' tail' most'] :
    Paced (Watched.accept (.punctuation p) >>= fun b => if b = true then x else y) stay' head'
      (max (max stay tail) tail') (max (max most most') head) :=
  .acceptThen nofun inferInstance inferInstance

instance {w : Keyword} {x y : Watched α} [Paced x stay head tail most]
    [Paced y stay' head' tail' most'] :
    Paced (Watched.accept (.keyword w) >>= fun b => if b = true then x else y) stay' head'
      (max (max stay tail) tail') (max (max most most') head) :=
  .acceptThen nofun inferInstance inferInstance

instance {p : Punctuation} {x y : Watched α} [Paced x stay head tail most]
    [Strides y head' tail' most'] :
    Strides (Watched.accept (.punctuation p) >>= fun b => if b = true then x else y) head'
      (max (max stay tail) tail') (max (max most most') head) :=
  .acceptThen nofun inferInstance inferInstance

instance {w : Keyword} {x y : Watched α} [Paced x stay head tail most]
    [Strides y head' tail' most'] :
    Strides (Watched.accept (.keyword w) >>= fun b => if b = true then x else y) head'
      (max (max stay tail) tail') (max (max most most') head) :=
  .acceptThen nofun inferInstance inferInstance

theorem consume_paced {k : TokenKind} (hk : k ≠ .eof) (what : Expectation) :
    Paced (Watched.consume k what) 0 0 0 0 :=
  Paced.acceptThen hk (x := pure ()) (y := liftM (reportCurrent (.expected what)))
    inferInstance inferInstance

instance (p : Punctuation) (what : Expectation) :
    Paced (Watched.consume (.punctuation p) what) 0 0 0 0 :=
  consume_paced (k := .punctuation p) nofun what

instance (what : Expectation) : Paced (Watched.newVariable what) 0 0 0 0 := by
  have := consume_paced (k := .identifier) nofun what
  unfold Watched.newVariable
  infer_instance

instance (offset : Nat) : Paced (Watched.landJump offset) 0 0 0 0 := by
  unfold Watched.landJump
  infer_instance

instance (start : Nat) : Paced (Watched.emitBackJump start) 0 0 0 0 := by
  unfold Watched.emitBackJump
  infer_instance

instance : Paced Watched.closeScope 0 0 0 0 := by
  unfold Watched.closeScope
  infer_instance

instance (name : String) : Paced (Watched.resolve name) 0 0 0 0 := by
  unfold Watched.resolve
  infer_instance

/-- The search for the start of another statement reads a token in each round, so its steps do not
run out. -/
theorem skip_spends {steps : Nat} : ∀ {c : Course}, c.state.Ending →
    c.state.rest.length < steps → c.calls + 1 ≤ callLimit →
    Avoids .stalled (fun _ => c.Onto 0 0) (Watched.skip steps c) := by
  induction steps with
  | zero => exact fun _ lt => absurd lt (Nat.not_lt_zero _)
  | succ steps ih =>
    intro c hc lt hh
    have unfolded : Watched.skip (steps + 1) c = (if (decide (c.state.current.kind = .eof) ||
        decide (c.state.previous.kind = .punctuation .semicolon) ||
        State.isBoundary c.state.current.kind) = true then pure () else do
          Watched.call
          Watched.advance
          Watched.skip steps : Watched Unit) c := rfl
    rw [unfolded]
    split
    next => exact .refl hc
    next more =>
      have hk : c.state.current.kind ≠ .eof := by
        intro hk
        simp [hk] at more
      have room : c.calls < callLimit := by omega
      rw [Watched.bind_apply, Watched.call, if_pos room]
      refine (Strides.advances (c := { c with calls := c.calls + 1 }) hc hk (Nat.zero_le _)
        hh).bind fun _ c₁ past => ?_
      have read := past.read
      have calls := past.calls
      dsimp only at read
      refine (ih past.ending (by omega) (by omega)).mono fun _ _ found => ?_
      have := found.calls
      exact ⟨found.ending, by omega⟩

instance : Paced Watched.recover 0 1 0 0 where
  spends {c} hc _ hh := by
    have calm : Watched.recover c = Watched.skip (c.state.rest.length + 1)
        { c with state := { c.state with panicking := false } } := rfl
    rw [calm]
    exact (skip_spends (c := { c with state := { c.state with panicking := false } }) hc
      (Nat.lt_succ_self _) hh).mono fun _ _ found => ⟨found.ending, found.calls⟩

end Steps

section Expressions

/-- How many calls the productions of expressions make. A list of items at the end of the source
makes the most: six of them, behind the bracket that begins it. -/
structure PaceExpressions (n : Nat) : Prop where
  expression : Paced (Watched.expression n) 3 3 6 24 ∧ Strides (Watched.expression n) 2 6 24
  operand : ∀ p, Paced (Watched.operand n p) 2 2 6 24 ∧ Strides (Watched.operand n p) 1 6 24
  operators : ∀ p b, Paced (Watched.operators n p b) 0 1 6 24
  leading : ∀ form b, Paced (Watched.leading n form b) 6 6 6 24
  trailing : ∀ form b, Paced (Watched.trailing n form b) 6 6 6 24
  items : ∀ close limit what, close ≠ .eof → Paced (Watched.items n close limit what) 5 5 6 24
  itemsFrom : ∀ limit count, Paced (Watched.itemsFrom n limit count) 4 4 6 24

variable {n : Nat}

/-- Behind a token that was read for it. -/
theorem Strides.ofRead {x : Watched α} (hx : Paced x 6 7 6 24) : Strides (do
    Watched.call
    Watched.advance
    x) 1 6 24 :=
  Strides.within (by decide)

theorem operand_strides (ih : PaceExpressions n) (p : Precedence) :
    Strides (Watched.operand (n + 1) p) 1 6 24 := by
  have := ih.leading
  have := ih.operators
  unfold Watched.operand
  refine .ofRead (.andThen (x := Watched.state) inferInstance fun s => (?_ : Paced _ 6 7 6 24))
  split <;> exact Paced.within (by decide)

/-- The end of the source begins no expression. -/
theorem operand_end {p : Precedence} {c : Course} (hc : c.state.Ending)
    (hk : c.state.current.kind = .eof) (room : c.calls + 2 ≤ callLimit) :
    Watched.operand (n + 1) p c = (do
      Watched.call
      Watched.advance
      report (.expected .expression) : Watched Unit) c := by
  have last : c.state.rest = [] := EndsOnce.eq_singleton hc hk
  have first : c.calls < callLimit := by omega
  have second : c.calls + 1 < callLimit := by omega
  rw [Watched.operand, Watched.bind_apply, Watched.bind_apply, Watched.call, if_pos first]
  dsimp only
  rw [Watched.bind_apply, Watched.bind_apply,
    Watched.advance_end (c := ⟨c.state, c.calls + 1⟩) last second]
  dsimp only
  rw [Watched.bind_apply]
  dsimp only [Watched.state]
  rw [previous_advance, hk]
  rfl

theorem operand_paced (ih : PaceExpressions n) (p : Precedence) :
    Paced (Watched.operand (n + 1) p) 2 2 6 24 where
  spends {c} hc hm hh := by
    by_cases hk : c.state.current.kind = .eof
    · have short : Paced (do
          Watched.call
          Watched.advance
          report (.expected .expression) : Watched Unit) 2 2 6 24 :=
        Paced.within (by decide)
      rw [operand_end hc hk hh]
      exact short.spends hc hm hh
    · exact ((operand_strides ih p).advances hc hk hm (by omega)).mono fun _ _ => Course.Past.onto

theorem operators_paced (ih : PaceExpressions n) (p : Precedence) (b : Bool) :
    Paced (Watched.operators (n + 1) p b) 0 1 6 24 where
  spends {c} hc hm hh := by
    rw [Watched.operators, Watched.bind_apply]
    dsimp only [Watched.state]
    cases hf : trailing? c.state.current.kind with
    | none => exact ⟨hc, .inl ⟨rfl, Nat.le_refl _⟩⟩
    | some form =>
      have hk : c.state.current.kind ≠ .eof := by
        intro hk
        rw [hk] at hf
        cases hf
      have := ih.trailing
      have := ih.operators
      have rest : Paced (do
          Watched.trailing n form b
          Watched.operators n p b) 6 7 6 24 :=
        Paced.within (by decide)
      dsimp only
      split
      · exact ((Strides.ofRead rest).advances hc hk hm hh).mono fun _ _ => Course.Past.onto
      · exact ⟨hc, .inl ⟨rfl, Nat.le_refl _⟩⟩

theorem leading_paced (ih : PaceExpressions n) (form : Leading) (b : Bool) :
    Paced (Watched.leading (n + 1) form b) 6 6 6 24 := by
  have := ih.expression.1
  have := fun p => (ih.operand p).1
  have := fun limit what => ih.items (.punctuation .rightBracket) limit what nofun
  unfold Watched.leading
  cases form <;> exact Paced.within (by decide)

theorem trailing_paced (ih : PaceExpressions n) (form : Trailing) (b : Bool) :
    Paced (Watched.trailing (n + 1) form b) 6 6 6 24 := by
  have := ih.expression.1
  have := fun p => (ih.operand p).1
  have := fun limit what => ih.items (.punctuation .rightParen) limit what nofun
  unfold Watched.trailing
  cases form <;> exact Paced.within (by decide)

theorem paceExpressions (n : Nat) : PaceExpressions n := by
  induction n with
  | zero =>
    constructor
    case expression => exact ⟨exhausted_paced, ⟨fun _ _ _ _ => nofun⟩⟩
    case operand => exact fun p => ⟨exhausted_paced, ⟨fun _ _ _ _ => nofun⟩⟩
    all_goals intros; exact exhausted_paced
  | succ n ih =>
    constructor
    · have := (ih.operand .assignment).1
      unfold Watched.expression
      have := (ih.operand .assignment).2
      exact ⟨Paced.within (by decide), inferInstance⟩
    · exact fun p => ⟨operand_paced ih p, operand_strides ih p⟩
    · exact fun p b => operators_paced ih p b
    · exact fun form b => leading_paced ih form b
    · exact fun form b => trailing_paced ih form b
    · intro close limit what hk
      have := ih.itemsFrom
      have := consume_paced hk
      unfold Watched.items
      exact Paced.within (by decide)
    · intro limit count
      have := ih.expression.1
      have := ih.itemsFrom
      unfold Watched.itemsFrom
      dsimp only
      exact Paced.within (by decide)

end Expressions

section Statements

set_option synthInstance.maxSize 5000

/-- How many calls the productions of statements make. A loop at the end of the source makes the
most: those of its three clauses and of its body. -/
structure PaceStatements (n : Nat) : Prop where
  declaration : Paced (Watched.declaration n) 6 7 17 24 ∧ Strides (Watched.declaration n) 6 17 24
  functionDeclaration : Paced (Watched.functionDeclaration n) 4 11 17 24
  variableDeclaration : Paced (Watched.variableDeclaration n) 1 1 6 24
  function : Paced (Watched.function n) 3 10 17 24
  parameters : Paced (Watched.parameters n) 1 1 1 24
  statement : Paced (Watched.statement n) 5 5 17 24 ∧ Strides (Watched.statement n) 4 17 24
  block : Paced (Watched.block n) 0 7 17 24
  expressionStatement : Paced (Watched.expressionStatement n) 4 4 6 24 ∧
    Strides (Watched.expressionStatement n) 3 6 24
  returnStatement : Paced (Watched.returnStatement n) 4 4 6 24
  ifStatement : Paced (Watched.ifStatement n) 9 9 17 24
  whileStatement : Paced (Watched.whileStatement n) 9 9 17 24
  forStatement : Paced (Watched.forStatement n) 16 16 17 24
  forInitializer : Paced (Watched.forInitializer n) 4 4 6 24
  forCondition : Paced (Watched.forCondition n) 3 3 6 24
  forIncrement : ∀ start, Paced (Watched.forIncrement n start) 3 3 6 24

variable {n : Nat}

theorem statement_paced (ih : PaceStatements n) :
    Paced (Watched.statement (n + 1)) 5 5 17 24 ∧ Strides (Watched.statement (n + 1)) 4 17 24 := by
  have := (paceExpressions n).expression.1
  have := ih.forStatement
  have := ih.ifStatement
  have := ih.returnStatement
  have := ih.whileStatement
  have := ih.block
  have := ih.expressionStatement.1
  have := ih.expressionStatement.2
  unfold Watched.statement
  exact ⟨Paced.within (by decide), Strides.within (by decide)⟩

theorem declaration_paced (ih : PaceStatements n) :
    Paced (Watched.declaration (n + 1)) 6 7 17 24 ∧
      Strides (Watched.declaration (n + 1)) 6 17 24 := by
  have := ih.functionDeclaration
  have := ih.variableDeclaration
  have := ih.statement.1
  have := ih.statement.2
  unfold Watched.declaration
  dsimp only
  exact ⟨Paced.within (by decide), Strides.within (by decide)⟩

theorem block_paced (ih : PaceStatements n) : Paced (Watched.block (n + 1)) 0 7 17 24 where
  spends {c} hc hm hh := by
    have unfolded : Watched.block (n + 1) c = (do
        if (c.state.current.kind == .punctuation .rightBrace) || (c.state.current.kind == .eof) then
          Watched.consume (.punctuation .rightBrace) .braceAfterBlock
        else
          Watched.call
          Watched.declaration n
          Watched.block n : Watched Unit) c := by
      rw [Watched.block]
      rfl
    rw [unfolded]
    split
    next =>
      have last : Paced (Watched.consume (.punctuation .rightBrace) .braceAfterBlock) 0 7 17 24 :=
        Paced.within (by decide)
      exact last.spends hc hm hh
    next more =>
      have hk : c.state.current.kind ≠ .eof := by
        intro hk
        simp [hk] at more
      have := ih.declaration.2
      have := ih.block
      have round : Strides (do
          Watched.call
          Watched.declaration n
          Watched.block n) 7 17 24 :=
        Strides.within (by decide)
      exact (round.advances hc hk hm hh).mono fun _ _ => Course.Past.onto

theorem function_paced (ih : PaceStatements n) : Paced (Watched.function (n + 1)) 3 10 17 24 := by
  have := ih.parameters
  have := ih.block
  unfold Watched.function
  dsimp only
  exact Paced.within (by decide)

theorem forStatement_paced (ih : PaceStatements n) :
    Paced (Watched.forStatement (n + 1)) 16 16 17 24 := by
  have := ih.forInitializer
  have := ih.forCondition
  have := ih.forIncrement
  have := ih.statement.1
  unfold Watched.forStatement
  refine @Paced.within _ _ _ _ _ _ _ _ _ _ (.andThen inferInstance fun _ =>
    .andThen inferInstance fun _ => .andThen inferInstance fun _ => .andThen inferInstance fun _ =>
    .andThen inferInstance fun _ => .andThen inferInstance fun exit =>
    .andThen inferInstance fun _ => .andThen inferInstance fun _ => .andThen inferInstance fun _ =>
    (?_ : Paced _ 0 0 0 0)) (by decide)
  cases exit <;> exact Paced.within (by decide)

theorem paceStatements (n : Nat) : PaceStatements n := by
  induction n with
  | zero =>
    constructor
    case declaration => exact ⟨exhausted_paced, ⟨fun _ _ _ _ => nofun⟩⟩
    case statement => exact ⟨exhausted_paced, ⟨fun _ _ _ _ => nofun⟩⟩
    case expressionStatement => exact ⟨exhausted_paced, ⟨fun _ _ _ _ => nofun⟩⟩
    all_goals intros; exact exhausted_paced
  | succ n ih =>
    have := (paceExpressions n).expression.1
    constructor
    · exact declaration_paced ih
    · have := ih.function
      unfold Watched.functionDeclaration
      exact Paced.within (by decide)
    · unfold Watched.variableDeclaration
      dsimp only
      exact Paced.within (by decide)
    · exact function_paced ih
    · have := ih.parameters
      have : Smooth (modify fun s : State =>
          { s with draft := { s.draft with arity := s.draft.arity + 1 } }) :=
        .modify fun s => .draft ⟨rfl, Nat.le_refl _, id⟩
      unfold Watched.parameters
      dsimp only
      exact Paced.within (by decide)
    · exact statement_paced ih
    · exact block_paced ih
    · have := (paceExpressions n).expression.2
      unfold Watched.expressionStatement
      exact ⟨Paced.within (by decide), Strides.within (by decide)⟩
    · unfold Watched.returnStatement
      dsimp only
      exact Paced.within (by decide)
    · have := ih.statement.1
      unfold Watched.ifStatement
      dsimp only
      exact Paced.within (by decide)
    · have := ih.statement.1
      unfold Watched.whileStatement
      exact Paced.within (by decide)
    · exact forStatement_paced ih
    · have := ih.variableDeclaration
      have := ih.expressionStatement.1
      unfold Watched.forInitializer
      exact Paced.within (by decide)
    · unfold Watched.forCondition
      exact Paced.within (by decide)
    · intro start
      rw [Watched.forIncrement]
      exact Paced.within (by decide)

end Statements

section Script

theorem declarations_paced (n : Nat) : Paced (Watched.declarations n) 1 7 18 24 := by
  induction n with
  | zero => exact exhausted_paced
  | succ n ih =>
    refine ⟨fun {c} hc hm hh => ?_⟩
    rw [Watched.declarations]
    by_cases hk : c.state.current.kind = .eof
    · have accepted : Avoids .stalled (fun b c' => b = true ∧ c.Onto 1 0 c')
          (Watched.accept .eof c) := by
        rw [Watched.accept_apply, if_pos hk]
        exact (Paced.spends (x := Watched.advance) hc (Nat.zero_le _) (by omega)).bind
          fun _ _ spent => ⟨rfl, spent⟩
      refine accepted.bind fun b c' ⟨hb, spent⟩ => ?_
      rw [hb, if_pos rfl]
      exact ⟨spent.ending, by have := spent.calls; omega⟩
    · have := (paceStatements n).declaration.2
      have round : Strides (do
          Watched.call
          Watched.declaration n
          Watched.declarations n) 7 18 24 :=
        Strides.within (by decide)
      rw [Watched.bind_apply, Watched.accept_apply, if_neg hk]
      exact (round.advances hc hk hm hh).mono fun _ _ => Course.Past.onto

/-- A script does not stall. -/
theorem Watched.script_paced (n : Nat) (source : String) (heap : Heap) :
    Watched.script n ⟨.new (Lexical.scan source) heap, 0⟩ ≠ .error .stalled := by
  have tokens := endsOnce_scan source
  obtain ⟨ending, -⟩ := State.take_ending tokens
    (s := { State.new (Lexical.scan source) heap with
      previous := (State.new (Lexical.scan source) heap).current })
  have := declarations_paced n
  rw [Watched.script, Watched.bind_apply, Watched.advance_apply tokens.ne_nil]
  dsimp only
  have room : 0 + 7 ≤ callLimit := by decide
  refine (@Paced.spends _ _ 1 7 18 24 ?_ ⟨(State.new (Lexical.scan source) heap).advance, 0⟩ ending
    (Nat.le_refl _) room).ne
  exact Paced.within (by decide)

end Script

/-- The compiler that is watched neither stalls nor crashes nor runs out of fuel, and what it ends
with is what the compiler ends with. -/
theorem compile_undisturbed (source : String) (heap : Heap) :
    Watched.compile source heap = .ok (compile source heap) := by
  have mimics := (Watched.mimics_script (budget (Lexical.scan source))).beside
    ⟨.new (Lexical.scan source) heap, 0⟩
  unfold Watched.compile compile compileWithin
  dsimp only
  cases h : Watched.script (budget (Lexical.scan source)) ⟨.new (Lexical.scan source) heap, 0⟩ with
  | ok p =>
    obtain ⟨f, c⟩ := p
    rw [h] at mimics
    have e : script (budget (Lexical.scan source)) (.new (Lexical.scan source) heap) =
        some (f, c.state) := mimics
    rw [e]
    rfl
  | error halt =>
    cases halt with
    | outOfFuel =>
      rw [h] at mimics
      have e : script (budget (Lexical.scan source)) (.new (Lexical.scan source) heap) = none :=
        mimics
      obtain ⟨f, s, ended⟩ := script_ends source heap
      rw [ended] at e
      cases e
    | stalled => exact absurd h (Watched.script_paced _ source heap)
    | crash => exact absurd h (Watched.script_sure _ source heap)

end Compile
end StackScript
