import StackScript.Proofs.Compile.Expression

/-!
# StackScript.Proofs.Compile.Climb

Reading the tokens of an expression by climbing over precedences, told apart from compiling it.

* `Climbs p ts e us`: from the tokens `ts` on an expression `e` is read whose operators bind at
  least as tightly as `p`, and `us` are the tokens behind it. Every step is told by the next token.
* `climbs_unique`: there is at most one such expression.
* `ExprPhrase.climbs`: the expressions of the grammar are read this way.
* `ExprPhrase.unique`: tokens are those of one expression only.
-/

namespace StackScript
namespace Compile

open Syntax

mutual

inductive Climbs : Precedence → List Token → Expr → List Token → Prop where
  | intro {p : Precedence} {ts us vs : List Token} {u : Token} {a e : Expr} :
      Starts (decide (p ≤ .assignment)) ts a us → Follows p us a e (u :: vs) →
      (p ≤ .assignment → u.kind ≠ .punctuation .equal) → Climbs p ts e (u :: vs)

/-- What stands in front of the first operator. The flag tells whether it may be assigned. -/
inductive Starts : Bool → List Token → Expr → List Token → Prop where
  | nil {b : Bool} {t : Token} {us : List Token} :
      t.kind = .keyword .nil → Starts b (t :: us) .nil us
  | true {b : Bool} {t : Token} {us : List Token} :
      t.kind = .keyword .true → Starts b (t :: us) (.bool true) us
  | false {b : Bool} {t : Token} {us : List Token} :
      t.kind = .keyword .false → Starts b (t :: us) (.bool false) us
  | number {b : Bool} {t : Token} {us : List Token} :
      t.kind = .number → Starts b (t :: us) (.number (Numeral.ofLiteral t.lexeme)) us
  | string {b : Bool} {t : Token} {us : List Token} :
      t.kind = .string → Starts b (t :: us) (.string (unquote t.lexeme)) us
  | get {b : Bool} {t u : Token} {us : List Token} :
      t.kind = .identifier → (b = Bool.true → u.kind ≠ .punctuation .equal) →
      Starts b (t :: u :: us) (.get t.lexeme) (u :: us)
  | set {t q : Token} {us vs : List Token} {e : Expr} :
      t.kind = .identifier → q.kind = .punctuation .equal → Climbs .assignment us e vs →
      Starts Bool.true (t :: q :: us) (.set t.lexeme e) vs
  | grouping {b : Bool} {l r : Token} {us vs : List Token} {e : Expr} :
      l.kind = .punctuation .leftParen → Climbs .assignment us e (r :: vs) →
      r.kind = .punctuation .rightParen → Starts b (l :: us) e vs
  | array {b : Bool} {l : Token} {us vs : List Token} {es : Exprs} :
      l.kind = .punctuation .leftBracket → Lists (.punctuation .rightBracket) us es vs →
      Starts b (l :: us) (.array es) vs
  | unary {b : Bool} {t : Token} {us vs : List Token} {op : UnaryOperator} {e : Expr} :
      leading? t.kind = some (.unary op) → Climbs .unary us e vs →
      Starts b (t :: us) (.unary op e) vs

/-- The operators behind a left operand. -/
inductive Follows : Precedence → List Token → Expr → Expr → List Token → Prop where
  | done {p : Precedence} {t : Token} {us : List Token} {a : Expr} :
      Behind p t → Follows p (t :: us) a a (t :: us)
  | call {p : Precedence} {l : Token} {us vs ws : List Token} {a e : Expr} {es : Exprs} :
      p ≤ .call → trailing? l.kind = some .call → Lists (.punctuation .rightParen) us es vs →
      Follows p vs (.call a es) e ws → Follows p (l :: us) a e ws
  | index {p : Precedence} {l r v : Token} {us vs ws : List Token} {a i e : Expr} :
      p ≤ .call → trailing? l.kind = some .index → Climbs .assignment us i (r :: v :: vs) →
      r.kind = .punctuation .rightBracket → (p ≤ .assignment → v.kind ≠ .punctuation .equal) →
      Follows p (v :: vs) (.index a i) e ws → Follows p (l :: us) a e ws
  | setIndex {p : Precedence} {l r q : Token} {us vs ws xs : List Token} {a i v e : Expr} :
      p ≤ .assignment → trailing? l.kind = some .index →
      Climbs .assignment us i (r :: q :: vs) → r.kind = .punctuation .rightBracket →
      q.kind = .punctuation .equal → Climbs .assignment vs v ws →
      Follows p ws (.setIndex a i v) e xs → Follows p (l :: us) a e xs
  | binary {p : Precedence} {t : Token} {us vs ws : List Token} {op : BinaryOperator}
      {a b e : Expr} :
      p ≤ op.precedence → trailing? t.kind = some (.binary op) →
      Climbs op.precedence.next us b vs → Follows p vs (.binary op a b) e ws →
      Follows p (t :: us) a e ws
  | and {p : Precedence} {t : Token} {us vs ws : List Token} {a b e : Expr} :
      p ≤ .conjunction → trailing? t.kind = some .and → Climbs .conjunction us b vs →
      Follows p vs (.and a b) e ws → Follows p (t :: us) a e ws
  | or {p : Precedence} {t : Token} {us vs ws : List Token} {a b e : Expr} :
      p ≤ .disjunction → trailing? t.kind = some .or → Climbs .disjunction us b vs →
      Follows p vs (.or a b) e ws → Follows p (t :: us) a e ws

/-- Expressions between commas, with the token that closes them. -/
inductive Lists : TokenKind → List Token → Exprs → List Token → Prop where
  | none {close : TokenKind} {t : Token} {us : List Token} :
      t.kind = close → Lists close (t :: us) .nil us
  | some {close : TokenKind} {t : Token} {ts us : List Token} {es : Exprs} :
      (∀ u ∈ ts.head?, u.kind ≠ close) → ListsFrom ts es (t :: us) → t.kind = close →
      Lists close ts es us

/-- One more expression and those behind it. -/
inductive ListsFrom : List Token → Exprs → List Token → Prop where
  | one {ts us : List Token} {u : Token} {e : Expr} :
      Climbs .assignment ts e (u :: us) → u.kind ≠ .punctuation .comma →
      ListsFrom ts (.cons e .nil) (u :: us)
  | more {c : Token} {ts us vs : List Token} {e : Expr} {es : Exprs} :
      Climbs .assignment ts e (c :: us) → c.kind = .punctuation .comma → ListsFrom us es vs →
      ListsFrom ts (.cons e es) vs

end

section Unique

mutual

theorem climbs_unique {p : Precedence} {ts us us' : List Token} {e e' : Expr}
    (h : Climbs p ts e us) (h' : Climbs p ts e' us') : e = e' ∧ us = us' := by
  match h with
  | .intro h₁ h₂ _ =>
    cases h' with
    | intro h₁' h₂' _ =>
      obtain ⟨rfl, rfl⟩ := starts_unique h₁ h₁'
      exact follows_unique h₂ h₂'
termination_by structural h

theorem starts_unique {b : Bool} {ts us us' : List Token} {e e' : Expr}
    (h : Starts b ts e us) (h' : Starts b ts e' us') : e = e' ∧ us = us' := by
  match h with
  | .nil hk | .true hk | .false hk | .number hk | .string hk | .get hk hq =>
    cases h' <;> simp_all [leading?]
  | .set hk hq he =>
    cases h' with
    | set _ _ he' =>
      obtain ⟨rfl, rfl⟩ := climbs_unique he he'
      exact ⟨rfl, rfl⟩
    | _ => simp_all [leading?]
  | .grouping hk he hr =>
    cases h' with
    | grouping _ he' _ =>
      obtain ⟨rfl, e⟩ := climbs_unique he he'
      exact ⟨rfl, (List.cons.inj e).2⟩
    | _ => simp_all [leading?]
  | .array hk he =>
    cases h' with
    | array _ he' =>
      obtain ⟨rfl, rfl⟩ := lists_unique he he'
      exact ⟨rfl, rfl⟩
    | _ => simp_all [leading?]
  | .unary hk he =>
    cases h' with
    | unary hk' he' =>
      cases hk.symm.trans hk'
      obtain ⟨rfl, rfl⟩ := climbs_unique he he'
      exact ⟨rfl, rfl⟩
    | _ => simp_all [leading?]
termination_by structural h

theorem follows_unique {p : Precedence} {ts us us' : List Token} {a e e' : Expr}
    (h : Follows p ts a e us) (h' : Follows p ts a e' us') : e = e' ∧ us = us' := by
  match h with
  | .done hb =>
    cases h' with
    | done => exact ⟨rfl, rfl⟩
    | call hp hk => exact absurd hp (hb .call hk)
    | index hp hk => exact absurd hp (hb .index hk)
    | setIndex hp hk => exact absurd (Nat.le_trans hp (by decide)) (hb .index hk)
    | binary hp hk => exact absurd hp (hb (.binary _) hk)
    | and hp hk => exact absurd hp (hb .and hk)
    | or hp hk => exact absurd hp (hb .or hk)
  | .call hp hk h₁ h₂ =>
    cases h' with
    | done hb => exact absurd hp (hb .call hk)
    | call _ _ h₁' h₂' =>
      obtain ⟨rfl, rfl⟩ := lists_unique h₁ h₁'
      exact follows_unique h₂ h₂'
    | index _ hk' | setIndex _ hk' | binary _ hk' | and _ hk' | or _ hk' =>
      cases hk.symm.trans hk'
  | .index hp hk h₁ _ hq h₂ =>
    cases h' with
    | done hb => exact absurd hp (hb .index hk)
    | index _ _ h₁' _ _ h₂' =>
      obtain ⟨rfl, e⟩ := climbs_unique h₁ h₁'
      cases e
      exact follows_unique h₂ h₂'
    | setIndex hp' _ h₁' _ hq' =>
      obtain ⟨-, e⟩ := climbs_unique h₁ h₁'
      cases e
      exact absurd hq' (hq hp')
    | call _ hk' | binary _ hk' | and _ hk' | or _ hk' => cases hk.symm.trans hk'
  | .setIndex hp hk h₁ _ hq h₂ h₃ =>
    cases h' with
    | done hb => exact absurd (Nat.le_trans hp (by decide)) (hb .index hk)
    | index _ _ h₁' _ hq' =>
      obtain ⟨-, e⟩ := climbs_unique h₁ h₁'
      cases e
      exact absurd hq (hq' hp)
    | setIndex _ _ h₁' _ _ h₂' h₃' =>
      obtain ⟨rfl, e⟩ := climbs_unique h₁ h₁'
      cases e
      obtain ⟨rfl, rfl⟩ := climbs_unique h₂ h₂'
      exact follows_unique h₃ h₃'
    | call _ hk' | binary _ hk' | and _ hk' | or _ hk' => cases hk.symm.trans hk'
  | .binary hp hk h₁ h₂ =>
    cases h' with
    | done hb => exact absurd hp (hb (.binary _) hk)
    | binary _ hk' h₁' h₂' =>
      cases hk.symm.trans hk'
      obtain ⟨rfl, rfl⟩ := climbs_unique h₁ h₁'
      exact follows_unique h₂ h₂'
    | call _ hk' | index _ hk' | setIndex _ hk' | and _ hk' | or _ hk' => cases hk.symm.trans hk'
  | .and hp hk h₁ h₂ =>
    cases h' with
    | done hb => exact absurd hp (hb .and hk)
    | and _ _ h₁' h₂' =>
      obtain ⟨rfl, rfl⟩ := climbs_unique h₁ h₁'
      exact follows_unique h₂ h₂'
    | call _ hk' | index _ hk' | setIndex _ hk' | binary _ hk' | or _ hk' =>
      cases hk.symm.trans hk'
  | .or hp hk h₁ h₂ =>
    cases h' with
    | done hb => exact absurd hp (hb .or hk)
    | or _ _ h₁' h₂' =>
      obtain ⟨rfl, rfl⟩ := climbs_unique h₁ h₁'
      exact follows_unique h₂ h₂'
    | call _ hk' | index _ hk' | setIndex _ hk' | binary _ hk' | and _ hk' =>
      cases hk.symm.trans hk'
termination_by structural h

theorem lists_unique {close : TokenKind} {ts us us' : List Token} {es es' : Exprs}
    (h : Lists close ts es us) (h' : Lists close ts es' us') : es = es' ∧ us = us' := by
  match h with
  | .none hk =>
    cases h' with
    | none => exact ⟨rfl, rfl⟩
    | some hk' => exact absurd hk (hk' _ rfl)
  | .some hk h₁ _ =>
    cases h' with
    | none hk' => exact absurd hk' (hk _ rfl)
    | some _ h₁' _ =>
      obtain ⟨rfl, e⟩ := listsFrom_unique h₁ h₁'
      exact ⟨rfl, (List.cons.inj e).2⟩
termination_by structural h

theorem listsFrom_unique {ts us us' : List Token} {es es' : Exprs}
    (h : ListsFrom ts es us) (h' : ListsFrom ts es' us') : es = es' ∧ us = us' := by
  match h with
  | .one h₁ hk =>
    cases h' with
    | one h₁' _ =>
      obtain ⟨rfl, e⟩ := climbs_unique h₁ h₁'
      exact ⟨rfl, e⟩
    | more h₁' hk' _ =>
      obtain ⟨-, e⟩ := climbs_unique h₁ h₁'
      cases e
      exact absurd hk' hk
  | .more h₁ hk h₂ =>
    cases h' with
    | one h₁' hk' =>
      obtain ⟨-, e⟩ := climbs_unique h₁ h₁'
      cases e
      exact absurd hk hk'
    | more h₁' _ h₂' =>
      obtain ⟨rfl, e⟩ := climbs_unique h₁ h₁'
      cases e
      obtain ⟨rfl, rfl⟩ := listsFrom_unique h₂ h₂'
      exact ⟨rfl, rfl⟩
termination_by structural h

end

end Unique

section Complete

/-- A token that can stand behind a phrase of a precedence, inside a longer phrase or behind it. -/
def CanFollow (q : Precedence) (t : Token) : Prop :=
  t.kind ≠ .punctuation .equal ∧ ∀ form, trailing? t.kind = some form → form.left ≤ q

variable {p q r : Precedence} {t u : Token} {ts us vs : List Token}

theorem CanFollow.mono (h : CanFollow q t) (hq : q ≤ r) : CanFollow r t :=
  ⟨h.1, fun form hf => Nat.le_trans (h.2 form hf) hq⟩

theorem canFollow_operator {form : Trailing} (hf : trailing? t.kind = some form)
    (hq : form.left ≤ q) : CanFollow q t := by
  refine ⟨fun he => ?_, fun form' h => ?_⟩
  · rw [he] at hf
    cases hf
  · rw [hf] at h
    cases h
    exact hq

/-- No operator that a phrase of precedence `q` can be the left operand of is as tight as `r`. -/
theorem CanFollow.behind (h : CanFollow q t)
    (hr : ∀ form : Trailing, form.left ≤ q → ¬r ≤ form.precedence) : Behind r t :=
  fun form hf => hr form (h.2 form hf)

theorem behind_same (hq : q = .unary ∨ q = .conjunction ∨ q = .disjunction ∨ q = .assignment)
    (form : Trailing) (h : form.left ≤ q) : ¬q ≤ form.precedence := by
  obtain rfl | rfl | rfl | rfl := hq <;> cases form with
  | binary op => cases op <;> revert h <;> decide
  | _ => revert h; decide

theorem behind_next {k : TokenKind} {op : BinaryOperator} (sign : BinarySign q k op)
    (hr : Tighter q r) (form : Trailing) (h : form.left ≤ q) : ¬r ≤ form.precedence := by
  cases form with
  | binary op' => cases sign <;> cases hr <;> cases op' <;> revert h <;> decide
  | _ => cases sign <;> cases hr <;> revert h <;> decide

theorem le_of_tighter (h : Tighter q r) : q ≤ r := by
  cases h <;> decide

/-- The right operand of an operator may have a sign in front, and is no assignment. -/
theorem right_bounds {k : TokenKind} {op : BinaryOperator} (sign : BinarySign q k op)
    (hr : Tighter q r) : r ≤ .unary ∧ ¬r ≤ .assignment := by
  cases sign <;> cases hr <;> decide

/-- Nothing is left to read behind a phrase at its own precedence. -/
theorem follows_done {e : Expr} (h : CanFollow q t)
    (hr : ∀ form : Trailing, form.left ≤ q → ¬r ≤ form.precedence) :
    Follows r (t :: us) e e (t :: us) :=
  .done (h.behind hr)

theorem Starts.first {b : Bool} {e : Expr} (h : Starts b ts e us) :
    ∃ t ts', ts = t :: ts' ∧ (leading? t.kind).isSome := by
  cases h <;> exact ⟨_, _, rfl, by simp_all [leading?]⟩

theorem Climbs.first {e : Expr} (h : Climbs p ts e us) :
    ∃ t ts', ts = t :: ts' ∧ (leading? t.kind).isSome := by
  obtain ⟨h, -, -⟩ := h
  exact h.first

/-- A token that ends an expression. -/
def Stops (t : Token) : Prop := trailing? t.kind = none ∧ t.kind ≠ .punctuation .equal

theorem Stops.canFollow (h : Stops t) : CanFollow q t :=
  ⟨h.2, fun form hf => by rw [h.1] at hf; cases hf⟩

theorem Stops.done {e : Expr} (h : Stops t) : Follows p (t :: us) e e (t :: us) :=
  .done fun form hf => by rw [h.1] at hf; cases hf

theorem stops_rightParen (hk : t.kind = .punctuation .rightParen) : Stops t := by
  simp [Stops, hk, trailing?]

theorem stops_rightBracket (hk : t.kind = .punctuation .rightBracket) : Stops t := by
  simp [Stops, hk, trailing?]

theorem stops_comma (hk : t.kind = .punctuation .comma) : Stops t := by
  simp [Stops, hk, trailing?]

theorem ListsFrom.first {es : Exprs} (h : ListsFrom ts es us) :
    ∃ t ts', ts = t :: ts' ∧ (leading? t.kind).isSome := by
  cases h with
  | one h | more h => exact h.first

/-- What closes a list of expressions begins none. -/
theorem lists_of_listsFrom {es : Exprs} {close : TokenKind} {r : Token} (he : ItemsPhrase ts es)
    (h : es ≠ .nil → ListsFrom (ts ++ r :: us) es (r :: us)) (hk : r.kind = close)
    (hc : leading? close = none) : Lists close (ts ++ r :: us) es us := by
  by_cases hn : es = .nil
  · subst hn
    cases he
    exact .none hk
  · refine .some (fun u hu => ?_) (h hn) hk
    obtain ⟨t', ts', e, begins⟩ := (h hn).first
    rw [e] at hu
    cases hu
    rintro rfl
    simp [hc] at begins

mutual

/-- A phrase is the left operand of what is read behind it. -/
theorem ExprPhrase.climbs {q : Precedence} {ts : List Token} {a : Expr} (h : ExprPhrase q ts a) :
    ∀ {p : Precedence} {t u : Token} {us vs : List Token} {e : Expr}, p ≤ q → p ≤ .unary →
      CanFollow q t → Follows p (t :: us) a e (u :: vs) →
      (p ≤ .assignment → u.kind ≠ .punctuation .equal) → Climbs p (ts ++ t :: us) e (u :: vs) := by
  match h with
  | .tighter hq h =>
    intro p t u us vs e hpq hp hf rest stop
    have up := le_of_tighter hq
    exact ExprPhrase.climbs h (Nat.le_trans hpq up) hp (hf.mono up) rest stop
  | .nil hk =>
    intro p t u us vs e _ _ _ rest stop
    exact .intro (.nil hk) rest stop
  | .true hk =>
    intro p t u us vs e _ _ _ rest stop
    exact .intro (.true hk) rest stop
  | .false hk =>
    intro p t u us vs e _ _ _ rest stop
    exact .intro (.false hk) rest stop
  | .number hk =>
    intro p t u us vs e _ _ _ rest stop
    exact .intro (.number hk) rest stop
  | .string hk =>
    intro p t u us vs e _ _ _ rest stop
    exact .intro (.string hk) rest stop
  | .get hk =>
    intro p t u us vs e _ _ hf rest stop
    exact .intro (.get hk fun _ => hf.1) rest stop
  | @ExprPhrase.grouping _ r ts a hl he hr =>
    intro p t u us vs e _ _ _ rest stop
    have closing := stops_rightParen hr
    have inner : Climbs .assignment (ts ++ r :: t :: us) a (r :: t :: us) :=
      ExprPhrase.climbs he (Nat.le_refl _) (by decide) closing.canFollow closing.done
        fun _ => closing.2
    have c := Climbs.intro (.grouping hl inner hr) rest stop
    simpa using c
  | @ExprPhrase.array _ r ts es hl he hr =>
    intro p t u us vs e _ _ _ rest stop
    have list : Lists (.punctuation .rightBracket) (ts ++ r :: t :: us) es (t :: us) :=
      lists_of_listsFrom he (fun hn => ItemsPhrase.listsFrom he hn (stops_rightBracket hr)
        (by simp [hr])) hr rfl
    have c := Climbs.intro (.array hl list) rest stop
    simpa using c
  | @ExprPhrase.call l r _ ts _ es ha hl he hr =>
    intro p t u us vs e hpq hp _ rest stop
    have hl : trailing? l.kind = some .call := by rw [hl]; rfl
    have list : Lists (.punctuation .rightParen) (ts ++ r :: t :: us) es (t :: us) :=
      lists_of_listsFrom he (fun hn => ItemsPhrase.listsFrom he hn (stops_rightParen hr)
        (by simp [hr])) hr rfl
    have c := ExprPhrase.climbs ha hpq hp (canFollow_operator hl (Nat.le_refl _))
      (.call hpq hl list rest) stop
    simpa using c
  | @ExprPhrase.index l r _ ts _ i ha hl hi hr =>
    intro p t u us vs e hpq hp hf rest stop
    have hl : trailing? l.kind = some .index := by rw [hl]; rfl
    have closing := stops_rightBracket hr
    have inner : Climbs .assignment (ts ++ r :: t :: us) i (r :: t :: us) :=
      ExprPhrase.climbs hi (Nat.le_refl _) (by decide) closing.canFollow closing.done
        fun _ => closing.2
    have c := ExprPhrase.climbs ha hpq hp (canFollow_operator hl (Nat.le_refl _))
      (.index hpq hl inner hr (fun _ => hf.1) rest) stop
    simpa using c
  | @ExprPhrase.unary _ ts _ a hk he =>
    intro p t u us vs e hpq hp hf rest stop
    have operand : Climbs .unary (ts ++ t :: us) a (t :: us) :=
      ExprPhrase.climbs he (Nat.le_refl _) (Nat.le_refl _) hf
        (follows_done hf (behind_same (.inl rfl))) fun h => absurd h (by decide)
    exact .intro (.unary (leading?_of_unarySign hk) operand) rest stop
  | @ExprPhrase.binary _ _ _ _ ts op _ b ha sign hq hb =>
    intro p t u us vs e hpq hp hf rest stop
    have hk := trailing?_of_binarySign sign
    have level := precedence_of_binarySign sign
    obtain ⟨unary, complete⟩ := right_bounds sign hq
    have operand : Climbs _ (ts ++ t :: us) b (t :: us) :=
      ExprPhrase.climbs hb (Nat.le_refl _) unary (hf.mono (le_of_tighter hq))
        (follows_done hf (behind_next sign hq)) fun h => absurd h complete
    rw [← next_of_tighter hq, ← level] at operand
    have c := ExprPhrase.climbs ha hpq hp (canFollow_operator hk (Nat.le_of_eq (congrArg _ level)))
      (.binary (level ▸ hpq) hk operand rest) stop
    simpa using c
  | @ExprPhrase.and o _ ts _ b ha hk hb =>
    intro p t u us vs e hpq hp hf rest stop
    have hk : trailing? o.kind = some .and := by rw [hk]; rfl
    have operand : Climbs .conjunction (ts ++ t :: us) b (t :: us) :=
      ExprPhrase.climbs hb (Nat.le_refl _) (by decide) hf
        (follows_done hf (behind_same (.inr (.inl rfl)))) fun h => absurd h (by decide)
    have c := ExprPhrase.climbs ha (Nat.le_trans hpq (by decide)) hp
      (canFollow_operator hk (Nat.le_refl _)) (.and hpq hk operand rest) stop
    simpa using c
  | @ExprPhrase.or o _ ts _ b ha hk hb =>
    intro p t u us vs e hpq hp hf rest stop
    have hk : trailing? o.kind = some .or := by rw [hk]; rfl
    have operand : Climbs .disjunction (ts ++ t :: us) b (t :: us) :=
      ExprPhrase.climbs hb (Nat.le_refl _) (by decide) hf
        (follows_done hf (behind_same (.inr (.inr (.inl rfl))))) fun h => absurd h (by decide)
    have c := ExprPhrase.climbs ha (Nat.le_trans hpq (by decide)) hp
      (canFollow_operator hk (Nat.le_refl _)) (.or hpq hk operand rest) stop
    simpa using c
  | @ExprPhrase.set _ _ ts a hk hq he =>
    intro p t u us vs e hpq hp hf rest stop
    have value : Climbs .assignment (ts ++ t :: us) a (t :: us) :=
      ExprPhrase.climbs he (Nat.le_refl _) (by decide) hf
        (follows_done hf (behind_same (.inr (.inr (.inr rfl))))) fun _ => hf.1
    have s := Starts.set hk hq value
    rw [← decide_eq_true hpq] at s
    exact .intro s rest stop
  | @ExprPhrase.setIndex l r q _ ts ws _ i v ha hl hi hr hq hv =>
    intro p t u us vs e hpq hp hf rest stop
    have hl : trailing? l.kind = some .index := by rw [hl]; rfl
    have closing := stops_rightBracket hr
    have inner : Climbs .assignment (ts ++ r :: q :: (ws ++ t :: us)) i
        (r :: q :: (ws ++ t :: us)) :=
      ExprPhrase.climbs hi (Nat.le_refl _) (by decide) closing.canFollow closing.done
        fun _ => closing.2
    have value : Climbs .assignment (ws ++ t :: us) v (t :: us) :=
      ExprPhrase.climbs hv (Nat.le_refl _) (by decide) hf
        (follows_done hf (behind_same (.inr (.inr (.inr rfl))))) fun _ => hf.1
    have c := ExprPhrase.climbs ha (Nat.le_trans hpq (by decide)) hp
      (canFollow_operator hl (Nat.le_refl _)) (.setIndex hpq hl inner hr hq value rest) stop
    simpa using c

theorem ItemsPhrase.listsFrom {ts : List Token} {es : Exprs} (h : ItemsPhrase ts es)
    (hn : es ≠ .nil) : ∀ {r : Token} {us : List Token}, Stops r → r.kind ≠ .punctuation .comma →
      ListsFrom (ts ++ r :: us) es (r :: us) := by
  match h with
  | .none => exact (hn rfl).elim
  | .one he =>
    intro r us stops hr
    exact .one (ExprPhrase.climbs he (Nat.le_refl _) (by decide) stops.canFollow stops.done
      fun _ => stops.2) hr
  | @ItemsPhrase.more c ts ts' a a' es he hc hes =>
    intro r us stops hr
    have comma := stops_comma hc
    have first : Climbs .assignment (ts ++ c :: (ts' ++ r :: us)) a (c :: (ts' ++ r :: us)) :=
      ExprPhrase.climbs he (Nat.le_refl _) (by decide) comma.canFollow comma.done fun _ => comma.2
    have c := ListsFrom.more first hc (ItemsPhrase.listsFrom hes nofun stops hr)
    simpa using c

end

/-- The tokens of a phrase with a token behind it that ends it are those of no other phrase. -/
theorem ExprPhrase.unique {ts ts' us us' : List Token} {t t' : Token} {e e' : Expr}
    (h : ExprPhrase .assignment ts e) (h' : ExprPhrase .assignment ts' e') (ht : Stops t)
    (ht' : Stops t') (tokens : ts ++ t :: us = ts' ++ t' :: us') :
    ts = ts' ∧ e = e' ∧ t = t' ∧ us = us' := by
  have climbs {ts us : List Token} {t : Token} {e : Expr} (h : ExprPhrase .assignment ts e)
      (ht : Stops t) : Climbs .assignment (ts ++ t :: us) e (t :: us) :=
    ExprPhrase.climbs h (Nat.le_refl _) (by decide) ht.canFollow ht.done fun _ => ht.2
  obtain ⟨rfl, rest⟩ := climbs_unique (tokens ▸ climbs h ht) (climbs h' ht')
  obtain ⟨rfl, rfl⟩ := List.cons.inj rest
  exact ⟨List.append_cancel_right tokens, rfl, rfl, rfl⟩

end Complete

end Compile
end StackScript
