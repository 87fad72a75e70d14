import StackScript.Proofs.Compile.Climb
import StackScript.Proofs.Compile.Script

/-!
# StackScript.Proofs.Compile.Unique

The grammar is not ambiguous.

* `Continues`: what a statement consists of, told by its first token.
* `StmtPhrase.unique`: tokens are those of one statement only.
* `Parses.unique`: a source has at most one tree.
-/

namespace StackScript
namespace Compile

open Syntax

section First

variable {ts us : List Token} {t : Token} {a : Stmt} {e : Expr}

theorem ExprPhrase.first {p : Precedence} (h : ExprPhrase p ts e) :
    ∃ t us, ts = t :: us ∧ (leading? t.kind).isSome := by
  have stops : Stops ⟨.eof, "", .start⟩ := ⟨rfl, nofun⟩
  have low : ExprPhrase .assignment ts e := exprPhrase_of_le h (by cases p <;> decide)
  have climbs := ExprPhrase.climbs low (Nat.le_refl _) (by decide) stops.canFollow
    (stops.done : Follows _ [_] _ _ _) fun _ => stops.2
  obtain ⟨t, us, e, begins⟩ := climbs.first
  cases ts with
  | nil =>
    cases e
    cases begins
  | cons u ts =>
    cases e
    exact ⟨_, _, rfl, begins⟩

/-- The tokens of a statement behind the first one, and what they are. -/
def Continues (t : Token) (us : List Token) (a : Stmt) : Prop :=
  match t.kind with
  | .keyword .print => ∃ ts e s, us = ts ++ [s] ∧ ExprPhrase .assignment ts e ∧
      s.kind = .punctuation .semicolon ∧ a = .print e
  | .punctuation .leftBrace => ∃ ts c b, us = ts ++ [c] ∧ StmtPhrase .declarations ts b ∧
      c.kind = .punctuation .rightBrace ∧ a = .block b
  | .keyword .if => ∃ l ts e r vs b, l.kind = .punctuation .leftParen ∧
      ExprPhrase .assignment ts e ∧ r.kind = .punctuation .rightParen ∧
      StmtPhrase .statement vs b ∧
      ((us = l :: (ts ++ r :: vs) ∧ a = .ifElse e b .empty) ∨
        ∃ o ws c, us = l :: (ts ++ r :: (vs ++ o :: ws)) ∧ b.isOpen = false ∧
          o.kind = .keyword .else ∧ StmtPhrase .statement ws c ∧ a = .ifElse e b c)
  | .keyword .while => ∃ l ts e r vs b, us = l :: (ts ++ r :: vs) ∧
      l.kind = .punctuation .leftParen ∧ ExprPhrase .assignment ts e ∧
      r.kind = .punctuation .rightParen ∧ StmtPhrase .statement vs b ∧ a = .while e b
  | .keyword .for => ∃ l ts i vs c ws e xs b, us = l :: (ts ++ (vs ++ (ws ++ xs))) ∧
      l.kind = .punctuation .leftParen ∧ StmtPhrase .start ts i ∧
      ClausePhrase (.punctuation .semicolon) vs c ∧ ClausePhrase (.punctuation .rightParen) ws e ∧
      StmtPhrase .statement xs b ∧ a = .for i c e b
  | .keyword .return => ∃ e, ClausePhrase (.punctuation .semicolon) us e ∧
      a = .return (e.getD .nil)
  | _ => (leading? t.kind).isSome ∧ ∃ ts e s, t :: us = ts ++ [s] ∧ ExprPhrase .assignment ts e ∧
      s.kind = .punctuation .semicolon ∧ a = .expression e

theorem StmtPhrase.continues (h : StmtPhrase .statement ts a) :
    ∃ t us, ts = t :: us ∧ Continues t us a := by
  unfold Continues
  cases h with
  | expression he ht =>
    obtain ⟨u, us, rfl, begins⟩ := ExprPhrase.first he
    refine ⟨u, _, rfl, ?_⟩
    split
    case h_7 => exact ⟨begins, _, _, _, rfl, he, ht, rfl⟩
    all_goals simp_all [leading?]
  | print hk he hs =>
    refine ⟨_, _, rfl, ?_⟩
    simp only [hk]
    exact ⟨_, _, _, rfl, he, hs, rfl⟩
  | block hk hb hc =>
    refine ⟨_, _, rfl, ?_⟩
    simp only [hk]
    exact ⟨_, _, _, rfl, hb, hc, rfl⟩
  | ifThen hk hl he hr ha =>
    refine ⟨_, _, rfl, ?_⟩
    simp only [hk]
    exact ⟨_, _, _, _, _, _, hl, he, hr, ha, .inl ⟨by simp, rfl⟩⟩
  | ifElse hk hl he hr ha ho hk' hb =>
    refine ⟨_, _, rfl, ?_⟩
    simp only [hk]
    exact ⟨_, _, _, _, _, _, hl, he, hr, ha, .inr ⟨_, _, _, by simp, ho, hk', hb, rfl⟩⟩
  | «while» hk hl he hr ha =>
    refine ⟨_, _, rfl, ?_⟩
    simp only [hk]
    exact ⟨_, _, _, _, _, _, by simp, hl, he, hr, ha, rfl⟩
  | «for» hk hl hi hc he ha =>
    refine ⟨_, _, rfl, ?_⟩
    simp only [hk]
    exact ⟨_, _, _, _, _, _, _, _, _, by simp, hl, hi, hc, he, ha, rfl⟩
  | «return» hk he =>
    refine ⟨_, _, rfl, ?_⟩
    simp only [hk]
    exact ⟨_, he, rfl⟩

/-- The first token of a statement or a declaration ends no block and belongs to no `if`. -/
def Begins (t : Token) : Prop :=
  t.kind ≠ .punctuation .rightBrace ∧ t.kind ≠ .eof ∧ t.kind ≠ .keyword .else

theorem StmtPhrase.begins (h : StmtPhrase .declaration ts a) :
    ∃ t us, ts = t :: us ∧ Begins t := by
  cases h with
  | statement h =>
    obtain ⟨t, us, rfl, c⟩ := StmtPhrase.continues h
    refine ⟨t, us, rfl, ?_⟩
    unfold Continues at c
    unfold Begins
    split at c
    case h_7 =>
      obtain ⟨c, -⟩ := c
      refine ⟨?_, ?_, ?_⟩ <;> intro hk <;> simp [hk, leading?] at c
    all_goals simp_all
  | var hk | function hk => exact ⟨_, _, rfl, by simp [Begins, hk]⟩

end First

section Unique

variable {ts ts' us us' : List Token} {t t' : Token}

theorem stops_semicolon (hk : t.kind = .punctuation .semicolon) : Stops t := by
  simp [Stops, hk, trailing?]

theorem ClausePhrase.unique {close : TokenKind} {e e' : Option Expr} (h : ClausePhrase close ts e)
    (h' : ClausePhrase close ts' e')
    (hc : close = .punctuation .semicolon ∨ close = .punctuation .rightParen)
    (tokens : ts ++ us = ts' ++ us') : ts = ts' ∧ e = e' := by
  have stops {t : Token} (hk : t.kind = close) : Stops t := by
    obtain rfl | rfl := hc
    · exact stops_semicolon hk
    · exact stops_rightParen hk
  have apart {ts us us' : List Token} {t : Token} {e : Expr} (hk : t.kind = close)
      (he : ExprPhrase .assignment ts e) (tokens : t :: us = ts ++ us') : False := by
    obtain ⟨u, vs, rfl, begins⟩ := ExprPhrase.first he
    obtain ⟨rfl, -⟩ := List.cons.inj tokens
    rw [hk] at begins
    obtain rfl | rfl := hc <;> cases begins
  cases h with
  | absent hk =>
    cases h' with
    | absent => exact ⟨by rw [(List.cons.inj tokens).1], rfl⟩
    | present he' => exact (apart hk he' (by simpa using tokens)).elim
  | present he hk =>
    cases h' with
    | absent hk' => exact (apart hk' he (by simpa using tokens.symm)).elim
    | present he' hk' =>
      rw [List.append_assoc, List.append_assoc] at tokens
      obtain ⟨rfl, rfl, rfl, -⟩ := ExprPhrase.unique he he' (stops hk) (stops hk') tokens
      exact ⟨rfl, rfl⟩

theorem InitialPhrase.unique {e e' : Expr} (h : InitialPhrase ts e) (h' : InitialPhrase ts' e')
    (tokens : ts ++ us = ts' ++ us') : ts = ts' ∧ e = e' := by
  cases h with
  | absent hk =>
    cases h' with
    | absent => exact ⟨by rw [(List.cons.inj tokens).1], rfl⟩
    | present hk' =>
      rw [← (List.cons.inj tokens).1, hk] at hk'
      cases hk'
  | present hk he ht =>
    cases h' with
    | absent hk' =>
      rw [← (List.cons.inj tokens).1, hk] at hk'
      cases hk'
    | present hk' he' ht' =>
      simp only [List.cons_append, List.append_assoc, List.nil_append, List.cons.injEq] at tokens
      obtain ⟨rfl, tokens⟩ := tokens
      obtain ⟨rfl, rfl, rfl, -⟩ :=
        ExprPhrase.unique he he' (stops_semicolon ht) (stops_semicolon ht') tokens
      exact ⟨rfl, rfl⟩

theorem NamesPhrase.unique {xs xs' : List String} (h : NamesPhrase ts xs) :
    NamesPhrase ts' xs' → t.kind = .punctuation .rightParen → t'.kind = .punctuation .rightParen →
      ts ++ t :: us = ts' ++ t' :: us' → ts = ts' ∧ xs = xs' ∧ t = t' ∧ us = us' := by
  induction h generalizing ts' xs' with
  | none =>
    intro h' ht ht' tokens
    cases h' with
    | none => exact ⟨rfl, rfl, List.cons.inj tokens⟩
    | one hk | more hk => simp_all
  | one hk =>
    intro h' ht ht' tokens
    cases h' with
    | none => simp_all
    | one => simp_all
    | more _ hc => simp_all
  | more hk hc _ ih =>
    intro h' ht ht' tokens
    cases h' with
    | none => simp_all
    | one => simp_all
    | more _ _ h' =>
      simp only [List.cons_append, List.cons.injEq] at tokens
      obtain ⟨rfl, rfl, tokens⟩ := tokens
      obtain ⟨rfl, e, rest⟩ := ih h' ht ht' tokens
      rw [e]
      exact ⟨rfl, rfl, rest⟩

/-- Where phrases of a category can end. -/
def CanEnd : Category → Stmt → List Token → Prop
  | .declarations, _, us => ∀ t ∈ us.head?, t.kind = .punctuation .rightBrace ∨ t.kind = .eof
  | _, a, us => a.isOpen = true → ∀ t ∈ us.head?, t.kind ≠ .keyword .else

/-- Behind a statement that is part of a list. -/
theorem CanEnd.mid {a : Stmt} {b : Stmt} {category : Category}
    (hc : category ≠ .declarations) (h : StmtPhrase .declarations ts b) (he : CanEnd .declarations b us) :
    CanEnd category a (ts ++ us) := by
  have other : ∀ t ∈ (ts ++ us).head?, t.kind ≠ .keyword .else := by
    intro t ht
    cases h with
    | none =>
      obtain hk | hk := he t ht <;> simp [hk]
    | more hd _ =>
      obtain ⟨u, vs, rfl, -, -, hk⟩ := StmtPhrase.begins hd
      cases ht
      exact hk
  cases category with
  | declarations => exact absurd rfl hc
  | _ => exact fun _ => other

theorem canEnd_start {a : Stmt} (h : StmtPhrase .start ts a) : CanEnd .start a us := by
  intro ho
  cases h <;> cases ho

theorem StmtPhrase.unique {category : Category} {a a' : Stmt} (h : StmtPhrase category ts a) :
    StmtPhrase category ts' a' → CanEnd category a us → CanEnd category a' us' →
      ts ++ us = ts' ++ us' → ts = ts' ∧ a = a' := by
  induction h generalizing ts' a' us us' with
  | none =>
    intro h' he _ tokens
    cases h' with
    | none => exact ⟨rfl, rfl⟩
    | more hd _ =>
      obtain ⟨t, vs, rfl, notBrace, notEnd, -⟩ := StmtPhrase.begins hd
      rw [List.nil_append] at tokens
      obtain hk | hk := he t (by rw [tokens]; rfl)
      · exact absurd hk notBrace
      · exact absurd hk notEnd
  | more h₁ h₂ ih₁ ih₂ =>
    intro h' he he' tokens
    cases h' with
    | none =>
      obtain ⟨t, vs, rfl, notBrace, notEnd, -⟩ := StmtPhrase.begins h₁
      rw [List.nil_append] at tokens
      obtain hk | hk := he' t (by rw [← tokens]; rfl)
      · exact absurd hk notBrace
      · exact absurd hk notEnd
    | more h₁' h₂' =>
      rw [List.append_assoc, List.append_assoc] at tokens
      obtain ⟨rfl, rfl⟩ := ih₁ h₁' (.mid nofun h₂ he) (.mid nofun h₂' he') tokens
      obtain ⟨rfl, rfl⟩ := ih₂ h₂' he he' (List.append_cancel_left tokens)
      exact ⟨rfl, rfl⟩
  | statement h ih =>
    intro h' he he' tokens
    cases h' with
    | statement h' => exact ih h' he he' tokens
    | var hk | function hk =>
      obtain ⟨t, vs, rfl, c⟩ := StmtPhrase.continues h
      obtain ⟨rfl, -⟩ := List.cons.inj tokens
      simp [Continues, hk, leading?] at c
  | var hk hx hi =>
    intro h' he he' tokens
    cases h' with
    | statement h' =>
      obtain ⟨t, vs, rfl, c⟩ := StmtPhrase.continues h'
      obtain ⟨rfl, -⟩ := List.cons.inj tokens
      simp [Continues, hk, leading?] at c
    | var _ _ hi' =>
      simp only [List.cons_append, List.cons.injEq] at tokens
      obtain ⟨rfl, rfl, tokens⟩ := tokens
      obtain ⟨rfl, rfl⟩ := InitialPhrase.unique hi hi' tokens
      exact ⟨rfl, rfl⟩
    | function hk' => simp_all
  | function hk hx hl hn hr hb ha hc ih =>
    intro h' he he' tokens
    cases h' with
    | statement h' =>
      obtain ⟨t, vs, rfl, c⟩ := StmtPhrase.continues h'
      obtain ⟨rfl, -⟩ := List.cons.inj tokens
      simp [Continues, hk, leading?] at c
    | var hk' => simp_all
    | function _ _ _ hn' hr' _ ha' hc' =>
      simp only [List.cons_append, List.append_assoc, List.nil_append, List.cons.injEq] at tokens
      obtain ⟨rfl, rfl, rfl, tokens⟩ := tokens
      obtain ⟨rfl, rfl, rfl, tail⟩ := NamesPhrase.unique hn hn' hr hr' tokens
      obtain ⟨rfl, inner⟩ := List.cons.inj tail
      obtain ⟨rfl, rfl⟩ := ih ha' (fun t ht => .inl (by cases ht; exact hc))
        (fun t ht => .inl (by cases ht; exact hc')) inner
      obtain ⟨rfl, -⟩ := List.cons.inj (List.append_cancel_left inner)
      exact ⟨rfl, rfl⟩
  | startEmpty hk =>
    intro h' he he' tokens
    cases h' with
    | startEmpty => exact ⟨by rw [(List.cons.inj tokens).1], rfl⟩
    | startVar hk' => simp_all
    | startExpression hx =>
      obtain ⟨u, vs, rfl, begins⟩ := ExprPhrase.first hx
      obtain ⟨rfl, -⟩ := List.cons.inj tokens
      simp [hk, leading?] at begins
  | startVar hk hx hi =>
    intro h' he he' tokens
    cases h' with
    | startEmpty hk' => simp_all
    | startVar _ _ hi' =>
      simp only [List.cons_append, List.cons.injEq] at tokens
      obtain ⟨rfl, rfl, tokens⟩ := tokens
      obtain ⟨rfl, rfl⟩ := InitialPhrase.unique hi hi' tokens
      exact ⟨rfl, rfl⟩
    | startExpression hx =>
      obtain ⟨u, vs, rfl, begins⟩ := ExprPhrase.first hx
      obtain ⟨rfl, -⟩ := List.cons.inj tokens
      simp [hk, leading?] at begins
  | startExpression hx hs =>
    intro h' he he' tokens
    cases h' with
    | startEmpty hk | startVar hk =>
      obtain ⟨u, vs, rfl, begins⟩ := ExprPhrase.first hx
      obtain ⟨rfl, -⟩ := List.cons.inj tokens
      simp [hk, leading?] at begins
    | startExpression hx' hs' =>
      rw [List.append_assoc, List.append_assoc] at tokens
      obtain ⟨rfl, rfl, rfl, -⟩ :=
        ExprPhrase.unique hx hx' (stops_semicolon hs) (stops_semicolon hs') tokens
      exact ⟨rfl, rfl⟩
  | expression hx hs =>
    intro h' he he' tokens
    obtain ⟨t', vs', rfl, c⟩ := StmtPhrase.continues h'
    obtain ⟨u, vs, rfl, begins⟩ := ExprPhrase.first hx
    obtain ⟨rfl, -⟩ := List.cons.inj tokens
    unfold Continues at c
    split at c
    case h_7 =>
      obtain ⟨-, vs, e, s, e', hx', hs', rfl⟩ := c
      rw [e'] at tokens ⊢
      rw [List.append_assoc, List.append_assoc] at tokens
      obtain ⟨e, rfl, rfl, -⟩ :=
        ExprPhrase.unique hx hx' (stops_semicolon hs) (stops_semicolon hs') tokens
      rw [e]
      exact ⟨rfl, rfl⟩
    all_goals simp_all [leading?]
  | print hk hx hs =>
    intro h' he he' tokens
    obtain ⟨t', vs', rfl, c⟩ := StmtPhrase.continues h'
    simp only [List.cons_append, List.append_assoc, List.cons.injEq] at tokens
    obtain ⟨rfl, tokens⟩ := tokens
    simp only [Continues, hk] at c
    obtain ⟨vs, e, s, rfl, hx', hs', rfl⟩ := c
    rw [List.append_assoc] at tokens
    obtain ⟨rfl, rfl, rfl, -⟩ :=
      ExprPhrase.unique hx hx' (stops_semicolon hs) (stops_semicolon hs') tokens
    exact ⟨rfl, rfl⟩
  | block hk hb hc ih =>
    intro h' he he' tokens
    obtain ⟨t', vs', rfl, c⟩ := StmtPhrase.continues h'
    simp only [List.cons_append, List.append_assoc, List.cons.injEq] at tokens
    obtain ⟨rfl, tokens⟩ := tokens
    simp only [Continues, hk] at c
    obtain ⟨vs, s, b, rfl, hb', hc', rfl⟩ := c
    rw [List.append_assoc] at tokens
    obtain ⟨rfl, rfl⟩ := ih hb' (fun t ht => .inl (by cases ht; exact hc))
      (fun t ht => .inl (by cases ht; exact hc')) tokens
    obtain ⟨rfl, -⟩ := List.cons.inj (List.append_cancel_left tokens)
    exact ⟨rfl, rfl⟩
  | ifThen hk hl hx hr ha ih =>
    intro h' he he' tokens
    obtain ⟨t', vs', rfl, c⟩ := StmtPhrase.continues h'
    simp only [List.cons_append, List.append_assoc, List.cons.injEq] at tokens
    obtain ⟨rfl, tokens⟩ := tokens
    simp only [Continues, hk] at c
    obtain ⟨l, vs, e, r, ws, b, hl', hx', hr', hb', c⟩ := c
    obtain ⟨rfl, rfl⟩ | ⟨o, xs, d, rfl, closed, ho, -, rfl⟩ := c
    all_goals
      simp only [List.cons_append, List.append_assoc, List.cons.injEq] at tokens
      obtain ⟨rfl, tokens⟩ := tokens
      obtain ⟨rfl, rfl, rfl, tail⟩ :=
        ExprPhrase.unique hx hx' (stops_rightParen hr) (stops_rightParen hr') tokens
    · obtain ⟨rfl, rfl⟩ := ih hb' (fun _ => he rfl) (fun _ => he' rfl) tail
      exact ⟨rfl, rfl⟩
    · obtain ⟨rfl, rfl⟩ := ih hb' (fun _ => he rfl) (fun h => by rw [closed] at h; cases h) tail
      have other := he rfl o (by rw [List.append_cancel_left tail]; rfl)
      exact absurd ho other
  | ifElse hk hl hx hr ha ho hk' hb ih ih' =>
    intro h' he he' tokens
    obtain ⟨t', vs', rfl, c⟩ := StmtPhrase.continues h'
    simp only [List.cons_append, List.append_assoc, List.cons.injEq] at tokens
    obtain ⟨rfl, tokens⟩ := tokens
    simp only [Continues, hk] at c
    obtain ⟨l, vs, e, r, ws, b, hl', hx', hr', hb', c⟩ := c
    obtain ⟨rfl, rfl⟩ | ⟨o, xs, d, rfl, closed, ho', hd, rfl⟩ := c
    all_goals
      simp only [List.cons_append, List.append_assoc, List.cons.injEq] at tokens
      obtain ⟨rfl, tokens⟩ := tokens
      obtain ⟨rfl, rfl, rfl, tail⟩ :=
        ExprPhrase.unique hx hx' (stops_rightParen hr) (stops_rightParen hr') tokens
    · obtain ⟨rfl, rfl⟩ := ih hb' (fun h => by rw [ho] at h; cases h) (fun _ => he' rfl) tail
      have other := he' rfl _ (by rw [← List.append_cancel_left tail]; rfl)
      exact absurd hk' other
    · obtain ⟨rfl, rfl⟩ := ih hb' (fun h => by rw [ho] at h; cases h)
        (fun h => by rw [closed] at h; cases h) tail
      obtain ⟨rfl, rest⟩ := List.cons.inj (List.append_cancel_left tail)
      obtain ⟨rfl, rfl⟩ := ih' hd (fun h => he ((isOpen_ifElse (ne_empty_of_statement hb)).trans h))
        (fun h => he' ((isOpen_ifElse (ne_empty_of_statement hd)).trans h)) rest
      exact ⟨by simp, rfl⟩
  | «while» hk hl hx hr ha ih =>
    intro h' he he' tokens
    obtain ⟨t', vs', rfl, c⟩ := StmtPhrase.continues h'
    simp only [List.cons_append, List.append_assoc, List.cons.injEq] at tokens
    obtain ⟨rfl, tokens⟩ := tokens
    simp only [Continues, hk] at c
    obtain ⟨l, vs, e, r, ws, b, rfl, hl', hx', hr', hb', rfl⟩ := c
    simp only [List.cons_append, List.append_assoc, List.cons.injEq] at tokens
    obtain ⟨rfl, tokens⟩ := tokens
    obtain ⟨rfl, rfl, rfl, tail⟩ :=
      ExprPhrase.unique hx hx' (stops_rightParen hr) (stops_rightParen hr') tokens
    obtain ⟨rfl, rfl⟩ := ih hb' he he' tail
    exact ⟨rfl, rfl⟩
  | «for» hk hl hi hc hx ha ih ih' =>
    intro h' he he' tokens
    obtain ⟨t', vs', rfl, c⟩ := StmtPhrase.continues h'
    simp only [List.cons_append, List.append_assoc, List.cons.injEq] at tokens
    obtain ⟨rfl, tokens⟩ := tokens
    simp only [Continues, hk] at c
    obtain ⟨l, ts, i, vs, d, ws, e, xs, b, rfl, hl', hi', hc', hx', hb', rfl⟩ := c
    simp only [List.cons_append, List.append_assoc, List.cons.injEq] at tokens
    obtain ⟨rfl, tokens⟩ := tokens
    obtain ⟨rfl, rfl⟩ := ih hi' (canEnd_start hi) (canEnd_start hi') tokens
    have tail := List.append_cancel_left tokens
    obtain ⟨rfl, rfl⟩ := ClausePhrase.unique hc hc' (.inl rfl) tail
    have tail' := List.append_cancel_left tail
    obtain ⟨rfl, rfl⟩ := ClausePhrase.unique hx hx' (.inr rfl) tail'
    obtain ⟨rfl, rfl⟩ := ih' hb' he he' (List.append_cancel_left tail')
    exact ⟨by simp, rfl⟩
  | «return» hk hx =>
    intro h' he he' tokens
    obtain ⟨t', vs', rfl, c⟩ := StmtPhrase.continues h'
    simp only [List.cons_append, List.cons.injEq] at tokens
    obtain ⟨rfl, tokens⟩ := tokens
    simp only [Continues, hk] at c
    obtain ⟨e, hx', rfl⟩ := c
    obtain ⟨rfl, rfl⟩ := ClausePhrase.unique hx hx' (.inl rfl) tokens
    exact ⟨rfl, rfl⟩

/-- A source has at most one tree. -/
theorem Parses.unique {source : String} {a b : Stmt} (h : Parses source a) (h' : Parses source b) :
    a = b := by
  obtain ⟨ts, t, scanned, ht, ha⟩ := h
  obtain ⟨ts', t', scanned', ht', hb⟩ := h'
  have ends {a : Stmt} {t : Token} (ht : t.kind = .eof) : CanEnd .declarations a [t] :=
    fun u hu => .inr (by cases hu; exact ht)
  exact (StmtPhrase.unique ha hb (ends ht) (ends ht') (scanned.symm.trans scanned')).2

end Unique

end Compile
end StackScript
