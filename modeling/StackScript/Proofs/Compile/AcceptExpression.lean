import StackScript.Proofs.Compile.Climb
import StackScript.Proofs.Compile.Granted

/-!
# StackScript.Proofs.Compile.AcceptExpression

The expressions of the grammar are compiled without an error, where there is room for them.

* `Context.Takes`: names can be read and the functions around can take some needs.
* `Leads`: the left part of an expression.
* `Grants.operand`, `Grants.operators`, ...: tokens that a production compiles.
* `Climbs.granted`: what can be read by climbing is compiled.
-/

namespace StackScript
namespace Compile

open Syntax Instruction

/-- Names can be read, and there is room for what some code needs. -/
structure Context.Takes (c : Context) (σ : Scopes) (names : List String) (ns : List Need) :
    Prop where
  scopes : c.scopes = σ
  proper : c.Proper
  clear : ∀ x ∈ names, c.Clear x
  room : c.Room ns

/-- An expression was read and compiled, up to some tokens. -/
def Compiled (us : List Token) (e : Expr) (s s' : State) : Prop :=
  ∃ ts is, Passes s ts is s' ∧ ExprCode s.context e is s'.context ∧ s'.current :: s'.rest = us

/-- The items of a list were read and compiled, up to some tokens. -/
def CompiledAll (us : List Token) (es : Exprs) (s s' : State) : Prop :=
  ∃ ts is, Passes s ts is s' ∧ ExprsCode s.context es is s'.context ∧ s'.current :: s'.rest = us

/-- `a` is what `e` begins with from the left. -/
structure Leads (a e : Expr) : Prop where
  names : ∃ xs, e.names = a.names ++ xs
  needs : ∀ σ, ∃ ns, e.needs σ = a.needs σ ++ ns
  fits : e.Fits → a.Fits

namespace Leads

variable {a b e : Expr}

theorem refl (a : Expr) : Leads a a :=
  ⟨⟨[], (List.append_nil _).symm⟩, fun _ => ⟨[], (List.append_nil _).symm⟩, id⟩

theorem trans (h : Leads a b) (h' : Leads b e) : Leads a e := by
  obtain ⟨⟨xs, hx⟩, needs, fits⟩ := h
  obtain ⟨⟨ys, hy⟩, needs', fits'⟩ := h'
  refine ⟨⟨xs ++ ys, by rw [hy, hx, List.append_assoc]⟩, fun σ => ?_, fits ∘ fits'⟩
  obtain ⟨ns, hn⟩ := needs σ
  obtain ⟨ms, hm⟩ := needs' σ
  exact ⟨ns ++ ms, by rw [hm, hn, List.append_assoc]⟩

end Leads

theorem Follows.leads {p : Precedence} {ts us : List Token} {a e : Expr}
    (h : Follows p ts a e us) : Leads a e := by
  match h with
  | .done _ => exact .refl a
  | .call _ _ _ h => exact .trans ⟨⟨_, rfl⟩, fun _ => ⟨_, rfl⟩, And.left⟩ h.leads
  | .index _ _ _ _ _ h => exact .trans ⟨⟨_, rfl⟩, fun _ => ⟨_, rfl⟩, And.left⟩ h.leads
  | .setIndex _ _ _ _ _ _ h => exact .trans ⟨⟨_, rfl⟩, fun _ => ⟨_, rfl⟩, And.left⟩ h.leads
  | .binary _ _ _ h => exact .trans ⟨⟨_, rfl⟩, fun _ => ⟨_, rfl⟩, And.left⟩ h.leads
  | .and _ _ _ h => exact .trans ⟨⟨_, rfl⟩, fun _ => ⟨_, rfl⟩, And.left⟩ h.leads
  | .or _ _ _ h => exact .trans ⟨⟨_, rfl⟩, fun _ => ⟨_, rfl⟩, And.left⟩ h.leads
termination_by structural h

theorem Passes.left {s s' : State} {ts us : List Token} {is : List Instruction}
    (p : Passes s ts is s') (h : s.current :: s.rest = ts ++ us) : s'.current :: s'.rest = us :=
  List.append_cancel_left (p.tokens.symm.trans h)

theorem Passes.next {s s' : State} {t : Token} {us : List Token} {is : List Instruction}
    (p : Passes s [s.current] is s') (h : s.current :: s.rest = t :: us) :
    s'.current :: s'.rest = us :=
  (List.cons.inj (p.tokens.symm.trans h)).2

section Takes

variable {c c' : Context} {σ : Scopes} {xs ys : List String} {ns ms : List Need} {H : Heap}

theorem Context.Takes.left (h : c.Takes σ (xs ++ ys) (ns ++ ms)) : c.Takes σ xs ns :=
  ⟨h.scopes, h.proper, fun x hx => h.clear x (List.mem_append_left ys hx), h.room.front⟩

theorem Context.Takes.leads {a e : Expr} (h : c.Takes σ e.names (e.needs σ)) (l : Leads a e) :
    c.Takes σ a.names (a.needs σ) := by
  obtain ⟨xs, names⟩ := l.names
  obtain ⟨ns, needs⟩ := l.needs σ
  rw [names, needs] at h
  exact h.left

variable (hH : H.Sound) (small : H.size ≤ UInt32.size)
include hH small

/-- What is to be taken behind an expression. -/
theorem Context.Takes.right {e : Expr} {is : List Instruction}
    (h : c.Takes σ (e.names ++ ys) (e.needs σ ++ ms)) (he : ExprCode c e is c')
    (ext : c'.heap.Extends H) : c'.Takes σ ys ms := by
  obtain ⟨rfl, hp, clear, room⟩ := h
  have g := he.grows.grown hp
  exact ⟨g.scopes, he.grows.proper hp,
    fun x hx => g.clear.2 (clear x (List.mem_append_right _ hx)),
    room.behind (he.tracked hH small hp ext)⟩

end Takes

namespace Grants

variable (H : Heap)

/-- The production of operands compiles an expression. -/
def operand (p : Precedence) (ts : List Token) (e : Expr) (us : List Token) : Prop :=
  ∀ ⦃n s s' u σ⦄, Compile.operand n p s = some (u, s') → Clean s → s.current :: s.rest = ts →
    s.context.Takes σ e.names (e.needs σ) → e.Fits → s'.heap.Extends H → Compiled us e s s'

/-- An expression that begins with a token is compiled once the token has been read. -/
def leading (form : Leading) (assignable : Bool) (t : Token) (ts : List Token) (e : Expr)
    (us : List Token) : Prop :=
  ∀ ⦃n s s' u σ⦄, Compile.leading n form assignable s = some (u, s') → Clean s →
    s.previous = t → s.current :: s.rest = ts → s.context.Takes σ e.names (e.needs σ) →
    e.Fits → s'.heap.Extends H → Compiled us e s s'

/-- What a production reads behind the code of a left operand `a` makes it an expression `e`. -/
def behind (x : Compiler Unit) (ts : List Token) (a e : Expr) (us : List Token) : Prop :=
  ∀ ⦃s s' u σ c is⦄, x s = some (u, s') → Clean s → s.current :: s.rest = ts →
    ExprCode c a is s.context → c.Takes σ e.names (e.needs σ) → e.Fits → s'.heap.Extends H →
    ∃ ts js, Passes s ts js s' ∧ ExprCode c e (is ++ js) s'.context ∧ s'.current :: s'.rest = us

/-- The operators behind a left operand are compiled. -/
def operators (p : Precedence) (ts : List Token) (a e : Expr) (us : List Token) : Prop :=
  ∀ n, behind H (Compile.operators n p (decide (p ≤ .assignment))) ts a e us

/-- What stands behind an operator is compiled. -/
def trailing (p : Precedence) (form : Trailing) (ts : List Token) (a e : Expr)
    (us : List Token) : Prop :=
  ∀ n, behind H (Compile.trailing n form (decide (p ≤ .assignment))) ts a e us

/-- A list of expressions is compiled, with the token that closes it. -/
def items (close : TokenKind) (ts : List Token) (es : Exprs) (us : List Token) : Prop :=
  ∀ ⦃n limit what k s s' σ⦄, Compile.items n close limit what s = some (k, s') → Clean s →
    close ≠ .eof → s.current :: s.rest = ts → s.context.Takes σ es.names (es.needs σ) →
    es.Fits → es.length ≤ countLimit → s'.heap.Extends H →
    CompiledAll us es s s' ∧ k = es.length.toUInt8

/-- One more item and those behind it are compiled. -/
def itemsFrom (ts : List Token) (es : Exprs) (us : List Token) : Prop :=
  ∀ ⦃n limit count k s s' σ⦄, Compile.itemsFrom n limit count s = some (k, s') → Clean s →
    s.current :: s.rest = ts → s.context.Takes σ es.names (es.needs σ) → es.Fits →
    count + es.length ≤ countLimit → s'.heap.Extends H →
    CompiledAll us es s s' ∧ k = count + es.length

end Grants

section Productions

variable {H : Heap} (hH : H.Sound) (small : H.size ≤ UInt32.size)
  {p : Precedence} {b : Bool} {t u : Token} {ts us vs ws : List Token} {a e e' : Expr} {es : Exprs}

theorem grants_expression {n : Nat} {s s' : State} {v : Unit} {σ : Scopes}
    (h : Grants.operand H .assignment ts e us) (he : expression n s = some (v, s')) (hs : Clean s)
    (tokens : s.current :: s.rest = ts) (takes : s.context.Takes σ e.names (e.needs σ))
    (fits : e.Fits) (ext : s'.heap.Extends H) : Compiled us e s s' := by
  cases n with
  | zero => cases he
  | succ n =>
    rw [expression] at he
    exact h he hs tokens takes fits ext

theorem grants_operand {form : Leading} (hf : leading? t.kind = some form)
    (h₁ : Grants.leading H form (decide (p ≤ .assignment)) t ts a us)
    (h₂ : Grants.operators H p us a e (u :: vs)) (leads : Leads a e)
    (hq : p ≤ .assignment → u.kind ≠ .punctuation .equal) :
    Grants.operand H p (t :: ts) e (u :: vs) := by
  intro n s s' _ σ h hs tokens takes fits ext
  cases n with
  | zero => cases h
  | succ n =>
    obtain ⟨rfl, -⟩ := List.cons.inj tokens
    have ne : s.current.kind ≠ .eof := by
      intro he
      rw [he] at hf
      cases hf
    rw [operand] at h
    obtain ⟨_, s₁, h₀, h⟩ := bind_eq_some.1 h
    obtain ⟨p₁, e₁⟩ := runs_advance (granted_advance h₀ hs ne) hs.steady ne
    have previous : s₁.previous = s.current := p₁.previous
    rw [get_bind, previous] at h
    simp only [hf] at h
    obtain ⟨_, s₂, h₃, h⟩ := bind_eq_some.1 h
    obtain ⟨_, s₃, h₄, h⟩ := bind_eq_some.1 h
    have ext₃ := heap_behind h ext
    obtain ⟨ts₂, is₂, p₂, c₂, left₂⟩ := h₁ h₃ (p₁.clean hs) previous (p₁.next tokens)
      (e₁ ▸ takes.leads leads) (leads.fits fits) (heap_behind h₄ ext₃)
    have clean₂ := p₂.clean (p₁.clean hs)
    obtain ⟨ts₃, is₃, p₃, c₃, left₃⟩ := h₂ n h₄ clean₂ left₂ c₂ (e₁ ▸ takes) fits ext₃
    have done : s₃ = s' := by
      split at h
      next assignable =>
        obtain ⟨b, s₄, h₄, h⟩ := bind_eq_some.1 h
        obtain ⟨-, hk, -⟩ | ⟨rfl, -, rfl⟩ :=
          runs_accept (granted_accept h₄ (p₃.clean clean₂) (by simp)) p₃.steady (by simp)
        · rw [(List.cons.inj left₃).1] at hk
          exact absurd hk (hq (by simpa using assignable))
        · cases h
          rfl
      next =>
        cases h
        rfl
    subst done
    exact ⟨_, _, p₁.trans (p₂.trans p₃), by simpa [e₁] using c₃, left₃⟩

theorem grants_done (hb : Behind p t) : Grants.operators H p (t :: us) a a (t :: us) := by
  intro n s s' _ σ c is hr hs tokens code _ _ _
  cases n with
  | zero => cases hr
  | succ n =>
    obtain ⟨rfl, -⟩ := List.cons.inj tokens
    have done : s = s' := by
      rw [operators, get_bind] at hr
      cases hf : trailing? s.current.kind with
      | none =>
        simp only [hf] at hr
        cases hr
        rfl
      | some form =>
        simp only [hf, if_neg (hb form hf)] at hr
        cases hr
        rfl
    subst done
    exact ⟨[], [], .refl hs.steady, by simpa using code, tokens⟩

theorem grants_operator {form : Trailing} (hf : trailing? t.kind = some form)
    (tight : p ≤ form.precedence) (h₁ : Grants.trailing H p form us a e vs)
    (h₂ : Grants.operators H p vs e e' ws) (leads : Leads e e') :
    Grants.operators H p (t :: us) a e' ws := by
  intro n s s' _ σ c is hr hs tokens code takes fits ext
  cases n with
  | zero => cases hr
  | succ n =>
    obtain ⟨rfl, -⟩ := List.cons.inj tokens
    have ne : s.current.kind ≠ .eof := by
      intro he
      rw [he] at hf
      cases hf
    rw [operators, get_bind] at hr
    simp only [hf, if_pos tight] at hr
    obtain ⟨_, s₁, hr₁, hr⟩ := bind_eq_some.1 hr
    obtain ⟨p₁, e₁⟩ := runs_advance (granted_advance hr₁ hs ne) hs.steady ne
    obtain ⟨_, s₂, hr₂, hr₃⟩ := bind_eq_some.1 hr
    obtain ⟨ts₂, js₂, p₂, c₂, left₂⟩ := h₁ n hr₂ (p₁.clean hs) (p₁.next tokens) (e₁ ▸ code)
      (takes.leads leads) (leads.fits fits) (heap_behind hr₃ ext)
    obtain ⟨ts₃, js₃, p₃, c₃, left₃⟩ := h₂ n hr₃ (p₂.clean (p₁.clean hs)) left₂ c₂ takes fits ext
    exact ⟨_, _, p₁.trans (p₂.trans p₃), by simpa using c₃, left₃⟩

include hH small

theorem grants_call (h : Grants.items H (.punctuation .rightParen) us es vs) :
    Grants.trailing H p .call us a (.call a es) vs := by
  intro n s s' _ σ c is hr hs tokens code takes fits ext
  cases n with
  | zero => cases hr
  | succ n =>
    rw [trailing] at hr
    obtain ⟨k, s₁, hr₁, hr₂⟩ := bind_eq_some.1 hr
    have inner := takes.right hH small code (heap_behind hr ext)
    obtain ⟨⟨ts, js, p₁, c₁, left⟩, rfl⟩ := h hr₁ hs (by simp) tokens inner fits.2.1 fits.2.2
      (heap_behind hr₂ ext)
    obtain ⟨p₂, e₂⟩ := runs_emit (Quiet.runs hr₂ p₁.steady) p₁.steady
    exact ⟨_, _, p₁.trans p₂, .call code (e₂ ▸ c₁) fits.2.2, p₂.left left⟩

theorem grants_binary {op : BinaryOperator}
    (h : Grants.operand H op.precedence.next us e vs) :
    Grants.trailing H p (.binary op) us a (.binary op a e) vs := by
  intro n s s' _ σ c is hr hs tokens code takes fits ext
  cases n with
  | zero => cases hr
  | succ n =>
    rw [trailing] at hr
    obtain ⟨_, s₁, hr₁, hr₂⟩ := bind_eq_some.1 hr
    have inner := takes.right hH small code (heap_behind hr ext)
    obtain ⟨ts, js, p₁, c₁, left⟩ := h hr₁ hs tokens inner fits.2 (heap_behind hr₂ ext)
    obtain ⟨p₂, e₂⟩ := runs_emitAll (Quiet.runs hr₂ p₁.steady) p₁.steady
    rw [code_binary] at p₂
    exact ⟨_, _, p₁.trans p₂, .binary code (e₂ ▸ c₁), p₂.left left⟩

theorem grants_and (h : Grants.operand H .conjunction us e vs) :
    Grants.trailing H p .and us a (.and a e) vs := by
  intro n s s' _ σ c is hr hs tokens code takes fits ext
  cases n with
  | zero => cases hr
  | succ n =>
    rw [trailing] at hr
    have inner := takes.right hH small code (heap_behind hr ext)
    obtain ⟨past, s₁, hr₁, hr⟩ := bind_eq_some.1 hr
    obtain ⟨rfl, p₁, e₁⟩ := runs_emitJump (Quiet.runs hr₁ hs.steady) hs.steady
    obtain ⟨_, s₂, hr₂, hr⟩ := bind_eq_some.1 hr
    obtain ⟨p₂, e₂⟩ := runs_emit (Quiet.runs hr₂ p₁.steady) p₁.steady
    obtain ⟨_, s₃, hr₃, hr₄⟩ := bind_eq_some.1 hr
    rw [← e₁, ← e₂] at inner
    obtain ⟨ts, js, p₃, c₃, left⟩ := h hr₃ (p₂.clean (p₁.clean hs)) (p₂.left (p₁.left tokens))
      inner fits.2.1 (heap_behind hr₄ ext)
    have pending : Passes s ts ([] ++ .jumpIfFalse 0xFFFF :: .pop :: js) s₃ :=
      p₁.trans (p₂.trans p₃)
    have short : width (.pop :: js) ≤ jumpLimit := by
      rw [width_pop_cons, c₃.width_eq]
      exact fits.2.2
    obtain ⟨-, p₄, e₄⟩ := runs_landJump Chunk.isJump_jumpIfFalse
      (granted_landJump hr₄ pending rfl rfl short) pending rfl rfl
    rw [width_pop_cons] at short p₄
    exact ⟨_, _, p₄, .and code (e₄ ▸ e₁ ▸ e₂ ▸ c₃) short, (p₄.left pending.tokens).trans left⟩

theorem grants_or (h : Grants.operand H .disjunction us e vs) :
    Grants.trailing H p .or us a (.or a e) vs := by
  intro n s s' _ σ c is hr hs tokens code takes fits ext
  cases n with
  | zero => cases hr
  | succ n =>
    rw [trailing] at hr
    have inner := takes.right hH small code (heap_behind hr ext)
    obtain ⟨otherwise, s₁, hr₁, hr⟩ := bind_eq_some.1 hr
    obtain ⟨rfl, p₁, e₁⟩ := runs_emitJump (Quiet.runs hr₁ hs.steady) hs.steady
    obtain ⟨past, s₂, hr₂, hr⟩ := bind_eq_some.1 hr
    obtain ⟨rfl, p₂, e₂⟩ := runs_emitJump (Quiet.runs hr₂ p₁.steady) p₁.steady
    obtain ⟨_, s₃, hr₃, hr⟩ := bind_eq_some.1 hr
    have otherwise : Passes s [] ([] ++ .jumpIfFalse 0xFFFF :: [.jump 0xFFFF]) s₂ := p₁.trans p₂
    obtain ⟨-, p₃, e₃⟩ := runs_landJump Chunk.isJump_jumpIfFalse
      (granted_landJump hr₃ otherwise rfl rfl (by decide)) otherwise rfl rfl
    obtain ⟨_, s₄, hr₄, hr⟩ := bind_eq_some.1 hr
    obtain ⟨p₄, e₄⟩ := runs_emit (Quiet.runs hr₄ p₃.steady) p₃.steady
    obtain ⟨_, s₅, hr₅, hr₆⟩ := bind_eq_some.1 hr
    rw [← e₁, ← e₂, ← e₃, ← e₄] at inner
    have begun := p₃.trans p₄
    obtain ⟨ts, js, p₅, c₅, left⟩ := h hr₅ (begun.clean hs) (begun.left tokens) inner fits.2.1
      (heap_behind hr₆ ext)
    have pending : Passes s ts ([.jumpIfFalse 3] ++ .jump 0xFFFF :: .pop :: js) s₅ :=
      p₃.trans (p₄.trans p₅)
    have short : width (.pop :: js) ≤ jumpLimit := by
      rw [width_pop_cons, c₅.width_eq]
      exact fits.2.2
    obtain ⟨-, p₆, e₆⟩ := runs_landJump Chunk.isJump_jump
      (granted_landJump hr₆ pending rfl p₁.size.symm short) pending rfl p₁.size.symm
    rw [width_pop_cons] at short p₆
    exact ⟨_, _, p₆, .or code (e₆ ▸ e₁ ▸ e₂ ▸ e₃ ▸ e₄ ▸ c₅) short,
      (p₆.left pending.tokens).trans left⟩

theorem grants_index {r : Token} (h : Grants.operand H .assignment us e (r :: u :: vs))
    (hk : r.kind = .punctuation .rightBracket)
    (hq : p ≤ .assignment → u.kind ≠ .punctuation .equal) :
    Grants.trailing H p .index us a (.index a e) (u :: vs) := by
  intro n s s' _ σ c is hr hs tokens code takes fits ext
  cases n with
  | zero => cases hr
  | succ n =>
    rw [trailing] at hr
    have inner := takes.right hH small code (heap_behind hr ext)
    obtain ⟨_, s₁, hr₁, hr⟩ := bind_eq_some.1 hr
    obtain ⟨ts, js, p₁, c₁, left₁⟩ := grants_expression h hr₁ hs tokens inner fits.2
      (heap_behind hr ext)
    obtain ⟨_, s₂, hr₂, hr⟩ := bind_eq_some.1 hr
    have next : s₁.current.kind = .punctuation .rightBracket := (List.cons.inj left₁).1 ▸ hk
    obtain ⟨-, p₂, e₂⟩ := runs_consume (granted_consume hr₂ (p₁.clean hs) (by simp) next)
      p₁.steady (by simp)
    have left₂ := p₂.next left₁
    have done : emit .getIndex s₂ = some ((), s') := by
      split at hr
      next assignable =>
        obtain ⟨b, s₃, hr₃, hr⟩ := bind_eq_some.1 hr
        obtain ⟨-, hk, -⟩ | ⟨rfl, -, rfl⟩ := runs_accept
          (granted_accept hr₃ (p₂.clean (p₁.clean hs)) (by simp)) p₂.steady (by simp)
        · rw [(List.cons.inj left₂).1] at hk
          exact absurd hk (hq (by simpa using assignable))
        · exact hr
      next => exact hr
    obtain ⟨p₃, e₃⟩ := runs_emit (Quiet.runs done p₂.steady) p₂.steady
    exact ⟨_, _, p₁.trans (p₂.trans p₃), .index code (e₃ ▸ e₂ ▸ c₁), p₃.left left₂⟩

theorem grants_setIndex {r q : Token} (hp : p ≤ .assignment)
    (h : Grants.operand H .assignment us e (r :: q :: vs))
    (hk : r.kind = .punctuation .rightBracket) (hq : q.kind = .punctuation .equal)
    (h' : Grants.operand H .assignment vs e' ws) :
    Grants.trailing H p .index us a (.setIndex a e e') ws := by
  intro n s s' _ σ c is hr hs tokens code takes fits ext
  cases n with
  | zero => cases hr
  | succ n =>
    rw [trailing] at hr
    have inner := takes.right hH small code (heap_behind hr ext)
    obtain ⟨_, s₁, hr₁, hr⟩ := bind_eq_some.1 hr
    obtain ⟨ts, js, p₁, c₁, left₁⟩ := grants_expression h hr₁ hs tokens inner.left fits.2.1
      (heap_behind hr ext)
    have inner' := inner.right hH small c₁ (heap_behind hr ext)
    obtain ⟨_, s₂, hr₂, hr⟩ := bind_eq_some.1 hr
    have next : s₁.current.kind = .punctuation .rightBracket := (List.cons.inj left₁).1 ▸ hk
    obtain ⟨-, p₂, e₂⟩ := runs_consume (granted_consume hr₂ (p₁.clean hs) (by simp) next)
      p₁.steady (by simp)
    have left₂ := p₂.next left₁
    have clean₂ := p₂.clean (p₁.clean hs)
    rw [if_pos (decide_eq_true hp)] at hr
    obtain ⟨b, s₃, hr₃, hr⟩ := bind_eq_some.1 hr
    obtain ⟨rfl, -, p₃, e₃⟩ | ⟨-, ne, -⟩ :=
      runs_accept (granted_accept hr₃ clean₂ (by simp)) p₂.steady (by simp)
    · obtain ⟨_, s₄, hr₄, hr₅⟩ := bind_eq_some.1 hr
      rw [← e₂, ← e₃] at inner'
      obtain ⟨ts', ks, p₄, c₄, left₄⟩ := grants_expression h' hr₄ (p₃.clean clean₂) (p₃.next left₂)
        inner' fits.2.2 (heap_behind hr₅ ext)
      obtain ⟨p₅, e₅⟩ := runs_emit (Quiet.runs hr₅ p₄.steady) p₄.steady
      exact ⟨_, _, p₁.trans (p₂.trans (p₃.trans (p₄.trans p₅))),
        .setIndex code c₁ (e₂ ▸ e₃ ▸ e₅ ▸ c₄), p₅.left left₄⟩
    · rw [(List.cons.inj left₂).1] at ne
      exact absurd hq ne

omit hH small in
theorem grants_constant {i : Instruction} (code : ∀ c, ExprCode c e [i] c) :
    Grants.leading H (.constant i) b t us e us := by
  intro n s s' _ σ hr hs _ tokens _ _ _
  cases n with
  | zero => cases hr
  | succ n =>
    rw [leading] at hr
    obtain ⟨p₁, e₁⟩ := runs_emit (Quiet.runs hr hs.steady) hs.steady
    exact ⟨_, _, p₁, e₁ ▸ code _, p₁.left tokens⟩

omit small in
theorem grants_number :
    Grants.leading H .number b t us (.number (Numeral.ofLiteral t.lexeme)) us := by
  intro n s s' _ σ hr hs previous tokens takes _ ext
  cases n with
  | zero => cases hr
  | succ n =>
    rw [leading, get_bind, previous] at hr
    have found := takes.room.addConstant? hH (heap_behind hr ext) rfl nofun rfl
    obtain ⟨k, p₁, e₁⟩ := runs_emitConstant (granted_emitConstant hr hs.steady found) hs.steady
    exact ⟨_, _, p₁, .number e₁, p₁.left tokens⟩

theorem grants_string : Grants.leading H .string b t us (.string (unquote t.lexeme)) us := by
  intro n s s' _ σ hr hs previous tokens takes _ ext
  cases n with
  | zero => cases hr
  | succ n =>
    rw [leading, get_bind, previous] at hr
    obtain ⟨r, s₁, hr₁, hr₂⟩ := bind_eq_some.1 hr
    obtain ⟨p₁, e₁⟩ := runs_intern (Quiet.runs hr₁ hs.steady) hs.steady
    have e₁ : s.context.intern (unquote t.lexeme) = (s₁.context, r) := e₁
    have found := takes.room.textConstant? hH small (by rw [e₁]; exact heap_behind hr₂ ext)
    rw [Context.textConstant?, e₁] at found
    obtain ⟨k, p₂, e₂⟩ := runs_emitConstant (granted_emitConstant hr₂ p₁.steady found) p₁.steady
    refine ⟨_, _, p₁.trans p₂, .string ?_, p₂.left (p₁.left tokens)⟩
    rw [Context.textConstant?, e₁]
    exact e₂

theorem grants_get (hq : b = true → u.kind ≠ .punctuation .equal) :
    Grants.leading H .variable b t (u :: us) (.get t.lexeme) (u :: us) := by
  intro n s s' _ σ hr hs previous tokens takes _ ext
  cases n with
  | zero => cases hr
  | succ n =>
    rw [leading, get_bind, previous] at hr
    obtain ⟨place, s₁, hr₁, hr⟩ := bind_eq_some.1 hr
    obtain ⟨rfl, hp, clear, room⟩ := takes
    have clear := clear t.lexeme List.mem_cons_self
    obtain ⟨p₁, e₁⟩ := runs_resolve (granted_resolve hH small hr₁ hs.steady hp clear room
      (heap_behind hr ext)) hs.steady
    have left₁ := p₁.left tokens
    have done : emit place.read s₁ = some ((), s') := by
      split at hr
      next assignable =>
        obtain ⟨b, s₂, hr₂, hr⟩ := bind_eq_some.1 hr
        obtain ⟨-, hk, -⟩ | ⟨rfl, -, rfl⟩ :=
          runs_accept (granted_accept hr₂ (p₁.clean hs) (by simp)) p₁.steady (by simp)
        · rw [(List.cons.inj left₁).1] at hk
          exact absurd hk (hq assignable)
        · exact hr
      next => exact hr
    obtain ⟨p₂, e₂⟩ := runs_emit (Quiet.runs done p₁.steady) p₁.steady
    exact ⟨_, _, p₁.trans p₂, .get (e₂ ▸ e₁), p₂.left left₁⟩

theorem grants_set {q : Token} (hq : q.kind = .punctuation .equal)
    (h : Grants.operand H .assignment us e vs) :
    Grants.leading H .variable true t (q :: us) (.set t.lexeme e) vs := by
  intro n s s' _ σ hr hs previous tokens takes fits ext
  cases n with
  | zero => cases hr
  | succ n =>
    rw [leading, get_bind, previous] at hr
    obtain ⟨place, s₁, hr₁, hr⟩ := bind_eq_some.1 hr
    obtain ⟨rfl, hp, clear, room⟩ := takes
    obtain ⟨p₁, e₁⟩ := runs_resolve (granted_resolve hH small hr₁ hs.steady hp
      (clear t.lexeme List.mem_cons_self) room.front (heap_behind hr ext)) hs.steady
    have left₁ := p₁.left tokens
    have ext₁ := heap_behind hr ext
    rw [if_pos rfl] at hr
    obtain ⟨b, s₂, hr₂, hr⟩ := bind_eq_some.1 hr
    obtain ⟨rfl, -, p₂, e₂⟩ | ⟨-, ne, -⟩ :=
      runs_accept (granted_accept hr₂ (p₁.clean hs) (by simp)) p₁.steady (by simp)
    · obtain ⟨_, s₃, hr₃, hr₄⟩ := bind_eq_some.1 hr
      obtain ⟨g, hp₁⟩ := Context.resolve?_grown e₁ hp
      have inner : s₂.context.Takes s.context.scopes e.names (e.needs s.context.scopes) := by
        rw [e₂]
        refine ⟨g.scopes, hp₁, fun x hx => g.clear.2 (clear x (List.mem_cons_of_mem _ hx)), ?_⟩
        exact room.behind fun t => t.resolve? hp hH small ext₁ e₁
      obtain ⟨ts, is, p₃, c₃, left₃⟩ := grants_expression h hr₃ (p₂.clean (p₁.clean hs))
        (p₂.next left₁) inner fits (heap_behind hr₄ ext)
      obtain ⟨p₄, e₄⟩ := runs_emit (Quiet.runs hr₄ p₃.steady) p₃.steady
      exact ⟨_, _, p₁.trans (p₂.trans (p₃.trans p₄)), .set (e₂ ▸ e₁) (e₄ ▸ c₃), p₄.left left₃⟩
    · rw [(List.cons.inj left₁).1] at ne
      exact absurd hq ne

omit hH small in
theorem grants_grouping {r : Token} (h : Grants.operand H .assignment us e (r :: vs))
    (hk : r.kind = .punctuation .rightParen) : Grants.leading H .grouping b t us e vs := by
  intro n s s' _ σ hr hs _ tokens takes fits ext
  cases n with
  | zero => cases hr
  | succ n =>
    rw [leading] at hr
    obtain ⟨_, s₁, hr₁, hr₂⟩ := bind_eq_some.1 hr
    obtain ⟨ts, is, p₁, c₁, left₁⟩ := grants_expression h hr₁ hs tokens takes fits
      (heap_behind hr₂ ext)
    have next : s₁.current.kind = .punctuation .rightParen := (List.cons.inj left₁).1 ▸ hk
    obtain ⟨-, p₂, e₂⟩ := runs_consume (granted_consume hr₂ (p₁.clean hs) (by simp) next)
      p₁.steady (by simp)
    exact ⟨_, _, p₁.trans p₂, by simpa [e₂] using c₁, p₂.next left₁⟩

omit hH small in
theorem grants_array (h : Grants.items H (.punctuation .rightBracket) us es vs) :
    Grants.leading H .array b t us (.array es) vs := by
  intro n s s' _ σ hr hs _ tokens takes fits ext
  cases n with
  | zero => cases hr
  | succ n =>
    rw [leading] at hr
    obtain ⟨k, s₁, hr₁, hr₂⟩ := bind_eq_some.1 hr
    obtain ⟨⟨ts, is, p₁, c₁, left₁⟩, rfl⟩ := h hr₁ hs (by simp) tokens takes fits.1 fits.2
      (heap_behind hr₂ ext)
    obtain ⟨p₂, e₂⟩ := runs_emit (Quiet.runs hr₂ p₁.steady) p₁.steady
    exact ⟨_, _, p₁.trans p₂, .array (e₂ ▸ c₁) fits.2, p₂.left left₁⟩

omit hH small in
theorem grants_unary {op : UnaryOperator} (h : Grants.operand H .unary us e vs) :
    Grants.leading H (.unary op) b t us (.unary op e) vs := by
  intro n s s' _ σ hr hs _ tokens takes fits ext
  cases n with
  | zero => cases hr
  | succ n =>
    rw [leading] at hr
    obtain ⟨_, s₁, hr₁, hr₂⟩ := bind_eq_some.1 hr
    obtain ⟨ts, is, p₁, c₁, left₁⟩ := h hr₁ hs tokens takes fits (heap_behind hr₂ ext)
    obtain ⟨p₂, e₂⟩ := runs_emit (Quiet.runs hr₂ p₁.steady) p₁.steady
    rw [code_unary] at p₂
    exact ⟨_, _, p₁.trans p₂, .unary (e₂ ▸ c₁), p₂.left left₁⟩

omit hH small in
theorem grants_none {close : TokenKind} (hk : t.kind = close) :
    Grants.items H close (t :: us) .nil us := by
  intro n limit what k s s' σ hr hs hc tokens _ _ _ _
  cases n with
  | zero => cases hr
  | succ n =>
    obtain ⟨rfl, -⟩ := List.cons.inj tokens
    rw [items] at hr
    obtain ⟨b, s₁, hr₁, hr⟩ := bind_eq_some.1 hr
    obtain ⟨rfl, rfl⟩ := runs_check (Quiet.runs hr₁ hs.steady)
    rw [if_pos (beq_iff_eq.2 hk), pure_bind] at hr
    obtain ⟨_, s₂, hr₂, hr⟩ := bind_eq_some.1 hr
    cases hr
    obtain ⟨-, p₂, e₂⟩ := runs_consume (granted_consume hr₂ hs hc hk) hs.steady hc
    exact ⟨⟨_, _, p₂, e₂ ▸ .nil, p₂.next tokens⟩, rfl⟩

omit hH small in
theorem grants_some {close : TokenKind} (first : ∀ u ∈ ts.head?, u.kind ≠ close)
    (h : Grants.itemsFrom H ts es (t :: us)) (hk : t.kind = close) :
    Grants.items H close ts es us := by
  intro n limit what k s s' σ hr hs hc tokens takes fits few ext
  cases n with
  | zero => cases hr
  | succ n =>
    rw [items] at hr
    obtain ⟨b, s₁, hr₁, hr⟩ := bind_eq_some.1 hr
    obtain ⟨rfl, rfl⟩ := runs_check (Quiet.runs hr₁ hs.steady)
    have more : s.current.kind ≠ close := first s.current (by rw [← tokens]; rfl)
    rw [if_neg (by simpa using more)] at hr
    obtain ⟨m, s₂, hr₂, hr⟩ := bind_eq_some.1 hr
    obtain ⟨_, s₃, hr₃, hr⟩ := bind_eq_some.1 hr
    cases hr
    obtain ⟨⟨ts₂, is, p₂, c₂, left₂⟩, rfl⟩ := h hr₂ hs tokens takes fits
      (by rw [Nat.zero_add]; exact few) (heap_behind hr₃ ext)
    have next : s₂.current.kind = close := (List.cons.inj left₂).1 ▸ hk
    obtain ⟨-, p₃, e₃⟩ := runs_consume (granted_consume hr₃ (p₂.clean hs) hc next) p₂.steady hc
    refine ⟨⟨_, _, p₂.trans p₃, by simpa [e₃] using c₂, p₃.next left₂⟩, ?_⟩
    rw [Nat.zero_add, Nat.min_eq_left few]

/-- One item, and what the comma or the end behind it leads to. -/
theorem grants_item {n : Nat} {limit : Limit} {count k : Nat} {s s' : State} {σ : Scopes}
    (h : Grants.operand H .assignment ts e (u :: us))
    (hr : itemsFrom (n + 1) limit count s = some (k, s')) (hs : Clean s)
    (tokens : s.current :: s.rest = ts)
    (takes : s.context.Takes σ (e.names ++ es.names) (e.needs σ ++ es.needs σ)) (fits : e.Fits)
    (few : count < countLimit) (ext : s'.heap.Extends H) :
    ∃ ts is s₁, Passes s ts is s₁ ∧ ExprCode s.context e is s₁.context ∧
      s₁.current :: s₁.rest = u :: us ∧ s₁.context.Takes σ es.names (es.needs σ) ∧
      if u.kind = .punctuation .comma then
        ∃ s₂, Passes s₁ [s₁.current] [] s₂ ∧ s₂.context = s₁.context ∧
          itemsFrom n limit (count + 1) s₂ = some (k, s')
      else s₁ = s' ∧ k = count + 1 := by
  rw [itemsFrom] at hr
  obtain ⟨_, s₁, hr₁, hr⟩ := bind_eq_some.1 hr
  have ext₁ := heap_behind hr ext
  obtain ⟨ts, is, p₁, c₁, left₁⟩ := grants_expression h hr₁ hs tokens takes.left fits ext₁
  refine ⟨ts, is, s₁, p₁, c₁, left₁, takes.right hH small c₁ ext₁, ?_⟩
  rw [if_neg (Nat.ne_of_lt few)] at hr
  obtain ⟨b, s₂, hr₂, hr⟩ := bind_eq_some.1 hr
  rw [← (List.cons.inj left₁).1]
  obtain ⟨rfl, hk, p₂, e₂⟩ | ⟨rfl, hk, rfl⟩ :=
    runs_accept (granted_accept hr₂ (p₁.clean hs) (by simp)) p₁.steady (by simp)
  · rw [if_pos hk]
    exact ⟨s₂, p₂, e₂, hr⟩
  · rw [if_neg hk]
    cases hr
    exact ⟨rfl, rfl⟩

theorem grants_one (h : Grants.operand H .assignment ts e (u :: us))
    (hk : u.kind ≠ .punctuation .comma) :
    Grants.itemsFrom H ts (.cons e .nil) (u :: us) := by
  intro n limit count k s s' σ hr hs tokens takes fits few ext
  cases n with
  | zero => cases hr
  | succ n =>
    have takes : s.context.Takes σ (e.names ++ Exprs.nil.names) (e.needs σ ++ Exprs.nil.needs σ) :=
      takes
    obtain ⟨ts, is, s₁, p₁, c₁, left₁, -, done⟩ :=
      grants_item hH small h hr hs tokens takes fits.1 few ext
    rw [if_neg hk] at done
    obtain ⟨rfl, rfl⟩ := done
    exact ⟨⟨ts, is, p₁, by simpa using ExprsCode.cons c₁ .nil, left₁⟩, rfl⟩

theorem grants_more {c : Token} (h : Grants.operand H .assignment ts e (c :: us))
    (hk : c.kind = .punctuation .comma) (h' : Grants.itemsFrom H us es vs) :
    Grants.itemsFrom H ts (.cons e es) vs := by
  intro n limit count k s s' σ hr hs tokens takes fits few ext
  cases n with
  | zero => cases hr
  | succ n =>
    have length : (Exprs.cons e es).length = es.length + 1 := rfl
    obtain ⟨ts, is, s₁, p₁, c₁, left₁, takes₁, rest⟩ :=
      grants_item hH small h hr hs tokens takes fits.1 (by omega) ext
    rw [if_pos hk] at rest
    obtain ⟨s₂, p₂, e₂, hr₂⟩ := rest
    obtain ⟨⟨ts₃, js, p₃, c₃, left₃⟩, rfl⟩ := h' hr₂ (p₂.clean (p₁.clean hs)) (p₂.next left₁)
      (e₂ ▸ takes₁) fits.2 (by omega) ext
    exact ⟨⟨_, _, p₁.trans (p₂.trans p₃), .cons c₁ (e₂ ▸ c₃), left₃⟩, by omega⟩

end Productions

section Climbing

variable {H : Heap}

mutual

/-- What is read by climbing over precedences is compiled. -/
theorem Climbs.granted (hH : H.Sound) (small : H.size ≤ UInt32.size)
    {p : Precedence} {ts us : List Token} {e : Expr}
    (h : Climbs p ts e us) : Grants.operand H p ts e us := by
  match h with
  | .intro h₁ h₂ hq =>
    obtain ⟨t, ts', form, rfl, hf, first⟩ := h₁.granted hH small
    exact grants_operand hf first (h₂.granted hH small) h₂.leads hq
termination_by structural h

theorem Starts.granted (hH : H.Sound) (small : H.size ≤ UInt32.size)
    {b : Bool} {ts us : List Token} {e : Expr} (h : Starts b ts e us) :
    ∃ t ts' form, ts = t :: ts' ∧ leading? t.kind = some form ∧
      Grants.leading H form b t ts' e us := by
  match h with
  | .nil hk => exact ⟨_, _, _, rfl, by rw [hk]; rfl, grants_constant fun _ => .nil⟩
  | .true hk => exact ⟨_, _, _, rfl, by rw [hk]; rfl, grants_constant fun _ => .true⟩
  | .false hk => exact ⟨_, _, _, rfl, by rw [hk]; rfl, grants_constant fun _ => .false⟩
  | .number hk => exact ⟨_, _, _, rfl, by rw [hk]; rfl, grants_number hH⟩
  | .string hk => exact ⟨_, _, _, rfl, by rw [hk]; rfl, grants_string hH small⟩
  | .get hk hq => exact ⟨_, _, _, rfl, by rw [hk]; rfl, grants_get hH small hq⟩
  | .set hk hq h =>
    exact ⟨_, _, _, rfl, by rw [hk]; rfl, grants_set hH small hq (h.granted hH small)⟩
  | .grouping hk h hr =>
    exact ⟨_, _, _, rfl, by rw [hk]; rfl, grants_grouping (h.granted hH small) hr⟩
  | .array hk h => exact ⟨_, _, _, rfl, by rw [hk]; rfl, grants_array (h.granted hH small)⟩
  | .unary hk h => exact ⟨_, _, _, rfl, hk, grants_unary (h.granted hH small)⟩
termination_by structural h

theorem Follows.granted (hH : H.Sound) (small : H.size ≤ UInt32.size)
    {p : Precedence} {ts us : List Token} {a e : Expr}
    (h : Follows p ts a e us) : Grants.operators H p ts a e us := by
  match h with
  | .done hb => exact grants_done hb
  | .call hp hk h₁ h₂ =>
    exact grants_operator hk hp (grants_call hH small (h₁.granted hH small)) (h₂.granted hH small)
      h₂.leads
  | .index hp hk h₁ hr hq h₂ =>
    exact grants_operator hk hp (grants_index hH small (h₁.granted hH small) hr hq)
      (h₂.granted hH small) h₂.leads
  | .setIndex hp hk h₁ hr hq h₂ h₃ =>
    exact grants_operator hk (Nat.le_trans hp (by decide))
      (grants_setIndex hH small hp (h₁.granted hH small) hr hq (h₂.granted hH small))
      (h₃.granted hH small) h₃.leads
  | .binary hp hk h₁ h₂ =>
    exact grants_operator hk hp (grants_binary hH small (h₁.granted hH small)) (h₂.granted hH small)
      h₂.leads
  | .and hp hk h₁ h₂ =>
    exact grants_operator hk hp (grants_and hH small (h₁.granted hH small)) (h₂.granted hH small)
      h₂.leads
  | .or hp hk h₁ h₂ =>
    exact grants_operator hk hp (grants_or hH small (h₁.granted hH small)) (h₂.granted hH small)
      h₂.leads
termination_by structural h

theorem Lists.granted (hH : H.Sound) (small : H.size ≤ UInt32.size)
    {close : TokenKind} {ts us : List Token} {es : Exprs}
    (h : Lists close ts es us) : Grants.items H close ts es us := by
  match h with
  | .none hk => exact grants_none hk
  | .some first h hk => exact grants_some first (h.granted hH small) hk
termination_by structural h

theorem ListsFrom.granted (hH : H.Sound) (small : H.size ≤ UInt32.size)
    {ts us : List Token} {es : Exprs} (h : ListsFrom ts es us) :
    Grants.itemsFrom H ts es us := by
  match h with
  | .one h hk => exact grants_one hH small (h.granted hH small) hk
  | .more h hk h' => exact grants_more hH small (h.granted hH small) hk (h'.granted hH small)
termination_by structural h

end

end Climbing

end Compile
end StackScript
