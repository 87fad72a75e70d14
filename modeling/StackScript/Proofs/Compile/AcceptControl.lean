import StackScript.Proofs.Compile.AcceptStatement

/-!
# StackScript.Proofs.Compile.AcceptControl

Statements with other statements in them are compiled without an error, where a place hosts them.

* `granted_then`, `granted_loop`: what the forms of `if` and of the loops have in common.
* `StmtPhrase.granted`: what the grammar has is compiled.
-/

namespace StackScript
namespace Compile

open Syntax Instruction

section Branches

set_option synthInstance.maxSize 5000

variable {H : Heap} (hH : H.Sound) (small : H.size ≤ UInt32.size)
  {t u l r o d : Token} {ts us vs ws : List Token} {a b : Stmt} {e : Expr}

theorem grants_block (hk : t.kind = .punctuation .leftBrace)
    (ha : Grants.phrase H .declarations ts a) (hd : d.kind = .punctuation .rightBrace) :
    Grants.phrase H .statement (t :: ts ++ [d]) (.block a) := by
  intro n s s' _ us vs h hs tokens _ hosts ext
  have h : statement n s = _ := h
  cases n with
  | zero => cases h
  | succ n =>
    obtain ⟨rfl, -⟩ := List.cons.inj tokens
    rw [statement_block hk] at h
    obtain ⟨s₁, h, st₁⟩ := advanced h hs tokens (by simp [hk])
    obtain ⟨_, s₂, h₂, h⟩ := bind_eq_some.1 h
    obtain ⟨p₂, e₂⟩ := runs_openScope (Quiet.runs h₂ st₁.clean.steady) st₁.clean.steady
    obtain ⟨_, s₃, h₃, h⟩ := bind_eq_some.1 h
    have hosts₂ : s₂.context.Hosts a := by
      rw [e₂, st₁.context]
      exact hosts.block
    have errors := ha h₃ (p₂.clean st₁.clean) (by simpa using p₂.left st₁.left) ⟨d, rfl, hd⟩ hosts₂
      (heap_behind h ext)
    exact (Quiet.errors h).trans errors

include hH small

theorem grants_return {e : Option Expr} (hk : t.kind = .keyword .return)
    (g : ClausePhrase (.punctuation .semicolon) ts e) :
    Grants.phrase H .statement (t :: ts) (.return (e.getD .nil)) := by
  intro n s s' _ us vs h hs tokens _ hosts ext
  have h : statement n s = _ := h
  cases n with
  | zero => cases h
  | succ n =>
    obtain ⟨rfl, -⟩ := List.cons.inj tokens
    rw [statement_return hk] at h
    obtain ⟨s₁, h, st₁⟩ := advanced h hs tokens (by simp [hk])
    rw [← st₁.context] at hosts
    cases n with
    | zero => cases h
    | succ n =>
      have inside : s₁.draft.kind = .function := of_decide_eq_true hosts.allows.valid
      rw [returnStatement] at h
      dsimp only at h
      rw [get_bind, if_neg (by simp [inside]), accept_bind] at h
      cases g with
      | absent hu =>
        rw [if_pos ((List.cons.inj st₁.left).1 ▸ hu)] at h
        obtain ⟨s₂, h, st₂⟩ := advanced h st₁.clean st₁.left (by simp [hu])
        rw [if_pos rfl] at h
        exact (Quiet.errors h).trans st₂.clean.steady.errors
      | present g hu =>
        have tokens₁ := st₁.left
        rw [List.append_eq, List.append_assoc] at tokens₁
        rw [if_neg (ExprPhrase.ne_first rfl g tokens₁)] at h
        obtain ⟨_, s₂, h₂, h⟩ := bind_eq_some.1 h
        obtain ⟨_, _, p₂, -, left₂⟩ := granted_expression hH small g (stops_semicolon hu) h₂ st₁.clean
          (by simpa using st₁.left) hosts.ready.takes hosts.allows.fits (heap_behind h ext)
        obtain ⟨s₃, h, st₃⟩ := consumed h (p₂.clean st₁.clean) left₂ hu (by simp)
        exact (Quiet.errors h).trans st₃.clean.steady.errors

/-- An `if` up to where an `else` may stand. -/
theorem granted_then {n : Nat} {s s' : State} {v : Unit} {σ : Scopes} (hl : l.kind = .punctuation .leftParen)
    (g : ExprPhrase .assignment ts e) (hr : r.kind = .punctuation .rightParen)
    (ga : StmtPhrase .statement us a) (ha : Grants.phrase H .statement us a)
    (h : ifStatement (n + 1) s = some (v, s')) (hs : Clean s)
    (tokens : s.current :: s.rest = l :: (ts ++ r :: (us ++ vs))) (ends : CanEnd .statement a vs)
    (ready : s.context.Ready σ (e.needs σ ++ (a.needs σ ++ b.needs σ)))
    (allows : s.context.Allows (.ifElse e a b)) (ext : s'.heap.Extends H) :
    ∃ m s₁ s₂ ws is, Passes s₁ ws (is ++ .jump 0xFFFF :: [.pop]) s₂ ∧
      s₁.draft.chunk.code.size + width is = m ∧ Clean s₂ ∧ s₂.current :: s₂.rest = vs ∧
      s₂.context.Ready σ (b.needs σ) ∧ s₂.context.Allows b ∧
      (if s₂.current.kind = .keyword .else then
        (advance >>= fun _ => do statement n; landJump m) s₂ else landJump m s₂) = some (v, s') := by
  obtain ⟨fits, fits', fits'', short, -⟩ := allows.fits
  have yes : s.context.Allows a :=
    ⟨Nat.le_trans (Nat.add_le_add_left (Nat.le_max_left _ _) _) allows.locals, fits',
      allows.valid.1⟩
  have no : s.context.Allows b :=
    ⟨Nat.le_trans (Nat.add_le_add_left (Nat.le_max_right _ _) _) allows.locals, fits'',
      allows.valid.2⟩
  rw [ifStatement] at h
  dsimp only at h
  obtain ⟨s₁, h, st₁⟩ := consumed h hs tokens hl (by simp)
  obtain ⟨_, s₂, h₂, h⟩ := bind_eq_some.1 h
  have ready₁ := st₁.context ▸ ready
  obtain ⟨_, is, p₂, c₂, left₂⟩ := granted_expression hH small g (stops_rightParen hr) h₂ st₁.clean
    st₁.left ready₁.front.takes fits (heap_behind h ext)
  obtain ⟨g₂, ready₂⟩ := ready₁.expression hH small c₂ (heap_behind h ext)
  obtain ⟨s₃, h, st₃⟩ := consumed h (p₂.clean st₁.clean) left₂ hr (by simp)
  obtain ⟨s₄, h, st₄⟩ := jumped h st₃.clean st₃.left
  obtain ⟨s₅, h, st₅⟩ := emitted h st₄.clean st₄.left
  obtain ⟨_, s₆, h₆, h⟩ := bind_eq_some.1 h
  have context₅ : s₅.context = s₂.context := st₅.context.trans (st₄.context.trans st₃.context)
  have g₅ : s.context.Grown s₅.context := context₅ ▸ st₁.context ▸ g₂
  have ready₅ := context₅ ▸ ready₂
  obtain ⟨us', js, p₆, c₆, left₆⟩ := ha.compiled ga h₆ st₅.clean st₅.left ⟨rfl, ends⟩
    (ready₅.hosts (g₅.allows yes)) (heap_behind h ext)
  obtain ⟨g₆, ready₆, w₆⟩ := ready₅.branch hH small c₆ (declaresNothing_of_statement ga)
    (heap_behind h ext)
  obtain ⟨s₇, h, st₇⟩ := jumped h (p₆.clean st₅.clean) left₆
  have pending : Passes s₃ us' ([] ++ .jumpIfFalse 0xFFFF :: (.pop :: js ++ [.jump 0xFFFF])) s₇ := by
    simpa using st₄.passes.trans (st₅.passes.trans (p₆.trans st₇.passes))
  have span : width (.pop :: js ++ [.jump 0xFFFF]) = a.width s.context.scopes + 4 := by
    rw [width_append, width_pop_cons, w₆, ready.scopes]
    rfl
  obtain ⟨s₈, h, p₈, clean₈, left₈, context₈⟩ := landed Chunk.isJump_jumpIfFalse h st₃.clean pending
    st₇.left rfl rfl (span ▸ short)
  obtain ⟨s₉, h, st₉⟩ := emitted h clean₈ left₈
  rw [accept_bind] at h
  have context₉ : s₉.context = s₆.context := st₉.context.trans (context₈.trans st₇.context)
  refine ⟨_, s₃, s₉, _, .jumpIfFalse _ :: .pop :: js, by simpa using p₈.trans st₉.passes, ?_,
    st₉.clean, st₉.left, context₉ ▸ ready₆, context₉ ▸ (g₅.trans g₆).allows no, h⟩
  rw [((st₄.passes.trans st₅.passes).trans p₆).size]
  rfl

theorem grants_ifThen (hk : t.kind = .keyword .if) (hl : l.kind = .punctuation .leftParen)
    (g : ExprPhrase .assignment ts e) (hr : r.kind = .punctuation .rightParen)
    (ga : StmtPhrase .statement us a) (ha : Grants.phrase H .statement us a) :
    Grants.phrase H .statement (t :: l :: ts ++ r :: us) (.ifElse e a .empty) := by
  intro n s s' _ vs ws h hs tokens closes hosts ext
  have h : statement n s = _ := h
  obtain ⟨rfl, ends⟩ := closes
  cases n with
  | zero => cases h
  | succ n =>
    obtain ⟨rfl, -⟩ := List.cons.inj tokens
    rw [statement_if hk] at h
    obtain ⟨s₁, h, st₁⟩ := advanced h hs tokens (by simp [hk])
    cases n with
    | zero => cases h
    | succ n =>
      rw [← st₁.context] at hosts
      obtain ⟨m, s₂, s₃, _, is, p₃, hm, -, left₃, -, -, h⟩ := granted_then hH small hl g hr ga ha h
        st₁.clean (by simpa using st₁.left) (fun _ => ends rfl) hosts.ready hosts.allows ext
      rw [if_neg (ends rfl _ (by rw [← left₃]; rfl))] at h
      exact (granted_landJump h p₃ rfl hm (by decide)).2

theorem grants_ifElse (hk : t.kind = .keyword .if) (hl : l.kind = .punctuation .leftParen)
    (g : ExprPhrase .assignment ts e) (hr : r.kind = .punctuation .rightParen)
    (ga : StmtPhrase .statement us a) (ha : Grants.phrase H .statement us a)
    (closed : a.isOpen = false) (ho : o.kind = .keyword .else) (gb : StmtPhrase .statement vs b)
    (hb : Grants.phrase H .statement vs b) :
    Grants.phrase H .statement (t :: l :: ts ++ r :: us ++ o :: vs) (.ifElse e a b) := by
  intro n s s' _ ws xs h hs tokens closes hosts ext
  have h : statement n s = _ := h
  obtain ⟨rfl, ends⟩ := closes
  have endsElse : CanEnd .statement b ws :=
    fun h => ends ((isOpen_ifElse (ne_empty_of_statement gb)).trans h)
  cases n with
  | zero => cases h
  | succ n =>
    obtain ⟨rfl, -⟩ := List.cons.inj tokens
    rw [statement_if hk] at h
    obtain ⟨s₁, h, st₁⟩ := advanced h hs tokens (by simp [hk])
    cases n with
    | zero => cases h
    | succ n =>
      rw [← st₁.context] at hosts
      obtain ⟨m, s₂, s₃, ws', is, p₃, hm, clean₃, left₃, ready₃, allows₃, h⟩ :=
        granted_then hH small hl g hr ga ha h st₁.clean (by simpa using st₁.left)
          (fun ho => by rw [closed] at ho; cases ho) hosts.ready hosts.allows ext
      rw [if_pos ((List.cons.inj left₃).1 ▸ ho)] at h
      obtain ⟨s₄, h, st₄⟩ := advanced h clean₃ left₃ (by simp [ho])
      obtain ⟨_, s₅, h₅, h⟩ := bind_eq_some.1 h
      have ready₄ := st₄.context ▸ ready₃
      rw [← List.append_nil (b.needs _)] at ready₄
      obtain ⟨xs', js, p₅, c₅, -⟩ := hb.compiled gb h₅ st₄.clean (by simpa using st₄.left)
        ⟨rfl, endsElse⟩ (ready₄.hosts (st₄.context ▸ allows₃)) (heap_behind h ext)
      obtain ⟨-, w₅⟩ := ready₄.statement hH small c₅ (heap_behind h ext)
      have pending : Passes s₂ (ws' ++ ([s₃.current] ++ xs')) (is ++ .jump 0xFFFF :: .pop :: js) s₅ := by
        simpa using p₃.trans (st₄.passes.trans p₅)
      have short : width (.pop :: js) ≤ jumpLimit := by
        rw [width_pop_cons, w₅]
        exact hosts.allows.fits.2.2.2.2
      exact (granted_landJump h pending rfl hm short).2

end Branches

section Loops

set_option synthInstance.maxSize 5000

variable {H : Heap} (hH : H.Sound) (small : H.size ≤ UInt32.size)
  {t l r : Token} {ts us vs ws : List Token} {a i : Stmt} {e : Expr}

/-- The way back and the way out at the end of a loop that is short enough. -/
theorem granted_back {s s₁ s' : State} {v : Unit} {k : Loop} {start : Nat}
    (hp : Passes s ts (k.pending ++ (k.stepCode ++ k.body)) s₁)
    (h : emitBackJump start s₁ = some (v, s'))
    (hstart : start = s.draft.chunk.code.size + k.step.elim 0 fun _ => width k.head + 3)
    (fits : k.Fits) : Runs (emitBackJump start) s₁ v s' :=
  granted_emitBackJump h hp.steady (Loop.distance hp hstart ▸ fits.back)

theorem granted_exit {s s₁ s' : State} {v : Unit} {k : Loop} {is : List Instruction} {d : UInt16}
    (hc : k.condition = some is)
    (hp : Passes s ts (k.pending ++ (k.stepCode ++ (k.body ++ [.loop d]))) s₁)
    (h : landJump (s.draft.chunk.code.size + width is) s₁ = some (v, s')) (fits : k.Fits) :
    s'.errors = #[] :=
  (granted_landJump h (Loop.passes_exit hc hp) rfl rfl
    (Loop.width_over k d ▸ fits.exit (Option.isSome_of_eq_some hc))).2

include hH small

theorem grants_while (hk : t.kind = .keyword .while) (hl : l.kind = .punctuation .leftParen)
    (g : ExprPhrase .assignment ts e) (hr : r.kind = .punctuation .rightParen)
    (ga : StmtPhrase .statement us a) (ha : Grants.phrase H .statement us a) :
    Grants.phrase H .statement (t :: l :: ts ++ r :: us) (.while e a) := by
  intro n s s' _ vs ws h hs tokens closes hosts ext
  have h : statement n s = _ := h
  obtain ⟨rfl, ends⟩ := closes
  cases n with
  | zero => cases h
  | succ n =>
    obtain ⟨rfl, -⟩ := List.cons.inj tokens
    rw [statement_while hk] at h
    obtain ⟨s₁, h, st₁⟩ := advanced h hs tokens (by simp [hk])
    cases n with
    | zero => cases h
    | succ n =>
      rw [← st₁.context] at hosts
      obtain ⟨ready, allows⟩ := hosts
      obtain ⟨fits, inner, span⟩ := allows.fits
      obtain ⟨σ, hσ⟩ : ∃ σ, s₁.context.scopes = σ := ⟨_, rfl⟩
      rw [hσ] at ready span
      have body : s₁.context.Allows a := ⟨allows.locals, inner, allows.valid⟩
      rw [whileStatement, here_bind] at h
      obtain ⟨s₂, h, st₂⟩ := consumed h st₁.clean (by simpa using st₁.left) hl (by simp)
      obtain ⟨_, s₃, h₃, h⟩ := bind_eq_some.1 h
      rw [← st₂.context] at ready body
      obtain ⟨ts', is, p₃, c₃, left₃⟩ := granted_expression hH small g (stops_rightParen hr) h₃
        st₂.clean st₂.left ready.front.takes fits (heap_behind h ext)
      obtain ⟨g₃, ready₃⟩ := ready.expression hH small c₃ (heap_behind h ext)
      obtain ⟨s₄, h, st₄⟩ := consumed h (p₃.clean st₂.clean) left₃ hr (by simp)
      obtain ⟨s₅, h, st₅⟩ := jumped h st₄.clean st₄.left
      obtain ⟨s₆, h, st₆⟩ := emitted h st₅.clean st₅.left
      obtain ⟨_, s₇, h₇, h⟩ := bind_eq_some.1 h
      have context₆ : s₆.context = s₃.context := st₆.context.trans (st₅.context.trans st₄.context)
      rw [← context₆] at g₃ ready₃
      rw [← List.append_nil (a.needs σ)] at ready₃
      obtain ⟨us', js, p₇, c₇, -⟩ := ha.compiled ga h₇ st₆.clean st₆.left ⟨rfl, ends⟩
        (ready₃.hosts (g₃.allows body)) (heap_behind h ext)
      obtain ⟨-, w₇⟩ := ready₃.statement hH small c₇ (heap_behind h ext)
      have fits : Loop.Fits ⟨some is, none, js⟩ := by
        refine (Loop.fits_span _).1 ?_
        rw [Loop.span, w₇, Option.map_some, c₃.width_eq]
        exact span
      have round : Passes s₁ ([s₁.current] ++ (ts' ++ ([s₃.current] ++ us')))
          (Loop.pending ⟨some is, none, js⟩ ++ ([] ++ js)) s₇ := by
        simpa [Loop.pending] using st₂.passes.trans
          (p₃.trans (st₄.passes.trans (st₅.passes.trans (st₆.passes.trans p₇))))
      obtain ⟨_, s₈, h₈, h⟩ := bind_eq_some.1 h
      obtain ⟨-, p₈, -⟩ := runs_back round (granted_back round h₈ rfl fits) rfl
      obtain ⟨_, s₉, h₉, h⟩ := bind_eq_some.1 h
      have offset : s₄.draft.chunk.code.size = s₁.draft.chunk.code.size + width is := by
        simpa using (st₂.passes.trans (p₃.trans st₄.passes)).size
      rw [offset] at h₉
      exact (Quiet.errors h).trans (granted_exit rfl p₈ h₉ fits)

/-- A condition is compiled, with its way out still open. -/
theorem granted_forCondition {n : Nat} {s s' : State} {exit : Option Nat} {σ : Scopes}
    {ns : List Need} {c : Option Expr} (g : ClausePhrase (.punctuation .semicolon) ts c)
    (h : forCondition n s = some (exit, s')) (hs : Clean s)
    (tokens : s.current :: s.rest = ts ++ us)
    (ready : s.context.Ready σ (c.elim [] (·.needs σ) ++ ns)) (fits : ∀ e ∈ c, e.Fits)
    (ext : s'.heap.Extends H) :
    ∃ cs, ClauseCode s.context c cs s'.context ∧
      Passes s ts (cs.elim [] fun is => is ++ [.jumpIfFalse 0xFFFF, .pop]) s' ∧
      exit = cs.map fun is => s.draft.chunk.code.size + width is := by
  have errors : s'.errors = #[] := by
    cases n with
    | zero => cases h
    | succ n =>
      rw [forCondition, accept_bind] at h
      cases g with
      | absent hk =>
        rw [if_pos ((List.cons.inj tokens).1 ▸ hk)] at h
        obtain ⟨s₁, h, st₁⟩ := advanced h hs tokens (by simp [hk])
        cases h
        exact st₁.clean.steady.errors
      | present g hk =>
        rw [List.append_assoc] at tokens
        rw [if_neg (ExprPhrase.ne_first rfl g tokens)] at h
        obtain ⟨_, s₁, h₁, h⟩ := bind_eq_some.1 h
        obtain ⟨_, _, p₁, -, left₁⟩ := granted_expression hH small g (stops_semicolon hk) h₁ hs tokens
          ready.front.takes (fits _ rfl) (heap_behind h ext)
        obtain ⟨s₂, h, st₂⟩ := consumed h (p₁.clean hs) left₁ hk (by simp)
        exact (Quiet.errors h).trans st₂.clean.steady.errors
  obtain ⟨ts', c', cs, g', code, p, he⟩ := (readsStatements n).forCondition ⟨h, errors⟩ hs.steady
  obtain ⟨rfl, rfl⟩ := ClausePhrase.unique g g' (.inl rfl) (tokens.symm.trans p.tokens)
  exact ⟨cs, code, p, he⟩

theorem granted_forIncrement {n start next : Nat} {s s' : State} {σ : Scopes}
    {ns : List Need} {c : Option Expr} (g : ClausePhrase (.punctuation .rightParen) ts c)
    (h : forIncrement n start s = some (next, s')) (hs : Clean s)
    (tokens : s.current :: s.rest = ts ++ us)
    (ready : s.context.Ready σ (c.elim [] (·.needs σ) ++ ns)) (fits : ∀ e ∈ c, e.Fits)
    (le : start ≤ s.draft.chunk.code.size)
    (short : ∀ e ∈ c, s.draft.chunk.code.size + (e.width + 7) - start ≤ jumpLimit)
    (ext : s'.heap.Extends H) :
    ∃ cs, ClauseCode s.context c cs s'.context ∧
      match cs with
      | none => Passes s ts [] s' ∧ next = start
      | some is =>
        let again := s.draft.chunk.code.size + (width is + 7) - start
        again ≤ jumpLimit ∧ next = s.draft.chunk.code.size + 3 ∧
          Passes s ts (.jump (width is + 4).toUInt16 :: (is ++ [.pop, .loop again.toUInt16])) s' := by
  have errors : s'.errors = #[] := by
    cases n with
    | zero => cases h
    | succ n =>
      rw [forIncrement, accept_bind] at h
      cases g with
      | absent hk =>
        rw [if_pos ((List.cons.inj tokens).1 ▸ hk)] at h
        obtain ⟨s₁, h, st₁⟩ := advanced h hs tokens (by simp [hk])
        cases h
        exact st₁.clean.steady.errors
      | @present ts e t g hk =>
        rw [List.append_assoc] at tokens
        rw [if_neg (ExprPhrase.ne_first rfl g tokens)] at h
        have short := short e rfl
        obtain ⟨s₁, h, st₁⟩ := jumped h hs tokens
        rw [here_bind] at h
        obtain ⟨_, s₂, h₂, h⟩ := bind_eq_some.1 h
        have ready := st₁.context ▸ ready
        obtain ⟨ts', is, p₂, c₂, left₂⟩ := granted_expression hH small g (stops_rightParen hk) h₂
          st₁.clean st₁.left ready.front.takes (fits _ rfl) (heap_behind h ext)
        obtain ⟨s₃, h, st₃⟩ := emitted h (p₂.clean st₁.clean) left₂
        obtain ⟨s₄, h, st₄⟩ := consumed h st₃.clean st₃.left hk (by simp)
        have pending := st₁.passes.trans (p₂.trans (st₃.passes.trans st₄.passes))
        have size : s₄.draft.chunk.code.size = s.draft.chunk.code.size + (e.width + 4) := by
          have one : width [.jump 0xFFFF] = 3 := rfl
          have two : width [.pop] = 1 := rfl
          rw [pending.size, width_append, width_append, width_append, one, two, width_nil,
            c₂.width_eq]
          omega
        obtain ⟨_, s₅, h₅, h⟩ := bind_eq_some.1 h
        obtain ⟨-, p₅, -⟩ := runs_emitBackJump
          (granted_emitBackJump h₅ st₄.clean.steady (by rw [size]; omega)) st₄.clean.steady
        obtain ⟨_, s₆, h₆, h⟩ := bind_eq_some.1 h
        cases h
        have pending : Passes s (ts' ++ [s₃.current]) ([] ++ .jump 0xFFFF :: (is ++
            [.pop, .loop (s₄.draft.chunk.code.size + 3 - start).toUInt16])) s₅ := by
          simpa using pending.trans p₅
        refine (granted_landJump h₆ pending rfl rfl ?_).2
        rw [width_append, c₂.width_eq]
        have two : width [.pop, .loop (s₄.draft.chunk.code.size + 3 - start).toUInt16] = 4 := rfl
        rw [two]
        omega
  obtain ⟨ts', c', cs, g', code, read⟩ :=
    (readsStatements n).forIncrement ⟨h, errors⟩ hs.steady le
  have consumes : s.current :: s.rest = ts' ++ s'.current :: s'.rest := by
    cases cs with
    | none => exact read.1.tokens
    | some _ => exact read.2.2.tokens
  obtain ⟨rfl, rfl⟩ := ClausePhrase.unique g g' (.inr rfl) (tokens.symm.trans consumes)
  exact ⟨cs, code, read⟩

omit hH small in
theorem grants_startEmpty (hk : t.kind = .punctuation .semicolon) :
    Grants.phrase H .start [t] .empty := by
  intro n s s' _ us vs h hs tokens _ _ _
  have h : forInitializer n s = _ := h
  cases n with
  | zero => cases h
  | succ n =>
    rw [forInitializer, accept_bind, if_pos ((List.cons.inj tokens).1 ▸ hk)] at h
    obtain ⟨s₁, h, st₁⟩ := advanced h hs tokens (by simp [hk])
    cases h
    exact st₁.clean.steady.errors

theorem grants_startVar {x : Token} (hk : t.kind = .keyword .var) (hx : x.kind = .identifier)
    (g : InitialPhrase ts e) : Grants.phrase H .start (t :: x :: ts) (.var x.lexeme e) := by
  intro n s s' _ us vs h hs tokens _ hosts ext
  have h : forInitializer n s = _ := h
  cases n with
  | zero => cases h
  | succ n =>
    have next : s.current.kind = .keyword .var := (List.cons.inj tokens).1 ▸ hk
    rw [forInitializer, accept_bind, if_neg (by simp [next]), if_neg Bool.false_ne_true,
      accept_bind, if_pos next] at h
    obtain ⟨s₁, h, st₁⟩ := advanced h hs tokens (by simp [hk])
    exact granted_variableDeclaration hH small hx g h st₁.clean st₁.left (st₁.context ▸ hosts) ext

theorem grants_startExpression (g : ExprPhrase .assignment ts e)
    (hk : t.kind = .punctuation .semicolon) : Grants.phrase H .start (ts ++ [t]) (.expression e) := by
  intro n s s' _ us vs h hs tokens _ hosts ext
  have h : forInitializer n s = _ := h
  cases n with
  | zero => cases h
  | succ n =>
    rw [List.append_assoc] at tokens
    rw [forInitializer, accept_bind, if_neg (ExprPhrase.ne_first rfl g tokens),
      if_neg Bool.false_ne_true, accept_bind, if_neg (ExprPhrase.ne_first rfl g tokens)] at h
    exact granted_expressionStatement hH small g hk h hs tokens hosts ext

/-- The clauses of a `for` behind the first one, and its body. -/
theorem granted_loop {n : Nat} {s s' : State} {v : Unit} {xs : List Token} {σ : Scopes}
    {c x : Option Expr} (gc : ClausePhrase (.punctuation .semicolon) us c)
    (gx : ClausePhrase (.punctuation .rightParen) vs x) (ga : StmtPhrase .statement ws a)
    (ha : Grants.phrase H .statement ws a)
    (h : (do
      let exit ← forCondition n
      let next ← forIncrement n s.draft.chunk.code.size
      statement n
      emitBackJump next
      match exit with
      | some exit => do
        landJump exit
        emit .pop
        closeScope
      | none => closeScope) s = some (v, s')) (hs : Clean s)
    (tokens : s.current :: s.rest = us ++ (vs ++ (ws ++ xs))) (ends : CanEnd .statement a xs)
    (ready : s.context.Ready σ (c.elim [] (·.needs σ) ++ (x.elim [] (·.needs σ) ++ a.needs σ)))
    (allows : s.context.Allows a) (fitsC : ∀ e ∈ c, e.Fits) (fitsX : ∀ e ∈ x, e.Fits)
    (span : Span.Fits ⟨c.map Expr.width, x.map Expr.width, a.width σ⟩) (ext : s'.heap.Extends H) :
    s'.errors = #[] := by
  -- the last step depends on what the condition gives, so the heap is followed backwards
  obtain ⟨exit, s₁, h₁, h⟩ := bind_eq_some.1 h
  obtain ⟨next, s₂, h₂, h⟩ := bind_eq_some.1 h
  obtain ⟨_, s₃, h₃, h⟩ := bind_eq_some.1 h
  obtain ⟨_, s₄, h₄, h⟩ := bind_eq_some.1 h
  have ext₄ : s₄.heap.Extends H := by cases exit <;> exact heap_behind h ext
  have ext₃ := heap_behind h₄ ext₄
  have ext₂ := heap_behind h₃ ext₃
  have ext₁ := heap_behind h₂ ext₂
  obtain ⟨cs, c₁, p₁, hexit⟩ := granted_forCondition hH small gc h₁ hs tokens ready fitsC ext₁
  obtain ⟨g₁, ready₁⟩ := ready.clause hH small c₁ ext₁
  have size₁ : s₁.draft.chunk.code.size =
      s.draft.chunk.code.size + (c.map Expr.width).elim 0 (· + 4) := by
    have head : width (Loop.pending ⟨cs, none, []⟩) = (c.map Expr.width).elim 0 (· + 4) := by
      rw [Loop.width_pending, ← Loop.head_span, ← c₁.width_eq]
      rfl
    rw [← head]
    exact p₁.size
  have short : ∀ e ∈ x, s₁.draft.chunk.code.size + (e.width + 7) - s.draft.chunk.code.size ≤
      jumpLimit := by
    rintro e rfl
    have again : (c.map Expr.width).elim 0 (· + 4) + (e.width + 7) ≤ jumpLimit := span.step rfl
    omega
  obtain ⟨es, c₂, read⟩ := granted_forIncrement hH small gx h₂ (p₁.clean hs) (p₁.left tokens) ready₁
    fitsX (by omega) short ext₂
  obtain ⟨g₂, ready₂⟩ := ready₁.clause hH small c₂ ext₂
  obtain ⟨_, p₂⟩ : ∃ js, Passes s₁ vs js s₂ := by
    cases es with
    | none => exact ⟨_, read.1⟩
    | some _ => exact ⟨_, read.2.2⟩
  rw [← List.append_nil (a.needs σ)] at ready₂
  obtain ⟨_, js, p₃, c₃, -⟩ := ha.compiled ga h₃ (p₂.clean (p₁.clean hs))
    (p₂.left (p₁.left tokens)) ⟨rfl, ends⟩ (ready₂.hosts ((g₁.trans g₂).allows allows)) ext₃
  obtain ⟨-, w₃⟩ := ready₂.statement hH small c₃ ext₃
  have fits : Loop.Fits ⟨cs, es, js⟩ := by
    refine (Loop.fits_span _).1 ?_
    rw [Loop.span, w₃, c₁.width_eq, c₂.width_eq]
    exact span
  obtain ⟨-, round, hnext⟩ := Loop.passes_round (l := ⟨cs, es, js⟩) p₁ read p₃
  obtain ⟨-, p₄, -⟩ := runs_back round (granted_back round h₄ hnext fits) hnext
  cases cs with
  | none =>
    subst hexit
    have h : closeScope s₄ = _ := h
    exact (Quiet.errors h).trans p₄.steady.errors
  | some is =>
    subst hexit
    obtain ⟨_, s₅, h₅, h⟩ := bind_eq_some.1 h
    exact (Quiet.errors h).trans (granted_exit rfl p₄ h₅ fits)

theorem grants_for {c x : Option Expr} (hk : t.kind = .keyword .for)
    (hl : l.kind = .punctuation .leftParen) (gi : StmtPhrase .start ts i)
    (hi : Grants.phrase H .start ts i) (gc : ClausePhrase (.punctuation .semicolon) us c)
    (gx : ClausePhrase (.punctuation .rightParen) vs x) (ga : StmtPhrase .statement ws a)
    (ha : Grants.phrase H .statement ws a) :
    Grants.phrase H .statement (t :: l :: ts ++ us ++ vs ++ ws) (.for i c x a) := by
  intro n s s' _ xs ys h hs tokens closes hosts ext
  have h : statement n s = _ := h
  obtain ⟨rfl, ends⟩ := closes
  cases n with
  | zero => cases h
  | succ n =>
    obtain ⟨rfl, -⟩ := List.cons.inj tokens
    rw [statement_for hk] at h
    obtain ⟨s₁, h, st₁⟩ := advanced h hs tokens (by simp [hk])
    cases n with
    | zero => cases h
    | succ n =>
      rw [← st₁.context] at hosts
      rw [forStatement] at h
      dsimp only at h
      obtain ⟨_, s₂, h₂, h⟩ := bind_eq_some.1 h
      obtain ⟨p₂, e₂⟩ := runs_openScope (Quiet.runs h₂ st₁.clean.steady) st₁.clean.steady
      obtain ⟨s₃, h, st₃⟩ := consumed h (p₂.clean st₁.clean) (by simpa using p₂.left st₁.left) hl
        (by simp)
      have context₃ : s₃.context = s₁.context.openScope := st₃.context.trans e₂
      obtain ⟨_, s₄, h₄, h⟩ := bind_eq_some.1 h
      rw [here_bind] at h
      have ext₄ : s₄.heap.Extends H := by
        obtain ⟨exit, s₅, h₅, h⟩ := bind_eq_some.1 h
        exact heap_behind h₅ (by cases exit <;> exact heap_behind h ext)
      obtain ⟨_, is, p₄, c₄, left₄⟩ := hi.compiled gi h₄ st₃.clean st₃.left ⟨rfl, canEnd_start gi⟩
        (context₃ ▸ hosts.start) ext₄
      rw [context₃] at c₄
      obtain ⟨ready, allows⟩ := hosts.loop hH small c₄ ext₄
      obtain ⟨-, fitsC, fitsX, -, span⟩ := hosts.allows.fits
      exact granted_loop hH small gc gx ga ha h (p₄.clean st₃.clean) (by simpa using left₄) ends ready
        allows fitsC fitsX span ext

end Loops

/-- What the grammar has is compiled, where there is room for it and the place allows it. -/
theorem StmtPhrase.granted {H : Heap} (hH : H.Sound) (small : H.size ≤ UInt32.size)
    {category : Category} {ts : List Token} {a : Stmt} (g : StmtPhrase category ts a) :
    Grants.phrase H category ts a := by
  induction g with
  | none => exact grants_empty
  | more g₁ g₂ ih₁ ih₂ => exact grants_seq hH small g₁ ih₁ g₂ ih₂
  | statement g ih => exact grants_statement g ih
  | var hk hx g => exact grants_var hH small hk hx g
  | function hk hx hl gx hr hb g hc ih => exact grants_function hH small hk hx hl gx hr hb g ih hc
  | expression g hk => exact grants_expressionStatement hH small g hk
  | print hk g hu => exact grants_print hH small hk g hu
  | block hk _ hc ih => exact grants_block hk ih hc
  | ifThen hk hl g hr ga ih => exact grants_ifThen hH small hk hl g hr ga ih
  | ifElse hk hl g hr ga closed ho gb ih ih' =>
    exact grants_ifElse hH small hk hl g hr ga ih closed ho gb ih'
  | «while» hk hl g hr ga ih => exact grants_while hH small hk hl g hr ga ih
  | «for» hk hl gi gc gx ga ih ih' => exact grants_for hH small hk hl gi ih gc gx ga ih'
  | «return» hk g => exact grants_return hH small hk g
  | startEmpty hk => exact grants_startEmpty hk
  | startVar hk hx g => exact grants_startVar hH small hk hx g
  | startExpression g hk => exact grants_startExpression hH small g hk

end Compile
end StackScript
