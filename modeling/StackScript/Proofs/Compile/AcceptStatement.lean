import StackScript.Proofs.Compile.Dispatch

/-!
# StackScript.Proofs.Compile.AcceptStatement

Declarations, and statements without control flow, are compiled without an error, where a place
hosts them.

* `grants_print`, `grants_var`, ...: one lemma for each form.
* `granted_parameters`, `granted_function`: the parameters of a function, and its body.
-/

namespace StackScript
namespace Compile

open Syntax Instruction

section Statements

variable {H : Heap} (hH : H.Sound) (small : H.size ≤ UInt32.size)
  {t u l r o : Token} {ts us vs ws : List Token} {a b : Stmt} {e : Expr}
include hH small

theorem granted_expressionStatement {n : Nat} {s s' : State} {v : Unit}
    (g : ExprPhrase .assignment ts e) (hu : u.kind = .punctuation .semicolon)
    (h : expressionStatement n s = some (v, s')) (hs : Clean s)
    (tokens : s.current :: s.rest = ts ++ u :: us) (hosts : s.context.Hosts (.expression e))
    (ext : s'.heap.Extends H) : s'.errors = #[] := by
  cases n with
  | zero => cases h
  | succ n =>
    rw [expressionStatement] at h
    obtain ⟨_, s₁, h₁, h⟩ := bind_eq_some.1 h
    obtain ⟨_, _, p₁, -, left₁⟩ := granted_expression hH small g (stops_semicolon hu) h₁ hs tokens
      hosts.ready.takes hosts.allows.fits (heap_behind h ext)
    obtain ⟨s₂, h, st₂⟩ := consumed h (p₁.clean hs) left₁ hu (by simp)
    exact (Quiet.errors h).trans st₂.clean.steady.errors

theorem grants_print (hk : t.kind = .keyword .print) (g : ExprPhrase .assignment ts e)
    (hu : u.kind = .punctuation .semicolon) :
    Grants.phrase H .statement (t :: ts ++ [u]) (.print e) := by
  intro n s s' _ us vs h hs tokens _ hosts ext
  have h : statement n s = _ := h
  cases n with
  | zero => cases h
  | succ n =>
    obtain ⟨rfl, -⟩ := List.cons.inj tokens
    rw [statement_print hk] at h
    obtain ⟨s₁, h, st₁⟩ := advanced h hs tokens (by simp [hk])
    obtain ⟨_, s₂, h₂, h⟩ := bind_eq_some.1 h
    have hosts₁ : s₁.context.Hosts (.print e) := st₁.context ▸ hosts
    obtain ⟨_, _, p₂, -, left₂⟩ := granted_expression hH small g (stops_semicolon hu) h₂ st₁.clean
      (by simpa using st₁.left) hosts₁.ready.takes hosts.allows.fits (heap_behind h ext)
    obtain ⟨s₃, h, st₃⟩ := consumed h (p₂.clean st₁.clean) left₂ hu (by simp)
    exact (Quiet.errors h).trans st₃.clean.steady.errors

theorem grants_expressionStatement (g : ExprPhrase .assignment ts e)
    (hu : u.kind = .punctuation .semicolon) :
    Grants.phrase H .statement (ts ++ [u]) (.expression e) := by
  intro n s s' _ us vs h hs tokens _ hosts ext
  have h : statement n s = _ := h
  cases n with
  | zero => cases h
  | succ n =>
    obtain ⟨t, ts', rfl, begins⟩ := ExprPhrase.first g
    obtain ⟨rfl, -⟩ := List.cons.inj tokens
    rw [statement_expression begins] at h
    exact granted_expressionStatement hH small g hu h hs (by simpa using tokens) hosts ext

omit hH small in
theorem grants_empty : Grants.phrase H .declarations [] .empty := by
  intro n s s' _ us vs h hs tokens closes _ _
  have h : block n s = _ := h
  obtain ⟨r, rfl, hr⟩ := closes
  cases n with
  | zero => cases h
  | succ n =>
    obtain ⟨rfl, -⟩ := List.cons.inj tokens
    rw [block_end hr] at h
    exact (granted_consume h hs (by simp) hr).2

theorem grants_seq (g : StmtPhrase .declaration ts a) (ha : Grants.phrase H .declaration ts a)
    (g' : StmtPhrase .declarations us b) (hb : Grants.phrase H .declarations us b) :
    Grants.phrase H .declarations (ts ++ us) (.seq a b) := by
  intro n s s' _ vs ws h hs tokens closes hosts ext
  have h : block n s = _ := h
  obtain ⟨r, rfl, hr⟩ := id closes
  cases n with
  | zero => cases h
  | succ n =>
    obtain ⟨t, ts', rfl, begins⟩ := StmtPhrase.begins g
    obtain ⟨rfl, -⟩ := List.cons.inj tokens
    rw [block_more begins] at h
    obtain ⟨_, s₁, h₁, h⟩ := bind_eq_some.1 h
    have ext₁ := heap_behind h ext
    have ends : CanEnd .declarations b (r :: ws) := fun u hu => .inl (by cases hu; exact hr)
    obtain ⟨_, _, p₁, c₁, left₁⟩ := ha.compiled g h₁ hs (by simpa using tokens)
      ⟨rfl, .mid (by simp) g' ends⟩ hosts.first ext₁
    exact hb h (p₁.clean hs) left₁ closes (hosts.rest hH small c₁ ext₁) ext

omit hH small in
/-- Without an error there is nothing to recover from behind a declaration. -/
theorem granted_calm {x : Compiler Unit} [Keeps x] {s s' : State} {v : Unit}
    (h : (do
      x
      if (← get).panicking then
        modify State.recover) s = some (v, s')) (hs : Clean s) (ext : s'.heap.Extends H)
    (hx : ∀ s₁, x s = some ((), s₁) → s₁.heap.Extends H → s₁.errors = #[]) : s'.errors = #[] := by
  obtain ⟨_, s₁, h₁, h⟩ := bind_eq_some.1 h
  have errors := hx s₁ h₁ (heap_behind h ext)
  have calm : ¬s₁.panicking = true := fun hp =>
    (Keeps.later h₁).sound hs.steady.sound hp errors
  rw [get_bind, if_neg calm] at h
  cases h
  exact errors

omit hH small in
theorem grants_statement (g : StmtPhrase .statement ts a) (ha : Grants.phrase H .statement ts a) :
    Grants.phrase H .declaration ts a := by
  intro n s s' _ us vs h hs tokens closes hosts ext
  have h : declaration n s = _ := h
  cases n with
  | zero => cases h
  | succ n =>
    obtain ⟨t, ts', rfl, continues⟩ := StmtPhrase.continues g
    obtain ⟨rfl, -⟩ := List.cons.inj tokens
    rw [declaration_statement continues] at h
    exact granted_calm h hs ext fun s₁ h₁ ext₁ => ha h₁ hs tokens closes hosts ext₁

theorem granted_variableDeclaration {n : Nat} {s s' : State} {v : Unit}
    (hx : t.kind = .identifier) (g : InitialPhrase ts e)
    (h : variableDeclaration n s = some (v, s')) (hs : Clean s)
    (tokens : s.current :: s.rest = t :: (ts ++ us)) (hosts : s.context.Hosts (.var t.lexeme e))
    (ext : s'.heap.Extends H) : s'.errors = #[] := by
  cases n with
  | zero => cases h
  | succ n =>
    obtain ⟨rfl, -⟩ := List.cons.inj tokens
    rw [variableDeclaration] at h
    obtain ⟨k, s₁, h₁, h⟩ := bind_eq_some.1 h
    have ext₁ := heap_behind h ext
    obtain ⟨inner, top⟩ := Context.Hosts.declarable (fun names hn => (hosts.allows.valid names hn).1)
      hosts.allows.locals hosts.ready.front.room
    obtain ⟨-, p₁, v₁⟩ :=
      runs_newVariable (granted_newVariable hH small h₁ hs hx inner top ext₁) hs.steady
    have takes := hosts.initializer hH small v₁ ext₁
    have left₁ := p₁.next tokens
    have clean₁ := p₁.clean hs
    have rest {s₂ : State} {u : Token} {us : List Token} (hs₂ : Clean s₂)
        (hu : u.kind = .punctuation .semicolon) (left : s₂.current :: s₂.rest = u :: us)
        (h : (do
          consume (.punctuation .semicolon) .semicolonAfterDeclaration
          defineVariable k) s₂ = some (v, s')) : s'.errors = #[] := by
      obtain ⟨s₃, h, st₃⟩ := consumed h hs₂ left hu (by simp)
      exact (Quiet.errors h).trans st₃.clean.steady.errors
    rw [accept_bind] at h
    cases g with
    | absent hu =>
      have next : s₁.current.kind ≠ .punctuation .equal := by
        rw [(List.cons.inj left₁).1, hu]
        simp
      rw [if_neg next] at h
      obtain ⟨s₂, h, st₂⟩ := emitted h clean₁ left₁
      exact rest st₂.clean hu st₂.left h
    | present hq g hu =>
      have next : s₁.current.kind = .punctuation .equal := (List.cons.inj left₁).1 ▸ hq
      rw [if_pos next] at h
      obtain ⟨s₂, h, st₂⟩ := advanced h clean₁ left₁ (by simp [hq])
      obtain ⟨_, s₃, h₃, h⟩ := bind_eq_some.1 h
      obtain ⟨_, _, p₃, -, left₃⟩ := granted_expression hH small g (stops_semicolon hu) h₃ st₂.clean
        (by simpa using st₂.left) (st₂.context ▸ takes) hosts.allows.fits (heap_behind h ext)
      exact rest (p₃.clean st₂.clean) hu left₃ h

theorem grants_var (hk : t.kind = .keyword .var) (hx : u.kind = .identifier)
    (g : InitialPhrase ts e) :
    Grants.phrase H .declaration (t :: u :: ts) (.var u.lexeme e) := by
  intro n s s' _ us vs h hs tokens _ hosts ext
  have h : declaration n s = _ := h
  cases n with
  | zero => cases h
  | succ n =>
    obtain ⟨rfl, -⟩ := List.cons.inj tokens
    rw [declaration_variable hk] at h
    obtain ⟨s₁, h, st₁⟩ := advanced h hs tokens (by simp [hk])
    exact granted_calm h st₁.clean ext fun s₂ h₂ ext₂ =>
      granted_variableDeclaration hH small hx g h₂ st₁.clean (by simpa using st₁.left)
        (st₁.context ▸ hosts) ext₂

end Statements

section Functions

set_option synthInstance.maxSize 5000

variable {H : Heap} (hH : H.Sound) (small : H.size ≤ UInt32.size)
include hH small

/-- One parameter, in front of a comma or a parenthesis. -/
theorem granted_parameter {n : Nat} {s s' : State} {v : Unit} {t u : Token} {us : List Token}
    {xs : List String} (h : parameters (n + 1) s = some (v, s')) (hs : Clean s)
    (ht : t.kind = .identifier) (tokens : s.current :: s.rest = t :: u :: us)
    (hd : 0 < s.draft.depth) (few : (s.context.addParameters? (t.lexeme :: xs)).isSome)
    (ext : s'.heap.Extends H) :
    ∃ s₁, Passes s [s.current] [] s₁ ∧ s₁.current :: s₁.rest = u :: us ∧ 0 < s₁.draft.depth ∧
      s.context.addParameters? (t.lexeme :: xs) = s₁.context.addParameters? xs ∧
      (if u.kind = .punctuation .comma then (advance >>= fun _ => parameters n) s₁
        else (pure () : Compiler Unit) s₁) = some (v, s') := by
  obtain ⟨rfl, -⟩ := List.cons.inj tokens
  obtain ⟨c, added⟩ := Option.isSome_iff_exists.1 few
  obtain ⟨c₁, first, rest⟩ := Option.bind_eq_some_iff.1 added
  have arity : s.draft.arity + 1 ≤ countLimit := by
    by_contra many
    cases (if_neg many).symm.trans first
  obtain ⟨c₂, fresh, -⟩ := Option.map_eq_some_iff.1 ((if_pos arity).symm.trans first)
  rw [parameters, modify_bind, get_bind, if_neg (by simpa using arity)] at h
  have p₀ := Passes.ofDraft hs.steady (d := { s.draft with arity := s.draft.arity + 1 }) rfl
  obtain ⟨k, s₁, h₁, h⟩ := bind_eq_some.1 h
  obtain ⟨_, s₂, h₂, h⟩ := bind_eq_some.1 h
  have r₁ := granted_newVariable hH small h₁ (p₀.clean hs) ht
    (fun _ => Option.isSome_of_eq_some fresh) (fun top => absurd hd top)
    (heap_behind h₂ (heap_behind h ext))
  obtain ⟨-, p₁, -⟩ := runs_newVariable r₁ p₀.steady
  obtain ⟨-, p₂, added₂, depth⟩ := runs_parameter hs.steady hd arity r₁ (Quiet.runs h₂ p₁.steady)
  have left₂ := p₂.next tokens
  cases first.symm.trans added₂
  rw [accept_bind, (List.cons.inj left₂).1] at h
  exact ⟨s₂, p₂, left₂, depth, added.trans rest.symm, h⟩

/-- The parameters that a function takes are declared. -/
theorem granted_parameters {ts us : List Token} {r : Token} {xs : List String}
    (g : NamesPhrase ts xs) (hr : r.kind = .punctuation .rightParen) :
    ∀ {n : Nat} {s s' : State} {v : Unit}, xs ≠ [] → parameters n s = some (v, s') → Clean s →
      s.current :: s.rest = ts ++ r :: us → 0 < s.draft.depth →
      (s.context.addParameters? xs).isSome → s'.heap.Extends H →
      ∃ ts, Passes s ts [] s' ∧ s'.current :: s'.rest = r :: us ∧
        s.context.addParameters? xs = some s'.context := by
  induction g with
  | none => exact fun ne => absurd rfl ne
  | one ht =>
    intro n s s' v _ h hs tokens hd few ext
    cases n with
    | zero => cases h
    | succ n =>
      obtain ⟨s₁, p₁, left₁, -, added, h⟩ := granted_parameter hH small h hs ht tokens hd few ext
      rw [if_neg (by simp [hr])] at h
      cases h
      exact ⟨_, p₁, left₁, added⟩
  | more ht hc g ih =>
    intro n s s' v _ h hs tokens hd few ext
    cases n with
    | zero => cases h
    | succ n =>
      obtain ⟨s₁, p₁, left₁, depth, added, h⟩ :=
        granted_parameter hH small h hs ht tokens hd few ext
      rw [if_pos hc] at h
      obtain ⟨s₂, h, st₂⟩ := advanced h (p₁.clean hs) left₁ (by simp [hc])
      have depth₂ : 0 < s₂.draft.depth := by
        have same : s₂.draft.depth = s₁.draft.depth := congrArg (·.draft.depth) st₂.context
        rwa [same]
      rw [added, ← st₂.context] at few
      obtain ⟨_, p₃, left₃, added₃⟩ := ih nofun h st₂.clean st₂.left depth₂ few ext
      exact ⟨_, p₁.trans (st₂.passes.trans p₃), left₃, added.trans (st₂.context ▸ added₃)⟩

omit hH small in
theorem endFunction_leaves {s s' : State} {p : Function × Array Capture}
    (h : endFunction s = some (p, s')) : s'.heap = s.heap ∧
      ∀ {d ds}, s.enclosing = d :: ds → s'.draft = d ∧ s'.enclosing = ds := by
  have e := Option.some.inj h
  cases he : s.enclosing with
  | nil =>
    have he : ((s.emit .pushNil).emit .ret).enclosing = [] := he
    simp only [he] at e
    cases e
    exact ⟨rfl, nofun⟩
  | cons d ds =>
    have he : ((s.emit .pushNil).emit .ret).enclosing = d :: ds := he
    simp only [he] at e
    cases e
    refine ⟨rfl, fun he' => ?_⟩
    cases he'
    exact ⟨rfl, rfl⟩

omit hH small in
/-- There is room for the object of a function around it. -/
theorem granted_leave {s s₁ s₂ : State} {f : Function} {captures : Array Capture} {r : Ref}
    (h : endFunction s = some ((f, captures), s₁)) (h' : allocate (.function f) s₁ = some (r, s₂))
    (leave : (s.context.leaveFunction? f).isSome) : (s₂.context.addConstant? (.object r)).isSome := by
  have around : s.context.enclosing = s.enclosing.map Draft.bare := rfl
  have heap : s.context.heap = s₁.heap := (endFunction_leaves h).1.symm
  rw [Context.leaveFunction?, around, heap] at leave
  cases he : s.enclosing with
  | nil =>
    rw [he] at leave
    cases leave
  | cons d ds =>
    obtain ⟨rfl, rfl⟩ := (endFunction_leaves h).2 he
    rw [he] at leave
    cases h'
    exact leave

omit hH small in
/-- The body of a function, and its closure. -/
theorem granted_body {n : Nat} {s s' : State} {v : Unit} {r b d : Token} {us vs : List Token}
    {a : Stmt} (hr : r.kind = .punctuation .rightParen) (hb : b.kind = .punctuation .leftBrace)
    (g : StmtPhrase .declarations us a) (ha : Grants.phrase H .declarations us a)
    (hd : d.kind = .punctuation .rightBrace) (hosts : s.context.Hosts a)
    (leave : ∀ {is c f}, StmtCode s.context a is c → (c.heap.allocate (.function f)).1.Extends H →
      (c.leaveFunction? f).isSome)
    (h : functionBody n s = some (v, s')) (hs : Clean s)
    (tokens : s.current :: s.rest = r :: b :: (us ++ d :: vs)) (ext : s'.heap.Extends H) :
    s'.errors = #[] := by
  rw [functionBody] at h
  obtain ⟨s₁, h, st₁⟩ := consumed h hs tokens hr (by simp)
  obtain ⟨s₂, h, st₂⟩ := consumed h st₁.clean st₁.left hb (by simp)
  have context : s₂.context = s.context := st₂.context.trans st₁.context
  rw [← context] at hosts leave
  obtain ⟨_, s₃, h₃, h⟩ := bind_eq_some.1 h
  obtain ⟨_, _, p₃, c₃, -⟩ :=
    ha.compiled g h₃ st₂.clean st₂.left ⟨d, rfl, hd⟩ hosts (heap_behind h ext)
  obtain ⟨⟨f, captures⟩, s₄, h₄, h⟩ := bind_eq_some.1 h
  obtain ⟨o, s₅, h₅, h⟩ := bind_eq_some.1 h
  obtain ⟨k, s₆, h₆, h⟩ := bind_eq_some.1 h
  have errors₅ : s₅.errors = #[] :=
    (Quiet.errors h₅).trans ((Quiet.errors h₄).trans p₃.steady.errors)
  have ext₅ : (s₃.heap.allocate (.function f)).1.Extends H := by
    have heap : s₄.heap = s₃.heap := (endFunction_leaves h₄).1
    have heap₅ : s₅.heap = (s₄.heap.allocate (.function f)).1 := by
      cases h₅
      rfl
    rw [← heap, ← heap₅]
    exact heap_behind h₆ (heap_behind h ext)
  have r₆ := granted_addConstant h₆ errors₅ (granted_leave h₄ h₅ (leave c₃ ext₅))
  exact (Quiet.errors h).trans r₆.2

theorem granted_function {n : Nat} {s s' : State} {v : Unit} {l r b d : Token}
    {ts us vs : List Token} {x : String} {xs : List String} {a : Stmt} {c c₁ : Context} {k : UInt8}
    (hl : l.kind = .punctuation .leftParen) (gx : NamesPhrase ts xs)
    (hr : r.kind = .punctuation .rightParen) (hb : b.kind = .punctuation .leftBrace)
    (g : StmtPhrase .declarations us a) (ha : Grants.phrase H .declarations us a)
    (hd : d.kind = .punctuation .rightBrace) (hosts : c.Hosts (.function x xs a))
    (hv : c.newVariable? x = some (c₁, k)) (context : s.context = c₁.makeReadable)
    (previous : s.previous.lexeme = x) (h : function n s = some (v, s')) (hs : Clean s)
    (tokens : s.current :: s.rest = l :: (ts ++ r :: b :: (us ++ d :: vs)))
    (ext : s'.heap.Extends H) : s'.errors = #[] := by
  have ext₁ : c₁.heap.Extends H := by
    have heap : s.heap = c₁.heap := by
      rw [← Context.heap_makeReadable, ← context]
      rfl
    exact heap ▸ heap_behind h ext
  cases n with
  | zero => cases h
  | succ n =>
    rw [function] at h
    dsimp only at h
    rw [enter_bind, previous] at h
    have clean : Clean (s.enter x) :=
      ⟨⟨hs.steady.errors, hs.steady.calm, hs.steady.tokens, rfl⟩, hs.faultless⟩
    have entered : (s.enter x).context = c₁.makeReadable.enterFunction x := by
      rw [← context]
      rfl
    obtain ⟨c₂, hx⟩ := Option.isSome_iff_exists.1 ((Context.enterFunction_isSome
      (c := c₁.makeReadable)).2 ⟨hosts.allows.fits.1, hosts.allows.valid.2.1⟩)
    have hosts₂ := hosts.body hH small hv hx ext₁
    have leave {is : List Instruction} {c₃ : Context} {f : Function} (hc : StmtCode c₂ a is c₃)
        (ext : (c₃.heap.allocate (.function f)).1.Extends H) : (c₃.leaveFunction? f).isSome :=
      hosts.leave hH small hv hx hc ext₁ ext
    obtain ⟨s₁, h, st₁⟩ := consumed h clean tokens hl (by simp)
    have context₁ := st₁.context.trans entered
    rw [← context₁] at hx
    rw [check_bind] at h
    by_cases none : xs = []
    · subst none
      cases gx
      have next : s₁.current.kind = .punctuation .rightParen := (List.cons.inj st₁.left).1 ▸ hr
      rw [if_pos (by simp [next])] at h
      cases Option.some.inj hx
      exact granted_body hr hb g ha hd hosts₂ leave h st₁.clean st₁.left ext
    · have next : s₁.current.kind ≠ .punctuation .rightParen := by
        cases gx with
        | none => exact absurd rfl none
        | one hk | more hk => rw [(List.cons.inj st₁.left).1, hk]; simp
      rw [if_neg (by simp [next])] at h
      obtain ⟨_, s₂, h₂, h⟩ := bind_eq_some.1 h
      have depth : 0 < s₁.context.draft.depth := by
        rw [context₁]
        exact Nat.one_pos
      obtain ⟨_, p₂, left₂, added⟩ := granted_parameters hH small gx hr none h₂ st₁.clean st₁.left
        depth (Option.isSome_of_eq_some hx) (heap_behind h ext)
      cases Option.some.inj (added.symm.trans hx)
      exact granted_body hr hb g ha hd hosts₂ leave h (p₂.clean st₁.clean) left₂ ext

theorem grants_function {t x l r b d : Token} {ts us : List Token} {xs : List String} {a : Stmt}
    (hk : t.kind = .keyword .fun) (hx : x.kind = .identifier)
    (hl : l.kind = .punctuation .leftParen) (gx : NamesPhrase ts xs)
    (hr : r.kind = .punctuation .rightParen) (hb : b.kind = .punctuation .leftBrace)
    (g : StmtPhrase .declarations us a) (ha : Grants.phrase H .declarations us a)
    (hd : d.kind = .punctuation .rightBrace) :
    Grants.phrase H .declaration (t :: x :: l :: ts ++ r :: b :: us ++ [d])
      (.function x.lexeme xs a) := by
  intro n s s' _ vs ws h hs tokens _ hosts ext
  have h : declaration n s = _ := h
  cases n with
  | zero => cases h
  | succ n =>
    obtain ⟨rfl, -⟩ := List.cons.inj tokens
    rw [declaration_function hk] at h
    obtain ⟨s₁, h, st₁⟩ := advanced h hs tokens (by simp [hk])
    refine granted_calm h st₁.clean ext fun s₂ h₂ ext₂ => ?_
    cases n with
    | zero => cases h₂
    | succ n =>
      rw [functionDeclaration] at h₂
      have left₁ := st₁.left
      obtain ⟨rfl, -⟩ := List.cons.inj left₁
      rw [← st₁.context] at hosts
      obtain ⟨k, s₃, h₃, h₂⟩ := bind_eq_some.1 h₂
      obtain ⟨inner, top⟩ := Context.Hosts.declarable hosts.allows.valid.1 hosts.allows.locals
        hosts.ready.front.room
      have r₃ := granted_newVariable hH small h₃ st₁.clean hx inner top (heap_behind h₂ ext₂)
      obtain ⟨-, p₃, v₃⟩ := runs_newVariable r₃ st₁.clean.steady
      obtain ⟨_, s₄, h₄, h₂⟩ := bind_eq_some.1 h₂
      obtain ⟨p₄, e₄⟩ := runs_makeReadable (Quiet.runs h₄ p₃.steady) p₃.steady
      obtain ⟨_, s₅, h₅, h₂⟩ := bind_eq_some.1 h₂
      have clean₄ := p₄.clean (p₃.clean st₁.clean)
      have previous : s₄.previous = s₁.current := (p₃.trans p₄).previous
      have errors := granted_function hH small hl gx hr hb g ha hd hosts v₃ e₄
        (congrArg Token.lexeme previous) h₅ clean₄
        (by simpa using p₄.left (p₃.next left₁)) (heap_behind h₂ ext₂)
      exact (Quiet.errors h₂).trans errors

end Functions

end Compile
end StackScript
