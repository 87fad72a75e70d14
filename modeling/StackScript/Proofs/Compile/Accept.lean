import StackScript.Proofs.Compile.AcceptControl
import StackScript.Proofs.Compile.Ending
import StackScript.Proofs.Store.Intern

/-!
# StackScript.Proofs.Compile.Accept

Which sources compile.

* `StmtPhrase.faultless`: the grammar has no tokens that are faults of the source text.
* `granted_script`: a script within the limits compiles if it keeps to the static rules.
* `compile_accepts`: a source compiles exactly if it has a tree that keeps to the static rules.
-/

namespace StackScript
namespace Compile

open Syntax Instruction

section Faultless

variable {t : Token} {ts us : List Token}

theorem faultless_cons {k : TokenKind} (hk : t.kind = k) (other : ∀ fault, k ≠ .fault fault)
    (h : ∀ u ∈ ts, u.Faultless) : ∀ u ∈ t :: ts, u.Faultless :=
  List.forall_mem_cons.2 ⟨fun fault e => other fault (hk.symm.trans e), h⟩

theorem faultless_one {k : TokenKind} (hk : t.kind = k) (other : ∀ fault, k ≠ .fault fault) :
    ∀ u ∈ [t], u.Faultless :=
  faultless_cons hk other nofun

theorem faultless_append (h : ∀ u ∈ ts, u.Faultless) (h' : ∀ u ∈ us, u.Faultless) :
    ∀ u ∈ ts ++ us, u.Faultless :=
  List.forall_mem_append.2 ⟨h, h'⟩

mutual

/-- The grammar has no tokens that are faults of the source text. -/
theorem ExprPhrase.faultless {p : Precedence} {ts : List Token} {e : Expr}
    (g : ExprPhrase p ts e) : ∀ t ∈ ts, t.Faultless := by
  match g with
  | .tighter _ g => exact ExprPhrase.faultless g
  | .nil hk | .true hk | .false hk | .number hk | .string hk | .get hk =>
    exact faultless_one hk nofun
  | .grouping hl g hr =>
    exact faultless_append (faultless_cons hl nofun (ExprPhrase.faultless g)) (faultless_one hr nofun)
  | .array hl g hr =>
    exact faultless_append (faultless_cons hl nofun (ItemsPhrase.faultless g))
      (faultless_one hr nofun)
  | .call g hl g' hr =>
    exact faultless_append (ExprPhrase.faultless g) (faultless_append
      (faultless_cons hl nofun (ItemsPhrase.faultless g')) (faultless_one hr nofun))
  | .index g hl g' hr =>
    exact faultless_append (ExprPhrase.faultless g) (faultless_append
      (faultless_cons hl nofun (ExprPhrase.faultless g')) (faultless_one hr nofun))
  | .unary hk g =>
    refine List.forall_mem_cons.2 ⟨fun fault h => ?_, ExprPhrase.faultless g⟩
    rw [h] at hk
    cases hk
  | .binary g hk _ g' =>
    refine faultless_append (ExprPhrase.faultless g)
      (List.forall_mem_cons.2 ⟨fun fault h => ?_, ExprPhrase.faultless g'⟩)
    rw [h] at hk
    cases hk
  | .and g hk g' | .or g hk g' =>
    exact faultless_append (ExprPhrase.faultless g)
      (faultless_cons hk nofun (ExprPhrase.faultless g'))
  | .set hk hq g => exact faultless_cons hk nofun (faultless_cons hq nofun (ExprPhrase.faultless g))
  | .setIndex g hl g' hr hq g'' =>
    exact faultless_append (ExprPhrase.faultless g) (faultless_append
      (faultless_cons hl nofun (ExprPhrase.faultless g'))
      (faultless_cons hr nofun (faultless_cons hq nofun (ExprPhrase.faultless g''))))
termination_by structural g

theorem ItemsPhrase.faultless {ts : List Token} {es : Exprs} (g : ItemsPhrase ts es) :
    ∀ t ∈ ts, t.Faultless := by
  match g with
  | .none => exact nofun
  | .one g => exact ExprPhrase.faultless g
  | .more g hc g' =>
    exact faultless_append (ExprPhrase.faultless g)
      (faultless_cons hc nofun (ItemsPhrase.faultless g'))
termination_by structural g

end

theorem NamesPhrase.faultless {xs : List String} (g : NamesPhrase ts xs) :
    ∀ t ∈ ts, t.Faultless := by
  induction g with
  | none => exact nofun
  | one hk => exact faultless_one hk nofun
  | more hk hc _ ih => exact faultless_cons hk nofun (faultless_cons hc nofun ih)

theorem ClausePhrase.faultless {close : TokenKind} {e : Option Expr} (g : ClausePhrase close ts e)
    (other : ∀ fault, close ≠ .fault fault) : ∀ t ∈ ts, t.Faultless := by
  cases g with
  | absent hk => exact faultless_one hk other
  | present g hk => exact faultless_append (ExprPhrase.faultless g) (faultless_one hk other)

theorem InitialPhrase.faultless {e : Expr} (g : InitialPhrase ts e) : ∀ t ∈ ts, t.Faultless := by
  cases g with
  | absent hk => exact faultless_one hk nofun
  | present hq g hk =>
    exact faultless_append (faultless_cons hq nofun (ExprPhrase.faultless g)) (faultless_one hk nofun)

theorem StmtPhrase.faultless {category : Category} {a : Stmt} (g : StmtPhrase category ts a) :
    ∀ t ∈ ts, t.Faultless := by
  induction g with
  | none => exact nofun
  | more _ _ ih ih' => exact faultless_append ih ih'
  | statement _ ih => exact ih
  | var hk hx g | startVar hk hx g =>
    exact faultless_cons hk nofun (faultless_cons hx nofun (InitialPhrase.faultless g))
  | function hk hx hl gx hr hb _ hc ih =>
    refine faultless_append (faultless_append ?_ ?_) (faultless_one hc nofun)
    · exact faultless_cons hk nofun (faultless_cons hx nofun
        (faultless_cons hl nofun (NamesPhrase.faultless gx)))
    · exact faultless_cons hr nofun (faultless_cons hb nofun ih)
  | expression g hk | startExpression g hk =>
    exact faultless_append (ExprPhrase.faultless g) (faultless_one hk nofun)
  | print hk g hu =>
    exact faultless_append (faultless_cons hk nofun (ExprPhrase.faultless g)) (faultless_one hu nofun)
  | block hk _ hc ih => exact faultless_append (faultless_cons hk nofun ih) (faultless_one hc nofun)
  | ifThen hk hl g hr _ ih | «while» hk hl g hr _ ih =>
    exact faultless_append (faultless_cons hk nofun (faultless_cons hl nofun (ExprPhrase.faultless g)))
      (faultless_cons hr nofun ih)
  | ifElse hk hl g hr _ _ ho _ ih ih' =>
    refine faultless_append (faultless_append ?_ (faultless_cons hr nofun ih))
      (faultless_cons ho nofun ih')
    exact faultless_cons hk nofun (faultless_cons hl nofun (ExprPhrase.faultless g))
  | «for» hk hl _ gc gx _ ih ih' =>
    exact faultless_append (faultless_append (faultless_append
      (faultless_cons hk nofun (faultless_cons hl nofun ih)) (ClausePhrase.faultless gc nofun))
      (ClausePhrase.faultless gx nofun)) ih'
  | «return» hk g => exact faultless_cons hk nofun (ClausePhrase.faultless g nofun)
  | startEmpty hk => exact faultless_one hk nofun

theorem Parses.faultless {source : String} {a : Stmt} (h : Parses source a) :
    ∀ t ∈ Lexical.scan source, t.Faultless := by
  obtain ⟨ts, t, scanned, ht, g⟩ := h
  rw [scanned]
  exact faultless_append (StmtPhrase.faultless g) (faultless_one ht nofun)

end Faultless

section Scripts

variable {H : Heap} (hH : H.Sound) (small : H.size ≤ UInt32.size)

include hH small in
theorem granted_declarations {t : Token} (ht : t.kind = .eof) : ∀ {n : Nat} {s s' : State} {v : Unit}
    {ts : List Token} {a : Stmt}, StmtPhrase .declarations ts a →
      declarations n s = some (v, s') → Clean s → s.current :: s.rest = ts ++ [t] →
      s.context.Hosts a → s'.heap.Extends H → s'.errors = #[] := by
  intro n
  induction n with
  | zero => exact fun _ h => by cases h
  | succ n ih =>
    intro s s' v ts a g h hs tokens hosts ext
    rw [declarations, accept_bind] at h
    cases g with
    | none =>
      obtain ⟨rfl, rest⟩ := List.cons.inj tokens
      rw [if_pos ht] at h
      obtain ⟨_, s₁, h₁, h⟩ := bind_eq_some.1 h
      cases h₁
      have last : s.advance = { s with previous := s.current, rest := [] } := by
        rw [State.advance, rest]
        rfl
      rw [last] at h
      cases h
      exact hs.steady.errors
    | more g₁ g₂ =>
      obtain ⟨u, us, rfl, begins⟩ := StmtPhrase.begins g₁
      obtain ⟨rfl, -⟩ := List.cons.inj tokens
      rw [if_neg begins.2.1] at h
      obtain ⟨_, s₁, h₁, h⟩ := bind_eq_some.1 h
      have ext₁ := heap_behind h ext
      have ends {b : Stmt} : CanEnd .declarations b [t] := fun u hu => .inr (by cases hu; exact ht)
      obtain ⟨_, _, p₁, c₁, left₁⟩ := (StmtPhrase.granted hH small g₁).compiled g₁ h₁ hs
        (by simpa using tokens) ⟨rfl, .mid (by simp) g₂ ends⟩ hosts.first ext₁
      exact ih g₂ h (p₁.clean hs) left₁ (hosts.rest hH small c₁ ext₁) ext

/-- A script within the limits can be compiled if it keeps to the static rules. -/
theorem script_hosts {a : Stmt} (limits : a.WithinLimits) (valid : a.Valid false none)
    (heap : Heap) : (Context.script heap).Hosts a := by
  refine ⟨⟨rfl, Context.script_proper heap, Context.script_settled heap, [[]],
    ⟨.nil, .nil, trivial⟩, fun ns hns => ?_⟩, limits.locals, limits.fits, valid⟩
  cases List.mem_singleton.1 hns
  exact limits.modest

theorem granted_script {source : String} {heap : Heap} {n : Nat} {f : Function} {s : State}
    {a : Stmt} (h : script n (.new (Lexical.scan source) heap) = some (f, s)) (hs : heap.Sound)
    (small : s.heap.size ≤ UInt32.size) (parses : Parses source a) (limits : a.WithinLimits)
    (valid : a.Valid false none) : s.errors = #[] := by
  have sound : s.heap.Sound := (Keeps.later h).heap.sound hs small
  have faultless := Parses.faultless parses
  obtain ⟨ts, t, scanned, ht, g⟩ := parses
  have ends := endsOnce_scan source
  obtain ⟨u, us, scan⟩ := List.exists_cons_of_ne_nil ends.ne_nil
  rw [scan] at ends faultless scanned
  obtain ⟨_, s₁, h₁, h⟩ := bind_eq_some.1 h
  have first : { State.new (Lexical.scan source) heap with
      previous := (State.new (Lexical.scan source) heap).current, current := u, rest := us } = s₁ := by
    have advanced : (State.new (Lexical.scan source) heap).advance = s₁ := by
      cases h₁
      rfl
    rw [← advanced, State.advance]
    have rest : (State.new (Lexical.scan source) heap).rest = u :: us := scan
    rw [rest, take_cons (faultless u List.mem_cons_self)]
  subst first
  obtain ⟨_, s₂, h₂, h⟩ := bind_eq_some.1 h
  have errors := granted_declarations sound small ht g h₂ ⟨⟨rfl, rfl, ends, rfl⟩, faultless⟩ scanned
    (script_hosts limits valid heap) (heap_behind h (.refl _))
  exact (Quiet.errors h).trans errors

end Scripts

/-- The tree of a source that compiles: it is its only one, keeps to the static rules, and what is
compiled is its code. -/
theorem compile_tree {source : String} {heap : Heap} {r : Ref}
    (h : (compile source heap).result = .ok r) : ∃ a f heap', Parses source a ∧
      (∀ b, Parses source b → b = a) ∧ a.Valid false none ∧ ScriptCode heap a f heap' ∧
      heap'.allocate (.function f) = ((compile source heap).heap, r) := by
  obtain ⟨a, f, heap', parses, code, allocated⟩ := compile_ok h
  refine ⟨a, f, heap', parses, fun b hb => Parses.unique hb parses, ?_, code, allocated⟩
  cases code with
  | intro code _ =>
    exact StmtCode.valid code (Context.script_proper heap) (Context.script_settled heap)

/-- A script that has code keeps to the limits. -/
theorem ScriptCode.limits {heap heap' H : Heap} {a : Stmt} {f : Function}
    (code : ScriptCode heap a f heap') (hH : H.Sound) (small : H.size ≤ UInt32.size)
    (ext : heap'.Extends H) : a.WithinLimits := by
  cases code with
  | intro code _ =>
    obtain ⟨-, proper, -⟩ := Context.script_extends code
    have started : (Context.script heap).Tracked [[]] := ⟨.nil, .nil, trivial⟩
    obtain ⟨tracked, -, slots, fits⟩ := StmtCode.told code hH small (Context.script_proper heap)
      (Context.script_settled heap) ext started
    exact ⟨slots, ⟨Nat.le_trans (Nat.le_of_eq tracked.1.size.symm) proper.draft.constants,
      Nat.le_trans (Nat.le_of_eq tracked.2.1.size.symm) proper.draft.captures⟩, fits⟩

section Accept

variable {source : String} {heap : Heap} (hs : heap.Sound)
  (small : (compile source heap).heap.size ≤ UInt32.size)
include hs small

/-- A source within the limits compiles if it keeps to the static rules. -/
theorem compile_of_valid {a : Stmt} (parses : Parses source a) (limits : a.WithinLimits)
    (valid : a.Valid false none) : ∃ r, (compile source heap).result = .ok r := by
  obtain ⟨f, s, ends, compiled⟩ := compile_eq_ofState source heap
  rw [compiled] at small ⊢
  have room := Nat.le_trans (Compilation.size_ofState f s) small
  have errors := granted_script ends hs room parses limits valid
  rw [Compilation.ofState, if_pos (by simp [errors])]
  exact ⟨_, rfl⟩

/-- The limits of `Stmt.WithinLimits` are those of the compiler. -/
theorem compile_ok_iff : (∃ r, (compile source heap).result = .ok r) ↔
    ∃ a, Parses source a ∧ a.Valid false none ∧ a.WithinLimits := by
  constructor
  · rintro ⟨r, h⟩
    obtain ⟨a, f, heap', parses, -, valid, code, allocated⟩ := compile_tree h
    have sound := (compile_gains source heap).sound hs small
    have ext := heap'.extends_allocate (.function f)
    rw [allocated] at ext
    exact ⟨a, parses, valid, code.limits sound small ext⟩
  · rintro ⟨a, parses, valid, limits⟩
    exact compile_of_valid hs small parses limits valid

end Accept

/-- What compiles is the code of the only tree of its source. A source whose functions keep to the
limits compiles exactly if no token is a fault and it has a tree that keeps to the static rules. -/
theorem compile_accepts {source : String} {heap : Heap} :
    (∀ r, (compile source heap).result = .ok r →
      (∀ t ∈ Lexical.scan source, t.Faultless) ∧ ∃ a f heap', Parses source a ∧
        (∀ b, Parses source b → b = a) ∧ a.Valid false none ∧ ScriptCode heap a f heap' ∧
        heap'.allocate (.function f) = ((compile source heap).heap, r)) ∧
    (heap.Sound → (compile source heap).heap.size ≤ UInt32.size →
      (∀ a, Parses source a → a.WithinLimits) →
      ((∃ r, (compile source heap).result = .ok r) ↔
        (∀ t ∈ Lexical.scan source, t.Faultless) ∧
          ∃ a, Parses source a ∧ a.Valid false none)) := by
  refine ⟨fun r h => ?_, fun hs small limits => ?_⟩
  · obtain ⟨a, f, heap', parses, tree⟩ := compile_tree h
    exact ⟨Parses.faultless parses, a, f, heap', parses, tree⟩
  rw [compile_ok_iff hs small]
  constructor
  · rintro ⟨a, parses, valid, -⟩
    exact ⟨Parses.faultless parses, a, parses, valid⟩
  · rintro ⟨-, a, parses, valid⟩
    exact ⟨a, parses, valid, limits a parses⟩

/-- Operators of all kinds, and assignments to a variable and an element. -/
theorem compile_accepts_operators :
    let source := "a[-b] = c = d or a == nil;"
    (∃ r, (compile source .empty).result = .ok r) ∧ Heap.empty.Sound ∧
      (compile source .empty).heap.size ≤ UInt32.size ∧
      (∀ a, Parses source a → a.WithinLimits) ∧
      (∀ t ∈ Lexical.scan source, t.Faultless) ∧ ∃ a, Parses source a ∧ a.Valid false none := by
  have compiles : (compile "a[-b] = c = d or a == nil;" .empty).result = .ok ⟨4⟩ := by
    decide +kernel
  have size : (compile "a[-b] = c = d or a == nil;" .empty).heap.size = 5 := by
    decide +kernel
  have small : (compile "a[-b] = c = d or a == nil;" .empty).heap.size ≤ UInt32.size := by
    rw [size]
    decide
  have sound := (compile_gains "a[-b] = c = d or a == nil;" .empty).sound Heap.sound_empty small
  obtain ⟨-, a, f, heap', -, unique, -, code, allocated⟩ := compile_accepts.1 _ compiles
  have limits : ∀ b, Parses "a[-b] = c = d or a == nil;" b → b.WithinLimits := by
    intro b hb
    have ext := heap'.extends_allocate (.function f)
    rw [allocated] at ext
    exact unique b hb ▸ code.limits sound small ext
  exact ⟨⟨_, compiles⟩, Heap.sound_empty, small, limits,
    (compile_accepts.2 Heap.sound_empty small limits).1 ⟨_, compiles⟩⟩

end Compile
end StackScript
