import StackScript.Proofs.Compile.Accept
import StackScript.Proofs.Semantics.Outcome
import StackScript.Proofs.Syntax.Enclosed

/-!
# StackScript.Proofs.Semantics.Enclosed

A script does the same in braces, where its global variables are local ones.

* `Stmt.DeclaresFirst`: no variable of the top is used in front of its declaration.
* `Inward`: the top of a script and the block in which it is enclosed. `Enters`: behind a statement.
* `Likewise.top`: the statements of a script do the same in the block, one after the other.
* `enclosed_agrees`: a source yields the same with braces around it.
-/

namespace StackScript

/-- No variable that is declared at this place, or later in the same scope, is used in front of its
declaration, not even in the body of a function. -/
def Syntax.Stmt.DeclaresFirst (later : List String) : Syntax.Stmt → Prop
  | .seq a b => a.DeclaresFirst (b.declared ++ later) ∧ b.DeclaresFirst later
  | a => ∀ x ∈ a.free, x ∉ later

namespace Semantics

open Compile (compile)
open Machine
open Syntax (Alike Parses Stmt enclosed kind_word parses_enclosed parses_spelled)

/-- A script against the block with the same statements. Neither stack nor calls have limits. -/
def enclosing (moved : List String) : Race where
  near := .none
  far := .none
  nearExcused _ := False
  farExcused _ := False
  moved
  endless := False

theorem enclosing_fair (moved : List String) : (enclosing moved).Fair where
  nearFull _ _ h := nomatch h
  farFull _ _ h := nomatch h
  nearDeep _ _ h := nomatch h
  farDeep _ _ h := nomatch h
  endless h := h.elim

section Top

variable {moved : List String} {κ κ' : Pairing} {σ σ' : Site} {s t : Store} {uses : List String}
  {n : Nat} {call call' : Site → Val → List Val → Eval Val} {a : Stmt} {x : String}

/-- The names of the global variables that are local on the far side. -/
def Pairing.names (κ : Pairing) : List String := κ.tops.map Prod.fst

/-- The top of a script, and the inside of the block with its statements. The variables around the
far site are those that are global on the near side. -/
structure Inward (κ : Pairing) (σ σ' : Site) : Prop where
  env : σ.env = []
  top : σ.nested = false
  locals : σ'.env = κ.tops
  nested : σ'.nested = true
  calls : σ.calls = σ'.calls

/-- Behind a statement of the script, which has declared some variables, or returned. -/
inductive Enters (κ κ' : Pairing) (a : Stmt) (σ : Site) : Flow → Flow → Prop where
  | next {τ : Site} : Inward κ' σ τ → κ'.names = a.declared ++ κ.names →
      Enters κ κ' a σ (.next σ) (.next τ)
  | returned (v : Val) : Enters κ κ' a σ (.returned v) (.returned v)

def Arrives (moved : List String) (κ : Pairing) (a : Stmt) (σ : Site) (f g : Flow) (s t : Store) :
    Prop :=
  ∃ κ', Kin (enclosing moved) κ' s t ∧ Enters κ κ' a σ f g

/-- A name means the same on both sides, if it is declared already or never. -/
theorem sees_tops (tops : Env) (h : x ∈ moved → x ∈ tops.map Prod.fst) :
    Sees (enclosing moved) ⟨κ.cells, tops⟩ x none (tops.lookup x) := by
  cases hx : tops.lookup x with
  | none =>
    refine .global fun hm => ?_
    obtain ⟨p, hp, rfl⟩ := List.mem_map.1 (h hm)
    simpa using List.lookup_eq_none_iff.1 hx p hp
  | some c =>
    obtain ⟨before, behind, rfl, -⟩ := List.lookup_eq_some_iff.1 hx
    exact .top (by simp)

theorem Inward.beside (i : Inward κ σ σ') (h : ∀ x ∈ uses, x ∈ moved → x ∈ κ.names) :
    Beside (enclosing moved) κ uses σ σ' where
  sees x hx := by
    rw [i.env, i.locals]
    exact sees_tops κ.tops (h x hx)
  calls := i.calls
  height := .inr ⟨rfl, rfl⟩

/-- What declares nothing does the same inside the block. -/
theorem Likewise.within (calls : Likewise (enclosing moved) call call')
    (h : Alike False a a) (nothing : a.declaresNothing = true) (k : Kin (enclosing moved) κ s t)
    (i : Inward κ σ σ') (free : ∀ x ∈ a.free, x ∈ moved → x ∈ κ.names) :
    Concur (enclosing moved) (Arrives moved κ a σ) (Semantics.stmt .none call n σ a s)
      (Semantics.stmt .none call' n σ' a t) := by
  have timed : (enclosing moved).Timed n n :=
    ⟨Nat.le_refl n, fun lt => absurd lt (Nat.lt_irrefl n)⟩
  refine (Likewise.stmt (enclosing_fair moved) timed calls h k (i.beside free)
    (.inl nothing)).imp fun f g s t ⟨κ', l, k, onward⟩ => ⟨κ', k, ?_⟩
  cases onward with
  | returned v => exact .returned v
  | next _ stays =>
    obtain ⟨rfl, rfl⟩ := stays nothing
    refine .next ⟨i.env, i.top, l.tops ▸ i.locals, i.nested, i.calls⟩ ?_
    rw [Stmt.declared_of_declaresNothing nothing, List.nil_append, Pairing.names, l.tops]
    rfl

/-- A variable that is global on the near side and local on the far side. -/
theorem Kin.declareTop (k : Kin (enclosing moved) κ s t) (i : Inward κ σ σ') (new : x ∉ κ.names)
    (hx : x ∈ moved) (v : Val) :
    Concur (enclosing moved)
      (fun τ τ' s t => τ = σ ∧ ∃ κ', Kin (enclosing moved) κ' s t ∧ Inward κ' σ τ' ∧
        κ'.names = x :: κ.names)
      (σ.declare x v s) (σ'.declare x v t) := by
  unfold Site.declare
  rw [i.top, i.nested, if_neg Bool.false_ne_true, if_pos rfl]
  refine .ok ⟨rfl, ⟨κ.cells, (x, t.cells.size) :: κ.tops⟩, k.newTop new hx v, ?_, rfl⟩
  exact ⟨i.env, i.top, congrArg ((x, t.cells.size) :: ·) i.locals, i.nested, i.calls⟩

/-- A function that is global on the near side and local on the far side. It may mean itself. -/
theorem Kin.closureTop (k : Kin (enclosing moved) κ s t) (i : Inward κ σ σ') (new : x ∉ κ.names)
    (hx : x ∈ moved) {xs : List String} (h : Alike False a a)
    (free : ∀ y ∈ a.free, y ∉ x :: xs → y ∈ moved → y ∈ κ.names) :
    Concur (enclosing moved)
      (fun τ τ' s t => τ = σ ∧ ∃ κ', Kin (enclosing moved) κ' s t ∧ Inward κ' σ τ' ∧
        κ'.names = x :: κ.names)
      (Semantics.closure .none σ x xs a s) (Semantics.closure .none σ' x xs a t) := by
  have twin : Twin (enclosing moved) ⟨κ.cells, (x, t.cells.size) :: κ.tops⟩ ⟨x, xs, a, σ.env⟩
      ⟨x, xs, a, (x, t.cells.size) :: σ'.env⟩ := by
    refine ⟨rfl, rfl, h, fun y hy hp => ?_⟩
    rw [i.env, i.locals]
    refine sees_tops ((x, t.cells.size) :: κ.tops) fun hm => ?_
    by_cases e : y = x
    · exact e ▸ List.mem_cons_self
    · exact List.mem_cons_of_mem _ (free y hy (by simpa [e] using hp) hm)
  unfold Semantics.closure Site.declare
  rw [i.top, i.nested]
  refine .ok ⟨rfl, ⟨κ.cells, (x, t.cells.size) :: κ.tops⟩, ?_, ?_, rfl⟩
  · show Kin _ _ _ { t with
      cells := (t.cells.push .nil).setIfInBounds t.cells.size (.closure t.closures.size)
      closures := _ }
    rw [setIfInBounds_push, ← k.size_closures]
    exact (k.newTop new hx (.closure s.closures.size)).newClosure twin
  · exact ⟨i.env, i.top, congrArg ((x, t.cells.size) :: ·) i.locals, i.nested, i.calls⟩

/-- The statements of a script do the same in the block, one after the other. -/
theorem Likewise.top (calls : Likewise (enclosing moved) call call') (h : Alike False a a) :
    ∀ {later : List String} {κ : Pairing} {σ σ' : Site} {s t : Store},
      Kin (enclosing moved) κ s t → Inward κ σ σ' → a.Valid false (some κ.names) →
      a.DeclaresFirst later → (∀ x ∈ a.declared, x ∈ moved) →
      (∀ x ∈ moved, x ∈ κ.names ∨ x ∈ a.declared ∨ x ∈ later) →
      Concur (enclosing moved) (Arrives moved κ a σ) (Semantics.stmt .none call n σ a s)
        (Semantics.stmt .none call' n σ' a t) := by
  induction a with
  | seq a b iha ihb =>
    intro later κ σ σ' s t k i valid first own known
    cases h with
    | seq ha hb =>
    rw [Semantics.stmt, Semantics.stmt]
    have own' (x : String) (hx : x ∈ a.declared) : x ∈ moved :=
      own x (List.mem_append_right b.declared hx)
    have known' (x : String) (hx : x ∈ moved) :
        x ∈ κ.names ∨ x ∈ a.declared ∨ x ∈ b.declared ++ later := by
      obtain h | h | h := known x hx
      · exact .inl h
      · exact (List.mem_append.1 h).elim (fun h => .inr (.inr (List.mem_append_left _ h)))
          fun h => .inr (.inl h)
      · exact .inr (.inr (List.mem_append_right _ h))
    refine (iha ha k i valid.1 first.1 own' known').bind fun f g s t arrives => ?_
    obtain ⟨κ', k, enters⟩ := arrives
    cases enters with
    | returned v => exact .ok ⟨κ', k, .returned v⟩
    | next i names =>
      have valid' : b.Valid false (some κ'.names) := names ▸ valid.2
      have own' (x : String) (hx : x ∈ b.declared) : x ∈ moved := own x (List.mem_append_left _ hx)
      have known' (x : String) (hx : x ∈ moved) : x ∈ κ'.names ∨ x ∈ b.declared ∨ x ∈ later := by
        rw [names]
        obtain h | h | h := known x hx
        · exact .inl (List.mem_append_right _ h)
        · exact (List.mem_append.1 h).elim (fun h => .inr (.inl h))
            fun h => .inl (List.mem_append_left _ h)
        · exact .inr (.inr h)
      refine (ihb hb k i valid' first.2 own' known').imp fun f g s t arrives => ?_
      obtain ⟨κ'', k, enters⟩ := arrives
      refine ⟨κ'', k, ?_⟩
      cases enters with
      | returned v => exact .returned v
      | next i names' => exact .next i (by rw [names', names, Stmt.declared, List.append_assoc])
  | var x e =>
    intro later κ σ σ' s t k i valid first own known
    obtain ⟨new, initial⟩ := valid κ.names rfl
    rw [Semantics.stmt, Semantics.stmt]
    refine (Likewise.expr (enclosing_fair moved) calls e k
      (i.beside fun y hy hm => ?_)).bind fun v w s t still => ?_
    · refine (known y hm).resolve_right fun later => ?_
      obtain own | later := later
      · exact initial (List.mem_singleton.1 own ▸ hy)
      · exact first y hy later
    obtain ⟨e, κ₁, l, k⟩ := still
    subst e
    have same : κ₁.names = κ.names := congrArg (List.map Prod.fst) l.tops
    have i : Inward κ₁ σ σ' := ⟨i.env, i.top, i.locals.trans l.tops.symm, i.nested, i.calls⟩
    refine (k.declareTop i (same.symm ▸ new) (own x List.mem_cons_self) v).bind
      fun τ τ' s t declared => ?_
    obtain ⟨e, κ₂, k, i, names⟩ := declared
    subst e
    exact .ok ⟨κ₂, k, .next i (names.trans (congrArg (x :: ·) same))⟩
  | function x xs a =>
    intro later κ σ σ' s t k i valid first own known
    cases h with
    | function _ _ ha =>
    rw [Semantics.stmt, Semantics.stmt]
    refine (k.closureTop i (valid.1 κ.names rfl) (own x List.mem_cons_self) ha
      fun y hy hp hm => ?_).bind fun τ τ' s t declared => ?_
    · refine (known y hm).resolve_right fun later => ?_
      obtain own | later := later
      · exact hp (List.mem_singleton.1 own ▸ List.mem_cons_self)
      · exact first y (List.mem_filter.2 ⟨hy, decide_eq_true hp⟩) later
    obtain ⟨e, κ₁, k, i, names⟩ := declared
    subst e
    exact .ok ⟨κ₁, k, .next i names⟩
  | _ =>
    intro later κ σ σ' s t k i valid first own known
    refine Likewise.within calls h rfl k i fun x hx hm => (known x hm).resolve_right fun later => ?_
    exact later.elim List.not_mem_nil (first x hx)

theorem stmt_enclosed (L : Limits) (σ : Site) (a : Stmt) :
    Semantics.stmt L call n σ (.seq (.block a) .empty) =
      Semantics.stmt L call n σ.inside a >>= fun f => return f.leave σ := by
  rw [stmt_seq, funext andThen_empty, bind_pure, Semantics.stmt]

/-- The same script at the top and in a block, if nothing is in short supply. -/
theorem script_enclosed (h : Alike False a a) (valid : a.Valid false (some []))
    (first : a.DeclaresFirst []) (n : Nat) (output : Output) (world : World) :
    Concur (enclosing a.declared) (fun _ _ s t => s.output = t.output)
      (script .none n a (Store.initial output world))
      (script .none n (.seq (.block a) .empty) (Store.initial output world)) := by
  have calls : Likewise (enclosing a.declared) (invoke .none n) (invoke .none n) :=
    likewise_invoke (enclosing_fair _) ⟨Nat.le_refl n, fun lt => absurd lt (Nat.lt_irrefl n)⟩
  have inward : Inward ⟨[], []⟩ .script Site.script.inside := ⟨rfl, rfl, rfl, rfl, rfl⟩
  have top := Likewise.top (n := n) calls h (kin_initial _ output world) inward valid first
    (fun _ => id) fun x hx => .inr (.inl hx)
  rw [script, script, stmt_enclosed, bind_assoc]
  refine top.bind fun f g s t ⟨κ, k, enters⟩ => ?_
  cases enters with
  | returned v => exact .ok k.output
  | next i _ => exact .ok k.output

end Top

variable {output : Output} {world : World} {source : String} {a : Stmt}

/-- What a source that is compiled in braces has to keep to. -/
theorem valid_of_enclosed {b : Stmt} (h : Sourced output world source (.seq (.block b) .empty)) :
    b.Valid false (some []) := by
  obtain ⟨r, ok⟩ := h.compiles
  obtain ⟨c, -, -, -, unique, valid, -⟩ := Compile.compile_tree ok
  obtain rfl := unique _ h.parses
  exact valid.1

/-- A source and the same one in braces, where its global variables are local ones, print the same
and end in the same way: with the same message in the same functions, if they fail. -/
theorem enclosed_agrees (h : Sourced output world source a) (first : a.DeclaresFirst [])
    (compiles : ∃ r, (compile (enclosed source) (Machine.new output world).heap).result = .ok r)
    (fits : ∀ n, ((Machine.new output world).interpret n (enclosed source)).2.heap.size ≤
      UInt32.size)
    (roomy : Roomy output world source) (roomy' : Roomy output world (enclosed source)) :
    (∀ p printed, Yields output world source p printed →
      ∃ p', Yields output world (enclosed source) p' printed ∧ unlined p' = unlined p) ∧
    ∀ p' printed, Yields output world (enclosed source) p' printed →
      ∃ p, Yields output world source p printed ∧ unlined p' = unlined p := by
  have h' : Sourced output world (enclosed source) (.seq (.block a) .empty) :=
    ⟨parses_enclosed h.parses, compiles, fits⟩
  have concur (n : Nat) := script_enclosed h.alike (valid_of_enclosed h') first n output world
  constructor
  · intro p printed yields
    obtain ⟨n, r, s, near, concludes, rfl⟩ := roomy.script h yields
    have concur := concur n
    rw [near] at concur
    generalize hr : script .none n (.seq (.block a) .empty) (Store.initial output world) = far
      at concur
    cases concur with
    | ok same | halt same =>
      obtain ⟨p', yields', concludes'⟩ := roomy'.yields h' hr
      exact ⟨p', same ▸ yields', concludes'.unlined_eq concludes⟩
    | near excused | far excused => exact excused.elim
  · intro p' printed yields'
    obtain ⟨n, r, s, far, concludes', rfl⟩ := roomy'.script h' yields'
    have concur := concur n
    rw [far] at concur
    generalize hr : script .none n a (Store.initial output world) = near at concur
    cases concur with
    | ok same | halt same =>
      obtain ⟨p, yields, concludes⟩ := roomy.yields h hr
      exact ⟨p, same ▸ yields, concludes'.unlined_eq concludes⟩
    | near excused | nearLate excused | far excused => exact excused.elim

/-- A function that is global, and local in braces, and that means itself in its body. -/
theorem enclosed_agrees_function :
    let source := "fun f() \x7b return f; \x7d print f();"
    let a : Stmt := .seq (.function "f" [] (.seq (.return (.get "f")) .empty))
      (.seq (.print (.call (.get "f") .nil)) .empty)
    let m := Machine.new .unlimited .still
    (Sourced .unlimited .still source a ∧ a.DeclaresFirst [] ∧
      (∃ r, (compile (enclosed source) m.heap).result = .ok r) ∧
      (∀ n, (m.interpret n (enclosed source)).2.heap.size ≤ UInt32.size) ∧
      Roomy .unlimited .still source ∧ Roomy .unlimited .still (enclosed source)) ∧
    ∃ p, Yields .unlimited .still (enclosed source) p (m.interpret 9 source).2.output ∧
      unlined p = .finished := by
  intro source a m
  have name : Syntax.ExprPhrase .call _ (.get "f") := .simple (.get (kind_word "f"))
  have called : Syntax.ExprPhrase .call _ (.call (.get "f") .nil) :=
    .call name (kind_word "(") .none (kind_word ")")
  have parses : Parses source a := by
    refine parses_spelled ?_ (.more
      (.function (kind_word "fun") (kind_word "f") (kind_word "(") .none (kind_word ")")
        (kind_word "\x7b") (.more (.statement (.return (kind_word "return")
          (.present name.complete (kind_word ";")))) .none) (kind_word "\x7d"))
      (.more (.statement (.print (kind_word "print") called.complete (kind_word ";"))) .none))
    decide +kernel
  have finished : (m.interpret 9 source).1 = .finished := by decide +kernel
  have finished' : (m.interpret 9 (enclosed source)).1 = .finished := by decide +kernel
  have h : Sourced .unlimited .still source a := .of_run parses finished (by decide +kernel)
  have first : a.DeclaresFirst [] :=
    ⟨fun _ _ => List.not_mem_nil, fun _ _ => List.not_mem_nil, fun _ _ => List.not_mem_nil⟩
  have compiles' : ∃ r, (compile (enclosed source) m.heap).result = .ok r :=
    compiles_of_unfailed fun _ failed => (nomatch finished'.symm.trans failed)
  have fits' (n : Nat) : (m.interpret n (enclosed source)).2.heap.size ≤ UInt32.size :=
    fits_of_run (fun running => (nomatch finished'.symm.trans running)) (by decide +kernel) n
  have yields := Yields.of_run finished
  have room := Roomy.of_yields yields nofun
  have room' := Roomy.of_yields (Yields.of_run finished') nofun
  exact ⟨⟨h, first, compiles', fits', room, room'⟩,
    (enclosed_agrees h first compiles' fits' room room').1 _ _ yields⟩

end Semantics
end StackScript
