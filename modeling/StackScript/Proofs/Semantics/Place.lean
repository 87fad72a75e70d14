import StackScript.Proofs.Semantics.Primitive
import StackScript.Proofs.Compile.Scope

/-!
# StackScript.Proofs.Semantics.Place

Variables are read and assigned where the compiler has put them.

* `Placed`: the variables that a context of the compiler knows are those of a call.
* `Means`: a place of the compiler is that of a variable, given the call.
* `Stands.read`, `Stands.assign`: a step that reads or assigns a variable.
-/

namespace StackScript
namespace Semantics

open Compile (Context Place follow)
open Instruction (width stream)
open Machine
open Syntax (slotIn)

section Lookup

variable {name : String}

/-- The slot of a variable in its function has its cell. -/
theorem slotIn_locals (hn : name ≠ "") (l : List (String × Nat)) :
    match slotIn name (l.map Prod.fst ++ [""]) with
    | some slot => slot ≠ 0 ∧ ∃ c, l.lookup name = some c ∧ l.reverse[slot - 1]?.map Prod.snd = some c
    | none => l.lookup name = none := by
  induction l with
  | nil =>
    have : slotIn name [""] = none := by simp [slotIn, hn.symm]
    simp [this]
  | cons p l ih =>
    obtain ⟨x, c⟩ := p
    rw [List.map_cons, List.cons_append, slotIn, List.lookup_cons]
    by_cases e : x = name
    · subst e
      have length : (l.map Prod.fst ++ [""]).length = l.length + 1 := by simp
      simp only [if_true, length, beq_self_eq_true]
      refine ⟨Nat.succ_ne_zero _, c, rfl, ?_⟩
      rw [Nat.add_sub_cancel, List.reverse_cons, List.getElem?_append_right (by simp)]
      simp
    · have other : (name == x) = false := by simpa using Ne.symm e
      rw [if_neg e, other]
      dsimp only
      cases hs : slotIn name (l.map Prod.fst ++ [""]) with
      | none =>
        rw [hs] at ih
        exact ih
      | some slot =>
        rw [hs] at ih
        obtain ⟨pos, d, hd, cell⟩ := ih
        refine ⟨pos, d, hd, ?_⟩
        obtain ⟨q, hq, e⟩ := Option.map_eq_some_iff.1 cell
        rw [List.reverse_cons, List.getElem?_append_left (List.getElem?_eq_some_iff.1 hq).1, hq]
        exact congrArg some e

/-- What is found around a place is the innermost variable with the name. -/
theorem lookup_names (hn : name ≠ "") (ls : Levels) :
    match Syntax.lookup name ls.names with
    | some (level, slot) =>
      ∃ c, ls.flatten.lookup name = some c ∧ ls.cell? level slot = some c
    | none => ls.flatten.lookup name = none := by
  induction ls with
  | nil => rfl
  | cons l ls ih =>
    have here := slotIn_locals hn l
    rw [Levels.names, List.map_cons, Syntax.lookup, List.flatten_cons, List.lookup_append]
    cases hs : slotIn name (l.map Prod.fst ++ [""]) with
    | some slot =>
      rw [hs] at here
      obtain ⟨pos, c, hc, cell⟩ := here
      refine ⟨c, by rw [hc, Option.some_or], ?_⟩
      obtain ⟨p, hp, rfl⟩ := Option.map_eq_some_iff.1 cell
      simp [Levels.cell?, pos, hp]
    | none =>
      rw [hs] at here
      dsimp only at here ⊢
      rw [here, Option.none_or]
      have outer : Syntax.lookup name (ls.map fun l => l.map Prod.fst ++ [""]) =
          Syntax.lookup name (Levels.names ls) := rfl
      rw [outer]
      cases hl : Syntax.lookup name (Levels.names ls) with
      | none =>
        rw [hl] at ih
        exact ih
      | some p =>
        rw [hl] at ih
        obtain ⟨level, slot⟩ := p
        obtain ⟨c, hc, cell⟩ := ih
        refine ⟨c, hc, ?_⟩
        simpa [Levels.cell?] using cell

end Lookup

/-- The variables that a context knows are those of a call, with some declared by the function. -/
structure Placed (A : Activation) (nested : Bool) (ℓ : List (String × Nat)) (c : Context) :
    Prop where
  proper : c.Proper
  rooted : c.Rooted
  plain : c.Plain
  scopes : c.scopes = ⟨ℓ.map Prod.fst ++ [""], A.levels.names, nested⟩

namespace Placed

variable {A : Activation} {nested : Bool} {ℓ : List (String × Nat)} {c c' : Context}

theorem expr {e : Syntax.Expr} {is : List Instruction} (p : Placed A nested ℓ c)
    (h : Compile.ExprCode c e is c') (named : e.Named) (plain : e.Plain) : Placed A nested ℓ c' :=
  ⟨h.grows.proper p.proper, h.rooted named p.rooted, h.plain plain p.plain,
    (h.grows.grown p.proper).scopes.trans p.scopes⟩

theorem exprs {es : Syntax.Exprs} {is : List Instruction} (p : Placed A nested ℓ c)
    (h : Compile.ExprsCode c es is c') (named : es.Named) (plain : es.Plain) :
    Placed A nested ℓ c' :=
  ⟨h.grows.proper p.proper, h.rooted named p.rooted, h.plain plain p.plain,
    (h.grows.grown p.proper).scopes.trans p.scopes⟩

theorem resolve {name : String} {place : Place} (p : Placed A nested ℓ c)
    (h : c.resolve? name = some (c', place)) (hn : name ≠ "") : Placed A nested ℓ c' :=
  ⟨(Context.resolve?_grown h p.proper).2, Context.resolve?_rooted h hn p.rooted,
    p.plain.resolve h, (Context.resolve?_grown h p.proper).1.scopes.trans p.scopes⟩

end Placed

/-- A place of the compiler is that of a variable. -/
inductive Means (H : Heap) (A : Activation) (ℓ : List (String × Nat)) (name : String) :
    Place → Prop where
  | slot {slot : UInt8} {c : Nat} : (ℓ :: A.levels).flatten.lookup name = some c →
      (∀ θ, (A.slots ℓ θ)[A.below.length + slot.toNat]? = some (.cell c)) →
      Means H A ℓ name ⟨.getLocal slot, .setLocal slot⟩
  | upvalue {i : UInt8} {c : Nat} {r : Ref} : (ℓ :: A.levels).flatten.lookup name = some c →
      A.upvalues[i.toNat]? = some r → A.ties.cell r = some c →
      Means H A ℓ name ⟨.getUpvalue i, .setUpvalue i⟩
  | global {k : UInt8} {key : Ref} : (ℓ :: A.levels).flatten.lookup name = none →
      A.body.chunk.constants[k.toNat]? = some (.object key) → H.string? key = some name →
      Means H A ℓ name ⟨.getGlobal k, .setGlobal k⟩

/-- Captures lead to functions further out. -/
theorem follow_ne_zero {chain : List (Array Capture)} {i : UInt8} {slot : Nat} :
    follow chain i ≠ some (0, slot) := by
  intro h
  cases chain with
  | nil => cases h
  | cons captures outer =>
    unfold follow at h
    split at h
    · cases h
    · cases h
    · obtain ⟨q, -, e⟩ := Option.map_eq_some_iff.1 h
      cases e

section Means

variable {H : Heap} {A : Activation} {nested : Bool} {ℓ : List (String × Nat)} {name : String}

theorem slots_of_cell? {slot c : Nat} {ls : Levels}
    (h : Levels.cell? (ℓ :: ls) 0 slot = some c) (θ : List Val) :
    (A.slots ℓ θ)[A.below.length + slot]? = some (.cell c) := by
  cases slot with
  | zero => simp [Levels.cell?] at h
  | succ slot =>
    obtain ⟨x, hx⟩ : ∃ x, ℓ.reverse[slot]? = some (x, c) := by
      simpa [Levels.cell?, Option.bind_eq_some_iff] using h
    have inside : slot < (ℓ.reverse.map fun p => Slot.cell p.2).length := by
      rw [List.length_map]
      exact (List.getElem?_eq_some_iff.1 hx).1
    rw [Activation.slots, List.getElem?_append_right (Nat.le_add_right _ _),
      Nat.add_sub_cancel_left, List.getElem?_cons_succ, List.getElem?_append_left inside,
      List.getElem?_map, hx]
    rfl

theorem Placed.means {c c' : Context} {p : Place} (pl : Placed A nested ℓ c)
    (hr : c.resolve? name = some (c', p)) (hn : name ≠ "")
    (b : c'.Before A.chain A.body.chunk.constants H) (hs : H.size ≤ UInt32.size) :
    Means H A ℓ name p := by
  have find : c.scopes.find name = Syntax.lookup name (Levels.names (ℓ :: A.levels)) := by
    rw [pl.scopes]
    rfl
  have found := lookup_names hn (ℓ :: A.levels)
  obtain ⟨slot, e, rfl⟩ | ⟨i, levels, slot, e, hf, rfl⟩ | ⟨k, key, e, hk, text, rfl⟩ :=
    Compile.resolve?_place hr pl.proper
  · rw [← find, e] at found
    obtain ⟨d, hd, cell⟩ := found
    exact .slot hd (slots_of_cell? cell)
  · rw [← find, e] at found
    obtain ⟨d, hd, cell⟩ := found
    cases levels with
    | zero =>
      have chained := Compile.follow_within b.chain hf
      exact (follow_ne_zero chained).elim
    | succ level =>
      have outer : A.levels.cell? level slot = some d := by
        simpa [Levels.cell?] using cell
      obtain ⟨r, hr, tied⟩ := A.backs.tied i level slot d (Compile.follow_within b.chain hf) outer
      exact .upvalue hd hr tied
  · rw [← find, e] at found
    exact .global found (b.pool hk) (b.heap.string? (text (Nat.le_trans b.heap.size_le hs)))

end Means

section Access

variable {H : Heap} {A : Activation} {τ : Ties} {s : Store} {ip : Nat} {ℓ : List (String × Nat)}
  {θ : List Val} {v : Val} {m : Machine} {c : Nat} {r : Ref}

theorem Store.cell_eq {v : Val} (h : s.cells[c]? = some v) : s.cell c = v := by
  rw [Store.cell, h, Option.getD_some]

/-- A place of the stack has the value of its variable. -/
theorem Rests.slot (r : Rests H A τ s ip ℓ θ m) {i : Nat}
    (hi : (A.slots ℓ θ)[i]? = some (.cell c)) :
    ∃ w, m.stack[i]? = some w ∧ Same τ m.heap (s.cell c) w := by
  obtain ⟨w, hw, v, hv, same⟩ := forall₂_getElem? r.agrees.celled.stack hi
  exact ⟨w, by rwa [← Array.getElem?_toList], by rwa [Store.cell_eq hv]⟩

/-- An upvalue has the value of its variable. -/
theorem Rests.upvalue (r : Rests H A τ s ip ℓ θ m) {u : Ref} (hu : τ.cell u = some c) :
    (∃ i, m.heap.upvalue? u = some (.opened i) ∧ (A.slots ℓ θ)[i]? = some (.cell c)) ∨
    ∃ w, m.heap.upvalue? u = some (.closed w) ∧ Same τ m.heap (s.cell c) w := by
  obtain ⟨v, hv, ⟨i, hi, hu⟩ | ⟨-, w, hw, same⟩⟩ := r.agrees.celled.tied u c hu
  · exact .inl ⟨i, hu, hi⟩
  · exact .inr ⟨w, hw, by rwa [Store.cell_eq hv]⟩

section Evaluation

variable {σ : Site} {name : String}

theorem read_local (h : σ.env.lookup name = some c) : σ.read name s = some (.ok (s.cell c), s) := by
  simp only [Site.read, h]
  rfl

theorem read_global (h : σ.env.lookup name = none) (hg : s.globals name = some v) :
    σ.read name s = some (.ok v, s) := by
  simp only [Site.read, h]
  rw [get_bind_apply, hg]
  rfl

theorem read_undefined (h : σ.env.lookup name = none) (hg : s.globals name = none) :
    σ.read name s = (σ.fail (.undefinedVariable name) : Eval Val) s := by
  simp only [Site.read, h]
  rw [get_bind_apply, hg]

theorem assign_local (h : σ.env.lookup name = some c) :
    σ.assign name v s = some (.ok (), { s with cells := s.cells.setIfInBounds c v }) := by
  simp only [Site.assign, h]
  rfl

theorem assign_global (h : σ.env.lookup name = none) (hg : (s.globals name).isSome) :
    σ.assign name v s = some (.ok (), s.define name v) := by
  simp only [Site.assign, h]
  rw [get_bind_apply, if_pos hg]
  rfl

theorem assign_undefined (h : σ.env.lookup name = none) (hg : ¬(s.globals name).isSome) :
    σ.assign name v s = (σ.fail (.undefinedVariable name) : Eval Unit) s := by
  simp only [Site.assign, h]
  rw [bind_apply]
  show (if (s.globals name).isSome then _ else _ : Eval Unit) s = _
  rw [if_neg hg]

end Evaluation

/-- A place of the stack that has a variable gets another value. -/
theorem Rests.setSlot (r : Rests H A τ s ip ℓ θ m) {i : Nat} {w : Value}
    (hi : (A.slots ℓ θ)[i]? = some (.cell c)) (same : Same τ m.heap v w) :
    Rests H A τ { s with cells := s.cells.setIfInBounds c v } ip ℓ θ
      { m with stack := m.stack.setIfInBounds i w } :=
  ⟨r.frames, r.later, r.agrees.celled.setSlot hi same, r.agrees.backed.cells _, r.agrees.output,
    r.agrees.world⟩

theorem Rests.setUpvalue (r : Rests H A τ s ip ℓ θ m) {u : Ref} {w w' : Value}
    (hu : τ.cell u = some c) (closed : m.heap.upvalue? u = some (.closed w'))
    (same : Same τ m.heap v w) (fits : m.heap.size ≤ UInt32.size) :
    Rests H A τ { s with cells := s.cells.setIfInBounds c v } ip ℓ θ
      { m with heap := m.heap.set u (.upvalue (.closed w)) } :=
  have calm : m.heap.Calm (m.heap.set u (.upvalue (.closed w))) := .set closed w
  ⟨r.frames, r.later.trans ⟨.refl τ, calm.kept⟩, r.agrees.celled.setUpvalue hu closed same,
    (r.agrees.backed.calm calm (.refl τ) rfl rfl (by rwa [Heap.size_set])).cells _,
    r.agrees.output, r.agrees.world⟩

theorem Rests.define (r : Rests H A τ s ip ℓ θ m) {key : Ref} {name : String} {w : Value}
    (hk : m.heap.string? key = some name) (same : Same τ m.heap v w) :
    Rests H A τ (s.define name v) ip ℓ θ
      { m with globals := (m.globals.insert key (Text.hash name) w).1 } :=
  ⟨r.frames, r.later, r.agrees.celled, r.agrees.backed.define hk same, r.agrees.output,
    r.agrees.world⟩

section Steps

variable {nested : Bool} {name : String} {p : Place} {pre post : List Instruction} {n : Nat}

/-- A variable is read. -/
theorem Stands.read (st : Stands H A s ip ℓ θ m) (means : Means H A ℓ name p)
    (code : A.code = pre ++ p.read :: post) (at_ : ip = width pre) :
    Follows n ((do Semantics.put machineLimits (A.site nested ℓ θ) (← (A.site nested ℓ θ).read name) :
      Eval Val) s) m fun v s' m' => Stands H A s' (ip + p.read.size) ℓ (θ ++ [v]) m' := by
  rw [bind_apply]
  cases means with
  | slot found place =>
    rw [read_local (σ := A.site nested ℓ θ) found]
    refine (st.push code at_ fun τ m₁ r => ?_).imp fun v s' m' ⟨hv, hs, st⟩ => hv ▸ hs ▸ st
    obtain ⟨w, hw, same⟩ := r.slot (place θ)
    refine ⟨w, same, fun Q E h => .bind (.frame r.frames (.bind (.slot ?_ fun w' hw' => ?_)))⟩
    · exact (Array.getElem?_eq_some_iff.1 hw).1
    · rwa [Option.some.inj (hw'.symm.trans hw)]
  | @upvalue i c u found hu tied =>
    rw [read_local (σ := A.site nested ℓ θ) found]
    refine (st.push code at_ fun τ m₁ r => ?_).imp fun v s' m' ⟨hv, hs, st⟩ => hv ▸ hs ▸ st
    obtain ⟨j, opened, place⟩ | ⟨w, closed, same⟩ := r.upvalue (r.later.ties.cell u c tied)
    · obtain ⟨w, hw, same⟩ := r.slot place
      refine ⟨w, same, fun Q E h => .bind (.upvalueRef r.frames r.closure hu (.bind (.get ?_)))⟩
      rw [opened]
      refine .bind (.slot (Array.getElem?_eq_some_iff.1 hw).1 fun w' hw' => ?_)
      rwa [Option.some.inj (hw'.symm.trans hw)]
    · refine ⟨w, same, fun Q E h => .bind (.upvalueRef r.frames r.closure hu (.bind (.get ?_)))⟩
      rw [closed]
      exact h
  | @global k key found hk text =>
    have name? {τ : Ties} {m₁ : Machine} (r : Fetched H A τ s (ip + 2) ℓ θ m₁) :
        m₁.heap.string? key = some name := r.agrees.backed.kept.string? text
    cases hg : s.globals name with
    | some v =>
      rw [read_global (σ := A.site nested ℓ θ) found hg]
      refine (st.push code at_ fun τ m₁ r => ?_).imp fun v s' m' ⟨hv, hs, st⟩ => hv ▸ hs ▸ st
      obtain ⟨w, hw, same⟩ := r.agrees.backed.global_some (name? r) hg
      refine ⟨w, same, fun Q E h => .bind (.nameConstant r.frames r.function hk (name? r)
        (.bind (.get ?_)))⟩
      rw [hw]
      exact h
    | none =>
      rw [read_undefined (σ := A.site nested ℓ θ) found hg]
      refine st.fails code at_ rfl fun τ m₁ r => ?_
      refine .bind (.nameConstant r.frames r.function hk (name? r) (.bind (.get ?_)))
      rw [r.agrees.backed.global_none (name? r) hg]
      exact .fail ⟨rfl, r.agrees.output⟩

/-- A variable gets the value on top of the stack, which stays there. -/
theorem Stands.assign (st : Stands H A s ip ℓ (θ ++ [v]) m) (means : Means H A ℓ name p)
    (code : A.code = pre ++ p.assign :: post) (at_ : ip = width pre) :
    Follows n ((do (A.site nested ℓ θ).assign name v; return v : Eval Val) s) m
      fun v s' m' => Stands H A s' (ip + p.assign.size) ℓ (θ ++ [v]) m' := by
  rw [bind_apply]
  cases means with
  | @slot slot c found place =>
    rw [assign_local (σ := A.site nested ℓ θ) found]
    refine (st.advance code at_ (fun τ m₁ r => ?_) fun m' st' => .pure st').less (Nat.le_succ n)
    obtain ⟨stack, w, h, same, -⟩ := r.pop
    have inside : A.below.length + slot.toNat < m₁.stack.size := by
      have := (List.getElem?_eq_some_iff.1 (place (θ ++ [v]))).1
      rwa [r.size]
    exact .bind (.frame r.frames (.bind (ends_peek_push h (.setSlot inside fun _ =>
      ⟨τ, r.toRests.setSlot (place _) same⟩))))
  | @upvalue i c u found hu tied =>
    rw [assign_local (σ := A.site nested ℓ θ) found]
    refine (st.advance code at_ (fun τ m₁ r => ?_) fun m' st' => .pure st').less (Nat.le_succ n)
    obtain ⟨stack, w, h, same, -⟩ := r.pop
    have tied := r.later.ties.cell u c tied
    refine .bind (.upvalueRef r.frames r.closure hu (.bind (ends_peek_push h (.bind (.get ?_)))))
    obtain ⟨j, opened, place⟩ | ⟨w', closed, -⟩ := r.upvalue tied
    · rw [opened]
      have inside : j < m₁.stack.size := by
        have := (List.getElem?_eq_some_iff.1 place).1
        rwa [r.size]
      exact .setSlot inside fun _ => ⟨τ, r.toRests.setSlot place same⟩
    · rw [closed]
      exact .modify fun _ => ⟨τ, r.toRests.setUpvalue tied closed same r.fits⟩
  | @global k key found hk text =>
    have name? {τ : Ties} {m₁ : Machine} (r : Fetched H A τ s (ip + 2) ℓ (θ ++ [v]) m₁) :
        m₁.heap.string? key = some name := r.agrees.backed.kept.string? text
    by_cases hg : (s.globals name).isSome
    · rw [assign_global (σ := A.site nested ℓ θ) found hg]
      refine (st.advance code at_ (fun τ m₁ r => ?_) fun m' st' => .pure st').less (Nat.le_succ n)
      obtain ⟨stack, w, h, same, -⟩ := r.pop
      have old := r.agrees.backed.isNew (name? r) w
      have defined := r.toRests.define (name? r) same
      refine .bind (.nameConstant r.frames r.function hk (name? r) (.bind (ends_peek_push h
        (.bind (.modifyGet ?_)))))
      generalize m₁.globals.insert key (Text.hash name) w = inserted at old defined
      obtain ⟨table, isNew⟩ := inserted
      obtain rfl : isNew = false := old.trans (by simpa using hg)
      exact .pure fun _ => ⟨τ, defined⟩
    · rw [assign_undefined (σ := A.site nested ℓ θ) found hg]
      have fails : Follows n (((A.site nested ℓ θ).fail (.undefinedVariable name) : Eval Unit) s) m
          fun _ _ _ => False := st.fails code at_ rfl fun τ m₁ r => by
        obtain ⟨stack, w, h, same, -⟩ := r.pop
        have old := r.agrees.backed.isNew (name? r) w
        refine .bind (.nameConstant r.frames r.function hk (name? r) (.bind (ends_peek_push h
          (.bind (.modifyGet ?_)))))
        generalize m₁.globals.insert key (Text.hash name) w = inserted at old
        obtain ⟨table, isNew⟩ := inserted
        obtain rfl : isNew = true := old.trans (by simpa using hg)
        exact .bind (.modify (.fail ⟨rfl, r.agrees.output⟩))
      exact fails

end Steps

end Access

end Semantics
end StackScript
