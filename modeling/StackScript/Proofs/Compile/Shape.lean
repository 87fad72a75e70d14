import StackScript.Proofs.Bytecode.Verify
import StackScript.Proofs.Compile.Rooted
import StackScript.Proofs.Compile.Scope

/-!
# StackScript.Proofs.Compile.Shape

Compiled code is sound. Behind a statement the frame has one slot for each local that the compiler
knows there, and a slot may be captured only if its local is marked as captured by then.

* `Context.Supplied`: the operands of a context have a meaning.
* `Context.Marks`: a shape for the locals of a context.
* `ExprCode.segment`, `StmtCode.segment`: the shapes that code leads to.
* `compile_sound`: a source that compiles becomes a sound function.
-/

namespace StackScript
namespace Compile

open Syntax Instruction Bytecode
open Bytecode.Shape (temporaries temporaries_append_cons temporaries_add temporaries_below
  temporaries_succ Below)

namespace Context

/-- What a context has in its pool and on its heap has a meaning. -/
structure Supplied (c : Context) (p : Operands) : Prop where
  constants : Within c.draft.chunk.constants p.constants
  captures : c.draft.captures.size ≤ p.upvalues
  heap : c.heap.Extends p.heap

theorem Grown.supplied {c c' : Context} {p : Operands} (g : c.Grown c') (h : c'.Supplied p) :
    c.Supplied p :=
  ⟨g.draft.constants.trans h.constants, Nat.le_trans g.draft.captures.size_le h.captures,
    g.heap.trans h.heap⟩

theorem Extends.supplied {c c' : Context} {news : List Local} {p : Operands}
    (e : c.Extends news c') (h : c'.Supplied p) : c.Supplied p := by
  obtain ⟨old, -, g, -⟩ := e
  exact g.supplied ⟨h.constants, h.captures, h.heap⟩

theorem supplied_makeReadable {c : Context} {p : Operands} (h : c.makeReadable.Supplied p) :
    c.Supplied p := by
  have same : c.makeReadable.draft.captures = c.draft.captures ∧
      c.makeReadable.draft.chunk.constants = c.draft.chunk.constants ∧
      c.makeReadable.heap = c.heap := by
    unfold makeReadable Draft.makeReadable
    split
    next => cases hl : c.draft.locals <;> exact ⟨rfl, rfl, rfl⟩
    next => exact ⟨rfl, rfl, rfl⟩
  exact ⟨same.2.1 ▸ h.constants, same.1 ▸ h.captures, same.2.2 ▸ h.heap⟩

/-- Slots for the locals of a context. The captured ones may be captured. -/
def Marks (c : Context) (σ : Shape) : Prop :=
  List.Forall₂ (fun l b => l.captured = true → b = true) c.draft.locals σ

theorem Marks.length_eq {c : Context} {σ : Shape} (h : c.Marks σ) :
    c.draft.locals.length = σ.length :=
  List.Forall₂.length_eq h

theorem captured_marked (ls : List Local) :
    List.Forall₂ (fun l b => l.captured = true → b = true) ls (ls.map Local.captured) :=
  List.forall₂_map_right_iff.2 (List.forall₂_same.2 fun _ _ h => h)

theorem forall₂_raised {ls ls' : List Local} {σ : Shape} (h : List.Forall₂ Local.Raised ls ls')
    (h' : List.Forall₂ (fun l b => l.captured = true → b = true) ls' σ) :
    List.Forall₂ (fun l b => l.captured = true → b = true) ls σ := by
  induction h generalizing σ with
  | nil => exact h'
  | cons r _ ih =>
    obtain ⟨b, σ', r', hs, rfl⟩ := List.forall₂_cons_left_iff.1 h'
    exact .cons (r' ∘ r.2.2) (ih hs)

/-- The slots that were there before a statement. -/
theorem Extends.marks {c c' : Context} {news : List Local} {ν σ : Shape} (e : c.Extends news c')
    (h : c'.Marks (ν ++ σ)) (hl : c.draft.locals.length = σ.length) :
    ν.length = news.length ∧ c.Marks σ := by
  obtain ⟨old, he, g, -⟩ := e
  have same : c.draft.locals.length = old.length := List.Forall₂.length_eq g.draft.locals
  unfold Marks at h
  rw [he] at h
  have total := List.Forall₂.length_eq h
  have lengths : news.length = ν.length := by
    simp only [List.length_append] at total
    omega
  have rest := List.forall₂_drop_append _ _ _ h
  rw [← show news.length = _ from lengths, List.drop_left] at rest
  exact ⟨lengths.symm, forall₂_raised g.draft.locals rest⟩

/-- Where nothing is declared there are no new slots. -/
theorem Grown.noSlots {c c' : Context} {ν σ : Shape} (g : c.Grown c') (h : c'.Marks (ν ++ σ))
    (hl : c.draft.locals.length = σ.length) : ν = [] :=
  List.length_eq_zero_iff.1 (g.extends.marks h hl).1

theorem length_readable_le {c : Context} {σ : Shape} (st : c.draft.Settled)
    (hl : c.draft.locals.length = σ.length) : (readable c.draft.locals).length ≤ σ.length := by
  rw [readable_settled st]
  exact Nat.le_of_eq hl

theorem length_readable {d d' : Draft} (h : d.Grown d') :
    (readable d'.locals).length = (readable d.locals).length := by
  rw [← List.length_map Local.name, names_readable h, List.length_map]

end Context

theorem follow_inside {captures : Array Capture} {outer : List (Array Capture)} {i : UInt8}
    {q : Nat × Nat} (h : follow (captures :: outer) i = some q) : i.toNat < captures.size := by
  unfold follow at h
  split at h
  next => cases h
  next hc => exact (Array.getElem?_eq_some_iff.1 hc).1
  next hc => exact (Array.getElem?_eq_some_iff.1 hc).1

theorem slotIn_lt {name : String} {names : List String} {slot : Nat}
    (h : slotIn name names = some slot) : slot < names.length := by
  induction names with
  | nil => cases h
  | cons x names ih =>
    rw [slotIn] at h
    split at h
    next =>
      cases h
      exact Nat.lt_succ_self _
    next => exact Nat.lt_succ_of_lt (ih h)

/-- A variable that is found no function further out is among the locals. -/
theorem find_lt {c : Context} {name : String} {slot : Nat}
    (h : c.scopes.find name = some (0, slot)) : slot < (readable c.draft.locals).length := by
  simp only [Scopes.find, Context.scopes, lookup] at h
  split at h
  next hs =>
    cases h
    simpa using slotIn_lt hs
  next =>
    obtain ⟨_, _, e⟩ := Option.map_eq_some_iff.1 h
    simp at e

section Segments

variable {p : Operands} {S : Ref → Prop}

theorem name_supplied {c c' : Context} {text : String} {k : UInt8}
    (h : c.textConstant? text = some (c', k)) (supplied : c'.Supplied p)
    (hs : p.heap.size ≤ UInt32.size) :
    ∃ r name, p.constants[k.toNat]? = some (.object r) ∧ p.heap.string? r = some name := by
  obtain ⟨r, hr, found⟩ := Context.textConstant?_value h
  exact ⟨r, text, supplied.constants hr,
    supplied.heap.string? (found (Nat.le_trans supplied.heap.size_le hs))⟩

/-- A variable is read and assigned where it can be. -/
theorem segment_place {c c' : Context} {name : String} {q : Place} {σ : Shape}
    (h : c.resolve? name = some (c', q)) (hp : c.Proper) (supplied : c'.Supplied p)
    (hs : p.heap.size ≤ UInt32.size) (hn : name ≠ "") (hr : c.Rooted) (hσ : σ.Rooted) (hl : (readable c.draft.locals).length ≤ σ.length) :
    Segment p S σ [q.read] (false :: σ) ∧ Segment p S (false :: σ) [q.assign] (false :: σ) := by
  obtain ⟨slot, find, rfl⟩ | ⟨i, levels, slot, -, hf, rfl⟩ | ⟨k, r, -, hk, text, rfl⟩ :=
    resolve?_place h hp
  · have inside : slot ≠ 0 ∧ slot.toNat < σ.length :=
      ⟨Context.local_ne_zero h hp hn hr, Nat.lt_of_lt_of_le (find_lt find) hl⟩
    exact ⟨.single (τ := []) hσ rfl inside fun _ _ _ => id,
      .single (τ := [false]) hσ rfl inside fun _ _ _ => id⟩
  · have inside : i.toNat < p.upvalues := Nat.lt_of_lt_of_le (follow_inside hf) supplied.captures
    exact ⟨.single (τ := []) hσ rfl inside fun _ _ _ => id,
      .single (τ := [false]) hσ rfl inside fun _ _ _ => id⟩
  · have known : ∃ r name, p.constants[k.toNat]? = some (.object r) ∧
        p.heap.string? r = some name :=
      ⟨r, name, supplied.constants hk,
        supplied.heap.string? (text (Nat.le_trans supplied.heap.size_le hs))⟩
    exact ⟨.single (τ := []) hσ rfl known fun _ _ _ => id,
      .single (τ := [false]) hσ rfl known fun _ _ _ => id⟩

theorem segment_unary (op : UnaryOperator) {σ : Shape} (hσ : σ.Rooted) :
    Segment p S (false :: σ) [unaryCode op] (false :: σ) := by
  cases op <;> exact .single (τ := [false]) hσ rfl trivial fun _ _ _ => id

theorem segment_binary (op : BinaryOperator) {σ : Shape} (hσ : σ.Rooted) :
    Segment p S (false :: false :: σ) (binaryCode op) (false :: σ) := by
  have two (i : Instruction) (hi : i ∈ [.equal, .greater, .less, .add, .subtract, .multiply,
      .divide]) : Segment p S (false :: false :: σ) [i] (false :: σ) := by
    simp only [List.mem_cons, List.not_mem_nil, or_false] at hi
    rcases hi with rfl | rfl | rfl | rfl | rfl | rfl | rfl <;>
      exact .single (τ := [false, false]) hσ rfl trivial fun _ _ _ => id
  have negated : Segment p S (false :: σ) [.negation] (false :: σ) := segment_unary .negation hσ
  cases op with
  | notEqual => exact (two .equal (by simp)).append negated
  | greaterEqual => exact (two .less (by simp)).append negated
  | lessEqual => exact (two .greater (by simp)).append negated
  | equal => exact two .equal (by simp)
  | greater => exact two .greater (by simp)
  | less => exact two .less (by simp)
  | add => exact two .add (by simp)
  | subtract => exact two .subtract (by simp)
  | multiply => exact two .multiply (by simp)
  | divide => exact two .divide (by simp)

mutual

theorem ExprCode.segment {c c' : Context} {e : Expr} {is : List Instruction}
    (he : ExprCode c e is c') (hs : p.heap.size ≤ UInt32.size) : c.Proper → c'.Supplied p →
    e.Named → c.Rooted → ∀ {σ : Shape}, σ.Rooted → (readable c.draft.locals).length ≤ σ.length →
      Segment p S σ is (false :: σ) := by
  cases he with
  | nil | true | false =>
    intro _ _ _ _ σ hσ _
    exact .single (τ := []) hσ rfl trivial fun _ _ _ => id
  | number h =>
    intro _ supplied _ _ σ hσ _
    obtain ⟨w, hw, -⟩ := Context.addConstant?_value h
    obtain ⟨inside, -⟩ := Array.getElem?_eq_some_iff.1 (supplied.constants hw)
    exact .single (τ := []) hσ rfl inside fun _ _ _ => id
  | string h =>
    intro _ supplied _ _ σ hσ _
    obtain ⟨r, hr, -⟩ := Context.textConstant?_value h
    obtain ⟨inside, -⟩ := Array.getElem?_eq_some_iff.1 (supplied.constants hr)
    exact .single (τ := []) hσ rfl inside fun _ _ _ => id
  | get h =>
    intro hp supplied named hr σ hσ hl
    exact (segment_place h hp supplied hs (Expr.named_get.1 named) hr hσ hl).1
  | set h h₁ =>
    intro hp supplied named hr σ hσ hl
    obtain ⟨hn, named⟩ := Expr.named_set.1 named
    obtain ⟨g, hp₁⟩ := Context.resolve?_grown h hp
    have hr₁ := Context.resolve?_rooted h hn hr
    have supplied₁ := (h₁.grows.grown hp₁).supplied supplied
    have hl₁ := Context.length_readable g.draft ▸ hl
    exact (h₁.segment hs hp₁ supplied named hr₁ hσ hl₁).append
      (segment_place h hp supplied₁ hs hn hr hσ hl).2
  | @unary _ _ op _ _ h₁ =>
    intro hp supplied named hr σ hσ hl
    exact (h₁.segment hs hp supplied named hr hσ hl).append (segment_unary op hσ)
  | @binary _ _ _ op _ _ _ _ h₁ h₂ =>
    intro hp supplied named hr σ hσ hl
    obtain ⟨n₁, n₂⟩ := Expr.named_binary.1 named
    have hp₁ := h₁.grows.proper hp
    have hl₁ := Context.length_readable (h₁.grows.grown hp).draft ▸ hl
    exact (h₁.segment hs hp ((h₂.grows.grown hp₁).supplied supplied) n₁ hr hσ hl).append
      ((h₂.segment hs hp₁ supplied n₂ (h₁.rooted n₁ hr) (hσ.cons false)
        (Nat.le_succ_of_le hl₁)).append (segment_binary op hσ))
  | and h₁ h₂ hw =>
    intro hp supplied named hr σ hσ hl
    obtain ⟨n₁, n₂⟩ := Expr.named_and.1 named
    have hp₁ := h₁.grows.proper hp
    have hl₁ := Context.length_readable (h₁.grows.grown hp).draft ▸ hl
    exact (h₁.segment hs hp ((h₂.grows.grown hp₁).supplied supplied) n₁ hr hσ hl).append
      (.andCode hσ (h₂.segment hs hp₁ supplied n₂ (h₁.rooted n₁ hr) hσ hl₁) hw)
  | or h₁ h₂ hw =>
    intro hp supplied named hr σ hσ hl
    obtain ⟨n₁, n₂⟩ := Expr.named_or.1 named
    have hp₁ := h₁.grows.proper hp
    have hl₁ := Context.length_readable (h₁.grows.grown hp).draft ▸ hl
    exact (h₁.segment hs hp ((h₂.grows.grown hp₁).supplied supplied) n₁ hr hσ hl).append
      (.orCode hσ (h₂.segment hs hp₁ supplied n₂ (h₁.rooted n₁ hr) hσ hl₁) hw)
  | @call _ _ _ _ es _ _ h₁ h₂ hn =>
    intro hp supplied named hr σ hσ hl
    obtain ⟨n₁, n₂⟩ := Expr.named_call.1 named
    have hp₁ := h₁.grows.proper hp
    have hl₁ := Context.length_readable (h₁.grows.grown hp).draft ▸ hl
    have count : es.length.toUInt8.toNat = es.length := by
      have : es.length < 256 := Nat.lt_succ_of_le hn
      simpa using this
    refine (h₁.segment hs hp ((h₂.grows.grown hp₁).supplied supplied) n₁ hr hσ hl).append
      ((h₂.segment hs hp₁ supplied n₂ (h₁.rooted n₁ hr) (hσ.cons false)
        (Nat.le_succ_of_le hl₁)).append ?_)
    have h : Segment p S (temporaries (es.length.toUInt8.toNat + 1) ++ σ)
        [.call es.length.toUInt8] (false :: σ) := .single hσ rfl trivial fun _ _ _ => id
    rwa [count, ← temporaries_append_cons] at h
  | index h₁ h₂ =>
    intro hp supplied named hr σ hσ hl
    obtain ⟨n₁, n₂⟩ := Expr.named_index.1 named
    have hp₁ := h₁.grows.proper hp
    have hl₁ := Context.length_readable (h₁.grows.grown hp).draft ▸ hl
    exact (h₁.segment hs hp ((h₂.grows.grown hp₁).supplied supplied) n₁ hr hσ hl).append
      ((h₂.segment hs hp₁ supplied n₂ (h₁.rooted n₁ hr) (hσ.cons false)
        (Nat.le_succ_of_le hl₁)).append
        (.single (τ := [false, false]) hσ rfl trivial fun _ _ _ => id))
  | setIndex h₁ h₂ h₃ =>
    intro hp supplied named hr σ hσ hl
    obtain ⟨n₁, n₂, n₃⟩ := Expr.named_setIndex.1 named
    have hp₁ := h₁.grows.proper hp
    have hp₂ := h₂.grows.proper hp₁
    have hr₁ := h₁.rooted n₁ hr
    have supplied₂ := (h₃.grows.grown hp₂).supplied supplied
    have hl₁ := Context.length_readable (h₁.grows.grown hp).draft ▸ hl
    have hl₂ := Context.length_readable (h₂.grows.grown hp₁).draft ▸ hl₁
    exact (h₁.segment hs hp ((h₂.grows.grown hp₁).supplied supplied₂) n₁ hr hσ hl).append
      ((h₂.segment hs hp₁ supplied₂ n₂ hr₁ (hσ.cons false) (Nat.le_succ_of_le hl₁)).append
        ((h₃.segment hs hp₂ supplied n₃ (h₂.rooted n₂ hr₁) ((hσ.cons false).cons false)
          (Nat.le_succ_of_le (Nat.le_succ_of_le hl₂))).append
          (.single (τ := [false, false, false]) hσ rfl trivial fun _ _ _ => id)))
  | @array _ _ es _ h₁ hn =>
    intro hp supplied named hr σ hσ hl
    have count : es.length.toUInt8.toNat = es.length := by
      have : es.length < 256 := Nat.lt_succ_of_le hn
      simpa using this
    refine (h₁.segment hs hp supplied named hr hσ hl).append ?_
    have h : Segment p S (temporaries es.length.toUInt8.toNat ++ σ)
        [.array es.length.toUInt8] (false :: σ) := .single hσ rfl trivial fun _ _ _ => id
    rwa [count] at h

theorem ExprsCode.segment {c c' : Context} {es : Exprs} {is : List Instruction}
    (he : ExprsCode c es is c') (hs : p.heap.size ≤ UInt32.size) : c.Proper → c'.Supplied p →
    es.Named → c.Rooted → ∀ {σ : Shape}, σ.Rooted → (readable c.draft.locals).length ≤ σ.length →
      Segment p S σ is (temporaries es.length ++ σ) := by
  cases he with
  | nil =>
    intro _ _ _ _ σ _ _
    exact .nil σ
  | cons h₁ h₂ =>
    intro hp supplied named hr σ hσ hl
    obtain ⟨n₁, n₂⟩ := Exprs.named_cons.1 named
    have hp₁ := h₁.grows.proper hp
    have hl₁ := Context.length_readable (h₁.grows.grown hp).draft ▸ hl
    have h := h₂.segment hs hp₁ supplied n₂ (h₁.rooted n₁ hr) (hσ.cons false)
      (Nat.le_succ_of_le hl₁)
    rw [temporaries_append_cons] at h
    exact (h₁.segment hs hp ((h₂.grows.grown hp₁).supplied supplied) n₁ hr hσ hl).append h

end

theorem ClauseCode.segment {c c' : Context} {e : Option Expr} {is : Option (List Instruction)}
    (he : ClauseCode c e is c') (hs : p.heap.size ≤ UInt32.size) (hp : c.Proper)
    (supplied : c'.Supplied p) (named : ∀ a ∈ e, a.Named) (hr : c.Rooted) {σ : Shape}
    (hσ : σ.Rooted) (hl : (readable c.draft.locals).length ≤ σ.length) :
    ∀ js ∈ is, Segment p S σ js (false :: σ) := by
  cases he with
  | absent => simp
  | present he =>
    rintro js ⟨⟩
    exact he.segment hs hp supplied (named _ rfl) hr hσ hl

/-- The end of a scope takes its slots from the stack, the captured ones in the way that is made
for them. -/
theorem segment_scopeCode (ls : List Local) {σ : Shape} (hσ : σ.Rooted) :
    Segment p S (ls.map Local.captured ++ σ)
      (ls.map fun l => if l.captured then .closeUpvalue else .pop) σ := by
  induction ls with
  | nil => exact .nil σ
  | cons l ls ih =>
    rw [List.map_cons, List.map_cons, List.cons_append]
    refine Segment.append (?_ : Segment p S _ [_] _) ih
    cases l.captured with
    | true => exact .single (i := .closeUpvalue) (τ := [true]) (hσ.append _) rfl trivial fun _ _ _ => id
    | false => exact .single (i := .pop) (τ := [false]) (hσ.append _) rfl trivial fun _ _ _ => id

/-- The code of a body, followed by its last return, is that of a sound function. -/
theorem sound_body {h : Heap} {r : Ref} {f : Function} {is : List Instruction} {σ σ' : Shape}
    (hf : h.function? r = some f)
    (hc : f.chunk.code.toList = stream (is ++ [.pushNil, .ret]))
    (hl : f.chunk.lines.size = width (is ++ [.pushNil, .ret])) (ha : σ.length = f.arity + 1)
    (hσ : σ'.Rooted) (hn : f.name = none → σ'.length = 1)
    (body : Segment ⟨h, f.chunk.constants, f.upvalueCount⟩ (Sound h) σ is σ') : Sound h r := by
  obtain ⟨c, rfl, makes, fine⟩ := body
  let c' : Layout := c ++ [(σ', .plain .pushNil), (false :: σ', .plain .ret)]
  have code : c'.code = c.code ++ [.pushNil, .ret] := by simp [c', Item.code]
  have marked : Layout.Marked c'.At 0 c' := Layout.marked_at [] c'
  obtain ⟨m, first, second, -⟩ := Layout.marked_append.1 marked
  obtain ⟨start, inner⟩ := fine c'.At 0 c'.lower_at m first
  have all : Layout.AllFine ⟨h, f.chunk.constants, f.upvalueCount⟩ c'.At 0 c' :=
    Layout.allFine_append.2 ⟨inner, ⟨[], σ', rfl, hσ, rfl, trivial, second⟩,
      ⟨[false], σ', rfl, hσ, rfl, trivial, trivial⟩, trivial⟩
  have size : f.chunk.code.size = width c.code + 2 := by
    rw [← Array.length_toList, hc, length_stream, width_append]
    rfl
  refine .intro (c := c') hf ⟨code ▸ hc, ?_, ?_, fun pre τ x post e => ?_, fun none τ at_ => ?_,
    fun pre τ x post e lt => ?_⟩ ?_
  · rw [hl, ← Array.length_toList, hc, length_stream]
  · rw [← ha]
    exact c'.lower_at (temporaries_below σ) start
  · have := all.fine e
    rwa [Nat.zero_add] at this
  · rw [size, Nat.add_sub_cancel] at at_
    rw [← at_.start.2, ← hn none]
    exact Layout.depth_eq c [(false :: σ', .plain .ret)]
  · rw [size, Nat.add_sub_cancel] at lt ⊢
    have inside : Layout.AllFine ⟨h, f.chunk.constants, f.upvalueCount⟩
        (fun o _ => o ≤ width c.code) 0 c :=
      (fine _ 0 (fun _ _ _ _ le => le) (Layout.marked_le (Nat.le_of_eq (Nat.zero_add _)))
        (Nat.le_of_eq (Nat.zero_add _))).2
    obtain ⟨rest, rfl⟩ := Layout.split_of_lt e lt
    rw [← Nat.zero_add (width pre.code)]
    exact inside.fine rfl
  · intro τ k captures r' hm
    refine (makes.append ?_) τ k captures r' hm
    exact .cons (.cons .nil)

theorem linked_captures {c c' : Context} {σ ν : Shape} {self : Bool} (linked : c.draft.Linked c'.draft)
    (supplied : c'.Supplied p) (hm : c'.Marks (ν ++ σ))
    (hσ : ν = [self] ∨ ν = []) :
    ∀ x ∈ c.draft.captures.toList, Captures p σ self x := by
  intro x hx
  have := linked x (Array.mem_toList_iff.1 hx)
  unfold Captures
  split at this
  next hl =>
    obtain ⟨l, hl', captured⟩ := this
    obtain ⟨b, hb, raised⟩ := forall₂_getElem? (List.forall₂_reverse_iff.2 hm) hl'
    rw [if_pos hl, List.reverse_cons]
    obtain rfl | rfl := hσ
    · rw [List.reverse_append, List.reverse_singleton] at hb
      rw [hb, raised captured]
    · rw [List.nil_append] at hb
      obtain ⟨inside, -⟩ := List.getElem?_eq_some_iff.1 hb
      rw [List.getElem?_append_left inside, hb, raised captured]
  next hl =>
    rw [if_neg hl]
    exact Nat.lt_of_lt_of_le this supplied.captures

end Segments

theorem length_newVariable? {c c' : Context} {name : String} {k : UInt8}
    (h : c.newVariable? name = some (c', k)) (st : c.draft.Settled) :
    (readable c'.draft.locals).length = c.draft.locals.length := by
  have names := congrArg Scopes.names (Context.scopes_newVariable? h st)
  simp only [Context.scopes, readable_settled st] at names
  rw [← List.length_map Local.name, names, List.length_map]

/-- A variable that is declared has its slot, or is defined by its name. -/
theorem segment_definition {p : Operands} {S : Ref → Prop} {c c₁ c' : Context} {name : String}
    {k : UInt8} {b : Bool} {ν σ : Shape} (hv : c.newVariable? name = some (c₁, k))
    (depth : c'.draft.depth = c.draft.depth) (supplied : c₁.Supplied p)
    (hs : p.heap.size ≤ UInt32.size) (hσ : σ.Rooted)
    (h : (0 < c.draft.depth ∧ Below [b] ν) ∨ (c.draft.depth = 0 ∧ ν = [] ∧ b = false)) :
    Segment p S (b :: σ) (c'.definition k) (ν ++ σ) := by
  rw [Context.definition, depth]
  obtain ⟨hd, below⟩ | ⟨hd, rfl, rfl⟩ := h
  · rw [if_pos hd]
    exact (Segment.nil (b :: σ)).weaken (List.rel_append below (Below.refl σ))
  · have hd : ¬0 < c.draft.depth := by omega
    rw [if_neg hd]
    rw [Context.newVariable?, if_neg hd] at hv
    exact .single (i := .defineGlobal k) (τ := [false]) hσ rfl (name_supplied hv supplied hs)
      fun _ _ _ => id

/-- There is a new slot unless the variable is global. -/
theorem new_slots {d : Nat} {names : List String} {name : String} {n : Nat} {ν : Shape}
    (hn : ν.length = n) (names' : names = if 0 < d then [name] else []) (hl : names.length = n) :
    (0 < d ∧ ∃ b, ν = [b]) ∨ (d = 0 ∧ ν = []) := by
  subst names'
  by_cases hd : 0 < d
  · rw [if_pos hd] at hl
    exact .inl ⟨hd, List.length_eq_one_iff.1 (hn.trans hl.symm)⟩
  · rw [if_neg hd] at hl
    exact .inr ⟨by omega, List.length_eq_zero_iff.1 (hn.trans hl.symm)⟩

/-- The slots for the locals of a function, the lowest of them that of the function itself. -/
theorem rooted_captured {d : Draft} (h : d.Rooted) : Shape.Rooted (d.locals.map Local.captured) := by
  obtain ⟨l, last, -, free⟩ := h
  rw [Shape.Rooted, List.getLast?_map, last, Option.map_some, free]

/-- The function that a declaration leaves on the heap is sound, given the shapes that its body leads
to. -/
theorem sound_function {h : Heap} {c c₂ c₃ : Context} {name : String} {xs : List String} {a : Stmt}
    {is : List Instruction} {lines : Array Nat}
    (hx : (c.enterFunction name).addParameters? xs = some c₂) (hb : StmtCode c₂ a is c₃)
    (hlines : lines.size = width (is ++ [.pushNil, .ret])) (hp : c.Proper) (st : c.draft.Settled)
    (hs : h.size ≤ UInt32.size) (hr : c₃.Rooted)
    (last : Heap.Extends (c₃.heap.allocate
      (.function (c₃.finish (stream (is ++ [.pushNil, .ret])) lines))).1 h)
    (body : ∀ {p : Operands}, p.heap = h → c₃.Supplied p → ∀ {ν σ : Shape}, σ.Rooted →
      c₃.Marks (ν ++ σ) → c₂.draft.locals.length = σ.length → Segment p (Sound h) σ is (ν ++ σ)) :
    Sound h (c₃.heap.allocate
      (.function (c₃.finish (stream (is ++ [.pushNil, .ret])) lines))).2 := by
  obtain ⟨hp₂, st₂, -, -, -, locals, -, arity, -⟩ := Context.enterFunction_proper hx hp st
  obtain ⟨news₂, e₂, -, -⟩ := hb.extends hp₂ st₂
  have count := e₂.length
  obtain ⟨old, -, g, -⟩ := e₂
  let f := c₃.finish (stream (is ++ [.pushNil, .ret])) lines
  have marks := Context.captured_marked c₃.draft.locals
  have rooted := rooted_captured hr.draft
  rw [← List.take_append_drop news₂.length (c₃.draft.locals.map Local.captured)] at marks rooted
  have inner : c₂.draft.locals.length =
      ((c₃.draft.locals.map Local.captured).drop news₂.length).length := by
    rw [List.length_drop, List.length_map]
    omega
  have supplied₃ : c₃.Supplied ⟨h, c₃.draft.chunk.constants, c₃.draft.captures.size⟩ :=
    ⟨.refl _, Nat.le_refl _, (c₃.heap.extends_allocate _).trans last⟩
  have some_ : (c₃.draft.locals.map Local.captured).drop news₂.length ≠ [] := by
    intro none
    rw [none, locals] at inner
    simp at inner
  have named : f.name ≠ none := by
    have same : c₃.draft.name = c₂.draft.name := g.draft.name
    exact fun e => Context.enterFunction_named hx (same ▸ e)
  refine sound_body (f := f) (last.function?_allocate hs) rfl hlines ?_ rooted (absurd · named)
    (body rfl supplied₃ (rooted.ofAppend some_) marks inner)
  have arity : f.arity = xs.length := g.draft.arity.trans arity
  rw [arity, ← inner, locals]
  simp [Context.parameters]

/-- The slots behind a statement are those of the locals there. -/
theorem StmtCode.segment {c c' : Context} {a : Stmt} {is : List Instruction}
    (ha : StmtCode c a is c') {h : Heap} (hs : h.size ≤ UInt32.size) :
    ∀ {p : Operands}, p.heap = h → c.Proper → c.draft.Settled → c'.Supplied p → a.Named →
      c.Rooted → ∀ {ν σ : Shape}, σ.Rooted → c'.Marks (ν ++ σ) →
        c.draft.locals.length = σ.length → Segment p (Sound h) σ is (ν ++ σ) := by
  induction ha with
  | empty =>
    intro p _ _ _ _ _ _ ν σ _ hm hl
    obtain rfl := (Context.Grown.refl _).noSlots hm hl
    exact .nil σ
  | @seq c c₁ c' a b is js ha hb ih ih' =>
    intro p hh hp st supplied named hr ν σ hσ hm hl
    obtain ⟨news, e, hp₁, -⟩ := ha.extends hp st
    obtain ⟨news', e', -, -⟩ := hb.extends hp₁ (e.settled st)
    have l := e.length
    have l' := e'.length
    have total := hm.length_eq
    rw [List.length_append] at total
    obtain ⟨σa, σb, rfl, inner⟩ : ∃ σa σb, ν = σa ++ σb ∧ c₁.draft.locals.length = (σb ++ σ).length :=
      ⟨ν.take news'.length, ν.drop news'.length, (List.take_append_drop ..).symm, by
        rw [List.length_append, List.length_drop]
        omega⟩
    rw [List.append_assoc] at hm ⊢
    exact (ih hh hp st (e'.supplied supplied) named.1 hr hσ (e'.marks hm inner).2 hl).append
      (ih' hh hp₁ (e.settled st) supplied named.2 (ha.rooted named.1 hp st hr) (hσ.append σb) hm
        inner)
  | expression he =>
    intro p hh hp st supplied named hr ν σ hσ hm hl
    obtain rfl := (he.grows.grown hp).noSlots hm hl
    exact (he.segment (hh ▸ hs) hp supplied named hr hσ (Context.length_readable_le st hl)).append
      (.single (τ := [false]) hσ rfl trivial fun _ _ _ => id)
  | print he =>
    intro p hh hp st supplied named hr ν σ hσ hm hl
    obtain rfl := (he.grows.grown hp).noSlots hm hl
    exact (he.segment (hh ▸ hs) hp supplied named hr hσ (Context.length_readable_le st hl)).append
      (.single (τ := [false]) hσ rfl trivial fun _ _ _ => id)
  | @var c c₁ c' name k e is hv he =>
    intro p hh hp st supplied named hr ν σ hσ hm hl
    obtain ⟨news, e, -, names, -⟩ := Context.extends_variable hv hp he.grows
    have hp₁ := Context.newVariable?_proper hv hp
    have supplied' := Context.supplied_makeReadable supplied
    have slots := new_slots (e.marks hm hl).1 names (List.length_map _)
    refine (he.segment (hh ▸ hs) hp₁ supplied' named (Context.newVariable?_rooted hv hr) hσ
      ?_).append (segment_definition hv ((Context.depth_makeReadable c').symm.trans e.depth)
        ((he.grows.grown hp₁).supplied supplied') (hh ▸ hs) hσ ?_)
    · rw [length_newVariable? hv st]
      exact Nat.le_of_eq hl
    · obtain ⟨hd, b, rfl⟩ | ⟨hd, rfl⟩ := slots
      · exact .inl ⟨hd, temporaries_below [b]⟩
      · exact .inr ⟨hd, rfl, rfl⟩
  | @block c c' a is ha ih =>
    intro p hh hp st supplied named hr ν σ hσ hm hl
    have hp₁ := Context.openScope_proper hp
    have st₁ := Context.openScope_settled st
    obtain ⟨news, e, -, -⟩ := ha.extends hp₁ st₁
    obtain ⟨code, g, locals⟩ := e.closeScope st
    obtain rfl := g.noSlots hm hl
    have marks : c'.Marks (news.map Local.captured ++ σ) := by
      rw [Context.Marks, locals]
      exact List.rel_append (Context.captured_marked _) hm
    rw [code]
    exact (ih hh hp₁ st₁ ⟨supplied.constants, supplied.captures, supplied.heap⟩ named
      ⟨hr.draft, hr.enclosing⟩ hσ marks hl).append (segment_scopeCode news hσ)
  | ifElse he ha hb n n' hw hw' ih ih' =>
    intro p hh hp st supplied named hr ν σ hσ hm hl
    have hp₁ := he.grows.proper hp
    have g := he.grows.grown hp
    have st₁ := g.draft.settled st
    obtain ⟨news, e, hp₂, names⟩ := ha.extends hp₁ st₁
    rw [Stmt.declared_of_declaresNothing n, ite_self] at names
    have g' := e.ofNames names
    have st₂ := g'.draft.settled st₁
    obtain ⟨news', e', -, names'⟩ := hb.extends hp₂ st₂
    rw [Stmt.declared_of_declaresNothing n', ite_self] at names'
    have g'' := e'.ofNames names'
    obtain rfl := (g.trans (g'.trans g'')).noSlots hm hl
    have supplied₂ := g''.supplied supplied
    have hl₁ := g.extends.length.trans ((Nat.zero_add _).trans hl)
    have hl₂ := g'.extends.length.trans ((Nat.zero_add _).trans hl₁)
    have marks₂ := (g''.extends.marks (ν := []) hm hl₂).2
    have condition := he.segment (S := Sound h) (hh ▸ hs) hp (g'.supplied supplied₂) named.1 hr hσ
      (Context.length_readable_le st hl)
    have hr₁ := he.rooted named.1 hr
    have hr₂ := ha.rooted named.2.1 hp₁ st₁ hr₁
    exact condition.append (.choiceCode hσ
      (ih hh hp₁ st₁ supplied₂ named.2.1 hr₁ (ν := []) hσ marks₂ hl₁)
      (ih' hh hp₂ st₂ supplied named.2.2 hr₂ (ν := []) hσ hm hl₂) hw hw')
  | «while» he ha n fits ih =>
    intro p hh hp st supplied named hr ν σ hσ hm hl
    have hp₁ := he.grows.proper hp
    have g := he.grows.grown hp
    have st₁ := g.draft.settled st
    obtain ⟨news, e, -, names⟩ := ha.extends hp₁ st₁
    rw [Stmt.declared_of_declaresNothing n, ite_self] at names
    have g' := e.ofNames names
    obtain rfl := (g.trans g').noSlots hm hl
    have hl₁ := g.extends.length.trans ((Nat.zero_add _).trans hl)
    refine .loopCode hσ (fun js hj => ?_) (by simp)
      (ih hh hp₁ st₁ supplied named.2 (he.rooted named.1 hr) (ν := []) hσ hm hl₁) fits
    cases hj
    exact he.segment (hh ▸ hs) hp (g'.supplied supplied) named.1 hr hσ
      (Context.length_readable_le st hl)
  | @«for» c c₁ c₂ c₃ c' i a _ _ _ _ _ _ hi h₁ h₂ ha n fits ih ih' =>
    intro p hh hp st supplied named hr ν σ hσ hm hl
    have hp₀ := Context.openScope_proper hp
    have st₀ := Context.openScope_settled st
    have supplied' : c'.Supplied p := ⟨supplied.constants, supplied.captures, supplied.heap⟩
    obtain ⟨news, e, hp₁, -⟩ := hi.extends hp₀ st₀
    have st₁ := e.settled st₀
    have g₂ := h₁.grows.grown hp₁
    have hp₂ := h₁.grows.proper hp₁
    have st₂ := g₂.draft.settled st₁
    have g₃ := h₂.grows.grown hp₂
    have hp₃ := h₂.grows.proper hp₂
    have st₃ := g₃.draft.settled st₂
    obtain ⟨news', e', -, names'⟩ := ha.extends hp₃ st₃
    rw [Stmt.declared_of_declaresNothing n, ite_self] at names'
    have g' := e'.ofNames names'
    obtain ⟨news₁, raised, e₁⟩ := e.transGrown (g₂.trans (g₃.trans g'))
    obtain ⟨code, g, locals⟩ := e₁.closeScope st
    obtain rfl := g.noSlots hm hl
    have marks : c'.Marks (news₁.map Local.captured ++ σ) := by
      rw [Context.Marks, locals]
      exact List.rel_append (Context.captured_marked _) hm
    have total := marks.length_eq
    have length₃ := g'.extends.length
    have length₂ := g₃.extends.length
    have length₁ := g₂.extends.length
    simp only [List.length_nil, Nat.zero_add] at length₁ length₂ length₃
    have supplied₃ := g'.supplied supplied'
    have supplied₂ := g₃.supplied supplied₃
    have hl₃ := length₃.symm.trans total
    have hl₂ := length₂.symm.trans hl₃
    have hl₁ := length₁.symm.trans hl₂
    have marks₁ := ((g₂.trans (g₃.trans g')).extends.marks (ν := []) marks hl₁).2
    obtain ⟨n, n₁, n₂, na⟩ := named
    have hr₀ : c.openScope.Rooted := ⟨hr.draft, hr.enclosing⟩
    have hr₁ := hi.rooted n hp₀ st₀ hr₀
    have hr₂ := h₁.rooted n₁ hr₁
    have inner := hσ.append (news₁.map Local.captured)
    rw [code]
    refine (ih hh hp₀ st₀ (g₂.supplied supplied₂) n hr₀ hσ marks₁ hl).append
      (Segment.append (.loopCode inner ?_ ?_
        (ih' hh hp₃ st₃ supplied' na (h₂.rooted n₂ hr₂) (ν := []) inner marks hl₃) fits)
        (segment_scopeCode news₁ hσ))
    · exact h₁.segment (hh ▸ hs) hp₁ supplied₂ n₁ hr₁ inner (Context.length_readable_le st₁ hl₁)
    · exact h₂.segment (hh ▸ hs) hp₂ supplied₃ n₂ hr₂ inner (Context.length_readable_le st₂ hl₂)
  | «return» _ he =>
    intro p hh hp st supplied named hr ν σ hσ hm hl
    obtain rfl := (he.grows.grown hp).noSlots hm hl
    exact (he.segment (hh ▸ hs) hp supplied named hr hσ (Context.length_readable_le st hl)).append
      (.single (i := .ret) (τ := [false]) hσ rfl trivial fun _ _ _ _ => trivial)
  | @function c c₁ c₂ c₃ c' name k k' xs a is lines hv hx hb hlines hc ih =>
    intro p hh hp st supplied named hr ν σ hσ hm hl
    obtain ⟨news, e, hp₁, names, head⟩ := Context.extends_variable hv hp (.refl _)
    obtain ⟨hp₂, st₂, around, heap, -, -, -, -, -⟩ :=
      Context.enterFunction_proper hx hp₁ (e.settled st)
    obtain ⟨news₂, e₂, hp₃, -⟩ := hb.extends hp₂ st₂
    obtain ⟨old, -, g, -⟩ := e₂
    have growns := g.enclosing
    rw [around] at growns
    obtain ⟨grown, -, linked, -, heap', constant⟩ :=
      Context.leaveFunction?_grown hc hp₃ growns (heap.trans g.heap)
    have readable := Context.makeReadable_grown grown e.depth head
    obtain ⟨news₁, raised, ext⟩ := e.transGrown grown
    rw [readable] at hm supplied
    have last := heap' ▸ supplied.heap
    have object := (last : Heap.Extends _ p.heap).function?_allocate (hh ▸ hs)
    have hr₂ := Context.enterFunction_rooted hx hp₁ (e.settled st)
      (Context.makeReadable_rooted (Context.newVariable?_rooted hv hr))
    have sound := sound_function hx hb hlines hp₁ (e.settled st) hs (hb.rooted named hp₂ st₂ hr₂)
      (hh ▸ last) fun hh supplied₃ _ _ root marks inner =>
        ih hh hp₂ st₂ supplied₃ named hr₂ root marks inner
    have closure {self : Bool} (slots : ν = [self] ∨ ν = []) :
        Segment p (Sound h) σ (c₃.closureCode k') (self :: σ) :=
      .closure hσ (supplied.constants constant) object (by simp [Context.finish])
        (linked_captures linked supplied hm slots) sound
    have supplied₁ := Context.supplied_makeReadable (grown.supplied supplied)
    obtain ⟨hd, b, rfl⟩ | ⟨hd, rfl⟩ := new_slots (ext.marks hm hl).1
      ((Context.names_of_raised raised).trans names) (List.length_map _)
    · exact (closure (.inl rfl)).append (segment_definition hv ext.depth supplied₁ (hh ▸ hs) hσ
        (.inl ⟨hd, .refl [b]⟩))
    · exact (closure (.inr rfl)).append (segment_definition hv ext.depth supplied₁ (hh ▸ hs) hσ
        (.inr ⟨hd, rfl, rfl⟩))

/-- A source that compiles becomes a sound function without parameters and upvalues. -/
theorem compile_sound {source : String} {heap : Heap} {r : Ref}
    (hc : (compile source heap).result = .ok r)
    (hs : (compile source heap).heap.size ≤ UInt32.size) :
    Sound (compile source heap).heap r ∧ ∃ f, (compile source heap).heap.function? r = some f ∧
      f.arity = 0 ∧ f.upvalueCount = 0 := by
  obtain ⟨a, f, heap', parses, code, allocated⟩ := compile_ok hc
  cases code with
  | @intro c _ is lines code hlines =>
    obtain ⟨g, hp, outer, captures⟩ := Context.script_extends code
    let f := c.finish (stream (is ++ [.pushNil, .ret])) lines
    have last : Heap.Extends (c.heap.allocate (.function f)).1 (compile source heap).heap := by
      rw [allocated]
      exact .refl _
    have found := last.function?_allocate hs
    rw [allocated] at found
    have supplied : c.Supplied ⟨(compile source heap).heap, f.chunk.constants, f.upvalueCount⟩ :=
      ⟨.refl _, Nat.le_refl _, (c.heap.extends_allocate _).trans last⟩
    have marks := Context.captured_marked c.draft.locals
    have rooted := rooted_captured (code.rooted parses.named (Context.script_proper heap)
      (Context.script_settled heap) (Context.script_rooted heap)).draft
    have body := code.segment hs rfl (Context.script_proper heap) (Context.script_settled heap)
      supplied parses.named (Context.script_rooted heap) (ν := []) rooted marks
      ((List.Forall₂.length_eq g.draft.locals).trans (List.length_map _).symm)
    have arity : f.arity = 0 := g.draft.arity
    have alone : (c.draft.locals.map Local.captured).length = 1 := by
      rw [List.length_map, ← List.Forall₂.length_eq g.draft.locals]
      rfl
    refine ⟨sound_body found rfl hlines ?_ rooted (fun _ => alone) body, f, found, arity,
      congrArg Array.size captures⟩
    rw [arity, alone]

end Compile
end StackScript
