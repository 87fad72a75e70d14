import StackScript.Proofs.Semantics.Backed

/-!
# StackScript.Proofs.Semantics.Shown

What `print` shows and what natives return is the same for a store and for a machine that has what
the store has.
-/

namespace StackScript
namespace Semantics

open Machine (Refusal Answer World)

variable {H : Heap} {τ : Ties} {s : Store} {t : Table Value} {h : Heap}

theorem Same.displayUpTo (b : Backed H τ s t h) (levels : Nat) : ∀ {v : Val} {w : Value},
    Same τ h v w → h.displayUpTo levels w = s.displayUpTo levels v := by
  have closure {id : Nat} {r : Ref} (levels : Nat) (hr : τ.closures[id]? = some r) :
      h.displayUpTo levels (.object r) = s.displayUpTo levels (.closure id) := by
    obtain ⟨f, k, g, chain, ls, hf, hk, realizes⟩ := b.stored.closure hr
    obtain ⟨name, hn, text⟩ := realizes.name
    rw [Heap.displayUpTo, Heap.closure?_eq_some.1 hk, Store.displayUpTo, hf]
    dsimp only
    rw [b.kept.function? realizes.function]
    dsimp only
    rw [Heap.displayFunction, hn, Option.bind_some, b.kept.string? text]
  have native {n : Builtin} {r : Ref} (levels : Nat)
      (hr : h.native? r = some ⟨n.name, n.arity, .builtin n⟩) :
      h.displayUpTo levels (.object r) = s.displayUpTo levels (.native n) := by
    rw [Heap.displayUpTo, Heap.native?_eq_some.1 hr, Store.displayUpTo]
  have string {text : String} {r : Ref} (levels : Nat) (hr : h.string? r = some text) :
      h.displayUpTo levels (.object r) = s.displayUpTo levels (.string text) := by
    rw [Heap.displayUpTo, Heap.string?_eq_some.1 hr, Store.displayUpTo]
  induction levels with
  | zero =>
    intro v w e
    cases e with
    | nil | bool | number =>
      rw [Heap.displayUpTo, Store.displayUpTo]
    | string hr => exact string 0 hr
    | array hr =>
      obtain ⟨xs, ys, hxs, hys, -⟩ := b.stored.array hr
      rw [Heap.displayUpTo, Heap.array?_eq_some.1 hys, Store.displayUpTo]
    | closure hr => exact closure 0 hr
    | native hr => exact native 0 hr
  | succ levels ih =>
    intro v w e
    cases e with
    | nil | bool | number =>
      rw [Heap.displayUpTo, Store.displayUpTo]
    | string hr => exact string _ hr
    | @array id r hr =>
      obtain ⟨xs, ys, hxs, hys, each⟩ := b.stored.array hr
      have elements : s.elements id = xs := by rw [Store.elements, hxs, Option.getD_some]
      rw [Heap.displayUpTo, Heap.array?_eq_some.1 hys, Store.displayUpTo, elements]
      dsimp only
      rw [forall₂_map_eq each fun _ _ e => ih e]
    | closure hr => exact closure _ hr
    | native hr => exact native _ hr

theorem Same.display (b : Backed H τ s t h) {v : Val} {w : Value} (e : Same τ h v w) :
    h.display w = s.display v :=
  e.displayUpTo b _

section Natives

variable {n : Builtin} {v : Val} {w : Value}

theorem Same.numberArgument (b : Backed H τ s t h) (e : Same τ h v w) :
    Machine.numberArgument n.name h w = Store.numberArgument n v := by
  have types := e.typeName b
  cases e with
  | number => rfl
  | _ => exact congrArg (fun x => Machine.refuse (.argument n.name .number x)) types

theorem Same.text? (b : Backed H τ s t h) (e : Same τ h v w) :
    h.text? w = v.text? := by
  have other {r : Ref} {o : Object} (hr : h.get? r = some o) (kind : ∀ text, o ≠ .string text) :
      h.string? r = none := by
    cases hs : h.string? r with
    | none => rfl
    | some text => exact (kind text (Option.some.inj (hr.symm.trans (Heap.string?_eq_some.1 hs)))).elim
  cases e with
  | string hr => exact hr
  | array hr =>
    obtain ⟨_, _, -, hys, -⟩ := b.stored.array hr
    exact other (Heap.array?_eq_some.1 hys) nofun
  | closure hr =>
    obtain ⟨_, _, _, _, _, -, hk, -⟩ := b.stored.closure hr
    exact other (Heap.closure?_eq_some.1 hk) nofun
  | native hr => exact other (Heap.native?_eq_some.1 hr) nofun
  | _ => rfl

theorem Same.stringArgument (b : Backed H τ s t h) (e : Same τ h v w) :
    Machine.stringArgument n.name h w = Store.stringArgument n v := by
  have types := e.typeName b
  rw [Machine.stringArgument, e.text? b]
  cases e with
  | string => rfl
  | _ => exact congrArg (fun x => Machine.refuse (.argument n.name .string x)) types

/-- Arrays have the same elements. -/
theorem Same.elements? (b : Backed H τ s t h) (e : Same τ h v w) :
    (∃ id ys, v = .array id ∧ h.elements? w = some ys ∧
      List.Forall₂ (Same τ h) (s.elements id).toList ys.toList) ∨
    (∀ id, v ≠ .array id) ∧ h.elements? w = none := by
  have other {r : Ref} {o : Object} (hr : h.get? r = some o) (kind : ∀ xs, o ≠ .array xs) :
      h.array? r = none := by
    cases hs : h.array? r with
    | none => rfl
    | some xs => exact (kind xs (Option.some.inj (hr.symm.trans (Heap.array?_eq_some.1 hs)))).elim
  cases e with
  | @array id r hr =>
    obtain ⟨xs, ys, hxs, hys, each⟩ := b.stored.array hr
    refine .inl ⟨id, ys, rfl, hys, ?_⟩
    rwa [Store.elements, hxs, Option.getD_some]
  | string hr => exact .inr ⟨nofun, other (Heap.string?_eq_some.1 hr) nofun⟩
  | closure hr =>
    obtain ⟨_, _, _, _, _, -, hk, -⟩ := b.stored.closure hr
    exact .inr ⟨nofun, other (Heap.closure?_eq_some.1 hk) nofun⟩
  | native hr => exact .inr ⟨nofun, other (Heap.native?_eq_some.1 hr) nofun⟩
  | _ => exact .inr ⟨nofun, rfl⟩

theorem Same.arrayArgument (b : Backed H τ s t h) (e : Same τ h v w) :
    (∃ vs ws, s.arrayArgument n v = .ok vs ∧ Machine.arrayArgument n.name h w = .ok ws ∧
      List.Forall₂ (Same τ h) vs ws.toList) ∨
    ∃ x, s.arrayArgument n v = .error x ∧ Machine.arrayArgument n.name h w = .error x := by
  have types := e.typeName b
  obtain ⟨id, ys, rfl, hys, each⟩ | ⟨none, hys⟩ := e.elements? b
  · exact .inl ⟨_, ys, rfl, by rw [Machine.arrayArgument, hys], each⟩
  · refine .inr ⟨.fault (.argument n.name .array v.typeName), ?_, ?_⟩
    · cases v <;> first | rfl | exact (none _ rfl).elim
    · rw [Machine.arrayArgument, hys, types]
      rfl

theorem numbers_eq (b : Backed H τ s t h) {vs : List Val} {ws : List Value}
    (each : List.Forall₂ (Same τ h) vs ws) :
    Machine.numbers n.name h ws = vs.mapM (Store.numberArgument n) := by
  induction each with
  | nil => rfl
  | cons e _ ih => rw [Machine.numbers, List.mapM_cons, e.numberArgument b, ih]

theorem Same.extreme (b : Backed H τ s t h) (e : Same τ h v w) (pick : Float → Float → Float) :
    Machine.extreme n.name pick h w = s.extreme n pick v := by
  rw [Machine.extreme, Store.extreme]
  obtain ⟨vs, ws, hv, hw, each⟩ | ⟨x, hv, hw⟩ := e.arrayArgument (n := n) b
  · rw [hv, hw]
    have first (f : List Float → Machine.Answer Float) :
        Machine.numbers n.name h ws.toList >>= f = vs.mapM (Store.numberArgument n) >>= f := by
      rw [numbers_eq b each]
    exact first _
  · rw [hv, hw]
    rfl

/-- A native answers with the same value and world, or refuses in the same way. -/
def Answers (τ : Ties) (h : Heap) : Answer (Val × World) → Answer (Value × World × Heap) → Prop
  | .ok (v, world), .ok (w, world', h') => world' = world ∧ h.Calm h' ∧
      (∀ r, h'.upvalue? r = h.upvalue? r) ∧ (h'.size ≤ UInt32.size → Same τ h' v w)
  | .error x, .error x' => x' = x
  | _, _ => False

theorem Answers.value {v : Val} {w : Value} (world : World) (e : Same τ h v w) :
    Answers τ h (.ok (v, world)) (.ok (w, world, h)) :=
  ⟨rfl, .refl h, fun _ => rfl, fun _ => e⟩

theorem Answers.bind {α : Type} (x : Answer α) {f : α → Answer (Val × World)}
    {g : α → Answer (Value × World × Heap)} (each : ∀ a, Answers τ h (f a) (g a)) :
    Answers τ h (x >>= f) (x >>= g) := by
  cases x with
  | ok a => exact each a
  | error x => exact rfl

/-- A native returns the same from a machine as from a store. -/
theorem Same.answer (b : Backed H τ s t h) (e : Same τ h v w) :
    Answers τ h (s.answer n v) (n.call s.world h w) := by
  cases n with
  | clock => exact .value _ (.number _)
  | sleep =>
    rw [Store.answer, Builtin.call, e.numberArgument b]
    exact .bind _ fun _ => .value _ .nil
  | fileExists =>
    rw [Store.answer, Builtin.call, e.stringArgument b]
    exact .bind _ fun _ => .value _ (.bool _)
  | readFile =>
    rw [Store.answer, Builtin.call, e.stringArgument b]
    refine .bind _ fun path => ?_
    cases s.world.files path with
    | text content =>
      refine ⟨rfl, .intern h content, fun _ => Machine.upvalue?_intern, fun fits => ?_⟩
      exact .string (Heap.string?_intern h content fits)
    | missing => exact .value _ .nil
    | unreadable => exact .value _ .nil
  | least =>
    rw [Store.answer, Builtin.call, e.extreme b]
    exact .bind _ fun _ => .value _ (.number _)
  | greatest =>
    rw [Store.answer, Builtin.call, e.extreme b]
    exact .bind _ fun _ => .value _ (.number _)
  | length =>
    rw [Store.answer, Builtin.call, e.text? b]
    cases v.text? with
    | some text => exact .value _ (.number _)
    | none =>
      obtain ⟨vs, ws, hv, hw, each⟩ | ⟨x, hv, hw⟩ := e.arrayArgument (n := .length) b
      · have size : ws.size = vs.length := by rw [← Array.length_toList, each.length_eq]
        simp only [hv, hw, Bind.bind, Except.bind, size]
        exact .value _ (.number _)
      · simp only [hv, hw]
        exact rfl
  | random => exact ⟨rfl, .refl h, fun _ => rfl, fun _ => .number _⟩
  | seed =>
    rw [Store.answer, Builtin.call, e.numberArgument b]
    exact .bind _ fun _ => .value _ .nil
  | exit =>
    rw [Store.answer, Builtin.call, e.numberArgument b]
    exact .bind _ fun _ => rfl

end Natives

end Semantics
end StackScript
