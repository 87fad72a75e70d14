import Mathlib.Data.List.Infix
import StackScript.Proofs.Store.Kept

/-!
# StackScript.Proofs.Store.Display

How `print` shows values, on heaps whose arrays may contain themselves and each other.

* `Heap.Shows`: the rules by which a value is shown, with the depths at which arrays are elided. Nothing
  in them bounds how deep arrays are followed, and without elided arrays they are the plain rendering.
* `Heap.Meets`: what is met when elements of arrays are followed; `Heap.NestsBelow`: how deep arrays nest.
* `Heap.Agrees`: another heap has the same at the first levels, as far as it is looked at.
* `display_bounded`: every value is shown in exactly one way, with `[...]` for arrays in eight others,
  and nothing else matters than what is met on the way there.
-/

namespace StackScript
namespace Heap

/-- What is shown of a value that is no array. -/
def caption? (h : Heap) : Value → Option String
  | .nil => some "nil"
  | .bool b => some (if b then "true" else "false")
  | .number x => some (Numeral.text x)
  | .object r =>
    match h.get? r with
    | none => some ("<dangling " ++ r.label ++ ">")
    | some (.string text) => some text
    | some (.function f) => some (h.displayFunction f)
    | some (.closure c) => some ((h.function? c.function).elim "<closure>" h.displayFunction)
    | some (.upvalue _) => some "upvalue"
    | some (.native _) => some "<native fn>"
    | some (.array _) => none

def bracketed (texts : List String) : String := "[" ++ ", ".intercalate texts ++ "]"

/-- A value that is met at some depth is shown as a text. Arrays are elided at the depths that are
`deep`. -/
inductive Shows (h : Heap) (deep : Nat → Prop) : Nat → Value → String → Prop where
  | caption {d : Nat} {v : Value} {text : String} (hv : h.caption? v = some text) :
    Shows h deep d v text
  | elided {d : Nat} {v : Value} {xs : Array Value} (hv : h.elements? v = some xs) (hd : deep d) :
    Shows h deep d v "[...]"
  | array {d : Nat} {v : Value} {xs : Array Value} (hv : h.elements? v = some xs) (hd : ¬deep d)
      (text : Value → String) (all : ∀ x ∈ xs, Shows h deep (d + 1) x (text x)) :
    Shows h deep d v (bracketed (xs.toList.map text))

/-- A value is met at a depth: it is an element of an element and so on, that many times. -/
inductive Meets (h : Heap) (v : Value) : Nat → Value → Prop where
  | root : Meets h v 0 v
  | element {d : Nat} {w x : Value} {xs : Array Value} (hw : h.elements? w = some xs) (hx : x ∈ xs) :
    Meets h v d w → Meets h v (d + 1) x

/-- The arrays in a value nest less than `n` deep. -/
def NestsBelow (h : Heap) (v : Value) (n : Nat) : Prop :=
  ∀ d w, h.Meets v d w → (h.elements? w).isSome → d + 1 < n

/-- A function or a name that an object refers to. -/
inductive Refers (h : Heap) (r : Ref) : Ref → Prop where
  | function {c : Closure} (hc : h.closure? r = some c) : Refers h r c.function
  | name {f : Function} {s : Ref} (hf : h.function? r = some f) (hs : f.name = some s) : Refers h r s
  | functionName {c : Closure} {f : Function} {s : Ref} (hc : h.closure? r = some c)
      (hf : h.function? c.function = some f) (hs : f.name = some s) : Refers h r s

/-- Two heaps agree on the objects that are met in a value through at most eight arrays, and on the
functions and names these refer to. Of an array in eight others, the elements do not matter. -/
structure Agrees (h h' : Heap) (v : Value) : Prop where
  met : ∀ {d r}, d < displayLevels → h.Meets v d (.object r) → h'.get? r = h.get? r
  last : ∀ {r}, h.Meets v displayLevels (.object r) →
    h'.get? r = h.get? r ∨ (h.array? r).isSome ∧ (h'.array? r).isSome
  referred : ∀ {d r s}, d ≤ displayLevels → h.Meets v d (.object r) → h.Refers r s →
    h'.get? s = h.get? s

variable {h h' : Heap} {v w : Value} {d : Nat} {text : String}

section Caption

theorem caption?_eq_none_iff : h.caption? v = none ↔ (h.elements? v).isSome := by
  cases v with
  | object r =>
    simp only [caption?, elements?, array?]
    cases h.get? r with
    | none => simp
    | some o => cases o <;> simp
  | _ => simp [caption?, elements?]

/-- At no depth a value that is no array is shown in another way. -/
theorem displayUpTo_caption (hv : h.caption? v = some text) (levels : Nat) :
    h.displayUpTo levels v = text := by
  cases v with
  | object r =>
    rw [caption?] at hv
    rw [displayUpTo]
    cases ho : h.get? r with
    | none => simpa [ho] using hv
    | some o =>
      rw [ho] at hv
      cases o with
      | closure c => cases hf : h.function? c.function <;> simpa [hf] using hv
      | array xs => cases hv
      | _ => exact Option.some.inj hv
  | _ =>
    rw [displayUpTo]
    exact Option.some.inj hv

theorem elements?_of_caption (hv : h.caption? v = some text) : h.elements? v = none := by
  rw [← Option.not_isSome_iff_eq_none, ← caption?_eq_none_iff, hv]
  nofun

theorem caption?_of_elements (hv : h.elements? v = none) (levels : Nat) :
    h.caption? v = some (h.displayUpTo levels v) := by
  cases hc : h.caption? v with
  | none => simp [caption?_eq_none_iff, hv] at hc
  | some text => rw [displayUpTo_caption hc]

theorem displayUpTo_zero {xs : Array Value} (hv : h.elements? v = some xs) :
    h.displayUpTo 0 v = "[...]" := by
  cases v with
  | object r =>
    rw [displayUpTo, array?_eq_some.1 hv]
  | _ => cases hv

theorem displayUpTo_succ {xs : Array Value} (hv : h.elements? v = some xs) (levels : Nat) :
    h.displayUpTo (levels + 1) v = bracketed (xs.toList.map (h.displayUpTo levels)) := by
  cases v with
  | object r =>
    rw [displayUpTo, array?_eq_some.1 hv]
    rfl
  | _ => cases hv

end Caption

section Shows

variable {deep : Nat → Prop}

/-- A value is shown in one way only. -/
theorem Shows.unique {text' : String} (s : h.Shows deep d v text) (s' : h.Shows deep d v text') :
    text = text' := by
  induction s generalizing text' with
  | caption hv =>
    cases s' with
    | caption hv' => exact Option.some.inj (hv.symm.trans hv')
    | elided hv' => cases (elements?_of_caption hv).symm.trans hv'
    | array hv' => cases (elements?_of_caption hv).symm.trans hv'
  | elided hv hd =>
    cases s' with
    | caption hv' => cases (elements?_of_caption hv').symm.trans hv
    | elided => rfl
    | array _ hd' => exact absurd hd hd'
  | array hv hd _ _ ih =>
    cases s' with
    | caption hv' => cases (elements?_of_caption hv').symm.trans hv
    | elided _ hd' => exact absurd hd' hd
    | array hv' _ _ all' =>
      obtain rfl := Option.some.inj (hv.symm.trans hv')
      refine congrArg bracketed (List.map_congr_left fun x hx => ?_)
      exact ih x (Array.mem_toList_iff.1 hx) (all' x (Array.mem_toList_iff.1 hx))

/-- The levels that are left at a depth are enough for what is shown there. -/
theorem shows_displayUpTo (levels : Nat) (hd : displayLevels - d = levels) (v : Value) :
    h.Shows (displayLevels ≤ ·) d v (h.displayUpTo levels v) := by
  induction levels generalizing d v with
  | zero =>
    cases hv : h.elements? v with
    | none => exact .caption (caption?_of_elements hv _)
    | some xs =>
      rw [displayUpTo_zero hv]
      exact .elided hv (by omega)
  | succ levels ih =>
    cases hv : h.elements? v with
    | none => exact .caption (caption?_of_elements hv _)
    | some xs =>
      rw [displayUpTo_succ hv]
      exact .array hv (by omega) _ fun x _ => ih (by omega) x

theorem shows_iff : h.Shows (displayLevels ≤ ·) 0 v text ↔ text = h.display v :=
  ⟨fun s => s.unique (shows_displayUpTo _ rfl v), fun e => e ▸ shows_displayUpTo _ rfl v⟩

/-- Nothing is elided in a value whose arrays do not nest deep enough. -/
theorem Shows.plain (n : h.NestsBelow v 9) (s : h.Shows (displayLevels ≤ ·) d w text)
    (m : h.Meets v d w) : h.Shows (fun _ => False) d w text := by
  induction s with
  | caption hv => exact .caption hv
  | elided hv hd =>
    have := n _ _ m (by rw [hv]; rfl)
    exact absurd hd (by unfold displayLevels; omega)
  | array hv _ text _ ih => exact .array hv id text fun x hx => ih x hx (.element hv hx m)

end Shows

section Agree

variable {r : Ref}

theorem displayFunction_congr {f : Function} (names : ∀ s, f.name = some s → h'.get? s = h.get? s) :
    h'.displayFunction f = h.displayFunction f := by
  unfold displayFunction
  cases hf : f.name with
  | none => rfl
  | some s => simp only [Option.bind_some, string?, names s hf]

/-- A caption depends on the object and on what that refers to. -/
theorem caption?_congr (same : h'.get? r = h.get? r)
    (referred : ∀ s, h.Refers r s → h'.get? s = h.get? s) :
    h'.caption? (.object r) = h.caption? (.object r) := by
  rw [caption?, caption?, same]
  cases ho : h.get? r with
  | none => rfl
  | some o =>
    cases o with
    | function f =>
      exact congrArg some (displayFunction_congr fun s hs =>
        referred s (.name (function?_eq_some.2 ho) hs))
    | closure c =>
      have hc := closure?_eq_some.2 ho
      have functions : h'.function? c.function = h.function? c.function := by
        rw [function?, function?, referred _ (.function hc)]
      simp only [functions]
      cases hf : h.function? c.function with
      | none => rfl
      | some f =>
        exact congrArg some (displayFunction_congr fun s hs => referred s (.functionName hc hf hs))
    | _ => rfl

theorem elements?_congr (same : h'.get? r = h.get? r) :
    h'.elements? (.object r) = h.elements? (.object r) := by
  rw [elements?, elements?, array?, array?, same]

/-- What is met is shown in the same way on both heaps. -/
theorem Agrees.shows (a : Agrees h h' v) (s : h.Shows (displayLevels ≤ ·) d w text)
    (m : h.Meets v d w) (hd : d ≤ displayLevels) : h'.Shows (displayLevels ≤ ·) d w text := by
  induction s with
  | @caption d w text hw =>
    cases w with
    | object r =>
      have same : h'.get? r = h.get? r := by
        obtain less | rfl := Nat.lt_or_eq_of_le hd
        · exact a.met less m
        · refine (a.last m).resolve_right fun ⟨array, _⟩ => ?_
          have none : h.array? r = none := elements?_of_caption hw
          rw [none] at array
          cases array
      exact .caption ((caption?_congr same fun s => a.referred hd m).trans hw)
    | _ => exact .caption hw
  | @elided d w xs hw deep =>
    obtain rfl := Nat.le_antisymm hd deep
    cases w with
    | object r =>
      obtain same | ⟨-, array⟩ := a.last m
      · exact .elided ((elements?_congr same).trans hw) deep
      · obtain ⟨ys, hy⟩ := Option.isSome_iff_exists.1 array
        exact .elided hy deep
    | _ => cases hw
  | @array d w xs hw shallow text _ ih =>
    have less := Nat.lt_of_not_le shallow
    cases w with
    | object r =>
      refine .array ((elements?_congr (a.met less m)).trans hw) shallow text fun x hx => ?_
      exact ih x hx (.element hw hx m) less
    | _ => cases hw

theorem Agrees.display (a : Agrees h h' v) : h'.display v = h.display v :=
  (shows_iff.1 (a.shows (shows_iff.2 rfl) .root (Nat.zero_le _))).symm

end Agree

section Parts

theorem infix_intercalate {texts : List String} (ht : text ∈ texts) (separator : String) :
    text.toList <:+: (separator.intercalate texts).toList := by
  induction texts with
  | nil => cases ht
  | cons first rest ih =>
    cases rest with
    | nil =>
      obtain rfl := List.mem_singleton.1 ht
      rw [String.intercalate_singleton]
    | cons second rest =>
      rw [String.intercalate_cons_cons, String.toList_append, String.toList_append]
      obtain rfl | ht := List.mem_cons.1 ht
      · exact (List.infix_append [] _ _).trans (List.infix_append [] _ _)
      · exact (ih ht).trans (List.suffix_append _ _).isInfix

theorem infix_bracketed {texts : List String} (ht : text ∈ texts) :
    text.toList <:+: (bracketed texts).toList := by
  rw [bracketed, String.toList_append, String.toList_append]
  exact (infix_intercalate ht _).trans (List.infix_append _ _ _)

/-- What is met is part of what is shown. -/
theorem Meets.infix_display (m : h.Meets v d w) (hd : d ≤ displayLevels) :
    (h.displayUpTo (displayLevels - d) w).toList <:+: (h.display v).toList := by
  induction m with
  | root => exact List.infix_refl _
  | @element d w x xs hw hx _ ih =>
    refine List.IsInfix.trans ?_ (ih (Nat.le_of_succ_le hd))
    have levels : displayLevels - d = displayLevels - (d + 1) + 1 := by omega
    rw [levels, displayUpTo_succ hw]
    exact infix_bracketed (List.mem_map_of_mem (Array.mem_toList_iff.2 hx))

end Parts

/-- Every value is shown, in one way, also where arrays contain themselves. It is the plain rendering if
arrays nest less than nine deep. It depends on what is met through at most eight arrays and on the
functions and names of that. An array that is met through eight others appears as `[...]`. -/
theorem display_bounded (h : Heap) (v : Value) :
    (∀ text, h.Shows (8 ≤ ·) 0 v text ↔ text = h.display v) ∧
    (h.NestsBelow v 9 → ∀ text, h.Shows (fun _ => False) 0 v text ↔ text = h.display v) ∧
    (∀ h', Agrees h h' v → h'.display v = h.display v) ∧
    ∀ w, h.Meets v 8 w → (h.elements? w).isSome →
      (∀ text, h.Shows (8 ≤ ·) 8 w text ↔ text = "[...]") ∧
      "[...]".toList <:+: (h.display v).toList := by
  refine ⟨fun _ => shows_iff, fun n text => ?_, fun _ a => a.display, fun w m array => ?_⟩
  · have plain := (shows_iff.2 rfl).plain n .root
    exact ⟨fun s => s.unique plain, fun e => e ▸ plain⟩
  · obtain ⟨xs, hw⟩ := Option.isSome_iff_exists.1 array
    have elided : h.Shows (displayLevels ≤ ·) 8 w "[...]" := .elided hw (Nat.le_refl 8)
    refine ⟨fun text => ⟨fun s => s.unique elided, fun e => e ▸ elided⟩, ?_⟩
    have part := m.infix_display (Nat.le_refl 8)
    rwa [show displayLevels - 8 = 0 from rfl, displayUpTo_zero hw] at part

section Cycle

/-- An array that contains itself, and another one beside it. -/
def cyclic : Heap := ⟨#[.array #[.object ⟨0⟩], .array #[.nil]], .empty⟩

example : cyclic.display (.object ⟨0⟩) = "[[[[[[[[[...]]]]]]]]]" := by decide +kernel

theorem meets_cycle (n : Nat) : cyclic.Meets (.object ⟨0⟩) n (.object ⟨0⟩) := by
  have elements : cyclic.elements? (.object ⟨0⟩) = some #[.object ⟨0⟩] := rfl
  induction n with
  | zero => exact .root
  | succ n ih => exact .element elements (Array.mem_singleton.2 rfl) ih

theorem met_in_cycle (m : cyclic.Meets (.object ⟨0⟩) d w) : w = .object ⟨0⟩ := by
  induction m with
  | root => rfl
  | element hw hx _ ih =>
    subst ih
    obtain rfl := Option.some.inj hw
    exact Array.mem_singleton.1 hx

theorem nestsBelow_beside_cycle : cyclic.NestsBelow (.object ⟨1⟩) 9 := by
  have inside {d : Nat} {w : Value} (m : cyclic.Meets (.object ⟨1⟩) d w) :
      (d = 0 ∧ w = .object ⟨1⟩) ∨ w = .nil := by
    induction m with
    | root => exact .inl ⟨rfl, rfl⟩
    | element hw hx _ ih =>
      obtain ⟨-, rfl⟩ | rfl := ih
      · obtain rfl := Option.some.inj hw
        exact .inr (Array.mem_singleton.1 hx)
      · cases hw
  intro d w m array
  obtain ⟨rfl, -⟩ | rfl := inside m
  · decide
  · cases array

/-- What stands beside an array that contains itself does not matter. An array beside it is shown
plainly. -/
theorem display_bounded_cycle :
    let h' := cyclic.set ⟨1⟩ (.string "x")
    (Agrees cyclic h' (.object ⟨0⟩) ∧ h'.display (.object ⟨0⟩) = cyclic.display (.object ⟨0⟩)) ∧
    (cyclic.NestsBelow (.object ⟨1⟩) 9 ∧
      cyclic.Shows (fun _ => False) 0 (.object ⟨1⟩) (cyclic.display (.object ⟨1⟩))) ∧
    cyclic.Meets (.object ⟨0⟩) 8 (.object ⟨0⟩) ∧
      "[...]".toList <:+: (cyclic.display (.object ⟨0⟩)).toList := by
  intro h'
  have same {d : Nat} {r : Ref} (m : cyclic.Meets (.object ⟨0⟩) d (.object r)) :
      h'.get? r = cyclic.get? r := by
    obtain rfl := Value.object.inj (met_in_cycle m)
    rfl
  have agrees : Agrees cyclic h' (.object ⟨0⟩) := by
    refine ⟨fun _ m => same m, fun m => .inl (same m), fun {d r s} _ m refers => ?_⟩
    obtain rfl := Value.object.inj (met_in_cycle m)
    cases refers with
    | function hc => cases hc
    | name hf => cases hf
    | functionName hc => cases hc
  obtain ⟨-, -, unmoved, elided⟩ := display_bounded cyclic (.object ⟨0⟩)
  have plain := (display_bounded cyclic (.object ⟨1⟩)).2.1 nestsBelow_beside_cycle
  exact ⟨⟨agrees, unmoved h' agrees⟩, ⟨nestsBelow_beside_cycle, (plain _).2 rfl⟩, meets_cycle 8,
    (elided _ (meets_cycle 8) rfl).2⟩

end Cycle

end Heap
end StackScript
