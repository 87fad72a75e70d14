import Mathlib.Data.List.Forall2

/-!
# StackScript.Proofs.Entrywise

Lists that are related entry by entry.
-/

namespace StackScript

variable {α β : Type}

theorem forall₂_refl {R : α → α → Prop} (hr : ∀ a, R a a) (as : List α) :
    List.Forall₂ R as as :=
  List.forall₂_same.2 fun a _ => hr a

theorem forall₂_comp {γ : Type} {R : α → β → Prop} {S : β → γ → Prop} {T : α → γ → Prop}
    (ht : ∀ {a b c}, R a b → S b c → T a c) {as : List α} {bs : List β} {cs : List γ}
    (h : List.Forall₂ R as bs) (h' : List.Forall₂ S bs cs) : List.Forall₂ T as cs := by
  induction h generalizing cs with
  | nil =>
    cases h'
    exact .nil
  | cons r _ ih =>
    obtain ⟨c, cs', s, hs, rfl⟩ := List.forall₂_cons_left_iff.1 h'
    exact .cons (ht r s) (ih hs)

theorem forall₂_trans {R : α → α → Prop} (ht : ∀ {a b c}, R a b → R b c → R a c)
    {as bs cs : List α} (h : List.Forall₂ R as bs) (h' : List.Forall₂ R bs cs) :
    List.Forall₂ R as cs :=
  forall₂_comp (R := R) (S := R) ht h h'

section Relation

variable {R : α → β → Prop}

theorem forall₂_append_left {as bs : List α} {cs : List β} (h : List.Forall₂ R (as ++ bs) cs) :
    ∃ as' bs', cs = as' ++ bs' ∧ List.Forall₂ R as as' ∧ List.Forall₂ R bs bs' := by
  induction as generalizing cs with
  | nil => exact ⟨[], cs, rfl, .nil, h⟩
  | cons a as ih =>
    obtain ⟨c, cs', r, hs, rfl⟩ := List.forall₂_cons_left_iff.1 h
    obtain ⟨as', bs', rfl, has, hbs⟩ := ih hs
    exact ⟨c :: as', bs', rfl, .cons r has, hbs⟩

variable {as : List α} {bs : List β}

theorem forall₂_mem_right (h : List.Forall₂ R as bs) {b : β} (hb : b ∈ bs) : ∃ a ∈ as, R a b := by
  induction h with
  | nil => cases hb
  | cons r _ ih =>
    obtain rfl | hb := List.mem_cons.1 hb
    · exact ⟨_, List.mem_cons_self, r⟩
    · obtain ⟨a, ha, r⟩ := ih hb
      exact ⟨a, List.mem_cons_of_mem _ ha, r⟩

theorem forall₂_map_eq {γ : Type} {f : α → γ} {g : β → γ} (h : List.Forall₂ R as bs)
    (hr : ∀ a b, R a b → g b = f a) : bs.map g = as.map f := by
  induction h with
  | nil => rfl
  | cons r _ ih => rw [List.map_cons, List.map_cons, hr _ _ r, ih]

theorem forall₂_set (h : List.Forall₂ R as bs) {a : α} {b : β} (r : R a b) (i : Nat) :
    List.Forall₂ R (as.set i a) (bs.set i b) := by
  induction h generalizing i with
  | nil => exact .nil
  | cons r' hs ih =>
    cases i with
    | zero => exact .cons r hs
    | succ i => exact .cons r' (ih i)

section Choose

variable {p : α → Bool} {q : β → Bool} (hp : ∀ a b, R a b → q b = p a)

include hp

theorem forall₂_find? (h : List.Forall₂ R as bs) : Option.Rel R (as.find? p) (bs.find? q) := by
  induction h with
  | nil => exact .none
  | @cons a b _ _ r _ ih =>
    rw [List.find?_cons, List.find?_cons, hp a b r]
    cases p a with
    | true => exact .some r
    | false => exact ih

theorem forall₂_takeWhile (h : List.Forall₂ R as bs) :
    List.Forall₂ R (as.takeWhile p) (bs.takeWhile q) := by
  induction h with
  | nil => exact .nil
  | @cons a b _ _ r _ ih =>
    rw [List.takeWhile_cons, List.takeWhile_cons, hp a b r]
    cases p a with
    | true => exact .cons r ih
    | false => exact .nil

theorem forall₂_dropWhile (h : List.Forall₂ R as bs) :
    List.Forall₂ R (as.dropWhile p) (bs.dropWhile q) := by
  induction h with
  | nil => exact .nil
  | @cons a b _ _ r hs ih =>
    rw [List.dropWhile_cons, List.dropWhile_cons, hp a b r]
    cases p a with
    | true => exact ih
    | false => exact .cons r hs

end Choose

theorem forall₂_getElem? (h : List.Forall₂ R as bs) {i : Nat} {a : α} (ha : as[i]? = some a) :
    ∃ b, bs[i]? = some b ∧ R a b := by
  induction h generalizing i with
  | nil => cases ha
  | cons r _ ih =>
    cases i with
    | zero =>
      cases ha
      exact ⟨_, rfl, r⟩
    | succ i => exact ih ha

theorem forall₂_rel (h : List.Forall₂ R as bs) (i : Nat) : Option.Rel R as[i]? bs[i]? := by
  induction h generalizing i with
  | nil => exact .none
  | cons r _ ih =>
    cases i with
    | zero => exact .some r
    | succ i => exact ih i

theorem forall₂_getLast? (h : List.Forall₂ R as bs) :
    Option.Rel R as.getLast? bs.getLast? := by
  rw [List.getLast?_eq_getElem?, List.getLast?_eq_getElem?, h.length_eq]
  exact forall₂_rel h _

end Relation
end StackScript
