import StackScript.Proofs.Machine.Grows
import StackScript.Proofs.Machine.Twin

/-!
# StackScript.Proofs.Machine.Both

Computations of two machines that do the same.

* `Both`: two computations end in the same way, unless the first one finds the bytecode malformed.
  `Roomed`: they do if handles suffice.
* `Halts`: what remains of two machines that are stopped.
* `Mid`: two machines in the middle of an instruction. One rule for each step that instructions are
  made of.
-/

namespace StackScript
namespace Machine

/-- Two results agree. -/
inductive Agree {α β : Type} (Q : α → β → Machine → Machine → Prop)
    (E : Stop → Machine → Machine → Prop) :
    EStateM.Result Stop Machine α → EStateM.Result Stop Machine β → Prop where
  | ok {a : α} {b : β} {m n : Machine} : Q a b m n → Agree Q E (.ok a m) (.ok b n)
  | malformed {cause : Malformed} {m : Machine} {r : EStateM.Result Stop Machine β} :
      Agree Q E (.error (.malformed cause) m) r
  | stopped {e : Stop} {m n : Machine} : E e m n → Agree Q E (.error e m) (.error e n)

def Both {α β : Type} (x : Exec α) (y : Exec β) (m n : Machine)
    (Q : α → β → Machine → Machine → Prop) (E : Stop → Machine → Machine → Prop) : Prop :=
  Agree Q E (x m) (y n)

/-- The machine that a computation leaves. -/
def left {α : Type} : EStateM.Result Stop Machine α → Machine
  | .ok _ m => m
  | .error _ m => m

def Roomed {α β : Type} (x : Exec α) (y : Exec β) (m n : Machine)
    (Q : α → β → Machine → Machine → Prop) (E : Stop → Machine → Machine → Prop) : Prop :=
  (left (x m)).heap.size ≤ UInt32.size → (left (y n)).heap.size ≤ UInt32.size → Both x y m n Q E

/-- Heaps do not shrink. -/
def Grows {α : Type} (x : Exec α) : Prop := ∀ m, Keeps (Larger m) x

section Monad

variable {α β γ δ : Type} {m n : Machine} {E : Stop → Machine → Machine → Prop}
  {Q : α → β → Machine → Machine → Prop} {R : γ → δ → Machine → Machine → Prop} {x : Exec α}
  {y : Exec β} {f : α → Exec γ} {g : β → Exec δ}

theorem left_bind_ok {a : α} {m' : Machine} (h : x m = .ok a m') : (x >>= f) m = f a m' := by
  simp only [Bind.bind, EStateM.bind, h]

theorem left_bind_error {e : Stop} {m' : Machine} (h : x m = .error e m') :
    (x >>= f) m = .error e m' := by
  simp only [Bind.bind, EStateM.bind, h]

theorem Grows.left (h : Grows x) (hosts : m.hosts = #[]) :
    (left (x m)).hosts = #[] ∧ m.heap.size ≤ (left (x m)).heap.size := by
  have keeps := h m m (.refl hosts)
  unfold Ends at keeps
  cases hx : x m with
  | ok a m' =>
    rw [hx] at keeps
    exact ⟨keeps.hosts, keeps.size⟩
  | error e m' =>
    rw [hx] at keeps
    exact ⟨keeps.hosts, keeps.size⟩

namespace Both

theorem pure {a : α} {b : β} (h : Q a b m n) : Both (Pure.pure a) (Pure.pure b) m n Q E := .ok h

theorem bind (h : Both x y m n (fun a b m' n' => Both (f a) (g b) m' n' R E) E) :
    Both (x >>= f) (y >>= g) m n R E := by
  unfold Both at h ⊢
  cases hx : x m with
  | ok a m' =>
    rw [left_bind_ok hx]
    rw [hx] at h
    cases hy : y n with
    | ok b n' =>
      rw [left_bind_ok hy]
      rw [hy] at h
      cases h with
      | ok h => exact h
    | error e n' =>
      rw [hy] at h
      cases h
  | error e m' =>
    rw [left_bind_error hx]
    rw [hx] at h
    cases hy : y n with
    | ok b n' =>
      rw [hy] at h
      cases h
      exact .malformed
    | error e n' =>
      rw [left_bind_error hy]
      rw [hy] at h
      cases h with
      | malformed => exact .malformed
      | stopped h => exact .stopped h

theorem imp {Q' : α → β → Machine → Machine → Prop} (h : Both x y m n Q E)
    (hQ : ∀ a b m' n', Q a b m' n' → Q' a b m' n') : Both x y m n Q' E := by
  unfold Both at h ⊢
  generalize x m = r at h ⊢
  generalize y n = r' at h ⊢
  cases h with
  | ok h => exact .ok (hQ _ _ _ _ h)
  | malformed => exact .malformed
  | stopped h => exact .stopped h

theorem roomed (h : Both x y m n Q E) : Roomed x y m n Q E := fun _ _ => h

/-- What is known of the first computation alone. -/
theorem withEnds {P : α → Machine → Prop} {E' : Stop → Machine → Prop} (h : Both x y m n Q E)
    (hx : Ends x m P E') : Both x y m n (fun a b m' n' => Q a b m' n' ∧ P a m') E := by
  unfold Both at h ⊢
  unfold Ends at hx
  generalize x m = r at h hx ⊢
  generalize y n = r' at h ⊢
  cases h with
  | ok h => exact .ok ⟨h, hx⟩
  | malformed => exact .malformed
  | stopped h => exact .stopped h

theorem throw {e : Stop} (h : E e m n) : Both (throw e : Exec α) (throw e : Exec β) m n Q E :=
  .stopped h

theorem fail {e : Fault} (h : E (.fault e) m n) :
    Both (fail e : Exec α) (fail e : Exec β) m n Q E :=
  .stopped h

theorem bad {cause : Malformed} : Both (malformed cause : Exec α) y m n Q E := .malformed

theorem get {Q : Machine → Machine → Machine → Machine → Prop} (h : Q m n m n) :
    Both (get : Exec Machine) (MonadState.get : Exec Machine) m n Q E := .ok h

theorem modify {Q : Unit → Unit → Machine → Machine → Prop} {f g : Machine → Machine}
    (h : Q () () (f m) (g n)) : Both (modify f : Exec Unit) (modify g : Exec Unit) m n Q E := .ok h

theorem modifyGet {f : Machine → α × Machine} {g : Machine → β × Machine}
    (h : Q (f m).1 (g n).1 (f m).2 (g n).2) :
    Both (modifyGet f : Exec α) (modifyGet g : Exec β) m n Q E := .ok h

theorem require {o : Option α} {p : Option β} {P : α → β → Prop} {cause cause' : Malformed}
    (h : Option.Rel P o p) (hQ : ∀ a b, P a b → Q a b m n) :
    Both (require o cause) (require p cause') m n Q E := by
  cases h with
  | none => exact .malformed
  | some h => exact .ok (hQ _ _ h)

end Both

namespace Roomed

theorem bind (h : Both x y m n (fun a b m' n' => Roomed (f a) (g b) m' n' R E) E) :
    Roomed (x >>= f) (y >>= g) m n R E := by
  intro room room'
  refine Both.bind ?_
  unfold Both at h ⊢
  cases hx : x m with
  | ok a m' =>
    cases hy : y n with
    | ok b n' =>
      rw [left_bind_ok hx] at room
      rw [left_bind_ok hy] at room'
      rw [hx, hy] at h
      cases h with
      | ok h => exact .ok (h room room')
    | error e n' =>
      rw [hx, hy] at h
      cases h
  | error e m' =>
    rw [hx] at h
    generalize y n = r at h ⊢
    cases h with
    | malformed => exact .malformed
    | stopped h => exact .stopped h

/-- Handles that suffice in the end suffice all the time. -/
theorem andThen (hosts : m.hosts = #[]) (hosts' : n.hosts = #[]) (gx : Grows x) (gy : Grows y)
    (gf : ∀ a, Grows (f a)) (gg : ∀ b, Grows (g b)) (h : Roomed x y m n Q E)
    (hf : ∀ a b m' n', Q a b m' n' → Roomed (f a) (g b) m' n' R E) :
    Roomed (x >>= f) (y >>= g) m n R E := by
  intro room room'
  have near : (left (x m)).heap.size ≤ UInt32.size := by
    have kept := (gx.left hosts).1
    cases hx : x m with
    | ok a m' =>
      rw [left_bind_ok hx] at room
      rw [hx] at kept
      exact Nat.le_trans ((gf a).left kept).2 room
    | error e m' =>
      rw [left_bind_error hx] at room
      exact room
  have far : (left (y n)).heap.size ≤ UInt32.size := by
    have kept := (gy.left hosts').1
    cases hy : y n with
    | ok a n' =>
      rw [left_bind_ok hy] at room'
      rw [hy] at kept
      exact Nat.le_trans ((gg a).left kept).2 room'
    | error e n' =>
      rw [left_bind_error hy] at room'
      exact room'
  exact bind ((h near far).imp hf) room room'

theorem imp {Q' : α → β → Machine → Machine → Prop} (h : Roomed x y m n Q E)
    (hQ : ∀ a b m' n', Q a b m' n' → Q' a b m' n') : Roomed x y m n Q' E :=
  fun room room' => (h room room').imp hQ

end Roomed
end Monad

/-- Two machines that are stopped in the middle of an instruction. -/
def Halts (s : Setting) (_ : Stop) (m n : Machine) : Prop :=
  ∃ b, Twin s b m n ∧ ∀ call ∈ m.frames, 0 < call.ip

/-- Two machines in the middle of an instruction, with `k` values on their stacks. -/
structure Mid (s : Setting) (b : Bridge) (k : Nat) (m n : Machine) : Prop extends Twin s b m n where
  count : m.stack.size = k
  moved : ∀ call ∈ m.frames, 0 < call.ip

/-- The functions of the innermost calls. -/
def Inner (b : Bridge) (m n : Machine) (f g : Function) : Prop :=
  ∃ c cs d ds, m.frames = c :: cs ∧ n.frames = d :: ds ∧ b.near.function? c.function = some f ∧
    b.far.function? d.function = some g

section Rules

variable {α β : Type} {s : Setting} {b : Bridge} {k : Nat} {m n : Machine} {v w : Value}
  {E : Stop → Machine → Machine → Prop}

theorem Mid.halts (h : Mid s b k m n) (e : Stop) : Halts s e m n := ⟨b, h.toTwin, h.moved⟩

theorem both_push (h : Mid s b k m n) (hv : b.Values v w) :
    Both (push v) (push w) m n (fun _ _ m' n' => Mid s b (k + 1) m' n') (Halts s) := by
  unfold push
  refine .bind (.get ?_)
  rw [h.size]
  split
  · refine .modify ⟨h.toTwin.push hv, ?_, h.moved⟩
    rw [Array.size_push, h.count]
  · exact .fail (h.halts _)

theorem both_pop (h : Mid s b (k + 2) m n) : Both pop pop m n
    (fun v w m' n' => b.Values v w ∧ Mid s b (k + 1) m' n') E := by
  have inside : k + 1 < m.stack.size := by
    rw [h.count]
    omega
  have inside' : k + 1 < n.stack.size := by rwa [h.size]
  have last : m.stack.back? = some m.stack[k + 1] := by
    rw [Array.back?, h.count]
    exact Array.getElem?_eq_getElem inside
  have last' : n.stack.back? = some n.stack[k + 1] := by
    rw [Array.back?, h.size, h.count]
    exact Array.getElem?_eq_getElem inside'
  unfold pop
  refine .bind (.get ?_)
  rw [last, last']
  refine .bind (.modify (.pure ⟨?_, h.toTwin.pop, ?_, h.moved⟩))
  · exact h.slots (Nat.succ_pos k) (Array.getElem?_eq_getElem inside)
      (Array.getElem?_eq_getElem inside')
  · rw [Array.size_pop, h.count]
    rfl

theorem both_peek {Q : Value → Value → Machine → Machine → Prop} {distance : Nat}
    (h : Mid s b k m n) (hd : distance + 1 < k) (hQ : ∀ v w, b.Values v w → Q v w m n) :
    Both (peek distance) (peek distance) m n Q E := by
  have inside : m.stack.size - 1 - distance < m.stack.size := by
    rw [h.count]
    omega
  have inside' : m.stack.size - 1 - distance < n.stack.size := by rwa [h.size]
  unfold peek
  refine .bind (.get ?_)
  dsimp only
  rw [h.size, if_pos (by rw [h.count]; omega), if_pos (by rw [h.count]; omega)]
  rw [Array.getElem?_eq_getElem inside, Array.getElem?_eq_getElem inside']
  refine .require (.some (h.slots ?_ (Array.getElem?_eq_getElem inside)
    (Array.getElem?_eq_getElem inside'))) hQ
  rw [h.count]
  omega

theorem both_slot {Q : Value → Value → Machine → Machine → Prop} {i : Nat} (h : Twin s b m n)
    (hi : 0 < i) (hQ : ∀ v w, b.Values v w → Q v w m n) : Both (slot i) (slot i) m n Q E := by
  refine .bind (.get (.require (P := b.Values) ?_ hQ))
  by_cases inside : i < m.stack.size
  · have inside' : i < n.stack.size := by rwa [h.size]
    have near := Array.getElem?_eq_getElem inside
    have far := Array.getElem?_eq_getElem inside'
    rw [near, far]
    exact .some (h.slots hi near far)
  · rw [Array.getElem?_eq_none (Nat.le_of_not_lt inside),
      Array.getElem?_eq_none (Nat.le_of_not_lt (by rwa [h.size]))]
    exact .none

theorem both_setSlot (h : Mid s b k m n) (i : Nat) (hv : b.Values v w) :
    Both (setSlot i v) (setSlot i w) m n (fun _ _ m' n' => Mid s b k m' n') E := by
  unfold setSlot
  refine .bind (.get ?_)
  rw [h.size]
  split
  · exact .modify ⟨h.toTwin.setSlot i hv, by rw [Array.size_setIfInBounds, h.count], h.moved⟩
  · exact .bad

theorem both_truncate (h : Mid s b k m n) (size : Nat) : Both (truncate size) (truncate size) m n
    (fun _ _ m' n' => Mid s b (min size k) m' n') E :=
  .modify ⟨h.toTwin.shrink size, by rw [Array.size_shrink, h.count], h.moved⟩

theorem both_drop (count : Nat) (h : Mid s b (k + count) m n) : Both (drop count) (drop count) m n
    (fun _ _ m' n' => Mid s b k m' n') E := by
  refine .modify ⟨?_, ?_, h.moved⟩
  · rw [h.size]
    exact h.toTwin.shrink _
  · rw [Array.size_shrink, h.count]
    omega

theorem both_frame {Q : Frame → Frame → Machine → Machine → Prop} (h : Twin s b m n)
    (hQ : ∀ c d cs ds, m.frames = c :: cs → n.frames = d :: ds → SameCall s b c d → Q c d m n) :
    Both frame frame m n Q E := by
  have calls := h.calls
  unfold frame
  refine .bind (.get ?_)
  cases hm : m.frames with
  | nil => exact .bad
  | cons c cs =>
    rw [hm] at calls
    obtain ⟨d, ds, hn, same, -⟩ := calls.uncons
    rw [hn]
    exact .pure (hQ c d cs ds hm hn same)

theorem both_chunk {Q : Chunk → Chunk → Machine → Machine → Prop} {f g : Function}
    (h : Twin s b m n) (inner : Inner b m n f g) (hQ : Q f.chunk g.chunk m n) :
    Both chunk chunk m n Q E := by
  obtain ⟨c, cs, d, ds, hm, hn, hf, hg⟩ := inner
  rw [h.near] at hf
  rw [h.far] at hg
  unfold chunk
  refine .bind (both_frame h fun c' d' cs' ds' hm' hn' _ => .bind (.get ?_))
  obtain ⟨rfl, rfl⟩ := List.cons.inj (hm.symm.trans hm')
  obtain ⟨rfl, rfl⟩ := List.cons.inj (hn.symm.trans hn')
  rw [hf, hg]
  exact .pure hQ

section Operands

variable {f g : Function} {i j : UInt8}

theorem both_pool {Q : Value → Value → Machine → Machine → Prop} (h : Twin s b m n)
    (inner : Inner b m n f g) (hv : f.chunk.constants[i.toNat]? = some v)
    (hw : g.chunk.constants[j.toNat]? = some w) (hQ : Q v w m n) :
    Both (constant i) (constant j) m n Q E := by
  refine .bind (both_chunk h inner ?_)
  rw [hv, hw]
  exact .pure hQ

theorem both_constant {Q : Value → Value → Machine → Machine → Prop} (h : Twin s b m n)
    (inner : Inner b m n f g) (hk : b.Constants f.chunk.constants g.chunk.constants i j)
    (hQ : ∀ v w, b.Values v w → Q v w m n) : Both (constant i) (constant j) m n Q E := by
  obtain ⟨v, w, hv, hw, values⟩ := hk
  exact both_pool h inner hv hw (hQ v w values)

theorem both_nameConstant {Q : Ref × String → Ref × String → Machine → Machine → Prop}
    (h : Twin s b m n) (inner : Inner b m n f g)
    (hk : b.Constants f.chunk.constants g.chunk.constants i j)
    (hQ : ∀ key key' name, b.near.string? key = some name → b.far.string? key' = some name →
      Q (key, name) (key', name) m n) : Both (nameConstant i) (nameConstant j) m n Q E := by
  refine .bind (both_constant h inner hk fun v w values => ?_)
  cases values with
  | @object key key' refs =>
    refine .bind (.get ?_)
    rw [← h.near, ← h.far]
    cases refs with
    | paired hp =>
      rw [(h.matched.faithful.plain hp).1]
      exact .bind .bad
    | @string text hr hq =>
      rw [hr, hq]
      refine .bind (.require (P := fun x y => x = text ∧ y = text) (.some ⟨rfl, rfl⟩)
        fun x y e => ?_)
      obtain ⟨rfl, rfl⟩ := e
      exact .pure (hQ _ _ _ hr hq)
  | _ => exact .bad

theorem both_upvalueRef {Q : Ref → Ref → Machine → Machine → Prop} (h : Twin s b m n) (i : UInt8)
    (hQ : ∀ r q, b.pairs r q → Q r q m n) : Both (upvalueRef i) (upvalueRef i) m n Q E := by
  unfold upvalueRef
  refine .bind (both_frame h fun c d cs ds _ _ same => .bind (.get (.require (P := b.pairs) ?_ hQ)))
  obtain ⟨k, l, hk, hl, upvalues⟩ := same.upvalues
  rw [← h.near, ← h.far, hk, hl]
  have := forall₂_rel upvalues i.toNat
  rwa [Array.getElem?_toList, Array.getElem?_toList] at this

end Operands
end Rules
end Machine
end StackScript
