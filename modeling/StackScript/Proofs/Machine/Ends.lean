import StackScript.Machine.Exec

/-!
# StackScript.Proofs.Machine.Ends

How computations of the machine end.

* `Ends`: a computation ends with a value and a machine that satisfy one property, or is stopped
  with a machine that satisfies another one.
* `Ends.bind` and one rule for each step that instructions are made of.
-/

namespace StackScript
namespace Machine

def Ends {α : Type} (x : Exec α) (m : Machine) (Q : α → Machine → Prop)
    (E : Stop → Machine → Prop) : Prop :=
  match x m with
  | .ok a m' => Q a m'
  | .error s m' => E s m'

namespace Ends

variable {α β : Type} {m : Machine} {E : Stop → Machine → Prop}

section Monad

variable {Q : α → Machine → Prop} {R : β → Machine → Prop} {x : Exec α} {f : α → Exec β}

theorem pure {a : α} (h : Q a m) : Ends (Pure.pure a) m Q E := h

theorem bind (h : Ends x m (fun a m' => Ends (f a) m' R E) E) : Ends (x >>= f) m R E := by
  unfold Ends at h ⊢
  simp only [Bind.bind, EStateM.bind]
  cases hx : x m with
  | ok a m' => simpa [hx] using h
  | error s m' => simpa [hx] using h

theorem imp {Q' : α → Machine → Prop} {E' : Stop → Machine → Prop} (h : Ends x m Q E)
    (hQ : ∀ a m', Q a m' → Q' a m') (hE : ∀ s m', E s m' → E' s m') : Ends x m Q' E' := by
  unfold Ends at h ⊢
  cases hx : x m with
  | ok a m' =>
    rw [hx] at h
    exact hQ a m' h
  | error s m' =>
    rw [hx] at h
    exact hE s m' h

theorem throw {s : Stop} (h : E s m) : Ends (throw s : Exec α) m Q E := h

theorem fail {f : Fault} (h : E (.fault f) m) : Ends (fail f : Exec α) m Q E := h

theorem require {a : α} {o : Option α} {cause : Malformed} (ho : o = some a) (h : Q a m) :
    Ends (require o cause) m Q E := by
  subst ho
  exact h

theorem get {Q : Machine → Machine → Prop} (h : Q m m) : Ends (get : Exec Machine) m Q E := h

theorem modify {Q : Unit → Machine → Prop} {f : Machine → Machine} (h : Q () (f m)) :
    Ends (modify f : Exec Unit) m Q E := h

theorem modifyGet {f : Machine → α × Machine} (h : Q (f m).1 (f m).2) :
    Ends (modifyGet f : Exec α) m Q E := h

end Monad

section Stack

theorem push {Q : Unit → Machine → Prop} {v : Value} (h : Q () { m with stack := m.stack.push v })
    (he : E (.fault .stackOverflow) m) : Ends (push v) m Q E := by
  refine bind (get ?_)
  split
  · exact h
  · exact he

theorem pop {Q : Value → Machine → Prop} (hs : 0 < m.stack.size)
    (h : ∀ v, m.stack.back? = some v → Q v { m with stack := m.stack.pop }) :
    Ends pop m Q E := by
  refine bind (get ?_)
  split
  next v hv => exact h v hv
  next hv =>
    rw [Array.back?_eq_none_iff] at hv
    rw [hv] at hs
    cases hs

theorem peek {Q : Value → Machine → Prop} {distance : Nat} (hs : distance < m.stack.size)
    (h : ∀ v, m.stack[m.stack.size - 1 - distance]? = some v → Q v m) :
    Ends (peek distance) m Q E := by
  have inside : m.stack.size - 1 - distance < m.stack.size := by omega
  refine bind (get ?_)
  simp only [if_pos hs]
  exact require (Array.getElem?_eq_getElem inside) (h _ (Array.getElem?_eq_getElem inside))

theorem slot {Q : Value → Machine → Prop} {i : Nat} (hs : i < m.stack.size)
    (h : ∀ v, m.stack[i]? = some v → Q v m) : Ends (slot i) m Q E :=
  bind (get (require (Array.getElem?_eq_getElem hs) (h _ (Array.getElem?_eq_getElem hs))))

theorem setSlot {Q : Unit → Machine → Prop} {i : Nat} {v : Value} (hs : i < m.stack.size)
    (h : Q () { m with stack := m.stack.setIfInBounds i v }) : Ends (setSlot i v) m Q E := by
  refine bind (get ?_)
  simp only [if_pos hs]
  exact modify h

theorem drop {Q : Unit → Machine → Prop} {count : Nat}
    (h : Q () { m with stack := m.stack.shrink (m.stack.size - count) }) :
    Ends (drop count) m Q E := h

theorem truncate {Q : Unit → Machine → Prop} {size : Nat}
    (h : Q () { m with stack := m.stack.shrink size }) : Ends (truncate size) m Q E := h

end Stack

section Calls

variable {call : Frame} {outer : List Frame} {f : Function}

theorem frame {Q : Frame → Machine → Prop} (hf : m.frames = call :: outer) (h : Q call m) :
    Ends frame m Q E := by
  refine bind (get ?_)
  rw [hf]
  exact pure h

theorem setIp {Q : Unit → Machine → Prop} {ip : Nat} (hf : m.frames = call :: outer)
    (h : Q () { m with frames := { call with ip } :: outer }) : Ends (setIp ip) m Q E := by
  refine modify ?_
  rw [hf]
  exact h

theorem chunk {Q : Chunk → Machine → Prop} (hf : m.frames = call :: outer)
    (hr : m.heap.function? call.function = some f) (h : Q f.chunk m) : Ends chunk m Q E := by
  refine bind (Ends.frame hf (bind (get ?_)))
  rw [hr]
  exact pure h

theorem constant {Q : Value → Machine → Prop} {i : UInt8} {v : Value}
    (hf : m.frames = call :: outer) (hr : m.heap.function? call.function = some f)
    (hv : f.chunk.constants[i.toNat]? = some v) (h : Q v m) : Ends (constant i) m Q E :=
  bind (chunk hf hr (require hv h))

theorem nameConstant {Q : Ref × String → Machine → Prop} {i : UInt8} {r : Ref} {name : String}
    (hf : m.frames = call :: outer) (hr : m.heap.function? call.function = some f)
    (hv : f.chunk.constants[i.toNat]? = some (.object r)) (hn : m.heap.string? r = some name)
    (h : Q (r, name) m) : Ends (nameConstant i) m Q E :=
  bind (constant hf hr hv (bind (get (bind (require hn (pure h))))))

theorem upvalueRef {Q : Ref → Machine → Prop} {i : UInt8} {c : Closure} {r : Ref}
    (hf : m.frames = call :: outer) (hc : m.heap.closure? call.closure = some c)
    (hr : c.upvalues[i.toNat]? = some r) (h : Q r m) : Ends (upvalueRef i) m Q E := by
  refine bind (Ends.frame hf (bind (get (require ?_ h))))
  rw [hc]
  exact hr

theorem allocate {Q : Ref → Machine → Prop} {o : Object}
    (h : Q (m.heap.allocate o).2 { m with heap := (m.heap.allocate o).1 }) :
    Ends (allocate o) m Q E := h

theorem intern {Q : Ref → Machine → Prop} {text : String}
    (h : Q (m.heap.intern text).2 { m with heap := (m.heap.intern text).1 }) :
    Ends (intern text) m Q E := h

theorem fetch {Q : Instruction → Machine → Prop} {i : Instruction}
    (hf : m.frames = call :: outer) (hr : m.heap.function? call.function = some f)
    (hi : f.chunk.read? call.ip = some i)
    (h : Q i { m with frames := { call with ip := call.ip + i.size } :: outer }) :
    Ends fetch m Q E := by
  refine bind (Ends.frame hf (bind (chunk hf hr (bind (require hi (bind (setIp hf (pure ?_))))))))
  exact h

end Calls
end Ends
end Machine
end StackScript
