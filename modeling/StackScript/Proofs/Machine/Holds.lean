import StackScript.Proofs.Machine.Ends
import StackScript.Proofs.Machine.Printing
import StackScript.Proofs.Machine.Upvalue

/-!
# StackScript.Proofs.Machine.Holds

What is known about a machine in the middle of an instruction.

* `Closures`: every closure has a sound function and all its upvalues.
* `Holds`: the stack has a shape, the open upvalues are tracked, and captured variables have the
  values they should have. `Fallen`: what remains of that when an instruction is stopped.
* Rules for the instructions that neither jump nor call.
-/

namespace StackScript

namespace Bytecode

open Instruction

variable {h h' : Heap}

theorem Fine.kept {pool : Array Value} {n o : Nat} {J : Nat → Shape → Prop} {σ : Shape} {x : Item}
    (k : h.Kept h') (fine : Fine ⟨h, pool, n⟩ J o σ x) : Fine ⟨h', pool, n⟩ J o σ x := by
  cases x with
  | plain i =>
    obtain ⟨top, rest, e, rooted, takes, admits, flows⟩ := fine
    refine ⟨top, rest, e, rooted, takes, ?_, flows⟩
    cases i with
    | getGlobal | defineGlobal | setGlobal =>
      obtain ⟨r, name, hr, hn⟩ := admits
      exact ⟨r, name, hr, k.string? hn⟩
    | _ => exact admits
  | closure =>
    obtain ⟨rooted, r, f, self, hr, hf, rest⟩ := fine
    exact ⟨rooted, r, f, self, hr, k.function? hf, rest⟩

theorem Layout.Fits.kept {c : Layout} {f : Function} (k : h.Kept h') (fits : c.Fits h f) :
    c.Fits h' f :=
  ⟨fits.code, fits.lines, fits.start, fun pre τ x post e => (fits.fine pre τ x post e).kept k,
    fits.ending, fun pre τ x post e lt => (fits.confined pre τ x post e lt).kept k⟩

theorem Sound.kept {r : Ref} (k : h.Kept h') (sound : Sound h r) : Sound h' r := by
  induction sound with
  | intro hf fits _ ih => exact .intro (k.function? hf) (fits.kept k) ih

end Bytecode

namespace Machine

open Bytecode
open Bytecode.Shape (temporaries Below)

structure ValidClosure (h : Heap) (k : Closure) : Prop where
  sound : Sound h k.function
  count : ∃ f, h.function? k.function = some f ∧ k.upvalues.size = f.upvalueCount
  upvalues : ∀ r ∈ k.upvalues, ∃ u, h.upvalue? r = some u

theorem ValidClosure.kept {h h' : Heap} {k : Closure} (valid : ValidClosure h k)
    (kept : h.Kept h') : ValidClosure h' k := by
  obtain ⟨f, hf, size⟩ := valid.count
  refine ⟨valid.sound.kept kept, ⟨f, kept.function? hf, size⟩, fun r hr => ?_⟩
  obtain ⟨u, hu⟩ := valid.upvalues r hr
  obtain ⟨u', hu', -⟩ := kept.upvalue? hu
  exact ⟨u', hu'⟩

def Closures (h : Heap) : Prop := ∀ r k, h.closure? r = some k → ValidClosure h k

theorem Closures.kept {h h' : Heap} (cs : Closures h) (kept : h.Kept h')
    (new : ∀ r k, h'.closure? r = some k → h.closure? r = some k ∨ ValidClosure h' k) :
    Closures h' := by
  intro r k hk
  obtain old | valid := new r k hk
  · exact (cs r k old).kept kept
  · exact valid

/-- What an instruction may be stopped with. -/
def Stop.Benign : Stop → Prop
  | .fault .stackUnderflow | .notExecutable | .malformed _ => False
  | _ => True

/-- In the middle of an instruction. The heap was `h₀` in front of it, and `W` tells the values
that captured variables should have behind it. -/
structure Holds (h₀ : Heap) (W : Ref → Value → Prop) (fs : List Frame) (σ : Shape) (m : Machine) :
    Prop where
  frames : m.frames = fs
  size : m.stack.size = σ.length
  hosts : m.hosts = #[]
  kept : h₀.Kept m.heap
  grown : h₀.size ≤ m.heap.size
  closures : m.heap.size ≤ UInt32.size → Closures m.heap
  tracked : m.heap.size ≤ UInt32.size → Tracked m.heap m.openUpvalues σ
  contents : m.heap.size ≤ UInt32.size → ∀ ⦃r v⦄, W r v → content m.stack m.heap r = some v

/-- Behind an instruction that was stopped. -/
structure Fallen (h₀ : Heap) (W : Ref → Value → Prop) (m : Machine) : Prop where
  hosts : m.hosts = #[]
  kept : h₀.Kept m.heap
  grown : h₀.size ≤ m.heap.size
  closures : m.heap.size ≤ UInt32.size → Closures m.heap
  tracked : m.heap.size ≤ UInt32.size → ∃ σ, Tracked m.heap m.openUpvalues σ
  contents : m.heap.size ≤ UInt32.size → ∀ ⦃r v⦄, W r v → content m.stack m.heap r = some v

def Stopped (h₀ : Heap) (W : Ref → Value → Prop) (s : Stop) (m : Machine) : Prop :=
  s.Benign ∧ Fallen h₀ W m

theorem Holds.fallen {h₀ : Heap} {W : Ref → Value → Prop} {fs : List Frame} {σ : Shape}
    {m : Machine} (h : Holds h₀ W fs σ m) : Fallen h₀ W m :=
  ⟨h.hosts, h.kept, h.grown, h.closures, fun hb => ⟨σ, h.tracked hb⟩, h.contents⟩

theorem content_agree {h : Heap} {stack stack' : Array Value} {r : Ref} {v : Value}
    (hv : content stack h r = some v)
    (agree : ∀ slot, h.upvalue? r = some (.opened slot) → stack'[slot]? = stack[slot]?) :
    content stack' h r = some v := by
  unfold content at hv ⊢
  cases e : h.upvalue? r with
  | none => simp [e] at hv
  | some u =>
    rw [e] at hv
    cases u with
    | closed w => exact hv
    | opened slot => exact (agree slot e).trans hv

/-- The content of an upvalue that has not changed. -/
theorem content_congr {h h' : Heap} {stack : Array Value} {r : Ref}
    (e : h'.upvalue? r = h.upvalue? r) : content stack h' r = content stack h r := by
  rw [content, content, e]

theorem getElem?_shrink {α : Type} {xs : Array α} {n i : Nat} (h : i < n) :
    (xs.shrink n)[i]? = xs[i]? := by
  rw [← Array.getElem?_toList, Array.toList_shrink, List.getElem?_take_of_lt h,
    Array.getElem?_toList]

namespace Holds

variable {h₀ : Heap} {W : Ref → Value → Prop} {fs : List Frame} {σ τ top : Shape} {m : Machine}

/-- Slots that are not captured may come, go and change. -/
theorem restack (h : Holds h₀ W fs σ m) {stack : Array Value} (size : stack.size = τ.length)
    (allowed : ∀ slot, Allows σ slot → Allows τ slot)
    (agree : ∀ slot, Allows σ slot → stack[slot]? = m.stack[slot]?) :
    Holds h₀ W fs τ { m with stack } :=
  ⟨h.frames, size, h.hosts, h.kept, h.grown, h.closures, fun hb => (h.tracked hb).reshape allowed,
    fun hb _ _ hv => content_agree (h.contents hb hv) fun slot hs =>
      agree slot ((h.tracked hb).allowed _ slot hs)⟩

theorem push (h : Holds h₀ W fs σ m) (v : Value) :
    Holds h₀ W fs (false :: σ) { m with stack := m.stack.push v } := by
  refine h.restack ?_ (fun _ ha => ha.append [false]) fun slot ha => ?_
  · rw [Array.size_push, h.size, List.length_cons]
  · exact Array.getElem?_push_lt (h.size ▸ ha.lt) ▸ (Array.getElem?_eq_getElem _).symm

theorem shrink {n : Nat} (h : Holds h₀ W fs (temporaries n ++ σ) m) :
    Holds h₀ W fs σ { m with stack := m.stack.shrink (m.stack.size - n) } := by
  have size : m.stack.size - n = σ.length := by
    rw [h.size, List.length_append, Shape.length_temporaries]
    omega
  have le : σ.length ≤ m.stack.size := by omega
  refine h.restack ?_ (fun _ ha => ha.ofTemporaries) fun slot ha => ?_
  · rw [size, Array.size_shrink]
    omega
  · rw [size, getElem?_shrink ha.ofTemporaries.lt]

theorem pop (h : Holds h₀ W fs (false :: σ) m) :
    Holds h₀ W fs σ { m with stack := m.stack.pop } := by
  have := h.shrink (n := 1) (σ := σ)
  rwa [Array.shrink_eq_take, Array.take, Array.extract_eq_pop rfl] at this

/-- Objects that are neither closures nor upvalues may be added to the heap. -/
theorem heap {h' : Heap} (h : Holds h₀ W fs σ m) (kept : m.heap.Kept h')
    (grown : m.heap.size ≤ h'.size)
    (closures : ∀ r k, h'.closure? r = some k → m.heap.closure? r = some k ∨ ValidClosure h' k)
    (upvalues : ∀ r, h'.upvalue? r = m.heap.upvalue? r) :
    Holds h₀ W fs σ { m with heap := h' } :=
  ⟨h.frames, h.size, h.hosts, h.kept.trans kept, Nat.le_trans h.grown grown,
    fun hb => (h.closures (Nat.le_trans grown hb)).kept kept closures,
    fun hb => (h.tracked (Nat.le_trans grown hb)).congr fun r _ => by
      show h'.upvalue? r = _ ↔ _
      rw [upvalues],
    fun hb _ _ hv => (content_congr (upvalues _)).trans (h.contents (Nat.le_trans grown hb) hv)⟩

theorem allocate {o : Object} (h : Holds h₀ W fs σ m) (hc : ∀ k, o ≠ .closure k)
    (hu : ∀ u, o ≠ .upvalue u) : Holds h₀ W fs σ { m with heap := (m.heap.allocate o).1 } := by
  refine h.heap (m.heap.extends_allocate o).kept (by rw [Heap.size_allocate]; omega)
    (fun r k hk => .inl ?_) fun r => upvalue?_allocate hu
  obtain old | ⟨e, -⟩ := Heap.get?_allocate_cases (Heap.closure?_eq_some.1 hk)
  · exact Heap.closure?_eq_some.2 old
  · exact absurd e.symm (hc k)

theorem intern (h : Holds h₀ W fs σ m) (text : String) :
    Holds h₀ W fs σ { m with heap := (m.heap.intern text).1 } := by
  have extends_ := m.heap.extends_intern text
  refine h.heap extends_.kept extends_.size_le (fun r k hk => .inl ?_) fun r => upvalue?_intern
  obtain old | e := Heap.get?_intern_cases (Heap.closure?_eq_some.1 hk)
  · exact Heap.closure?_eq_some.2 old
  · cases e

theorem setElement (h : Holds h₀ W fs σ m) (r : Ref) (i : Nat) (v : Value) :
    Holds h₀ W fs σ { m with heap := m.heap.setElement r i v } := by
  refine h.heap (m.heap.kept_setElement r i v) (Nat.le_of_eq (m.heap.size_setElement r i v).symm)
    (fun r' k hk => .inl ?_) fun r' => upvalue?_setElement
  obtain old | ⟨xs, ys, e, -⟩ := Heap.get?_setElement (Heap.closure?_eq_some.1 hk)
  · exact Heap.closure?_eq_some.2 old
  · cases e

end Holds

section Instructions

variable {h₀ : Heap} {W : Ref → Value → Prop} {fs : List Frame} {σ : Shape} {m : Machine}

/-- An instruction that leaves the calls as they are ends with a given shape, or is stopped. -/
abbrev Leads (h₀ : Heap) (W : Ref → Value → Prop) (fs : List Frame) (x : Exec Unit) (m : Machine)
    (σ : Shape) : Prop :=
  Ends x m (fun _ m' => Holds h₀ W fs σ m') (Stopped h₀ W)

theorem Holds.stopped (h : Holds h₀ W fs σ m) {s : Stop} (hs : s.Benign) : Stopped h₀ W s m :=
  ⟨hs, h.fallen⟩

theorem Holds.room (h : Holds h₀ W fs (false :: σ) m) : 0 < m.stack.size := by
  rw [h.size, List.length_cons]
  omega

theorem leads_push (h : Holds h₀ W fs σ m) (v : Value) :
    Leads h₀ W fs (push v) m (false :: σ) :=
  .push (h.push v) (h.stopped trivial)

theorem leads_pop (h : Holds h₀ W fs (false :: σ) m) {β : Type} {f : Value → Exec β}
    {R : β → Machine → Prop} (hf : ∀ v m', m'.heap = m.heap → Holds h₀ W fs σ m' →
      Ends (f v) m' R (Stopped h₀ W)) : Ends (pop >>= f) m R (Stopped h₀ W) :=
  .bind (.pop h.room fun v _ => hf v _ rfl h.pop)

theorem ends_popNumbers (h : Holds h₀ W fs (false :: false :: σ) m) :
    Ends popNumbers m (fun _ m' => Holds h₀ W fs σ m') (Stopped h₀ W) := by
  have size := h.size
  simp only [List.length_cons] at size
  refine .bind (.peek (by omega) fun a _ => .bind (.peek (by omega) fun b _ => ?_))
  split
  · exact .bind (.drop (.pure (h.shrink (n := 2))))
  · exact .fail (h.stopped trivial)

theorem leads_numeric (h : Holds h₀ W fs (false :: false :: σ) m) (f : Float → Float → Float) :
    Leads h₀ W fs (numeric f) m (false :: σ) :=
  .bind ((ends_popNumbers h).imp (fun _ _ h => leads_push h _) fun _ _ h => h)

theorem leads_comparison (h : Holds h₀ W fs (false :: false :: σ) m)
    (f : Float → Float → Bool) : Leads h₀ W fs (comparison f) m (false :: σ) :=
  .bind ((ends_popNumbers h).imp (fun _ _ h => leads_push h _) fun _ _ h => h)

theorem leads_compareEqual (h : Holds h₀ W fs (false :: false :: σ) m) :
    Leads h₀ W fs compareEqual m (false :: σ) :=
  leads_pop h fun _ _ _ h => leads_pop h fun _ _ _ h => leads_push h _

theorem leads_invertTruth (h : Holds h₀ W fs (false :: σ) m) :
    Leads h₀ W fs invertTruth m (false :: σ) :=
  leads_pop h fun _ _ _ h => leads_push h _

theorem leads_negateNumber (h : Holds h₀ W fs (false :: σ) m) :
    Leads h₀ W fs negateNumber m (false :: σ) := by
  refine .bind (.peek h.room fun v _ => ?_)
  split
  · exact leads_pop h fun _ _ _ h => leads_push h _
  · exact .fail (h.stopped trivial)

theorem leads_addOperands (h : Holds h₀ W fs (false :: false :: σ) m) :
    Leads h₀ W fs addOperands m (false :: σ) := by
  have size := h.size
  simp only [List.length_cons] at size
  refine .bind (.peek (by omega) fun a _ => .bind (.peek (by omega) fun b _ => .bind ?_))
  have rest (v : Value) {m' : Machine} (h : Holds h₀ W fs (false :: false :: σ) m') :
      Ends (do drop 2; push v) m' (fun _ m' => Holds h₀ W fs (false :: σ) m') (Stopped h₀ W) :=
    .bind (.drop (leads_push (h.shrink (n := 2)) v))
  unfold sum
  split
  · exact .pure (rest _ h)
  · refine .bind (.get ?_)
    dsimp only
    split
    · exact .bind (.intern (.pure (rest _ (h.intern _))))
    · exact .fail (h.stopped trivial)

theorem ends_element {Q : Ref × Nat → Machine → Prop} {target index : Value}
    (h : Holds h₀ W fs σ m) (hQ : ∀ p, Q p m) : Ends (element target index) m Q (Stopped h₀ W) := by
  unfold element
  split
  · refine .bind (.get ?_)
    split
    · split
      · split
        · exact .pure (hQ _)
        · exact .fail (h.stopped trivial)
      · exact .fail (h.stopped trivial)
    · exact .fail (h.stopped trivial)
  · exact .fail (h.stopped trivial)

theorem leads_readElement (h : Holds h₀ W fs (false :: false :: σ) m) :
    Leads h₀ W fs readElement m (false :: σ) :=
  leads_pop h fun _ _ _ h => leads_pop h fun _ _ _ h =>
    .bind (ends_element h fun _ => .bind (.get (leads_push h _)))

theorem leads_assignElement (h : Holds h₀ W fs (false :: false :: false :: σ) m) :
    Leads h₀ W fs assignElement m (false :: σ) :=
  leads_pop h fun _ _ _ h => leads_pop h fun _ _ _ h => leads_pop h fun _ _ _ h =>
    .bind (ends_element h fun _ => .bind (.modify (leads_push (h.setElement _ _ _) _)))

theorem leads_printTop (h : Holds h₀ W fs (false :: σ) m) : Leads h₀ W fs printTop m σ := by
  rw [printTop_eq]
  refine leads_pop h fun v m' _ h => .bind (.modifyGet ?_)
  have h' : Holds h₀ W fs σ { m' with output := (m'.output.write (m'.heap.display v ++ "\n")).1 } :=
    ⟨h.frames, h.size, h.hosts, h.kept, h.grown, h.closures, h.tracked, h.contents⟩
  dsimp only
  split
  · exact .pure h'
  · exact .throw (h'.stopped trivial)

theorem leads_makeArray {n : UInt8} (h : Holds h₀ W fs (temporaries n.toNat ++ σ) m) :
    Leads h₀ W fs (makeArray n) m (false :: σ) := by
  have size := h.size
  rw [List.length_append, Shape.length_temporaries] at size
  refine .bind (.get ?_)
  dsimp only
  rw [if_pos (by omega)]
  exact .bind (.truncate (.bind (.allocate
    (leads_push (h.shrink.allocate (by simp) (by simp)) _))))

section Operands

variable {call : Frame} {outer : List Frame} {f : Function}

theorem leads_constant {i : UInt8} (h : Holds h₀ W (call :: outer) σ m)
    (hf : m.heap.function? call.function = some f) (hi : i.toNat < f.chunk.constants.size) :
    Leads h₀ W (call :: outer) (do push (← constant i)) m (false :: σ) :=
  .bind (.constant h.frames hf (Array.getElem?_eq_getElem hi) (leads_push h _))

/-- A constant names a global variable. -/
def Names (m : Machine) (f : Function) (i : UInt8) : Prop :=
  ∃ r name, f.chunk.constants[i.toNat]? = some (.object r) ∧ m.heap.string? r = some name

theorem leads_readGlobal {i : UInt8} (h : Holds h₀ W (call :: outer) σ m)
    (hf : m.heap.function? call.function = some f) (hi : Names m f i) :
    Leads h₀ W (call :: outer) (readGlobal i) m (false :: σ) := by
  obtain ⟨r, name, hr, hn⟩ := hi
  refine .bind (.nameConstant h.frames hf hr hn (.bind (.get ?_)))
  split
  · exact leads_push h _
  · exact .fail (h.stopped trivial)

theorem Holds.globals (h : Holds h₀ W fs σ m) (globals : Table Value) :
    Holds h₀ W fs σ { m with globals } :=
  ⟨h.frames, h.size, h.hosts, h.kept, h.grown, h.closures, h.tracked, h.contents⟩

theorem leads_defineGlobal {i : UInt8} (h : Holds h₀ W (call :: outer) (false :: σ) m)
    (hf : m.heap.function? call.function = some f) (hi : Names m f i) :
    Leads h₀ W (call :: outer) (defineGlobal i) m σ := by
  obtain ⟨r, name, hr, hn⟩ := hi
  refine .bind (.nameConstant h.frames hf hr hn (.bind (.peek h.room fun v _ =>
    .bind (.modify ?_))))
  exact leads_pop (h.globals _) fun _ _ _ h => .pure h

theorem leads_assignGlobal {i : UInt8} (h : Holds h₀ W (call :: outer) (false :: σ) m)
    (hf : m.heap.function? call.function = some f) (hi : Names m f i) :
    Leads h₀ W (call :: outer) (assignGlobal i) m (false :: σ) := by
  obtain ⟨r, name, hr, hn⟩ := hi
  refine .bind (.nameConstant h.frames hf hr hn (.bind (.peek h.room fun v _ =>
    .bind (.modifyGet ?_))))
  generalize m.globals.insert r (Text.hash name) v = inserted
  obtain ⟨globals, isNew⟩ := inserted
  dsimp only
  split
  · refine .bind (.modify (.fail ?_))
    exact ((h.globals _).globals _).stopped trivial
  · exact .pure (h.globals _)

theorem leads_readLocal {i : UInt8} (h : Holds h₀ W (call :: outer) σ m)
    (hi : call.base + i.toNat < σ.length) :
    Leads h₀ W (call :: outer) (readLocal i) m (false :: σ) :=
  .bind (.frame h.frames (.bind (.slot (h.size ▸ hi) fun v _ => leads_push h v)))

end Operands

end Instructions
end Machine
end StackScript
