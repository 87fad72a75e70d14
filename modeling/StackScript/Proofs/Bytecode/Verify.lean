import StackScript.Proofs.Bytecode.Shape

/-!
# StackScript.Proofs.Bytecode.Verify

What a verifier accepts: code that can be run without a check of its operands, its jumps and the
height of the stack.

* `Nested`: the jumps of the code make up branches and loops, and each of them has the width of the
  code that it goes over as its operand.
* `Accepts`: an instruction finds its operands, takes no more values than there are, and leads to
  starts of instructions with the depth that is expected there.
* `Verified`: the code of a function splits into instructions that are all accepted.
* `Layout.Fits.verified`: code with a layout is accepted.
* `Part`: the functions that are in the pool of a function, or in the pools of those.
-/

namespace StackScript

namespace Instruction

/-- Code is split into instructions in one way only. -/
theorem stream_injective {is js : List Instruction} (h : stream is = stream js) : is = js := by
  induction is generalizing js with
  | nil =>
    cases js with
    | nil => rfl
    | cons j js =>
      have widths := congrArg List.length h
      have positive := j.size_pos
      simp only [length_stream, width_nil, width_cons] at widths
      omega
  | cons i is ih =>
    cases js with
    | nil =>
      have widths := congrArg List.length h
      have positive := i.size_pos
      simp only [length_stream, width_nil, width_cons] at widths
      omega
    | cons j js =>
      rw [stream_cons, stream_cons] at h
      have first := congrArg decode? h
      rw [decode?_encode, decode?_encode] at first
      obtain rfl := Option.some.inj first
      rw [ih (List.append_cancel_left h)]

end Instruction

namespace Bytecode

open Compile (Loop jumpLimit andCode orCode choiceCode)
open Instruction
open Bytecode.Shape (temporaries Below length_temporaries)

/-- An instruction without a distance. -/
def IsStraight : Instruction → Prop
  | .jump _ | .jumpIfFalse _ | .loop _ => False
  | _ => True

/-- Code put together from code without jumps. A branch or a loop goes over complete code, and is
not wider than an operand can tell. -/
inductive Nested : List Instruction → Prop where
  | straight {is : List Instruction} : (∀ i ∈ is, IsStraight i) → Nested is
  | append {is js : List Instruction} : Nested is → Nested js → Nested (is ++ js)
  | and {js : List Instruction} : Nested js → width js + 1 ≤ jumpLimit → Nested (andCode js)
  | or {js : List Instruction} : Nested js → width js + 1 ≤ jumpLimit → Nested (orCode js)
  | choice {js ks : List Instruction} : Nested js → Nested ks → width js + 4 ≤ jumpLimit →
      width ks + 1 ≤ jumpLimit → Nested (choiceCode js ks)
  | loop {l : Loop} : (∀ is ∈ l.condition, Nested is) → (∀ is ∈ l.step, Nested is) →
      Nested l.body → l.Fits → Nested l.code

theorem Nested.nil : Nested [] := .straight (by simp)

theorem Nested.single {i : Instruction} (h : IsStraight i) : Nested [i] := .straight (by simpa)

/-- The operand of an instruction is there and of the kind that it needs, with `d` slots under the
values that the instruction takes. -/
def Refers (p : Operands) (d : Nat) : Instruction → Prop
  | .constant k => k.toNat < p.constants.size
  | .getLocal i | .setLocal i => i.toNat < d
  | .getGlobal k | .defineGlobal k | .setGlobal k =>
    ∃ r name, p.constants[k.toNat]? = some (.object r) ∧ p.heap.string? r = some name
  | .getUpvalue i | .setUpvalue i => i.toNat < p.upvalues
  | .closure _ | .capture _ => False
  | _ => True

/-- Every place that an instruction can lead to satisfies `J`. -/
def Leads (J : Nat → Prop) (next : Nat) : Instruction → Prop
  | .jump d => J (next + d.toNat)
  | .jumpIfFalse d => J next ∧ J (next + d.toNat)
  | .loop d => d.toNat ≤ next ∧ J (next - d.toNat)
  | .ret => True
  | _ => J next

/-- An item at an offset is accepted with `d` slots in the frame. `J` are the offsets that it may
lead to, with the depths there. A closure finds its captures behind it; one of them may be the slot
that the closure is about to fill. -/
def Accepts (p : Operands) (J : Nat → Nat → Prop) (o d : Nat) : Item → Prop
  | .plain i =>
    (effect i).1 ≤ d ∧ Refers p (d - (effect i).1) i ∧
      Leads (fun t => J t (d - (effect i).1 + (effect i).2)) (o + i.size) i
  | .closure k captures =>
    ∃ r g, p.constants[k.toNat]? = some (.object r) ∧ p.heap.function? r = some g ∧
      captures.length = g.upvalueCount ∧
      (∀ c ∈ captures, if c.isLocal then c.index.toNat ≤ d else c.index.toNat < p.upvalues) ∧
      J (o + width (Item.closure k captures).code) (d + 1)

def itemCode (xs : List Item) : List Instruction := xs.flatMap Item.code

/-- An item stands at an offset. -/
def Starts (xs : List Item) (o : Nat) : Prop :=
  ∃ pre x post, xs = pre ++ x :: post ∧ o = width (itemCode pre)

/-- A function is accepted, given how its code splits and the depth of its frame at each offset. -/
structure Verified (h : Heap) (f : Function) (xs : List Item) (depth : Nat → Nat) : Prop where
  code : f.chunk.code.toList = stream (itemCode xs)
  lines : f.chunk.lines.size = f.chunk.code.size
  nested : Nested (itemCode xs)
  start : Starts xs 0 ∧ depth 0 = f.arity + 1
  accepts : ∀ pre x post, xs = pre ++ x :: post →
    Accepts ⟨h, f.chunk.constants, f.upvalueCount⟩ (fun o d => Starts xs o ∧ depth o = d)
      (width (itemCode pre)) (depth (width (itemCode pre))) x

/-- A function and the constants of its pool, and so on. -/
inductive Part (h : Heap) : Ref → Ref → Prop where
  | self (r : Ref) : Part h r r
  | inner {r r' r'' : Ref} {f : Function} : h.function? r = some f →
      .object r' ∈ f.chunk.constants → Part h r' r'' → Part h r r''

namespace Layout

variable {c : Layout} {o : Nat} {σ : Shape}

def items (c : Layout) : List Item := c.map Prod.snd

theorem itemCode_items (c : Layout) : itemCode c.items = c.code := by
  simp [itemCode, items, code, List.flatMap_map]

/-- The number of slots in front of the instruction at an offset. -/
def depth : Layout → Nat → Nat
  | [], _ => 0
  | (σ, x) :: c, o => if o = 0 then σ.length else depth c (o - width x.code)

theorem width_pos (x : Item) : 0 < width x.code := by
  cases x with
  | plain i => simpa [Item.code] using i.size_pos
  | closure k captures =>
    have := (Instruction.closure k).size_pos
    simp only [Item.code, width_cons]
    omega

theorem depth_eq {τ : Shape} {x : Item} (pre post : Layout) :
    (pre ++ (τ, x) :: post).depth (width pre.code) = τ.length := by
  induction pre with
  | nil => rfl
  | cons q pre ih =>
    obtain ⟨υ, y⟩ := q
    have positive := width_pos y
    rw [List.cons_append, depth, code_cons, width_append]
    rw [if_neg (by dsimp only; omega), Nat.add_sub_cancel_left, ih]

theorem items_split {pre post : List Item} {x : Item} (h : c.items = pre ++ x :: post) :
    ∃ pre' τ post', c = pre' ++ (τ, x) :: post' ∧ pre = items pre' := by
  obtain ⟨pre', rest, rfl, rfl, hr⟩ := List.map_eq_append_iff.1 h
  obtain ⟨⟨τ, y⟩, post', rfl, rfl, -⟩ := List.map_eq_cons_iff.1 hr
  exact ⟨pre', τ, post', rfl, rfl⟩

theorem At.start (h : c.At o σ) : Starts c.items o ∧ c.depth o = σ.length := by
  obtain ⟨pre, τ, x, post, rfl, rfl, below⟩ := h
  exact ⟨⟨items pre, x, items post, by simp [items], by rw [itemCode_items]⟩,
    (depth_eq pre post).trans below.length_eq.symm⟩

theorem refers_of_admits {p : Operands} {i : Instruction} (h : Admits p σ i) :
    Refers p σ.length i := by
  cases i with
  | getLocal | setLocal => exact h.2
  | _ => exact h

theorem leads_of_flows {J : Nat → Shape → Prop} {J' : Nat → Prop} {next : Nat} {i : Instruction}
    (hJ : ∀ t, J t σ → J' t) (h : Flows J next σ i) : Leads J' next i := by
  cases i with
  | jumpIfFalse => exact ⟨hJ _ h.1, hJ _ h.2⟩
  | loop => exact ⟨h.1, hJ _ h.2⟩
  | ret => trivial
  | _ => exact hJ _ h

theorem length_of_takes {i : Instruction} {top : Shape} (h : Takes i top) :
    top.length = (effect i).1 := by
  unfold Takes at h
  split at h
  · exact h
  · rw [h, length_temporaries]

/-- What a layout says about the slots of a frame is more than a verifier asks for. -/
theorem accepts_of_fine {p : Operands} {J : Nat → Nat → Prop} {x : Item}
    (hJ : ∀ t τ, c.At t τ → J t τ.length) (h : Fine p c.At o σ x) :
    Accepts p J o σ.length x := by
  cases x with
  | plain i =>
    obtain ⟨top, rest, rfl, -, takes, admits, flows⟩ := h
    have under : (top ++ rest).length - (effect i).1 = rest.length := by
      rw [List.length_append, length_of_takes takes, Nat.add_sub_cancel_left]
    refine ⟨?_, ?_, ?_⟩
    · rw [List.length_append, length_of_takes takes]
      exact Nat.le_add_right ..
    · rw [under]
      exact refers_of_admits admits
    · rw [under]
      refine leads_of_flows (fun t reached => ?_) flows
      have := hJ t _ reached
      rwa [List.length_append, length_temporaries, Nat.add_comm] at this
  | closure k captures =>
    obtain ⟨-, r, g, self, pool, hg, count, captured, reached⟩ := h
    refine ⟨r, g, pool, hg, count, fun cap hc => ?_, hJ _ _ reached⟩
    have inside := captured cap hc
    unfold Captures at inside
    split
    next hl =>
      rw [if_pos hl] at inside
      obtain ⟨lt, -⟩ := List.getElem?_eq_some_iff.1 inside
      rw [List.length_reverse, List.length_cons] at lt
      exact Nat.le_of_lt_succ lt
    next hl => rwa [if_neg hl] at inside

theorem Fits.verified {h : Heap} {f : Function} (fits : c.Fits h f) (nested : Nested c.code) :
    Verified h f c.items c.depth where
  code := by rw [itemCode_items, fits.code]
  lines := fits.lines
  nested := by rwa [itemCode_items]
  start := by
    have := fits.start.start
    rwa [length_temporaries] at this
  accepts pre x post hx := by
    obtain ⟨pre, τ, post, hc, rfl⟩ := items_split hx
    have fine := fits.fine pre τ x post hc
    have here : c.depth (width pre.code) = τ.length := by
      rw [hc]
      exact depth_eq pre post
    rw [itemCode_items, here]
    exact accepts_of_fine (fun _ _ reached => At.start reached) fine

end Layout
end Bytecode
end StackScript
