import StackScript.Proofs.Bytecode.Branch
import StackScript.Proofs.Entrywise
import StackScript.Proofs.Store.Heap

/-!
# StackScript.Proofs.Bytecode.Shape

Which slots of its frame a function has in use at each of its instructions, and which of them a
closure may have captured.

* `Shape`: the slots of a frame. `Layout`: code with the shape in front of each instruction.
* `Layout.At`: the shapes with which an offset may be reached. `Fine`: an instruction finds its
  operands, takes only slots that are not captured, and leads to offsets that may be reached.
* `Layout.Fits`: a layout of a function whose instructions are fine.
* `Sound`: a function has a layout, and so have the functions it makes closures of.
* `Segment`: code without open ends that leads from one shape to another.
-/

namespace StackScript
namespace Bytecode

open Compile (Loop jumpLimit)
open Instruction

/-- For each slot of a frame, the topmost first, whether it may be captured. -/
abbrev Shape := List Bool

namespace Shape

/-- Slots may be captured only where another shape allows it. -/
def Below (σ τ : Shape) : Prop := List.Forall₂ (fun a b => a = true → b = true) σ τ

/-- Slots that are not captured. -/
def temporaries (n : Nat) : Shape := List.replicate n false

variable {σ τ υ : Shape}

theorem Below.refl (σ : Shape) : σ.Below σ := forall₂_refl (fun _ h => h) σ

theorem Below.trans (h : σ.Below τ) (h' : τ.Below υ) : σ.Below υ :=
  forall₂_trans (R := fun a b => a = true → b = true) (fun r r' => r' ∘ r) h h'

theorem Below.length_eq (h : σ.Below τ) : σ.length = τ.length := List.Forall₂.length_eq h

theorem temporaries_below (σ : Shape) : (temporaries σ.length).Below σ := by
  induction σ with
  | nil => exact .nil
  | cons b σ ih => exact .cons (by simp) ih

@[simp] theorem length_temporaries (n : Nat) : (temporaries n).length = n := List.length_replicate

theorem temporaries_succ (n : Nat) : temporaries (n + 1) = false :: temporaries n := rfl

theorem temporaries_append_cons (n : Nat) (σ : Shape) :
    temporaries n ++ false :: σ = temporaries (n + 1) ++ σ := by
  induction n with
  | zero => rfl
  | succ n ih =>
    rw [temporaries_succ, List.cons_append, ih]
    rfl

theorem temporaries_add (m n : Nat) : temporaries m ++ temporaries n = temporaries (m + n) :=
  List.replicate_append_replicate

/-- The lowest slot of a frame, which has the callee, is there and is never captured. -/
def Rooted (σ : Shape) : Prop := σ.getLast? = some false

theorem Rooted.ne_nil (h : σ.Rooted) : σ ≠ [] := by
  rintro rfl
  cases h

theorem Rooted.append (τ : Shape) (h : σ.Rooted) : Rooted (τ ++ σ) := by
  rw [Rooted, List.getLast?_append, show σ.getLast? = some false from h, Option.some_or]

theorem Rooted.cons (b : Bool) (h : σ.Rooted) : Rooted (b :: σ) := h.append [b]

theorem Rooted.ofAppend (h : Rooted (τ ++ σ)) (hσ : σ ≠ []) : σ.Rooted := by
  rwa [Rooted, List.getLast?_append_of_ne_nil _ hσ] at h

theorem Rooted.lower (h : τ.Rooted) (hb : σ.Below τ) : σ.Rooted := by
  rw [Rooted, List.getLast?_eq_getElem?] at h ⊢
  obtain ⟨b, e, raised⟩ := forall₂_getElem? hb.flip h
  rw [hb.length_eq, e]
  cases b with
  | false => rfl
  | true => cases raised rfl

end Shape

open Shape

/-- An instruction with the captures that are its data. -/
inductive Item where
  | plain (i : Instruction)
  | closure (constant : UInt8) (captures : List Capture)

namespace Item

def code : Item → List Instruction
  | .plain i => [i]
  | .closure k captures => .closure k :: captures.map .capture

@[simp] theorem width_plain (i : Instruction) : width (plain i).code = i.size := rfl

end Item

/-- Code with the shape in front of each instruction. -/
abbrev Layout := List (Shape × Item)

namespace Layout

def code (c : Layout) : List Instruction := c.flatMap fun p => p.2.code

@[simp] theorem code_nil : code [] = [] := rfl

@[simp] theorem code_cons (p : Shape × Item) (c : Layout) : code (p :: c) = p.2.code ++ code c := rfl

@[simp] theorem code_append (c d : Layout) : code (c ++ d) = code c ++ code d := by
  simp [code]

/-- An offset may be reached with a shape. -/
def At (c : Layout) (o : Nat) (σ : Shape) : Prop :=
  ∃ pre τ x post, c = pre ++ (τ, x) :: post ∧ o = width (code pre) ∧ σ.Below τ

end Layout

/-- What the operands of a function refer to. -/
structure Operands where
  heap : Heap
  constants : Array Value
  upvalues : Nat

/-- How many values an instruction takes from the stack, and how many it leaves there. -/
def effect : Instruction → Nat × Nat
  | .constant _ | .pushNil | .pushTrue | .pushFalse | .getLocal _ | .getGlobal _ | .getUpvalue _
  | .closure _ => (0, 1)
  | .pop | .defineGlobal _ | .print | .ret | .closeUpvalue => (1, 0)
  | .setLocal _ | .setGlobal _ | .setUpvalue _ | .negation | .negate | .jumpIfFalse _ => (1, 1)
  | .getIndex | .equal | .greater | .less | .add | .subtract | .multiply | .divide => (2, 1)
  | .setIndex => (3, 1)
  | .call n => (n.toNat + 1, 1)
  | .array n => (n.toNat, 1)
  | .jump _ | .loop _ | .capture _ => (0, 0)

/-- The slots that an instruction takes. -/
def Takes : Instruction → Shape → Prop
  | .closeUpvalue, top => top.length = 1
  | i, top => top = temporaries (effect i).1

/-- The operand of an instruction is there, with a given shape under the values it takes. The callee
is no local. -/
def Admits (p : Operands) (σ : Shape) : Instruction → Prop
  | .constant k => k.toNat < p.constants.size
  | .getLocal i | .setLocal i => i ≠ 0 ∧ i.toNat < σ.length
  | .getGlobal k | .defineGlobal k | .setGlobal k =>
    ∃ r name, p.constants[k.toNat]? = some (.object r) ∧ p.heap.string? r = some name
  | .getUpvalue i | .setUpvalue i => i.toNat < p.upvalues
  | .closure _ | .capture _ => False
  | _ => True

/-- Where an instruction leads, given the shapes with which offsets may be reached. -/
def Flows (J : Nat → Shape → Prop) (next : Nat) (σ : Shape) : Instruction → Prop
  | .jump d => J (next + d.toNat) σ
  | .jumpIfFalse d => J next σ ∧ J (next + d.toNat) σ
  | .loop d => d.toNat ≤ next ∧ J (next - d.toNat) σ
  | .ret => True
  | _ => J next σ

/-- A capture is there, given the slots of the frame and whether the one that the closure is about
to fill may be captured. -/
def Captures (p : Operands) (σ : Shape) (self : Bool) (c : Capture) : Prop :=
  if c.isLocal then (self :: σ).reverse[c.index.toNat]? = some true
  else c.index.toNat < p.upvalues

def Fine (p : Operands) (J : Nat → Shape → Prop) (o : Nat) (σ : Shape) : Item → Prop
  | .plain i =>
    ∃ top rest, σ = top ++ rest ∧ rest.Rooted ∧ Takes i top ∧ Admits p rest i ∧
      Flows J (o + i.size) (temporaries (effect i).2 ++ rest) i
  | .closure k captures =>
    σ.Rooted ∧ ∃ r f self, p.constants[k.toNat]? = some (.object r) ∧ p.heap.function? r = some f ∧
      captures.length = f.upvalueCount ∧ (∀ c ∈ captures, Captures p σ self c) ∧
      J (o + width (Item.closure k captures).code) (self :: σ)

/-- A layout of the code of a function. Its first instruction is reached with the callee and the
arguments on the stack. -/
structure Layout.Fits (c : Layout) (h : Heap) (f : Function) : Prop where
  code : f.chunk.code.toList = stream c.code
  lines : f.chunk.lines.size = f.chunk.code.size
  start : c.At 0 (temporaries (f.arity + 1))
  fine : ∀ (pre : Layout) τ x post, c = pre ++ (τ, x) :: post →
    Fine ⟨h, f.chunk.constants, f.upvalueCount⟩ c.At (width pre.code) τ x
  /-- Behind its body a script has the callee on the stack only. Two octets end it. -/
  ending : f.name = none → ∀ σ, c.At (f.chunk.code.size - 2) σ → σ.length = 1
  /-- The instructions of the body do not lead to the last octet. -/
  confined : ∀ (pre : Layout) τ x post, c = pre ++ (τ, x) :: post →
    width pre.code < f.chunk.code.size - 2 →
    Fine ⟨h, f.chunk.constants, f.upvalueCount⟩ (fun o _ => o ≤ f.chunk.code.size - 2)
      (width pre.code) τ x

/-- The functions that a layout makes closures of satisfy `S`. -/
def Makes (p : Operands) (S : Ref → Prop) (c : Layout) : Prop :=
  ∀ τ k captures r, (τ, Item.closure k captures) ∈ c →
    p.constants[k.toNat]? = some (.object r) → S r

/-- The code of a function has a layout, and so has that of the functions it makes closures of. -/
inductive Sound (h : Heap) : Ref → Prop where
  | intro {r : Ref} {f : Function} {c : Layout} :
      h.function? r = some f → c.Fits h f →
      (∀ τ k captures r', (τ, Item.closure k captures) ∈ c →
        f.chunk.constants[k.toNat]? = some (.object r') → Sound h r') →
      Sound h r

/-- Offsets that may be reached with a shape may be reached with fewer captured slots. -/
def Lower (J : Nat → Shape → Prop) : Prop := ∀ ⦃o : Nat⦄ ⦃σ τ : Shape⦄, σ.Below τ → J o τ → J o σ

namespace Layout

theorem lower_at (c : Layout) : Lower c.At := by
  rintro o σ τ h ⟨pre, υ, x, post, hc, ho, hτ⟩
  exact ⟨pre, υ, x, post, hc, ho, h.trans hτ⟩

/-- The instructions of a layout may be reached. -/
def Marked (J : Nat → Shape → Prop) : Nat → Layout → Prop
  | _, [] => True
  | o, (σ, x) :: c => J o σ ∧ Marked J (o + width x.code) c

def AllFine (p : Operands) (J : Nat → Shape → Prop) : Nat → Layout → Prop
  | _, [] => True
  | o, (σ, x) :: c => Fine p J o σ x ∧ AllFine p J (o + width x.code) c

variable {p : Operands} {J : Nat → Shape → Prop} {o : Nat} {c d : Layout}

theorem marked_append :
    Marked J o (c ++ d) ↔ Marked J o c ∧ Marked J (o + width c.code) d := by
  induction c generalizing o with
  | nil => simp [Marked]
  | cons q c ih =>
    rw [List.cons_append, Marked, Marked, ih, code_cons, width_append, Nat.add_assoc, and_assoc]

theorem allFine_append :
    AllFine p J o (c ++ d) ↔ AllFine p J o c ∧ AllFine p J (o + width c.code) d := by
  induction c generalizing o with
  | nil => simp [AllFine]
  | cons q c ih =>
    rw [List.cons_append, AllFine, AllFine, ih, code_cons, width_append, Nat.add_assoc, and_assoc]

theorem marked_at (pre : Layout) (c : Layout) : Marked (pre ++ c).At (width pre.code) c := by
  induction c generalizing pre with
  | nil => trivial
  | cons q c ih =>
    obtain ⟨σ, x⟩ := q
    refine ⟨⟨pre, σ, x, c, rfl, rfl, .refl σ⟩, ?_⟩
    have := ih (pre ++ [(σ, x)])
    rw [List.append_assoc, code_append, width_append] at this
    simpa using this

/-- Instructions start in front of the end of the code. -/
theorem marked_le {W : Nat} (h : o + width c.code ≤ W) : Marked (fun o _ => o ≤ W) o c := by
  induction c generalizing o with
  | nil => trivial
  | cons q c ih =>
    rw [code_cons, width_append, ← Nat.add_assoc] at h
    exact ⟨by omega, ih h⟩

/-- An item in front of a place is among those up to the place. -/
theorem split_of_lt {pre post : Layout} {q : Shape × Item} (h : c ++ d = pre ++ q :: post)
    (lt : width pre.code < width c.code) : ∃ rest, c = pre ++ q :: rest := by
  obtain ⟨us, rfl, -⟩ | ⟨us, rfl, e⟩ := List.append_eq_append_iff.1 h
  · rw [code_append, width_append] at lt
    omega
  · cases us with
    | nil => simp at lt
    | cons u us =>
      obtain ⟨rfl, -⟩ := List.cons.inj e
      exact ⟨us, rfl⟩

theorem AllFine.fine (h : AllFine p J o c) {pre post : Layout} {σ : Shape} {x : Item}
    (hc : c = pre ++ (σ, x) :: post) : Fine p J (o + width pre.code) σ x := by
  subst hc
  exact (allFine_append.1 h).2.1

end Layout

open Layout

section Makes

variable {p : Operands} {S : Ref → Prop} {c d : Layout}

theorem Makes.nil : Makes p S [] := fun _ _ _ _ h => by cases h

theorem Makes.append (h : Makes p S c) (h' : Makes p S d) : Makes p S (c ++ d) := by
  intro τ k captures r hm
  obtain hm | hm := List.mem_append.1 hm
  · exact h τ k captures r hm
  · exact h' τ k captures r hm

theorem Makes.cons {τ : Shape} {i : Instruction} (h : Makes p S c) :
    Makes p S ((τ, .plain i) :: c) := by
  intro τ' k captures r hm
  obtain hm | hm := List.mem_cons.1 hm
  · cases hm
  · exact h τ' k captures r hm

end Makes

/-- Code that leads from one shape to another, and makes closures of functions that satisfy `S`. -/
def Segment (p : Operands) (S : Ref → Prop) (σ : Shape) (is : List Instruction) (σ' : Shape) :
    Prop :=
  ∃ c : Layout, c.code = is ∧ Makes p S c ∧
    ∀ J o, Lower J → Marked J o c → J (o + width is) σ' → J o σ ∧ AllFine p J o c

theorem toNat_toUInt16 {n : Nat} (h : n ≤ jumpLimit) : n.toUInt16.toNat = n := by
  have : n < 65536 := Nat.lt_succ_of_le h
  simpa using this

theorem reach {J : Nat → Shape → Prop} {o o' : Nat} {σ : Shape} (h : J o σ) (e : o = o') :
    J o' σ :=
  e ▸ h

theorem size_pop : size .pop = 1 := rfl

theorem size_jump (d : UInt16) : (jump d).size = 3 := rfl

theorem size_jumpIfFalse (d : UInt16) : (jumpIfFalse d).size = 3 := rfl

theorem size_loop (d : UInt16) : (loop d).size = 3 := rfl

open Item (width_plain)

namespace Segment

variable {p : Operands} {S : Ref → Prop} {σ σ₁ σ' : Shape} {is js ks : List Instruction}

theorem nil (σ : Shape) : Segment p S σ [] σ :=
  ⟨[], rfl, .nil, fun _ _ _ _ h => ⟨h, trivial⟩⟩

theorem append (h : Segment p S σ is σ₁) (h' : Segment p S σ₁ js σ') :
    Segment p S σ (is ++ js) σ' := by
  obtain ⟨c, rfl, hc, fine⟩ := h
  obtain ⟨d, rfl, hd, fine'⟩ := h'
  refine ⟨c ++ d, Layout.code_append c d, hc.append hd, fun J o lower marked last => ?_⟩
  · rw [width_append, ← Nat.add_assoc] at last
    obtain ⟨m, m'⟩ := marked_append.1 marked
    obtain ⟨middle, f'⟩ := fine' J _ lower m' last
    obtain ⟨start, f⟩ := fine J o lower m middle
    exact ⟨start, allFine_append.2 ⟨f, f'⟩⟩

/-- More slots may be captured behind the code. -/
theorem weaken (h : Segment p S σ is σ₁) (hb : σ₁.Below σ') : Segment p S σ is σ' := by
  obtain ⟨c, rfl, hc, fine⟩ := h
  exact ⟨c, rfl, hc, fun J o lower marked last => fine J o lower marked (lower hb last)⟩

/-- An instruction that goes on with the next one. -/
theorem single {i : Instruction} {τ rest : Shape} (hr : rest.Rooted) (ht : Takes i τ)
    (ha : Admits p rest i) (hf : ∀ (J : Nat → Shape → Prop) next υ, J next υ → Flows J next υ i) :
    Segment p S (τ ++ rest) [i] (temporaries (effect i).2 ++ rest) := by
  refine ⟨[(τ ++ rest, .plain i)], rfl, .cons .nil, fun J o _ marked last => ⟨marked.1, ?_, trivial⟩⟩
  have width : width [i] = i.size := by simp
  rw [width] at last
  exact ⟨τ, rest, rfl, hr, ht, ha, hf J _ _ last⟩

theorem closure {k : UInt8} {captures : List Capture} {r : Ref} {f : Function} {self : Bool}
    (hσ : σ.Rooted) (hk : p.constants[k.toNat]? = some (.object r))
    (hf : p.heap.function? r = some f) (hl : captures.length = f.upvalueCount)
    (hc : ∀ c ∈ captures, Captures p σ self c) (hr : S r) :
    Segment p S σ (.closure k :: captures.map .capture) (self :: σ) := by
  refine ⟨[(σ, .closure k captures)], by simp [Item.code], ?_, fun J o _ marked last => ?_⟩
  · intro τ k' captures' r' hm hr'
    cases List.mem_singleton.1 hm
    obtain rfl : r = r' := by simpa [hk] using hr'
    exact hr
  · exact ⟨marked.1, ⟨hσ, r, f, self, hk, hf, hl, hc, last⟩, trivial⟩

/-- Both ways past an `and` leave one value. -/
theorem andCode (hσ : σ.Rooted) (h : Segment p S σ js (false :: σ))
    (hw : width js + 1 ≤ jumpLimit) :
    Segment p S (false :: σ) (Compile.andCode js) (false :: σ) := by
  obtain ⟨c, rfl, hc, fine⟩ := h
  let c' : Layout := (false :: σ, .plain (.jumpIfFalse (width c.code + 1).toUInt16)) ::
    (false :: σ, .plain .pop) :: c
  refine ⟨c', rfl, .cons (.cons hc), fun J o lower marked last => ?_⟩
  obtain ⟨first, second, rest⟩ := marked
  have rest : Marked J (o + 4) c := rest
  have size : width (Compile.andCode c.code) = 4 + width c.code := by
    simp only [Compile.andCode, width_cons, size_jumpIfFalse, size_pop]
    omega
  rw [size] at last
  obtain ⟨start, inner⟩ := fine J (o + 4) lower rest (reach last (by omega))
  refine ⟨first, ⟨[false], σ, rfl, hσ, rfl, trivial, second, ?_⟩,
    ⟨[false], σ, rfl, hσ, rfl, trivial, start⟩, inner⟩
  exact reach last (by rw [toNat_toUInt16 hw, size_jumpIfFalse]; omega)

theorem orCode (hσ : σ.Rooted) (h : Segment p S σ js (false :: σ))
    (hw : width js + 1 ≤ jumpLimit) :
    Segment p S (false :: σ) (Compile.orCode js) (false :: σ) := by
  obtain ⟨c, rfl, hc, fine⟩ := h
  let c' : Layout := (false :: σ, .plain (.jumpIfFalse 3)) ::
    (false :: σ, .plain (.jump (width c.code + 1).toUInt16)) :: (false :: σ, .plain .pop) :: c
  refine ⟨c', rfl, .cons (.cons (.cons hc)), fun J o lower marked last => ?_⟩
  obtain ⟨first, second, third, rest⟩ := marked
  have rest : Marked J (o + 7) c := rest
  have size : width (Compile.orCode c.code) = 7 + width c.code := by
    simp only [Compile.orCode, width_cons, size_jumpIfFalse, size_jump, size_pop]
    omega
  rw [size] at last
  obtain ⟨start, inner⟩ := fine J (o + 7) lower rest (reach last (by omega))
  refine ⟨first, ⟨[false], σ, rfl, hσ, rfl, trivial, second, third⟩,
    ⟨[], false :: σ, rfl, hσ.cons false, rfl, trivial, ?_⟩,
    ⟨[false], σ, rfl, hσ, rfl, trivial, start⟩, inner⟩
  refine reach last ?_
  rw [toNat_toUInt16 hw, size_jump, width_plain, size_jumpIfFalse]
  omega

/-- Both branches start without the condition. -/
theorem choiceCode (hσ : σ.Rooted) (h : Segment p S σ js σ) (h' : Segment p S σ ks σ)
    (hw : width js + 4 ≤ jumpLimit) (hw' : width ks + 1 ≤ jumpLimit) :
    Segment p S (false :: σ) (Compile.choiceCode js ks) σ := by
  obtain ⟨c, rfl, hc, fine⟩ := h
  obtain ⟨d, rfl, hd, fine'⟩ := h'
  let c' : Layout := (false :: σ, .plain (.jumpIfFalse (width c.code + 4).toUInt16)) ::
    (false :: σ, .plain .pop) :: (c ++ (σ, .plain (.jump (width d.code + 1).toUInt16)) ::
      (false :: σ, .plain .pop) :: d)
  have code : c'.code = Compile.choiceCode c.code d.code := by
    simp [c', Item.code, Compile.choiceCode]
  refine ⟨c', code, .cons (.cons (hc.append (.cons (.cons hd)))), fun J o lower marked last => ?_⟩
  obtain ⟨first, second, rest⟩ := marked
  have rest : Marked J (o + 4) (c ++ (σ, .plain (.jump (width d.code + 1).toUInt16)) ::
    (false :: σ, .plain .pop) :: d) := rest
  obtain ⟨yes, jumps, pops, no⟩ := marked_append.1 rest
  have no : Marked J (o + 4 + width c.code + 4) d := no
  have size : width (Compile.choiceCode c.code d.code) = 8 + width c.code + width d.code := by
    simp only [Compile.choiceCode, width_cons, width_append, size_jumpIfFalse, size_jump, size_pop]
    omega
  rw [size] at last
  obtain ⟨start, inner⟩ := fine J (o + 4) lower yes jumps
  obtain ⟨start', inner'⟩ := fine' J _ lower no (reach last (by omega))
  refine ⟨first, ⟨[false], σ, rfl, hσ, rfl, trivial, second, ?_⟩,
    ⟨[false], σ, rfl, hσ, rfl, trivial, start⟩,
    allFine_append.2 ⟨inner, ⟨[], σ, rfl, hσ, rfl, trivial, ?_⟩,
      ⟨[false], σ, rfl, hσ, rfl, trivial, start'⟩, inner'⟩⟩
  · refine reach pops ?_
    rw [toNat_toUInt16 hw, size_jumpIfFalse, width_plain, size_jump]
    omega
  · refine reach last ?_
    rw [toNat_toUInt16 hw', size_jump, width_plain, width_plain, size_jumpIfFalse, size_pop]
    omega

section Loop

variable {l : Loop}

/-- The way into a loop, given what the way out leads to. -/
theorem loopHead (hσ : σ.Rooted) (h : ∀ is ∈ l.condition, Segment p S σ is (false :: σ))
    (fits : l.Fits) : ∃ c : Layout, c.code = l.head ∧ Makes p S c ∧ ∀ J o, Lower J → Marked J o c →
      J (o + width l.head) σ → J o σ ∧
        ((l.condition.isSome →
          J (o + width l.head + (l.stepWidth + (width l.body + 3))) (false :: σ)) →
          AllFine p J o c) := by
  obtain ⟨condition, step, body⟩ := l
  cases condition with
  | none => exact ⟨[], rfl, .nil, fun J o _ _ start => ⟨start, fun _ => trivial⟩⟩
  | some is =>
    obtain ⟨c, rfl, hc, fine⟩ := h is rfl
    generalize hl : Loop.mk (some c.code) step body = l at fits ⊢
    have condition : l.condition = some c.code := hl ▸ rfl
    have head : l.head = c.code ++ [.jumpIfFalse l.exit.toUInt16, .pop] := by
      rw [Loop.head, condition]
      rfl
    let c' : Layout := c ++ [(false :: σ, .plain (.jumpIfFalse l.exit.toUInt16)),
      (false :: σ, .plain .pop)]
    have code : c'.code = l.head := by simp [c', Item.code, head]
    refine ⟨c', code, hc.append (.cons (.cons .nil)), fun J o lower marked last => ?_⟩
    obtain ⟨m, jumps, pops, -⟩ := marked_append.1 marked
    have size : width l.head = width c.code + 4 := by
      simp only [head, width_append, width_cons, size_jumpIfFalse, size_pop, width_nil]
    rw [size] at last ⊢
    obtain ⟨start, inner⟩ := fine J o lower m jumps
    refine ⟨start, fun out => allFine_append.2 ⟨inner,
      ⟨[false], σ, rfl, hσ, rfl, trivial, pops, ?_⟩,
      ⟨[false], σ, rfl, hσ, rfl, trivial, last⟩, trivial⟩⟩
    refine reach (out (by rw [condition]; rfl)) ?_
    rw [toNat_toUInt16 (fits.exit (by rw [condition]; rfl)), size_jumpIfFalse, Loop.exit]
    omega

/-- The step of a loop, given where its head is. -/
theorem loopStep (hσ : σ.Rooted) (h : ∀ is ∈ l.step, Segment p S σ is (false :: σ))
    (fits : l.Fits) : ∃ c : Layout, c.code = l.stepCode ∧ Makes p S c ∧ ∀ J o, Lower J →
      Marked J (o + width l.head) c → J (o + width l.head + l.stepWidth) σ →
      J (o + width l.head) σ ∧ (l.step.isSome → J (o + width l.head + 3) σ) ∧
        (J o σ → AllFine p J (o + width l.head) c) := by
  obtain ⟨condition, step, body⟩ := l
  cases step with
  | none => exact ⟨[], rfl, .nil, fun J o _ _ start => ⟨start, by simp, fun _ => trivial⟩⟩
  | some is =>
    obtain ⟨c, rfl, hc, fine⟩ := h is rfl
    generalize hl : Loop.mk condition (some c.code) body = l at fits ⊢
    have step : l.step = some c.code := hl ▸ rfl
    have stepCode : l.stepCode = .jump (width c.code + 4).toUInt16 ::
        (c.code ++ [.pop, .loop l.again.toUInt16]) := by
      rw [Loop.stepCode, step]
      rfl
    have stepWidth : l.stepWidth = width c.code + 7 := by
      rw [Loop.stepWidth, step]
      rfl
    have again : l.again = width l.head + (width c.code + 7) := by rw [Loop.again, stepWidth]
    have fits := fits.step (by rw [step]; rfl)
    let c' : Layout := (σ, .plain (.jump (width c.code + 4).toUInt16)) ::
      (c ++ [(false :: σ, .plain .pop), (σ, .plain (.loop l.again.toUInt16))])
    have code : c'.code = l.stepCode := by simp [c', Item.code, stepCode]
    refine ⟨c', code, .cons (hc.append (.cons (.cons .nil))), fun J o lower marked last => ?_⟩
    obtain ⟨first, rest⟩ := marked
    obtain ⟨m, pops, loops, -⟩ := marked_append.1 rest
    rw [stepWidth] at last
    obtain ⟨start, inner⟩ := fine J _ lower m pops
    refine ⟨first, fun _ => start, fun back => ⟨⟨[], σ, rfl, hσ, rfl, trivial, ?_⟩,
      allFine_append.2 ⟨inner, ⟨[false], σ, rfl, hσ, rfl, trivial, loops⟩,
        ⟨[], σ, rfl, hσ, rfl, trivial, ?_, ?_⟩, trivial⟩⟩⟩
    · refine reach last ?_
      rw [toNat_toUInt16 (by rw [again] at fits; omega), size_jump]
      omega
    · rw [toNat_toUInt16 fits, again, size_loop]
      simp only [width_plain, size_jump, size_pop]
      omega
    · refine reach back ?_
      rw [toNat_toUInt16 fits, again, size_loop]
      simp only [width_plain, size_jump, size_pop]
      omega

theorem loopCode (hσ : σ.Rooted) (hc : ∀ is ∈ l.condition, Segment p S σ is (false :: σ))
    (hs : ∀ is ∈ l.step, Segment p S σ is (false :: σ)) (hb : Segment p S σ l.body σ)
    (fits : l.Fits) : Segment p S σ l.code σ := by
  obtain ⟨c₁, code₁, makes₁, fine₁⟩ := loopHead hσ hc fits
  obtain ⟨c₂, code₂, makes₂, fine₂⟩ := loopStep hσ hs fits
  obtain ⟨c₃, code₃, makes₃, fine₃⟩ := hb
  have tail : ∃ c₄ : Layout, c₄.code = l.tail ∧ Makes p S c₄ ∧ ∀ J o, Marked J o c₄ →
      J (o + width l.tail) σ →
      (l.condition.isSome → J o (false :: σ)) ∧ (l.condition = none → J o σ) ∧ AllFine p J o c₄ := by
    unfold Loop.tail
    cases l.condition with
    | none => exact ⟨[], rfl, .nil, fun J o _ last => ⟨by simp, fun _ => last, trivial⟩⟩
    | some is =>
      exact ⟨[(false :: σ, .plain .pop)], rfl, .cons .nil, fun J o m last =>
        ⟨fun _ => m.1, by simp, ⟨[false], σ, rfl, hσ, rfl, trivial, last⟩, trivial⟩⟩
  obtain ⟨c₄, code₄, makes₄, fine₄⟩ := tail
  let c : Layout := c₁ ++ (c₂ ++ (c₃ ++ (σ, .plain (.loop l.back.toUInt16)) :: c₄))
  have code : c.code = l.code := by
    simp [c, Item.code, Loop.code, code₁, code₂, code₃, code₄]
  refine ⟨c, code, makes₁.append (makes₂.append (makes₃.append (.cons makes₄))),
    fun J o lower marked last => ?_⟩
  obtain ⟨m₁, rest⟩ := marked_append.1 marked
  obtain ⟨m₂, rest⟩ := marked_append.1 rest
  obtain ⟨m₃, loops, m₄⟩ := marked_append.1 rest
  rw [code₁] at m₂ m₃ loops m₄
  rw [code₂, Loop.width_stepCode] at m₃ loops m₄
  rw [code₃] at loops m₄
  have m₄ : Marked J (o + width l.head + l.stepWidth + width l.body + 3) c₄ := m₄
  have size : width l.code = width l.head + l.stepWidth + width l.body + 3 + width l.tail := by
    simp only [Loop.code, width_append, Loop.width_stepCode, width_cons, size_loop]
    omega
  rw [size] at last
  obtain ⟨out, -, inner₄⟩ := fine₄ J _ m₄ (reach last (by omega))
  obtain ⟨body, inner₃⟩ := fine₃ J _ lower m₃ loops
  obtain ⟨step, stepped, inner₂⟩ := fine₂ J o lower m₂ body
  obtain ⟨start, inner₁⟩ := fine₁ J o lower m₁ step
  have inner₁ := inner₁ fun h => reach (out h) (by omega)
  have back := toNat_toUInt16 fits.back
  have target : l.back.toUInt16.toNat ≤ o + width l.head + l.stepWidth + width l.body + 3 ∧
      J (o + width l.head + l.stepWidth + width l.body + 3 - l.back.toUInt16.toNat) σ := by
    rw [back, Loop.back, Loop.stepWidth]
    cases hstep : l.step with
    | none =>
      refine ⟨?_, reach start ?_⟩ <;> simp only [Option.elim_none] <;> omega
    | some is =>
      refine ⟨?_, reach (stepped (by rw [hstep]; rfl)) ?_⟩ <;> simp only [Option.elim_some] <;> omega
  refine ⟨start, allFine_append.2 ⟨inner₁, allFine_append.2 ⟨?_, allFine_append.2 ⟨?_,
    ⟨[], σ, rfl, hσ, rfl, trivial, ?_⟩, ?_⟩⟩⟩⟩
  · rw [code₁]
    exact inner₂ start
  · rw [code₁, code₂, Loop.width_stepCode]
    exact inner₃
  · rw [code₁, code₂, code₃, Loop.width_stepCode]
    exact target
  · rw [code₁, code₂, code₃, Loop.width_stepCode]
    exact inner₄

end Loop
end Segment
end Bytecode
end StackScript
