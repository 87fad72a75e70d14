import StackScript.Proofs.Compile.Plain
import StackScript.Proofs.Compile.Scope
import StackScript.Proofs.Machine.Registry
import StackScript.Proofs.Semantics.Evaluate
import StackScript.Proofs.Store.Directory

/-!
# StackScript.Proofs.Semantics.Relation

When a machine has what a store has.

* `Ties`: which handles stand for which arrays, closures and cells. Ties only grow (`Later`).
* `Same`: a value of the machine is a value of the language.
* `Slot`: what a place of the stack is for. A cell is in its place on the stack, or behind a closed
  upvalue, or nowhere if nothing can refer to it any more (`Celled`).
* `Realizes`: a closure of the machine is a function with the variables around it.
* `Agrees`: stack, heap and globals of a machine have what a store has.
-/

namespace StackScript
namespace Semantics

open Compile (Context StmtCode follow)
open Instruction (width stream)
open Machine (stackLimit)
open Syntax (Stmt Scopes)

structure Ties where
  /-- the handles of the arrays, by their numbers -/
  arrays : List Ref
  closures : List Ref
  /-- the cell that an upvalue stands for -/
  cell : Ref → Option Nat

namespace Ties

def empty : Ties := ⟨[], [], fun _ => none⟩

structure Le (τ τ' : Ties) : Prop where
  arrays : τ.arrays <+: τ'.arrays
  closures : τ.closures <+: τ'.closures
  cell : ∀ r c, τ.cell r = some c → τ'.cell r = some c

theorem Le.refl (τ : Ties) : τ.Le τ := ⟨List.prefix_refl _, List.prefix_refl _, fun _ _ => id⟩

theorem Le.trans {τ τ₁ τ' : Ties} (l : τ.Le τ₁) (l' : τ₁.Le τ') : τ.Le τ' :=
  ⟨l.arrays.trans l'.arrays, l.closures.trans l'.closures,
    fun r c h => l'.cell r c (l.cell r c h)⟩

end Ties

/-- Ties and heap some steps later. -/
structure Later (τ : Ties) (h : Heap) (τ' : Ties) (h' : Heap) : Prop where
  ties : τ.Le τ'
  kept : h.Kept h'

theorem Later.refl (τ : Ties) (h : Heap) : Later τ h τ h := ⟨.refl τ, .refl h⟩

theorem Later.trans {τ τ₁ τ' : Ties} {h h₁ h' : Heap} (l : Later τ h τ₁ h₁)
    (l' : Later τ₁ h₁ τ' h') : Later τ h τ' h' :=
  ⟨l.ties.trans l'.ties, l.kept.trans l'.kept⟩

inductive Same (τ : Ties) (h : Heap) : Val → Value → Prop where
  | nil : Same τ h .nil .nil
  | bool (b : Bool) : Same τ h (.bool b) (.bool b)
  | number (x : Float) : Same τ h (.number x) (.number x)
  | string {text : String} {r : Ref} : h.string? r = some text → Same τ h (.string text) (.object r)
  | array {id : Nat} {r : Ref} : τ.arrays[id]? = some r → Same τ h (.array id) (.object r)
  | closure {id : Nat} {r : Ref} : τ.closures[id]? = some r → Same τ h (.closure id) (.object r)
  | native {b : Builtin} {r : Ref} : h.native? r = some ⟨b.name, b.arity, .builtin b⟩ →
      Same τ h (.native b) (.object r)

section Same

variable {τ τ' : Ties} {h h' : Heap} {v : Val} {w : Value}

theorem getElem?_longer {α : Type} {xs ys : List α} (p : xs <+: ys) {i : Nat} {x : α}
    (hx : xs[i]? = some x) : ys[i]? = some x := by
  obtain ⟨zs, rfl⟩ := p
  rw [List.getElem?_append_left (List.getElem?_eq_some_iff.1 hx).1, hx]

theorem Same.later (s : Same τ h v w) (l : Later τ h τ' h') : Same τ' h' v w := by
  cases s with
  | nil => exact .nil
  | bool b => exact .bool b
  | number x => exact .number x
  | string hr => exact .string (l.kept.string? hr)
  | array hr => exact .array (getElem?_longer l.ties.arrays hr)
  | closure hr => exact .closure (getElem?_longer l.ties.closures hr)
  | native hr => exact .native (l.kept.native? hr)

theorem Same.later_rel {x : Option Val} {y : Option Value} (s : Option.Rel (Same τ h) x y)
    (l : Later τ h τ' h') : Option.Rel (Same τ' h') x y := by
  cases s with
  | none => exact .none
  | some s => exact .some (s.later l)

theorem Same.isFalsey (s : Same τ h v w) : w.isFalsey = v.isFalsey := by
  cases s <;> rfl

end Same

/-- What a place of the stack is for: the callee of a call that goes on, a value, or a variable. -/
inductive Slot where
  | callee
  | value (v : Val)
  | cell (c : Nat)
deriving DecidableEq

namespace Slot

def cell? : Slot → Option Nat
  | .cell c => some c
  | _ => none

theorem cell?_eq_some {x : Slot} {c : Nat} : x.cell? = some c ↔ x = .cell c := by
  cases x <;> simp [cell?]

/-- A place of the stack has what it is for. -/
def Holds (τ : Ties) (h : Heap) (cells : Array Val) : Slot → Value → Prop
  | .callee, _ => True
  | .value v, w => Same τ h v w
  | .cell c, w => ∃ v, cells[c]? = some v ∧ Same τ h v w

theorem Holds.later {τ τ' : Ties} {h h' : Heap} {cells : Array Val} {x : Slot} {w : Value}
    (s : x.Holds τ h cells w) (l : Later τ h τ' h') : x.Holds τ' h' cells w := by
  cases x with
  | callee => trivial
  | value v => exact Same.later s l
  | cell c =>
    obtain ⟨v, hv, s⟩ := s
    exact ⟨v, hv, s.later l⟩

end Slot

/-- Places of the stack, from its bottom on, and upvalues have what the cells have. -/
structure Celled (τ : Ties) (cells : Array Val) (slots : List Slot) (stack : Array Value)
    (h : Heap) : Prop where
  stack : List.Forall₂ (Slot.Holds τ h cells) slots stack.toList
  /-- A variable has one place. -/
  once : (slots.filterMap Slot.cell?).Nodup
  /-- A captured variable has a place that its upvalue is open on, or is behind its upvalue. -/
  tied : ∀ r c, τ.cell r = some c → ∃ v, cells[c]? = some v ∧
    ((∃ i, slots[i]? = some (.cell c) ∧ h.upvalue? r = some (.opened i)) ∨
      (.cell c ∉ slots ∧ ∃ w, h.upvalue? r = some (.closed w) ∧ Same τ h v w))
  opened : ∀ r i, h.upvalue? r = some (.opened i) →
    ∃ c, slots[i]? = some (.cell c) ∧ τ.cell r = some c
  injective : ∀ r r' c, τ.cell r = some c → τ.cell r' = some c → r = r'

/-- The variables of the functions around a function, function by function from the innermost one
outward, the last declaration first. -/
abbrev Levels := List (List (String × Nat))

namespace Levels

/-- Their names, with the slot of the function itself at the bottom of each. -/
def names (ls : Levels) : List (List String) := ls.map fun l => l.map Prod.fst ++ [""]

/-- The cell in a slot of a function; slot 0 is that of the function itself. -/
def cell? (ls : Levels) (level slot : Nat) : Option Nat := do
  let l ← ls[level]?
  let (_, c) ← if slot = 0 then none else l.reverse[slot - 1]?
  return c

end Levels

/-- The upvalues of a closure stand for the cells of the variables that it captures, given the
captures of its function and of those around it. -/
structure Backs (τ : Ties) (upvalues : Array Ref) (chain : List (Array Capture)) (ls : Levels) :
    Prop where
  count : ∀ captures ∈ chain.head?, captures.size = upvalues.size
  tied : ∀ i level slot c, follow chain i = some (level + 1, slot) → ls.cell? level slot = some c →
    ∃ r, upvalues[i.toNat]? = some r ∧ τ.cell r = some c

theorem Backs.le {τ τ' : Ties} {upvalues : Array Ref} {chain : List (Array Capture)} {ls : Levels}
    (b : Backs τ upvalues chain ls) (l : τ.Le τ') : Backs τ' upvalues chain ls where
  count := b.count
  tied i level slot c hf hc := by
    obtain ⟨r, hr, hrc⟩ := b.tied i level slot c hf hc
    exact ⟨r, hr, l.cell r c hrc⟩

/-- A function of the heap is the code of a function with parameters and a body, given the names of
the variables around it. -/
inductive Compiled (H : Heap) (parameters : List String) (body : Stmt) (outer : List (List String))
    (chain : List (Array Capture)) : Function → Prop where
  | intro {c c' : Context} {is : List Instruction} {lines : Array Nat} :
      StmtCode c body is c' → body.Named → body.Plain → c.Proper → c.Rooted → c.Plain →
      c.draft.Settled → c.draft.kind = .function → c.draft.arity = parameters.length →
      c.scopes = ⟨parameters.reverse ++ [""], outer, true⟩ →
      lines.size = width (is ++ [.pushNil, .ret]) →
      c'.Before chain c'.draft.chunk.constants H →
      Compiled H parameters body outer chain
        (c'.finish (stream (is ++ [.pushNil, .ret])) lines)

/-- A closure is a function with the variables around it. -/
structure Realizes (H : Heap) (τ : Ties) (f : Lambda) (k : Closure) (g : Function)
    (chain : List (Array Capture)) (ls : Levels) : Prop where
  function : H.function? k.function = some g
  name : ∃ r, g.name = some r ∧ H.string? r = some f.name
  env : f.env = ls.flatten
  compiled : Compiled H f.parameters f.body ls.names chain g
  backs : Backs τ k.upvalues chain ls

theorem Realizes.le {H : Heap} {τ τ' : Ties} {f : Lambda} {k : Closure} {g : Function}
    {chain : List (Array Capture)} {ls : Levels} (r : Realizes H τ f k g chain ls)
    (l : τ.Le τ') : Realizes H τ' f k g chain ls :=
  ⟨r.function, r.name, r.env, r.compiled, r.backs.le l⟩

/-- Arrays and closures of the heap are those of a store. -/
structure Stored (H : Heap) (τ : Ties) (arrays : Array (Array Val)) (closures : Array Lambda)
    (h : Heap) : Prop where
  arrays : List.Forall₂ (fun (xs : Array Val) r => ∃ ys, h.array? r = some ys ∧
    List.Forall₂ (Same τ h) xs.toList ys.toList) arrays.toList τ.arrays
  arrayOnce : τ.arrays.Nodup
  closures : List.Forall₂ (fun f r => ∃ k g chain ls, h.closure? r = some k ∧
    Realizes H τ f k g chain ls) closures.toList τ.closures
  closureOnce : τ.closures.Nodup

/-- The table of globals is a map from names. -/
structure Listed (τ : Ties) (globals : String → Option Val) (table : Table Value) (h : Heap) :
    Prop where
  sound : h.Sound
  directory : ∃ d g, Directory h table d g ∧
    ∀ name, Option.Rel (Same τ h) (globals name) (g.lookup name)

/-- Every native is on the heap once. -/
def Unshared (h : Heap) : Prop := ∀ r r' n, h.native? r = some n → h.native? r' = some n → r = r'

/-- Arrays, closures and globals of a machine are those of a store. -/
structure Backed (H : Heap) (τ : Ties) (s : Store) (globals : Table Value) (h : Heap) : Prop where
  stored : Stored H τ s.arrays s.closures h
  listed : Listed τ s.globals globals h
  unshared : Unshared h
  kept : H.Kept h

/-- A machine has what a store has, given the heap behind compiling and what the places of the stack
are for. -/
structure Agrees (H : Heap) (τ : Ties) (s : Store) (slots : List Slot) (m : Machine) : Prop where
  celled : Celled τ s.cells slots m.stack m.heap
  backed : Backed H τ s m.globals m.heap
  output : m.output = s.output
  world : m.world = s.world

end Semantics
end StackScript
