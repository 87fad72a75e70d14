import StackScript.Proofs.Compile.Echo
import StackScript.Proofs.Compile.Verify
import StackScript.Proofs.Syntax.Plain

/-!
# StackScript.Proofs.Compile.Plain

A pool of constants has the very numbers that were added to it.

* `Context.Plain`: no number in the pools of a context has a sign.
* `Context.number_found`: a literal is found in the pool that it was added to.
* `StmtCode.plain`: code keeps the pools plain.
-/

namespace StackScript
namespace Compile

open Syntax

namespace Context

def Plain (c : Context) : Prop := ∀ pool ∈ c.pools, PlainPool pool

variable {c c' : Context} {name : String} {k : UInt8}

theorem Plain.pool (h : c.Plain) : PlainPool c.draft.chunk.constants := h _ List.mem_cons_self

theorem Plain.congr (h : c.Plain) (e : c'.pools = c.pools) : c'.Plain := by
  rwa [Plain, e]

/-- A literal or an object is found in the pool that it was added to. -/
theorem Plain.added {v : Value} (h : c.Plain) (hk : c.addConstant? v = some (c', k))
    (plain : ∀ x, v = .number x → Numeral.Unsigned x) :
    c'.Plain ∧ c'.draft.chunk.constants[k.toNat]? = some v := by
  obtain ⟨⟨chunk, k'⟩, hk, e⟩ := Option.map_eq_some_iff.1 hk
  cases e
  obtain ⟨-, -, -, pool, found⟩ := Chunk.Echo.added h.pool plain hk
  refine ⟨fun p hp => ?_, found⟩
  obtain rfl | hp := List.mem_cons.1 hp
  · exact pool
  · exact h p (List.mem_cons_of_mem _ hp)

theorem Plain.text (h : c.Plain) {text : String} (hk : c.textConstant? text = some (c', k)) :
    c'.Plain := by
  have interned : (c.intern text).1.Plain := h.congr rfl
  exact (interned.added hk nofun).1

theorem Plain.resolve (h : c.Plain) {p : Place} (hr : c.resolve? name = some (c', p)) :
    c'.Plain := by
  unfold resolve? at hr
  split at hr
  next =>
    split at hr
    next =>
      cases hr
      exact h
    next => cases hr
  next =>
    split at hr
    next r hu =>
      split at hr
      next =>
        cases hr
        exact h.congr (constants_resolveUpvalue hu)
      next => cases hr
    next =>
      obtain ⟨⟨c₁, k⟩, hk, e⟩ := Option.map_eq_some_iff.1 hr
      cases e
      exact h.text hk

theorem Plain.newVariable (h : c.Plain) (hv : c.newVariable? name = some (c', k)) : c'.Plain := by
  by_cases hd : 0 < c.draft.depth
  · rw [newVariable?_of_scope hd] at hv
    obtain ⟨c₂, h₂, e⟩ := Option.map_eq_some_iff.1 hv
    cases e
    obtain ⟨rfl, -⟩ := addLocal?_eq h₂
    exact h.congr rfl
  · rw [newVariable?, if_neg hd] at hv
    exact h.text hv

theorem Plain.makeReadable (h : c.Plain) : c.makeReadable.Plain := by
  refine h.congr ?_
  unfold Context.makeReadable Draft.makeReadable
  split
  next => cases c.draft.locals <;> rfl
  next => rfl

theorem Plain.enterFunction (h : c.Plain) {xs : List String}
    (hx : (c.enterFunction name).addParameters? xs = some c') : c'.Plain := by
  obtain ⟨rfl, -, -⟩ := addParameters?_eq (c := c.enterFunction name) Nat.one_pos
    (show 1 ≤ slotLimit by decide) hx
  intro pool hp
  obtain rfl | hp := List.mem_cons.1 hp
  · intro x hm
    cases Array.not_mem_empty _ hm
  · exact h pool hp

theorem Plain.leaveFunction (h : c.Plain) {f : Function}
    (hk : c.leaveFunction? f = some (c', k)) : c'.Plain := by
  unfold leaveFunction? at hk
  split at hk
  next => cases hk
  next d ds he =>
    refine (Plain.added (c := ⟨d, ds, _⟩) (fun pool hp => h pool ?_) hk nofun).1
    rw [pools, he]
    exact List.mem_cons_of_mem _ hp

theorem script_plain (heap : Heap) : (script heap).Plain := by
  intro pool hp x hx
  obtain rfl := List.mem_singleton.1 hp
  cases Array.not_mem_empty _ hx

end Context

mutual

theorem ExprCode.plain {c c' : Context} {e : Expr} {is : List Instruction}
    (h : ExprCode c e is c') : e.Plain → c.Plain → c'.Plain := by
  cases h with
  | nil | true | false => exact fun _ => id
  | number hk =>
    intro plain hc
    exact (hc.added hk fun x e => Value.number.inj e ▸ plain).1
  | string hk => exact fun _ hc => hc.text hk
  | get hr => exact fun _ hc => hc.resolve hr
  | set hr he => exact fun plain hc => he.plain plain (hc.resolve hr)
  | unary he => exact he.plain
  | binary he he' | and he he' | or he he' | index he he' =>
    exact fun plain hc => he'.plain plain.2 (he.plain plain.1 hc)
  | call he hes => exact fun plain hc => hes.plain plain.2 (he.plain plain.1 hc)
  | setIndex he he' he'' =>
    exact fun plain hc => he''.plain plain.2.2 (he'.plain plain.2.1 (he.plain plain.1 hc))
  | array hes => exact hes.plain

theorem ExprsCode.plain {c c' : Context} {es : Exprs} {is : List Instruction}
    (h : ExprsCode c es is c') : es.Plain → c.Plain → c'.Plain := by
  cases h with
  | nil => exact fun _ => id
  | cons he hes => exact fun plain hc => hes.plain plain.2 (he.plain plain.1 hc)

end

theorem ClauseCode.plain {c c' : Context} {e : Option Expr} {is : Option (List Instruction)}
    (h : ClauseCode c e is c') (plain : ∀ a ∈ e, a.Plain) (hc : c.Plain) : c'.Plain := by
  cases h with
  | absent => exact hc
  | present h => exact h.plain (plain _ rfl) hc

theorem StmtCode.plain {c c' : Context} {a : Stmt} {is : List Instruction}
    (h : StmtCode c a is c') : a.Plain → c.Plain → c'.Plain := by
  induction h with
  | empty => exact fun _ => id
  | seq _ _ ih ih' => exact fun plain hc => ih' plain.2 (ih plain.1 hc)
  | expression he | print he | «return» _ he => exact he.plain
  | var hv he => exact fun plain hc => (he.plain plain (hc.newVariable hv)).makeReadable
  | function hv hx _ _ hk ih =>
    exact fun plain hc =>
      ((ih plain ((hc.newVariable hv).makeReadable.enterFunction hx)).leaveFunction hk).makeReadable
  | block _ ih => exact fun plain hc => (ih plain (hc.congr rfl)).congr rfl
  | ifElse he _ _ _ _ _ _ ih ih' =>
    exact fun plain hc => ih' plain.2.2 (ih plain.2.1 (he.plain plain.1 hc))
  | «while» he _ _ _ ih => exact fun plain hc => ih plain.2 (he.plain plain.1 hc)
  | «for» _ h₁ h₂ _ _ _ ih ih' =>
    intro plain hc
    obtain ⟨p, p₁, p₂, pa⟩ := plain
    exact (ih' pa (h₂.plain p₂ (h₁.plain p₁ (ih p (hc.congr rfl))))).congr rfl

end Compile
end StackScript
