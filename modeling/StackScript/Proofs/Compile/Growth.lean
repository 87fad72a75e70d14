import StackScript.Proofs.Compile.Code
import StackScript.Proofs.Entrywise
import StackScript.Proofs.Store.Heap

/-!
# StackScript.Proofs.Compile.Growth

What the code of a tree does to the context in front of it. Captures, pools and the heap only
grow, locals are at most marked as captured, and a declaration adds a local in front.

* `Context.Grown`: the context behind an expression.
* `Context.Extends`: the context behind a statement, with the locals that it declares.
* `Context.Proper`: what holds of every context.
-/

namespace StackScript

namespace Compile

def Local.Raised (l l' : Local) : Prop :=
  l'.name = l.name ∧ l'.depth = l.depth ∧ (l.captured = true → l'.captured = true)

theorem Local.Raised.refl (l : Local) : l.Raised l := ⟨rfl, rfl, id⟩

theorem Local.Raised.trans {a b c : Local} (h : a.Raised b) (h' : b.Raised c) : a.Raised c :=
  ⟨h'.1.trans h.1, h'.2.1.trans h.2.1, h'.2.2 ∘ h.2.2⟩

namespace Draft

structure Grown (d d' : Draft) : Prop where
  kind : d'.kind = d.kind
  name : d'.name = d.name
  arity : d'.arity = d.arity
  depth : d'.depth = d.depth
  constants : Within d.chunk.constants d'.chunk.constants
  captures : Within d.captures d'.captures
  locals : List.Forall₂ Local.Raised d.locals d'.locals

theorem Grown.refl (d : Draft) : Grown d d :=
  ⟨rfl, rfl, rfl, rfl, .refl _, .refl _, forall₂_refl .refl _⟩

theorem Grown.trans {d d₁ d₂ : Draft} (h : Grown d d₁) (h' : Grown d₁ d₂) : Grown d d₂ :=
  ⟨h'.kind.trans h.kind, h'.name.trans h.name, h'.arity.trans h.arity, h'.depth.trans h.depth,
    h.constants.trans h'.constants, h.captures.trans h'.captures,
    forall₂_trans .trans h.locals h'.locals⟩

/-- All locals are initialized, in scopes that are open. -/
def Settled (d : Draft) : Prop := ∀ l ∈ d.locals, ∃ k, l.depth = some k ∧ k ≤ d.depth

structure Proper (d : Draft) : Prop where
  locals : d.locals.length ≤ slotLimit
  captures : d.captures.size ≤ slotLimit
  distinct : d.captures.toList.Nodup
  constants : d.chunk.constants.size ≤ Chunk.poolLimit

/-- The captures of a function are what the function around it has. -/
def Linked (d o : Draft) : Prop :=
  ∀ c ∈ d.captures, if c.isLocal then ∃ l, o.locals.reverse[c.index.toNat]? = some l ∧ l.captured
    else c.index.toNat < o.captures.size

/-- A function and those around it are linked. The script captures nothing. -/
def Chained : Draft → List Draft → Prop
  | d, [] => d.captures = #[]
  | d, o :: rest => d.Linked o ∧ o.Settled ∧ o.Chained rest

end Draft

namespace Draft

variable {d d' o : Draft} {c : Capture}

theorem Grown.settled (h : d.Grown d') (hs : d.Settled) : d'.Settled := by
  intro l' hl'
  obtain ⟨l, hl, -, depth, -⟩ := forall₂_mem_right h.locals hl'
  obtain ⟨k, hk, hle⟩ := hs l hl
  exact ⟨k, depth.trans hk, h.depth ▸ hle⟩

theorem Linked.grown {o' : Draft} (h : d.Linked o) (ho : o.Grown o') : d.Linked o' := by
  intro c hc
  have := h c hc
  split at this
  next hl =>
    obtain ⟨l, hl', captured⟩ := this
    obtain ⟨l', hl'', -, -, raised⟩ :=
      forall₂_getElem? (List.forall₂_reverse_iff.2 ho.locals) hl'
    rw [if_pos hl]
    exact ⟨l', hl'', raised captured⟩
  next hl =>
    rw [if_neg hl]
    exact Nat.lt_of_lt_of_le this ho.captures.size_le

theorem Chained.ofCaptures {ds : List Draft} (h : d.Chained ds) (hc : d'.captures = d.captures) :
    d'.Chained ds := by
  cases ds with
  | nil => exact hc.trans h
  | cons o ds => exact ⟨fun c hd => h.1 c (hc ▸ hd), h.2⟩

theorem addCapture_spec {i : UInt8} (h : d.addCapture c = (d', i, none)) (hp : d.Proper) :
    d.Grown d' ∧ d'.Proper ∧ d'.captures[i.toNat]? = some c ∧
      ∀ x ∈ d'.captures, x ∈ d.captures ∨ x = c := by
  unfold addCapture at h
  split at h
  next j hj =>
    obtain ⟨hlt, heq, -⟩ := Array.findIdx?_eq_some_iff_getElem.1 hj
    cases h
    have : j < 256 := Nat.lt_of_lt_of_le hlt hp.captures
    have heq : d.captures[j] = c := by simpa using heq
    have hj' : j.toUInt8.toNat = j := by simpa using this
    refine ⟨.refl d, hp, ?_, fun x => .inl⟩
    rw [hj', Array.getElem?_eq_getElem hlt, heq]
  next hj =>
    split at h
    next hlt =>
      cases h
      have hj' : d.captures.size.toUInt8.toNat = d.captures.size := by
        have : d.captures.size < 256 := hlt
        simpa using this
      have fresh : c ∉ d.captures.toList := by
        intro hc
        have := (Array.findIdx?_eq_none_iff.1 hj) c (Array.mem_toList_iff.1 hc)
        simp at this
      refine ⟨⟨rfl, rfl, rfl, rfl, .refl _, .push _ _, forall₂_refl .refl _⟩,
        ⟨hp.locals, ?_, ?_, hp.constants⟩, ?_, ?_⟩
      · rw [Array.size_push]
        exact hlt
      · rw [Array.toList_push]
        refine List.nodup_append.2 ⟨hp.distinct, by simp, ?_⟩
        rintro a ha b hb rfl
        exact fresh (List.mem_singleton.1 hb ▸ ha)
      · rw [hj', Array.getElem?_push_size]
      · intro x hx
        simpa using hx
    next => cases h

theorem raised_captureIn (name : String) (ls : List Local) :
    List.Forall₂ Local.Raised ls (captureIn name ls) := by
  induction ls with
  | nil => exact .nil
  | cons l ls ih =>
    unfold captureIn
    split
    · exact .cons ⟨rfl, rfl, fun _ => rfl⟩ (forall₂_refl .refl _)
    · exact .cons (.refl l) ih

theorem length_captureIn (name : String) (ls : List Local) :
    (captureIn name ls).length = ls.length :=
  (raised_captureIn name ls).length_eq.symm

theorem findIn_captureIn {name : String} {ls : List Local} {slot : Nat} {l : Local}
    (h : findIn name ls = some (slot, l)) :
    slot < ls.length ∧
      (captureIn name ls).reverse[slot]? = some { l with captured := true } := by
  induction ls with
  | nil => cases h
  | cons l' ls ih =>
    unfold findIn at h
    unfold captureIn
    split at h
    next hn =>
      cases h
      rw [if_pos hn, List.reverse_cons]
      exact ⟨by simp, by simp⟩
    next hn =>
      obtain ⟨hlt, hs⟩ := ih h
      rw [if_neg hn, List.reverse_cons, List.getElem?_append_left (by simpa [length_captureIn])]
      exact ⟨by simpa using Nat.lt_succ_of_lt hlt, hs⟩

theorem mem_of_findIn {name : String} {ls : List Local} {slot : Nat} {l : Local}
    (h : findIn name ls = some (slot, l)) : l ∈ ls := by
  induction ls with
  | nil => cases h
  | cons l' ls ih =>
    unfold findIn at h
    split at h
    next =>
      cases h
      exact List.mem_cons_self
    next => exact List.mem_cons_of_mem _ (ih h)

theorem grown_captureLocal (d : Draft) (name : String) : d.Grown (d.captureLocal name) :=
  ⟨rfl, rfl, rfl, rfl, .refl _, .refl _, raised_captureIn name d.locals⟩

end Draft

/-- Looking a variable up in the functions around one adds captures only, and keeps them linked. -/
theorem resolveUpvalue_grown {name : String} {ds : List Draft} :
    ∀ {d : Draft} {r : Resolution}, resolveUpvalue name d ds = some r → r.fault = none →
      d.Proper → (∀ o ∈ ds, o.Proper) → d.Chained ds →
      d.Grown r.draft ∧ List.Forall₂ Draft.Grown ds r.enclosing ∧ r.draft.Proper ∧
        (∀ o ∈ r.enclosing, o.Proper) ∧ r.draft.Chained r.enclosing ∧
        r.index.toNat < r.draft.captures.size := by
  induction ds with
  | nil => exact fun h => by cases h
  | cons o ds ih =>
    intro d r h hf hp hps hc
    obtain ⟨linked, settled, chained⟩ := hc
    have ho := hps o List.mem_cons_self
    simp only [resolveUpvalue] at h
    split at h
    next slot l hl =>
      obtain ⟨hlt, marked⟩ := Draft.findIn_captureIn hl
      generalize ha : d.addCapture ⟨true, slot.toUInt8⟩ = added at h
      obtain ⟨d', i, full⟩ := added
      cases h
      obtain ⟨-, rfl⟩ := Option.or_eq_none_iff.1 hf
      obtain ⟨grown, proper, found, mem⟩ := Draft.addCapture_spec ha hp
      have raised := o.grown_captureLocal name
      have hslot : slot.toUInt8.toNat = slot := by
        have : slot < 256 := Nat.lt_of_lt_of_le hlt ho.locals
        simpa using this
      refine ⟨grown, .cons raised (forall₂_refl .refl _), proper, ?_, ⟨?_, ?_, ?_⟩, ?_⟩
      · intro o' ho'
        obtain rfl | ho' := List.mem_cons.1 ho'
        · exact ⟨by rw [Draft.captureLocal, Draft.length_captureIn]; exact ho.locals,
            ho.captures, ho.distinct, ho.constants⟩
        · exact hps o' (List.mem_cons_of_mem _ ho')
      · intro c hc
        obtain hc | rfl := mem c hc
        · exact linked.grown raised c hc
        · rw [if_pos rfl, hslot]
          exact ⟨_, marked, rfl⟩
      · exact raised.settled settled
      · exact chained.ofCaptures rfl
      · exact (Array.getElem?_eq_some_iff.1 found).1
    next hl =>
      split at h
      next => cases h
      next r' hr =>
        generalize ha : d.addCapture ⟨false, r'.index⟩ = added at h
        obtain ⟨d', i, full⟩ := added
        cases h
        obtain ⟨hf', rfl⟩ := Option.or_eq_none_iff.1 hf
        obtain ⟨grown', growns, proper', propers, chained', inside⟩ :=
          ih hr hf' ho (fun o' ho' => hps o' (List.mem_cons_of_mem _ ho')) chained
        obtain ⟨grown, proper, found, mem⟩ := Draft.addCapture_spec ha hp
        refine ⟨grown, .cons grown' growns, proper, ?_, ⟨?_, grown'.settled settled, chained'⟩,
          (Array.getElem?_eq_some_iff.1 found).1⟩
        · intro o' ho'
          obtain rfl | ho' := List.mem_cons.1 ho'
          · exact proper'
          · exact propers o' ho'
        · intro c hc
          obtain hc | rfl := mem c hc
          · exact linked.grown grown' c hc
          · rw [if_neg (by simp)]
            exact inside

namespace Context

structure Grown (c c' : Context) : Prop where
  draft : c.draft.Grown c'.draft
  enclosing : List.Forall₂ Draft.Grown c.enclosing c'.enclosing
  heap : c.heap.Extends c'.heap

theorem Grown.refl (c : Context) : Grown c c :=
  ⟨.refl _, forall₂_refl .refl _, .refl _⟩

theorem Grown.trans {c c₁ c₂ : Context} (h : Grown c c₁) (h' : Grown c₁ c₂) : Grown c c₂ :=
  ⟨h.draft.trans h'.draft, forall₂_trans .trans h.enclosing h'.enclosing, h.heap.trans h'.heap⟩

structure Proper (c : Context) : Prop where
  draft : c.draft.Proper
  enclosing : ∀ d ∈ c.enclosing, d.Proper
  chained : c.draft.Chained c.enclosing

/-- The context with other locals. -/
def withLocals (c : Context) (locals : List Local) : Context :=
  { c with draft := { c.draft with locals } }

/-- A context is another one, later, with new locals. -/
def Extends (c : Context) (news : List Local) (c' : Context) : Prop :=
  ∃ old, c'.draft.locals = news ++ old ∧ c.Grown (c'.withLocals old) ∧
    ∀ l ∈ news, l.depth = some c.draft.depth

section Constants

variable {c c' : Context} {v : Value} {k : UInt8}

theorem addConstant?_grown (h : c.addConstant? v = some (c', k)) :
    c.Grown c' ∧ c'.draft.captures = c.draft.captures ∧ c'.enclosing = c.enclosing := by
  obtain ⟨⟨chunk, k'⟩, hc, e⟩ := Option.map_eq_some_iff.1 h
  cases e
  have constants : Within c.draft.chunk.constants chunk.constants := by
    obtain ⟨rfl, -⟩ | ⟨rfl, -⟩ := Chunk.addConstant?_cases hc
    · exact .refl _
    · exact .push _ _
  exact ⟨⟨⟨rfl, rfl, rfl, rfl, constants, .refl _, forall₂_refl .refl _⟩,
    forall₂_refl .refl _, .refl _⟩, rfl, rfl⟩

/-- The pool has the value, or one that is equal to it. -/
theorem addConstant?_value (h : c.addConstant? v = some (c', k)) :
    ∃ w, c'.draft.chunk.constants[k.toNat]? = some w ∧ (w = v ∨ (w == v) = true) := by
  obtain ⟨⟨chunk, k'⟩, hc, e⟩ := Option.map_eq_some_iff.1 h
  cases e
  obtain ⟨rfl, w, hw, same⟩ | ⟨rfl, at_end, -⟩ := Chunk.addConstant?_cases hc
  · exact ⟨w, hw, .inr same⟩
  · exact ⟨v, by rw [at_end]; exact Array.getElem?_push_size, .inl rfl⟩

theorem addConstant?_proper (h : c.addConstant? v = some (c', k)) (hp : c.Proper) :
    c'.Proper := by
  obtain ⟨⟨chunk, k'⟩, hc, e⟩ := Option.map_eq_some_iff.1 h
  cases e
  have constants : chunk.constants.size ≤ Chunk.poolLimit := by
    obtain ⟨rfl, -⟩ | ⟨rfl, -, room⟩ := Chunk.addConstant?_cases hc
    · exact hp.draft.constants
    · rw [Array.size_push]
      exact room
  exact ⟨⟨hp.draft.locals, hp.draft.captures, hp.draft.distinct, constants⟩, hp.enclosing,
    hp.chained.ofCaptures rfl⟩

theorem intern_grown (c : Context) (text : String) : c.Grown (c.intern text).1 :=
  ⟨.refl _, forall₂_refl .refl _, c.heap.extends_intern text⟩

theorem textConstant?_grown {text : String} (h : c.textConstant? text = some (c', k)) :
    c.Grown c' :=
  (c.intern_grown text).trans (addConstant?_grown h).1

theorem textConstant?_value {text : String} (h : c.textConstant? text = some (c', k)) :
    ∃ r, c'.draft.chunk.constants[k.toNat]? = some (.object r) ∧
      (c'.heap.size ≤ UInt32.size → c'.heap.string? r = some text) := by
  refine ⟨(c.heap.intern text).2, ?_, ?_⟩
  · obtain ⟨w, hw, rfl | eq⟩ := addConstant?_value h
    · exact hw
    · rw [hw, Value.eq_of_beq_object eq]
      rfl
  · obtain ⟨_, _, e⟩ := Option.map_eq_some_iff.1 h
    cases e
    exact c.heap.string?_intern text

theorem textConstant?_proper {text : String} (h : c.textConstant? text = some (c', k))
    (hp : c.Proper) : c'.Proper :=
  addConstant?_proper h ⟨hp.draft, hp.enclosing, hp.chained⟩

theorem resolve?_grown {name : String} {p : Place} (h : c.resolve? name = some (c', p))
    (hp : c.Proper) : c.Grown c' ∧ c'.Proper := by
  unfold resolve? at h
  split at h
  next =>
    split at h
    next =>
      cases h
      exact ⟨.refl c, hp⟩
    next => cases h
  next =>
    split at h
    next r hr =>
      split at h
      next hf =>
        cases h
        obtain ⟨grown, growns, proper, propers, chained, -⟩ :=
          resolveUpvalue_grown hr (by simpa using hf) hp.draft hp.enclosing hp.chained
        exact ⟨⟨grown, growns, .refl _⟩, ⟨proper, propers, chained⟩⟩
      next => cases h
    next =>
      obtain ⟨⟨c₁, k⟩, hk, e⟩ := Option.map_eq_some_iff.1 h
      cases e
      exact ⟨textConstant?_grown hk, textConstant?_proper hk hp⟩

end Constants

end Context

open Syntax

/-- What every piece of code of an expression has in common. -/
structure Grows (c c' : Context) : Prop where
  grown : c.Proper → c.Grown c'
  proper : c.Proper → c'.Proper

namespace Grows

theorem refl (c : Context) : Grows c c := ⟨fun _ => .refl c, id⟩

theorem trans {c c₁ c' : Context} (h : Grows c c₁) (h' : Grows c₁ c') : Grows c c' :=
  ⟨fun hp => (h.grown hp).trans (h'.grown (h.proper hp)), fun hp => h'.proper (h.proper hp)⟩

end Grows

mutual

theorem ExprCode.grows {c c' : Context} {e : Expr} {is : List Instruction}
    (h : ExprCode c e is c') : Grows c c' := by
  cases h with
  | nil | true | false => exact .refl _
  | number h =>
    exact ⟨fun _ => (Context.addConstant?_grown h).1, Context.addConstant?_proper h⟩
  | string h => exact ⟨fun _ => Context.textConstant?_grown h, Context.textConstant?_proper h⟩
  | get h => exact ⟨fun hp => (Context.resolve?_grown h hp).1,
      fun hp => (Context.resolve?_grown h hp).2⟩
  | set h h' =>
    have : Grows _ _ := ⟨fun hp => (Context.resolve?_grown h hp).1,
      fun hp => (Context.resolve?_grown h hp).2⟩
    exact this.trans h'.grows
  | unary h => exact h.grows
  | binary h h' => exact h.grows.trans h'.grows
  | and h h' => exact h.grows.trans h'.grows
  | or h h' => exact h.grows.trans h'.grows
  | call h h' => exact h.grows.trans h'.grows
  | index h h' => exact h.grows.trans h'.grows
  | setIndex h h' h'' => exact h.grows.trans (h'.grows.trans h''.grows)
  | array h => exact h.grows

theorem ExprsCode.grows {c c' : Context} {es : Exprs} {is : List Instruction}
    (h : ExprsCode c es is c') : Grows c c' := by
  cases h with
  | nil => exact .refl _
  | cons h h' => exact h.grows.trans h'.grows

end

namespace Context

theorem Grown.extends {c c' : Context} (h : c.Grown c') : c.Extends [] c' :=
  ⟨c'.draft.locals, rfl, h, by simp⟩

theorem Extends.grown {c c' : Context} (h : c.Extends [] c') : c.Grown c' := by
  obtain ⟨old, e, h, -⟩ := h
  have e : c'.draft.locals = old := e
  subst e
  exact h

theorem Extends.trans {c c₁ c' : Context} {news news' : List Local} (h : c.Extends news c₁)
    (h' : c₁.Extends news' c') : ∃ news₁, List.Forall₂ Local.Raised news news₁ ∧
      c.Extends (news' ++ news₁) c' := by
  obtain ⟨old, e, g, ds⟩ := h
  obtain ⟨old', e', g', ds'⟩ := h'
  have raised : List.Forall₂ Local.Raised (news ++ old) old' := e ▸ g'.draft.locals
  obtain ⟨news₁, old₁, rfl, hnews, hold⟩ := forall₂_append_left raised
  refine ⟨news₁, hnews, old₁, by rw [e', List.append_assoc], ?_, ?_⟩
  · have d := g'.draft
    have d' : (c₁.withLocals old).draft.Grown (c'.withLocals old₁).draft :=
      ⟨d.kind, d.name, d.arity, d.depth, d.constants, d.captures, hold⟩
    exact g.trans ⟨d', g'.enclosing, g'.heap⟩
  · intro l hl
    have depth : c₁.draft.depth = c.draft.depth := g.draft.depth
    obtain hl | hl := List.mem_append.1 hl
    · rw [ds' l hl, depth]
    · obtain ⟨l₀, hl₀, -, hd, -⟩ := forall₂_mem_right hnews hl
      rw [hd, ds l₀ hl₀]

theorem Extends.settled {c c' : Context} {news : List Local} (h : c.Extends news c')
    (hs : c.draft.Settled) : c'.draft.Settled := by
  obtain ⟨old, e, g, ds⟩ := h
  have depth : c'.draft.depth = c.draft.depth := g.draft.depth
  intro l hl
  rw [e] at hl
  obtain hl | hl := List.mem_append.1 hl
  · exact ⟨_, ds l hl, Nat.le_of_eq depth.symm⟩
  · obtain ⟨k, hk, hle⟩ := g.draft.settled hs l hl
    exact ⟨k, hk, hle⟩

theorem Extends.depth {c c' : Context} {news : List Local} (h : c.Extends news c') :
    c'.draft.depth = c.draft.depth := by
  obtain ⟨old, -, g, -⟩ := h
  exact g.draft.depth

theorem Extends.length {c c' : Context} {news : List Local} (h : c.Extends news c') :
    c'.draft.locals.length = news.length + c.draft.locals.length := by
  obtain ⟨old, e, g, -⟩ := h
  rw [e, List.length_append, List.Forall₂.length_eq g.draft.locals]
  rfl

theorem addLocal?_eq {c c' : Context} {name : String} (h : c.addLocal? name = some c') :
    c' = c.withLocals (⟨name, none, false⟩ :: c.draft.locals) ∧
      c.draft.locals.length < slotLimit := by
  unfold addLocal? at h
  split at h
  next hc => exact ⟨(Option.some.inj h).symm, hc.2⟩
  next => cases h

theorem newVariable?_proper {c c' : Context} {name : String} {k : UInt8}
    (h : c.newVariable? name = some (c', k)) (hp : c.Proper) : c'.Proper := by
  by_cases hd : 0 < c.draft.depth
  · rw [newVariable?_of_scope hd] at h
    obtain ⟨c₂, h₂, e⟩ := Option.map_eq_some_iff.1 h
    obtain ⟨rfl, -⟩ := Prod.mk.inj e
    obtain ⟨rfl, room⟩ := addLocal?_eq h₂
    exact ⟨⟨room, hp.draft.captures, hp.draft.distinct, hp.draft.constants⟩, hp.enclosing,
      hp.chained.ofCaptures rfl⟩
  · rw [newVariable?, if_neg hd] at h
    exact textConstant?_proper h hp

/-- The context behind the declaration of a variable, given the one behind its initializer. -/
theorem extends_variable {c c₁ c' : Context} {name : String} {k : UInt8}
    (h : c.newVariable? name = some (c₁, k)) (hp : c.Proper) (hg : Grows c₁ c') :
    ∃ news, c.Extends news c'.makeReadable ∧ c'.makeReadable.Proper ∧
      news.map Local.name = (if 0 < c.draft.depth then [name] else []) ∧
      ∀ l, c'.makeReadable.draft.locals.head? = some l → 0 < c.draft.depth →
        l.depth = some c.draft.depth := by
  have hp₁ := newVariable?_proper h hp
  have g := hg.grown hp₁
  have p := hg.proper hp₁
  by_cases hd : 0 < c.draft.depth
  · rw [newVariable?_of_scope hd] at h
    obtain ⟨c₂, h₂, e⟩ := Option.map_eq_some_iff.1 h
    obtain ⟨rfl, -⟩ := Prod.mk.inj e
    obtain ⟨rfl, room⟩ := addLocal?_eq h₂
    obtain ⟨l, old, ⟨hn, -, -⟩, hold, hl⟩ := List.forall₂_cons_left_iff.1 g.draft.locals
    have depth : c'.draft.depth = c.draft.depth := g.draft.depth
    have e : c'.makeReadable =
        c'.withLocals ({ l with depth := some c.draft.depth } :: old) := by
      rw [makeReadable, if_pos (depth ▸ hd), Draft.makeReadable, hl, ← depth]
      rfl
    have d := g.draft
    refine ⟨[{ l with depth := some c.draft.depth }], ⟨old, ?_, ?_, by simp⟩, ?_, ?_, ?_⟩
    · rw [e]
      rfl
    · rw [e]
      exact ⟨⟨d.kind, d.name, d.arity, d.depth, d.constants, d.captures, hold⟩, g.enclosing,
        g.heap⟩
    · rw [e]
      refine ⟨⟨?_, p.draft.captures, p.draft.distinct, p.draft.constants⟩, p.enclosing,
        p.chained.ofCaptures rfl⟩
      have := p.draft.locals
      rw [hl] at this
      exact this
    · rw [if_pos hd, List.map_singleton, hn]
    · rw [e]
      intro l' hl' _
      cases hl'
      rfl
  · rw [newVariable?, if_neg hd] at h
    have g := (textConstant?_grown h).trans g
    have e : c'.makeReadable = c' := if_neg (g.draft.depth ▸ hd)
    rw [e, if_neg hd]
    exact ⟨[], g.extends, p, rfl, fun _ _ hd' => absurd hd' hd⟩

/-- A variable is made readable once. -/
theorem makeReadable_eq {c : Context}
    (h : ∀ l, c.draft.locals.head? = some l → 0 < c.draft.depth → l.depth = some c.draft.depth) :
    c.makeReadable = c := by
  obtain ⟨⟨kind, name, arity, chunk, locals, captures, depth⟩, enclosing, heap⟩ := c
  unfold makeReadable
  split
  next hd =>
    cases locals with
    | nil => rfl
    | cons l outer =>
      obtain ⟨lname, ldepth, captured⟩ := l
      have this : ldepth = some depth := h _ rfl hd
      subst this
      rfl
  next => rfl

/-- The locals that the parameters of a function become. -/
def parameters (depth : Nat) (xs : List String) : List Local :=
  xs.reverse.map fun x => ⟨x, some depth, false⟩

theorem addParameters?_eq {xs : List String} : ∀ {c c' : Context}, 0 < c.draft.depth →
    c.draft.locals.length ≤ slotLimit → c.addParameters? xs = some c' →
    c' = { c with draft := { c.draft with
        arity := c.draft.arity + xs.length
        locals := parameters c.draft.depth xs ++ c.draft.locals } } ∧
      c'.draft.locals.length ≤ slotLimit ∧ (xs ≠ [] → c'.draft.arity ≤ countLimit) := by
  induction xs with
  | nil =>
    intro c c' _ hl h
    cases h
    exact ⟨rfl, hl, by simp⟩
  | cons x xs ih =>
    intro c c' hd hl h
    obtain ⟨c₁, h₁, h⟩ := Option.bind_eq_some_iff.1 h
    unfold addParameter? at h₁
    dsimp only at h₁
    split at h₁
    next few =>
      obtain ⟨c₂, h₂, rfl⟩ := Option.map_eq_some_iff.1 h₁
      obtain ⟨rfl, room⟩ := addLocal?_eq h₂
      have e : (withLocals { c with draft := { c.draft with arity := c.draft.arity + 1 } }
          (⟨x, none, false⟩ :: c.draft.locals)).makeReadable =
          { c with draft := { c.draft with
            arity := c.draft.arity + 1
            locals := ⟨x, some c.draft.depth, false⟩ :: c.draft.locals } } := if_pos hd
      have h : Context.addParameters? { c with draft := { c.draft with
          arity := c.draft.arity + 1
          locals := ⟨x, some c.draft.depth, false⟩ :: c.draft.locals } } xs = some c' := e ▸ h
      obtain ⟨rfl, fits, arity⟩ := ih (by exact hd) (by exact room) h
      refine ⟨?_, fits, fun _ => ?_⟩
      · simp only [parameters, List.reverse_cons, List.map_append, List.map_cons, List.map_nil,
          List.append_assoc, List.cons_append, List.nil_append, List.length_cons,
          Nat.add_assoc, Nat.add_comm 1]
      · by_cases hx : xs = []
        · subst hx
          exact few
        · exact arity hx
    next => cases h₁

/-- The locals of a scope that ends are those declared in it. -/
theorem Extends.closeScope {c c' : Context} {news : List Local} (hs : c.draft.Settled)
    (h : c.openScope.Extends news c') :
    c'.scopeCode = (news.map fun l => if l.captured then .closeUpvalue else .pop) ∧
      c.Grown c'.closeScope ∧ c'.draft.locals = news ++ c'.closeScope.draft.locals := by
  obtain ⟨old, e, g, ds⟩ := h
  have depth : c'.draft.depth = c.draft.depth + 1 := g.draft.depth
  have inside : ∀ l ∈ news, Draft.declaredWithin (c'.draft.depth - 1 + 1) l = true := by
    intro l hl
    have : l.depth = some (c.draft.depth + 1) := ds l hl
    simp [Draft.declaredWithin, this, depth]
  have outside : ∀ l ∈ old, ¬Draft.declaredWithin (c'.draft.depth - 1 + 1) l = true := by
    intro l hl
    obtain ⟨l₀, hl₀, -, hd, -⟩ := forall₂_mem_right g.draft.locals hl
    obtain ⟨k, hk, hle⟩ := hs l₀ hl₀
    simp only [Draft.declaredWithin, hd, hk, depth, decide_eq_true_eq]
    omega
  have stop : old.takeWhile (Draft.declaredWithin (c'.draft.depth - 1 + 1)) = [] ∧
      old.dropWhile (Draft.declaredWithin (c'.draft.depth - 1 + 1)) = old := by
    cases old with
    | nil => exact ⟨rfl, rfl⟩
    | cons l old =>
      have := outside l List.mem_cons_self
      exact ⟨List.takeWhile_cons_of_neg this, List.dropWhile_cons_of_neg this⟩
  have locals : c'.closeScope.draft.locals = old := by
    rw [Context.closeScope, e, List.dropWhile_append_of_pos inside, stop.2]
  refine ⟨?_, ?_, by rw [locals, e]⟩
  · rw [scopeCode, e, List.takeWhile_append_of_pos inside, stop.1, List.append_nil]
  · have d := g.draft
    rw [Context.closeScope, e, List.dropWhile_append_of_pos inside, stop.2, depth,
      Nat.add_sub_cancel]
    exact ⟨⟨d.kind, d.name, d.arity, rfl, d.constants, d.captures, d.locals⟩, g.enclosing, g.heap⟩

theorem closeScope_proper {c : Context} (h : c.Proper) : c.closeScope.Proper := by
  refine ⟨⟨?_, h.draft.captures, h.draft.distinct, h.draft.constants⟩, h.enclosing,
    h.chained.ofCaptures rfl⟩
  exact Nat.le_trans (List.dropWhile_sublist _).length_le h.draft.locals

theorem openScope_proper {c : Context} (h : c.Proper) : c.openScope.Proper :=
  ⟨⟨h.draft.locals, h.draft.captures, h.draft.distinct, h.draft.constants⟩, h.enclosing,
    h.chained.ofCaptures rfl⟩

theorem openScope_settled {c : Context} (h : c.draft.Settled) : c.openScope.draft.Settled := by
  intro l hl
  obtain ⟨k, hk, hle⟩ := h l hl
  exact ⟨k, hk, Nat.le_succ_of_le hle⟩

/-- The context at the body of a function. -/
theorem enterFunction_named {c c' : Context} {name : String} {xs : List String}
    (h : (c.enterFunction name).addParameters? xs = some c') : c'.draft.name ≠ none := by
  obtain ⟨rfl, -⟩ := addParameters?_eq (c := c.enterFunction name) Nat.one_pos
    (show 1 ≤ slotLimit by decide) h
  simp [enterFunction, Draft.new]

theorem enterFunction_proper {c c' : Context} {name : String} {xs : List String}
    (h : (c.enterFunction name).addParameters? xs = some c') (hp : c.Proper)
    (hs : c.draft.Settled) :
    c'.Proper ∧ c'.draft.Settled ∧ c'.enclosing = c.draft :: c.enclosing ∧
      c.heap.Extends c'.heap ∧ c'.draft.depth = 1 ∧
      c'.draft.locals = parameters 1 xs ++ [⟨"", some 0, false⟩] ∧ c'.draft.captures = #[] ∧
      c'.draft.arity = xs.length ∧ xs.length ≤ countLimit := by
  have empty : (c.enterFunction name).draft.arity = 0 := rfl
  obtain ⟨rfl, room, arity⟩ := addParameters?_eq (c := c.enterFunction name) Nat.one_pos
    (show 1 ≤ slotLimit by decide) h
  have self : parameters 1 xs ++ [⟨"", some 0, false⟩] =
    parameters (c.enterFunction name).draft.depth xs ++ (c.enterFunction name).draft.locals := rfl
  refine ⟨⟨⟨room, Nat.zero_le _, List.nodup_nil, Nat.zero_le _⟩, ?_, ?_, hs, hp.chained⟩, ?_, rfl,
    c.heap.extends_intern name, rfl, rfl, rfl, ?_, ?_⟩
  · intro d hd
    obtain rfl | hd := List.mem_cons.1 hd
    · exact hp.draft
    · exact hp.enclosing d hd
  · intro x hx
    cases hx
    contradiction
  · intro l hl
    have hl : l ∈ parameters 1 xs ++ [⟨"", some 0, false⟩] := hl
    obtain hl | hl := List.mem_append.1 hl
    · obtain ⟨x, -, rfl⟩ := List.mem_map.1 hl
      exact ⟨1, rfl, Nat.le_refl _⟩
    · cases List.mem_singleton.1 hl
      exact ⟨0, rfl, Nat.zero_le _⟩
  · rw [empty, Nat.zero_add]
  · by_cases hx : xs = []
    · subst hx
      decide
    · have := arity hx
      rwa [empty, Nat.zero_add] at this

/-- The context behind a function, compared with the one in front of it. -/
theorem leaveFunction?_grown {c₁ c c' : Context} {f : Function} {k : UInt8}
    (h : c.leaveFunction? f = some (c', k)) (hp : c.Proper)
    (hg : List.Forall₂ Draft.Grown (c₁.draft :: c₁.enclosing) c.enclosing)
    (hh : c₁.heap.Extends c.heap) :
    c₁.Grown c' ∧ c'.Proper ∧ c.draft.Linked c'.draft ∧
      (c'.draft :: c'.enclosing).map Draft.captures = c.enclosing.map Draft.captures ∧
      c'.heap = (c.heap.allocate (.function f)).1 ∧
      c'.draft.chunk.constants[k.toNat]? = some (.object (c.heap.allocate (.function f)).2) := by
  obtain ⟨d, ds, gd, gds, he⟩ := List.forall₂_cons_left_iff.1 hg
  have chained := hp.chained
  have propers := hp.enclosing
  rw [he] at chained propers
  rw [leaveFunction?, he] at h
  let c₄ : Context := ⟨d, ds, (c.heap.allocate (.function f)).1⟩
  have h : c₄.addConstant? (.object (c.heap.allocate (.function f)).2) = some (c', k) := h
  obtain ⟨grown, captures, enclosing⟩ := addConstant?_grown h
  have hp₄ : c₄.Proper :=
    ⟨propers d List.mem_cons_self, fun o ho => propers o (List.mem_cons_of_mem _ ho), chained.2.2⟩
  have g₄ : c₁.Grown c₄ := ⟨gd, gds, hh.trans (c.heap.extends_allocate _)⟩
  obtain ⟨w, hw, eq⟩ := addConstant?_value h
  refine ⟨g₄.trans grown, addConstant?_proper h hp₄, chained.1.grown grown.draft, ?_, ?_, ?_⟩
  · rw [he, List.map_cons, List.map_cons, captures, enclosing]
  · obtain ⟨_, _, e⟩ := Option.map_eq_some_iff.1 h
    cases e
    rfl
  · obtain rfl | eq := eq
    · exact hw
    · rw [hw, Value.eq_of_beq_object eq]

theorem names_of_raised {ls ls' : List Local} (h : List.Forall₂ Local.Raised ls ls') :
    ls'.map Local.name = ls.map Local.name := by
  induction h with
  | nil => rfl
  | cons r _ ih => rw [List.map_cons, List.map_cons, ih, r.1]

theorem Extends.transGrown {c c₁ c' : Context} {news : List Local} (h : c.Extends news c₁)
    (h' : c₁.Grown c') :
    ∃ news₁, List.Forall₂ Local.Raised news news₁ ∧ c.Extends news₁ c' :=
  h.trans h'.extends

theorem Extends.ofNames {c c' : Context} {news : List Local} (h : c.Extends news c')
    (hn : news.map Local.name = []) : c.Grown c' := by
  obtain rfl : news = [] := by simpa using hn
  exact h.grown

/-- The context behind the declaration of a function is readable already. -/
theorem makeReadable_grown {c c' : Context} {depth : Nat} (h : c.Grown c')
    (hd : c.draft.depth = depth)
    (hr : ∀ l, c.draft.locals.head? = some l → 0 < depth → l.depth = some depth) :
    c'.makeReadable = c' := by
  refine makeReadable_eq fun l' hl' hd' => ?_
  have hd'' := h.draft.depth.trans hd
  have locals := h.draft.locals
  cases e' : c'.draft.locals with
  | nil => simp [e'] at hl'
  | cons l'' ls' =>
    rw [e'] at locals hl'
    cases hl'
    obtain ⟨l, ls, ⟨-, depth', -⟩, -, e⟩ := List.forall₂_cons_right_iff.1 locals
    rw [depth', hd'', hr l (by rw [e]; rfl) (hd'' ▸ hd')]

end Context

theorem ClauseCode.grows {c c' : Context} {e : Option Expr} {is : Option (List Instruction)}
    (h : ClauseCode c e is c') : Grows c c' := by
  cases h with
  | absent => exact .refl _
  | present h => exact h.grows

/-- The declarations of a statement are the new locals, unless it is at the top of a script. -/
theorem StmtCode.extends {c c' : Context} {a : Stmt} {is : List Instruction}
    (h : StmtCode c a is c') : c.Proper → c.draft.Settled →
    ∃ news, c.Extends news c' ∧ c'.Proper ∧
      news.map Local.name = if 0 < c.draft.depth then a.declared else [] := by
  induction h with
  | empty =>
    intro hp _
    exact ⟨[], (Context.Grown.refl _).extends, hp, by simp [Stmt.declared]⟩
  | seq _ _ ih ih' =>
    intro hp hs
    obtain ⟨news, e, hp₁, n⟩ := ih hp hs
    obtain ⟨news', e', hp', n'⟩ := ih' hp₁ (e.settled hs)
    obtain ⟨news₁, raised, ext⟩ := e.trans e'
    refine ⟨_, ext, hp', ?_⟩
    rw [List.map_append, Context.names_of_raised raised, n, n', e.depth]
    split <;> rfl
  | expression h | print h =>
    intro hp _
    exact ⟨[], (h.grows.grown hp).extends, h.grows.proper hp, by simp [Stmt.declared]⟩
  | var hv he =>
    intro hp _
    obtain ⟨news, e, hp', n, -⟩ := Context.extends_variable hv hp he.grows
    exact ⟨news, e, hp', n⟩
  | function hv hx _ _ hl ih =>
    intro hp hs
    obtain ⟨news, e, hp₁, n, head⟩ := Context.extends_variable hv hp (.refl _)
    obtain ⟨hp₂, hs₂, around, heap, -⟩ := Context.enterFunction_proper hx hp₁ (e.settled hs)
    obtain ⟨news₂, ⟨old, -, g, -⟩, hp₃, -⟩ := ih hp₂ hs₂
    have growns := g.enclosing
    rw [around] at growns
    obtain ⟨grown, hp', -⟩ := Context.leaveFunction?_grown hl hp₃ growns (heap.trans g.heap)
    obtain ⟨news₁, raised, ext⟩ := e.transGrown grown
    rw [Context.makeReadable_grown grown e.depth head]
    exact ⟨news₁, ext, hp', (Context.names_of_raised raised).trans n⟩
  | block _ ih =>
    intro hp hs
    obtain ⟨news, e, hp', -⟩ := ih (Context.openScope_proper hp) (Context.openScope_settled hs)
    exact ⟨[], (e.closeScope hs).2.1.extends, Context.closeScope_proper hp', by simp [Stmt.declared]⟩
  | ifElse he _ _ ha hb _ _ ih ih' =>
    intro hp hs
    have g := he.grows.grown hp
    have hp₁ := he.grows.proper hp
    obtain ⟨news, e, hp₂, n⟩ := ih hp₁ (g.draft.settled hs)
    rw [Stmt.declared_of_declaresNothing ha, ite_self] at n
    have g' := e.ofNames n
    obtain ⟨news', e', hp', n'⟩ := ih' hp₂ (g'.draft.settled (g.draft.settled hs))
    rw [Stmt.declared_of_declaresNothing hb, ite_self] at n'
    exact ⟨[], (g.trans (g'.trans (e'.ofNames n'))).extends, hp', by simp [Stmt.declared]⟩
  | «while» he _ ha _ ih =>
    intro hp hs
    have g := he.grows.grown hp
    obtain ⟨news, e, hp', n⟩ := ih (he.grows.proper hp) (g.draft.settled hs)
    rw [Stmt.declared_of_declaresNothing ha, ite_self] at n
    exact ⟨[], (g.trans (e.ofNames n)).extends, hp', by simp [Stmt.declared]⟩
  | «for» _ h₁ h₂ _ ha _ ih ih' =>
    intro hp hs
    obtain ⟨news, e, hp₁, -⟩ := ih (Context.openScope_proper hp) (Context.openScope_settled hs)
    have g := (h₁.grows.trans h₂.grows).grown hp₁
    have hp₃ := (h₁.grows.trans h₂.grows).proper hp₁
    obtain ⟨news₁, -, e₁⟩ := e.transGrown g
    obtain ⟨news₂, e₂, hp', n⟩ := ih' hp₃ (e₁.settled (Context.openScope_settled hs))
    rw [Stmt.declared_of_declaresNothing ha, ite_self] at n
    obtain ⟨news₃, -, e₃⟩ := e₁.transGrown (e₂.ofNames n)
    exact ⟨[], (e₃.closeScope hs).2.1.extends, Context.closeScope_proper hp',
      by simp [Stmt.declared]⟩
  | «return» _ he =>
    intro hp _
    exact ⟨[], (he.grows.grown hp).extends, he.grows.proper hp, by simp [Stmt.declared]⟩

namespace Context

/-- The context in front of a script. -/
def script (h : Heap) : Context := ⟨.new .script none, [], h⟩

theorem script_settled (h : Heap) : (script h).draft.Settled := by
  intro l hl
  cases List.mem_singleton.1 hl
  exact ⟨0, rfl, Nat.le_refl 0⟩

theorem script_proper (h : Heap) : (script h).Proper :=
  ⟨⟨show 1 ≤ slotLimit by decide, Nat.zero_le _, List.nodup_nil, Nat.zero_le _⟩, by simp [script],
    rfl⟩

/-- A script is at the outermost level and captures nothing. -/
theorem script_extends {h : Heap} {c : Context} {a : Stmt} {is : List Instruction}
    (hc : StmtCode (script h) a is c) :
    (script h).Grown c ∧ c.Proper ∧ c.enclosing = [] ∧ c.draft.captures = #[] := by
  obtain ⟨news, e, hp, names⟩ := hc.extends (script_proper h) (script_settled h)
  have g := e.ofNames names
  have outer : c.enclosing = [] := List.forall₂_nil_left_iff.1 g.enclosing
  have chained := hp.chained
  rw [outer] at chained
  exact ⟨g, hp, outer, chained⟩

end Context

end Compile
end StackScript
