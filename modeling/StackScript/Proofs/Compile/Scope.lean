import StackScript.Proofs.Compile.Growth
import StackScript.Proofs.Compile.Script
import StackScript.Proofs.Syntax.Scope

/-!
# StackScript.Proofs.Compile.Scope

Compiled code reads and assigns the variables that the tree means.

* `follow`: an upvalue traced outward, function by function, to the slot it was captured from.
* `Denotes`: instructions that access one variable after the other.
* `compile_denotes`: the code of a source accesses its variables.
-/

namespace StackScript
namespace Compile

open Syntax Instruction

/-- Where an upvalue of the first function comes from, given the captures of the functions from
there outward: how many functions further out, and from which slot. -/
def follow : List (Array Capture) → UInt8 → Option (Nat × Nat)
  | [], _ => none
  | captures :: outer, i =>
    match captures[i.toNat]? with
    | none => none
    | some ⟨true, slot⟩ => some (1, slot.toNat)
    | some ⟨false, j⟩ => (follow outer j).map fun (levels, slot) => (levels + 1, slot)

/-- Whether an instruction accesses a variable or makes a closure. -/
def accesses : Instruction → Bool
  | .getLocal _ | .setLocal _ | .getGlobal _ | .setGlobal _ | .getUpvalue _ | .setUpvalue _
  | .closure _ | .capture _ => true
  | _ => false

/-- The code of a function accesses the variables that occur in it, and no others. -/
inductive Denotes (h : Heap) :
    List (Array Capture) → Array Value → List Occurrence → List Instruction → Prop where
  | nil {chain : List (Array Capture)} {pool : Array Value} : Denotes h chain pool [] []
  | other {chain : List (Array Capture)} {pool : Array Value} {os : List Occurrence}
      {i : Instruction} {is : List Instruction} :
      accesses i = false → Denotes h chain pool os is → Denotes h chain pool os (i :: is)
  | slot {chain : List (Array Capture)} {pool : Array Value} {os : List Occurrence}
      {is : List Instruction} {x : String} {assigned : Bool} {slot : UInt8} :
      Denotes h chain pool os is →
      Denotes h chain pool (.variable x assigned (some (0, slot.toNat)) :: os)
        ((if assigned then .setLocal slot else .getLocal slot) :: is)
  | upvalue {chain : List (Array Capture)} {pool : Array Value} {os : List Occurrence}
      {is : List Instruction} {x : String} {assigned : Bool} {i : UInt8} {levels slot : Nat} :
      follow chain i = some (levels, slot) → Denotes h chain pool os is →
      Denotes h chain pool (.variable x assigned (some (levels, slot)) :: os)
        ((if assigned then .setUpvalue i else .getUpvalue i) :: is)
  | global {chain : List (Array Capture)} {pool : Array Value} {os : List Occurrence}
      {is : List Instruction} {x : String} {assigned : Bool} {k : UInt8} {r : Ref} :
      pool[k.toNat]? = some (.object r) → h.string? r = some x → Denotes h chain pool os is →
      Denotes h chain pool (.variable x assigned none :: os)
        ((if assigned then .setGlobal k else .getGlobal k) :: is)
  | function {chain : List (Array Capture)} {pool : Array Value} {os inner : List Occurrence}
      {is js : List Instruction} {k : UInt8} {r : Ref} {f : Function} {captures : Array Capture} :
      pool[k.toNat]? = some (.object r) → h.function? r = some f →
      f.chunk.code.toList = stream js → f.upvalueCount = captures.size → captures.toList.Nodup →
      Denotes h (captures :: chain) f.chunk.constants inner js → Denotes h chain pool os is →
      Denotes h chain pool (.function inner :: os)
        (.closure k :: (captures.toList.map .capture ++ is))

namespace Denotes

variable {h : Heap} {chain : List (Array Capture)} {pool : Array Value}

theorem append {os os' : List Occurrence} {is is' : List Instruction}
    (d : Denotes h chain pool os is) (d' : Denotes h chain pool os' is') :
    Denotes h chain pool (os ++ os') (is ++ is') := by
  induction d with
  | nil => exact d'
  | other ha _ ih => exact .other ha (ih d')
  | slot _ ih => exact .slot (ih d')
  | upvalue hf _ ih => exact .upvalue hf (ih d')
  | global hp hs _ ih => exact .global hp hs (ih d')
  | function hp hf hc hn hd inner _ _ ih =>
    simp only [List.cons_append, List.append_assoc]
    exact .function hp hf hc hn hd inner (ih d')

theorem others {is : List Instruction} (ha : ∀ i ∈ is, accesses i = false) :
    Denotes h chain pool [] is := by
  induction is with
  | nil => exact .nil
  | cons i is ih =>
    exact .other (ha i List.mem_cons_self) (ih fun j hj => ha j (List.mem_cons_of_mem _ hj))

/-- Instructions that access no variable may come behind. -/
theorem andOthers {os : List Occurrence} {is js : List Instruction}
    (d : Denotes h chain pool os is) (ha : ∀ j ∈ js, accesses j = false) :
    Denotes h chain pool os (is ++ js) := by
  rw [← List.append_nil os]
  exact d.append (.others ha)

end Denotes

/-- The locals of a function without one that is being initialized. -/
def readable : List Local → List Local
  | [] => []
  | l :: ls => if l.depth.isNone then ls else l :: ls

theorem readable_settled {d : Draft} (h : d.Settled) : readable d.locals = d.locals := by
  cases hl : d.locals with
  | nil => rfl
  | cons l ls =>
    obtain ⟨k, hk, -⟩ := h l (by rw [hl]; exact List.mem_cons_self)
    simp [readable, hk]

theorem readable_raised {ls ls' : List Local} (h : List.Forall₂ Local.Raised ls ls') :
    List.Forall₂ Local.Raised (readable ls) (readable ls') := by
  cases h with
  | nil => exact .nil
  | cons r rs =>
    simp only [readable, r.2.1]
    split
    · exact rs
    · exact .cons r rs

theorem slotIn_map (name : String) (ls : List Local) :
    slotIn name (ls.map Local.name) = (Draft.findIn name ls).map Prod.fst := by
  induction ls with
  | nil => rfl
  | cons l ls ih =>
    rw [List.map_cons, slotIn, Draft.findIn]
    split
    · rw [List.length_map]
      rfl
    · exact ih

/-- What is found among all locals is found among those that can be read. -/
theorem slotIn_readable {name : String} {ls : List Local} {slot : Nat} {l : Local}
    (h : Draft.findIn name ls = some (slot, l)) (hl : l.depth.isSome) :
    slotIn name ((readable ls).map Local.name) = some slot := by
  cases ls with
  | nil => cases h
  | cons l₀ ls =>
    rw [readable]
    split
    next hn =>
      rw [Draft.findIn] at h
      split at h
      next =>
        cases h
        simp [Option.isNone_iff_eq_none.1 hn] at hl
      next =>
        rw [slotIn_map, h]
        rfl
    next =>
      rw [slotIn_map, h]
      rfl

theorem slotIn_readable_none {name : String} {ls : List Local}
    (h : Draft.findIn name ls = none) : slotIn name ((readable ls).map Local.name) = none := by
  cases ls with
  | nil => rfl
  | cons l₀ ls =>
    rw [readable]
    split
    next =>
      rw [Draft.findIn] at h
      split at h
      next => cases h
      next =>
        rw [slotIn_map, h]
        rfl
    next =>
      rw [slotIn_map, h]
      rfl

namespace Context

/-- The declarations that a context can see. -/
def scopes (c : Context) : Scopes :=
  ⟨(readable c.draft.locals).map Local.name,
    c.enclosing.map fun d => (readable d.locals).map Local.name, decide (0 < c.draft.depth)⟩

theorem names_readable {d d' : Draft} (h : d.Grown d') :
    (readable d'.locals).map Local.name = (readable d.locals).map Local.name :=
  names_of_raised (readable_raised h.locals)

theorem outer_grown {ds ds' : List Draft} (h : List.Forall₂ Draft.Grown ds ds') :
    (ds'.map fun d => (readable d.locals).map Local.name) =
      ds.map fun d => (readable d.locals).map Local.name := by
  induction h with
  | nil => rfl
  | cons g _ ih => rw [List.map_cons, List.map_cons, ih, names_readable g]

theorem Grown.scopes {c c' : Context} (h : c.Grown c') : c'.scopes = c.scopes := by
  rw [Context.scopes, Context.scopes, names_readable h.draft, outer_grown h.enclosing,
    h.draft.depth]

theorem Extends.scopes {c c' : Context} {news : List Local} {a : Stmt} (h : c.Extends news c')
    (hs : c.draft.Settled)
    (hn : news.map Local.name = if 0 < c.draft.depth then a.declared else []) :
    c'.scopes = c.scopes.behind a := by
  have settled' := h.settled hs
  obtain ⟨old, e, g, -⟩ := h
  have names : old.map Local.name = c.draft.locals.map Local.name := names_of_raised g.draft.locals
  have depth : c'.draft.depth = c.draft.depth := g.draft.depth
  have enclosing : List.Forall₂ Draft.Grown c.enclosing c'.enclosing := g.enclosing
  have outer := outer_grown enclosing
  rw [Context.scopes, Context.scopes, Scopes.behind, readable_settled hs,
    readable_settled settled', e, List.map_append, names, hn, outer, depth]
  split <;> simp_all

theorem scopes_newVariable? {c c' : Context} {name : String} {k : UInt8}
    (h : c.newVariable? name = some (c', k)) (hs : c.draft.Settled) : c'.scopes = c.scopes := by
  by_cases hd : 0 < c.draft.depth
  · rw [newVariable?_of_scope hd] at h
    obtain ⟨c₂, h₂, e⟩ := Option.map_eq_some_iff.1 h
    obtain ⟨rfl, -⟩ := Prod.mk.inj e
    obtain ⟨rfl, -⟩ := addLocal?_eq h₂
    rw [Context.scopes, Context.scopes, readable_settled hs]
    rfl
  · rw [newVariable?, if_neg hd] at h
    exact (textConstant?_grown h).scopes

theorem scopes_openScope {c : Context} : c.openScope.scopes = c.scopes.block := by
  rw [Context.scopes, Context.scopes, Scopes.block]
  have : 0 < c.openScope.draft.depth := Nat.succ_pos _
  rw [decide_eq_true this]
  rfl

/-- The captures of the functions from the innermost one outward. -/
def chain (c : Context) : List (Array Capture) := (c.draft :: c.enclosing).map Draft.captures

/-- Captures, pool and heap will have grown to what is given. -/
structure Before (c : Context) (chain : List (Array Capture)) (pool : Array Value) (h : Heap) :
    Prop where
  chain : List.Forall₂ Within c.chain chain
  pool : Within c.draft.chunk.constants pool
  heap : c.heap.Extends h

theorem chain_grown {c c' : Context} (h : c.Grown c') : List.Forall₂ Within c.chain c'.chain :=
  .cons h.draft.captures
    (List.forall₂_map_left_iff.2 (List.forall₂_map_right_iff.2 (h.enclosing.imp fun _ _ g =>
      g.captures)))

theorem Grown.before {c c' : Context} {chain : List (Array Capture)} {pool : Array Value}
    {h : Heap} (g : c.Grown c') (b : c'.Before chain pool h) : c.Before chain pool h :=
  ⟨forall₂_trans .trans (chain_grown g) b.chain, g.draft.constants.trans b.pool,
    g.heap.trans b.heap⟩

theorem Extends.before {c c' : Context} {news : List Local} {chain : List (Array Capture)}
    {pool : Array Value} {h : Heap} (e : c.Extends news c') (b : c'.Before chain pool h) :
    c.Before chain pool h := by
  obtain ⟨old, -, g, -⟩ := e
  exact g.before ⟨b.chain, b.pool, b.heap⟩

theorem before_makeReadable {c : Context} {chain : List (Array Capture)} {pool : Array Value}
    {h : Heap} (b : c.makeReadable.Before chain pool h) : c.Before chain pool h := by
  have same : c.makeReadable.chain = c.chain ∧
      c.makeReadable.draft.chunk.constants = c.draft.chunk.constants ∧
      c.makeReadable.heap = c.heap := by
    unfold makeReadable Draft.makeReadable
    split
    next => cases hl : c.draft.locals <;> exact ⟨rfl, rfl, rfl⟩
    next => exact ⟨rfl, rfl, rfl⟩
  exact ⟨same.1 ▸ b.chain, same.2.1 ▸ b.pool, same.2.2 ▸ b.heap⟩

end Context

theorem follow_within {chain chain' : List (Array Capture)} (h : List.Forall₂ Within chain chain') :
    ∀ {i : UInt8} {p : Nat × Nat}, follow chain i = some p → follow chain' i = some p := by
  induction h with
  | nil => exact fun h => h
  | cons w _ ih =>
    intro i p hp
    unfold follow at hp ⊢
    split at hp
    next => cases hp
    next slot hc =>
      rw [w hc]
      exact hp
    next j hc =>
      obtain ⟨q, hq, e⟩ := Option.map_eq_some_iff.1 hp
      rw [w hc]
      simp only [ih hq, Option.map_some, e]

/-- The capture of a variable leads to its innermost declaration. -/
theorem follow_resolveUpvalue {name : String} {ds : List Draft} :
    ∀ {d : Draft} {r : Resolution}, resolveUpvalue name d ds = some r → r.fault = none →
      d.Proper → (∀ o ∈ ds, o.Proper) → d.Chained ds →
      ∃ levels slot,
        lookup name (ds.map fun d => (readable d.locals).map Local.name) = some (levels, slot) ∧
        follow ((r.draft :: r.enclosing).map Draft.captures) r.index = some (levels + 1, slot) := by
  induction ds with
  | nil => exact fun h => by cases h
  | cons o ds ih =>
    intro d r h hf hp hps hc
    have ho := hps o List.mem_cons_self
    simp only [resolveUpvalue] at h
    split at h
    next slot l hl =>
      generalize ha : d.addCapture ⟨true, slot.toUInt8⟩ = added at h
      obtain ⟨d', i, full⟩ := added
      cases h
      obtain ⟨hread, rfl⟩ := Option.or_eq_none_iff.1 hf
      obtain ⟨-, -, found, -⟩ := Draft.addCapture_spec ha hp
      have hl' : l.depth.isSome := by
        cases hd : l.depth with
        | none => simp [readFault, hd] at hread
        | some k => rfl
      have hslot : slot.toUInt8.toNat = slot := by
        have : slot < 256 := Nat.lt_of_lt_of_le (Draft.findIn_captureIn hl).1 ho.locals
        simpa using this
      refine ⟨0, slot, ?_, ?_⟩
      · rw [List.map_cons, lookup, slotIn_readable hl hl']
      · simp [follow, found, hslot]
    next hl =>
      split at h
      next => cases h
      next r' hr =>
        generalize ha : d.addCapture ⟨false, r'.index⟩ = added at h
        obtain ⟨d', i, full⟩ := added
        cases h
        obtain ⟨hf', rfl⟩ := Option.or_eq_none_iff.1 hf
        obtain ⟨levels, slot, look, hfollow⟩ :=
          ih hr hf' ho (fun o' ho' => hps o' (List.mem_cons_of_mem _ ho')) hc.2.2
        obtain ⟨-, -, found, -⟩ := Draft.addCapture_spec ha hp
        refine ⟨levels + 1, slot, ?_, ?_⟩
        · rw [List.map_cons, lookup, slotIn_readable_none hl, look]
          rfl
        · rw [List.map_cons, follow, found]
          simp only [List.map_cons] at hfollow ⊢
          rw [hfollow]
          rfl

theorem lookup_resolveUpvalue_none {name : String} {ds : List Draft} :
    ∀ {d : Draft}, resolveUpvalue name d ds = none →
      lookup name (ds.map fun d => (readable d.locals).map Local.name) = none := by
  induction ds with
  | nil => exact fun _ => rfl
  | cons o ds ih =>
    intro d h
    simp only [resolveUpvalue] at h
    split at h
    next => cases h
    next hl =>
      split at h
      next hr =>
        rw [List.map_cons, lookup, slotIn_readable_none hl, ih hr]
        rfl
      next => cases h

/-- The place of a variable is that of its declaration. -/
theorem resolve?_place {c c' : Context} {name : String} {p : Place}
    (h : c.resolve? name = some (c', p)) (hp : c.Proper) :
    (∃ slot : UInt8, c.scopes.find name = some (0, slot.toNat) ∧ p = ⟨.getLocal slot, .setLocal slot⟩) ∨
    (∃ i levels slot, c.scopes.find name = some (levels, slot) ∧
      follow c'.chain i = some (levels, slot) ∧ p = ⟨.getUpvalue i, .setUpvalue i⟩) ∨
    (∃ k r, c.scopes.find name = none ∧ c'.draft.chunk.constants[k.toNat]? = some (.object r) ∧
      (c'.heap.size ≤ UInt32.size → c'.heap.string? r = some name) ∧
      p = ⟨.getGlobal k, .setGlobal k⟩) := by
  unfold Context.resolve? at h
  split at h
  next slot l hl =>
    split at h
    next hread =>
      cases h
      have hslot : slot.toUInt8.toNat = slot := by
        have : slot < 256 := Nat.lt_of_lt_of_le (Draft.findIn_captureIn hl).1 hp.draft.locals
        simpa using this
      refine .inl ⟨slot.toUInt8, ?_, rfl⟩
      simp only [Scopes.find, Context.scopes, lookup, slotIn_readable hl hread, hslot]
    next => cases h
  next hl =>
    split at h
    next r hr =>
      split at h
      next hf =>
        cases h
        obtain ⟨levels, slot, look, hfollow⟩ := follow_resolveUpvalue hr (by simpa using hf)
          hp.draft hp.enclosing hp.chained
        refine .inr (.inl ⟨r.index, levels + 1, slot, ?_, hfollow, rfl⟩)
        simp only [Scopes.find, Context.scopes, lookup, slotIn_readable_none hl, look,
          Option.map_some]
      next => cases h
    next hr =>
      obtain ⟨⟨c₁, k⟩, hk, e⟩ := Option.map_eq_some_iff.1 h
      cases e
      have outer := lookup_resolveUpvalue_none hr
      obtain ⟨r, hr', text⟩ := Context.textConstant?_value hk
      refine .inr (.inr ⟨k, r, ?_, hr', text, rfl⟩)
      simp only [Scopes.find, Context.scopes, lookup, slotIn_readable_none hl, outer,
        Option.map_none]

section Code

variable {chain : List (Array Capture)} {pool : Array Value} {h : Heap}

theorem denotes_place {c c' : Context} {name : String} {p : Place}
    (hr : c.resolve? name = some (c', p)) (hp : c.Proper) (b : c'.Before chain pool h)
    (hs : h.size ≤ UInt32.size) (assigned : Bool) :
    Denotes h chain pool [.variable name assigned (c.scopes.find name)]
      [if assigned then p.assign else p.read] := by
  obtain ⟨slot, find, rfl⟩ | ⟨i, levels, slot, find, hf, rfl⟩ | ⟨k, r, find, hk, text, rfl⟩ :=
    resolve?_place hr hp
  · rw [find]
    exact .slot .nil
  · rw [find]
    exact .upvalue (follow_within b.chain hf) .nil
  · rw [find]
    exact .global (b.pool hk) (b.heap.string? (text (Nat.le_trans b.heap.size_le hs))) .nil

mutual

theorem ExprCode.denotes {c c' : Context} {e : Expr} {is : List Instruction}
    (he : ExprCode c e is c') (hs : h.size ≤ UInt32.size) : c.Proper → c'.Before chain pool h →
    Denotes h chain pool (e.occurrences c.scopes) is := by
  cases he with
  | nil | true | false | number | string =>
    intro _ _
    rw [Expr.occurrences]
    exact .other rfl .nil
  | get hr =>
    intro hp b
    rw [Expr.occurrences]
    exact denotes_place hr hp b hs false
  | set hr h₁ =>
    intro hp b
    obtain ⟨g, hp₁⟩ := Context.resolve?_grown hr hp
    have d := h₁.denotes hs hp₁ b
    rw [g.scopes] at d
    rw [Expr.occurrences]
    exact d.append (denotes_place hr hp ((h₁.grows.grown hp₁).before b) hs true)
  | @unary _ _ op _ _ h₁ =>
    intro hp b
    rw [Expr.occurrences]
    refine (h₁.denotes hs hp b).andOthers ?_
    cases op <;> simp [unaryCode, accesses]
  | @binary _ _ _ op _ _ _ _ h₁ h₂ =>
    intro hp b
    have hp₁ := h₁.grows.proper hp
    have d := h₂.denotes hs hp₁ b
    rw [(h₁.grows.grown hp).scopes] at d
    rw [Expr.occurrences]
    refine (h₁.denotes hs hp ((h₂.grows.grown hp₁).before b)).append (d.andOthers ?_)
    cases op <;> simp [binaryCode, accesses]
  | and h₁ h₂ =>
    intro hp b
    have hp₁ := h₁.grows.proper hp
    have d := h₂.denotes hs hp₁ b
    rw [(h₁.grows.grown hp).scopes] at d
    rw [Expr.occurrences]
    exact (h₁.denotes hs hp ((h₂.grows.grown hp₁).before b)).append (.other rfl (.other rfl d))
  | or h₁ h₂ =>
    intro hp b
    have hp₁ := h₁.grows.proper hp
    have d := h₂.denotes hs hp₁ b
    rw [(h₁.grows.grown hp).scopes] at d
    rw [Expr.occurrences]
    exact (h₁.denotes hs hp ((h₂.grows.grown hp₁).before b)).append
      (.other rfl (.other rfl (.other rfl d)))
  | call h₁ h₂ =>
    intro hp b
    have hp₁ := h₁.grows.proper hp
    have d := h₂.denotes hs hp₁ b
    rw [(h₁.grows.grown hp).scopes] at d
    rw [Expr.occurrences]
    exact (h₁.denotes hs hp ((h₂.grows.grown hp₁).before b)).append (d.andOthers (by simp [accesses]))
  | index h₁ h₂ =>
    intro hp b
    have hp₁ := h₁.grows.proper hp
    have d := h₂.denotes hs hp₁ b
    rw [(h₁.grows.grown hp).scopes] at d
    rw [Expr.occurrences]
    exact (h₁.denotes hs hp ((h₂.grows.grown hp₁).before b)).append (d.andOthers (by simp [accesses]))
  | setIndex h₁ h₂ h₃ =>
    intro hp b
    have hp₁ := h₁.grows.proper hp
    have hp₂ := h₂.grows.proper hp₁
    have b₂ := (h₃.grows.grown hp₂).before b
    have b₁ := (h₂.grows.grown hp₁).before b₂
    have d₃ := h₃.denotes hs hp₂ b
    rw [(h₂.grows.grown hp₁).scopes, (h₁.grows.grown hp).scopes] at d₃
    have d₂ := h₂.denotes hs hp₁ b₂
    rw [(h₁.grows.grown hp).scopes] at d₂
    rw [Expr.occurrences]
    exact (h₁.denotes hs hp b₁).append (d₂.append (d₃.andOthers (by simp [accesses])))
  | array h₁ =>
    intro hp b
    rw [Expr.occurrences]
    exact (h₁.denotes hs hp b).andOthers (by simp [accesses])

theorem ExprsCode.denotes {c c' : Context} {es : Exprs} {is : List Instruction}
    (he : ExprsCode c es is c') (hs : h.size ≤ UInt32.size) : c.Proper → c'.Before chain pool h →
    Denotes h chain pool (es.occurrences c.scopes) is := by
  cases he with
  | nil =>
    intro _ _
    rw [Exprs.occurrences]
    exact .nil
  | cons h₁ h₂ =>
    intro hp b
    have hp₁ := h₁.grows.proper hp
    have d := h₂.denotes hs hp₁ b
    rw [(h₁.grows.grown hp).scopes] at d
    rw [Exprs.occurrences]
    exact (h₁.denotes hs hp ((h₂.grows.grown hp₁).before b)).append d

end

theorem ClauseCode.denotes {c c' : Context} {e : Option Expr} {is : Option (List Instruction)}
    (he : ClauseCode c e is c') (hs : h.size ≤ UInt32.size) (hp : c.Proper) (b : c'.Before chain pool h) :
    Denotes h chain pool (e.elim [] (·.occurrences c.scopes)) (is.elim [] id) := by
  cases he with
  | absent => exact .nil
  | present he => exact he.denotes hs hp b

theorem accesses_scopeCode (c : Context) : ∀ i ∈ c.scopeCode, accesses i = false := by
  intro i hi
  obtain ⟨l, -, rfl⟩ := List.mem_map.1 hi
  split <;> rfl

theorem accesses_definition (c : Context) (k : UInt8) :
    ∀ i ∈ c.definition k, accesses i = false := by
  intro i hi
  unfold Context.definition at hi
  split at hi
  · cases hi
  · cases List.mem_singleton.1 hi
    rfl

theorem denotes_loop {os₁ os₂ os₃ : List Occurrence} {l : Loop}
    (d₁ : Denotes h chain pool os₁ (l.condition.elim [] id))
    (d₂ : Denotes h chain pool os₂ (l.step.elim [] id)) (d₃ : Denotes h chain pool os₃ l.body) :
    Denotes h chain pool (os₁ ++ (os₂ ++ os₃)) l.code := by
  have head : Denotes h chain pool os₁ l.head := by
    unfold Loop.head
    cases hc : l.condition with
    | none => rwa [hc] at d₁
    | some is =>
      rw [hc] at d₁
      exact d₁.andOthers (by simp [accesses])
  have step : Denotes h chain pool os₂ l.stepCode := by
    unfold Loop.stepCode
    cases hc : l.step with
    | none => rwa [hc] at d₂
    | some is =>
      rw [hc] at d₂
      exact .other rfl (d₂.andOthers (by simp [accesses]))
  have tail : ∀ i ∈ Instruction.loop l.back.toUInt16 :: l.tail, accesses i = false := by
    intro i hi
    unfold Loop.tail at hi
    obtain rfl | hi := List.mem_cons.1 hi
    · rfl
    · cases hc : l.condition <;> simp [hc] at hi
      rw [hi]
      rfl
  exact head.append (step.append (d₃.andOthers tail))

theorem StmtCode.denotes {c c' : Context} {a : Stmt} {is : List Instruction}
    (ha : StmtCode c a is c') (hs : h.size < UInt32.size) :
    ∀ {chain : List (Array Capture)} {pool : Array Value}, c.Proper → c.draft.Settled →
      c'.Before chain pool h → Denotes h chain pool (a.occurrences c.scopes) is := by
  have hs' := Nat.le_of_lt hs
  induction ha with
  | empty =>
    intro _ _ _ _ _
    exact .nil
  | seq ha ha' ih ih' =>
    intro chain pool hp st b
    obtain ⟨news, e, hp₁, n⟩ := ha.extends hp st
    obtain ⟨news', e', -, -⟩ := ha'.extends hp₁ (e.settled st)
    have d := ih' hp₁ (e.settled st) b
    rw [e.scopes st n] at d
    exact (ih hp st (e'.before b)).append d
  | expression he =>
    intro chain pool hp _ b
    exact (he.denotes hs' hp b).andOthers (by simp [accesses])
  | print he =>
    intro chain pool hp _ b
    exact (he.denotes hs' hp b).andOthers (by simp [accesses])
  | var hv he =>
    intro chain pool hp st b
    have d := he.denotes hs' (Context.newVariable?_proper hv hp) (Context.before_makeReadable b)
    rw [Context.scopes_newVariable? hv st] at d
    exact d.andOthers (accesses_definition _ _)
  | @function c c₁ c₂ c₃ c' name k k' xs a is lines hv hx hb hl hc ih =>
    intro chain pool hp st b
    obtain ⟨news, e, hp₁, n, -⟩ := Context.extends_variable hv hp (.refl _)
    obtain ⟨hp₂, st₂, around, heap, depth, locals, -⟩ :=
      Context.enterFunction_proper hx hp₁ (e.settled st)
    obtain ⟨news₂, ⟨old, -, g, -⟩, hp₃, -⟩ := hb.extends hp₂ st₂
    have growns := g.enclosing
    rw [around] at growns
    obtain ⟨-, -, -, outer, heap', constant⟩ :=
      Context.leaveFunction?_grown hc hp₃ growns (heap.trans g.heap)
    have b' := Context.before_makeReadable b
    have scopes : c₂.scopes = (c.scopes.behind (.function name xs a)).body xs := by
      rw [← e.scopes (a := .function name xs a) st n, Context.scopes, readable_settled st₂, around, depth, locals]
      simp [Context.scopes, Scopes.body, Context.parameters, Function.comp_def]
    have object := (heap' ▸ b'.heap : Heap.Extends _ h).function?_allocate hs'
    have body : Denotes h (c₃.draft.captures :: chain) c₃.draft.chunk.constants
        (a.occurrences ((c.scopes.behind (.function name xs a)).body xs))
        (is ++ [.pushNil, .ret]) := by
      rw [← scopes]
      refine (ih hp₂ st₂ ⟨.cons (.refl _) ?_, .refl _, ?_⟩).andOthers (by simp [accesses])
      · exact outer ▸ b'.chain
      · exact (heap' ▸ c₃.heap.extends_allocate _ : c₃.heap.Extends c'.heap).trans b'.heap
    have d : Denotes h chain pool [.function (a.occurrences
        ((c.scopes.behind (.function name xs a)).body xs))] (c₃.closureCode k') := by
      rw [Context.closureCode, ← List.append_nil (c₃.draft.captures.toList.map _)]
      exact .function (b'.pool constant) object rfl rfl hp₃.draft.distinct body .nil
    exact d.andOthers (accesses_definition _ _)
  | block ha ih =>
    intro chain pool hp st b
    have d := ih (Context.openScope_proper hp) (Context.openScope_settled st)
      ⟨b.chain, b.pool, b.heap⟩
    rw [Context.scopes_openScope] at d
    exact d.andOthers (accesses_scopeCode _)
  | ifElse he ha ha' n n' _ _ ih ih' =>
    intro chain pool hp st b
    have hp₁ := he.grows.proper hp
    have g := he.grows.grown hp
    have st₁ := g.draft.settled st
    obtain ⟨news, e, hp₂, names⟩ := ha.extends hp₁ st₁
    rw [Stmt.declared_of_declaresNothing n, ite_self] at names
    have g' := e.ofNames names
    have st₂ := g'.draft.settled st₁
    obtain ⟨news', e', -, -⟩ := ha'.extends hp₂ st₂
    have b₂ := e'.before b
    have d' := ih' hp₂ st₂ b
    rw [g'.scopes, g.scopes] at d'
    have d := ih hp₁ st₁ b₂
    rw [g.scopes] at d
    exact (he.denotes hs' hp (g'.before b₂)).append
      (.other rfl (.other rfl (d.append (.other rfl (.other rfl d')))))
  | «while» he ha n _ ih =>
    intro chain pool hp st b
    have hp₁ := he.grows.proper hp
    have g := he.grows.grown hp
    obtain ⟨news, e, -, -⟩ := ha.extends hp₁ (g.draft.settled st)
    have d := ih hp₁ (g.draft.settled st) b
    rw [g.scopes] at d
    exact denotes_loop (l := ⟨some _, none, _⟩) (he.denotes hs' hp (e.before b)) .nil d
  | @«for» c c₁ c₂ c₃ c' i a _ _ _ _ _ _ hi h₁ h₂ ha n _ ih ih' =>
    intro chain pool hp st b
    have st₀ := Context.openScope_settled st
    have b' : c'.Before chain pool h := ⟨b.chain, b.pool, b.heap⟩
    obtain ⟨news, e, hp₁, names⟩ := hi.extends (Context.openScope_proper hp) st₀
    have g₂ := h₁.grows.grown hp₁
    have hp₂ := h₁.grows.proper hp₁
    have g₃ := h₂.grows.grown hp₂
    have hp₃ := h₂.grows.proper hp₂
    have st₃ := g₃.draft.settled (g₂.draft.settled (e.settled st₀))
    obtain ⟨news', e', -, -⟩ := ha.extends hp₃ st₃
    have b₃ := e'.before b'
    have b₂ := g₃.before b₃
    have scopes : c₁.scopes = c.scopes.block.behind i := by
      rw [e.scopes st₀ names, Context.scopes_openScope]
    have d₀ := ih (Context.openScope_proper hp) st₀ (g₂.before b₂)
    rw [Context.scopes_openScope] at d₀
    have d₁ := h₁.denotes hs' hp₁ b₂
    rw [scopes] at d₁
    have d₂ := h₂.denotes hs' hp₂ b₃
    rw [g₂.scopes, scopes] at d₂
    have d₃ := ih' hp₃ st₃ b'
    rw [g₃.scopes, g₂.scopes, scopes] at d₃
    exact d₀.append ((denotes_loop (l := ⟨_, _, _⟩) d₁ d₂ d₃).andOthers (accesses_scopeCode _))
  | «return» _ he =>
    intro chain pool hp _ b
    exact (he.denotes hs' hp b).andOthers (by simp [accesses])

end Code

/-- Every variable of a source that compiles is accessed where its declaration has put it: in its
slot, through upvalues that were captured from that slot, or by name if it is global. -/
theorem compile_denotes {source : String} {heap : Heap} {r : Ref}
    (hc : (compile source heap).result = .ok r)
    (hs : (compile source heap).heap.size < UInt32.size) :
    ∃ a f is, Parses source a ∧ (compile source heap).heap.function? r = some f ∧
      f.chunk.code.toList = stream is ∧ f.upvalueCount = 0 ∧
      Denotes (compile source heap).heap [#[]] f.chunk.constants (a.occurrences .script) is := by
  obtain ⟨a, f, heap', parses, code, allocated⟩ := compile_ok hc
  cases code with
  | @intro c _ is lines code hlines =>
    obtain ⟨g, hp, outer, captures⟩ := Context.script_extends code
    have grown := c.heap.extends_allocate (.function (c.finish
      (stream (is ++ [.pushNil, .ret])) lines))
    have last : Heap.Extends (c.heap.allocate (.function (c.finish
        (stream (is ++ [.pushNil, .ret])) lines))).1 (compile source heap).heap := by
      rw [allocated]
      exact .refl _
    have found := last.function?_allocate (Nat.le_of_lt hs)
    rw [allocated] at found grown
    refine ⟨a, _, is ++ [.pushNil, .ret], parses, found, rfl,
      by rw [Context.finish, captures]; rfl, ?_⟩
    refine Denotes.andOthers (code.denotes hs (Context.script_proper heap)
      (Context.script_settled heap) ⟨?_, .refl _, grown⟩) (by simp [accesses])
    rw [Context.chain, outer, List.map_cons, captures]
    exact .cons (.refl _) .nil

/-- A variable assigned two functions further in than it is declared. -/
theorem compile_denotes_nested :
    let compilation := compile "{ var x; fun f() { fun g() { x = nil; } } }" .empty
    compilation.result = .ok ⟨4⟩ ∧ compilation.heap.size < UInt32.size ∧
      ∃ a f is, Parses "{ var x; fun f() { fun g() { x = nil; } } }" a ∧
        compilation.heap.function? ⟨4⟩ = some f ∧
        f.chunk.code.toList = stream is ∧ f.upvalueCount = 0 ∧
        Denotes compilation.heap [#[]] f.chunk.constants (a.occurrences .script) is := by
  have compiles : (compile "{ var x; fun f() { fun g() { x = nil; } } }" .empty).result =
      .ok ⟨4⟩ := by
    decide +kernel
  have size : (compile "{ var x; fun f() { fun g() { x = nil; } } }" .empty).heap.size = 5 := by
    decide +kernel
  have small : (compile "{ var x; fun f() { fun g() { x = nil; } } }" .empty).heap.size <
      UInt32.size := by
    rw [size]
    decide
  exact ⟨compiles, small, compile_denotes compiles small⟩

end Compile
end StackScript
