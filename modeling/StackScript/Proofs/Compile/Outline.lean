import StackScript.Proofs.Bytecode.Outline
import StackScript.Proofs.Compile.Verify
import StackScript.Proofs.Store.Canonical

/-!
# StackScript.Proofs.Compile.Outline

Compiled functions form a tree, which is that of the declarations in the source.

* `Stmt.functions`, `Stmt.outline`: the functions that a statement declares, without and with those
  in the bodies of others.
* `Mirrors`: the functions on a heap that declarations become.
* `Adds`: what code does to the pools and to the functions on the heap.
* `compile_outline`: the functions of a source that compiles, their places and their listing.
-/

namespace StackScript
namespace Syntax

structure Declaration where
  name : String
  parameters : List String
  body : Stmt

namespace Stmt

/-- The functions that are declared, in order, without those in their bodies. -/
def functions : Stmt → List Declaration
  | .seq a b | .ifElse _ a b | .for a _ _ b => a.functions ++ b.functions
  | .function name xs a => [⟨name, xs, a⟩]
  | .block a | .while _ a => a.functions
  | _ => []

/-- All functions that are declared, in the order of their names in the source. -/
def outline : Stmt → List Declaration
  | .seq a b | .ifElse _ a b | .for a _ _ b => a.outline ++ b.outline
  | .function name xs a => ⟨name, xs, a⟩ :: a.outline
  | .block a | .while _ a => a.outline
  | _ => []

theorem outline_eq (a : Stmt) : a.outline = a.functions.flatMap fun d => d :: d.body.outline := by
  induction a with
  | seq _ _ ih ih' | ifElse _ _ _ ih ih' | «for» _ _ _ _ ih ih' =>
    rw [outline, functions, List.flatMap_append, ih, ih']
  | function => simp [outline, functions]
  | block _ ih | «while» _ _ ih => rw [outline, functions, ih]
  | _ => rfl

end Stmt
end Syntax

namespace Compile

open Syntax Instruction

/-- A function has the name, the number of parameters and the code of a declaration. -/
structure IsCompiled (h : Heap) (f : Function) (d : Declaration) : Prop where
  name : f.name.bind h.string? = some d.name
  arity : f.arity = d.parameters.length
  code : ∃ c is c', StmtCode c d.body is c' ∧
    f.chunk.code.toList = stream (is ++ [.pushNil, .ret])

/-- Functions are those of declarations, and the functions in the pool of each are those that are
declared in its body. All of them are listed with their declarations, each in front of those in
its body. Whatever is in the pool of a function is older than the function. -/
inductive Mirrors (h : Heap) : List Ref → List Declaration → List (Ref × Declaration) → Prop where
  | nil : Mirrors h [] [] []
  | cons {r : Ref} {f : Function} {rs : List Ref} {d : Declaration} {ds : List Declaration}
      {inner rest : List (Ref × Declaration)} (found : h.function? r = some f)
      (same : IsCompiled h f d)
      (inside : Mirrors h (h.nestedFunctions f.chunk) d.body.functions inner)
      (older : ∀ n ∈ h.nestedFunctions f.chunk, n.index < r.index)
      (behind : Mirrors h rs ds rest) :
      Mirrors h (r :: rs) (d :: ds) ((r, d) :: (inner ++ rest))

namespace Mirrors

variable {h : Heap} {rs rs' : List Ref} {ds ds' : List Declaration}
  {ps ps' : List (Ref × Declaration)}

theorem append (m : Mirrors h rs ds ps) (m' : Mirrors h rs' ds' ps') :
    Mirrors h (rs ++ rs') (ds ++ ds') (ps ++ ps') := by
  induction m with
  | nil => exact m'
  | cons found same inside older _ _ ih =>
    rw [List.cons_append, List.cons_append, List.cons_append, List.append_assoc]
    exact .cons found same inside older ih

theorem walks (m : Mirrors h rs ds ps) : h.Walks rs (ps.map Prod.fst) := by
  induction m with
  | nil => exact .done
  | cons found _ _ _ _ ih ih' =>
    rw [List.map_cons, List.map_append]
    exact .next found ih ih'

theorem declared (m : Mirrors h rs ds ps) :
    ps.map Prod.snd = ds.flatMap fun d => d :: d.body.outline := by
  induction m with
  | nil => rfl
  | @cons _ _ _ d _ _ _ _ _ _ _ _ ih ih' =>
    rw [List.map_cons, List.map_append, ih, ih', List.flatMap_cons, ← d.body.outline_eq]
    rfl

theorem compiled (m : Mirrors h rs ds ps) {p : Ref × Declaration} (hp : p ∈ ps) :
    ∃ f, h.function? p.1 = some f ∧ IsCompiled h f p.2 ∧
      ∀ n ∈ h.nestedFunctions f.chunk, n.index < p.1.index := by
  induction m with
  | nil => cases hp
  | cons found same _ older _ ih ih' =>
    obtain rfl | hp := List.mem_cons.1 hp
    · exact ⟨_, found, same, older⟩
    · obtain hp | hp := List.mem_append.1 hp
      · exact ih hp
      · exact ih' hp

end Mirrors

/-- The functions among the objects from one position of a heap up to another. -/
structure FunctionsIn (h : Heap) (m n : Nat) (rs : List Ref) : Prop where
  le : m ≤ n
  mem : ∀ r, r ∈ rs ↔ (m ≤ r.index ∧ r.index < n) ∧ (h.function? r).isSome
  distinct : rs.Nodup

namespace FunctionsIn

variable {h : Heap} {k m n : Nat} {rs rs' : List Ref}

theorem refl (h : Heap) (n : Nat) : FunctionsIn h n n [] :=
  ⟨Nat.le_refl n, fun _ => ⟨nofun, fun ⟨⟨le, lt⟩, _⟩ => absurd lt (Nat.not_lt_of_le le)⟩, List.nodup_nil⟩

theorem trans (a : FunctionsIn h k m rs) (b : FunctionsIn h m n rs') :
    FunctionsIn h k n (rs ++ rs') := by
  refine ⟨Nat.le_trans a.le b.le, fun r => ?_, ?_⟩
  · have le := a.le
    have le' := b.le
    rw [List.mem_append, a.mem, b.mem, ← or_and_right]
    exact and_congr_left fun _ => by omega
  · refine List.nodup_append.2 ⟨a.distinct, b.distinct, ?_⟩
    rintro r hr r' hr' rfl
    have below := ((a.mem r).1 hr).1.2
    have above := ((b.mem r).1 hr').1.1
    omega

theorem perm (a : FunctionsIn h m n rs) (p : rs.Perm rs') : FunctionsIn h m n rs' :=
  ⟨a.le, fun r => p.mem_iff.symm.trans (a.mem r), p.nodup_iff.1 a.distinct⟩

/-- A text that is put on a heap is no function. -/
theorem intern {H : Heap} {text : String} (ext : (h.intern text).1.Extends H) :
    FunctionsIn H h.size (h.intern text).1.size [] := by
  refine ⟨(h.extends_intern text).size_le, fun r => ?_, List.nodup_nil⟩
  simp only [List.not_mem_nil, false_iff, not_and, Bool.not_eq_true, Option.isSome_eq_false_iff,
    Option.isNone_iff_eq_none]
  rintro ⟨above, below⟩
  have there : (h.intern text).1.get? r = some (h.intern text).1.objects[r.index] :=
    Array.getElem?_eq_getElem below
  obtain old | e := Heap.get?_intern_cases there
  · have := (Array.getElem?_eq_some_iff.1 old).1
    have : r.index < h.size := this
    omega
  · rw [e] at there
    rw [Heap.function?, ext.get? there]

/-- The last object that was put on a heap is a function. -/
theorem allocate {H : Heap} {f : Function} (hs : H.size ≤ UInt32.size)
    (ext : (h.allocate (.function f)).1.Extends H) :
    FunctionsIn H h.size (h.allocate (.function f)).1.size [(h.allocate (.function f)).2] := by
  have size := h.size_allocate (.function f)
  have larger := ext.size_le
  have room : h.size < UInt32.size := by
    have larger : (h.allocate (.function f)).1.size ≤ H.size := larger
    omega
  have found := ext.function?_allocate hs
  have index : (h.allocate (.function f)).2.index = h.size := Heap.index_ofIndex room
  refine ⟨by omega, fun r => ?_, by simp⟩
  rw [List.mem_singleton, size]
  constructor
  · rintro rfl
    rw [found, index]
    exact ⟨⟨Nat.le_refl _, Nat.lt_succ_self _⟩, rfl⟩
  · rintro ⟨⟨above, below⟩, -⟩
    exact Heap.ref_allocate room (by omega)

end FunctionsIn

namespace Context

/-- The functions in the pools at a place, innermost pool first. -/
def nested (h : Heap) (c : Context) : List (List Ref) :=
  (c.draft :: c.enclosing).map fun d => h.nestedFunctions d.chunk

/-- All objects in the pools are on the heap. -/
def Held (c : Context) : Prop :=
  ∀ pool ∈ c.pools, ∀ r, .object r ∈ pool → r.index < c.heap.size

variable {h : Heap} {c c' : Context} {name : String} {k : UInt8}

theorem nested_eq_of_pools (e : c'.pools = c.pools) : c'.nested h = c.nested h := by
  have (c : Context) : c.nested h = c.pools.map fun pool => h.nestedFunctions ⟨#[], #[], pool⟩ := by
    rw [pools, List.map_map]
    rfl
  rw [this, this, e]

end Context

/-- Code puts functions on the heap, and some of them into the pool of the innermost function. -/
structure Adds (h : Heap) (c c' : Context) (roots news : List Ref) : Prop where
  held : c'.Held
  nested : ∃ inner outer, c.nested h = inner :: outer ∧ c'.nested h = (inner ++ roots) :: outer
  functions : FunctionsIn h c.heap.size c'.heap.size news

namespace Adds

variable {h : Heap} {c c₁ c' : Context} {roots roots' news news' : List Ref}

theorem refl (held : c.Held) : Adds h c c [] [] :=
  ⟨held, ⟨_, _, rfl, congrArg (· :: _) (List.append_nil _).symm⟩, .refl h _⟩

theorem trans (a : Adds h c c₁ roots news) (b : Adds h c₁ c' roots' news') :
    Adds h c c' (roots ++ roots') (news ++ news') := by
  obtain ⟨inner, outer, e, e₁⟩ := a.nested
  obtain ⟨_, _, e₁', e'⟩ := b.nested
  obtain ⟨rfl, rfl⟩ := List.cons.inj (e₁.symm.trans e₁')
  exact ⟨b.held, ⟨inner, outer, e, by rw [e', List.append_assoc]⟩, a.functions.trans b.functions⟩

/-- The pools and the heap are all that matters. -/
theorem congr {d d' : Context} (a : Adds h c c' roots news) (e : d.pools = c.pools)
    (e' : d'.pools = c'.pools) (heap : d.heap = c.heap) (heap' : d'.heap = c'.heap) :
    Adds h d d' roots news := by
  refine ⟨?_, ?_, ?_⟩
  · rw [Context.Held, e', heap']
    exact a.held
  · rw [Context.nested_eq_of_pools e, Context.nested_eq_of_pools e']
    exact a.nested
  · rw [heap, heap']
    exact a.functions

end Adds

section Constants

variable {h : Heap} {c c' : Context} {v : Value} {k : UInt8} {r : Ref}

theorem nestedFunctions_push (h : Heap) (c : Chunk) (v : Value) :
    h.nestedFunctions { c with constants := c.constants.push v } =
      h.nestedFunctions c ++ (v.ref?.filter fun r => (h.function? r).isSome).toList := by
  rw [Heap.nestedFunctions, Array.toList_push, List.filterMap_append]
  rfl

theorem addConstant?_held (hk : c.addConstant? v = some (c', k)) (held : c.Held)
    (hv : ∀ r, v = .object r → r.index < c.heap.size) : c'.Held := by
  obtain ⟨⟨chunk, k'⟩, hk, e⟩ := Option.map_eq_some_iff.1 hk
  cases e
  obtain ⟨rfl, -⟩ | ⟨rfl, -⟩ := Chunk.addConstant?_cases hk
  · exact held
  · intro pool hp r hr
    obtain rfl | hp := List.mem_cons.1 hp
    · obtain hr | rfl := Array.mem_push.1 hr
      · exact held _ List.mem_cons_self r hr
      · exact hv r rfl
    · exact held pool (List.mem_cons_of_mem _ hp) r hr

/-- A constant that is no function. -/
theorem adds_constant (hk : c.addConstant? v = some (c', k)) (held : c.Held)
    (hv : ∀ r, v = .object r → r.index < c.heap.size ∧ h.function? r = none) :
    Adds h c c' [] [] := by
  have held' := addConstant?_held hk held fun r e => (hv r e).1
  obtain ⟨⟨chunk, k'⟩, hk, e⟩ := Option.map_eq_some_iff.1 hk
  cases e
  refine ⟨held', ⟨_, _, rfl, ?_⟩, .refl h _⟩
  rw [List.append_nil]
  obtain ⟨rfl, -⟩ | ⟨rfl, -⟩ := Chunk.addConstant?_cases hk
  · rfl
  · refine congrArg (· :: _) ((nestedFunctions_push h _ v).trans ?_)
    cases v with
    | object r => simp [Value.ref?, (hv r rfl).2]
    | _ => simp [Value.ref?]

/-- A function that is not in the pool yet comes behind those that are. -/
theorem nested_addConstant? (hk : c.addConstant? (.object r) = some (c', k))
    (fresh : .object r ∉ c.draft.chunk.constants) (known : (h.function? r).isSome) :
    c'.nested h = (h.nestedFunctions c.draft.chunk ++ [r]) ::
      c.enclosing.map fun d => h.nestedFunctions d.chunk := by
  obtain ⟨⟨chunk, k'⟩, hk, e⟩ := Option.map_eq_some_iff.1 hk
  cases e
  refine congrArg (· :: _) ?_
  obtain ⟨rfl, w, hw, same⟩ | ⟨rfl, -⟩ := Chunk.addConstant?_cases hk
  · rw [Value.eq_of_beq_object same] at hw
    exact absurd (Array.mem_of_getElem? hw) fresh
  · refine (nestedFunctions_push h _ _).trans ?_
    simp [Value.ref?, known]

theorem adds_text {text : String} (hk : c.textConstant? text = some (c', k))
    (hs : h.size ≤ UInt32.size) (ext : c'.heap.Extends h) (held : c.Held) :
    Adds h c c' [] [] := by
  have heap : c'.heap = (c.heap.intern text).1 := by
    obtain ⟨_, _, e⟩ := Option.map_eq_some_iff.1 hk
    cases e
    rfl
  rw [heap] at ext
  have grows := (c.heap.extends_intern text).size_le
  have first : Adds h c (c.intern text).1 [] [] :=
    ⟨fun pool hp r hr => Nat.lt_of_lt_of_le (held pool hp r hr) grows,
      ⟨_, _, rfl, congrArg (· :: _) (List.append_nil _).symm⟩, .intern ext⟩
  have found := Heap.string?_eq_some.1
    (c.heap.string?_intern text (Nat.le_trans ext.size_le hs))
  have unlike : h.function? (c.heap.intern text).2 = none := by
    rw [Heap.function?, ext.get? found]
  refine first.trans (adds_constant hk first.held fun r e => ?_)
  obtain rfl := Value.object.inj e
  exact ⟨(Array.getElem?_eq_some_iff.1 found).1, unlike⟩

theorem adds_resolve? {name : String} {p : Place} (hr : c.resolve? name = some (c', p))
    (hs : h.size ≤ UInt32.size) (ext : c'.heap.Extends h) (held : c.Held) :
    Adds h c c' [] [] := by
  unfold Context.resolve? at hr
  split at hr
  next =>
    split at hr
    next =>
      cases hr
      exact .refl held
    next => cases hr
  next =>
    split at hr
    next r hu =>
      split at hr
      next =>
        cases hr
        exact (Adds.refl held).congr rfl (Context.constants_resolveUpvalue hu) rfl rfl
      next => cases hr
    next =>
      obtain ⟨⟨c₁, k⟩, hk, e⟩ := Option.map_eq_some_iff.1 hr
      cases e
      exact adds_text hk hs ext held

theorem adds_variable {name : String} (hv : c.newVariable? name = some (c', k))
    (hs : h.size ≤ UInt32.size) (ext : c'.heap.Extends h) (held : c.Held) :
    Adds h c c' [] [] := by
  by_cases hd : 0 < c.draft.depth
  · rw [Context.newVariable?_of_scope hd] at hv
    obtain ⟨c₂, h₂, e⟩ := Option.map_eq_some_iff.1 hv
    cases e
    obtain ⟨rfl, -⟩ := Context.addLocal?_eq h₂
    exact (Adds.refl held).congr rfl rfl rfl rfl
  · rw [Context.newVariable?, if_neg hd] at hv
    exact adds_text hv hs ext held

end Constants

/-- An expression adds no function. -/
structure Tacit (h : Heap) (c c' : Context) : Prop where
  grows : Grows c c'
  adds : c.Proper → c'.heap.Extends h → c.Held → Adds h c c' [] []

namespace Tacit

variable {h : Heap}

theorem refl (c : Context) : Tacit h c c := ⟨.refl c, fun _ _ => .refl⟩

theorem trans {c c₁ c' : Context} (a : Tacit h c c₁) (b : Tacit h c₁ c') : Tacit h c c' where
  grows := a.grows.trans b.grows
  adds hp ext held := by
    have hp₁ := a.grows.proper hp
    have first := a.adds hp ((b.grows.grown hp₁).heap.trans ext) held
    exact first.trans (b.adds hp₁ ext first.held)

end Tacit

section Expressions

variable {h : Heap}

theorem tacit_resolve? {c c' : Context} {name : String} {p : Place}
    (hr : c.resolve? name = some (c', p)) (hs : h.size ≤ UInt32.size) : Tacit h c c' :=
  ⟨⟨fun hp => (Context.resolve?_grown hr hp).1, fun hp => (Context.resolve?_grown hr hp).2⟩,
    fun _ => adds_resolve? hr hs⟩

mutual

theorem ExprCode.tacit {c c' : Context} {e : Expr} {is : List Instruction}
    (he : ExprCode c e is c') (hs : h.size ≤ UInt32.size) : Tacit h c c' := by
  cases he with
  | nil | true | false => exact .refl _
  | number hk =>
    exact ⟨⟨fun _ => (Context.addConstant?_grown hk).1, Context.addConstant?_proper hk⟩,
      fun _ _ held => adds_constant hk held (by simp)⟩
  | string hk =>
    exact ⟨⟨fun _ => Context.textConstant?_grown hk, Context.textConstant?_proper hk⟩,
      fun _ => adds_text hk hs⟩
  | get hr => exact tacit_resolve? hr hs
  | set hr he => exact (tacit_resolve? hr hs).trans (he.tacit hs)
  | unary he => exact he.tacit hs
  | binary he he' | and he he' | or he he' | index he he' => exact (he.tacit hs).trans (he'.tacit hs)
  | call he hes => exact (he.tacit hs).trans (hes.tacit hs)
  | setIndex he he' he'' => exact (he.tacit hs).trans ((he'.tacit hs).trans (he''.tacit hs))
  | array hes => exact hes.tacit hs

theorem ExprsCode.tacit {c c' : Context} {es : Exprs} {is : List Instruction}
    (hes : ExprsCode c es is c') (hs : h.size ≤ UInt32.size) : Tacit h c c' := by
  cases hes with
  | nil => exact .refl _
  | cons he hes => exact (he.tacit hs).trans (hes.tacit hs)

end

theorem ClauseCode.tacit {c c' : Context} {e : Option Expr} {is : Option (List Instruction)}
    (he : ClauseCode c e is c') (hs : h.size ≤ UInt32.size) : Tacit h c c' := by
  cases he with
  | absent => exact .refl _
  | present he => exact he.tacit hs

end Expressions

/-- The functions that code adds are those of declarations. -/
def Outlines (h : Heap) (c : Context) (ds : List Declaration) (c' : Context) : Prop :=
  ∃ roots ps, Adds h c c' roots (ps.map Prod.fst) ∧ Mirrors h roots ds ps

namespace Outlines

variable {h : Heap} {c c₁ c' : Context} {ds ds' : List Declaration}

theorem ofAdds (a : Adds h c c' [] []) : Outlines h c [] c' := ⟨[], [], a, .nil⟩

theorem held (o : Outlines h c ds c') : c'.Held := by
  obtain ⟨_, _, a, -⟩ := o
  exact a.held

theorem trans (o : Outlines h c ds c₁) (o' : Outlines h c₁ ds' c') :
    Outlines h c (ds ++ ds') c' := by
  obtain ⟨roots, ps, a, m⟩ := o
  obtain ⟨roots', ps', a', m'⟩ := o'
  exact ⟨_, _, List.map_append ▸ a.trans a', m.append m'⟩

theorem congr {d d' : Context} (o : Outlines h c ds c') (e : d.pools = c.pools)
    (e' : d'.pools = c'.pools) (heap : d.heap = c.heap) (heap' : d'.heap = c'.heap) :
    Outlines h d ds d' := by
  obtain ⟨roots, ps, a, m⟩ := o
  exact ⟨roots, ps, a.congr e e' heap heap', m⟩

end Outlines

section Statements

variable {h : Heap}

/-- The parameters of a function put its name on the heap and start an empty pool. -/
theorem enterFunction_outlines {c c' : Context} {name : String} {xs : List String}
    (hx : (c.enterFunction name).addParameters? xs = some c') (hs : h.size ≤ UInt32.size)
    (ext : c'.heap.Extends h) (held : c.Held) :
    c'.Held ∧ c'.nested h = [] :: c.nested h ∧ FunctionsIn h c.heap.size c'.heap.size [] ∧
      c'.draft.name.bind h.string? = some name ∧ c'.draft.arity = xs.length := by
  obtain ⟨rfl, -, -⟩ := Context.addParameters?_eq (c := c.enterFunction name) Nat.one_pos
    (show 1 ≤ slotLimit by decide) hx
  have ext : (c.heap.intern name).1.Extends h := ext
  have grows := (c.heap.extends_intern name).size_le
  refine ⟨fun pool hp r hr => ?_, rfl, .intern ext, ?_, Nat.zero_add _⟩
  · obtain rfl | hp := List.mem_cons.1 hp
    · cases Array.not_mem_empty _ hr
    · exact Nat.lt_of_lt_of_le (held pool hp r hr) grows
  · exact ext.string? (c.heap.string?_intern name (Nat.le_trans ext.size_le hs))

/-- The end of a function puts it on the heap and into the pool around it. -/
theorem leaveFunction_outlines {c c' : Context} {f : Function} {k : UInt8} {own inner : List Ref}
    {outer : List (List Ref)} (hk : c.leaveFunction? f = some (c', k)) (hs : h.size ≤ UInt32.size)
    (ext : c'.heap.Extends h) (held : c.Held) (nested : c.nested h = own :: inner :: outer) :
    ∃ r, r.index = c.heap.size ∧ h.function? r = some f ∧ c'.Held ∧
      c'.nested h = (inner ++ [r]) :: outer ∧ FunctionsIn h c.heap.size c'.heap.size [r] := by
  cases he : c.enclosing with
  | nil => simp [Context.leaveFunction?, he] at hk
  | cons d ds =>
    let r := (c.heap.allocate (.function f)).2
    let c₁ : Context := ⟨d, ds, (c.heap.allocate (.function f)).1⟩
    have hk : c₁.addConstant? (.object r) = some (c', k) := by
      rw [← hk, Context.leaveFunction?, he]
    have heap : c'.heap = (c.heap.allocate (.function f)).1 := by
      obtain ⟨_, _, e⟩ := Option.map_eq_some_iff.1 hk
      cases e
      rfl
    rw [heap] at ext ⊢
    have functions := FunctionsIn.allocate hs ext
    have found : h.function? r = some f := ext.function?_allocate hs
    have index : r.index = c.heap.size := by
      have range := ((functions.mem r).1 (List.mem_singleton_self r)).1
      have size := c.heap.size_allocate (.function f)
      omega
    have older : ∀ pool ∈ c₁.pools, ∀ x, .object x ∈ pool → x.index < c.heap.size := by
      intro pool hp
      refine held pool (List.mem_cons_of_mem _ ?_)
      rwa [he]
    have same : inner = h.nestedFunctions d.chunk ∧
        outer = ds.map fun d => h.nestedFunctions d.chunk := by
      rw [Context.nested, he] at nested
      exact ⟨(List.cons.inj (List.cons.inj nested).2).1.symm,
        (List.cons.inj (List.cons.inj nested).2).2.symm⟩
    refine ⟨r, index, found, addConstant?_held hk (fun pool hp x hx => ?_) ?_, ?_, functions⟩
    · have := older pool hp x hx
      have size := c.heap.size_allocate (.function f)
      show x.index < (c.heap.allocate (.function f)).1.size
      omega
    · rintro _ ⟨⟩
      exact ((functions.mem r).1 (List.mem_singleton_self r)).1.2
    · rw [same.1, same.2]
      refine nested_addConstant? hk (fun hr => ?_) (by rw [found]; rfl)
      have := older _ List.mem_cons_self r hr
      omega

/-- A function that is declared is on the heap behind everything in its body, and it is the last
one in the pool around it. -/
theorem outlines_function {c c₁ c₂ c₃ c' : Context} {name : String} {k k' : UInt8}
    {xs : List String} {a : Stmt} {is : List Instruction} {lines : Array Nat}
    (hv : c.newVariable? name = some (c₁, k))
    (hx : (c₁.makeReadable.enterFunction name).addParameters? xs = some c₂)
    (hb : StmtCode c₂ a is c₃)
    (hk : c₃.leaveFunction? (c₃.finish (stream (is ++ [.pushNil, .ret])) lines) = some (c', k'))
    (body : c₂.Proper → c₂.draft.Settled → c₃.heap.Extends h → c₂.Held →
      Outlines h c₂ a.functions c₃)
    (hs : h.size ≤ UInt32.size) (hp : c.Proper) (st : c.draft.Settled) (ext : c'.heap.Extends h)
    (held : c.Held) : Outlines h c [⟨name, xs, a⟩] c' := by
  obtain ⟨_, e, hp₁, -, -⟩ := Context.extends_variable hv hp (.refl _)
  obtain ⟨hp₂, st₂, around, ext₁, -⟩ := Context.enterFunction_proper hx hp₁ (e.settled st)
  obtain ⟨_, ⟨_, -, g, -⟩, hp₃, -⟩ := hb.extends hp₂ st₂
  have growns := g.enclosing
  rw [around] at growns
  obtain ⟨-, -, -, -, heap, -⟩ := Context.leaveFunction?_grown hk hp₃ growns (ext₁.trans g.heap)
  have ext₃ : c₃.heap.Extends h := (c₃.heap.extends_allocate _).trans (heap ▸ ext)
  have ext₂ : c₂.heap.Extends h := g.heap.trans ext₃
  have first := adds_variable hv hs (Context.heap_makeReadable c₁ ▸ ext₁.trans ext₂) held
  have first : Adds h c c₁.makeReadable [] [] :=
    first.congr rfl c₁.pools_makeReadable rfl c₁.heap_makeReadable
  obtain ⟨inner, outer, nested, nested₁⟩ := first.nested
  obtain ⟨held₂, nested₂, none, named, arity⟩ := enterFunction_outlines hx hs ext₂ first.held
  obtain ⟨roots, ps, adds, mirrors⟩ := body hp₂ st₂ ext₃ held₂
  obtain ⟨_, _, e₂, nested₃⟩ := adds.nested
  obtain ⟨rfl, rfl⟩ := List.cons.inj (nested₂.symm.trans e₂)
  rw [nested₁, List.append_nil] at nested₃
  obtain ⟨r, index, found, held', nested', last⟩ :=
    leaveFunction_outlines hk hs ext adds.held nested₃
  have inside : h.nestedFunctions (c₃.finish (stream (is ++ [.pushNil, .ret])) lines).chunk = roots :=
    (List.cons.inj nested₃).1
  refine ⟨[r], (r, ⟨name, xs, a⟩) :: (ps ++ []), ⟨held', ⟨inner, outer, nested, nested'⟩, ?_⟩, ?_⟩
  · have all := first.functions.trans (none.trans (adds.functions.trans last))
    refine all.perm ?_
    simp
  · refine .cons found ⟨?_, ?_, ?_⟩ (inside ▸ mirrors) ?_ .nil
    · exact (congrArg (·.bind h.string?) g.draft.name).trans named
    · exact g.draft.arity.trans arity
    · exact ⟨c₂, is, c₃, hb, by simp [Context.finish]⟩
    · intro n hn
      rw [inside] at hn
      have listed := mirrors.walks.perm.mem_iff.2 (List.mem_append_left _ hn)
      have below := ((adds.functions.mem n).1 listed).1.2
      omega

theorem StmtCode.outlines {c c' : Context} {a : Stmt} {is : List Instruction}
    (ha : StmtCode c a is c') (hs : h.size ≤ UInt32.size) : c.Proper → c.draft.Settled →
      c'.heap.Extends h → c.Held → Outlines h c a.functions c' := by
  induction ha with
  | empty => exact fun _ _ _ held => .ofAdds (.refl held)
  | seq ha hb ih ih' =>
    intro hp st ext held
    obtain ⟨hp₁, st₁, -⟩ := ha.later hp st
    obtain ⟨-, -, ext₂⟩ := hb.later hp₁ st₁
    have first := ih hp st (ext₂.trans ext) held
    exact first.trans (ih' hp₁ st₁ ext first.held)
  | expression he | print he | «return» _ he =>
    intro hp _ ext held
    exact .ofAdds ((he.tacit hs).adds hp ext held)
  | @var c c₁ c' name k e is hv he =>
    intro hp _ ext held
    have ext : c'.heap.Extends h := Context.heap_makeReadable c' ▸ ext
    have hp₁ := Context.newVariable?_proper hv hp
    have ext₁ := ((he.tacit hs).grows.grown hp₁).heap.trans ext
    have first := adds_variable hv hs ext₁ held
    have both := first.trans ((he.tacit hs).adds hp₁ ext first.held)
    exact .ofAdds (both.congr rfl c'.pools_makeReadable rfl c'.heap_makeReadable)
  | block _ ih =>
    intro hp st ext held
    have inside := ih (Context.openScope_proper hp) (Context.openScope_settled st) ext held
    exact inside.congr rfl rfl rfl rfl
  | ifElse he ha hb _ _ _ _ ih ih' =>
    intro hp st ext held
    have tacit := he.tacit hs
    have hp₁ := tacit.grows.proper hp
    have st₁ := (tacit.grows.grown hp).draft.settled st
    obtain ⟨hp₂, st₂, ext₂⟩ := ha.later hp₁ st₁
    obtain ⟨-, -, ext₃⟩ := hb.later hp₂ st₂
    have ext₃ := ext₃.trans ext
    have first := tacit.adds hp (ext₂.trans ext₃) held
    have second := ih hp₁ st₁ ext₃ first.held
    exact (Outlines.ofAdds first).trans (second.trans (ih' hp₂ st₂ ext second.held))
  | «while» he ha _ _ ih =>
    intro hp st ext held
    have tacit := he.tacit hs
    have hp₁ := tacit.grows.proper hp
    have st₁ := (tacit.grows.grown hp).draft.settled st
    obtain ⟨-, -, ext₂⟩ := ha.later hp₁ st₁
    have first := tacit.adds hp (ext₂.trans ext) held
    exact (Outlines.ofAdds first).trans (ih hp₁ st₁ ext first.held)
  | @«for» c _ _ _ c' i a _ _ _ _ _ _ hi h₁ h₂ ha _ _ ih ih' =>
    intro hp st ext held
    have ext : c'.heap.Extends h := ext
    have hp := Context.openScope_proper hp
    have st := Context.openScope_settled st
    obtain ⟨hp₁, st₁, -⟩ := hi.later hp st
    have tacit := (h₁.tacit hs).trans (h₂.tacit hs)
    have hp₃ := tacit.grows.proper hp₁
    have st₃ := (tacit.grows.grown hp₁).draft.settled st₁
    obtain ⟨-, -, ext₄⟩ := ha.later hp₃ st₃
    have ext₃ := ext₄.trans ext
    have ext₁ := (tacit.grows.grown hp₁).heap.trans ext₃
    have first := ih hp st ext₁ held
    have clauses := tacit.adds hp₁ ext₃ first.held
    have all := first.trans ((Outlines.ofAdds clauses).trans (ih' hp₃ st₃ ext clauses.held))
    exact all.congr rfl rfl rfl rfl
  | @function c c₁ c₂ c₃ c' name k k' xs a is lines hv hx hb _ hk ih =>
    intro hp st ext held
    have ext : c'.heap.Extends h := Context.heap_makeReadable c' ▸ ext
    have whole := outlines_function hv hx hb hk ih hs hp st ext held
    exact whole.congr rfl c'.pools_makeReadable rfl c'.heap_makeReadable

end Statements

/-- The functions of a compilation, given the heap before and after it, its script and its tree:
every other function with its declaration. -/
structure Outlined (old h : Heap) (script : Ref) (a : Stmt) (ps : List (Ref × Declaration)) :
    Prop where
  all : ∀ r, r ∈ script :: ps.map Prod.fst ↔ old.size ≤ r.index ∧ (h.function? r).isSome
  distinct : (script :: ps.map Prod.fst).Nodup
  /-- A function in the pool of a function is older. -/
  older : ∀ r f n, old.size ≤ r.index → h.function? r = some f →
    .object n ∈ f.chunk.constants → (h.function? n).isSome → n.index < r.index
  /-- A function other than the script is in one place of one pool, apart from pools that had its
  handle before there was an object for it. -/
  once : ∀ n, old.size ≤ n.index → (h.function? n).isSome → n ≠ script →
    ∃! p : Ref × Nat, ¬old.HasAt p n ∧ h.HasAt p n
  /-- What is nested in the source is nested in the pools. -/
  mirrors : Mirrors h (h.nested script) a.functions ps
  declared : ps.map Prod.snd = a.outline
  headlines : h.display (.object script) = "<script>" ∧
    ∀ p ∈ ps, h.display (.object p.1) = "<fn " ++ p.2.name ++ ">"
  /-- The listing ends, also without a bound on its levels. -/
  walks : h.Walks [script] (script :: ps.map Prod.fst)
  listing : h.listFunction script = h.listAlone script ++ h.listEach (ps.map Prod.fst)

theorem display_function {h : Heap} {r : Ref} {f : Function} (hf : h.function? r = some f) :
    h.display (.object r) = h.displayFunction f := by
  rw [Heap.display, Heap.displayUpTo, Heap.function?_eq_some.1 hf]

/-- The places of functions of a compilation are those that the heap before did not have. -/
theorem hasAt_iff {old h : Heap} {p : Ref × Nat} {n : Ref} (ext : old.Extends h) :
    ¬old.HasAt p n ∧ h.HasAt p n ↔ old.size ≤ p.1.index ∧ h.HasAt p n := by
  refine and_congr_left fun ⟨f, hf, hn⟩ => ?_
  constructor
  · intro fresh
    by_contra below
    obtain ⟨o, there⟩ : ∃ o, old.objects[p.1.index]? = some o :=
      ⟨_, Array.getElem?_eq_getElem (Nat.lt_of_not_le below)⟩
    have same := (ext.get? there).symm.trans (Heap.function?_eq_some.1 hf)
    exact fresh ⟨f, Heap.function?_eq_some.2 (there.trans same), hn⟩
  · rintro above ⟨f, hf, -⟩
    have := (Array.getElem?_eq_some_iff.1 (Heap.function?_eq_some.1 hf)).1
    exact absurd above (Nat.not_le_of_lt this)

/-- The functions of a script that became the last object of a heap. -/
theorem outlined_script {heap h : Heap} {a : Stmt} {is : List Instruction} {c : Context}
    {octets : List UInt8} {lines : Array Nat} {r : Ref}
    (code : StmtCode (.script heap) a is c)
    (allocated : c.heap.allocate (.function (c.finish octets lines)) = (h, r))
    (hs : h.size ≤ UInt32.size) : ∃ ps, Outlined heap h r a ps := by
  generalize hf : c.finish octets lines = f at allocated
  have last : (c.heap.allocate (.function f)).1.Extends h := by
    rw [allocated]
    exact .refl h
  have ext := (c.heap.extends_allocate _).trans last
  have found := last.function?_allocate hs
  have held : (Context.script heap).Held := by
    intro pool hp n hn
    obtain rfl := List.mem_singleton.1 hp
    cases Array.not_mem_empty _ hn
  obtain ⟨roots, ps, adds, mirrors⟩ := code.outlines hs (Context.script_proper heap)
    (Context.script_settled heap) ext held
  have top := FunctionsIn.allocate hs last
  rw [allocated] at found top
  have functions := (adds.functions.trans top).perm (List.perm_append_singleton r _)
  have nested : h.nested r = roots := by
    obtain ⟨_, _, e, e'⟩ := adds.nested
    obtain ⟨rfl, -⟩ := List.cons.inj e
    rw [Heap.nested_eq found, ← hf]
    exact (List.cons.inj e').1
  rw [← nested] at mirrors
  have walks : h.Walks [r] (r :: (ps.map Prod.fst ++ [])) :=
    .next found (Heap.nested_eq found ▸ mirrors.walks) .done
  rw [List.append_nil] at walks
  have all (n : Ref) : n ∈ r :: ps.map Prod.fst ↔
      heap.size ≤ n.index ∧ (h.function? n).isSome := by
    rw [functions.mem]
    refine and_congr_left fun known => and_iff_left ?_
    obtain ⟨g, hg⟩ := Option.isSome_iff_exists.1 known
    exact (Array.getElem?_eq_some_iff.1 (Heap.function?_eq_some.1 hg)).1
  have older : ∀ o ∈ r :: ps.map Prod.fst, ∀ n ∈ h.nested o, n.index < o.index := by
    intro o ho n hn
    obtain rfl | ho := List.mem_cons.1 ho
    · have listed := mirrors.walks.perm.mem_iff.2 (List.mem_append_left _ hn)
      exact Nat.lt_of_lt_of_le ((adds.functions.mem n).1 listed).1.2
        ((top.mem o).1 (List.mem_singleton_self o)).1.1
    · obtain ⟨p, hp, rfl⟩ := List.mem_map.1 ho
      obtain ⟨g, hg, -, older⟩ := mirrors.compiled hp
      exact older n (Heap.nested_eq hg ▸ hn)
  refine ⟨ps, all, functions.distinct, fun o g n above hg member known => ?_,
    fun n above known ne => ?_, mirrors, ?_, ⟨?_, fun p hp => ?_⟩, walks, walks.listFunction older⟩
  · refine older o ((all o).2 ⟨above, by rw [hg]; rfl⟩) n ?_
    rw [Heap.nested_eq hg]
    exact Heap.mem_nestedFunctions.2 ⟨member, known⟩
  · have listed := (all n).2 ⟨above, known⟩
    have place (p : Ref × Nat) : ¬heap.HasAt p n ∧ h.HasAt p n ↔
        p.1 ∈ r :: ps.map Prod.fst ∧ h.HasAt p n := by
      have before : heap.Extends h := (Context.script_extends code).1.heap.trans ext
      rw [hasAt_iff before, all]
      refine and_congr_left fun ⟨g, hg, _⟩ => ?_
      simp [hg]
    simp only [place]
    exact walks.once functions.distinct ((List.mem_cons.1 listed).resolve_left ne) known
  · rw [mirrors.declared, a.outline_eq]
  · have nameless : f.name = none := by
      rw [← hf]
      exact (Context.script_extends code).1.draft.name
    rw [display_function found, Heap.displayFunction, nameless]
    rfl
  · obtain ⟨g, hg, same, -⟩ := mirrors.compiled hp
    rw [display_function hg, Heap.displayFunction, same.name]

/-- Whatever heap a source is compiled on, the functions of the compilation form a tree: that of
the declarations in the source. The listing goes through it in the order of the declarations. -/
theorem compile_outline {source : String} {heap : Heap} {r : Ref}
    (hc : (compile source heap).result = .ok r)
    (hs : (compile source heap).heap.size ≤ UInt32.size) :
    ∃ a ps, Parses source a ∧ Outlined heap (compile source heap).heap r a ps := by
  obtain ⟨a, f, heap', parses, code, allocated⟩ := compile_ok hc
  cases code with
  | intro code =>
    obtain ⟨ps, outlined⟩ := outlined_script code allocated hs
    exact ⟨a, ps, parses, outlined⟩

/-- A function with another one in it, and a third one behind both. -/
theorem compile_outline_nested :
    let compilation := compile "fun f() { fun g() {} g(); } fun h() {}" .empty
    compilation.result = .ok ⟨6⟩ ∧ compilation.heap.size ≤ UInt32.size ∧
      ∃ a ps, Parses "fun f() { fun g() {} g(); } fun h() {}" a ∧
        Outlined .empty compilation.heap ⟨6⟩ a ps := by
  have compiles : (compile "fun f() { fun g() {} g(); } fun h() {}" .empty).result = .ok ⟨6⟩ := by
    decide +kernel
  have size : (compile "fun f() { fun g() {} g(); } fun h() {}" .empty).heap.size = 7 := by
    decide +kernel
  have small : (compile "fun f() { fun g() {} g(); } fun h() {}" .empty).heap.size ≤
      UInt32.size := by
    rw [size]
    decide
  exact ⟨compiles, small, compile_outline compiles small⟩

end Compile
end StackScript
