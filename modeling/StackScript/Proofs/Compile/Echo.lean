import StackScript.Proofs.Bytecode.Mirror
import StackScript.Proofs.Compile.Passage
import StackScript.Proofs.Syntax.Joined

/-!
# StackScript.Proofs.Compile.Echo

Two compilers that read the same tokens, the far one some lines further down, with other code in
front of that of its script, with another heap, and with other tokens behind.

* `Level`: what the two runs know of a function that is being compiled. `World`: of all of them.
* `Chunk.Echo`, `Draft.Echo`, `Echo`: the chunks, the drafts and the states of the two runs.
* `Rel`: computations that lead to such states again, with related results. What was related
  before still is: worlds only grow (`World.Below`).
-/

namespace StackScript
namespace Compile

open Instruction

/-- Where the far run is not like the near one. -/
structure Seam where
  /-- by how many lines the tokens are moved -/
  shift : Nat
  /-- the tokens of the far run behind those that both have -/
  behind : List Token
  other : ∀ t ∈ behind.head?, t.kind ≠ .keyword .else
  /-- the sizes of the heaps in front of the tokens -/
  near : Nat
  far : Nat

structure Level where
  /-- the octets in front of the code of the far function, and their lines -/
  lead : List UInt8
  leadLines : List Nat
  full : leadLines.length = lead.length
  /-- the pool that comes with them -/
  pool : Array Value
  depth : Nat
  /-- where there are jumps -/
  jumps : Nat → Prop
  /-- which constants stand for the same -/
  constants : UInt8 → UInt8 → Prop

namespace Level

/-- A function that starts in both runs. -/
def new : Level :=
  { lead := [], leadLines := [], full := rfl, pool := #[], depth := 0, jumps := fun _ => False,
    constants := fun _ _ => False }

def withJump (l : Level) (offset : Nat) : Level :=
  { l with jumps := fun o => l.jumps o ∨ o = offset }

def withConstant (l : Level) (k k' : UInt8) : Level :=
  { l with constants := fun i j => l.constants i j ∨ (i = k ∧ j = k') }

def atDepth (l : Level) (depth : Nat) : Level := { l with depth }

structure Below (l l' : Level) : Prop where
  lead : l'.lead = l.lead
  leadLines : l'.leadLines = l.leadLines
  pool : l'.pool = l.pool
  depth : l'.depth = l.depth
  jumps : ∀ o, l.jumps o → l'.jumps o
  constants : ∀ k k', l.constants k k' → l'.constants k k'

variable {l l₁ l' : Level}

theorem Below.refl (l : Level) : l.Below l := ⟨rfl, rfl, rfl, rfl, fun _ => id, fun _ _ => id⟩

theorem Below.trans (h : l.Below l₁) (h' : l₁.Below l') : l.Below l' :=
  ⟨h'.lead.trans h.lead, h'.leadLines.trans h.leadLines, h'.pool.trans h.pool,
    h'.depth.trans h.depth, fun o ho => h'.jumps o (h.jumps o ho),
    fun k k' hk => h'.constants k k' (h.constants k k' hk)⟩

theorem below_withJump (l : Level) (offset : Nat) : l.Below (l.withJump offset) :=
  ⟨rfl, rfl, rfl, rfl, fun _ => .inl, fun _ _ => id⟩

theorem below_withConstant (l : Level) (k k' : UInt8) : l.Below (l.withConstant k k') :=
  ⟨rfl, rfl, rfl, rfl, fun _ => id, fun _ _ => .inl⟩

/-- Behind a scope everything is known that was known in front of it. -/
theorem Below.closed (h : (l.atDepth (l.depth + 1)).Below l') :
    l.Below (l'.atDepth (l'.depth - 1)) :=
  ⟨h.lead, h.leadLines, h.pool, by rw [atDepth, h.depth]; rfl, h.jumps, h.constants⟩

end Level

/-- Jumps whose distance is found later. -/
def IsForward (jump : UInt16 → Instruction) : Prop := jump = .jump ∨ jump = .jumpIfFalse

theorem IsForward.isJump {jump : UInt16 → Instruction} (h : IsForward jump) :
    Chunk.IsJump jump := by
  obtain rfl | rfl := h
  · exact Chunk.isJump_jump
  · exact Chunk.isJump_jumpIfFalse

theorem IsForward.constant? {jump : UInt16 → Instruction} (h : IsForward jump) (d : UInt16) :
    (jump d).constant? = none := by
  obtain rfl | rfl := h <;> rfl

theorem IsForward.size {jump : UInt16 → Instruction} (h : IsForward jump) (d : UInt16) :
    (jump d).size = 3 := by
  obtain rfl | rfl := h <;> rfl

/-- A jump starts at an offset. -/
def JumpAt (is : List Instruction) (offset : Nat) : Prop :=
  ∃ pre jump d post, IsForward jump ∧ is = pre ++ jump d :: post ∧ width pre = offset

theorem JumpAt.append {is : List Instruction} {offset : Nat} (h : JumpAt is offset)
    (js : List Instruction) : JumpAt (is ++ js) offset := by
  obtain ⟨pre, jump, d, post, forward, rfl, width⟩ := h
  exact ⟨pre, jump, d, post ++ js, forward, by simp, width⟩

/-- Where there is a jump there still is one when a jump gets another distance. -/
theorem JumpAt.replace {pre post : List Instruction} {jump : UInt16 → Instruction}
    {d₀ : UInt16} {offset : Nat} (forward : IsForward jump)
    (h : JumpAt (pre ++ jump d₀ :: post) offset) (d : UInt16) :
    JumpAt (pre ++ jump d :: post) offset := by
  obtain ⟨us, other, d', vs, forward', e, rfl⟩ := h
  obtain ⟨a, rfl, split⟩ | ⟨a, rfl, split⟩ := List.append_eq_append_iff.1 e
  · cases a with
    | nil => exact ⟨pre, jump, d, post, forward, rfl, by simp⟩
    | cons x a =>
      obtain ⟨rfl, rfl⟩ := List.cons.inj split
      exact ⟨pre ++ jump d :: a, other, d', vs, forward', by simp, by simp [forward.size]⟩
  · cases a with
    | nil => exact ⟨us, jump, d, post, forward, by simp, rfl⟩
    | cons x a =>
      obtain ⟨rfl, rfl⟩ := List.cons.inj split
      exact ⟨us, other, d', a ++ jump d :: post, forward', by simp, rfl⟩

/-- Numbers in a pool have no sign. -/
def PlainPool (pool : Array Value) : Prop := ∀ x, .number x ∈ pool → Numeral.Unsigned x

end Compile

open Compile Instruction

/-- The chunks of a function in both runs. -/
structure Chunk.Echo (b : Bridge) (shift : Nat) (l : Level) (c c' : Chunk) : Prop where
  code : ∃ is js, c.code.toList = stream is ∧ c'.code.toList = l.lead ++ stream js ∧
    List.Forall₂ (Alike l.constants) is js ∧ ∀ o, l.jumps o → JumpAt is o
  lines : c'.lines.toList = l.leadLines ++ c.lines.toList.map (· + shift)
  full : c.lines.size = c.code.size
  constants : ∀ k k', l.constants k k' → b.Constants c.constants c'.constants k k'
  plain : PlainPool c.constants
  plain' : PlainPool c'.constants
  grown : Within l.pool c'.constants

namespace Chunk.Echo

variable {b b' : Bridge} {shift : Nat} {l : Level} {c c' : Chunk}

theorem mono (h : c.Echo b shift l c') (hb : b.Below b') : c.Echo b' shift l c' :=
  ⟨h.code, h.lines, h.full, fun k k' hk => hb.constants (.refl _) (.refl _) (h.constants k k' hk),
    h.plain, h.plain', h.grown⟩

theorem atDepth (h : c.Echo b shift l c') (depth : Nat) : c.Echo b shift (l.atDepth depth) c' :=
  ⟨h.code, h.lines, h.full, h.constants, h.plain, h.plain', h.grown⟩

theorem size (h : c.Echo b shift l c') : c'.code.size = l.lead.length + c.code.size := by
  obtain ⟨is, js, hc, hc', alike, -⟩ := h.code
  have near := congrArg List.length hc
  have far := congrArg List.length hc'
  simp only [List.length_append, length_stream, Array.length_toList] at near far
  rw [far, near, width_alike alike]

theorem full' (h : c.Echo b shift l c') : c'.lines.size = c'.code.size := by
  have lines := congrArg List.length h.lines
  simp only [List.length_append, List.length_map, Array.length_toList] at lines
  rw [lines, h.size, h.full, l.full]

theorem lines_emit {c : Chunk} (hc : c.lines.size = c.code.size) (i : Instruction) (line : Nat) :
    (c.emit i line).lines.toList = c.lines.toList ++ List.replicate i.size line := by
  have size : (c.code ++ i.encode).size = c.code.size + i.size := by
    rw [← Array.length_toList, Array.toList_appendList, List.length_append, length_encode,
      Array.length_toList]
  simp only [emit, fillLines, size, hc]
  rw [if_neg (by omega), Array.toList_append, Array.toList_replicate, Nat.add_sub_cancel_left]

theorem code_emit (c : Chunk) (i : Instruction) (line : Nat) :
    (c.emit i line).code.toList = c.code.toList ++ i.encode :=
  Array.toList_appendList

theorem emit (h : c.Echo b shift l c') {i j : Instruction} (hi : Alike l.constants i j)
    (line : Nat) : (c.emit i line).Echo b shift l (c'.emit j (line + shift)) := by
  obtain ⟨is, js, hc, hc', alike, jumps⟩ := h.code
  refine ⟨⟨is ++ [i], js ++ [j], ?_, ?_, List.rel_append alike (.cons hi .nil), fun o ho => ?_⟩,
    ?_, ?_, h.constants, h.plain, h.plain', h.grown⟩
  · rw [code_emit, hc]
    simp
  · rw [code_emit, hc']
    simp
  · exact (jumps o ho).append [i]
  · rw [lines_emit h.full, lines_emit h.full', h.lines, hi.size]
    simp
  · have lines := congrArg List.length (lines_emit h.full i line)
    have code := congrArg List.length (code_emit c i line)
    simp only [List.length_append, List.length_replicate, Array.length_toList, length_encode]
      at lines code
    rw [lines, code, h.full]

theorem emitJump (h : c.Echo b shift l c') {jump : UInt16 → Instruction}
    (forward : IsForward jump) (d : UInt16) (line : Nat) :
    (c.emit (jump d) line).Echo b shift (l.withJump c.code.size)
      (c'.emit (jump d) (line + shift)) := by
  have e := h.emit (.same (forward.constant? d)) line
  obtain ⟨is, js, hc, hc', alike, jumps⟩ := h.code
  have size : width is = c.code.size := by
    rw [← length_stream, ← hc, Array.length_toList]
  refine ⟨⟨is ++ [jump d], js ++ [jump d], ?_, ?_,
    List.rel_append alike (.cons (.same (forward.constant? d)) .nil), ?_⟩, e.lines, e.full,
    e.constants, e.plain, e.plain', e.grown⟩
  · rw [code_emit, hc]
    simp
  · rw [code_emit, hc']
    simp [Level.withJump]
  · rintro o (ho | rfl)
    · exact (jumps o ho).append [jump d]
    · exact ⟨is, jump, d, [], forward, rfl, size⟩

/-- A jump that has its distance is still a jump. -/
theorem setDistance (h : c.Echo b shift l c') {offset : Nat} (ho : l.jumps offset)
    (d : UInt16) : (c.setDistance offset d).Echo b shift l
      (c'.setDistance (l.lead.length + offset) d) := by
  obtain ⟨is, js, hc, hc', alike, jumps⟩ := h.code
  obtain ⟨pre, jump, d₀, post, forward, rfl, rfl⟩ := jumps offset ho
  obtain ⟨js₁, js₂, rfl, alike₁, alike₂⟩ := forall₂_append_left alike
  obtain ⟨j, js₃, hj, alike₃, rfl⟩ := List.forall₂_cons_left_iff.1 alike₂
  obtain rfl : j = jump d₀ := by
    obtain rfl | rfl := forward <;> cases hj <;> rfl
  have hf : c.code.toList = stream pre ++ ((jump d₀).encode ++ stream post) := by
    rw [hc]
    simp
  have hg : c'.code.toList = (l.lead ++ stream js₁) ++ ((jump d₀).encode ++ stream js₃) := by
    rw [hc']
    simp
  have near := code_setDistance forward.isJump d hf
  have far := code_setDistance forward.isJump d hg
  rw [length_stream] at near
  rw [List.length_append, length_stream, width_alike alike₁] at far
  refine ⟨⟨pre ++ jump d :: post, js₁ ++ jump d :: js₃, ?_, ?_, ?_, fun o ho => ?_⟩, h.lines, ?_,
    h.constants, h.plain, h.plain', h.grown⟩
  · rw [near]
    simp
  · rw [far]
    simp
  · exact List.rel_append alike₁ (.cons (.same (forward.constant? d)) alike₃)
  · exact (jumps o ho).replace forward d
  · exact h.full.trans (by simp [Chunk.setDistance])

/-- A literal or an object is found in the pool that it was added to. -/
theorem added {v : Value} {k : UInt8} {d : Chunk} (pool : PlainPool c.constants)
    (plain : ∀ x, v = .number x → Numeral.Unsigned x) (e : c.addConstant? v = some (d, k)) :
    d.code = c.code ∧ d.lines = c.lines ∧ Within c.constants d.constants ∧
      PlainPool d.constants ∧ d.constants[k.toNat]? = some v := by
  obtain ⟨rfl, w, hw, same⟩ | ⟨rfl, at_end, -⟩ := addConstant?_cases e
  · refine ⟨rfl, rfl, .refl _, pool, ?_⟩
    suffices w = v from this ▸ hw
    cases v with
    | object r => exact Value.eq_of_beq_object same
    | number x =>
      cases w with
      | number y => exact congrArg _ ((pool y (Array.mem_of_getElem? hw)).eq_of_beq (plain x rfl) same)
      | _ => cases same
    | nil => cases w <;> first | rfl | cases same
    | bool y =>
      cases w with
      | bool z => exact congrArg _ (by simpa [BEq.beq, Value.equals] using same)
      | _ => cases same
  · refine ⟨rfl, rfl, .push _ _, fun x hx => ?_, by rw [at_end]; exact Array.getElem?_push_size⟩
    obtain old | e := Array.mem_push.1 hx
    · exact pool x old
    · exact plain x e.symm

theorem addConstant (h : c.Echo b shift l c') {v v' : Value} {k k' : UInt8} {d d' : Chunk}
    (values : b.Values v v') (plain : ∀ x, v = .number x → Numeral.Unsigned x)
    (e : c.addConstant? v = some (d, k)) (e' : c'.addConstant? v' = some (d', k')) :
    d.Echo b shift (l.withConstant k k') d' := by
  have plain' : ∀ x, v' = .number x → Numeral.Unsigned x := fun x hx => by
    subst hx
    cases values
    exact plain x rfl
  obtain ⟨code, lines, within, pool, found⟩ := added h.plain plain e
  obtain ⟨code', lines', within', pool', found'⟩ := added h.plain' plain' e'
  obtain ⟨is, js, hc, hc', alike, jumps⟩ := h.code
  refine ⟨⟨is, js, code ▸ hc, code' ▸ hc', ?_, jumps⟩, ?_, ?_, ?_, pool, pool',
    h.grown.trans within'⟩
  · exact alike.imp fun _ _ => .imp fun _ _ => .inl
  · rw [lines, lines']
    exact h.lines
  · rw [lines, code]
    exact h.full
  · rintro i j (hij | ⟨rfl, rfl⟩)
    · exact (Bridge.Below.refl b).constants within within' (h.constants i j hij)
    · exact ⟨v, v', found, found', values⟩

end Chunk.Echo

namespace Compile

/-- The drafts of a function in both runs. -/
structure Draft.Echo (b : Bridge) (shift : Nat) (l : Level) (d d' : Draft) : Prop where
  kind : d'.kind = d.kind
  name : b.Names d.name d'.name
  arity : d'.arity = d.arity
  locals : d'.locals = d.locals
  captures : d'.captures = d.captures
  depth : d.depth = l.depth
  depth' : d'.depth = l.depth
  chunk : d.chunk.Echo b shift l d'.chunk

/-- Functions inside each other, innermost first. -/
inductive Nest (b : Bridge) (shift : Nat) : List Level → List Draft → List Draft → Prop where
  | nil : Nest b shift [] [] []
  | cons {l : Level} {d d' : Draft} {ls : List Level} {ds ds' : List Draft} :
      d.Echo b shift l d' → Nest b shift ls ds ds' → Nest b shift (l :: ls) (d :: ds) (d' :: ds')

section Drafts

variable {b b' : Bridge} {shift : Nat} {l : Level} {d d' : Draft} {ls : List Level}
  {ds ds' : List Draft}

theorem Draft.Echo.mono (h : d.Echo b shift l d') (hb : b.Below b') : d.Echo b' shift l d' :=
  ⟨h.kind, hb.names h.name, h.arity, h.locals, h.captures, h.depth, h.depth', h.chunk.mono hb⟩

theorem Nest.mono (h : Nest b shift ls ds ds') (hb : b.Below b') : Nest b' shift ls ds ds' := by
  induction h with
  | nil => exact .nil
  | cons h _ ih => exact .cons (h.mono hb) ih

theorem Nest.uncons (h : Nest b shift (l :: ls) (d :: ds) (d' :: ds')) :
    d.Echo b shift l d' ∧ Nest b shift ls ds ds' := by
  cases h with
  | cons h hs => exact ⟨h, hs⟩

theorem Nest.exists_cons (h : Nest b shift (l :: ls) ds ds') : ∃ d es d' es', ds = d :: es ∧
    ds' = d' :: es' ∧ Nest b shift (l :: ls) (d :: es) (d' :: es') := by
  cases h with
  | cons h hs => exact ⟨_, _, _, _, rfl, rfl, .cons h hs⟩

/-- A function that ends in both runs. -/
theorem Draft.Echo.finish (h : d.Echo b shift l d') :
    b.Functions shift l.lead.length d.chunk.code.size d.finish d'.finish := by
  obtain ⟨is, js, hc, hc', alike, -⟩ := h.chunk.code
  refine ⟨h.name, h.arity, congrArg Array.size h.captures, ⟨is, [], js, l.lead, [], ?_, by simp, ?_,
    ?_, rfl, ?_⟩, fun o ho => ?_⟩
  · rw [List.append_nil]
    exact hc
  · rw [← length_stream, ← hc, Array.length_toList]
  · rw [List.append_nil]
    exact hc'
  · exact alike.imp fun _ _ => .imp h.chunk.constants
  · have lines := h.chunk.lines
    show d'.chunk.lines[l.lead.length + o]? = d.chunk.lines[o]?.map (· + shift)
    rw [← Array.getElem?_toList, lines, ← l.full, List.getElem?_append_right (Nat.le_add_right _ _),
      Nat.add_sub_cancel_left, List.getElem?_map, Array.getElem?_toList]

end Drafts

/-- What the two runs know of all functions around a place, innermost first. -/
structure World where
  bridge : Bridge
  level : Level
  outer : List Level

namespace World

structure Below (w w' : World) : Prop where
  bridge : w.bridge.Below w'.bridge
  level : w.level.Below w'.level
  outer : List.Forall₂ Level.Below w.outer w'.outer

theorem Below.refl (w : World) : w.Below w :=
  ⟨.refl _, .refl _, forall₂_refl Level.Below.refl _⟩

theorem Below.trans {w w₁ w' : World} (h : w.Below w₁) (h' : w₁.Below w') : w.Below w' :=
  ⟨h.bridge.trans h'.bridge, h.level.trans h'.level,
    forall₂_trans (R := Level.Below) Level.Below.trans h.outer h'.outer⟩

def withLevel (w : World) (level : Level) : World := { w with level }

def withBridge (w : World) (bridge : Bridge) : World := { w with bridge }

/-- At the start of a function inside. -/
def nested (w : World) : World := { w with level := .new, outer := w.level :: w.outer }

theorem below_withLevel {w : World} {l : Level} (h : w.level.Below l) : w.Below (w.withLevel l) :=
  ⟨.refl _, h, forall₂_refl Level.Below.refl _⟩

/-- Behind a scope, as `Level.Below.closed`. -/
theorem Below.closed {w w' : World}
    (h : (w.withLevel (w.level.atDepth (w.level.depth + 1))).Below w') :
    w.Below (w'.withLevel (w'.level.atDepth (w'.level.depth - 1))) :=
  ⟨h.bridge, h.level.closed, h.outer⟩

theorem below_withBridge {w : World} {b : Bridge} (h : w.bridge.Below b) :
    w.Below (w.withBridge b) :=
  ⟨h, .refl _, forall₂_refl Level.Below.refl _⟩

end World

/-- The functions that both runs have put on their heaps so far. -/
structure Linked (c : Seam) (b : Bridge) : Prop where
  near : c.near ≤ b.near.size
  far : c.far ≤ b.far.size
  functions : ∀ ⦃r q⦄, b.pairs r q → c.near ≤ r.index ∧ c.far ≤ q.index ∧
    ∃ f g, b.near.function? r = some f ∧ b.far.function? q = some g ∧
      b.Functions c.shift 0 f.chunk.code.size f g
  unique : ∀ ⦃r q q'⦄, b.pairs r q → b.pairs r q' → q = q'
  injective : ∀ ⦃r r' q⦄, b.pairs r q → b.pairs r' q → r = r'

/-- Both runs are in front of the same token. -/
structure Echo (c : Seam) (w : World) (s t : State) : Prop where
  steady : Steady s
  steady' : Steady t
  near : w.bridge.near = s.heap
  far : w.bridge.far = t.heap
  tokens : ∃ us u vs, s.current :: s.rest = us ++ [u] ∧ u.kind = .eof ∧
    t.current :: t.rest = vs ++ c.behind ∧ List.Forall₂ (Token.Moved c.shift) us vs
  previous : s.previous.Moved c.shift t.previous
  drafts : Nest w.bridge c.shift (w.level :: w.outer) (s.draft :: s.enclosing)
    (t.draft :: t.enclosing)
  linked : Linked c w.bridge

namespace Linked

variable {c : Seam} {b : Bridge}

/-- Both heaps may grow. -/
theorem onward {near far : Heap} (h : Linked c b) (hn : b.near.Extends near)
    (hf : b.far.Extends far) :
    b.Below ⟨b.pairs, near, far⟩ ∧ Linked c ⟨b.pairs, near, far⟩ := by
  have below : b.Below ⟨b.pairs, near, far⟩ := ⟨fun _ _ => id, hn.kept, hf.kept⟩
  refine ⟨below, Nat.le_trans h.near hn.size_le, Nat.le_trans h.far hf.size_le, fun r q hp => ?_,
    h.unique, h.injective⟩
  obtain ⟨hr, hq, f, g, hf', hg, same⟩ := h.functions hp
  exact ⟨hr, hq, f, g, hn.function? hf', hf.function? hg, same.mono below⟩

theorem index_lt {h : Heap} {r : Ref} {f : Function} (hf : h.function? r = some f) :
    r.index < h.size :=
  (Array.getElem?_eq_some_iff.1 (Heap.function?_eq_some.1 hf)).1

/-- Functions that do the same are put on both heaps. -/
theorem allocate (h : Linked c b) {f g : Function}
    (same : b.Functions c.shift 0 f.chunk.code.size f g)
    (room : (b.near.allocate (.function f)).1.size ≤ UInt32.size)
    (room' : (b.far.allocate (.function g)).1.size ≤ UInt32.size) :
    let r := (b.near.allocate (.function f)).2
    let q := (b.far.allocate (.function g)).2
    let b' : Bridge := ⟨fun r' q' => b.pairs r' q' ∨ (r' = r ∧ q' = q),
      (b.near.allocate (.function f)).1, (b.far.allocate (.function g)).1⟩
    b.Below b' ∧ Linked c b' := by
  intro r q b'
  obtain ⟨⟨-, kept, kept'⟩, onward⟩ :=
    h.onward (b.near.extends_allocate (.function f)) (b.far.extends_allocate (.function g))
  have below : b.Below b' := ⟨fun _ _ => .inl, kept, kept'⟩
  rw [Heap.size_allocate] at room room'
  have hr : r.index = b.near.size := Heap.index_ofIndex room
  have hq : q.index = b.far.size := Heap.index_ofIndex room'
  have old {r' q' : Ref} (hp : b.pairs r' q') : r' ≠ r ∧ q' ≠ q := by
    obtain ⟨-, -, f', g', hf, hg, -⟩ := h.functions hp
    have lt := index_lt hf
    have lt' := index_lt hg
    exact ⟨fun e => by rw [e] at lt; omega, fun e => by rw [e] at lt'; omega⟩
  refine ⟨below, onward.near, onward.far, ?_, ?_, ?_⟩
  · rintro r' q' (hp | ⟨rfl, rfl⟩)
    · obtain ⟨hr', hq', f', g', hf, hg, same'⟩ := h.functions hp
      exact ⟨hr', hq', f', g', kept.function? hf, kept'.function? hg, same'.mono below⟩
    · exact ⟨hr ▸ h.near, hq ▸ h.far, f, g, Heap.function?_eq_some.2 (Heap.get?_allocate room),
        Heap.function?_eq_some.2 (Heap.get?_allocate room'), same.mono below⟩
  · rintro r' q₁ q₂ (hp | ⟨rfl, rfl⟩) (hp' | ⟨e, rfl⟩)
    · exact h.unique hp hp'
    · exact absurd e (old hp).1
    · exact absurd rfl (old hp').1
    · rfl
  · rintro r₁ r₂ q' (hp | ⟨rfl, rfl⟩) (hp' | ⟨rfl, e⟩)
    · exact h.injective hp hp'
    · exact absurd e (old hp).2
    · exact absurd rfl (old hp').2
    · rfl

end Linked

namespace Echo

variable {c : Seam} {w : World} {s t s' t' : State} {u u' : Unit}

theorem ended (h : Echo c w s t) (e : s.AtEnd) : t.current :: t.rest = c.behind := by
  obtain ⟨us, u, vs, near, -, far, moved⟩ := h.tokens
  rw [e.1] at near
  cases us with
  | nil =>
    cases moved
    exact far
  | cons => simp at near

theorem current (h : Echo c w s t) (more : ¬s.AtEnd) :
    s.current.kind ≠ .eof ∧ s.current.Moved c.shift t.current := by
  have kind : s.current.kind ≠ .eof := fun e => more ⟨h.steady.tokens.eq_singleton e, e⟩
  obtain ⟨us, u, vs, near, hu, far, moved⟩ := h.tokens
  cases moved with
  | nil =>
    obtain ⟨e, -⟩ := List.cons.inj near
    exact absurd (e ▸ hu) kind
  | cons m =>
    obtain ⟨e, -⟩ := List.cons.inj near
    obtain ⟨e', -⟩ := List.cons.inj far
    exact ⟨kind, e ▸ e' ▸ m⟩

theorem advance (h : Echo c w s t) (more : ¬s.AtEnd) (hs : Runs advance s u s')
    (ht : Runs advance t u' t') : Echo c w s' t' := by
  obtain ⟨kind, same⟩ := h.current more
  obtain ⟨x, xs, hx, rfl⟩ := runs_advance_eq hs h.steady kind
  obtain ⟨y, ys, hy, rfl⟩ := runs_advance_eq ht h.steady' (same.kind ▸ kind)
  obtain ⟨us, u, vs, near, hu, far, moved⟩ := h.tokens
  have steady := h.steady.tokens.tail kind
  have steady' := h.steady'.tokens.tail (same.kind ▸ kind)
  refine ⟨⟨h.steady.errors, h.steady.calm, hx ▸ steady, h.steady.lines⟩,
    ⟨h.steady'.errors, h.steady'.calm, hy ▸ steady', h.steady'.lines⟩, h.near, h.far, ?_, same,
    h.drafts, h.linked⟩
  cases moved with
  | nil =>
    obtain ⟨-, e⟩ := List.cons.inj near
    rw [hx] at e
    cases e
  | cons _ moved =>
    obtain ⟨-, e⟩ := List.cons.inj near
    obtain ⟨-, e'⟩ := List.cons.inj far
    exact ⟨_, u, _, hx ▸ e, hu, hy ▸ e', moved⟩

theorem redrafts (h : Echo c w s t) {l : Level} {ls : List Level} {d d' : Draft}
    {ds ds' : List Draft} (nest : Nest w.bridge c.shift (l :: ls) (d :: ds) (d' :: ds')) :
    Echo c { w with level := l, outer := ls } { s with draft := d, enclosing := ds }
      { t with draft := d', enclosing := ds' } :=
  have chunk := nest.uncons.1.chunk
  ⟨⟨h.steady.errors, h.steady.calm, h.steady.tokens, chunk.full⟩,
    ⟨h.steady'.errors, h.steady'.calm, h.steady'.tokens, chunk.full'⟩, h.near, h.far, h.tokens,
    h.previous, nest, h.linked⟩

theorem redraft (h : Echo c w s t) {l : Level} {d d' : Draft}
    (hd : d.Echo w.bridge c.shift l d') :
    Echo c (w.withLevel l) { s with draft := d } { t with draft := d' } :=
  h.redrafts (.cons hd h.drafts.uncons.2)

theorem withSummaries (h : Echo c w s t) (summaries summaries' : Array Summary) :
    Echo c w { s with summaries } { t with summaries := summaries' } :=
  ⟨⟨h.steady.errors, h.steady.calm, h.steady.tokens, h.steady.lines⟩,
    ⟨h.steady'.errors, h.steady'.calm, h.steady'.tokens, h.steady'.lines⟩, h.near, h.far, h.tokens,
    h.previous, h.drafts, h.linked⟩

theorem rebridge (h : Echo c w s t) {b : Bridge} (hb : w.bridge.Below b) (linked : Linked c b) :
    Echo c (w.withBridge b) { s with heap := b.near } { t with heap := b.far } :=
  ⟨⟨h.steady.errors, h.steady.calm, h.steady.tokens, h.steady.lines⟩,
    ⟨h.steady'.errors, h.steady'.calm, h.steady'.tokens, h.steady'.lines⟩, rfl, rfl, h.tokens,
    h.previous, h.drafts.mono hb, linked⟩

end Echo
end Compile
end StackScript
