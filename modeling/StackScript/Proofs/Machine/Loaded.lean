import StackScript.Proofs.Compile.Splice
import StackScript.Proofs.Machine.Reachable
import StackScript.Proofs.Machine.Seam

/-!
# StackScript.Proofs.Machine.Loaded

Two machines with scripts that do the same.

* `Bridge.Matches.join`: functions that were compiled belong together, like what did before.
* `load_ok`: a machine behind loading.
* `twin_load`: two machines that load scripts that do the same up to the end of the near one.
* `twin_onward`: the near machine loads a script, and the far one is where that script starts.
-/

namespace StackScript

open Compile

/-- Where one more source is found. -/
def Setting.extended (s : Setting) (c : Seam) (entry host : Ref) (offset : Nat)
    (known : Ref → Prop) : Setting where
  shift r := if r.index < c.near then s.shift r else c.shift
  script := entry
  host := host
  offset := offset
  known := known

/-- By how many lines functions are moved down if those behind a heap come from a later source. -/
def movedBehind (size lines : Nat) (r : Ref) : Nat := if r.index < size then 0 else lines

theorem Setting.extended_shift {s : Setting} (unmoved : ∀ r, s.shift r = 0) (c : Seam)
    (entry host : Ref) (offset : Nat) (known : Ref → Prop) :
    (s.extended c entry host offset known).shift = movedBehind c.near c.shift := by
  funext r
  show (if _ then _ else _) = if _ then _ else _
  rw [unmoved]

namespace Bridge

/-- What belongs together according to one of two bridges. -/
def join (b c : Bridge) (near far : Heap) : Bridge :=
  ⟨fun r q => b.pairs r q ∨ c.pairs r q, near, far⟩

/-- Functions that were compiled belong together, like what did before. -/
theorem Matches.join {s : Setting} {b b' : Bridge} {c : Seam} {near far : Heap}
    (h : b.Matches s) (linked : Linked c b') (entry host : Ref) (offset : Nat) (known : Ref → Prop)
    (size : c.near = b.near.size) (en : b.near.Extends near) (ef : b.far.Extends far)
    (kn : b'.near.Kept near) (kf : b'.far.Kept far) (sound : near.Sound) (sound' : far.Sound)
    (apart : ∀ q, s.known q → q.index < b.far.size → q.index < c.far)
    (new : b'.near.size ≤ entry.index) (old : ∀ q, q.index < c.far → known q)
    (inside : ∀ q, q.index < b'.far.size → known q) :
    b.Below (b.join b' near far) ∧ b'.Below (b.join b' near far) ∧
      (b.join b' near far).Matches (s.extended c entry host offset known) := by
  have below : b.Below (b.join b' near far) := ⟨fun _ _ => .inl, en.kept, ef.kept⟩
  have below' : b'.Below (b.join b' near far) := ⟨fun _ _ => .inr, kn, kf⟩
  -- What belonged together before and functions that were compiled are different objects.
  have near_ne {r q r' q' : Ref} (hp : b.pairs r q) (hp' : b'.pairs r' q') : r ≠ r' := by
    rintro rfl
    obtain ⟨o, p, ho, -⟩ := h.objects hp
    have lt := index_lt ho
    have le := (linked.functions hp').1
    omega
  have far_ne {r q r' q' : Ref} (hp : b.pairs r q) (hp' : b'.pairs r' q') : q ≠ q' := by
    rintro rfl
    obtain ⟨o, p, -, hq, same⟩ := h.objects hp
    obtain ⟨-, le, f, g, -, hg, -⟩ := linked.functions hp'
    have found := (ef.get? hq).symm.trans (Heap.function?_eq_some.1 (kf.function? hg))
    obtain rfl := Option.some.inj found
    cases same with
    | function _ hk _ =>
      have := apart q hk (index_lt hq)
      omega
  refine ⟨below, below', ?_, ?_, sound, sound', ?_⟩
  · rintro r q q' (hp | hp) (hp' | hp')
    · exact h.unique hp hp'
    · exact absurd rfl (near_ne hp hp')
    · exact absurd rfl (near_ne hp' hp)
    · exact linked.unique hp hp'
  · rintro r r' q (hp | hp) (hp' | hp')
    · exact h.injective hp hp'
    · exact absurd rfl (far_ne hp hp')
    · exact absurd rfl (far_ne hp' hp)
    · exact linked.injective hp hp'
  · rintro r q (hp | hp)
    · obtain ⟨o, p, ho, hq, same⟩ := h.objects hp
      refine ⟨o, p, en.get? ho, ef.get? hq, ?_⟩
      have lt := index_lt ho
      have lt' : r.index < c.near := by omega
      have ne : r ≠ entry := by
        rintro rfl
        have := linked.near
        omega
      have shift : (s.extended c entry host offset known).shift r = s.shift r := if_pos lt'
      cases same with
      | function _ hk functions =>
        exact .function ne (old q (apart q hk (index_lt hq))) (shift ▸ functions.mono below)
      | closure hk hf hu =>
        exact .closure (below.near.function? hk) (below.pairs hf) (hu.imp below.pairs)
      | opened hs => exact .opened hs
      | closed hv => exact .closed (below.values hv)
      | native n => exact .native n
      | array hs => exact .array (hs.imp fun _ _ => below.values)
    · obtain ⟨le, -, f, g, hf, hg, functions⟩ := linked.functions hp
      have lt := Linked.index_lt hf
      have ne : r ≠ entry := by
        rintro rfl
        omega
      have shift : (s.extended c entry host offset known).shift r = c.shift :=
        if_neg (Nat.not_lt.2 le)
      exact ⟨_, _, Heap.function?_eq_some.1 (kn.function? hf),
        Heap.function?_eq_some.1 (kf.function? hg),
        .function ne (inside q (Linked.index_lt hg)) (shift ▸ functions.mono below')⟩

end Bridge

namespace Machine

/-- Nothing is called. -/
structure Idle (m : Machine) : Prop where
  frames : m.frames = []
  stack : m.stack = #[]
  opens : m.openUpvalues = []
  hosts : m.hosts = #[]

/-- The call of a script on a heap. -/
def calling (m : Machine) (heap : Heap) (r : Ref) : Machine :=
  { m with
    frames := [⟨(heap.allocate (.closure ⟨r, #[]⟩)).2, r, 0, 0⟩]
    stack := #[.object (heap.allocate (.closure ⟨r, #[]⟩)).2]
    heap := (heap.allocate (.closure ⟨r, #[]⟩)).1 }

section Load

variable {m : Machine} {source : String} {r : Ref} {f : Function} {heap : Heap}

theorem closure?_calling (fits : (m.calling heap r).heap.size ≤ UInt32.size) :
    (m.calling heap r).heap.closure? (heap.allocate (.closure ⟨r, #[]⟩)).2 = some ⟨r, #[]⟩ :=
  Heap.closure?_eq_some.2 ((Heap.Extends.refl _).get?_allocate fits)

theorem size_stack_calling (m : Machine) (heap : Heap) (r : Ref) :
    (m.calling heap r).stack.size = 1 := rfl

theorem extends_calling (m : Machine) (heap : Heap) (r : Ref) :
    heap.Extends (m.calling heap r).heap := heap.extends_allocate _

theorem ends_calling (idle : m.Idle) (hf : heap.function? r = some f) (arity : f.arity = 0)
    (fits : (m.calling heap r).heap.size ≤ UInt32.size) :
    Ends (enter r) { m with heap } (fun _ m' => m' = m.calling heap r) fun _ _ => False := by
  have found := (extends_calling m heap r).function? hf
  refine .bind (.allocate (.bind ?_))
  unfold push
  refine .bind (.get ?_)
  rw [if_pos (by simp only [idle.stack]; decide)]
  refine .modify (.bind (.get ?_))
  simp only [calling] at found fits
  simp only [Heap.closure?_eq_some.2 ((Heap.Extends.refl _).get?_allocate fits), found,
    Option.elim_some, arity, ne_eq, not_true_eq_false, if_false]
  refine .bind (.get ?_)
  rw [if_pos (by simp only [idle.frames]; decide)]
  refine .modify ?_
  simp only [idle.frames, idle.stack, calling]
  rfl

/-- How much a script that is loaded puts on the heap. -/
theorem size_calling (hosts : m.hosts = #[]) (ok : (compile source m.heap).result = .ok r) :
    (m.calling (compile source m.heap).heap r).heap.size ≤ (m.load source).2.heap.size := by
  have larger := larger_enter (m := { m with heap := (compile source m.heap).heap }) hosts r
  rw [load_eq, ok]
  simp only [EStateM.run]
  unfold Ends at larger
  split
  next hx =>
    rw [hx] at larger
    exact larger.size
  next hx =>
    rw [hx] at larger
    exact larger.size

theorem size_compiled (hosts : m.hosts = #[]) (ok : (compile source m.heap).result = .ok r) :
    (compile source m.heap).heap.size ≤ (m.load source).2.heap.size :=
  Nat.le_trans (extends_calling ..).size_le (size_calling hosts ok)

/-- The machine behind loading. -/
theorem load_ok (idle : m.Idle) (ok : (compile source m.heap).result = .ok r)
    (fits : (m.load source).2.heap.size ≤ UInt32.size) :
    m.load source = (.ok (), m.calling (compile source m.heap).heap r) := by
  obtain ⟨-, f, hf, arity, -⟩ := compile_sound ok (Nat.le_trans (size_compiled idle.hosts ok) fits)
  have ends := ends_calling idle hf arity (Nat.le_trans (size_calling idle.hosts ok) fits)
  rw [load_eq, ok]
  simp only [EStateM.run]
  unfold Ends at ends
  cases hx : enter r { m with heap := (compile source m.heap).heap } with
  | ok _ m' =>
    rw [hx] at ends
    rw [ends]
  | error _ m' =>
    rw [hx] at ends
    exact ends.elim

theorem extends_load (idle : m.Idle) (ok : (compile source m.heap).result = .ok r)
    (fits : (m.load source).2.heap.size ≤ UInt32.size) :
    (compile source m.heap).heap.Extends (m.load source).2.heap := by
  rw [load_ok idle ok fits]
  exact extends_calling ..

end Load
section Twins

variable {s : Setting} {b β : Bridge} {c : Seam} {m n : Machine} {source whole : String}
  {r q : Ref} {f g : Function} {start : Nat}

theorem found_script {near : Heap} (inside : Inside c source near r start β f g)
    (fits : (compile source near).heap.size ≤ UInt32.size) :
    (compile source near).heap.function? r = some f ∧ r.index = β.near.size ∧
      β.near.Extends (compile source near).heap := by
  have found := (Heap.Extends.refl (β.near.allocate (.function f)).1).function?_allocate
  have extends_ := Heap.extends_allocate β.near (.function f)
  have index : β.near.size + 1 ≤ UInt32.size →
      (β.near.allocate (.function f)).2.index = β.near.size := Heap.index_ofIndex
  have size := Heap.size_allocate β.near (.function f)
  rw [inside.near] at found extends_ size index
  exact ⟨found fits, index (size ▸ fits), extends_⟩

/-- The calls of two scripts, where the near one is inside the far one. -/
theorem sameCall_script {known : Ref → Prop} {call call' : Frame} {k l : Closure}
    (hr : call.function = r) (hq : call'.function = q) (hf : b.near.function? r = some f)
    (hg : b.far.function? q = some g)
    (functions : b.Functions c.shift start (f.chunk.code.size - 2) f g)
    (new : c.near ≤ r.index) (hk : b.near.closure? call.closure = some k)
    (hl : b.far.closure? call'.closure = some l) (none : k.upvalues = #[])
    (none' : l.upvalues = #[]) (base : call'.base = call.base) (ip : call.ip = 0)
    (ip' : call'.ip = start) : SameCall (s.extended c r q start known) b call call' := by
  subst hr hq
  have shift : (s.extended c call.function call'.function start known).shift call.function =
      c.shift := if_neg (Nat.not_lt.2 new)
  have offset : (s.extended c call.function call'.function start known).start call.function =
      start := if_pos rfl
  have limit : (s.extended c call.function call'.function start known).limit call.function f =
      f.chunk.code.size - 2 := if_pos rfl
  refine ⟨base, by rw [offset, ip, ip']; rfl, ⟨f, g, hf, hg, ?_, ip ▸ Nat.zero_le _⟩,
    ⟨k, l, hk, hl, ?_⟩, fun _ => rfl⟩
  · rw [shift, offset, limit]
    exact functions
  · rw [none, none']
    exact .nil

/-- Two machines load scripts that do the same up to the end of the near one. -/
theorem twin_load (t : Shared s b m n) (idle : m.Idle) (idle' : n.Idle)
    (ok : (compile source m.heap).result = .ok r) (ok' : (compile whole n.heap).result = .ok q)
    (inside : Inside c source m.heap r 0 β f g) (near : c.near = m.heap.size)
    (far : c.far = n.heap.size) (later : β.far.Extends (compile whole n.heap).heap)
    (found : (compile whole n.heap).heap.function? q = some g)
    (fits : (m.load source).2.heap.size ≤ UInt32.size)
    (fits' : (n.load whole).2.heap.size ≤ UInt32.size)
    (sound : (m.load source).2.heap.Sound) (sound' : (n.load whole).2.heap.Sound) :
    ∃ b', Twin (s.extended c r q 0 fun q => q.index < β.far.size) b' (m.load source).2
      (n.load whole).2 := by
  have room := Nat.le_trans (size_calling idle.hosts ok) fits
  have room' := Nat.le_trans (size_calling idle'.hosts ok') fits'
  have called := extends_calling m (compile source m.heap).heap r
  have called' := extends_calling n (compile whole n.heap).heap q
  obtain ⟨hf, index, kept⟩ := found_script inside (Nat.le_trans called.size_le room)
  rw [load_ok idle ok fits] at sound ⊢
  rw [load_ok idle' ok' fits'] at sound' ⊢
  obtain ⟨below, below', matched⟩ := t.matched.join inside.linked r q 0
    (fun q => q.index < β.far.size) (near.trans (congrArg _ t.near.symm))
    (t.near ▸ (compile_gains source m.heap).extends.trans called)
    (t.far ▸ (compile_gains whole n.heap).extends.trans called')
    (Heap.Extends.kept (kept.trans called)) (Heap.Extends.kept (later.trans called')) sound sound'
    (fun q _ lt => by rw [t.far] at lt; omega) (Nat.le_of_eq index.symm)
    (fun q lt => Nat.lt_of_lt_of_le lt inside.linked.far) fun q lt => lt
  have shared : Shared _ (b.join β _ _) (m.calling (compile source m.heap).heap r)
      (n.calling (compile whole n.heap).heap q) :=
    ⟨rfl, rfl, matched, t.globals.mono below sound sound', t.output, t.world, t.hosts, t.hosts'⟩
  refine ⟨_, ⟨shared, ?_, ?_, fun i v w pos hv _ => ?_, ?_⟩⟩
  · exact .script (sameCall_script rfl rfl (called.function? hf) (called'.function? found)
      (inside.functions.mono below') (index ▸ inside.linked.near) (closure?_calling room)
      (closure?_calling room') rfl rfl rfl rfl rfl) rfl
  · rw [size_stack_calling, size_stack_calling]
  · obtain ⟨lt, -⟩ := Array.getElem?_eq_some_iff.1 hv
    rw [size_stack_calling] at lt
    omega
  · simp only [calling, idle.opens, idle'.opens]
    exact .nil

theorem SameCalls.single {call : Frame} {ds : List Frame} (h : SameCalls s b [call] ds)
    (hs : call.function = s.script) : ∃ d, ds = [d] ∧ SameCall s b call d := by
  cases h with
  | script same => exact ⟨_, rfl, same⟩
  | call _ ne => exact absurd hs ne

theorem idle_cleared (hosts : m.hosts = #[]) : m.cleared.Idle := ⟨rfl, rfl, rfl, hosts⟩

/-- The near machine is at the end of a script and loads another one. The far one goes on where that
one starts. -/
theorem twin_onward (abreast : Abreast s m n) (seam : AtSeam s m) (start : s.offset = 0)
    (hf : m.heap.function? s.script = some f) (upvalues : f.upvalueCount = 0)
    (hg : n.heap.function? s.host = some g) {f' : Function}
    (ok : (compile source m.heap).result = .ok r)
    (inside : Inside c source m.heap r (f.chunk.code.size - 2) β f' g)
    (near : c.near = m.heap.size) (far : ∀ q, s.known q → q.index < c.far)
    (kept : β.far.Kept n.heap) (fits : (m.cleared.load source).2.heap.size ≤ UInt32.size)
    (sound : (m.cleared.load source).2.heap.Sound) :
    ∃ b', Twin (s.extended c r s.host (f.chunk.code.size - 2) fun _ => True) b'
      (m.cleared.load source).2 n := by
  obtain ⟨b, t, -⟩ := abreast.meets
  obtain ⟨call, f₁, hm, hs, hf₁, hip⟩ := seam
  obtain rfl : f = f₁ := Option.some.inj (hf.symm.trans (hs ▸ hf₁))
  obtain ⟨f₂, hf₂, script⟩ := abreast.script
  obtain rfl : f = f₂ := Option.some.inj (hf.symm.trans hf₂)
  obtain ⟨base, size, opens⟩ := abreast.invariant.alone hm hf₁ script hip
  obtain ⟨k₀, f₃, l, pre, post, x, τ, ρ, a⟩ := abreast.invariant.ahead hm
  obtain rfl : f = f₃ := Option.some.inj (hf₁.symm.trans a.active.function)
  have calls := t.calls
  rw [hm] at calls
  obtain ⟨d, hn, same⟩ := calls.single hs
  obtain ⟨k, j, hk, hj, captured⟩ := same.upvalues
  obtain rfl : k = k₀ := Option.some.inj ((t.near ▸ hk).symm.trans a.active.closure)
  have none : k.upvalues = #[] := Array.eq_empty_of_size_eq_zero (a.count.trans upvalues)
  have none' : j.upvalues = #[] := by
    rw [none] at captured
    exact Array.toList_eq_nil_iff.1 (List.forall₂_nil_left_iff.1 captured)
  have idle : m.cleared.Idle := idle_cleared t.hosts
  have room := Nat.le_trans (size_calling idle.hosts ok) fits
  have called := extends_calling m.cleared (compile source m.heap).heap r
  obtain ⟨hf', index, kept'⟩ := found_script inside (Nat.le_trans called.size_le room)
  rw [load_ok idle ok fits] at sound ⊢
  obtain ⟨below, below', matched⟩ := t.matched.join inside.linked r s.host
    (f.chunk.code.size - 2) (fun _ => True) (near.trans (congrArg _ t.near.symm))
    (t.near ▸ (compile_gains source m.heap).extends.trans called) (.refl b.far)
    (Heap.Extends.kept (kept'.trans called)) (t.far ▸ kept) sound t.matched.far
    (fun q hq _ => far q hq) (Nat.le_of_eq index.symm) (fun _ _ => trivial) fun _ _ => trivial
  have shared : Shared _ (b.join β _ _) (m.cleared.calling (compile source m.heap).heap r) n :=
    ⟨rfl, t.far, matched, t.globals.mono below sound t.matched.far, t.output, t.world, t.hosts,
      t.hosts'⟩
  have stack : n.stack.size = 1 := t.size.trans size
  have opens' : n.openUpvalues = [] := by
    have related := t.opens
    rw [opens] at related
    exact List.forall₂_nil_left_iff.1 related
  refine ⟨_, ⟨shared, ?_, ?_, fun i v w pos hv _ => ?_, ?_⟩⟩
  · rw [hn]
    refine .script (sameCall_script rfl (same.host hs) (called.function? hf') (t.far ▸ hg)
      (inside.functions.mono below') (index ▸ inside.linked.near) (closure?_calling room)
      hj rfl none' (same.base.trans base) rfl ?_) rfl
    have ip := same.ip
    rw [Setting.start, if_pos hs, start, Nat.zero_add] at ip
    rw [ip, hip]
  · rw [stack, size_stack_calling]
  · obtain ⟨lt, -⟩ := Array.getElem?_eq_some_iff.1 hv
    rw [size_stack_calling] at lt
    omega
  · rw [opens']
    exact .nil

end Twins
end Machine
end StackScript
