import StackScript.Proofs.Bytecode.Listed
import StackScript.Proofs.Compile.Verify
import StackScript.Proofs.Machine.Seam

/-!
# StackScript.Proofs.Machine.Decoding

The listing of a chunk and the machine decode the same instructions.

* `fetch_next`: fetching goes on where the listing goes on.
* `Instruction.target?`: where a jump leads. `Followed`: it is an offset that the listing visits, the
  listing shows it, and the machine goes on there.
* `listing_followed`: all of this, for any octets and for what the compiler makes.
-/

namespace StackScript

open Bytecode (Item Verified Starts Leads Accepts Part itemCode)
open Instruction (stream width)

/-- Where an instruction with a distance leads to, the next instruction being at `next`. -/
def Instruction.target? (next : Nat) : Instruction → Option Nat
  | .jump d | .jumpIfFalse d => some (next + d.toNat)
  | .loop d => some (next - d.toNat)
  | _ => none

namespace Machine

/-- Whether a machine that is at an instruction with a distance goes where it leads to. -/
def Takes (m : Machine) : Instruction → Prop
  | .jumpIfFalse _ => ∃ v, m.stack.back? = some v ∧ v.isFalsey
  | _ => True

variable {m : Machine} {call : Frame} {outer : List Frame} {f : Function} {h : Heap} {o : Nat}
  {i : Instruction}

/-- Fetching moves the instruction pointer to where the listing goes on. -/
theorem fetch_next (hm : m.frames = call :: outer) (hf : m.heap.function? call.function = some f)
    (read : f.chunk.read? call.ip = some i) : fetch m = .ok i
      { m with frames := { call with ip := (f.chunk.listInstruction h call.ip).2 } :: outer } := by
  rw [Chunk.next_of_read? read]
  have fetched : Ends fetch m (fun i' m' => i' = i ∧ m' = { m with
      frames := { call with ip := call.ip + i.size } :: outer }) fun _ _ => False :=
    .fetch hm hf read ⟨rfl, rfl⟩
  unfold Ends at fetched
  split at fetched
  next e =>
    obtain ⟨rfl, rfl⟩ := fetched
    exact e
  next => exact fetched.elim

/-- A jump of a function leads to an offset that the listing of the function visits, the listing
shows the offset, and a machine that takes the jump goes on there. -/
structure Followed (h : Heap) (f : Function) (offsets : List Nat) (o : Nat) (i : Instruction)
    (target : Nat) : Prop where
  visited : target ∈ offsets
  shown : (f.chunk.listInstruction h o).1 = Text.padLeft '0' 4 (toString o) ++ " " ++
    f.chunk.lineColumn o ++ (columnName i.name ++ columnNumber o ++ " -> " ++ toString target)
  taken : ∀ (m : Machine) (call : Frame) (outer : List Frame), m.frames = call :: outer →
    m.heap.function? call.function = some f → call.ip = o → m.Takes i →
    m.step = (.running, { m with frames := { call with ip := target } :: outer })

theorem shows_target {c : Chunk} {target : Nat} (read : c.read? o = some i)
    (leads : i.target? (o + i.size) = some target) :
    (c.listInstruction h o).1 = Text.padLeft '0' 4 (toString o) ++ " " ++ c.lineColumn o ++
      (columnName i.name ++ columnNumber o ++ " -> " ++ toString target) := by
  rw [Chunk.listInstruction, read]
  cases i <;> cases leads <;> rfl

/-- A machine that takes a jump goes on where it leads to. A loop must not lead in front of the
code. -/
theorem step_taken {target : Nat} (hm : m.frames = call :: outer)
    (hf : m.heap.function? call.function = some f) (read : f.chunk.read? call.ip = some i)
    (leads : i.target? (call.ip + i.size) = some target)
    (inside : ∀ d, i = .loop d → d.toNat ≤ call.ip + i.size) (takes : m.Takes i) :
    m.step = (.running, { m with frames := { call with ip := target } :: outer }) := by
  refine step_of_ends hm rfl (.bind (.fetch hm hf read ?_))
  cases i with
  | jump d =>
    cases leads
    exact .bind (.frame rfl (.setIp rfl rfl))
  | jumpIfFalse d =>
    cases leads
    obtain ⟨v, top, falsey⟩ := takes
    have filled : 0 < m.stack.size := by
      rw [Array.back?] at top
      have := (Array.getElem?_eq_some_iff.1 top).1
      omega
    refine .bind (.peek filled fun w hw => ?_)
    rw [Nat.sub_zero, ← Array.back?, top] at hw
    obtain rfl := Option.some.inj hw
    rw [if_pos falsey]
    exact .bind (.frame rfl (.setIp rfl rfl))
  | loop d =>
    cases leads
    refine .bind (.frame rfl ?_)
    dsimp only
    rw [if_pos (inside d rfl)]
    exact .setIp rfl rfl
  | _ => cases leads

end Machine

namespace Bytecode

/-- An instruction that is not the data of another one and takes no data is an item of its own. -/
theorem item_of_instruction {xs : List Item} {pre post : List Instruction} {i : Instruction}
    (closure : ∀ k, i ≠ .closure k) (capture : ∀ c, i ≠ .capture c)
    (e : itemCode xs = pre ++ i :: post) :
    ∃ before behind, xs = before ++ .plain i :: behind ∧ itemCode before = pre := by
  induction xs generalizing pre with
  | nil => cases pre <;> cases e
  | cons x xs ih =>
    have step : x.code ++ itemCode xs = pre ++ i :: post := e
    obtain ⟨rest, rfl, split⟩ | ⟨rest, code, split⟩ := List.append_eq_append_iff.1 step
    · obtain ⟨before, behind, rfl, rfl⟩ := ih split
      exact ⟨x :: before, behind, rfl, rfl⟩
    · cases rest with
      | nil =>
        obtain ⟨before, behind, rfl, none⟩ := @ih [] (by simpa using split.symm)
        refine ⟨x :: before, behind, rfl, ?_⟩
        show x.code ++ itemCode before = pre
        rw [none, code, List.append_nil, List.append_nil]
      | cons j rest =>
        obtain ⟨rfl, -⟩ := List.cons.inj split
        cases x with
        | plain i' =>
          obtain ⟨rfl, e⟩ | ⟨_, e⟩ := List.singleton_eq_append_iff.1 code
          · obtain ⟨rfl, -⟩ := List.cons.inj e
            exact ⟨[], xs, rfl, rfl⟩
          · cases e
        | closure k captures =>
          have inside : i ∈ (Item.closure k captures).code := by simp [code]
          obtain rfl | inside := List.mem_cons.1 inside
          · exact absurd rfl (closure k)
          · obtain ⟨c, -, rfl⟩ := List.mem_map.1 inside
            exact absurd rfl (capture c)

theorem Starts.mem {xs : List Item} {t : Nat} (s : Starts xs t) :
    t ∈ Chunk.starts 0 (itemCode xs) := by
  obtain ⟨pre, x, post, rfl, rfl⟩ := s
  have first : ∃ i is, x.code = i :: is := by cases x <;> exact ⟨_, _, rfl⟩
  obtain ⟨i, is, first⟩ := first
  refine Chunk.mem_starts.2 ⟨itemCode pre, i, is ++ itemCode post, ?_, (Nat.zero_add _).symm⟩
  simp [itemCode, first]

variable {h : Heap} {f : Function} {xs : List Item} {depth : Nat → Nat}

/-- Where a jump of accepted code leads to. -/
theorem Verified.target (v : Verified h f xs depth) {o target : Nat} {i : Instruction}
    (visited : o ∈ Chunk.starts 0 (itemCode xs)) (read : f.chunk.read? o = some i)
    (leads : i.target? (o + i.size) = some target) :
    target ∈ Chunk.starts 0 (itemCode xs) ∧ ∀ d, i = .loop d → d.toNat ≤ o + i.size := by
  obtain ⟨pre, j, post, e, rfl⟩ := Chunk.mem_starts.1 visited
  rw [Nat.zero_add] at *
  have found : f.chunk.read? (width pre) = some j := by
    rw [← Instruction.length_stream]
    exact Chunk.read?_of_code (stream pre) (stream post) (by rw [v.code, e]; simp)
  obtain rfl : j = i := Option.some.inj (found.symm.trans read)
  obtain ⟨before, behind, rfl, rfl⟩ := item_of_instruction (by rintro k rfl; cases leads)
    (by rintro c rfl; cases leads) e
  obtain ⟨-, -, flows⟩ := v.accepts before (.plain j) behind rfl
  cases j with
  | jump d =>
    cases leads
    exact ⟨flows.1.mem, nofun⟩
  | jumpIfFalse d =>
    cases leads
    exact ⟨flows.2.1.mem, nofun⟩
  | loop d =>
    cases leads
    obtain ⟨inside, start, -⟩ := flows
    refine ⟨start.mem, ?_⟩
    rintro _ ⟨⟩
    exact inside
  | _ => cases leads

end Bytecode

namespace Machine

open Compile (compile)

/-- The listing of any octets comes to an end and lists every octet once. Wherever an instruction
can be decoded, fetching moves on as the listing does, and not behind the end of the code. The
listing of a function that was compiled visits the offsets at which its instructions were written;
and the machine follows its jumps to where the listing says that they lead. -/
theorem listing_followed :
    (∀ (c : Chunk) (name : String) (h : Heap), ∃ offsets, c.Listed name h offsets) ∧
    (∀ (c : Chunk) (h : Heap) o i, c.read? o = some i →
      (c.listInstruction h o).2 ≤ c.code.size ∧
        ∀ (m : Machine) call outer f, m.frames = call :: outer →
          m.heap.function? call.function = some f → f.chunk = c → call.ip = o →
          fetch m = .ok i
            { m with frames := { call with ip := (c.listInstruction h o).2 } :: outer }) ∧
    ∀ source heap r, (compile source heap).result = .ok r →
      (compile source heap).heap.size ≤ UInt32.size →
      ∀ r' f name (h : Heap), Part (compile source heap).heap r r' →
        (compile source heap).heap.function? r' = some f →
        ∃ offsets, f.chunk.Listed name h offsets ∧
          (∃ is, f.chunk.Written is) ∧ (∀ is, f.chunk.Written is → offsets = Chunk.starts 0 is) ∧
          ∀ o ∈ offsets, ∀ i target, f.chunk.read? o = some i →
            i.target? (f.chunk.listInstruction h o).2 = some target →
            Followed h f offsets o i target := by
  refine ⟨fun c name h => c.exists_listed name h, ?_, ?_⟩
  · intro c h o i read
    refine ⟨?_, ?_⟩
    · rw [Chunk.next_of_read? read]
      exact Chunk.read?_fits read
    · rintro m call outer f hm hf rfl rfl
      exact fetch_next hm hf read
  · intro source heap r compiles size r' f name h part found
    obtain ⟨-, verified⟩ := Compile.compile_verified compiles size
    obtain ⟨xs, depth, v⟩ := verified r' f part found
    have written : f.chunk.Written (itemCode xs) := .of_code v.code
    refine ⟨_, written.visits.listed (h := h), ⟨_, written⟩, fun is w => ?_, ?_⟩
    · exact written.visits.unique (h := h) w.visits
    · intro o visited i target read leads
      rw [Chunk.next_of_read? read] at leads
      obtain ⟨mem, inside⟩ := v.target visited read leads
      exact
        { visited := mem
          shown := shows_target read leads
          taken := by
            rintro m call outer hm hf rfl takes
            exact step_taken hm hf read leads inside takes }

/-- A loop: its condition leads to the octet behind it, and its end back to the start. -/
theorem listing_followed_loop :
    let source := "while (true) print nil;"
    let heap := (compile source .empty).heap
    let is : List Instruction :=
      [.pushTrue, .jumpIfFalse 6, .pop, .pushNil, .print, .loop 10, .pop, .pushNil, .ret]
    (compile source .empty).result = .ok ⟨0⟩ ∧ heap.size ≤ UInt32.size ∧ Part heap ⟨0⟩ ⟨0⟩ ∧
      ∃ f, heap.function? ⟨0⟩ = some f ∧ f.chunk.Listed "<script>" heap (Chunk.starts 0 is) ∧
        f.chunk.read? 1 = some (.jumpIfFalse 6) ∧ (f.chunk.listInstruction heap 1).2 ≤ f.chunk.code.size ∧
        Followed heap f (Chunk.starts 0 is) 1 (.jumpIfFalse 6) 10 ∧
        Followed heap f (Chunk.starts 0 is) 7 (.loop 10) 0 := by
  intro source heap is
  have compiles : (compile source .empty).result = .ok ⟨0⟩ := by decide +kernel
  have size : heap.size = 1 := by decide +kernel
  have small : heap.size ≤ UInt32.size := by
    rw [size]
    decide
  have code : (heap.function? ⟨0⟩).map (·.chunk.code.toList) = some (stream is) := by decide +kernel
  obtain ⟨f, found, code⟩ := Option.map_eq_some_iff.1 code
  have branch : f.chunk.read? 1 = some (.jumpIfFalse 6) :=
    Chunk.read?_of_code (stream [.pushTrue]) (stream (is.drop 2)) code
  have loop : f.chunk.read? 7 = some (.loop 10) :=
    Chunk.read?_of_code (stream (is.take 5)) (stream (is.drop 6)) code
  obtain ⟨-, decoded, followed⟩ := listing_followed
  obtain ⟨offsets, listed, -, starts, jumps⟩ :=
    followed source .empty ⟨0⟩ compiles small ⟨0⟩ f "<script>" heap (.self _) found
  obtain rfl := starts is (.of_code code)
  refine ⟨compiles, small, .self _, f, found, listed, branch, (decoded f.chunk heap 1 _ branch).1,
    jumps 1 (by decide) _ 10 branch ?_, jumps 7 (by decide) _ 0 loop ?_⟩
  · rw [Chunk.next_of_read? branch]
    rfl
  · rw [Chunk.next_of_read? loop]
    rfl

end Machine
end StackScript
