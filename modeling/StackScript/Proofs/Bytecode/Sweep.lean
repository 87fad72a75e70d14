import StackScript.Proofs.Bytecode.Stream

/-!
# StackScript.Proofs.Bytecode.Sweep

Octets read as instructions, one behind the other.

* `Chunk.sweep`: the instructions of a chunk from its first octet on, as far as they decode, and
  the offset where that ends.
* `Instruction.Encodes`: the octets that decode to an instruction. Only a capture has more than its
  own: any octet but zero stands for a local.
* `Chunk.sweep_roundtrip`: writing and sweeping undo each other.
-/

namespace StackScript
namespace Instruction

inductive Encodes : Instruction → List UInt8 → Prop where
  | encode (i : Instruction) : Encodes i i.encode
  | capture (source index : UInt8) : Encodes (.capture ⟨source != 0, index⟩) [29, source, index]

variable {i : Instruction} {is : List Instruction} {octets raw rest : List UInt8}

theorem sizeOf?_id (i : Instruction) : sizeOf? i.id = some i.size := by
  cases i <;> rfl

theorem Encodes.length (h : Encodes i raw) : raw.length = i.size := by
  cases h with
  | encode i => exact length_encode i
  | capture => rfl

theorem split_octets (high low : UInt8) :
    Operand.octets (.word (high.toUInt16 <<< 8 ||| low.toUInt16)) = [high, low] := by
  have high_lt := high.toNat_lt
  have low_lt := low.toNat_lt
  have joined : (high.toUInt16 <<< 8 ||| low.toUInt16).toNat = 256 * high.toNat + low.toNat := by
    have shifted : (high.toUInt16 <<< 8).toNat = 2 ^ 8 * high.toNat := by
      simp only [UInt16.toNat_shiftLeft, UInt8.toNat_toUInt16, UInt16.reduceToNat, Nat.reduceMod,
        Nat.shiftLeft_eq]
      omega
    rw [UInt16.toNat_or, shifted, UInt8.toNat_toUInt16, ← Nat.two_pow_add_eq_or_of_lt (by omega)]
  simp only [Operand.octets, List.cons.injEq, and_true]
  constructor <;> apply UInt8.toNat_inj.1
  · rw [UInt16.toNat_toUInt8, UInt16.toNat_shiftRight, joined, Nat.shiftRight_eq_div_pow]
    simp only [UInt16.reduceToNat, Nat.reduceMod, Nat.reducePow]
    omega
  · rw [UInt16.toNat_toUInt8, joined]
    omega

theorem byte?_eq_some {n : UInt8} (h : Operand.byte? octets = some n) :
    ∃ rest, octets = Operand.octets (.byte n) ++ rest := by
  cases octets with
  | nil => cases h
  | cons m rest =>
    cases h
    exact ⟨rest, rfl⟩

theorem word?_eq_some {n : UInt16} (h : Operand.word? octets = some n) :
    ∃ rest, octets = Operand.octets (.word n) ++ rest := by
  match octets, h with
  | high :: low :: rest, rfl => exact ⟨rest, by rw [split_octets]; rfl⟩

theorem capture?_eq_some {c : Capture} (h : Operand.capture? octets = some c) :
    ∃ source rest, octets = source :: c.index :: rest ∧ c.isLocal = (source != 0) := by
  match octets, h with
  | source :: index :: rest, rfl => exact ⟨source, rest, rfl, rfl⟩

section Operands

variable {id : UInt8} {n : Nat} (hid : id.toNat = n)

include hid

theorem starts_plain {j : Instruction} (h : some j = some i) (code : j.encode = [n.toUInt8]) :
    ∃ raw rest, id :: octets = raw ++ rest ∧ Encodes i raw := by
  cases h
  subst hid
  exact ⟨_, octets, by rw [code]; simp, .encode i⟩

theorem starts_byte {make : UInt8 → Instruction} (h : (Operand.byte? octets).map make = some i)
    (code : ∀ k, (make k).encode = n.toUInt8 :: Operand.octets (.byte k)) :
    ∃ raw rest, id :: octets = raw ++ rest ∧ Encodes i raw := by
  obtain ⟨k, hk, rfl⟩ := Option.map_eq_some_iff.1 h
  obtain ⟨rest, rfl⟩ := byte?_eq_some hk
  subst hid
  exact ⟨_, rest, by rw [code]; simp, .encode (make k)⟩

theorem starts_word {make : UInt16 → Instruction} (h : (Operand.word? octets).map make = some i)
    (code : ∀ k, (make k).encode = n.toUInt8 :: Operand.octets (.word k)) :
    ∃ raw rest, id :: octets = raw ++ rest ∧ Encodes i raw := by
  obtain ⟨k, hk, rfl⟩ := Option.map_eq_some_iff.1 h
  obtain ⟨rest, rfl⟩ := word?_eq_some hk
  subst hid
  exact ⟨_, rest, by rw [code]; simp, .encode (make k)⟩

theorem starts_capture (h : (Operand.capture? octets).map .capture = some i) (tag : n = 29) :
    ∃ raw rest, id :: octets = raw ++ rest ∧ Encodes i raw := by
  obtain ⟨⟨isLocal, index⟩, hk, rfl⟩ := Option.map_eq_some_iff.1 h
  obtain ⟨source, rest, rfl, flag⟩ := capture?_eq_some hk
  obtain rfl : id = 29 := UInt8.toNat_inj.1 (hid.trans tag)
  cases flag
  exact ⟨_, rest, rfl, .capture source index⟩

end Operands

/-- What decodes starts with octets of the instruction. -/
theorem encodes_of_decode? (h : decode? octets = some i) :
    ∃ raw rest, octets = raw ++ rest ∧ Encodes i raw := by
  cases octets with
  | nil => cases h
  | cons id octets =>
    simp only [decode?] at h
    split at h
    -- One alternative for each kind of operand; the last one is for an octet that tells nothing.
    all_goals
      rename_i hid
      first
      | exact starts_plain hid h rfl
      | exact starts_byte hid h fun _ => rfl
      | exact starts_word hid h fun _ => rfl
      | exact starts_capture hid h rfl
      | cases h

theorem decode?_of_encodes (h : Encodes i raw) (rest : List UInt8) :
    decode? (raw ++ rest) = some i := by
  cases h with
  | encode i => exact decode?_encode i rest
  | capture => rfl

theorem decode?_eq_some_iff :
    decode? octets = some i ↔ ∃ raw rest, octets = raw ++ rest ∧ Encodes i raw := by
  refine ⟨encodes_of_decode?, ?_⟩
  rintro ⟨raw, rest, rfl, h⟩
  exact decode?_of_encodes h rest

theorem Encodes.id (h : Encodes i raw) : ∃ operand, raw = i.id :: operand := by
  cases h with
  | encode i => exact ⟨_, rfl⟩
  | capture => exact ⟨_, rfl⟩

/-- An instruction whose last octets are missing is none. -/
theorem decode?_take_encode {n : Nat} (hn : n < i.size) : decode? (i.encode.take n) = none := by
  refine Option.eq_none_iff_forall_ne_some.2 fun j hj => ?_
  obtain ⟨raw, rest, e, h⟩ := encodes_of_decode? hj
  obtain ⟨operand, rfl⟩ := h.id
  -- The first octet tells the size, so the other instruction is as long as this one.
  have same : i.id = j.id := by
    cases n with
    | zero => cases e
    | succ n => exact (List.cons.inj e).1
  have size : i.size = j.size := by
    have := sizeOf?_id i
    rw [same, sizeOf?_id] at this
    exact (Option.some.inj this).symm
  have short := congrArg List.length e
  rw [List.length_take, List.length_append, h.length, length_encode] at short
  omega

/-- The offset at which a capture tells whether it takes a local. -/
def FlagAt (is : List Instruction) (o : Nat) : Prop :=
  ∃ pre c post, is = pre ++ .capture c :: post ∧ o = width pre + 1

theorem flagAt_cons {i : Instruction} {o : Nat} :
    FlagAt (i :: is) o ↔ (∃ c, i = .capture c ∧ o = 1) ∨ ∃ o', o = i.size + o' ∧ FlagAt is o' := by
  constructor
  · rintro ⟨pre, c, post, e, rfl⟩
    cases pre with
    | nil =>
      obtain ⟨rfl, -⟩ := List.cons.inj e
      exact .inl ⟨c, rfl, rfl⟩
    | cons j pre =>
      obtain ⟨rfl, rfl⟩ := List.cons.inj e
      exact .inr ⟨width pre + 1, by rw [width_cons]; omega, pre, c, post, rfl, rfl⟩
  · rintro (⟨c, rfl, rfl⟩ | ⟨o, rfl, pre, c, post, rfl, rfl⟩)
    · exact ⟨[], c, is, rfl, rfl⟩
    · exact ⟨i :: pre, c, post, rfl, by rw [width_cons]; omega⟩

/-- Octets that decode to a list of instructions, one behind the other. -/
inductive Spells : List Instruction → List UInt8 → Prop where
  | nil : Spells [] []
  | cons {i : Instruction} {is : List Instruction} {raw octets : List UInt8} :
      Encodes i raw → Spells is octets → Spells (i :: is) (raw ++ octets)

theorem spells_stream (is : List Instruction) : Spells is (stream is) := by
  induction is with
  | nil => exact .nil
  | cons i is ih => exact .cons (.encode i) ih

namespace Spells

theorem length (h : Spells is octets) : octets.length = width is := by
  induction h with
  | nil => rfl
  | cons hi _ ih => rw [List.length_append, hi.length, ih, width_cons]

/-- What is written anew differs in the flags only. -/
theorem getElem?_stream (h : Spells is octets) (o : Nat) :
    (¬FlagAt is o → (stream is)[o]? = octets[o]?) ∧
      (FlagAt is o → ∃ octet, octets[o]? = some octet ∧
        (stream is)[o]? = some (if octet = 0 then 0 else 1)) := by
  induction h generalizing o with
  | nil =>
    refine ⟨fun _ => rfl, ?_⟩
    rintro ⟨pre, c, post, e, -⟩
    simp at e
  | @cons i is raw octets hi _ ih =>
    have length := hi.length
    rw [stream_cons, flagAt_cons]
    by_cases inside : o < i.size
    · -- Within the first instruction only a capture can have a flag.
      have behind (o' : Nat) : o ≠ i.size + o' := by omega
      rw [List.getElem?_append_left (by rwa [length_encode]),
        List.getElem?_append_left (by rwa [length])]
      cases hi with
      | encode i =>
        refine ⟨fun _ => rfl, ?_⟩
        rintro (⟨c, rfl, rfl⟩ | ⟨o', e, -⟩)
        · obtain ⟨isLocal, index⟩ := c
          cases isLocal
          · exact ⟨0, rfl, rfl⟩
          · exact ⟨1, rfl, rfl⟩
        · exact absurd e (behind o')
      | capture source index =>
        refine ⟨fun plain => ?_, ?_⟩
        · have elsewhere : o ≠ 1 := fun e => plain (.inl ⟨_, rfl, e⟩)
          have three : o < 3 := inside
          obtain rfl | rfl : o = 0 ∨ o = 2 := by omega
          · rfl
          · rfl
        · rintro (⟨c, -, rfl⟩ | ⟨o', e, -⟩)
          · refine ⟨source, rfl, ?_⟩
            by_cases zero : source = 0 <;> simp [encode, operand, Operand.octets, zero]
          · exact absurd e (behind o')
    · obtain ⟨o', rfl⟩ := Nat.exists_eq_add_of_le (Nat.le_of_not_lt inside)
      have further : ((∃ c, i = .capture c ∧ i.size + o' = 1) ∨
          ∃ o, i.size + o' = i.size + o ∧ FlagAt is o) ↔ FlagAt is o' := by
        constructor
        · rintro (⟨c, rfl, e⟩ | ⟨o, e, ho⟩)
          · have three : (Instruction.capture c).size = 3 := rfl
            omega
          · obtain rfl : o' = o := by omega
            exact ho
        · exact fun h => .inr ⟨o', rfl, h⟩
      rw [further, List.getElem?_append_right (by rw [length_encode]; omega),
        List.getElem?_append_right (by rw [length]; omega), length_encode, length,
        Nat.add_sub_cancel_left]
      exact ih o'

end Spells

/-- No instruction is longer than three octets. -/
theorem decode?_take_three (octets : List UInt8) : decode? (octets.take 3) = decode? octets := by
  refine Option.ext fun i => ?_
  rw [decode?_eq_some_iff, decode?_eq_some_iff]
  constructor
  · rintro ⟨raw, rest, e, h⟩
    refine ⟨raw, rest ++ octets.drop 3, ?_, h⟩
    rw [← List.append_assoc, ← e, List.take_append_drop]
  · rintro ⟨raw, rest, rfl, h⟩
    have short := i.size_le_three
    refine ⟨raw, rest.take (3 - raw.length), ?_, h⟩
    rw [List.take_append, List.take_of_length_le (by rw [h.length]; exact short)]

end Instruction

namespace Chunk

open Instruction

variable {c : Chunk} {is : List Instruction} {o stop : Nat}

theorem read?_eq (c : Chunk) (o : Nat) : c.read? o = decode? (c.code.toList.drop o) := by
  rw [read?, Array.toList_extract, List.extract_eq_take_drop, Nat.add_sub_cancel_left,
    decode?_take_three]

theorem read?_fits {i : Instruction} (h : c.read? o = some i) : o + i.size ≤ c.code.size := by
  rw [read?_eq] at h
  obtain ⟨raw, rest, e, hi⟩ := encodes_of_decode? h
  have length := congrArg List.length e
  have pos := i.size_pos
  rw [List.length_drop, List.length_append, hi.length, Array.length_toList] at length
  omega

/-- The instructions from an offset on, and the offset where there is none. -/
def sweepFrom (c : Chunk) (o : Nat) : List Instruction × Nat :=
  match _h : c.read? o with
  | none => ([], o)
  | some i =>
    let (is, stop) := c.sweepFrom (o + i.size)
    (i :: is, stop)
termination_by c.code.size - o
decreasing_by
  have fits := read?_fits _h
  have pos := i.size_pos
  omega

def sweep (c : Chunk) : List Instruction × Nat := c.sweepFrom 0

theorem sweepFrom_none (h : c.read? o = none) : c.sweepFrom o = ([], o) := by
  unfold sweepFrom
  split
  · rfl
  next h' =>
    rw [h] at h'
    cases h'

theorem sweepFrom_some {i : Instruction} (h : c.read? o = some i) :
    c.sweepFrom o = (i :: (c.sweepFrom (o + i.size)).1, (c.sweepFrom (o + i.size)).2) := by
  rw [sweepFrom]
  split
  next h' =>
    rw [h] at h'
    cases h'
  next h' =>
    rw [h] at h'
    cases h'
    rfl

/-- A sweep goes through octets that spell instructions, and on behind them. -/
theorem sweepFrom_of_spells {octets rest : List UInt8} (h : Spells is octets)
    (code : c.code.toList.drop o = octets ++ rest) (tail : decode? rest = none) :
    c.sweepFrom o = (is, o + width is) := by
  induction h generalizing o with
  | nil =>
    rw [sweepFrom_none (by rwa [read?_eq, code])]
    rfl
  | @cons i is raw octets hi _ ih =>
    rw [List.append_assoc] at code
    have found : c.read? o = some i := by
      rw [read?_eq, code, decode?_of_encodes hi]
    have further : c.code.toList.drop (o + i.size) = octets ++ rest := by
      rw [← List.drop_drop, code, ← hi.length, List.drop_left]
    rw [sweepFrom_some found, ih further, width_cons, Nat.add_assoc]

/-- What a sweep goes through spells the instructions that it gives. -/
theorem spells_of_sweepFrom (h : c.sweepFrom o = (is, stop)) :
    ∃ octets, Spells is octets ∧
      c.code.toList.drop o = octets ++ c.code.toList.drop stop := by
  induction is generalizing o with
  | nil =>
    cases hr : c.read? o with
    | none =>
      rw [sweepFrom_none hr] at h
      cases h
      exact ⟨[], .nil, rfl⟩
    | some i =>
      rw [sweepFrom_some hr] at h
      cases h
  | cons i is ih =>
    cases hr : c.read? o with
    | none =>
      rw [sweepFrom_none hr] at h
      cases h
    | some j =>
      rw [sweepFrom_some hr] at h
      cases h
      obtain ⟨octets, spells, code⟩ := ih (o := o + i.size) rfl
      rw [read?_eq] at hr
      obtain ⟨raw, rest, e, hi⟩ := encodes_of_decode? hr
      refine ⟨raw ++ octets, .cons hi spells, ?_⟩
      rw [← List.drop_drop, e, ← hi.length, List.drop_left, hi.length] at code
      rw [e, List.append_assoc, ← code]

/-- The chunk of instructions that are emitted one behind the other, each for a line. -/
def ofItems (items : List (Instruction × Nat)) : Chunk :=
  items.foldl (fun c item => c.emit item.1 item.2) .empty

theorem code_ofItems (items : List (Instruction × Nat)) :
    (ofItems items).code.toList = stream (items.map Prod.fst) := by
  have fold (c : Chunk) : (items.foldl (fun c item => c.emit item.1 item.2) c).code.toList =
      c.code.toList ++ stream (items.map Prod.fst) := by
    induction items generalizing c with
    | nil => simp
    | cons item items ih =>
      rw [List.foldl_cons, ih]
      simp [emit]
  exact fold .empty

/-- Writing and sweeping undo each other. A sweep of what was written gives the instructions and
ends at the end; it stops at an instruction that is cut; the sizes of an instruction agree; and if a
sweep ends at the end of some octets, then its instructions are written as these octets again, but
for the flags of captures. -/
theorem sweep_roundtrip :
    (∀ items, (ofItems items).code.toList = stream (items.map Prod.fst) ∧
      (ofItems items).sweep = (items.map Prod.fst, (ofItems items).code.size)) ∧
    (∀ (c : Chunk) is i js n, n < i.size →
      c.code.toList = (stream (is ++ i :: js)).take (width is + n) →
        c.sweep = (is, width is) ∧ c.read? (width is) = none) ∧
    (∀ i : Instruction, i.encode.length = i.size ∧ sizeOf? i.id = some i.size) ∧
    ∀ (c : Chunk) is, c.sweep = (is, c.code.size) → (stream is).length = c.code.size ∧
      ∀ o, (¬FlagAt is o → (stream is)[o]? = c.code[o]?) ∧
        (FlagAt is o → ∃ octet, c.code[o]? = some octet ∧
          (stream is)[o]? = some (if octet = 0 then 0 else 1)) := by
  refine ⟨fun items => ⟨code_ofItems items, ?_⟩, fun c is i js n hn code => ?_,
    fun i => ⟨length_encode i, sizeOf?_id i⟩, fun c is h => ?_⟩
  · have code := code_ofItems items
    have size := congrArg List.length code
    rw [Array.length_toList, length_stream] at size
    have swept := sweepFrom_of_spells (c := ofItems items) (o := 0)
      (spells_stream (items.map Prod.fst)) (by rw [code]; exact (List.append_nil _).symm) rfl
    rw [sweep, swept, size, Nat.zero_add]
  · have cut : c.code.toList = stream is ++ i.encode.take n := by
      rw [code, stream_append, ← length_stream is, List.take_length_add_append, stream_cons,
        List.take_append_of_le_length (by rw [length_encode]; omega)]
    have none := decode?_take_encode hn
    refine ⟨?_, ?_⟩
    · have swept := sweepFrom_of_spells (o := 0) (spells_stream is) cut none
      rwa [Nat.zero_add] at swept
    · rw [read?_eq, cut, ← length_stream is, List.drop_left, none]
  · obtain ⟨octets, spells, code⟩ := spells_of_sweepFrom h
    rw [List.drop_zero, List.drop_of_length_le (by simp), List.append_nil] at code
    refine ⟨?_, fun o => ?_⟩
    · rw [length_stream, ← spells.length, ← code, Array.length_toList]
    · rw [← Array.getElem?_toList, code]
      exact spells.getElem?_stream o

/-- A closure and its capture, whose flag is 7: the flag is written as 1. Without its last octet the
capture is none. -/
theorem sweep_roundtrip_flag :
    let is : List Instruction := [.closure 0, .capture ⟨true, 5⟩]
    let c : Chunk := ⟨#[28, 0, 29, 7, 5], #[], #[]⟩
    let cut : Chunk := ⟨#[28, 0, 29, 1], #[], #[]⟩
    (2 < (Instruction.capture ⟨true, 5⟩).size ∧
      cut.code.toList = (stream ([.closure 0] ++ .capture ⟨true, 5⟩ :: [])).take
        (width [.closure 0] + 2) ∧
      cut.sweep = ([.closure 0], 2) ∧ cut.read? 2 = none) ∧
    c.sweep = (is, c.code.size) ∧ FlagAt is 3 ∧
      (∃ octet, c.code[3]? = some octet ∧
        (stream is)[3]? = some (if octet = 0 then 0 else 1)) ∧ (stream is)[3]? = some 1 := by
  intro is c cut
  have short : 2 < (Instruction.capture ⟨true, 5⟩).size := by decide
  have swept : c.sweep = (is, c.code.size) :=
    sweepFrom_of_spells (o := 0)
      (.cons (.encode (.closure 0)) (.cons (.capture 7 5) .nil)) rfl rfl
  have flag : FlagAt is 3 := ⟨[.closure 0], ⟨true, 5⟩, [], rfl, rfl⟩
  obtain ⟨-, cuts, -, back⟩ := sweep_roundtrip
  exact ⟨⟨short, rfl, cuts cut [.closure 0] _ [] 2 short rfl⟩, swept, flag,
    ((back c is swept).2 3).2 flag, rfl⟩

end Chunk
end StackScript
