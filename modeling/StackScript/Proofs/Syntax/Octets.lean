import Mathlib.Data.List.Count
import StackScript.Proofs.Syntax.Coverage

/-!
# StackScript.Proofs.Syntax.Octets

Scanning octet by octet, one token at a time, never cuts a character.

* `slice?`: the text of some octets, unless it starts or ends inside a character.
* `Scanner.next`: the next token, found by comparing single octets with characters.
* `look_takeWhile`, `layout_look`, `munch_look`: what is found among the octets of a text is what is
  found among its characters.
* `scan_lossless`: the scanner gives the tokens of the source and then its end for ever, and nothing
  of the source is lost.
-/

namespace StackScript
namespace Lexical

/-- Octets start with a character, not inside of one. -/
def Aligned (bs : List UInt8) : Prop := ∀ b ∈ bs.head?, b.IsUTF8FirstByte

instance (bs : List UInt8) : Decidable (Aligned bs) :=
  inferInstanceAs (Decidable (∀ b ∈ bs.head?, b.IsUTF8FirstByte))

/-- The text of the first octets; none if it starts or ends inside a character. -/
def slice? (bs : List UInt8) (size : Nat) : Option String :=
  if Aligned bs ∧ Aligned (bs.drop size) then String.fromUTF8? (bs.take size).toByteArray else none

/-- Octets, each seen as the character that has its value. -/
def look (bs : List UInt8) : List Char := bs.map Char.ofUInt8

/-- What a scanner has in front of it, and where that is in the source. -/
structure Scanner where
  rest : List UInt8
  place : Position

namespace Scanner

/-- A scanner at the start of a source. -/
def start (source : String) : Scanner := ⟨source.toByteArray.data.toList, .start⟩

/-- Moves on behind some octets. -/
def skip (s : Scanner) (size : Nat) : Scanner :=
  ⟨s.rest.drop size, s.place.offset + size, s.place.line + (s.rest.take size).count 10⟩

/-- How many octets a token takes: one and those behind it that it goes on with. A character that
was not expected is taken as a whole. -/
def size (kind : TokenKind) (tail : Nat) (bs : List UInt8) : Nat :=
  if kind = .fault .unexpectedCharacter then (bs.takeWhile fun b => ¬b.IsUTF8FirstByte).length + 1
  else tail + 1

/-- The token that starts here, and the scanner behind it. None if the text of the token cannot be
sliced. -/
def take (s : Scanner) : Option (Token × Scanner) :=
  match s.rest with
  | [] => some (⟨.eof, "", s.place⟩, s)
  | b :: bs =>
    let found := munch (Char.ofUInt8 b) (look bs)
    let size := size found.1 found.2 bs
    (slice? s.rest size).map fun lexeme => (⟨found.1, lexeme, s.place⟩, s.skip size)

/-- The next token behind the layout. -/
def next (s : Scanner) : Option (Token × Scanner) := (s.skip (layout (look s.rest))).take

/-- The next tokens. -/
def tokens : Nat → Scanner → Option (List Token)
  | 0, _ => some []
  | n + 1, s => s.next.bind fun (t, s) => (tokens n s).map (t :: ·)

end Scanner

/-- Characters outside of ASCII. -/
def Foreign (c : Char) : Prop := 127 < c.toNat

instance (c : Char) : Decidable (Foreign c) := inferInstanceAs (Decidable (127 < c.toNat))

section Characters

variable {c : Char} {cs : List Char}

theorem toNat_ofUInt8 (b : UInt8) : (Char.ofUInt8 b).toNat = b.toNat := rfl

/-- A character of ASCII is one octet, which looks like the character. -/
theorem look_ascii (h : ¬Foreign c) : look (String.utf8EncodeChar c) = [c] := by
  have small : c.val.toNat ≤ 127 := Nat.le_of_not_lt h
  have one : c.utf8Size = 1 := Char.utf8Size_eq_one_iff.2 small
  have same : Char.ofUInt8 c.val.toUInt8 = c := by
    refine Char.toNat_inj.1 ?_
    rw [toNat_ofUInt8, UInt32.toNat_toUInt8]
    exact Nat.mod_eq_of_lt (by omega)
  rw [String.utf8EncodeChar_eq_singleton one, look, List.map_singleton, same]

/-- The octets of another character look like characters outside of ASCII. -/
theorem look_foreign (h : Foreign c) : ∀ d ∈ look (String.utf8EncodeChar c), Foreign d := by
  have large : 127 < c.val.toNat := h
  intro d hd
  obtain ⟨b, hb, rfl⟩ := List.mem_map.1 hd
  rw [Foreign, toNat_ofUInt8]
  unfold String.utf8EncodeChar at hb
  dsimp only at hb
  rw [if_neg (Nat.not_le_of_lt large)] at hb
  split at hb
  · simp only [List.mem_cons, List.not_mem_nil, or_false] at hb
    obtain rfl | rfl := hb <;> rw [UInt8.toNat_ofNat'] <;> omega
  · split at hb
    · simp only [List.mem_cons, List.not_mem_nil, or_false] at hb
      obtain rfl | rfl | rfl := hb <;> rw [UInt8.toNat_ofNat'] <;> omega
    · simp only [List.mem_cons, List.not_mem_nil, or_false] at hb
      obtain rfl | rfl | rfl | rfl := hb <;> rw [UInt8.toNat_ofNat'] <;> omega

/-- Only the first octet of a character can start one. -/
theorem utf8EncodeChar_eq_cons (c : Char) : ∃ b bs, String.utf8EncodeChar c = b :: bs ∧
    b.IsUTF8FirstByte ∧ ∀ x ∈ bs, ¬x.IsUTF8FirstByte := by
  cases h : String.utf8EncodeChar c with
  | nil => exact (String.utf8EncodeChar_ne_nil h).elim
  | cons b bs =>
    refine ⟨b, bs, rfl, ?_, fun x hx => ?_⟩
    · have first := UInt8.isUTF8FirstByte_getElem_zero_utf8EncodeChar (c := c)
      simpa [h] using first
    · obtain ⟨i, hi, rfl⟩ := List.mem_iff_getElem.1 hx
      have behind : i + 1 < (String.utf8EncodeChar c).length := by
        rw [h, List.length_cons]
        omega
      have later := @UInt8.isUTF8FirstByte_getElem_utf8EncodeChar c (i + 1) behind
      simpa [h] using later

theorem aligned_octets (cs : List Char) : Aligned (octets cs) := by
  cases cs with
  | nil => exact nofun
  | cons c cs =>
    obtain ⟨b, bs, e, first, -⟩ := utf8EncodeChar_eq_cons c
    rw [octets_cons, e]
    intro x hx
    obtain rfl := Option.some.inj hx
    exact first

theorem look_append (xs ys : List Char) :
    look (octets (xs ++ ys)) = look (octets xs) ++ look (octets ys) := by
  rw [octets_append, look, List.map_append]
  rfl

theorem look_cons (c : Char) (cs : List Char) :
    look (octets (c :: cs)) = look (String.utf8EncodeChar c) ++ look (octets cs) := by
  rw [octets_cons, look, List.map_append]
  rfl

theorem look_cons_ascii (h : ¬Foreign c) : look (octets (c :: cs)) = c :: look (octets cs) := by
  rw [look_cons, look_ascii h, List.singleton_append]

/-- The octets of a character outside of ASCII, which are not empty. -/
theorem look_cons_foreign (h : Foreign c) : ∃ d ds, Foreign d ∧ (∀ e ∈ ds, Foreign e) ∧
    look (String.utf8EncodeChar c) = d :: ds := by
  have foreign := look_foreign h
  cases e : look (String.utf8EncodeChar c) with
  | nil => exact (String.utf8EncodeChar_ne_nil (List.map_eq_nil_iff.1 e)).elim
  | cons d ds =>
    rw [e] at foreign
    exact ⟨d, ds, foreign d List.mem_cons_self, fun x hx => foreign x (List.mem_cons_of_mem d hx), rfl⟩

theorem length_look (bs : List UInt8) : (look bs).length = bs.length := List.length_map ..

/-- The octets behind those of the first characters are those of the other ones. -/
theorem drop_look (cs : List Char) (n : Nat) :
    (look (octets cs)).drop (octets (cs.take n)).length = look (octets (cs.drop n)) := by
  have whole := look_append (cs.take n) (cs.drop n)
  rw [List.take_append_drop] at whole
  rw [whole, ← length_look, List.drop_left]

theorem take_look (cs : List Char) (n : Nat) :
    (look (octets cs)).take (octets (cs.take n)).length = look (octets (cs.take n)) := by
  have whole := look_append (cs.take n) (cs.drop n)
  rw [List.take_append_drop] at whole
  rw [whole, ← length_look, List.take_left]

/-- Characters of ASCII look like themselves. -/
theorem look_ascii_all (h : ∀ c ∈ cs, ¬Foreign c) : look (octets cs) = cs := by
  induction cs with
  | nil => rfl
  | cons c cs ih =>
    rw [look_cons_ascii (h c List.mem_cons_self), ih fun d hd => h d (List.mem_cons_of_mem c hd)]

end Characters

section Runs

variable {p : Char → Bool} {cs : List Char}

/-- A class of characters that does not tell those outside of ASCII apart. -/
def Coarse (p : Char → Bool) : Prop := ∀ ⦃c d : Char⦄, Foreign c → Foreign d → p c = p d

theorem takeWhile_look (h : Coarse p) (cs : List Char) :
    (look (octets cs)).takeWhile p = look (octets (cs.takeWhile p)) := by
  induction cs with
  | nil => rfl
  | cons c cs ih =>
    by_cases foreign : Foreign c
    · obtain ⟨d, ds, hd, hds, e⟩ := look_cons_foreign foreign
      rw [look_cons, e]
      by_cases hp : p c
      · have all : ∀ x ∈ d :: ds, p x := by
          intro x hx
          obtain rfl | hx := List.mem_cons.1 hx
          · rwa [h hd foreign]
          · rwa [h (hds x hx) foreign]
        rw [List.takeWhile_append_of_pos all, ih, List.takeWhile_cons_of_pos hp, look_cons, e]
      · have no : ¬p d := by rwa [h hd foreign]
        rw [List.takeWhile_cons_of_neg hp, List.cons_append, List.takeWhile_cons_of_neg no]
        rfl
    · rw [look_cons_ascii foreign]
      by_cases hp : p c
      · rw [List.takeWhile_cons_of_pos hp, List.takeWhile_cons_of_pos hp, ih, look_cons_ascii foreign]
      · rw [List.takeWhile_cons_of_neg hp, List.takeWhile_cons_of_neg hp]
        rfl

theorem run_look (h : Coarse p) (cs : List Char) :
    run p (look (octets cs)) = (octets (cs.take (run p cs))).length := by
  rw [take_run, ← length_look, ← takeWhile_look h]
  rfl

theorem coarse_of_ascii (h : ∀ c, Foreign c → p c = false) : Coarse p :=
  fun c d hc hd => (h c hc).trans (h d hd).symm

theorem not_le_of_foreign {c d : Char} (hc : Foreign c) (hd : ¬Foreign d) : ¬c ≤ d := by
  intro le
  have le : c.val.toNat ≤ d.val.toNat := le
  exact hd (Nat.lt_of_lt_of_le hc le)

theorem ne_of_foreign {c d : Char} (hc : Foreign c) (hd : ¬Foreign d) : c ≠ d := by
  rintro rfl
  exact hd hc

theorem isDigit_foreign (c : Char) (h : Foreign c) : isDigit c = false := by
  have above : ¬c ≤ '9' := not_le_of_foreign h (by decide)
  simp [isDigit, above]

theorem isLetter_foreign (c : Char) (h : Foreign c) : isLetter c = false := by
  have lower : ¬c ≤ 'z' := not_le_of_foreign h (by decide)
  have upper : ¬c ≤ 'Z' := not_le_of_foreign h (by decide)
  have line : c ≠ '_' := ne_of_foreign h (by decide)
  simp [isLetter, lower, upper, line]

theorem isBlank_foreign (c : Char) (h : Foreign c) : isBlank c = false := by
  have other (d : Char) (hd : ¬Foreign d) : c ≠ d := ne_of_foreign h hd
  simp [isBlank, other ' ' (by decide), other '\r' (by decide), other '\t' (by decide),
    other '\n' (by decide)]

theorem coarse_isDigit : Coarse isDigit := coarse_of_ascii isDigit_foreign

theorem coarse_word : Coarse fun d => isLetter d || isDigit d :=
  coarse_of_ascii fun c h => by simp [isLetter_foreign c h, isDigit_foreign c h]

theorem coarse_string : Coarse fun c => c != '"' && c != '\n' := by
  have all (c : Char) (h : Foreign c) : (c != '"' && c != '\n') = true := by
    simp [ne_of_foreign h (d := '"') (by decide), ne_of_foreign h (d := '\n') (by decide)]
  exact fun c d hc hd => (all c hc).trans (all d hd).symm

/-- Something that starts with a character of ASCII, seen octet by octet. -/
theorem look_eq_cons {a : Char} (ha : ¬Foreign a) {ds : List Char} :
    look (octets cs) = a :: ds ↔ ∃ es, cs = a :: es ∧ ds = look (octets es) := by
  constructor
  · intro h
    cases cs with
    | nil => cases h
    | cons c cs =>
      by_cases foreign : Foreign c
      · obtain ⟨d, ds', hd, -, e⟩ := look_cons_foreign foreign
        rw [look_cons, e] at h
        obtain ⟨rfl, -⟩ := List.cons.inj h
        exact (ha hd).elim
      · rw [look_cons_ascii foreign] at h
        obtain ⟨rfl, rfl⟩ := List.cons.inj h
        exact ⟨cs, rfl, rfl⟩
  · rintro ⟨es, rfl, rfl⟩
    exact look_cons_ascii ha

end Runs

section Munch

variable {c : Char} {cs : List Char}

theorem length_octets_cons (ha : ¬Foreign c) (cs : List Char) :
    (octets (c :: cs)).length = (octets cs).length + 1 := by
  rw [← length_look, look_cons_ascii ha, List.length_cons, length_look]

theorem numberTail_cases (cs : List Char) :
    (∃ d ds, cs.drop (run isDigit cs) = '.' :: d :: ds ∧ isDigit d ∧
      numberTail cs = run isDigit cs + 2 + run isDigit ds) ∨
    ((∀ d ds, cs.drop (run isDigit cs) = '.' :: d :: ds → ¬isDigit d) ∧
      numberTail cs = run isDigit cs) := by
  unfold numberTail
  dsimp only
  split
  next d ds h =>
    split
    next hd => exact .inl ⟨d, ds, h, hd, rfl⟩
    next hd =>
      refine .inr ⟨fun d' ds' h' => ?_, rfl⟩
      cases h.symm.trans h'
      exact hd
  next none => exact .inr ⟨fun d ds h => (none d ds h).elim, rfl⟩

/-- As many octets as the characters have that a number takes. -/
theorem numberTail_look (cs : List Char) :
    numberTail (look (octets cs)) = (octets (cs.take (numberTail cs))).length := by
  have behind := drop_look cs (run isDigit cs)
  rw [← run_look coarse_isDigit] at behind
  have ascii {d : Char} (hd : isDigit d) : ¬Foreign d := fun foreign => by
    simp [isDigit_foreign d foreign] at hd
  obtain ⟨d, ds, h, hd, e⟩ | ⟨none, e⟩ := numberTail_cases cs
  · have fraction : (look (octets cs)).drop (run isDigit (look (octets cs))) =
        '.' :: d :: look (octets ds) := by
      rw [behind, h, look_cons_ascii (by decide), look_cons_ascii (ascii hd)]
    have taken : cs.take (run isDigit cs + 2 + run isDigit ds) =
        cs.take (run isDigit cs) ++ '.' :: d :: ds.take (run isDigit ds) := by
      rw [Nat.add_assoc, List.take_add, h, Nat.add_comm 2]
      rfl
    obtain ⟨d', ds', h', -, e'⟩ | ⟨none, -⟩ := numberTail_cases (look (octets cs))
    · obtain ⟨-, h'⟩ := List.cons.inj (fraction.symm.trans h')
      obtain ⟨-, rfl⟩ := List.cons.inj h'
      rw [e', e, taken, octets_append, List.length_append, length_octets_cons (by decide),
        length_octets_cons (ascii hd), run_look coarse_isDigit, run_look coarse_isDigit]
      omega
    · exact (none _ _ fraction hd).elim
  · obtain ⟨d, ds, h, hd, -⟩ | ⟨-, e'⟩ := numberTail_cases (look (octets cs))
    · rw [behind] at h
      obtain ⟨es, h', more⟩ := (look_eq_cons (by decide)).1 h
      obtain ⟨es', rfl, -⟩ := (look_eq_cons (ascii hd)).1 more.symm
      exact (none _ _ h' hd).elim
    · rw [e', e]
      exact run_look coarse_isDigit cs

/-- The same kind, and as many octets as the characters have that belong to the token. -/
def Agree (cs : List Char) (x y : TokenKind × Nat) : Prop :=
  x.1 = y.1 ∧ x.2 = (octets (cs.take y.2)).length

theorem stringTail_look (cs : List Char) : Agree cs (stringTail (look (octets cs))) (stringTail cs) := by
  unfold stringTail
  dsimp only
  rw [run_look coarse_string, drop_look]
  generalize run (fun c => c != '"' && c != '\n') cs = body
  by_cases quote : ∃ es, cs.drop body = '"' :: es
  · obtain ⟨es, h⟩ := quote
    have more : cs.take (body + 1) = cs.take body ++ ['"'] := by
      rw [List.take_add, h]
      rfl
    rw [h, look_cons_ascii (by decide)]
    refine ⟨rfl, ?_⟩
    show _ = (octets (cs.take (body + 1))).length
    rw [more, octets_append, List.length_append]
    rfl
  · have none : ∀ es, look (octets (cs.drop body)) ≠ '"' :: es := fun es h => by
      obtain ⟨es', h', -⟩ := (look_eq_cons (by decide)).1 h
      exact quote ⟨es', h'⟩
    split
    next h => exact (none _ h).elim
    next =>
      split
      next h => exact (quote ⟨_, h⟩).elim
      next => exact ⟨rfl, rfl⟩

theorem orEqual_look (two one : Punctuation) (cs : List Char) :
    Agree cs (orEqual two one (look (octets cs))) (orEqual two one cs) := by
  unfold orEqual
  by_cases equal : ∃ es, cs = '=' :: es
  · obtain ⟨es, rfl⟩ := equal
    rw [look_cons_ascii (by decide)]
    exact ⟨rfl, rfl⟩
  · have none : ∀ es, look (octets cs) ≠ '=' :: es := fun es h => by
      obtain ⟨es', h', -⟩ := (look_eq_cons (by decide)).1 h
      exact equal ⟨es', h'⟩
    split
    next h => exact (none _ h).elim
    next =>
      split
      next => exact (equal ⟨_, rfl⟩).elim
      next => exact ⟨rfl, rfl⟩

theorem ascii_of_word {d : Char} (h : isLetter d || isDigit d) : ¬Foreign d := fun foreign => by
  simp [isLetter_foreign d foreign, isDigit_foreign d foreign] at h

/-- A token that starts with a character of ASCII is the same among the octets. -/
theorem munch_look (h : ¬Foreign c) (cs : List Char) :
    Agree cs (munch c (look (octets cs))) (munch c cs) := by
  unfold munch
  split
  · have ascii : ∀ d ∈ cs.take (run (fun d => isLetter d || isDigit d) cs), ¬Foreign d := by
      rw [take_run]
      exact fun d hd => ascii_of_word (List.all_eq_true.1 List.all_takeWhile d hd)
    dsimp only
    rw [run_look coarse_word, take_look, look_ascii_all ascii]
    exact ⟨rfl, rfl⟩
  · split
    · exact ⟨rfl, numberTail_look cs⟩
    · split <;> first | exact ⟨rfl, rfl⟩ | exact orEqual_look _ _ cs | exact stringTail_look cs

/-- No token of the language starts with a character outside of ASCII. -/
theorem munch_foreign (h : Foreign c) (cs : List Char) :
    munch c cs = (.fault .unexpectedCharacter, 0) := by
  unfold munch
  rw [if_neg (by simp [isLetter_foreign c h]), if_neg (by simp [isDigit_foreign c h])]
  split <;> first | rfl | exact absurd h (by decide)

end Munch

section Layout

/-- The layout in front of a text is the same among the octets. -/
theorem layoutFrom_look (comment : Bool) (cs : List Char) : layoutFrom comment (look (octets cs)) =
    (octets (cs.take (layoutFrom comment cs))).length := by
  induction comment, cs using layoutFrom.induct with
  | case1 comment => cases comment <;> rfl
  | case2 cs ih =>
    rw [look_cons_ascii (by decide), layoutFrom, if_pos rfl, layoutFrom, if_pos rfl,
      List.take_succ_cons, length_octets_cons (by decide), ih]
  | case3 c cs hc ih =>
    rw [layoutFrom, if_neg hc, List.take_succ_cons]
    by_cases foreign : Foreign c
    · have none : '\n' ∉ look (String.utf8EncodeChar c) := fun hm =>
        absurd (look_foreign foreign _ hm) (by decide)
      rw [look_cons, layoutFrom_comment none, ih, octets_cons, List.length_append, length_look]
    · rw [look_cons_ascii foreign, layoutFrom, if_neg hc, length_octets_cons foreign, ih]
  | case4 cs ih =>
    rw [look_cons_ascii (by decide), look_cons_ascii (by decide), layoutFrom, layoutFrom,
      List.take_succ_cons, List.take_succ_cons, length_octets_cons (by decide),
      length_octets_cons (by decide), ih]
  | case5 c cs slashes blank ih =>
    have ascii : ¬Foreign c := fun foreign => by simp [isBlank_foreign c foreign] at blank
    have slashes' (es : List Char) (hc : c = '/') (he : look (octets cs) = '/' :: es) : False := by
      obtain ⟨es', h, -⟩ := (look_eq_cons (by decide)).1 he
      exact slashes es' hc h
    rw [look_cons_ascii ascii, layoutFrom_cons slashes', if_pos blank, layoutFrom_cons slashes,
      if_pos blank, List.take_succ_cons, length_octets_cons ascii, ih]
  | case6 c cs slashes blank =>
    rw [layoutFrom_cons slashes, if_neg blank]
    by_cases foreign : Foreign c
    · obtain ⟨d, ds, hd, -, e⟩ := look_cons_foreign foreign
      have slash : d ≠ '/' := ne_of_foreign hd (by decide)
      rw [look_cons, e, List.cons_append, layoutFrom_cons fun _ hc => (slash hc).elim,
        if_neg (by simp [isBlank_foreign d hd])]
      rfl
    · have slashes' (es : List Char) (hc : c = '/') (he : look (octets cs) = '/' :: es) : False := by
        obtain ⟨es', h, -⟩ := (look_eq_cons (by decide)).1 he
        exact slashes es' hc h
      rw [look_cons_ascii foreign, layoutFrom_cons slashes', if_neg blank]
      rfl

end Layout

section Slice

/-- The octets of some characters are a text of their own. -/
theorem slice?_octets (xs ys : List Char) :
    slice? (octets (xs ++ ys)) (octets xs).length = some (String.ofList xs) := by
  rw [slice?, octets_append, List.drop_left, List.take_left, ← octets_append,
    if_pos ⟨aligned_octets _, aligned_octets _⟩, ← toByteArray_ofList, String.fromUTF8?]
  rw [dif_pos (String.ofList xs).isValidUTF8]
  rfl

/-- A newline is one octet, and no octet of another character is the same. -/
theorem count_octets (cs : List Char) : (octets cs).count 10 = cs.count '\n' := by
  have injective : Function.Injective Char.ofUInt8 := fun b b' h => by
    refine UInt8.toNat_inj.1 ?_
    rw [← toNat_ofUInt8, h, toNat_ofUInt8]
  have seen : (octets cs).count 10 = (look (octets cs)).count '\n' :=
    (List.count_map_of_injective _ _ injective 10).symm
  rw [seen]
  clear seen
  induction cs with
  | nil => rfl
  | cons c cs ih =>
    by_cases foreign : Foreign c
    · have none : '\n' ∉ look (String.utf8EncodeChar c) := fun hm =>
        absurd (look_foreign foreign _ hm) (by decide)
      have other : c ≠ '\n' := ne_of_foreign foreign (by decide)
      rw [look_cons, List.count_append, List.count_eq_zero.2 none, ih, List.count_cons_of_ne other,
        Nat.zero_add]
    · rw [look_cons_ascii foreign, List.count_cons, List.count_cons, ih]

theorem skip_octets (xs ys : List Char) (p : Position) :
    Scanner.skip ⟨octets (xs ++ ys), p⟩ (octets xs).length = ⟨octets ys, p.advance xs⟩ := by
  have place : p.advance xs = ⟨p.offset + (octets xs).length, p.line + xs.count '\n'⟩ := by
    rw [← offset_advance, ← Position.line_advance]
  rw [Scanner.skip, octets_append, List.drop_left, List.take_left, count_octets, place]

end Slice

section Next

variable {c : Char} {cs rest : List Char} {p : Position}

/-- A character that no token starts with is taken with all its octets. -/
theorem takeWhile_octets {bs : List UInt8} (h : ∀ x ∈ bs, ¬x.IsUTF8FirstByte) (cs : List Char) :
    (bs ++ octets cs).takeWhile (fun b => ¬b.IsUTF8FirstByte) = bs := by
  rw [List.takeWhile_append_of_pos fun x hx => by simpa using h x hx]
  have aligned := aligned_octets cs
  cases e : octets cs with
  | nil => simp
  | cons b bs' =>
    rw [e] at aligned
    rw [List.takeWhile_cons_of_neg (by simpa using aligned b rfl), List.append_nil]

/-- The first octet of a character and the ones behind tell the kind of its token, and how far it
goes. -/
theorem munch_octets (c : Char) (rest : List Char) : ∃ b bs, octets (c :: rest) = b :: bs ∧
    (munch (Char.ofUInt8 b) (look bs)).1 = (munch c rest).1 ∧
    Scanner.size (munch c rest).1 (munch (Char.ofUInt8 b) (look bs)).2 bs =
      (octets (c :: rest.take (munch c rest).2)).length := by
  obtain ⟨b, bs, e, -, inside⟩ := utf8EncodeChar_eq_cons c
  refine ⟨b, bs ++ octets rest, by rw [octets_cons, e, List.cons_append], ?_⟩
  by_cases foreign : Foreign c
  · have seen : Foreign (Char.ofUInt8 b) := by
      refine look_foreign foreign _ ?_
      rw [e]
      exact List.mem_cons_self
    rw [munch_foreign seen, munch_foreign foreign, Scanner.size, if_pos rfl, takeWhile_octets inside]
    refine ⟨rfl, ?_⟩
    rw [List.take_zero, octets_cons, e]
    simp [octets]
  · have seen := look_ascii foreign
    rw [e] at seen
    obtain ⟨same, none⟩ := List.cons.inj seen
    obtain rfl := List.map_eq_nil_iff.1 none
    rw [same, List.nil_append]
    obtain ⟨kind, tail⟩ := munch_look foreign rest
    refine ⟨kind, ?_⟩
    rw [length_octets_cons foreign, Scanner.size]
    split
    next unexpected =>
      obtain ⟨d, single⟩ := (proper_munch c rest).unexpected unexpected
      have nothing := (List.cons.inj single).2
      have none := takeWhile_octets inside rest
      rw [List.nil_append] at none
      rw [none, nothing]
      rfl
    next => rw [tail]

/-- A token at the start of some octets is the one at the start of the characters. -/
theorem take_octets (c : Char) (rest : List Char) (p : Position) :
    Scanner.take ⟨octets (c :: rest), p⟩ =
      some (⟨(munch c rest).1, String.ofList (c :: rest.take (munch c rest).2), p⟩,
        ⟨octets (rest.drop (munch c rest).2), p.advance (c :: rest.take (munch c rest).2)⟩) := by
  have whole : c :: rest = (c :: rest.take (munch c rest).2) ++ rest.drop (munch c rest).2 := by
    rw [List.cons_append, List.take_append_drop]
  have sliced : slice? (octets (c :: rest)) (octets (c :: rest.take (munch c rest).2)).length =
      some (String.ofList (c :: rest.take (munch c rest).2)) := by
    conv => lhs; rw [whole]
    exact slice?_octets _ _
  have skipped : Scanner.skip ⟨octets (c :: rest), p⟩
      (octets (c :: rest.take (munch c rest).2)).length =
        ⟨octets (rest.drop (munch c rest).2), p.advance (c :: rest.take (munch c rest).2)⟩ := by
    conv => lhs; rw [whole]
    exact skip_octets _ _ p
  obtain ⟨b, bs, e, kind, size⟩ := munch_octets c rest
  rw [← kind] at size
  rw [← size, e] at sliced skipped
  rw [e, Scanner.take]
  dsimp only
  rw [sliced, Option.map_some, skipped, kind]

theorem next_octets (cs : List Char) (p : Position) : Scanner.next ⟨octets cs, p⟩ =
    Scanner.take ⟨octets (cs.drop (layout cs)), p.advance (cs.take (layout cs))⟩ := by
  have size : layout (look (octets cs)) = (octets (cs.take (layout cs))).length :=
    layoutFrom_look false cs
  have skipped := skip_octets (cs.take (layout cs)) (cs.drop (layout cs)) p
  rw [List.take_append_drop] at skipped
  rw [Scanner.next, size, skipped]

theorem next_nil (h : cs.drop (layout cs) = []) (p : Position) :
    Scanner.next ⟨octets cs, p⟩ = some (⟨.eof, "", p.advance cs⟩, ⟨octets [], p.advance cs⟩) := by
  have all := List.take_append_drop (layout cs) cs
  rw [h, List.append_nil] at all
  rw [next_octets, h, all]
  rfl

theorem tokens_succ {s s' : Scanner} {t : Token} (h : s.next = some (t, s')) (n : Nat) :
    s.tokens (n + 1) = (s'.tokens n).map (t :: ·) := by
  rw [Scanner.tokens, h]
  rfl

/-- The end is found again and again. -/
theorem tokens_nil (n : Nat) (p : Position) :
    Scanner.tokens n ⟨octets [], p⟩ = some (List.replicate n ⟨.eof, "", p⟩) := by
  induction n with
  | zero => rfl
  | succ n ih =>
    have again : Scanner.next ⟨octets [], p⟩ = some (⟨.eof, "", p⟩, ⟨octets [], p⟩) := next_nil rfl p
    rw [tokens_succ again, ih]
    rfl

/-- The end of a text at a place. -/
def endAt (p : Position) : Token := ⟨.eof, "", p⟩

theorem take_padded {α : Type} (xs : List α) (x : α) (n : Nat) :
    (xs ++ List.replicate (n + 1) x).take n = (xs ++ List.replicate n x).take n := by
  rw [List.replicate_succ', ← List.append_assoc, List.take_append_of_le_length]
  rw [List.length_append, List.length_replicate]
  omega

/-- The first tokens of a text are found among its octets, and behind them its end. -/
theorem tokens_octets (cs : List Char) (p : Position) : ∀ n, Scanner.tokens n ⟨octets cs, p⟩ =
    some ((scanFrom cs p ++ List.replicate n (endAt (p.advance cs))).take n) := by
  induction cs, p using scanFrom.induct with
  | case1 cs p skipped h =>
    intro n
    have all := List.take_append_drop (layout cs) cs
    rw [h, List.append_nil] at all
    cases n with
    | zero => rfl
    | succ n =>
      rw [tokens_succ (next_nil h p), tokens_nil, scanFrom_nil h, all, List.singleton_append,
        List.take_succ_cons, List.take_replicate, Nat.min_eq_left (Nat.le_succ n)]
      rfl
  | case2 cs p skipped start c rest h kind tail hm lexeme ih =>
    intro n
    cases n with
    | zero => rfl
    | succ n =>
      have found := next_octets cs p
      rw [h, take_octets] at found
      have whole : cs.take (layout cs) ++ ((c :: rest.take (munch c rest).2) ++
          rest.drop (munch c rest).2) = cs := by
        rw [List.cons_append, List.take_append_drop, ← h, List.take_append_drop]
      have place : ((p.advance (cs.take (layout cs))).advance
          (c :: rest.take (munch c rest).2)).advance (rest.drop (munch c rest).2) = p.advance cs := by
        rw [← Position.advance_append, ← Position.advance_append, whole]
      rw [hm] at found place
      rw [tokens_succ found, ih n, place, scanFrom_cons h, hm, List.cons_append,
        List.take_succ_cons, take_padded]
      rfl

end Next

/-- Scanning loses nothing. The tokens of a source and the gaps between them, which are blanks and
comments only, make up the source, and every token tells its place and its line. They are no more
than the octets of the source, each starts behind the one before, and the last one is the end.
Scanning octet by octet finds these tokens and then the end for ever, and no piece of the source is
cut inside a character. -/
theorem scan_lossless (source : String) :
    Covers source.toList .start (scan source) ∧
    (scan source).length ≤ source.utf8ByteSize + 1 ∧
    ((scan source).Pairwise fun t u => t.position.offset < u.position.offset) ∧
    (∀ t ∈ scan source, Placed source t) ∧
    (∃ us, scan source = us ++ [finish source] ∧ ∀ u ∈ us, u.kind ≠ .eof) ∧
    ∀ n, (Scanner.start source).tokens n =
      some ((scan source ++ List.replicate n (finish source)).take n) := by
  have covers := covers_scanFrom source.toList .start
  have size : source.utf8ByteSize = (octets source.toList).length := by
    rw [← utf8ByteSize_ofList, String.ofList_toList]
  refine ⟨covers, ?_, covers.ordered.2, placed_scan source, scan_eq source, fun n => ?_⟩
  · rw [size]
    exact covers.length_le
  · have start : Scanner.start source = ⟨octets source.toList, .start⟩ := by
      rw [Scanner.start]
      conv => lhs; rw [← String.ofList_toList (s := source), toByteArray_ofList]
      rw [List.data_toByteArray]
    have last : finish source = endAt (Position.start.advance source.toList) := by
      rw [advance_start, String.ofList_toList]
      rfl
    rw [start, last]
    exact tokens_octets source.toList .start n

/-- A character that starts no token, and a string that lacks its end, both outside of ASCII. -/
theorem scan_lossless_foreign :
    let source := "é;\n\"ñ // ñ"
    scan source = [⟨.fault .unexpectedCharacter, "é", 0, 1⟩, ⟨.punctuation .semicolon, ";", 2, 1⟩,
      ⟨.fault .unterminatedString, "\"ñ // ñ", 4, 2⟩, ⟨.eof, "", 13, 2⟩] ∧
    Placed source ⟨.fault .unterminatedString, "\"ñ // ñ", 4, 2⟩ ∧
    (Scanner.start source).tokens 5 = some [⟨.fault .unexpectedCharacter, "é", 0, 1⟩,
      ⟨.punctuation .semicolon, ";", 2, 1⟩, ⟨.fault .unterminatedString, "\"ñ // ñ", 4, 2⟩,
      ⟨.eof, "", 13, 2⟩, ⟨.eof, "", 13, 2⟩] := by
  have tokens : scan "é;\n\"ñ // ñ" = [⟨.fault .unexpectedCharacter, "é", 0, 1⟩,
      ⟨.punctuation .semicolon, ";", 2, 1⟩, ⟨.fault .unterminatedString, "\"ñ // ñ", 4, 2⟩,
      ⟨.eof, "", 13, 2⟩] := by
    decide +kernel
  obtain ⟨-, -, -, placed, -, scanned⟩ := scan_lossless "é;\n\"ñ // ñ"
  have found := scanned 5
  rw [tokens] at placed found
  exact ⟨tokens, placed _ (by simp), found⟩

end Lexical
end StackScript
