import StackScript.Proofs.Syntax.Joined

/-!
# StackScript.Proofs.Syntax.Coverage

Scanning loses nothing of a source.

* `Gap`: what may stand between tokens: blanks and comments.
* `Covers`: a text is made of gaps and the lexemes of tokens, which tell where they stand.
* `covers_scanFrom`: the tokens of a text cover it.
* `Placed`: a token is found where its position says.
-/

namespace StackScript
namespace Lexical

/-- Blanks, and comments that a line break ends. The last comment of a source needs none. -/
inductive Gap (last : Prop) : List Char → Prop where
  | nil : Gap last []
  | blank {c : Char} {cs : List Char} : isBlank c → Gap last cs → Gap last (c :: cs)
  | comment {text cs : List Char} : '\n' ∉ text → Gap last cs →
      Gap last ('/' :: '/' :: (text ++ '\n' :: cs))
  | lastComment {text : List Char} : last → '\n' ∉ text → Gap last ('/' :: '/' :: text)

/-- What the characters of a token are, given those behind it. -/
structure Proper (kind : TokenKind) (lexeme rest : List Char) : Prop where
  filled : lexeme ≠ []
  notEnd : kind ≠ .eof
  unexpected : kind = .fault .unexpectedCharacter → ∃ c, lexeme = [c]
  /-- A string without its end runs up to the end of the line or of the source. -/
  unterminated : kind = .fault .unterminatedString → ∃ body, lexeme = '"' :: body ∧ '"' ∉ body ∧
    '\n' ∉ body ∧ (rest = [] ∨ ∃ after, rest = '\n' :: after)

/-- A text that starts at a position is made of the lexemes of tokens and the gaps around them. -/
inductive Covers : List Char → Position → List Token → Prop where
  | eof {gap : List Char} {p : Position} : Gap True gap → Covers gap p [⟨.eof, "", p.advance gap⟩]
  | token {gap lexeme rest : List Char} {p : Position} {kind : TokenKind} {ts : List Token} :
      Gap False gap → Proper kind lexeme rest → Covers rest (p.advance (gap ++ lexeme)) ts →
      Covers (gap ++ (lexeme ++ rest)) p (⟨kind, String.ofList lexeme, p.advance gap⟩ :: ts)

/-- A comment runs over everything but line breaks. -/
theorem layoutFrom_comment {xs : List Char} (h : '\n' ∉ xs) (ys : List Char) :
    layoutFrom true (xs ++ ys) = xs.length + layoutFrom true ys := by
  induction xs with
  | nil => simp
  | cons x xs ih =>
    rw [List.mem_cons, not_or] at h
    rw [List.cons_append, layoutFrom, if_neg (Ne.symm h.1), ih h.2, List.length_cons]
    omega

/-- Layout is a gap. A comment is followed from the inside, behind what was read of it so far. -/
theorem gap_layoutFrom (comment : Bool) (cs : List Char) :
    (comment = false →
      Gap (cs.drop (layoutFrom comment cs) = []) (cs.take (layoutFrom comment cs))) ∧
    (comment = true → ∀ text, '\n' ∉ text → Gap (cs.drop (layoutFrom comment cs) = [])
      ('/' :: '/' :: (text ++ cs.take (layoutFrom comment cs)))) := by
  induction comment, cs using layoutFrom.induct with
  | case1 comment =>
    refine ⟨fun _ => ?_, fun _ text none => ?_⟩
    · rw [List.take_nil]
      exact .nil
    · rw [List.take_nil, List.append_nil]
      exact .lastComment (List.drop_nil) none
  | case2 cs ih =>
    refine ⟨(fun h => by cases h), fun _ text none => ?_⟩
    rw [layoutFrom, if_pos rfl, List.drop_succ_cons, List.take_succ_cons]
    exact .comment none (ih.1 rfl)
  | case3 c cs hc ih =>
    refine ⟨(fun h => by cases h), fun _ text none => ?_⟩
    rw [layoutFrom, if_neg hc, List.drop_succ_cons, List.take_succ_cons]
    have more := ih.2 rfl (text ++ [c]) (by simpa [none] using Ne.symm hc)
    rwa [List.append_assoc] at more
  | case4 cs ih =>
    refine ⟨fun _ => ?_, fun h => by cases h⟩
    rw [layoutFrom, List.drop_succ_cons, List.drop_succ_cons, List.take_succ_cons,
      List.take_succ_cons]
    exact ih.2 rfl [] (List.not_mem_nil)
  | case5 c cs slashes blank ih =>
    refine ⟨fun _ => ?_, fun h => by cases h⟩
    rw [layoutFrom_cons slashes, if_pos blank, List.drop_succ_cons, List.take_succ_cons]
    exact .blank blank (ih.1 rfl)
  | case6 c cs slashes blank =>
    refine ⟨fun _ => ?_, fun h => by cases h⟩
    rw [layoutFrom_cons slashes, if_neg blank]
    exact .nil

theorem Gap.imp {p q : Prop} {cs : List Char} (h : p → q) (g : Gap p cs) : Gap q cs := by
  induction g with
  | nil => exact .nil
  | blank hc _ ih => exact .blank hc ih
  | comment none _ ih => exact .comment none ih
  | lastComment last none => exact .lastComment (h last) none

theorem gap_layout (cs : List Char) : Gap (cs.drop (layout cs) = []) (cs.take (layout cs)) :=
  (gap_layoutFrom false cs).1 rfl

theorem take_run (p : Char → Bool) (cs : List Char) : cs.take (run p cs) = cs.takeWhile p :=
  (List.prefix_iff_eq_take.1 (List.takeWhile_prefix p)).symm

theorem drop_run (p : Char → Bool) (cs : List Char) : cs.drop (run p cs) = cs.dropWhile p := by
  have whole : cs.take (run p cs) ++ cs.drop (run p cs) = cs.takeWhile p ++ cs.dropWhile p := by
    rw [List.take_append_drop, List.takeWhile_append_dropWhile]
  rw [take_run] at whole
  exact List.append_cancel_left whole

/-- The first character behind a run is not one of it. -/
theorem drop_run_cons {p : Char → Bool} {c : Char} {cs rest : List Char}
    (h : cs.drop (run p cs) = c :: rest) : p c = false := by
  rw [drop_run] at h
  have filled : cs.dropWhile p ≠ [] := by
    rw [h]
    exact List.cons_ne_nil c rest
  have no := List.head_dropWhile_not p filled
  simpa only [h, List.head_cons] using no

section Munch

variable {c : Char} {cs : List Char}

/-- What a string without its end is made of, and what stands behind it. -/
theorem stringTail_unterminated (h : (stringTail cs).1 = .fault .unterminatedString) :
    '"' ∉ cs.take (stringTail cs).2 ∧ '\n' ∉ cs.take (stringTail cs).2 ∧
      (cs.drop (stringTail cs).2 = [] ∨ ∃ after, cs.drop (stringTail cs).2 = '\n' :: after) := by
  unfold stringTail at h ⊢
  dsimp only at h ⊢
  split at h
  next => cases h
  next open_ =>
    have body (d : Char) (hd : d ∈ cs.takeWhile fun c => c != '"' && c != '\n') :
        d ≠ '"' ∧ d ≠ '\n' := by
      simpa using List.all_eq_true.1 List.all_takeWhile d hd
    rw [take_run]
    refine ⟨fun hm => (body _ hm).1 rfl, fun hm => (body _ hm).2 rfl, ?_⟩
    cases hd : cs.drop (run (fun c => c != '"' && c != '\n') cs) with
    | nil => exact .inl rfl
    | cons d rest =>
      have ends := drop_run_cons hd
      by_cases quote : d = '"'
      · exact (open_ rest (quote ▸ hd)).elim
      · have newline : d = '\n' := by simpa [quote] using ends
        exact .inr ⟨rest, by rw [newline]⟩

theorem kind_wordKind (word : List Char) :
    wordKind word = .identifier ∨ ∃ k, wordKind word = .keyword k := by
  unfold wordKind
  split
  next k _ => exact .inr ⟨k, rfl⟩
  next => exact .inl rfl

theorem kind_orEqual (two one : Punctuation) (cs : List Char) :
    ∃ p, (orEqual two one cs).1 = .punctuation p := by
  unfold orEqual
  split
  · exact ⟨two, rfl⟩
  · exact ⟨one, rfl⟩

theorem kind_stringTail (cs : List Char) : (stringTail cs).1 = .string ∨
    (stringTail cs).1 = .fault .unterminatedString := by
  unfold stringTail
  dsimp only
  split
  · exact .inl rfl
  · exact .inr rfl

theorem proper_munch (c : Char) (cs : List Char) : Proper (munch c cs).1
    (c :: cs.take (munch c cs).2) (cs.drop (munch c cs).2) := by
  have plain {c : Char} {kind : TokenKind} {tail : Nat} (h : kind ≠ .eof)
      (fault : ∀ f, kind ≠ .fault f) : Proper kind (c :: cs.take tail) (cs.drop tail) :=
    ⟨by simp, h, fun e => (fault _ e).elim, fun e => (fault _ e).elim⟩
  have pair {c : Char} (two one : Punctuation) : Proper (orEqual two one cs).1
      (c :: cs.take (orEqual two one cs).2) (cs.drop (orEqual two one cs).2) := by
    obtain ⟨p, e⟩ := kind_orEqual two one cs
    exact plain (by simp [e]) (by simp [e])
  have string : Proper (stringTail cs).1 ('"' :: cs.take (stringTail cs).2)
      (cs.drop (stringTail cs).2) := by
    refine ⟨by simp, ?_, ?_, fun h => ⟨_, rfl, stringTail_unterminated h⟩⟩ <;>
      obtain e | e := kind_stringTail cs <;> simp [e]
  have unexpected : Proper (.fault .unexpectedCharacter) (c :: cs.take 0) (cs.drop 0) :=
    ⟨by simp, nofun, fun _ => ⟨c, rfl⟩, nofun⟩
  unfold munch
  split
  · dsimp only
    obtain e | ⟨k, e⟩ := kind_wordKind (c :: cs.take (run (fun d => isLetter d || isDigit d) cs)) <;>
      exact plain (by simp [e]) (by simp [e])
  · split
    · exact plain (by simp) (by simp)
    · split <;> first | exact pair _ _ | exact string | exact unexpected | exact plain (by simp) (by simp)

/-- A string ends with a quote. -/
theorem quotes_stringTail (h : (stringTail cs).1 = .string) :
    ∃ body, cs.take (stringTail cs).2 = body ++ ['"'] := by
  unfold stringTail at h ⊢
  dsimp only at h ⊢
  split at h
  next after hd =>
    refine ⟨cs.take (run (fun c => c != '"' && c != '\n') cs), ?_⟩
    rw [List.take_add, hd]
    rfl
  next => cases h

theorem quotes_munch (h : (munch c cs).1 = .string) :
    c = '"' ∧ ∃ body, cs.take (munch c cs).2 = body ++ ['"'] := by
  have pair (two one : Punctuation) : (orEqual two one cs).1 ≠ .string := by
    obtain ⟨p, e⟩ := kind_orEqual two one cs
    simp [e]
  unfold munch at h ⊢
  split at h
  next =>
    obtain e | ⟨k, e⟩ := kind_wordKind (c :: cs.take (run (fun d => isLetter d || isDigit d) cs)) <;>
      simp [e] at h
  next letter =>
    split at h
    next => cases h
    next digit =>
      rw [if_neg letter, if_neg digit]
      split at h <;> first
        | cases h
        | exact absurd h (pair _ _)
        | exact ⟨rfl, quotes_stringTail h⟩

end Munch

/-- A string is written between quotes. -/
theorem quotes_scanFrom (cs : List Char) (p : Position) : ∀ t ∈ scanFrom cs p, t.kind = .string →
    ∃ body, t.lexeme = String.ofList ('"' :: (body ++ ['"'])) := by
  induction cs, p using scanFrom.induct with
  | case1 cs p skipped h =>
    rw [scanFrom_nil h]
    intro t ht kind
    obtain rfl := List.mem_singleton.1 ht
    cases kind
  | case2 cs p skipped start c rest h kind tail hm lexeme ih =>
    rw [scanFrom_cons h]
    refine List.forall_mem_cons.2 ⟨fun string => ?_, hm ▸ ih⟩
    obtain ⟨rfl, body, e⟩ := quotes_munch string
    exact ⟨body, by rw [e]⟩

/-- The tokens of a text cover it. -/
theorem covers_scanFrom (cs : List Char) (p : Position) : Covers cs p (scanFrom cs p) := by
  induction cs, p using scanFrom.induct with
  | case1 cs p skipped h =>
    have gap := gap_layout cs
    have whole := List.take_append_drop (layout cs) cs
    rw [h, List.append_nil] at whole
    rw [scanFrom_nil h]
    rw [whole] at gap ⊢
    exact .eof (gap.imp fun _ => trivial)
  | case2 cs p skipped start c rest h kind tail hm lexeme ih =>
    have gap : Gap False (cs.take (layout cs)) := (gap_layout cs).imp fun none => by
      rw [h] at none
      cases none
    have proper := proper_munch c rest
    rw [scanFrom_cons h]
    rw [hm] at proper ⊢
    have whole : cs.take (layout cs) ++ ((c :: rest.take tail) ++ rest.drop tail) = cs := by
      rw [List.cons_append, List.take_append_drop, ← h, List.take_append_drop]
    have covers := Covers.token (p := p) gap proper (by rw [Position.advance_append]; exact ih)
    rwa [whole] at covers

/-- The octets of a text. -/
def octets (cs : List Char) : List UInt8 := cs.flatMap String.utf8EncodeChar

theorem octets_cons (c : Char) (cs : List Char) :
    octets (c :: cs) = String.utf8EncodeChar c ++ octets cs := List.flatMap_cons

theorem octets_append (xs ys : List Char) : octets (xs ++ ys) = octets xs ++ octets ys :=
  List.flatMap_append

theorem toByteArray_ofList (cs : List Char) :
    (String.ofList cs).toByteArray = (octets cs).toByteArray := rfl

theorem utf8ByteSize_ofList (cs : List Char) :
    (String.ofList cs).utf8ByteSize = (octets cs).length := by
  rw [← String.size_toByteArray, toByteArray_ofList, List.size_toByteArray]

theorem length_octets_pos {cs : List Char} (h : cs ≠ []) : 0 < (octets cs).length := by
  cases cs with
  | nil => exact absurd rfl h
  | cons c cs =>
    rw [octets_cons, List.length_append, String.length_utf8EncodeChar]
    have := c.utf8Size_pos
    omega

theorem offset_advance (text : List Char) : ∀ p : Position,
    (p.advance text).offset = p.offset + (octets text).length := by
  induction text with
  | nil => exact fun p => rfl
  | cons c cs ih =>
    intro p
    have first : (p.advance (c :: cs)).offset = (p.next c).offset + (octets cs).length := ih (p.next c)
    have next : (p.next c).offset = p.offset + c.utf8Size := rfl
    rw [first, octets_cons, List.length_append, String.length_utf8EncodeChar, next, Nat.add_assoc]

namespace Covers

variable {cs : List Char} {p : Position} {ts : List Token}

/-- A token is where its position says. -/
theorem placed (h : Covers cs p ts) : ∀ t ∈ ts, ∃ before after,
    cs = before ++ (t.lexeme.toList ++ after) ∧ t.position = p.advance before := by
  induction h with
  | @eof gap p =>
    intro t ht
    obtain rfl := List.mem_singleton.1 ht
    exact ⟨gap, [], by simp, rfl⟩
  | @token gap lexeme rest p kind ts _ _ _ ih =>
    intro t ht
    obtain rfl | ht := List.mem_cons.1 ht
    · exact ⟨gap, rest, by simp, rfl⟩
    · obtain ⟨before, after, e, place⟩ := ih t ht
      refine ⟨gap ++ lexeme ++ before, after, ?_, ?_⟩
      · rw [e, List.append_assoc, List.append_assoc]
      · rw [place, ← Position.advance_append]

/-- Every token starts behind the one before. -/
theorem ordered (h : Covers cs p ts) : (∀ t ∈ ts, p.offset ≤ t.position.offset) ∧
    ts.Pairwise fun t u => t.position.offset < u.position.offset := by
  induction h with
  | eof =>
    refine ⟨fun t ht => ?_, List.pairwise_singleton ..⟩
    obtain rfl := List.mem_singleton.1 ht
    rw [offset_advance]
    exact Nat.le_add_right ..
  | token _ proper _ ih =>
    obtain ⟨least, later⟩ := ih
    have filled := length_octets_pos proper.filled
    simp only [offset_advance, octets_append, List.length_append] at least
    refine ⟨fun t ht => ?_, List.pairwise_cons.2 ⟨fun t ht => ?_, later⟩⟩
    · obtain rfl | ht := List.mem_cons.1 ht
      · simp only [offset_advance]
        omega
      · have := least t ht
        omega
    · have := least t ht
      simp only [offset_advance]
      omega

/-- There is no more than one token for each octet, apart from the end. -/
theorem length_le (h : Covers cs p ts) : ts.length ≤ (octets cs).length + 1 := by
  induction h with
  | eof => exact Nat.le_add_left ..
  | token _ proper _ ih =>
    have filled := length_octets_pos proper.filled
    simp only [List.length_cons, octets_append, List.length_append]
    omega

/-- The last token is the end of the text, and no other one is. -/
theorem ends (h : Covers cs p ts) : ∃ us, ts = us ++ [⟨.eof, "", p.advance cs⟩] ∧
    ∀ u ∈ us, u.kind ≠ .eof := by
  induction h with
  | eof => exact ⟨[], rfl, by simp⟩
  | @token gap lexeme rest p kind ts _ proper _ ih =>
    obtain ⟨us, rfl, no⟩ := ih
    refine ⟨⟨kind, String.ofList lexeme, p.advance gap⟩ :: us, ?_, fun u hu => ?_⟩
    · rw [List.cons_append, ← List.append_assoc gap, ← Position.advance_append]
    · obtain rfl | hu := List.mem_cons.1 hu
      · exact proper.notEnd
      · exact no u hu

end Covers

/-- The end of a source. -/
def finish (source : String) : Token :=
  ⟨.eof, "", source.utf8ByteSize, source.toList.count '\n' + 1⟩

/-- The text of a token is in the source where its position says. -/
def Placed (source : String) (t : Token) : Prop := ∃ before after : String,
  source = before ++ (t.lexeme ++ after) ∧ t.position.offset = before.utf8ByteSize ∧
    t.position.line = before.toList.count '\n' + 1

theorem advance_start (text : List Char) : Position.start.advance text =
    ⟨(String.ofList text).utf8ByteSize, text.count '\n' + 1⟩ := by
  have offset := offset_advance text .start
  have line := Position.line_advance text .start
  rw [utf8ByteSize_ofList]
  cases he : Position.start.advance text with
  | mk o l =>
    rw [he] at offset line
    simp only [Position.start] at offset line
    rw [offset, line, Nat.zero_add, Nat.add_comm]

theorem placed_scan (source : String) : ∀ t ∈ scan source, Placed source t := by
  intro t ht
  obtain ⟨before, after, e, place⟩ := (covers_scanFrom source.toList .start).placed t ht
  refine ⟨String.ofList before, String.ofList after, ?_, ?_, ?_⟩
  · rw [← String.toList_inj]
    simpa using e
  · rw [place, advance_start]
  · rw [place, advance_start, String.toList_ofList]

theorem scan_eq (source : String) : ∃ us, scan source = us ++ [finish source] ∧
    ∀ u ∈ us, u.kind ≠ .eof := by
  obtain ⟨us, e, no⟩ := (covers_scanFrom source.toList .start).ends
  refine ⟨us, e.trans ?_, no⟩
  rw [advance_start, String.ofList_toList]
  rfl

end Lexical
end StackScript
