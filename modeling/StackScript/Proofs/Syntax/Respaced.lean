import StackScript.Proofs.Syntax.Munch

/-!
# StackScript.Proofs.Syntax.Respaced

Tokens with single blanks between them.

* `respaced`: the tokens of a source, one blank between two of them.
* `Word.longest_blank`: no token goes on behind the blank.
* `scan_respaced`: the same tokens are scanned again.
-/

namespace StackScript
namespace Lexical

/-- The tokens of a source with single blanks between them. -/
def respaced (source : String) : String :=
  " ".intercalate ((scan source).dropLast.map Token.lexeme)

section Words

variable {k : TokenKind} {w : List Char}

/-- Only strings have quotes or blanks in them. -/
theorem Word.quoted (h : Word k w) :
    (∃ body, w = '"' :: (body ++ ['"']) ∧ '"' ∉ body) ∨ '"' ∉ w ∧ ' ' ∉ w := by
  have letters {d : Char} (hd : isLetter d || isDigit d) : d ≠ '"' ∧ d ≠ ' ' := by
    constructor <;> (rintro rfl; revert hd; decide)
  have digits {d : Char} (hd : isDigit d) : d ≠ '"' ∧ d ≠ ' ' := letters (by simp [hd])
  have plain {w : List Char} (all : ∀ d ∈ w, d ≠ '"' ∧ d ≠ ' ') : '"' ∉ w ∧ ' ' ∉ w :=
    ⟨fun hd => (all _ hd).1 rfl, fun hd => (all _ hd).2 rfl⟩
  cases h with
  | keyword k => cases k <;> exact .inr (by decide)
  | identifier hc hs _ =>
    refine .inr (plain (List.forall_mem_cons.2 ⟨letters (by simp [hc]), fun d hd => letters (hs d hd)⟩))
  | whole _ hs => exact .inr (plain fun d hd => digits (hs d hd))
  | fraction _ hs _ hf =>
    refine .inr (plain fun d hd => ?_)
    obtain hd | hd := List.mem_append.1 hd
    · exact digits (hs d hd)
    · obtain rfl | hd := List.mem_cons.1 hd
      · decide
      · exact digits (hf d hd)
  | string quote _ => exact .inl ⟨_, rfl, quote⟩
  | operator hp =>
    have all : ∀ q ∈ operators, '"' ∉ q.2.toList ∧ ' ' ∉ q.2.toList := by decide
    exact .inr (all _ hp)

/-- A word begins neither with a blank nor with a comment. -/
theorem Word.starts (h : Word k w) :
    (∀ c ∈ w.head?, isBlank c = false) ∧ ∀ cs, w ≠ '/' :: '/' :: cs := by
  have letter {d : Char} {ds : List Char} (hd : isLetter d || isDigit d) :
      (∀ c ∈ (d :: ds).head?, isBlank c = false) ∧ ∀ cs, d :: ds ≠ '/' :: '/' :: cs := by
    constructor
    · rintro _ ⟨⟩
      by_contra blank
      simp only [Bool.not_eq_false, isBlank, Bool.or_eq_true, beq_iff_eq] at blank
      obtain ((rfl | rfl) | rfl) | rfl := blank <;> revert hd <;> decide
    · rintro cs ⟨⟩
      revert hd
      decide
  cases h with
  | keyword k =>
    obtain ⟨c, cs, e, hc, -⟩ := isLetter_of_keyword k
    rw [e]
    exact letter (by simp [hc])
  | identifier hc _ _ => exact letter (by simp [hc])
  | whole filled hs =>
    obtain ⟨d, ds, rfl⟩ := List.exists_cons_of_ne_nil filled
    exact letter (by simp [hs d])
  | fraction filled hs _ _ =>
    obtain ⟨d, ds, rfl⟩ := List.exists_cons_of_ne_nil filled
    exact letter (by simp [hs d])
  | string => exact ⟨by simp [isBlank], by simp⟩
  | operator hp =>
    have all : ∀ q ∈ operators, q.2.toList.head?.all (!isBlank ·) ∧
        ¬['/', '/'] <+: q.2.toList := by decide
    refine ⟨fun c hc => ?_, fun cs e => (all _ hp).2 ⟨cs, e.symm⟩⟩
    have first := (all _ hp).1
    rw [Option.mem_def.1 hc] at first
    simpa using first

/-- Behind a word and a blank no longer word ends. -/
theorem Word.longest_blank (h : Word k w) (rest : List Char) : Longest IsWord w (' ' :: rest) := by
  refine ⟨⟨k, h⟩, fun v hv ⟨k', hv'⟩ => ?_⟩
  by_contra longer
  have whole : w ++ [' '] <+: v := List.prefix_of_prefix_length_le ⟨rest, by simp⟩ hv
    (by rw [List.length_append, List.length_singleton]; omega)
  have blank : ' ' ∈ v := whole.subset (by simp)
  obtain ⟨body, rfl, quote⟩ | ⟨-, no⟩ := hv'.quoted
  · obtain ⟨c, cs, rfl⟩ := List.exists_cons_of_ne_nil h.ne_nil
    obtain ⟨rfl, inner⟩ := List.cons_prefix_cons.1 whole
    obtain ⟨b, e, -⟩ | ⟨no, -⟩ := h.quoted
    · obtain rfl := (List.cons.inj e).2
      -- the end of the shorter string would be inside the longer one
      have inside : b ++ ['"'] <+: body := List.prefix_of_prefix_length_le
        ((List.prefix_append _ [' ']).trans inner) (List.prefix_append body ['"']) (by
          have shorter : ((b ++ ['"']) ++ [' ']).length ≤ (body ++ ['"']).length := inner.length_le
          simp only [List.length_append, List.length_singleton] at shorter ⊢
          omega)
      exact quote (inside.subset (by simp))
    · exact no List.mem_cons_self
  · exact no blank

/-- In front of a word there is no spacing to skip. -/
theorem Word.longest_nothing (h : Word k w) {rest : List Char} (stop : ∀ c ∈ rest.head?, c = ' ') :
    Longest Spacing [] (w ++ rest) := by
  refine ⟨.nil, fun v hv spacing => ?_⟩
  obtain ⟨c, cs, rfl⟩ := List.exists_cons_of_ne_nil h.ne_nil
  obtain ⟨blank, slashes⟩ := h.starts
  cases spacing with
  | nil => exact Nat.le_refl _
  | blank hc _ =>
    obtain ⟨rfl, -⟩ := List.cons_prefix_cons.1 hv
    exact absurd ((blank _ rfl).symm.trans hc) (by decide)
  | comment =>
    obtain ⟨rfl, inner⟩ := List.cons_prefix_cons.1 hv
    cases cs with
    | nil =>
      cases rest with
      | nil => simp at inner
      | cons d rest =>
        obtain ⟨e, -⟩ := List.cons_prefix_cons.1 inner
        exact absurd (e.trans (stop d rfl)) (by decide)
    | cons d cs =>
      obtain ⟨rfl, -⟩ := List.cons_prefix_cons.1 inner
      exact (slashes cs rfl).elim

end Words

section Joined

variable {ts : List (TokenKind × String)} {cs : List Char}

/-- Words with their kinds. -/
abbrev Words (ws : List (TokenKind × List Char)) : Prop := ∀ p ∈ ws, Word p.1 p.2

/-- The tokens of words. -/
def tokensOf (ws : List (TokenKind × List Char)) : List (TokenKind × String) :=
  ws.map fun p => (p.1, String.ofList p.2)

/-- A text without faults is read as words. -/
theorem Lexes.words (h : Lexes cs ts) (proper : ∀ p ∈ ts, ∀ f, p.1 ≠ .fault f) :
    ∃ ws, Words ws ∧ ts = tokensOf ws ++ [(.eof, "")] := by
  induction h with
  | eof => exact ⟨[], by simp [Words], rfl⟩
  | word _ hk _ _ ih =>
    obtain ⟨ws, hws, rfl⟩ := ih (List.forall_mem_cons.1 proper).2
    exact ⟨(_, _) :: ws, List.forall_mem_cons.2 ⟨hk, hws⟩, rfl⟩
  | unterminated | unexpected => exact ((List.forall_mem_cons.1 proper).1 _ rfl).elim

/-- A blank in front of a text is skipped. -/
theorem Longest.blank {gap rest : List Char} (h : Longest Spacing gap rest) :
    Longest Spacing (' ' :: gap) rest := by
  refine ⟨.blank (by decide) h.holds, fun v hv spacing => ?_⟩
  cases spacing with
  | nil => exact Nat.zero_le _
  | blank _ hs =>
    obtain ⟨-, inner⟩ := List.cons_prefix_cons.1 hv
    exact Nat.succ_le_succ (h.most _ inner hs)
  | comment => exact absurd (List.cons_prefix_cons.1 hv).1 (by decide)

theorem Lexes.blank (h : Lexes cs ts) : Lexes (' ' :: cs) ts := by
  cases h with
  | eof hg => exact .eof (.blank (by decide) hg)
  | word hg hk hw hts => exact .word hg.blank hk hw hts
  | unterminated hg quote line stop hts => exact .unterminated hg.blank quote line stop hts
  | unexpected hg hc none hts => exact .unexpected hg.blank hc none hts

/-- Words with single blanks between them are read as these words. -/
theorem lexes_intercalate {ws : List (TokenKind × List Char)} (h : Words ws) :
    Lexes ([' '].intercalate (ws.map Prod.snd)) (tokensOf ws ++ [(.eof, "")]) := by
  induction ws with
  | nil => exact .eof .nil
  | cons p ws ih =>
    obtain ⟨hp, hws⟩ := List.forall_mem_cons.1 h
    cases ws with
    | nil =>
      have last : Longest IsWord p.2 [] := ⟨⟨_, hp⟩, fun v hv _ => by simpa using hv.length_le⟩
      have read := Lexes.word (hp.longest_nothing (by simp)) hp last (.eof .nil)
      simpa [tokensOf] using read
    | cons q ws =>
      have more := (ih hws).blank
      have read := Lexes.word (hp.longest_nothing (by rintro _ ⟨⟩; rfl)) hp (hp.longest_blank _) more
      simpa [tokensOf] using read

end Joined

theorem scan_respaced {source : String} (h : ∀ t ∈ scan source, ∀ f, t.kind ≠ .fault f) :
    (scan (respaced source)).map bare = (scan source).map bare := by
  have read := (lexes_iff source _).2 rfl
  obtain ⟨ws, hws, tokens⟩ := read.words fun p hp => by
    obtain ⟨t, ht, rfl⟩ := List.mem_map.1 hp
    exact h t ht
  have texts : (respaced source).toList = [' '].intercalate (ws.map Prod.snd) := by
    have lexemes : (scan source).dropLast.map bare = tokensOf ws := by
      rw [List.map_dropLast, tokens, List.dropLast_concat]
    have same : (scan source).dropLast.map (fun t => t.lexeme.toList) = ws.map Prod.snd := by
      have := congrArg (List.map fun p : TokenKind × String => p.2.toList) lexemes
      simpa [tokensOf, bare, Function.comp_def] using this
    rw [respaced, String.toList_intercalate, List.map_map]
    exact congrArg _ same
  rw [tokens]
  refine ((lexes_iff (respaced source) _).1 ?_).symm
  rw [texts]
  exact lexes_intercalate hws

end Lexical
end StackScript
