import StackScript.Proofs.Syntax.Joined
import StackScript.Proofs.Syntax.Spelling

/-!
# StackScript.Proofs.Syntax.Enclosed

A source in braces.

* `enclosed`: the source with a brace in front of it and one on a line behind it.
* `scan_enclosed`: its tokens.
* `parses_enclosed`: its tree is the block of the tree of the source.
-/

namespace StackScript
namespace Syntax

open Lexical (scan scanFrom scanFrom_cons scanFrom_moved scanFrom_nil scanFrom_seam)

/-- A source in braces. The second one is on a line of its own, in case of a comment on the last
line. -/
def enclosed (source : String) : String := "\x7b" ++ source ++ "\n\x7d"

theorem scan_enclosed (source : String) : ∃ l us e vs r e', scan source = us ++ [e] ∧
    e.kind = .eof ∧ scan (enclosed source) = l :: vs ++ [r, e'] ∧
    List.Forall₂ Token.Alike us vs ∧ l.kind = .punctuation .leftBrace ∧
    r.kind = .punctuation .rightBrace ∧ e'.kind = .eof := by
  have text : (enclosed source).toList = '{' :: (source.toList ++ '\n' :: ['}']) := by
    simp [enclosed]
  have first : (enclosed source).toList.drop (Lexical.layout (enclosed source).toList) =
      '{' :: (source.toList ++ '\n' :: ['}']) := by
    rw [text]
    rfl
  have last (p : Position) : ∃ r e, scanFrom ['}'] p = [r, e] ∧
      r.kind = .punctuation .rightBrace ∧ e.kind = .eof :=
    ⟨_, _, (scanFrom_cons rfl).trans (congrArg _ (scanFrom_nil rfl)), rfl, rfl⟩
  let p := (Position.start.advance ((enclosed source).toList.take
    (Lexical.layout (enclosed source).toList))).advance ['{']
  have line : p.line = Position.start.line + 0 := by
    show (Position.advance _ _).line = _
    rw [text]
    rfl
  obtain ⟨vs, f, inner, hf, more⟩ := scanFrom_seam source.toList ['}'] p
  obtain ⟨r, e', behind, hr, he'⟩ := last (p.advance (source.toList ++ ['\n']))
  have moved : List.Forall₂ (Token.Moved 0) (scan source) (vs ++ [f]) :=
    inner ▸ scanFrom_moved line
  have same : List.Forall₂ Token.Alike (scan source) (vs ++ [f]) :=
    moved.imp fun _ _ m => ⟨m.kind, m.lexeme⟩
  obtain ⟨us, es, tokens, front, ends⟩ := forall₂_append_left same.flip
  obtain ⟨e, rfl⟩ : ∃ e, es = [e] := by
    cases ends with
    | cons m rest =>
      cases rest
      exact ⟨_, rfl⟩
  have kind : e.kind = .eof := by
    cases ends with
    | cons m _ => exact m.kind.symm.trans hf
  have whole := (scanFrom_cons first).trans (congrArg _ (more.trans (congrArg _ behind)))
  exact ⟨_, us, e, vs, r, e', tokens, kind, whole, front.flip, rfl, hr, he'⟩

theorem parses_enclosed {source : String} {a : Stmt} (h : Parses source a) :
    Parses (enclosed source) (.seq (.block a) .empty) := by
  obtain ⟨ts, t, tokens, ht, phrase⟩ := h
  obtain ⟨l, us, e, vs, r, e', tokens', he, whole, alike, hl, hr, he'⟩ := scan_enclosed source
  obtain ⟨rfl, rfl⟩ : ts = us ∧ t = e := by simpa using tokens.symm.trans tokens'
  refine ⟨l :: vs ++ [r], e', by simpa using whole, he', ?_⟩
  rw [← List.append_nil (l :: vs ++ [r])]
  exact .more (.statement (.block hl (phrase.alike alike) hr)) .none

end Syntax
end StackScript
