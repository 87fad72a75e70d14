import StackScript.Proofs.Compile.Statement

/-!
# StackScript.Proofs.Compile.Script

A source that compiles has a tree, and becomes the code of that tree.

* `endsOnce_scan`: the tokens of a source end with `eof`.
* `compile_gains`: what compiling leaves on the heap.
* `compile_ok`: what a source becomes that compiles.
-/

namespace StackScript
namespace Compile

open Syntax Instruction

theorem kind_munch_ne_eof (c : Char) (cs : List Char) : (Lexical.munch c cs).1 ≠ .eof := by
  have word (w : List Char) : Lexical.wordKind w ≠ .eof := by
    unfold Lexical.wordKind
    split <;> simp
  have pair (two one : Punctuation) (cs : List Char) : (Lexical.orEqual two one cs).1 ≠ .eof := by
    unfold Lexical.orEqual
    split <;> simp
  have string : (Lexical.stringTail cs).1 ≠ .eof := by
    unfold Lexical.stringTail
    dsimp only
    split <;> simp
  unfold Lexical.munch
  split
  · exact word _
  · split
    · simp
    · split <;> first | exact pair _ _ _ | exact string | simp

theorem EndsOnce.cons {t : Token} {ts : List Token} (ht : t.kind ≠ .eof) (h : EndsOnce ts) :
    EndsOnce (t :: ts) := by
  obtain ⟨us, e, rfl, he, hus⟩ := h
  refine ⟨t :: us, e, rfl, he, fun u hu => ?_⟩
  obtain rfl | hu := List.mem_cons.1 hu
  · exact ht
  · exact hus u hu

theorem endsOnce_scan (source : String) : EndsOnce (Lexical.scan source) := by
  unfold Lexical.scan
  generalize source.toList = cs
  generalize Position.start = p
  induction cs, p using Lexical.scanFrom.induct with
  | case1 cs p skipped h =>
    rw [Lexical.scanFrom]
    split
    next => exact ⟨[], _, rfl, rfl, by simp⟩
    next h' => exact absurd (h.symm.trans h') (by simp)
  | case2 cs p skipped start c rest h kind tail hm lexeme ih =>
    rw [Lexical.scanFrom]
    split
    next h' => exact absurd (h'.symm.trans h) (by simp)
    next c' rest' h' =>
      obtain ⟨rfl, rfl⟩ : c = c' ∧ rest = rest' := by simpa using h.symm.trans h'
      simp only [hm]
      have kind : kind ≠ .eof := by
        have := kind_munch_ne_eof c rest
        rwa [hm] at this
      exact .cons kind ih

theorem runs_declarations {n : Nat} : ∀ {s s' : State} {u : Unit},
    Runs (declarations n) s u s' → Steady s →
    ∃ ts a is s₁, Passes s ts is s₁ ∧ StmtPhrase .declarations ts a ∧
      StmtCode s.context a is s₁.context ∧ s₁.current.kind = .eof ∧
      s' = { s₁ with previous := s₁.current, rest := [] } := by
  induction n with
  | zero => exact fun h => absurd h not_runs_outOfFuel
  | succ n ih =>
    intro s s' u h hs
    rw [declarations] at h
    obtain ⟨b, s₁, h₁, h⟩ := runs_bind h
    by_cases hk : s.current.kind = .eof
    · have rest : s.rest = [] := hs.tokens.eq_singleton hk
      have done : b = true ∧ { s with previous := s.current, rest := [] } = s₁ := by
        unfold accept at h₁
        obtain ⟨b', _, h₂, h₁⟩ := runs_bind h₁
        obtain ⟨rfl, rfl⟩ := runs_check h₂
        rw [if_pos (by simp [hk])] at h₁
        rw [runs_advance_bind] at h₁
        obtain ⟨rfl, e, -⟩ := runs_pure.1 h₁
        refine ⟨rfl, e ▸ ?_⟩
        rw [State.advance, rest]
        rfl
      obtain ⟨rfl, rfl⟩ := done
      obtain ⟨-, rfl, -⟩ := runs_pure.1 h
      exact ⟨[], .empty, [], s, .refl hs, .none, .empty, hk, rfl⟩
    · have more : b = false ∧ s = s₁ := by
        unfold accept at h₁
        obtain ⟨b', _, h₂, h₁⟩ := runs_bind h₁
        obtain ⟨rfl, rfl⟩ := runs_check h₂
        rw [if_neg (by simp [hk])] at h₁
        obtain ⟨rfl, rfl, -⟩ := runs_pure.1 h₁
        exact ⟨rfl, rfl⟩
      obtain ⟨rfl, rfl⟩ := more
      simp only [Bool.false_eq_true, if_false] at h
      obtain ⟨_, s₂, h₂, h⟩ := runs_bind h
      obtain ⟨ts, a, is, p₂, g₂, c₂, -⟩ := (readsStatements n).declaration h₂ hs
      obtain ⟨us, b, js, s₃, p₃, g₃, c₃, hk₃, e₃⟩ := ih h p₂.steady
      exact ⟨_, .seq a b, _, s₃, p₂.trans p₃, .more g₂ g₃, .seq c₂ c₃, hk₃, e₃⟩

theorem runs_script {n : Nat} {source : String} {heap : Heap} {f : Function} {s' : State}
    (h : Runs (script n) (.new (Lexical.scan source) heap) f s') :
    ∃ a, Parses source a ∧ ScriptCode heap a f s'.heap := by
  have ends := endsOnce_scan source
  obtain ⟨_, s₁, h₁, h⟩ := runs_bind h
  obtain ⟨e, he⟩ := runs_modify.1 h₁
  obtain ⟨t, us, hts, take⟩ := take_faultless (s := { State.new (Lexical.scan source) heap with
    previous := (State.new (Lexical.scan source) heap).current }) rfl he ends.ne_nil
  obtain rfl := take.symm.trans e
  have hs : Steady { State.new (Lexical.scan source) heap with
      previous := (State.new (Lexical.scan source) heap).current, current := t, rest := us } :=
    ⟨rfl, rfl, hts ▸ ends, rfl⟩
  obtain ⟨_, s₂, h₂, h⟩ := runs_bind h
  obtain ⟨ts, a, is, s₃, p₃, g₃, c₃, hk, rfl⟩ := runs_declarations h₂ hs
  obtain ⟨p, s₄, h₄, h⟩ := runs_bind h
  obtain ⟨rfl, rfl, -⟩ := runs_pure.1 h
  have hs₃ : Steady { s₃ with previous := s₃.current, rest := [] } :=
    ⟨p₃.steady.errors, p₃.steady.calm, ⟨[], s₃.current, rfl, hk, by simp⟩, p₃.steady.lines⟩
  obtain ⟨lines, hlines, rfl, e₄⟩ := runs_endFunction h₄ hs₃ p₃.code
  have rest : s₃.rest = [] := p₃.steady.tokens.eq_singleton hk
  have heap₄ : s₄.heap = s₃.heap := by rw [e₄]
  refine ⟨a, ⟨ts, s₃.current, ?_, hk, g₃⟩, ?_⟩
  · have tokens : Lexical.scan source = ts ++ s₃.current :: s₃.rest := hts.trans p₃.tokens
    rwa [rest] at tokens
  · rw [heap₄]
    exact .intro c₃ hlines

instance keepScript (n : Nat) : Keeps (script n) := by unfold script; infer_instance

/-- Whatever comes of a source, the heap only gains strings and functions. -/
theorem compile_gains (source : String) (heap : Heap) : heap.Gains (compile source heap).heap := by
  unfold compile compileWithin
  dsimp only
  cases hs : script (budget (Lexical.scan source)) (.new (Lexical.scan source) heap) with
  | none => exact .refl heap
  | some p =>
    obtain ⟨f, s⟩ := p
    have gains : heap.Gains s.heap := (Keeps.later hs).heap
    simp only [Option.map_some, Option.getD_some, Compilation.ofState]
    split
    · exact .function f gains
    · exact gains

/-- A source that compiles has a tree, whose code becomes a function on the heap. -/
theorem compile_ok {source : String} {heap : Heap} {r : Ref}
    (h : (compile source heap).result = .ok r) :
    ∃ a f heap', Parses source a ∧ ScriptCode heap a f heap' ∧
      heap'.allocate (.function f) = ((compile source heap).heap, r) := by
  unfold compile compileWithin at h ⊢
  dsimp only at h ⊢
  cases hs : script (budget (Lexical.scan source)) (.new (Lexical.scan source) heap) with
  | none => simp [hs] at h
  | some p =>
    obtain ⟨f, s⟩ := p
    simp only [hs, Option.map_some, Option.getD_some, Compilation.ofState] at h ⊢
    split at h
    next he =>
      obtain ⟨a, g, c⟩ := runs_script ⟨hs, by simpa using he⟩
      refine ⟨a, f, s.heap, g, c, ?_⟩
      rw [if_pos he]
      simp only [Except.ok.injEq] at h
      simp [← h]
    next => cases h

end Compile
end StackScript
