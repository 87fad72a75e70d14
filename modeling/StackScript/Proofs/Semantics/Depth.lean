import StackScript.Proofs.Machine.Frugal
import StackScript.Proofs.Semantics.Outcome
import StackScript.Proofs.Syntax.Spelling

/-!
# StackScript.Proofs.Semantics.Depth

A script that comes to a statement when all places of the stack are taken.

* `Halts`: an evaluation is halted for a certain reason.
* `plunge`: a function that calls itself, with more and more arguments on the stack, before it does
  what it is there for. `halts_plunge`: a statement that is halted with all places taken halts it.
* `plunged`: its text. `phrase_plunge`: the text is that of `plunge`.
* `Sourced.of_opened`: a new machine does not run out of handles if the code of a source is frugal.
-/

namespace StackScript
namespace Semantics

open Machine
open Syntax (Alike Expr Exprs Stmt)

/-- An evaluation is halted for a certain reason. -/
def Halts {α : Type} (Q : Halt → Prop) (r : Option (Except Halt α × Store)) : Prop :=
  ∃ halt s, r = some (.error halt, s) ∧ Q halt

section Halts

variable {α β : Type} {Q : Halt → Prop} {s s' : Store} {x : Eval α} {f : α → Eval β}
  {call : Site → Val → List Val → Eval Val} {σ : Site} {v : Val} {e : Expr} {es : Exprs}
  {name : String} {c : Nat}

theorem Halts.bind (h : Halts Q (x s)) : Halts Q ((x >>= f) s) := by
  obtain ⟨halt, s', e, q⟩ := h
  rw [bind_apply, e]
  exact ⟨halt, s', rfl, q⟩

theorem bind_of_ok {a : α} (e : x s = some (.ok a, s')) : (x >>= f) s = f a s' := by
  rw [bind_apply, e]

theorem Halts.after {a : α} (e : x s = some (.ok a, s')) (h : Halts Q (f a s')) :
    Halts Q ((x >>= f) s) := by
  rwa [bind_of_ok e]

theorem put_room (room : σ.height < stackLimit) (v : Val) :
    put machineLimits σ v s = some (.ok v, s) := by
  have all : machineLimits.places.all (σ.height < ·) = true := decide_eq_true room
  rw [put, if_pos all]
  rfl

theorem put_full (full : ¬σ.height < stackLimit) (v : Val) :
    put machineLimits σ v s = some (.error (.full σ.calls), s) := by
  have all : ¬machineLimits.places.all (σ.height < ·) = true :=
    fun room => full (of_decide_eq_true room)
  rw [put, if_neg all]
  rfl

theorem expr_local (room : σ.height < stackLimit) (h : σ.env.lookup name = some c) :
    expr machineLimits call σ (.get name) s = some (.ok (s.cell c), s) := by
  rw [expr, bind_apply, read_local h]
  exact put_room room _

theorem expr_global (room : σ.height < stackLimit) (h : σ.env.lookup name = none)
    (hv : s.globals name = some v) :
    expr machineLimits call σ (.get name) s = some (.ok v, s) := by
  rw [expr, bind_apply, read_global h hv]
  exact put_room room _

theorem expr_binary (op : Compile.BinaryOperator) {x : Float} (room : σ.height + 1 < stackLimit)
    (h : σ.env.lookup name = some c) :
    expr machineLimits call σ (.binary op (.get name) (.number x)) s =
      σ.lift (applyBinary op (s.cell c) (.number x)) s := by
  have number : expr machineLimits call σ.up (.number x) s = some (.ok (.number x), s) := by
    rw [expr]
    exact put_room room _
  rw [expr, bind_of_ok (expr_local (Nat.lt_of_succ_lt room) h), bind_of_ok number]

/-- Some arguments that are the same. -/
def copies (e : Expr) : Nat → Exprs → Exprs
  | 0, es => es
  | k + 1, es => .cons e (copies e k es)

/-- Arguments take their places on the stack until one of them is halted. -/
theorem Halts.copies (k : Nat) : ∀ {height : Nat}, height + k ≤ stackLimit →
    (∀ height < stackLimit, expr machineLimits call { σ with height } e s = some (.ok v, s)) →
    Halts Q (exprs machineLimits call { σ with height := height + k } es s) →
    Halts Q (exprs machineLimits call { σ with height } (copies e k es) s) := by
  induction k with
  | zero => exact fun _ _ h => h
  | succ k ih =>
    intro height room same h
    rw [Semantics.copies, exprs]
    refine .after (same height (by omega)) (.bind (@ih (height + 1) (by omega) same ?_))
    rwa [Nat.add_assoc, Nat.add_comm 1]

theorem Halts.first (h : Halts Q (expr machineLimits call σ e s)) :
    Halts Q (exprs machineLimits call σ (.cons e es) s) := by
  rw [exprs]
  exact .bind h

theorem Halts.arguments {f : Expr} (hf : expr machineLimits call σ f s = some (.ok v, s))
    (h : Halts Q (exprs machineLimits call σ.up es s)) :
    Halts Q (expr machineLimits call σ (.call f es) s) := by
  rw [expr]
  exact .after hf (.bind h)

end Halts

/-- `f(n - 1)`, at the end of so many arguments that all places are taken at the 63rd call. -/
def deeper : Expr :=
  .call (.get "max") (copies (.get "n") 254 (.cons (.call (.get "max") (copies (.get "n") 6
    (.cons (.call (.get "f")
      (.cons (.binary .subtract (.get "n") (.number (Numeral.ofLiteral "1"))) .nil)) .nil))) .nil))

/-- The body of a function with a parameter `n`, which comes to a statement when that is zero. -/
def depths (bottom : Stmt) : Stmt :=
  .seq (.ifElse (.binary .equal (.get "n") (.number (Numeral.ofLiteral "0")))
    (.block (.seq (.var "a" .nil) (.seq (.var "b" .nil) (.seq bottom .empty)))) .empty)
  (.seq (.expression deeper) .empty)

/-- A script that calls the function. -/
def plunge (bottom : Stmt) : Stmt :=
  .seq (.function "f" ["n"] (depths bottom)) (.seq (.expression
    (.call (.get "max") (copies .nil 10 (.cons
      (.call (.get "f") (.cons (.number (Numeral.ofLiteral "62")) .nil)) .nil)))) .empty)

theorem alike_plunge {endless : Prop} {bottom bottom' : Stmt} (h : Alike endless bottom bottom') :
    Alike endless (plunge bottom) (plunge bottom') :=
  have last := Alike.block (.seq (.var "a" .nil) (.seq (.var "b" .nil) (.seq h .empty)))
  .seq (.function _ _ (.seq (.ifElse _ last .empty rfl rfl) (.seq (.expression _) .empty)))
    (.seq (.expression _) .empty)

/-- The argument of a call. -/
def argument : Nat → Float
  | 0 => Numeral.ofLiteral "62"
  | j + 1 => argument j - Numeral.ofLiteral "1"

theorem argument_ne : ∀ j < 62, (argument j == Numeral.ofLiteral "0") = false := by
  decide +kernel

theorem argument_eq : (argument 62 == Numeral.ofLiteral "0") = true := by
  decide +kernel

/-- A statement that is halted where all places are taken. -/
def Bottoms (bottom : Stmt) (Q : Halt → Prop) : Prop :=
  ∀ (n : Nat) (call : Site → Val → List Val → Eval Val) (σ : Site) (s : Store),
    σ.height = stackLimit → σ.env.lookup "x" = none → s.globals "x" = none →
    Halts Q (stmt machineLimits call (n + 1) σ bottom s)

/-- The function is there, and no variable `x`. -/
structure Ready (bottom : Stmt) (s : Store) : Prop where
  closure : s.closures[0]? = some ⟨"f", ["n"], depths bottom, []⟩
  function : s.globals "f" = some (.closure 0)
  native : s.globals "max" = some (.native .greatest)
  absent : s.globals "x" = none

section Plunge

variable {bottom : Stmt} {Q : Halt → Prop} {s : Store} {σ : Site}

theorem Ready.newCell (r : Ready bottom s) (v : Val) :
    Ready bottom { s with cells := s.cells.push v } :=
  ⟨r.closure, r.function, r.native, r.absent⟩

theorem cell_push (s : Store) (v : Val) :
    ({ s with cells := s.cells.push v } : Store).cell s.cells.size = v := by
  simp [Store.cell]

/-- Each call but the last one ends in the next one. -/
theorem halts_deeper (call : Site → Val → List Val → Eval Val) {x : Float} {c : Nat}
    (r : Ready bottom s) (hn : σ.env = [("n", c)]) (hx : s.cell c = .number x)
    (room : σ.height + 265 ≤ stackLimit)
    (h : Halts Q (call { σ with height := σ.height + 262 } (.closure 0)
      [.number (x - Numeral.ofLiteral "1")] s)) :
    Halts Q (expr machineLimits call σ deeper s) := by
  have own (height : Nat) (room : height < stackLimit) :
      expr machineLimits call { σ with height } (.get "n") s = some (.ok (.number x), s) := by
    rw [← hx]
    exact expr_local room (by rw [hn]; rfl)
  have native (height : Nat) (room : height < stackLimit) :
      expr machineLimits call { σ with height } (.get "max") s =
        some (.ok (.native .greatest), s) :=
    expr_global room (by rw [hn]; rfl) r.native
  have function : expr machineLimits call { σ with height := σ.height + 262 } (.get "f") s =
      some (.ok (.closure 0), s) :=
    expr_global (show σ.height + 262 < stackLimit by omega) (by rw [hn]; rfl) r.function
  have less : exprs machineLimits call { σ with height := σ.height + 263 }
      (.cons (.binary .subtract (.get "n") (.number (Numeral.ofLiteral "1"))) .nil) s =
      some (.ok [.number (x - Numeral.ofLiteral "1")], s) := by
    have difference : expr machineLimits call { σ with height := σ.height + 263 }
        (.binary .subtract (.get "n") (.number (Numeral.ofLiteral "1"))) s =
        some (.ok (.number (x - Numeral.ofLiteral "1")), s) := by
      rw [expr_binary _ (show σ.height + 263 + 1 < stackLimit by omega) (by rw [hn]; rfl), hx]
      rfl
    rw [exprs, bind_of_ok difference]
    rfl
  refine .arguments (native σ.height (by omega)) ?_
  refine .copies 254 (by omega) own (.first ?_)
  refine .arguments (native (σ.height + 255) (by omega)) ?_
  show Halts Q (exprs machineLimits call { σ with height := σ.height + 256 } _ s)
  refine .copies 6 (by omega) own (.first ?_)
  rw [expr]
  exact .after function (.after less h)

theorem holds_zero (call : Site → Val → List Val → Eval Val) {x : Float} {c : Nat}
    (hn : σ.env = [("n", c)]) (hx : s.cell c = .number x) (room : σ.height + 1 < stackLimit) :
    holds machineLimits call σ
      (some (.binary .equal (.get "n") (.number (Numeral.ofLiteral "0")))) s =
      some (.ok (x == Numeral.ofLiteral "0"), s) := by
  have equal : expr machineLimits call σ
      (.binary .equal (.get "n") (.number (Numeral.ofLiteral "0"))) s =
      some (.ok (.bool (x == Numeral.ofLiteral "0")), s) := by
    rw [expr_binary _ room (by rw [hn]; rfl), hx]
    rfl
  rw [holds, bind_of_ok equal]
  show some (Except.ok !!(x == Numeral.ofLiteral "0"), s) = _
  rw [Bool.not_not]

/-- The body of the function, in a call that is not the last one. -/
theorem halts_depths (call : Site → Val → List Val → Eval Val) (n : Nat) {x : Float} {c : Nat}
    (r : Ready bottom s) (hn : σ.env = [("n", c)]) (hx : s.cell c = .number x)
    (more : (x == Numeral.ofLiteral "0") = false) (room : σ.height + 265 ≤ stackLimit)
    (h : Halts Q (call { σ with height := σ.height + 262 } (.closure 0)
      [.number (x - Numeral.ofLiteral "1")] s)) :
    Halts Q (stmt machineLimits call n σ (depths bottom) s) := by
  have on : stmt machineLimits call n σ (.ifElse (.binary .equal (.get "n")
      (.number (Numeral.ofLiteral "0"))) (.block (.seq (.var "a" .nil) (.seq (.var "b" .nil)
        (.seq bottom .empty)))) .empty) s = some (.ok (.next σ), s) := by
    rw [stmt, bind_of_ok (holds_zero call hn hx (by omega)), more]
    rfl
  rw [depths, stmt, bind_of_ok on]
  dsimp only
  rw [stmt, stmt]
  exact .bind (.bind (halts_deeper call r hn hx room h))

/-- The body of the function in the last call. -/
theorem halts_bottom (call : Site → Val → List Val → Eval Val) (n : Nat) {x : Float} {c : Nat}
    (bottoms : Bottoms bottom Q) (r : Ready bottom s) (hn : σ.env = [("n", c)])
    (hx : s.cell c = .number x) (last : (x == Numeral.ofLiteral "0") = true)
    (room : σ.height + 2 = stackLimit) :
    Halts Q (stmt machineLimits call (n + 1) σ (depths bottom) s) := by
  have declares (name : String) {σ : Site} {s : Store} (room : σ.height < stackLimit)
      (nested : σ.nested = true) : stmt machineLimits call (n + 1) σ (.var name .nil) s =
        some (.ok (.next { σ.up with env := (name, s.cells.size) :: σ.env }),
          { s with cells := s.cells.push .nil }) := by
    have nil : expr machineLimits call σ .nil s = some (.ok .nil, s) := by
      rw [expr]
      exact put_room room _
    rw [stmt, bind_of_ok nil, Site.declare, nested]
    rfl
  rw [depths, stmt, stmt]
  refine .bind (.after (holds_zero call hn hx (by omega)) ?_)
  rw [last, if_pos rfl, stmt]
  refine .bind (.bind ?_)
  rw [stmt]
  refine .after (declares "a" (show σ.height < stackLimit by omega) rfl) ?_
  dsimp only
  rw [stmt]
  refine .after (declares "b" (show σ.height + 1 < stackLimit by omega) rfl) ?_
  dsimp only
  rw [stmt]
  refine .bind (bottoms n call _ _ room ?_ r.absent)
  rw [Site.inside, hn]
  rfl

/-- A call of the function is made, if there are calls left. -/
theorem invoke_plunge {n : Nat} {x : Float} (r : Ready bottom s)
    (left : σ.calls.length < frameLimit) :
    invoke machineLimits (n + 1) σ (.closure 0) [.number x] s =
      (stmt machineLimits (invoke machineLimits n) n
        ⟨[("n", s.cells.size)], true, σ.height + 2, some "f" :: σ.calls⟩ (depths bottom) >>=
          fun flow => flow.result machineLimits) { s with cells := s.cells.push (.number x) } := by
  have calls : machineLimits.calls.all (σ.calls.length < ·) = true := decide_eq_true left
  rw [invoke, get_bind_apply, r.closure]
  dsimp only
  rw [if_neg (fun ne => ne rfl), if_pos calls]
  rfl

/-- A call leads to the last one. -/
theorem halts_invoke (bottoms : Bottoms bottom Q) (i : Nat) : ∀ {j : Nat} {σ : Site} {s : Store},
    j + i = 62 → Ready bottom s → σ.height = 12 + 264 * j → σ.calls.length = j + 1 →
    Halts Q (invoke machineLimits (i + 2) σ (.closure 0) [.number (argument j)] s) := by
  have places : stackLimit = 16384 := rfl
  have frames : frameLimit = 64 := rfl
  induction i with
  | zero =>
    intro j σ s count r height calls
    obtain rfl : j = 62 := count
    rw [invoke_plunge r (by omega)]
    refine .bind (halts_bottom _ 0 bottoms (r.newCell _) rfl (cell_push s _) argument_eq ?_)
    show σ.height + 2 + 2 = stackLimit
    omega
  | succ i ih =>
    intro j σ s count r height calls
    rw [invoke_plunge r (by omega)]
    have more := argument_ne j (by omega)
    refine .bind (halts_depths _ _ (r.newCell _) rfl (cell_push s _) more ?_ ?_)
    · show σ.height + 2 + 265 ≤ stackLimit
      omega
    · refine ih (j := j + 1) (by omega) (r.newCell _) ?_ ?_
      · show σ.height + 2 + 262 = 12 + 264 * (j + 1)
        omega
      · show σ.calls.length + 1 = j + 2
        omega

/-- The script comes to the statement with all places taken. -/
theorem halts_plunge (bottoms : Bottoms bottom Q) (output : Output) (world : World) :
    Halts Q (script machineLimits 64 (plunge bottom) (Store.initial output world)) := by
  let s : Store :=
    { Store.initial output world with closures := #[⟨"f", ["n"], depths bottom, []⟩] }
  have defined : stmt machineLimits (invoke machineLimits 64) 64 .script
      (.function "f" ["n"] (depths bottom)) (Store.initial output world) =
      some (.ok (.next .script), s.define "f" (.closure 0)) := by
    rw [stmt]
    rfl
  have ready : Ready bottom (s.define "f" (.closure 0)) := ⟨rfl, rfl, rfl, rfl⟩
  have nil (height : Nat) (room : height < stackLimit) :
      expr machineLimits (invoke machineLimits 64) { Site.script with height } .nil
        (s.define "f" (.closure 0)) = some (.ok .nil, s.define "f" (.closure 0)) := by
    rw [expr]
    exact put_room room _
  rw [script, plunge, stmt]
  refine .bind (.after defined ?_)
  dsimp only
  rw [stmt, stmt]
  refine .bind (.bind (.arguments (expr_global (by decide) rfl ready.native) ?_))
  refine .copies 10 (by decide) nil (.first ?_)
  have argument : exprs machineLimits (invoke machineLimits 64) { Site.script with height := 13 }
      (.cons (.number (argument 0)) .nil) (s.define "f" (.closure 0)) =
      some (.ok [.number (argument 0)], s.define "f" (.closure 0)) := by
    rw [exprs, expr, bind_of_ok (put_room (by decide) _)]
    rfl
  rw [expr]
  refine .after (expr_global (by decide) rfl ready.function) (.after argument ?_)
  exact halts_invoke bottoms 62 rfl ready rfl rfl

end Plunge

section Text

open Syntax

variable {ts us : List Token} {e e' : Expr} {es : Exprs} {bottom : Stmt}

theorem items_copies (g : ExprPhrase .assignment ts e) (items : ItemsPhrase us (.cons e' es))
    (k : Nat) :
    ItemsPhrase ((List.replicate k (ts ++ [word (.punctuation .comma) ","])).flatten ++ us)
      (copies e k (.cons e' es)) := by
  induction k with
  | zero => exact items
  | succ k ih =>
    have more : ∃ e'' es'', copies e k (.cons e' es) = .cons e'' es'' := by
      cases k with
      | zero => exact ⟨e', es, rfl⟩
      | succ k => exact ⟨e, _, rfl⟩
    obtain ⟨e'', es'', eq⟩ := more
    rw [copies, eq, List.replicate_succ, List.flatten_cons, List.append_assoc, List.append_assoc]
    exact .more g (kind_word ",") (eq ▸ ih)

/-- The tokens of a call of a native with some arguments that are the same. -/
def nativeTokens (ts : List Token) (k : Nat) (us : List Token) : List Token :=
  [word .identifier "max"] ++ (word (.punctuation .leftParen) "(" ::
    ((List.replicate k (ts ++ [word (.punctuation .comma) ","])).flatten ++ us) ++
    [word (.punctuation .rightParen) ")"])

theorem phrase_native (g : ExprPhrase .assignment ts e) (items : ItemsPhrase us (.cons e' es))
    (k : Nat) : ExprPhrase .call (nativeTokens ts k us)
      (.call (.get "max") (copies e k (.cons e' es))) :=
  .call (.simple (.get (kind_word "max"))) (kind_word "(") (items_copies g items k) (kind_word ")")

def functionTokens (ts : List Token) : List Token :=
  [word .identifier "f"] ++ (word (.punctuation .leftParen) "(" :: ts ++
    [word (.punctuation .rightParen) ")"])

theorem phrase_function (g : ExprPhrase .assignment ts e) :
    ExprPhrase .call (functionTokens ts) (.call (.get "f") (.cons e .nil)) :=
  .call (.simple (.get (kind_word "f"))) (kind_word "(") (.one g) (kind_word ")")

def deeperTokens : List Token :=
  nativeTokens [word .identifier "n"] 254 (nativeTokens [word .identifier "n"] 6 (functionTokens
    ([word .identifier "n"] ++ word (.punctuation .minus) "-" :: [word .number "1"])))

theorem phrase_deeper : ExprPhrase .call deeperTokens deeper :=
  have name : ExprPhrase .assignment [word .identifier "n"] (.get "n") :=
    .simple (.get (kind_word "n"))
  have minus : BinarySign .term (word (.punctuation .minus) "-").kind .subtract := .subtract
  have less := (ExprPhrase.binary (.simple (.get (kind_word "n"))) minus .term
    (.simple (.number (kind_word "1")))).complete
  have inner := phrase_native name (.one (phrase_function less).complete) 6
  phrase_native name (.one inner.complete) 254

/-- The tokens of `plunge`, around the tokens of a statement. -/
def plungeTokens (ts : List Token) : List Token :=
  (word (.keyword .fun) "fun" :: word .identifier "f" :: word (.punctuation .leftParen) "(" ::
    [word .identifier "n"] ++ word (.punctuation .rightParen) ")" ::
    word (.punctuation .leftBrace) "\x7b" ::
    ((word (.keyword .if) "if" :: word (.punctuation .leftParen) "(" ::
        ([word .identifier "n"] ++ word (.punctuation .equalEqual) "==" :: [word .number "0"]) ++
        word (.punctuation .rightParen) ")" :: (word (.punctuation .leftBrace) "\x7b" ::
          (word (.keyword .var) "var" :: word .identifier "a" ::
            [word (.punctuation .semicolon) ";"] ++
          (word (.keyword .var) "var" :: word .identifier "b" ::
            [word (.punctuation .semicolon) ";"] ++ (ts ++ []))) ++
          [word (.punctuation .rightBrace) "\x7d"])) ++
      ((deeperTokens ++ [word (.punctuation .semicolon) ";"]) ++ [])) ++
    [word (.punctuation .rightBrace) "\x7d"]) ++
  ((nativeTokens [word (.keyword .nil) "nil"] 10 (functionTokens [word .number "62"]) ++
    [word (.punctuation .semicolon) ";"]) ++ [])

theorem phrase_plunge (g : StmtPhrase .statement ts bottom) :
    StmtPhrase .declarations (plungeTokens ts) (plunge bottom) := by
  have zero : BinarySign .equality (word (.punctuation .equalEqual) "==").kind .equal := .equal
  have equal := (ExprPhrase.binary (.simple (.get (kind_word "n"))) zero .equality
    (.simple (.number (kind_word "0")))).complete
  have declares (name : String) : StmtPhrase .declaration (word (.keyword .var) "var" ::
      word .identifier name :: [word (.punctuation .semicolon) ";"]) (.var name .nil) :=
    .var (kind_word "var") (kind_word name) (.absent (kind_word ";"))
  have last : StmtPhrase .statement _ _ :=
    .ifThen (kind_word "if") (kind_word "(") equal (kind_word ")")
      (.block (kind_word "\x7b") (.more (declares "a") (.more (declares "b")
        (.more (.statement g) .none))) (kind_word "\x7d"))
  have first := phrase_native (.simple (.nil (kind_word "nil")))
    (.one (phrase_function (.simple (.number (kind_word "62")))).complete) 10
  exact .more (.function (kind_word "fun") (kind_word "f") (kind_word "(") (.one (kind_word "n"))
      (kind_word ")") (kind_word "\x7b") (.more (.statement last)
        (.more (.statement (.expression phrase_deeper.complete (kind_word ";"))) .none))
      (kind_word "\x7d"))
    (.more (.statement (.expression first.complete (kind_word ";"))) .none)

/-- The text of `plunge`, around the text of a statement. -/
def text (bottom : String) : List Char :=
  "fun f(n)\x7bif(n==0)\x7bvar a;var b;".toList ++ bottom.toList ++ "\x7dmax(".toList ++
    (List.replicate 254 "n,".toList).flatten ++ "max(n,n,n,n,n,n,f(n-1)));\x7dmax(".toList ++
    (List.replicate 10 "nil,".toList).flatten ++ "f(62));".toList

def plunged (bottom : String) : String := String.ofList (text bottom)

end Text

section Run

/-- A script is behind its first instruction, and the rest of it is frugal. -/
def opened (p : Progress × Machine) : Bool :=
  decide (p.1 = .running) && p.2.heap.frugal && decide (p.2.heap.size ≤ UInt32.size) &&
    p.2.frames.all fun call => (p.2.heap.function? call.function).all fun f =>
      decide (f.prologue ≤ call.ip)

theorem Sourced.of_opened {output : Output} {source : String} {a : Stmt}
    (parses : Syntax.Parses source a)
    (h : opened ((Machine.new output .still).interpret 1 source) = true) :
    Sourced output .still source a := by
  simp only [opened, Bool.and_eq_true, decide_eq_true_eq] at h
  obtain ⟨⟨⟨running, code⟩, small⟩, front⟩ := h
  have hosts : (Machine.new output .still).hosts = #[] := (holds_new output .still).hosts
  have textless : (Machine.new output .still).world.Textless := by
    rw [world_new]
    exact ⟨fun _ _ => nofun, fun _ _ => nofun⟩
  refine ⟨parses, compiles_of_unfailed fun _ failed => (nomatch running.symm.trans failed),
    fun n => Nat.le_trans ?_ small⟩
  refine size_interpret_frugal hosts running code ⟨?_, ?_, rfl, .refl _, ?_⟩ n
  · exact (Larger.interpret hosts 1 source).hosts
  · exact textless_interpret hosts textless source 1
  · intro call hc f hf
    have behind := List.all_eq_true.1 front call hc
    rw [hf] at behind
    exact of_decide_eq_true behind

theorem scan_plunged (bottom : String) :
    Lexical.scan (plunged bottom) = Lexical.scanFrom (text bottom) .start := by
  rw [Lexical.scan, plunged, String.toList_ofList]

/-- The compilation of some tokens. -/
def compiled (tokens : List Token) (heap : Heap) : Compile.Compilation :=
  (Compile.compileWithin (Compile.budget tokens) tokens heap).getD ⟨.error [], heap, []⟩

theorem compile_plunged (bottom : String) (heap : Heap) : Compile.compile (plunged bottom) heap =
    compiled (Lexical.scanFrom (text bottom) .start) heap := by
  rw [← scan_plunged]
  rfl

/-- A run of what was compiled. -/
def begun (c : Compile.Compilation) (n : Nat) (m : Machine) : Progress × Machine :=
  match c.result with
  | .error errors => (.failed (.compile errors), { m with heap := c.heap })
  | .ok function =>
    match (enter function).run { m with heap := c.heap } with
    | .ok _ m => m.run n
    | .error stop m => (.failed stop.error, m)

theorem interpret_begun (m : Machine) (source : String) (n : Nat) :
    m.interpret n source = begun (Compile.compile source m.heap) n m := by
  unfold interpret begun
  rw [load_eq]
  cases (Compile.compile source m.heap).result with
  | error => rfl
  | ok r =>
    dsimp only
    cases (enter r).run { m with heap := (Compile.compile source m.heap).heap } <;> rfl

end Run

end Semantics
end StackScript
