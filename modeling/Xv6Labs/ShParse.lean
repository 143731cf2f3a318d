import Xv6Labs.ShTokens
import Xv6Labs.Outcomes
import Xv6Labs.Runs

/-! The parser of the shell accepts what its grammar derives, and builds that command. -/
namespace Xv6Labs.Shell

section Commands

variable {σ τ : Type}

def Cmd.map (f : σ → τ) : Cmd σ → Cmd τ
  | .exec argv => .exec (argv.map f)
  | .redir cmd file mode fd => .redir (cmd.map f) (f file) mode fd
  | .pipe left right => .pipe (left.map f) (right.map f)
  | .list left right => .list (left.map f) (right.map f)
  | .back cmd => .back (cmd.map f)

/-- The strings of a command, in the order of nulterminate. -/
def Cmd.strs : Cmd σ → List σ
  | .exec argv => argv
  | .redir cmd file _ _ => cmd.strs ++ [file]
  | .pipe left right => left.strs ++ right.strs
  | .list left right => left.strs ++ right.strs
  | .back cmd => cmd.strs

theorem map_pushArg (f : σ → τ) (cmd : Cmd σ) (a : σ) :
    (cmd.pushArg a).map f = (cmd.map f).pushArg (f a) := by
  induction cmd with
  | exec argv => simp [Cmd.pushArg, Cmd.map]
  | redir cmd file mode fd ih =>
    change Cmd.redir ((cmd.pushArg a).map f) _ _ _ = _
    rw [ih]
    rfl
  | pipe left right => rfl
  | list left right => rfl
  | back cmd => rfl

theorem mem_strs_pushArg {cmd : Cmd σ} {a b : σ} (h : b ∈ (cmd.pushArg a).strs) :
    b = a ∨ b ∈ cmd.strs := by
  induction cmd with
  | exec argv =>
    rcases List.mem_append.mp h with h | h
    · exact Or.inr h
    · exact Or.inl (List.mem_singleton.mp h)
  | redir cmd file mode fd ih =>
    rcases List.mem_append.mp h with h | h
    · exact (ih h).imp id (List.mem_append_left _)
    · exact Or.inr (List.mem_append_right _ h)
  | pipe left right => exact Or.inr h
  | list left right => exact Or.inr h
  | back cmd => exact Or.inr h

end Commands

section Shows

variable {buf : Bytes} {lo es s : Nat} {cmd : Cmd Str} {t t' : Cmd Word} {a : Str}

/-- The pointers of a command are words of the line, which make the command `t`. -/
structure Shows (buf : Bytes) (lo es : Nat) (cmd : Cmd Str) (t : Cmd Word) : Prop where
  tree : cmd.map (slice buf) = t
  words : ∀ a ∈ cmd.strs, WordAt buf lo es a

theorem Shows.pushArg (h : Shows buf lo es cmd t) (ha : WordAt buf lo es a) :
    Shows buf lo es (cmd.pushArg a) (t.pushArg (slice buf a)) := by
  refine ⟨by rw [map_pushArg, h.tree], ?_⟩
  intro b hb
  rcases mem_strs_pushArg hb with rfl | hb
  · exact ha
  · exact h.words b hb

theorem Shows.redirect (h : Shows buf lo es cmd t) (ha : WordAt buf lo es a) (d : Direction) :
    Shows buf lo es (Shell.redirect cmd d.token.code a) (.redir t (slice buf a) d.mode d.fd) := by
  have hredir : Shell.redirect cmd d.token.code a = .redir cmd a d.mode d.fd := by
    cases d with
    | input => rfl
    | output => rfl
    | append => rfl
  rw [hredir]
  refine ⟨?_, ?_⟩
  · change Cmd.redir (cmd.map (slice buf)) _ _ _ = _
    rw [h.tree]
  · intro b hb
    rcases List.mem_append.mp hb with hb | hb
    · exact h.words b hb
    · rw [List.mem_singleton.mp hb]
      exact ha

theorem Shows.back (h : Shows buf lo es cmd t) : Shows buf lo es (.back cmd) (.back t) := by
  refine ⟨?_, h.words⟩
  change Cmd.back (cmd.map (slice buf)) = _
  rw [h.tree]

end Shows

section Peeks

variable {buf : Bytes} {lo es s : Nat} {ts : List Token}

end Peeks

section Completeness

variable {buf : Bytes} {lo es s : Nat} {ts : List Token}

/-- What may come behind what a nonterminal derives. -/
def Ends : Nonterminal → List Token → Prop
  | .line, ts => ts.head? = none ∨ ts.head? = some .rpar
  | .pipe, ts => ts.head? = none ∨ ts.head? = some .rpar ∨ ts.head? = some .amp ∨
      ts.head? = some .semi
  | .exec, ts => ts.head? = none ∨ ts.head? = some .rpar ∨ ts.head? = some .amp ∨
      ts.head? = some .semi ∨ ts.head? = some .bar

end Completeness

end Xv6Labs.Shell
