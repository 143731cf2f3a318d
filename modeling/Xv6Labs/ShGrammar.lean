import Xv6Labs.ShCode
import Mathlib.Data.List.TakeWhile

/-! The language of the shell: how a line is cut into tokens, and which tokens make which
command. -/
namespace Xv6Labs.Shell

section Tokens

abbrev Word := List UInt8

inductive Token where
  | word (w : Word)
  | lt
  | gt
  | gtgt
  | bar
  | amp
  | semi
  | lpar
  | rpar
  deriving DecidableEq

/-- The tokens of a line; `>>` is one token. -/
def tokens : List UInt8 → List Token
  | [] => []
  | c :: l =>
    if isWhite c then tokens l
    else if c = bar then .bar :: tokens l
    else if c = lpar then .lpar :: tokens l
    else if c = rpar then .rpar :: tokens l
    else if c = semi then .semi :: tokens l
    else if c = amp then .amp :: tokens l
    else if c = lt then .lt :: tokens l
    else if c = gt then
      if l.head? = some gt then .gtgt :: tokens l.tail else .gt :: tokens l
    else .word (c :: l.takeWhile isWord) :: tokens (l.dropWhile isWord)
termination_by l => l.length
decreasing_by
  all_goals simp only [List.length_cons, List.length_tail]
  all_goals first
    | omega
    | exact Nat.lt_succ_of_le (List.dropWhile_sublist _).length_le

end Tokens

section Grammar

/-- `<`, `>` and `>>` -/
inductive Direction where
  | input
  | output
  | append

def Direction.token : Direction → Token
  | .input => .lt
  | .output => .gt
  | .append => .gtgt

def Direction.mode : Direction → Nat
  | .input => O_RDONLY
  | .output => O_WRONLY ||| O_CREATE ||| O_TRUNC
  | .append => O_WRONLY ||| O_CREATE

def Direction.fd : Direction → Nat
  | .input => 0
  | .output => 1
  | .append => 1

inductive Nonterminal where
  | line
  | pipe
  | exec
  deriving DecidableEq

end Grammar

end Xv6Labs.Shell
