import Xv6Labs.ByteWords

/-! The parser of the shell: a pointer that moves over the bytes of a line. The nodes of a
command point to where words start and end; at last nulterminate writes a NUL to every end.
`fuel` bounds loops and calls. -/
namespace Xv6Labs.Shell

section Code

def MAXARGS : Nat := 10

def O_RDONLY : Nat := 0x000
def O_WRONLY : Nat := 0x001
def O_CREATE : Nat := 0x200
def O_TRUNC : Nat := 0x400

/-- The messages of panic, and `fuel` for a loop that is not done. -/
inductive Err where
  | fuel
  | leftovers
  | missingFile
  | noBlock
  | missingParen
  | unexpected
  | tooManyArgs
  deriving DecidableEq

/-- A command; `σ` is what its strings are. -/
inductive Cmd (σ : Type) where
  | exec (argv : List σ)
  | redir (cmd : Cmd σ) (file : σ) (mode fd : Nat)
  | pipe (left right : Cmd σ)
  | list (left right : Cmd σ)
  | back (cmd : Cmd σ)

/-- The pointers to the start and to the end of a word. -/
structure Str where
  q : Nat
  eq : Nat

def lt : UInt8 := 60
def gt : UInt8 := 62
def bar : UInt8 := 124
def amp : UInt8 := 38
def semi : UInt8 := 59
def lpar : UInt8 := 40
def rpar : UInt8 := 41

/-- The answers `'+'` for `>>` and `'a'` for a word. -/
def plus : UInt8 := 43
def word : UInt8 := 97

def whitespace : List UInt8 := [32, 9, 13, 10, 11]
def symbols : List UInt8 := [lt, bar, gt, amp, semi, lpar, rpar]

/-- `while(s < es && f(*s)) s++`, where `es - s` is given. -/
def scanWhile (f : UInt8 → Bool) (buf : Bytes) : Nat → Nat → Nat
  | 0, s => s
  | k + 1, s => if f (buf s) then scanWhile f buf k (s + 1) else s

def isWhite (c : UInt8) : Bool := whitespace.contains c

def isWord (c : UInt8) : Bool := !whitespace.contains c && !symbols.contains c

def skipWhite (buf : Bytes) (es s : Nat) : Nat := scanWhile isWhite buf (es - s) s

/-- The kind of a token, its place, and the new pointer. -/
def gettoken (buf : Bytes) (es s : Nat) : UInt8 × Str × Nat :=
  let q := skipWhite buf es s
  let c := buf q
  let r : UInt8 × Nat :=
    if c = 0 then (c, q)
    else if c = bar ∨ c = lpar ∨ c = rpar ∨ c = semi ∨ c = amp ∨ c = lt then (c, q + 1)
    else if c = gt then
      if buf (q + 1) = gt then (plus, q + 2) else (c, q + 1)
    else (word, scanWhile isWord buf (es - q) q)
  (r.1, ⟨q, r.2⟩, skipWhite buf es r.2)

def peek (buf : Bytes) (es s : Nat) (toks : List UInt8) : Bool × Nat :=
  let s := skipWhite buf es s
  (decide (buf s ≠ 0) && toks.contains (buf s), s)

/-- An argument for the command that parseexec made, which redirections may be around. -/
def Cmd.pushArg {σ : Type} : Cmd σ → σ → Cmd σ
  | .exec argv, a => .exec (argv ++ [a])
  | .redir cmd file mode fd, a => .redir (cmd.pushArg a) file mode fd
  | cmd, _ => cmd

/-- The switch of parseredirs. -/
def redirect {σ : Type} (cmd : Cmd σ) (tok : UInt8) (file : σ) : Cmd σ :=
  if tok = lt then .redir cmd file O_RDONLY 0
  else if tok = gt then .redir cmd file (O_WRONLY ||| O_CREATE ||| O_TRUNC) 1
  else if tok = plus then .redir cmd file (O_WRONLY ||| O_CREATE) 1
  else cmd

def parseredirs : Nat → Bytes → Nat → Cmd Str → Nat → Except Err (Cmd Str × Nat)
  | 0, _, _, _, _ => .error .fuel
  | fuel + 1, buf, es, cmd, s =>
    let p := peek buf es s [lt, gt]
    if p.1 then
      let t := gettoken buf es p.2
      let f := gettoken buf es t.2.2
      if f.1 ≠ word then .error .missingFile
      else parseredirs fuel buf es (redirect cmd t.1 f.2.1) f.2.2
    else .ok (cmd, p.2)

/-- The loop of parseexec. -/
def parseargs : Nat → Bytes → Nat → Cmd Str → Nat → Nat → Except Err (Cmd Str × Nat)
  | 0, _, _, _, _, _ => .error .fuel
  | fuel + 1, buf, es, ret, argc, s =>
    let p := peek buf es s [bar, rpar, amp, semi]
    if p.1 then .ok (ret, p.2)
    else
      let t := gettoken buf es p.2
      if t.1 = 0 then .ok (ret, t.2.2)
      else if t.1 ≠ word then .error .unexpected
      else
        let ret := ret.pushArg t.2.1
        let argc := argc + 1
        if MAXARGS ≤ argc then .error .tooManyArgs
        else do
          let r ← parseredirs fuel buf es ret t.2.2
          parseargs fuel buf es r.1 argc r.2

/-- The first loop of parseline. -/
def parsebacks : Nat → Bytes → Nat → Cmd Str → Nat → Except Err (Cmd Str × Nat)
  | 0, _, _, _, _ => .error .fuel
  | fuel + 1, buf, es, cmd, s =>
    let p := peek buf es s [amp]
    if p.1 then parsebacks fuel buf es (.back cmd) (gettoken buf es p.2).2.2
    else .ok (cmd, p.2)

mutual

def parseline : Nat → Bytes → Nat → Nat → Except Err (Cmd Str × Nat)
  | 0, _, _, _ => .error .fuel
  | fuel + 1, buf, es, s => do
    let c ← parsepipe fuel buf es s
    let b ← parsebacks fuel buf es c.1 c.2
    let p := peek buf es b.2 [semi]
    if p.1 then
      let r ← parseline fuel buf es (gettoken buf es p.2).2.2
      .ok (.list b.1 r.1, r.2)
    else .ok (b.1, p.2)

def parsepipe : Nat → Bytes → Nat → Nat → Except Err (Cmd Str × Nat)
  | 0, _, _, _ => .error .fuel
  | fuel + 1, buf, es, s => do
    let c ← parseexec fuel buf es s
    let p := peek buf es c.2 [bar]
    if p.1 then
      let r ← parsepipe fuel buf es (gettoken buf es p.2).2.2
      .ok (.pipe c.1 r.1, r.2)
    else .ok (c.1, p.2)

def parseexec : Nat → Bytes → Nat → Nat → Except Err (Cmd Str × Nat)
  | 0, _, _, _ => .error .fuel
  | fuel + 1, buf, es, s =>
    let p := peek buf es s [lpar]
    if p.1 then parseblock fuel buf es p.2
    else do
      let r ← parseredirs fuel buf es (.exec []) p.2
      parseargs fuel buf es r.1 0 r.2

def parseblock : Nat → Bytes → Nat → Nat → Except Err (Cmd Str × Nat)
  | 0, _, _, _ => .error .fuel
  | fuel + 1, buf, es, s =>
    let p := peek buf es s [lpar]
    if !p.1 then .error .noBlock
    else do
      let c ← parseline fuel buf es (gettoken buf es p.2).2.2
      let p := peek buf es c.2 [rpar]
      if !p.1 then .error .missingParen
      else parseredirs fuel buf es c.1 (gettoken buf es p.2).2.2

end

/-- A NUL at the end of every counted string. -/
def nulterminate : Bytes → Cmd Str → Bytes
  | buf, .exec argv => argv.foldl (fun b a => Function.update b a.eq 0) buf
  | buf, .redir cmd file _ _ => Function.update (nulterminate buf cmd) file.eq 0
  | buf, .pipe left right => nulterminate (nulterminate buf left) right
  | buf, .list left right => nulterminate (nulterminate buf left) right
  | buf, .back cmd => nulterminate buf cmd

end Code

end Xv6Labs.Shell
