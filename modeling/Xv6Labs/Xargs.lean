import Mathlib.Logic.Function.Basic
import Mathlib.Data.List.Basic

/-! xargs.c: the array of arguments and the lines of the standard input. Memory that has not
been written yet has no value, and a store through it is a fault. -/
namespace Xv6Labs.Xargs

section Code

def MAXARG : Nat := 32
def MAXBUF : Nat := 128
def NEWLINE : UInt8 := 10

/-- An element of `args`: without a value, null, or a pointer to `size` bytes with the string
that was copied there. -/
inductive Cell where
  | garbage
  | null
  | block (size : Nat) (text : Option (List UInt8))

inductive Fault where
  /-- a store through a pointer that has no value, or is null -/
  | wildStore
  /-- a store behind the end of an allocated block -/
  | overrun
  /-- an index outside `args` or `buf` -/
  | outside
  deriving DecidableEq

/-- A call of exec by a child. -/
structure Exec where
  program : Cell
  args : Nat → Cell

/-- `args[i] = c` -/
def storeArg (args : Nat → Cell) (i : Nat) (c : Cell) : Except Fault (Nat → Cell) :=
  if i < MAXARG then .ok (Function.update args i c) else .error .outside

/-- `strcpy(args[n], s)` -/
def strcpy (args : Nat → Cell) (n : Nat) (s : List UInt8) : Except Fault (Nat → Cell) :=
  if n < MAXARG then
    match args n with
    | .block size _ =>
      if s.length < size then .ok (Function.update args n (.block size (some s)))
      else .error .overrun
    | _ => .error .wildStore
  else .error .outside

/-- The loop over `argv[i]`, and the number `n` of strings copied. -/
def copyArgs : List (List UInt8) → Nat → Nat → (Nat → Cell) → Except Fault (Nat × (Nat → Cell))
  | [], _, n, args => .ok (n, args)
  | s :: rest, i, n, args => do
    let args ← storeArg args i (.block (s.length + 1) none)
    let args ← strcpy args n s
    copyArgs rest (i + 1) (n + 1) args

/-- The two loops over the standard input: `line` is `buf[0..j]`. The end of the input ends
them, also in the middle of a line. -/
def readLines (argc : Nat) (args : Nat → Cell) : List UInt8 → List UInt8 → Except Fault (List Exec)
  | [], _ => .ok []
  | b :: rest, line =>
    if MAXBUF ≤ line.length then .error .outside
    else if b = NEWLINE then do
      let args ← storeArg args (argc - 1) (.block MAXBUF (some line))
      let calls ← readLines argc args rest []
      .ok (⟨args 0, args⟩ :: calls)
    else readLines argc args rest (line ++ [b])

/-- main, for `argv[1]`, `argv[2]`, ... and the bytes of the standard input. -/
def xargs (initial : List (List UInt8)) (input : List UInt8) : Except Fault (List Exec) := do
  let (n, args) ← copyArgs initial 1 0 (fun _ => .garbage)
  let args ← storeArg args n .null
  readLines (initial.length + 1) args input []

end Code

section Lines

/-- The lines of an input; the last one may have no newline. -/
def linesFrom : List UInt8 → List UInt8 → List (List UInt8)
  | [], [] => []
  | [], line => [line]
  | b :: rest, line =>
    if b = NEWLINE then line :: linesFrom rest [] else linesFrom rest (line ++ [b])

def linesOf (input : List UInt8) : List (List UInt8) := linesFrom input []

def Cell.string : Cell → Option (List UInt8)
  | .block _ text => text
  | _ => none

/-- exec gets `argv[1]` as the program, and the array `argv[1], ..., argv[argc-1], line, NULL`. -/
structure Passes (initial : List (List UInt8)) (line : List UInt8) (call : Exec) : Prop where
  program : call.program.string = initial.head?
  args : ∀ i s, (initial ++ [line])[i]? = some s → (call.args i).string = some s
  null : call.args (initial.length + 1) = .null

/-- One exec for each line, with the right arguments, and no fault. -/
def RunsOnce (initial : List (List UInt8)) (input : List UInt8) : Prop :=
  ∃ calls, xargs initial input = .ok calls ∧
    List.Forall₂ (Passes initial) (linesOf input) calls

theorem linesFrom_ne_nil (input line : List UInt8) (h : input ≠ [] ∨ line ≠ []) :
    linesFrom input line ≠ [] := by
  induction input generalizing line with
  | nil =>
    cases line with
    | nil => exact absurd rfl (h.resolve_left (fun hn => hn rfl))
    | cons b line => simp [linesFrom]
  | cons b rest ih =>
    unfold linesFrom
    by_cases hb : b = NEWLINE
    · rw [if_pos hb]
      simp
    · rw [if_neg hb]
      exact ih _ (Or.inr (by simp))

end Lines

section Runs

/-- With an argument, the first copy goes through `args[0]`, which has no value. -/
theorem xargs_argument (s : List UInt8) (rest : List (List UInt8)) (input : List UInt8) :
    xargs (s :: rest) input = .error .wildStore := rfl

/-- The calls of the loop have the array as it was, but for the line. -/
theorem readLines_args (argc : Nat) (input line : List UInt8) (args : Nat → Cell)
    (calls : List Exec) (h : readLines argc args input line = .ok calls) (i : Nat)
    (hi : i ≠ argc - 1) : ∀ call ∈ calls, call.args i = args i := by
  induction input generalizing line args calls with
  | nil =>
    cases h
    exact nofun
  | cons b rest ih =>
    unfold readLines at h
    split at h
    · cases h
    · split at h
      · unfold storeArg at h
        split at h
        · cases hrest : readLines argc (Function.update args (argc - 1) (.block MAXBUF (some line)))
              rest [] with
          | error e =>
            rw [bind, Except.instMonad] at h
            simp only [Except.bind, hrest] at h
            cases h
          | ok more =>
            simp only [bind, Except.bind, hrest] at h
            cases h
            intro call hcall
            rcases List.mem_cons.mp hcall with rfl | hcall
            · exact Function.update_of_ne hi _ _
            · rw [ih [] _ more hrest call hcall]
              exact Function.update_of_ne hi _ _
        · cases h
      · exact ih _ args calls h

/-- xargs works exactly when it has nothing to do: without arguments and without input. -/
theorem runsOnce_iff (initial : List (List UInt8)) (input : List UInt8) :
    RunsOnce initial input ↔ initial = [] ∧ input = [] := by
  constructor
  · rintro ⟨calls, hrun, hcalls⟩
    cases initial with
    | cons s rest =>
      rw [xargs_argument] at hrun
      cases hrun
    | nil =>
      refine ⟨rfl, ?_⟩
      by_contra hne
      -- the first call has no null pointer behind its line
      obtain ⟨line, lines, hlines⟩ := List.exists_cons_of_ne_nil
        (linesFrom_ne_nil input [] (Or.inl hne))
      have hlines' : linesOf input = line :: lines := hlines
      rw [hlines'] at hcalls
      cases hcalls with
      | cons hpass _ =>
        have hargs := readLines_args 1 input [] _ _ hrun 1 (by decide) _ List.mem_cons_self
        have hnull : _ = Cell.null := hpass.null
        have hupdate : Function.update (fun _ => Cell.garbage) 0 Cell.null 1 = Cell.garbage := rfl
        rw [hupdate] at hargs
        cases hargs.symm.trans hnull
  · rintro ⟨rfl, rfl⟩
    exact ⟨[], rfl, List.Forall₂.nil⟩

/-- `echo a | xargs echo`. -/
theorem echo_fails : xargs [[101, 99, 104, 111]] [97, 10] = .error .wildStore ∧
    ¬RunsOnce [[101, 99, 104, 111]] [97, 10] := by
  refine ⟨rfl, ?_⟩
  rintro ⟨calls, hrun, -⟩
  cases hrun

end Runs

end Xv6Labs.Xargs
