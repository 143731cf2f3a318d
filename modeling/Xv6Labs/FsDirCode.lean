import Xv6Labs.FsCode

/-! Directories as files of 16-byte entries: namecmp, dirlookup and dirlink of fs.c, strncmp and
strncpy of string.c, and what sys_unlink does to an entry. The inode `dp` is locked. -/
namespace Xv6Labs.Fs

def DIRSIZ : Nat := 14
def T_DIR : Nat := 1

section Strings

/-- strncmp; a string is the list of its bytes, and NUL is behind them. -/
def strncmp : List UInt8 → List UInt8 → Nat → Int
  | _, _, 0 => 0
  | p, q, n+1 =>
    if p.headD 0 ≠ 0 ∧ p.headD 0 = q.headD 0 then strncmp p.tail q.tail n
    else ((p.headD 0).toNat : Int) - ((q.headD 0).toNat : Int)

/-- strncpy; the `n` bytes that it stores. -/
def strncpy : List UInt8 → Nat → List UInt8
  | _, 0 => []
  | t, n+1 => if t.headD 0 = 0 then List.replicate (n+1) 0 else t.headD 0 :: strncpy t.tail n

def namecmp (s t : List UInt8) : Int := strncmp s t DIRSIZ

end Strings

/-- struct dirent: a `ushort` and `DIRSIZ` bytes. -/
structure Dirent where
  inum : Nat
  name : List UInt8
  deriving DecidableEq

/-- `sizeof(struct dirent)` -/
def direntSize : Nat := 16

def Dirent.bytes (de : Dirent) : List UInt8 :=
  UInt8.ofNat de.inum :: UInt8.ofNat (de.inum / 256) :: de.name

def Dirent.ofBytes (l : List UInt8) : Dirent :=
  ⟨(l.getD 0 0).toNat + 256 * (l.getD 1 0).toNat, l.drop 2⟩

/-- `memset(&de, 0, sizeof(de))` -/
def noDirent : Dirent := ⟨0, List.replicate DIRSIZ 0⟩

inductive DirPanic where
  | fs (p : Panic)
  | dirlookupNotDir
  | dirlookupRead
  | dirlinkRead
  | dirlink
  | unlinkWritei
  deriving DecidableEq

def liftFs {α : Type} : Except Panic α → Except DirPanic α
  | .ok a => .ok a
  | .error p => .error (.fs p)

/-- readi of one entry; `none` when it does not read all of it. -/
def readDirent (s : State) (dp off : Nat) : Except DirPanic (Option Dirent × State) := do
  let r ← liftFs (readi s dp (fun _ _ => true) off.toUInt32 direntSize.toUInt32)
  match r.1 with
  | none => .ok (none, r.2)
  | some l => .ok (if l.length = direntSize then some (Dirent.ofBytes l) else none, r.2)

/-- writei of one entry; the answer tells whether all of it is written. -/
def writeDirent (s : State) (dp off : Nat) (de : Dirent) : Except DirPanic (Bool × State) := do
  let r ← liftFs (writei s dp (fun k => de.bytes[k]?) off.toUInt32 direntSize.toUInt32)
  .ok (decide (r.1 = some direntSize), r.2)

/-- The loop of dirlookup; the number of the inode and the offset of its entry. -/
def dirlookupLoop (dp : Nat) (name : List UInt8) :
    Nat → State → Nat → Except DirPanic (Option (Nat × Nat) × State)
  | 0, s, _ => .ok (none, s)
  | rounds+1, s, off =>
    if off < (s.node dp).size then do
      let r ← readDirent s dp off
      match r.1 with
      | none => .error .dirlookupRead
      | some de =>
        if de.inum = 0 then dirlookupLoop dp name rounds r.2 (off + direntSize)
        else if namecmp name de.name = 0 then .ok (some (de.inum, off), r.2)
        else dirlookupLoop dp name rounds r.2 (off + direntSize)
    else .ok (none, s)

/-- Rounds that are enough for a loop over a directory. -/
def dirRounds (s : State) (dp : Nat) : Nat := (s.node dp).size + 1

def dirlookup (s : State) (dp : Nat) (name : List UInt8) :
    Except DirPanic (Option (Nat × Nat) × State) :=
  if (s.node dp).type ≠ T_DIR then .error .dirlookupNotDir
  else do
    let r ← dirlookupLoop dp name (dirRounds s dp) s 0
    match r.1 with
    | none => .ok (none, r.2)
    | some (inum, off) => do
      let s ← liftFs (iget r.2 inum)
      .ok (some (inum, off), s)

/-- The loop of dirlink that looks for an empty entry; where it stops. -/
def freeDirentLoop (dp : Nat) : Nat → State → Nat → Except DirPanic (Nat × State)
  | 0, s, off => .ok (off, s)
  | rounds+1, s, off =>
    if off < (s.node dp).size then do
      let r ← readDirent s dp off
      match r.1 with
      | none => .error .dirlinkRead
      | some de =>
        if de.inum = 0 then .ok (off, r.2)
        else freeDirentLoop dp rounds r.2 (off + direntSize)
    else .ok (off, s)

def dirlink (s : State) (dp : Nat) (name : List UInt8) (inum : Nat) :
    Except DirPanic (Int × State) := do
  let r ← dirlookup s dp name
  match r.1 with
  -- the name exists
  | some (ip, _) => do
    let s ← liftFs (iput r.2 ip)
    .ok (-1, s)
  | none => do
    let f ← freeDirentLoop dp (dirRounds r.2 dp) r.2 0
    let w ← writeDirent f.2 dp f.1 ⟨inum % 2^16, strncpy name DIRSIZ⟩
    if w.1 then .ok (0, w.2) else .error .dirlink

/-- A lookup whose caller drops the inode afterwards; the answer is its number or 0. -/
def lookup (s : State) (dp : Nat) (name : List UInt8) : Except DirPanic (Int × State) := do
  let r ← dirlookup s dp name
  match r.1 with
  | none => .ok (0, r.2)
  | some (inum, _) => do
    let s ← liftFs (iput r.2 inum)
    .ok (inum, s)

/-- What sys_unlink does to the entry of `name`: it is overwritten at the offset found. -/
def eraseDirent (s : State) (dp : Nat) (name : List UInt8) : Except DirPanic (Int × State) := do
  let r ← dirlookup s dp name
  match r.1 with
  | none => .ok (-1, r.2)
  | some (inum, off) => do
    let w ← writeDirent r.2 dp off noDirent
    if w.1 then do
      let s ← liftFs (iput w.2 inum)
      .ok (0, s)
    else .error .unlinkWritei

end Xv6Labs.Fs
