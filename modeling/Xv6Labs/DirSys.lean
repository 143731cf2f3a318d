import Xv6Labs.DirCode

/-! Open files and the system calls of the `file system` kernel that deal with names, and the
machine they make. A call runs alone until it returns. -/
namespace Xv6Labs.Dir

variable {n : Nat}

section Files

/-- The file that filealloc takes. -/
def freeFile (s : State n) : Option FileId :=
  (List.finRange NFILE).find? (fun f => decide ((s.file f).ref = 0))

def filealloc (s : State n) : State n × Option FileId :=
  match freeFile s with
  | none => (s, none)
  | some f => (s.setFile f { s.file f with ref := 1 }, some f)

def filedup (s : State n) (f : FileId) : Except Panic (State n) :=
  if (s.file f).ref < 1 then .error .filedup
  else .ok (s.setFile f { s.file f with ref := (s.file f).ref + 1 })

/-- The inode that a file of this type refers to. -/
def File.inode (F : File) : Option Slot :=
  match F.type with
  | .inode => F.ip
  | .device => F.ip
  | _ => none

/-- fileclose; pipeclose touches no inode. -/
def fileclose (s : State n) (f : FileId) : Except Panic (State n) :=
  let F := s.file f
  if F.ref < 1 then .error .fileclose
  else if 0 < F.ref - 1 then .ok (s.setFile f { F with ref := F.ref - 1 })
  else
    let s := s.setFile f { F with ref := 0, type := .none }
    match F.inode with
    | none => .ok s
    | some ip => do
      let s ← iput (beginOp s) ip
      .ok (endOp s)

/-- The descriptor that fdalloc takes. -/
def freeFd (P : Proc) : Option (Fin NOFILE) :=
  (List.finRange NOFILE).find? (fun fd => (P.ofile fd).isNone)

def argfd (P : Proc) (fd : Int) : Option (Fin NOFILE × FileId) :=
  if h : 0 ≤ fd ∧ fd < NOFILE then
    (P.ofile ⟨fd.toNat, by omega⟩).map (fun f => (⟨fd.toNat, by omega⟩, f))
  else none

def sysDup (s : State n) (p : Fin n) (fd : Int) : Except Panic (State n × Int) :=
  match argfd (s.proc p) fd with
  | none => .ok (s, -1)
  | some (_, f) =>
    match freeFd (s.proc p) with
    | none => .ok (s, -1)
    | some fd' => do
      let s ← filedup (s.setOfile p fd' (some f)) f
      .ok (s, fd'.val)

def sysClose (s : State n) (p : Fin n) (fd : Int) : Except Panic (State n × Int) :=
  match argfd (s.proc p) fd with
  | none => .ok (s, -1)
  | some (fd', f) => do
    let s ← fileclose (s.setOfile p fd' none) f
    .ok (s, 0)

end Files

section Names

/-- The end of sys_link that takes the link count back. -/
def linkBad (s : State n) (ip : Slot) : Except Panic (State n × Int) := do
  let s ← ilock s ip
  let s := s.setNode ip { s.node ip with nlink := int16 ((s.node ip).nlink - 1) }
  let s ← iunlockput s ip
  .ok (endOp s, -1)

/-- sys_link once the link count of `ip` is raised. -/
def linkNew (s : State n) (p : Fin n) (ip : Slot) (new : Path) : Except Panic (State n × Int) := do
  let r ← nameiparent s p new
  match r.2 with
  | none => linkBad r.1 ip
  | some (dp, name) =>
    let s ← ilock r.1 dp
    let r ← dirlink s dp name (s.icache ip).inum
    let s ← iunlockput r.1 dp
    if r.2 then
      let s ← iput s ip
      .ok (endOp s, 0)
    else linkBad s ip

def sysLink (s : State n) (p : Fin n) (old new : List UInt8) : Except Panic (State n × Int) :=
  match argstr old, argstr new with
  | some old, some new => do
    let r ← namei (beginOp s) p old
    match r.2 with
    | none => .ok (endOp r.1, -1)
    | some ip =>
      let s ← ilock r.1 ip
      if (s.node ip).type = .dir then
        let s ← iunlockput s ip
        .ok (endOp s, -1)
      else
        let s := s.setNode ip { s.node ip with nlink := int16 ((s.node ip).nlink + 1) }
        let s ← iunlock s ip
        linkNew s p ip new
  | _, _ => .ok (s, -1)

/-- Is the directory empty except for "." and ".." ? -/
def isdirempty (d : Dinode) : Bool := (d.dirents.drop 2).all (fun e => decide (e.inum = 0))

/-- sys_unlink once the entry of `ip` is found at `off`, and `ip` is locked. -/
def unlinkEntry (s : State n) (dp ip : Slot) (off : Nat) : Except Panic (State n × Int) := do
  let isDir := decide ((s.node ip).type = .dir)
  let d := s.node dp
  let s := s.setNode dp { d with
    dirents := d.dirents.set off ⟨0, []⟩
    nlink := if isDir then int16 (d.nlink - 1) else d.nlink }
  let s ← iunlockput s dp
  let s := s.setNode ip { s.node ip with nlink := int16 ((s.node ip).nlink - 1) }
  let s ← iunlockput s ip
  .ok (endOp s, 0)

def sysUnlink (s : State n) (p : Fin n) (path : List UInt8) : Except Panic (State n × Int) :=
  match argstr path with
  | none => .ok (s, -1)
  | some path => do
    let r ← nameiparent (beginOp s) p path
    match r.2 with
    | none => .ok (endOp r.1, -1)
    | some (dp, name) =>
      let s ← ilock r.1 dp
      if name = dot ∨ name = dotdot then
        let s ← iunlockput s dp
        .ok (endOp s, -1)
      else
        let r ← dirlookup s dp name
        match r.2 with
        | none =>
          let s ← iunlockput r.1 dp
          .ok (endOp s, -1)
        | some (ip, off) =>
          let s ← ilock r.1 ip
          if (s.node ip).nlink < 1 then .error .unlinkNlink
          else if (s.node ip).type = .dir ∧ ¬ isdirempty (s.node ip) then
            let s ← iunlockput s ip
            let s ← iunlockput s dp
            .ok (endOp s, -1)
          else unlinkEntry s dp ip off

/-- create's "." and "..". -/
def createDots (s : State n) (dp ip : Slot) : Except Panic (State n) := do
  let s := s.setNode dp { s.node dp with nlink := int16 ((s.node dp).nlink + 1) }
  let r ← dirlink s ip dot (s.icache ip).inum
  if r.2 then
    let r ← dirlink r.1 ip dotdot (r.1.icache dp).inum
    if r.2 then .ok r.1 else .error .createDots
  else .error .createDots

/-- What create writes into the new inode after its header. -/
def createBody (s : State n) (dp ip : Slot) (type : Kind) : Except Panic (State n) :=
  if type = .dir then createDots s dp ip else .ok s

/-- create once `name` is not found in the locked directory `dp`. -/
def createNew (s : State n) (dp : Slot) (name : Path) (type : Kind) (major minor : Int) :
    Except Panic (State n × Slot) := do
  let r ← ialloc s type
  let ip := r.2
  let s ← ilock r.1 ip
  let s := s.setNode ip { s.node ip with major := int16 major, minor := int16 minor, nlink := 1 }
  let s ← createBody s dp ip type
  let r ← dirlink s dp name (s.icache ip).inum
  if r.2 then
    let s ← iunlockput r.1 dp
    .ok (s, ip)
  else .error .createDirlink

def create (s : State n) (p : Fin n) (path : Path) (type : Kind) (major minor : Int) :
    Except Panic (State n × Option Slot) := do
  let r ← nameiparent s p path
  match r.2 with
  | none => .ok (r.1, none)
  | some (dp, name) =>
    let s ← ilock r.1 dp
    let r ← dirlookup s dp name
    match r.2 with
    | some (ip, _) =>
      let s ← iunlockput r.1 dp
      let s ← ilock s ip
      if type = .file ∧ ((s.node ip).type = .file ∨ (s.node ip).type = .device) then
        .ok (s, some ip)
      else
        let s ← iunlockput s ip
        .ok (s, none)
    | none =>
      let r ← createNew r.1 dp name type major minor
      .ok (r.1, some r.2)

/-- The end of sys_mkdir and sys_mknod. -/
def createPut (s : State n) (p : Fin n) (path : List UInt8) (type : Kind) (major minor : Int) :
    Except Panic (State n × Int) :=
  let s := beginOp s
  match argstr path with
  | none => .ok (endOp s, -1)
  | some path => do
    let r ← create s p path type major minor
    match r.2 with
    | none => .ok (endOp r.1, -1)
    | some ip =>
      let s ← iunlockput r.1 ip
      .ok (endOp s, 0)

def sysMkdir (s : State n) (p : Fin n) (path : List UInt8) : Except Panic (State n × Int) :=
  createPut s p path .dir 0 0

def sysMknod (s : State n) (p : Fin n) (path : List UInt8) (major minor : Int) :
    Except Panic (State n × Int) :=
  createPut s p path .device major minor

def sysSymlink (s : State n) (p : Fin n) (target path : List UInt8) :
    Except Panic (State n × Int) :=
  match argstr target, argstr path with
  | some target, some path => do
    let r ← create (beginOp s) p path .symlink 0 0
    match r.2 with
    | none => .ok (endOp r.1, -1)
    | some ip =>
      -- writei of the strlen(target) bytes, to an inode that is empty
      let s := r.1.setNode ip { r.1.node ip with data := target }
      let s ← iunlockput s ip
      .ok (endOp s, 0)
  | _, _ => .ok (s, -1)

def sysChdir (s : State n) (p : Fin n) (path : List UInt8) : Except Panic (State n × Int) :=
  let s := beginOp s
  match argstr path with
  | none => .ok (endOp s, -1)
  | some path => do
    let r ← namei s p path
    match r.2 with
    | none => .ok (endOp r.1, -1)
    | some ip =>
      let s ← ilock r.1 ip
      if (s.node ip).type ≠ .dir then
        let s ← iunlockput s ip
        .ok (endOp s, -1)
      else
        let s ← iunlock s ip
        match (s.proc p).cwd with
        | none => .error .nullCwd
        | some c =>
          let s ← iput s c
          .ok ((endOp s).setCwd p (some ip), 0)

end Names

section Open

/-- A round of sys_open's loop: the inode of the path, locked, and whether it is a link that
has to be followed. -/
def openRound (s : State n) (p : Fin n) (path : Path) (omode : Nat) :
    Except Panic (State n × Option (Slot × Bool)) := do
  let r ← namei s p path
  match r.2 with
  | none => .ok (r.1, none)
  | some ip =>
    let s ← ilock r.1 ip
    .ok (s, some (ip, decide ((s.node ip).type = .symlink) && !has omode O_NOFOLLOW))

/-- readi of up to MAXPATH bytes to the start of the buffer. -/
def readPath (d : Dinode) (buf : List UInt8) : List UInt8 :=
  let bytes := d.data.take MAXPATH
  bytes ++ buf.drop bytes.length

/-- The loop of sys_open. `buf` is the memory from `path` on and `left` tells how many links
may still be followed. -/
def openLoop (p : Fin n) (omode : Nat) :
    Nat → List UInt8 → State n → Except Panic (State n × Option Slot)
  | left, buf, s => do
    let r ← openRound s p (cstring buf) omode
    match r.2 with
    | none => .ok (r.1, none)
    | some (ip, false) => .ok (r.1, some ip)
    | some (ip, true) =>
      match left with
      | 0 =>
        let s ← iunlockput r.1 ip
        .ok (s, none)
      | left+1 =>
        let buf := readPath (r.1.node ip) buf
        let s ← iunlockput r.1 ip
        openLoop p omode left buf s

/-- How many links sys_open follows. -/
def MAXDEPTH : Nat := 20

/-- The path buffer after argstr, where `stack` is what the memory held before. -/
def pathBuffer (path : Path) (stack : List UInt8) : List UInt8 :=
  path ++ 0 :: stack.drop (path.length + 1)

/-- A directory can only be opened to be read. -/
def openDir (s : State n) (ip : Slot) (omode : Nat) : Except Panic (State n × Option Slot) :=
  if (s.node ip).type = .dir ∧ omode ≠ 0 then do
    let s ← iunlockput s ip
    .ok (s, none)
  else .ok (s, some ip)

/-- The inode that sys_open opens, locked. -/
def openInode (s : State n) (p : Fin n) (path : Path) (omode : Nat) (stack : List UInt8) :
    Except Panic (State n × Option Slot) :=
  if has omode O_CREATE then create s p path .file 0 0
  else do
    let r ← openLoop p omode MAXDEPTH (pathBuffer path stack) s
    match r.2 with
    | none => .ok (r.1, none)
    | some ip => openDir r.1 ip omode

/-- The file for the inode `ip`. -/
def openedFile (F : File) (d : Dinode) (ip : Slot) (omode : Nat) : File :=
  { F with
    type := if d.type = .device then .device else .inode
    major := if d.type = .device then d.major else F.major
    off := if d.type = .device then F.off else 0
    ip := some ip
    readable := !has omode O_WRONLY
    writable := has omode O_WRONLY || has omode O_RDWR }

/-- The error exit of sys_open with the inode locked. -/
def openFail (s : State n) (ip : Slot) : Except Panic (State n × Int) := do
  let s ← iunlockput s ip
  .ok (endOp s, -1)

/-- sys_open once the inode is found and locked. -/
def openFile (s : State n) (p : Fin n) (ip : Slot) (omode : Nat) : Except Panic (State n × Int) :=
  if (s.node ip).type = .device ∧ ((s.node ip).major < 0 ∨ (NDEV : Int) ≤ (s.node ip).major) then
    openFail s ip
  else
    let r := filealloc s
    let s := r.1
    match r.2 with
    | none => openFail s ip
    | some f =>
      match freeFd (s.proc p) with
      | none => do
        let s ← fileclose s f
        openFail s ip
      | some fd => do
        let s := s.setOfile p fd (some f)
        let s := s.setFile f (openedFile (s.file f) (s.node ip) ip omode)
        let s := if has omode O_TRUNC ∧ (s.node ip).type = .file then itrunc s ip else s
        let s ← iunlock s ip
        .ok (endOp s, fd.val)

def sysOpen (s : State n) (p : Fin n) (path : List UInt8) (omode : Nat) (stack : List UInt8) :
    Except Panic (State n × Int) :=
  match argstr path with
  | none => .ok (s, -1)
  | some path => do
    let r ← openInode (beginOp s) p path omode stack
    match r.2 with
    | none => .ok (endOp r.1, -1)
    | some ip => openFile r.1 p ip omode

end Open

section Processes

/-- exit closes one descriptor. -/
def closeFd (p : Fin n) (s : State n) (fd : Fin NOFILE) : Except Panic (State n) :=
  match (s.proc p).ofile fd with
  | none => .ok s
  | some f => do
    let s ← fileclose s f
    .ok (s.setOfile p fd none)

def exit (s : State n) (p : Fin n) : Except Panic (State n) :=
  if p = s.initproc then .error .initExiting
  else do
    let s ← (List.finRange NOFILE).foldlM (closeFd p) s
    match (s.proc p).cwd with
    | none => .error .nullCwd
    | some c =>
      let s ← iput (beginOp s) c
      let s := endOp s
      .ok (s.setProc p { s.proc p with cwd := none, state := .zombie })

/-- The process that allocproc takes. -/
def allocproc (s : State n) : Option (Fin n) :=
  (List.finRange n).find? (fun q => decide ((s.proc q).state = .unused))

/-- fork's copy of one descriptor. -/
def forkFd (p q : Fin n) (s : State n) (fd : Fin NOFILE) : Except Panic (State n) :=
  match (s.proc p).ofile fd with
  | none => .ok s
  | some f => do
    let s ← filedup s f
    .ok (s.setOfile q fd (some f))

/-- fork; `copied` tells whether there is memory for the child. -/
def fork (s : State n) (p : Fin n) (copied : Bool) : Except Panic (State n) :=
  match allocproc s, copied with
  | some q, true => do
    let s ← (List.finRange NOFILE).foldlM (forkFd p q) s
    match (s.proc p).cwd with
    | none => .error .nullCwd
    | some c =>
      let s := idup s c
      .ok (s.setProc q { s.proc q with cwd := some c, state := .running })
  | _, _ => .ok s

end Processes

section Machine

/-- A system call with its arguments. A path or target argument is what the user can read
from the address on. -/
inductive Call (n : Nat) where
  | openPath (path : List UInt8) (omode : Nat) (stack : List UInt8)
  | close (fd : Int)
  | dup (fd : Int)
  | link (old new : List UInt8)
  | unlink (path : List UInt8)
  | mkdir (path : List UInt8)
  | mknod (path : List UInt8) (major minor : Int)
  | symlink (target path : List UInt8)
  | chdir (path : List UInt8)
  | fork (copied : Bool)
  | exit
  /-- wait finds the zombie `q` among the children and frees it. -/
  | wait (q : Fin n)

def call (s : State n) (p : Fin n) : Call n → Except Panic (State n)
  | .openPath path omode stack => (sysOpen s p path omode stack).map Prod.fst
  | .close fd => (sysClose s p fd).map Prod.fst
  | .dup fd => (sysDup s p fd).map Prod.fst
  | .link old new => (sysLink s p old new).map Prod.fst
  | .unlink path => (sysUnlink s p path).map Prod.fst
  | .mkdir path => (sysMkdir s p path).map Prod.fst
  | .mknod path major minor => (sysMknod s p path major minor).map Prod.fst
  | .symlink target path => (sysSymlink s p target path).map Prod.fst
  | .chdir path => (sysChdir s p path).map Prod.fst
  | .fork copied => fork s p copied
  | .exit => exit s p
  | .wait q =>
    if (s.proc q).state = .zombie then .ok (s.setProc q { s.proc q with state := .unused })
    else .ok s

/-- A step: a running process makes a call. -/
def step (s : State n) (e : Fin n × Call n) : Except Panic (State n) :=
  if (s.proc e.1).state = .running then call s e.1 e.2 else .ok s

def next (s : State n) (e : Fin n × Call n) : Option (State n) := (step s e).toOption

/-- The file system that mkfs makes, with nothing but the root directory. -/
def rootDisk (k : Nat) : Dinode :=
  if k = ROOTINO then ⟨.dir, 0, 0, 1, [⟨ROOTINO, dot⟩, ⟨ROOTINO, dotdot⟩], []⟩ else emptyDinode

/-- After userinit: the first process has the root as current directory. -/
def boot (ninodes : Nat) (disk : Nat → Dinode) (init : Fin n) : State n where
  ninodes := ninodes
  disk := disk
  icache := fun i => if i.val = 0 then ⟨ROOTINO, 1, false, false⟩ else ⟨0, 0, false, false⟩
  file := fun _ => ⟨.none, 0, false, false, none, 0, 0⟩
  proc := fun p => if p = init then ⟨.running, fun _ => none, some ⟨0, by decide⟩⟩
    else ⟨.unused, fun _ => none, none⟩
  initproc := init
  outstanding := 0

end Machine

end Xv6Labs.Dir
