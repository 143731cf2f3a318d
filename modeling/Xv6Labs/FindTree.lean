import Xv6Labs.Runs

/-! find.c over a directory tree. The tree does not change while find runs, so `open` depends on
the length of the path, on the descriptors in use and on a device's major number only. The stack
is the one page that exec gives. -/
namespace Xv6Labs.Find

section Code

def MAXPATH : Nat := 128
def NOFILE : Nat := 16
def DIRSIZ : Nat := 14
def NDEV : Int := 10
def PGSIZE : Nat := 4096
/-- `sizeof(struct dirent)` and `sizeof(struct stat)` -/
def DIRENT : Nat := 16
def STAT : Nat := 24
/-- The size of `buf` and of main's `fileName`. -/
def BUFSIZE : Nat := 512
def SLASH : UInt8 := 47
def DOT : UInt8 := 46

/-- A string, without the zero byte behind it. -/
abbrev Str := List UInt8

/-- The name in a directory entry, other than `.` and `..`. -/
structure Name where
  bytes : Str
  some : bytes ≠ []
  short : bytes.length ≤ DIRSIZ
  noSlash : SLASH ∉ bytes
  notDot : bytes ≠ [DOT]
  notDots : bytes ≠ [DOT, DOT]

mutual

inductive Node where
  | file
  | device (major : Int)
  | dir (entries : Entries)

/-- The entries of a directory in order: one with `inum` 0, `.` or `..`, or a name. -/
inductive Entries where
  | nil
  | free (rest : Entries)
  | dots (up : Bool) (rest : Entries)
  | cons (name : Name) (node : Node) (rest : Entries)

end

inductive Fault where
  /-- a pointer below the start of a string -/
  | below
  /-- a store behind the end of an array -/
  | overrun
  /-- the recursion enters `.` or `..` -/
  | loops
  /-- a store below the stack's page -/
  | stack
  deriving DecidableEq

/-- A line that find prints, or a directory whose entries it reads. -/
inductive Event where
  | path (p : Str)
  | cannotOpen (p : Str)
  | cannotStat (p : Str)
  | enter (p : Str)
  deriving DecidableEq

/-- How far a call of find gets. -/
inductive Visit where
  /-- it opens and closes a device -/
  | device
  /-- it compares a path with the name -/
  | file
  /-- it prints a line -/
  | print
  /-- it fills `buf` and stats the entries -/
  | dir

/-- The bytes of the stack page. The compiler lays out the frames, but `buf`, `de` and `st` are in
every frame of find and `fileName` is in main's. -/
structure Stack where
  /-- what is left below main's frame -/
  room : Nat
  frame : Nat
  /-- how far below its caller's frame a call touches the stack, with the functions it calls -/
  touches : Visit → Nat
  page : room + BUFSIZE ≤ PGSIZE
  locals : BUFSIZE + DIRENT + STAT ≤ frame
  whole : frame ≤ touches .dir

/-- `open` of a path that names a file of the tree, with `used` descriptors in use. -/
def opens (path : Str) (used : Nat) : Bool :=
  decide (path.length < MAXPATH ∧ used < NOFILE)

/-- `open` of the path of this node: sys_open refuses a device without a driver. -/
def Node.opens (path : Str) (used : Nat) : Node → Bool
  | .device major => Find.opens path used && decide (0 ≤ major ∧ major < NDEV)
  | .file | .dir _ => Find.opens path used

/-- `strcmp(s + strlen(s) - strlen(t), t) == 0` -/
def endsWith (s t : Str) : Except Fault Bool :=
  if t.length ≤ s.length then .ok (decide (s.drop (s.length - t.length) = t)) else .error .below

/-- The test for `.` and `..` at the end of `buf`. -/
def isDots (buf : Str) : Except Fault Bool := do
  if ← endsWith buf [SLASH, DOT] then pure true else endsWith buf [SLASH, DOT, DOT]

def dotsName (up : Bool) : Str := if up then [DOT, DOT] else [DOT]

def join (path name : Str) : Str := path ++ SLASH :: name

section Calls

variable (stack : Stack)

/-- What a call does that gets this far, with `sp` bytes of the page left below its caller. -/
def visit (sp : Nat) (v : Visit) (call : Except Fault (List Event)) : Except Fault (List Event) :=
  if stack.touches v ≤ sp then call else .error .stack

def say (sp : Nat) (line : Event) : Except Fault (List Event) := visit stack sp .print (.ok [line])

mutual

/-- `find(path, fileName)` with `sp` bytes of stack left and `used` descriptors in use, at the node
that `path` names. -/
def find (fileName : Str) (sp used : Nat) (path : Str) : Node → Except Fault (List Event)
  | .file =>
    if opens path used then
      visit stack sp .file (do
        if ← endsWith path fileName then say stack sp (.path path) else .ok [])
    else say stack sp (.cannotOpen path)
  | .device major =>
    if (Node.device major).opens path used then visit stack sp .device (.ok [])
    else say stack sp (.cannotOpen path)
  | .dir entries =>
    if opens path used then
      if path.length < BUFSIZE then
        visit stack sp .dir (do
          let events ← scan fileName sp (used + 1) path entries
          .ok (.enter path :: events))
      else .error .overrun
    else say stack sp (.cannotOpen path)

/-- The loop over the entries; `buf` is the path, a slash and the name. -/
def scan (fileName : Str) (sp used : Nat) (path : Str) : Entries → Except Fault (List Event)
  | .nil => .ok []
  | .free rest => scan fileName sp used path rest
  | .dots up rest =>
    if path.length + 1 + DIRSIZ < BUFSIZE then
      let buf := join path (dotsName up)
      if opens buf used then do
        if ← isDots buf then scan fileName sp used path rest else .error .loops
      else do
        let line ← say stack sp (.cannotStat buf)
        let events ← scan fileName sp used path rest
        .ok (line ++ events)
    else .error .overrun
  | .cons name node rest =>
    if path.length + 1 + DIRSIZ < BUFSIZE then
      let buf := join path name.bytes
      if node.opens buf used then do
        if ← isDots buf then scan fileName sp used path rest
        else
          let below ← find fileName (sp - stack.frame) used buf node
          let events ← scan fileName sp used path rest
          .ok (below ++ events)
      else do
        let line ← say stack sp (.cannotStat buf)
        let events ← scan fileName sp used path rest
        .ok (line ++ events)
    else .error .overrun

end

/-- main, for `argv[1]`, `argv[2]` and the node that `argv[1]` names; three descriptors are in
use. -/
def main (path name : Str) (node : Node) : Except Fault (List Event) :=
  if name.length + 2 ≤ BUFSIZE then find stack (SLASH :: name) stack.room 3 path node
  else .error .overrun

end Calls

end Code

section Expected

mutual

/-- The files below a node that have the name, and the directories, each once and in order;
`last` is the last component of the path. -/
def expected (name last path : Str) : Node → List Event
  | .file => if last = name then [.path path] else []
  | .device _ => []
  | .dir entries => .enter path :: expectedIn name path entries

def expectedIn (name path : Str) : Entries → List Event
  | .nil => []
  | .free rest => expectedIn name path rest
  | .dots _ rest => expectedIn name path rest
  | .cons n node rest =>
    expected name n.bytes (join path n.bytes) node ++ expectedIn name path rest

end

mutual

/-- Every path can be opened, the stack has room for every call, and the path of a file is not
shorter than `fileName`. -/
def Fits (stack : Stack) (fileName : Str) (sp used : Nat) (path : Str) : Node → Prop
  | .file => opens path used = true ∧ stack.touches .file ≤ sp ∧
    fileName.length ≤ path.length ∧ (fileName <:+ path → stack.touches .print ≤ sp)
  | .device major =>
    (Node.device major).opens path used = true ∧ stack.touches .device ≤ sp
  | .dir entries => opens path used = true ∧ stack.touches .dir ≤ sp ∧
    FitsIn stack fileName sp (used + 1) path entries

def FitsIn (stack : Stack) (fileName : Str) (sp used : Nat) (path : Str) : Entries → Prop
  | .nil => True
  | .free rest => FitsIn stack fileName sp used path rest
  | .dots up rest =>
    opens (join path (dotsName up)) used = true ∧ FitsIn stack fileName sp used path rest
  | .cons n node rest =>
    Fits stack fileName (sp - stack.frame) used (join path n.bytes) node ∧
      FitsIn stack fileName sp used path rest

end

mutual

/-- How many directories lie one in the other. -/
def Node.depth : Node → Nat
  | .file | .device _ => 0
  | .dir entries => entries.depth + 1

def Entries.depth : Entries → Nat
  | .nil => 0
  | .free rest | .dots _ rest => rest.depth
  | .cons _ node rest => max node.depth rest.depth

end

mutual

/-- No file's path ends in a slash and the name unless the name is its last component: only a
name with a slash in it can go wrong. -/
def Exact (name last path : Str) : Node → Prop
  | .file => (SLASH :: name) <:+ path → last = name
  | .device _ => True
  | .dir entries => ExactIn name path entries

def ExactIn (name path : Str) : Entries → Prop
  | .nil => True
  | .free rest => ExactIn name path rest
  | .dots _ rest => ExactIn name path rest
  | .cons n node rest =>
    Exact name n.bytes (join path n.bytes) node ∧ ExactIn name path rest

end

mutual

/-- What find prints where nothing fails. -/
def printed (fileName path : Str) : Node → List Event
  | .file => if fileName <:+ path then [.path path] else []
  | .device _ => []
  | .dir entries => .enter path :: printedIn fileName path entries

def printedIn (fileName path : Str) : Entries → List Event
  | .nil => []
  | .free rest => printedIn fileName path rest
  | .dots _ rest => printedIn fileName path rest
  | .cons n node rest => printed fileName (join path n.bytes) node ++ printedIn fileName path rest

end

def Event.quiet : Event → Prop
  | .path _ | .enter _ => True
  | .cannotOpen _ | .cannotStat _ => False

end Expected

section Strings

theorem opens_iff (path : Str) (used : Nat) :
    opens path used = true ↔ path.length < MAXPATH ∧ used < NOFILE := by
  unfold opens
  rw [decide_eq_true_eq]

theorem length_join (path name : Str) :
    (join path name).length = path.length + name.length + 1 := by
  unfold join
  rw [List.length_append, List.length_cons]
  omega

theorem drop_eq_iff_suffix (s t : Str) (h : t.length ≤ s.length) :
    s.drop (s.length - t.length) = t ↔ t <:+ s := by
  constructor
  · intro heq
    rw [← heq]
    exact List.drop_suffix _ _
  · rintro ⟨l, rfl⟩
    have hlen : (l ++ t).length - t.length = l.length := by
      rw [List.length_append]
      omega
    rw [hlen, List.drop_left]

theorem endsWith_spec (s t : Str) (h : t.length ≤ s.length) :
    endsWith s t = .ok (decide (t <:+ s)) := by
  unfold endsWith
  rw [if_pos h]
  congr 1
  exact decide_eq_decide.mpr (drop_eq_iff_suffix s t h)

/-- A slash and a name end a joined path only if the names agree. -/
theorem suffix_join (path a b : Str) (ha : SLASH ∉ a) (hb : SLASH ∉ b)
    (h : (SLASH :: a) <:+ join path b) : a = b := by
  obtain ⟨l, hl⟩ := h
  unfold join at hl
  rcases List.append_eq_append_iff.mp hl with ⟨m, -, hm⟩ | ⟨m, -, hm⟩
  · cases m with
    | nil => exact (List.cons.inj hm).2
    | cons c m =>
      have hmem : SLASH ∈ a := by
        rw [(List.cons.inj hm).2]
        exact List.mem_append_right _ List.mem_cons_self
      exact absurd hmem ha
  · cases m with
    | nil => exact (List.cons.inj hm).2.symm
    | cons c m =>
      have hmem : SLASH ∈ b := by
        rw [(List.cons.inj hm).2]
        exact List.mem_append_right _ List.mem_cons_self
      exact absurd hmem hb

theorem isDots_name (path : Str) (hpath : path ≠ []) (n : Name) :
    isDots (join path n.bytes) = .ok false := by
  have hlen := length_join path n.bytes
  have hpos := List.length_pos_iff.mpr hpath
  have hpos' := List.length_pos_iff.mpr n.some
  have hdot : ¬[SLASH, DOT] <:+ join path n.bytes := by
    intro h
    exact n.notDot (suffix_join path [DOT] n.bytes (by decide) n.noSlash h).symm
  have hdots : ¬[SLASH, DOT, DOT] <:+ join path n.bytes := by
    intro h
    exact n.notDots (suffix_join path [DOT, DOT] n.bytes (by decide) n.noSlash h).symm
  have hfirst := endsWith_spec (join path n.bytes) [SLASH, DOT] (by rw [hlen]; change 2 ≤ _; omega)
  have hsecond := endsWith_spec (join path n.bytes) [SLASH, DOT, DOT]
    (by rw [hlen]; change 3 ≤ _; omega)
  rw [decide_eq_false hdot] at hfirst
  rw [decide_eq_false hdots] at hsecond
  unfold isDots
  rw [hfirst]
  exact hsecond

theorem isDots_dots (path : Str) (up : Bool) : isDots (join path (dotsName up)) = .ok true := by
  cases up with
  | false =>
    have hlen := length_join path (dotsName false)
    have hfirst := endsWith_spec (join path (dotsName false)) [SLASH, DOT]
      (by rw [hlen]; change 2 ≤ path.length + 1 + 1; omega)
    have hyes : [SLASH, DOT] <:+ join path (dotsName false) := List.suffix_append path _
    rw [decide_eq_true hyes] at hfirst
    unfold isDots
    rw [hfirst]
    rfl
  | true =>
    have hlen := length_join path (dotsName true)
    have hno : ¬[SLASH, DOT] <:+ join path (dotsName true) := by
      intro h
      have heq := suffix_join path [DOT] [DOT, DOT] (by decide) (by decide) h
      cases heq
    have hfirst := endsWith_spec (join path (dotsName true)) [SLASH, DOT]
      (by rw [hlen]; change 2 ≤ path.length + 2 + 1; omega)
    have hsecond := endsWith_spec (join path (dotsName true)) [SLASH, DOT, DOT]
      (by rw [hlen]; change 3 ≤ path.length + 2 + 1; omega)
    rw [decide_eq_false hno] at hfirst
    have hyes : [SLASH, DOT, DOT] <:+ join path (dotsName true) := List.suffix_append path _
    rw [decide_eq_true hyes] at hsecond
    unfold isDots
    rw [hfirst]
    exact hsecond

theorem join_ne_nil (path name : Str) : join path name ≠ [] := by
  unfold join
  exact List.append_ne_nil_of_right_ne_nil _ (List.cons_ne_nil _ _)

end Strings

section Walk

/-- A directory whose path can be opened leaves room in `buf` for a name. -/
theorem buf_room {path : Str} {used : Nat} (h : opens path used = true) :
    path.length + 1 + DIRSIZ < BUFSIZE := by
  have hlen := ((opens_iff path used).mp h).1
  have hmax : MAXPATH = 128 := rfl
  have hsiz : DIRSIZ = 14 := rfl
  have hbuf : BUFSIZE = 512 := rfl
  omega

theorem visit_ok {stack : Stack} {sp : Nat} {v : Visit} {call : Except Fault (List Event)}
    {out : List Event} :
    visit stack sp v call = .ok out ↔ stack.touches v ≤ sp ∧ call = .ok out := by
  unfold visit
  by_cases h : stack.touches v ≤ sp
  · rw [if_pos h]
    exact ⟨fun hcall => ⟨h, hcall⟩, fun hcall => hcall.2⟩
  · rw [if_neg h]
    exact ⟨nofun, fun hcall => absurd hcall.1 h⟩

/-- A call that complains does not run quietly. -/
theorem say_not_quiet {stack : Stack} {sp : Nat} {line : Event} {out : List Event}
    (h : say stack sp line = .ok out) (hquiet : ∀ e ∈ out, e.quiet) : line.quiet := by
  cases (visit_ok.mp h).2
  exact hquiet line List.mem_cons_self

theorem Fits.opens {stack : Stack} {fileName : Str} {sp used : Nat} {path : Str} :
    ∀ {node : Node}, Fits stack fileName sp used path node → node.opens path used = true
  | .file, h => h.1
  | .device _, h => h.1
  | .dir _, h => h.1

variable (stack : Stack)

mutual

/-- Where the tree fits, find prints what it means to print. -/
theorem find_fits (fileName : Str) (sp used : Nat) (path : Str) (hpath : path ≠ []) :
    ∀ node, Fits stack fileName sp used path node →
      find stack fileName sp used path node = .ok (printed fileName path node)
  | .file => by
    rintro ⟨hopen, hfile, hlen, hprint⟩
    unfold find printed
    rw [if_pos hopen, visit_ok, endsWith_spec path fileName hlen]
    refine ⟨hfile, ?_⟩
    by_cases hend : fileName <:+ path
    · rw [if_pos hend, decide_eq_true hend]
      exact visit_ok.mpr ⟨hprint hend, rfl⟩
    · rw [if_neg hend, decide_eq_false hend]
      rfl
  | .device major => by
    rintro ⟨hopen, hroom⟩
    unfold find printed
    rw [if_pos hopen]
    exact visit_ok.mpr ⟨hroom, rfl⟩
  | .dir entries => by
    rintro ⟨hopen, hdir, hfits⟩
    have hroom := buf_room hopen
    unfold find printed
    rw [if_pos hopen, if_pos (by omega), visit_ok,
      scan_fits fileName sp (used + 1) path hpath hroom entries hfits]
    exact ⟨hdir, rfl⟩

theorem scan_fits (fileName : Str) (sp used : Nat) (path : Str) (hpath : path ≠ [])
    (hroom : path.length + 1 + DIRSIZ < BUFSIZE) :
    ∀ entries, FitsIn stack fileName sp used path entries →
      scan stack fileName sp used path entries = .ok (printedIn fileName path entries)
  | .nil => fun _ => rfl
  | .free rest => by
    intro hfits
    unfold scan printedIn
    exact scan_fits fileName sp used path hpath hroom rest hfits
  | .dots up rest => by
    rintro ⟨hopen, hfits⟩
    unfold scan printedIn
    rw [if_pos hroom]
    dsimp only
    rw [if_pos hopen, isDots_dots path up]
    exact scan_fits fileName sp used path hpath hroom rest hfits
  | .cons n node rest => by
    rintro ⟨hnode, hfits⟩
    unfold scan printedIn
    rw [if_pos hroom]
    dsimp only
    rw [if_pos hnode.opens, isDots_name path hpath n,
      find_fits fileName (sp - stack.frame) used (join path n.bytes) (join_ne_nil _ _) node hnode,
      scan_fits fileName sp used path hpath hroom rest hfits]
    rfl

end

theorem ok_bind_eq {α β : Type} {x : Except Fault α} {f : α → Except Fault β} {b : β}
    (h : x >>= f = .ok b) : ∃ a, x = .ok a ∧ f a = .ok b := by
  cases x with
  | error e => cases h
  | ok a => exact ⟨a, rfl, h⟩

/-- Where find goes on behind a complaint, the complaint is among what it prints. -/
theorem complaint_not_quiet {sp : Nat} {line : Event} {rest : Except Fault (List Event)}
    {out : List Event}
    (h : (do let l ← say stack sp line; let events ← rest; .ok (l ++ events)) = .ok out)
    (hquiet : ∀ e ∈ out, e.quiet) : line.quiet := by
  obtain ⟨l, hsay, htail⟩ := ok_bind_eq h
  obtain ⟨events, -, hout⟩ := ok_bind_eq htail
  cases hout
  exact say_not_quiet hsay (fun e he => hquiet e (List.mem_append_left _ he))

mutual

/-- Where find prints no error and no pointer leaves a string or the stack, the tree fits. -/
theorem fits_find (fileName : Str) (sp used : Nat) (path : Str) (hpath : path ≠ []) :
    ∀ (node : Node) (out : List Event), find stack fileName sp used path node = .ok out →
      (∀ e ∈ out, e.quiet) → Fits stack fileName sp used path node
  | .file, out => by
    intro hfind hquiet
    unfold find at hfind
    by_cases hopen : opens path used = true
    · rw [if_pos hopen] at hfind
      obtain ⟨hfile, hcompare⟩ := visit_ok.mp hfind
      obtain ⟨b, hend, hprint⟩ := ok_bind_eq hcompare
      by_cases hlen : fileName.length ≤ path.length
      · refine ⟨hopen, hfile, hlen, fun hsuffix => ?_⟩
        rw [endsWith_spec path fileName hlen, decide_eq_true hsuffix] at hend
        cases hend
        exact (visit_ok.mp hprint).1
      · unfold endsWith at hend
        rw [if_neg hlen] at hend
        cases hend
    · rw [if_neg hopen] at hfind
      exact (say_not_quiet hfind hquiet).elim
  | .device major, out => by
    intro hfind hquiet
    unfold find at hfind
    by_cases hopen : (Node.device major).opens path used = true
    · rw [if_pos hopen] at hfind
      exact ⟨hopen, (visit_ok.mp hfind).1⟩
    · rw [if_neg hopen] at hfind
      exact (say_not_quiet hfind hquiet).elim
  | .dir entries, out => by
    intro hfind hquiet
    unfold find at hfind
    by_cases hopen : opens path used = true
    · have hroom := buf_room hopen
      rw [if_pos hopen, if_pos (by omega)] at hfind
      obtain ⟨hdir, hloop⟩ := visit_ok.mp hfind
      obtain ⟨events, hscan, hout⟩ := ok_bind_eq hloop
      cases hout
      refine ⟨hopen, hdir,
        fits_scan fileName sp (used + 1) path hpath hroom entries events hscan ?_⟩
      intro e he
      exact hquiet e (List.mem_cons_of_mem _ he)
    · rw [if_neg hopen] at hfind
      exact (say_not_quiet hfind hquiet).elim

theorem fits_scan (fileName : Str) (sp used : Nat) (path : Str) (hpath : path ≠ [])
    (hroom : path.length + 1 + DIRSIZ < BUFSIZE) :
    ∀ (entries : Entries) (out : List Event),
      scan stack fileName sp used path entries = .ok out →
      (∀ e ∈ out, e.quiet) → FitsIn stack fileName sp used path entries
  | .nil, _ => fun _ _ => trivial
  | .free rest, out => by
    intro hscan hquiet
    unfold scan at hscan
    exact fits_scan fileName sp used path hpath hroom rest out hscan hquiet
  | .dots up rest, out => by
    intro hscan hquiet
    unfold scan at hscan
    rw [if_pos hroom] at hscan
    dsimp only at hscan
    by_cases hopen : opens (join path (dotsName up)) used = true
    · rw [if_pos hopen, isDots_dots path up] at hscan
      exact ⟨hopen, fits_scan fileName sp used path hpath hroom rest out hscan hquiet⟩
    · rw [if_neg hopen] at hscan
      exact (complaint_not_quiet stack hscan hquiet).elim
  | .cons n node rest, out => by
    intro hscan hquiet
    unfold scan at hscan
    rw [if_pos hroom] at hscan
    dsimp only at hscan
    by_cases hopen : node.opens (join path n.bytes) used = true
    · rw [if_pos hopen, isDots_name path hpath n] at hscan
      obtain ⟨dots, hdots, hscan⟩ := ok_bind_eq hscan
      cases hdots
      rw [if_neg Bool.false_ne_true] at hscan
      obtain ⟨below, hbelow, htail⟩ := ok_bind_eq hscan
      obtain ⟨events, hrest, hout⟩ := ok_bind_eq htail
      cases hout
      refine ⟨?_, ?_⟩
      · refine fits_find fileName _ used (join path n.bytes) (join_ne_nil _ _) node below hbelow ?_
        intro e he
        exact hquiet e (List.mem_append_left _ he)
      · refine fits_scan fileName sp used path hpath hroom rest events hrest ?_
        intro e he
        exact hquiet e (List.mem_append_right _ he)
    · rw [if_neg hopen] at hscan
      exact (complaint_not_quiet stack hscan hquiet).elim

end

mutual

/-- Every directory on the way down takes a frame. -/
theorem depth_fits (fileName : Str) (sp used : Nat) (path : Str) :
    ∀ node, Fits stack fileName sp used path node → node.depth * stack.frame ≤ sp
  | .file => fun _ => by
    unfold Node.depth
    omega
  | .device _ => fun _ => by
    unfold Node.depth
    omega
  | .dir entries => by
    rintro ⟨-, hdir, hfits⟩
    have hwhole := stack.whole
    have hbelow := depth_fitsIn fileName sp (used + 1) path (Nat.le_trans hwhole hdir)
      entries hfits
    unfold Node.depth
    rw [Nat.add_mul]
    omega

theorem depth_fitsIn (fileName : Str) (sp used : Nat) (path : Str) (hframe : stack.frame ≤ sp) :
    ∀ entries, FitsIn stack fileName sp used path entries →
      entries.depth * stack.frame ≤ sp - stack.frame
  | .nil => fun _ => by
    unfold Entries.depth
    omega
  | .free rest => by
    intro hfits
    unfold Entries.depth
    exact depth_fitsIn fileName sp used path hframe rest hfits
  | .dots _ rest => by
    rintro ⟨-, hfits⟩
    unfold Entries.depth
    exact depth_fitsIn fileName sp used path hframe rest hfits
  | .cons n node rest => by
    rintro ⟨hnode, hfits⟩
    have hthis := depth_fits fileName (sp - stack.frame) used (join path n.bytes) node hnode
    have hrest := depth_fitsIn fileName sp used path hframe rest hfits
    unfold Entries.depth
    rcases Nat.le_total node.depth rest.depth with hle | hle
    · rw [Nat.max_eq_right hle]
      exact hrest
    · rw [Nat.max_eq_left hle]
      exact hthis

end

/-- One page of stack has room for six directories one in the other. -/
theorem depth_le_six (fileName : Str) (used : Nat) (path : Str) (node : Node)
    (hfits : Fits stack fileName stack.room used path node) : node.depth ≤ 6 := by
  have hdepth := depth_fits stack fileName stack.room used path node hfits
  have hpage : stack.room + 512 ≤ 4096 := stack.page
  have hlocals : 552 ≤ stack.frame := stack.locals
  by_contra hdeep
  have hseven : 7 * 552 ≤ node.depth * stack.frame := Nat.mul_le_mul (by omega) hlocals
  omega

mutual

theorem expected_quiet (name last path : Str) :
    ∀ node, ∀ e ∈ expected name last path node, e.quiet
  | .file => by
    intro e he
    unfold expected at he
    split at he
    · rw [List.mem_singleton.mp he]
      trivial
    · cases he
  | .device _ => nofun
  | .dir entries => by
    intro e he
    rcases List.mem_cons.mp he with rfl | he
    · trivial
    · exact expectedIn_quiet name path entries e he

theorem expectedIn_quiet (name path : Str) :
    ∀ entries, ∀ e ∈ expectedIn name path entries, e.quiet
  | .nil => nofun
  | .free rest => expectedIn_quiet name path rest
  | .dots _ rest => expectedIn_quiet name path rest
  | .cons n node rest => by
    intro e he
    rcases List.mem_append.mp he with he | he
    · exact expected_quiet name n.bytes (join path n.bytes) node e he
    · exact expectedIn_quiet name path rest e he

end

mutual

/-- At an entry, what is printed is at least what is expected, and the same length only if it is
the same. -/
theorem printed_length (name path : Str) (n : Name) :
    ∀ node, (expected name n.bytes (join path n.bytes) node).length ≤
        (printed (SLASH :: name) (join path n.bytes) node).length ∧
      ((expected name n.bytes (join path n.bytes) node).length =
        (printed (SLASH :: name) (join path n.bytes) node).length ↔
          Exact name n.bytes (join path n.bytes) node) ∧
      (Exact name n.bytes (join path n.bytes) node →
        printed (SLASH :: name) (join path n.bytes) node =
          expected name n.bytes (join path n.bytes) node)
  | .file => by
    unfold expected printed Exact
    by_cases hname : n.bytes = name
    · have hend : (SLASH :: name) <:+ join path n.bytes := by
        rw [← hname]
        exact List.suffix_append path _
      rw [if_pos hname, if_pos hend]
      exact ⟨Nat.le_refl _, ⟨fun _ _ => hname, fun _ => rfl⟩, fun _ => rfl⟩
    · rw [if_neg hname]
      by_cases hend : (SLASH :: name) <:+ join path n.bytes
      · rw [if_pos hend]
        refine ⟨Nat.zero_le _, ⟨nofun, ?_⟩, ?_⟩
        · intro h
          exact absurd (h hend) hname
        · intro h
          exact absurd (h hend) hname
      · rw [if_neg hend]
        exact ⟨Nat.le_refl _, ⟨fun _ h => absurd h hend, fun _ => rfl⟩, fun _ => rfl⟩
  | .device _ => ⟨Nat.le_refl _, ⟨fun _ => trivial, fun _ => rfl⟩, fun _ => rfl⟩
  | .dir entries => by
    obtain ⟨hle, hiff, heq⟩ := printedIn_length name (join path n.bytes) entries
    unfold expected printed Exact
    rw [List.length_cons, List.length_cons]
    refine ⟨by omega, ?_, ?_⟩
    · rw [← hiff]
      omega
    · intro h
      rw [heq h]

theorem printedIn_length (name path : Str) :
    ∀ entries, (expectedIn name path entries).length ≤
        (printedIn (SLASH :: name) path entries).length ∧
      ((expectedIn name path entries).length =
        (printedIn (SLASH :: name) path entries).length ↔ ExactIn name path entries) ∧
      (ExactIn name path entries →
        printedIn (SLASH :: name) path entries = expectedIn name path entries)
  | .nil => ⟨Nat.le_refl _, ⟨fun _ => trivial, fun _ => rfl⟩, fun _ => rfl⟩
  | .free rest => printedIn_length name path rest
  | .dots _ rest => printedIn_length name path rest
  | .cons n node rest => by
    obtain ⟨hle, hiff, heq⟩ := printed_length name path n node
    obtain ⟨hle', hiff', heq'⟩ := printedIn_length name path rest
    unfold expectedIn printedIn ExactIn
    rw [List.length_append, List.length_append]
    refine ⟨by omega, ?_, ?_⟩
    · rw [← hiff, ← hiff']
      omega
    · rintro ⟨h, h'⟩
      rw [heq h, heq' h']

end

/-- find prints the matching files, each once and in order, and visits every directory once,
exactly when the name fits into `fileName`, every path can be opened, the stack has room for every
call, no file's path is shorter than `/` and the name, and only the files of that name have a path
that ends in it. -/
theorem main_expected_iff (path name : Str) (hpath : path ≠ []) (entries : Entries) :
    main stack path name (.dir entries) = .ok (.enter path :: expectedIn name path entries) ↔
      name.length + 2 ≤ BUFSIZE ∧
      Fits stack (SLASH :: name) stack.room 3 path (.dir entries) ∧
      ExactIn name path entries := by
  obtain ⟨-, hiff, heq⟩ := printedIn_length name path entries
  unfold main
  constructor
  · intro h
    by_cases hname : name.length + 2 ≤ BUFSIZE
    · rw [if_pos hname] at h
      have hquiet : ∀ e ∈ Event.enter path :: expectedIn name path entries, e.quiet := by
        intro e he
        rcases List.mem_cons.mp he with rfl | he
        · trivial
        · exact expectedIn_quiet name path entries e he
      have hfits := fits_find stack (SLASH :: name) stack.room 3 path hpath _ _ h hquiet
      refine ⟨hname, hfits, ?_⟩
      rw [find_fits stack (SLASH :: name) stack.room 3 path hpath _ hfits] at h
      have hsame := Except.ok.inj h
      unfold printed at hsame
      -- What is printed and what is expected have the same number of lines.
      exact hiff.mp (congrArg List.length (List.cons.inj hsame).2).symm
    · rw [if_neg hname] at h
      cases h
  · rintro ⟨hname, hfits, hexact⟩
    rw [if_pos hname, find_fits stack (SLASH :: name) stack.room 3 path hpath _ hfits]
    unfold printed
    rw [heq hexact]

end Walk

section Small

def oneByte (b : UInt8) (hslash : SLASH ≠ b) (hdot : b ≠ DOT) : Name where
  bytes := [b]
  some := List.cons_ne_nil _ _
  short := by
    change 1 ≤ 14
    omega
  noSlash := by
    intro h
    exact hslash (List.mem_singleton.mp h)
  notDot := by
    intro h
    exact hdot (List.cons.inj h).1
  notDots := by
    intro h
    cases (List.cons.inj h).2

def nameX : Name := oneByte 120 (by decide) (by decide)
def nameC : Name := oneByte 99 (by decide) (by decide)

/-- A page with the arguments, a main of 560 bytes and a find of 624. -/
def smallStack : Stack where
  room := 3456
  frame := 624
  touches
    | .device => 80
    | .file => 640
    | .print => 880
    | .dir => 672
  page := by decide
  locals := by decide
  whole := by decide

/-- `find . x` in a directory with a file `x` and the console `c`. -/
theorem main_expected_iff_dot :
    ([DOT] : Str) ≠ [] ∧
    main smallStack [DOT] [120] (.dir (.cons nameX .file (.cons nameC (.device 1) .nil))) =
      .ok [.enter [DOT], .path [DOT, SLASH, 120]] := by
  have hnonempty : ([DOT] : Str) ≠ [] := List.cons_ne_nil _ _
  refine ⟨hnonempty, (main_expected_iff smallStack [DOT] [120] hnonempty _).mpr ⟨?_, ?_, ?_⟩⟩
  · decide
  · exact ⟨by decide, by decide, ⟨by decide, by decide, by decide, fun _ => by decide⟩,
      ⟨by decide, by decide⟩, trivial⟩
  · exact ⟨fun _ => rfl, trivial, trivial⟩

/-- `find . abc` in a directory with a file `x` compares from below the start of `./x`. -/
theorem find_below :
    main smallStack [DOT] [97, 98, 99] (.dir (.cons nameX .file .nil)) = .error .below ∧
    main smallStack [DOT] [97, 98, 99] (.dir (.cons nameX .file .nil)) ≠
      .ok (.enter [DOT] :: expectedIn [97, 98, 99] [DOT] (.cons nameX .file .nil)) := by
  refine ⟨rfl, ?_⟩
  intro h
  cases h

end Small

end Xv6Labs.Find
