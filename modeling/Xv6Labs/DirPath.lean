import Xv6Labs.DirExact
import Mathlib.Data.List.TakeWhile

/-! Path names as namex reads them: a pointer that moves over the bytes of a string, and a
buffer of DIRSIZ bytes for the element, which holds no NUL when the element fills it. -/
namespace Xv6Labs.Dir

variable {n : Nat} {s t : State n} {p : Fin n} {J J' L : List Slot} {d : Int} {i : Slot}

section Code

/-- `while(*path == '/') path++` -/
def skipSlashes : List UInt8 → List UInt8
  | [] => []
  | c :: path => if c = slash then skipSlashes path else c :: path

/-- `while(*path != '/' && *path != 0) path++`; the length of the element and the pointer. -/
def scanElem : List UInt8 → Nat × List UInt8
  | [] => (0, [])
  | c :: path =>
    if c ≠ slash ∧ c ≠ 0 then ((scanElem path).1 + 1, (scanElem path).2) else (0, c :: path)

/-- The memmove of an element to the buffer. -/
def fillName (name elem : List UInt8) (len : Nat) : List UInt8 :=
  if DIRSIZ ≤ len then elem.take DIRSIZ ++ name.drop DIRSIZ
  else elem.take len ++ 0 :: name.drop (len + 1)

/-- skipelem on memory, from the pointer on. The answer is the new pointer and the buffer. -/
def skipelemAt (path name : List UInt8) : Option (List UInt8 × List UInt8) :=
  let start := skipSlashes path
  if start.headD 0 = 0 then none
  else
    let r := scanElem start
    some (skipSlashes r.2, fillName name start r.1)

theorem skipSlashes_length (path : List UInt8) : (skipSlashes path).length ≤ path.length := by
  induction path with
  | nil => exact Nat.le_refl _
  | cons c path ih =>
    unfold skipSlashes
    split
    · exact Nat.le_succ_of_le ih
    · exact Nat.le_refl _

theorem scanElem_length (path : List UInt8) : (scanElem path).2.length ≤ path.length := by
  induction path with
  | nil => exact Nat.le_refl _
  | cons c path ih =>
    unfold scanElem
    split
    · exact Nat.le_succ_of_le ih
    · exact Nat.le_refl _

theorem skipSlashes_head (path : List UInt8) : (skipSlashes path).headD 0 ≠ slash := by
  induction path with
  | nil => decide
  | cons c path ih =>
    unfold skipSlashes
    split
    · exact ih
    · rename_i hc
      exact hc

theorem skipelemAt_length {path name path' name' : List UInt8}
    (h : skipelemAt path name = some (path', name')) : path'.length < path.length := by
  unfold skipelemAt at h
  have hhead := skipSlashes_head path
  have hlen := skipSlashes_length path
  cases hstart : skipSlashes path with
  | nil =>
    rw [hstart] at h
    exact absurd h (by simp)
  | cons c rest =>
    rw [hstart] at h hhead hlen
    by_cases hc : (c :: rest).headD 0 = 0
    · rw [if_pos hc] at h
      cases h
    · rw [if_neg hc] at h
      have hscan := scanElem_length rest
      have hskip := skipSlashes_length (scanElem rest).2
      simp only [Option.some.injEq, Prod.mk.injEq] at h
      rw [← h.1]
      unfold scanElem
      rw [if_pos ⟨hhead, hc⟩]
      simp only [List.length_cons] at hlen ⊢
      omega

/-- The buffers that skipelem fills, when it is called until there is no element. -/
def elemsAt (path name : List UInt8) : List (List UInt8) :=
  match _h : skipelemAt path name with
  | none => []
  | some (path', name') => name' :: elemsAt path' name'
termination_by path.length
decreasing_by exact skipelemAt_length _h

/-- The loop of namex. The answer is the inode and the buffer. -/
def namexLoopAt (parent : Bool) (path name : List UInt8) (s : State n) (ip : Slot) :
    Except Panic (State n × Option (Slot × List UInt8)) :=
  match _h : skipelemAt path name with
  | none =>
    if parent then do
      let s ← iput s ip
      .ok (s, none)
    else .ok (s, some (ip, name))
  | some (path', name') => do
    let s ← ilock s ip
    if (s.node ip).type ≠ .dir then
      let s ← iunlockput s ip
      .ok (s, none)
    else if parent ∧ path'.headD 0 = 0 then
      -- stop one level early
      let s ← iunlock s ip
      .ok (s, some (ip, name'))
    else
      -- namecmp stops at a NUL or after DIRSIZ bytes
      let r ← dirlookup s ip (cstring name')
      let s ← iunlockput r.1 ip
      match r.2 with
      | none => .ok (s, none)
      | some (next, _) => namexLoopAt parent path' name' s next
termination_by path.length
decreasing_by exact skipelemAt_length _h

/-- Where namex starts, by the first byte of the path. -/
def namexStartAt (s : State n) (p : Fin n) (path : List UInt8) :
    Except Panic (State n × Slot) :=
  if path.headD 0 = slash then iget s ROOTINO
  else
    match (s.proc p).cwd with
    | none => .error .nullCwd
    | some c => .ok (idup s c, c)

/-- namex on the bytes of a path. -/
def namexAt (s : State n) (p : Fin n) (path : List UInt8) (parent : Bool) (name : List UInt8) :
    Except Panic (State n × Option (Slot × List UInt8)) := do
  let r ← namexStartAt s p path
  namexLoopAt parent path name r.1 r.2

/-- namei, with its own buffer `name`. -/
def nameiAt (s : State n) (p : Fin n) (path name : List UInt8) :
    Except Panic (State n × Option Slot) := do
  let r ← namexAt s p path false name
  .ok (r.1, r.2.map Prod.fst)

def nameiparentAt (s : State n) (p : Fin n) (path name : List UInt8) :
    Except Panic (State n × Option (Slot × List UInt8)) :=
  namexAt s p path true name

end Code

section Pieces

/-- The maximal pieces of a path without a slash, cut to DIRSIZ bytes. -/
def pieces (path : Path) : List Path :=
  ((path.splitOn slash).filter (fun piece => piece ≠ [])).map (List.take DIRSIZ)

theorem pieces_nil : pieces [] = [] := by
  decide

theorem pieces_slash (path : Path) : pieces (slash :: path) = pieces path := by
  unfold pieces
  rw [List.splitOn_cons_eq_if_modifyHead]
  simp

theorem pieces_dropSlashes (path : Path) :
    pieces (path.dropWhile (· == slash)) = pieces path := by
  induction path with
  | nil => rfl
  | cons c path ih =>
    by_cases hc : c = slash
    · rw [List.dropWhile_cons_of_pos (by simpa using hc), ih, hc, pieces_slash]
    · rw [List.dropWhile_cons_of_neg (by simpa using hc)]

/-- A piece at the start of a path, up to the next slash. -/
theorem pieces_append {piece rest : Path} (hne : piece ≠ []) (hpiece : slash ∉ piece)
    (hrest : rest.headD slash = slash) :
    pieces (piece ++ rest) = piece.take DIRSIZ :: pieces rest := by
  cases rest with
  | nil =>
    rw [List.append_nil, pieces_nil]
    unfold pieces
    rw [List.splitOn_eq_singleton hpiece]
    simp [hne]
  | cons c rest =>
    have hc : c = slash := hrest
    rw [hc, pieces_slash]
    unfold pieces
    rw [List.splitOn_append_cons_self_of_not_mem hpiece]
    simp [hne]

theorem headD_dropWhile_slash (path : Path) :
    (path.dropWhile (· != slash)).headD slash = slash := by
  have hhead := List.head?_dropWhile_not (· != slash) path
  cases hd : path.dropWhile (· != slash) with
  | nil => rfl
  | cons c rest =>
    rw [hd] at hhead
    simpa using hhead

theorem elems_none {path : Path} (h : skipelem path = none) : elems path = [] := by
  rw [elems.eq_def]
  split
  · rfl
  · rename_i hsome
    rw [h] at hsome
    cases hsome

theorem elems_some {path elem rest : Path} (h : skipelem path = some (elem, rest)) :
    elems path = elem :: elems rest := by
  rw [elems.eq_def]
  split
  · rename_i hnone
    rw [h] at hnone
    cases hnone
  · rename_i hsome
    rw [h] at hsome
    cases hsome
    rfl

/-- skipelem takes the pieces of a path. -/
theorem elems_eq_pieces (path : Path) : elems path = pieces path := by
  induction path using elems.induct with
  | case1 path hnone =>
    rw [elems_none hnone, ← pieces_dropSlashes path]
    unfold skipelem at hnone
    split at hnone
    · rename_i hd
      rw [hd, pieces_nil]
    · cases hnone
  | case2 path name rest hsome ih =>
    rw [elems_some hsome, ih, ← pieces_dropSlashes path]
    unfold skipelem at hsome
    have hhead := List.head?_dropWhile_not (· == slash) path
    split at hsome
    · cases hsome
    · rename_i c path' hd
      rw [hd] at hhead ⊢
      have hc : c ≠ slash := by simpa using hhead
      simp only [Option.some.injEq, Prod.mk.injEq] at hsome
      rw [← hsome.1, ← hsome.2, pieces_dropSlashes,
        ← pieces_append _ _ (headD_dropWhile_slash (c :: path')),
        List.takeWhile_append_dropWhile]
      · rw [List.takeWhile_cons_of_pos (by simpa using hc)]
        exact List.cons_ne_nil _ _
      · intro hmem
        have := List.mem_takeWhile_imp hmem
        simp at this

end Pieces

section Buffers

variable {path junk name : List UInt8}

theorem skipSlashes_eq (path junk : List UInt8) :
    skipSlashes (path ++ 0 :: junk) = path.dropWhile (· == slash) ++ 0 :: junk := by
  induction path with
  | nil =>
    unfold skipSlashes
    exact if_neg (by decide)
  | cons c path ih =>
    rw [List.cons_append]
    unfold skipSlashes
    by_cases hc : c = slash
    · rw [if_pos hc, ih, List.dropWhile_cons_of_pos (by simpa using hc)]
    · rw [if_neg hc, List.dropWhile_cons_of_neg (by simpa using hc), List.cons_append]

theorem scanElem_eq (h0 : (0 : UInt8) ∉ path) (junk : List UInt8) :
    scanElem (path ++ 0 :: junk) = ((path.takeWhile (· != slash)).length,
      path.dropWhile (· != slash) ++ 0 :: junk) := by
  induction path with
  | nil =>
    unfold scanElem
    exact if_neg (by simp)
  | cons c path ih =>
    have hc0 : c ≠ 0 := fun hc => h0 (by rw [hc]; exact List.mem_cons_self)
    have ih' := ih (fun hm => h0 (List.mem_cons_of_mem _ hm))
    rw [List.cons_append]
    unfold scanElem
    by_cases hc : c = slash
    · rw [if_neg (fun h => h.1 hc), List.takeWhile_cons_of_neg (by simpa using hc),
        List.dropWhile_cons_of_neg (by simpa using hc)]
      rfl
    · rw [if_pos ⟨hc, hc0⟩, ih', List.takeWhile_cons_of_pos (by simpa using hc),
        List.dropWhile_cons_of_pos (by simpa using hc)]
      rfl

theorem fillName_length (hname : name.length = DIRSIZ) (elem : List UInt8) {len : Nat}
    (hlen : len ≤ elem.length) : (fillName name elem len).length = DIRSIZ := by
  unfold fillName
  split
  · rw [List.length_append, List.length_take, List.length_drop, hname]
    omega
  · rw [List.length_append, List.length_cons, List.length_take, List.length_drop, hname]
    omega

/-- What the buffer holds as a string of at most DIRSIZ bytes. -/
theorem cstring_fillName (hname : name.length = DIRSIZ) {elem : List UInt8}
    (h0 : (0 : UInt8) ∉ elem) (rest : List UInt8) :
    cstring (fillName name (elem ++ rest) elem.length) = elem.take DIRSIZ := by
  have hall : ∀ c ∈ elem.take DIRSIZ, (c != 0) = true := by
    intro c hc
    have hne : c ≠ 0 := fun h => h0 (h ▸ List.mem_of_mem_take hc)
    simpa using hne
  unfold fillName cstring
  by_cases hlen : DIRSIZ ≤ elem.length
  · have hdrop : name.drop DIRSIZ = [] := List.drop_eq_nil_of_le (by omega)
    rw [if_pos hlen, hdrop, List.append_nil, List.take_append_of_le_length hlen,
      List.takeWhile_eq_self_iff.mpr hall]
  · rw [if_neg hlen, List.take_left]
    have hself : elem.take DIRSIZ = elem := List.take_of_length_le (by omega)
    rw [hself] at hall ⊢
    rw [List.takeWhile_append_of_pos hall, List.takeWhile_cons_of_neg (by simp), List.append_nil]

/-- skipelem on a string takes the element that the string has, and leaves the pointer at the
rest. -/
theorem skipelemAt_none (h : skipelem path = none) (junk name : List UInt8) :
    skipelemAt (path ++ 0 :: junk) name = none := by
  unfold skipelem at h
  unfold skipelemAt
  rw [skipSlashes_eq]
  split at h
  · rename_i hd
    rw [hd]
    rfl
  · cases h

theorem skipelemAt_some (h0 : (0 : UInt8) ∉ path) (hname : name.length = DIRSIZ)
    {elem rest : Path} (h : skipelem path = some (elem, rest)) (junk : List UInt8) :
    (0 : UInt8) ∉ rest ∧ ∃ name', skipelemAt (path ++ 0 :: junk) name =
      some (rest ++ 0 :: junk, name') ∧ name'.length = DIRSIZ ∧ cstring name' = elem := by
  unfold skipelem at h
  split at h
  · cases h
  · rename_i c path' hd
    have hmem : ∀ x ∈ c :: path', x ≠ 0 := by
      intro x hx hx0
      rw [← hd] at hx
      exact h0 (hx0 ▸ (List.dropWhile_sublist _).subset hx)
    have h0' : (0 : UInt8) ∉ c :: path' := fun hm => hmem 0 hm rfl
    have hc0 : c ≠ 0 := hmem c List.mem_cons_self
    simp only [Option.some.injEq, Prod.mk.injEq] at h
    have hsub : ∀ x ∈ rest, x ∈ c :: path' := by
      intro x hx
      rw [← h.2] at hx
      exact (List.dropWhile_sublist _).subset ((List.dropWhile_sublist _).subset hx)
    refine ⟨fun hm => h0' (hsub 0 hm), ?_⟩
    have hat : skipelemAt (path ++ 0 :: junk) name = some (rest ++ 0 :: junk,
        fillName name (c :: path' ++ 0 :: junk)
          ((c :: path').takeWhile (· != slash)).length) := by
      unfold skipelemAt
      rw [skipSlashes_eq, hd]
      have hhead : (c :: path' ++ 0 :: junk).headD 0 ≠ 0 := hc0
      simp only [if_neg hhead]
      rw [scanElem_eq h0', skipSlashes_eq, h.2]
    refine ⟨_, hat, ?_, ?_⟩
    · apply fillName_length hname
      rw [List.length_append]
      have hle := (List.takeWhile_sublist (· != slash) (l := c :: path')).length_le
      omega
    · have hsplit : c :: path' ++ 0 :: junk = (c :: path').takeWhile (· != slash) ++
          ((c :: path').dropWhile (· != slash) ++ 0 :: junk) := by
        rw [← List.append_assoc, List.takeWhile_append_dropWhile]
      have h0t : (0 : UInt8) ∉ (c :: path').takeWhile (· != slash) :=
        fun hm => h0' ((List.takeWhile_sublist _).subset hm)
      rw [hsplit, cstring_fillName hname h0t]
      exact h.1

/-- Calling skipelem until it finds nothing gives the pieces of the path. -/
theorem elemsAt_pieces (path junk name : List UInt8) (h0 : (0 : UInt8) ∉ path)
    (hname : name.length = DIRSIZ) :
    (elemsAt (path ++ 0 :: junk) name).map cstring = pieces path := by
  rw [← elems_eq_pieces]
  induction path using elems.induct generalizing name with
  | case1 path hnone =>
    have hat := skipelemAt_none hnone junk name
    rw [elems_none hnone, elemsAt.eq_def]
    split
    · rfl
    · rename_i hsome
      rw [hat] at hsome
      cases hsome
  | case2 path elem rest hsome ih =>
    obtain ⟨hrest, name', hat, hlen, hstr⟩ := skipelemAt_some h0 hname hsome junk
    rw [elems_some hsome, elemsAt.eq_def]
    split
    · rename_i hnone
      rw [hat] at hnone
      cases hnone
    · rename_i hsome'
      rw [hat] at hsome'
      cases hsome'
      rw [List.map_cons, hstr, ih name' hrest hlen]

end Buffers

section Lookups

/-- Looking up one name after the other, every time in a directory. -/
def lookup (disk : Nat → Dinode) (names : List Path) (k : Nat) : Option Nat :=
  names.foldlM (fun k name => if (disk k).type = .dir then (disk k).entry name else none) k

/-- The directory that all names but the last lead to, and the last name. -/
def parentLookup (disk : Nat → Dinode) (names : List Path) (k : Nat) : Option (Nat × Path) :=
  match names.getLast? with
  | none => none
  | some name =>
    (lookup disk names.dropLast k).bind (fun j =>
      if (disk j).type = .dir then some (j, name) else none)

theorem lookup_cons (disk : Nat → Dinode) (name : Path) (rest : List Path) (k : Nat) :
    lookup disk (name :: rest) k =
      (if (disk k).type = .dir then (disk k).entry name else none).bind (lookup disk rest) := by
  unfold lookup
  rw [List.foldlM_cons]
  rfl

/-- namex without `nameiparent` looks the names up. -/
theorem walk_lookup (disk : Nat → Dinode) (names : List Path) (k : Nat) :
    (walk disk false names k).2.map Prod.fst = lookup disk names k := by
  induction names generalizing k with
  | nil => rfl
  | cons name rest ih =>
    unfold walk
    rw [lookup_cons]
    by_cases hdir : (disk k).type = .dir
    · rw [if_neg (not_not_intro hdir), if_neg (by simp), if_pos hdir]
      cases (disk k).entry name with
      | none => rfl
      | some j => exact ih j
    · rw [if_pos hdir, if_neg hdir]
      rfl

/-- With `nameiparent` it stops at the directory of the last name. -/
theorem walk_parentLookup (disk : Nat → Dinode) (names : List Path) (k : Nat) :
    (walk disk true names k).2 = parentLookup disk names k := by
  induction names generalizing k with
  | nil => rfl
  | cons name rest ih =>
    unfold walk
    by_cases hdir : (disk k).type = .dir
    · rw [if_neg (not_not_intro hdir)]
      cases rest with
      | nil =>
        rw [if_pos ⟨rfl, rfl⟩]
        simp [parentLookup, lookup, hdir]
      | cons next rest =>
        have hpl : parentLookup disk (name :: next :: rest) k =
            ((disk k).entry name).bind (parentLookup disk (next :: rest)) := by
          unfold parentLookup
          rw [List.getLast?_cons_cons, List.dropLast_cons_cons, lookup_cons, if_pos hdir]
          obtain ⟨last, hlast⟩ : ∃ last, (next :: rest).getLast? = some last :=
            ⟨_, List.getLast?_eq_some_getLast (List.cons_ne_nil _ _)⟩
          rw [hlast]
          cases (disk k).entry name with
          | none => rfl
          | some j => rfl
        rw [if_neg (by simp), hpl]
        cases (disk k).entry name with
        | none => rfl
        | some j => exact ih j
    · rw [if_pos hdir]
      cases rest with
      | nil => simp [parentLookup, lookup, hdir]
      | cons next rest =>
        unfold parentLookup
        rw [List.getLast?_cons_cons, List.dropLast_cons_cons, lookup_cons, if_neg hdir]
        cases (next :: rest).getLast? with
        | none => rfl
        | some last => rfl

/-- What a path names is the entry for its last name in the directory of its parent. -/
theorem lookup_parentLookup (disk : Nat → Dinode) {names : List Path} (hne : names ≠ [])
    (k : Nat) : lookup disk names k =
      (parentLookup disk names k).bind (fun r => (disk r.1).entry r.2) := by
  have hsplit := List.dropLast_append_getLast hne
  have hlast := List.getLast?_eq_some_getLast hne
  unfold parentLookup
  rw [hlast]
  have happ : lookup disk names k = (lookup disk names.dropLast k).bind
      (lookup disk [names.getLast hne]) := by
    conv => lhs; rw [← hsplit]
    unfold lookup
    rw [List.foldlM_append]
    rfl
  rw [happ]
  cases lookup disk names.dropLast k with
  | none => rfl
  | some j =>
    simp only [Option.bind_some, lookup_cons]
    split
    · rw [Option.bind_some]
      cases (disk j).entry (names.getLast hne) with
      | none => rfl
      | some m => rfl
    · rfl

theorem walk_true_mem (disk : Nat → Dinode) (names : List Path) (k : Nat) :
    ∀ j ∈ (walk disk true names k).1, j ∈ (walk disk false names k).1 := by
  induction names generalizing k with
  | nil => exact fun _ h => h
  | cons name rest ih =>
    intro j hj
    unfold walk at hj ⊢
    by_cases hdir : (disk k).type = .dir
    · rw [if_neg (not_not_intro hdir)] at hj ⊢
      rw [if_neg (by simp)]
      cases hentry : (disk k).entry name with
      | none =>
        rw [hentry] at hj
        split at hj
        · exact hj
        · exact hj
      | some i =>
        rw [hentry] at hj
        split at hj
        · exact List.mem_singleton.mp hj ▸ List.mem_cons_self
        · rcases List.mem_cons.mp hj with h | h
          · exact h ▸ List.mem_cons_self
          · exact List.mem_cons_of_mem _ (ih i j h)
    · rw [if_pos hdir] at hj ⊢
      exact hj

end Lookups

section Panics

/-- Two entries of the inode cache that nobody uses. -/
def Spare (s : State n) (J : List Slot) : Prop :=
  ∃ i j, i ≠ j ∧ users s i = 0 ∧ users s j = 0 ∧ i ∉ J ∧ j ∉ J

/-- The only panics of a path lookup: a full inode cache, and a process that is nowhere. -/
def Stuck (s : State n) (J : List Slot) (p : Fin n) (e : Panic) : Prop :=
  (e = .igetNoInodes ∧ ¬Spare s J) ∨ (e = .nullCwd ∧ (s.proc p).cwd = none)

/-- One more reference leaves an entry free. -/
theorem Spare.free (h : Spare s J) (ht : Held t J' L d) (hJ' : ∀ j ∈ J', j = i ∨ j ∈ J)
    (husers : users t = users s) : ∃ j, (t.icache j).ref = 0 := by
  obtain ⟨a, b, hab, ha, hb, haJ, hbJ⟩ := h
  have href (j : Slot) (hj : users s j = 0) (hJ : j ∉ J) (hij : j ≠ i) :
      (t.icache j).ref = 0 := by
    have hcount : J'.count j = 0 := by
      apply List.count_eq_zero.mpr
      exact fun hj' => (hJ' j hj').elim hij hJ
    rw [ht.refs, husers, hj, hcount]
    rfl
  by_cases hai : a = i
  · exact ⟨b, href b hb hbJ (fun hbi => hab (hai.trans hbi.symm))⟩
  · exact ⟨a, href a ha haJ hai⟩

theorem iget_error {inum : Nat} {e : Panic} (h : iget s inum = .error e) :
    e = .igetNoInodes ∧ ∀ i, (s.icache i).ref ≠ 0 := by
  unfold iget at h
  split at h
  · cases h
  · split at h
    · rename_i hnone
      cases h
      refine ⟨rfl, ?_⟩
      intro i hi
      have := List.find?_eq_none.mp hnone i (List.mem_finRange i)
      simp [hi] at this
    · cases h

/-- iget does not panic while an entry is spare. -/
theorem iget_stuck (ht : Held t J' L d) (hJ' : ∀ j ∈ J', j = i ∨ j ∈ J)
    (husers : users t = users s) (p : Fin n) (inum : Nat) :
    Yields (Stuck s J p) (fun _ => True) (iget t inum) := by
  cases h : iget t inum with
  | ok r => trivial
  | error e =>
    obtain ⟨he, hfull⟩ := iget_error h
    refine Or.inl ⟨he, ?_⟩
    intro hspare
    obtain ⟨j, hj⟩ := hspare.free ht hJ' husers
    exact hfull j hj

theorem ilock_ok (h : Quiet t J L d) {i : Slot} (hi : i ∈ J) (hL : i ∉ L)
    (htype : (t.node i).type ≠ .free) (E : Panic → Prop) :
    Yields E (fun _ => True) (ilock t i) := by
  have href := h.held.ref_pos (Or.inl hi)
  have hlock : ¬(t.icache i).locked = true := fun hl => hL ((h.held.locks i).mp hl)
  unfold ilock acquiresleep
  rw [if_neg (by omega), if_neg hlock, ok_bind]
  split
  · trivial
  · simp only [setInode_node t i i ⟨(t.icache i).inum, (t.icache i).ref, (t.icache i).valid,
      true⟩ rfl, if_neg htype, yields_ok]

theorem iunlock_ok (h : Quiet t J (i :: L) d) (E : Panic → Prop) :
    Yields E (fun _ => True) (iunlock t i) := by
  have hlock := (h.held.locks i).mpr List.mem_cons_self
  have href := (h.held.taken i List.mem_cons_self).1
  unfold iunlock
  rw [if_neg (by
    rw [hlock]
    simp only [Bool.not_true, Bool.false_or, decide_eq_true_eq]
    omega)]
  trivial

theorem iput_ok (h : Quiet t (i :: J) L d) (E : Panic → Prop) :
    Yields E (fun _ => True) (iput t i) := by
  have hlast : ¬((t.icache i).ref = 1 ∧ (t.icache i).valid = true ∧ (t.node i).nlink = 0) :=
    h.not_lastUse
  unfold iput
  rw [if_neg hlast]
  trivial

theorem iunlockput_ok (h : Quiet t (i :: J) (i :: L) d) (E : Panic → Prop) :
    Yields E (fun _ => True) (iunlockput t i) := by
  have hunlock : Yields E (fun u => Quiet u (i :: J) L d) (iunlock t i) := by
    have hq := (iunlock_quiet h).weaken (fun _ _ => trivial)
    exact (hq.any_and (iunlock_ok h E)).mono (fun u hu => hu.1.1)
  exact hunlock.bind (fun u hu => iput_ok hu E)

theorem dirlookup_stuck (ht : Held t J' L d) (hJ' : ∀ j ∈ J', j = i ∨ j ∈ J)
    (husers : users t = users s) (p : Fin n) (dp : Slot) (hdir : (t.node dp).type = .dir)
    (name : Path) :
    Yields (Stuck s J p) (fun _ => True) (dirlookup t dp name) := by
  unfold dirlookup
  rw [if_neg (not_not_intro hdir)]
  split
  · trivial
  · exact (iget_stuck ht hJ' husers p _).bind (fun _ _ => trivial)

theorem namexLoop_stuck (s₀ : State n) (p : Fin n) (parent : Bool) (names : List Path)
    (ip : Slot) (h : Quiet s (ip :: J) [] d) (husers : users s = users s₀)
    (hsound : Sound s (walk s.disk parent names (s.icache ip).inum).1) :
    Yields (Stuck s₀ J p) (fun _ => True) (namexLoop parent names s ip) := by
  induction names generalizing s ip with
  | nil =>
    unfold namexLoop
    split
    · exact (iput_ok h _).bind (fun _ _ => trivial)
    · trivial
  | cons name rest ih =>
    have htype : (s.node ip).type ≠ .free := hsound _ (mem_walk_start _ _ _ _)
    have hdisk : s.disk (s.icache ip).inum = s.node ip := rfl
    unfold namexLoop
    -- ilock of a slot that the walk holds does not panic
    have hlocked : Yields (Stuck s₀ J p) (fun t => Quiet t (ip :: J) [ip] d ∧
        Calm (ip :: J) s t) (ilock s ip) := by
      have hq := (ilock_quiet h ip htype).weaken (fun _ _ => trivial)
      have hok := ilock_ok h List.mem_cons_self List.not_mem_nil htype (Stuck s₀ J p)
      exact (hq.any_and hok).mono (fun t ht => ⟨ht.1.1, ht.1.2.1⟩)
    apply hlocked.bind
    rintro t ⟨ht, hcalm⟩
    have hnode : t.node ip = s.node ip := hcalm.node (Or.inl List.mem_cons_self)
    rw [hnode]
    unfold walk at hsound
    rw [hdisk] at hsound
    by_cases hdir : (s.node ip).type ≠ .dir
    · rw [if_pos hdir]
      exact (iunlockput_ok ht _).bind (fun _ _ => trivial)
    rw [if_neg hdir] at hsound
    rw [if_neg hdir]
    by_cases hlast : parent = true ∧ rest = []
    · rw [if_pos hlast]
      exact (iunlock_ok ht _).bind (fun _ _ => trivial)
    rw [if_neg hlast] at hsound
    rw [if_neg hlast]
    have htusers : users t = users s₀ := hcalm.users.trans husers
    have htdir : (t.node ip).type = .dir := by
      rw [hnode]
      exact not_not.mp hdir
    have hfound : ∀ k, (t.node ip).entry name = some k → (t.disk k).type ≠ .free := by
      intro k hk
      rw [hnode] at hk
      rw [hk] at hsound
      rw [hcalm.disk]
      exact hsound k (List.mem_cons_of_mem _ (mem_walk_start _ _ _ _))
    -- dirlookup panics only where its iget finds no slot
    have hlooked := ((dirlookup_quiet ht ip name hfound).weaken
      (fun _ _ => trivial)).any_and (dirlookup_stuck ht.held
        (fun j hj => List.mem_cons.mp hj) htusers p ip htdir name)
    apply hlooked.bind
    rintro ⟨u, o⟩ ⟨⟨hu, hcalm', hentry, -⟩, -⟩
    have hswap : Quiet u (ip :: ((o.map Prod.fst).toList ++ J)) [ip] d :=
      ⟨hu.held.permJ List.perm_middle.symm, hu.kept, hu.loaded⟩
    have hput := ((iunlockput_quiet hswap).weaken
      (fun _ _ => trivial)).any_and (iunlockput_ok hswap (Stuck s₀ J p))
    apply hput.bind
    rintro v ⟨⟨hv, hcalm''⟩, -⟩
    cases o with
    | none => trivial
    | some x =>
      have hinum : (v.icache x.1).inum = (u.icache x.1).inum := by
        apply hcalm''.inums
        exact Or.inl (List.mem_cons_of_mem _ List.mem_cons_self)
      rw [hnode] at hentry
      simp only [Option.map_some] at hentry
      rw [← hentry] at hsound
      have hvdisk : v.disk = s.disk := by rw [hcalm''.disk, hcalm'.disk, hcalm.disk]
      apply ih x.1 hv ((hcalm''.users.trans hcalm'.users).trans htusers)
      intro k hk
      rw [hvdisk] at hk ⊢
      rw [hinum] at hk
      exact hsound k (List.mem_cons_of_mem _ hk)

end Panics

section Bytes

/-- What namex gives, with the buffer read as a string. -/
def readName (parent : Bool) (r : State n × Option (Slot × List UInt8)) :
    State n × Option (Slot × Path) :=
  (r.1, r.2.map (fun x => (x.1, if parent then cstring x.2 else [])))

/-- There is a next element exactly when the pointer is not at the end. -/
theorem elems_rest_nil {path elem rest : Path} (h : skipelem path = some (elem, rest)) :
    elems rest = [] ↔ rest = [] := by
  have hhead : ∀ c l, rest = c :: l → c ≠ slash := by
    intro c l hl
    unfold skipelem at h
    split at h
    · cases h
    · rename_i c' path' _
      simp only [Option.some.injEq, Prod.mk.injEq] at h
      have hdrop := List.head?_dropWhile_not (· == slash)
        ((c' :: path').dropWhile (· != slash))
      rw [h.2, hl] at hdrop
      simpa using hdrop
  constructor
  · intro hnil
    cases hrest : rest with
    | nil => rfl
    | cons c l =>
      have hc := hhead c l hrest
      have hskip : skipelem (c :: l) = some (((c :: l).takeWhile (· != slash)).take DIRSIZ,
          ((c :: l).dropWhile (· != slash)).dropWhile (· == slash)) := by
        unfold skipelem
        rw [List.dropWhile_cons_of_neg (by simpa using hc)]
      rw [hrest, elems_some hskip] at hnil
      cases hnil
  · intro hnil
    rw [hnil]
    exact elems_none rfl

/-- The loop over the bytes is the loop over the elements. -/
theorem namexLoopAt_eq (parent : Bool) {path name : List UInt8} (junk : List UInt8)
    (h0 : (0 : UInt8) ∉ path) (hname : name.length = DIRSIZ) (s : State n) (ip : Slot) :
    readName parent <$> namexLoopAt parent (path ++ 0 :: junk) name s ip =
      namexLoop parent (elems path) s ip := by
  induction path using elems.induct generalizing name s ip with
  | case1 path hnone =>
    have hat := skipelemAt_none hnone junk name
    rw [elems_none hnone, namexLoopAt.eq_def]
    split
    · unfold namexLoop
      cases parent with
      | false => rfl
      | true =>
        rw [if_pos rfl, if_pos rfl]
        cases iput s ip with
        | error e => rfl
        | ok t => rfl
    · rename_i hsome
      rw [hat] at hsome
      cases hsome
  | case2 path elem rest hsome ih =>
    obtain ⟨hrest, name', hat, hlen, hstr⟩ := skipelemAt_some h0 hname hsome junk
    have hend : (rest ++ 0 :: junk).headD 0 = 0 ↔ elems rest = [] := by
      rw [elems_rest_nil hsome]
      cases rest with
      | nil => simp
      | cons c l =>
        have hc : c ≠ 0 := fun h => hrest (h ▸ List.mem_cons_self)
        simp [hc]
    rw [elems_some hsome, namexLoopAt.eq_def]
    split
    · rename_i hnone
      rw [hat] at hnone
      cases hnone
    · rename_i path' name'' hsome'
      rw [hat] at hsome'
      cases hsome'
      unfold namexLoop
      cases hlock : ilock s ip with
      | error e => rfl
      | ok t =>
        simp only [ok_bind]
        by_cases hdir : (t.node ip).type ≠ .dir
        · rw [if_pos hdir, if_pos hdir]
          cases iunlockput t ip with
          | error e => rfl
          | ok u => rfl
        rw [if_neg hdir, if_neg hdir]
        by_cases hlast : parent = true ∧ elems rest = []
        · rw [if_pos hlast, if_pos ⟨hlast.1, hend.mpr hlast.2⟩]
          cases iunlock t ip with
          | error e => rfl
          | ok u => simp [readName, hlast.1, hstr, Functor.map, Except.map]
        rw [if_neg hlast, if_neg (fun h => hlast ⟨h.1, hend.mp h.2⟩), hstr]
        cases dirlookup t ip elem with
        | error e => rfl
        | ok r =>
          obtain ⟨v, o⟩ := r
          simp only [ok_bind]
          cases iunlockput v ip with
          | error e => rfl
          | ok u =>
            cases o with
            | none => rfl
            | some x => exact ih hrest hlen u x.1

theorem namexAt_eq (parent : Bool) {path name : List UInt8} (junk : List UInt8)
    (h0 : (0 : UInt8) ∉ path) (hname : name.length = DIRSIZ) (s : State n) (p : Fin n) :
    readName parent <$> namexAt s p (path ++ 0 :: junk) parent name =
      namex s p path parent := by
  have hstart : (path ++ 0 :: junk).headD 0 = slash ↔ path.head? = some slash := by
    cases path with
    | nil => simp [slash]
    | cons c path => simp
  have hat : namexStartAt s p (path ++ 0 :: junk) = namexStart s p path := by
    unfold namexStartAt namexStart
    by_cases hslash : path.head? = some slash
    · rw [if_pos hslash, if_pos (hstart.mpr hslash)]
    · have hne : (path ++ 0 :: junk).headD 0 ≠ slash := fun h => hslash (hstart.mp h)
      exact (if_neg hne).trans (if_neg hslash).symm
  unfold namexAt namex
  rw [hat, map_bind]
  congr 1
  funext r
  exact namexLoopAt_eq parent junk h0 hname r.1 r.2

end Bytes

section Paths

/-- The result of namex on the bytes of a path. -/
theorem namexAt_walk (h : Quiet s J [] d) (p : Fin n) (parent : Bool) {path name : List UInt8}
    (junk : List UInt8) (h0 : (0 : UInt8) ∉ path) (hname : name.length = DIRSIZ)
    (hsound : Sound s (pathWalk s p parent path).1) :
    Yields (Stuck s J p) (fun r => r.1.disk = s.disk ∧
      r.2.map (fun x => ((r.1.icache x.1).inum, if parent then cstring x.2 else [])) =
        (pathWalk s p parent path).2) (namexAt s p (path ++ 0 :: junk) parent name) := by
  have hvalue := (namex_quiet h p path parent hsound).weaken
    (fun _ _ => trivial)
  have hstuck : Yields (Stuck s J p) (fun _ => True) (namex s p path parent) := by
    have hfirst := hsound _ (mem_walk_start _ _ _ _)
    have hstart : Yields (Stuck s J p) (fun r => Quiet r.1 (r.2 :: J) [] d ∧ Calm J s r.1 ∧
        (r.1.icache r.2).inum = startInum s p path) (namexStart s p path) := by
      unfold namexStart
      unfold startInum at hfirst ⊢
      by_cases hslash : path.head? = some slash
      · rw [if_pos hslash] at hfirst ⊢
        rw [if_pos hslash]
        have hroot := iget_stuck (i := ⟨0, by decide⟩) h.held (fun j hj => Or.inr hj) rfl p
          ROOTINO
        have hq : Yields (fun _ => True) _ _ :=
          (iget_quiet h ROOTINO hfirst).weaken (fun _ _ => trivial)
        exact (hq.any_and hroot).mono (fun r hr => hr.1)
      · rw [if_neg hslash, if_neg hslash]
        cases hc : (s.proc p).cwd with
        | none => exact Or.inr ⟨rfl, hc⟩
        | some c =>
          have hpos := users_cwd hc
          have hcalm : Calm J s (idup s c) := calm_setInode J s c _ rfl
          refine ⟨⟨idup_held h.held c hpos, hcalm.kept hcalm.disk h.kept, ?_⟩, hcalm, ?_⟩
          · exact h.loaded.setInode c _ rfl
              (fun _ => h.loaded c (h.held.ref_pos (Or.inr hpos)))
          · simp [idup]
    apply hstart.bind
    rintro ⟨t, ip⟩ ⟨ht, hcalm, hinum⟩
    apply namexLoop_stuck s p parent (elems path) ip ht hcalm.users
    intro k hk
    rw [hcalm.disk] at hk ⊢
    rw [hinum] at hk
    exact hsound k hk
  have hall := hvalue.any_and hstuck
  rw [← namexAt_eq parent junk h0 hname s p] at hall
  cases hrun : namexAt s p (path ++ 0 :: junk) parent name with
  | error e =>
    rw [hrun] at hall
    exact hall
  | ok r =>
    rw [hrun] at hall
    obtain ⟨⟨-, hcalm, hres⟩, -⟩ := hall
    refine ⟨hcalm.disk, ?_⟩
    rw [← hres]
    simp only [readName, Option.map_map]
    rfl

/-- skipelem takes the pieces of a path; namei gives what looking them up one after the other
gives, nameiparent the directory of the last piece, and the two agree. -/
theorem path_lookup (path junk name : List UInt8) (h0 : (0 : UInt8) ∉ path)
    (hname : name.length = DIRSIZ) (h : Quiet s J [] d) (p : Fin n)
    (hsound : Sound s (pathWalk s p false path).1) :
    (elemsAt (path ++ 0 :: junk) name).map cstring = pieces path ∧
    Yields (Stuck s J p) (fun r => r.1.disk = s.disk ∧
      r.2.map (fun ip => (r.1.icache ip).inum) =
        lookup s.disk (pieces path) (startInum s p path))
      (nameiAt s p (path ++ 0 :: junk) name) ∧
    Yields (Stuck s J p) (fun r => r.1.disk = s.disk ∧
      r.2.map (fun x => ((r.1.icache x.1).inum, cstring x.2)) =
        parentLookup s.disk (pieces path) (startInum s p path))
      (nameiparentAt s p (path ++ 0 :: junk) name) ∧
    (pieces path = [] → ∀ r, nameiparentAt s p (path ++ 0 :: junk) name = .ok r → r.2 = none) ∧
    (pieces path ≠ [] → ∀ r r', nameiAt s p (path ++ 0 :: junk) name = .ok r →
      nameiparentAt s p (path ++ 0 :: junk) name = .ok r' →
      r.2.map (fun ip => (r.1.icache ip).inum) =
        r'.2.bind (fun x => (r'.1.node x.1).entry (cstring x.2))) := by
  have hnamei : Yields (Stuck s J p) (fun r => r.1.disk = s.disk ∧
      r.2.map (fun ip => (r.1.icache ip).inum) =
        lookup s.disk (pieces path) (startInum s p path))
      (nameiAt s p (path ++ 0 :: junk) name) := by
    apply (namexAt_walk h p false junk h0 hname hsound).bind
    rintro r ⟨hdisk, hres⟩
    refine ⟨hdisk, ?_⟩
    rw [← elems_eq_pieces, ← walk_lookup]
    have hmap := congrArg (Option.map Prod.fst) hres
    rw [Option.map_map] at hmap
    rw [Option.map_map]
    exact hmap
  have hsound' : Sound s (pathWalk s p true path).1 :=
    fun k hk => hsound k (walk_true_mem s.disk _ _ k hk)
  have hparent : Yields (Stuck s J p) (fun r => r.1.disk = s.disk ∧
      r.2.map (fun x => ((r.1.icache x.1).inum, cstring x.2)) =
        parentLookup s.disk (pieces path) (startInum s p path))
      (nameiparentAt s p (path ++ 0 :: junk) name) := by
    apply (namexAt_walk h p true junk h0 hname hsound').mono
    rintro r ⟨hdisk, hres⟩
    refine ⟨hdisk, ?_⟩
    rw [← elems_eq_pieces, ← walk_parentLookup]
    exact hres
  refine ⟨elemsAt_pieces path junk name h0 hname, hnamei, hparent, ?_, ?_⟩
  · intro hnil r hr
    obtain ⟨-, hres⟩ := hparent.of_ok hr
    rw [hnil] at hres
    exact Option.map_eq_none_iff.mp hres
  · intro hne r r' hr hr'
    obtain ⟨hdisk, hres⟩ := hnamei.of_ok hr
    obtain ⟨hdisk', hres'⟩ := hparent.of_ok hr'
    rw [hres, lookup_parentLookup s.disk hne, ← hres']
    cases r'.2 with
    | none => rfl
    | some x =>
      unfold State.node
      rw [hdisk']
      rfl

/-- `"/..//./"` on a disk with nothing but the root. -/
theorem path_lookup_root : ∃ t : State 1,
    (elemsAt [47, 46, 46, 47, 47, 46, 47, 0] (List.replicate DIRSIZ 7)).map cstring =
      [dotdot, dot] ∧
    (∃ r, nameiAt t 0 [47, 46, 46, 47, 47, 46, 47, 0] (List.replicate DIRSIZ 7) = .ok r ∧
      r.2.map (fun ip => (r.1.icache ip).inum) = some ROOTINO) ∧
    ∃ r, nameiparentAt t 0 [47, 46, 46, 47, 47, 46, 47, 0] (List.replicate DIRSIZ 7) = .ok r ∧
      r.2.map (fun x => ((r.1.icache x.1).inum, cstring x.2)) = some (ROOTINO, dot) := by
  have hgood := boot_good (n := 1) 10 0 (by decide) (by decide)
  have hspare : Spare (boot (n := 1) 10 rootDisk 0) [] :=
    ⟨⟨3, by decide⟩, ⟨4, by decide⟩, by decide, by decide +kernel, by decide +kernel,
      List.not_mem_nil, List.not_mem_nil⟩
  have hcwd : ((boot (n := 1) 10 rootDisk 0).proc 0).cwd ≠ none := by decide
  have hsound : Sound (boot (n := 1) 10 rootDisk 0)
      (pathWalk (boot (n := 1) 10 rootDisk 0) 0 false [47, 46, 46, 47, 47, 46, 47]).1 := by
    have hwalk : (pathWalk (boot (n := 1) 10 rootDisk 0) 0 false
        [47, 46, 46, 47, 47, 46, 47]).1 = [1, 1, 1] := by decide +kernel
    intro k hk
    rw [hwalk] at hk
    have hk1 : k = 1 := by simpa using hk
    rw [hk1]
    decide
  obtain ⟨hpieces, hnamei, hparent, -⟩ := path_lookup [47, 46, 46, 47, 47, 46, 47] []
    (List.replicate DIRSIZ 7) (by decide) (by decide) hgood.quiet 0 hsound
  have hsure (e : Panic) (hstuck : Stuck (boot (n := 1) 10 rootDisk 0) [] 0 e) : False := by
    rcases hstuck with ⟨-, h⟩ | ⟨-, h⟩
    · exact h hspare
    · exact hcwd h
  obtain ⟨r, hr, -, hinum⟩ := (hnamei.weaken hsure).exists_ok
  obtain ⟨r', hr', -, hinum'⟩ := (hparent.weaken hsure).exists_ok
  refine ⟨boot 10 rootDisk 0, ?_, ⟨r, hr, ?_⟩, ⟨r', hr', ?_⟩⟩
  · exact hpieces
  · rw [hinum]
    decide +kernel
  · rw [hinum']
    decide +kernel

end Paths

end Xv6Labs.Dir
