import Xv6Labs.MmapRefs

/-! Every system call of the `mmap` kernel keeps the reference counts exact, so filedup and
fileclose never panic. -/
namespace Xv6Labs.Mmap

variable {n : Nat} {s : State n} {H : List FileId} {J : List Nat}

/-- The errors other than the panics of filedup and fileclose. -/
def NotFile (e : Panic) : Prop := e ≠ .filedup ∧ e ≠ .fileclose

section Tables

variable {m : Mem} {t : Table}

theorem findPTE_notFile (t : Table) (va : Nat) : Yields NotFile (fun _ => True) (findPTE t va) := by
  unfold findPTE
  split
  · exact ⟨by simp, by simp⟩
  · split <;> trivial

theorem walk_notFile (m : Mem) (t : Table) (va : Nat) (alloc : Bool) :
    Yields NotFile (fun _ => True) (walk m t va alloc) := by
  unfold walk
  split
  · exact ⟨by simp, by simp⟩
  · dsimp only
    split
    · split <;> trivial
    · trivial

theorem mappages_notFile (m : Mem) (t : Table) (va : Nat) (e : PTE) :
    Yields NotFile (fun _ => True) (mappages m t va e) := by
  unfold mappages
  apply (walk_notFile m t va true).bind
  intro r _
  split
  · split
    · exact ⟨by simp, by simp⟩
    · trivial
  · trivial

theorem uvmunmapLoop_notFile (doFree : Bool) (k : Nat) (t : Table) (a : Nat) :
    Yields NotFile (fun _ => True) (uvmunmapLoop doFree k t a) := by
  induction k generalizing t a with
  | zero => trivial
  | succ k ih =>
    rw [uvmunmapLoop]
    apply (findPTE_notFile t a).bind
    intro o _
    match o with
    | none => exact ⟨by simp, by simp⟩
    | some none => exact ih _ _
    | some (some e) =>
      dsimp only
      split
      · exact ⟨by simp, by simp⟩
      · split
        · exact ⟨by simp, by simp⟩
        · exact ih _ _

theorem uvmunmap_notFile (t : Table) (va npages : Nat) (doFree : Bool) :
    Yields NotFile (fun _ => True) (uvmunmap t va npages doFree) := by
  unfold uvmunmap
  split
  · exact ⟨by simp, by simp⟩
  · exact uvmunmapLoop_notFile _ _ _ _

theorem uvmfree_notFile (t : Table) (sz : Nat) :
    Yields NotFile (fun _ => True) (uvmfree t sz) := by
  unfold uvmfree
  have hfree (t : Table) : Yields NotFile (fun _ => True) (freewalk t) := by
    unfold freewalk
    split
    · exact ⟨by simp, by simp⟩
    · trivial
  split
  · exact (uvmunmap_notFile _ _ _ _).bind (fun t _ => hfree t)
  · exact hfree t

theorem uvmdealloc_notFile (t : Table) (oldsz newsz : Nat) :
    Yields NotFile (fun _ => True) (uvmdealloc t oldsz newsz) := by
  unfold uvmdealloc
  split
  · trivial
  · split
    · exact (uvmunmap_notFile _ _ _ _).bind (fun t _ => trivial)
    · trivial

theorem uvmallocLoop_notFile (oldsz k : Nat) (m : Mem) (t : Table) (a : Nat) :
    Yields NotFile (fun _ => True) (uvmallocLoop oldsz k m t a) := by
  induction k generalizing m t a with
  | zero => trivial
  | succ k ih =>
    rw [uvmallocLoop]
    split
    · apply (mappages_notFile _ _ _ _).bind
      intro q _
      split
      · exact ih _ _ _
      · exact (uvmdealloc_notFile _ _ _).bind (fun d _ => trivial)
    · exact (uvmdealloc_notFile _ _ _).bind (fun d _ => trivial)

theorem uvmalloc_notFile (m : Mem) (t : Table) (oldsz newsz : Nat) :
    Yields NotFile (fun _ => True) (uvmalloc m t oldsz newsz) := by
  unfold uvmalloc
  split
  · trivial
  · exact (uvmallocLoop_notFile _ _ _ _ _).bind (fun r _ => trivial)

theorem uvmcopyLoop_notFile (old : Table) (k : Nat) (m : Mem) (new : Table) (i : Nat) :
    Yields NotFile (fun _ => True) (uvmcopyLoop old k m new i) := by
  induction k generalizing m new i with
  | zero => trivial
  | succ k ih =>
    rw [uvmcopyLoop]
    apply (findPTE_notFile old i).bind
    intro o _
    match o with
    | none => exact ⟨by simp, by simp⟩
    | some none => exact ih _ _ _
    | some (some e) =>
      dsimp only
      split
      · apply (mappages_notFile _ _ _ _).bind
        intro q _
        split
        · exact ih _ _ _
        · exact (uvmunmap_notFile _ _ _ _).bind (fun t _ => trivial)
      · exact (uvmunmap_notFile _ _ _ _).bind (fun t _ => trivial)

theorem procPagetable_notFile (m : Mem) : Yields NotFile (fun _ => True) (procPagetable m) := by
  unfold procPagetable
  dsimp only
  split
  · apply (mappages_notFile _ _ _ _).bind
    intro q _
    split
    · apply (mappages_notFile _ _ _ _).bind
      intro q _
      split
      · trivial
      · apply (uvmunmap_notFile _ _ _ _).bind
        intro t _
        exact (uvmfree_notFile t 0).bind (fun _ _ => trivial)
    · exact (uvmfree_notFile _ 0).bind (fun _ _ => trivial)
  · trivial

theorem procFreepagetable_notFile (t : Table) (sz : Nat) :
    Yields NotFile (fun _ => True) (procFreepagetable t sz) := by
  unfold procFreepagetable
  apply (uvmunmap_notFile _ _ _ _).bind
  intro t _
  apply (uvmunmap_notFile _ _ _ _).bind
  intro t _
  exact uvmfree_notFile t sz

theorem uvmclear_notFile (t : Table) (va : Nat) :
    Yields NotFile (fun _ => True) (uvmclear t va) := by
  unfold uvmclear
  apply (findPTE_notFile _ _).bind
  intro o _
  cases o with
  | none => exact ⟨by simp, by simp⟩
  | some o => trivial

theorem loadSegments_notFile (segs : List Nat) (m : Mem) (t : Table) (sz : Nat) :
    Yields NotFile (fun _ => True) (loadSegments segs m t sz) := by
  induction segs generalizing m t sz with
  | nil => trivial
  | cons top segs ih =>
    rw [loadSegments]
    apply (uvmalloc_notFile m t sz top).bind
    intro r _
    split
    · trivial
    · exact ih _ _ _

end Tables

section Frames

/-- Nothing that the counts depend on has changed. -/
structure SameRefs (s s' : State n) : Prop where
  proc : s'.proc = s.proc
  mem : s'.mem = s.mem
  file : ∀ f, (s'.file f).ref = (s.file f).ref ∧ (s'.file f).type = (s.file f).type ∧
    (s'.file f).ip = (s.file f).ip ∧ (s'.file f).writable = (s.file f).writable
  inode : ∀ ip, (s'.inode ip).ref = (s.inode ip).ref

theorem SameRefs.refl (s : State n) : SameRefs s s :=
  ⟨rfl, rfl, fun _ => ⟨rfl, rfl, rfl, rfl⟩, fun _ => rfl⟩

theorem SameRefs.trans {s₁ s₂ : State n} (h : SameRefs s s₁) (h' : SameRefs s₁ s₂) :
    SameRefs s s₂ := by
  refine ⟨h'.proc.trans h.proc, h'.mem.trans h.mem, ?_, fun ip => (h'.inode ip).trans (h.inode ip)⟩
  intro f
  obtain ⟨a1, a2, a3, a4⟩ := h.file f
  obtain ⟨b1, b2, b3, b4⟩ := h'.file f
  exact ⟨b1.trans a1, b2.trans a2, b3.trans a3, b4.trans a4⟩

theorem Refs.same (h : Refs s H J) {s' : State n} (hs : SameRefs s s') : Refs s' H J := by
  refine h.congr s' (fun f => ⟨(hs.file f).1, (hs.file f).2.1, (hs.file f).2.2.1⟩) hs.inode ?_ ?_ ?_
  · intro p
    rw [hs.proc]
  · intro p i
    rw [hs.proc]
    exact ⟨rfl, fun _ => rfl⟩
  · intro p
    rw [hs.proc]
    exact ⟨rfl, rfl⟩

theorem sameRefs_setInode (ip : Nat) (I : Inode) (h : I.ref = (s.inode ip).ref) :
    SameRefs s (s.setInode ip I) := by
  refine ⟨rfl, rfl, fun _ => ⟨rfl, rfl, rfl, rfl⟩, ?_⟩
  intro jp
  simp only [State.setInode, Function.update_apply]
  split
  · rename_i hj
    rw [hj, h]
  · rfl

theorem sameRefs_setOff (f : FileId) (off : Nat) :
    SameRefs s (s.setFile f { s.file f with off := off }) := by
  refine ⟨rfl, rfl, ?_, fun _ => rfl⟩
  intro g
  simp only [State.setFile, Function.update_apply]
  split
  · rename_i hg
    rw [hg]
    exact ⟨rfl, rfl, rfl, rfl⟩
  · exact ⟨rfl, rfl, rfl, rfl⟩

theorem writei_ref (t : Table) (I : Inode) (src off len : Nat) :
    (writei t I src off len).1.ref = I.ref ∧ (writei t I src off len).1.nlink = I.nlink := by
  unfold writei
  split
  · exact ⟨rfl, rfl⟩
  · split <;> exact ⟨rfl, rfl⟩

theorem ilock_notFile (s : State n) (f : FileId) : Yields NotFile (fun _ => True) (ilock s f) := by
  unfold ilock
  split
  · exact ⟨by simp, by simp⟩
  · split
    · exact ⟨by simp, by simp⟩
    · trivial

theorem SameRefs.ilock_eq {s' : State n} (h : SameRefs s s') (f : FileId) :
    ilock s' f = ilock s f := by
  unfold ilock
  rw [(h.file f).2.2.1]
  cases (s.file f).ip with
  | none => rfl
  | some ip =>
    dsimp only
    rw [h.inode]

/-- The inode of an open file can be locked. -/
theorem Refs.ilock_eq (h : Refs s H J) {f : FileId} {ip : Nat} (hf : (s.file f).inodes = [ip]) :
    ilock s f = .ok ip := by
  have hip : (s.file f).ip = some ip := by
    unfold File.inodes at hf
    cases htype : (s.file f).type with
    | none => simp [htype] at hf
    | pipe => simp [htype] at hf
    | inode =>
      rw [htype] at hf
      exact Option.toList_eq_singleton_iff.mp hf
    | device =>
      rw [htype] at hf
      exact Option.toList_eq_singleton_iff.mp hf
  have hcount := count_le_tally (fun f => (s.file f).inodes) f ip
  have href := h.inodes ip
  simp only [hf, List.count_singleton_self] at hcount
  unfold inodeHolders at href
  unfold ilock
  rw [hip]
  dsimp only
  rw [if_neg (by omega)]

theorem filewriteLoop_same {E : Panic → Prop} (t : Table) (f : FileId) (addr len fuel : Nat)
    (s : State n) (i : Nat) (hlock : Yields E (fun _ => True) (ilock s f)) :
    Yields E (SameRefs s) (filewriteLoop t f addr len fuel s i) := by
  induction fuel generalizing s i with
  | zero => exact SameRefs.refl s
  | succ fuel ih =>
    rw [filewriteLoop]
    split
    · exact SameRefs.refl s
    · dsimp only
      apply hlock.bind
      intro ip _
      have h1 : SameRefs s (s.setInode ip (writei t (s.inode ip) (addr + i) (s.file f).off
          (min (len - i) writeMax)).1) := sameRefs_setInode ip _ (writei_ref _ _ _ _ _).1
      cases (writei t (s.inode ip) (addr + i) (s.file f).off (min (len - i) writeMax)).2 with
      | none => exact h1
      | some k =>
        have h2 := h1.trans (sameRefs_setOff f ((s.file f).off + k))
        dsimp only
        split
        · have hlock₂ := hlock
          rw [← h2.ilock_eq f] at hlock₂
          exact (ih _ (i + k) hlock₂).mono (fun s' h => h2.trans h)
        · exact h2

/-- filewrite panics for a file that is not open or whose inode cannot be locked. -/
theorem filewrite_same {E : Panic → Prop} (s : State n) (t : Table) (f : FileId) (addr : Nat)
    (len : Int) (hlock : (s.file f).type = .inode → Yields E (fun _ => True) (ilock s f))
    (hnone : (s.file f).type = .none → E .filewrite) :
    Yields E (SameRefs s) (filewrite s t f addr len) := by
  unfold filewrite
  split
  · exact SameRefs.refl s
  · cases htype : (s.file f).type with
    | pipe => exact SameRefs.refl s
    | device => exact SameRefs.refl s
    | inode => exact filewriteLoop_same _ _ _ _ _ _ _ (hlock htype)
    | none => exact hnone htype

theorem writeBack_same (s : State n) (p : Fin n) (v : VMA) (addr : Nat) (len : Int) :
    Yields NotFile (SameRefs s) (writeBack s p v addr len) := by
  unfold writeBack
  split
  · exact filewrite_same _ _ _ _ _ (fun _ => ilock_notFile _ _) (fun _ => ⟨by simp, by simp⟩)
  · exact SameRefs.refl s

/-- The write back of a mapping does not panic. -/
theorem writeBack_ok (h : Refs s H J) {p : Fin n} {i : Fin NVMA}
    (hused : ((s.proc p).vma i).used = true) (addr : Nat) (len : Int) :
    Yields (fun _ => False) (SameRefs s) (writeBack s p ((s.proc p).vma i) addr len) := by
  have htype := h.type_ne (holders_pos_of_vma hused)
  unfold writeBack
  split
  · refine filewrite_same _ _ _ _ _ (fun hinode => ?_) htype
    obtain ⟨ip, hip⟩ := Option.ne_none_iff_exists'.mp (h.opened _ (Or.inl hinode))
    have hinodes : (s.file ((s.proc p).vma i).mapfile).inodes = [ip] := by
      unfold File.inodes
      rw [hinode, hip]
      rfl
    rw [h.ilock_eq hinodes]
    trivial
  · exact SameRefs.refl s

theorem fileclose_frame {f : FileId} {s' : State n} (h : fileclose s f = .ok s') :
    s'.proc = s.proc ∧ s'.mem = s.mem := by
  unfold fileclose at h
  dsimp only at h
  split at h
  · cases h
  · split at h
    · cases h
      exact ⟨rfl, rfl⟩
    · split at h <;> cases h <;> exact ⟨rfl, rfl⟩

theorem fileclose_setProc (s : State n) (p : Fin n) (P : Proc) (f : FileId) :
    fileclose (s.setProc p P) f = (fileclose s f).map (fun s => s.setProc p P) := by
  unfold fileclose
  dsimp only
  have hfile : (s.setProc p P).file = s.file := rfl
  rw [hfile]
  split
  · rfl
  · split
    · rfl
    · split <;> rfl

/-- A reference is closed before the place that held it is cleared. -/
theorem fileclose_then {p : Fin n} {P : Proc} {f : FileId} (h : Refs (s.setProc p P) (f :: H) J) :
    ∃ s', fileclose s f = .ok s' ∧ Refs (s'.setProc p P) H J ∧ s'.proc = s.proc ∧
      s'.mem = s.mem := by
  obtain ⟨s₁, hs₁, hrefs, -⟩ := fileclose_refs h
  rw [fileclose_setProc] at hs₁
  cases hc : fileclose s f with
  | error e =>
    rw [hc] at hs₁
    cases hs₁
  | ok s' =>
    rw [hc] at hs₁
    cases hs₁
    obtain ⟨hproc, hmem⟩ := fileclose_frame hc
    exact ⟨s', rfl, hrefs, hproc, hmem⟩

@[simp] theorem setProc_setProc (s : State n) (p : Fin n) (P Q : Proc) :
    (s.setProc p P).setProc p Q = s.setProc p Q := by
  simp [State.setProc]

@[simp] theorem setProc_self (s : State n) (p : Fin n) (P : Proc) : (s.setProc p P).proc p = P := by
  simp [State.setProc]

/-- A reference is taken after the place that holds it is set. -/
theorem filedup_then (h : Refs s H J) {f : FileId} (hpos : 0 < holders s f) (p : Fin n)
    (P : Proc) : ∃ s', filedup (s.setProc p P) f = .ok (s'.setProc p P) ∧ Refs s' (f :: H) J ∧
      s'.proc = s.proc ∧ (s'.file f).type ≠ .none := by
  obtain ⟨s', hs', hrefs, hproc, -, -, htype⟩ := filedup_refs h f (h.ref_pos hpos)
  refine ⟨s', ?_, hrefs, hproc, by rw [htype]; exact h.type_ne hpos⟩
  have hlt : ¬(s.file f).ref < 1 := by
    have := h.ref_pos hpos
    omega
  have hlt' : ¬((s.setProc p P).file f).ref < 1 := hlt
  unfold filedup at hs' ⊢
  rw [if_neg hlt] at hs'
  rw [if_neg hlt']
  cases hs'
  rfl

end Frames

section Calls

/-- The counts are exact between system calls. -/
abbrev Exact (s : State n) : Prop := Refs s [] []

theorem setVma_eq {s' : State n} (h : s'.proc = s.proc) (p : Fin n) (i : Fin NVMA) (v : VMA) :
    s'.setVma p i v =
      s'.setProc p { s.proc p with vma := Function.update (s.proc p).vma i v } := by
  unfold State.setVma
  rw [h]

theorem setTable_setVma (s : State n) (p : Fin n) (t : Table) (i : Fin NVMA) (v : VMA) :
    (s.setTable p t).setVma p i v = (s.setVma p i v).setTable p t := by
  simp [State.setTable, State.setVma]

theorem setOfile_eq {s' : State n} (h : s'.proc = s.proc) (p : Fin n) (fd : Fin NOFILE)
    (o : Option FileId) : s'.setOfile p fd o =
      s'.setProc p { s.proc p with ofile := Function.update (s.proc p).ofile fd o } := by
  unfold State.setOfile
  rw [h]

theorem argfd_ofile {P : Proc} {fd : Int} {r : Fin NOFILE × FileId} (h : argfd P fd = some r) :
    P.ofile r.1 = some r.2 := by
  unfold argfd at h
  split at h
  · obtain ⟨f, hf, rfl⟩ := Option.map_eq_some_iff.mp h
    exact hf
  · cases h

theorem mmapFile_ofile {p : Fin n} {prot flags : Nat} {fd : Int} {f : FileId}
    (h : mmapFile s p prot flags fd = some f) : ∃ i, (s.proc p).ofile i = some f := by
  unfold mmapFile at h
  obtain ⟨r, hr, h⟩ := Option.bind_eq_some_iff.mp h
  dsimp only at h
  split at h
  · cases h
  · cases h
    exact ⟨r.1, argfd_ofile hr⟩

theorem freeVma_unused {P : Proc} {i : Fin NVMA} (h : freeVma P = some i) :
    (P.vma i).used = false := by
  simpa [freeVma] using List.find?_some h

theorem sysMmap_exact (h : Exact s) (p : Fin n) (hrun : (s.proc p).state = .running)
    (length : Int) (prot flags : Nat) (fd : Int) (offset : Nat) :
    Yields NotFile (fun r => Exact r.1) (sysMmap s p length prot flags fd offset) := by
  unfold sysMmap
  cases hf : mmapFile s p prot flags fd with
  | none => exact h
  | some f =>
    dsimp only
    cases hi : freeVma (s.proc p) with
    | none => exact h
    | some i =>
      dsimp only
      have hfree := freeVma_unused hi
      obtain ⟨j, hj⟩ := mmapFile_ofile hf
      have hheld : 0 < holders s f := holders_pos_of_ofile hj
      -- the reference is taken after the VMA is set; the two commute
      obtain ⟨s₁, hs₁, hrefs, hproc, htype⟩ := filedup_then h hheld p { s.proc p with
        vma := Function.update (s.proc p).vma i ⟨true, (s.proc p).sz, length, prot, flags, f,
          offset, (s.proc p).image⟩
        sz := add64 (s.proc p).sz length }
      have hput := (hrefs.putVma (p := p) (i := i) (v := ⟨true, (s.proc p).sz, length, prot, flags,
        f, offset, (s.proc p).image⟩) (by rw [hproc]; exact hfree) rfl htype
        (by rw [hproc]; exact hrun))
      rw [hs₁]
      rw [setVma_eq hproc] at hput
      have hsz := hput.setProc p { s.proc p with
          vma := Function.update (s.proc p).vma i ⟨true, (s.proc p).sz, length, prot, flags, f,
            offset, (s.proc p).image⟩
          sz := add64 (s.proc p).sz length } (by simp) (by simp) (by simp) (by simp)
      rw [setProc_setProc] at hsz
      exact hsz

theorem munmapVma_exact (h : Exact s) (p : Fin n) (addr : Nat) (length : Int) (i : Fin NVMA)
    (hused : ((s.proc p).vma i).used = true) :
    Yields NotFile (fun r => Exact r.1) (munmapVma s p addr length i) := by
  unfold munmapVma
  dsimp only
  apply (writeBack_same _ _ _ _ _).bind
  intro s₁ hs₁
  have h₁ : Exact s₁ := h.same hs₁
  apply (uvmunmap_notFile _ _ _ _).bind
  intro t _
  have hproc : ∀ v, (s₁.proc p).vma i = v → ((s₁.setTable p t).proc p).vma i = v := by
    rintro v rfl
    simp [State.setTable]
  have hv : ((s₁.setTable p t).proc p).vma i = (s.proc p).vma i := hproc _ (by rw [hs₁.proc])
  have h₂ : Exact (s₁.setTable p t) := h₁.setTable p t
  split
  · -- the whole mapping goes: its reference is closed before the VMA is cleared
    have htake := h₂.takeVma (p := p) (i := i) (by rw [hv]; exact hused)
    rw [hv] at htake
    obtain ⟨s₃, hs₃, h₃, hproc₃, -⟩ := fileclose_then htake
    rw [hs₃]
    rw [← setVma_eq hproc₃] at h₃
    exact h₃
  · split
    · exact h₂.changeVma p i _ (by rw [hv]) (by rw [hv])
    · split
      · exact h₂.changeVma p i _ (by rw [hv]) (by rw [hv])
      · exact h₂

theorem munmapLoop_exact (p : Fin n) (addr : Nat) (length : Int) (is : List (Fin NVMA))
    (h : Exact s) : Yields NotFile (fun r => Exact r.1) (munmapLoop p addr length is s) := by
  induction is generalizing s with
  | nil => exact h
  | cons i is ih =>
    rw [munmapLoop]
    split
    · rename_i hhit
      have hused : ((s.proc p).vma i).used = true := by
        unfold VMA.hit at hhit
        simp only [Bool.and_eq_true] at hhit
        exact hhit.1.1
      apply (munmapVma_exact h p addr length i hused).bind
      intro r hr
      split
      · exact ih hr
      · exact hr
    · exact ih h

theorem closeFd_exact (h : Exact s) (p : Fin n) (fd : Fin NOFILE) :
    Yields NotFile (fun s' => Exact s' ∧ s'.proc = (s.setOfile p fd none).proc)
      (closeFd p s fd) := by
  unfold closeFd
  cases hf : (s.proc p).ofile fd with
  | none =>
    refine ⟨h, ?_⟩
    have hsame : Function.update (s.proc p).ofile fd none = (s.proc p).ofile := by
      rw [← hf, Function.update_eq_self]
    simp [State.setOfile, State.setProc, hsame]
  | some f =>
    dsimp only
    obtain ⟨s₁, hs₁, h₁, hproc, -⟩ := fileclose_then (h.takeOfile hf)
    rw [hs₁]
    rw [← setOfile_eq hproc] at h₁
    refine ⟨h₁, ?_⟩
    unfold State.setOfile State.setProc
    rw [hproc]

theorem closeVma_exact (h : Exact s) (p : Fin n) (i : Fin NVMA) :
    Yields NotFile (fun s' => Exact s' ∧ (s'.proc p).state = (s.proc p).state ∧
      (s'.proc p).ofile = (s.proc p).ofile ∧ ((s'.proc p).vma i).used = false ∧
      ∀ j, j ≠ i → (s'.proc p).vma j = (s.proc p).vma j) (closeVma p s i) := by
  unfold closeVma
  dsimp only
  split
  · rename_i hused
    apply (writeBack_same _ _ _ _ _).bind
    intro s₁ hs₁
    have h₁ : Exact s₁ := h.same hs₁
    have hv : (s₁.proc p).vma i = (s.proc p).vma i := by rw [hs₁.proc]
    have htake := h₁.takeVma (p := p) (i := i) (by rw [hv]; exact hused)
    rw [hv] at htake
    obtain ⟨s₂, hs₂, h₂, hproc₂, -⟩ := fileclose_then htake
    rw [hs₂]
    apply (uvmunmap_notFile _ _ _ _).bind
    intro t _
    rw [← setVma_eq hproc₂] at h₂
    rw [setTable_setVma]
    refine ⟨h₂.setTable p t, ?_⟩
    have hp : s₂.proc p = s.proc p := by rw [hproc₂, hs₁.proc]
    refine ⟨?_, ?_, ?_, ?_⟩
    · simp [State.setTable, State.setVma, hp]
    · simp [State.setTable, State.setVma, hp]
    · simp [State.setTable, State.setVma]
    · intro j hj
      simp [State.setTable, State.setVma, hp, Function.update_of_ne hj]
  · rename_i hused
    exact ⟨h, rfl, rfl, by simpa using hused, fun j _ => rfl⟩

theorem exit_exact (h : Exact s) (p : Fin n) (hrun : (s.proc p).state = .running) :
    Yields NotFile Exact (exit s p) := by
  unfold exit
  -- first every descriptor is closed, then every mapping
  have hfds := yields_foldlM (E := NotFile) (f := closeFd p) (fun l s' => Exact s' ∧
    (s'.proc p).state = .running ∧ ∀ fd, fd ∉ l → (s'.proc p).ofile fd = none) (by
      rintro fd l s' ⟨h', hrun', hnone⟩
      apply (closeFd_exact h' p fd).mono
      rintro s₁ ⟨h₁, hproc⟩
      have hrun₁ : (s₁.proc p).state = .running := by
        rw [hproc, (setOfile_proc p p fd none).1]
        exact hrun'
      refine ⟨h₁, hrun₁, ?_⟩
      intro fd' hfd'
      rw [hproc, setOfile_ofile]
      split
      · rfl
      · rename_i hne
        exact hnone fd' (by simp_all)) (List.finRange NOFILE) s
    ⟨h, hrun, fun fd hfd => absurd (List.mem_finRange fd) hfd⟩
  apply hfds.bind
  rintro s₁ ⟨h₁, hrun₁, hofile₁⟩
  have hvmas := yields_foldlM (E := NotFile) (f := closeVma p) (fun l s' => Exact s' ∧
    (s'.proc p).state = .running ∧ (∀ fd, (s'.proc p).ofile fd = none) ∧
    ∀ i, i ∉ l → ((s'.proc p).vma i).used = false) (by
      rintro i l s' ⟨h', hrun', hnone, hvma⟩
      apply (closeVma_exact h' p i).mono
      rintro s₂ ⟨h₂, hstate, hofile, hself, hothers⟩
      refine ⟨h₂, by rw [hstate, hrun'], by rw [hofile]; exact hnone, ?_⟩
      intro j hj
      by_cases hji : j = i
      · rw [hji]
        exact hself
      · rw [hothers j hji]
        exact hvma j (by simp_all)) (List.finRange NVMA) s₁
    ⟨h₁, hrun₁, fun fd => hofile₁ fd (by simp), fun i hi => absurd (List.mem_finRange i) hi⟩
  apply hvmas.bind
  rintro s₂ ⟨h₂, hrun₂, hofile₂, hvma₂⟩
  have hdone : Refs (s₂.setProc p { s₂.proc p with state := .zombie }) [] [(s₂.proc p).cwd] := by
    refine h₂.moveDir p _ rfl rfl ?_ (fun _ => ⟨hofile₂, fun i => hvma₂ i (by simp)⟩)
    intro ip
    simp [Proc.dirs, hrun₂]
  exact hdone.iput

theorem freeproc_exact (h : Exact s) (q : Fin n) (hq : (s.proc q).state ≠ .running) :
    Yields NotFile Exact (freeproc s q) := by
  unfold freeproc
  apply (procFreepagetable_notFile _ _).bind
  intro _ _
  refine h.moveDir q _ rfl rfl ?_ (fun _ => h.idle q hq)
  intro ip
  simp [Proc.dirs, hq]

theorem forkFd_exact (h : Exact s) (p q : Fin n) (fd : Fin NOFILE)
    (hfree : (s.proc q).ofile fd = none) (hrun : (s.proc q).state = .running) :
    Yields NotFile (fun s' => Exact s' ∧
      s'.proc = (s.setOfile q fd ((s.proc p).ofile fd)).proc) (forkFd p q s fd) := by
  unfold forkFd
  cases hf : (s.proc p).ofile fd with
  | none =>
    refine ⟨h, ?_⟩
    have hsame : Function.update (s.proc q).ofile fd none = (s.proc q).ofile := by
      rw [← hfree, Function.update_eq_self]
    simp [State.setOfile, State.setProc, hsame]
  | some f =>
    dsimp only
    have hpos := holders_pos_of_ofile hf
    obtain ⟨s₁, hs₁, h₁, hproc, -, -, htype⟩ := filedup_refs h f (h.ref_pos hpos)
    rw [hs₁]
    refine ⟨h₁.putOfile (by rw [hproc]; exact hfree) (by rw [htype]; exact h.type_ne hpos)
      (by rw [hproc]; exact hrun), ?_⟩
    unfold State.setOfile State.setProc
    rw [hproc]

theorem forkVma_exact (h : Exact s) (p q : Fin n) (i : Fin NVMA)
    (hfree : ((s.proc q).vma i).used = false) (hrun : (s.proc q).state = .running) :
    Yields NotFile (fun s' => Exact s' ∧ s'.proc = if ((s.proc p).vma i).used then
      (s.setVma q i ((s.proc p).vma i)).proc else s.proc) (forkVma p q s i) := by
  unfold forkVma
  dsimp only
  split
  · rename_i hused
    obtain ⟨s₁, hs₁, h₁, hproc, htype⟩ := filedup_then h (holders_pos_of_vma hused) q
      { s.proc q with vma := Function.update (s.proc q).vma i ((s.proc p).vma i) }
    have hset : s.setVma q i ((s.proc p).vma i) = s.setProc q
      { s.proc q with vma := Function.update (s.proc q).vma i ((s.proc p).vma i) } := rfl
    rw [hset, hs₁]
    have hput := h₁.putVma (p := q) (i := i) (by rw [hproc]; exact hfree) hused htype
      (by rw [hproc]; exact hrun)
    rw [setVma_eq hproc] at hput
    refine ⟨hput, ?_⟩
    simp only [State.setProc, hproc]
  · exact ⟨h, rfl⟩

theorem fork_exact (h : Exact s) (p q : Fin n) (hp : (s.proc p).state = .running)
    (hq : (s.proc q).state = .unused) : Yields NotFile Exact (fork s p q) := by
  have hne : q ≠ p := by
    rintro rfl
    rw [hp] at hq
    cases hq
  unfold fork
  dsimp only
  split
  · apply (procPagetable_notFile _).bind
    intro a _
    cases a.2 with
    | none => exact h.setMem _
    | some new =>
      dsimp only
      apply (uvmcopyLoop_notFile _ _ _ _ _).bind
      intro c _
      have h₁ : Exact ((s.setMem c.1).setTable q c.2.1) := (h.setMem c.1).setTable q c.2.1
      have hpp : ((s.setMem c.1).setTable q c.2.1).proc p = s.proc p := by
        simp [State.setTable, State.setProc, State.setMem, Function.update_of_ne (Ne.symm hne)]
      have hqq : ((s.setMem c.1).setTable q c.2.1).proc q = { s.proc q with table := c.2.1 } := by
        simp [State.setTable, State.setMem]
      obtain ⟨hofile, hvma⟩ := h.idle q (by rw [hq]; simp)
      split
      · rw [hpp, hqq]
        -- the child runs and holds the current directory, then gets descriptors and mappings
        have h₂ := (h₁.idup (s.proc p).cwd).moveDir q { s.proc q with
          state := .running, sz := (s.proc p).sz, cwd := (s.proc p).cwd
          given := (s.proc p).given, image := (s.proc p).image, table := c.2.1 }
          (L := []) (by change _ = (((s.setMem c.1).setTable q c.2.1).proc q).ofile; rw [hqq])
          (by change _ = (((s.setMem c.1).setTable q c.2.1).proc q).vma; rw [hqq]) (by
            intro ip
            change (((s.setMem c.1).setTable q c.2.1).proc q).dirs.count ip + _ = _
            rw [hqq]
            simp [Proc.dirs, hq]) (by simp)
        have hfds := yields_foldlM (E := NotFile) (f := forkFd p q) (fun l s' => Exact s' ∧
          (s'.proc q).state = .running ∧ (∀ fd ∈ l, (s'.proc q).ofile fd = none) ∧ l.Nodup ∧
          ∀ i, ((s'.proc q).vma i).used = false) (by
            rintro fd l s' ⟨h', hrun', hnone, hnd, hvma'⟩
            apply (forkFd_exact h' p q fd (hnone fd (by simp)) hrun').mono
            rintro s₁ ⟨h₁, hproc⟩
            obtain ⟨hfd, hnd⟩ := List.nodup_cons.mp hnd
            rw [hproc]
            refine ⟨h₁, ?_, ?_, hnd, ?_⟩
            · rw [(setOfile_proc q q fd _).1]
              exact hrun'
            · intro fd' hfd'
              rw [setOfile_ofile, if_neg]
              · exact hnone fd' (by simp [hfd'])
              · rintro ⟨-, rfl⟩
                exact hfd hfd'
            · rw [(setOfile_proc q q fd _).2]
              exact hvma') (List.finRange NOFILE) _
          ⟨h₂, by simp, fun fd _ => by simp [hofile], List.nodup_finRange _,
            fun i => by simp [hvma]⟩
        apply hfds.bind
        rintro s₃ ⟨h₃, hrun₃, -, -, hvma₃⟩
        have hvmas := yields_foldlM (E := NotFile) (f := forkVma p q) (fun l s' => Exact s' ∧
          (s'.proc q).state = .running ∧ (∀ i ∈ l, ((s'.proc q).vma i).used = false) ∧
          l.Nodup) (by
            rintro i l s' ⟨h', hrun', hnone, hnd⟩
            apply (forkVma_exact h' p q i (hnone i (by simp)) hrun').mono
            rintro s₁ ⟨h₁, hproc⟩
            obtain ⟨hi, hnd⟩ := List.nodup_cons.mp hnd
            rw [hproc]
            split
            · refine ⟨h₁, ?_, ?_, hnd⟩
              · rw [(setVma_proc q q i _).1]
                exact hrun'
              · intro j hj
                rw [setVma_vma, if_neg]
                · exact hnone j (by simp [hj])
                · rintro ⟨-, rfl⟩
                  exact hi hj
            · exact ⟨h₁, hrun', fun j hj => hnone j (by simp [hj]), hnd⟩)
          (List.finRange NVMA) s₃ ⟨h₃, hrun₃, fun i _ => hvma₃ i, List.nodup_finRange _⟩
        exact hvmas.mono (fun s' h' => h'.1)
      · apply freeproc_exact h₁
        rw [hqq]
        simp [hq]
  · exact h.setMem _

theorem usertrap_exact (h : Exact s) (p : Fin n) (hrun : (s.proc p).state = .running) (va : Nat) :
    Yields NotFile Exact (usertrap s p va) := by
  unfold usertrap
  split
  · exact exit_exact h p hrun
  · cases findVma (s.proc p) va with
    | none => exact exit_exact h p hrun
    | some i =>
      dsimp only
      have hfault : Yields NotFile (fun r => Exact r.1 ∧ (r.1.proc p).state = .running)
          (faultVma s p va i) := by
        unfold faultVma
        dsimp only
        split
        · apply (ilock_notFile s _).bind
          intro ip _
          apply (mappages_notFile _ _ _ _).bind
          intro q _
          refine ⟨(h.setMem _).setTable p _, ?_⟩
          simp [State.setTable, State.setMem, hrun]
        · exact ⟨by simp, by simp⟩
      apply hfault.bind
      rintro r ⟨hr, hrun'⟩
      split
      · exact hr
      · exact exit_exact hr p hrun'

theorem access_exact (p : Fin n) (va : Nat) (st : Bool) (tries : Nat) (h : Exact s)
    (hrun : (s.proc p).state = .running) :
    Yields NotFile (fun r => Exact r.1) (access p va st tries s) := by
  induction tries generalizing s with
  | zero => exact h
  | succ tries ih =>
    rw [access]
    cases translate (s.proc p).table va st with
    | some e => exact h
    | none =>
      dsimp only
      apply (usertrap_exact h p hrun va).bind
      intro s₁ h₁
      split
      · rename_i hrun₁
        exact ih h₁ hrun₁
      · exact h₁

theorem setFile_file (s : State n) (f g : FileId) (F : File) :
    (s.setFile f F).file g = if g = f then F else s.file g := by
  simp only [State.setFile, Function.update_apply]

theorem sysOpen_exact (h : Exact s) (p : Fin n) (hrun : (s.proc p).state = .running) (ip : Nat)
    (device readable writable trunc : Bool) :
    Yields NotFile Exact (sysOpen s p ip device readable writable trunc) := by
  unfold sysOpen
  dsimp only
  have h₁ := h.idup ip
  cases hf : filealloc (idup s ip) with
  | none => exact h₁.iput
  | some f =>
    dsimp only
    have h₂ := filealloc_refs h₁ hf
    have hzero : ((idup s ip).file f).ref = 0 := by simpa [filealloc] using List.find?_some hf
    cases hfd : fdalloc (((idup s ip).setFile f { (idup s ip).file f with ref := 1 }).proc p) with
    | none =>
      dsimp only
      obtain ⟨s₃, hs₃, h₃, -⟩ := fileclose_refs h₂
      rw [hs₃]
      exact h₃.iput
    | some fd =>
      dsimp only
      have hnone : ((idup s ip).file f).type = .none := h₁.closed f hzero
      have hfile : ((idup s ip).setFile f { (idup s ip).file f with ref := 1 }).file f =
          { (idup s ip).file f with ref := 1 } := by
        simp [State.setFile]
      -- the open file takes over namei's reference to the inode; the descriptor was set before
      have h₃ := h₂.moveFile f { (idup s ip).file f with
        ref := 1
        type := if device then .device else .inode
        off := if device then ((idup s ip).file f).off else 0
        ip := some ip
        readable := readable
        writable := writable } (K := [f]) (L := []) (by rw [hfile]) (by simp) (by simp)
        (by cases device <;> simp) (by simp) (by
          intro jp
          rw [hfile]
          cases device <;> simp [File.inodes, hnone])
      have h₄ := h₃.putOfile (p := p) (d := fd) (fdalloc_none _ hfd)
        (by rw [setFile_file, if_pos rfl]; cases device <;> simp) hrun
      have hcomm (F : File) : (((idup s ip).setFile f { (idup s ip).file f with ref := 1 }).setOfile
          p fd (some f)).setFile f F =
          (((idup s ip).setFile f { (idup s ip).file f with ref := 1 }).setFile f F).setOfile p fd
          (some f) := rfl
      have hfile' : (((idup s ip).setFile f { (idup s ip).file f with ref := 1 }).setOfile p fd
          (some f)).file f = { (idup s ip).file f with ref := 1 } := hfile
      rw [hfile', hcomm]
      split
      · exact h₄.setInode ip _ rfl (fun _ _ => rfl)
      · exact h₄

theorem sysDup_exact (h : Exact s) (p : Fin n) (hrun : (s.proc p).state = .running) (fd : Int) :
    Yields NotFile Exact (sysDup s p fd) := by
  unfold sysDup
  cases hf : argfd (s.proc p) fd with
  | none => exact h
  | some r =>
    dsimp only
    cases hfd : fdalloc (s.proc p) with
    | none => exact h
    | some fd' =>
      dsimp only
      obtain ⟨s₁, hs₁, h₁, hproc, htype⟩ := filedup_then h (holders_pos_of_ofile (argfd_ofile hf)) p
        { s.proc p with ofile := Function.update (s.proc p).ofile fd' (some r.2) }
      have hset : s.setOfile p fd' (some r.2) = s.setProc p
        { s.proc p with ofile := Function.update (s.proc p).ofile fd' (some r.2) } := rfl
      rw [hset, hs₁, ← setOfile_eq hproc]
      exact h₁.putOfile (by rw [hproc]; exact fdalloc_none _ hfd) htype (by rw [hproc]; exact hrun)

theorem sysClose_exact (h : Exact s) (p : Fin n) (fd : Int) :
    Yields NotFile Exact (sysClose s p fd) := by
  unfold sysClose
  cases hf : argfd (s.proc p) fd with
  | none => exact h
  | some r =>
    dsimp only
    obtain ⟨s₁, hs₁, h₁, -⟩ := fileclose_refs (h.takeOfile (argfd_ofile hf))
    rw [hs₁]
    exact h₁

/-- Two references that the system call holds are closed. -/
theorem closeTwo_exact {f g : FileId} (h : Refs s [f, g] []) : Yields NotFile Exact (do
    let s ← fileclose s f
    fileclose s g) := by
  obtain ⟨s₁, hs₁, h₁, -⟩ := fileclose_refs h
  obtain ⟨s₂, hs₂, h₂, -⟩ := fileclose_refs h₁
  rw [hs₁]
  change Yields NotFile Exact (fileclose s₁ g)
  rw [hs₂]
  exact h₂

theorem Refs.swap {f g : FileId} (h : Refs s (f :: g :: H) J) : Refs s (g :: f :: H) J := by
  refine ⟨?_, h.closed, h.typed, h.opened, h.inodes, h.idle⟩
  intro f'
  rw [h.files f', (List.Perm.swap g f H).count_eq]

/-- An end of a pipe: a file that was free. -/
theorem Refs.pipeEnd (h : Refs s H J) (f : FileId) (writable : Bool)
    (hnone : (s.file f).type = .none) (hpos : (s.file f).ref ≠ 0) :
    Refs (s.setFile f (pipeEnd (s.file f) writable)) H J := by
  refine h.moveFile f _ rfl (fun _ _ => rfl) (fun hzero => absurd hzero hpos) ?_ ?_ ?_
  · intro hnone
    cases hnone
  · rintro (h | h) <;> cases h
  · intro ip
    simp [File.inodes, hnone, Mmap.pipeEnd]

theorem pipealloc_exact (h : Exact s) : Yields NotFile (fun r => r.1.proc = s.proc ∧
    match r.2 with
    | none => Exact r.1
    | some (f, g) => Refs r.1 [f, g] [] ∧ (r.1.file f).type ≠ .none ∧ (r.1.file g).type ≠ .none)
    (pipealloc s) := by
  unfold pipealloc
  cases hf : filealloc s with
  | none => exact ⟨rfl, h⟩
  | some f =>
    dsimp only
    have hzero : (s.file f).ref = 0 := by simpa [filealloc] using List.find?_some hf
    have htype : (s.file f).type = .none := h.closed f hzero
    have h₁ := filealloc_refs h hf
    cases hg : filealloc (s.setFile f { s.file f with ref := 1 }) with
    | none =>
      dsimp only
      obtain ⟨s₂, hs₂, h₂, hproc, -⟩ := fileclose_refs h₁
      rw [hs₂]
      exact ⟨hproc, h₂⟩
    | some g =>
      dsimp only
      have hzero' : ((s.setFile f { s.file f with ref := 1 }).file g).ref = 0 := by
        simpa [filealloc] using List.find?_some hg
      have htype' := h₁.closed g hzero'
      have hne : g ≠ f := by
        rintro rfl
        rw [setFile_file, if_pos rfl] at hzero'
        cases hzero'
      have h₂ := (filealloc_refs h₁ hg).swap.setMem
        (kalloc ((s.setFile f { s.file f with ref := 1 }).setFile g
          { (s.setFile f { s.file f with ref := 1 }).file g with ref := 1 }).mem).1
      split
      · have hff : ((((s.setFile f { s.file f with ref := 1 }).setFile g
            { (s.setFile f { s.file f with ref := 1 }).file g with ref := 1 }).setMem
            (kalloc ((s.setFile f { s.file f with ref := 1 }).setFile g
            { (s.setFile f { s.file f with ref := 1 }).file g with ref := 1 }).mem).1).file f) =
            { s.file f with ref := 1 } := by
          change ((s.setFile f { s.file f with ref := 1 }).setFile g _).file f = _
          rw [setFile_file, if_neg (Ne.symm hne), setFile_file, if_pos rfl]
        have h₃ := h₂.pipeEnd f false (by rw [hff]; exact htype) (by rw [hff]; simp)
        refine ⟨rfl, h₃.pipeEnd g true ?_ ?_, ?_, ?_⟩
        · rw [setFile_file, if_neg hne]
          change (((s.setFile f { s.file f with ref := 1 }).setFile g _).file g).type = _
          rw [setFile_file, if_pos rfl]
          exact htype'
        · rw [setFile_file, if_neg hne]
          change (((s.setFile f { s.file f with ref := 1 }).setFile g _).file g).ref ≠ _
          rw [setFile_file, if_pos rfl]
          simp
        · rw [setFile_file, if_neg (Ne.symm hne), setFile_file, if_pos rfl]
          simp [Mmap.pipeEnd]
        · rw [setFile_file, if_pos rfl]
          simp [Mmap.pipeEnd]
      · obtain ⟨s₃, hs₃, h₃, hproc₃, -⟩ := fileclose_refs h₂
        obtain ⟨s₄, hs₄, h₄, hproc₄, -⟩ := fileclose_refs h₃
        rw [hs₃]
        change Yields NotFile _ (fileclose s₃ g >>= fun s => Except.ok (s, none))
        rw [hs₄]
        exact ⟨hproc₄.trans hproc₃, h₄⟩

theorem sysPipe_exact (h : Exact s) (p : Fin n) (hrun : (s.proc p).state = .running)
    (fdarray : Nat) : Yields NotFile Exact (sysPipe s p fdarray) := by
  unfold sysPipe
  apply (pipealloc_exact h).bind
  rintro ⟨s₁, r⟩ ⟨hproc, hrefs⟩
  dsimp only at hproc hrefs
  match r with
  | none => exact hrefs
  | some (rf, wf) =>
    obtain ⟨h₁, hrf, hwf⟩ := hrefs
    dsimp only
    have hrun₁ : (s₁.proc p).state = .running := by rw [hproc, hrun]
    cases hfd₀ : fdalloc (s₁.proc p) with
    | none => exact closeTwo_exact h₁
    | some fd₀ =>
      dsimp only
      have hfree₀ := fdalloc_none _ hfd₀
      have h₂ := h₁.putOfile (p := p) hfree₀ hrf hrun₁
      cases hfd₁ : fdalloc ((s₁.setOfile p fd₀ (some rf)).proc p) with
      | none =>
        apply closeTwo_exact
        apply h₂.takeOfile
        rw [setOfile_ofile, if_pos ⟨rfl, rfl⟩]
      | some fd₁ =>
        dsimp only
        have hfree₁ := fdalloc_none _ hfd₁
        have h₃ := h₂.putOfile (p := p) hfree₁ hwf
          (by rw [(setOfile_proc p p fd₀ _).1]; exact hrun₁)
        -- whatever the two copies to user memory do
        have hend (c : Table × Bool) : Yields NotFile Exact (
            let s := ((s₁.setOfile p fd₀ (some rf)).setOfile p fd₁ (some wf)).setTable p c.1
            if c.2 then .ok s
            else do
              let s ← fileclose ((s.setOfile p fd₀ none).setOfile p fd₁ none) rf
              fileclose s wf) := by
          have h₄ := h₃.setTable p c.1
          dsimp only
          split
          · exact h₄
          · apply closeTwo_exact
            have hne : fd₀ ≠ fd₁ := by
              rintro rfl
              rw [setOfile_ofile, if_pos ⟨rfl, rfl⟩] at hfree₁
              cases hfree₁
            have hofile (j : Fin NOFILE) (s' : State n) (t : Table) :
                ((s'.setTable p t).proc p).ofile j = (s'.proc p).ofile j := by
              simp [State.setTable]
            have h₅ := h₄.takeOfile (p := p) (d := fd₀) (f := rf) (by
              rw [hofile, setOfile_ofile, if_neg (by rintro ⟨-, h⟩; exact hne h), setOfile_ofile,
                if_pos ⟨rfl, rfl⟩])
            have h₆ := h₅.takeOfile (p := p) (d := fd₁) (f := wf) (by
              rw [setOfile_ofile, if_neg (by rintro ⟨-, h⟩; exact hne h.symm), hofile,
                setOfile_ofile, if_pos ⟨rfl, rfl⟩])
            exact h₆.swap
        exact hend _

theorem growproc_exact (h : Exact s) (p : Fin n) (k : Int) :
    Yields NotFile Exact (growproc s p k) := by
  unfold growproc
  dsimp only
  split
  · apply (uvmalloc_notFile _ _ _ _).bind
    intro r _
    split
    · exact (h.setMem _).setTable p _
    · exact (h.setMem r.1).setProc p _ rfl (fun _ => ⟨rfl, fun _ => rfl⟩) rfl rfl
  · split
    · apply (uvmdealloc_notFile _ _ _).bind
      intro r _
      exact h.setProc p _ rfl (fun _ => ⟨rfl, fun _ => rfl⟩) rfl rfl
    · exact h.setProc p _ rfl (fun _ => ⟨rfl, fun _ => rfl⟩) rfl rfl

theorem exec_exact (h : Exact s) (p : Fin n) (segs : List Nat) (bad : Bool) :
    Yields NotFile Exact (exec s p segs bad) := by
  unfold exec
  apply (procPagetable_notFile _).bind
  intro a _
  cases a.2 with
  | none => exact h.setMem _
  | some t =>
    dsimp only
    apply (loadSegments_notFile _ _ _ _).bind
    intro r _
    split
    · apply (uvmalloc_notFile _ _ _ _).bind
      intro q _
      have h₁ : Exact (s.setMem q.1) := h.setMem q.1
      split
      · apply (procFreepagetable_notFile _ _).bind
        intro _ _
        exact h₁
      · generalize q.2.2 - 2 * PGSIZE = va
        apply (uvmclear_notFile _ _).bind
        intro t' _
        split
        · apply (procFreepagetable_notFile _ _).bind
          intro _ _
          exact h₁
        · apply (procFreepagetable_notFile _ _).bind
          intro _ _
          exact h₁.setProc p _ rfl (fun _ => ⟨rfl, fun _ => rfl⟩) rfl rfl
    · apply (procFreepagetable_notFile _ _).bind
      intro _ _
      exact h.setMem _

end Calls

/-- Every operation keeps the counts exact, and no filedup or fileclose panics. -/
theorem step_exact (h : Exact s) (op : Op n) : Yields NotFile Exact (step s op) := by
  unfold step
  cases op with
  | wait q =>
    simp only [Op.caller, act]
    split
    · rename_i hq
      exact freeproc_exact h q (by rw [hq]; simp)
    · exact h
  | openFile p ip device readable writable trunc =>
    simp only [Op.caller, act]
    split
    · rename_i hrun
      exact sysOpen_exact h p hrun _ _ _ _ _
    · exact h
  | dup p fd =>
    simp only [Op.caller, act]
    split
    · rename_i hrun
      exact sysDup_exact h p hrun _
    · exact h
  | close p fd =>
    simp only [Op.caller, act]
    split
    · exact sysClose_exact h p _
    · exact h
  | pipe p fdarray =>
    simp only [Op.caller, act]
    split
    · rename_i hrun
      exact sysPipe_exact h p hrun fdarray
    · exact h
  | mmap p length prot flags fd offset =>
    simp only [Op.caller, act]
    split
    · rename_i hrun
      exact (sysMmap_exact h p hrun _ prot flags _ offset).bind (fun r hr => hr)
    · exact h
  | munmap p addr length =>
    simp only [Op.caller, act]
    split
    · exact (munmapLoop_exact p addr _ _ h).bind (fun r hr => hr)
    · exact h
  | load p va =>
    simp only [Op.caller, act]
    split
    · rename_i hrun
      apply Yields.bind (Q := fun r => Exact r.1)
      · exact (access_exact p va false 2 h hrun).bind (fun r hr => hr)
      · exact fun r hr => hr
    · exact h
  | store p va b =>
    simp only [Op.caller, act]
    split
    · rename_i hrun
      apply (access_exact p va true 2 h hrun).bind
      intro r hr
      cases r.2 with
      | none => exact hr
      | some e => exact hr.setTable p _
    · exact h
  | fork p q =>
    simp only [Op.caller, act]
    split
    · rename_i hrun
      split
      · rename_i hq
        exact fork_exact h p q hrun hq
      · exact h
    · exact h
  | exit p =>
    simp only [Op.caller, act]
    split
    · rename_i hrun
      exact exit_exact h p hrun
    · exact h
  | sbrk p k =>
    simp only [Op.caller, act]
    split
    · exact growproc_exact h p _
    · exact h
  | exec p segs bad =>
    simp only [Op.caller, act]
    split
    · exact exec_exact h p segs bad
    · exact h

/-- No file is open and none is mapped; the processes hold their current directories. -/
structure NoFiles (s : State n) : Prop where
  files : ∀ f, (s.file f).ref = 0 ∧ (s.file f).type = .none
  procs : ∀ p, (∀ fd, (s.proc p).ofile fd = none) ∧ ∀ i, ((s.proc p).vma i).used = false
  inodes : ∀ ip, (s.inode ip).ref = tally (fun p => (s.proc p).dirs) ip

theorem NoFiles.exact (h : NoFiles s) : Exact s := by
  have hholders (f : FileId) : holders s f = 0 := by
    have h1 : tally (ofiles s) f = 0 := by
      unfold tally ofiles
      simp [(h.procs _).1]
    have h2 : tally (mapfiles s) f = 0 := by
      unfold tally mapfiles VMA.files
      simp [(h.procs _).2]
    unfold holders
    omega
  refine ⟨?_, fun f _ => (h.files f).2, fun f _ => hholders f, ?_, ?_, fun p _ => h.procs p⟩
  · intro f
    rw [(h.files f).1, hholders]
    rfl
  · intro f hf
    rw [(h.files f).2] at hf
    rcases hf with hf | hf <;> cases hf
  · intro ip
    have hnone : tally (fun f => (s.file f).inodes) ip = 0 := by
      unfold tally File.inodes
      simp [(h.files _).2]
    unfold inodeHolders
    rw [h.inodes ip, hnone]
    simp

/-- After any operations: the count of a file is the number of descriptors and used VMAs that
refer to it; a file that something refers to has its type and keeps its inode, one that
nothing refers to keeps none; the count of an inode is the number of its open files and of the
processes in it; and no operation panics in filedup or fileclose. -/
theorem file_refs_exact (s₀ s : State n) (h₀ : NoFiles s₀) (ops : List (Op n))
    (hr : run next s₀ ops = some s) :
    (∀ f, (s.file f).ref = holders s f) ∧
      (∀ f, holders s f ≠ 0 ↔ (s.file f).type ≠ .none) ∧
      (∀ ip, (s.inode ip).ref = inodeHolders s ip) ∧
      ∀ op, step s op ≠ .error .filedup ∧ step s op ≠ .error .fileclose := by
  have h : Exact s := by
    apply run_invariant next Exact ?_ s₀ s ops h₀.exact hr
    intro s op s' hs hn
    unfold next at hn
    have hy := step_exact hs op
    cases hstep : step s op with
    | error e =>
      rw [hstep] at hn
      cases hn
    | ok s₁ =>
      rw [hstep] at hn hy
      cases hn
      exact hy
  have hfiles (f : FileId) : (s.file f).ref = holders s f := by simpa using h.files f
  refine ⟨hfiles, ?_, fun ip => by simpa using h.inodes ip, ?_⟩
  · intro f
    constructor
    · exact fun hne => h.type_ne (by omega)
    · intro hne hzero
      exact hne (h.closed f (by rw [hfiles, hzero]))
  · intro op
    have hy := step_exact h op
    constructor
    · intro he
      exact (hy.of_error he).1 rfl
    · intro he
      exact (hy.of_error he).2 rfl

theorem firstState_noFiles (size : Nat → Nat) (data : Nat → Nat → UInt8) :
    NoFiles (firstState (n := n) size data) := by
  have hproc (p : Fin (n+1)) : (∀ fd, ((firstState (n := n) size data).proc p).ofile fd = none) ∧
      ∀ i, (((firstState (n := n) size data).proc p).vma i).used = false := by
    unfold firstState
    dsimp only
    split <;> exact ⟨fun _ => rfl, fun _ => rfl⟩
  refine ⟨fun f => ⟨rfl, rfl⟩, hproc, ?_⟩
  intro ip
  have hdirs : (fun p => ((firstState (n := n) size data).proc p).dirs) =
      Function.update (fun _ => []) 0 [1] := by
    funext p
    unfold firstState
    by_cases hp : p = 0
    · subst hp
      simp [Proc.dirs, firstProc]
    · simp [Proc.dirs, hp, unusedProc]
  have htally := tally_update (fun _ : Fin (n+1) => ([] : List Nat)) 0 [1] ip
  have hnil : tally (fun _ : Fin (n+1) => ([] : List Nat)) ip = 0 := by simp [tally]
  rw [hdirs]
  rw [hnil, List.count_singleton] at htally
  simp only [List.count_nil] at htally
  have href : ((firstState (n := n) size data).inode ip).ref = if ip = 1 then 1 else 0 := rfl
  rw [href]
  by_cases hip : ip = 1
  · simp_all
  · have : ¬1 = ip := fun h => hip h.symm
    simp_all

/-- A file is opened and mapped, the process forks and closes its descriptor, and the child
exits: one mapping is left. -/
def mapForkOps : List (Op 2) :=
  [.openFile 0 5 false true true false, .mmap 0 4096 3 1 0 0, .load 0 4096, .fork 0 1,
    .close 0 0, .exit 1]

theorem file_refs_exact_mapForkOps :
    ∃ s : State 2, run next (firstState (fun _ => 100) (fun _ _ => 7)) mapForkOps = some s ∧
      holders s 0 = 1 ∧ (s.inode 5).ref = 1 := by
  have hrun : (run next (firstState (n := 1) (fun _ => 100) (fun _ _ => 7)) mapForkOps).map
      (fun s => ((s.file 0).ref, (s.inode 5).ref)) = some (1, 1) := by
    decide +kernel
  obtain ⟨s, hs, hend⟩ := Option.map_eq_some_iff.mp hrun
  obtain ⟨href, hip⟩ := Prod.mk.inj hend
  have hexact := file_refs_exact _ s (firstState_noFiles _ _) mapForkOps hs
  exact ⟨s, hs, by rw [← hexact.1, href], hip⟩

end Xv6Labs.Mmap
