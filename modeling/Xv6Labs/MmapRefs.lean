import Xv6Labs.MmapSys
import Xv6Labs.Outcomes
import Xv6Labs.Tally
import Mathlib.Data.Fintype.Prod

/-! Reference counts of the `mmap` kernel: a file is held by descriptors and mappings, an
inode by open files and current directories. -/
namespace Xv6Labs.Mmap

variable {n : Nat} {s : State n} {H : List FileId} {J : List Nat}

section Holders

/-- The file of a descriptor. -/
def ofiles (s : State n) (k : Fin n × Fin NOFILE) : List FileId := ((s.proc k.1).ofile k.2).toList

/-- The file of a mapping. -/
def VMA.files (v : VMA) : List FileId := if v.used then [v.mapfile] else []

def mapfiles (s : State n) (k : Fin n × Fin NVMA) : List FileId := ((s.proc k.1).vma k.2).files

/-- The descriptors and mappings of file `f`. -/
def holders (s : State n) (f : FileId) : Nat := tally (ofiles s) f + tally (mapfiles s) f

/-- The inode of an open file. -/
def File.inodes (F : File) : List Nat :=
  match F.type with
  | .inode => F.ip.toList
  | .device => F.ip.toList
  | _ => []

def Proc.dirs (P : Proc) : List Nat := if P.state = .running then [P.cwd] else []

/-- The open files and current directories of inode `ip`. -/
def inodeHolders (s : State n) (ip : Nat) : Nat :=
  tally (fun f => (s.file f).inodes) ip + tally (fun p => (s.proc p).dirs) ip

/-- The counts are exact, when `H` and `J` are references that a system call holds at the
moment. -/
structure Refs (s : State n) (H : List FileId) (J : List Nat) : Prop where
  files : ∀ f, (s.file f).ref = holders s f + H.count f
  closed : ∀ f, (s.file f).ref = 0 → (s.file f).type = .none
  typed : ∀ f, (s.file f).type = .none → holders s f = 0
  opened : ∀ f, (s.file f).type = .inode ∨ (s.file f).type = .device → (s.file f).ip ≠ none
  inodes : ∀ ip, (s.inode ip).ref = inodeHolders s ip + J.count ip
  idle : ∀ p, (s.proc p).state ≠ .running →
    (∀ fd, (s.proc p).ofile fd = none) ∧ ∀ i, ((s.proc p).vma i).used = false

/-- What the counts do not depend on. -/
theorem Refs.congr (h : Refs s H J) (s' : State n) (hfile : ∀ f, (s'.file f).ref = (s.file f).ref ∧
      (s'.file f).type = (s.file f).type ∧ (s'.file f).ip = (s.file f).ip)
    (hinode : ∀ ip, (s'.inode ip).ref = (s.inode ip).ref)
    (hofile : ∀ p, (s'.proc p).ofile = (s.proc p).ofile)
    (hvma : ∀ p i, ((s'.proc p).vma i).used = ((s.proc p).vma i).used ∧
      (((s.proc p).vma i).used = true → ((s'.proc p).vma i).mapfile = ((s.proc p).vma i).mapfile))
    (hproc : ∀ p, (s'.proc p).state = (s.proc p).state ∧ (s'.proc p).cwd = (s.proc p).cwd) :
    Refs s' H J := by
  have hofiles : ofiles s' = ofiles s := by
    funext k
    simp only [ofiles, hofile]
  have hmaps : mapfiles s' = mapfiles s := by
    funext k
    obtain ⟨hu, hm⟩ := hvma k.1 k.2
    unfold mapfiles VMA.files
    rw [hu]
    by_cases hused : ((s.proc k.1).vma k.2).used = true
    · rw [if_pos hused, if_pos hused, hm hused]
    · rw [if_neg hused, if_neg hused]
  have hholders (f : FileId) : holders s' f = holders s f := by
    unfold holders
    rw [hofiles, hmaps]
  have hfiles : (fun f => (s'.file f).inodes) = fun f => (s.file f).inodes := by
    funext f
    unfold File.inodes
    rw [(hfile f).2.1, (hfile f).2.2]
  have hdirs : (fun p => (s'.proc p).dirs) = fun p => (s.proc p).dirs := by
    funext p
    unfold Proc.dirs
    rw [(hproc p).1, (hproc p).2]
  refine ⟨?_, ?_, ?_, ?_, ?_, ?_⟩
  · intro f
    rw [(hfile f).1, hholders]
    exact h.files f
  · intro f hf
    rw [(hfile f).1] at hf
    rw [(hfile f).2.1]
    exact h.closed f hf
  · intro f hf
    rw [(hfile f).2.1] at hf
    rw [hholders]
    exact h.typed f hf
  · intro f hf
    rw [(hfile f).2.1] at hf
    rw [(hfile f).2.2]
    exact h.opened f hf
  · intro ip
    unfold inodeHolders
    rw [hinode, hfiles, hdirs]
    exact h.inodes ip
  · intro p hp
    rw [(hproc p).1] at hp
    refine ⟨?_, ?_⟩
    · rw [hofile]
      exact (h.idle p hp).1
    · intro i
      rw [(hvma p i).1]
      exact (h.idle p hp).2 i

/-- A table, a size and the recorded pages are no references. -/
theorem Refs.setProc (h : Refs s H J) (p : Fin n) (P : Proc) (hofile : P.ofile = (s.proc p).ofile)
    (hvma : ∀ i, (P.vma i).used = ((s.proc p).vma i).used ∧
      (((s.proc p).vma i).used = true → (P.vma i).mapfile = ((s.proc p).vma i).mapfile))
    (hstate : P.state = (s.proc p).state) (hcwd : P.cwd = (s.proc p).cwd) :
    Refs (s.setProc p P) H J := by
  have hproc (q : Fin n) : (s.setProc p P).proc q = if q = p then P else s.proc q := by
    simp only [State.setProc, Function.update_apply]
  refine h.congr _ (fun _ => ⟨rfl, rfl, rfl⟩) (fun _ => rfl) ?_ ?_ ?_
  · intro q
    rw [hproc]
    split
    · subst q
      exact hofile
    · rfl
  · intro q i
    rw [hproc]
    split
    · subst q
      exact hvma i
    · exact ⟨rfl, fun _ => rfl⟩
  · intro q
    rw [hproc]
    split
    · subst q
      exact ⟨hstate, hcwd⟩
    · exact ⟨rfl, rfl⟩

theorem Refs.setTable (h : Refs s H J) (p : Fin n) (t : Table) : Refs (s.setTable p t) H J :=
  h.setProc p _ rfl (fun _ => ⟨rfl, fun _ => rfl⟩) rfl rfl

theorem Refs.setMem (h : Refs s H J) (m : Mem) : Refs (s.setMem m) H J :=
  h.congr _ (fun _ => ⟨rfl, rfl, rfl⟩) (fun _ => rfl) (fun _ => rfl)
    (fun _ _ => ⟨rfl, fun _ => rfl⟩) (fun _ => ⟨rfl, rfl⟩)

/-- A VMA is changed and keeps its file. -/
theorem Refs.changeVma (h : Refs s H J) (p : Fin n) (i : Fin NVMA) (v : VMA)
    (hused : v.used = ((s.proc p).vma i).used) (hfile : v.mapfile = ((s.proc p).vma i).mapfile) :
    Refs (s.setVma p i v) H J := by
  unfold State.setVma
  refine h.setProc p _ rfl ?_ rfl rfl
  intro j
  by_cases hj : j = i
  · subst hj
    simp only [Function.update_self]
    exact ⟨hused, fun _ => hfile⟩
  · simp only [Function.update_of_ne hj]
    exact ⟨trivial, fun _ => trivial⟩

end Holders

section Moves

theorem ofiles_setOfile (p : Fin n) (fd : Fin NOFILE) (o : Option FileId) :
    ofiles (s.setOfile p fd o) = Function.update (ofiles s) (p, fd) o.toList := by
  funext k
  obtain ⟨q, j⟩ := k
  by_cases hq : q = p
  · subst hq
    by_cases hj : j = fd
    · subst hj
      simp [ofiles, State.setOfile, State.setProc]
    · rw [Function.update_of_ne (by simpa using hj)]
      simp [ofiles, State.setOfile, State.setProc, Function.update_of_ne hj]
  · rw [Function.update_of_ne (by simpa using fun h => absurd h hq)]
    simp [ofiles, State.setOfile, State.setProc, Function.update_of_ne hq]

theorem mapfiles_setOfile (p : Fin n) (fd : Fin NOFILE) (o : Option FileId) :
    mapfiles (s.setOfile p fd o) = mapfiles s := by
  funext k
  by_cases hq : k.1 = p
  · simp [mapfiles, State.setOfile, State.setProc, hq]
  · simp [mapfiles, State.setOfile, State.setProc, Function.update_of_ne hq]

theorem mapfiles_setVma (p : Fin n) (i : Fin NVMA) (v : VMA) :
    mapfiles (s.setVma p i v) = Function.update (mapfiles s) (p, i) v.files := by
  funext k
  obtain ⟨q, j⟩ := k
  by_cases hq : q = p
  · subst hq
    by_cases hj : j = i
    · subst hj
      simp [mapfiles, State.setVma, State.setProc]
    · rw [Function.update_of_ne (by simpa using hj)]
      simp [mapfiles, State.setVma, State.setProc, Function.update_of_ne hj]
  · rw [Function.update_of_ne (by simpa using fun h => absurd h hq)]
    simp [mapfiles, State.setVma, State.setProc, Function.update_of_ne hq]

theorem ofiles_setVma (p : Fin n) (i : Fin NVMA) (v : VMA) :
    ofiles (s.setVma p i v) = ofiles s := by
  funext k
  by_cases hq : k.1 = p
  · simp [ofiles, State.setVma, State.setProc, hq]
  · simp [ofiles, State.setVma, State.setProc, Function.update_of_ne hq]

theorem dirs_setProc (p : Fin n) (P : Proc) (hstate : P.state = (s.proc p).state)
    (hcwd : P.cwd = (s.proc p).cwd) :
    (fun q => ((s.setProc p P).proc q).dirs) = fun q => (s.proc q).dirs := by
  funext q
  by_cases hq : q = p
  · subst hq
    simp [State.setProc, Proc.dirs, hstate, hcwd]
  · simp [State.setProc, Function.update_of_ne hq]

theorem setOfile_proc (p q : Fin n) (fd : Fin NOFILE) (o : Option FileId) :
    ((s.setOfile p fd o).proc q).state = (s.proc q).state ∧
      ((s.setOfile p fd o).proc q).vma = (s.proc q).vma := by
  by_cases hq : q = p
  · subst hq
    simp [State.setOfile, State.setProc]
  · simp [State.setOfile, State.setProc, Function.update_of_ne hq]

theorem setVma_proc (p q : Fin n) (i : Fin NVMA) (v : VMA) :
    ((s.setVma p i v).proc q).state = (s.proc q).state ∧
      ((s.setVma p i v).proc q).ofile = (s.proc q).ofile := by
  by_cases hq : q = p
  · subst hq
    simp [State.setVma, State.setProc]
  · simp [State.setVma, State.setProc, Function.update_of_ne hq]

theorem setOfile_ofile (p q : Fin n) (fd j : Fin NOFILE) (o : Option FileId) :
    ((s.setOfile p fd o).proc q).ofile j =
      if q = p ∧ j = fd then o else (s.proc q).ofile j := by
  by_cases hq : q = p
  · subst hq
    by_cases hj : j = fd
    · subst hj
      simp [State.setOfile, State.setProc]
    · simp [State.setOfile, State.setProc, hj]
  · simp [State.setOfile, State.setProc, hq]

theorem setVma_vma (p q : Fin n) (i j : Fin NVMA) (v : VMA) :
    ((s.setVma p i v).proc q).vma j = if q = p ∧ j = i then v else (s.proc q).vma j := by
  by_cases hq : q = p
  · subst hq
    by_cases hj : j = i
    · subst hj
      simp [State.setVma, State.setProc]
    · simp [State.setVma, State.setProc, hj]
  · simp [State.setVma, State.setProc, hq]

/-- A descriptor changes hands: what it held and what it holds now move through `H`. -/
theorem Refs.moveOfile (h : Refs s H J) (p : Fin n) (fd : Fin NOFILE) (o : Option FileId)
    {H' : List FileId}
    (hcount : ∀ f, ((s.proc p).ofile fd).toList.count f + H.count f =
      o.toList.count f + H'.count f)
    (htype : ∀ f ∈ o.toList, (s.file f).type ≠ .none)
    (hrun : (s.proc p).state = .running ∨ o = none) : Refs (s.setOfile p fd o) H' J := by
  refine ⟨?_, h.closed, ?_, h.opened, ?_, ?_⟩
  · intro f
    have hfile : ((s.setOfile p fd o).file f).ref = (s.file f).ref := rfl
    have hup := tally_update (ofiles s) (p, fd) o.toList f
    have hc := hcount f
    have hold : ofiles s (p, fd) = ((s.proc p).ofile fd).toList := rfl
    rw [hold] at hup
    rw [hfile, h.files f]
    unfold holders
    rw [ofiles_setOfile, mapfiles_setOfile]
    omega
  · intro f hf
    have hzero := h.typed f hf
    have hup := tally_update (ofiles s) (p, fd) o.toList f
    have hnot : o.toList.count f = 0 := List.count_eq_zero.mpr (fun hmem => htype f hmem hf)
    unfold holders at hzero ⊢
    rw [ofiles_setOfile, mapfiles_setOfile]
    omega
  · intro ip
    have hd := dirs_setProc p
      { s.proc p with ofile := Function.update (s.proc p).ofile fd o } rfl rfl
      (s := s)
    unfold inodeHolders State.setOfile
    rw [hd]
    exact h.inodes ip
  · intro q hq
    rw [(setOfile_proc p q fd o).1] at hq
    rw [(setOfile_proc p q fd o).2]
    obtain ⟨h1, h2⟩ := h.idle q hq
    refine ⟨?_, h2⟩
    intro j
    rw [setOfile_ofile]
    split
    · rename_i hqj
      obtain ⟨rfl, rfl⟩ := hqj
      exact hrun.resolve_left hq
    · exact h1 j

theorem Refs.moveVma (h : Refs s H J) (p : Fin n) (i : Fin NVMA) (v : VMA) {H' : List FileId}
    (hcount : ∀ f, ((s.proc p).vma i).files.count f + H.count f = v.files.count f + H'.count f)
    (htype : ∀ f ∈ v.files, (s.file f).type ≠ .none)
    (hrun : (s.proc p).state = .running ∨ v.used = false) : Refs (s.setVma p i v) H' J := by
  refine ⟨?_, h.closed, ?_, h.opened, ?_, ?_⟩
  · intro f
    have hfile : ((s.setVma p i v).file f).ref = (s.file f).ref := rfl
    have hup := tally_update (mapfiles s) (p, i) v.files f
    have hc := hcount f
    have hold : mapfiles s (p, i) = ((s.proc p).vma i).files := rfl
    rw [hold] at hup
    rw [hfile, h.files f]
    unfold holders
    rw [ofiles_setVma, mapfiles_setVma]
    omega
  · intro f hf
    have hzero := h.typed f hf
    have hup := tally_update (mapfiles s) (p, i) v.files f
    have hnot : v.files.count f = 0 := List.count_eq_zero.mpr (fun hmem => htype f hmem hf)
    unfold holders at hzero ⊢
    rw [ofiles_setVma, mapfiles_setVma]
    omega
  · intro ip
    have hd := dirs_setProc p { s.proc p with vma := Function.update (s.proc p).vma i v } rfl rfl
      (s := s)
    unfold inodeHolders State.setVma
    rw [hd]
    exact h.inodes ip
  · intro q hq
    rw [(setVma_proc p q i v).1] at hq
    rw [(setVma_proc p q i v).2]
    obtain ⟨h1, h2⟩ := h.idle q hq
    refine ⟨h1, ?_⟩
    intro j
    rw [setVma_vma]
    split
    · rename_i hqj
      obtain ⟨rfl, rfl⟩ := hqj
      exact hrun.resolve_left hq
    · exact h2 j

theorem count_cons_eq {α : Type} [DecidableEq α] (a b : α) (l : List α) :
    (a :: l).count b = [a].count b + l.count b := by
  rw [List.count_cons, List.count_singleton]
  omega

theorem Refs.takeOfile (h : Refs s H J) {p : Fin n} {d : Fin NOFILE} {f : FileId}
    (hf : (s.proc p).ofile d = some f) : Refs (s.setOfile p d none) (f :: H) J := by
  apply h.moveOfile p d none ?_ (by simp) (Or.inr rfl)
  intro g
  rw [hf, count_cons_eq]
  simp

theorem Refs.putOfile {p : Fin n} {d : Fin NOFILE} {f : FileId} (h : Refs s (f :: H) J)
    (hf : (s.proc p).ofile d = none) (htype : (s.file f).type ≠ .none)
    (hrun : (s.proc p).state = .running) : Refs (s.setOfile p d (some f)) H J := by
  apply h.moveOfile p d (some f) ?_ (by simpa using htype) (Or.inl hrun)
  intro g
  rw [hf, count_cons_eq]
  simp

end Moves

section Files

/-- A file is changed: its count moves through `H`, its inode through `J`. -/
theorem Refs.moveFile (h : Refs s H J) (f : FileId) (F : File) {K : List FileId} {L : List Nat}
    (hself : F.ref + H.count f = (s.file f).ref + K.count f)
    (hothers : ∀ g, g ≠ f → K.count g = H.count g) (hclosed : F.ref = 0 → F.type = .none)
    (htyped : F.type = .none → holders s f = 0)
    (hopened : F.type = .inode ∨ F.type = .device → F.ip ≠ none)
    (hinodes : ∀ ip, (s.file f).inodes.count ip + J.count ip = F.inodes.count ip + L.count ip) :
    Refs (s.setFile f F) K L := by
  have hfile (g : FileId) : (s.setFile f F).file g = if g = f then F else s.file g := by
    simp only [State.setFile, Function.update_apply]
  refine ⟨?_, ?_, ?_, ?_, ?_, h.idle⟩
  · intro g
    have hholders : holders (s.setFile f F) g = holders s g := rfl
    have hg := h.files g
    rw [hfile, hholders]
    by_cases hgf : g = f
    · subst hgf
      rw [if_pos rfl]
      omega
    · rw [if_neg hgf, hothers g hgf]
      exact hg
  · intro g
    rw [hfile]
    split
    · exact hclosed
    · exact h.closed g
  · intro g hg
    change holders s g = 0
    rw [hfile] at hg
    split at hg
    · rename_i hgf
      rw [hgf]
      exact htyped hg
    · exact h.typed g hg
  · intro g
    rw [hfile]
    split
    · exact hopened
    · exact h.opened g
  · intro ip
    have hup : (fun g => ((s.setFile f F).file g).inodes) =
        Function.update (fun g => (s.file g).inodes) f F.inodes := by
      funext g
      rw [hfile]
      by_cases hgf : g = f
      · subst hgf
        rw [if_pos rfl, Function.update_self]
      · rw [if_neg hgf, Function.update_of_ne hgf]
    have htally := tally_update (fun g => (s.file g).inodes) f F.inodes ip
    have hip := h.inodes ip
    have hc := hinodes ip
    unfold inodeHolders at hip ⊢
    rw [hup]
    change (s.inode ip).ref = _
    have hdirs : tally (fun p => ((s.setFile f F).proc p).dirs) ip =
        tally (fun p => (s.proc p).dirs) ip := rfl
    omega

theorem Refs.setInode (h : Refs s H J) (ip : Nat) (I : Inode) {J' : List Nat}
    (hself : I.ref + J.count ip = (s.inode ip).ref + J'.count ip)
    (hothers : ∀ jp, jp ≠ ip → J'.count jp = J.count jp) : Refs (s.setInode ip I) H J' := by
  refine ⟨h.files, h.closed, h.typed, h.opened, ?_, h.idle⟩
  intro jp
  have hholders : inodeHolders (s.setInode ip I) jp = inodeHolders s jp := rfl
  have hj := h.inodes jp
  rw [hholders]
  simp only [State.setInode, Function.update_apply]
  split
  · rename_i hjp
    subst hjp
    omega
  · rename_i hjp
    rw [hothers jp hjp]
    exact hj

theorem Refs.idup (h : Refs s H J) (ip : Nat) : Refs (idup s ip) H (ip :: J) := by
  apply h.setInode ip
  · rw [List.count_cons_self]
    dsimp only
    omega
  · intro jp hjp
    exact List.count_cons_of_ne (Ne.symm hjp)

theorem Refs.iput {ip : Nat} (h : Refs s H (ip :: J)) : Refs (iput s ip) H J := by
  have hpos := h.inodes ip
  rw [List.count_cons_self] at hpos
  have hset (I : Inode) (hI : I.ref = (s.inode ip).ref - 1) : Refs (s.setInode ip I) H J := by
    apply h.setInode ip
    · rw [List.count_cons_self]
      omega
    · intro jp hjp
      exact (List.count_cons_of_ne (Ne.symm hjp)).symm
  unfold Mmap.iput
  by_cases hlast : (s.inode ip).ref = 1 ∧ (s.inode ip).nlink = 0
  · simp only [if_pos hlast]
    exact hset _ rfl
  · simp only [if_neg hlast]
    exact hset _ rfl

/-- filedup of a file in use. -/
theorem filedup_refs (h : Refs s H J) (f : FileId) (hpos : 0 < (s.file f).ref) :
    ∃ s', filedup s f = .ok s' ∧ Refs s' (f :: H) J ∧ s'.proc = s.proc ∧ s'.mem = s.mem ∧
      s'.inode = s.inode ∧ (∀ g, (s'.file g).type = (s.file g).type) := by
  have hlt : ¬(s.file f).ref < 1 := by omega
  refine ⟨s.setFile f { s.file f with ref := (s.file f).ref + 1 }, by rw [filedup, if_neg hlt], ?_,
    rfl, rfl, rfl, ?_⟩
  · apply h.moveFile f
    · rw [List.count_cons_self]
      dsimp only
      omega
    · intro g hg
      exact List.count_cons_of_ne (Ne.symm hg)
    · dsimp only
      omega
    · exact h.typed f
    · exact h.opened f
    · intro ip
      rfl
  · intro g
    simp only [State.setFile, Function.update_apply]
    split
    · rename_i hg
      rw [hg]
    · rfl

/-- fileclose of a reference that the system call holds. -/
theorem fileclose_refs {f : FileId} (h : Refs s (f :: H) J) :
    ∃ s', fileclose s f = .ok s' ∧ Refs s' H J ∧ s'.proc = s.proc ∧ s'.mem = s.mem := by
  have hcount := h.files f
  rw [List.count_cons_self] at hcount
  have hlt : ¬(s.file f).ref < 1 := by omega
  have hothers : ∀ g, g ≠ f → H.count g = (f :: H).count g :=
    fun g hg => (List.count_cons_of_ne (Ne.symm hg)).symm
  unfold fileclose
  rw [if_neg hlt]
  by_cases hmore : 0 < (s.file f).ref - 1
  · rw [if_pos hmore]
    refine ⟨_, rfl, ?_, rfl, rfl⟩
    apply h.moveFile f _ _ hothers
    · dsimp only
      omega
    · exact h.typed f
    · exact h.opened f
    · intro ip
      rfl
    · rw [List.count_cons_self]
      dsimp only
      omega
  · rw [if_neg hmore]
    -- the last reference: the inode of the file goes with it
    have hself : 0 + (f :: H).count f = (s.file f).ref + H.count f := by
      rw [List.count_cons_self]
      omega
    have hlast (J' : List Nat) (hJ : ∀ ip, (s.file f).inodes.count ip + J.count ip = J'.count ip) :
        Refs (s.setFile f { s.file f with ref := 0, type := .none }) H J' := by
      apply h.moveFile f _ hself hothers (fun _ => rfl) (fun _ => by omega)
      · rintro (h | h) <;> cases h
      · intro ip
        rw [hJ]
        simp [File.inodes]
    have hput (ip : Nat) (hin : (s.file f).inodes = [ip]) : Refs (iput (s.setFile f
        { s.file f with ref := 0, type := .none }) ip) H J := by
      apply Refs.iput
      apply hlast
      intro jp
      rw [hin, ← count_cons_eq]
    have hopened := h.opened f
    cases htype : (s.file f).type with
    | none => exact ⟨_, rfl, hlast J (fun ip => by simp [File.inodes, htype]), rfl, rfl⟩
    | pipe => exact ⟨_, rfl, hlast J (fun ip => by simp [File.inodes, htype]), rfl, rfl⟩
    | inode =>
      obtain ⟨ip, hip⟩ := Option.ne_none_iff_exists'.mp (hopened (Or.inl htype))
      exact ⟨_, by simp only [hip], hput ip (by simp [File.inodes, htype, hip]), rfl, rfl⟩
    | device =>
      obtain ⟨ip, hip⟩ := Option.ne_none_iff_exists'.mp (hopened (Or.inr htype))
      exact ⟨_, by simp only [hip], hput ip (by simp [File.inodes, htype, hip]), rfl, rfl⟩

theorem filealloc_refs (h : Refs s H J) {f : FileId} (hf : filealloc s = some f) :
    Refs (s.setFile f { s.file f with ref := 1 }) (f :: H) J := by
  have hzero : (s.file f).ref = 0 := by simpa [filealloc] using List.find?_some hf
  apply h.moveFile f
  · rw [List.count_cons_self, hzero]
    dsimp only
    omega
  · intro g hg
    exact List.count_cons_of_ne (Ne.symm hg)
  · simp
  · exact fun hnone => h.typed f hnone
  · exact h.opened f
  · intro ip
    rfl

theorem fdalloc_none (P : Proc) {fd : Fin NOFILE} (h : fdalloc P = some fd) :
    P.ofile fd = none := by
  simpa [fdalloc] using List.find?_some h

end Files

section Processes

/-- A process starts or ends: its current directory moves through `J`. -/
theorem Refs.moveDir (h : Refs s H J) (p : Fin n) (P : Proc) {L : List Nat}
    (hofile : P.ofile = (s.proc p).ofile) (hvma : P.vma = (s.proc p).vma)
    (hdirs : ∀ ip, (s.proc p).dirs.count ip + J.count ip = P.dirs.count ip + L.count ip)
    (hidle : P.state ≠ .running → (∀ fd, P.ofile fd = none) ∧ ∀ i, (P.vma i).used = false) :
    Refs (s.setProc p P) H L := by
  have hproc (q : Fin n) : (s.setProc p P).proc q = if q = p then P else s.proc q := by
    simp only [State.setProc, Function.update_apply]
  have hofiles : ofiles (s.setProc p P) = ofiles s := by
    funext k
    unfold ofiles
    rw [hproc]
    split
    · rename_i hk
      rw [hofile, hk]
    · rfl
  have hmaps : mapfiles (s.setProc p P) = mapfiles s := by
    funext k
    unfold mapfiles
    rw [hproc]
    split
    · rename_i hk
      rw [hvma, hk]
    · rfl
  have hupdate : (fun q => ((s.setProc p P).proc q).dirs) =
      Function.update (fun q => (s.proc q).dirs) p P.dirs := by
    funext q
    rw [hproc]
    by_cases hq : q = p
    · subst hq
      rw [if_pos rfl, Function.update_self]
    · rw [if_neg hq, Function.update_of_ne hq]
  have hholders (f : FileId) : holders (s.setProc p P) f = holders s f := by
    unfold holders
    rw [hofiles, hmaps]
  refine ⟨?_, h.closed, ?_, h.opened, ?_, ?_⟩
  · intro f
    rw [hholders]
    exact h.files f
  · intro f hf
    rw [hholders]
    exact h.typed f hf
  · intro ip
    have htally := tally_update (fun q => (s.proc q).dirs) p P.dirs ip
    have hip := h.inodes ip
    have hc := hdirs ip
    unfold inodeHolders at hip ⊢
    rw [hupdate]
    have hfiles : tally (fun f => ((s.setProc p P).file f).inodes) ip =
        tally (fun f => (s.file f).inodes) ip := rfl
    change (s.inode ip).ref = _
    omega
  · intro q hq
    rw [hproc] at hq ⊢
    split at hq
    · rename_i hqp
      rw [if_pos hqp]
      exact hidle hq
    · rename_i hqp
      rw [if_neg hqp]
      exact h.idle q hq

theorem Refs.takeVma (h : Refs s H J) {p : Fin n} {i : Fin NVMA}
    (hused : ((s.proc p).vma i).used = true) :
    Refs (s.setVma p i { (s.proc p).vma i with used := false })
      (((s.proc p).vma i).mapfile :: H) J := by
  apply h.moveVma p i _ ?_ (by simp [VMA.files]) (Or.inr rfl)
  intro g
  rw [count_cons_eq]
  simp [VMA.files, hused]

/-- A VMA that was not used is set; the reference comes from `H`. -/
theorem Refs.putVma {v : VMA} (h : Refs s (v.mapfile :: H) J) {p : Fin n} {i : Fin NVMA}
    (hfree : ((s.proc p).vma i).used = false) (hused : v.used = true)
    (htype : (s.file v.mapfile).type ≠ .none)
    (hrun : (s.proc p).state = .running) : Refs (s.setVma p i v) H J := by
  apply h.moveVma p i _ ?_ (by simpa [VMA.files, hused] using htype) (Or.inl hrun)
  intro g
  rw [count_cons_eq]
  simp [VMA.files, hfree, hused]

theorem holders_pos_of_ofile {p : Fin n} {fd : Fin NOFILE} {f : FileId}
    (hf : (s.proc p).ofile fd = some f) : 0 < holders s f := by
  have h := count_le_tally (ofiles s) (p, fd) f
  have hone : (ofiles s (p, fd)).count f = 1 := by simp [ofiles, hf]
  unfold holders
  omega

theorem holders_pos_of_vma {p : Fin n} {i : Fin NVMA} (hused : ((s.proc p).vma i).used = true) :
    0 < holders s ((s.proc p).vma i).mapfile := by
  have h := count_le_tally (mapfiles s) (p, i) ((s.proc p).vma i).mapfile
  have hone : (mapfiles s (p, i)).count ((s.proc p).vma i).mapfile = 1 := by
    simp [mapfiles, VMA.files, hused]
  unfold holders
  omega

theorem Refs.type_ne (h : Refs s H J) {f : FileId} (hpos : 0 < holders s f) :
    (s.file f).type ≠ .none := by
  intro hnone
  have := h.typed f hnone
  omega

theorem Refs.ref_pos (h : Refs s H J) {f : FileId} (hpos : 0 < holders s f) :
    0 < (s.file f).ref := by
  have := h.files f
  omega

end Processes

end Xv6Labs.Mmap
