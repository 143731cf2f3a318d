import Xv6Labs.MmapVmas

/-! The bytes that a page fault shows. A run is followed together with the origin of every
mapping: the file, the file offset and the base that mmap returned. -/
namespace Xv6Labs.Mmap

variable {n : Nat} {s s' : State n}

section Files

/-- An open file is closed for good or keeps its inode. -/
def Kept (F F' : File) : Prop := F'.type = .none ∨ (F'.type = F.type ∧ F'.ip = F.ip)

/-- Files keep their inodes, and no file grows past what an inode can hold. -/
structure Keeps (s s' : State n) : Prop where
  file : ∀ f, Kept (s.file f) (s'.file f)
  small : (∀ ip, (s.inode ip).size ≤ MAXFILE * BSIZE) →
    ∀ ip, (s'.inode ip).size ≤ MAXFILE * BSIZE

theorem Keeps.refl (s : State n) : Keeps s s := ⟨fun _ => Or.inr ⟨rfl, rfl⟩, fun h => h⟩

theorem Kept.trans {F F' F'' : File} (h : Kept F F') (h' : Kept F' F'') : Kept F F'' := by
  rcases h' with h' | ⟨htype, hip⟩
  · exact Or.inl h'
  · rcases h with h | h
    · exact Or.inl (htype.trans h)
    · exact Or.inr ⟨htype.trans h.1, hip.trans h.2⟩

theorem Keeps.trans {s₁ s₂ : State n} (h : Keeps s s₁) (h' : Keeps s₁ s₂) : Keeps s s₂ :=
  ⟨fun f => (h.file f).trans (h'.file f), fun hs => h'.small (h.small hs)⟩

end Files

section Calls

variable {p : Fin n}

end Calls

section Origins

/-- Where a mapping comes from: the inode of its file (none for a pipe), the offset that mmap
was called with and the base that it returned. -/
structure Origin where
  ip : Option Nat
  offset : Nat
  base : Nat
  deriving DecidableEq

abbrev Origins (n : Nat) := Fin n → Fin NVMA → Origin

/-- The inode of a file that has one. -/
def File.inode (F : File) : Option Nat :=
  match F.type with
  | .inode => F.ip
  | .device => F.ip
  | _ => none

/-- mmap makes an origin and fork copies those of the parent. -/
def follow (s : State n) (g : Origins n) : Op n → Origins n
  | .mmap p _ prot flags fd offset =>
    match mmapFile s p prot flags fd.toInt, freeVma (s.proc p) with
    | some f, some i => Function.update g p
        (Function.update (g p) i ⟨(s.file f).inode, offset, (s.proc p).sz⟩)
    | _, _ => g
  | .fork p q => if (s.proc q).state = .unused then Function.update g q (g p) else g
  | _ => g

/-- What is left of a mapping still lies over the part of the file that it came from. -/
structure Placed (v : VMA) (o : Origin) : Prop where
  pos : 0 < v.length
  short : v.length < 2^31
  addr : v.addr % PGSIZE = 0
  length : v.length % PGSIZE = 0
  base : o.base ≤ v.addr
  offset : (v.offset + o.base) % 2^64 = (o.offset + v.addr) % 2^64

/-- The mappings of a process, with their origins. -/
structure Laid (file : FileId → File) (P : Proc) (g : Fin NVMA → Origin) : Prop where
  aligned : P.sz % PGSIZE = 0
  wide : P.sz < 2^64
  placed : ∀ i, (P.vma i).used = true → Placed (P.vma i) (g i)
  below : ∀ i, (P.vma i).used = true → ((P.vma i).addr : Int) + (P.vma i).length ≤ P.sz
  file : ∀ i, (P.vma i).used = true → ∀ ip, (g i).ip = some ip →
    (file (P.vma i).mapfile).inode = some ip
  apart : ∀ i j, i ≠ j → (P.vma i).used = true → (P.vma j).used = true →
    ((P.vma i).addr : Int) + (P.vma i).length ≤ (P.vma j).addr ∨
    ((P.vma j).addr : Int) + (P.vma j).length ≤ (P.vma i).addr

/-- The used VMA `v'` is a part of `v`, over the same part of the file. -/
structure Part (v' v : VMA) (o : Origin) : Prop where
  used : v.used = true
  placed : Placed v' o
  lo : v.addr ≤ v'.addr
  hi : (v'.addr : Int) + v'.length ≤ v.addr + v.length
  mapfile : v'.mapfile = v.mapfile

theorem Laid.part {file : FileId → File} {P : Proc} {g : Fin NVMA → Origin} (h : Laid file P g)
    {i : Fin NVMA} (hi : (P.vma i).used = true) : Part (P.vma i) (P.vma i) (g i) :=
  ⟨hi, h.placed i hi, Nat.le_refl _, Int.le_refl _, rfl⟩

/-- Parts of mappings that were laid out are laid out, while their files stay open. -/
theorem Laid.shrink {file file' : FileId → File} {P P' : Proc} {g : Fin NVMA → Origin}
    (h : Laid file P g) (hsz : P'.sz = P.sz) (hfile : ∀ f, Kept (file f) (file' f))
    (hopen : ∀ i, (P'.vma i).used = true → (file' (P'.vma i).mapfile).type ≠ .none)
    (hvma : ∀ i, (P'.vma i).used = true → Part (P'.vma i) (P.vma i) (g i)) : Laid file' P' g := by
  refine ⟨by rw [hsz]; exact h.aligned, by rw [hsz]; exact h.wide, fun i hi => (hvma i hi).placed,
    ?_, ?_, ?_⟩
  · intro i hi
    have hp := hvma i hi
    have := h.below i hp.used
    have := hp.hi
    rw [hsz]
    omega
  · intro i hi ip hip
    have hp := hvma i hi
    have hold := h.file i hp.used ip hip
    rcases hfile (P'.vma i).mapfile with hclosed | ⟨htype, hkept⟩
    · exact absurd hclosed (hopen i hi)
    · unfold File.inode at hold ⊢
      rw [htype, hkept, hp.mapfile]
      exact hold
  · intro i j hij hi hj
    have hpi := hvma i hi
    have hpj := hvma j hj
    have hi1 := hpi.lo
    have hi2 := hpi.hi
    have hj1 := hpj.lo
    have hj2 := hpj.hi
    rcases h.apart i j hij hpi.used hpj.used with hlt | hlt
    · left
      omega
    · right
      omega

/-- A new mapping starts at the size. -/
theorem Laid.mmap {file file' : FileId → File} {P : Proc} {g : Fin NVMA → Origin}
    (h : Laid file P g) {i : Fin NVMA} {v : VMA} (hfile : ∀ f, Kept (file f) (file' f))
    (hopen : ∀ j, (Function.update P.vma i v j).used = true →
      (file' (Function.update P.vma i v j).mapfile).type ≠ .none)
    (hpos : 0 < v.length) (hshort : v.length < 2^31) (hmult : v.length % PGSIZE = 0)
    (haddr : v.addr = P.sz) (hwide : (P.sz : Int) + v.length < 2^64) :
    Laid file' { P with vma := Function.update P.vma i v, sz := add64 P.sz v.length }
      (Function.update g i ⟨(file v.mapfile).inode, v.offset, P.sz⟩) := by
  have hsz : (add64 P.sz v.length : Int) = P.sz + v.length := by
    unfold add64
    omega
  have halign := h.aligned
  have hkeep (f : FileId) (hf : (file' f).type ≠ .none) : (file' f).inode = (file f).inode := by
    rcases hfile f with hclosed | ⟨htype, hip⟩
    · exact absurd hclosed hf
    · unfold File.inode
      rw [htype, hip]
  refine ⟨?_, ?_, ?_, ?_, ?_, ?_⟩
  · show add64 P.sz v.length % PGSIZE = 0
    unfold PGSIZE at *
    omega
  · show add64 P.sz v.length < 2^64
    omega
  · intro j hj
    by_cases hji : j = i
    · subst hji
      simp only [Function.update_self]
      refine ⟨hpos, hshort, by rw [haddr]; exact halign, hmult, Nat.le_of_eq haddr.symm, ?_⟩
      simp only [haddr]
    · simp only [Function.update_of_ne hji] at hj ⊢
      exact h.placed j hj
  · intro j hj
    simp only [hsz]
    by_cases hji : j = i
    · simp [hji, haddr]
    · simp only [Function.update_of_ne hji] at hj ⊢
      have := h.below j hj
      omega
  · intro j hj ip hip
    have hopen' := hopen j hj
    by_cases hji : j = i
    · subst hji
      simp only [Function.update_self] at hip hopen' ⊢
      rw [hkeep _ hopen']
      exact hip
    · simp only [Function.update_of_ne hji] at hj hip hopen' ⊢
      rw [hkeep _ hopen']
      exact h.file j hj ip hip
  · intro j j' hjj' hj hj'
    by_cases hji : j = i
    · have hji' : j' ≠ i := fun heq => hjj' (hji.trans heq.symm)
      -- the others end where this one begins, at the old size
      simp only [Function.update_of_ne hji', hji, Function.update_self] at hj' ⊢
      have := h.below j' hj'
      right
      rw [haddr]
      exact this
    · simp only [Function.update_of_ne hji] at hj ⊢
      by_cases hji' : j' = i
      · simp only [hji', Function.update_self]
        have := h.below j hj
        left
        rw [haddr]
        exact this
      · simp only [Function.update_of_ne hji'] at hj' ⊢
        exact h.apart j j' hjj' hj hj'

/-- munmap of whole pages at the start or at the end of a VMA. -/
theorem cut_part {v : VMA} {o : Origin} {addr : Nat} {length : Int} (hused : v.used = true)
    (hv : Placed v o) (hend : (v.addr : Int) + v.length < 2^64) (hpos : 0 < length)
    (hmult : length % PGSIZE = 0)
    (hin : (addr = v.addr ∧ length ≤ v.length) ∨
      (v.addr ≤ addr ∧ (addr : Int) + length = v.addr + v.length))
    (hused' : (v.cut addr length).used = true) : Part (v.cut addr length) v o := by
  obtain ⟨hvpos, hvshort, hvaddr, hvlen, hvbase, hvoff⟩ := hv
  unfold VMA.cut at hused' ⊢
  split_ifs at hused' ⊢ with hall hbegins hsuffix
  · -- a prefix goes: address and offset move together
    have hlt : length < v.length := by
      rcases hin with ⟨-, hle⟩ | ⟨-, heq⟩
      · have : length ≠ v.length := fun heq => hall ⟨hbegins, heq⟩
        omega
      · have : length ≠ v.length := fun heq => hall ⟨hbegins, heq⟩
        omega
    have haddr : (add64 v.addr length : Int) = v.addr + length := by
      unfold add64
      omega
    have hint : int32 (v.length - length) = v.length - length := by
      unfold int32
      omega
    refine ⟨hused, ⟨?_, ?_, ?_, ?_, ?_, ?_⟩, ?_, ?_, rfl⟩
    · simp only [hint]
      omega
    · simp only [hint]
      omega
    · show add64 v.addr length % PGSIZE = 0
      unfold PGSIZE at *
      omega
    · simp only [hint]
      unfold PGSIZE at *
      omega
    · show o.base ≤ add64 v.addr length
      omega
    · show (add64 v.offset length + o.base) % 2^64 = (o.offset + add64 v.addr length) % 2^64
      have hoff : (add64 v.offset length : Int) = (v.offset + length) % 2^64 := by
        unfold add64
        omega
      omega
    · show v.addr ≤ add64 v.addr length
      omega
    · simp only [hint, haddr]
      omega
  · -- a suffix goes: address and offset stay
    have hint : int32 (v.length - length) = v.length - length := by
      unfold int32
      omega
    have hsum : (addr : Int) + length = v.addr + v.length := by
      rcases hin with ⟨heq, -⟩ | ⟨-, heq⟩
      · exact absurd heq hbegins
      · exact heq
    have hlt : v.addr < addr := by
      rcases hin with ⟨heq, -⟩ | ⟨hle, -⟩
      · exact absurd heq hbegins
      · omega
    refine ⟨hused, ⟨?_, ?_, hvaddr, ?_, hvbase, hvoff⟩, Nat.le_refl _, ?_, rfl⟩
    · simp only [hint]
      omega
    · simp only [hint]
      omega
    · simp only [hint]
      unfold PGSIZE at *
      omega
    · simp only [hint]
      omega
  · exact ⟨hused, ⟨hvpos, hvshort, hvaddr, hvlen, hvbase, hvoff⟩, Nat.le_refl _, Int.le_refl _, rfl⟩

end Origins

section Runs

variable {g : Origins n}

/-- Calls of mmap with whole pages, of munmap for whole pages at an end of a mapping, forks, and
calls that move no mapping. -/
def Follows (s : State n) : Op n → Prop
  | .mmap p length _ _ _ _ => 0 < length.toInt ∧ length.toInt % PGSIZE = 0 ∧
      ((s.proc p).sz : Int) + length.toInt < 2^64
  | .munmap p addr length => 0 < length.toInt ∧ length.toInt % PGSIZE = 0 ∧
      ∀ i, ((s.proc p).vma i).hit addr = true →
        (addr = ((s.proc p).vma i).addr ∧ length.toInt ≤ ((s.proc p).vma i).length) ∨
        (addr : Int) + length.toInt = ((s.proc p).vma i).addr + ((s.proc p).vma i).length
  | .openFile .. | .pipe .. | .sbrk .. | .exec .. => False
  | _ => True

instance (s : State n) : (op : Op n) → Decidable (Follows s op)
  | .mmap .. => inferInstanceAs (Decidable (_ ∧ _ ∧ _))
  | .munmap .. => inferInstanceAs (Decidable (_ ∧ _ ∧ ∀ _, _ → _))
  | .openFile .. | .pipe .. | .sbrk .. | .exec .. => inferInstanceAs (Decidable False)
  | .dup .. | .close .. | .load .. | .store .. | .fork .. | .exit .. | .wait .. =>
    inferInstanceAs (Decidable True)

/-- The counts are exact, the files have their sizes and the mappings lie where they should. -/
structure Traced (s : State n) (g : Origins n) : Prop where
  exact : Exact s
  small : ∀ ip, (s.inode ip).size ≤ MAXFILE * BSIZE
  laid : ∀ p, (s.proc p).state = .running → Laid s.file (s.proc p) (g p)

theorem exact_open (h : Exact s) {p : Fin n} (i : Fin NVMA)
    (hi : ((s.proc p).vma i).used = true) : (s.file ((s.proc p).vma i).mapfile).type ≠ .none :=
  Refs.type_ne h (holders_pos_of_vma hi)

/-- A process that looks the same, while the files are kept. -/
theorem Traced.same (h : Traced s g) (hE : Exact s') (hK : Keeps s s') {p : Fin n}
    (hlook : Looks (s.proc p) (s'.proc p)) (hrun : (s'.proc p).state = .running) :
    Laid s'.file (s'.proc p) (g p) := by
  have hL := h.laid p (hlook.state.symm.trans hrun)
  apply hL.shrink hlook.sz hK.file (fun i hi => exact_open hE i hi)
  intro i hi
  rw [hlook.vma] at hi ⊢
  exact hL.part hi

theorem Traced.others (h : Traced s g) (hE : Exact s') (hK : Keeps s s') {p : Fin n}
    (heq : s'.proc p = s.proc p) (hrun : (s'.proc p).state = .running) :
    Laid s'.file (s'.proc p) (g p) :=
  h.same hE hK (by rw [heq]; exact Looks.refl _) hrun

/-- A step that leaves the origins alone and changes only `p`. -/
theorem Traced.change (h : Traced s g) (hE : Exact s') (hK : Keeps s s') (p : Fin n)
    (hothers : ∀ q, q ≠ p → s'.proc q = s.proc q)
    (hself : (s'.proc p).state = .running → Laid s'.file (s'.proc p) (g p)) : Traced s' g := by
  refine ⟨hE, hK.small h.small, ?_⟩
  intro q hq
  by_cases hqp : q = p
  · rw [hqp] at hq ⊢
    exact hself hq
  · exact h.others hE hK (hothers q hqp) hq

theorem Traced.mmap (h : Traced s g) (hE : Exact s') (hK : Keeps s s') {p : Fin n}
    (hrun : (s.proc p).state = .running) {length : Int32} {prot flags : Nat} {fd : Int32}
    {offset : Nat} (hop : Follows s (.mmap p length prot flags fd offset))
    (hs : Mmaps p length.toInt prot flags fd.toInt offset s s') :
    Traced s' (follow s g (.mmap p length prot flags fd offset)) := by
  rcases hs with ⟨hsame, hnone⟩ | ⟨f, i, hf, hi, hproc⟩
  · have hg : follow s g (.mmap p length prot flags fd offset) = g := by
      rcases hnone with hnone | hnone
      · simp only [follow, hnone]
      · cases hf : mmapFile s p prot flags fd.toInt <;> simp only [follow, hf, hnone]
    rw [hg, hsame]
    exact h
  · simp only [follow, hf, hi]
    refine ⟨hE, hK.small h.small, ?_⟩
    intro q hq
    by_cases hqp : q = p
    · subst hqp
      rw [Function.update_self]
      have hp := congrFun hproc q
      rw [Function.update_self] at hp
      have hopen := fun j => exact_open hE (p := q) j
      rw [hp] at hopen ⊢
      exact (h.laid q hrun).mmap (v := ⟨true, (s.proc q).sz, length.toInt, prot, flags, f, offset,
        (s.proc q).image⟩) hK.file hopen hop.1 (Int32.toInt_lt length) hop.2.1 rfl hop.2.2
    · rw [Function.update_of_ne hqp]
      exact h.others hE hK (by rw [hproc, Function.update_of_ne hqp]) hq

theorem Traced.munmap (h : Traced s g) (hE : Exact s') (hK : Keeps s s') {p : Fin n}
    (hrun : (s.proc p).state = .running) {addr : Nat} {length : Int32}
    (hop : Follows s (.munmap p addr length)) (hs : Cuts p addr length.toInt s s') :
    Traced s' g := by
  refine h.change hE hK p hs.others (fun _ => ?_)
  have hL := h.laid p hrun
  apply hL.shrink hs.sz hK.file (fun i hi => exact_open hE i hi)
  intro i hi
  rcases hs.vma i with hsame | ⟨hhit, hcut⟩
  · rw [hsame] at hi ⊢
    exact hL.part hi
  · have hin := hop.2.2 i hhit
    simp only [VMA.hit, Bool.and_eq_true, decide_eq_true_eq] at hhit
    rw [hcut] at hi ⊢
    have hbelow := hL.below i hhit.1.1
    have hwide := hL.wide
    refine cut_part hhit.1.1 (hL.placed i hhit.1.1) (by omega) hop.1 hop.2.1 ?_ hi
    rcases hin with hin | hin
    · exact Or.inl hin
    · exact Or.inr ⟨hhit.1.2, hin⟩

theorem Traced.fork (h : Traced s g) (hE : Exact s') (hK : Keeps s s') {p q : Fin n}
    (hp : (s.proc p).state = .running) (hq : (s.proc q).state = .unused)
    (hs : Forks p q s s') : Traced s' (Function.update g q (g p)) := by
  have hfree := (Refs.idle h.exact q (by rw [hq]; decide)).2
  refine ⟨hE, hK.small h.small, ?_⟩
  intro r hr
  by_cases hrq : r = q
  · subst hrq
    rw [Function.update_self]
    rcases hs.child with ⟨hstate, -⟩ | hlook
    · exact absurd hr hstate
    · have hL := h.laid p hp
      apply hL.shrink hlook.sz hK.file (fun i hi => exact_open hE i hi)
      intro i hi
      have hvma : (s'.proc r).vma i = if ((s.proc p).vma i).used then (s.proc p).vma i
          else (s.proc r).vma i := congrFun hlook.vma i
      by_cases hused : ((s.proc p).vma i).used = true
      · rw [hvma, if_pos hused]
        exact hL.part hused
      · rw [hvma, if_neg hused, hfree i] at hi
        cases hi
  · rw [Function.update_of_ne hrq]
    exact h.others hE hK (hs.others r hrq) hr

/-- The start: exact counts, no mappings, and sizes at page boundaries. -/
structure Ready (s : State n) : Prop where
  exact : Exact s
  small : ∀ ip, (s.inode ip).size ≤ MAXFILE * BSIZE
  vma : ∀ p i, ((s.proc p).vma i).used = false
  aligned : ∀ p, (s.proc p).state = .running → (s.proc p).sz % PGSIZE = 0 ∧ (s.proc p).sz < 2^64

end Runs

section Faults

variable {g : Origins n} {p : Fin n} {i : Fin NVMA} {va ip : Nat}

instance : NeZero NOFILE := ⟨by decide⟩

end Faults

end Xv6Labs.Mmap
