import Xv6Labs.MmapCounts

/-! What every operation can do to the size and to the mappings of the processes. The rest of
the state is left open here, and so are panics. -/
namespace Xv6Labs.Mmap

variable {n : Nat} {s : State n}

section Looks

/-- Nothing that the mappings depend on has changed. -/
structure Looks (P Q : Proc) : Prop where
  state : Q.state = P.state
  sz : Q.sz = P.sz
  vma : Q.vma = P.vma
  given : Q.given = P.given
  image : Q.image = P.image

theorem Looks.refl (P : Proc) : Looks P P := ⟨rfl, rfl, rfl, rfl, rfl⟩

theorem Looks.trans {P Q R : Proc} (h : Looks P Q) (h' : Looks Q R) : Looks P R :=
  ⟨h'.state.trans h.state, h'.sz.trans h.sz, h'.vma.trans h.vma, h'.given.trans h.given,
    h'.image.trans h.image⟩

/-- Only the process `p` has changed, and not in its mappings. -/
structure Calm (p : Fin n) (s s' : State n) : Prop where
  others : ∀ q, q ≠ p → s'.proc q = s.proc q
  self : Looks (s.proc p) (s'.proc p)

/-- Only the process `p` has changed, and it has exited. -/
structure Dies (p : Fin n) (s s' : State n) : Prop where
  others : ∀ q, q ≠ p → s'.proc q = s.proc q
  state : (s'.proc p).state = .zombie
  vma : ∀ i, ((s'.proc p).vma i).used = false

variable {p : Fin n} {s₁ s₂ : State n}

theorem calm_of_eq (h : s₁.proc = s.proc) : Calm p s s₁ :=
  ⟨fun q _ => by rw [h], by rw [h]; exact Looks.refl _⟩

theorem Calm.trans (h : Calm p s s₁) (h' : Calm p s₁ s₂) : Calm p s s₂ :=
  ⟨fun q hq => (h'.others q hq).trans (h.others q hq), h.self.trans h'.self⟩

theorem Calm.dies (h : Calm p s s₁) (h' : Dies p s₁ s₂) : Dies p s s₂ :=
  ⟨fun q hq => (h'.others q hq).trans (h.others q hq), h'.state, h'.vma⟩

theorem calm_setProc {P : Proc} (h : Looks (s.proc p) P) : Calm p s (s.setProc p P) :=
  ⟨fun q hq => by simp [State.setProc, hq], by simpa [State.setProc] using h⟩

theorem calm_setTable (t : Table) : Calm p s (s.setTable p t) :=
  calm_setProc ⟨rfl, rfl, rfl, rfl, rfl⟩

theorem calm_setOfile (fd : Fin NOFILE) (o : Option FileId) : Calm p s (s.setOfile p fd o) :=
  calm_setProc ⟨rfl, rfl, rfl, rfl, rfl⟩

end Looks

section Exit

variable {p : Fin n}

theorem fileclose_proc (s : State n) (f : FileId) :
    Yields (fun _ => True) (fun s' => s'.proc = s.proc) (fileclose s f) := by
  cases h : fileclose s f with
  | error e => trivial
  | ok s' => exact (fileclose_frame h).1

theorem filedup_proc (s : State n) (f : FileId) :
    Yields (fun _ => True) (fun s' => s'.proc = s.proc) (filedup s f) := by
  unfold filedup
  split
  · trivial
  · rfl

theorem writeBack_proc (s : State n) (p : Fin n) (v : VMA) (addr : Nat) (len : Int) :
    Yields (fun _ => True) (fun s' => s'.proc = s.proc) (writeBack s p v addr len) :=
  ((writeBack_same s p v addr len).mono (fun _ h => h.proc)).weaken (fun _ _ => trivial)

theorem closeFd_calm (s : State n) (fd : Fin NOFILE) :
    Yields (fun _ => True) (Calm p s) (closeFd p s fd) := by
  unfold closeFd
  cases (s.proc p).ofile fd with
  | none => exact calm_of_eq rfl
  | some f =>
    apply (fileclose_proc s f).bind
    intro s₁ h₁
    exact (calm_of_eq h₁).trans (calm_setOfile fd none)

/-- exit's loop leaves each VMA unused and the others alone. -/
theorem closeVma_effect (s : State n) (i : Fin NVMA) :
    Yields (fun _ => True) (fun s' => (∀ q, q ≠ p → s'.proc q = s.proc q) ∧
      ((s'.proc p).vma i).used = false ∧ ∀ j, j ≠ i → (s'.proc p).vma j = (s.proc p).vma j)
      (closeVma p s i) := by
  unfold closeVma
  dsimp only
  split
  · apply (writeBack_proc _ _ _ _ _).bind
    intro s₁ h₁
    apply (fileclose_proc _ _).bind
    intro s₂ h₂
    apply (yields_trivial (uvmunmap _ _ _ _)).bind
    intro t _
    have hproc : s₂.proc = s.proc := h₂.trans h₁
    refine ⟨?_, ?_, ?_⟩
    · intro q hq
      simp [State.setTable, State.setVma, State.setProc, hq, hproc]
    · simp [State.setVma]
    · intro j hj
      simp [State.setTable, State.setVma, hj, hproc]
  · rename_i hused
    exact ⟨fun q _ => rfl, by simpa using hused, fun j _ => rfl⟩

theorem iput_proc (s : State n) (ip : Nat) : (iput s ip).proc = s.proc := rfl

theorem exit_dies (s : State n) (p : Fin n) : Yields (fun _ => True) (Dies p s) (exit s p) := by
  unfold exit
  have hfds := yields_foldlM (E := fun _ => True) (f := closeFd p) (fun _ s' => Calm p s s')
    (fun fd _ s' h => (closeFd_calm s' fd).mono (fun _ h' => h.trans h'))
    (List.finRange NOFILE) s (calm_of_eq rfl)
  apply hfds.bind
  intro s₁ h₁
  have hvmas := yields_foldlM (E := fun _ => True) (f := closeVma p) (fun l s' =>
    (∀ q, q ≠ p → s'.proc q = s.proc q) ∧ ∀ i, i ∉ l → ((s'.proc p).vma i).used = false) (by
      rintro i l s' ⟨hothers, hvma⟩
      apply (closeVma_effect s' i).mono
      rintro s'' ⟨hothers', hself, hrest⟩
      refine ⟨fun q hq => (hothers' q hq).trans (hothers q hq), ?_⟩
      intro j hj
      by_cases hji : j = i
      · rw [hji]
        exact hself
      · rw [hrest j hji]
        exact hvma j (by simp_all)) (List.finRange NVMA) s₁
    ⟨h₁.others, fun i hi => absurd (List.mem_finRange i) hi⟩
  apply hvmas.bind
  rintro s₂ ⟨hothers, hvma⟩
  refine ⟨?_, ?_, ?_⟩
  · intro q hq
    simp only [State.setProc, iput_proc, Function.update_of_ne hq]
    exact hothers q hq
  · simp
  · intro i
    simp only [setProc_self, iput_proc]
    exact hvma i (by simp)

theorem usertrap_effect (s : State n) (p : Fin n) (va : Nat) :
    Yields (fun _ => True) (fun s' => Calm p s s' ∨ Dies p s s') (usertrap s p va) := by
  have hexit : Yields (fun _ => True) (fun s' => Calm p s s' ∨ Dies p s s') (exit s p) :=
    (exit_dies s p).mono (fun _ h => Or.inr h)
  unfold usertrap
  split
  · exact hexit
  · cases findVma (s.proc p) va with
    | none => exact hexit
    | some i =>
      have hfault : Yields (fun _ => True) (fun r => Calm p s r.1) (faultVma s p va i) := by
        unfold faultVma
        dsimp only
        split
        · apply (yields_trivial (ilock _ _)).bind
          intro ip _
          apply (yields_trivial (mappages _ _ _ _)).bind
          intro q _
          have hmem : Calm p s (s.setMem q.1) := calm_of_eq rfl
          exact hmem.trans (calm_setTable q.2.1)
        · trivial
      apply hfault.bind
      intro r hr
      split
      · exact Or.inl hr
      · exact (exit_dies r.1 p).mono (fun _ h => Or.inr (hr.dies h))

/-- An access that finds a PTE has left the mappings alone. -/
theorem access_effect (p : Fin n) (va : Nat) (st : Bool) (tries : Nat) (s : State n) :
    Yields (fun _ => True) (fun r => Calm p s r.1 ∨ (Dies p s r.1 ∧ r.2 = none))
      (access p va st tries s) := by
  induction tries generalizing s with
  | zero => exact Or.inl (calm_of_eq rfl)
  | succ tries ih =>
    rw [access]
    cases translate (s.proc p).table va st with
    | some e => exact Or.inl (calm_of_eq rfl)
    | none =>
      apply (usertrap_effect s p va).bind
      intro s₁ h₁
      split
      · rename_i hrun
        -- a process that has exited does not try again
        have hcalm : Calm p s s₁ := by
          rcases h₁ with h₁ | h₁
          · exact h₁
          · rw [h₁.state] at hrun
            cases hrun
        apply (ih s₁).mono
        rintro r (hr | ⟨hr, hnone⟩)
        · exact Or.inl (hcalm.trans hr)
        · exact Or.inr ⟨hcalm.dies hr, hnone⟩
      · rcases h₁ with h₁ | h₁
        · exact Or.inl h₁
        · exact Or.inr ⟨h₁, rfl⟩

theorem load_effect (s : State n) (p : Fin n) (va : Nat) :
    Yields (fun _ => True) (fun r => Calm p s r.1 ∨ Dies p s r.1) (load s p va) := by
  unfold load
  apply (access_effect p va false 2 s).bind
  rintro r (hr | ⟨hr, -⟩)
  · exact Or.inl hr
  · exact Or.inr hr

theorem store_effect (s : State n) (p : Fin n) (va : Nat) (b : UInt8) :
    Yields (fun _ => True) (fun s' => Calm p s s' ∨ Dies p s s') (store s p va b) := by
  unfold store
  apply (access_effect p va true 2 s).bind
  rintro ⟨s₁, o⟩ (hr | ⟨hr, hnone⟩)
  · cases o with
    | none => exact Or.inl hr
    | some e => exact Or.inl (hr.trans (calm_setTable _))
  · cases hnone
    exact Or.inr hr

end Exit

section Mappings

variable {p : Fin n}

/-- What sys_mmap can do: it fails, or the first free VMA gets the addresses from the size
on. -/
def Mmaps (p : Fin n) (length : Int) (prot flags : Nat) (fd : Int) (offset : Nat)
    (s s' : State n) : Prop :=
  (s' = s ∧ (mmapFile s p prot flags fd = none ∨ freeVma (s.proc p) = none)) ∨
  ∃ f i, mmapFile s p prot flags fd = some f ∧ freeVma (s.proc p) = some i ∧
    s'.proc = Function.update s.proc p { s.proc p with
      vma := Function.update (s.proc p).vma i
        ⟨true, (s.proc p).sz, length, prot, flags, f, offset, (s.proc p).image⟩
      sz := add64 (s.proc p).sz length }

theorem sysMmap_effect (s : State n) (p : Fin n) (length : Int) (prot flags : Nat) (fd : Int)
    (offset : Nat) : Yields (fun _ => True)
      (fun r => Mmaps p length prot flags fd offset s r.1)
      (sysMmap s p length prot flags fd offset) := by
  unfold sysMmap
  cases hf : mmapFile s p prot flags fd with
  | none => exact Or.inl ⟨rfl, Or.inl hf⟩
  | some f =>
    dsimp only
    cases hi : freeVma (s.proc p) with
    | none => exact Or.inl ⟨rfl, Or.inr hi⟩
    | some i =>
      dsimp only
      apply (filedup_proc _ f).bind
      intro s₁ h₁
      exact Or.inr ⟨f, i, hf, hi, h₁⟩

/-- What sys_munmap makes of a VMA that holds `addr`. -/
def VMA.cut (v : VMA) (addr : Nat) (length : Int) : VMA :=
  if addr = v.addr ∧ length = v.length then { v with used := false }
  else if addr = v.addr then
    { v with
      addr := add64 v.addr length
      length := int32 (v.length - length)
      offset := add64 v.offset length }
  else if add64 addr length = add64 v.addr v.length then
    { v with length := int32 (v.length - length) }
  else v

/-- Only `p` has changed, and only in its table and its VMA `i`, which is now `v`. -/
structure Sets (p : Fin n) (i : Fin NVMA) (v : VMA) (s s' : State n) : Prop where
  others : ∀ q, q ≠ p → s'.proc q = s.proc q
  self : Looks { s.proc p with vma := Function.update (s.proc p).vma i v } (s'.proc p)

theorem Sets.vma {i : Fin NVMA} {v : VMA} {s₁ : State n} (h : Sets p i v s s₁) :
    (s₁.proc p).vma = Function.update (s.proc p).vma i v := h.self.vma

theorem sets_setVma {s₁ : State n} (h : Calm p s s₁) (i : Fin NVMA) (v : VMA) :
    Sets p i v s (s₁.setVma p i v) := by
  refine ⟨?_, ?_⟩
  · intro q hq
    simpa [State.setVma, State.setProc, hq] using h.others q hq
  · have hself := h.self
    refine ⟨?_, ?_, ?_, ?_, ?_⟩ <;> simp only [State.setVma, setProc_self]
    · exact hself.state
    · exact hself.sz
    · rw [hself.vma]
    · exact hself.given
    · exact hself.image

theorem munmapVma_effect (s : State n) (addr : Nat) (length : Int) (i : Fin NVMA) :
    Yields (fun _ => True) (fun r => Sets p i (((s.proc p).vma i).cut addr length) s r.1)
      (munmapVma s p addr length i) := by
  unfold munmapVma VMA.cut
  dsimp only
  apply (writeBack_proc _ _ _ _ _).bind
  intro s₁ h₁
  apply (yields_trivial (uvmunmap _ _ _ _)).bind
  intro t _
  have hcalm : Calm p s (s₁.setTable p t) := (calm_of_eq h₁).trans (calm_setTable t)
  split
  · apply (fileclose_proc _ _).bind
    intro s₂ h₂
    exact sets_setVma (hcalm.trans (calm_of_eq h₂)) i _
  · split
    · exact sets_setVma hcalm i _
    · split
      · exact sets_setVma hcalm i _
      · refine ⟨hcalm.others, ?_⟩
        rw [Function.update_eq_self]
        exact hcalm.self

/-- sys_munmap cuts VMAs that hold `addr`, and nothing else. -/
structure Cuts (p : Fin n) (addr : Nat) (length : Int) (s s' : State n) : Prop where
  others : ∀ q, q ≠ p → s'.proc q = s.proc q
  state : (s'.proc p).state = (s.proc p).state
  sz : (s'.proc p).sz = (s.proc p).sz
  given : (s'.proc p).given = (s.proc p).given
  image : (s'.proc p).image = (s.proc p).image
  vma : ∀ i, (s'.proc p).vma i = (s.proc p).vma i ∨ (((s.proc p).vma i).hit addr = true ∧
    (s'.proc p).vma i = ((s.proc p).vma i).cut addr length)

theorem munmapLoop_effect (addr : Nat) (length : Int) (is : List (Fin NVMA)) (hnd : is.Nodup)
    (s₁ : State n) (h : Cuts p addr length s s₁)
    (hrest : ∀ i ∈ is, (s₁.proc p).vma i = (s.proc p).vma i) :
    Yields (fun _ => True) (fun r => Cuts p addr length s r.1)
      (munmapLoop p addr length is s₁) := by
  induction is generalizing s₁ with
  | nil => exact h
  | cons i is ih =>
    obtain ⟨hi, hnd⟩ := List.nodup_cons.mp hnd
    rw [munmapLoop]
    split
    · rename_i hhit
      apply (munmapVma_effect s₁ addr length i).bind
      intro r hr
      have hvma := hr.vma
      have hcut : Cuts p addr length s r.1 := by
        refine ⟨fun q hq => (hr.others q hq).trans (h.others q hq), hr.self.state.trans h.state,
          hr.self.sz.trans h.sz, hr.self.given.trans h.given, hr.self.image.trans h.image, ?_⟩
        intro j
        rw [hvma]
        by_cases hj : j = i
        · rw [hj, Function.update_self, hrest i (by simp)]
          rw [hrest i (by simp)] at hhit
          exact Or.inr ⟨hhit, rfl⟩
        · rw [Function.update_of_ne hj]
          exact h.vma j
      split
      · apply ih hnd r.1 hcut
        intro j hj
        have hji : j ≠ i := fun heq => hi (heq ▸ hj)
        rw [hvma, Function.update_of_ne hji]
        exact hrest j (by simp [hj])
      · exact hcut
    · exact ih hnd s₁ h (fun j hj => hrest j (by simp [hj]))

theorem sysMunmap_effect (s : State n) (p : Fin n) (addr : Nat) (length : Int) :
    Yields (fun _ => True) (fun r => Cuts p addr length s r.1) (sysMunmap s p addr length) :=
  munmapLoop_effect addr length _ (List.nodup_finRange _) s
    ⟨fun _ _ => rfl, rfl, rfl, rfl, rfl, fun _ => Or.inl rfl⟩ (fun _ _ => rfl)

end Mappings

section Processes

variable {p q : Fin n}

/-- What fork can do: the child looks like the parent, or it does not run. -/
structure Forks (p q : Fin n) (s s' : State n) : Prop where
  others : ∀ r, r ≠ q → s'.proc r = s.proc r
  child : ((s'.proc q).state ≠ .running ∧ (s'.proc q).vma = (s.proc q).vma) ∨
    Looks { s.proc p with
      vma := fun i => if ((s.proc p).vma i).used then (s.proc p).vma i else (s.proc q).vma i }
      (s'.proc q)

theorem forkFd_calm (s : State n) (fd : Fin NOFILE) :
    Yields (fun _ => True) (Calm q s) (forkFd p q s fd) := by
  unfold forkFd
  cases (s.proc p).ofile fd with
  | none => exact calm_of_eq rfl
  | some f =>
    apply (filedup_proc s f).bind
    intro s₁ h₁
    exact (calm_of_eq h₁).trans (calm_setOfile fd _)

theorem forkVma_effect (s : State n) (i : Fin NVMA) :
    Yields (fun _ => True) (Sets q i (if ((s.proc p).vma i).used then (s.proc p).vma i
      else (s.proc q).vma i) s) (forkVma p q s i) := by
  unfold forkVma
  dsimp only
  split
  · apply (filedup_proc _ _).mono
    intro s₁ h₁
    have hset := sets_setVma (p := q) (calm_of_eq (s := s) rfl) i ((s.proc p).vma i)
    exact ⟨fun r hr => by rw [h₁]; exact hset.others r hr, by rw [h₁]; exact hset.self⟩
  · refine ⟨fun r _ => rfl, ?_⟩
    rw [Function.update_eq_self]
    exact Looks.refl _

/-- fork's loops over the descriptors and the VMAs, once the child runs. -/
theorem forkLoops_effect (hpq : p ≠ q) (s : State n) :
    Yields (fun _ => True) (fun s' => (∀ r, r ≠ q → s'.proc r = s.proc r) ∧ Looks { s.proc q with
      vma := fun i => if ((s.proc p).vma i).used then (s.proc p).vma i else (s.proc q).vma i }
      (s'.proc q)) (do
        let s ← (List.finRange NOFILE).foldlM (forkFd p q) s
        (List.finRange NVMA).foldlM (forkVma p q) s) := by
  have hfds := yields_foldlM (E := fun _ => True) (f := forkFd p q) (fun _ s' => Calm q s s')
    (fun fd _ s' h => (forkFd_calm s' fd).mono (fun _ h' => h.trans h'))
    (List.finRange NOFILE) s (calm_of_eq rfl)
  apply hfds.bind
  intro s₁ h₁
  have hp₁ : s₁.proc p = s.proc p := h₁.others p hpq
  have hvmas := yields_foldlM (E := fun _ => True) (f := forkVma p q) (fun l s' =>
    l.Nodup ∧ (∀ r, r ≠ q → s'.proc r = s.proc r) ∧ Looks { s.proc q with
      vma := fun i => if i ∉ l ∧ ((s.proc p).vma i).used then (s.proc p).vma i
        else (s.proc q).vma i } (s'.proc q)) (by
      rintro i l s' ⟨hnd, hothers, hlook⟩
      obtain ⟨hi, hnd⟩ := List.nodup_cons.mp hnd
      apply (forkVma_effect s' i).mono
      intro s'' h''
      refine ⟨hnd, fun r hr => (h''.others r hr).trans (hothers r hr), h''.self.state.trans
        hlook.state, h''.self.sz.trans hlook.sz, ?_, h''.self.given.trans hlook.given,
        h''.self.image.trans hlook.image⟩
      have hvma : (s'.proc q).vma = fun i' => if i' ∉ i :: l ∧ ((s.proc p).vma i').used then
        (s.proc p).vma i' else (s.proc q).vma i' := hlook.vma
      rw [h''.vma, hothers p hpq, hvma]
      funext j
      by_cases hj : j = i
      · rw [hj, Function.update_self]
        simp [hi]
      · rw [Function.update_of_ne hj]
        simp [hj]) (List.finRange NVMA) s₁
    ⟨List.nodup_finRange _, h₁.others, by
      have hself := h₁.self
      refine ⟨hself.state, hself.sz, ?_, hself.given, hself.image⟩
      rw [hself.vma]
      funext i
      simp⟩
  apply hvmas.mono
  rintro s₂ ⟨-, hothers, hlook⟩
  refine ⟨hothers, hlook.state, hlook.sz, ?_, hlook.given, hlook.image⟩
  have hvma : (s₂.proc q).vma = fun i => if i ∉ ([] : List (Fin NVMA)) ∧ ((s.proc p).vma i).used
    then (s.proc p).vma i else (s.proc q).vma i := hlook.vma
  rw [hvma]
  funext i
  simp

theorem freeproc_effect (s : State n) (q : Fin n) : Yields (fun _ => True) (fun s' =>
    (∀ r, r ≠ q → s'.proc r = s.proc r) ∧ (s'.proc q).state = .unused ∧
      (s'.proc q).vma = (s.proc q).vma) (freeproc s q) := by
  unfold freeproc
  apply (yields_trivial (procFreepagetable _ _)).bind
  intro _ _
  exact ⟨fun r hr => by simp [State.setProc, hr], by simp, by simp⟩

theorem fork_effect (s : State n) (hp : (s.proc p).state = .running)
    (hq : (s.proc q).state = .unused) :
    Yields (fun _ => True) (Forks p q s) (fork s p q) := by
  have hpq : p ≠ q := by
    rintro rfl
    rw [hp] at hq
    cases hq
  have hsame (s₁ : State n) (h : s₁.proc = s.proc) : Forks p q s s₁ := by
    refine ⟨fun r _ => by rw [h], Or.inl ⟨?_, by rw [h]⟩⟩
    rw [h, hq]
    decide
  unfold fork
  dsimp only
  split
  · apply (yields_trivial (procPagetable _)).bind
    intro a _
    cases a.2 with
    | none => exact hsame _ rfl
    | some new =>
      apply (yields_trivial (uvmcopy _ _ _ _)).bind
      intro c _
      have hpp : ((s.setMem c.1).setTable q c.2.1).proc p = s.proc p := by
        simp [State.setTable, State.setProc, State.setMem, Function.update_of_ne hpq]
      split
      · rw [hpp]
        apply (forkLoops_effect hpq _).mono
        rintro s₁ ⟨hothers, hlook⟩
        refine ⟨?_, Or.inr ?_⟩
        · intro r hr
          rw [hothers r hr]
          simp [idup, State.setInode, State.setProc, State.setTable, State.setMem, hr]
        · refine ⟨?_, ?_, ?_, ?_, ?_⟩
          · rw [hlook.state]
            simp [idup, State.setInode, hp]
          · rw [hlook.sz]
            simp [idup, State.setInode]
          · rw [hlook.vma]
            funext i
            simp [idup, State.setInode, State.setProc, State.setTable, State.setMem, hpq]
          · rw [hlook.given]
            simp [idup, State.setInode]
          · rw [hlook.image]
            simp [idup, State.setInode]
      · apply (freeproc_effect _ q).mono
        rintro s₁ ⟨hothers, hstate, hvma⟩
        refine ⟨?_, Or.inl ⟨?_, ?_⟩⟩
        · intro r hr
          rw [hothers r hr]
          simp [State.setTable, State.setProc, State.setMem, hr]
        · rw [hstate]
          decide
        · rw [hvma]
          simp [State.setTable, State.setMem]
  · exact hsame _ rfl

end Processes

section Sizes

variable {p : Fin n}

/-- Only `p` has changed, and only in its table, its size, what it was given and its image. -/
structure Resizes (p : Fin n) (sz : Nat) (given : Nat → Bool) (image : Nat) (s s' : State n) :
    Prop where
  others : ∀ q, q ≠ p → s'.proc q = s.proc q
  self : Looks { s.proc p with sz := sz, given := given, image := image } (s'.proc p)

theorem resizes_setProc (s s₁ : State n) (h : s₁.proc = s.proc) (sz : Nat) (given : Nat → Bool)
    (image : Nat) (t : Table) : Resizes p sz given image s (s₁.setProc p
      { s₁.proc p with table := t, sz := sz, given := given, image := image }) := by
  refine ⟨fun q hq => by simp [State.setProc, hq, h], ?_⟩
  rw [setProc_self, h]
  exact ⟨rfl, rfl, rfl, rfl, rfl⟩

theorem uvmalloc_size (m : Mem) (t : Table) (oldsz newsz : Nat) :
    Yields (fun _ => True) (fun r => r.2.2 = 0 ∨ r.2.2 = max oldsz newsz)
      (uvmalloc m t oldsz newsz) := by
  unfold uvmalloc
  split
  · rename_i hlt
    have hmax : max oldsz newsz = oldsz := Nat.max_eq_left (by omega)
    exact Or.inr hmax.symm
  · rename_i hle
    have hmax : max oldsz newsz = newsz := Nat.max_eq_right (by omega)
    apply (yields_trivial (uvmallocLoop _ _ _ _ _)).bind
    intro r _
    rw [yields_ok]
    cases r.2.2 with
    | false => exact Or.inl rfl
    | true => exact Or.inr hmax.symm

theorem uvmdealloc_size (t : Table) (oldsz newsz : Nat) :
    Yields (fun _ => True) (fun r => r.2 = min oldsz newsz) (uvmdealloc t oldsz newsz) := by
  unfold uvmdealloc
  split
  · rename_i hle
    have hmin : min oldsz newsz = oldsz := Nat.min_eq_left hle
    exact hmin.symm
  · rename_i hlt
    have hmin : min oldsz newsz = newsz := Nat.min_eq_right (by omega)
    split
    · apply (yields_trivial (uvmunmap _ _ _ _)).bind
      intro t' _
      exact hmin.symm
    · exact hmin.symm

/-- The size that growproc aims at. -/
def sbrkSize (P : Proc) (k : Int) : Nat := ((uint32 P.sz + k) % 2^32).toNat

/-- What sbrk can do to the size of `p`. -/
inductive Sbrks (p : Fin n) (k : Int) (s s' : State n) : Prop
  | fails (hk : 0 < k) (h : Calm p s s')
  | grows (hk : 0 < k) (h : Resizes p (uint32 (max (uint32 (s.proc p).sz) (sbrkSize (s.proc p) k)))
      (fun j => (s.proc p).given j || pagesOf (uint32 (s.proc p).sz) (sbrkSize (s.proc p) k) j)
      (s.proc p).image s s')
  | shrinks (hk : k < 0) (h : Resizes p
      (uint32 (min (uint32 (s.proc p).sz) (sbrkSize (s.proc p) k)))
      (fun j => (s.proc p).given j && !(decide (sbrkSize (s.proc p) k ≤ j * PGSIZE) &&
        decide (j * PGSIZE < uint32 (s.proc p).sz))) (s.proc p).image s s')
  | stays (hk : k = 0) (h : Resizes p (uint32 (s.proc p).sz) (s.proc p).given
      (s.proc p).image s s')

theorem growproc_effect (s : State n) (p : Fin n) (k : Int) :
    Yields (fun _ => True) (Sbrks p k s) (growproc s p k) := by
  unfold growproc
  dsimp only
  split
  · rename_i hk
    apply (uvmalloc_size _ _ _ _).bind
    rintro r hr
    split
    · have hmem : Calm p s (s.setMem r.1) := calm_of_eq rfl
      exact .fails hk (hmem.trans (calm_setTable r.2.1))
    · rename_i hne
      rw [hr.resolve_left hne]
      exact .grows hk (resizes_setProc s (s.setMem r.1) rfl _ _ _ r.2.1)
  · split
    · rename_i hk
      apply (uvmdealloc_size _ _ _).bind
      rintro r hr
      rw [hr]
      exact .shrinks hk (resizes_setProc s s rfl _ _ _ r.1)
    · exact .stays (by omega) (resizes_setProc s s rfl _ _ _ (s.proc p).table)

/-- exec fails, or the process has a new image of some size. -/
theorem exec_effect (s : State n) (p : Fin n) (segs : List Nat) (bad : Bool) :
    Yields (fun _ => True) (fun s' => Calm p s s' ∨ ∃ sz, Resizes p sz
      (fun j => decide (j * PGSIZE < sz)) ((s.proc p).image + 1) s s') (exec s p segs bad) := by
  have hfail (m : Mem) : Calm p s (s.setMem m) := calm_of_eq rfl
  unfold exec
  apply (yields_trivial (procPagetable _)).bind
  intro a _
  cases a.2 with
  | none => exact Or.inl (hfail a.1)
  | some t =>
    apply (yields_trivial (loadSegments _ _ _ _)).bind
    intro r _
    split
    · apply (yields_trivial (uvmalloc _ _ _ _)).bind
      intro q _
      split
      · apply (yields_trivial (procFreepagetable _ _)).bind
        intro _ _
        exact Or.inl (hfail q.1)
      · generalize q.2.2 - 2 * PGSIZE = va
        apply (yields_trivial (uvmclear _ _)).bind
        intro t' _
        split
        · apply (yields_trivial (procFreepagetable _ _)).bind
          intro _ _
          exact Or.inl (hfail q.1)
        · apply (yields_trivial (procFreepagetable _ _)).bind
          intro _ _
          exact Or.inr ⟨q.2.2, resizes_setProc s (s.setMem q.1) rfl _ _ _ t'⟩
    · apply (yields_trivial (procFreepagetable _ _)).bind
      intro _ _
      exact Or.inl (hfail r.1)

end Sizes

section Descriptors

theorem sysOpen_calm (s : State n) (p : Fin n) (ip : Nat) (device readable writable trunc : Bool) :
    Yields (fun _ => True) (Calm p s) (sysOpen s p ip device readable writable trunc) := by
  unfold sysOpen
  dsimp only
  cases filealloc (idup s ip) with
  | none => exact calm_of_eq rfl
  | some f =>
    dsimp only
    split
    · apply (fileclose_proc _ _).bind
      intro s₁ h₁
      have hput : Calm p s (iput s₁ ip) := calm_of_eq h₁
      exact hput
    · rename_i fd _
      have hset : Calm p s ((idup s ip).setOfile p fd (some f)) :=
        (calm_of_eq rfl : Calm p s (idup s ip)).trans (calm_setOfile fd (some f))
      split
      · exact ⟨hset.others, hset.self⟩
      · exact ⟨hset.others, hset.self⟩

theorem sysDup_calm (s : State n) (p : Fin n) (fd : Int) :
    Yields (fun _ => True) (Calm p s) (sysDup s p fd) := by
  unfold sysDup
  cases argfd (s.proc p) fd with
  | none => exact calm_of_eq rfl
  | some r =>
    dsimp only
    split
    · exact calm_of_eq rfl
    · apply (filedup_proc _ _).mono
      intro s₁ h₁
      exact (calm_setOfile _ _).trans (calm_of_eq h₁)

theorem sysClose_calm (s : State n) (p : Fin n) (fd : Int) :
    Yields (fun _ => True) (Calm p s) (sysClose s p fd) := by
  unfold sysClose
  cases argfd (s.proc p) fd with
  | none => exact calm_of_eq rfl
  | some r =>
    apply (fileclose_proc _ _).mono
    intro s₁ h₁
    exact (calm_setOfile _ _).trans (calm_of_eq h₁)

theorem closeTwo_proc (s : State n) (f g : FileId) :
    Yields (fun _ => True) (fun s' => s'.proc = s.proc) (do
      let s ← fileclose s f
      fileclose s g) := by
  apply (fileclose_proc s f).bind
  intro s₁ h₁
  exact (fileclose_proc s₁ g).mono (fun _ h => h.trans h₁)

theorem pipealloc_proc (s : State n) :
    Yields (fun _ => True) (fun r => r.1.proc = s.proc) (pipealloc s) := by
  unfold pipealloc
  cases filealloc s with
  | none => rfl
  | some f0 =>
    dsimp only
    split
    · apply (fileclose_proc _ _).bind
      intro s₁ h₁
      exact h₁
    · split
      · rfl
      · apply (fileclose_proc _ _).bind
        intro s₁ h₁
        apply (fileclose_proc _ _).bind
        intro s₂ h₂
        exact h₂.trans h₁

theorem sysPipe_calm (s : State n) (p : Fin n) (fdarray : Nat) :
    Yields (fun _ => True) (Calm p s) (sysPipe s p fdarray) := by
  unfold sysPipe
  apply (pipealloc_proc s).bind
  intro a ha
  have h₀ : Calm p s a.1 := calm_of_eq ha
  cases a.2 with
  | none => exact h₀
  | some fg =>
    dsimp only
    split
    · exact (closeTwo_proc _ _ _).mono (fun _ h => h₀.trans (calm_of_eq h))
    · rename_i fd0 _
      have h₁ := h₀.trans (calm_setOfile fd0 (some fg.1))
      split
      · exact (closeTwo_proc _ _ _).mono
          (fun _ h => (h₁.trans (calm_setOfile fd0 none)).trans (calm_of_eq h))
      · rename_i fd1 _
        have h₂ := h₁.trans (calm_setOfile fd1 (some fg.2))
        -- whatever the two copies to user memory do
        have hend (c : Table × Bool) : Yields (fun _ => True) (Calm p s) (
            let s := ((a.1.setOfile p fd0 (some fg.1)).setOfile p fd1 (some fg.2)).setTable p c.1
            if c.2 then .ok s
            else do
              let s ← fileclose ((s.setOfile p fd0 none).setOfile p fd1 none) fg.1
              fileclose s fg.2) := by
          have h₃ := h₂.trans (calm_setTable c.1)
          dsimp only
          split
          · exact h₃
          · have h₄ := (h₃.trans (calm_setOfile fd0 none)).trans (calm_setOfile fd1 none)
            exact (closeTwo_proc _ _ _).mono (fun _ h => h₄.trans (calm_of_eq h))
        exact hend _

end Descriptors

end Xv6Labs.Mmap
