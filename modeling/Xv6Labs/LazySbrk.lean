import Xv6Labs.LazyRefine
import Xv6Labs.Outcomes

/-! The size of a lazily grown process over runs of sbrk, accesses and copies: it stays below the
trap frame, and no page table is walked beyond its range, as long as sbrk is asked for no more. -/
namespace Xv6Labs.Lazy

open Mmap (PGSIZE MAXVA TRAMPOLINE TRAPFRAME PGROUNDUP PGROUNDDOWN int32 add64 Panic Table Mem
  findPTE mappages translate)

variable {n : Nat} {s t : State n} {p : Fin n}

section Machine

/-- What a process makes the kernel do; `sp` is what r_sp() reads there. -/
inductive Request where
  | sbrk (k : Int32)
  /-- an access by a user instruction, which traps when there is no translation -/
  | access (va : UInt64) (store : Bool) (sp : Nat)
  | copyin (srcva : UInt64) (len sp : Nat)
  | copyout (dstva : UInt64) (src : List UInt8) (sp : Nat)
  | copyinstr (srcva : UInt64) (max : Nat)

/-- A request of process `p`, with what sbrk returns. -/
def request (s : State n) (p : Fin n) : Request → Except Panic (State n × Option Int)
  | .sbrk k => do
    let r ← sysSbrk s p k.toInt
    .ok (r.1, some r.2)
  | .access va store sp =>
    match translate (s.proc p).table va.toNat store with
    | some _ => .ok (s, none)
    | none => do
      let t ← usertrap s p sp va.toNat
      .ok (t, none)
  | .copyin srcva len sp => do
    let r ← copyin s.mem (s.proc p) sp srcva.toNat len
    .ok ((s.setMem r.1).setProc p r.2.1, none)
  | .copyout dstva src sp => do
    let r ← copyout s.mem (s.proc p) sp dstva.toNat src
    .ok ((s.setMem r.1).setProc p r.2.1, none)
  | .copyinstr _ _ => .ok (s, none)

/-- A step of process `p` while it runs. -/
def requestStep (p : Fin n) (s : State n) (q : Request) : Option (State n) :=
  if (s.proc p).state = .running then ((request s p q).toOption).map Prod.fst else some s

end Machine

section Walks

/-- Every error but the panic of walk. -/
def NotWalk (e : Panic) : Prop := e ≠ .walk

theorem findPTE_notWalk (t : Table) {va : Nat} (h : va < MAXVA) :
    Yields NotWalk (fun _ => True) (findPTE t va) := by
  unfold findPTE
  rw [if_neg (Nat.not_le.mpr h)]
  split <;> trivial

theorem uvmunmapLoop_notWalk (doFree : Bool) (k : Nat) (t : Table) (a : Nat)
    (h : a + k * PGSIZE ≤ MAXVA) :
    Yields NotWalk (fun _ => True) (uvmunmapLoop doFree k t a) := by
  induction k generalizing t a with
  | zero => trivial
  | succ k ih =>
    rw [Nat.add_mul, Nat.one_mul] at h
    have hpos : 0 < PGSIZE := by decide
    have hnext : a + PGSIZE + k * PGSIZE ≤ MAXVA := by omega
    unfold uvmunmapLoop
    apply (findPTE_notWalk t (by omega)).bind
    intro o _
    rcases o with _ | _ | e
    · exact ih t _ hnext
    · exact ih t _ hnext
    · simp only
      split
      · intro h
        cases h
      · split
        · intro h
          cases h
        · exact ih _ _ hnext

theorem count_eq {k : Nat} (h : k < 2^31) : add64 0 (int32 k) = k := by
  unfold add64 int32
  omega

theorem uvmdealloc_notWalk (t : Table) {oldsz newsz : Nat} (h : oldsz ≤ TRAPFRAME) :
    Yields NotWalk (fun _ => True) (uvmdealloc t oldsz newsz) := by
  have hup (a : Nat) (ha : a ≤ oldsz) : PGROUNDUP a = npages a * PGSIZE := by
    apply Mmap.roundUp_eq
    unfold TRAPFRAME TRAMPOLINE MAXVA PGSIZE at h
    unfold MAXVA
    omega
  have htop : npages oldsz * PGSIZE ≤ MAXVA := by
    unfold TRAPFRAME TRAMPOLINE MAXVA PGSIZE at h
    unfold npages MAXVA PGSIZE
    omega
  unfold uvmdealloc
  split
  · trivial
  · rename_i hlt
    have hle : newsz ≤ oldsz := by omega
    rw [hup oldsz (Nat.le_refl _), hup newsz hle]
    have hmono := npages_mono hle
    split
    · rw [← Nat.sub_mul, Mmap.page_div]
      have hn : npages oldsz < 2^31 := by
        unfold MAXVA PGSIZE at htop
        omega
      have hcast : add64 0 (int32 ((npages oldsz - npages newsz : Nat) : Int)) =
          npages oldsz - npages newsz := count_eq (by omega)
      have hunmap : Yields NotWalk (fun _ => True)
          (uvmunmap t (npages newsz * PGSIZE) (npages oldsz - npages newsz) true) := by
        unfold uvmunmap
        split
        · exact nofun
        · apply uvmunmapLoop_notWalk
          have hsum : npages newsz * PGSIZE + (npages oldsz - npages newsz) * PGSIZE =
              npages oldsz * PGSIZE := by
            rw [← Nat.add_mul, Nat.add_sub_cancel' hmono]
          have hmod : npages oldsz * PGSIZE % 2^64 = npages oldsz * PGSIZE := by
            apply Nat.mod_eq_of_lt
            unfold MAXVA at htop
            omega
          rw [hsum, hmod, ← Nat.sub_mul, Mmap.page_div, hsum]
          exact htop
      simp only [hcast]
      exact hunmap.bind (fun _ _ => trivial)
    · trivial

theorem mappages_notWalk (m : Mem) (t : Table) {va : Nat} (e : Mmap.PTE) (h : va < MAXVA) :
    Yields NotWalk (fun _ => True) (mappages m t va e) := by
  have hwalk : Yields NotWalk (fun _ => True) (Mmap.walk m t va true) := by
    unfold Mmap.walk
    rw [if_neg (Nat.not_le.mpr h)]
    simp only
    split
    · split <;> trivial
    · trivial
  unfold mappages
  apply hwalk.bind
  intro r _
  split
  · split
    · exact nofun
    · trivial
  · trivial

end Walks

section Requests

variable {P : Proc} {m : Mem} {sp va : Nat}

theorem uvmlazycheck_notWalk (h : P.sz ≤ TRAPFRAME) :
    Yields NotWalk (fun b => b = true → PGROUNDDOWN va < MAXVA) (uvmlazycheck P sp va) := by
  have htop : TRAPFRAME < MAXVA := by decide
  unfold uvmlazycheck
  simp only
  split
  · rename_i hin
    have hva : PGROUNDDOWN va < MAXVA := by omega
    apply (findPTE_notWalk P.table hva).bind
    intro o _
    match o with
    | none => exact fun _ => hva
    | some none => exact fun _ => hva
    | some (some e) => exact nofun
  · exact nofun

/-- A lazily allocated page does not change the size. -/
theorem uvmlazyalloc_notWalk (h : PGROUNDDOWN va < MAXVA) :
    Yields NotWalk (fun r => r.2.sz = P.sz) (uvmlazyalloc m P va) := by
  unfold uvmlazyalloc
  simp only
  split
  · exact (mappages_notWalk _ _ _ h).bind (fun _ _ => rfl)
  · rfl

theorem lazyTouch_notWalk (h : P.sz ≤ TRAPFRAME) :
    Yields NotWalk (fun r => r.2.sz = P.sz) (lazyTouch m P sp va) := by
  unfold lazyTouch
  apply (uvmlazycheck_notWalk h).bind
  intro b hb
  split
  · rename_i htrue
    exact uvmlazyalloc_notWalk (hb htrue)
  · rfl

theorem setProc_sz (P : Proc) : ((s.setProc p P).proc p).sz = P.sz := by
  simp only [State.setProc, Function.update_self]

theorem usertrap_notWalk (h : (s.proc p).sz ≤ TRAPFRAME) :
    Yields NotWalk (fun t => (t.proc p).sz = (s.proc p).sz) (usertrap s p sp va) := by
  have hfault : Yields NotWalk (fun r => r.2.sz = (s.proc p).sz)
      (pageFault s.mem (s.proc p) sp va) := by
    unfold pageFault
    apply (uvmlazycheck_notWalk h).bind
    intro b hb
    split
    · rename_i htrue
      exact uvmlazyalloc_notWalk (hb htrue)
    · rfl
  unfold usertrap
  apply hfault.bind
  intro r hr
  split
  · unfold exit
    rw [yields_ok, setProc_sz, setProc_sz]
    exact hr
  · rw [yields_ok, setProc_sz]
    exact hr

/-- sbrk as it is, with its size modulo 2^64 and its return value an `int`. -/
theorem sysSbrk_notWalk (h : (s.proc p).sz ≤ TRAPFRAME) (k : Int) :
    Yields NotWalk (fun r => (r.1.proc p).sz = add64 (s.proc p).sz k ∧
      r.2 = int32 (s.proc p).sz) (sysSbrk s p k) := by
  unfold sysSbrk
  simp only
  split
  · apply (uvmdealloc_notWalk (s.proc p).table h).bind
    intro d _
    rw [yields_ok, setProc_sz]
    exact ⟨rfl, rfl⟩
  · rw [yields_ok, setProc_sz]
    exact ⟨rfl, rfl⟩

/-- sbrk is asked for a size between 0 and the trap frame, and the size it has fits an `int`. -/
def InBounds (p : Fin n) (s : State n) : Request → Prop
  | .sbrk k => 0 ≤ (s.proc p).sz + k.toInt ∧ (s.proc p).sz + k.toInt ≤ TRAPFRAME ∧
    (s.proc p).sz < 2^31
  | _ => True

instance (p : Fin n) (s : State n) (q : Request) : Decidable (InBounds p s q) := by
  cases q <;> (unfold InBounds; infer_instance)

/-- What a request does to the size, and what sbrk returns. -/
def Sized (s : State n) (p : Fin n) (r : State n × Option Int) : Request → Prop
  | .sbrk k => (r.1.proc p).sz = add64 (s.proc p).sz k.toInt ∧ r.2 = some (int32 (s.proc p).sz)
  | _ => (r.1.proc p).sz = (s.proc p).sz

/-- No request walks too far, and only sbrk changes the size. -/
theorem request_notWalk (h : (s.proc p).sz ≤ TRAPFRAME) (q : Request) :
    Yields NotWalk (fun r => Sized s p r q) (request s p q) := by
  cases q with
  | sbrk k =>
    apply (sysSbrk_notWalk h k.toInt).bind
    rintro r ⟨hsz, hret⟩
    exact ⟨hsz, congrArg some hret⟩
  | access va store sp =>
    simp only [request]
    cases translate (s.proc p).table va.toNat store with
    | some e => rfl
    | none => exact (usertrap_notWalk h).bind (fun t ht => ht)
  | copyin srcva len sp =>
    have hcopy : Yields NotWalk (fun r => r.2.1.sz = (s.proc p).sz)
        (copyin s.mem (s.proc p) sp srcva.toNat len) :=
      (lazyTouch_notWalk h).bind (fun r hr => hr)
    exact hcopy.bind (fun r hr => (setProc_sz r.2.1).trans hr)
  | copyout dstva src sp =>
    have hcopy : Yields NotWalk (fun r => r.2.1.sz = (s.proc p).sz)
        (copyout s.mem (s.proc p) sp dstva.toNat src) :=
      (lazyTouch_notWalk h).bind (fun r hr => hr)
    exact hcopy.bind (fun r hr => (setProc_sz r.2.1).trans hr)
  | copyinstr srcva max => rfl

theorem add64_eq {a : Nat} {k : Int} (h : 0 ≤ a + k ∧ a + k ≤ TRAPFRAME) :
    (add64 a k : Int) = a + k := by
  have htop : TRAPFRAME = 2^38 - 8192 := rfl
  unfold add64
  omega

theorem int32_eq {a : Nat} (h : a < 2^31) : int32 a = a := by
  unfold int32
  omega

/-- A step of a run in bounds. -/
theorem requestStep_size (h : (s.proc p).sz ≤ TRAPFRAME) {q : Request} (hq : InBounds p s q)
    (ht : requestStep p s q = some t) : (t.proc p).sz ≤ TRAPFRAME := by
  unfold requestStep at ht
  split at ht
  · have hy := request_notWalk h q
    cases hr : request s p q with
    | error e =>
      rw [hr] at ht
      cases ht
    | ok r =>
      rw [hr] at ht
      cases ht
      have hres := hy.of_ok hr
      cases q with
      | sbrk k =>
        have hsum := add64_eq ⟨hq.1, hq.2.1⟩
        have hle := hq.2.1
        rw [hres.1]
        omega
      | access va store sp => exact Nat.le_trans (Nat.le_of_eq hres) h
      | copyin srcva len sp => exact Nat.le_trans (Nat.le_of_eq hres) h
      | copyout dstva src sp => exact Nat.le_trans (Nat.le_of_eq hres) h
      | copyinstr srcva max => exact Nat.le_trans (Nat.le_of_eq hres) h
  · cases ht
    exact h

/-- In every run in which sbrk is asked for sizes between 0 and the trap frame, by a process of
less than 2 GB: the size stays below the trap frame, no request comes to the panic of walk, and
sbrk adds what it is asked for and returns the size before. -/
theorem sbrk_sane_inBounds (p : Fin n) (s t : State n) (qs : List Request)
    (hexec : (s.proc p).sz ≤ TRAPFRAME) (hbounds : Guarded (requestStep p) (InBounds p) s qs)
    (hrun : run (requestStep p) s qs = some t) :
    (t.proc p).sz ≤ TRAPFRAME ∧ (∀ q, request t p q ≠ .error .walk) ∧
    ∀ k u a, InBounds p t (.sbrk k) → request t p (.sbrk k) = .ok (u, a) →
      a = some ((t.proc p).sz : Int) ∧ ((u.proc p).sz : Int) = (t.proc p).sz + k.toInt := by
  have hsz : (t.proc p).sz ≤ TRAPFRAME :=
    guarded_run_invariant (requestStep p) (InBounds p) (fun s => (s.proc p).sz ≤ TRAPFRAME)
      (fun s q t hs hq ht => requestStep_size hs hq ht) s t qs hexec hbounds hrun
  refine ⟨hsz, ?_, ?_⟩
  · intro q hwalk
    exact (request_notWalk hsz q).of_error hwalk rfl
  · intro k u a hk hu
    obtain ⟨hnew, hret⟩ := (request_notWalk hsz (.sbrk k)).of_ok hu
    refine ⟨?_, ?_⟩
    · rw [← int32_eq hk.2.2]
      exact hret
    · rw [← add64_eq ⟨hk.1, hk.2.1⟩]
      exact congrArg Nat.cast hnew

/-- Grow, touch, shrink, copy, from initcode's process. -/
def saneRequests : List Request :=
  [.sbrk 12289, .access 8200 true (KSTACK 0 + 16), .sbrk (-9000), .copyout 4100 [1, 2]
    (KSTACK 0 + 16), .copyin 0xffffffffffffffff 8 (KSTACK 0 + 16), .sbrk 100]

theorem sbrk_sane_inBounds_saneRequests : ∃ t : State 2,
    run (requestStep 0) initState saneRequests = some t ∧ (t.proc 0).sz = 7485 ∧
    ∀ q, request t 0 q ≠ .error .walk := by
  have hrun : (run (requestStep 0) initState saneRequests).map (fun t => (t.proc 0).sz) =
      some 7485 := by decide +kernel
  obtain ⟨t, ht, hsz⟩ := Option.map_eq_some_iff.mp hrun
  exact ⟨t, ht, hsz, (sbrk_sane_inBounds 0 initState t saneRequests (by decide)
    (by decide +kernel) ht).2.1⟩

/-- A process of 4096 bytes gives 4097 bytes back: its size is then 2^64 - 1, and its next access
beyond the page tables stops the kernel. And at a size of 2^31 and more sbrk returns another
number. -/
theorem sbrk_not_sane :
    (∃ t : State 2, run (requestStep 0) initState [.sbrk (-4097)] = some t ∧
      (t.proc 0).sz = 2^64 - 1 ∧
      request t 0 (.access (UInt64.ofNat (2^38)) false (KSTACK 0 + 16)) = .error .walk) ∧
    ∃ t : State 2, run (requestStep 0) initState [.sbrk 0x7fffffff] = some t ∧
      (t.proc 0).sz = 0x80000fff ∧
      (request t 0 (.sbrk 0)).toOption.map Prod.snd = some (some (-0x7ffff001)) := by
  refine ⟨?_, _, rfl, by decide +kernel, by decide +kernel⟩
  have hrun : (run (requestStep 0) initState [.sbrk (-4097)]).map (fun t => ((t.proc 0).sz,
      match request t 0 (.access (UInt64.ofNat (2^38)) false (KSTACK 0 + 16)) with
        | .error e => decide (e = .walk)
        | .ok _ => false)) = some (2^64 - 1, true) := by decide +kernel
  obtain ⟨t, ht, hend⟩ := Option.map_eq_some_iff.mp hrun
  obtain ⟨hsz, hpanic⟩ := Prod.mk.inj hend
  refine ⟨t, ht, hsz, ?_⟩
  cases hr : request t 0 (.access (UInt64.ofNat (2^38)) false (KSTACK 0 + 16)) with
  | error e =>
    rw [hr] at hpanic
    rw [of_decide_eq_true hpanic]
  | ok r =>
    rw [hr] at hpanic
    cases hpanic

end Requests

end Xv6Labs.Lazy
