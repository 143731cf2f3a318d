import Xv6Labs.ProcTableCode
import Mathlib.Algebra.BigOperators.Group.Finset.Piecewise
import Mathlib.Algebra.Order.Group.Multiset
import Mathlib.Data.Fintype.Basic
import Mathlib.Tactic.Abel

/-! The pages of the `traps` kernel that hold a save_trapframe. Whatever kalloc.c and vm.c answer,
none is freed twice, and one is lost where the allocation after its own fails and nowhere else. -/
namespace Xv6Labs.ProcTable

variable {Heap Table : Type}

section Pages

/-- The page that a slot in use has. -/
def Proc.saved (p : Proc Table) : Multiset Nat :=
  if p.state = .UNUSED then 0 else {p.saveTrapframe}

/-- The pages of all slots in use. -/
def State.live (s : State Heap Table) : Multiset Nat := ∑ i, (s.proc i).saved

/-- allocproc gets a page for the save_trapframe and then none for the trapframe. -/
def State.Loses (vm : Vm Heap Table) (s : State Heap Table) : Prop :=
  found s ≠ none ∧ (vm.kalloc s.heap).2 ≠ 0 ∧ (vm.kalloc (vm.kalloc s.heap).1).2 = 0

/-- A call that loses no page. -/
def Keeps (vm : Vm Heap Table) (s : State Heap Table) : Event → Prop
  | .fork _ => ¬s.Loses vm
  | .exit _ _ => True
  | .wait _ _ => True

/-- Between `s` and `t`, the pages `lost` have been taken and are neither given back nor live. -/
def Balanced (s t : State Heap Table) (lost : Multiset Nat) : Prop :=
  t.taken + (s.given + s.live) = s.taken + (t.given + t.live) + lost

variable {s t : State Heap Table} {i : Fin NPROC}

theorem saved_unused {p : Proc Table} (h : p.state = .UNUSED) : p.saved = 0 := if_pos h

theorem saved_used {p : Proc Table} (h : p.state ≠ .UNUSED) : p.saved = {p.saveTrapframe} :=
  if_neg h

theorem live_congr (h : ∀ j, (t.proc j).saved = (s.proc j).saved) : t.live = s.live :=
  Finset.sum_congr rfl (fun j _ => h j)

/-- One slot has changed. -/
theorem live_slot (h : ∀ j, j ≠ i → (t.proc j).saved = (s.proc j).saved) :
    t.live + (s.proc i).saved = s.live + (t.proc i).saved := by
  unfold State.live
  rw [← Finset.add_sum_erase Finset.univ _ (Finset.mem_univ i),
    ← Finset.add_sum_erase Finset.univ (fun j => (s.proc j).saved) (Finset.mem_univ i)]
  have hrest : ∑ j ∈ Finset.univ.erase i, (t.proc j).saved =
      ∑ j ∈ Finset.univ.erase i, (s.proc j).saved := by
    apply Finset.sum_congr rfl
    intro j hj
    exact h j (Finset.ne_of_mem_erase hj)
  rw [hrest]
  abel

/-- The live pages are the same ones: what was taken is back or lost. -/
theorem balanced_of_live {a b lost : Multiset Nat} (hlive : t.live = s.live)
    (htaken : t.taken = a + s.taken) (hgiven : t.given = b + s.given) (hab : a = b + lost) :
    Balanced s t lost := by
  unfold Balanced
  calc t.taken + (s.given + s.live)
      = b + lost + s.taken + (s.given + s.live) := by rw [htaken, hab]
    _ = s.taken + (b + s.given + s.live) + lost := by abel
    _ = s.taken + (t.given + t.live) + lost := by rw [hgiven, hlive]

theorem balanced_same (hlive : t.live = s.live) (htaken : t.taken = s.taken)
    (hgiven : t.given = s.given) : Balanced s t 0 :=
  balanced_of_live hlive (htaken.trans (zero_add _).symm) (hgiven.trans (zero_add _).symm)
    (zero_add 0).symm

theorem balanced_returned {page : Nat} (hlive : t.live = s.live)
    (htaken : t.taken = page ::ₘ s.taken) (hgiven : t.given = page ::ₘ s.given) :
    Balanced s t 0 :=
  balanced_of_live hlive (htaken.trans (Multiset.singleton_add _ _).symm)
    (hgiven.trans (Multiset.singleton_add _ _).symm) (add_zero _).symm

end Pages

section Calls

variable {vm : Vm Heap Table} {s t : State Heap Table} {i : Fin NPROC}

/-- The slots in use have a page. -/
def State.Saves (s : State Heap Table) : Prop :=
  ∀ i, (s.proc i).state ≠ .UNUSED → (s.proc i).saveTrapframe ≠ 0

/-- freeproc has freed slot `i` and its page. -/
structure Freed (s t : State Heap Table) (i : Fin NPROC) : Prop where
  others : ∀ j, j ≠ i → t.proc j = s.proc j
  unused : (t.proc i).state = .UNUSED
  taken : t.taken = s.taken
  given : (s.proc i).saveTrapframe ≠ 0 → t.given = (s.proc i).saveTrapframe ::ₘ s.given

theorem freeproc_freed (h : freeproc vm s i = some t) : Freed s t i := by
  unfold freeproc at h
  cases hpt : (s.proc i).pagetable with
  | none | some _ =>
    simp only [hpt, State.setProc] at h
    obtain ⟨heap, -, h⟩ := Option.bind_eq_some_iff.mp h
    split_ifs at h with hp
    · cases h
      refine ⟨fun j hj => Function.update_of_ne hj _ _, ?_, rfl, fun _ => rfl⟩
      simp only [Function.update_self]
    · cases h
      refine ⟨fun j hj => Function.update_of_ne hj _ _, ?_, rfl, fun hne => absurd hne hp⟩
      simp only [Function.update_self]

theorem found_unused (h : found s = some i) : (s.proc i).state = .UNUSED := by
  simpa using List.find?_some h

/-- What allocproc may leave: the slots in use are as they were, and a page is with the new slot,
back, lost or not taken at all. -/
inductive Allocated (vm : Vm Heap Table) (s t : State Heap Table) : Option (Fin NPROC) → Prop
  | refused (keeps : ¬s.Loses vm) (taken : t.taken = s.taken) (given : t.given = s.given) :
      Allocated vm s t none
  | loses (page : Nat) (loses : s.Loses vm) (taken : t.taken = page ::ₘ s.taken)
      (given : t.given = s.given) : Allocated vm s t none
  | returned (page : Nat) (keeps : ¬s.Loses vm) (taken : t.taken = page ::ₘ s.taken)
      (given : t.given = page ::ₘ s.given) : Allocated vm s t none
  | fresh (i : Fin NPROC) (keeps : ¬s.Loses vm) (page : (t.proc i).saveTrapframe ≠ 0)
      (unused : (t.proc i).state = .UNUSED) (taken : t.taken = (t.proc i).saveTrapframe ::ₘ s.taken)
      (given : t.given = s.given) : Allocated vm s t (some i)

/-- The slots in use are the same. -/
def SameUsed (s t : State Heap Table) : Prop :=
  ∀ j, t.proc j = s.proc j ∨ (t.proc j).state = .UNUSED ∧ (s.proc j).state = .UNUSED

theorem allocproc_allocated {r : Option (Fin NPROC)} (h : allocproc vm s = some (t, r)) :
    SameUsed s t ∧ Allocated vm s t r := by
  unfold allocproc at h
  cases hf : found s with
  | none =>
    simp only [hf] at h
    cases h
    exact ⟨fun j => Or.inl rfl, .refused (fun hl => hl.1 hf) rfl rfl⟩
  | some i =>
    have hi := found_unused hf
    have hslot {p : Proc Table} (hp : p.state = (s.proc i).state) (j : Fin NPROC) :
        Function.update s.proc i p j = s.proc j ∨
          (Function.update s.proc i p j).state = .UNUSED ∧ (s.proc j).state = .UNUSED := by
      by_cases hj : j = i
      · rw [hj, Function.update_self]
        exact Or.inr ⟨hp.trans hi, hi⟩
      · exact Or.inl (Function.update_of_ne hj _ _)
    simp only [hf, State.setProc, Function.update_idem] at h
    split_ifs at h with h1 h2
    · cases h
      exact ⟨hslot rfl, .refused (fun hl => hl.2.1 h1) rfl rfl⟩
    · cases h
      exact ⟨hslot rfl, .loses _ ⟨by simp [hf], h1, h2⟩ rfl rfl⟩
    · have hkeeps : ¬s.Loses vm := fun hl => h2 hl.2.2
      obtain ⟨⟨heap, table⟩, -, h⟩ := Option.bind_eq_some_iff.mp h
      cases table with
      | some table =>
        cases h
        refine ⟨hslot rfl, .fresh i hkeeps ?_ ?_ ?_ rfl⟩
        · simp only [Function.update_self]
          exact h1
        · simp only [Function.update_self]
          exact hi
        · simp only [Function.update_self]
      | none =>
        obtain ⟨u, hu, h⟩ := Option.bind_eq_some_iff.mp h
        cases h
        have hfree := freeproc_freed hu
        have hgiven := hfree.given
        simp only [Function.update_self] at hgiven
        refine ⟨?_, .returned _ hkeeps hfree.taken (hgiven h1)⟩
        intro j
        by_cases hj : j = i
        · rw [hj]
          exact Or.inr ⟨hfree.unused, hi⟩
        · refine Or.inl ((hfree.others j hj).trans ?_)
          simp only [Function.update_of_ne hj]

theorem SameUsed.live (h : SameUsed s t) : t.live = s.live := by
  apply live_congr
  intro j
  rcases h j with he | ⟨ht, hs⟩
  · rw [he]
  · rw [saved_unused ht, saved_unused hs]

theorem SameUsed.saves (h : SameUsed s t) (hs : s.Saves) : t.Saves := by
  intro j hj
  rcases h j with he | ⟨ht, -⟩
  · rw [he] at hj ⊢
    exact hs j hj
  · exact absurd ht hj

/-- A slot in use gives its page back. -/
theorem Freed.balanced (h : Freed s t i) (hs : s.Saves) (hi : (s.proc i).state ≠ .UNUSED) :
    t.Saves ∧ Balanced s t 0 := by
  refine ⟨?_, ?_⟩
  · intro j hj
    by_cases hji : j = i
    · exact absurd (hji ▸ h.unused) hj
    · rw [h.others j hji] at hj ⊢
      exact hs j hj
  · have hlive := live_slot (fun j hj => congrArg Proc.saved (h.others j hj))
    rw [saved_unused h.unused, saved_used hi, add_zero] at hlive
    unfold Balanced
    calc t.taken + (s.given + s.live)
        = s.taken + (s.given + (t.live + {(s.proc i).saveTrapframe})) := by rw [h.taken, hlive]
      _ = s.taken + ({(s.proc i).saveTrapframe} + s.given + t.live) + 0 := by abel
      _ = s.taken + (t.given + t.live) + 0 := by rw [h.given (hs i hi), Multiset.singleton_add]

/-- The new slot `i` of `u` comes into use. -/
theorem started_balanced {u : State Heap Table} (hlive : u.live = s.live)
    (hunused : (u.proc i).state = .UNUSED) (hothers : ∀ j, j ≠ i → t.proc j = u.proc j)
    (hused : (t.proc i).state ≠ .UNUSED)
    (hpage : (t.proc i).saveTrapframe = (u.proc i).saveTrapframe)
    (htaken : t.taken = (u.proc i).saveTrapframe ::ₘ s.taken) (hgiven : t.given = s.given) :
    Balanced s t 0 := by
  have hslot := live_slot (fun j hj => congrArg Proc.saved (hothers j hj))
  rw [saved_unused hunused, saved_used hused, add_zero, hpage, hlive] at hslot
  unfold Balanced
  calc t.taken + (s.given + s.live)
      = {(u.proc i).saveTrapframe} + s.taken + (s.given + s.live) := by
        rw [htaken, Multiset.singleton_add]
    _ = s.taken + (s.given + (s.live + {(u.proc i).saveTrapframe})) + 0 := by abel
    _ = s.taken + (t.given + t.live) + 0 := by rw [hgiven, hslot]

theorem fork_balanced {p : Fin NPROC} {r : Int} (hs : s.Saves) (h : fork vm s p = some (t, r)) :
    t.Saves ∧ ∃ lost, Balanced s t lost ∧ (lost = 0 ↔ ¬s.Loses vm) := by
  unfold fork at h
  obtain ⟨⟨u, np⟩, hu, h⟩ := Option.bind_eq_some_iff.mp h
  obtain ⟨hsame, halloc⟩ := allocproc_allocated hu
  have hlive := hsame.live
  have husaves := hsame.saves hs
  cases halloc with
  | refused hkeeps htaken hgiven =>
    cases h
    exact ⟨husaves, 0, balanced_same hlive htaken hgiven, fun _ => hkeeps, fun _ => rfl⟩
  | loses page hloses htaken hgiven =>
    -- the pointer stays in a slot that is UNUSED: no later call reads it before it is overwritten
    cases h
    have hbal : Balanced s t {page} :=
      balanced_of_live hlive (htaken.trans (Multiset.singleton_add _ _).symm)
        (hgiven.trans (zero_add _).symm) (zero_add _).symm
    exact ⟨husaves, {page}, hbal, fun h0 => absurd h0 (Multiset.singleton_ne_zero page),
      fun hk => absurd hloses hk⟩
  | returned page hkeeps htaken hgiven =>
    cases h
    exact ⟨husaves, 0, balanced_returned hlive htaken hgiven, fun _ => hkeeps, fun _ => rfl⟩
  | fresh i hkeeps hpage hunused htaken hgiven =>
    simp only at h
    obtain ⟨old, -, h⟩ := Option.bind_eq_some_iff.mp h
    obtain ⟨new, -, h⟩ := Option.bind_eq_some_iff.mp h
    obtain ⟨⟨heap, table, ok⟩, -, h⟩ := Option.bind_eq_some_iff.mp h
    simp only [State.setProc, Function.update_idem, Function.update_self] at h
    cases ok with
    | true =>
      -- the child's slot comes into use with its page
      cases h
      refine ⟨?_, 0, ?_, fun _ => hkeeps, fun _ => rfl⟩
      · intro j hj
        simp only at hj ⊢
        by_cases hji : j = i
        · rw [hji, Function.update_self]
          exact hpage
        · rw [Function.update_of_ne hji] at hj ⊢
          exact husaves j hj
      · refine started_balanced hlive hunused (fun j hj => Function.update_of_ne hj _ _) ?_ ?_
          htaken hgiven
        · simp
        · simp only [Function.update_self]
    | false =>
      -- uvmcopy has failed: freeproc gives the page of the new slot back
      obtain ⟨v, hv, h⟩ := Option.bind_eq_some_iff.mp h
      cases h
      have hfree := freeproc_freed hv
      have hback := hfree.given
      simp only [Function.update_self] at hback
      have hsame' : SameUsed u t := by
        intro j
        by_cases hj : j = i
        · rw [hj]
          exact Or.inr ⟨hfree.unused, hunused⟩
        · refine Or.inl ((hfree.others j hj).trans ?_)
          simp only [Function.update_of_ne hj]
      have hbal : Balanced s t 0 :=
        balanced_returned (hsame'.live.trans hlive) (hfree.taken.trans htaken)
          ((hback hpage).trans (congrArg _ hgiven))
      exact ⟨hsame'.saves husaves, 0, hbal, fun _ => hkeeps, fun _ => rfl⟩

theorem exit_balanced {p : Fin NPROC} {status : Int} (hs : s.Saves)
    (hp : (s.proc p).state ≠ .UNUSED) (h : exit s p status = some t) :
    t.Saves ∧ Balanced s t 0 := by
  unfold exit at h
  split_ifs at h with hinit
  cases h
  have hchild (j : Fin NPROC) :
      (if (s.proc j).parent = some p then { s.proc j with parent := some initproc }
        else s.proc j).state = (s.proc j).state ∧
      (if (s.proc j).parent = some p then { s.proc j with parent := some initproc }
        else s.proc j).saveTrapframe = (s.proc j).saveTrapframe := by
    split_ifs
    · exact ⟨rfl, rfl⟩
    · exact ⟨rfl, rfl⟩
  refine ⟨?_, ?_⟩
  · intro j hj
    simp only at hj ⊢
    by_cases hjp : j = p
    · rw [hjp, Function.update_self]
      simp only [(hchild p).2]
      exact hs p hp
    · rw [Function.update_of_ne hjp] at hj ⊢
      rw [(hchild j).1] at hj
      rw [(hchild j).2]
      exact hs j hj
  · -- a zombie keeps its page until it is reaped
    refine balanced_same (live_congr ?_) rfl rfl
    intro j
    simp only
    by_cases hjp : j = p
    · rw [hjp, Function.update_self, saved_used hp, saved_used (by simp)]
      simp only [(hchild p).2]
    · rw [Function.update_of_ne hjp]
      unfold Proc.saved
      rw [(hchild j).1, (hchild j).2]

theorem wait_balanced {p : Fin NPROC} {copied : Bool} {r : Int} (hs : s.Saves)
    (h : wait vm s p copied = some (t, r)) : t.Saves ∧ Balanced s t 0 := by
  have hrefl : s.Saves ∧ Balanced s s 0 := ⟨hs, balanced_same rfl rfl rfl⟩
  unfold wait at h
  split at h
  · rename_i i hi
    have hz : (s.proc i).parent = some p ∧ (s.proc i).state = .ZOMBIE := by
      simpa using List.find?_some hi
    split_ifs at h with hc
    · obtain ⟨u, hu, h⟩ := Option.bind_eq_some_iff.mp h
      cases h
      refine (freeproc_freed hu).balanced hs ?_
      rw [hz.2]
      simp
    · cases h
      exact hrefl
  · split_ifs at h
    cases h
    exact hrefl

/-- A call loses a page where the second allocation of allocproc fails, and nowhere else. -/
theorem step_balanced {e : Event} (hs : s.Saves) (h : step vm s e = some t) :
    t.Saves ∧ ∃ lost, Balanced s t lost ∧ (lost = 0 ↔ Keeps vm s e) := by
  cases e with
  | fork p =>
    simp only [step] at h
    split_ifs at h with hp
    obtain ⟨⟨u, r⟩, hu, rfl⟩ := Option.map_eq_some_iff.mp h
    exact fork_balanced hs hu
  | exit p status =>
    simp only [step] at h
    split_ifs at h with hp
    have hused : (s.proc p).state ≠ .UNUSED := by
      unfold State.active at hp
      exact (of_decide_eq_true hp).1
    obtain ⟨hsaves, hbal⟩ := exit_balanced hs hused h
    exact ⟨hsaves, 0, hbal, fun _ => trivial, fun _ => rfl⟩
  | wait p copied =>
    simp only [step] at h
    split_ifs at h with hp
    obtain ⟨⟨u, r⟩, hu, rfl⟩ := Option.map_eq_some_iff.mp h
    obtain ⟨hsaves, hbal⟩ := wait_balanced hs hu
    exact ⟨hsaves, 0, hbal, fun _ => trivial, fun _ => rfl⟩

/-- Pages are lost in a run if and only if one of its calls loses one. -/
theorem run_balanced (es : List Event) (s t : State Heap Table) (lost : Multiset Nat)
    (hs : s.Saves) (htaken : s.taken = s.given + s.live + lost) (h : run (step vm) s es = some t) :
    ∃ more, t.taken = t.given + t.live + lost + more ∧
      (more = 0 ↔ Guarded (step vm) (Keeps vm) s es) := by
  induction es generalizing s lost with
  | nil =>
    cases h
    exact ⟨0, by rw [htaken, add_zero], fun _ => trivial, fun _ => rfl⟩
  | cons e es ih =>
    obtain ⟨u, hu, h⟩ := (run_cons (step vm) s t e es).mp h
    obtain ⟨husaves, new, hbal, hnew⟩ := step_balanced hs hu
    have hutaken : u.taken = u.given + u.live + (lost + new) := by
      apply add_right_cancel (b := s.given + s.live)
      calc u.taken + (s.given + s.live)
          = s.taken + (u.given + u.live) + new := hbal
        _ = s.given + s.live + lost + (u.given + u.live) + new := by rw [htaken]
        _ = u.given + u.live + (lost + new) + (s.given + s.live) := by abel
    obtain ⟨more, hmore, hguard⟩ := ih u (lost + new) husaves hutaken h
    refine ⟨new + more, ?_, ?_⟩
    · rw [hmore]
      abel
    · -- `new + more` is empty exactly where both are
      rw [← Multiset.card_eq_zero, Multiset.card_add, Nat.add_eq_zero_iff, Multiset.card_eq_zero,
        Multiset.card_eq_zero, hnew, hguard]
      constructor
      · rintro ⟨hk, hg⟩
        refine ⟨hk, ?_⟩
        intro v hv
        cases hu.symm.trans hv
        exact hg
      · intro hg
        exact ⟨hg.1, hg.2 u hu⟩

end Calls

section Boot

/-- The process table before the first process. -/
def noProcs (heap : Heap) : State Heap Table where
  proc _ := ⟨.UNUSED, none, 0, false, 0, 0, 0, none, 0, [], 0, 0, 0, 0⟩
  heap := heap
  nextpid := 1
  taken := 0
  given := 0

/-- userinit; `uvminit` puts the first program into the new page table. -/
def userinit (vm : Vm Heap Table) (uvminit : Heap → Table → Heap × Table)
    (s : State Heap Table) : Option (State Heap Table) := do
  let (s, p) ← allocproc vm s
  let i ← p
  let t ← (s.proc i).pagetable
  let r := uvminit s.heap t
  let s := { s.setProc i { s.proc i with pagetable := some r.2, sz := PGSIZE } with heap := r.1 }
  -- "initcode"
  let name : List UInt8 := [105, 110, 105, 116, 99, 111, 100, 101]
  some (s.setProc i { s.proc i with name := name, state := .RUNNABLE })

variable {vm : Vm Heap Table}

theorem userinit_balanced {uvminit : Heap → Table → Heap × Table} {heap : Heap}
    {s : State Heap Table} (h : userinit vm uvminit (noProcs heap) = some s) :
    s.Saves ∧ s.taken = s.given + s.live := by
  unfold userinit at h
  obtain ⟨⟨u, p⟩, hu, h⟩ := Option.bind_eq_some_iff.mp h
  obtain ⟨hsame, halloc⟩ := allocproc_allocated hu
  have hsaves : (noProcs heap : State Heap Table).Saves := fun j hj => absurd rfl hj
  have hempty : (noProcs heap : State Heap Table).live = 0 :=
    Finset.sum_eq_zero (fun j _ => saved_unused rfl)
  cases p with
  | none => cases h
  | some i =>
    cases halloc with
    | fresh i hkeeps hpage hunused htaken hgiven =>
      obtain ⟨k, hk, h⟩ := Option.bind_eq_some_iff.mp h
      cases hk
      obtain ⟨table, -, h⟩ := Option.bind_eq_some_iff.mp h
      simp only [State.setProc, Function.update_idem, Function.update_self] at h
      cases h
      refine ⟨?_, ?_⟩
      · intro j hj
        simp only at hj ⊢
        by_cases hji : j = i
        · rw [hji, Function.update_self]
          exact hpage
        · rw [Function.update_of_ne hji] at hj ⊢
          exact hsame.saves hsaves j hj
      · have hbal : Balanced (noProcs heap) { u with
            proc := Function.update u.proc i { u.proc i with
              pagetable := some (uvminit u.heap table).2, sz := PGSIZE, state := .RUNNABLE,
              name := [105, 110, 105, 116, 99, 111, 100, 101] }
            heap := (uvminit u.heap table).1 } 0 := by
          refine started_balanced hsame.live hunused (fun j hj => Function.update_of_ne hj _ _) ?_
            ?_ htaken hgiven
          · simp
          · simp only [Function.update_self]
        unfold Balanced at hbal
        rw [hempty] at hbal
        simpa only [noProcs, zero_add, add_zero] using hbal

/-- In every run of fork, exit and wait, for whatever kalloc.c and vm.c answer, a page is given back
as a save_trapframe at most as often as it has been taken for one and is no longer in a slot in
use. No page is lost if and only if in no fork the trapframe's allocation fails after that of the
save_trapframe. -/
theorem save_trapframes_freed_once (vm : Vm Heap Table) (uvminit : Heap → Table → Heap × Table)
    (heap : Heap) (es : List Event) (s t : State Heap Table)
    (hboot : userinit vm uvminit (noProcs heap) = some s) (hr : run (step vm) s es = some t) :
    t.given + t.live ≤ t.taken ∧
    (t.taken = t.given + t.live ↔ Guarded (step vm) (Keeps vm) s es) := by
  obtain ⟨hsaves, htaken⟩ := userinit_balanced hboot
  obtain ⟨lost, hlost, hguard⟩ := run_balanced es s t 0 hsaves (by rw [htaken, add_zero]) hr
  rw [add_zero] at hlost
  refine ⟨?_, ?_⟩
  · rw [hlost]
    exact Multiset.le_add_right _ _
  · rw [← hguard, hlost]
    constructor
    · intro he
      exact add_left_cancel (he.trans (add_zero _).symm)
    · intro he
      rw [he, add_zero]

/-- A heap as a list of free pages and a page table as the list of its pages, for processes of one
page of memory. -/
def listVm : Vm (List Nat) (List Nat) where
  kalloc h := (h.tail, h.headD 0)
  kfree h p := p :: h
  uvmcreate h := if h = [] then (h, none) else (h.tail, some [h.headD 0])
  mappages h t va _ _ _ :=
    if va = TRAPFRAME then (h, t, true)
    else if h.length < 2 then (h, t, false)
    else (h.drop 2, t ++ h.take 2, true)
  uvmunmap h t _ _ _ := some (h, t)
  uvmfree h t _ := some (t ++ h)
  uvmcopy h _ new _ :=
    if h.length < 3 then some (h, new, false) else some (h.drop 3, new ++ h.take 3, true)
  trampoline := 0x80007000

instance (vm : Vm Heap Table) (s : State Heap Table) : (e : Event) → Decidable (Keeps vm s e)
  | .fork _ => inferInstanceAs (Decidable (¬(found s ≠ none ∧ (vm.kalloc s.heap).2 ≠ 0 ∧
      (vm.kalloc (vm.kalloc s.heap).1).2 = 0)))
  | .exit _ _ => inferInstanceAs (Decidable True)
  | .wait _ _ => inferInstanceAs (Decidable True)

/-- The first process, with twelve pages left. -/
def firstProc : State (List Nat) (List Nat) :=
  (userinit listVm (fun h t => (h.drop 3, t ++ h.take 3)) (noProcs (List.range' 1 20))).getD
    (noProcs [])

/-- Slots are written as numbers. -/
instance neZero_nproc : NeZero NPROC := ⟨by decide⟩

/-- A child is reaped, and of two more the second fails in the first mappages of
proc_pagetable. -/
def forks : List Event := [.fork 0, .exit 1 0, .wait 0 true, .fork 0, .fork 0]

theorem save_trapframes_freed_once_forks : ∃ t, run (step listVm) firstProc forks = some t ∧
    t.taken.card = 4 ∧ t.given.card = 2 ∧ t.taken = t.given + t.live := by
  have hboot : userinit listVm (fun h t => (h.drop 3, t ++ h.take 3)) (noProcs (List.range' 1 20)) =
      some firstProc := by
    have hsome : (userinit listVm (fun h t => (h.drop 3, t ++ h.take 3))
        (noProcs (List.range' 1 20))).isSome = true := by decide +kernel
    obtain ⟨s, hs⟩ := Option.isSome_iff_exists.mp hsome
    unfold firstProc
    rw [hs, Option.getD_some]
  have hrun : (run (step listVm) firstProc forks).map (fun t => (t.taken.card, t.given.card)) =
      some (4, 2) := by decide +kernel
  have hkeeps : Guarded (step listVm) (Keeps listVm) firstProc forks := by decide +kernel
  obtain ⟨t, ht, hcards⟩ := Option.map_eq_some_iff.mp hrun
  obtain ⟨htaken, hgiven⟩ := Prod.mk.inj hcards
  exact ⟨t, ht, htaken, hgiven, (save_trapframes_freed_once listVm _ _ forks firstProc t hboot
    ht).2.mpr hkeeps⟩

end Boot

end Xv6Labs.ProcTable
