import Xv6Labs.UthreadCode
import Mathlib.Data.List.Induction

/-! User threads keep their context: what thread_switch saves is what it later loads, and
thread_create and thread_schedule touch no thread but the one they are about. -/
namespace Xv6Labs.Uthread

/-- The registers of struct context, in order. -/
def ctxReg : Fin 14 → Reg
  | 0 => .ra | 1 => .sp | 2 => .s0 | 3 => .s1 | 4 => .s2 | 5 => .s3 | 6 => .s4 | 7 => .s5
  | 8 => .s6 | 9 => .s7 | 10 => .s8 | 11 => .s9 | 12 => .s10 | 13 => .s11

theorem ctxReg_injective : Function.Injective ctxReg := by
  unfold Function.Injective
  decide

theorem ctxReg_ne_a1 (k : Fin 14) : ctxReg k ≠ .a1 := by
  revert k
  decide

/-- The instructions save the context at `a0` and load the one at `a1`. -/
theorem threadSwitch_eq : threadSwitch =
    (List.finRange 14).map (fun k => .sd (ctxReg k) (8 * k.val) .a0) ++
      ((List.finRange 14).map (fun k => .ld (ctxReg k) (8 * k.val) .a1) ++ [.ret]) := by
  decide

section Switch

theorem saves_spec (ks : List (Fin 14)) (m : Machine) :
    let m' := (ks.map (fun k => Instr.sd (ctxReg k) (8 * k.val) .a0)).foldl Instr.exec m
    m'.regs = m.regs ∧ m'.pc = m.pc ∧
      (∀ k ∈ ks, m'.mem (m.regs .a0 + 8 * k.val) = m.regs (ctxReg k)) ∧
      ∀ a, (∀ k ∈ ks, a ≠ m.regs .a0 + 8 * k.val) → m'.mem a = m.mem a := by
  induction ks generalizing m with
  | nil => exact ⟨rfl, rfl, fun k hk => (List.not_mem_nil hk).elim, fun a _ => rfl⟩
  | cons k ks ih =>
    obtain ⟨hr, hp, hs, hf⟩ := ih (Instr.exec m (.sd (ctxReg k) (8 * k.val) .a0))
    simp only [List.map_cons, List.foldl_cons]
    simp only [Instr.exec] at hr hp hs hf ⊢
    refine ⟨hr, hp, ?_, ?_⟩
    · intro j hj
      by_cases hjs : j ∈ ks
      · exact hs j hjs
      · have hjk : j = k := (List.mem_cons.mp hj).resolve_right hjs
        subst hjk
        rw [hf, Function.update_self]
        intro i hi he
        have hij : i = j := Fin.ext (by omega)
        exact hjs (hij ▸ hi)
    · intro a ha
      rw [hf a (fun i hi => ha i (List.mem_cons_of_mem _ hi))]
      exact Function.update_of_ne (ha k List.mem_cons_self) _ _

theorem loads_spec (ks : List (Fin 14)) (m : Machine) :
    let m' := (ks.map (fun k => Instr.ld (ctxReg k) (8 * k.val) .a1)).foldl Instr.exec m
    m'.mem = m.mem ∧ m'.regs .a1 = m.regs .a1 ∧
      ∀ k ∈ ks, m'.regs (ctxReg k) = m.mem (m.regs .a1 + 8 * k.val) := by
  induction ks using List.reverseRecOn generalizing m with
  | nil => exact ⟨rfl, rfl, fun k hk => (List.not_mem_nil hk).elim⟩
  | append_singleton ks k ih =>
    obtain ⟨hm, ha, hs⟩ := ih m
    simp only [List.map_append, List.map_cons, List.map_nil, List.foldl_append, List.foldl_cons,
      List.foldl_nil]
    refine ⟨hm, ?_, ?_⟩
    · simp only [Instr.exec]
      rw [Function.update_of_ne (ctxReg_ne_a1 k).symm]
      exact ha
    · intro j hj
      simp only [Instr.exec]
      by_cases hjk : j = k
      · subst hjk
        rw [Function.update_self, hm, ha]
      · rw [Function.update_of_ne (fun he => hjk (ctxReg_injective he))]
        exact hs j ((List.mem_append.mp hj).resolve_right (fun h => hjk (List.mem_singleton.mp h)))

/-- thread_switch between two contexts that do not overlap. -/
theorem switch_spec (s : State) (old new : Nat) (hapart : old + 112 ≤ new ∨ new + 112 ≤ old) :
    let t := s.switch old new
    (∀ k, t.regs (ctxReg k) = s.mem (new + 8 * k.val)) ∧ t.pc = s.mem new ∧
      (∀ k, t.mem (old + 8 * k.val) = s.regs (ctxReg k)) ∧
      (∀ a, (∀ k : Fin 14, a ≠ old + 8 * k.val) → t.mem a = s.mem a) := by
  simp only [State.switch, threadSwitch_eq, List.foldl_append]
  generalize hm : Machine.mk (Function.update (Function.update s.regs .a0 old) .a1 new) s.mem s.pc
    = m
  have ha0 : m.regs .a0 = old := by rw [← hm]; rfl
  have ha1 : m.regs .a1 = new := by rw [← hm]; rfl
  have hmem : m.mem = s.mem := by rw [← hm]
  have hctx (k : Fin 14) : m.regs (ctxReg k) = s.regs (ctxReg k) := by
    rw [← hm]
    have h0 : ctxReg k ≠ .a0 := by revert k; decide
    simp only [Function.update_of_ne (ctxReg_ne_a1 k), Function.update_of_ne h0]
  obtain ⟨hr, -, hs, hf⟩ := saves_spec (List.finRange 14) m
  simp only [ha0] at hs hf
  generalize ((List.finRange 14).map (fun k => Instr.sd (ctxReg k) (8 * k.val) .a0)).foldl
    Instr.exec m = m1 at hr hs hf ⊢
  obtain ⟨hlm, -, hl⟩ := loads_spec (List.finRange 14) m1
  generalize ((List.finRange 14).map (fun k => Instr.ld (ctxReg k) (8 * k.val) .a1)).foldl
    Instr.exec m1 = m2 at hlm hl ⊢
  have hload (k : Fin 14) : m2.regs (ctxReg k) = s.mem (new + 8 * k.val) := by
    rw [hl k (List.mem_finRange k), hr, ha1, hf, hmem]
    intro j _
    omega
  simp only [List.foldl_cons, List.foldl_nil, Instr.exec]
  refine ⟨hload, hload 0, ?_, ?_⟩
  · intro k
    rw [hlm, hs k (List.mem_finRange k), hctx]
  · intro a ha
    rw [hlm, hf a (fun k _ => ha k), hmem]

theorem switch_keeps (s : State) (old new : Nat) :
    (s.switch old new).state = s.state ∧ (s.switch old new).current = s.current ∧
      (s.switch old new).ended = s.ended ∧ (s.switch old new).resume = s.resume :=
  ⟨rfl, rfl, rfl, rfl⟩

end Switch

section Layout

variable (allThread : Nat) {i j : Fin MAX_THREAD}

/-- The slots of the table do not overlap. -/
theorem stackAddr_lt (h : i < j) :
    stackAddr allThread i + sizeofThread ≤ stackAddr allThread j := by
  have hij : i.val + 1 ≤ j.val := h
  have hmul := Nat.mul_le_mul_left sizeofThread hij
  rw [Nat.mul_add, Nat.mul_one] at hmul
  unfold stackAddr
  omega

theorem contxAddr_apart (h : i ≠ j) : contxAddr allThread i + 112 ≤ contxAddr allThread j ∨
    contxAddr allThread j + 112 ≤ contxAddr allThread i := by
  have hsize : sizeofThread = STACK_SIZE + 8 + 112 := rfl
  unfold contxAddr
  rcases lt_or_gt_of_ne h with hlt | hlt
  · have := stackAddr_lt allThread hlt
    omega
  · have := stackAddr_lt allThread hlt
    omega

/-- A context is in no stack. -/
theorem contxAddr_stack (allThread : Nat) (i j : Fin MAX_THREAD) :
    contxAddr allThread i + 112 ≤ stackAddr allThread j ∨
      stackAddr allThread j + STACK_SIZE ≤ contxAddr allThread i := by
  have hsize : sizeofThread = STACK_SIZE + 8 + 112 := rfl
  unfold contxAddr
  rcases lt_trichotomy i j with hlt | rfl | hlt
  · have := stackAddr_lt allThread hlt
    omega
  · omega
  · have := stackAddr_lt allThread hlt
    omega

end Layout

section Scan

variable {state : Fin MAX_THREAD → ThreadState}

/-- `j` is the first runnable thread among the `n` ones from number `t` on, cyclically. -/
def First (state : Fin MAX_THREAD → ThreadState) (n t : Nat) (j : Fin MAX_THREAD) : Prop :=
  ∃ d, d < n ∧ j.val = (t + d) % MAX_THREAD ∧ state j = .runnable ∧
    ∀ e, e < d → ∀ i : Fin MAX_THREAD, i.val = (t + e) % MAX_THREAD → state i ≠ .runnable

theorem scan_spec (n t : Nat) (ht : t ≤ MAX_THREAD) :
    (∀ j, scan state n t = some j → First state n t j) ∧
      (scan state n t = none → ∀ d, d < n → ∀ i : Fin MAX_THREAD,
        i.val = (t + d) % MAX_THREAD → state i ≠ .runnable) := by
  induction n generalizing t with
  | zero => exact ⟨(fun j hj => by cases hj), (fun _ d hd => by omega)⟩
  | succ n ih =>
    have hmax : MAX_THREAD = 4 := rfl
    generalize hx : (if h : t < MAX_THREAD then ⟨t, h⟩ else ⟨0, by decide⟩ : Fin MAX_THREAD) = x
    have hxt : x.val = t % MAX_THREAD := by
      rw [← hx]
      split_ifs with h
      · exact (Nat.mod_eq_of_lt h).symm
      · rw [show t = MAX_THREAD by omega, Nat.mod_self]
    have hnext (d : Nat) : (x.val + 1 + d) % MAX_THREAD = (t + (d + 1)) % MAX_THREAD := by
      rw [hxt, Nat.add_assoc, Nat.mod_add_mod, Nat.add_comm 1 d]
    obtain ⟨ih1, ih2⟩ := ih (x.val + 1) x.isLt
    have hscan : scan state (n+1) t =
        if state x = .runnable then some x else scan state n (x.val+1) := by
      rw [← hx]
      rfl
    rw [hscan]
    by_cases hrun : state x = .runnable
    · rw [if_pos hrun]
      refine ⟨?_, (fun h => by cases h)⟩
      intro j hj
      cases hj
      exact ⟨0, by omega, hxt, hrun, (fun e he => by omega)⟩
    · rw [if_neg hrun]
      have hfirst (i : Fin MAX_THREAD) (hi : i.val = (t + 0) % MAX_THREAD) :
          state i ≠ .runnable := by
        rw [show i = x from Fin.ext (hi.trans hxt.symm)]
        exact hrun
      refine ⟨?_, ?_⟩
      · intro j hj
        obtain ⟨d, hd, hjd, hjr, hbefore⟩ := ih1 j hj
        refine ⟨d+1, by omega, by rw [hjd, hnext], hjr, ?_⟩
        intro e he i hi
        cases e with
        | zero => exact hfirst i hi
        | succ e => exact hbefore e (by omega) i (by rw [hi, hnext])
      · intro hnone d hd i hi
        cases d with
        | zero => exact hfirst i hi
        | succ d => exact ih2 hnone d (by omega) i (by rw [hi, hnext])

/-- A whole turn meets every thread. -/
theorem scan_none (t : Nat) (ht : t ≤ MAX_THREAD) (h : scan state MAX_THREAD t = none)
    (i : Fin MAX_THREAD) : state i ≠ .runnable := by
  have hi := i.isLt
  have hmax : MAX_THREAD = 4 := rfl
  have hturn : i.val = (t + (i.val + 4 - t % 4) % 4) % 4 := by omega
  exact (scan_spec MAX_THREAD t ht).2 h ((i.val + 4 - t % 4) % 4) (by omega) i hturn

end Scan

section Runs

variable {allThread : Nat} {s t : State}

/-- The context of thread `i` is what it needs to go on. -/
def Ready (allThread : Nat) (s : State) (i : Fin MAX_THREAD) : Prop :=
  match s.resume i with
  | .none => False
  | .start func => s.mem (contxAddr allThread i) = func ∧
    s.mem (contxAddr allThread i + 8) = stackAddr allThread i + (STACK_SIZE - 1)
  | .back c => ∀ k, s.mem (contxAddr allThread i + 8 * k.val) = c (ctxReg k)

structure Inv (allThread : Nat) (s : State) : Prop where
  running : s.ended = false → s.state s.current ≠ .free
  ready : ∀ i, i ≠ s.current → s.state i = .runnable → Ready allThread s i

theorem Ready.congr {i : Fin MAX_THREAD} (h : Ready allThread s i)
    (hr : t.resume i = s.resume i)
    (hm : ∀ k : Fin 14, t.mem (contxAddr allThread i + 8 * k.val) =
      s.mem (contxAddr allThread i + 8 * k.val)) : Ready allThread t i := by
  have h0 := hm 0
  have h1 := hm 1
  unfold Ready at h ⊢
  rw [hr]
  cases hres : s.resume i with
  | none => rw [hres] at h; exact h
  | start func =>
    rw [hres] at h
    exact ⟨h0.trans h.1, h1.trans h.2⟩
  | back c =>
    rw [hres] at h
    exact fun k => (hm k).trans (h k)

/-- What a switch of threads is: the new thread goes on where it stopped, or starts. -/
def Resumes (allThread : Nat) (s t : State) : Prop :=
  match s.resume t.current with
  | .none => False
  | .start func => t.pc = func ∧ t.regs .ra = func ∧ stackAddr allThread t.current ≤ t.regs .sp ∧
    t.regs .sp < stackAddr allThread t.current + STACK_SIZE
  | .back c => t.pc = c .ra ∧ ∀ k, t.regs (ctxReg k) = c (ctxReg k)

/-- thread_schedule from a state whose waiting threads are ready. -/
theorem schedule_spec (hready : ∀ i, i ≠ s.current → s.state i = .runnable → Ready allThread s i)
    (hs : s.ended = false) (ht : threadSchedule allThread s = t) :
    Inv allThread t ∧ (t.ended = true ↔ ∀ i, s.state i ≠ .runnable) ∧
      (t.ended = false → First s.state MAX_THREAD (s.current.val + 1) t.current) ∧
      (t.ended = false → t.current = s.current → t.regs = s.regs ∧ t.pc = s.pc) ∧
      (t.current ≠ s.current → Resumes allThread s t ∧ t.resume s.current = .back s.regs) ∧
      (∀ i, i ≠ t.current → t.state i = s.state i) ∧
      (∀ i, i ≠ s.current → t.resume i = s.resume i) := by
  have hle : s.current.val + 1 ≤ MAX_THREAD := s.current.isLt
  unfold threadSchedule at ht
  cases hscan : scan s.state MAX_THREAD (s.current.val + 1) with
  | none =>
    rw [hscan] at ht
    subst ht
    have hnone := scan_none _ hle hscan
    -- no thread is runnable: the scan finds none, and the program ends
    refine ⟨⟨(fun h => by cases h), fun i hi hr => absurd hr (hnone i)⟩, ?_,
      (fun h => by cases h), (fun h => by cases h), fun h => absurd rfl h, fun _ _ => rfl,
      fun _ _ => rfl⟩
    exact iff_of_true rfl hnone
  | some next =>
    rw [hscan] at ht
    simp only at ht
    have hfirst := (scan_spec MAX_THREAD (s.current.val + 1) hle).1 next hscan
    have hrun : s.state next = .runnable := by
      obtain ⟨d, -, -, hr, -⟩ := hfirst
      exact hr
    have hsome : ¬∀ i, s.state i ≠ .runnable := fun h => h next hrun
    by_cases hsame : s.current = next
    · -- the thread itself is the next: thread_schedule returns without a switch
      rw [if_neg (not_not.mpr hsame)] at ht
      subst ht
      refine ⟨⟨fun _ => ?_, hready⟩, ?_, fun _ => ?_, fun _ _ => ⟨rfl, rfl⟩,
        fun h => absurd rfl h, fun _ _ => rfl, fun _ _ => rfl⟩
      · rw [hsame, hrun]
        exact fun h => by cases h
      · rw [hs]
        exact iff_of_false (by decide) hsome
      · rw [← hsame] at hfirst
        exact hfirst
    · rw [if_pos hsame] at ht
      -- the switch saves the callee-saved registers of one thread and loads the other's
      obtain ⟨hload, hpc, hsave, hframe⟩ := switch_spec
        { s with state := Function.update s.state next .running, current := next,
                 resume := Function.update s.resume s.current (.back s.regs) }
        (contxAddr allThread s.current) (contxAddr allThread next)
        (contxAddr_apart allThread hsame)
      rw [ht] at hload hpc hsave hframe
      obtain ⟨hst, hcur, hend, hres⟩ := switch_keeps
        { s with state := Function.update s.state next .running, current := next,
                 resume := Function.update s.resume s.current (.back s.regs) }
        (contxAddr allThread s.current) (contxAddr allThread next)
      rw [ht] at hst hcur hend hres
      simp only at hload hpc hsave hframe hst hcur hend hres
      refine ⟨⟨?_, ?_⟩, ?_, ?_, ?_, ?_, ?_, ?_⟩
      · intro _
        rw [hst, hcur, Function.update_self]
        exact fun h => by cases h
      · intro i hi hr
        rw [hcur] at hi
        rw [hst, Function.update_of_ne hi] at hr
        -- the thread that is left resumes from what has just been saved
        by_cases hic : i = s.current
        · subst hic
          unfold Ready
          rw [hres, Function.update_self]
          exact hsave
        · refine (hready i hic hr).congr (by rw [hres, Function.update_of_ne hic]) ?_
          intro k
          apply hframe
          intro j
          have := contxAddr_apart allThread hic
          omega
      · rw [hend, hs]
        exact iff_of_false (by decide) hsome
      · rw [hcur]
        exact fun _ => hfirst
      · intro _ h
        rw [hcur] at h
        exact absurd h.symm hsame
      · intro _
        refine ⟨?_, by rw [hres, Function.update_self]⟩
        have hrd := hready next (fun h => hsame h.symm) hrun
        unfold Ready at hrd
        unfold Resumes
        rw [hcur]
        -- a new thread starts at its function with its own stack, an old one where it left off
        cases hrn : s.resume next with
        | none =>
          rw [hrn] at hrd
          exact hrd
        | start func =>
          rw [hrn] at hrd
          have hra := hload 0
          have hsp := hload 1
          simp only [ctxReg] at hra hsp
          have hlt : STACK_SIZE - 1 < STACK_SIZE := by decide
          refine ⟨hpc.trans hrd.1, hra.trans hrd.1, ?_, ?_⟩
          · have := hsp.trans hrd.2
            omega
          · have := hsp.trans hrd.2
            omega
        | back c =>
          rw [hrn] at hrd
          exact ⟨hpc.trans (hrd 0), fun k => (hload k).trans (hrd k)⟩
      · intro i hi
        rw [hcur] at hi
        rw [hst, Function.update_of_ne hi]
      · intro i hi
        rw [hres, Function.update_of_ne hi]

/-- The states that the scan of thread_schedule finds, for the calls that come to it. -/
def statesAt (s : State) : Event → Option (Fin MAX_THREAD → ThreadState)
  | .threadYield => some (Function.update s.state s.current .runnable)
  | .exit => some (Function.update s.state s.current .free)
  | .threadSchedule => some s.state
  | _ => none

/-- thread_create: a free slot that is not the running thread's is filled, and no other one and no
stack changes. -/
structure Creates (allThread : Nat) (s t : State) (func : Nat) (i : Fin MAX_THREAD) : Prop where
  free : s.state i = .free
  other : i ≠ s.current
  state : t.state = Function.update s.state i .runnable
  resume : t.resume = Function.update s.resume i (.start func)
  frame : ∀ j, j ≠ i → ∀ k : Fin 14,
    t.mem (contxAddr allThread j + 8 * k.val) = s.mem (contxAddr allThread j + 8 * k.val)
  stack : ∀ j a, stackAddr allThread j ≤ a → a < stackAddr allThread j + STACK_SIZE →
    t.mem a = s.mem a
  regs : t.regs = s.regs ∧ t.pc = s.pc ∧ t.current = s.current ∧ t.ended = s.ended

theorem create_spec (h : Inv allThread s) (hs : s.ended = false) (func : Nat)
    (ht : threadCreate allThread s func = some t) :
    Inv allThread t ∧ ∃ i, Creates allThread s t func i := by
  obtain ⟨i, hi, rfl⟩ := Option.map_eq_some_iff.mp ht
  have hfree : s.state i = .free := by simpa using List.find?_some hi
  have hother : i ≠ s.current := by
    rintro rfl
    exact h.running hs hfree
  have hframe (j : Fin MAX_THREAD) (hj : j ≠ i) (k : Fin 14) :
      Function.update (Function.update s.mem (contxAddr allThread i) func)
        (contxAddr allThread i + 8) (stackAddr allThread i + (STACK_SIZE - 1))
        (contxAddr allThread j + 8 * k.val) = s.mem (contxAddr allThread j + 8 * k.val) := by
    have := contxAddr_apart allThread hj
    rw [Function.update_of_ne (by omega), Function.update_of_ne (by omega)]
  -- the two words of the context lie behind the stack of their slot
  have hstack (j : Fin MAX_THREAD) (a : Nat) (hlow : stackAddr allThread j ≤ a)
      (hhigh : a < stackAddr allThread j + STACK_SIZE) :
      Function.update (Function.update s.mem (contxAddr allThread i) func)
        (contxAddr allThread i + 8) (stackAddr allThread i + (STACK_SIZE - 1)) a = s.mem a := by
    have haway := contxAddr_stack allThread i j
    rw [Function.update_of_ne (by omega), Function.update_of_ne (by omega)]
  refine ⟨⟨?_, ?_⟩, i, hfree, hother, rfl, rfl, hframe, hstack, rfl, rfl, rfl, rfl⟩
  · intro _
    simp only [Function.update_of_ne hother.symm]
    exact h.running hs
  · intro j hj hr
    by_cases hji : j = i
    · subst hji
      simp only [Ready, Function.update_self]
      refine ⟨?_, trivial⟩
      rw [Function.update_of_ne (by omega), Function.update_self]
    · simp only [Function.update_of_ne hji] at hr
      exact (h.ready j hj hr).congr (Function.update_of_ne hji _ _) (hframe j hji)

/-- What one call of the running thread does. -/
structure Kept (allThread : Nat) (s : State) (e : Event) (t : State) : Prop where
  resumes : t.current ≠ s.current →
    Resumes allThread s t ∧ t.resume s.current = .back s.regs
  same : ∀ st, statesAt s e = some st → t.ended = false → t.current = s.current →
    t.regs = s.regs ∧ t.pc = s.pc
  creates : ∀ func, e = .threadCreate func → ∃ i, Creates allThread s t func i
  picks : ∀ st, statesAt s e = some st → t.ended = false →
    First st MAX_THREAD (s.current.val + 1) t.current
  ends : ∀ st, statesAt s e = some st → (t.ended = true ↔ ∀ i, st i ≠ .runnable)
  states : ∀ st, statesAt s e = some st → ∀ i, i ≠ t.current → t.state i = st i
  others : ∀ i, i ≠ s.current → s.state i = .runnable → i ≠ t.current →
    t.resume i = s.resume i ∧ t.state i = s.state i

theorem step_spec (h : Inv allThread s) (e : Event) (ht : step allThread s e = some t) :
    Inv allThread t ∧ Kept allThread s e t := by
  unfold step at ht
  split_ifs at ht with hended
  have hs : s.ended = false := by simpa using hended
  have hschedule (st : Fin MAX_THREAD → ThreadState)
      (hst : ∀ i, i ≠ s.current → st i = s.state i) (e : Event) (he : statesAt s e = some st)
      (ht : threadSchedule allThread { s with state := st } = t) :
      Inv allThread t ∧ Kept allThread s e t := by
    obtain ⟨hinv, hends, hpick, hsame, hres, hstates, hback⟩ := schedule_spec
      (s := { s with state := st }) (fun i hi hr => h.ready i hi ((hst i hi).symm.trans hr)) hs ht
    refine ⟨hinv, hres, ?_, ?_, ?_, ?_, ?_, ?_⟩
    · intro st' _
      exact hsame
    · intro func hf
      rw [hf] at he
      cases he
    · intro st' hst'
      rw [he] at hst'
      cases hst'
      exact hpick
    · intro st' hst'
      rw [he] at hst'
      cases hst'
      exact hends
    · intro st' hst'
      rw [he] at hst'
      cases hst'
      exact hstates
    · intro i hi _ hit
      exact ⟨hback i hi, (hstates i hit).trans (hst i hi)⟩
  cases e with
  | work regs =>
    cases ht
    refine ⟨⟨h.running, h.ready⟩, fun hc => absurd rfl hc, ?_, ?_, ?_, ?_, ?_,
      fun _ _ _ _ => ⟨rfl, rfl⟩⟩
    · intro st hst
      cases hst
    · intro func hf
      cases hf
    · intro st hst
      cases hst
    · intro st hst
      cases hst
    · intro st hst
      cases hst
  | threadCreate func =>
    obtain ⟨hinv, i, hi⟩ := create_spec h hs func ht
    refine ⟨hinv, fun hc => absurd hi.regs.2.2.1 hc, ?_, ?_, ?_, ?_, ?_, ?_⟩
    · intro st hst
      cases hst
    · intro func' hf
      cases hf
      exact ⟨i, hi⟩
    · intro st hst
      cases hst
    · intro st hst
      cases hst
    · intro st hst
      cases hst
    · intro j _ hj _
      have hji : j ≠ i := by
        rintro rfl
        rw [hi.free] at hj
        cases hj
      rw [hi.resume, hi.state]
      exact ⟨Function.update_of_ne hji _ _, Function.update_of_ne hji _ _⟩
  | threadYield =>
    exact hschedule _ (fun i hi => Function.update_of_ne hi _ _) .threadYield rfl
      (Option.some.inj ht)
  | exit =>
    exact hschedule _ (fun i hi => Function.update_of_ne hi _ _) .exit rfl (Option.some.inj ht)
  | threadSchedule =>
    exact hschedule _ (fun i _ => rfl) .threadSchedule rfl (Option.some.inj ht)

theorem init_inv (regs : Reg → Nat) (mem : Nat → Nat) (pc : Nat) :
    Inv allThread (threadInit regs mem pc) := by
  refine ⟨fun _ => ?_, ?_⟩
  · simp [threadInit]
  · intro i hi hr
    simp only [threadInit] at hi hr
    rw [Function.update_of_ne hi] at hr
    cases hr

end Runs

/-- While thread `x` waits, the step does not run it. -/
def Leaves (allThread : Nat) (x : Fin MAX_THREAD) (s : State) (e : Event) : Prop :=
  ∀ t, step allThread s e = some t → t.current ≠ x

/-- Each call in each run of the threads does to contexts, slots and the running thread what
it should, and a thread that has yielded goes on with the registers it had. -/
theorem threads_keep_context (allThread : Nat) (regs : Reg → Nat) (mem : Nat → Nat) (pc : Nat)
    (es : List Event) (s : State)
    (hr : run (step allThread) (threadInit regs mem pc) es = some s) :
    (∀ e t, step allThread s e = some t → Kept allThread s e t) ∧
    ∀ u fs v e w, step allThread s .threadYield = some u → u.current ≠ s.current →
      Guarded (step allThread) (Leaves allThread s.current) u fs →
      run (step allThread) u fs = some v → step allThread v e = some w →
      w.current = s.current → w.pc = s.regs .ra ∧ ∀ k, w.regs (ctxReg k) = s.regs (ctxReg k) := by
  have h : Inv allThread s := run_invariant (step allThread) (Inv allThread)
    (fun s e t h ht => (step_spec h e ht).1) _ s es (init_inv regs mem pc) hr
  refine ⟨fun e t ht => (step_spec h e ht).2, ?_⟩
  intro u fs v e w hu hne hg hv hw hback
  obtain ⟨hiu, hku⟩ := step_spec h .threadYield hu
  have hrun : u.state s.current = .runnable := by
    rw [hku.states _ rfl s.current hne.symm, Function.update_self]
  -- as long as it does not run, its slot keeps the registers
  have hwait : Inv allThread v ∧ v.current ≠ s.current ∧ v.state s.current = .runnable ∧
      v.resume s.current = .back s.regs := by
    refine guarded_run_invariant (step allThread) (Leaves allThread s.current)
      (fun v => Inv allThread v ∧ v.current ≠ s.current ∧ v.state s.current = .runnable ∧
        v.resume s.current = .back s.regs) ?_ u v fs ⟨hiu, hne, hrun, (hku.resumes hne).2⟩ hg hv
    rintro a f b ⟨ha, hca, hsa, hra⟩ hl hb
    obtain ⟨hib, hkb⟩ := step_spec ha f hb
    have hcb := hl b hb
    obtain ⟨h1, h2⟩ := hkb.others s.current hca.symm hsa hcb.symm
    exact ⟨hib, hcb, h2.trans hsa, h1.trans hra⟩
  obtain ⟨hiv, hcv, -, hres⟩ := hwait
  have hresume := ((step_spec hiv e hw).2.resumes (by rw [hback]; exact hcv.symm)).1
  unfold Resumes at hresume
  rw [hback, hres] at hresume
  exact hresume

/-- main creates a thread and yields to it, and it yields back. -/
theorem threads_keep_context_yields : ∃ s u w,
    run (step 4096) (threadInit (fun _ => 7) (fun _ => 0) 0) [.threadCreate 64] = some s ∧
    step 4096 s .threadYield = some u ∧ step 4096 u .threadYield = some w ∧
    w.pc = s.regs .ra ∧ ∀ k, w.regs (ctxReg k) = s.regs (ctxReg k) := by
  have hs : ((run (step 4096) (threadInit (fun _ => 7) (fun _ => 0) 0)
      [.threadCreate 64]).map (fun s => s.current.val)) = some 0 := by decide
  have hu : ((run (step 4096) (threadInit (fun _ => 7) (fun _ => 0) 0)
      [.threadCreate 64, .threadYield]).map (fun s => s.current.val)) = some 1 := by decide
  have hw : ((run (step 4096) (threadInit (fun _ => 7) (fun _ => 0) 0)
      [.threadCreate 64, .threadYield, .threadYield]).map (fun s => s.current.val)) = some 0 := by
    decide
  obtain ⟨s, hs, hs0⟩ := Option.map_eq_some_iff.mp hs
  obtain ⟨u, hu, hu1⟩ := Option.map_eq_some_iff.mp hu
  obtain ⟨w, hw, hw0⟩ := Option.map_eq_some_iff.mp hw
  have hsu : step 4096 s .threadYield = some u := by
    obtain ⟨s', hs', hu'⟩ := (run_append (step 4096) _ _ [.threadCreate 64] [.threadYield]).mp hu
    rw [hs] at hs'
    cases hs'
    simpa [run] using hu'
  have huw : step 4096 u .threadYield = some w := by
    obtain ⟨u', hu', hw'⟩ :=
      (run_append (step 4096) _ _ [.threadCreate 64, .threadYield] [.threadYield]).mp hw
    rw [hu] at hu'
    cases hu'
    simpa [run] using hw'
  refine ⟨s, u, w, hs, hsu, huw, ?_⟩
  exact (threads_keep_context 4096 _ _ 0 _ s hs).2 u [] u .threadYield w hsu
    (fun h => by rw [h, hs0] at hu1; cases hu1) trivial rfl huw (Fin.ext (hw0.trans hs0.symm))

end Xv6Labs.Uthread
