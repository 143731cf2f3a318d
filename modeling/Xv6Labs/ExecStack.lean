import Xv6Labs.PgtblCopy
import Xv6Labs.ByteLoads

/-! The stack that exec of pgtbl/exec.c builds for a new program: the strings of argv, and below
them the array of pointers to them. -/
namespace Xv6Labs.Pgtbl

section Code

def MAXARG : Nat := 32

/-- A string in the kernel's memory, with its NUL. -/
def strBytes (arg : List UInt8) : Bytes := fun i => arg.getD i 0

/-- `x - y` of two uint64. -/
def sub64 (x y : Nat) : Nat := (x + (2^64 - y % 2^64)) % 2^64

/-- `sp -= n; sp -= sp % 16;` -/
def pushDown (sp n : Nat) : Nat := sub64 sp n - sub64 sp n % 16

/-- The loop of exec over argv; the user memory, the stack pointer and ustack, or `goto bad`. -/
def pushStrings (s : State) (pagetable stackbase : Nat) :
    List (List UInt8) → Nat → Bytes → Nat → Bytes → Option (Bytes × Nat × Bytes)
  | [], _, mem, sp, ustack => some (mem, sp, ustack)
  | arg :: rest, argc, mem, sp, ustack =>
    if MAXARG ≤ argc then none
    else
      -- riscv sp must be 16-byte aligned
      let sp := pushDown sp (arg.length + 1)
      if sp < stackbase then none
      else
        let r := copyout s pagetable (strBytes arg) mem sp 0 (arg.length + 1)
        if r.2 < 0 then none
        else pushStrings s pagetable stackbase rest (argc + 1) r.1 sp (store 8 ustack (8 * argc) sp)

/-- The user memory and the registers that the new program starts with. -/
structure Entry where
  mem : Bytes
  a0 : Nat
  a1 : Nat
  sp : Nat

/-- exec from `sp = sz` up to the commit; `ustack` is what the array on the kernel stack has in it
before. -/
def pushArgv (s : State) (pagetable sz : Nat) (mem ustack : Bytes) (argv : List (List UInt8)) :
    Option Entry :=
  let stackbase := sub64 sz PGSIZE
  match pushStrings s pagetable stackbase argv 0 mem sz ustack with
  | none => none
  | some (mem, sp, ustack) =>
    let argc := argv.length
    let ustack := store 8 ustack (8 * argc) 0
    let sp := pushDown sp ((argc + 1) * 8)
    if sp < stackbase then none
    else
      let r := copyout s pagetable ustack mem sp 0 ((argc + 1) * 8)
      if r.2 < 0 then none
      else some { mem := r.1, a0 := argc, a1 := sp, sp := sp }

end Code

section Page

variable {s : State} {root base : Nat} {mem : Bytes}

/-- The byte that a user program reads. -/
def userByte (s : State) (root : Nat) (mem : Bytes) (va : Nat) : UInt8 := mem (byteAddr s root va)

/-- `base` is the first address of a user page. -/
structure StackPage (s : State) (root base : Nat) : Prop where
  user : UserPage s root base
  aligned : base % PGSIZE = 0

theorem StackPage.byteAddr_eq (h : StackPage s root base) {va : Nat} (hlo : base ≤ va)
    (hhi : va < base + PGSIZE) : byteAddr s root va = byteAddr s root base + (va - base) := by
  have hal := h.aligned
  have hpage : va / PGSIZE = base / PGSIZE := by
    unfold PGSIZE at *
    omega
  have hoff : va % PGSIZE = base % PGSIZE + (va - base) := by
    unfold PGSIZE at *
    omega
  rw [byteAddr, byteAddr, leaf_page hpage, hoff, Nat.add_assoc]

theorem StackPage.user_at (h : StackPage s root base) {va : Nat} (hlo : base ≤ va)
    (hhi : va < base + PGSIZE) : UserPage s root va := by
  have hal := h.aligned
  have hpage : va / PGSIZE = base / PGSIZE := by
    unfold PGSIZE at *
    omega
  exact (userPage_page hpage).mpr h.user

/-- copyout to a part of the page writes all of it and nothing else. -/
theorem StackPage.copyout (h : StackPage s root base) (kern mem : Bytes) {va n : Nat} (hn : 0 < n)
    (hlo : base ≤ va) (hhi : va + n ≤ base + PGSIZE) : ∃ mem',
    copyout s root kern mem va 0 n = (mem', 0) ∧
    (∀ x, base ≤ x → x < base + PGSIZE → userByte s root mem' x =
      if va ≤ x ∧ x < va + n then kern (x - va) else userByte s root mem x) ∧
    ∀ a, (∀ x, va ≤ x → x < va + n → a ≠ byteAddr s root x) → mem' a = mem a := by
  obtain ⟨k, hstops, hmem⟩ := copyoutLoop_stops s root kern n mem va 0 n (Nat.le_refl _)
  have hall : ∀ i, i < n → UserPage s root (va + i) := by
    intro i hi
    exact h.user_at (by omega) (by omega)
  have hzero := hstops.zero_iff.mpr hall
  -- the loop of copyout has no reason to stop early
  obtain rfl : k = n := by
    rcases hstops.done with ⟨-, hk⟩ | ⟨hr, -⟩
    · exact hk
    · rw [hzero] at hr
      cases hr
  -- one memmove: the bytes end before the page does
  have hpage : k ≤ PGSIZE - (va - PGROUNDDOWN va) := by
    have hal := h.aligned
    unfold PGROUNDDOWN PGSIZE at *
    omega
  have hfirst := h.byteAddr_eq hlo (by omega : va < base + PGSIZE)
  rw [← memmove_pokes hpage] at hmem
  simp only [Nat.zero_add] at hmem
  refine ⟨memmove mem (byteAddr s root va) kern k, Prod.ext hmem hzero, ?_, ?_⟩
  · intro x hx hx'
    unfold userByte memmove
    rw [h.byteAddr_eq hx hx', hfirst]
    by_cases hin : va ≤ x ∧ x < va + k
    · rw [if_pos hin, if_pos (by omega)]
      exact congrArg kern (by omega)
    · rw [if_neg hin, if_neg (by omega)]
  · intro a ha
    unfold memmove
    rw [if_neg]
    rintro ⟨hle, hlt⟩
    refine ha (va + (a - byteAddr s root va)) (Nat.le_add_right _ _) (by omega) ?_
    rw [h.byteAddr_eq (by omega) (by omega)]
    omega

end Page

section Strings

variable {s : State} {root base : Nat} {mem : Bytes}

/-- The bytes that a push of `n` bytes takes of the stack. -/
def rounded (n : Nat) : Nat := (n + 15) / 16 * 16

def stringsNeed (argv : List (List UInt8)) : Nat :=
  (argv.map (fun arg => rounded (arg.length + 1))).sum

theorem pushDown_eq {sp n : Nat} (hsp : sp % 16 = 0) (hle : n ≤ sp) (hlt : sp < 2^64) :
    pushDown sp n = sp - rounded n ∧ rounded n ≤ sp := by
  unfold pushDown sub64 rounded
  omega

/-- The strings lie one below the other from `top` down to `low`, each with its NUL and on a
multiple of 16. -/
inductive Strings (read : Nat → UInt8) : Nat → List (List UInt8) → List Nat → Nat → Prop
  | nil (top : Nat) : Strings read top [] [] top
  | cons (top p low : Nat) (arg : List UInt8) (rest : List (List UInt8)) (ps : List Nat)
      (below : p + arg.length + 1 ≤ top) (aligned : p % 16 = 0)
      (bytes : ∀ i (hi : i < arg.length), read (p + i) = arg[i]) (nul : read (p + arg.length) = 0)
      (others : Strings read p rest ps low) : Strings read top (arg :: rest) (p :: ps) low

theorem Strings.length {read : Nat → UInt8} {top low : Nat} {argv : List (List UInt8)}
    {ps : List Nat} (h : Strings read top argv ps low) : ps.length = argv.length := by
  induction h with
  | nil => rfl
  | cons top p low arg rest ps hbelow hal hbytes hnul hothers ih =>
    rw [List.length_cons, List.length_cons, ih]

theorem Strings.le {read : Nat → UInt8} {top low : Nat} {argv : List (List UInt8)}
    {ps : List Nat} (h : Strings read top argv ps low) : low ≤ top := by
  induction h with
  | nil => exact Nat.le_refl _
  | cons top p low arg rest ps hbelow hal hbytes hnul hothers ih => omega

theorem Strings.congr {read read' : Nat → UInt8} {top low : Nat} {argv : List (List UInt8)}
    {ps : List Nat} (h : Strings read top argv ps low)
    (hsame : ∀ x, low ≤ x → x < top → read' x = read x) : Strings read' top argv ps low := by
  induction h with
  | nil => exact .nil _
  | cons top p low arg rest ps hbelow hal hbytes hnul hothers ih =>
    have hle := hothers.le
    refine .cons top p low arg rest ps hbelow hal ?_ ?_ (ih ?_)
    · intro i hi
      rw [hsame _ (by omega) (by omega)]
      exact hbytes i hi
    · rw [hsame _ (by omega) (by omega)]
      exact hnul
    · intro x hx hx'
      exact hsame x hx (by omega)

/-- The loop has pushed the strings between `sp'` and `sp`, and `ustack` has the pointers. -/
structure Pushed (s : State) (root base : Nat) (argv : List (List UInt8)) (argc : Nat)
    (mem : Bytes) (sp : Nat) (ustack mem' : Bytes) (sp' : Nat) (ustack' : Bytes) (ps : List Nat) :
    Prop where
  strings : Strings (userByte s root mem') sp argv ps sp'
  low : sp' + stringsNeed argv = sp
  fits : base ≤ sp'
  aligned : sp' % 16 = 0
  pointers : ∀ i (hi : i < ps.length), load 8 ustack' (8 * (argc + i)) = ps[i]
  earlier : ∀ a, a < 8 * argc → ustack' a = ustack a
  above : ∀ x, sp ≤ x → x < base + PGSIZE → userByte s root mem' x = userByte s root mem x
  others : ∀ a, (∀ x, sp' ≤ x → x < sp → a ≠ byteAddr s root x) → mem' a = mem a

theorem pushStrings_spec (h : StackPage s root base) (hroom : PGSIZE ≤ base)
    (argv : List (List UInt8)) (argc : Nat) (mem : Bytes) (sp : Nat) (ustack : Bytes)
    (hsp : sp % 16 = 0) (hlo : base ≤ sp) (hhi : sp ≤ base + PGSIZE)
    (hfew : argc + argv.length ≤ MAXARG) (hlen : ∀ arg ∈ argv, arg.length < PGSIZE) :
    (pushStrings s root base argv argc mem sp ustack = none ∧ sp < base + stringsNeed argv) ∨
    ∃ mem' sp' ustack' ps,
      pushStrings s root base argv argc mem sp ustack = some (mem', sp', ustack') ∧
      Pushed s root base argv argc mem sp ustack mem' sp' ustack' ps := by
  have hva : base < MAXVA := h.user.1
  have hbound : base + PGSIZE < 2^64 := by
    unfold MAXVA at hva
    unfold PGSIZE
    omega
  -- as the loop goes: the strings after the first are pushed from the stack pointer it leaves
  induction argv generalizing argc mem sp ustack with
  | nil =>
    refine Or.inr ⟨mem, sp, ustack, [], rfl, .nil sp, rfl, hlo, hsp, ?_, fun _ _ => rfl,
      fun _ _ _ => rfl, fun _ _ => rfl⟩
    intro i hi
    exact absurd hi (Nat.not_lt_zero i)
  | cons arg rest ih =>
    have harg : arg.length < PGSIZE := hlen arg (List.mem_cons_self ..)
    obtain ⟨hdown, hle⟩ := pushDown_eq (n := arg.length + 1) hsp (by omega) (by omega)
    have hneed : stringsNeed (arg :: rest) = rounded (arg.length + 1) + stringsNeed rest := by
      unfold stringsNeed
      rw [List.map_cons, List.sum_cons]
    have hround : arg.length + 1 ≤ rounded (arg.length + 1) ∧
        rounded (arg.length + 1) % 16 = 0 := by
      unfold rounded
      omega
    rw [List.length_cons] at hfew
    unfold pushStrings
    rw [if_neg (by omega)]
    simp only [hdown]
    generalize hp : sp - rounded (arg.length + 1) = p
    by_cases hbad : p < base
    · rw [if_pos hbad, hneed]
      exact Or.inl ⟨rfl, by omega⟩
    · obtain ⟨mem₁, hcopy, hread, hother⟩ := h.copyout (strBytes arg) mem
        (Nat.succ_pos arg.length) (Nat.le_of_not_lt hbad)
        (by omega : p + (arg.length + 1) ≤ base + PGSIZE)
      rw [if_neg hbad, hcopy]
      simp only
      rw [if_neg (by decide)]
      rcases ih (argc + 1) mem₁ p (store 8 ustack (8 * argc) p) (by omega) (by omega) (by omega)
        (by omega) (fun a ha => hlen a (List.mem_cons_of_mem _ ha)) with
        ⟨hnone, hlt⟩ | ⟨mem', sp', ustack', ps, hsome, hpushed⟩
      · rw [hneed]
        exact Or.inl ⟨hnone, by omega⟩
      · have hbelow := hpushed.strings.le
        have hlow := hpushed.low
        refine Or.inr ⟨mem', sp', ustack', p :: ps, hsome, ?_, ?_, hpushed.fits, hpushed.aligned,
          ?_, ?_, ?_, ?_⟩
        · -- the rest of the strings is pushed below this one
          have hkept (x : Nat) (hx : p ≤ x) (hx' : x < p + (arg.length + 1)) :
              userByte s root mem' x = strBytes arg (x - p) := by
            rw [hpushed.above x hx (by omega), hread x (by omega) (by omega), if_pos ⟨hx, hx'⟩]
          refine .cons sp p sp' arg rest ps (by omega) (by omega) ?_ ?_ hpushed.strings
          · intro i hi
            rw [hkept _ (by omega) (by omega), Nat.add_sub_cancel_left]
            exact List.getD_eq_getElem _ _ hi
          · rw [hkept _ (by omega) (by omega), Nat.add_sub_cancel_left]
            exact List.getD_eq_default _ _ (Nat.le_refl _)
        · omega
        · intro i hi
          cases i with
          | zero =>
            -- the later rounds write behind this pointer
            have hload : load 8 ustack' (8 * argc) =
                load 8 (store 8 ustack (8 * argc) p) (8 * argc) := by
              apply load_congr
              intro x hx hx'
              exact hpushed.earlier x (by omega)
            exact hload.trans (load_store_of_lt _ _ (by omega))
          | succ i =>
            have := hpushed.pointers i (Nat.lt_of_succ_lt_succ hi)
            rwa [Nat.add_right_comm, Nat.add_assoc] at this
        · intro a ha
          rw [hpushed.earlier a (by omega)]
          exact store_outside 8 _ _ (Or.inl ha)
        · intro x hx hx'
          rw [hpushed.above x (by omega) hx', hread x (by omega) hx', if_neg (by omega)]
        · intro a ha
          rw [hpushed.others a (fun x hx hx' => ha x hx (by omega))]
          exact hother a (fun x hx hx' => ha x (by omega) (by omega))

end Strings

section Entry

variable {s : State} {root : Nat}

theorem load_shift {m m' : Bytes} {n a b : Nat} (h : ∀ j, j < n → m' (a + j) = m (b + j)) :
    load n m' a = load n m b := by
  induction n generalizing a b with
  | zero => rfl
  | succ n ih =>
    have hfirst : m' a = m b := h 0 (Nat.succ_pos n)
    unfold load
    rw [hfirst, ih]
    intro j hj
    have := h (j + 1) (Nat.succ_lt_succ hj)
    rwa [Nat.add_comm j 1, ← Nat.add_assoc, ← Nat.add_assoc] at this

/-- What exec needs of the stack page: the strings and the array, each rounded up to 16 bytes. -/
def argvNeed (argv : List (List UInt8)) : Nat :=
  stringsNeed argv + rounded ((argv.length + 1) * 8)

/-- What the new program finds: `argc` and `argv` in its first two argument registers, the stack
pointer in the stack page and on a multiple of 16, the pointers there with a null pointer after
them, and above them the strings. No other byte of memory is written. -/
structure Passed (s : State) (root sz : Nat) (mem : Bytes) (argv : List (List UInt8)) (e : Entry) :
    Prop where
  a0 : e.a0 = argv.length
  a1 : e.a1 = e.sp
  aligned : e.sp % 16 = 0
  page : sz - PGSIZE ≤ e.sp
  argv : ∃ ps low, Strings (userByte s root e.mem) sz argv ps low ∧
    e.sp + 8 * (argv.length + 1) ≤ low ∧
    (∀ i (hi : i < ps.length), load 8 (userByte s root e.mem) (e.sp + 8 * i) = ps[i]) ∧
    load 8 (userByte s root e.mem) (e.sp + 8 * argv.length) = 0
  others : ∀ a, (∀ va, e.sp ≤ va → va < sz → a ≠ byteAddr s root va) → e.mem a = mem a

/-- exec gives up if and only if the strings and the array do not fit in the stack page, and
otherwise passes the arguments as they are. -/
theorem exec_passes_argv (s : State) (root sz : Nat) (mem ustack : Bytes)
    (argv : List (List UInt8)) (hstack : StackPage s root (sz - PGSIZE)) (hsz : 2 * PGSIZE ≤ sz)
    (hfew : argv.length < MAXARG) (hlen : ∀ arg ∈ argv, arg.length < PGSIZE) :
    (pushArgv s root sz mem ustack argv = none ↔ PGSIZE < argvNeed argv) ∧
    ∀ e, pushArgv s root sz mem ustack argv = some e → Passed s root sz mem argv e := by
  have hva : sz - PGSIZE < MAXVA := hstack.user.1
  have hal : (sz - 4096) % 4096 = 0 := hstack.aligned
  have hpage : PGSIZE = 4096 := rfl
  have hmax : MAXVA = 2^38 := rfl
  have hargs : MAXARG = 32 := rfl
  have hbase : sub64 sz PGSIZE = sz - PGSIZE := by
    unfold sub64
    omega
  unfold pushArgv
  simp only [hbase]
  rcases pushStrings_spec hstack (by omega) argv 0 mem sz ustack (by omega) (by omega) (by omega)
    (by omega) hlen with ⟨hnone, hlt⟩ | ⟨mem₁, sp₁, ustack₁, ps, hsome, hpushed⟩
  · -- a string does not fit, and then all of argv does not
    rw [hnone]
    unfold argvNeed
    exact ⟨⟨fun _ => by omega, fun _ => rfl⟩, fun e he => by cases he⟩
  · rw [hsome]
    simp only
    have hlow := hpushed.low
    have hfits := hpushed.fits
    have hround : (argv.length + 1) * 8 ≤ rounded ((argv.length + 1) * 8) ∧
        rounded ((argv.length + 1) * 8) % 16 = 0 := by
      unfold rounded
      omega
    obtain ⟨hdown, hle⟩ := pushDown_eq (n := (argv.length + 1) * 8) hpushed.aligned (by omega)
      (by omega)
    rw [hdown]
    have haligned := hpushed.aligned
    generalize hp : sp₁ - rounded ((argv.length + 1) * 8) = p
    have hneed : p + argvNeed argv = sz := by
      unfold argvNeed
      omega
    -- the strings fit: what is left to check is the array of pointers
    by_cases hbad : p < sz - PGSIZE
    · rw [if_pos hbad]
      exact ⟨⟨fun _ => by omega, fun _ => rfl⟩, fun e he => by cases he⟩
    · obtain ⟨mem₂, hcopy, hread, hother⟩ := hstack.copyout
        (store 8 ustack₁ (8 * argv.length) 0) mem₁
        (Nat.mul_pos (Nat.succ_pos argv.length) (by decide)) (Nat.le_of_not_lt hbad)
        (by omega : p + (argv.length + 1) * 8 ≤ sz - PGSIZE + PGSIZE)
      rw [if_neg hbad, hcopy]
      simp only
      rw [if_neg (by decide)]
      refine ⟨⟨?_, fun hlt => by omega⟩, ?_⟩
      · intro he
        cases he
      intro e he
      cases he
      have hlength := hpushed.strings.length
      -- the array is read back through the page table
      have hword (i : Nat) (hi : i ≤ argv.length) : load 8 (userByte s root mem₂) (p + 8 * i) =
          load 8 (store 8 ustack₁ (8 * argv.length) 0) (8 * i) := by
        apply load_shift
        intro j hj
        have hin : p + 8 * i + j - p = 8 * i + j := by omega
        have hbyte := hread (p + 8 * i + j) (by omega) (by omega)
        rwa [if_pos (by omega), hin] at hbyte
      refine ⟨rfl, rfl, by simp only; omega, by simp only; omega, ⟨ps, sp₁, ?_, ?_, ?_, ?_⟩, ?_⟩
      · -- the array is copied below the strings
        apply hpushed.strings.congr
        intro x hx hx'
        rw [hread x (by omega) (by omega), if_neg (by omega)]
      · simp only
        omega
      · -- the null pointer is stored behind these
        intro i hi
        have := hpushed.pointers i hi
        rw [Nat.zero_add] at this
        rw [hword i (by omega), load_store_ne _ _ (Or.inl (by omega)), this]
      · rw [hword _ (Nat.le_refl _), load_store_of_lt _ _ (by omega)]
      · intro a ha
        simp only at ha ⊢
        rw [hother a (fun x hx hx' => ha x hx (by omega))]
        exact hpushed.others a (fun x hx hx' => ha x (by omega) hx')

/-- A table with one page, at address 4096. -/
def oneStack : State :=
  ⟨fun p i =>
    if p = 0x80001000 ∧ i = 0 then PA2PTE 0x80002000 ||| PTE_V
    else if p = 0x80002000 ∧ i = 0 then PA2PTE 0x80003000 ||| PTE_V
    else if p = 0x80003000 ∧ i = 1 then PA2PTE 0x80004000 ||| PTE_V ||| PTE_W ||| PTE_U
    else 0, [], 0x80000000⟩

theorem exec_passes_argv_echo : ∃ e, pushArgv oneStack 0x80001000 8192 (fun _ => 0) (fun _ => 0)
    [[101, 99, 104, 111], [104, 105]] = some e ∧
    Passed oneStack 0x80001000 8192 (fun _ => 0) [[101, 99, 104, 111], [104, 105]] e := by
  have hstack : StackPage oneStack 0x80001000 (8192 - PGSIZE) :=
    ⟨by unfold UserPage; decide, by decide⟩
  obtain ⟨hnone, hpassed⟩ := exec_passes_argv oneStack 0x80001000 8192 (fun _ => 0) (fun _ => 0)
    [[101, 99, 104, 111], [104, 105]] hstack (by decide) (by decide) (by simp [PGSIZE])
  cases he : pushArgv oneStack 0x80001000 8192 (fun _ => 0) (fun _ => 0)
      [[101, 99, 104, 111], [104, 105]] with
  | none => exact absurd (hnone.mp he) (by decide)
  | some e => exact ⟨e, rfl, hpassed e he⟩

end Entry

end Xv6Labs.Pgtbl
