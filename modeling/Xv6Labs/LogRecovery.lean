import Xv6Labs.LogCode

/-! Crash atomicity of the log. In every phase the header on disk, the log blocks and the
home blocks together determine the state after the groups that have committed. -/
namespace Xv6Labs.Log

section Header

theorem getUint_storeWords_below (b : Bytes) (k i : Nat) (xs : List Nat) (h : i < k) :
    getUint (storeWords b k xs) i = getUint b i := by
  induction xs generalizing b k with
  | nil => rfl
  | cons x xs ih =>
    rw [storeWords, ih _ (k+1) (by omega), getUint_setUint_ne _ _ _ _ (by omega)]

theorem getUint_storeWords (b : Bytes) (k j x : Nat) (xs : List Nat) (hx : ∀ y ∈ xs, y < 2^32)
    (h : xs[j]? = some x) : getUint (storeWords b k xs) (k + j) = x := by
  induction xs generalizing b k j with
  | nil => simp at h
  | cons y ys ih =>
    rw [storeWords]
    cases j with
    | zero =>
      have hy : y = x := by simpa using h
      change getUint (storeWords (setUint b k y) (k+1) ys) k = x
      rw [getUint_storeWords_below _ (k+1) k _ (by omega), hy,
        getUint_setUint_self _ _ _ (hx x (by simp [hy]))]
    | succ j =>
      have := ih (setUint b k y) (k+1) j (fun z hz => hx z (by simp [hz])) (by simpa using h)
      rw [show k + (j+1) = k + 1 + j by omega, this]

/-- read_head gets back what write_head wrote. -/
theorem readHead_headBlock (buf : Bytes) (lh : List Nat) (hlh : ∀ b ∈ lh, b < 2^32)
    (hlen : lh.length < 2^32) : readHead (headBlock buf lh) = lh := by
  unfold readHead headBlock
  rw [getUint_storeWords_below _ _ _ _ Nat.one_pos, getUint_setUint_self _ _ _ hlen]
  apply List.ext_getElem
  · rw [List.length_map, List.length_range]
  · intro j h1 h2
    rw [List.getElem_map, List.getElem_range, Nat.add_comm]
    exact getUint_storeWords _ _ _ _ _ hlh (List.getElem?_eq_getElem h2)

theorem headBlock_nil (buf : Bytes) : headBlock buf [] = setUint buf 0 0 := rfl

theorem readHead_nil (buf : Bytes) : readHead (headBlock buf []) = [] :=
  readHead_headBlock buf [] (fun b hb => by cases hb) (by decide)

end Header

section Fields

variable (s : State) (b : Nat) (d : Bytes)

@[simp] theorem bwrite_disk : (s.bwrite b d).disk = Function.update s.disk b d := rfl
@[simp] theorem bwrite_cache : (s.bwrite b d).cache = Function.update s.cache b d := rfl
@[simp] theorem bwrite_start : (s.bwrite b d).start = s.start := rfl
@[simp] theorem bwrite_lh : (s.bwrite b d).lh = s.lh := rfl

end Fields

/-- The buffers of the log area are as on disk, the header has room for `lh`. -/
structure Layout (s : State) : Prop where
  size_pos : 0 < s.size
  logCache : ∀ b, ¬s.Home b → s.cache b = s.disk b
  home : ∀ b ∈ s.lh, s.Home b ∧ b < 2^32
  fits : s.lh.length ≤ s.size - 1 ∧ s.lh.length ≤ LOGSIZE

/-- No commit has reached the disk's header: the home blocks are those of `base`, the
writes of the open group are in pinned buffers. -/
structure Collecting (base : Nat → Bytes) (s : State) : Prop where
  head : readHead (s.disk s.start) = []
  disk : ∀ b, s.Home b → s.disk b = base b
  cache : ∀ b, s.Home b → s.cache b = applyWrites base (s.pending.map Write.store) b
  logged : ∀ w ∈ s.pending, w.block ∈ s.lh
  pinned : s.pinned = s.lh

/-- The log blocks of the state, counted from 0. -/
def State.logBlock (s : State) (j : Nat) : Bytes := s.disk (s.start + j + 1)

/-- The header is on disk and `tail` blocks are installed. -/
structure Installing (base : Nat → Bytes) (s : State) (tail : Nat) : Prop where
  head : readHead (s.disk s.start) = s.lh
  redo : Redo s.Home s.logBlock s.disk base s.lh
  installed : Installed s.disk base s.lh tail
  pending : s.pending = []

def PhaseInv (base : Nat → Bytes) (s : State) : Prop :=
  match s.phase with
  | .running => Collecting base s
  | .writeLog tail => Collecting base s ∧ ∀ j b, j < tail → s.lh[j]? = some b →
    s.logBlock j = applyWrites base (s.pending.map Write.store) b
  | .install tail => Installing base s tail ∧ s.pinned = s.lh.drop tail ∧
    ∀ b, s.Home b → s.cache b = base b
  | .finish => Collecting base s ∧ s.lh = [] ∧ s.pending = []
  | .boot => s.cache = s.disk ∧ s.pinned = [] ∧ s.pending = [] ∧
    (readHead (s.disk s.start)).length ≤ s.size - 1 ∧
    (readHead (s.disk s.start)).length ≤ LOGSIZE ∧
    (∀ b ∈ readHead (s.disk s.start), b < 2^32) ∧
    Redo s.Home s.logBlock s.disk base (readHead (s.disk s.start))
  | .recover tail => Installing base s tail ∧ s.cache = s.disk ∧ s.pinned = []

/-- The phases in which `log.committing` is set. -/
def Phase.inCommit : Phase → Bool
  | .writeLog _ | .install _ | .finish => true
  | _ => false

structure Inv (disk0 : Nat → Bytes) (s : State) : Prop where
  layout : Layout s
  counted : s.outstanding = s.active.length
  committing : s.committing = s.phase.inCommit
  quiet : s.phase ≠ .running → s.active = []
  phase : PhaseInv (afterGroups disk0 s.groups) s

/-- A log_write in progress is that of a running operation, with a block outside the log. -/
def Calling (s : State) : Prop :=
  ∀ op c, s.calls op = some c → op ∈ s.active ∧ s.Home c.block ∧ c.block < 2^32

section Calls

variable {s t : State}

theorem Calling.keep (h : Calling s) (hc : t.calls = s.calls) (ha : ∀ op ∈ s.active, op ∈ t.active)
    (hstart : t.start = s.start) (hsize : t.size = s.size) : Calling t := by
  intro op c hop
  rw [hc] at hop
  obtain ⟨hact, hhome, h32⟩ := h op c hop
  refine ⟨ha op hact, ?_, h32⟩
  unfold State.Home at hhome ⊢
  rwa [hstart, hsize]

/-- The call of operation `op` changes. -/
theorem Calling.update (h : Calling s) (op : Nat) (r : Option Call)
    (hr : ∀ c, r = some c → op ∈ s.active ∧ s.Home c.block ∧ c.block < 2^32)
    (hc : t.calls = Function.update s.calls op r) (ha : t.active = s.active)
    (hstart : t.start = s.start) (hsize : t.size = s.size) : Calling t := by
  intro o c ho
  have hold : o ∈ s.active ∧ s.Home c.block ∧ c.block < 2^32 := by
    rw [hc] at ho
    by_cases hop : o = op
    · rw [hop, Function.update_self] at ho
      rw [hop]
      exact hr c ho
    · rw [Function.update_of_ne hop] at ho
      exact h o c ho
  unfold State.Home at hold ⊢
  rwa [ha, hstart, hsize]

/-- What log_write does on the way: it passes a test or appends. -/
theorem advance_cases {op : Nat} {c : Call} (ht : advance s op c = some t) :
    (∃ stage, t = s.atStage op c stage) ∨ (c.stage = .append ∧ t = append s op c) := by
  unfold advance at ht
  cases hstage : c.stage with
  | append =>
    simp only [hstage, Option.some.injEq] at ht
    exact Or.inr ⟨rfl, ht.symm⟩
  | logsize | size | outstanding =>
    simp only [hstage] at ht
    split_ifs at ht
    cases ht
    exact Or.inl ⟨_, rfl⟩

theorem adds_iff {op : Nat} {c : Call} (hc : s.calls op = some c) :
    adds s (.logNext op) = true ↔ c.stage = .append ∧ c.block ∉ s.lh := by
  simp [adds, hc]

theorem step_calling (h : Calling s) (e : Event) (ht : step s e = some t) : Calling t := by
  cases e with
  | beginOp =>
    simp only [step] at ht
    unfold beginOp at ht
    split_ifs at ht
    cases ht
    exact h.keep rfl (fun _ => List.mem_cons_of_mem _) rfl rfl
  | logWrite op b data =>
    simp only [step] at ht
    split_ifs at ht with hop
    unfold logWrite at ht
    split_ifs at ht
    cases ht
    refine h.update op (some ⟨b, data, .logsize⟩) ?_ rfl rfl rfl rfl
    intro c hc
    cases hc
    exact hop
  | logNext op =>
    obtain ⟨c, hc, ht⟩ := Option.bind_eq_some_iff.mp ht
    rcases advance_cases ht with ⟨stage, rfl⟩ | ⟨-, rfl⟩
    · refine h.update op (some { c with stage := stage }) ?_ rfl rfl rfl rfl
      intro c' hc'
      cases hc'
      exact h op c hc
    · exact h.update op none (fun c' hc' => by cases hc') rfl rfl rfl rfl
  | endOp op =>
    simp only [step] at ht
    split_ifs at ht with hop
    have hkeep (o : Nat) (c : Call) (ho : s.calls o = some c) : o ∈ s.active.erase op := by
      have hne : o ≠ op := by
        rintro rfl
        rw [ho] at hop
        cases hop.2
      exact (List.mem_erase_of_ne hne).mpr (h o c ho).1
    unfold endOp at ht
    split_ifs at ht <;> cases ht <;>
      exact fun o c ho => ⟨hkeep o c ho, (h o c ho).2⟩
  | next =>
    simp only [step] at ht
    unfold next at ht
    split at ht
    · cases ht
    all_goals
      first
      | split at ht <;> cases ht <;> exact h.keep rfl (fun _ => id) rfl rfl
      | cases ht; exact h.keep rfl (fun _ => id) rfl rfl
  | evict b =>
    simp only [step] at ht
    split_ifs at ht
    cases ht
    exact h.keep rfl (fun _ => id) rfl rfl
  | crash =>
    cases ht
    intro op c hc
    cases hc

end Calls

section Steps

variable {disk0 : Nat → Bytes} {s t : State}

theorem Layout.start_not_home (h : Layout s) : ¬s.Home s.start := by
  have := h.size_pos
  unfold State.Home
  omega

theorem Layout.log_not_home (h : Layout s) (j : Nat) (hj : j < s.lh.length) :
    ¬s.Home (s.start + j + 1) := by
  have := h.fits.1
  unfold State.Home
  omega

theorem Layout.emptied (h : Layout s) : Layout { s with lh := [] } := by
  refine ⟨h.size_pos, h.logCache, ?_, ⟨Nat.zero_le _, Nat.zero_le _⟩⟩
  intro b hb
  cases hb

theorem bwrite_logCache (h : Layout s) (b : Nat) (d : Bytes) (c : Nat) (hc : ¬s.Home c) :
    (s.bwrite b d).cache c = (s.bwrite b d).disk c := by
  rw [bwrite_cache, bwrite_disk]
  by_cases hcb : c = b
  · rw [hcb, Function.update_self, Function.update_self]
  · rw [Function.update_of_ne hcb, Function.update_of_ne hcb, h.logCache c hc]

/-- Installing the block `tail` of the log, as commit and recovery do. -/
theorem Installing.next {base : Nat → Bytes} {tail b : Nat} (h : Installing base s tail)
    (hl : Layout s) (hb : s.lh[tail]? = some b) (u : State)
    (hu : u.disk = (s.installBlock tail b).disk) (hstart : u.start = s.start)
    (hsize : u.size = s.size) (hlh : u.lh = s.lh) (hp : u.pending = s.pending) :
    Installing base u (tail+1) := by
  have hmem := List.mem_of_getElem? hb
  have hhome := (hl.home b hmem).1
  have htail : tail < s.lh.length := (List.getElem?_eq_some_iff.mp hb).1
  have hcopy : s.cache (s.start + tail + 1) = s.logBlock tail :=
    hl.logCache _ (hl.log_not_home tail htail)
  have hdisk : u.disk = Function.update s.disk b (s.logBlock tail) := by
    rw [hu, State.installBlock, bwrite_disk, hcopy]
  have hhead : u.disk u.start = s.disk s.start := by
    have hne : s.start ≠ b := fun he => hl.start_not_home (he ▸ hhome)
    rw [hdisk, hstart, Function.update_of_ne hne]
  have hblock (j : Nat) (hj : j < s.lh.length) : u.logBlock j = s.logBlock j := by
    have hne : s.start + j + 1 ≠ b := fun he => hl.log_not_home j hj (he ▸ hhome)
    rw [State.logBlock, hdisk, hstart, Function.update_of_ne hne]
    rfl
  have hHome : u.Home = s.Home := by
    funext c
    simp only [State.Home, hstart, hsize]
  refine ⟨?_, ?_, ?_, by rw [hp, h.pending]⟩
  · rw [hhead, hlh, h.head]
  · rw [hHome, hlh, hdisk]
    refine ⟨h.redo.inside, ?_, (h.redo.install tail b hb).rest⟩
    intro j c hj
    rw [hblock j (List.getElem?_eq_some_iff.mp hj).1]
    exact h.redo.copies j c hj
  · rw [hlh, hdisk]
    exact Installed.succ h.redo tail b h.installed hb

/-- Every block of the log is installed: the home blocks are those of `base`. -/
theorem Installing.done {base : Nat → Bytes} {tail : Nat} (h : Installing base s tail)
    (hn : s.lh[tail]? = none) (b : Nat) (hb : s.Home b) : s.disk b = base b := by
  have hlen := List.getElem?_eq_none_iff.mp hn
  apply h.redo.eq_of_installed _ b hb
  intro c hc
  apply h.installed
  rw [List.take_of_length_le hlen]
  rwa [List.take_length] at hc

/-- Clearing the header ends a commit or a recovery. -/
theorem collecting_of_clear {base : Nat → Bytes} (hl : Layout s) (hp : s.pending = [])
    (hpin : s.pinned = []) (hdisk : ∀ b, s.Home b → s.disk b = base b)
    (hcache : ∀ b, s.Home b → s.cache b = base b) :
    Collecting base (State.writeHead { s with lh := [] }) := by
  have hne (b : Nat) (hb : s.Home b) : b ≠ s.start := fun he => hl.start_not_home (he ▸ hb)
  refine ⟨?_, ?_, ?_, ?_, hpin⟩
  · simp only [State.writeHead, bwrite_disk, bwrite_start, Function.update_self]
    exact readHead_nil _
  · intro b hb
    simp only [State.writeHead, bwrite_disk, Function.update_of_ne (hne b hb)]
    exact hdisk b hb
  · intro b hb
    simp only [State.writeHead, State.bwrite, hp, Function.update_of_ne (hne b hb)]
    exact hcache b hb
  · intro w hw
    simp only [State.writeHead, State.bwrite, hp] at hw
    cases hw

theorem afterGroups_concat (groups : List (List Write)) (g : List Write) :
    afterGroups disk0 (groups ++ [g]) =
      applyWrites (afterGroups disk0 groups) (g.map Write.store) := by
  simp only [afterGroups, applyWrites, List.flatten_append, List.flatten_cons, List.flatten_nil,
    List.append_nil, List.map_append, List.foldl_append]

theorem Inv.running_of_active (h : Inv disk0 s) (op : Nat) (hop : op ∈ s.active) :
    s.phase = .running := by
  by_contra hn
  rw [h.quiet hn] at hop
  cases hop

theorem beginOp_inv (h : Inv disk0 s) (ht : beginOp s = some t) : Inv disk0 t := by
  unfold beginOp at ht
  split_ifs at ht with h1 h2
  cases ht
  -- not recovering and not committing
  have hrun : s.phase = .running := by
    have hc := h.committing
    simp only [not_or] at h2
    rw [Bool.not_eq_true] at h1 h2
    rw [h2.1] at hc
    cases hs : s.phase <;> simp [hs, Phase.recovering, Phase.inCommit] at h1 hc ⊢
  have hph := h.phase
  simp only [PhaseInv, hrun] at hph
  refine ⟨⟨h.layout.size_pos, h.layout.logCache, h.layout.home, h.layout.fits⟩, ?_,
    h.committing, fun hn => absurd hrun hn, ?_⟩
  · simp only [List.length_cons, h.counted]
  · simp only [PhaseInv, hrun]
    exact ⟨hph.head, hph.disk, hph.cache, hph.logged, hph.pinned⟩

/-- A step that only moves a log_write on. -/
theorem calls_inv (h : Inv disk0 s) (calls : Nat → Option Call) :
    Inv disk0 { s with calls := calls } := by
  have hph := h.phase
  refine ⟨⟨h.layout.size_pos, h.layout.logCache, h.layout.home, h.layout.fits⟩, h.counted,
    h.committing, h.quiet, ?_⟩
  unfold PhaseInv at hph ⊢
  cases hs : s.phase <;> simp only [hs] at hph ⊢
  case running => exact ⟨hph.head, hph.disk, hph.cache, hph.logged, hph.pinned⟩
  case writeLog => exact ⟨⟨hph.1.head, hph.1.disk, hph.1.cache, hph.1.logged, hph.1.pinned⟩, hph.2⟩
  case install => exact ⟨⟨hph.1.head, hph.1.redo, hph.1.installed, hph.1.pending⟩, hph.2⟩
  case finish => exact ⟨⟨hph.1.head, hph.1.disk, hph.1.cache, hph.1.logged, hph.1.pinned⟩, hph.2⟩
  case boot => exact hph
  case recover => exact ⟨⟨hph.1.head, hph.1.redo, hph.1.installed, hph.1.pending⟩, hph.2⟩

theorem append_inv (h : Inv disk0 s) (op : Nat) (c : Call) (hop : op ∈ s.active)
    (hb : s.Home c.block) (h32 : c.block < 2^32)
    (hfits : c.block ∉ s.lh → s.lh.length < LOGSIZE ∧ s.lh.length < s.size - 1) :
    Inv disk0 (append s op c) := by
  obtain ⟨b, data, stage⟩ := c
  simp only at hb h32 hfits
  unfold append
  simp only
  have hrun := h.running_of_active op hop
  have hph := h.phase
  simp only [PhaseInv, hrun] at hph
  -- the header before and after: absorbed or appended
  have hlh (c : Nat) : c ∈ (if b ∈ s.lh then s.lh else s.lh ++ [b]) ↔ c ∈ s.lh ∨ c = b := by
    split_ifs with hm
    · constructor
      · exact Or.inl
      · rintro (hc | rfl)
        · exact hc
        · exact hm
    · simp only [List.mem_append, List.mem_singleton]
  have hlen : (if b ∈ s.lh then s.lh else s.lh ++ [b]).length ≤ s.size - 1 ∧
      (if b ∈ s.lh then s.lh else s.lh ++ [b]).length ≤ LOGSIZE := by
    split_ifs with hm
    · exact h.layout.fits
    · obtain ⟨hgroup, hlog⟩ := hfits hm
      rw [List.length_append, List.length_singleton]
      exact ⟨hlog, hgroup⟩
  refine ⟨⟨h.layout.size_pos, ?_, ?_, ?_⟩, h.counted, h.committing, fun hn => absurd hrun hn, ?_⟩
  · intro c hc
    have hne : c ≠ b := fun he => hc (he ▸ hb)
    simp only [Function.update_of_ne hne]
    exact h.layout.logCache c hc
  · intro c hc
    rcases (hlh c).mp hc with hc | rfl
    · exact h.layout.home c hc
    · exact ⟨hb, h32⟩
  · exact hlen
  · simp only [PhaseInv, hrun]
    refine ⟨hph.head, hph.disk, ?_, ?_, ?_⟩
    · intro c hc
      simp only [List.map_append, List.map_cons, List.map_nil, applyWrites_concat, Write.store]
      by_cases hcb : c = b
      · rw [hcb, Function.update_self, Function.update_self]
      · rw [Function.update_of_ne hcb, Function.update_of_ne hcb]
        exact hph.cache c hc
    · intro w hw
      simp only [List.mem_append, List.mem_singleton] at hw
      apply (hlh w.block).mpr
      rcases hw with hw | rfl
      · exact Or.inl (hph.logged w hw)
      · exact Or.inr rfl
    · simp only [hph.pinned]

theorem endOp_inv (h : Inv disk0 s) (op : Nat) (hop : op ∈ s.active)
    (ht : endOp s op = some t) : Inv disk0 t := by
  have hrun := h.running_of_active op hop
  have hph := h.phase
  simp only [PhaseInv, hrun] at hph
  have hcount : s.outstanding - 1 = (s.active.erase op).length := by
    rw [h.counted, List.length_erase_of_mem hop]
  unfold endOp at ht
  split_ifs at ht with h1 h2 h3
  · -- the last operation, with blocks to commit
    cases ht
    refine ⟨⟨h.layout.size_pos, h.layout.logCache, h.layout.home, h.layout.fits⟩, hcount, rfl,
      fun _ => List.eq_nil_of_length_eq_zero (hcount ▸ h2), ?_⟩
    refine ⟨⟨hph.head, hph.disk, hph.cache, hph.logged, hph.pinned⟩, ?_⟩
    intro j b hj
    exact absurd hj (Nat.not_lt_zero j)
  · -- the last operation, nothing logged
    cases ht
    have hlh : s.lh = [] := List.eq_nil_of_length_eq_zero (by omega)
    have hpend : s.pending = [] := by
      apply List.eq_nil_iff_forall_not_mem.mpr
      intro w hw
      have := hph.logged w hw
      rw [hlh] at this
      cases this
    refine ⟨⟨h.layout.size_pos, h.layout.logCache, h.layout.home, h.layout.fits⟩, hcount, rfl,
      fun _ => List.eq_nil_of_length_eq_zero (hcount ▸ h2), ?_⟩
    exact ⟨⟨hph.head, hph.disk, hph.cache, hph.logged, hph.pinned⟩, hlh, hpend⟩
  · cases ht
    refine ⟨⟨h.layout.size_pos, h.layout.logCache, h.layout.home, h.layout.fits⟩, hcount,
      h.committing, fun hn => absurd hrun hn, ?_⟩
    simp only [PhaseInv, hrun]
    exact ⟨hph.head, hph.disk, hph.cache, hph.logged, hph.pinned⟩

/-- One block of write_log. -/
theorem writeLog_block_inv (h : Inv disk0 s) (tail b : Nat) (hs : s.phase = .writeLog tail)
    (hb : s.lh[tail]? = some b) :
    Inv disk0 { s.bwrite (s.start + tail + 1) (s.cache b) with phase := .writeLog (tail+1) } := by
  have hph := h.phase
  simp only [PhaseInv, hs] at hph
  obtain ⟨hc, hlog⟩ := hph
  have htail : tail < s.lh.length := (List.getElem?_eq_some_iff.mp hb).1
  have hnh := h.layout.log_not_home tail htail
  have hquiet := h.quiet (by rw [hs]; simp)
  have hcomm := h.committing
  rw [hs] at hcomm
  refine ⟨⟨h.layout.size_pos, bwrite_logCache h.layout _ _, h.layout.home, h.layout.fits⟩,
    h.counted, hcomm, fun _ => hquiet, ?_⟩
  have hne (c : Nat) (hch : s.Home c) : c ≠ s.start + tail + 1 := fun he => hnh (he ▸ hch)
  refine ⟨⟨?_, ?_, ?_, hc.logged, hc.pinned⟩, ?_⟩
  · have hst : s.start ≠ s.start + tail + 1 := by omega
    simp only [bwrite_disk, bwrite_start, Function.update_of_ne hst]
    exact hc.head
  · intro c hch
    simp only [bwrite_disk, Function.update_of_ne (hne c hch)]
    exact hc.disk c hch
  · intro c hch
    simp only [bwrite_cache, Function.update_of_ne (hne c hch)]
    exact hc.cache c hch
  · intro j c hj hjc
    by_cases hjt : j = tail
    · subst hjt
      have hcb : c = b := by
        rw [bwrite_lh, hb] at hjc
        exact (Option.some.inj hjc).symm
      simp only [State.logBlock, bwrite_disk, bwrite_start, Function.update_self, hcb]
      exact hc.cache b (h.layout.home b (List.mem_of_getElem? hb)).1
    · have hst : s.start + j + 1 ≠ s.start + tail + 1 := by omega
      simp only [State.logBlock, bwrite_disk, bwrite_start, Function.update_of_ne hst]
      exact hlog j c (by omega) hjc

/-- The first write_head: the commit point. -/
theorem writeHead_inv (h : Inv disk0 s) (tail : Nat) (hs : s.phase = .writeLog tail)
    (hn : s.lh[tail]? = none) :
    Inv disk0 { s.writeHead with
      phase := .install 0
      groups := s.groups ++ [s.pending]
      pending := [] } := by
  have hph := h.phase
  simp only [PhaseInv, hs] at hph
  obtain ⟨hc, hlog⟩ := hph
  have hlen := List.getElem?_eq_none_iff.mp hn
  have hquiet := h.quiet (by rw [hs]; simp)
  have hcomm := h.committing
  rw [hs] at hcomm
  have hne (c : Nat) (hch : s.Home c) : c ≠ s.start :=
    fun he => h.layout.start_not_home (he ▸ hch)
  have hhead : readHead (headBlock (s.cache s.start) s.lh) = s.lh := by
    apply readHead_headBlock _ _ (fun b hb => (h.layout.home b hb).2)
    have := h.layout.fits.2
    simp only [LOGSIZE, MAXOPBLOCKS] at this
    omega
  have hblock (j : Nat) : (s.writeHead).logBlock j = s.logBlock j := by
    have hst : s.start + j + 1 ≠ s.start := by omega
    simp only [State.logBlock, State.writeHead, bwrite_disk, bwrite_start,
      Function.update_of_ne hst]
  refine ⟨⟨h.layout.size_pos, bwrite_logCache h.layout _ _, h.layout.home, h.layout.fits⟩,
    h.counted, hcomm, fun _ => hquiet, ?_⟩
  simp only [PhaseInv, afterGroups_concat]
  refine ⟨⟨?_, ?_, Installed.zero, rfl⟩, hc.pinned, ?_⟩
  · simp only [State.writeHead, bwrite_disk, bwrite_start, bwrite_lh, Function.update_self]
    exact hhead
  · -- the home blocks are still the old ones, the new ones are in the log
    apply Redo.commit
    · intro b hb
      simp only [State.writeHead, bwrite_disk, Function.update_of_ne (hne b hb)]
      exact hc.disk b hb
    · intro b hb
      exact (h.layout.home b hb).1
    · intro w hw
      obtain ⟨v, hv, rfl⟩ := List.mem_map.mp hw
      exact hc.logged v hv
    · intro j b hj
      change (s.writeHead).logBlock j = _
      rw [hblock]
      have hjl : j < s.lh.length := (List.getElem?_eq_some_iff.mp hj).1
      exact hlog j b (by omega) hj
  · intro b hb
    simp only [State.writeHead, bwrite_cache, Function.update_of_ne (hne b hb)]
    exact hc.cache b hb

/-- One block of install_trans(0). -/
theorem install_block_inv (h : Inv disk0 s) (tail b : Nat) (hs : s.phase = .install tail)
    (hb : s.lh[tail]? = some b) :
    Inv disk0 { s.installBlock tail b with
      pinned := s.pinned.erase b
      phase := .install (tail+1) } := by
  have hph := h.phase
  simp only [PhaseInv, hs] at hph
  obtain ⟨hi, hpin, hcache⟩ := hph
  have hquiet := h.quiet (by rw [hs]; simp)
  have hcomm := h.committing
  rw [hs] at hcomm
  have htail : tail < s.lh.length := (List.getElem?_eq_some_iff.mp hb).1
  have hget : s.lh[tail] = b := (List.getElem?_eq_some_iff.mp hb).2
  refine ⟨⟨h.layout.size_pos, bwrite_logCache h.layout _ _, h.layout.home, h.layout.fits⟩,
    h.counted, hcomm, fun _ => hquiet, ?_⟩
  simp only [PhaseInv]
  refine ⟨hi.next h.layout hb _ rfl rfl rfl rfl rfl, ?_, ?_⟩
  · simp only [State.installBlock, bwrite_lh, hpin]
    rw [List.drop_eq_getElem_cons htail, hget, List.erase_cons_head]
  · intro c hc
    simp only [State.installBlock, bwrite_cache]
    by_cases hcb : c = b
    · rw [hcb, Function.update_self, h.layout.logCache _ (h.layout.log_not_home tail htail)]
      exact hi.redo.copies tail b hb
    · rw [Function.update_of_ne hcb]
      exact hcache c hc

/-- The second write_head of commit. -/
theorem clear_inv (h : Inv disk0 s) (tail : Nat) (hs : s.phase = .install tail)
    (hn : s.lh[tail]? = none) :
    Inv disk0 { State.writeHead { s with lh := [] } with
      phase := .finish
      returned := s.returned ++ [s.groups.getLastD []] } := by
  have hph := h.phase
  simp only [PhaseInv, hs] at hph
  obtain ⟨hi, hpin, hcache⟩ := hph
  have hquiet := h.quiet (by rw [hs]; simp)
  have hcomm := h.committing
  rw [hs] at hcomm
  have hlen := List.getElem?_eq_none_iff.mp hn
  have hl := h.layout.emptied
  refine ⟨⟨h.layout.size_pos, bwrite_logCache hl _ _, hl.home, hl.fits⟩, h.counted, hcomm,
    fun _ => hquiet, ?_⟩
  have hunpinned : s.pinned = [] := hpin.trans (List.drop_eq_nil_of_le hlen)
  have hc := collecting_of_clear h.layout hi.pending hunpinned (hi.done hn) hcache
  exact ⟨⟨hc.head, hc.disk, hc.cache, hc.logged, hc.pinned⟩, rfl, hi.pending⟩

theorem recover_block_inv (h : Inv disk0 s) (tail b : Nat) (hs : s.phase = .recover tail)
    (hb : s.lh[tail]? = some b) :
    Inv disk0 { s.installBlock tail b with phase := .recover (tail+1) } := by
  have hph := h.phase
  simp only [PhaseInv, hs] at hph
  obtain ⟨hi, hcache, hpin⟩ := hph
  have hquiet := h.quiet (by rw [hs]; simp)
  have hcomm := h.committing
  rw [hs] at hcomm
  refine ⟨⟨h.layout.size_pos, bwrite_logCache h.layout _ _, h.layout.home, h.layout.fits⟩,
    h.counted, hcomm, fun _ => hquiet, ?_⟩
  simp only [PhaseInv]
  refine ⟨hi.next h.layout hb _ rfl rfl rfl rfl rfl, ?_, hpin⟩
  simp only [State.installBlock, bwrite_cache, bwrite_disk, hcache]

/-- The write_head that ends recovery. -/
theorem recover_clear_inv (h : Inv disk0 s) (tail : Nat) (hs : s.phase = .recover tail)
    (hn : s.lh[tail]? = none) :
    Inv disk0 { State.writeHead { s with lh := [] } with phase := .running } := by
  have hph := h.phase
  simp only [PhaseInv, hs] at hph
  obtain ⟨hi, hcache, hpin⟩ := hph
  have hcomm := h.committing
  rw [hs] at hcomm
  have hl := h.layout.emptied
  refine ⟨⟨h.layout.size_pos, bwrite_logCache hl _ _, hl.home, hl.fits⟩, h.counted, hcomm,
    fun hr => absurd rfl hr, ?_⟩
  have hc := collecting_of_clear h.layout hi.pending hpin (hi.done hn)
    (fun b hb => by rw [hcache]; exact hi.done hn b hb)
  exact ⟨hc.head, hc.disk, hc.cache, hc.logged, hc.pinned⟩

theorem next_inv (h : Inv disk0 s) (ht : next s = some t) : Inv disk0 t := by
  unfold next at ht
  cases hs : s.phase with
  | running => simp [hs] at ht
  | writeLog tail =>
    simp only [hs] at ht
    cases hb : s.lh[tail]? with
    | some b =>
      simp only [hb, Option.some.injEq] at ht
      exact ht ▸ writeLog_block_inv h tail b hs hb
    | none =>
      simp only [hb, Option.some.injEq] at ht
      exact ht ▸ writeHead_inv h tail hs hb
  | install tail =>
    simp only [hs] at ht
    cases hb : s.lh[tail]? with
    | some b =>
      simp only [hb, Option.some.injEq] at ht
      exact ht ▸ install_block_inv h tail b hs hb
    | none =>
      simp only [hb, Option.some.injEq] at ht
      exact ht ▸ clear_inv h tail hs hb
  | finish =>
    simp only [hs, Option.some.injEq] at ht
    subst ht
    have hph := h.phase
    simp only [PhaseInv, hs] at hph
    exact ⟨⟨h.layout.size_pos, h.layout.logCache, h.layout.home, h.layout.fits⟩, h.counted, rfl,
      fun hr => absurd rfl hr, hph.1.head, hph.1.disk, hph.1.cache, hph.1.logged, hph.1.pinned⟩
  | boot =>
    simp only [hs, Option.some.injEq] at ht
    subst ht
    have hph := h.phase
    simp only [PhaseInv, hs] at hph
    obtain ⟨hcache, hpin, hpend, hf1, hf2, h32, hredo⟩ := hph
    have hquiet := h.quiet (by rw [hs]; simp)
    have hcomm := h.committing
    rw [hs] at hcomm
    rw [hcache]
    refine ⟨⟨h.layout.size_pos, ?_, ?_, hf1, hf2⟩, h.counted, hcomm, fun _ => hquiet, ?_⟩
    · intro b _
      rfl
    · intro b hb
      exact ⟨hredo.inside b hb, h32 b hb⟩
    · exact ⟨⟨rfl, hredo, Installed.zero, hpend⟩, rfl, hpin⟩
  | recover tail =>
    simp only [hs] at ht
    cases hb : s.lh[tail]? with
    | some b =>
      simp only [hb, Option.some.injEq] at ht
      exact ht ▸ recover_block_inv h tail b hs hb
    | none =>
      simp only [hb, Option.some.injEq] at ht
      exact ht ▸ recover_clear_inv h tail hs hb

/-- A recycled buffer is read back with the data it had. -/
theorem evict_inv (h : Inv disk0 s) (b : Nat) (hb : b ∉ s.pinned) :
    Inv disk0 { s with cache := Function.update s.cache b (s.disk b) } := by
  have hsame : Function.update s.cache b (s.disk b) = s.cache := by
    rw [Function.update_eq_self_iff]
    by_cases hhome : s.Home b
    · have hph := h.phase
      -- an unpinned home block has no logged write
      have hclean (hc : Collecting (afterGroups disk0 s.groups) s) : s.disk b = s.cache b := by
        rw [hc.disk b hhome, hc.cache b hhome, applyWrites_of_not_mem]
        intro w hw he
        obtain ⟨v, hv, rfl⟩ := List.mem_map.mp hw
        rw [hc.pinned] at hb
        exact hb (he ▸ hc.logged v hv)
      unfold PhaseInv at hph
      cases hs : s.phase with
      | running =>
        simp only [hs] at hph
        exact hclean hph
      | writeLog tail =>
        simp only [hs] at hph
        exact hclean hph.1
      | install tail =>
        simp only [hs] at hph
        obtain ⟨hi, hpin, hcache⟩ := hph
        rw [hcache b hhome]
        by_cases hm : b ∈ s.lh
        · apply hi.installed
          rw [← List.take_append_drop tail s.lh, List.mem_append] at hm
          rcases hm with hm | hm
          · exact hm
          · exact absurd (hpin ▸ hm) hb
        · exact hi.redo.rest b hhome hm
      | finish =>
        simp only [hs] at hph
        exact hclean hph.1
      | boot =>
        simp only [hs] at hph
        rw [hph.1]
      | recover tail =>
        simp only [hs] at hph
        rw [hph.2.1]
    · exact (h.layout.logCache b hhome).symm
  rw [hsame]
  exact h

/-- Whatever the phase, the disk alone determines the committed state. -/
theorem Inv.recoverable (h : Inv disk0 s) :
    (readHead (s.disk s.start)).length ≤ s.size - 1 ∧
    (readHead (s.disk s.start)).length ≤ LOGSIZE ∧
    (∀ b ∈ readHead (s.disk s.start), b < 2^32) ∧
    Redo s.Home s.logBlock s.disk (afterGroups disk0 s.groups) (readHead (s.disk s.start)) := by
  have hempty (hc : Collecting (afterGroups disk0 s.groups) s) :
      (readHead (s.disk s.start)).length ≤ s.size - 1 ∧
      (readHead (s.disk s.start)).length ≤ LOGSIZE ∧
      (∀ b ∈ readHead (s.disk s.start), b < 2^32) ∧
      Redo s.Home s.logBlock s.disk (afterGroups disk0 s.groups)
        (readHead (s.disk s.start)) := by
    rw [hc.head]
    refine ⟨Nat.zero_le _, Nat.zero_le _, ?_, Redo.of_eq hc.disk⟩
    intro b hb
    cases hb
  have hfull (tail : Nat) (hi : Installing (afterGroups disk0 s.groups) s tail) :
      (readHead (s.disk s.start)).length ≤ s.size - 1 ∧
      (readHead (s.disk s.start)).length ≤ LOGSIZE ∧
      (∀ b ∈ readHead (s.disk s.start), b < 2^32) ∧
      Redo s.Home s.logBlock s.disk (afterGroups disk0 s.groups)
        (readHead (s.disk s.start)) := by
    rw [hi.head]
    exact ⟨h.layout.fits.1, h.layout.fits.2, fun b hb => (h.layout.home b hb).2, hi.redo⟩
  have hph := h.phase
  unfold PhaseInv at hph
  cases hs : s.phase with
  | running =>
    simp only [hs] at hph
    exact hempty hph
  | writeLog tail =>
    simp only [hs] at hph
    exact hempty hph.1
  | install tail =>
    simp only [hs] at hph
    exact hfull tail hph.1
  | finish =>
    simp only [hs] at hph
    exact hempty hph.1
  | boot =>
    simp only [hs] at hph
    exact hph.2.2.2
  | recover tail =>
    simp only [hs] at hph
    exact hfull tail hph.1

theorem crash_inv (h : Inv disk0 s) : Inv disk0 (crash s) := by
  refine ⟨⟨h.layout.size_pos, fun _ _ => rfl, ?_, ⟨Nat.zero_le _, Nat.zero_le _⟩⟩, rfl, rfl,
    fun _ => rfl, rfl, rfl, rfl, h.recoverable⟩
  intro b hb
  cases hb

theorem step_inv (h : Inv disk0 s) (hcalls : Calling s) (e : Event) (hgroup : GroupFits s e)
    (hlog : LogFits s e) (ht : step s e = some t) : Inv disk0 t := by
  cases e with
  | beginOp => exact beginOp_inv h ht
  | logWrite op b data =>
    simp only [step] at ht
    unfold logWrite at ht
    split_ifs at ht
    cases ht
    exact calls_inv h _
  | logNext op =>
    obtain ⟨c, hc, ht⟩ := Option.bind_eq_some_iff.mp ht
    obtain ⟨hop, hb, h32⟩ := hcalls op c hc
    rcases advance_cases ht with ⟨stage, rfl⟩ | ⟨hstage, rfl⟩
    · exact calls_inv h _
    · apply append_inv h op c hop hb h32
      intro hnew
      have hadds := (adds_iff hc).mpr ⟨hstage, hnew⟩
      exact ⟨hgroup hadds, hlog hadds⟩
  | endOp op =>
    simp only [step] at ht
    split_ifs at ht with hop
    exact endOp_inv h op hop.1 ht
  | next => exact next_inv h ht
  | evict b =>
    simp only [step] at ht
    split_ifs at ht with hb
    cases ht
    exact evict_inv h b hb
  | crash =>
    simp only [step, Option.some.injEq] at ht
    exact ht ▸ crash_inv h

theorem boot_inv (start size : Nat) (hsize : 0 < size) (hlog : readHead (disk0 start) = []) :
    Inv disk0 (boot start size disk0) := by
  refine ⟨⟨hsize, fun _ _ => rfl, ?_, ⟨Nat.zero_le _, Nat.zero_le _⟩⟩, rfl, rfl, fun _ => rfl,
    rfl, rfl, rfl, ?_⟩
  · intro b hb
    cases hb
  · simp only [boot, hlog]
    refine ⟨Nat.zero_le _, Nat.zero_le _, ?_, Redo.of_eq (fun _ _ => rfl)⟩
    intro b hb
    cases hb

end Steps

end Xv6Labs.Log
