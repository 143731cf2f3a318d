import Xv6Labs.BcacheLru
import Xv6Labs.BioEqual

/-! locks/bio.c step by step, as one process runs it while no other one is in a call, does what
the calls on its table of buffers do. -/
namespace Xv6Labs.Bio
open Bcache (BUFMAP_HASH NBUFMAP_BUCKET Bucket Ptr Placed cells Scanning)

variable {B P : Nat} {D : Type}

/-- The locked cache between two calls of process `p`, and the table. Whether a buffer is valid is
for the holder of its sleep lock alone. -/
structure Shows (s : Bcache.State B P) (p : Fin P) (h : Hashed B D) : Prop where
  placed : Placed s h.bufmap
  tags : ∀ x, (s.buf (.buf x)).dev = (h.bufs.buf x).dev ∧
    (s.buf (.buf x)).blockno = (h.bufs.buf x).blockno
  refcnt : ∀ x, (s.buf (.buf x)).refcnt = (h.bufs.buf x).refcnt
  lastuse : ∀ x, (s.buf (.buf x)).lastuse = (h.bufs.buf x).lastuse
  sleep : ∀ x, s.sleep (.buf x) = if (h.bufs.buf x).locked then some p else none
  bucketLock : ∀ i, s.bucketLock i = none
  evictionLock : s.evictionLock = none
  idle : s.pc p = .idle

section Search

variable {s : Bcache.State B P} {h : Hashed B D} {p : Fin P}

theorem Shows.matches_eq (hs : Shows s p h) (dev blockno : UInt32) (x : Fin B) :
    s.Matches dev blockno (.buf x) = h.bufs.Matches dev blockno x := by
  unfold Bcache.State.Matches Bufs.Matches
  rw [(hs.tags x).1, (hs.tags x).2]

theorem Shows.cached_eq (hs : Shows s p h) (dev blockno : UInt32) :
    Bcache.cached s h.bufmap dev blockno =
      (h.bufmap (BUFMAP_HASH dev blockno)).find? (h.bufs.Matches dev blockno) := by
  unfold Bcache.cached
  congr 1
  funext x
  exact hs.matches_eq dev blockno x

/-- The cell before the candidate and the candidate. -/
def Agrees (s : Bcache.State B P) (cell : Option (Ptr B)) (least : Option (Bucket × Fin B)) :
    Prop :=
  cell.map s.next = least.map (fun l => .buf l.2)

/-- One bucket: what the loop over the cells finds is what the loop over the list finds. -/
theorem scanBucket_agrees (hs : Shows s p h) (i : Bucket) (fuel : Nat) (b : Ptr B)
    (l : List (Fin B)) (cell : Option (Ptr B)) (least : Option (Bucket × Fin B)) (found : Bool)
    (hl : Chain s.next .null (s.next b) (l.map .buf)) (hf : l.length < fuel)
    (hag : Agrees s cell least) :
    Agrees s (Bcache.scanBucket s fuel b cell found).1 (scanBucket h.bufs i l least) ∧
      (Bcache.scanBucket s fuel b cell found = (cell, found) ∧
          scanBucket h.bufs i l least = least ∨
        (Bcache.scanBucket s fuel b cell found).2 = true ∧
          ∃ x, scanBucket h.bufs i l least = some (i, x)) := by
  induction l generalizing fuel b cell least found with
  | nil =>
    have hb : s.next b = .null := hl
    cases fuel with
    | zero => exact absurd hf (Nat.not_lt_zero _)
    | succ m =>
      rw [Bcache.scanBucket, if_pos hb]
      exact ⟨hag, Or.inl ⟨rfl, rfl⟩⟩
  | cons x l ih =>
    obtain ⟨hb, -, hl⟩ := hl
    cases fuel with
    | zero => exact absurd hf (Nat.not_lt_zero _)
    | succ m =>
      have hlen : l.length < m := Nat.lt_of_succ_lt_succ hf
      have hold : (∀ c ∈ cell, (s.buf (.buf x)).lastuse < (s.buf (s.next c)).lastuse) ↔
          least.all (fun y => (h.bufs.buf x).lastuse < (h.bufs.buf y.2).lastuse) = true := by
        unfold Agrees at hag
        cases cell with
        | none =>
          cases least with
          | none => simp
          | some y => exact absurd hag (by simp)
        | some c =>
          cases least with
          | none => exact absurd hag (by simp)
          | some y =>
            have hc : s.next c = .buf y.2 := Option.some.inj hag
            simp [hc, hs.lastuse]
      have htest : ((s.buf (.buf x)).refcnt = 0 ∧
            ∀ c ∈ cell, (s.buf (.buf x)).lastuse < (s.buf (s.next c)).lastuse) ↔
          ((h.bufs.buf x).refcnt = 0 ∧
            least.all (fun y => (h.bufs.buf x).lastuse < (h.bufs.buf y.2).lastuse) = true) := by
        rw [hold, hs.refcnt x]
      rw [Bcache.scanBucket, hb, if_neg (by simp), scanBucket]
      by_cases hc : (h.bufs.buf x).refcnt = 0 ∧
          least.all (fun y => (h.bufs.buf x).lastuse < (h.bufs.buf y.2).lastuse) = true
      · rw [if_pos (htest.mpr hc), if_pos hc]
        have hnew : Agrees s (some b) (some (i, x)) := congrArg some hb
        obtain ⟨hag', hcase⟩ := ih m (.buf x) (some b) (some (i, x)) true hl hlen hnew
        refine ⟨hag', Or.inr ?_⟩
        rcases hcase with ⟨hsame, hbuf⟩ | hnext
        · exact ⟨congrArg Prod.snd hsame, x, hbuf⟩
        · exact hnext
      · rw [if_neg (fun hc' => hc (htest.mp hc')), if_neg hc]
        exact ih m (.buf x) cell least found hl hlen hag

/-- After a bucket, `holding` is the candidate's bucket. -/
def Found (s : Bcache.State B P) (r : Option (Ptr B) × Option Bucket)
    (least : Option (Bucket × Fin B)) : Prop :=
  Agrees s r.1 least ∧ r.2 = least.map Prod.fst

theorem pick_found (hs : Shows s p h) (i : Bucket) {r : Option (Ptr B) × Option Bucket}
    {least : Option (Bucket × Fin B)} (hr : Found s r least) :
    Found s (Bcache.pick s r i) (scanBucket h.bufs i (h.bufmap i) least) := by
  obtain ⟨-, -, hchain⟩ := hs.placed.chains i
  have hlen := hs.placed.chained.length_le i
  obtain ⟨hag, hcase⟩ := scanBucket_agrees hs i (B + 1) (.head i) (h.bufmap i) r.1 least false
    hchain (by omega) hr.1
  refine ⟨hag, ?_⟩
  unfold Bcache.pick
  rcases hcase with ⟨hsame, hbuf⟩ | ⟨hfound, x, hbuf⟩
  · rw [hsame, hbuf]
    exact hr.2
  · rw [hbuf]
    simp only [hfound, if_true, Option.map_some]

/-- The two searches find the same buffer. -/
theorem picks_found (hs : Shows s p h) (l : List Bucket) {r : Option (Ptr B) × Option Bucket}
    {least : Option (Bucket × Fin B)} (hr : Found s r least) :
    Found s (l.foldl (Bcache.pick s) r)
      (l.foldl (fun least i => scanBucket h.bufs i (h.bufmap i) least) least) := by
  induction l generalizing r least with
  | nil => exact hr
  | cons i l ih => exact ih (pick_found hs i hr)

end Search

section Calls

variable {s u : Bcache.State B P} {h t : Hashed B D} {p : Fin P} {dev blockno : UInt32} {x : Fin B}
  {bufmap : Bucket → List (Fin B)}

/-- After a call that has changed one buffer. -/
theorem Shows.set (hs : Shows s p h) (v : Buf D) (hplaced : Placed u bufmap)
    (hother : ∀ y, y ≠ x → u.buf (.buf y) = s.buf (.buf y))
    (hdev : (u.buf (.buf x)).dev = v.dev) (hblockno : (u.buf (.buf x)).blockno = v.blockno)
    (hrefcnt : (u.buf (.buf x)).refcnt = v.refcnt)
    (hlastuse : (u.buf (.buf x)).lastuse = v.lastuse)
    (hsleep : u.sleep = Function.update s.sleep (.buf x) (if v.locked then some p else none))
    (hlocks : ∀ i, u.bucketLock i = none) (hev : u.evictionLock = none) (hidle : u.pc p = .idle) :
    Shows u p ⟨h.bufs.set x v, bufmap⟩ := by
  refine ⟨hplaced, ?_, ?_, ?_, ?_, hlocks, hev, hidle⟩
  · intro y
    by_cases hy : y = x
    · rw [hy, set_buf]
      exact ⟨hdev, hblockno⟩
    · rw [set_buf_ne _ _ hy, hother y hy]
      exact hs.tags y
  · intro y
    by_cases hy : y = x
    · rw [hy, set_buf]
      exact hrefcnt
    · rw [set_buf_ne _ _ hy, hother y hy]
      exact hs.refcnt y
  · intro y
    by_cases hy : y = x
    · rw [hy, set_buf]
      exact hlastuse
    · rw [set_buf_ne _ _ hy, hother y hy]
      exact hs.lastuse y
  · intro y
    rw [hsleep]
    by_cases hy : y = x
    · rw [hy, set_buf, Function.update_self]
    · rw [set_buf_ne _ _ hy, Function.update_of_ne (fun he => hy (Ptr.buf.inj he))]
      exact hs.sleep y

theorem Shows.sleep_free (hs : Shows s p h) (hfree : (h.bufs.buf x).locked = false) :
    s.sleep (.buf x) = none := by
  rw [hs.sleep x, hfree]
  rfl

/-- bget finds the block in its bucket. -/
theorem hit_run (hs : Shows s p h)
    (hfind : (h.bufmap (BUFMAP_HASH dev blockno)).find? (h.bufs.Matches dev blockno) = some x)
    (hfree : (h.bufs.buf x).locked = false) :
    ∃ u, Bcache.step s (.bget p dev blockno) = some (s.goto p (.getAcquire dev blockno)) ∧
      run Bcache.step (s.goto p (.getAcquire dev blockno)) (List.replicate 3 (.advance p)) =
        some u ∧
      Shows u p ⟨h.bufs.set x
        { h.bufs.buf x with refcnt := (h.bufs.buf x).refcnt + 1, locked := true }, h.bufmap⟩ := by
  have hlook (w : Bcache.State B P) (hn : w.next = s.next) (hb : w.buf = s.buf) :
      Bcache.bucketLookup w dev blockno = some (.buf x) := by
    rw [Bcache.bucketLookup_eq hs.placed.chained w dev blockno hn hb, hs.cached_eq, hfind]
    rfl
  have hlocks : s.bucketLock = fun _ => none := funext hs.bucketLock
  have hsleep := hs.sleep_free hfree
  -- the buffer counts one more, and the process has its sleep lock
  let u : Bcache.State B P :=
    { s.setRefcnt (.buf x) ((s.buf (.buf x)).refcnt + 1) with
      sleep := Function.update s.sleep (.buf x) (some p)
      pc := Function.update s.pc p .idle }
  refine ⟨u, ?_, ?_, ?_⟩
  · simp only [Bcache.step, hs.idle, if_true]
  · have hacq : (s.goto p (.getAcquire dev blockno)).acquire p (BUFMAP_HASH dev blockno) =
        some ((s.goto p (.getAcquire dev blockno)).locked p (BUFMAP_HASH dev blockno)) := by
      rw [Bcache.State.acquire, if_pos (by exact hs.bucketLock _)]
      rfl
    have hsome := hlook ((s.goto p (.getAcquire dev blockno)).locked p
      (BUFMAP_HASH dev blockno)) rfl rfl
    have hpc : (s.goto p (.getAcquire dev blockno)).pc p = .getAcquire dev blockno :=
      Function.update_self _ _ _
    have h1 : Bcache.step (s.goto p (.getAcquire dev blockno)) (.advance p) = some
        (Bcache.State.goto ((s.locked p (BUFMAP_HASH dev blockno)).setRefcnt (.buf x)
          ((s.buf (.buf x)).refcnt + 1)) p (.getHit (BUFMAP_HASH dev blockno) (.buf x))) := by
      simp only [Bcache.step, Bcache.advance, hpc, hacq, Option.map_some, hsome]
      simp only [Bcache.State.goto, Bcache.State.locked, Bcache.State.setRefcnt,
        Function.update_idem]
    simp only [List.replicate, run, h1, Option.bind_some]
    simp only [Bcache.step, Bcache.advance, Bcache.State.goto, Bcache.State.release,
      Bcache.State.locked, Bcache.State.setRefcnt, Function.update_self, Function.update_idem,
      hlocks, Option.bind_some, hsleep, if_true, u]
    simp
  · refine hs.set _ ⟨hs.placed.chains, hs.placed.once⟩ ?_ ?_ ?_ ?_ ?_ ?_ hs.bucketLock
      hs.evictionLock (Function.update_self _ _ _)
    · intro y hy
      exact Function.update_of_ne (fun he => hy (Ptr.buf.inj he)) _ _
    · simp only [u, Bcache.State.setRefcnt, Function.update_self]
      exact (hs.tags x).1
    · simp only [u, Bcache.State.setRefcnt, Function.update_self]
      exact (hs.tags x).2
    · simp only [u, Bcache.State.setRefcnt, Function.update_self]
      rw [hs.refcnt x]
    · simp only [u, Bcache.State.setRefcnt, Function.update_self]
      exact hs.lastuse x
    · rfl

/-- The last step of bget takes the sleep lock. -/
theorem sleep_run (hpc : u.pc p = .sleepAcquire (.buf x)) (hfree : u.sleep (.buf x) = none) :
    Bcache.step u (.advance p) = some (Bcache.State.goto
      { u with sleep := Function.update u.sleep (.buf x) (some p) } p .idle) := by
  simp only [Bcache.step, Bcache.advance, hpc, if_pos hfree]

theorem recycle_free {c c' : Bufs B D} (hr : c.recycle x dev blockno = some c') :
    (c.buf x).locked = false := by
  unfold Bufs.recycle Bufs.acquiresleep at hr
  rw [set_buf] at hr
  split_ifs at hr with hl
  simpa using hl

/-- bget recycles the buffer that the search of the table finds. -/
theorem recycle_run (hs : Shows s p h) {j : Bucket}
    (hfind : (h.bufmap (BUFMAP_HASH dev blockno)).find? (h.bufs.Matches dev blockno) = none)
    (hleast : h.least = some (j, x)) (hfree : (h.bufs.buf x).locked = false) :
    ∃ n u, run Bcache.step s (.bget p dev blockno :: List.replicate n (.advance p)) = some u ∧
      Shows u p ⟨h.bufs.set x { h.bufs.buf x with
          dev := dev, blockno := blockno, refcnt := 1, valid := false, locked := true },
        Bcache.rehash h.bufmap j (BUFMAP_HASH dev blockno) x⟩ := by
  obtain ⟨m, t, least, holding, u, hrun, hstep, hu, hbest, -, hpick⟩ :=
    Bcache.search_run hs.placed hs.idle hs.bucketLock hs.evictionLock
      ((hs.cached_eq dev blockno).trans hfind)
  have hfound : Found s (least, holding) h.least := by
    rw [hpick]
    exact picks_found hs _ ⟨rfl, rfl⟩
  rw [hleast] at hfound
  obtain ⟨hag, rfl⟩ : Agrees s least (some (j, x)) ∧ holding = some j := hfound
  cases least with
  | none => cases hag
  | some c =>
    have hc : s.next c = .buf x := Option.some.inj hag
    obtain ⟨n, w, v, hrun', hcv, hw⟩ := Bcache.victim_run hs.placed t u c j hu hbest hstep
    obtain rfl : v = x := Ptr.buf.inj (hcv.symm.trans hc)
    have hpc : w.pc p = .sleepAcquire (.buf v) := by rw [hw.returns, Function.update_self]
    have hfreew : w.sleep (.buf v) = none := by
      rw [hw.frame.1]
      exact hs.sleep_free hfree
    obtain ⟨z, hz⟩ : ∃ z : Bcache.State B P, z = Bcache.State.goto
        { w with sleep := Function.update w.sleep (.buf v) (some p) } p .idle := ⟨_, rfl⟩
    have hlast : Bcache.step w (.advance p) = some z := by
      rw [hz]
      exact sleep_run hpc hfreew
    have hbuf : z.buf = w.buf := by rw [hz]; rfl
    have hidle : z.pc p = .idle := by
      rw [hz]
      exact Function.update_self _ _ _
    have hplaced : Placed z (Bcache.rehash h.bufmap j (BUFMAP_HASH dev blockno) v) := by
      rw [hz]
      exact ⟨hw.placed.chains, hw.placed.once⟩
    refine ⟨m + n + 1, z, ?_, hs.set _ hplaced ?_ ?_ ?_ ?_ ?_ ?_ (fun i => ?_) ?_ hidle⟩
    · rw [List.replicate_add, List.replicate_add, ← List.cons_append, ← List.cons_append,
        run_append]
      refine ⟨w, ?_, ?_⟩
      · rw [run_append]
        exact ⟨t, hrun, hrun'⟩
      · simp only [List.replicate_one, run, hlast, Option.bind_some]
    · intro y hy
      rw [hbuf, hw.assigned]
      exact Function.update_of_ne (fun he => hy (Ptr.buf.inj he)) _ _
    · rw [hbuf, hw.assigned, Function.update_self]
    · rw [hbuf, hw.assigned, Function.update_self]
    · rw [hbuf, hw.assigned, Function.update_self]
    · rw [hbuf, hw.assigned, Function.update_self]
      exact hs.lastuse v
    · rw [hz]
      change Function.update w.sleep (.buf v) (some p) = _
      rw [hw.frame.1]
      rfl
    · rw [hz]
      exact hw.bucketLock i
    · rw [hz]
      exact hw.evictionLock

/-- A call of bget that returns is a run of the steps of bget, which leave the table as the call
leaves it. -/
theorem bget_run (hs : Shows s p h) (hget : h.bget dev blockno = some (t, x)) :
    ∃ n u, run Bcache.step s (.bget p dev blockno :: List.replicate n (.advance p)) = some u ∧
      Shows u p t ∧ u.sleep (.buf x) = some p := by
  have hend {n : Nat} {u : Bcache.State B P}
      (hrun : run Bcache.step s (.bget p dev blockno :: List.replicate n (.advance p)) = some u)
      (hu : Shows u p t) (hlocked : (t.bufs.buf x).locked = true) :
      ∃ n u, run Bcache.step s (.bget p dev blockno :: List.replicate n (.advance p)) = some u ∧
        Shows u p t ∧ u.sleep (.buf x) = some p := by
    refine ⟨n, u, hrun, hu, ?_⟩
    rw [hu.sleep x, hlocked]
    rfl
  unfold Hashed.bget at hget
  cases hfind : (h.bufmap (BUFMAP_HASH dev blockno)).find? (h.bufs.Matches dev blockno) with
  | some y =>
    simp only [hfind] at hget
    obtain ⟨c, hshare, heq⟩ := Option.map_eq_some_iff.mp hget
    obtain ⟨rfl, rfl⟩ := Prod.mk.inj heq
    obtain ⟨hfree, rfl⟩ := share_eq hshare
    obtain ⟨u, hcall, hrun, hu⟩ := hit_run hs hfind hfree
    refine hend (n := 3) ?_ hu ?_
    · rw [run_cons]
      exact ⟨_, hcall, hrun⟩
    · rw [set_buf]
  | none =>
    simp only [hfind] at hget
    cases hleast : h.least with
    | none =>
      rw [hleast] at hget
      cases hget
    | some q =>
      obtain ⟨j, y⟩ := q
      simp only [hleast] at hget
      obtain ⟨c, hrecycle, heq⟩ := Option.map_eq_some_iff.mp hget
      obtain ⟨rfl, rfl⟩ := Prod.mk.inj heq
      obtain ⟨n, u, hrun, hu⟩ := recycle_run hs hfind hleast (recycle_free hrecycle)
      have hc := recycle_eq hrecycle
      subst hc
      refine hend hrun hu ?_
      rw [set_buf]

/-- So is a call of brelse, at its time. -/
theorem brelse_run (hs : Shows s p h) (hrel : h.brelse x s.ticks = some t) :
    ∃ u, run Bcache.step s [.brelse p (.buf x), .advance p, .advance p] = some u ∧
      Shows u p t := by
  unfold Hashed.brelse at hrel
  split_ifs at hrel with hlocked
  cases hrel
  have howned : s.sleep (.buf x) = some p := by
    rw [hs.sleep x, if_pos hlocked]
  have hlocks : s.bucketLock = fun _ => none := funext hs.bucketLock
  obtain ⟨k, hk⟩ : ∃ k, k = (s.buf (.buf x)).refcnt - 1 := ⟨_, rfl⟩
  let u : Bcache.State B P :=
    { s with
      buf := Function.update s.buf (.buf x) { s.buf (.buf x) with
        refcnt := k, lastuse := if k = 0 then s.ticks else (s.buf (.buf x)).lastuse }
      sleep := Function.update s.sleep (.buf x) none
      pc := Function.update s.pc p .idle }
  refine ⟨u, ?_, ?_⟩
  · simp only [run, Bcache.step, Bcache.advance, Bcache.State.goto, Bcache.State.acquire,
      Bcache.State.release, Bcache.State.keyOf, hs.idle, howned, hlocks, Function.update_self,
      Function.update_idem, and_self, if_true, Option.map_some, Option.bind_some, ← hk, u]
    simp
  · have hbufs : (h.bufs.releasesleep x).buf x = { h.bufs.buf x with locked := false } :=
      set_buf _ _ _
    have hrefcnt : (h.bufs.buf x).refcnt - 1 = k := by
      rw [hk, hs.refcnt x]
    have hset (v : Buf D) : (h.bufs.releasesleep x).set x v = h.bufs.set x v := by
      unfold Bufs.releasesleep Bufs.set
      simp only [Function.update_idem]
    simp only [hbufs, hrefcnt, hset]
    refine hs.set _ ⟨hs.placed.chains, hs.placed.once⟩ ?_ ?_ ?_ ?_ ?_ ?_ hs.bucketLock
      hs.evictionLock (Function.update_self _ _ _)
    · intro y hy
      exact Function.update_of_ne (fun he => hy (Ptr.buf.inj he)) _ _
    · simp only [u, Function.update_self]
      split <;> exact (hs.tags x).1
    · simp only [u, Function.update_self]
      split <;> exact (hs.tags x).2
    · simp only [u, Function.update_self]
      split <;> rfl
    · simp only [u, Function.update_self]
      split
      · rfl
      · exact hs.lastuse x
    · simp only [u]
      split <;> rfl

/-- The two caches after binit. -/
theorem binit_shows (p : Fin P) (junk : Fin B → D) (disk : Nat → D) :
    Shows (Bcache.binit B P) p (Hashed.binit junk disk) := by
  have hplaced : Placed (Bcache.binit B P) (Hashed.binit junk disk).bufmap := by
    have hmap : (Hashed.binit junk disk).bufmap =
        Function.update (fun _ => []) Bcache.bucket0 (List.finRange B).reverse := by
      funext i
      rw [Function.update_apply]
      rfl
    rw [hmap]
    exact Bcache.binit_placed
  exact ⟨hplaced, fun _ => ⟨rfl, rfl⟩, fun _ => rfl, fun _ => rfl, fun _ => rfl, fun _ => rfl, rfl,
    rfl⟩

end Calls

end Xv6Labs.Bio
