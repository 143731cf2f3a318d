import Xv6Labs.DirLinks

/-! The link counts of the `file system` kernel over whole runs: which calls keep them, and
that the others do not. -/
namespace Xv6Labs.Dir

variable {n : Nat} {s t u : State n} {p : Fin n} {J J' L : List Slot} {d : Int} {i ip dp : Slot}
  {name : Path}

section Link

/-- The content of the inode `ip` is replaced while its entry is locked. -/
theorem Loaded.setNode_locked (h : Loaded s) (hheld : Held s J L d) (hi : i ∈ L) (b : Dinode) :
    Loaded (s.setNode i b) := by
  intro j hj
  have hload := h j hj
  unfold State.node at hload ⊢
  rw [setNode_disk]
  split
  · rename_i hinum
    obtain ⟨href, hvalid⟩ := hheld.taken i hi
    have hji : j = i := hheld.unique j i hj href hinum
    subst hji
    exact Or.inl hvalid
  · exact hload

/-- The way back in sys_link, where `s` is the state before the link count was raised. -/
theorem linkBad_good (h : Quiet t [ip] [] 1) (hsame : Same [ip] s t) (hkept : Kept s)
    (htree : Tree s.ninodes s.disk) (hfits : s.ninodes ≤ 2^16)
    (htype : (s.node ip).type ≠ .free)
    (hdisk : t.disk = Function.update s.disk (s.icache ip).inum
      { s.node ip with nlink := int16 ((s.node ip).nlink + 1) }) :
    Yields Safe (fun r => Good r.1 [] [] 0) (linkBad t ip) := by
  have hinum : (t.icache ip).inum = (s.icache ip).inum := hsame.inums ip (Or.inl List.mem_cons_self)
  have hnode : t.node ip = { s.node ip with nlink := int16 ((s.node ip).nlink + 1) } := by
    unfold State.node
    rw [hinum, hdisk, Function.update_self]
    rfl
  have hnonneg : 0 ≤ (s.node ip).nlink := htree.nlink_nonneg htype
  have hsmall : (s.node ip).nlink ≤ 32767 := htree.small _ htype
  apply (ilock_quiet h ip (by rw [hnode]; exact htype)).bind
  rintro u ⟨hu, hcalm, -⟩
  have hunode : u.node ip = t.node ip := hcalm.node (Or.inl List.mem_cons_self)
  have huinum : (u.icache ip).inum = (s.icache ip).inum :=
    (hcalm.inums ip (Or.inl List.mem_cons_self)).trans hinum
  have hback : { u.node ip with nlink := int16 ((u.node ip).nlink - 1) } = s.node ip := by
    have hval : int16 (int16 ((s.node ip).nlink + 1) - 1) = (s.node ip).nlink := by
      unfold int16
      omega
    rw [hunode, hnode]
    simp only [hval]
  simp only [hback]
  have hrestored : (u.setNode ip (s.node ip)).disk = s.disk := by
    funext j
    rw [setNode_disk, huinum, hcalm.disk, hdisk]
    split
    · rename_i hj
      rw [hj]
      rfl
    · rename_i hj
      rw [Function.update_of_ne hj]
  have hall : Same [ip] s (u.setNode ip (s.node ip)) :=
    (hsame.trans hcalm.toSame).trans (same_setNode _ _ _ _)
  have hq : Quiet (u.setNode ip (s.node ip)) [ip] [ip] 1 :=
    ⟨hu.held.setNode ip _ htype, hall.kept hrestored hkept,
      hu.loaded.setNode_locked hu.held List.mem_cons_self _⟩
  apply (iunlockput_quiet hq).bind
  rintro v ⟨hv, hcalmv⟩
  have hcalms : Calm [ip] s v := Calm.trans ⟨hall, hrestored⟩ hcalmv
  exact Good.endOp (d := 0) (hv.good_of_calm hcalms htree hfits)

/-- The condition for sys_link: the paths come by no freed inode, and where a new entry is
made its directory is live and the link count does not overflow. -/
def LinkOk (s : State n) (p : Fin n) (old new : Path) : Prop :=
  Sound s (pathWalk s p false old).1 ∧
  ∀ x ∈ (pathWalk s p false old).2, (s.disk x.1).type ≠ .dir →
    Sound s (pathWalk s p true new).1 ∧
    ∀ y ∈ (pathWalk s p true new).2, (s.disk y.1).entry y.2 = none →
      0 < (s.disk y.1).nlink ∧ (s.disk x.1).nlink < 32767

/-- sys_link from the state `t` in which the link count is raised; `s` is the state before. -/
theorem linkNew_good (h : Quiet t [ip] [] 1) (hsame : Same [ip] s t) (hkept : Kept s)
    (htree : Tree s.ninodes s.disk) (hfits : s.ninodes ≤ 2^16)
    (htype : (s.node ip).type ≠ .free) (hdir : (s.node ip).type ≠ .dir)
    (hdisk : t.disk = Function.update s.disk (s.icache ip).inum
      { s.node ip with nlink := int16 ((s.node ip).nlink + 1) }) (new : Path)
    (hsound : Sound s (pathWalk s p true new).1)
    (hnew : ∀ y ∈ (pathWalk s p true new).2, (s.disk y.1).entry y.2 = none →
      0 < (s.disk y.1).nlink ∧ (s.node ip).nlink < 32767) :
    Yields Safe (fun r => Good r.1 [] [] 0) (linkNew t p ip new) := by
  -- the raised count is all that differs, so the walk of the new path is the same
  have hview (k : Nat) : (t.disk k).type = (s.disk k).type ∧
      (t.disk k).dirents = (s.disk k).dirents := by
    rw [hdisk, Function.update_apply]
    split
    · rename_i hk
      rw [hk]
      exact ⟨rfl, rfl⟩
    · exact ⟨rfl, rfl⟩
  have hwalk : pathWalk t p true new = pathWalk s p true new := by
    unfold pathWalk
    rw [hsame.startInum, walk_congr hview]
  have hsound' : Sound t (pathWalk t p true new).1 := by
    intro k hk
    rw [hwalk] at hk
    rw [(hview k).1]
    exact hsound k hk
  apply (namex_quiet h p new true hsound').bind
  rintro ⟨a, o⟩ ⟨ha, hcalm, hres⟩
  rw [hwalk] at hres
  have hdiska : a.disk = t.disk := hcalm.disk
  cases o with
  | none =>
    exact linkBad_good ha (hsame.trans hcalm.toSame) hkept htree hfits htype (hdiska.trans hdisk)
  | some x =>
    obtain ⟨dp, name⟩ := x
    simp only [Option.map_some] at hres
    have hdp := walk_parent_dir _ _ _ _ _ hres.symm
    have hadir : (a.node dp).type = .dir := by
      unfold State.node
      rw [hdiska, (hview _).1]
      exact hdp
    apply (ilock_quiet ha dp (by rw [hadir]; nofun)).bind
    rintro b ⟨hb, hcalmb, -⟩
    have hbnode : b.node dp = a.node dp := hcalmb.node (Or.inl List.mem_cons_self)
    have hbip : (b.icache ip).inum = (s.icache ip).inum := by
      rw [hcalmb.inums ip (Or.inl (List.mem_cons_of_mem _ List.mem_cons_self)),
        hcalm.inums ip (Or.inl List.mem_cons_self), hsame.inums ip (Or.inl List.mem_cons_self)]
    have hbdp : (b.icache dp).inum = (a.icache dp).inum :=
      hcalmb.inums dp (Or.inl List.mem_cons_self)
    have hsb : Same [ip] s b := (hsame.trans hcalm.toSame).trans
      (hcalmb.toSame.mono (fun j hj => List.mem_cons_of_mem _ hj))
    have hdiskb : b.disk = t.disk := hcalmb.disk.trans hdiska
    by_cases hentry : (b.node dp).entry name = none
    · -- a new entry: the directory and the inode are different ones
      have hnone : (s.disk (a.icache dp).inum).entry name = none := by
        rw [entry_eq_none] at hentry ⊢
        rw [hbnode] at hentry
        unfold State.node at hentry
        rw [hdiska, (hview _).2] at hentry
        exact hentry
      obtain ⟨hlive, hless⟩ := hnew _ hres.symm hnone
      have hne : (a.icache dp).inum ≠ (s.icache ip).inum := by
        intro heq
        rw [heq] at hdp
        exact hdir hdp
      -- the entry goes into a live directory and names an inode of the disk
      have hbval : b.node dp = s.disk (a.icache dp).inum := by
        rw [hbnode]
        unfold State.node
        rw [hdiska, hdisk, Function.update_of_ne hne]
      have hdplive : (s.disk (a.icache dp).inum).live := ⟨hdp, hlive⟩
      have hname := (htree.shape _ hdp).entry_none hnone
      have hkm := htree.range _ htype
      have hkpos : (s.icache ip).inum ≠ 0 := by
        intro hz
        apply htype
        unfold State.node
        rw [hz]
        exact htree.zero
      have hnonneg : 0 ≤ (s.node ip).nlink := htree.nlink_nonneg htype
      have hraised : int16 ((s.node ip).nlink + 1) = (s.node ip).nlink + 1 := int16_eq (by omega)
      rw [dirlink_fresh dp name (b.icache ip).inum (by rw [hbnode]; exact hadir) hentry, ok_bind]
      simp only [hbval, hbip, if_true,
        Nat.mod_eq_of_lt (show (s.icache ip).inum < 2^16 by omega)]
      have hq := hb.setNode dp { s.disk (a.icache dp).inum with
        dirents := addEntry (s.disk (a.icache dp).inum).dirents ⟨(s.icache ip).inum, name⟩ }
        (live_alloc hdplive) (fun hz => absurd hz (Int.ne_of_gt hlive))
      -- what is on the disk now: the entry and the count, which go together
      have hdisk' : (b.setNode dp { s.disk (a.icache dp).inum with
          dirents := addEntry (s.disk (a.icache dp).inum).dirents
            ⟨(s.icache ip).inum, name⟩ }).disk =
          Function.update (Function.update s.disk (a.icache dp).inum
            { s.disk (a.icache dp).inum with
              dirents := addEntry (s.disk (a.icache dp).inum).dirents ⟨(s.icache ip).inum, name⟩ })
            (s.icache ip).inum { s.node ip with nlink := (s.node ip).nlink + 1 } := by
        funext j
        rw [setNode_disk, hbdp, hdiskb, hdisk, hraised]
        by_cases hj : j = (a.icache dp).inum
        · rw [if_pos hj, Function.update_of_ne (hj ▸ hne), hj, Function.update_self]
        · rw [if_neg hj]
          by_cases hjk : j = (s.icache ip).inum
          · rw [hjk, Function.update_self, Function.update_self]
          · rw [Function.update_of_ne hjk, Function.update_of_ne hjk, Function.update_of_ne hj]
      have hnin := (hsb.trans (same_setNode [ip] b dp { s.disk (a.icache dp).inum with
        dirents := addEntry (s.disk (a.icache dp).inum).dirents
          ⟨(s.icache ip).inum, name⟩ })).ninodes
      have htree' := htree.addLeaf (a := (a.icache dp).inum) (b := (s.icache ip).inum)
        (A := { s.disk (a.icache dp).inum with
          dirents := addEntry (s.disk (a.icache dp).inum).dirents ⟨(s.icache ip).inum, name⟩ })
        (B := { s.node ip with nlink := (s.node ip).nlink + 1 })
        hdplive ⟨hkpos, hkm⟩ hname hdp rfl rfl hdir ⟨htype, hdir⟩
        (congrArg (· + 1) (htree.counts _ htype)) (by simp only; omega)
      generalize b.setNode dp { s.disk (a.icache dp).inum with
        dirents := addEntry (s.disk (a.icache dp).inum).dirents ⟨(s.icache ip).inum, name⟩ } = c
        at hq hdisk' hnin
      apply (iunlockput_quiet hq).bind
      rintro e ⟨he, hcalme⟩
      apply (iput_quiet he nofun).bind
      rintro f ⟨hf, hcalmf⟩
      have hcf : Calm [] c f := hcalme.nil.trans hcalmf.nil
      refine Good.endOp (d := 0) (hf.good_of_calm hcf ?_ ?_)
      · rw [hnin, hdisk']
        exact htree'
      · rw [hnin]
        exact hfits
    · -- the name exists: dirlink fails and the count is put back
      apply (dirlink_found hb List.mem_cons_self _ hentry).bind
      rintro ⟨c, r⟩ ⟨hc, hcalmc, rfl⟩
      apply (iunlockput_quiet hc).bind
      rintro e ⟨he, hcalme⟩
      have hse : Same [ip] s e := hsb.trans
        ((hcalmc.toSame.mono (fun j hj => List.mem_cons_of_mem _ hj)).trans
          (hcalme.toSame.mono (fun j hj => List.mem_cons_of_mem _ hj)))
      simp only [Bool.false_eq_true, if_false]
      exact linkBad_good he hse hkept htree hfits htype
        (by rw [hcalme.disk, hcalmc.disk, hdiskb, hdisk])

theorem sysLink_good (h : Good s [] [] 0) (p : Fin n) (old new : List UInt8)
    (hok : ∀ x ∈ argstr old, ∀ y ∈ argstr new, LinkOk s p x y) :
    Yields Safe (fun r => Good r.1 [] [] 0) (sysLink s p old new) := by
  unfold sysLink
  split
  · rename_i old new hold hnew
    obtain ⟨hsound, hrest⟩ := hok old hold new hnew
    have hs := h.beginOp
    apply (namei_quiet hs.quiet p old hsound).bind
    rintro ⟨t, o⟩ ⟨ht, hcalm, hres⟩
    cases o with
    | none => exact Good.endOp (d := 0) (ht.good_of_calm hcalm h.tree h.fits)
    | some ip =>
      simp only [Option.map_some] at hres
      obtain ⟨⟨k, name⟩, hk, hkeq⟩ := Option.map_eq_some_iff.mp hres.symm
      simp only at hkeq
      have halloc : (s.disk (t.icache ip).inum).type ≠ .free := by
        rw [← hkeq]
        exact hsound k (walk_result_mem _ _ _ _ _ _ hk)
      have htnode : t.node ip = s.disk (t.icache ip).inum := by
        unfold State.node
        rw [hcalm.disk]
        rfl
      apply (ilock_quiet ht ip (by rw [htnode]; exact halloc)).bind
      rintro u ⟨hu, hcalmu, -⟩
      have hsu : Calm [] (beginOp s) u := hcalm.trans hcalmu.nil
      have hunode : u.node ip = s.disk (t.icache ip).inum := by
        rw [hcalmu.node (Or.inl List.mem_cons_self), htnode]
      have hutree : Tree u.ninodes u.disk := by
        rw [hsu.ninodes, hsu.disk]
        exact h.tree
      have hufits : u.ninodes ≤ 2^16 := by
        rw [hsu.ninodes]
        exact h.fits
      have hutype : (u.node ip).type ≠ .free := by
        rw [hunode]
        exact halloc
      split
      · apply (iunlockput_quiet hu).bind
        rintro v ⟨hv, hcalmv⟩
        exact Good.endOp (d := 0) (hv.good_of_calm hcalmv hutree hufits)
      · rename_i hdir
        have hnonneg : 0 ≤ (u.node ip).nlink := hutree.nlink_nonneg hutype
        have hsmall : (u.node ip).nlink ≤ 32767 := hutree.small _ hutype
        have hq := hu.setNode ip { u.node ip with nlink := int16 ((u.node ip).nlink + 1) } hutype
          (fun hz => absurd hz (by simp only [int16]; omega))
        apply (iunlock_quiet hq).bind
        rintro v ⟨hv, hcalmv⟩
        have hsame : Same [ip] u v := (same_setNode [ip] u ip _).trans hcalmv.toSame
        obtain ⟨hsound', hnew'⟩ := hrest _ hk (by rw [hkeq, ← hunode]; exact hdir)
        have hwalk : pathWalk u p true new = pathWalk s p true new := by
          unfold pathWalk
          rw [hsu.startInum, hsu.disk]
          rfl
        refine linkNew_good hv hsame hu.kept hutree hufits hutype hdir ?_ new ?_ ?_
        · rw [hcalmv.disk]
          funext j
          rw [setNode_disk, Function.update_apply]
        · intro j hj
          rw [hwalk] at hj
          rw [hsu.disk]
          exact hsound' j hj
        · intro y hy hnone
          rw [hwalk] at hy
          rw [hsu.disk] at hnone ⊢
          rw [hunode, ← hkeq]
          exact hnew' y hy hnone
  · exact h

end Link

section Unlink

theorem findEntry_some {l : List Dirent} {off : Nat} (h : findEntry l name = some off) :
    l[off]? = some ⟨(entryAt l off).inum, name⟩ ∧ (entryAt l off).inum ≠ 0 := by
  unfold findEntry at h
  obtain ⟨hlt, hp, -⟩ := List.findIdx?_eq_some_iff_getElem.mp h
  simp only [ne_eq, decide_not, Bool.and_eq_true, Bool.not_eq_eq_eq_not, Bool.not_true,
    decide_eq_false_iff_not, decide_eq_true_eq] at hp
  have hat : entryAt l off = l[off] := by
    simp [entryAt, List.getD_eq_getElem?_getD, List.getElem?_eq_getElem hlt]
  rw [hat, List.getElem?_eq_getElem hlt]
  refine ⟨?_, hp.1⟩
  rw [← hp.2]

theorem kids_eq_nil_iff (l : List Dirent) : kids l = [] ↔ ∀ e ∈ l, e.inum = 0 := by
  unfold kids
  simp

/-- An entry that is found and is neither "." nor ".." is in a live directory. -/
theorem Tree.found_live {m k off : Nat} {disk : Nat → Dinode} (h : Tree m disk)
    (hdir : (disk k).type = .dir) (hname : name ≠ dot ∧ name ≠ dotdot)
    (hoff : findEntry (disk k).dirents name = some off) :
    (disk k).live ∧ (entryAt (disk k).dirents off).inum ∈ (disk k).named := by
  obtain ⟨hget, hne⟩ := findEntry_some hoff
  have hshape := h.shape k hdir
  have htwo := hshape.two_le hget hname
  have hlive : (disk k).live := by
    refine ⟨hdir, ?_⟩
    by_contra hn
    have hnonneg := h.nlink_nonneg (k := k) (by rw [hdir]; nofun)
    have hempty := h.empty k hdir (by omega)
    rw [kids_eq_nil_iff] at hempty
    apply hne
    refine hempty ⟨_, name⟩ (List.mem_of_getElem? (i := off - 2) ?_)
    rw [List.getElem?_drop, Nat.add_sub_cancel' htwo]
    exact hget
  exact ⟨hlive, hshape.mem_named hlive hget hne hname⟩

theorem isdirempty_kids {b : Dinode} (h : isdirempty b = true) : kids (b.dirents.drop 2) = [] := by
  rw [kids_eq_nil_iff]
  intro e he
  unfold isdirempty at h
  rw [List.all_eq_true] at h
  simpa using h e he

/-- The end of sys_unlink, once the entry of `ip` is found in the directory `dp`. -/
theorem unlinkEntry_good (h : Quiet s [ip, dp] [ip, dp] 1) (htree : Tree s.ninodes s.disk)
    (hfits : s.ninodes ≤ 2^16) (hdir : (s.node dp).type = .dir)
    (hname : name ≠ dot ∧ name ≠ dotdot) {off : Nat}
    (hoff : findEntry (s.node dp).dirents name = some off)
    (hinum : (s.icache ip).inum = (entryAt (s.node dp).dirents off).inum)
    (hempty : (s.node ip).type = .dir → isdirempty (s.node ip) = true) :
    Yields Safe (fun r => Good r.1 [] [] 0) (unlinkEntry s dp ip off) := by
  obtain ⟨hlive, hmem'⟩ := htree.found_live hdir hname hoff
  have hmem : (entryAt (s.node dp).dirents off).inum ∈ (s.node dp).named := hmem'
  obtain ⟨hget, hne0⟩ := findEntry_some hoff
  rw [← hinum] at hget hmem hne0
  have hipalloc : (s.node ip).type ≠ .free := htree.named_alloc hmem
  have hsmall : (s.node dp).nlink ≤ 32767 := htree.small _ (live_alloc hlive)
  have hipsmall : (s.node ip).nlink ≤ 32767 := htree.small _ hipalloc
  have hippos : 1 ≤ (s.node ip).nlink := by
    have hpos := total_pos_of_mem Dinode.named (htree.range _ (live_alloc hlive)) hmem
    have hle := htree.named_le_links (s.icache ip).inum
    have hcount : (s.node ip).nlink = _ := htree.counts _ hipalloc
    omega
  have hdrop : int16 ((s.node ip).nlink - 1) = (s.node ip).nlink - 1 := int16_eq (by omega)
  -- the new content of the directory
  have hA : ∃ A : Dinode, { s.node dp with
      dirents := (s.node dp).dirents.set off ⟨0, []⟩
      nlink := if decide ((s.node ip).type = .dir) then int16 ((s.node dp).nlink - 1)
        else (s.node dp).nlink } = A ∧ A.type = .dir ∧ A.nlink ≠ 0 ∧
      (s.icache dp).inum ≠ (s.icache ip).inum ∧
      Tree s.ninodes (Function.update (Function.update s.disk (s.icache dp).inum A)
        (s.icache ip).inum { s.node ip with nlink := (s.node ip).nlink - 1 }) := by
    refine ⟨_, rfl, hdir, ?_⟩
    by_cases hipdir : (s.node ip).type = .dir
    · have hkids := isdirempty_kids (hempty hipdir)
      obtain ⟨-, -, -, hab, htwo⟩ := htree.empty_dir hmem hipdir hkids
      have htwo' : 2 ≤ (s.node dp).nlink := htwo
      have hval : int16 ((s.node dp).nlink - 1) = (s.node dp).nlink - 1 := int16_eq (by omega)
      rw [if_pos (decide_eq_true hipdir), hval]
      refine ⟨by show (s.node dp).nlink - 1 ≠ 0; omega, hab, ?_⟩
      exact htree.dropDir hlive hget hne0 hname hdir rfl rfl hipdir hkids hipdir rfl rfl
    · have hnlink := hlive.2
      have hnodes : (s.icache dp).inum ≠ (s.icache ip).inum := by
        intro heq
        apply hipdir
        unfold State.node
        rw [← heq]
        exact hdir
      simp only [hipdir, decide_false, Bool.false_eq_true, if_false]
      refine ⟨by have hpos : 0 < (s.node dp).nlink := hnlink; omega, hnodes, ?_⟩
      exact htree.dropLeaf hlive hget hne0 hname hdir rfl rfl hipdir rfl rfl
  obtain ⟨A, hAeq, hAt, hAn, hnodes, hnew⟩ := hA
  unfold unlinkEntry
  simp only
  rw [hAeq]
  have hq := h.setNode dp A (by rw [hAt]; nofun) (fun hz => absurd hz hAn)
  have hq' : Quiet (s.setNode dp A) [dp, ip] [dp, ip] 1 :=
    ⟨(hq.held.swap rfl).permL (List.Perm.swap ip dp []), hq.kept, hq.loaded⟩
  apply (iunlockput_quiet hq').bind
  rintro t ⟨ht, hcalm⟩
  have htinum : (t.icache ip).inum = (s.icache ip).inum :=
    hcalm.inums ip (Or.inl (List.mem_cons_of_mem _ List.mem_cons_self))
  have htnode : t.node ip = s.node ip := by
    unfold State.node
    rw [htinum, hcalm.disk, setNode_disk, if_neg hnodes.symm]
  have hB : { t.node ip with nlink := int16 ((t.node ip).nlink - 1) } =
      { s.node ip with nlink := (s.node ip).nlink - 1 } := by
    rw [htnode, hdrop]
  rw [hB]
  have hlocked := ht.held.taken ip List.mem_cons_self
  have hgood :
      Good (t.setNode ip { s.node ip with nlink := (s.node ip).nlink - 1 }) [ip] [ip] 1 := by
    refine ⟨ht.held.setNode ip _ hipalloc, ?_, ?_, ?_, ?_⟩
    · have hdisk : (t.setNode ip { s.node ip with nlink := (s.node ip).nlink - 1 }).disk =
          Function.update (Function.update s.disk (s.icache dp).inum A) (s.icache ip).inum
            { s.node ip with nlink := (s.node ip).nlink - 1 } := by
        funext j
        rw [setNode_disk, htinum, hcalm.disk, setNode_disk, Function.update_apply,
          Function.update_apply]
      have hnin : (t.setNode ip { s.node ip with nlink := (s.node ip).nlink - 1 }).ninodes =
          s.ninodes := hcalm.ninodes
      rw [hdisk, hnin]
      exact hnew
    · intro k htype hn
      rw [setNode_disk] at htype hn
      split at hn
      · rename_i hk
        exact ⟨ip, hk.symm, hlocked.1⟩
      · rename_i hk
        rw [if_neg hk] at htype
        obtain ⟨j, hj, hu⟩ := ht.kept k htype hn
        exact ⟨j, hj, ht.held.ref_pos (Or.inr hu)⟩
    · exact ht.loaded.setNode_locked ht.held List.mem_cons_self _
    · have hnin : t.ninodes = s.ninodes := hcalm.ninodes
      change t.ninodes ≤ 2^16
      rw [hnin]
      exact hfits
  exact (iunlockput_good hgood).bind (fun u hu => Good.endOp (d := 0) hu)

theorem sysUnlink_good (h : Good s [] [] 0) (p : Fin n) (path : List UInt8)
    (hok : ∀ x ∈ argstr path, Sound s (pathWalk s p true x).1) :
    Yields Safe (fun r => Good r.1 [] [] 0) (sysUnlink s p path) := by
  unfold sysUnlink
  split
  · exact h
  · rename_i path hpath
    have hs := h.beginOp
    apply (namex_quiet hs.quiet p path true (hok path hpath)).bind
    rintro ⟨t, o⟩ ⟨ht, hcalm, hres⟩
    cases o with
    | none => exact Good.endOp (d := 0) (ht.good_of_calm hcalm h.tree h.fits)
    | some x =>
      obtain ⟨dp, name⟩ := x
      simp only [Option.map_some] at hres
      have hdp := walk_parent_dir _ _ _ _ _ hres.symm
      have htnode : t.node dp = s.disk (t.icache dp).inum := by
        unfold State.node
        rw [hcalm.disk]
        rfl
      have htdir : (t.node dp).type = .dir := by
        rw [htnode]
        exact hdp
      apply (ilock_quiet ht dp (by rw [htdir]; nofun)).bind
      rintro u ⟨hu, hcalmu, -⟩
      have hsu : Calm [] (beginOp s) u := hcalm.trans hcalmu.nil
      have hudir : (u.node dp).type = .dir := by
        rw [hcalmu.node (Or.inl List.mem_cons_self)]
        exact htdir
      have hutree : Tree u.ninodes u.disk := by
        rw [hsu.ninodes, hsu.disk]
        exact h.tree
      have hufits : u.ninodes ≤ 2^16 := by
        rw [hsu.ninodes]
        exact h.fits
      split
      · apply (iunlockput_quiet hu).bind
        rintro v ⟨hv, hcalmv⟩
        exact Good.endOp (d := 0) (hv.good_of_calm hcalmv hutree hufits)
      · rename_i hdots
        have hname : name ≠ dot ∧ name ≠ dotdot := not_or.mp hdots
        -- the names of a directory that is still linked name inodes in use
        have hsound : ∀ k, (u.node dp).entry name = some k → (u.disk k).type ≠ .free := by
          intro k hk
          unfold Dinode.entry at hk
          obtain ⟨off, hoff, hkeq⟩ := Option.map_eq_some_iff.mp hk
          rw [← hkeq]
          exact hutree.named_alloc (hutree.found_live hudir hname hoff).2
        apply (dirlookup_quiet hu dp name hsound).bind
        rintro ⟨v, o⟩ ⟨hv, hcalmv, hentry, hoffs⟩
        have hvtree : Tree v.ninodes v.disk := by
          rw [hcalmv.ninodes, hcalmv.disk]
          exact hutree
        have hvfits : v.ninodes ≤ 2^16 := by
          rw [hcalmv.ninodes]
          exact hufits
        have hvdp : v.node dp = u.node dp := hcalmv.node (Or.inl List.mem_cons_self)
        cases o with
        | none =>
          apply (iunlockput_quiet hv).bind
          rintro w ⟨hw, hcalmw⟩
          exact Good.endOp (d := 0) (hw.good_of_calm hcalmw hvtree hvfits)
        | some y =>
          obtain ⟨ip, off⟩ := y
          simp only [Option.map_some] at hentry hoffs
          have hinum : (v.icache ip).inum = (entryAt (u.node dp).dirents off).inum := by
            unfold Dinode.entry at hentry
            rw [← hoffs] at hentry
            simpa using hentry
          have hiptype : (v.node ip).type ≠ .free := by
            unfold State.node
            rw [hcalmv.disk]
            exact hsound _ hentry.symm
          apply (ilock_quiet hv ip hiptype).bind
          rintro w ⟨hw, hcalmw, -⟩
          have hwtree : Tree w.ninodes w.disk := by
            rw [hcalmw.ninodes, hcalmw.disk]
            exact hvtree
          have hwfits : w.ninodes ≤ 2^16 := by
            rw [hcalmw.ninodes]
            exact hvfits
          have hwdp : w.node dp = u.node dp := by
            rw [hcalmw.node (Or.inl (List.mem_cons_of_mem _ List.mem_cons_self)), hvdp]
          have hwip : (w.icache ip).inum = (v.icache ip).inum :=
            hcalmw.inums ip (Or.inl List.mem_cons_self)
          have hwdir : (w.node dp).type = .dir := by
            rw [hwdp]
            exact hudir
          have hwoff : findEntry (w.node dp).dirents name = some off := by
            rw [hwdp]
            exact hoffs.symm
          have hwinum : (w.icache ip).inum = (entryAt (w.node dp).dirents off).inum := by
            rw [hwip, hwdp]
            exact hinum
          obtain ⟨hlive, hmem'⟩ := hwtree.found_live hwdir hname hwoff
          have hmem : (entryAt (w.node dp).dirents off).inum ∈ (w.node dp).named := hmem'
          rw [← hwinum] at hmem
          -- the inode has the link that is being removed, so the check before it passes
          have hpos : 1 ≤ (w.node ip).nlink := by
            have hpos := total_pos_of_mem Dinode.named (hwtree.range _ (live_alloc hlive)) hmem
            have hle := hwtree.named_le_links (w.icache ip).inum
            have hcount : (w.node ip).nlink = _ := hwtree.counts _ (hwtree.named_alloc hmem)
            omega
          rw [if_neg (by omega)]
          -- a directory that is not empty stays; anything else loses its entry
          split
          · apply (iunlockput_quiet hw).bind
            rintro x ⟨hx, hcalmx⟩
            apply (iunlockput_quiet hx).bind
            rintro x' ⟨hx', hcalmx'⟩
            exact Good.endOp (d := 0)
              (hx'.good_of_calm (hcalmx.nil.trans hcalmx'.nil) hwtree hwfits)
          · rename_i hcond
            refine unlinkEntry_good hw hwtree hwfits hwdir hname hwoff hwinum ?_
            intro hipdir
            by_contra hne
            exact hcond ⟨hipdir, hne⟩

end Unlink

end Xv6Labs.Dir
