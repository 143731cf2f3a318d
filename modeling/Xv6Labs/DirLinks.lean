import Xv6Labs.DirTree
import Xv6Labs.DirWalk

/-! System calls keep the link counts and the directory tree, when they create nothing in a
removed directory, come by no freed inode and do not overflow a link count. -/
namespace Xv6Labs.Dir

variable {n : Nat} {s t u : State n} {p : Fin n} {J J' L : List Slot} {d : Int} {i ip dp : Slot}
  {name : Path} {E : Panic → Prop}

section Good

/-- What has no links is referenced. -/
def Used (s : State n) : Prop :=
  ∀ k, (s.disk k).type ≠ .free → (s.disk k).nlink = 0 →
    ∃ i, (s.icache i).inum = k ∧ 0 < (s.icache i).ref

/-- The tree is in order at a moment of a call that holds `J` and `L`. Inode numbers fit into
directory entries. -/
structure Good (s : State n) (J L : List Slot) (d : Int) : Prop where
  held : Held s J L d
  tree : Tree s.ninodes s.disk
  used : Used s
  loaded : Loaded s
  fits : s.ninodes ≤ 2^16

theorem Good.quiet (h : Good s [] L d) : Quiet s [] L d := by
  refine ⟨h.held, ?_, h.loaded⟩
  intro k htype hn
  obtain ⟨i, hi, href⟩ := h.used k htype hn
  have hrefs := h.held.refs i
  rw [List.count_nil] at hrefs
  exact ⟨i, hi, by omega⟩

theorem Quiet.good (h : Quiet s J L d) (ht : Tree s.ninodes s.disk) (hn : s.ninodes ≤ 2^16) :
    Good s J L d := by
  refine ⟨h.held, ht, ?_, h.loaded, hn⟩
  intro k htype hn
  obtain ⟨i, hi, hu⟩ := h.kept k htype hn
  exact ⟨i, hi, h.held.ref_pos (Or.inr hu)⟩

theorem Quiet.good_of_calm (h : Quiet t J L d) (hcalm : Calm J' s t)
    (ht : Tree s.ninodes s.disk) (hn : s.ninodes ≤ 2^16) : Good t J L d := by
  apply h.good
  · rw [hcalm.ninodes, hcalm.disk]
    exact ht
  · rw [hcalm.ninodes]
    exact hn

theorem Good.beginOp (h : Good s J L d) : Good (beginOp s) J L (d + 1) :=
  ⟨h.held.beginOp, h.tree, h.used, h.loaded, h.fits⟩

theorem Good.endOp (h : Good s J L (d + 1)) : Good (endOp s) J L d :=
  ⟨h.held.endOp, h.tree, h.used, h.loaded, h.fits⟩

/-- iput, with the freeing of an inode that has no links. -/
theorem iput_good (h : Good s (i :: J) L d) (hi : i ∈ L → 0 < users s i + J.count i) :
    Yields Safe (fun t => Good t J L d) (iput s i) := by
  have hpos : 0 < (s.icache i).ref := h.held.ref_pos (Or.inl List.mem_cons_self)
  have hrest : Yields Safe (fun t => Tree t.ninodes t.disk ∧ Used t ∧ Loaded t ∧
      t.ninodes ≤ 2^16) (iput s i) := by
    apply iput_rule lenient_safe i
    · intro hlast _
      have hother (j : Slot) (hj : 0 < (s.icache j).ref) (hji : j ≠ i) :
          (s.icache j).inum ≠ (s.icache i).inum :=
        fun heq => hji (h.held.unique j i hj hpos heq)
      refine ⟨?_, ?_, ?_, h.fits⟩
      · exact h.tree.free (h.held.alloc i hpos (Or.inl hlast.2.1)) hlast.2.2
      · intro k htype hn
        simp only [setInode_disk, setNode_disk] at htype hn
        by_cases hk : k = (s.icache i).inum
        · rw [if_pos hk] at htype
          exact absurd rfl htype
        · rw [if_neg hk] at htype hn
          obtain ⟨j, hj, hjref⟩ := h.used k htype hn
          have hji : j ≠ i := fun hji => hk (hji ▸ hj.symm)
          refine ⟨j, ?_⟩
          rw [setInode_icache, if_neg hji]
          exact ⟨hj, hjref⟩
      · intro j hj
        rw [setInode_icache] at hj
        by_cases hji : j = i
        · rw [if_pos hji] at hj
          exact absurd hj (lt_irrefl 0)
        · rw [if_neg hji] at hj
          have hnode : ((s.setNode i (s.node i).freed).setInode i
              ⟨(s.icache i).inum, 0, false, false⟩).node j = s.node j := by
            simp [State.node, hji, hother j hj hji]
          rw [hnode, setInode_icache, if_neg hji]
          exact h.loaded j hj
    · intro hlast
      refine ⟨h.tree, ?_, ?_, h.fits⟩
      · intro k htype hn
        obtain ⟨j, hj, hjref⟩ := h.used k htype hn
        refine ⟨j, ?_⟩
        rw [setInode_icache]
        split
        · -- the entry is in use by somebody else, or iput would have freed the inode
          rename_i hji
          subst hji
          have hzero : (s.node j).nlink = 0 := by
            unfold State.node
            rw [hj]
            exact hn
          have hvalid : (s.icache j).valid = true :=
            (h.loaded j hjref).resolve_right (fun hne => hne hzero)
          have hne : (s.icache j).ref ≠ 1 := fun href => hlast ⟨href, hvalid, hzero⟩
          exact ⟨hj, by simp only; omega⟩
        · exact ⟨hj, hjref⟩
      · exact h.loaded.setInode i _ rfl (fun _ => h.loaded i hpos)
  apply ((iput_held h.held lenient_true hi).any_and hrest).mono
  rintro t ⟨hheld, htree, hused, hloaded, hfits⟩
  exact ⟨hheld, htree, hused, hloaded, hfits⟩

theorem iunlock_good (h : Good s J (i :: L) d) :
    Yields Safe (fun t => Good t J L d) (iunlock s i) := by
  have hrest : Yields Safe (fun t => Tree t.ninodes t.disk ∧ Used t ∧ Loaded t ∧
      t.ninodes ≤ 2^16) (iunlock s i) := by
    apply iunlock_rule lenient_safe i
    intro _ href
    refine ⟨h.tree, ?_, h.loaded.setInode i _ rfl (fun _ => h.loaded i (by omega)), h.fits⟩
    intro k htype hn
    obtain ⟨j, hj, hjref⟩ := h.used k htype hn
    refine ⟨j, ?_⟩
    rw [setInode_icache]
    split
    · rename_i hji
      subst hji
      exact ⟨hj, hjref⟩
    · exact ⟨hj, hjref⟩
  apply ((iunlock_held h.held lenient_true).any_and hrest).mono
  rintro t ⟨⟨hheld, -⟩, htree, hused, hloaded, hfits⟩
  exact ⟨hheld, htree, hused, hloaded, hfits⟩

theorem iunlockput_good (h : Good s (i :: J) (i :: L) d) :
    Yields Safe (fun t => Good t J L d) (iunlockput s i) :=
  (iunlock_good h).bind (fun _ ht => iput_good ht
    (fun hl => absurd hl (List.nodup_cons.mp h.held.nodup).1))

end Good

section Edits

/-- A new content for an inode in use, which keeps it alive. -/
theorem Quiet.setNode (h : Quiet s J L d) (i : Slot) (b : Dinode) (hb : b.type ≠ .free)
    (hn : b.nlink = 0 → (s.node i).type ≠ .free ∧ (s.node i).nlink = 0) :
    Quiet (s.setNode i b) J L d := by
  refine ⟨h.held.setNode i b hb, ?_, ?_⟩
  · intro k htype hk
    rw [setNode_disk] at htype hk
    split at hk
    · rename_i hki
      obtain ⟨hold, hzero⟩ := hn hk
      rw [hki]
      exact h.kept _ hold hzero
    · rename_i hki
      rw [if_neg hki] at htype
      exact h.kept k htype hk
  · intro j hj
    have hload := h.loaded j hj
    unfold State.node at hload ⊢
    rw [setNode_disk]
    split
    · rename_i hji
      have hinum : (s.icache j).inum = (s.icache i).inum := hji
      by_cases hzero : b.nlink = 0
      · left
        rw [hinum] at hload
        exact hload.resolve_right (fun hne => hne (hn hzero).2)
      · exact Or.inr hzero
    · exact hload

theorem same_setNode (J : List Slot) (s : State n) (i : Slot) (b : Dinode) :
    Same J s (s.setNode i b) :=
  ⟨rfl, rfl, rfl, fun _ _ => rfl⟩

theorem entry_eq_none {b : Dinode} : b.entry name = none ↔ findEntry b.dirents name = none := by
  unfold Dinode.entry
  exact Option.map_eq_none_iff

/-- dirlink of a name that is not there. -/
theorem dirlink_fresh (dp : Slot) (name : Path) (inum : Nat) (hdir : (s.node dp).type = .dir)
    (hnone : (s.node dp).entry name = none) :
    dirlink s dp name inum = .ok (s.setNode dp { s.node dp with
      dirents := addEntry (s.node dp).dirents ⟨inum % 2^16, name⟩ }, true) := by
  unfold dirlink dirlookup
  rw [if_neg (by simpa using hdir), entry_eq_none.mp hnone]
  rfl

/-- dirlink of a name that is there: the entry is looked up and put back, whatever it refers
to. -/
theorem dirlink_found (h : Quiet s J L d) (hdp : dp ∈ L) (inum : Nat)
    (hsome : (s.node dp).entry name ≠ none) :
    Yields Safe (fun r => Quiet r.1 J L d ∧ Calm J s r.1 ∧ r.2 = false)
      (dirlink s dp name inum) := by
  have hcalm : Yields Safe (fun r => Calm J s r.1 ∧ Loaded r.1 ∧ r.2 = false)
      (dirlink s dp name inum) := by
    unfold dirlink
    have hlook : Yields Safe (fun r => ∃ i off, r.2 = some (i, off) ∧
        ((0 < (s.icache i).ref ∧ r.1 = s.setInode i ⟨(s.icache i).inum, (s.icache i).ref + 1,
          (s.icache i).valid, (s.icache i).locked⟩) ∨
        ((s.icache i).ref = 0 ∧ ∃ k, r.1 = s.setInode i ⟨k, 1, false, (s.icache i).locked⟩)))
        (dirlookup s dp name) := by
      apply dirlookup_rule lenient_safe
      · intro _ hnone
        exact absurd (entry_eq_none.mpr hnone) hsome
      · intro off _ _
        apply iget_rule lenient_safe
        · intro i href hi
          exact ⟨i, off, rfl, Or.inl ⟨href, by rw [hi]⟩⟩
        · intro i _ href
          exact ⟨i, off, rfl, Or.inr ⟨href, _, rfl⟩⟩
    apply hlook.bind
    rintro ⟨t, o⟩ ⟨i, off, ho, hcase⟩
    simp only at ho
    subst ho
    simp only
    rcases hcase with ⟨href, rfl⟩ | ⟨href, k, rfl⟩
    · refine (iput_rule (Q := fun t => Calm J s t ∧ Loaded t) lenient_safe i ?_ ?_).bind
        (fun t ht => ⟨ht.1, ht.2, rfl⟩)
      · intro hlast
        have hone := hlast.1
        rw [setInode_icache, if_pos rfl] at hone
        simp only at hone
        omega
      · intro _
        simp only [setInode_icache, if_true, setInode_setInode]
        refine ⟨calm_setInode J s i _ rfl, ?_⟩
        exact h.loaded.setInode i _ rfl (fun _ => h.loaded i href)
    · refine (iput_rule (Q := fun t => Calm J s t ∧ Loaded t) lenient_safe i ?_ ?_).bind
        (fun t ht => ⟨ht.1, ht.2, rfl⟩)
      · intro hlast
        have hvalid := hlast.2.1
        rw [setInode_icache, if_pos rfl] at hvalid
        cases hvalid
      · intro _
        simp only [setInode_icache, if_true, setInode_setInode]
        have hne (j : Slot) (hj : 0 < (s.icache j).ref) : j ≠ i := by
          intro hji
          rw [hji, href] at hj
          exact absurd hj (lt_irrefl 0)
        refine ⟨⟨⟨rfl, rfl, rfl, ?_⟩, rfl⟩, ?_⟩
        · intro j hj
          rw [setInode_icache, if_neg (hne j (h.held.ref_pos hj))]
        · intro j hj
          rw [setInode_icache] at hj
          by_cases hji : j = i
          · rw [if_pos hji] at hj
            exact absurd hj (lt_irrefl 0)
          · rw [if_neg hji] at hj
            have hnode : (s.setInode i ⟨k, 1 - 1, false, (s.icache i).locked⟩).node j =
                s.node j := by
              simp [State.node, hji]
            rw [hnode, setInode_icache, if_neg hji]
            exact h.loaded j hj
  apply ((dirlink_held h.held hdp name inum).any_and hcalm).mono
  rintro r ⟨hheld, hcalm, hloaded, hr⟩
  exact ⟨⟨hheld, hcalm.kept hcalm.disk h.kept, hloaded⟩, hcalm, hr⟩

end Edits

section Create

variable {type : Kind} {major minor : Int}

theorem ialloc_rule {Q : State n × Slot → Prop} (hE : Lenient E)
    (hinuse : ∀ j, 0 < (s.icache j).ref → (s.node j).type ≠ .free)
    (hok : ∀ k i, 0 < k → k < s.ninodes → (s.disk k).type = .free → (s.icache i).ref = 0 →
      Q ((s.setDisk k { emptyDinode with type := type }).setInode i
        ⟨k, 1, false, (s.icache i).locked⟩, i)) :
    Yields E Q (ialloc s type) := by
  unfold ialloc
  split
  · exact hE _ nofun nofun
  · rename_i k hk
    have hfree := List.find?_some hk
    have hrange := List.mem_of_find?_eq_some hk
    rw [List.mem_range'_1] at hrange
    simp only [decide_eq_true_eq] at hfree
    apply iget_rule hE
    · -- an entry in use does not stand for a free inode
      intro j href hj
      have halloc := hinuse j href
      have hinum : (s.icache j).inum = k := hj
      unfold State.node at halloc
      rw [hinum] at halloc
      exact absurd hfree halloc
    · intro i _ href
      exact hok k i (by omega) (by omega) hfree href

/-- The header of the new inode. -/
def newNode (type : Kind) (major minor : Int) : Dinode :=
  ⟨type, int16 major, int16 minor, 1, [], []⟩

/-- The new inode `k`, locked, with its header. -/
structure Fresh (s u : State n) (dp ip : Slot) (k : Nat) (N : Dinode) (d : Int) : Prop where
  quiet : Quiet u [ip, dp] [ip, dp] d
  same : Same [dp] s u
  disk : u.disk = Function.update s.disk k N
  inum : (u.icache ip).inum = k
  free : (s.disk k).type = .free
  range : 0 < k ∧ k < s.ninodes

theorem ialloc_ilock_fresh (h : Quiet s [dp] [dp] d) (htype : type ≠ .free) :
    Yields Safe (fun r => Yields Safe (fun t => ∃ k,
        Fresh s (t.setNode r.2 { t.node r.2 with
          major := int16 major, minor := int16 minor, nlink := 1 }) dp r.2 k
          (newNode type major minor) d) (ilock r.1 r.2)) (ialloc s type) := by
  -- inodes in the cache are in use: the one that is locked, and those with a reference
  have hinuse : ∀ j, 0 < (s.icache j).ref → (s.node j).type ≠ .free := by
    intro j hj
    by_cases hjdp : j = dp
    · rw [hjdp]
      exact h.held.locked_alloc List.mem_cons_self
    · have hrefs := h.held.refs j
      rw [List.count_cons_of_ne (Ne.symm hjdp), List.count_nil] at hrefs
      exact h.held.alloc j hj (Or.inr (by omega))
  have hrest : Yields Safe (fun r => ∃ k, 0 < k ∧ k < s.ninodes ∧ (s.disk k).type = .free ∧
      (s.icache r.2).ref = 0 ∧ r.1 = (s.setDisk k { emptyDinode with type := type }).setInode r.2
        ⟨k, 1, false, (s.icache r.2).locked⟩) (ialloc s type) := by
    apply ialloc_rule lenient_safe hinuse
    intro k i hpos hlt hfree href
    exact ⟨k, hpos, hlt, hfree, href, rfl⟩
  apply ((ialloc_held h.held htype).any_and hrest).mono
  rintro ⟨r, ip⟩ ⟨hheld, k, hpos, hlt, hfree, href, hr⟩
  simp only at hr hheld href ⊢
  have hnode : r.node ip = { emptyDinode with type := type } := by
    rw [hr]
    simp [State.node]
  have hlock : Yields Safe (fun t => t = r.setInode ip ⟨k, 1, true, true⟩) (ilock r ip) := by
    apply ilock_rule lenient_safe ip
    · intro _ _ hno
      rw [hnode] at hno
      exact absurd hno htype
    · intro _ _ _
      rw [hr]
      simp
  apply ((ilock_held hheld lenient_true trivial ip).any_and hlock).mono
  rintro t ⟨⟨ht, -⟩, hteq⟩
  -- ialloc took a slot without references for an inode that was free, and ilock read it in
  have hcache (j : Slot) : t.icache j = if j = ip then ⟨k, 1, true, true⟩ else s.icache j := by
    rw [hteq, hr]
    simp only [setInode_icache, setDisk_icache]
    split <;> rfl
  have hinum : (t.icache ip).inum = k := by
    rw [hcache, if_pos rfl]
  have htnode : t.node ip = { emptyDinode with type := type } := by
    unfold State.node
    rw [hinum, hteq, hr]
    simp
  have hdisk : (t.setNode ip { t.node ip with
      major := int16 major, minor := int16 minor, nlink := 1 }).disk =
      Function.update s.disk k (newNode type major minor) := by
    funext j
    rw [setNode_disk, hinum, htnode, Function.update_apply, hteq, hr]
    split
    · rfl
    · rename_i hjk
      simp [hjk]
  have husers : users t = users s := by
    rw [hteq, hr]
    rfl
  -- so no process has the slot, and no other slot the inode
  have hnotip (j : Slot) (hj : 0 < (s.icache j).ref) : j ≠ ip := by
    intro hji
    rw [hji, href] at hj
    exact absurd hj (lt_irrefl 0)
  have hnotk (j : Slot) (hj : 0 < (s.icache j).ref) : (s.icache j).inum ≠ k := by
    intro hjk
    have halloc := hinuse j hj
    unfold State.node at halloc
    rw [hjk] at halloc
    exact halloc hfree
  have hwheld := ht.edit List.mem_cons_self { t.node ip with
    major := int16 major, minor := int16 minor, nlink := 1 } rfl
  generalize hw : t.setNode ip { t.node ip with
    major := int16 major, minor := int16 minor, nlink := 1 } = w at hdisk hwheld ⊢
  have hwcache (j : Slot) : w.icache j = if j = ip then ⟨k, 1, true, true⟩ else s.icache j := by
    rw [← hw]
    exact hcache j
  have hwusers : users w = users s := by
    rw [← husers, ← hw]
    rfl
  refine ⟨k, ⟨⟨hwheld, ?_, ?_⟩, ⟨?_, ?_, ?_, ?_⟩, hdisk, ?_, hfree, hpos, hlt⟩⟩
  · intro j hjtype hjn
    rw [hdisk, Function.update_apply] at hjtype hjn
    split at hjn
    · cases hjn
    · rename_i hjk
      rw [if_neg hjk] at hjtype
      obtain ⟨m, hm, hu⟩ := h.kept j hjtype hjn
      refine ⟨m, ?_, by rw [hwusers]; exact hu⟩
      rw [hwcache, if_neg (hnotip m (h.held.ref_pos (Or.inr hu)))]
      exact hm
  · intro j hj
    unfold State.node
    rw [hwcache] at hj ⊢
    by_cases hji : j = ip
    · rw [if_pos hji]
      exact Or.inl rfl
    · rw [if_neg hji] at hj ⊢
      rw [hdisk, Function.update_of_ne (hnotk j hj)]
      exact h.loaded j hj
  · rw [← hw, hteq, hr]
    rfl
  · rw [← hw, hteq, hr]
    rfl
  · rw [← hw, hteq, hr]
    rfl
  · intro j hj
    rw [hwcache, if_neg (hnotip j (h.held.ref_pos hj))]
  · rw [hwcache, if_pos rfl]

theorem int16_eq {x : Int} (h : -32768 ≤ x ∧ x ≤ 32767) : int16 x = x := by
  unfold int16
  omega

/-- After createBody: `A` is the parent, whose entries are as before, and `B` the new inode. -/
structure Bodied (s v : State n) (dp ip : Slot) (k : Nat) (type : Kind) (A B : Dinode) (d : Int) :
    Prop where
  quiet : Quiet v [ip, dp] [ip, dp] d
  same : Same [dp] s v
  inum : (v.icache ip).inum = k
  disk : v.disk = Function.update (Function.update s.disk (s.icache dp).inum A) k B
  parent : A.type = .dir ∧ A.nlink ≠ 0 ∧ A.dirents = (s.node dp).dirents
  leaf : type ≠ .dir → A.nlink = (s.node dp).nlink ∧ B.type = type ∧ B.nlink = 1
  dir : type = .dir → A.nlink = (s.node dp).nlink + 1 ∧ B.type = .dir ∧ B.nlink = 1 ∧
    B.dirents = [⟨k, dot⟩, ⟨(s.icache dp).inum, dotdot⟩]

theorem createBody_bodied {k : Nat} (h : Fresh s u dp ip k (newNode type major minor) d)
    (hlive : (s.node dp).live) (hn : type = .dir → (s.node dp).nlink < 32767)
    (hk : k < 2^16) (hdp : (s.icache dp).inum < 2^16) :
    Yields Safe (fun v => ∃ A B, Bodied s v dp ip k type A B d) (createBody u dp ip type) := by
  have hne : (s.icache dp).inum ≠ k := by
    intro heq
    have hfree := h.free
    rw [← heq] at hfree
    exact live_alloc hlive hfree
  have hdpinum : (u.icache dp).inum = (s.icache dp).inum :=
    h.same.inums dp (Or.inl List.mem_cons_self)
  have hdpnode : u.node dp = s.node dp := by
    unfold State.node
    rw [hdpinum, h.disk, Function.update_of_ne hne]
  have hipnode : u.node ip = newNode type major minor := by
    unfold State.node
    rw [h.inum, h.disk, Function.update_self]
  have hpos := hlive.2
  unfold createBody
  by_cases htype : type = .dir
  · rw [if_pos htype]
    have hless := hn htype
    have hnlink : int16 ((u.node dp).nlink + 1) = (s.node dp).nlink + 1 := by
      rw [hdpnode]
      exact int16_eq (by omega)
    -- the link for ".."
    have hq1 : Quiet (u.setNode dp { u.node dp with nlink := int16 ((u.node dp).nlink + 1) })
        [ip, dp] [ip, dp] d := by
      refine h.quiet.setNode dp _ ?_ ?_
      · simp only [hdpnode]
        exact live_alloc hlive
      · intro hz
        simp only [hnlink] at hz
        omega
    have hdisk1 : (u.setNode dp { u.node dp with nlink := int16 ((u.node dp).nlink + 1) }).disk =
        Function.update (Function.update s.disk (s.icache dp).inum
          { s.node dp with nlink := (s.node dp).nlink + 1 }) k (newNode type major minor) := by
      funext j
      rw [setNode_disk, hdpinum, hnlink, hdpnode, h.disk]
      by_cases hj : j = (s.icache dp).inum
      · rw [if_pos hj, Function.update_of_ne (hj ▸ hne), hj, Function.update_self]
      · rw [if_neg hj]
        by_cases hjk : j = k
        · rw [hjk, Function.update_self, Function.update_self]
        · rw [Function.update_of_ne hjk, Function.update_of_ne hjk, Function.update_of_ne hj]
    have hs1 : Same [dp] s (u.setNode dp { u.node dp with
        nlink := int16 ((u.node dp).nlink + 1) }) := h.same.trans (same_setNode _ _ _ _)
    have hi1 : ((u.setNode dp { u.node dp with
        nlink := int16 ((u.node dp).nlink + 1) }).icache ip).inum = k := h.inum
    unfold createDots
    simp only
    generalize u.setNode dp { u.node dp with nlink := int16 ((u.node dp).nlink + 1) } = u₁
      at hq1 hdisk1 hs1 hi1
    have hdp1 : (u₁.icache dp).inum = (s.icache dp).inum := hs1.inums dp (Or.inl List.mem_cons_self)
    have hip1 : u₁.node ip = newNode type major minor := by
      unfold State.node
      rw [hi1, hdisk1, Function.update_self]
    -- "." and ".." of the new directory
    have hlink1 := dirlink_fresh (s := u₁) ip dot (u₁.icache ip).inum
      (by rw [hip1]; exact htype) (by rw [hip1]; rfl)
    rw [hlink1, ok_bind]
    simp only [if_true]
    have hents1 : addEntry (u₁.node ip).dirents ⟨(u₁.icache ip).inum % 2^16, dot⟩ =
        [⟨k, dot⟩] := by
      rw [hip1, hi1, Nat.mod_eq_of_lt hk]
      rfl
    rw [hents1]
    have hq2 : Quiet (u₁.setNode ip { u₁.node ip with dirents := [⟨k, dot⟩] })
        [ip, dp] [ip, dp] d := by
      refine hq1.setNode ip _ ?_ ?_
      · rw [hip1, newNode, htype]
        simp
      · rw [hip1]
        intro hzero
        cases hzero
    have hnode2 : (u₁.setNode ip { u₁.node ip with dirents := [⟨k, dot⟩] }).node ip =
        { newNode type major minor with dirents := [⟨k, dot⟩] } := by
      rw [setNode_node, hip1]
    have hdisk2 : (u₁.setNode ip { u₁.node ip with dirents := [⟨k, dot⟩] }).disk =
        Function.update u₁.disk k { newNode type major minor with dirents := [⟨k, dot⟩] } := by
      funext j
      rw [setNode_disk, hi1, hip1, Function.update_apply]
    have hs2 : Same [dp] s (u₁.setNode ip { u₁.node ip with dirents := [⟨k, dot⟩] }) :=
      hs1.trans (same_setNode _ _ _ _)
    have hi2 : ((u₁.setNode ip { u₁.node ip with dirents := [⟨k, dot⟩] }).icache ip).inum = k := hi1
    generalize u₁.setNode ip { u₁.node ip with dirents := [⟨k, dot⟩] } = u₂
      at hq2 hnode2 hdisk2 hs2 hi2
    have hdp2 : (u₂.icache dp).inum = (s.icache dp).inum := hs2.inums dp (Or.inl List.mem_cons_self)
    have hnone2 : findEntry [⟨k, dot⟩] dotdot = none := by
      simp [findEntry, dot, dotdot]
    have hlink2 := dirlink_fresh (s := u₂) ip dotdot (u₂.icache dp).inum
      (by rw [hnode2]; exact htype) (by rw [entry_eq_none, hnode2]; exact hnone2)
    rw [hlink2, ok_bind]
    simp only [if_true]
    have hknz : k ≠ 0 := Nat.ne_of_gt h.range.1
    have hents2 : addEntry (u₂.node ip).dirents ⟨(u₂.icache dp).inum % 2^16, dotdot⟩ =
        [⟨k, dot⟩, ⟨(s.icache dp).inum, dotdot⟩] := by
      rw [hnode2, hdp2, Nat.mod_eq_of_lt hdp]
      simp [addEntry, hknz]
    rw [hents2]
    refine ⟨{ s.node dp with nlink := (s.node dp).nlink + 1 },
      { newNode type major minor with dirents := [⟨k, dot⟩, ⟨(s.icache dp).inum, dotdot⟩] },
      ⟨?_, hs2.trans (same_setNode _ _ _ _), hi2, ?_, ⟨hlive.1, by simp only; omega, rfl⟩,
        fun hleaf => absurd htype hleaf, fun _ => ⟨rfl, htype, rfl, rfl⟩⟩⟩
    · refine hq2.setNode ip _ ?_ ?_
      · rw [hnode2, newNode, htype]
        simp
      · rw [hnode2]
        intro hzero
        cases hzero
    · funext j
      rw [setNode_disk, hi2, hnode2, hdisk2, hdisk1]
      by_cases hj : j = k
      · rw [if_pos hj, hj, Function.update_self]
      · rw [if_neg hj, Function.update_of_ne hj, Function.update_of_ne hj, Function.update_of_ne hj]
  · rw [if_neg htype]
    refine ⟨s.node dp, newNode type major minor, ⟨h.quiet, h.same, h.inum, ?_,
      ⟨hlive.1, by omega, rfl⟩, fun _ => ⟨rfl, rfl, rfl⟩, fun hdir => absurd hdir htype⟩⟩
    rw [h.disk]
    congr 1
    exact (Function.update_eq_self _ _).symm

/-- A name that is not found is neither "." nor "..", which every directory has. -/
theorem Shape.entry_none {k : Nat} {b : Dinode} (h : Shape k b) (hnone : b.entry name = none) :
    name ≠ dot ∧ name ≠ dotdot := by
  have hnone' := entry_eq_none.mp hnone
  unfold findEntry at hnone'
  rw [List.findIdx?_eq_none_iff] at hnone'
  have hmem0 : (⟨k, dot⟩ : Dirent) ∈ b.dirents := by
    rw [h.dots]
    exact List.mem_cons_self
  have hmem1 : (⟨b.up, dotdot⟩ : Dirent) ∈ b.dirents := by
    rw [h.dots]
    exact List.mem_cons_of_mem _ List.mem_cons_self
  have h0 := hnone' _ hmem0
  have h1 := hnone' _ hmem1
  have hk := Nat.ne_of_gt h.pos.1
  have hup := Nat.ne_of_gt h.pos.2
  simp only [ne_eq, hk, hup, not_false_eq_true, decide_true, Bool.true_and,
    decide_eq_false_iff_not] at h0 h1
  exact ⟨Ne.symm h0, Ne.symm h1⟩

/-- The condition for create to make a new entry: the parent is live, and its link count does
not overflow. -/
def MayCreate (b : Dinode) (type : Kind) : Prop :=
  0 < b.nlink ∧ (type = .dir → b.nlink < 32767)

instance (b : Dinode) (type : Kind) : Decidable (MayCreate b type) :=
  inferInstanceAs (Decidable (_ ∧ _))

theorem createNew_good (h : Quiet s [dp] [dp] d) (name : Path) (major minor : Int)
    (htree : Tree s.ninodes s.disk)
    (hfits : s.ninodes ≤ 2^16) (htype : type ≠ .free) (hdir : (s.node dp).type = .dir)
    (hmay : MayCreate (s.node dp) type) (hnone : (s.node dp).entry name = none) :
    Yields Safe (fun r => Good r.1 [r.2] [r.2] d) (createNew s dp name type major minor) := by
  have hlive : (s.node dp).live := ⟨hdir, hmay.1⟩
  have hshape := htree.shape _ hdir
  have hname := hshape.entry_none hnone
  have hdpm : (s.icache dp).inum < s.ninodes := htree.range _ (live_alloc hlive)
  unfold createNew
  apply (ialloc_ilock_fresh h htype).bind
  rintro ⟨r, ip⟩ hr
  apply hr.bind
  rintro t ⟨k, hfresh⟩
  have hkm := hfresh.range.2
  apply (createBody_bodied hfresh hlive hmay.2 (by omega) (by omega)).bind
  rintro v ⟨A, B, hv⟩
  have hne : (s.icache dp).inum ≠ k := by
    intro heq
    have hfree := hfresh.free
    rw [← heq] at hfree
    exact live_alloc hlive hfree
  have hdpinum : (v.icache dp).inum = (s.icache dp).inum :=
    hv.same.inums dp (Or.inl List.mem_cons_self)
  have hdpnode : v.node dp = A := by
    unfold State.node
    rw [hdpinum, hv.disk, Function.update_of_ne hne, Function.update_self]
  rw [dirlink_fresh dp name (v.icache ip).inum (by rw [hdpnode]; exact hv.parent.1)
    (by rw [entry_eq_none, hdpnode, hv.parent.2.2]; exact entry_eq_none.mp hnone), ok_bind]
  simp only [if_true, hdpnode, hv.parent.2.2, hv.inum, Nat.mod_eq_of_lt (show k < 2^16 by omega)]
  have hq : Quiet (v.setNode dp { A with
      dirents := addEntry (s.node dp).dirents ⟨k, name⟩ }) [dp, ip] [dp, ip] d := by
    have hset := hv.quiet.setNode dp { A with dirents := addEntry (s.node dp).dirents ⟨k, name⟩ }
      (by simp only [hv.parent.1]; nofun) (fun hz => absurd hz hv.parent.2.1)
    exact ⟨(hset.held.swap rfl).permL (List.Perm.swap ip dp []), hset.kept, hset.loaded⟩
  have hdisk : (v.setNode dp { A with dirents := addEntry (s.node dp).dirents ⟨k, name⟩ }).disk =
      Function.update (Function.update s.disk (s.icache dp).inum
        { A with dirents := addEntry (s.node dp).dirents ⟨k, name⟩ }) k B := by
    funext j
    rw [setNode_disk, hdpinum, hv.disk]
    by_cases hj : j = (s.icache dp).inum
    · rw [if_pos hj, Function.update_of_ne (hj ▸ hne), hj, Function.update_self]
    · rw [if_neg hj]
      by_cases hjk : j = k
      · rw [hjk, Function.update_self, Function.update_self]
      · rw [Function.update_of_ne hjk, Function.update_of_ne hjk, Function.update_of_ne hj,
          Function.update_of_ne hj]
  have hnin : (v.setNode dp { A with
      dirents := addEntry (s.node dp).dirents ⟨k, name⟩ }).ninodes = s.ninodes := hv.same.ninodes
  have hnew : Tree s.ninodes (Function.update (Function.update s.disk (s.icache dp).inum
      { A with dirents := addEntry (s.node dp).dirents ⟨k, name⟩ }) k B) := by
    have hk : k ≠ 0 ∧ k < s.ninodes := ⟨Nat.ne_of_gt hfresh.range.1, hkm⟩
    by_cases hd : type = .dir
    · obtain ⟨hAn, hBt, hBn, hBd⟩ := hv.dir hd
      have hless := hmay.2 hd
      exact htree.addDir hlive hk hname hv.parent.1 hAn (by simp only [hAn]; omega) rfl hfresh.free
        hBt hBn hBd
    · obtain ⟨hAn, hBt, hBn⟩ := hv.leaf hd
      have hzero := htree.free_links hfresh.free
      refine htree.addLeaf hlive hk hname hv.parent.1 hAn rfl ?_ ⟨hBt ▸ htype, hBt ▸ hd⟩ ?_ ?_
      · rw [hfresh.free]
        nofun
      · rw [hzero, hBn]
        rfl
      · omega
  generalize v.setNode dp { A with dirents := addEntry (s.node dp).dirents ⟨k, name⟩ } = w
    at hq hdisk hnin
  apply (iunlockput_quiet hq).bind
  rintro x ⟨hx, hcalm⟩
  refine hx.good_of_calm hcalm ?_ ?_
  · rw [hnin, hdisk]
    exact hnew
  · rw [hnin]
    exact hfits

/-- The condition for create: the way to the parent comes by no freed inode, and neither does
an entry that is there already; a new entry may be made. -/
def CreateOk (s : State n) (p : Fin n) (path : Path) (type : Kind) : Prop :=
  Sound s (pathWalk s p true path).1 ∧
  ∀ x ∈ (pathWalk s p true path).2,
    (∀ j ∈ (s.disk x.1).entry x.2, (s.disk j).type ≠ .free) ∧
    ((s.disk x.1).entry x.2 = none → MayCreate (s.disk x.1) type)

theorem create_good (h : Good s [] [] d) (p : Fin n) (path : Path) (htype : type ≠ .free)
    (hok : CreateOk s p path type) :
    Yields Safe (fun r => Good r.1 r.2.toList r.2.toList d)
      (create s p path type major minor) := by
  apply (namex_quiet h.quiet p path true hok.1).bind
  rintro ⟨t, o⟩ ⟨ht, hcalm, hres⟩
  cases o with
  | none => exact ht.good_of_calm hcalm h.tree h.fits
  | some x =>
    obtain ⟨dp, name⟩ := x
    simp only [Option.map_some] at hres
    obtain ⟨hentry, hmay⟩ := hok.2 _ hres.symm
    have hdir := walk_parent_dir _ _ _ _ _ hres.symm
    have hnode : t.node dp = s.disk (t.icache dp).inum := by
      unfold State.node
      rw [hcalm.disk]
    have hdirt : (t.node dp).type = .dir := by
      rw [hnode]
      exact hdir
    apply (ilock_quiet ht dp (by rw [hdirt]; nofun)).bind
    rintro u ⟨hu, hcalmu, -⟩
    have hunode : u.node dp = t.node dp := hcalmu.node (Or.inl List.mem_cons_self)
    have hsu : Calm [] s u := hcalm.trans hcalmu.nil
    have hsound : ∀ k, (u.node dp).entry name = some k → (u.disk k).type ≠ .free := by
      intro k hk
      rw [hunode, hnode] at hk
      rw [hsu.disk]
      exact hentry k hk
    apply (dirlookup_quiet hu dp name hsound).bind
    rintro ⟨v, o⟩ ⟨hv, hcalmv, hfound, -⟩
    have hsv : Calm [] s v := hsu.trans hcalmv.nil
    have hvnode : v.node dp = u.node dp := hcalmv.node (Or.inl List.mem_cons_self)
    cases o with
    | some y =>
      simp only [Option.map_some] at hfound
      have hy := hsound _ hfound.symm
      have hswap : Quiet v [dp, y.1] [dp] d := ⟨hv.held.swap rfl, hv.kept, hv.loaded⟩
      apply (iunlockput_quiet hswap).bind
      rintro w ⟨hw, hcalmw⟩
      have hwy : w.node y.1 = v.node y.1 :=
        hcalmw.node (Or.inl (List.mem_cons_of_mem _ List.mem_cons_self))
      have hwtype : (w.node y.1).type ≠ .free := by
        rw [hwy]
        unfold State.node
        rw [hcalmv.disk]
        exact hy
      apply (ilock_quiet hw y.1 hwtype).bind
      rintro w' ⟨hw', hcalmw', -⟩
      have hsw : Calm [] s w' :=
        hsv.trans (hcalmw.nil.trans hcalmw'.nil)
      split
      · exact hw'.good_of_calm hsw h.tree h.fits
      · apply (iunlockput_quiet hw').bind
        rintro w'' ⟨hw'', hcalmw''⟩
        exact hw''.good_of_calm (hsw.trans hcalmw''.nil) h.tree h.fits
    | none =>
      have hvs : v.node dp = s.disk (t.icache dp).inum := by
        rw [hvnode, hunode, hnode]
      have hnone : (s.disk (t.icache dp).inum).entry name = none := by
        rw [← hnode, ← hunode]
        exact hfound.symm
      have hnew := createNew_good hv name major minor ?_ ?_ htype ?_ ?_ ?_
      · exact hnew.bind (fun w hw => hw)
      · rw [hsv.ninodes, hsv.disk]
        exact h.tree
      · rw [hsv.ninodes]
        exact h.fits
      · rw [hvs]
        exact hdir
      · rw [hvs]
        exact hmay hnone
      · rw [hvs]
        exact hnone

end Create

end Xv6Labs.Dir
