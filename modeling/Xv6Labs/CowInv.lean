import Xv6Labs.CowCode
import Xv6Labs.Tally

/-! The invariant of the copy-on-write pages: the reference count of a page is the number
of its users, and what each change of a page table or of a count does to it. -/
namespace Xv6Labs.Cow

variable {n : Nat}

section Counting

/-- The number of leaf PTEs that map `pa`. -/
def leafPTEs (s : State n) (pa : Nat) : Nat :=
  tally (fun k => ((s.leaf k).map PTE.pa).toList) pa

/-- The number of kernel holders of `pa`: page-table pages and direct callers of kalloc. -/
def kernelHolders (s : State n) (pa : Nat) : Nat :=
  tally (fun k => (s.node k).toList) pa + s.held.count pa

/-- All users of `pa`; `H` are the pages in local variables of the running function. -/
def users (s : State n) (H : List Nat) (pa : Nat) : Nat :=
  leafPTEs s pa + kernelHolders s pa + H.count pa

/-- The pages that kfree accepts. -/
def IsPage (kend pa : Nat) : Prop := pa % PGSIZE = 0 ∧ kend ≤ pa ∧ pa < PHYSTOP

/-- A free page is once on the list and has no user, any other page is counted. -/
def Counted (free users : Nat) (ref : Int) : Prop :=
  (free = 1 ∧ users = 0 ∧ ref ≤ 0) ∨ (free = 0 ∧ 0 < users ∧ ref = users)

end Counting

theorem low_div_lt (i : Fin 262144) : i.val / 512 < 512 := by
  omega

def Node.parent : Node → Option Node
  | .root => none
  | .mid _ => some .root
  | .low i => some (.mid ⟨i.val / 512, low_div_lt i⟩)

/-- The last-level page that has the leaf slot `i`. -/
def lowOfSlot (i : Slot) : Fin 262144 := ⟨i.val / 512, by omega⟩

/-- A user page may be read, and it may be written or, in a kernel with the lazy uvmcopy,
is copy-on-write. -/
def PTE.Fits (lazy : Bool) (e : PTE) : Prop :=
  e.r = true ∧ (e.w = true ∨ (lazy = true ∧ e.cow = true))

/-- Every mapped page has its page-table pages. -/
structure Shape (lazy : Bool) (s : State n) : Prop where
  slots : ∀ t i, s.leaf (t, i) ≠ none → s.node (t, .low (lowOfSlot i)) ≠ none
  parents : ∀ t k k', k.parent = some k' → s.node (t, k) ≠ none → s.node (t, k') ≠ none
  perms : ∀ k e, s.leaf k = some e → e.Fits lazy

structure Inv (lazy : Bool) (s : State n) (H : List Nat) : Prop extends Shape lazy s where
  kend : KERNBASE ≤ s.kend
  counted : ∀ pa, IsPage s.kend pa → Counted (s.freelist.count pa) (users s H pa) (s.ref pa)
  other : ∀ pa, ¬IsPage s.kend pa → s.freelist.count pa = 0 ∧ users s H pa = 0
  alone : ∀ k e, s.leaf k = some e → e.w = true → users s H e.pa = 1

section Updates

variable (s : State n) (t : Fin n)

@[simp] theorem setLeaf_self (i : Slot) (o : Option PTE) : (s.setLeaf t i o).leaf (t, i) = o :=
  Function.update_self ..

theorem setLeaf_of_ne {i : Slot} {k : Fin n × Slot} (hk : k ≠ (t, i)) (o : Option PTE) :
    (s.setLeaf t i o).leaf k = s.leaf k := Function.update_of_ne hk ..

@[simp] theorem setNode_self (k : Node) (o : Option Nat) : (s.setNode t k o).node (t, k) = o :=
  Function.update_self ..

theorem setNode_of_ne {k : Node} {j : Fin n × Node} (hj : j ≠ (t, k)) (o : Option Nat) :
    (s.setNode t k o).node j = s.node j := Function.update_of_ne hj ..

end Updates

section Moves

variable {lazy : Bool} {s : State n} {H : List Nat}

/-- Different pages have different counters. -/
theorem pgref_inj {kend p q : Nat} (hk : KERNBASE ≤ kend) (hp : IsPage kend p)
    (hq : IsPage kend q) (h : PA2PGREF_ID p = PA2PGREF_ID q) : p = q := by
  obtain ⟨h1, h2, -⟩ := hp
  obtain ⟨h3, h4, -⟩ := hq
  unfold PA2PGREF_ID at h
  unfold KERNBASE at hk h
  unfold PGSIZE at *
  omega

theorem setRef_ref (h : KERNBASE ≤ s.kend) {p q : Nat} (hp : IsPage s.kend p)
    (hq : IsPage s.kend q) (v : Int) :
    (s.setRef p v).ref q = if q = p then v else s.ref q := by
  simp only [State.ref, State.setRef]
  by_cases hqp : q = p
  · rw [if_pos hqp, hqp, Function.update_self]
  · have hid : PA2PGREF_ID q ≠ PA2PGREF_ID p := fun he => hqp (pgref_inj h hq hp he)
    rw [if_neg hqp, Function.update_of_ne hid]

theorem leafPTEs_pos {k : Fin n × Slot} {e : PTE} (he : s.leaf k = some e) :
    0 < leafPTEs s e.pa := by
  have h1 := count_le_tally (fun k => ((s.leaf k).map PTE.pa).toList) k e.pa
  unfold leafPTEs
  simp only [he, Option.map_some, Option.toList_some, List.count_singleton_self] at h1
  omega

/-- A page with a user is a page of the allocator and not free. -/
theorem Inv.of_users (h : Inv lazy s H) {pa : Nat} (hu : 0 < users s H pa) :
    IsPage s.kend pa ∧ s.freelist.count pa = 0 ∧ s.ref pa = users s H pa := by
  by_cases hp : IsPage s.kend pa
  · rcases h.counted pa hp with hc | hc
    · omega
    · exact ⟨hp, hc.1, hc.2.2⟩
  · have := (h.other pa hp).2
    omega

theorem Inv.of_free (h : Inv lazy s H) {pa : Nat} (hf : pa ∈ s.freelist) :
    IsPage s.kend pa ∧ s.freelist.count pa = 1 ∧ users s H pa = 0 ∧ s.ref pa ≤ 0 := by
  have hpos := List.count_pos_iff.mpr hf
  by_cases hp : IsPage s.kend pa
  · rcases h.counted pa hp with hc | hc
    · exact ⟨hp, hc.1, hc.2⟩
    · omega
  · have := (h.other pa hp).1
    omega

/-- Pages change hands; no count changes. -/
theorem Inv.shuffle (h : Inv lazy s H) (s' : State n) (H' : List Nat) (hkend : s'.kend = s.kend)
    (hfree : s'.freelist = s.freelist) (href : s'.p_refered = s.p_refered)
    (huse : ∀ pa, users s' H' pa = users s H pa)
    (hslots : ∀ t i, s'.leaf (t, i) ≠ none → s'.node (t, .low (lowOfSlot i)) ≠ none)
    (hparents : ∀ t k k', k.parent = some k' → s'.node (t, k) ≠ none → s'.node (t, k') ≠ none)
    (hleaf : ∀ k e, s'.leaf k = some e → e.Fits lazy ∧ (e.w = true → users s H e.pa = 1)) :
    Inv lazy s' H' := by
  have href' (pa : Nat) : s'.ref pa = s.ref pa := by
    unfold State.ref
    rw [href]
  refine ⟨⟨hslots, hparents, fun k e he => (hleaf k e he).1⟩, by rw [hkend]; exact h.kend,
    ?_, ?_, ?_⟩
  · intro pa hp
    rw [hfree, huse, href']
    rw [hkend] at hp
    exact h.counted pa hp
  · intro pa hp
    rw [hfree, huse]
    rw [hkend] at hp
    exact h.other pa hp
  · intro k e he hw
    rw [huse]
    exact (hleaf k e he).2 hw

/-- The counter, the users and the place on the free list of one page change. -/
theorem Inv.recount (h : Inv lazy s H) (s' : State n) (H' : List Nat) (p : Nat)
    (hp : IsPage s.kend p) (v : Int) (hkend : s'.kend = s.kend) (hleaf : s'.leaf = s.leaf)
    (hnode : s'.node = s.node) (href : s'.p_refered = (s.setRef p v).p_refered)
    (hfree : ∀ q, q ≠ p → s'.freelist.count q = s.freelist.count q)
    (huse : ∀ q, q ≠ p → users s' H' q = users s H q)
    (hcount : Counted (s'.freelist.count p) (users s' H' p) v)
    (halone : ∀ k e, s.leaf k = some e → e.pa = p → e.w = true → users s' H' p = 1) :
    Inv lazy s' H' := by
  have href' (q : Nat) (hq : IsPage s.kend q) : s'.ref q = if q = p then v else s.ref q := by
    rw [← setRef_ref h.kend hp hq v]
    unfold State.ref
    rw [href]
  refine ⟨⟨?_, ?_, ?_⟩, by rw [hkend]; exact h.kend, ?_, ?_, ?_⟩
  · rw [hleaf, hnode]
    exact h.slots
  · rw [hnode]
    exact h.parents
  · rw [hleaf]
    exact h.perms
  · intro q hq
    rw [hkend] at hq
    rw [href' q hq]
    by_cases hqp : q = p
    · rw [if_pos hqp, hqp]
      exact hcount
    · rw [if_neg hqp, hfree q hqp, huse q hqp]
      exact h.counted q hq
  · intro q hq
    rw [hkend] at hq
    have hqp : q ≠ p := by
      rintro rfl
      exact hq hp
    rw [hfree q hqp, huse q hqp]
    exact h.other q hq
  · intro k e he hw
    rw [hleaf] at he
    by_cases hqp : e.pa = p
    · rw [hqp]
      exact halone k e he hqp hw
    · rw [huse _ hqp]
      exact h.alone k e he hw

/-- The users after a leaf PTE has been changed. -/
theorem leafPTEs_setLeaf (t : Fin n) (i : Slot) (o : Option PTE) (pa : Nat) :
    leafPTEs (s.setLeaf t i o) pa + (((s.leaf (t, i)).map PTE.pa).toList).count pa =
      leafPTEs s pa + ((o.map PTE.pa).toList).count pa := by
  have h := tally_update (fun k => ((s.leaf k).map PTE.pa).toList) (t, i) (o.map PTE.pa).toList pa
  unfold leafPTEs
  rw [← h]
  congr 2
  funext k
  exact Function.apply_update (fun _ (o : Option PTE) => (o.map PTE.pa).toList) s.leaf (t, i) o k

theorem kernelHolders_setNode (t : Fin n) (k : Node) (o : Option Nat) (pa : Nat) :
    kernelHolders (s.setNode t k o) pa + ((s.node (t, k)).toList).count pa =
      kernelHolders s pa + (o.toList).count pa := by
  have h := tally_update (fun k => (s.node k).toList) (t, k) o.toList pa
  have hfam : (fun j => (Function.update s.node (t, k) o j).toList) =
      Function.update (fun j => (s.node j).toList) (t, k) o.toList := by
    funext j
    exact Function.apply_update (fun _ (o : Option Nat) => o.toList) s.node (t, k) o j
  unfold kernelHolders
  simp only [State.setNode]
  rw [hfam]
  omega

theorem kernelHolders_setLeaf (t : Fin n) (i : Slot) (o : Option PTE) (pa : Nat) :
    kernelHolders (s.setLeaf t i o) pa = kernelHolders s pa := rfl

theorem leafPTEs_setNode (t : Fin n) (k : Node) (o : Option Nat) (pa : Nat) :
    leafPTEs (s.setNode t k o) pa = leafPTEs s pa := rfl

theorem users_cons_self (pa : Nat) : users s (pa :: H) pa = users s H pa + 1 := by
  simp only [users, List.count_cons_self]
  exact (Nat.add_assoc _ _ _).symm

theorem users_cons_of_ne {pa q : Nat} (hq : q ≠ pa) : users s (pa :: H) q = users s H q := by
  simp only [users, List.count_cons_of_ne (Ne.symm hq)]

theorem users_takeLeaf {t : Fin n} {i : Slot} {e : PTE} (he : s.leaf (t, i) = some e) (q : Nat) :
    users (s.setLeaf t i none) (e.pa :: H) q = users s H q := by
  have hl := leafPTEs_setLeaf (s := s) t i none q
  rw [he] at hl
  simp only [users, kernelHolders_setLeaf]
  simp only [Option.map_some, Option.map_none, Option.toList_some, Option.toList_none,
    List.count_nil, List.count_cons] at hl ⊢
  omega

theorem users_putLeaf {t : Fin n} {i : Slot} {e : PTE} (hfree : s.leaf (t, i) = none) (q : Nat) :
    users (s.setLeaf t i (some e)) H q = users s (e.pa :: H) q := by
  have hl := leafPTEs_setLeaf (s := s) t i (some e) q
  rw [hfree] at hl
  simp only [users, kernelHolders_setLeaf]
  simp only [Option.map_some, Option.map_none, Option.toList_some, Option.toList_none,
    List.count_nil, List.count_cons] at hl ⊢
  omega

theorem users_putNode {t : Fin n} {k : Node} {pa : Nat} (hfree : s.node (t, k) = none) (q : Nat) :
    users (s.setNode t k (some pa)) H q = users s (pa :: H) q := by
  have hn := kernelHolders_setNode (s := s) t k (some pa) q
  rw [hfree] at hn
  simp only [users, leafPTEs_setNode]
  simp only [Option.toList_some, Option.toList_none, List.count_nil, List.count_cons] at hn ⊢
  omega

theorem users_takeNode {t : Fin n} {k : Node} {pa : Nat} (hk : s.node (t, k) = some pa) (q : Nat) :
    users (s.setNode t k none) (pa :: H) q = users s H q := by
  have hn := kernelHolders_setNode (s := s) t k none q
  rw [hk] at hn
  simp only [users, leafPTEs_setNode]
  simp only [Option.toList_some, Option.toList_none, List.count_nil, List.count_cons] at hn ⊢
  omega

/-- Clearing a leaf PTE. -/
theorem Shape.clear (h : Shape lazy s) (t : Fin n) (i : Slot) :
    Shape lazy (s.setLeaf t i none) := by
  have hsub (k : Fin n × Slot) (x : PTE) (hx : (s.setLeaf t i none).leaf k = some x) :
      s.leaf k = some x := by
    by_cases hk : k = (t, i)
    · rw [hk, setLeaf_self] at hx
      cases hx
    · rwa [setLeaf_of_ne s t hk] at hx
  refine ⟨?_, h.parents, fun k x hx => h.perms k x (hsub k x hx)⟩
  intro t' j hj
  obtain ⟨x, hx⟩ := Option.ne_none_iff_exists'.mp hj
  apply h.slots t' j
  rw [hsub _ x hx]
  simp

/-- A leaf PTE is cleared; its page goes to the running function. -/
theorem Inv.takeLeaf (h : Inv lazy s H) {t : Fin n} {i : Slot} {e : PTE}
    (he : s.leaf (t, i) = some e) : Inv lazy (s.setLeaf t i none) (e.pa :: H) := by
  have hshape := h.toShape.clear t i
  refine h.shuffle _ _ rfl rfl rfl (users_takeLeaf he) hshape.slots hshape.parents ?_
  intro k x hx
  refine ⟨hshape.perms k x hx, ?_⟩
  by_cases hk : k = (t, i)
  · rw [hk, setLeaf_self] at hx
    cases hx
  · rw [setLeaf_of_ne s t hk] at hx
    exact h.alone k x hx

/-- A page of the running function is mapped. -/
theorem Inv.putLeaf {t : Fin n} {i : Slot} {e : PTE} (h : Inv lazy s (e.pa :: H))
    (hfree : s.leaf (t, i) = none) (hlow : s.node (t, .low (lowOfSlot i)) ≠ none)
    (hperm : e.Fits lazy)
    (halone : e.w = true → users s (e.pa :: H) e.pa = 1) :
    Inv lazy (s.setLeaf t i (some e)) H := by
  refine h.shuffle _ _ rfl rfl rfl (users_putLeaf hfree) ?_ ?_ ?_
  · intro t' j hj
    by_cases hk : (t', j) = (t, i)
    · cases hk
      exact hlow
    · rw [setLeaf_of_ne s t hk] at hj
      exact h.slots t' j hj
  · exact h.parents
  · intro k x hx
    by_cases hk : k = (t, i)
    · rw [hk, setLeaf_self] at hx
      cases hx
      exact ⟨hperm, halone⟩
    · rw [setLeaf_of_ne s t hk] at hx
      exact ⟨h.perms k x hx, h.alone k x hx⟩

/-- The flags of a leaf PTE change; it gains no write permission. -/
theorem Inv.changeLeaf (h : Inv lazy s H) {t : Fin n} {i : Slot} {e e' : PTE}
    (he : s.leaf (t, i) = some e) (hpa : e'.pa = e.pa)
    (hperm : e'.Fits lazy) (hw : e'.w = true → e.w = true) :
    Inv lazy (s.setLeaf t i (some e')) H := by
  have htake := h.takeLeaf he
  rw [← hpa] at htake
  have hput := htake.putLeaf (t := t) (i := i) (e := e') (by simp)
    (h.slots t i (by simp [he])) hperm
  have hset : (s.setLeaf t i none).setLeaf t i (some e') = s.setLeaf t i (some e') := by
    simp [State.setLeaf]
  rw [hset] at hput
  apply hput
  intro hw'
  rw [hpa, users_takeLeaf he]
  exact h.alone _ e he (hw hw')

/-- A page of the running function becomes a page-table page. -/
theorem Inv.putNode {t : Fin n} {k : Node} {pa : Nat} (h : Inv lazy s (pa :: H))
    (hfree : s.node (t, k) = none)
    (hparent : ∀ k', k.parent = some k' → s.node (t, k') ≠ none) :
    Inv lazy (s.setNode t k (some pa)) H := by
  have hmono (j : Fin n × Node) (hj : s.node j ≠ none) :
      (s.setNode t k (some pa)).node j ≠ none := by
    by_cases hjk : j = (t, k)
    · simp [hjk]
    · rwa [setNode_of_ne s t hjk]
  refine h.shuffle _ _ rfl rfl rfl (users_putNode hfree) ?_ ?_ ?_
  · intro t' i hi
    exact hmono _ (h.slots t' i hi)
  · intro t' j j' hj hn
    apply hmono
    by_cases hjk : (t', j) = (t, k)
    · cases hjk
      exact hparent j' hj
    · rw [setNode_of_ne s t hjk] at hn
      exact h.parents t' j j' hj hn
  · intro j e he
    exact ⟨h.perms j e he, h.alone j e he⟩

/-- A page-table page without entries goes to the running function. -/
theorem Inv.takeNode (h : Inv lazy s H) {t : Fin n} {k : Node} {pa : Nat}
    (hk : s.node (t, k) = some pa) (hchild : ∀ j, j.parent = some k → s.node (t, j) = none)
    (hleaf : ∀ i, k = .low (lowOfSlot i) → s.leaf (t, i) = none) :
    Inv lazy (s.setNode t k none) (pa :: H) := by
  have hkeep (j : Fin n × Node) (hjk : j ≠ (t, k)) :
      (s.setNode t k none).node j = s.node j := setNode_of_ne s t hjk none
  refine h.shuffle _ _ rfl rfl rfl (users_takeNode hk) ?_ ?_ ?_
  · intro t' i hi
    rw [hkeep]
    · exact h.slots t' i hi
    · intro he
      cases he
      exact hi (hleaf i rfl)
  · intro t' j j' hj hn
    by_cases hjk : (t', j) = (t, k)
    · rw [hjk] at hn
      simp at hn
    · rw [hkeep _ hjk] at hn
      rw [hkeep]
      · exact h.parents t' j j' hj hn
      · intro he
        cases he
        exact hn (hchild j hj)
  · intro j e he
    exact ⟨h.perms j e he, h.alone j e he⟩

/-- A direct caller of kalloc keeps a page. -/
theorem Inv.hold {pa : Nat} (h : Inv lazy s (pa :: H)) :
    Inv lazy { s with held := pa :: s.held } H := by
  refine h.shuffle _ _ rfl rfl rfl ?_ h.slots h.parents (fun k e he =>
    ⟨h.perms k e he, h.alone k e he⟩)
  intro q
  simp only [users, kernelHolders, leafPTEs, List.count_cons]
  omega

theorem Inv.unhold {pa : Nat} (h : Inv lazy s H) (hpa : pa ∈ s.held) :
    Inv lazy { s with held := s.held.erase pa } (pa :: H) := by
  refine h.shuffle _ _ rfl rfl rfl ?_ h.slots h.parents (fun k e he =>
    ⟨h.perms k e he, h.alone k e he⟩)
  intro q
  have hpos := List.count_pos_iff.mpr hpa
  simp only [users, kernelHolders, leafPTEs, List.count_cons, List.count_erase]
  by_cases hq : pa = q
  · subst hq
    simp
    omega
  · have hqp : (pa == q) = false := by simpa using hq
    simp [hqp]

/-- memset and memmove change no count. -/
theorem Inv.fill (h : Inv lazy s H) (pa : Nat) (page : Nat → UInt8) : Inv lazy (s.fill pa page) H :=
  ⟨⟨h.slots, h.parents, h.perms⟩, h.kend, h.counted, h.other, h.alone⟩

/-- One more reference to a page that no one may write. -/
theorem Inv.addRef (h : Inv lazy s H) {pa : Nat} (hu : 0 < users s H pa)
    (hw : ∀ k e, s.leaf k = some e → e.pa = pa → e.w = false) :
    Inv lazy (krefpage s pa) (pa :: H) := by
  obtain ⟨hp, hfree, href⟩ := h.of_users hu
  refine h.recount _ _ pa hp (s.ref pa + 1) rfl rfl rfl rfl (fun q _ => rfl) ?_ ?_ ?_
  · intro q hq
    rw [users_cons_of_ne hq]
    rfl
  · right
    have hone : users (krefpage s pa) (pa :: H) pa = users s H pa + 1 := users_cons_self pa
    rw [hone]
    refine ⟨hfree, by omega, ?_⟩
    rw [href]
    push_cast
    rfl
  · intro k e he hpa hw'
    rw [hw k e he hpa] at hw'
    cases hw'

/-- One reference less to a page that has another user. -/
theorem Inv.dropRef {pa : Nat} (h : Inv lazy s (pa :: H)) (hu : 0 < users s H pa) :
    Inv lazy (s.setRef pa (s.ref pa - 1)) H := by
  have hcons := users_cons_self (s := s) (H := H) pa
  obtain ⟨hp, hfree, href⟩ := h.of_users (by omega : 0 < users s (pa :: H) pa)
  refine h.recount _ _ pa hp (s.ref pa - 1) rfl rfl rfl rfl (fun q _ => rfl) ?_ ?_ ?_
  · intro q hq
    rw [users_cons_of_ne hq]
    rfl
  · right
    refine ⟨hfree, hu, ?_⟩
    rw [href, hcons]
    push_cast
    change _ = ((users s H pa : Nat) : Int)
    omega
  · intro k e he hpa hw
    have hone := h.alone k e he hw
    rw [hpa, hcons] at hone
    change users s H pa = 1
    omega

end Moves

end Xv6Labs.Cow
