import Xv6Labs.BioCode
import Mathlib.Data.Fintype.EquivFin
import Mathlib.Data.List.Nodup
import Mathlib.Algebra.Group.Int.Defs

/-! Both buffer caches are a store of blocks of which at most `B` are in use, whatever buffers they
recycle, and so they answer every well-behaved program alike. -/
namespace Xv6Labs.Bio
open Bcache (BUFMAP_HASH NBUFMAP_BUCKET Bucket)

section Store

variable {D : Type}

/-- The blocks as their user knows them: the contents, what is on the disk, whether it has read the
block and not released it, and how often it has pinned it. -/
structure Store (D : Type) where
  view : UInt32 → D
  disk : Nat → D
  held : UInt32 → Bool
  pins : UInt32 → Nat

def Store.refs (p : Store D) (b : UInt32) : Nat := (if p.held b then 1 else 0) + p.pins b

/-- The block's number times two fits in 32 bits. -/
def Small (b : UInt32) : Prop := b.toNat < 2^31

/-- A buffer is used only between bread and brelse, pins are undone once, and a block is not given
up with contents that are not on the disk. -/
def Store.Allows (p : Store D) : Op D → Prop
  | .bread b => p.held b = false ∧ Small b
  | .modify b _ => p.held b = true
  | .bwrite b => p.held b = true
  | .brelse b _ => p.held b = true ∧ (p.pins b = 0 → p.view b = p.disk (sector b))
  | .bpin b => p.held b = true
  | .bunpin b => p.held b = true ∧ 0 < p.pins b

instance [DecidableEq D] (p : Store D) : (op : Op D) → Decidable (p.Allows op)
  | .bread b => inferInstanceAs (Decidable (p.held b = false ∧ b.toNat < 2^31))
  | .modify b _ => inferInstanceAs (Decidable (p.held b = true))
  | .bwrite b => inferInstanceAs (Decidable (p.held b = true))
  | .brelse b _ =>
    inferInstanceAs (Decidable (p.held b = true ∧ (p.pins b = 0 → p.view b = p.disk (sector b))))
  | .bpin b => inferInstanceAs (Decidable (p.held b = true))
  | .bunpin b => inferInstanceAs (Decidable (p.held b = true ∧ 0 < p.pins b))

/-- The store after a call. -/
def Store.next (p : Store D) : Op D → Store D
  | .bread b => { p with held := Function.update p.held b true }
  | .modify b f => { p with view := Function.update p.view b (f (p.view b)) }
  | .bwrite b => { p with disk := Function.update p.disk (sector b) (p.view b) }
  | .brelse b _ => { p with held := Function.update p.held b false }
  | .bpin b => { p with pins := Function.update p.pins b (p.pins b + 1) }
  | .bunpin b => { p with pins := Function.update p.pins b (p.pins b - 1) }

/-- The program keeps to the rules in every call. -/
def Store.Respects (p : Store D) (ops : List (Op D)) : Prop :=
  Guarded (fun p op => some (p.next op)) Store.Allows p ops

/-- `B` blocks are in use. -/
def Store.Full (p : Store D) (B : Nat) : Prop :=
  ∃ f : Fin B → UInt32, Function.Injective f ∧ ∀ x, 0 < p.refs (f x)

open Classical in
/-- A call on a store that has room for `B` blocks in use; bread answers the contents. -/
noncomputable def Store.step (B : Nat) (p : Store D) (op : Op D) : Option (Store D × Option D) :=
  match op with
  | .bread b => if p.refs b = 0 ∧ p.Full B then none else some (p.next op, some (p.view b))
  | _ => some (p.next op, none)

theorem step_next {B : Nat} {p : Store D} {op : Op D} {r : Store D × Option D}
    (h : p.step B op = some r) : r.1 = p.next op := by
  cases op with
  | bread b =>
    simp only [Store.step] at h
    split_ifs at h
    rw [← Option.some.inj h]
  | _ => rw [← Option.some.inj h]

theorem Store.Respects.guarded {p : Store D} {ops : List (Op D)} (h : p.Respects ops) (B : Nat) :
    Guarded (fun p op => (Store.step B p op).map Prod.fst) Store.Allows p ops := by
  induction ops generalizing p with
  | nil => trivial
  | cons op ops ih =>
    refine ⟨h.1, ?_⟩
    intro t ht
    obtain ⟨r, hr, rfl⟩ := Option.map_eq_some_iff.mp ht
    rw [step_next hr]
    exact ih (h.2 _ rfl)

def Store.start (disk : Nat → D) : Store D :=
  ⟨fun b => disk (sector b), disk, fun _ => false, fun _ => 0⟩

theorem sector_inj {a b : UInt32} (ha : Small a) (hb : Small b) (h : sector a = sector b) :
    a = b := by
  unfold Small at ha hb
  unfold sector at h
  apply UInt32.toNat.inj
  rw [UInt32.toNat_mul, UInt32.toNat_mul] at h
  have h2 : (2 : UInt32).toNat = 2 := rfl
  rw [h2] at h
  omega

end Store

section Coherent

variable {B : Nat} {D S : Type} {c : Bufs B D} {var : UInt32 → Option (Fin B)} {p : Store D}

/-- Buffer `x` is the one of block `b`. -/
def At (c : Bufs B D) (x : Fin B) (b : UInt32) : Prop :=
  (c.buf x).dev = ROOTDEV ∧ (c.buf x).blockno = b

/-- What the buffers have to do with the store. A block has at most one buffer, which is as the
store says, and the blocks in use have one. -/
structure Coherent (c : Bufs B D) (var : UInt32 → Option (Fin B)) (p : Store D) : Prop where
  spare : ∀ x, (c.buf x).dev ≠ ROOTDEV → (c.buf x).refcnt = 0 ∧ (c.buf x).locked = false
  one : ∀ x y b, At c x b → At c y b → x = y
  small : ∀ x b, At c x b → Small b
  count : ∀ x b, At c x b → (c.buf x).refcnt = p.refs b
  lock : ∀ x b, At c x b → (c.buf x).locked = p.held b
  data : ∀ x b, At c x b → (c.buf x).valid = true ∧ (c.buf x).data = p.view b
  cached : ∀ b, 0 < p.refs b → ∃ x, At c x b
  var : ∀ b, p.held b = true → ∃ x, var b = some x ∧ At c x b
  disk : c.disk = p.disk
  clean : ∀ b, Small b → p.refs b = 0 → p.view b = p.disk (sector b)

theorem Coherent.at_of_ref (h : Coherent c var p) {x : Fin B} (hx : (c.buf x).refcnt ≠ 0) :
    At c x (c.buf x).blockno := by
  refine ⟨?_, rfl⟩
  by_contra hdev
  exact hx (h.spare x hdev).1

/-- The store is full if and only if all buffers are in use. -/
theorem Coherent.full_iff (h : Coherent c var p) : p.Full B ↔ ∀ x, (c.buf x).refcnt ≠ 0 := by
  constructor
  · rintro ⟨f, hf, hrefs⟩ y
    choose g hg using fun x => h.cached (f x) (hrefs x)
    have hinj : Function.Injective g := by
      intro x x' he
      apply hf
      rw [← (hg x).2, ← (hg x').2, he]
    obtain ⟨x, rfl⟩ := Finite.injective_iff_surjective.mp hinj y
    have := hrefs x
    rw [h.count _ _ (hg x)]
    omega
  · intro hall
    refine ⟨fun x => (c.buf x).blockno, ?_, ?_⟩
    · intro x y he
      exact h.one x y _ (h.at_of_ref (hall x)) ⟨(h.at_of_ref (hall y)).1, he.symm⟩
    · intro x
      rw [← h.count x _ (h.at_of_ref (hall x))]
      exact Nat.pos_of_ne_zero (hall x)

/-- The buffer `x` becomes or stays the one of block `b`, and the store changes for `b` only. -/
theorem Coherent.assign (h : Coherent c var p) (x : Fin B) (b : UInt32) {c' : Bufs B D}
    {var' : UInt32 → Option (Fin B)} {p' : Store D} (hother : ∀ y, y ≠ x → c'.buf y = c.buf y)
    (hb : At c' x b) (hsmall : Small b)
    (honly : ∀ y, At c y b → y = x) (hold : ∀ a, a ≠ b → At c x a → p.refs a = 0)
    (hcount : (c'.buf x).refcnt = p'.refs b) (hlock : (c'.buf x).locked = p'.held b)
    (hdata : (c'.buf x).valid = true ∧ (c'.buf x).data = p'.view b)
    (hsame : ∀ a, a ≠ b → p'.refs a = p.refs a ∧ p'.held a = p.held a ∧ p'.view a = p.view a)
    (hvar : p'.held b = true → var' b = some x) (hvars : ∀ a, a ≠ b → var' a = var a)
    (hdisk : c'.disk = p'.disk)
    (hdisks : ∀ a, a ≠ b → Small a → p'.disk (sector a) = p.disk (sector a))
    (hclean : p'.refs b = 0 → p'.view b = p'.disk (sector b)) :
    Coherent c' var' p' := by
  -- a buffer of another block is another buffer
  have hat (y : Fin B) (a : UInt32) (hy : At c' y a) :
      (y = x ∧ a = b) ∨ (y ≠ x ∧ a ≠ b ∧ At c y a) := by
    by_cases hyx : y = x
    · subst hyx
      exact Or.inl ⟨rfl, hy.2.symm.trans hb.2⟩
    · unfold At at hy
      rw [hother y hyx] at hy
      refine Or.inr ⟨hyx, ?_, hy⟩
      rintro rfl
      exact hyx (honly y hy)
  -- a block that is in use keeps its buffer
  have hkept (y : Fin B) (a : UInt32) (ha : a ≠ b) (hr : 0 < p.refs a) (hy : At c y a) :
      At c' y a := by
    have hyx : y ≠ x := by
      rintro rfl
      have := hold a ha hy
      omega
    unfold At
    rw [hother y hyx]
    exact hy
  refine ⟨?_, ?_, ?_, ?_, ?_, ?_, ?_, ?_, hdisk, ?_⟩
  · intro y hy
    by_cases hyx : y = x
    · subst hyx
      exact absurd hb.1 hy
    · rw [hother y hyx] at hy ⊢
      exact h.spare y hy
  · intro y z a hy hz
    rcases hat y a hy with ⟨rfl, rfl⟩ | ⟨hyx, hab, hy⟩
    · rcases hat z _ hz with ⟨rfl, -⟩ | ⟨-, hab, -⟩
      · rfl
      · exact absurd rfl hab
    · rcases hat z a hz with ⟨-, hab'⟩ | ⟨-, -, hz⟩
      · exact absurd hab' hab
      · exact h.one y z a hy hz
  · intro y a hy
    rcases hat y a hy with ⟨-, rfl⟩ | ⟨-, -, hy⟩
    · exact hsmall
    · exact h.small y a hy
  · intro y a hy
    rcases hat y a hy with ⟨rfl, rfl⟩ | ⟨hyx, hab, hy⟩
    · exact hcount
    · rw [hother y hyx, (hsame a hab).1]
      exact h.count y a hy
  · intro y a hy
    rcases hat y a hy with ⟨rfl, rfl⟩ | ⟨hyx, hab, hy⟩
    · exact hlock
    · rw [hother y hyx, (hsame a hab).2.1]
      exact h.lock y a hy
  · intro y a hy
    rcases hat y a hy with ⟨rfl, rfl⟩ | ⟨hyx, hab, hy⟩
    · exact hdata
    · rw [hother y hyx, (hsame a hab).2.2]
      exact h.data y a hy
  · intro a ha
    by_cases hab : a = b
    · exact ⟨x, hab ▸ hb⟩
    · rw [(hsame a hab).1] at ha
      obtain ⟨y, hy⟩ := h.cached a ha
      exact ⟨y, hkept y a hab ha hy⟩
  · intro a ha
    by_cases hab : a = b
    · subst hab
      exact ⟨x, hvar ha, hb⟩
    · rw [(hsame a hab).2.1] at ha
      obtain ⟨y, hy, hya⟩ := h.var a ha
      have hr : 0 < p.refs a := by
        unfold Store.refs
        rw [if_pos ha]
        omega
      exact ⟨y, (hvars a hab).trans hy, hkept y a hab hr hya⟩
  · intro a hs ha
    by_cases hab : a = b
    · subst hab
      exact hclean ha
    · rw [(hsame a hab).1] at ha
      rw [(hsame a hab).2.2, hdisks a hab hs]
      exact h.clean a hs ha

end Coherent

section Lawful

variable {B : Nat} {D S : Type}

def Bufs.SameTags (c c' : Bufs B D) : Prop :=
  ∀ x, (c'.buf x).dev = (c.buf x).dev ∧ (c'.buf x).blockno = (c.buf x).blockno

/-- What bget may do: use the buffer of the block, or recycle an unused one if there is none. -/
inductive Gets (k : Cache B D S) (Inv : S → Prop) (s : S) (dev blockno : UInt32) :
    Option (S × Fin B) → Prop
  | hit (x : Fin B) (t : S) (c : Bufs B D) (matched : (k.bufs s).Matches dev blockno x = true)
      (shared : (k.bufs s).share x = some c) (bufs : k.bufs t = c) (inv : Inv t) :
      Gets k Inv s dev blockno (some (t, x))
  | recycle (x : Fin B) (t : S) (c : Bufs B D)
      (missing : ∀ y, (k.bufs s).Matches dev blockno y = false)
      (unused : ((k.bufs s).buf x).refcnt = 0)
      (recycled : (k.bufs s).recycle x dev blockno = some c) (bufs : k.bufs t = c) (inv : Inv t) :
      Gets k Inv s dev blockno (some (t, x))
  | panic (missing : ∀ y, (k.bufs s).Matches dev blockno y = false)
      (used : ∀ y, ((k.bufs s).buf y).refcnt ≠ 0) : Gets k Inv s dev blockno none
  | sleep (x : Fin B) (matched : (k.bufs s).Matches dev blockno x = true ∨
        ((k.bufs s).buf x).refcnt = 0) (locked : ((k.bufs s).buf x).locked = true) :
      Gets k Inv s dev blockno none

/-- A cache that finds the buffers of its blocks, whichever it recycles. -/
structure Lawful (k : Cache B D S) (Inv : S → Prop) : Prop where
  bufs_setBufs : ∀ s c, k.bufs (k.setBufs s c) = c
  keep : ∀ s c, Inv s → (k.bufs s).SameTags c → Inv (k.setBufs s c)
  bget : ∀ s dev blockno, Inv s → Gets k Inv s dev blockno (k.bget s dev blockno)
  brelse : ∀ s b ticks, Inv s → ((k.bufs s).buf b).locked = true → ∃ t n,
    k.brelse s b ticks = some t ∧ Inv t ∧ k.bufs t = (k.bufs s).set b
      { (k.bufs s).buf b with
        locked := false, refcnt := ((k.bufs s).buf b).refcnt - 1, lastuse := n }

theorem matches_iff {c : Bufs B D} {x : Fin B} {b : UInt32} :
    c.Matches ROOTDEV b x = true ↔ At c x b := by
  unfold Bufs.Matches At
  rw [Bool.and_eq_true, beq_iff_eq, beq_iff_eq]

theorem set_buf (c : Bufs B D) (x : Fin B) (v : Buf D) : (c.set x v).buf x = v :=
  Function.update_self _ _ _

theorem set_buf_ne (c : Bufs B D) (v : Buf D) {x y : Fin B} (h : y ≠ x) :
    (c.set x v).buf y = c.buf y :=
  Function.update_of_ne h _ _

theorem set_sameTags (c : Bufs B D) (x : Fin B) (v : Buf D) (hd : v.dev = (c.buf x).dev)
    (hb : v.blockno = (c.buf x).blockno) : c.SameTags (c.set x v) := by
  intro y
  by_cases hy : y = x
  · rw [hy, set_buf]
    exact ⟨hd, hb⟩
  · rw [set_buf_ne c v hy]
    exact ⟨rfl, rfl⟩

theorem share_eq {c c' : Bufs B D} {x : Fin B} (h : c.share x = some c') :
    (c.buf x).locked = false ∧
      c' = c.set x { c.buf x with refcnt := (c.buf x).refcnt + 1, locked := true } := by
  unfold Bufs.share Bufs.acquiresleep at h
  rw [set_buf] at h
  split_ifs at h with hl
  refine ⟨by simpa using hl, ?_⟩
  rw [← Option.some.inj h]
  unfold Bufs.set
  simp only [Function.update_idem]

theorem recycle_eq {c c' : Bufs B D} {x : Fin B} {dev b : UInt32}
    (h : c.recycle x dev b = some c') : c' = c.set x
      { c.buf x with dev := dev, blockno := b, refcnt := 1, valid := false, locked := true } := by
  unfold Bufs.recycle Bufs.acquiresleep at h
  rw [set_buf] at h
  split_ifs at h with hl
  rw [← Option.some.inj h]
  unfold Bufs.set
  simp only [Function.update_idem]

theorem fill_valid {c : Bufs B D} {x : Fin B} (h : (c.buf x).valid = true) : c.fill x = c := by
  unfold Bufs.fill
  rw [if_pos h]

theorem fill_invalid {c : Bufs B D} {x : Fin B} (h : (c.buf x).valid = false) :
    c.fill x = c.set x
      { c.buf x with data := c.disk (sector (c.buf x).blockno), valid := true } := by
  unfold Bufs.fill Bufs.virtioDiskRw
  rw [if_neg (by rw [h]; exact Bool.false_ne_true)]
  simp only [Bool.false_eq_true, if_false, set_buf]
  unfold Bufs.set
  simp only [Function.update_idem]

end Lawful

section Refines

variable {B : Nat} {D S : Type} {k : Cache B D S} {Inv : S → Prop}

/-- The cache of a program stands for the store. -/
structure Stands (k : Cache B D S) (Inv : S → Prop) (s : Prog B S) (p : Store D) : Prop where
  inv : Inv s.cache
  coherent : Coherent (k.bufs s.cache) s.var p

variable {s : Prog B S} {p : Store D} {b : UInt32}

theorem refs_of_held (h : p.held b = true) : p.refs b = p.pins b + 1 := by
  unfold Store.refs
  rw [if_pos h, Nat.add_comm]

theorem refs_of_free (h : p.held b = false) : p.refs b = p.pins b := by
  unfold Store.refs
  rw [h]
  exact Nat.zero_add _

/-- The buffer of the held block `b` is changed in place. -/
theorem Coherent.edit {c c' : Bufs B D} {var : UInt32 → Option (Fin B)} {p' : Store D} {x : Fin B}
    {v : Buf D} (h : Coherent c var p) (hheld : p.held b = true) (hat : At c x b)
    (hother : ∀ y, y ≠ x → c'.buf y = c.buf y) (hx : c'.buf x = v)
    (hv : v.dev = (c.buf x).dev ∧ v.blockno = (c.buf x).blockno) (hcount : v.refcnt = p'.refs b)
    (hlock : v.locked = p'.held b) (hdata : v.valid = true ∧ v.data = p'.view b)
    (hsame : ∀ a, a ≠ b → p'.refs a = p.refs a ∧ p'.held a = p.held a ∧ p'.view a = p.view a)
    (hdisk : c'.disk = p'.disk)
    (hdisks : ∀ a, a ≠ b → Small b → Small a → p'.disk (sector a) = p.disk (sector a))
    (hclean : p'.refs b = 0 → p'.view b = p'.disk (sector b)) : Coherent c' var p' := by
  subst hx
  have hsmall := h.small x b hat
  apply h.assign x b hother ⟨hv.1.trans hat.1, hv.2.trans hat.2⟩ hsmall
    (fun y hy => h.one y x b hy hat) _ hcount hlock hdata hsame _ (fun _ _ => rfl) hdisk
    (fun a ha => hdisks a ha hsmall) hclean
  · intro a ha hxa
    exact absurd (hxa.2.symm.trans hat.2) ha
  · intro _
    obtain ⟨y, hy, hyat⟩ := h.var b hheld
    rw [hy, h.one y x b hyat hat]

theorem modify_refines (hk : Lawful k Inv) (h : Stands k Inv s p) (f : D → D)
    (hheld : p.held b = true) :
    SameOut (fun p s => Stands k Inv s p) (p.step B (.modify b f)) (k.step s (.modify b f)) := by
  obtain ⟨x, hx, hat⟩ := h.coherent.var b hheld
  have hrefs := refs_of_held hheld
  simp only [Cache.step, hx, Option.map_some, Store.step, Store.next]
  refine Option.Rel.some ⟨⟨hk.keep _ _ h.inv (set_sameTags _ _ _ rfl rfl), ?_⟩, rfl⟩
  simp only [Cache.put, hk.bufs_setBufs]
  refine h.coherent.edit hheld hat (fun y hy => set_buf_ne _ _ hy) (set_buf _ _ _) ⟨rfl, rfl⟩
    (h.coherent.count x b hat) (h.coherent.lock x b hat) ⟨(h.coherent.data x b hat).1, ?_⟩ ?_
    h.coherent.disk (fun _ _ _ _ => rfl) (fun h0 => ?_)
  · simp only [Function.update_self]
    rw [(h.coherent.data x b hat).2]
  · intro a ha
    exact ⟨rfl, rfl, Function.update_of_ne ha _ _⟩
  · have h0' : p.refs b = 0 := h0
    omega

theorem bwrite_refines (hk : Lawful k Inv) (h : Stands k Inv s p) (hheld : p.held b = true) :
    SameOut (fun p s => Stands k Inv s p) (p.step B (.bwrite b)) (k.step s (.bwrite b)) := by
  obtain ⟨x, hx, hat⟩ := h.coherent.var b hheld
  have hrefs := refs_of_held hheld
  have hlock := (h.coherent.lock x b hat).trans hheld
  have hdata := (h.coherent.data x b hat).2
  simp only [Cache.step, hx, Option.bind_some, Store.step, Store.next, Bufs.bwrite, hlock, if_true,
    Option.map_some]
  refine Option.Rel.some ⟨⟨hk.keep _ _ h.inv (fun y => ⟨rfl, rfl⟩), ?_⟩, rfl⟩
  simp only [Cache.put, hk.bufs_setBufs, Bufs.virtioDiskRw, if_true]
  refine h.coherent.edit hheld hat (fun _ _ => rfl) rfl ⟨rfl, rfl⟩
    (h.coherent.count x b hat) (h.coherent.lock x b hat) (h.coherent.data x b hat)
    (fun _ _ => ⟨rfl, rfl, rfl⟩) ?_ ?_ (fun h0 => ?_)
  · simp only
    rw [h.coherent.disk, hat.2, hdata]
  · intro a ha hb hsmall
    exact Function.update_of_ne (fun he => ha (sector_inj hsmall hb he)) _ _
  · have h0' : p.refs b = 0 := h0
    omega

theorem bpin_refines (hk : Lawful k Inv) (h : Stands k Inv s p) (hheld : p.held b = true) :
    SameOut (fun p s => Stands k Inv s p) (p.step B (.bpin b)) (k.step s (.bpin b)) := by
  obtain ⟨x, hx, hat⟩ := h.coherent.var b hheld
  have hcount := h.coherent.count x b hat
  simp only [Cache.step, hx, Option.map_some, Store.step, Store.next]
  refine Option.Rel.some ⟨⟨hk.keep _ _ h.inv (set_sameTags _ _ _ rfl rfl), ?_⟩, rfl⟩
  simp only [Cache.put, hk.bufs_setBufs]
  refine h.coherent.edit hheld hat (fun y hy => set_buf_ne _ _ hy) (set_buf _ _ _) ⟨rfl, rfl⟩
    ?_ (h.coherent.lock x b hat) (h.coherent.data x b hat) ?_ h.coherent.disk
    (fun _ _ _ _ => rfl) (fun h0 => ?_)
  · unfold Store.refs at hcount ⊢
    simp only [Function.update_self]
    omega
  · intro a ha
    unfold Store.refs
    simp only [Function.update_of_ne ha]
    exact ⟨trivial, trivial, trivial⟩
  · unfold Store.refs at h0
    simp only [Function.update_self] at h0
    omega

theorem bunpin_refines (hk : Lawful k Inv) (h : Stands k Inv s p) (hheld : p.held b = true)
    (hpins : 0 < p.pins b) :
    SameOut (fun p s => Stands k Inv s p) (p.step B (.bunpin b)) (k.step s (.bunpin b)) := by
  obtain ⟨x, hx, hat⟩ := h.coherent.var b hheld
  have hcount := h.coherent.count x b hat
  simp only [Cache.step, hx, Option.map_some, Store.step, Store.next]
  refine Option.Rel.some ⟨⟨hk.keep _ _ h.inv (set_sameTags _ _ _ rfl rfl), ?_⟩, rfl⟩
  simp only [Cache.put, hk.bufs_setBufs]
  refine h.coherent.edit hheld hat (fun y hy => set_buf_ne _ _ hy) (set_buf _ _ _) ⟨rfl, rfl⟩
    ?_ (h.coherent.lock x b hat) (h.coherent.data x b hat) ?_ h.coherent.disk
    (fun _ _ _ _ => rfl) (fun h0 => ?_)
  · unfold Store.refs at hcount ⊢
    simp only [Function.update_self]
    omega
  · intro a ha
    unfold Store.refs
    simp only [Function.update_of_ne ha]
    exact ⟨trivial, trivial, trivial⟩
  · unfold Store.refs at h0
    simp only [hheld, if_true] at h0
    omega

theorem brelse_refines (hk : Lawful k Inv) (h : Stands k Inv s p) (ticks : Nat)
    (hheld : p.held b = true) (hclean : p.pins b = 0 → p.view b = p.disk (sector b)) :
    SameOut (fun p s => Stands k Inv s p) (p.step B (.brelse b ticks))
      (k.step s (.brelse b ticks)) := by
  obtain ⟨x, hx, hat⟩ := h.coherent.var b hheld
  have hcount := h.coherent.count x b hat
  rw [refs_of_held hheld] at hcount
  have hlock := (h.coherent.lock x b hat).trans hheld
  obtain ⟨t, n, ht, hinv, hbufs⟩ := hk.brelse s.cache x ticks h.inv hlock
  simp only [Cache.step, hx, Option.bind_some, ht, Option.map_some, Store.step, Store.next]
  refine Option.Rel.some ⟨⟨hinv, ?_⟩, rfl⟩
  simp only [hbufs]
  refine h.coherent.edit hheld hat (fun y hy => set_buf_ne _ _ hy) (set_buf _ _ _) ⟨rfl, rfl⟩
    ?_ ?_ (h.coherent.data x b hat) ?_ h.coherent.disk (fun _ _ _ _ => rfl) (fun h0 => ?_)
  · unfold Store.refs
    simp only [Function.update_self, Bool.false_eq_true, if_false]
    omega
  · simp only [Function.update_self]
  · intro a ha
    unfold Store.refs
    simp only [Function.update_of_ne ha]
    exact ⟨trivial, trivial, trivial⟩
  · unfold Store.refs at h0
    simp only [Function.update_self, Bool.false_eq_true, if_false, Nat.zero_add] at h0
    exact hclean h0

/-- A block without a reference that is not cached gets an unused buffer, or a cached one
its own. -/
theorem Coherent.read {c c' : Bufs B D} {var : UInt32 → Option (Fin B)} {x : Fin B} {v : Buf D}
    (h : Coherent c var p) (hfree : p.held b = false) (hsmall : Small b)
    (hone : ∀ y, At c y b → y = x) (hold : ∀ a, a ≠ b → At c x a → p.refs a = 0)
    (hother : ∀ y, y ≠ x → c'.buf y = c.buf y) (hx : c'.buf x = v)
    (hv : v.dev = ROOTDEV ∧ v.blockno = b) (hcount : v.refcnt = p.refs b + 1)
    (hlock : v.locked = true) (hdata : v.valid = true ∧ v.data = p.view b)
    (hdisk : c'.disk = c.disk) :
    Coherent c' (Function.update var b (some x))
      { p with held := Function.update p.held b true } := by
  subst hx
  have hrefs := refs_of_free hfree
  refine h.assign x b hother hv hsmall hone hold ?_ ?_ hdata ?_ (fun _ => Function.update_self ..)
    (fun a ha => Function.update_of_ne ha _ _) (hdisk.trans h.disk) (fun _ _ _ => rfl) ?_
  · unfold Store.refs at hcount ⊢
    simp only [Function.update_self, hfree, Bool.false_eq_true, if_false, if_true] at hcount ⊢
    omega
  · simp only [Function.update_self]
    exact hlock
  · intro a ha
    unfold Store.refs
    simp only [Function.update_of_ne ha]
    exact ⟨trivial, trivial, trivial⟩
  · intro h0
    unfold Store.refs at h0
    simp only [Function.update_self, if_true] at h0
    omega

theorem bread_refines (hk : Lawful k Inv) (h : Stands k Inv s p) (hfree : p.held b = false)
    (hsmall : Small b) :
    SameOut (fun p s => Stands k Inv s p) (p.step B (.bread b)) (k.step s (.bread b)) := by
  have hc := h.coherent
  have hget := hk.bget s.cache ROOTDEV b h.inv
  have hmiss (hno : ∀ y, (k.bufs s.cache).Matches ROOTDEV b y = false) (y : Fin B) :
      ¬At (k.bufs s.cache) y b := by
    intro hy
    have := matches_iff.mpr hy
    rw [hno y] at this
    cases this
  have hzero (hno : ∀ y, (k.bufs s.cache).Matches ROOTDEV b y = false) : p.refs b = 0 := by
    by_contra hr
    obtain ⟨y, hy⟩ := hc.cached b (Nat.pos_of_ne_zero hr)
    exact hmiss hno y hy
  simp only [Cache.step, Store.step, Store.next]
  cases hr : k.bget s.cache ROOTDEV b with
  | none =>
    rw [hr] at hget
    cases hget with
    | panic hno hused =>
      -- no buffers, on either side
      rw [if_pos ⟨hzero hno, hc.full_iff.mpr hused⟩]
      exact Option.Rel.none
    | sleep x hx hl =>
      -- nobody has the lock of a buffer of a free block, or of an unused buffer
      exfalso
      rcases hx with hx | hx
      · rw [hc.lock x b (matches_iff.mp hx), hfree] at hl
        cases hl
      · by_cases hdev : ((k.bufs s.cache).buf x).dev = ROOTDEV
        · rw [hc.lock x _ ⟨hdev, rfl⟩] at hl
          have hrefs := refs_of_held hl
          rw [← hc.count x _ ⟨hdev, rfl⟩, hx] at hrefs
          omega
        · rw [(hc.spare x hdev).2] at hl
          cases hl
  | some r =>
    rw [hr] at hget
    cases hget with
    | hit x t c hx hshare hbufs hinv =>
      -- every buffer of a block is valid, so bread does not go to the disk
      have hat := matches_iff.mp hx
      obtain ⟨hlocked, hcx⟩ := share_eq hshare
      have hvalid : (c.buf x).valid = true := by
        rw [hcx, set_buf]
        exact (hc.data x b hat).1
      have hdata : (c.buf x).data = p.view b := by
        rw [hcx, set_buf]
        exact (hc.data x b hat).2
      have hfull : ¬(p.refs b = 0 ∧ p.Full B) := by
        rintro ⟨h0, hfull⟩
        exact hc.full_iff.mp hfull x ((hc.count x b hat).trans h0)
      rw [if_neg hfull]
      simp only [Option.map_some, hbufs, fill_valid hvalid]
      refine Option.Rel.some ⟨⟨?_, ?_⟩, congrArg some hdata.symm⟩
      · apply hk.keep t _ hinv
        rw [hbufs]
        exact fun y => ⟨rfl, rfl⟩
      · simp only [hk.bufs_setBufs]
        refine hc.read hfree hsmall (fun y hy => hc.one y x b hy hat) ?_
          (fun y hy => by rw [hcx, set_buf_ne _ _ hy]) rfl ?_ ?_ ?_ ⟨hvalid, hdata⟩ ?_
        · intro a ha hxa
          exact absurd (hxa.2.symm.trans hat.2) ha
        · rw [hcx, set_buf]
          exact hat
        · rw [hcx, set_buf, ← hc.count x b hat]
        · rw [hcx, set_buf]
        · rw [hcx]
          rfl
    | recycle x t c hno hunused hrec hbufs hinv =>
      -- a block that nobody refers to is on the disk as it was last seen
      have hcx := recycle_eq hrec
      have h0 := hzero hno
      have hinvalid : (c.buf x).valid = false := by rw [hcx, set_buf]
      have hblock : (c.buf x).blockno = b := by rw [hcx, set_buf]
      have hcdisk : c.disk = (k.bufs s.cache).disk := by
        rw [hcx]
        rfl
      have hfull : ¬(p.refs b = 0 ∧ p.Full B) := by
        rintro ⟨-, hfull⟩
        exact hc.full_iff.mp hfull x hunused
      have hdata : (k.bufs s.cache).disk (sector b) = p.view b := by
        rw [hc.disk, hc.clean b hsmall h0]
      rw [if_neg hfull]
      simp only [Option.map_some, hbufs, fill_invalid hinvalid, set_buf, hblock, hcdisk, hdata]
      refine Option.Rel.some ⟨⟨?_, ?_⟩, rfl⟩
      · apply hk.keep t _ hinv
        rw [hbufs]
        exact set_sameTags c x _ rfl hblock.symm
      · simp only [hk.bufs_setBufs]
        refine hc.read hfree hsmall (fun y hy => absurd hy (hmiss hno y)) ?_
          (fun y hy => by rw [set_buf_ne _ _ hy, hcx, set_buf_ne _ _ hy]) (set_buf _ _ _)
          ⟨?_, rfl⟩ ?_ ?_ ⟨rfl, rfl⟩ hcdisk
        · intro a ha hxa
          exact (hc.count x a hxa).symm.trans hunused
        · rw [hcx, set_buf]
        · rw [hcx, set_buf, h0]
        · rw [hcx, set_buf]

/-- Every allowed call does on the cache what it does on a store of `B` blocks. -/
theorem step_refines (hk : Lawful k Inv) (h : Stands k Inv s p) (op : Op D) (hop : p.Allows op) :
    SameOut (fun p s => Stands k Inv s p) (p.step B op) (k.step s op) := by
  cases op with
  | bread b => exact bread_refines hk h hop.1 hop.2
  | modify b f => exact modify_refines hk h f hop
  | bwrite b => exact bwrite_refines hk h hop
  | brelse b ticks => exact brelse_refines hk h ticks hop.1 hop.2
  | bpin b => exact bpin_refines hk h hop
  | bunpin b => exact bunpin_refines hk h hop.1 hop.2

end Refines

section Instances

variable {B : Nat} {D : Type}

/-- Each buffer is in the bucket of its block, once. -/
def Hashed.Placed (s : Hashed B D) : Prop :=
  ∀ i, (s.bufmap i).Nodup ∧
    ∀ x, x ∈ s.bufmap i ↔ BUFMAP_HASH (s.bufs.buf x).dev (s.bufs.buf x).blockno = i

/-- What the search of a bucket answers is unused and in the bucket, or was there before. -/
theorem scanBucket_mem (c : Bufs B D) (i : Bucket) (l : List (Fin B))
    (least : Option (Bucket × Fin B)) :
    scanBucket c i l least = least ∨
      ∃ x ∈ l, (c.buf x).refcnt = 0 ∧ scanBucket c i l least = some (i, x) := by
  induction l generalizing least with
  | nil => exact Or.inl rfl
  | cons b rest ih =>
    unfold scanBucket
    split_ifs with hb
    · rcases ih (some (i, b)) with hr | ⟨x, hx, h0, hr⟩
      · exact Or.inr ⟨b, List.mem_cons_self .., hb.1, hr⟩
      · exact Or.inr ⟨x, List.mem_cons_of_mem _ hx, h0, hr⟩
    · rcases ih least with hr | ⟨x, hx, h0, hr⟩
      · exact Or.inl hr
      · exact Or.inr ⟨x, List.mem_cons_of_mem _ hx, h0, hr⟩

theorem scanBucket_none (c : Bufs B D) (i : Bucket) (l : List (Fin B))
    (least : Option (Bucket × Fin B)) (h : scanBucket c i l least = none) :
    least = none ∧ ∀ x ∈ l, (c.buf x).refcnt ≠ 0 := by
  induction l generalizing least with
  | nil => exact ⟨h, fun x hx => by cases hx⟩
  | cons b rest ih =>
    unfold scanBucket at h
    split_ifs at h with hb
    · cases (ih _ h).1
    · obtain ⟨hl, hrest⟩ := ih _ h
      refine ⟨hl, ?_⟩
      intro x hx
      rcases List.mem_cons.mp hx with rfl | hx
      · intro h0
        exact hb ⟨h0, by rw [hl]; rfl⟩
      · exact hrest x hx

theorem foldl_scan_mem (s : Hashed B D) (is : List Bucket) (least : Option (Bucket × Fin B)) :
    is.foldl (fun l i => scanBucket s.bufs i (s.bufmap i) l) least = least ∨
      ∃ i x, x ∈ s.bufmap i ∧ (s.bufs.buf x).refcnt = 0 ∧
        is.foldl (fun l i => scanBucket s.bufs i (s.bufmap i) l) least = some (i, x) := by
  induction is generalizing least with
  | nil => exact Or.inl rfl
  | cons i is ih =>
    rw [List.foldl_cons]
    rcases ih (scanBucket s.bufs i (s.bufmap i) least) with hr | hr
    · rw [hr]
      rcases scanBucket_mem s.bufs i (s.bufmap i) least with hl | ⟨x, hx, h0, hl⟩
      · exact Or.inl hl
      · exact Or.inr ⟨i, x, hx, h0, hl⟩
    · exact Or.inr hr

theorem foldl_scan_none (s : Hashed B D) (is : List Bucket) (least : Option (Bucket × Fin B))
    (h : is.foldl (fun l i => scanBucket s.bufs i (s.bufmap i) l) least = none) :
    least = none ∧ ∀ i ∈ is, ∀ x ∈ s.bufmap i, (s.bufs.buf x).refcnt ≠ 0 := by
  induction is generalizing least with
  | nil => exact ⟨h, fun i hi => by cases hi⟩
  | cons i is ih =>
    rw [List.foldl_cons] at h
    obtain ⟨hl, hrest⟩ := ih _ h
    obtain ⟨hl, hi⟩ := scanBucket_none s.bufs i (s.bufmap i) least hl
    refine ⟨hl, ?_⟩
    intro j hj
    rcases List.mem_cons.mp hj with rfl | hj
    · exact hi
    · exact hrest j hj

/-- Buffer `x` moves from its bucket to that of the block. -/
theorem Hashed.Placed.move {s : Hashed B D} (h : s.Placed) {holding key : Bucket} {x : Fin B}
    (hx : x ∈ s.bufmap holding) {c : Bufs B D} (hother : ∀ y, y ≠ x → c.buf y = s.bufs.buf y)
    (hkey : BUFMAP_HASH (c.buf x).dev (c.buf x).blockno = key) :
    Hashed.Placed ⟨c, if holding = key then s.bufmap
      else
        let rest := Function.update s.bufmap holding ((s.bufmap holding).erase x)
        Function.update rest key (x :: rest key)⟩ := by
  have hhome (i : Bucket) (hi : x ∈ s.bufmap i) : i = holding :=
    (((h i).2 x).mp hi).symm.trans (((h holding).2 x).mp hx)
  intro i
  by_cases hsame : holding = key
  · simp only [if_pos hsame]
    refine ⟨(h i).1, ?_⟩
    intro y
    by_cases hy : y = x
    · subst hy
      rw [hkey, ← hsame]
      exact ⟨fun hi => (hhome i hi).symm, fun he => he ▸ hx⟩
    · rw [hother y hy]
      exact (h i).2 y
  · simp only [if_neg hsame]
    rw [Function.update_of_ne (fun he => hsame he.symm) _ s.bufmap]
    have hnot : x ∉ s.bufmap key := fun hk => hsame (hhome key hk).symm
    by_cases hik : i = key
    · subst hik
      rw [Function.update_self]
      refine ⟨List.nodup_cons.mpr ⟨hnot, (h i).1⟩, ?_⟩
      intro y
      rw [List.mem_cons]
      by_cases hy : y = x
      · subst hy
        exact ⟨fun _ => hkey, fun _ => Or.inl rfl⟩
      · rw [hother y hy, ← (h i).2 y]
        exact ⟨fun hm => hm.resolve_left hy, Or.inr⟩
    · rw [Function.update_of_ne hik]
      have hxi : BUFMAP_HASH (c.buf x).dev (c.buf x).blockno ≠ i := by
        rw [hkey]
        exact fun he => hik he.symm
      by_cases hih : i = holding
      · subst hih
        rw [Function.update_self]
        refine ⟨(h i).1.erase x, ?_⟩
        intro y
        rw [(h i).1.mem_erase_iff]
        by_cases hy : y = x
        · subst hy
          exact ⟨fun hm => absurd rfl hm.1, fun he => absurd he hxi⟩
        · rw [hother y hy, ← (h i).2 y]
          exact ⟨fun hm => hm.2, fun hm => ⟨hy, hm⟩⟩
      · rw [Function.update_of_ne hih]
        refine ⟨(h i).1, ?_⟩
        intro y
        by_cases hy : y = x
        · subst hy
          exact ⟨fun hm => absurd (hhome i hm) hih, fun he => absurd he hxi⟩
        · rw [hother y hy]
          exact (h i).2 y

theorem Hashed.Placed.sameTags {s : Hashed B D} (h : s.Placed) {c : Bufs B D}
    (hc : s.bufs.SameTags c) : Hashed.Placed { s with bufs := c } := by
  intro i
  refine ⟨(h i).1, ?_⟩
  intro x
  simp only [(hc x).1, (hc x).2]
  exact (h i).2 x

theorem locked_of_acquiresleep {c : Bufs B D} {x : Fin B} (h : c.acquiresleep x = none) :
    (c.buf x).locked = true := by
  unfold Bufs.acquiresleep at h
  split_ifs at h with hl
  exact hl

theorem hashed_lawful : Lawful (hashed : Cache B D (Hashed B D)) Hashed.Placed := by
  refine ⟨fun s c => rfl, fun s c h hc => h.sameTags hc, ?_, ?_⟩
  · intro s dev blockno h
    simp only [hashed, Hashed.bget]
    cases hf : (s.bufmap (BUFMAP_HASH dev blockno)).find? (s.bufs.Matches dev blockno) with
    | some x =>
      have hx := List.find?_some hf
      simp only
      cases hs : s.bufs.share x with
      | none =>
        refine Gets.sleep x (Or.inl hx) ?_
        have := locked_of_acquiresleep hs
        rwa [set_buf] at this
      | some c =>
        refine Gets.hit x _ c hx hs rfl (h.sameTags ?_)
        rw [(share_eq hs).2]
        exact set_sameTags _ _ _ rfl rfl
    | none =>
      -- a buffer of the block would be in the block's bucket
      have hno : ∀ y, s.bufs.Matches dev blockno y = false := by
        intro y
        by_contra hy
        have hy' : s.bufs.Matches dev blockno y = true := by simpa using hy
        have htag := hy'
        unfold Bufs.Matches at htag
        rw [Bool.and_eq_true, beq_iff_eq, beq_iff_eq] at htag
        have hmem : y ∈ s.bufmap (BUFMAP_HASH dev blockno) := by
          rw [(h _).2 y, htag.1, htag.2]
        exact List.find?_eq_none.mp hf y hmem hy'
      simp only
      cases hl : s.least with
      | none =>
        refine Gets.panic hno ?_
        intro y
        exact (foldl_scan_none s _ none hl).2 _ (List.mem_finRange _) y (((h _).2 y).mpr rfl)
      | some r =>
        obtain ⟨holding, x⟩ := r
        have hmem : x ∈ s.bufmap holding ∧ (s.bufs.buf x).refcnt = 0 := by
          rcases foldl_scan_mem s (List.finRange NBUFMAP_BUCKET) none with hr | ⟨i, y, hy, h0, hr⟩
          · rw [Hashed.least, hr] at hl
            cases hl
          · rw [Hashed.least, hr] at hl
            cases hl
            exact ⟨hy, h0⟩
        simp only
        cases hs : s.bufs.recycle x dev blockno with
        | none =>
          refine Gets.sleep x (Or.inr hmem.2) ?_
          have := locked_of_acquiresleep hs
          rwa [set_buf] at this
        | some c =>
          refine Gets.recycle x _ c hno hmem.2 hs rfl (h.move hmem.1 ?_ ?_)
          · intro y hy
            rw [recycle_eq hs, set_buf_ne _ _ hy]
          · rw [recycle_eq hs, set_buf]
  · intro s b ticks h hl
    simp only [hashed] at hl ⊢
    unfold Hashed.brelse
    rw [if_pos hl]
    have hset (n : Nat) (hn : n = if (s.bufs.buf b).refcnt - 1 = 0 then ticks
        else (s.bufs.buf b).lastuse) :
        (s.bufs.releasesleep b).set b
          (if (s.bufs.buf b).refcnt - 1 = 0 then
            { s.bufs.buf b with
              locked := false, refcnt := (s.bufs.buf b).refcnt - 1, lastuse := ticks }
          else { s.bufs.buf b with locked := false, refcnt := (s.bufs.buf b).refcnt - 1 }) =
          s.bufs.set b { s.bufs.buf b with
            locked := false, refcnt := (s.bufs.buf b).refcnt - 1, lastuse := n } := by
      unfold Bufs.releasesleep Bufs.set
      simp only [Function.update_idem]
      split_ifs at hn ⊢ <;> rw [hn]
    have hbuf : (s.bufs.releasesleep b).buf b = { s.bufs.buf b with locked := false } :=
      set_buf _ _ _
    simp only [hbuf]
    rw [hset _ rfl]
    exact ⟨_, _, rfl, h.sameTags (set_sameTags _ _ _ rfl rfl), rfl⟩

/-- The list has all buffers, once. -/
def Listed.Complete (s : Listed B D) : Prop := s.list.Nodup ∧ ∀ x, x ∈ s.list

theorem listed_lawful : Lawful (listed : Cache B D (Listed B D)) Listed.Complete := by
  refine ⟨fun s c => rfl, fun s c h _ => h, ?_, ?_⟩
  · intro s dev blockno h
    simp only [listed, Listed.bget]
    cases hf : s.list.find? (s.bufs.Matches dev blockno) with
    | some x =>
      have hx := List.find?_some hf
      simp only
      cases hs : s.bufs.share x with
      | none =>
        refine Gets.sleep x (Or.inl hx) ?_
        have := locked_of_acquiresleep hs
        rwa [set_buf] at this
      | some c => exact Gets.hit x _ c hx hs rfl h
    | none =>
      have hno : ∀ y, s.bufs.Matches dev blockno y = false := by
        intro y
        simpa using List.find?_eq_none.mp hf y (h.2 y)
      simp only
      cases hl : s.list.reverse.find? (fun b => (s.bufs.buf b).refcnt = 0) with
      | none =>
        refine Gets.panic hno ?_
        intro y
        simpa using List.find?_eq_none.mp hl y (List.mem_reverse.mpr (h.2 y))
      | some x =>
        have hx : (s.bufs.buf x).refcnt = 0 := by simpa using List.find?_some hl
        simp only
        cases hs : s.bufs.recycle x dev blockno with
        | none =>
          refine Gets.sleep x (Or.inr hx) ?_
          have := locked_of_acquiresleep hs
          rwa [set_buf] at this
        | some c => exact Gets.recycle x _ c hno hx hs rfl h
  · intro s b ticks h hl
    simp only [listed] at hl ⊢
    unfold Listed.brelse
    rw [if_pos hl]
    have hbuf : (s.bufs.releasesleep b).buf b = { s.bufs.buf b with locked := false } :=
      set_buf _ _ _
    simp only [hbuf]
    refine ⟨_, (s.bufs.buf b).lastuse, rfl, ?_, ?_⟩
    · unfold Listed.Complete
      simp only
      split_ifs with h0
      · refine ⟨List.nodup_cons.mpr ⟨h.1.not_mem_erase, h.1.erase b⟩, ?_⟩
        intro x
        rw [List.mem_cons, h.1.mem_erase_iff]
        by_cases hx : x = b
        · exact Or.inl hx
        · exact Or.inr ⟨hx, h.2 x⟩
      · exact h
    · unfold Bufs.releasesleep Bufs.set
      simp only [Function.update_idem]

theorem boot_coherent (junk : Fin B → D) (disk : Nat → D) :
    Coherent (bootBufs junk disk) (fun _ => none) (Store.start disk) := by
  have hno (x : Fin B) (b : UInt32) : ¬At (bootBufs junk disk) x b := fun h => by cases h.1
  refine ⟨fun x _ => ⟨rfl, rfl⟩, fun x y b h => absurd h (hno x b), fun x b h => absurd h (hno x b),
    fun x b h => absurd h (hno x b), fun x b h => absurd h (hno x b),
    fun x b h => absurd h (hno x b), ?_, ?_, rfl, fun _ _ _ => rfl⟩
  · intro b hb
    cases hb
  · intro b hb
    cases hb

theorem hashed_placed (junk : Fin B → D) (disk : Nat → D) :
    (Hashed.binit junk disk).Placed := by
  intro i
  simp only [Hashed.binit, bootBufs]
  split_ifs with hi
  · refine ⟨List.nodup_reverse.mpr (List.nodup_finRange B), ?_⟩
    intro x
    exact ⟨fun _ => hi.symm, fun _ => List.mem_reverse.mpr (List.mem_finRange x)⟩
  · refine ⟨List.nodup_nil, ?_⟩
    intro x
    exact ⟨fun hx => absurd hx List.not_mem_nil, fun he => absurd he.symm hi⟩

/-- What a run of a program shows: the answers and the disk that it leaves. -/
def shown {S : Type} (k : Cache B D S) (s : S) (ops : List (Op D)) :
    Option (List (Option D) × (Nat → D)) :=
  (runOut k.step ⟨s, fun _ => none⟩ ops).map (fun r => (r.2, (k.bufs r.1.cache).disk))

/-- A lawful cache shows what a store of `B` blocks does. -/
theorem shown_store {S : Type} {k : Cache B D S} {Inv : S → Prop} (hk : Lawful k Inv) (s : S)
    (disk : Nat → D) (hs : Stands k Inv ⟨s, fun _ => none⟩ (Store.start disk)) (ops : List (Op D))
    (hok : (Store.start disk).Respects ops) :
    shown k s ops =
      (runOut (Store.step B) (Store.start disk) ops).map (fun r => (r.2, r.1.disk)) := by
  have h := runOut_simulates (Store.step B) k.step Store.Allows (fun p s => Stands k Inv s p)
    (fun p s op h hop => step_refines hk h op hop) _ _ ops hs (hok.guarded B)
  unfold shown
  cases hr : runOut (Store.step B) (Store.start disk) ops with
  | none =>
    rw [hr] at h
    cases hc : runOut k.step ⟨s, fun _ => none⟩ ops with
    | none => rfl
    | some r =>
      rw [hc] at h
      cases h
  | some q =>
    rw [hr] at h
    obtain ⟨r, hc, hst⟩ := h.of_some
    rw [hc, Option.map_some, Option.map_some, hst.coherent.disk]

/-- The two caches give every well-behaved program the same answers, leave the same contents on
the disk and run out of buffers at the same call: both do what a store of `B` blocks does. -/
theorem caches_agree (junk : Fin B → D) (disk : Nat → D) (ops : List (Op D))
    (hok : (Store.start disk).Respects ops) :
    shown hashed (Hashed.binit junk disk) ops = shown listed (Listed.binit junk disk) ops ∧
    shown hashed (Hashed.binit junk disk) ops =
      (runOut (Store.step B) (Store.start disk) ops).map (fun r => (r.2, r.1.disk)) := by
  have hh := shown_store hashed_lawful (Hashed.binit junk disk) disk
    ⟨hashed_placed junk disk, boot_coherent junk disk⟩ ops hok
  have hl := shown_store listed_lawful (Listed.binit junk disk) disk
    ⟨⟨List.nodup_reverse.mpr (List.nodup_finRange B),
      fun x => List.mem_reverse.mpr (List.mem_finRange x)⟩, boot_coherent junk disk⟩ ops hok
  exact ⟨hh.trans hl.symm, hh⟩

/-- A block is read, changed, pinned and given up; its buffer stays, and the block is written after
another read. -/
def pinnedWrite : List (Op Nat) :=
  [.bread 7, .modify 7 (fun d => d + 1), .bpin 7, .brelse 7 3, .bread 20, .brelse 20 4, .bread 7,
    .bwrite 7, .bunpin 7, .brelse 7 5]

theorem caches_agree_pinnedWrite :
    shown hashed (Hashed.binit (fun _ : Fin 2 => 0) (fun _ => 5)) pinnedWrite =
      shown listed (Listed.binit (fun _ : Fin 2 => 0) (fun _ => 5)) pinnedWrite ∧
    (shown hashed (Hashed.binit (fun _ : Fin 2 => 0) (fun _ => 5)) pinnedWrite).map
      (fun r => (r.1, r.2 14)) =
      some ([some 5, none, none, none, some 5, none, some 6, none, none, none], 6) := by
  have hok : (Store.start (fun _ => 5)).Respects pinnedWrite := by
    unfold Store.Respects
    decide
  exact ⟨(caches_agree (fun _ : Fin 2 => 0) (fun _ => 5) pinnedWrite hok).1, by decide⟩

end Instances

end Xv6Labs.Bio
