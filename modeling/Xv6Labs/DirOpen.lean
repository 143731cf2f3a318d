import Xv6Labs.DirRules
import Mathlib.Data.List.GetD
import Mathlib.Data.List.TakeWhile

/-! Opening through symbolic links. sys_open reads the target of a link over the path it has
looked up before, and readi writes no NUL after it. -/
namespace Xv6Labs.Dir

variable {n : Nat} {s s' : State n} {p : Fin n} {omode : Nat}

section Reference

/-- The resolution that replaces the path by the very string of the link. -/
def refLoop (p : Fin n) (omode : Nat) :
    Nat → Path → State n → Except Panic (State n × Option Slot)
  | left, path, s => do
    let r ← openRound s p path omode
    match r.2 with
    | none => .ok (r.1, none)
    | some (ip, false) => .ok (r.1, some ip)
    | some (ip, true) =>
      match left with
      | 0 =>
        let s ← iunlockput r.1 ip
        .ok (s, none)
      | left+1 =>
        let path := (r.1.node ip).data
        let s ← iunlockput r.1 ip
        refLoop p omode left path s

/-- What open without O_CREATE is for. -/
def refOpen (s : State n) (p : Fin n) (path : List UInt8) (omode : Nat) :
    Except Panic (State n × Int) :=
  match argstr path with
  | none => .ok (s, -1)
  | some path => do
    let r ← refLoop p omode MAXDEPTH path (beginOp s)
    match r.2 with
    | none => .ok (endOp r.1, -1)
    | some ip =>
      let r ← openDir r.1 ip omode
      match r.2 with
      | none => .ok (endOp r.1, -1)
      | some ip => openFile r.1 p ip omode

/-- The paths that a loop looks up: `str` reads the current path, and `next` puts the string
of a link in its place. -/
def lookups {β : Type} (str : β → Path) (next : Dinode → β → β) (p : Fin n) (omode : Nat) :
    Nat → β → State n → List Path
  | left, b, s =>
    str b ::
      match openRound s p (str b) omode with
      | .ok (s, some (ip, true)) =>
        match left, iunlockput s ip with
        | left+1, .ok s' => lookups str next p omode left (next (s.node ip) b) s'
        | _, _ => []
      | _ => []

/-- The paths that sys_open looks up when O_CREATE is not set. -/
def openPaths (s : State n) (p : Fin n) (path : List UInt8) (omode : Nat) (stack : List UInt8) :
    List Path :=
  match argstr path with
  | none => []
  | some path =>
    lookups cstring readPath p omode MAXDEPTH (pathBuffer path stack) (beginOp s)

/-- The given path and the strings of the links that have to be followed. -/
def refPaths (s : State n) (p : Fin n) (path : List UInt8) (omode : Nat) : List Path :=
  match argstr path with
  | none => []
  | some path => lookups id (fun d _ => d.data) p omode MAXDEPTH path (beginOp s)

/-- The links hold what sys_symlink stores. -/
def Stored (s : State n) : Prop :=
  ∀ k, (s.disk k).type = .symlink → 0 ∉ (s.disk k).data ∧ (s.disk k).data.length < MAXPATH

/-- The strings do not get shorter from one to the next, and each one ends where the path
buffer held a NUL at the start. -/
def Fits (buf : List UInt8) (paths : List Path) : Prop :=
  paths.IsChain (fun t u => t.length ≤ u.length) ∧ ∀ u ∈ paths, buf.getD u.length 0 = 0

/-- `Fits` for the chain of links from a path on. -/
def ChainFits (s : State n) (p : Fin n) (path : List UInt8) (omode : Nat) (stack : List UInt8) :
    Prop :=
  match argstr path with
  | none => True
  | some given => Fits (pathBuffer given stack) (refPaths s p path omode)

end Reference

section Buffers

variable {buf t u : List UInt8}

theorem cstring_append (h : 0 ∉ t) (r : List UInt8) : cstring (t ++ r) = t ++ cstring r := by
  unfold cstring
  rw [List.takeWhile_append_of_pos]
  intro b hb
  have hne : b ≠ 0 := fun hz => h (hz ▸ hb)
  simpa using hne

theorem cstring_eq_nil_iff (r : List UInt8) : cstring r = [] ↔ r.getD 0 0 = 0 := by
  cases r with
  | nil => simp [cstring]
  | cons b r => by_cases hb : b = 0 <;> simp [cstring, hb]

/-- A string in a buffer is read back when a NUL follows. -/
theorem cstring_append_eq_iff (h : 0 ∉ t) (r : List UInt8) :
    cstring (t ++ r) = t ↔ r.getD 0 0 = 0 := by
  rw [cstring_append h, ← cstring_eq_nil_iff]
  exact List.append_right_eq_self

theorem zero_not_mem_cstring (r : List UInt8) : 0 ∉ cstring r := by
  intro h
  have hne := List.mem_takeWhile_imp h
  simp at hne

theorem getD_drop_zero (l : List UInt8) (k : Nat) : (l.drop k).getD 0 0 = l.getD k 0 := by
  simp [List.getD_eq_getElem?_getD, List.getElem?_drop]

/-- After the string `t`, what the buffer holds of the string `u` that is read over it. -/
theorem readPath_string_iff (buf : List UInt8) (d : Dinode) (ht : 0 ∉ t) (hd : 0 ∉ d.data)
    (hlen : d.data.length < MAXPATH) :
    cstring (readPath d (t ++ buf.drop t.length)) = d.data ↔
      t.length ≤ d.data.length ∧ buf.getD d.data.length 0 = 0 := by
  have htake : d.data.take MAXPATH = d.data := List.take_of_length_le (by omega)
  simp only [readPath, htake]
  rw [cstring_append_eq_iff hd, getD_drop_zero]
  by_cases hle : t.length ≤ d.data.length
  · rw [List.getD_append_right _ _ _ _ hle, ← getD_drop_zero, List.drop_drop, getD_drop_zero,
      Nat.add_sub_cancel' hle]
    simp [hle]
  · have hlt : d.data.length < t.length := by omega
    rw [List.getD_append _ _ _ _ hlt, List.getD_eq_getElem _ _ hlt]
    have hne : t[d.data.length] ≠ 0 := fun hz => ht (hz ▸ List.getElem_mem hlt)
    simp [hle, hne]

/-- When the string does not get shorter, the rest of the buffer is as it was at the start. -/
theorem readPath_buffer (d : Dinode) (hlen : d.data.length < MAXPATH)
    (hle : t.length ≤ d.data.length) :
    readPath d (t ++ buf.drop t.length) = d.data ++ buf.drop d.data.length := by
  have htake : d.data.take MAXPATH = d.data := List.take_of_length_le (by omega)
  simp only [readPath, htake]
  rw [List.drop_append, List.drop_eq_nil_of_le hle, List.nil_append, List.drop_drop,
    Nat.add_sub_cancel' hle]

end Buffers

section Stored

theorem frame_stored : Frame (fun s s' : State n => Stored s → Stored s') where
  refl := fun _ h => h
  trans := fun _ _ _ h h' hs => h' (h hs)
  entry := fun _ _ _ h => h
  freed := by
    intro s i h k hk
    rw [setNode_disk] at hk ⊢
    split at hk
    · cases hk
    · rename_i hne
      rw [if_neg hne]
      exact h k hk

theorem openRound_stored {path : Path} {r : State n × Option (Slot × Bool)} (h : Stored s)
    (hr : openRound s p path omode = .ok r) : Stored r.1 :=
  (openRound_frame frame_stored s p path omode).of_ok hr h

theorem iunlockput_stored {ip : Slot} (h : Stored s) (hs : iunlockput s ip = .ok s') : Stored s' :=
  (iunlockput_frame frame_stored s ip).of_ok hs h

/-- The inode that a round follows is a link. -/
theorem openRound_symlink {path : Path} {t : State n} {ip : Slot}
    (hr : openRound s p path omode = .ok (t, some (ip, true))) : (t.node ip).type = .symlink := by
  unfold openRound at hr
  obtain ⟨r, -, hr⟩ := (bind_ok_iff _ _ _).mp hr
  split at hr
  · cases hr
  · obtain ⟨u, -, hu⟩ := (bind_ok_iff _ _ _).mp hr
    simp only [Except.ok.injEq, Prod.mk.injEq, Option.some.injEq] at hu
    obtain ⟨rfl, rfl, hlink⟩ := hu
    simp only [Bool.and_eq_true, decide_eq_true_eq] at hlink
    exact hlink.1

theorem openRound_target {path : Path} {t : State n} {ip : Slot} (h : Stored s)
    (hr : openRound s p path omode = .ok (t, some (ip, true))) :
    Stored t ∧ 0 ∉ (t.node ip).data ∧ (t.node ip).data.length < MAXPATH := by
  have ht : Stored t := openRound_stored h hr
  exact ⟨ht, ht (t.icache ip).inum (openRound_symlink hr)⟩

end Stored

section Loops

variable {buf t : List UInt8}

theorem fits_single (hend : buf.getD t.length 0 = 0) : Fits buf [t] := by
  refine ⟨List.IsChain.singleton t, ?_⟩
  intro u hu
  rw [List.mem_singleton.mp hu]
  exact hend

theorem fits_cons_cons (hend : buf.getD t.length 0 = 0) (u : Path) (us : List Path) :
    Fits buf (t :: u :: us) ↔ t.length ≤ u.length ∧ Fits buf (u :: us) := by
  unfold Fits
  rw [List.isChain_cons_cons]
  constructor
  · rintro ⟨⟨hle, hchain⟩, hall⟩
    exact ⟨hle, hchain, fun v hv => hall v (List.mem_cons_of_mem _ hv)⟩
  · rintro ⟨hle, hchain, hall⟩
    refine ⟨⟨hle, hchain⟩, ?_⟩
    intro v hv
    rcases List.mem_cons.mp hv with rfl | hv
    · exact hend
    · exact hall v hv

/-- Every list of looked-up paths starts with the current path. -/
theorem lookups_head {β : Type} (str : β → Path) (next : Dinode → β → β) (p : Fin n)
    (omode left : Nat) (b : β) (s : State n) :
    ∃ ts, lookups str next p omode left b s = str b :: ts := by
  unfold lookups
  exact ⟨_, rfl⟩

theorem fits_lookups (hend : buf.getD t.length 0 = 0) (next : Dinode → Path → Path)
    (left : Nat) (u : Path) (s : State n) :
    Fits buf (t :: lookups id next p omode left u s) ↔
      t.length ≤ u.length ∧ Fits buf (lookups id next p omode left u s) := by
  obtain ⟨us, hus⟩ := lookups_head id next p omode left u s
  rw [hus, id_eq, fits_cons_cons hend]

/-- The rest of the looked-up paths after a link. -/
theorem lookups_link {β : Type} (str : β → Path) (next : Dinode → β → β) (left : Nat) (b : β)
    {t u : State n} {ip : Slot} (hr : openRound s p (str b) omode = .ok (t, some (ip, true)))
    (hu : iunlockput t ip = .ok u) :
    lookups str next p omode (left+1) b s =
      str b :: lookups str next p omode left (next (t.node ip) b) u := by
  conv_lhs => unfold lookups
  simp only [hr, hu]

/-- A round either goes on through a link or is the last one. -/
theorem round_cases (s : State n) (p : Fin n) (path : Path) (omode left : Nat) :
    (∃ left' t ip u, left = left' + 1 ∧ openRound s p path omode = .ok (t, some (ip, true)) ∧
      iunlockput t ip = .ok u) ∨
    ∀ {β : Type} (str : β → Path) (next : Dinode → β → β) (b : β), str b = path →
      lookups str next p omode left b s = [path] := by
  by_cases h : ∃ left' t ip u, left = left' + 1 ∧
      openRound s p path omode = .ok (t, some (ip, true)) ∧ iunlockput t ip = .ok u
  · exact Or.inl h
  · refine Or.inr (fun str next b hb => ?_)
    unfold lookups
    rw [hb]
    congr 1
    split
    · rename_i t ip hr
      split
      · rename_i left' u hu
        exact absurd ⟨left', t, ip, u, rfl, hr, hu⟩ h
      · rfl
    · rfl

/-- The string in the buffer at the start of a round. -/
theorem cstring_current (ht : 0 ∉ t) (hend : buf.getD t.length 0 = 0) :
    cstring (t ++ buf.drop t.length) = t := by
  rw [cstring_append_eq_iff ht, getD_drop_zero]
  exact hend

/-- The two loops look up the same paths exactly when the strings fit. `buf` is the buffer at
the start and `t` the current path. -/
theorem lookups_eq_iff (p : Fin n) (omode left : Nat) (hs : Stored s) (ht : 0 ∉ t)
    (hend : buf.getD t.length 0 = 0) :
    lookups cstring readPath p omode left (t ++ buf.drop t.length) s =
        lookups id (fun d _ => d.data) p omode left t s ↔
      Fits buf (lookups id (fun d _ => d.data) p omode left t s) := by
  have hcur := cstring_current ht hend
  induction left generalizing s t with
  | zero =>
    rcases round_cases s p t omode 0 with ⟨left', _, _, _, hleft, _⟩ | hlast
    · cases hleft
    · rw [hlast cstring _ _ hcur, hlast id _ _ rfl]
      simp [fits_single hend]
  | succ left ih =>
    rcases round_cases s p t omode (left+1) with ⟨left', t', ip, u, hleft, hr, hu⟩ | hlast
    · obtain rfl : left = left' := by omega
      obtain ⟨hs', hd, hlen⟩ := openRound_target hs hr
      rw [lookups_link cstring readPath left _ (by rw [hcur]; exact hr) hu,
        lookups_link id _ left t hr hu, hcur]
      have hiff := readPath_string_iff buf (t'.node ip) ht hd hlen
      by_cases hle : t.length ≤ (t'.node ip).data.length ∧
          buf.getD (t'.node ip).data.length 0 = 0
      · -- the target is read back: the loops go on in step
        rw [readPath_buffer _ hlen hle.1]
        have hrest := ih (iunlockput_stored hs' hu) hd hle.2 (cstring_current hd hle.2)
        rw [id_eq, fits_lookups hend, List.cons.injEq]
        simp only [hrest, hle.1, true_and]
      · -- the next path is another one than the target
        have hne : cstring (readPath (t'.node ip) (t ++ buf.drop t.length)) ≠
            (t'.node ip).data := fun h => hle (hiff.mp h)
        obtain ⟨vs, hvs⟩ := lookups_head cstring readPath p omode left
          (readPath (t'.node ip) (t ++ buf.drop t.length)) u
        obtain ⟨us, hus⟩ := lookups_head id (fun d _ => d.data) p omode left (t'.node ip).data u
        rw [hvs, hus]
        simp only [id_eq, List.cons.injEq, true_and, fits_cons_cons hend]
        constructor
        · rintro ⟨h, -⟩
          exact absurd h hne
        · rintro ⟨h, hfits⟩
          exact absurd ⟨h, hfits.2 _ List.mem_cons_self⟩ hle
    · rw [hlast cstring _ _ hcur, hlast id _ _ rfl]
      simp [fits_single hend]

/-- When the strings fit, the loops have the same outcome. -/
theorem openLoop_eq_refLoop (p : Fin n) (omode left : Nat) (hs : Stored s) (ht : 0 ∉ t)
    (hend : buf.getD t.length 0 = 0)
    (hfits : Fits buf (lookups id (fun d _ => d.data) p omode left t s)) :
    openLoop p omode left (t ++ buf.drop t.length) s = refLoop p omode left t s := by
  have hcur := cstring_current ht hend
  induction left generalizing s t with
  | zero =>
    have hround : openLoop p omode 0 (t ++ buf.drop t.length) s =
        refLoop p omode 0 (cstring (t ++ buf.drop t.length)) s := by
      unfold openLoop refLoop
      rfl
    rw [hround, hcur]
  | succ left ih =>
    unfold openLoop refLoop
    rw [hcur]
    cases hr : openRound s p t omode with
    | error e => rfl
    | ok r =>
      obtain ⟨t', o⟩ := r
      match o with
      | none => rfl
      | some (ip, false) => rfl
      | some (ip, true) =>
        simp only [ok_bind]
        cases hu : iunlockput t' ip with
        | error e => rfl
        | ok u =>
          simp only [ok_bind]
          obtain ⟨hs', hd, hlen⟩ := openRound_target hs hr
          rw [lookups_link id _ left t hr hu, id_eq, fits_lookups hend] at hfits
          obtain ⟨us, hus⟩ := lookups_head id (fun d _ => d.data) p omode left (t'.node ip).data u
          have hend' : buf.getD (t'.node ip).data.length 0 = 0 := by
            apply hfits.2.2
            rw [hus]
            exact List.mem_cons_self
          rw [readPath_buffer _ hlen hfits.1]
          exact ih (iunlockput_stored hs' hu) hd hend' hfits.2 (cstring_current hd hend')

end Loops

section Opening

theorem pathBuffer_end (path : Path) (stack : List UInt8) :
    (pathBuffer path stack).getD path.length 0 = 0 := by
  simp [pathBuffer, List.getD_eq_getElem?_getD]

theorem pathBuffer_eq (path : Path) (stack : List UInt8) :
    pathBuffer path stack = path ++ (pathBuffer path stack).drop path.length := by
  simp [pathBuffer]

theorem argstr_no_nul {mem : List UInt8} {path : Path} (h : argstr mem = some path) : 0 ∉ path := by
  unfold argstr at h
  split at h
  · cases h
    exact zero_not_mem_cstring mem
  · cases h

/-- When the strings on the way fit into each other's place, sys_open has the outcome of the
reference resolution. -/
theorem open_outcome_of_fits (s : State n) (p : Fin n) (path : List UInt8) (omode : Nat)
    (stack : List UInt8) (hs : Stored s) (hmode : has omode O_CREATE = false)
    (hfits : ChainFits s p path omode stack) :
    sysOpen s p path omode stack = refOpen s p path omode := by
  unfold ChainFits refPaths at hfits
  unfold sysOpen refOpen
  cases hpath : argstr path with
  | none => rfl
  | some given =>
    rw [hpath] at hfits
    have hs' : Stored (beginOp s) := hs
    have heq := openLoop_eq_refLoop p omode MAXDEPTH hs' (argstr_no_nul hpath)
      (pathBuffer_end given stack)
    rw [← pathBuffer_eq] at heq
    simp only [openInode, hmode, heq hfits]
    cases refLoop p omode MAXDEPTH given (beginOp s) with
    | error e => rfl
    | ok r =>
      obtain ⟨t, o⟩ := r
      cases o with
      | none => rfl
      | some ip => rfl

/-- Without O_CREATE, sys_open looks up the paths of the reference resolution, and has its
outcome, exactly when the strings on the way fit into each other's place. -/
theorem open_as_reference_iff (s : State n) (p : Fin n) (path : List UInt8) (omode : Nat)
    (stack : List UInt8) (hs : Stored s) (hmode : has omode O_CREATE = false) :
    (openPaths s p path omode stack = refPaths s p path omode ∧
      sysOpen s p path omode stack = refOpen s p path omode) ↔
    ChainFits s p path omode stack := by
  have hpaths : openPaths s p path omode stack = refPaths s p path omode ↔
      ChainFits s p path omode stack := by
    unfold openPaths ChainFits refPaths
    cases hpath : argstr path with
    | none => simp
    | some given =>
      have hs' : Stored (beginOp s) := hs
      have hiff := lookups_eq_iff p omode MAXDEPTH hs' (argstr_no_nul hpath)
        (pathBuffer_end given stack)
      rw [← pathBuffer_eq] at hiff
      exact hiff
  rw [hpaths]
  exact ⟨fun h => h.1, fun h => ⟨h, open_outcome_of_fits s p path omode stack hs hmode h⟩⟩

/-- A link "/l" to the file "/f". -/
def linkDisk (k : Nat) : Dinode :=
  if k = 1 then ⟨.dir, 0, 0, 1, [⟨1, dot⟩, ⟨1, dotdot⟩, ⟨2, [108]⟩, ⟨3, [102]⟩], []⟩
  else if k = 2 then ⟨.symlink, 0, 0, 1, [], [47, 102]⟩
  else if k = 3 then ⟨.file, 0, 0, 1, [], []⟩
  else emptyDinode

theorem open_as_reference_iff_linkDisk :
    Stored (boot (n := 1) 10 linkDisk 0) ∧ has 0 O_CREATE = false ∧
    ((openPaths (boot (n := 1) 10 linkDisk 0) 0 [47, 108, 0] 0 [7, 7, 7, 7] =
        [[47, 108], [47, 102]] ∧
      sysOpen (boot (n := 1) 10 linkDisk 0) 0 [47, 108, 0] 0 [7, 7, 7, 7] =
        refOpen (boot (n := 1) 10 linkDisk 0) 0 [47, 108, 0] 0)) := by
  have hs : Stored (boot (n := 1) 10 linkDisk 0) := by
    intro k hk
    simp only [boot, linkDisk] at hk ⊢
    by_cases h2 : k = 2
    · subst h2
      decide
    · split_ifs at hk
      all_goals cases hk
  have hpaths : refPaths (boot (n := 1) 10 linkDisk 0) 0 [47, 108, 0] 0 =
      [[47, 108], [47, 102]] := by decide +kernel
  have hfits : ChainFits (boot (n := 1) 10 linkDisk 0) 0 [47, 108, 0] 0 [7, 7, 7, 7] := by
    have hpath : argstr [47, 108, 0] = some [47, 108] := by decide
    unfold ChainFits
    rw [hpath, hpaths]
    exact ⟨by decide, by decide⟩
  have h := (open_as_reference_iff _ 0 [47, 108, 0] 0 [7, 7, 7, 7] hs (by decide)).mpr hfits
  rw [hpaths] at h
  exact ⟨hs, by decide, h⟩

/-- The file "/b" and the link "/l" to "b". -/
def shortLinkCalls : List (Fin 1 × Call 1) :=
  [(0, .openPath [47, 98, 0] 0x202 []), (0, .symlink [98, 0] [47, 108, 0])]

/-- The path "/l" and the target "b" make "bl". -/
theorem open_short_target :
    ∃ s : State 1, run next (boot 10 rootDisk 0) shortLinkCalls = some s ∧
      (sysOpen s 0 [47, 108, 0] 0 []).map Prod.snd = .ok (-1) ∧
      (refOpen s 0 [47, 108, 0] 0).map Prod.snd = .ok 1 := by
  have hrun : (run next (boot (n := 1) 10 rootDisk 0) shortLinkCalls).map (fun s =>
      ((sysOpen s 0 [47, 108, 0] 0 []).map Prod.snd, (refOpen s 0 [47, 108, 0] 0).map Prod.snd)) =
      some (.ok (-1), .ok 1) := by
    decide +kernel
  obtain ⟨s, hs, hend⟩ := Option.map_eq_some_iff.mp hrun
  obtain ⟨hcode, href⟩ := Prod.mk.inj hend
  exact ⟨s, hs, hcode, href⟩

end Opening

end Xv6Labs.Dir
