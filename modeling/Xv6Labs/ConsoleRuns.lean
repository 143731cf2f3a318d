import Xv6Labs.ConsoleCode
import Xv6Labs.RingSlots

/-! The console against a line editor without bounds on its indices: a line that is edited at its
end and goes, once committed, to the readers in order. -/
namespace Xv6Labs.Console

/-- All characters committed so far, how many of them readers have taken, and the line that can
still be edited. -/
structure Editor where
  committed : List UInt8
  taken : Nat
  line : List UInt8

namespace Editor

def ready (E : Editor) : List UInt8 := E.committed.drop E.taken

/-- One character typed, when `size` characters can be undelivered. -/
def key (size : Nat) (E : Editor) (c : UInt8) : Editor :=
  if c = ctrlP ∨ c = 0 then E
  else if c = ctrlU then { E with line := [] }
  else if c = ctrlH ∨ c = delete then { E with line := E.line.dropLast }
  else if E.ready.length + E.line.length < size then
    let c := if c = carriageReturn then newline else c
    let line := E.line ++ [c]
    if c = newline ∨ c = ctrlD ∨ E.ready.length + line.length = size then
      { E with committed := E.committed ++ line, line := [] }
    else { E with line := line }
  else E

/-- A read of at most `n` more bytes from the committed characters: how many it takes, which
bytes it delivers and how it ends. -/
def read (killed : Bool) (target : Nat) : Nat → List UInt8 → Nat × List UInt8 × Ends
  | 0, _ => (0, [], .ret target)
  | n+1, [] => (0, [], if killed then .ret (-1) else .sleep (n+1))
  | n+1, c :: ready =>
    if c = ctrlD then
      (if n + 1 < target then 0 else 1, [], .ret (target - (n+1 : Nat)))
    else if c = newline then (1, [c], .ret (target - n))
    else
      let q := read killed target n ready
      (q.1 + 1, c :: q.2.1, q.2.2)

end Editor

variable {T : Type}

structure Terminal (T : Type) where
  editor : Editor
  call : T → Option Call

section Machine

variable [DecidableEq T]

def Terminal.readStep (a : Terminal T) (t : T) (target n : Nat) (killed : Bool) :
    Terminal T × Out :=
  let q := Editor.read killed target n a.editor.ready
  let f := finish a.call t target q.2.2
  (⟨{ a.editor with taken := a.editor.taken + q.1 }, f.1⟩, (q.2.1, f.2))

def Terminal.step (a : Terminal T) : Op T → Option (Terminal T × Out)
  | .consoleintr c => some ({ a with editor := a.editor.key INPUT_BUF c }, ([], none))
  | .consoleread t n killed =>
    if a.call t = none then some (a.readStep t n.toNat n.toNat killed) else none
  | .wake t killed =>
    match a.call t with
    | none => none
    | some k => some (a.readStep t k.target k.n killed)

def Terminal.start : Terminal T := ⟨⟨[], 0, []⟩, fun _ => none⟩

end Machine

/-- The buffer holds the committed characters that are not yet taken and the line; the indices
are the positions modulo `2^32`. -/
structure Holds (c : Cons) (E : Editor) : Prop where
  r : c.r.toNat = E.taken % 2^32
  w : c.w.toNat = E.committed.length % 2^32
  e : c.e.toNat = (E.committed ++ E.line).length % 2^32
  taken : E.taken ≤ E.committed.length
  short : (E.committed ++ E.line).length ≤ E.taken + INPUT_BUF
  window : Window INPUT_BUF c.buf (E.committed ++ E.line) E.taken
  line : newline ∉ E.line

section Indices

variable {c : Cons} {E : Editor}

theorem Holds.edit_read (h : Holds c E) :
    (c.e - c.r).toNat = (E.committed ++ E.line).length - E.taken := by
  have hle := h.taken
  have hlt := h.short
  rw [UInt32.toNat_sub, h.e, h.r]
  apply wrap_sub
  · rw [List.length_append]
    omega
  · unfold INPUT_BUF at hlt
    omega

theorem Holds.write_read (h : Holds c E) : (c.w - c.r).toNat = E.committed.length - E.taken := by
  have hle := h.taken
  have hlt := h.short
  rw [List.length_append] at hlt
  rw [UInt32.toNat_sub, h.w, h.r]
  apply wrap_sub hle
  unfold INPUT_BUF at hlt
  omega

theorem Holds.edit_write (h : Holds c E) : (c.e - c.w).toNat = E.line.length := by
  have hle := h.taken
  have hlt := h.short
  rw [List.length_append] at hlt
  rw [UInt32.toNat_sub, h.e, h.w, List.length_append]
  have hsub := wrap_sub (m := 2^32) (Nat.le_add_right E.committed.length E.line.length)
    (by unfold INPUT_BUF at hlt; omega)
  rw [Nat.add_sub_cancel_left] at hsub
  exact hsub

theorem sub_zero_iff (a b : UInt32) : a = b ↔ (a - b).toNat = 0 := by
  constructor
  · rintro rfl
    rw [UInt32.sub_self]
    rfl
  · intro h
    rw [UInt32.toNat_sub] at h
    have ha := a.toNat_lt
    have hb := b.toNat_lt
    exact UInt32.toNat_inj.mp (by omega)

theorem Holds.no_line (h : Holds c E) : c.e = c.w ↔ E.line = [] := by
  rw [sub_zero_iff, h.edit_write, List.length_eq_zero_iff]

theorem Holds.none_ready (h : Holds c E) : c.r = c.w ↔ E.ready = [] := by
  have hle := h.taken
  rw [eq_comm, sub_zero_iff, h.write_read, ← List.length_eq_zero_iff, Editor.ready,
    List.length_drop]

theorem next_index {i : UInt32} {a : Nat} (h : i.toNat = a % 2^32) :
    (i + 1).toNat = (a + 1) % 2^32 := by
  have hone : (1 : UInt32).toNat = 1 := rfl
  rw [UInt32.toNat_add, h, hone, Nat.mod_add_mod]

theorem previous_index {i : UInt32} {a : Nat} (h : i.toNat = (a + 1) % 2^32) :
    (i - 1).toNat = a % 2^32 := by
  have hone : (1 : UInt32).toNat = 1 := rfl
  rw [UInt32.toNat_sub, h, hone]
  omega

theorem slot_of_index (a : Nat) : a % 2^32 % INPUT_BUF = a % INPUT_BUF :=
  Nat.mod_mod_of_dvd a (by decide)

end Indices

section Typing

variable {c : Cons} {E : Editor}

/-- `cons.e--`, when there is a line. -/
theorem Holds.erase (h : Holds c E) {line : List UInt8} {x : UInt8} (hl : E.line = line ++ [x]) :
    Holds { c with e := c.e - 1 } { E with line := line } ∧
      c.buf ((c.e - 1).toNat % INPUT_BUF) = x := by
  have he := h.e
  have hshort := h.short
  have hwindow := h.window
  have hnl := h.line
  rw [hl, ← List.append_assoc] at he hshort hwindow
  rw [List.length_append, List.length_singleton] at he hshort
  have hprev := previous_index he
  refine ⟨⟨h.r, h.w, hprev, h.taken, Nat.le_of_succ_le hshort,
    hwindow.of_prefix (List.prefix_append _ _), ?_⟩, ?_⟩
  · rw [hl] at hnl
    exact fun hin => hnl (List.mem_append_left _ hin)
  · rw [hprev, slot_of_index]
    apply hwindow
    · have := h.taken
      rw [List.length_append]
      omega
    · exact List.getElem?_concat_length

/-- The loop of `C('U')` takes back the line and stops at the committed characters. -/
theorem Holds.killLine (h : Holds c E) {fuel : Nat} (hfuel : E.line.length = fuel) :
    Holds (killLine fuel c) { E with line := [] } := by
  induction fuel generalizing c E with
  | zero =>
    have hnil : E.line = [] := List.length_eq_zero_iff.mp hfuel
    rw [← hnil]
    exact h
  | succ fuel ih =>
    obtain ⟨line, x, hl⟩ : ∃ line x, E.line = line ++ [x] := by
      have hne : E.line ≠ [] := fun hnil => by rw [hnil] at hfuel; cases hfuel
      exact ⟨E.line.dropLast, E.line.getLast hne, (List.dropLast_append_getLast hne).symm⟩
    obtain ⟨hnext, hx⟩ := h.erase hl
    have hlen : line.length = fuel := by
      rw [hl, List.length_append, List.length_singleton] at hfuel
      omega
    have hmore : c.e ≠ c.w ∧ c.buf ((c.e - 1).toNat % INPUT_BUF) ≠ newline := by
      refine ⟨fun he => ?_, ?_⟩
      · rw [h.no_line.mp he] at hl
        exact List.append_ne_nil_of_right_ne_nil _ (List.cons_ne_nil _ _) hl.symm
      · rw [hx]
        rintro rfl
        exact h.line (by rw [hl]; exact List.mem_append_right _ List.mem_cons_self)
    unfold Console.killLine
    rw [if_pos hmore]
    have hrest := ih hnext hlen
    exact hrest

/-- A character is stored behind the line. -/
theorem Holds.put (h : Holds c E) (x : UInt8)
    (hroom : (E.committed ++ E.line).length < E.taken + INPUT_BUF) :
    (c.put x).e.toNat = (E.committed ++ (E.line ++ [x])).length % 2^32 ∧
      (E.committed ++ (E.line ++ [x])).length ≤ E.taken + INPUT_BUF ∧
      Window INPUT_BUF (c.put x).buf (E.committed ++ (E.line ++ [x])) E.taken := by
  have hlen : (E.committed ++ (E.line ++ [x])).length = (E.committed ++ E.line).length + 1 := by
    rw [← List.append_assoc, List.length_append, List.length_singleton]
  rw [hlen, ← List.append_assoc]
  refine ⟨next_index h.e, hroom, ?_⟩
  simp only [Cons.put]
  rw [h.e, slot_of_index]
  exact h.window.push hroom x

/-- The end of the default case: the line is committed, or it goes on. -/
theorem Holds.store (h : Holds c E) {x : UInt8}
    (hroom : (E.committed ++ E.line).length < E.taken + INPUT_BUF) :
    Holds
      (if x = newline ∨ x = ctrlD ∨ (c.put x).e = (c.put x).r + INPUT_BUF.toUInt32 then
        { c.put x with w := (c.put x).e }
      else c.put x)
      (if x = newline ∨ x = ctrlD ∨ E.ready.length + (E.line ++ [x]).length = INPUT_BUF then
        { E with committed := E.committed ++ (E.line ++ [x]), line := [] }
      else { E with line := E.line ++ [x] }) := by
  obtain ⟨he, hshort, hwindow⟩ := h.put x hroom
  have htaken := h.taken
  have hfull : (c.put x).e = (c.put x).r + INPUT_BUF.toUInt32 ↔
      E.ready.length + (E.line ++ [x]).length = INPUT_BUF := by
    have hsize : INPUT_BUF.toUInt32.toNat = 128 := rfl
    have hr : (c.put x).r.toNat = E.taken % 2^32 := h.r
    rw [← UInt32.toNat_inj, UInt32.toNat_add, hr, he, hsize, Editor.ready, List.length_drop]
    rw [List.length_append] at hshort ⊢
    unfold INPUT_BUF at *
    omega
  by_cases hcommit : x = newline ∨ x = ctrlD ∨ E.ready.length + (E.line ++ [x]).length = INPUT_BUF
  · rw [if_pos hcommit, if_pos (by rw [hfull]; exact hcommit)]
    refine ⟨h.r, he, ?_, ?_, ?_, ?_, List.not_mem_nil⟩
    · rw [List.append_nil]
      exact he
    · exact Nat.le_trans htaken (by rw [List.length_append]; exact Nat.le_add_right _ _)
    · rw [List.append_nil]
      exact hshort
    · rw [List.append_nil]
      exact hwindow
  · rw [if_neg hcommit, if_neg (by rw [hfull]; exact hcommit)]
    refine ⟨h.r, h.w, he, htaken, hshort, hwindow, ?_⟩
    intro hin
    rcases List.mem_append.mp hin with hin | hin
    · exact h.line hin
    · exact hcommit (Or.inl (List.mem_singleton.mp hin).symm)

theorem Holds.key (h : Holds c E) (x : UInt8) :
    Holds (consoleintr c x) (E.key INPUT_BUF x) := by
  have htaken := h.taken
  unfold consoleintr Editor.key
  by_cases hp : x = ctrlP
  · rw [if_pos hp, if_pos (Or.inl hp)]
    exact h
  · rw [if_neg hp]
    by_cases h0 : x = 0
    · subst h0
      rw [if_neg (by decide), if_neg (by decide), if_neg (fun hx => hx.1 rfl), if_pos (Or.inr rfl)]
      exact h
    · rw [if_neg (show ¬(x = ctrlP ∨ x = 0) from fun hx => hx.elim hp h0)]
      by_cases hu : x = ctrlU
      · rw [if_pos hu, if_pos hu]
        exact h.killLine h.edit_write.symm
      · rw [if_neg hu, if_neg hu]
        by_cases hh : x = ctrlH ∨ x = delete
        · rw [if_pos hh, if_pos hh]
          by_cases hl : E.line = []
          · rw [if_neg (not_not.mpr (h.no_line.mpr hl)), hl, List.dropLast_nil, ← hl]
            exact h
          · rw [if_pos (fun he => hl (h.no_line.mp he))]
            exact (h.erase (List.dropLast_append_getLast hl).symm).1
        · rw [if_neg hh, if_neg hh]
          have hread : E.ready.length + E.line.length =
              (E.committed ++ E.line).length - E.taken := by
            rw [Editor.ready, List.length_drop, List.length_append]
            omega
          rw [h.edit_read, hread]
          by_cases hroom : (E.committed ++ E.line).length - E.taken < INPUT_BUF
          · rw [if_pos ⟨h0, hroom⟩, if_pos hroom]
            exact h.store (by omega)
          · rw [if_neg (fun hx => hroom hx.2), if_neg hroom]
            exact h

end Typing

section Reading

variable {c : Cons} {E : Editor}

/-- `cons.buf[cons.r++ % INPUT_BUF]`, when a committed character is there. -/
theorem Holds.next (h : Holds c E) {x : UInt8} {rest : List UInt8} (hready : E.ready = x :: rest) :
    c.buf (c.r.toNat % INPUT_BUF) = x ∧
      Holds { c with r := c.r + 1 } { E with taken := E.taken + 1 } ∧
      Editor.ready { E with taken := E.taken + 1 } = rest := by
  have hshort := h.short
  have hlt : E.taken < E.committed.length := by
    have hlen := congrArg List.length hready
    rw [Editor.ready, List.length_drop, List.length_cons] at hlen
    omega
  have hx : E.committed[E.taken]? = some x := by
    have hhead := congrArg (·[0]?) hready
    simpa [Editor.ready] using hhead
  refine ⟨?_, ⟨next_index h.r, h.w, h.e, hlt, ?_, h.window.mono (Nat.le_succ _), h.line⟩, ?_⟩
  · rw [h.r, slot_of_index]
    apply h.window _ _ (Nat.le_refl _)
    rw [List.getElem?_append_left hlt]
    exact hx
  · change _ ≤ E.taken + 1 + INPUT_BUF
    exact Nat.le_trans hshort (by omega)
  · have htail := congrArg List.tail hready
    rw [Editor.ready, List.tail_drop] at htail
    exact htail

theorem Holds.read (h : Holds c E) (killed : Bool) (target n : Nat) :
    Holds (readLoop killed target n c).1
      { E with taken := E.taken + (Editor.read killed target n E.ready).1 } ∧
    (readLoop killed target n c).2 = (Editor.read killed target n E.ready).2 := by
  induction n generalizing c E with
  | zero => exact ⟨h, rfl⟩
  | succ n ih =>
    unfold readLoop
    cases hready : E.ready with
    | nil =>
      rw [if_pos (h.none_ready.mpr hready)]
      exact ⟨h, rfl⟩
    | cons x rest =>
      have hne : c.r ≠ c.w := by
        intro he
        rw [h.none_ready.mp he] at hready
        cases hready
      obtain ⟨hx, hnext, hrest⟩ := h.next hready
      rw [if_neg hne]
      unfold Editor.read
      simp only [hx]
      by_cases hd : x = ctrlD
      · rw [if_pos hd, if_pos hd]
        by_cases hsome : n + 1 < target
        · rw [if_pos hsome, if_pos hsome]
          have hback : c.r + 1 - 1 = c.r := UInt32.add_sub_cancel c.r 1
          simp only [hback, Nat.add_zero]
          exact ⟨h, trivial⟩
        · rw [if_neg hsome, if_neg hsome]
          exact ⟨hnext, rfl⟩
      · rw [if_neg hd, if_neg hd]
        by_cases hl : x = newline
        · rw [if_pos hl, if_pos hl]
          exact ⟨hnext, rfl⟩
        · rw [if_neg hl, if_neg hl]
          obtain ⟨hholds, hsame⟩ := ih hnext
          rw [hrest] at hholds hsame
          refine ⟨?_, ?_⟩
          · rw [Nat.add_right_comm] at hholds
            exact hholds
          · simp only [hsame]

/-- What a read takes, without a `C('D')`, is what it delivers. -/
theorem read_delivers (killed : Bool) (target n : Nat) (ready : List UInt8) :
    (Editor.read killed target n ready).1 ≤ ready.length ∧
      (ready.take (Editor.read killed target n ready).1).filter (· ≠ ctrlD) =
        (Editor.read killed target n ready).2.1 := by
  induction n generalizing ready with
  | zero => exact ⟨Nat.zero_le _, rfl⟩
  | succ n ih =>
    cases ready with
    | nil => exact ⟨Nat.zero_le _, rfl⟩
    | cons x rest =>
      unfold Editor.read
      by_cases hd : x = ctrlD
      · subst hd
        rw [if_pos rfl]
        by_cases hsome : n + 1 < target
        · rw [if_pos hsome]
          exact ⟨Nat.zero_le _, rfl⟩
        · rw [if_neg hsome]
          exact ⟨Nat.succ_le_succ (Nat.zero_le _), rfl⟩
      · rw [if_neg hd]
        by_cases hl : x = newline
        · rw [if_pos hl]
          subst hl
          exact ⟨Nat.succ_le_succ (Nat.zero_le _), rfl⟩
        · rw [if_neg hl]
          obtain ⟨hle, hfilter⟩ := ih rest
          refine ⟨Nat.succ_le_succ hle, ?_⟩
          rw [List.take_succ_cons, List.filter_cons_of_pos (by simpa using hd), hfilter]

end Reading

section Runs

variable [DecidableEq T] {s s' : State T} {a a' : Terminal T} {o : Out} {outs : List Out}

/-- The console stands for the terminal. -/
structure Shows (s : State T) (a : Terminal T) : Prop where
  holds : Holds s.cons a.editor
  call : s.call = a.call

theorem Shows.readStep (h : Shows s a) (t : T) (target n : Nat) (killed : Bool) :
    SameOut Shows (some (Console.readStep s t target n killed))
      (some (a.readStep t target n killed)) := by
  obtain ⟨hholds, hsame⟩ := h.holds.read killed target n
  refine Option.Rel.some ⟨⟨hholds, ?_⟩, ?_⟩
  · simp only [Console.readStep, Terminal.readStep, hsame, h.call]
  · simp only [Console.readStep, Terminal.readStep, hsame, h.call]

theorem Shows.step (h : Shows s a) (op : Op T) : SameOut Shows (step s op) (a.step op) := by
  cases op with
  | consoleintr c => exact Option.Rel.some ⟨⟨h.holds.key c, h.call⟩, rfl⟩
  | consoleread t n killed =>
    unfold Console.step Terminal.step
    simp only [h.call]
    split
    · exact h.readStep t _ _ killed
    · exact Option.Rel.none
  | wake t killed =>
    unfold Console.step Terminal.step
    simp only [h.call]
    cases a.call t with
    | none => exact Option.Rel.none
    | some k => exact h.readStep t _ _ killed

omit [DecidableEq T] in
theorem start_shows (buf : Nat → UInt8) : Shows (start (T := T) buf) Terminal.start := by
  refine ⟨⟨rfl, rfl, rfl, Nat.le_refl _, Nat.zero_le _, ?_, List.not_mem_nil⟩, rfl⟩
  intro j x _ hx
  cases hx

/-- The characters that readers have got, `C('D')` apart. -/
def Editor.delivered (E : Editor) : List UInt8 := (E.committed.take E.taken).filter (· ≠ ctrlD)

theorem key_commits (E : Editor) (size : Nat) (c : UInt8) :
    E.committed <+: (E.key size c).committed ∧ (E.key size c).taken = E.taken := by
  unfold Editor.key
  dsimp only
  split_ifs <;> exact ⟨by simp, rfl⟩

/-- A step of the terminal leaves what is committed as it is, and delivers the next of it. -/
theorem Terminal.step_delivers (op : Op T) (hle : a.editor.taken ≤ a.editor.committed.length)
    (h : a.step op = some (a', o)) :
    a.editor.committed <+: a'.editor.committed ∧
      a'.editor.taken ≤ a'.editor.committed.length ∧
      a'.editor.delivered = a.editor.delivered ++ o.1 := by
  have hread (t : T) (target n : Nat) (killed : Bool)
      (h : a.readStep t target n killed = (a', o)) :
      a.editor.committed <+: a'.editor.committed ∧
        a'.editor.taken ≤ a'.editor.committed.length ∧
        a'.editor.delivered = a.editor.delivered ++ o.1 := by
    obtain ⟨hk, hfilter⟩ := read_delivers killed target n a.editor.ready
    cases h
    refine ⟨List.prefix_rfl, ?_, ?_⟩
    · have hlen : a.editor.ready.length = a.editor.committed.length - a.editor.taken :=
        List.length_drop
      rw [hlen] at hk
      dsimp only
      omega
    · simp only [Editor.delivered]
      rw [← hfilter, List.take_add, List.filter_append]
      rfl
  cases op with
  | consoleintr c =>
    cases h
    obtain ⟨hp, htaken⟩ := key_commits a.editor INPUT_BUF c
    obtain ⟨l, hl⟩ := hp
    refine ⟨⟨l, hl⟩, ?_, ?_⟩
    · rw [htaken, ← hl, List.length_append]
      omega
    · simp only [Editor.delivered, List.append_nil]
      rw [htaken, ← hl, List.take_append_of_le_length hle]
  | consoleread t n killed =>
    unfold Terminal.step at h
    simp only at h
    split at h
    · exact hread _ _ _ _ (Option.some.inj h)
    · cases h
  | wake t killed =>
    unfold Terminal.step at h
    simp only at h
    split at h
    · cases h
    · exact hread _ _ _ _ (Option.some.inj h)

theorem Terminal.run_delivers (ops : List (Op T))
    (hle : a.editor.taken ≤ a.editor.committed.length)
    (h : runOut Terminal.step a ops = some (a', outs)) :
    a.editor.committed <+: a'.editor.committed ∧
      a'.editor.delivered = a.editor.delivered ++ (outs.map Prod.fst).flatten := by
  induction ops generalizing a outs with
  | nil =>
    cases h
    exact ⟨List.prefix_rfl, (List.append_nil _).symm⟩
  | cons op ops ih =>
    obtain ⟨⟨b, o⟩, hb, h⟩ := Option.bind_eq_some_iff.mp h
    obtain ⟨⟨a'', outs'⟩, hrest, h⟩ := Option.map_eq_some_iff.mp h
    cases h
    obtain ⟨hp, hle', hd⟩ := Terminal.step_delivers op hle hb
    obtain ⟨hp', hd'⟩ := ih hle' hrest
    refine ⟨hp.trans hp', ?_⟩
    rw [hd', hd, List.map_cons, List.flatten_cons, List.append_assoc]

end Runs

/-- The console agrees with the line editor `E` after the steps that have shown `outs`. -/
structure Faithful (c : Cons) (E : Editor) (outs : List Out) : Prop where
  bounds : (c.w - c.r).toNat ≤ (c.e - c.r).toNat ∧ (c.e - c.r).toNat ≤ INPUT_BUF
  delivered : (outs.map Prod.fst).flatten = E.delivered
  committed : E.committed.length = E.taken + (c.w - c.r).toNat
  line : E.line.length = (c.e - c.w).toNat
  /-- no undelivered character is overwritten -/
  stored : ∀ k, k < (c.e - c.r).toNat →
    (E.committed ++ E.line)[E.taken + k]? = some (c.buf ((c.r + k.toUInt32).toNat % INPUT_BUF))
  /-- a reader that has bytes stops before `C('D')`, another one gets 0 -/
  eof : E.committed[E.taken]? = some ctrlD → ∀ killed target n, n < target →
    readLoop killed target (n+1) c =
      (if n + 1 < target then c else { c with r := c.r + 1 }, [], .ret (target - (n+1 : Nat)))

theorem Holds.faithful {c : Cons} {E : Editor} (h : Holds c E) {outs : List Out}
    (hd : (outs.map Prod.fst).flatten = E.delivered) : Faithful c E outs := by
  have htaken := h.taken
  have hshort := h.short
  have hwr := h.write_read
  have her := h.edit_read
  have hew := h.edit_write
  rw [List.length_append] at her hshort
  refine ⟨by omega, hd, by omega, hew.symm, ?_, ?_⟩
  · intro k hk
    have hlt : E.taken + k < (E.committed ++ E.line).length := by
      rw [List.length_append]
      omega
    have hslot : (c.r + k.toUInt32).toNat % INPUT_BUF = (E.taken + k) % INPUT_BUF := by
      have hk' : k.toUInt32.toNat = k := by
        apply UInt32.toNat_ofNat_of_lt'
        have : INPUT_BUF < UInt32.size := by decide
        omega
      rw [UInt32.toNat_add, h.r, hk', Nat.mod_add_mod, slot_of_index]
    rw [hslot, h.window _ _ (Nat.le_add_right _ _) (List.getElem?_eq_getElem hlt)]
    exact List.getElem?_eq_getElem hlt
  · intro hnext killed target n hn
    have hready : E.ready = ctrlD :: E.committed.drop (E.taken + 1) := by
      obtain ⟨hlt, hx⟩ := List.getElem?_eq_some_iff.mp hnext
      rw [Editor.ready, List.drop_eq_getElem_cons hlt, hx]
    obtain ⟨hx, -, -⟩ := h.next hready
    have hne : c.r ≠ c.w := by
      intro he
      rw [h.none_ready.mp he] at hready
      cases hready
    unfold readLoop
    rw [if_neg hne]
    simp only [hx, if_true]
    by_cases hsome : n + 1 < target
    · rw [if_pos hsome, if_pos hsome, UInt32.add_sub_cancel]
    · rw [if_neg hsome, if_neg hsome]

variable [DecidableEq T]

/-- Every run of typing and reading agrees with the line editor, and what is committed stays. -/
theorem console_edits_lines (buf : Nat → UInt8) (ops more : List (Op T)) (s s' : State T)
    (outs outs' : List Out) (h : runOut step (start buf) ops = some (s, outs))
    (h' : runOut step s more = some (s', outs')) :
    ∃ a a' : Terminal T, runOut Terminal.step Terminal.start ops = some (a, outs) ∧
      runOut Terminal.step a more = some (a', outs') ∧
      s.call = a.call ∧ Faithful s.cons a.editor outs ∧
      a.editor.committed <+: a'.editor.committed := by
  have hsim (s : State T) (a : Terminal T) (ops : List (Op T)) (hs : Shows s a) :
      SameOut Shows (runOut step s ops) (runOut Terminal.step a ops) :=
    runOut_simulates step Terminal.step (fun _ _ => True) Shows
      (fun s a op hs _ => hs.step op) s a ops hs (guarded_true _ _ _)
  have hrun := hsim _ _ ops (start_shows buf)
  rw [h] at hrun
  obtain ⟨a, ha, hshows⟩ := hrun.of_some
  have hrun' := hsim _ _ more hshows
  rw [h'] at hrun'
  obtain ⟨a', ha', -⟩ := hrun'.of_some
  obtain ⟨-, hd⟩ := Terminal.run_delivers ops (Nat.le_refl _) ha
  obtain ⟨hp, -⟩ := Terminal.run_delivers more hshows.holds.taken ha'
  exact ⟨a, a', ha, ha', hshows.call, hshows.holds.faithful hd.symm, hp⟩

/-- `hi`, a backspace, `o` and a newline are typed while a reader waits for eight bytes. -/
def typeHo : List (Op (Fin 2)) :=
  [.consoleread 0 8 false, .consoleintr 104, .consoleintr 105, .consoleintr 127, .consoleintr 111,
    .consoleintr 13, .wake 0 false]

theorem console_edits_lines_typeHo : ∃ (s s' : State (Fin 2)) (outs outs' : List Out),
    runOut step (start (fun _ => 0)) typeHo = some (s, outs) ∧
    runOut step s [.consoleintr 4] = some (s', outs') ∧
    ∃ a a' : Terminal (Fin 2), runOut Terminal.step Terminal.start typeHo = some (a, outs) ∧
      runOut Terminal.step a [.consoleintr 4] = some (a', outs') ∧
      s.call = a.call ∧ Faithful s.cons a.editor outs ∧
      a.editor.committed <+: a'.editor.committed := by
  have hr : (runOut step (start (T := Fin 2) (fun _ => 0)) typeHo).isSome := by decide
  obtain ⟨⟨s, outs⟩, hs⟩ := Option.isSome_iff_exists.mp hr
  have hmore : runOut step s [.consoleintr 4] =
      some ({ s with cons := consoleintr s.cons 4 }, [([], none)]) := rfl
  exact ⟨s, _, outs, _, hs, hmore, console_edits_lines _ typeHo _ s _ outs _ hs hmore⟩

example : (runOut step (start (T := Fin 2) (fun _ => 0)) typeHo).map (fun r => r.2.getLast?) =
    some (some ([104, 111, 10], some 3)) := by decide

end Xv6Labs.Console
