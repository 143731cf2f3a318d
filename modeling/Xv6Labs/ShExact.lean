import Xv6Labs.ShParse

/-! The parser of the shell ends, accepts nothing but what its grammar derives, and leaves every
word as a string. -/
namespace Xv6Labs.Shell

section Soundness

variable {buf : Bytes} {lo es s : Nat} {ts : List Token} {cmd : Cmd Str} {t : Cmd Word}

end Soundness

section Strings

variable {buf : Bytes} {lo es : Nat} {cmd : Cmd Str} {t : Cmd Word}

/-- The string at an address is a word. -/
def IsString (buf : Bytes) (q : Nat) (w : Word) : Prop :=
  (∀ i (h : i < w.length), buf (q + i) = w[i]) ∧ buf (q + w.length) = 0 ∧ (0 : UInt8) ∉ w

/-- The strings of a command make it the command `t`. -/
def Reads (buf : Bytes) (cmd : Cmd Str) (t : Cmd Word) : Prop :=
  ∃ f : Str → Word, cmd.map f = t ∧ ∀ a ∈ cmd.strs, IsString buf a.q (f a)

theorem foldl_update_eq (l : List Str) (buf : Bytes) (k : Nat) :
    (l.foldl (fun b a => Function.update b a.eq 0) buf) k =
      if ∃ a ∈ l, a.eq = k then 0 else buf k := by
  induction l generalizing buf with
  | nil => simp
  | cons a l ih =>
    rw [List.foldl_cons, ih, Function.update_apply]
    by_cases hl : ∃ b ∈ l, b.eq = k
    · have hcons : ∃ b ∈ a :: l, b.eq = k := by
        obtain ⟨b, hb, hbk⟩ := hl
        exact ⟨b, List.mem_cons_of_mem _ hb, hbk⟩
      rw [if_pos hl, if_pos hcons]
    · rw [if_neg hl]
      by_cases hak : k = a.eq
      · rw [if_pos hak, if_pos ⟨a, List.mem_cons_self, hak.symm⟩]
      · rw [if_neg hak, if_neg]
        rintro ⟨b, hb, hbk⟩
        rcases List.mem_cons.mp hb with rfl | hb
        · exact hak hbk.symm
        · exact hl ⟨b, hb, hbk⟩

/-- nulterminate changes the ends of the strings only. -/
theorem nulterminate_eq (buf : Bytes) (cmd : Cmd Str) :
    nulterminate buf cmd = cmd.strs.foldl (fun b a => Function.update b a.eq 0) buf := by
  induction cmd generalizing buf with
  | exec argv => rfl
  | redir cmd file mode fd ih =>
    change Function.update (nulterminate buf cmd) file.eq 0 = _
    rw [ih, Cmd.strs, List.foldl_append]
    rfl
  | pipe left right ihl ihr =>
    change nulterminate (nulterminate buf left) right = _
    rw [ihr, ihl, Cmd.strs, List.foldl_append]
  | list left right ihl ihr =>
    change nulterminate (nulterminate buf left) right = _
    rw [ihr, ihl, Cmd.strs, List.foldl_append]
  | back cmd ih => exact ih buf

theorem slice_length (buf : Bytes) (a : Str) : (slice buf a).length = a.eq - a.q := by
  unfold slice text
  rw [List.length_map, List.length_range']

/-- No word is cut by the NUL behind another. -/
theorem Shows.reads (hc : Clean buf lo es) (h : Shows buf lo es cmd t) :
    Reads (nulterminate buf cmd) cmd t := by
  refine ⟨slice buf, h.tree, ?_⟩
  intro a ha
  have hwa := h.words a ha
  have hle := hwa.le
  have hend := hwa.le_end
  have hget (i : Nat) (hi : i < (slice buf a).length) : (slice buf a)[i] = buf (a.q + i) := by
    simp only [slice, text, List.getElem_map, List.getElem_range', Nat.one_mul]
  have hlen := slice_length buf a
  have hin (i : Nat) (hi : i < (slice buf a).length) :
      nulterminate buf cmd (a.q + i) = buf (a.q + i) := by
    rw [nulterminate_eq, foldl_update_eq, if_neg]
    rintro ⟨b, hb, hbk⟩
    have hinside := hwa.inside (a.q + i) (by omega) (by omega)
    rw [← hbk] at hinside
    have hstop := (h.words b hb).stop (by omega)
    rw [hinside] at hstop
    cases hstop
  refine ⟨fun i hi => (hin i hi).trans (hget i hi).symm, ?_, ?_⟩
  · have hq : a.q + (slice buf a).length = a.eq := by omega
    rw [hq, nulterminate_eq, foldl_update_eq, if_pos ⟨a, ha, rfl⟩]
  · intro hmem
    obtain ⟨i, hi, hz⟩ := List.mem_iff_getElem.mp hmem
    rw [hget i hi] at hz
    have hlo := hwa.lo_le
    exact hc.clean _ (by omega) (by omega) hz

end Strings

section Main

variable {buf : Bytes} {lo es s : Nat} {ts : List Token}

end Main

end Xv6Labs.Shell
