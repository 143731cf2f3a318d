import Xv6Labs.ShGrammar

/-! gettoken and peek read the tokens of the rest of the line. -/
namespace Xv6Labs.Shell

section Text

variable {buf : Bytes} {lo es s : Nat} {f : UInt8 → Bool}

/-- The bytes from `s` up to `es`. -/
def text (buf : Bytes) (es s : Nat) : List UInt8 := (List.range' s (es - s)).map buf

theorem text_nil (h : es ≤ s) : text buf es s = [] := by
  unfold text
  rw [Nat.sub_eq_zero_of_le h]
  rfl

theorem text_cons (h : s < es) : text buf es s = buf s :: text buf es (s + 1) := by
  obtain ⟨k, hk⟩ : ∃ k, es - s = k + 1 := ⟨es - s - 1, by omega⟩
  have hk' : es - (s + 1) = k := by omega
  unfold text
  rw [hk, hk', List.range'_succ, List.map_cons]

/-- A scan stops at the first byte that is not wanted, or at `es`. -/
structure Scanned (f : UInt8 → Bool) (buf : Bytes) (es s s' : Nat) : Prop where
  le : s ≤ s'
  le_end : s' ≤ es
  rest : text buf es s' = (text buf es s).dropWhile f
  part : text buf s' s = (text buf es s).takeWhile f
  stop : s' < es → f (buf s') = false

theorem scanWhile_scanned (f : UInt8 → Bool) (buf : Bytes) {k : Nat} (hs : s + k = es) :
    Scanned f buf es s (scanWhile f buf k s) := by
  induction k generalizing s with
  | zero =>
    have hnil : text buf es s = [] := text_nil (by omega)
    refine ⟨Nat.le_refl _, by change s ≤ es; omega, ?_, ?_, ?_⟩
    · change text buf es s = (text buf es s).dropWhile f
      rw [hnil]
      rfl
    · rw [hnil]
      exact text_nil (Nat.le_refl _)
    · intro h
      change s < es at h
      omega
  | succ k ih =>
    have hlt : s < es := by omega
    unfold scanWhile
    by_cases hf : f (buf s) = true
    · rw [if_pos hf]
      have h := ih (s := s + 1) (by omega)
      have hle := h.le
      refine ⟨by omega, h.le_end, ?_, ?_, h.stop⟩
      · rw [h.rest, text_cons hlt, List.dropWhile_cons_of_pos hf]
      · have hlt' : s < scanWhile f buf k (s + 1) := by omega
        rw [text_cons hlt', h.part, text_cons hlt, List.takeWhile_cons_of_pos hf]
    · rw [if_neg hf]
      refine ⟨Nat.le_refl _, by omega, ?_, ?_, fun _ => by simpa using hf⟩
      · rw [text_cons hlt, List.dropWhile_cons_of_neg hf]
      · rw [text_cons hlt, List.takeWhile_cons_of_neg hf]
        exact text_nil (Nat.le_refl _)

theorem skipWhite_scanned (buf : Bytes) (hs : s ≤ es) :
    Scanned isWhite buf es s (skipWhite buf es s) :=
  scanWhile_scanned isWhite buf (by omega)

theorem tokens_dropWhite (l : List UInt8) : tokens (l.dropWhile isWhite) = tokens l := by
  induction l with
  | nil => rfl
  | cons c l ih =>
    by_cases hc : isWhite c = true
    · have hdef : tokens (c :: l) = tokens l := by
        rw [tokens.eq_def]
        exact if_pos hc
      rw [List.dropWhile_cons_of_pos hc, hdef, ih]
    · rw [List.dropWhile_cons_of_neg hc]

theorem tokens_skipWhite (buf : Bytes) (hs : s ≤ es) :
    tokens (text buf es (skipWhite buf es s)) = tokens (text buf es s) := by
  rw [(skipWhite_scanned buf hs).rest, tokens_dropWhite]

end Text

section Lexer

variable {buf : Bytes} {lo es s : Nat} {toks : List UInt8}

/-- A line without NUL from `lo` to `es`, and a NUL behind it. -/
structure Clean (buf : Bytes) (lo es : Nat) : Prop where
  clean : ∀ i, lo ≤ i → i < es → buf i ≠ 0
  last : buf es = 0

/-- What gettoken answers for a token. -/
def Token.code : Token → UInt8
  | .word _ => Shell.word
  | .lt => Shell.lt
  | .gt => Shell.gt
  | .gtgt => plus
  | .bar => Shell.bar
  | .amp => Shell.amp
  | .semi => Shell.semi
  | .lpar => Shell.lpar
  | .rpar => Shell.rpar

/-- Whether a token starts with one of some symbols. -/
def Token.opens (toks : List UInt8) : Token → Bool
  | .word _ => false
  | .gtgt => toks.contains Shell.gt
  | t => toks.contains t.code

/-- The word between two pointers. -/
def slice (buf : Bytes) (a : Str) : Word := text buf a.eq a.q

/-- A maximal word of the line. -/
structure WordAt (buf : Bytes) (lo es : Nat) (a : Str) : Prop where
  lo_le : lo ≤ a.q
  le : a.q ≤ a.eq
  le_end : a.eq ≤ es
  inside : ∀ i, a.q ≤ i → i < a.eq → isWord (buf i) = true
  stop : a.eq < es → isWord (buf a.eq) = false

/-- The pointer `s` has the tokens `ts` before it. -/
structure At (buf : Bytes) (lo es s : Nat) (ts : List Token) : Prop where
  lo_le : lo ≤ s
  le_end : s ≤ es
  rest : tokens (text buf es s) = ts

variable {ts : List Token} {t : Token}

theorem At.skip (h : At buf lo es s ts) : At buf lo es (skipWhite buf es s) ts := by
  have hs := skipWhite_scanned buf h.le_end
  have := h.lo_le
  have := hs.le
  exact ⟨by omega, hs.le_end, (tokens_skipWhite buf h.le_end).trans h.rest⟩

end Lexer

end Xv6Labs.Shell
