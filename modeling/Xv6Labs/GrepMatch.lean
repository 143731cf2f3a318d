import Mathlib.Computability.Language

/-! The matcher of grep.c, and the languages of its patterns. A string is the list of its bytes
before the zero byte. -/
namespace Xv6Labs.Grep

section Code

/-- The bytes `*`, `^`, `$` and `.` -/
def STAR : UInt8 := 42
def CARET : UInt8 := 94
def DOLLAR : UInt8 := 36
def DOT : UInt8 := 46

mutual

/-- matchhere: search for `re` at the beginning of the text. -/
def matchhere : List UInt8 → List UInt8 → Bool
  | [], _ => true
  | c :: re, text =>
    if re.head? = some STAR then matchstar c re.tail text
    else if c = DOLLAR ∧ re = [] then text = []
    else
      match text with
      | [] => false
      | t :: text => if c = DOT ∨ c = t then matchhere re text else false
termination_by re text => (re.length, text.length, 0)

/-- matchstar: search for `c*re` at the beginning of the text. -/
def matchstar (c : UInt8) (re : List UInt8) (text : List UInt8) : Bool :=
  if matchhere re text then true
  else
    match text with
    | [] => false
    | t :: text => if t = c ∨ c = DOT then matchstar c re text else false
termination_by (re.length, text.length, 1)

end

/-- The loop of match. -/
def matchAny (re : List UInt8) : List UInt8 → Bool
  | [] => matchhere re []
  | t :: text => if matchhere re (t :: text) then true else matchAny re text

/-- match, the search for `re` anywhere in the text. -/
def matchText (re text : List UInt8) : Bool :=
  if re.head? = some CARET then matchhere re.tail text else matchAny re text

end Code

section Patterns

/-- A character of a pattern, alone or with a star behind it. -/
inductive Item where
  | one (c : UInt8)
  | many (c : UInt8)

/-- `anchored` is a leading `^`, `final` a `$` at the end. -/
structure Pattern where
  anchored : Bool
  items : List Item
  final : Bool

/-- The items of a pattern without its `^`, and whether it ends with `$`. -/
def itemsOf : List UInt8 → List Item × Bool
  | [] => ([], false)
  | [c] => if c = DOLLAR then ([], true) else ([.one c], false)
  | c :: d :: re =>
    if d = STAR then (.many c :: (itemsOf re).1, (itemsOf re).2)
    else (.one c :: (itemsOf (d :: re)).1, (itemsOf (d :: re)).2)

def patternOf (re : List UInt8) : Pattern :=
  if re.head? = some CARET then ⟨true, (itemsOf re.tail).1, (itemsOf re.tail).2⟩
  else ⟨false, (itemsOf re).1, (itemsOf re).2⟩

/-- The strings of one character that `c` stands for. -/
def letter (c : UInt8) : Language UInt8 := {w | ∃ x, w = [x] ∧ (c = DOT ∨ c = x)}

open Computability in
def Item.language : Item → Language UInt8
  | .one c => letter c
  | .many c => (letter c)∗

def languageOf (items : List Item) : Language UInt8 := (items.map Item.language).prod

/-- Some substring is in the language; `^` and `$` fix where it starts and ends. -/
def Accepts (p : Pattern) (text : List UInt8) : Prop :=
  ∃ before w after, text = before ++ w ++ after ∧ w ∈ languageOf p.items ∧
    (p.anchored = true → before = []) ∧ (p.final = true → after = [])

end Patterns

section Languages

variable {c : UInt8} {w text : List UInt8}

open Computability in
/-- `c*` is a run of characters that `c` stands for. -/
theorem mem_many : w ∈ (letter c)∗ ↔ ∀ x ∈ w, c = DOT ∨ c = x := by
  rw [Language.mem_kstar]
  constructor
  · rintro ⟨L, rfl, hL⟩ x hx
    obtain ⟨v, hv, hxv⟩ := List.mem_flatten.mp hx
    obtain ⟨y, rfl, hy⟩ := hL v hv
    rw [List.mem_singleton.mp hxv]
    exact hy
  · intro hw
    refine ⟨w.map (fun x => [x]), ?_, ?_⟩
    · induction w with
      | nil => rfl
      | cons x w ih =>
        rw [List.map_cons, List.flatten_cons, ← ih (fun y hy => hw y (List.mem_cons_of_mem _ hy))]
        rfl
    · intro v hv
      obtain ⟨x, hx, rfl⟩ := List.mem_map.mp hv
      exact ⟨x, rfl, hw x hx⟩

theorem mem_languageOf_nil : w ∈ languageOf [] ↔ w = [] := Language.mem_one w

theorem mem_languageOf_cons {i : Item} {items : List Item} :
    w ∈ languageOf (i :: items) ↔ ∃ u v, w = u ++ v ∧ u ∈ i.language ∧ v ∈ languageOf items := by
  unfold languageOf
  rw [List.map_cons, List.prod_cons, Language.mem_mul]
  constructor
  · rintro ⟨u, hu, v, hv, rfl⟩
    exact ⟨u, v, rfl, hu, hv⟩
  · rintro ⟨u, v, rfl, hu, hv⟩
    exact ⟨u, hu, v, hv, rfl⟩

/-- A prefix of the text is in the language, all of it when the pattern ends with `$`. -/
def Begins (p : List Item × Bool) (text : List UInt8) : Prop :=
  ∃ w after, text = w ++ after ∧ w ∈ languageOf p.1 ∧ (p.2 = true → after = [])

theorem begins_nil : Begins ([], false) text := ⟨[], text, rfl, mem_languageOf_nil.mpr rfl, nofun⟩

theorem begins_final : Begins ([], true) text ↔ text = [] := by
  constructor
  · rintro ⟨w, after, rfl, hw, hafter⟩
    rw [mem_languageOf_nil.mp hw, hafter rfl]
    rfl
  · rintro rfl
    exact ⟨[], [], rfl, mem_languageOf_nil.mpr rfl, fun _ => rfl⟩

theorem begins_cons {i : Item} {items : List Item} {final : Bool} :
    Begins (i :: items, final) text ↔
      ∃ u rest, text = u ++ rest ∧ u ∈ i.language ∧ Begins (items, final) rest := by
  constructor
  · rintro ⟨w, after, rfl, hw, hafter⟩
    obtain ⟨u, v, rfl, hu, hv⟩ := mem_languageOf_cons.mp hw
    exact ⟨u, v ++ after, by rw [List.append_assoc], hu, v, after, rfl, hv, hafter⟩
  · rintro ⟨u, rest, rfl, hu, v, after, rfl, hv, hafter⟩
    exact ⟨u ++ v, after, by rw [List.append_assoc], mem_languageOf_cons.mpr ⟨u, v, rfl, hu, hv⟩,
      hafter⟩

/-- One character that `c` stands for, and then the rest. -/
theorem begins_one {items : List Item} {final : Bool} :
    Begins (.one c :: items, final) text ↔
      ∃ t rest, text = t :: rest ∧ (c = DOT ∨ c = t) ∧ Begins (items, final) rest := by
  rw [begins_cons]
  constructor
  · rintro ⟨u, rest, rfl, ⟨t, rfl, ht⟩, hrest⟩
    exact ⟨t, rest, rfl, ht, hrest⟩
  · rintro ⟨t, rest, rfl, ht, hrest⟩
    exact ⟨[t], rest, rfl, ⟨t, rfl, ht⟩, hrest⟩

end Languages

section Matching

variable {c : UInt8} {re text : List UInt8}

/-- matchstar tries the rest of the pattern behind every run of `c`. -/
theorem matchstar_iff : matchstar c re text = true ↔
    ∃ u rest, text = u ++ rest ∧ (∀ x ∈ u, c = DOT ∨ c = x) ∧ matchhere re rest = true := by
  induction text with
  | nil =>
    rw [matchstar]
    constructor
    · intro h
      by_cases hre : matchhere re [] = true
      · exact ⟨[], [], rfl, nofun, hre⟩
      · simp [hre] at h
    · rintro ⟨u, rest, hur, -, hrest⟩
      obtain ⟨-, rfl⟩ := List.append_eq_nil_iff.mp hur.symm
      rw [if_pos hrest]
  | cons t text ih =>
    rw [matchstar]
    by_cases hre : matchhere re (t :: text) = true
    · rw [if_pos hre]
      exact iff_of_true rfl ⟨[], t :: text, rfl, nofun, hre⟩
    · rw [if_neg hre]
      constructor
      · intro h
        by_cases hc : t = c ∨ c = DOT
        · simp only [if_pos hc] at h
          obtain ⟨u, rest, rfl, hu, hrest⟩ := ih.mp h
          refine ⟨t :: u, rest, rfl, ?_, hrest⟩
          intro x hx
          rcases List.mem_cons.mp hx with rfl | hx
          · exact hc.symm.imp_right Eq.symm
          · exact hu x hx
        · simp [hc] at h
      · rintro ⟨u, rest, hur, hu, hrest⟩
        cases u with
        | nil =>
          -- the empty run has been tried
          rw [List.nil_append] at hur
          rw [← hur] at hrest
          exact absurd hrest hre
        | cons x u =>
          rw [List.cons_append] at hur
          obtain ⟨rfl, rfl⟩ := List.cons.inj hur
          have hx := hu t List.mem_cons_self
          have hc : t = c ∨ c = DOT := hx.symm.imp_left Eq.symm
          simp only [if_pos hc]
          exact ih.mpr ⟨u, rest, rfl, fun y hy => hu y (List.mem_cons_of_mem _ hy), hrest⟩

/-- matchhere for a pattern that is not empty. -/
theorem matchhere_cons : matchhere (c :: re) text =
    if re.head? = some STAR then matchstar c re.tail text
    else if c = DOLLAR ∧ re = [] then decide (text = [])
    else
      match text with
      | [] => false
      | t :: text => if c = DOT ∨ c = t then matchhere re text else false := by
  rw [matchhere.eq_def]

/-- matchhere decides whether a prefix of the text is in the language of the pattern. -/
theorem matchhere_iff : matchhere re text = true ↔ Begins (itemsOf re) text := by
  induction re using itemsOf.induct generalizing text with
  | case1 =>
    rw [matchhere]
    exact iff_of_true rfl begins_nil
  | case2 =>
    rw [matchhere_cons, itemsOf, if_neg (by simp), if_pos ⟨rfl, rfl⟩, if_pos rfl, begins_final]
    exact decide_eq_true_iff
  | case3 c hc =>
    rw [matchhere_cons, itemsOf, if_neg (by simp), if_neg (by simp [hc]), if_neg hc, begins_one]
    cases text with
    | nil => simp
    | cons t text =>
      by_cases ht : c = DOT ∨ c = t
      · simp only [if_pos ht, matchhere]
        exact iff_of_true trivial ⟨t, text, rfl, ht, begins_nil⟩
      · simp only [if_neg ht]
        refine iff_of_false nofun ?_
        rintro ⟨t', rest, heq, ht', -⟩
        obtain ⟨rfl, rfl⟩ := List.cons.inj heq
        exact ht ht'
  | case4 c re ih =>
    rw [matchhere_cons, itemsOf, if_pos (by simp), if_pos rfl, List.tail_cons, matchstar_iff,
      begins_cons]
    constructor
    · rintro ⟨u, rest, htext, hu, hrest⟩
      exact ⟨u, rest, htext, mem_many.mpr hu, ih.mp hrest⟩
    · rintro ⟨u, rest, htext, hu, hrest⟩
      exact ⟨u, rest, htext, mem_many.mp hu, ih.mpr hrest⟩
  | case5 c d re hd ih =>
    rw [matchhere_cons, itemsOf, if_neg (by simpa using hd), if_neg (by simp), if_neg hd,
      begins_one]
    cases text with
    | nil => simp
    | cons t text =>
      by_cases ht : c = DOT ∨ c = t
      · simp only [if_pos ht]
        rw [ih]
        constructor
        · intro h
          exact ⟨t, text, rfl, ht, h⟩
        · rintro ⟨t', rest, heq, -, hrest⟩
          obtain ⟨rfl, rfl⟩ := List.cons.inj heq
          exact hrest
      · simp only [if_neg ht]
        refine iff_of_false nofun ?_
        rintro ⟨t', rest, heq, ht', -⟩
        obtain ⟨rfl, rfl⟩ := List.cons.inj heq
        exact ht ht'

/-- The loop of match tries every suffix of the text, the empty one too. -/
theorem matchAny_iff : matchAny re text = true ↔
    ∃ before rest, text = before ++ rest ∧ matchhere re rest = true := by
  induction text with
  | nil =>
    rw [matchAny]
    constructor
    · intro h
      exact ⟨[], [], rfl, h⟩
    · rintro ⟨before, rest, heq, hrest⟩
      obtain ⟨-, rfl⟩ := List.append_eq_nil_iff.mp heq.symm
      exact hrest
  | cons t text ih =>
    rw [matchAny]
    by_cases hre : matchhere re (t :: text) = true
    · rw [if_pos hre]
      exact iff_of_true rfl ⟨[], t :: text, rfl, hre⟩
    · rw [if_neg hre, ih]
      constructor
      · rintro ⟨before, rest, rfl, hrest⟩
        exact ⟨t :: before, rest, rfl, hrest⟩
      · rintro ⟨before, rest, heq, hrest⟩
        cases before with
        | nil =>
          rw [List.nil_append] at heq
          rw [← heq] at hrest
          exact absurd hrest hre
        | cons x before =>
          rw [List.cons_append] at heq
          obtain ⟨rfl, rfl⟩ := List.cons.inj heq
          exact ⟨before, rest, rfl, hrest⟩

/-- match answers 1 exactly for the texts that the pattern accepts. -/
theorem matchText_iff (re text : List UInt8) :
    matchText re text = true ↔ Accepts (patternOf re) text := by
  unfold matchText patternOf
  by_cases hre : re.head? = some CARET
  · rw [if_pos hre, if_pos hre, matchhere_iff]
    constructor
    · rintro ⟨w, after, rfl, hw, hafter⟩
      exact ⟨[], w, after, rfl, hw, fun _ => rfl, hafter⟩
    · rintro ⟨before, w, after, rfl, hw, hbefore, hafter⟩
      rw [hbefore rfl]
      exact ⟨w, after, rfl, hw, hafter⟩
  · rw [if_neg hre, if_neg hre, matchAny_iff]
    constructor
    · rintro ⟨before, rest, rfl, hrest⟩
      obtain ⟨w, after, rfl, hw, hafter⟩ := matchhere_iff.mp hrest
      exact ⟨before, w, after, by rw [List.append_assoc], hw, nofun, hafter⟩
    · rintro ⟨before, w, after, rfl, hw, -, hafter⟩
      exact ⟨before, w ++ after, by rw [List.append_assoc],
        matchhere_iff.mpr ⟨w, after, rfl, hw, hafter⟩⟩

/-- An inner `$` and a leading `*` stand for themselves: `*a$b*` in "x*a$". -/
example : matchText [42, 97, 36, 98, 42] [120, 42, 97, 36] = true := by
  simp [matchText, matchAny, matchhere_cons, STAR, CARET, DOLLAR, DOT]
  simp [matchstar, matchhere]

end Matching

end Xv6Labs.Grep
