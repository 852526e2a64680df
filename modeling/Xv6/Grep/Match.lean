import Mathlib

/-!
# The regular expressions of `grep`

The matcher knows four operators. A pattern is read from left to right: a leading `^`
binds it to the start of the text, a character followed by `*` stands for any number of
that character, a `$` at the end binds it to the end of the text, a `.` stands for any
character, and everything else for itself.

What a pattern means is said here as a language: the product of the languages of its
items. The matcher finds a match exactly when some substring of the text, at the places
the anchors allow, belongs to that language. Strings are the lists of their bytes before
the terminating NUL.
-/

namespace Xv6

open List

namespace Grep

/-! ## The matcher -/

mutual

/-- Search for a pattern at the beginning of a text. -/
def matchhere (re text : List UInt8) : Bool :=
  match re with
  | [] => true
  | c :: 42 :: re => matchstar c re text
  | [36] => text.isEmpty
  | c :: re =>
    match text with
    | [] => false
    | b :: text => if c = 46 ∨ c = b then matchhere re text else false
termination_by (re.length, text.length, 0)

/-- Search for any number of a character and then a pattern at the beginning of a text. -/
def matchstar (c : UInt8) (re text : List UInt8) : Bool :=
  matchhere re text ||
    match text with
    | [] => false
    | b :: text => if b = c ∨ c = 46 then matchstar c re text else false
termination_by (re.length, text.length, 1)

end

/-- The loop of `match`: search from each position of a text on, the end included. -/
def matchAnywhere (re : List UInt8) : (text : List UInt8) → Bool
  | [] => matchhere re []
  | b :: text => matchhere re (b :: text) || matchAnywhere re text

/-- `match`: search for a pattern in a text. -/
def matchText (re text : List UInt8) : Bool :=
  match re with
  | 94 :: re => matchhere re text
  | re => matchAnywhere re text

/-! ## What a pattern means -/

/-- An item of a pattern: a character, or any number of a character. -/
inductive Item where
  | one (c : UInt8)
  | many (c : UInt8)

/-- The strings of one byte that a character of a pattern stands for. -/
def single (c : UInt8) : Language UInt8 := {s | ∃ b, s = [b] ∧ (c = 46 ∨ c = b)}

/-- The strings that an item stands for. -/
def Item.language : Item → Language UInt8
  | .one c => single c
  | .many c => KStar.kstar (single c)

/-- The items of a pattern without its leading anchor, and whether it is bound to the end. -/
def items : (re : List UInt8) → List Item × Bool
  | [] => ([], false)
  | c :: 42 :: re => (.many c :: (items re).1, (items re).2)
  | [36] => ([], true)
  | c :: re => (.one c :: (items re).1, (items re).2)

/-- The strings that the items of a pattern stand for, one after the other. -/
def language (re : List UInt8) : Language UInt8 := ((items re).1.map Item.language).prod

/-- A pattern matches the text at a position. -/
def MatchesAt (re before text : List UInt8) : Prop :=
  ∃ s after, text = before ++ s ++ after ∧ s ∈ language re ∧ ((items re).2 = true → after = [])

/-- Some substring of the text matches the pattern. -/
def Matches (re text : List UInt8) : Prop :=
  match re with
  | 94 :: re => MatchesAt re [] text
  | re => ∃ before, MatchesAt re before text

/-! ## The matcher finds what a pattern means -/

/-- Any number of a character. -/
theorem mem_many {c : UInt8} {s : List UInt8} :
    s ∈ KStar.kstar (single c) ↔ ∀ b ∈ s, c = 46 ∨ c = b := by
  rw [Language.mem_kstar]
  constructor
  · rintro ⟨parts, rfl, each⟩ b member
    obtain ⟨part, isPart, inPart⟩ := mem_flatten.mp member
    obtain ⟨b', rfl, fits⟩ := each part isPart
    rw [mem_singleton.mp inPart]
    exact fits
  · intro each
    refine ⟨s.map fun b => [b], ?_, ?_⟩
    · induction s with
      | nil => rfl
      | cons b s ih =>
        rw [map_cons, flatten_cons,
          ← ih fun b' member => each b' (mem_cons_of_mem b member)]
        rfl
    · intro part isPart
      obtain ⟨b, member, rfl⟩ := mem_map.mp isPart
      exact ⟨b, rfl, each b member⟩

/-- `matchstar` tries every number of repetitions. -/
theorem matchstar_iff {c : UInt8} {re : List UInt8} (text : List UInt8) :
    matchstar c re text = true ↔ ∃ reps rest, text = reps ++ rest ∧
      (∀ b ∈ reps, c = 46 ∨ c = b) ∧ matchhere re rest = true := by
  induction text with
  | nil =>
    rw [matchstar, Bool.or_false]
    constructor
    · exact fun here => ⟨[], [], rfl, by rintro _ ⟨⟩, here⟩
    · rintro ⟨reps, rest, parts, -, here⟩
      obtain ⟨rfl, rfl⟩ := append_eq_nil_iff.mp parts.symm
      exact here
  | cons b text ih =>
    rw [matchstar, Bool.or_eq_true]
    constructor
    · rintro (here | later)
      · exact ⟨[], b :: text, rfl, by rintro _ ⟨⟩, here⟩
      · split at later
        · rename_i fits
          obtain ⟨reps, rest, rfl, each, here⟩ := ih.mp later
          refine ⟨b :: reps, rest, rfl, ?_, here⟩
          rintro b' (_ | ⟨_, member⟩)
          · exact fits.symm.imp_right Eq.symm
          · exact each b' member
        · cases later
    · rintro ⟨_ | ⟨b', reps⟩, rest, parts, each, here⟩
      · exact .inl (parts ▸ here)
      · cases parts
        right
        have fits := each b mem_cons_self
        rw [if_pos (fits.symm.imp_left Eq.symm)]
        exact ih.mpr ⟨reps, rest, rfl, fun b' member => each b' (mem_cons_of_mem b member),
          here⟩

/-- A pattern that begins with an item matches a string of the item and then the rest. -/
theorem matchesAt_cons {re rest text : List UInt8} {item : Item}
    (first : items re = (item :: (items rest).1, (items rest).2)) :
    MatchesAt re [] text ↔ ∃ s after, text = s ++ after ∧ s ∈ item.language ∧
      MatchesAt rest [] after := by
  unfold MatchesAt language
  rw [first]
  simp only [map_cons, prod_cons, Language.mem_mul, nil_append]
  constructor
  · rintro ⟨s, after, rfl, ⟨one, isOne, others, inOthers, rfl⟩, ends⟩
    exact ⟨one, others ++ after, append_assoc .., isOne, others, after, rfl, inOthers, ends⟩
  · rintro ⟨one, after, rfl, isOne, others, after', rfl, inOthers, ends⟩
    exact ⟨one ++ others, after', (append_assoc ..).symm, ⟨one, isOne, others, inOthers, rfl⟩,
      ends⟩

/-- `matchhere` finds a match at the beginning of the text. -/
theorem matchhere_iff (re : List UInt8) :
    ∀ text, matchhere re text = true ↔ MatchesAt re [] text := by
  fun_induction items re with
  | case1 =>
    intro text
    rw [matchhere]
    exact iff_of_true rfl ⟨[], text, rfl, Language.mem_one _ |>.mpr rfl, by rintro ⟨⟩⟩
  | case2 c re ih =>
    intro text
    rw [matchhere, matchstar_iff, matchesAt_cons (items.eq_2 c re)]
    exact exists_congr fun reps => exists_congr fun rest => and_congr_right fun _ =>
      and_congr mem_many.symm (ih rest)
  | case3 =>
    intro text
    rw [matchhere, List.isEmpty_iff]
    constructor
    · rintro rfl
      exact ⟨[], [], rfl, Language.mem_one _ |>.mpr rfl, fun _ => rfl⟩
    · rintro ⟨s, after, rfl, inside, ends⟩
      rw [ends rfl, show s = [] from inside]
      rfl
  | case4 c re notStar notEnd ih =>
    intro text
    have first : items (c :: re) = (.one c :: (items re).1, (items re).2) :=
      items.eq_4 c re notStar notEnd
    rw [matchesAt_cons first]
    cases text with
    | nil =>
      rw [matchhere.eq_4 c re notStar notEnd]
      refine iff_of_false (by rintro ⟨⟩) ?_
      rintro ⟨s, after, parts, ⟨b, rfl, -⟩, -⟩
      cases parts
    | cons b text =>
      rw [matchhere.eq_5 c re b text notStar notEnd]
      constructor
      · intro here
        split at here
        · rename_i fits
          exact ⟨[b], text, rfl, ⟨b, rfl, fits⟩, (ih text).mp here⟩
        · cases here
      · rintro ⟨s, after, parts, ⟨b, rfl, fits⟩, here⟩
        cases parts
        rw [if_pos fits]
        exact (ih _).mpr here

/-- The loop of `match` finds a match anywhere. -/
theorem matchAnywhere_iff {re : List UInt8} (text : List UInt8) :
    matchAnywhere re text = true ↔ ∃ before, MatchesAt re before text := by
  induction text with
  | nil =>
    rw [matchAnywhere, matchhere_iff]
    constructor
    · exact fun here => ⟨[], here⟩
    · rintro ⟨before, s, after, parts, rest⟩
      obtain ⟨⟨rfl, rfl⟩, rfl⟩ :=
        (append_eq_nil_iff.mp parts.symm).imp_left append_eq_nil_iff.mp
      exact ⟨[], [], rfl, rest⟩
  | cons b text ih =>
    rw [matchAnywhere, Bool.or_eq_true, matchhere_iff, ih]
    constructor
    · rintro (here | ⟨before, s, after, rfl, rest⟩)
      · exact ⟨[], here⟩
      · exact ⟨b :: before, s, after, rfl, rest⟩
    · rintro ⟨_ | ⟨b', before⟩, s, after, parts, rest⟩
      · exact .inl ⟨s, after, parts, rest⟩
      · cases parts
        exact .inr ⟨before, s, after, rfl, rest⟩

/-- The matcher is correct: it finds a match exactly when some substring of the text, where
the anchors allow it, belongs to the language of the pattern. -/
theorem match_correct (re text : List UInt8) : matchText re text = true ↔ Matches re text := by
  unfold matchText Matches
  split
  · exact matchhere_iff _ text
  · exact matchAnywhere_iff text

end Grep

end Xv6
