import Xv6.Grep.Match

/-!
# How `grep` reads its input

`grep` reads into a buffer behind what is left there of a line, puts a NUL after it, and
goes through the complete lines in place: each newline is replaced by a NUL for the call
of the matcher. What follows the last newline is moved to the front for the next read.

If the buffer holds no newline, nothing is kept: the test `p == buf` is meant for lines
that do not fit in the buffer, but it is true of every line that a read cut short. So the
output is right for every pattern exactly when every read returns a newline.
-/

namespace Xv6

open List

namespace Grep

/-! ## The loops -/

/-- The C string that begins at a position of the buffer. -/
def cstring (buf : List UInt8) (p : Nat) : List UInt8 := (buf.drop p).takeWhile (· ≠ 0)

/-- The first newline of the C string at a position. -/
def strchr (buf : List UInt8) (p : Nat) : Option Nat :=
  ((cstring buf p).findIdx? (· = 10)).map (p + ·)

theorem strchr_bound {buf : List UInt8} {p q : Nat} (found : strchr buf p = some q) :
    p ≤ q ∧ q < buf.length := by
  obtain ⟨index, isIndex, rfl⟩ := Option.map_eq_some_iff.mp found
  have inside := (findIdx?_eq_some_iff_getElem.mp isIndex).1
  have shorter := (takeWhile_sublist (· ≠ (0 : UInt8)) (l := buf.drop p)).length_le
  rw [length_drop] at shorter
  rw [cstring] at inside
  omega

/-- The inner loop: what it writes, and the buffer and the position it ends with. -/
def scan (pattern buf : List UInt8) (p : Nat) : List UInt8 × List UInt8 × Nat :=
  match found : strchr buf p with
  | none => ([], buf, p)
  | some q =>
    let ended := buf.set q 0
    if matchText pattern (cstring ended p) then
      let buf := ended.set q 10
      let (out, rest) := scan pattern buf (q + 1)
      ((buf.drop p).take (q + 1 - p) ++ out, rest)
    else scan pattern ended (q + 1)
termination_by buf.length - p
decreasing_by
  all_goals
    have bound := strchr_bound found
    simp only [List.length_set]
    omega

/-- What `grep` writes for a sequence of reads, with `m` bytes in the buffer. A read of
nothing, like one at the end of the input, ends the loop. -/
def grep (pattern : List UInt8) : (buf : List UInt8) → (m : Nat) → (pieces : List (List UInt8)) →
    List UInt8
  | _, _, [] => []
  | buf, m, piece :: pieces =>
    if 1024 - m - 1 = 0 then []
    else
      let read := buf.take m ++ piece ++ buf.drop (m + piece.length)
      let m := m + piece.length
      let (out, buf, p) := scan pattern (read.set m 0) 0
      let m := if p = 0 then 0 else m
      if 0 < m then
        let m := m - p
        out ++ grep pattern ((buf.drop p).take m ++ buf.drop m) m pieces
      else out ++ grep pattern buf m pieces

/-! ## What the output should be -/

/-- A list of lines as a stream. -/
def stream (lines : List (List UInt8)) : List UInt8 := lines.flatMap (· ++ [10])

/-- The lines that match, in order, each with its newline. -/
def selected (pattern : List UInt8) (lines : List (List UInt8)) : List UInt8 :=
  stream (lines.filter (matchText pattern))

/-- Lines without a newline or a NUL in them. -/
def Plain (lines : List (List UInt8)) : Prop := ∀ line ∈ lines, 10 ∉ line ∧ 0 ∉ line

/-- What is left in the buffer for the next read. -/
def left (buf : List UInt8) : List UInt8 :=
  if 10 ∈ buf then (buf.reverse.takeWhile (· ≠ 10)).reverse else []

/-- The reads of a stream, with some bytes held in the buffer: each returns something and no
more than it was asked for. -/
def Requested : (held : List UInt8) → (pieces : List (List UInt8)) → Prop
  | _, [] => True
  | held, piece :: pieces =>
    piece ≠ [] ∧ piece.length ≤ 1024 - held.length - 1 ∧ Requested (left (held ++ piece)) pieces

/-- Every text is a number of complete lines and an incomplete one. -/
theorem exists_lines (text : List UInt8) (clean : 0 ∉ text) : ∃ lines last,
    text = stream lines ++ last ∧ Plain lines ∧ 10 ∉ last := by
  induction text with
  | nil => exact ⟨[], [], rfl, forall_mem_nil _, not_mem_nil⟩
  | cons b text ih =>
    rw [mem_cons, not_or] at clean
    obtain ⟨lines, last, rfl, plain, open_⟩ := ih clean.2
    by_cases newline : b = 10
    · subst newline
      refine ⟨[] :: lines, last, rfl, ?_, open_⟩
      rintro line (_ | ⟨_, member⟩)
      · exact ⟨not_mem_nil, not_mem_nil⟩
      · exact plain line member
    · cases lines with
      | nil =>
        refine ⟨[], b :: last, rfl, forall_mem_nil _, ?_⟩
        rw [mem_cons, not_or]
        exact ⟨Ne.symm newline, open_⟩
      | cons line lines =>
        refine ⟨(b :: line) :: lines, last, rfl, ?_, open_⟩
        rintro other (_ | ⟨_, member⟩)
        · obtain ⟨noNewline, noNul⟩ := plain line mem_cons_self
          rw [mem_cons, not_or, mem_cons, not_or]
          exact ⟨⟨Ne.symm newline, noNewline⟩, clean.1, noNul⟩
        · exact plain other (mem_cons_of_mem _ member)

/-- The first line of a stream is determined by it. -/
theorem line_inj {line other rest others : List UInt8} (plain : 10 ∉ line) (plainToo : 10 ∉ other)
    (same : line ++ 10 :: rest = other ++ 10 :: others) : line = other ∧ rest = others := by
  induction line generalizing other with
  | nil =>
    cases other with
    | nil => exact ⟨rfl, (List.cons.inj same).2⟩
    | cons b other => exact absurd ((List.cons.inj same).1 ▸ mem_cons_self) plainToo
  | cons b line ih =>
    rw [mem_cons, not_or] at plain
    cases other with
    | nil => exact absurd (List.cons.inj same).1.symm plain.1
    | cons b' other =>
      rw [mem_cons, not_or] at plainToo
      obtain ⟨rfl, rest⟩ := List.cons.inj same
      obtain ⟨rfl, rfl⟩ := ih plain.2 plainToo.2 rest
      exact ⟨rfl, rfl⟩

/-- Complete lines at the front of a stream are its first lines. -/
theorem stream_prefix {some lines : List (List UInt8)} {rest : List UInt8} (plain : Plain some)
    (plainToo : Plain lines) (same : stream some ++ rest = stream lines) :
    ∃ others, lines = some ++ others ∧ rest = stream others := by
  induction some generalizing lines with
  | nil => exact ⟨lines, rfl, same⟩
  | cons line some ih =>
    cases lines with
    | nil => simp [stream] at same
    | cons other lines =>
      simp only [stream, flatMap_cons, append_assoc, singleton_append] at same
      obtain ⟨rfl, rest⟩ := line_inj (plain line mem_cons_self).1
        (plainToo other mem_cons_self).1 same
      obtain ⟨others, rfl, isRest⟩ := ih (fun l member => plain l (mem_cons_of_mem _ member))
        (fun l member => plainToo l (mem_cons_of_mem _ member)) rest
      exact ⟨others, rfl, isRest⟩

/-- What a buffer leaves for the next read. -/
theorem left_stream {lines : List (List UInt8)} {last : List UInt8} (open_ : 10 ∉ last) :
    left (stream lines ++ last) = if lines = [] then [] else last := by
  rcases eq_nil_or_concat lines with rfl | ⟨lines, line, rfl⟩
  · rw [left, if_neg]
    · rfl
    · exact open_
  · have ends : stream (lines.concat line) = stream lines ++ line ++ [10] := by
      simp [stream]
    rw [if_neg (by simp), left, if_pos (by rw [ends]; simp), ends, reverse_append,
      reverse_append, takeWhile_append_of_pos]
    · simp
    · intro b member
      rw [mem_reverse] at member
      exact decide_eq_true fun isNewline => open_ (isNewline ▸ member)

/-! ## The inner loop -/

/-- The C string at a position of the buffer. -/
theorem cstring_eq {before text after : List UInt8} (clean : 0 ∉ text) :
    cstring (before ++ (text ++ 0 :: after)) before.length = text := by
  rw [cstring, drop_left, takeWhile_append_of_pos]
  · simp
  · intro b member
    exact decide_eq_true fun isNul => clean (isNul ▸ member)

theorem stream_clean {lines : List (List UInt8)} (plain : Plain lines) : 0 ∉ stream lines := by
  intro member
  obtain ⟨line, isLine, inside⟩ := mem_flatMap.mp member
  rcases mem_append.mp inside with inLine | isNewline
  · exact (plain line isLine).2 inLine
  · exact absurd (mem_singleton.mp isNewline) (by decide)

/-- The first newline after a position. -/
theorem strchr_eq {before line rest after : List UInt8} (plain : 10 ∉ line)
    (clean : 0 ∉ line ++ 10 :: rest) :
    strchr (before ++ (line ++ 10 :: rest ++ 0 :: after)) before.length =
      some (before.length + line.length) := by
  have before : line.findIdx? (· = 10) = none := findIdx?_eq_none_iff.mpr fun b member =>
    decide_eq_false fun isNewline => plain (isNewline ▸ member)
  rw [strchr, cstring_eq clean, findIdx?_append, before]
  simp [findIdx?_cons]

/-- Replacing the byte after a part of the buffer. -/
theorem set_after (before line rest : List UInt8) (b c : UInt8) :
    (before ++ (line ++ b :: rest)).set (before.length + line.length) c =
      before ++ (line ++ c :: rest) := by
  simp

/-- In the buffer, the loop over the lines writes those that match and stops at the last,
incomplete one. -/
theorem scan_spec {pattern last after : List UInt8} (lines : List (List UInt8))
    (plain : Plain lines) (open_ : 10 ∉ last) (clean : 0 ∉ last) : ∀ before : List UInt8, ∃ before',
      scan pattern (before ++ (stream lines ++ last ++ 0 :: after)) before.length =
        (selected pattern lines, before' ++ (last ++ 0 :: after), before'.length) ∧
      before'.length = before.length + (stream lines).length := by
  induction lines with
  | nil =>
    intro before
    have none : strchr (before ++ (last ++ 0 :: after)) before.length = none := by
      rw [strchr, cstring_eq clean, findIdx?_eq_none_iff.mpr]
      · rfl
      · intro b member
        exact decide_eq_false fun isNewline => open_ (isNewline ▸ member)
    refine ⟨before, ?_, rfl⟩
    rw [scan]
    simp only [stream, flatMap_nil, nil_append]
    split
    · rfl
    · rename_i found
      cases none.symm.trans found
  | cons line lines ih =>
    intro before
    obtain ⟨newlineFree, nulFree⟩ := plain line mem_cons_self
    have plainRest : Plain lines := fun l member => plain l (mem_cons_of_mem _ member)
    obtain ⟨rest, isRest⟩ : ∃ rest, rest = stream lines ++ last ++ 0 :: after := ⟨_, rfl⟩
    have content : stream (line :: lines) ++ last ++ 0 :: after = line ++ 10 :: rest := by
      simp [stream, isRest]
    have found : strchr (before ++ (line ++ 10 :: rest)) before.length =
        some (before.length + line.length) := by
      rw [isRest, ← cons_append, ← append_assoc line]
      refine strchr_eq newlineFree ?_
      simp only [mem_append, mem_cons, not_or]
      exact ⟨nulFree, by decide, stream_clean plainRest, clean⟩
    have ended : cstring (before ++ (line ++ 0 :: rest)) before.length = line := cstring_eq nulFree
    have next : ∀ b, ∃ before', scan pattern (before ++ (line ++ b :: rest))
        (before.length + line.length + 1) =
          (selected pattern lines, before' ++ (last ++ 0 :: after), before'.length) ∧
        before'.length = before.length + (stream (line :: lines)).length := by
      intro b
      obtain ⟨before', ran, long⟩ := ih plainRest (before ++ line ++ [b])
      rw [← isRest] at ran
      refine ⟨before', ?_, ?_⟩
      · simpa [Nat.add_assoc] using ran
      · rw [long]
        simp [stream]
        omega
    rw [content, scan]
    split
    · rename_i none
      cases none.symm.trans found
    · rename_i q isFound
      obtain rfl := Option.some.inj (found.symm.trans isFound)
      simp only [set_after, ended]
      split
      · rename_i matches_
        obtain ⟨before', ran, long⟩ := next 10
        refine ⟨before', ?_, long⟩
        have written : ((before ++ (line ++ 10 :: rest)).drop before.length).take
            (before.length + line.length + 1 - before.length) = line ++ [10] := by
          rw [drop_left, show before.length + line.length + 1 - before.length =
            (line ++ [10]).length by simp; omega, append_cons line 10 rest, take_left]
        rw [ran, written]
        simp [selected, stream, matches_]
      · rename_i fails
        obtain ⟨before', ran, long⟩ := next 0
        refine ⟨before', ?_, long⟩
        rw [ran]
        simp [selected, fails]

/-! ## The outer loop -/

/-- A buffer that holds some bytes. -/
structure Holding (held buf : List UInt8) : Prop where
  size : buf.length = 1024
  bytes : ∃ junk, buf = held ++ junk
  open_ : 10 ∉ held
  clean : 0 ∉ held

/-- A round of the loop: the complete lines that match are written, and the rest is held if
there was a complete line. -/
theorem grep_round {pattern held buf piece : List UInt8} {pieces : List (List UInt8)}
    (holding : Holding held buf) (some : piece ≠ []) (fits : piece.length ≤ 1024 - held.length - 1)
    (clean : 0 ∉ piece) : ∃ lines last after, held ++ piece = stream lines ++ last ∧
      Plain lines ∧ 10 ∉ last ∧ Holding (left (held ++ piece)) after ∧
      grep pattern buf held.length (piece :: pieces) =
        selected pattern lines ++ grep pattern after (left (held ++ piece)).length pieces := by
  obtain ⟨junk, isBuf⟩ := holding.bytes
  have size := holding.size
  have nonempty := length_pos_iff.mpr some
  have cleanAll : 0 ∉ held ++ piece := by
    rw [mem_append, not_or]
    exact ⟨holding.clean, clean⟩
  obtain ⟨lines, last, parts, plain, open_⟩ := exists_lines (held ++ piece) cleanAll
  have total := congrArg length parts
  rw [length_append, length_append] at total
  rw [isBuf, length_append] at size
  -- The read leaves the NUL and what was in the buffer behind it.
  obtain ⟨b, after, isRest⟩ : ∃ b after, junk.drop piece.length = b :: after :=
    exists_cons_of_ne_nil (by rw [← length_pos_iff, length_drop]; omega)
  have read : (buf.take held.length ++ piece ++ buf.drop (held.length + piece.length)).set
      (held.length + piece.length) 0 = [] ++ (stream lines ++ last ++ 0 :: after) := by
    rw [isBuf, take_left, ← drop_drop, drop_left, isRest, append_assoc,
      set_after, ← append_assoc, parts, nil_append]
  obtain ⟨before', ran, long⟩ := @scan_spec pattern last after lines plain open_
    (fun member => cleanAll (parts ▸ mem_append_right _ member)) []
  rw [length_nil, Nat.zero_add] at long
  have whole : before'.length + (last.length + (after.length + 1)) = 1024 := by
    have := congrArg length isRest
    rw [length_drop, length_cons] at this
    omega
  have room : ¬ 1024 - held.length - 1 = 0 := by omega
  refine ⟨lines, last, ?_⟩
  rw [parts, left_stream open_, grep, if_neg room]
  simp only [read, length_nil] at ran ⊢
  rw [ran]
  by_cases none : lines = []
  · subst none
    obtain rfl : before' = [] := eq_nil_of_length_eq_zero long
    exact ⟨last ++ 0 :: after, trivial, plain, open_,
      ⟨by simpa using whole, ⟨_, rfl⟩, not_mem_nil, not_mem_nil⟩, rfl⟩
  · have moved : before'.length ≠ 0 := by
      rw [long]
      cases lines with
      | nil => exact absurd rfl none
      | cons line lines => simp [stream]
    have more : 0 < held.length + piece.length := by omega
    have count : held.length + piece.length - before'.length = last.length := by omega
    dsimp only
    rw [if_neg moved, if_pos more, if_neg none, count, drop_left, take_left]
    refine ⟨_, trivial, plain, open_, ⟨?_, ⟨_, rfl⟩, open_, fun member => ?_⟩, rfl⟩
    · simp only [length_append, length_drop, length_cons]
      omega
    · exact cleanAll (parts ▸ mem_append_right _ member)

/-- Reads that all return a newline give every line whole. -/
theorem grep_selects {pattern : List UInt8} (pieces : List (List UInt8)) :
    ∀ {held buf : List UInt8} {lines : List (List UInt8)}, Holding held buf →
      Requested held pieces → (∀ piece ∈ pieces, 10 ∈ piece) → Plain lines →
      held ++ pieces.flatten = stream lines →
      grep pattern buf held.length pieces = selected pattern lines := by
  induction pieces with
  | nil =>
    intro held buf lines holding _ _ plain whole
    rw [flatten_nil, append_nil] at whole
    cases lines with
    | nil => rfl
    | cons line lines => exact absurd (by simp [whole, stream]) holding.open_
  | cons piece pieces ih =>
    intro held buf lines holding requested newlines plain whole
    obtain ⟨some, fits, requestedRest⟩ := requested
    have clean : 0 ∉ piece := fun member => stream_clean plain (by rw [← whole]; simp [member])
    obtain ⟨first, last, after, parts, plainFirst, open_, holdingToo, ran⟩ :=
      @grep_round pattern _ _ _ pieces holding some fits clean
    rw [flatten_cons, ← append_assoc, parts, append_assoc] at whole
    obtain ⟨others, rfl, rest⟩ := stream_prefix plainFirst plain whole
    have newline : first ≠ [] := by
      rintro rfl
      have member : 10 ∈ held ++ piece :=
        mem_append_right _ (newlines piece mem_cons_self)
      rw [parts] at member
      exact open_ member
    have isLeft : left (held ++ piece) = last := by rw [parts, left_stream open_, if_neg newline]
    rw [ran, isLeft]
    rw [isLeft] at holdingToo requestedRest
    rw [ih holdingToo requestedRest (fun l member => newlines l (mem_cons_of_mem _ member))
      (fun l member => plain l (mem_append_right _ member)) rest]
    simp [selected, stream]

/-- The empty pattern selects every line. -/
theorem selected_nil (lines : List (List UInt8)) : selected [] lines = stream lines := by
  rw [selected, filter_eq_self.mpr]
  intro line _
  cases line <;> simp [matchText, matchAnywhere, matchhere]

/-- The pattern that matches every line writes no more than was read, and less if some read
did not return a newline. -/
theorem grep_loses (pieces : List (List UInt8)) : ∀ {held buf : List UInt8}, Holding held buf →
    Requested held pieces → 0 ∉ pieces.flatten →
    (grep [] buf held.length pieces).length ≤ held.length + pieces.flatten.length ∧
      ((∃ piece ∈ pieces, 10 ∉ piece) →
        (grep [] buf held.length pieces).length < held.length + pieces.flatten.length) := by
  induction pieces with
  | nil =>
    intro held buf _ _ _
    exact ⟨Nat.zero_le _, by simp⟩
  | cons piece pieces ih =>
    intro held buf holding requested clean
    obtain ⟨some, fits, requestedRest⟩ := requested
    rw [flatten_cons, mem_append, not_or] at clean
    have nonempty := length_pos_iff.mpr some
    obtain ⟨lines, last, after, parts, plain, open_, holdingToo, ran⟩ :=
      @grep_round [] _ _ _ pieces holding some fits clean.1
    obtain ⟨most, less⟩ := ih holdingToo requestedRest clean.2
    have total := congrArg length parts
    rw [length_append, length_append] at total
    rw [parts, left_stream open_] at ran most less
    rw [ran, selected_nil, length_append, flatten_cons, length_append]
    by_cases none : lines = []
    · subst none
      rw [if_pos rfl, length_nil] at most
      have nothing : (stream []).length = 0 := rfl
      rw [if_pos rfl, length_nil]
      omega
    · rw [if_neg none] at most less ⊢
      refine ⟨by omega, ?_⟩
      rintro ⟨lost, member, noNewline⟩
      rcases mem_cons.mp member with rfl | isLater
      · -- The buffer held no newline either, so there was no complete line.
        have inside : 10 ∈ held ++ lost := by
          rw [parts]
          cases lines with
          | nil => exact absurd rfl none
          | cons line lines => simp [stream]
        rcases mem_append.mp inside with inHeld | inPiece
        · exact absurd inHeld holding.open_
        · exact absurd inPiece noNewline
      · have := less ⟨lost, isLater, noNewline⟩
        omega

/-- On a stream of lines, every read returning something and no more than was asked for, the
output is the matching lines, in order and whole, whatever the pattern, exactly if every read
returns a newline. -/
theorem grep_output {lines pieces : List (List UInt8)} {buf : List UInt8} (plain : Plain lines)
    (whole : pieces.flatten = stream lines) (requested : Requested [] pieces)
    (size : buf.length = 1024) :
    (∀ pattern, grep pattern buf 0 pieces = selected pattern lines) ↔
      ∀ piece ∈ pieces, 10 ∈ piece := by
  have holding : Holding [] buf := ⟨size, ⟨buf, rfl⟩, List.not_mem_nil, List.not_mem_nil⟩
  constructor
  · intro outputs piece member
    by_contra noNewline
    have clean : 0 ∉ pieces.flatten := whole ▸ stream_clean plain
    have short := (grep_loses pieces holding requested clean).2 ⟨piece, member, noNewline⟩
    have all := outputs []
    rw [selected_nil] at all
    rw [List.length_nil, all, whole] at short
    omega
  · intro newlines pattern
    exact grep_selects pieces holding requested newlines plain whole

theorem grep_output_line :
    grep [98] (List.replicate 1024 0) 0 [[97, 98, 10]] = selected [98] [[97, 98]] :=
  (@grep_output [[97, 98]] [[97, 98, 10]] _ (by simp [Plain]) rfl ⟨by decide, by decide, trivial⟩
    List.length_replicate).mpr (by decide) [98]

/-- Read in two pieces, the first without its newline, the line "ab" comes out as "b". -/
theorem grep_output_cut : Plain [[97, 98]] ∧ [[97], [98, 10]].flatten = stream [[97, 98]] ∧
    Requested [] [[97], [98, 10]] ∧ selected [] [[97, 98]] = [97, 98, 10] ∧
    grep [] (List.replicate 1024 0) 0 [[97], [98, 10]] = [98, 10] := by
  refine ⟨by simp [Plain], rfl, ⟨by decide, by decide, by decide, by decide, trivial⟩,
    selected_nil _, ?_⟩
  have holding : Holding [] (List.replicate 1024 0) :=
    ⟨List.length_replicate, ⟨_, rfl⟩, List.not_mem_nil, List.not_mem_nil⟩
  obtain ⟨lines, last, after, parts, plain, open_, holdingToo, ran⟩ :=
    @grep_round [] [] _ [97] [[98, 10]] holding (by decide) (by decide) (by decide)
  have none : lines = [] := by
    cases lines with
    | nil => rfl
    | cons line lines =>
      have newline : (10 : UInt8) ∈ [] ++ [97] := by
        rw [parts]
        simp [stream]
      exact absurd newline (by decide)
  have dropped : left ([] ++ [97]) = [] := rfl
  rw [dropped] at ran holdingToo
  have second : grep [] after 0 [[98, 10]] = selected [] [[98]] :=
    grep_selects [[98, 10]] holdingToo ⟨by decide, by decide, trivial⟩ (by decide)
      (by simp [Plain]) rfl
  rw [none, List.length_nil, second, selected_nil, selected_nil] at ran
  exact ran

end Grep

end Xv6
