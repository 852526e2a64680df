import Xv6.Fs.Model

/-!
# The entries of a directory

What `dirlookup` finds, where `dirlink` puts an entry, and how many entries of a kind are
there before and after an entry is written. A directory begins with its entries for itself
and for its parent; only the entries behind them have names of their own.
-/

namespace Xv6.Fs

open List

variable {de : Dirent} {off : Nat} {name : Name}

/-- The name is neither `.` nor `..`. -/
def Name.plain : Name → Bool
  | .named _ => true
  | _ => false

/-- An entry that is in use and is neither `.` nor `..`. -/
def Dirent.proper (de : Dirent) : Bool := de.inum ≠ 0 && de.name.plain

/-- A proper entry for an inode. -/
def Dirent.names (inum : Nat) (de : Dirent) : Bool := de.proper && de.inum = inum

@[simp] theorem Dirent.proper_zero : Dirent.zero.proper = false := rfl

@[simp] theorem Dirent.names_zero (inum : Nat) : Dirent.zero.names inum = false := rfl

theorem Dirent.used_of_proper (proper : de.proper = true) : de.inum ≠ 0 := by
  intro zero
  simp [Dirent.proper, zero] at proper

theorem Dirent.names_iff {inum : Nat} :
    de.names inum = true ↔ de.proper = true ∧ de.inum = inum := by
  simp [Dirent.names]

/-! ## Places -/

@[simp] theorem place_cons (de other : Dirent) (entries : List Dirent) (off : Nat) :
    place (other :: entries) (off + 1) de = other :: place entries off de := by
  simp [place]

@[simp] theorem place_zero_cons (de other : Dirent) (entries : List Dirent) :
    place (other :: entries) 0 de = de :: entries := by
  simp [place]

@[simp] theorem place_nil (de : Dirent) : place [] 0 de = [de] := rfl

/-- The entries after one is written: the new one and old ones. -/
theorem mem_place {entries : List Dirent} {other : Dirent} (mem : other ∈ place entries off de) :
    other = de ∨ other ∈ entries := by
  simp only [place, mem_append, mem_cons] at mem
  rcases mem with before | new | after
  · exact Or.inr (mem_of_mem_take before)
  · exact Or.inl new
  · exact Or.inr (mem_of_mem_drop after)

theorem freeSlot_le (entries : List Dirent) : freeSlot entries ≤ entries.length := by
  induction entries with
  | nil => rfl
  | cons de rest ih =>
    rw [freeSlot]
    split
    · exact Nat.zero_le _
    · exact Nat.succ_le_succ ih

/-- The number of entries after one is written at most at the end. -/
theorem length_place {entries : List Dirent} (below : off ≤ entries.length) (de : Dirent) :
    (place entries off de).length = max entries.length (off + 1) := by
  simp only [place, length_append, length_take, length_cons, length_drop]
  omega

/-! ## Counting -/

section Counting

variable (kind : Dirent → Bool)

/-- An entry written over a free one, or behind the last. -/
theorem countP_place_freeSlot (used : ∀ de, kind de = true → de.inum ≠ 0)
    (entries : List Dirent) (new : Dirent) :
    (place entries (freeSlot entries) new).countP kind =
      entries.countP kind + if kind new then 1 else 0 := by
  induction entries with
  | nil => simp [freeSlot, countP_cons]
  | cons de rest ih =>
    rw [freeSlot]
    split
    · rename_i free
      have other : kind de = false := by
        cases counted : kind de with
        | false => rfl
        | true => exact absurd free (used de counted)
      simp [countP_cons, other]
    · rw [place_cons, countP_cons, countP_cons, ih]
      omega

/-- An entry written over another one. -/
theorem countP_place {old : Dirent} (new : Dirent) :
    ∀ {entries : List Dirent} {off : Nat}, entries[off]? = some old →
      (place entries off new).countP kind + (if kind old then 1 else 0) =
        entries.countP kind + if kind new then 1 else 0 := by
  intro entries
  induction entries with
  | nil =>
    intro off found
    simp at found
  | cons de rest ih =>
    intro off found
    cases off with
    | zero =>
      rw [List.getElem?_cons_zero, Option.some.injEq] at found
      rw [found, place_zero_cons, countP_cons, countP_cons]
      omega
    | succ off =>
      rw [List.getElem?_cons_succ] at found
      have rest := ih found
      rw [place_cons, countP_cons, countP_cons]
      omega

end Counting

/-! ## What is found -/

/-- What `dirlookup` finds is the entry of the name. -/
theorem lookup_some {entries : List Dirent} :
    ∀ {off inum : Nat}, lookup name entries = some (off, inum) →
      entries[off]? = some ⟨inum, name⟩ ∧ inum ≠ 0 := by
  induction entries with
  | nil => rintro _ _ ⟨⟩
  | cons de rest ih =>
    intro off inum found
    rw [lookup] at found
    split at found
    · obtain ⟨⟨earlier, target⟩, below, same⟩ := Option.map_eq_some_iff.mp found
      cases same
      rw [List.getElem?_cons_succ]
      exact ih below
    · rename_i match_
      obtain ⟨used, isName⟩ := not_or.mp match_
      cases found
      rw [Decidable.not_not] at isName
      subst isName
      exact ⟨rfl, used⟩

/-- When `dirlookup` finds nothing, no entry in use has the name. -/
theorem lookup_none {entries : List Dirent} (missing : lookup name entries = none) :
    ∀ de ∈ entries, de.inum ≠ 0 → de.name ≠ name := by
  induction entries with
  | nil => rintro _ ⟨⟩
  | cons de rest ih =>
    rw [lookup] at missing
    split at missing
    · rename_i other
      rw [Option.map_eq_none_iff] at missing
      intro found mem used
      rcases mem_cons.mp mem with rfl | later
      · exact other.resolve_left used
      · exact ih missing found later used
    · cases missing

/-! ## Shape -/

/-- A directory begins with `.` and `..`, as far as it is written. -/
def Shaped (inum : Nat) : List Dirent → Prop
  | [] => True
  | [self] => self = ⟨inum, .dot⟩
  | self :: parent :: rest =>
    self = ⟨inum, .dot⟩ ∧ parent.name = .dotdot ∧ parent.inum ≠ 0 ∧
      ∀ de ∈ rest, de.inum ≠ 0 → de.name.plain = true

/-- The inode that the second entry is for. -/
def dotdot : List Dirent → Option Nat
  | _ :: parent :: _ => some parent.inum
  | _ => none

/-- No proper entry is in the directory. -/
def Childless (entries : List Dirent) : Prop := ∀ de ∈ entries, de.proper = false

theorem Childless.nil : Childless [] := by rintro _ ⟨⟩

theorem Childless.countP {entries : List Dirent} (childless : Childless entries)
    {kind : Dirent → Bool} (proper : ∀ de, kind de = true → de.proper = true) :
    entries.countP kind = 0 := by
  rw [countP_eq_zero]
  intro de mem counted
  exact absurd (proper de counted) (by simp [childless de mem])

namespace Shaped

variable {inum : Nat} {entries : List Dirent} {target : Nat}

section

variable (shaped : Shaped inum entries)

include shaped

/-- `.` is the directory itself. -/
theorem of_dot (found : entries[off]? = some ⟨target, .dot⟩)
    (used : target ≠ 0) : target = inum := by
  match entries, off with
  | [], _ => simp at found
  | [self], 0 =>
    cases shaped
    cases found
    rfl
  | [_], _ + 1 => simp at found
  | self :: _ :: _, 0 =>
    obtain ⟨rfl, -⟩ := shaped
    cases found
    rfl
  | _ :: parent :: _, 1 =>
    obtain ⟨-, isParent, -⟩ := shaped
    cases found
    cases isParent
  | _ :: _ :: rest, off + 2 =>
    obtain ⟨-, -, -, plain⟩ := shaped
    have mem : (⟨target, .dot⟩ : Dirent) ∈ rest := mem_of_getElem? found
    cases plain _ mem used

/-- `..` is the second entry. -/
theorem of_dotdot (found : entries[off]? = some ⟨target, .dotdot⟩) (used : target ≠ 0) :
    dotdot entries = some target := by
  match entries, off with
  | [], _ => simp at found
  | [self], 0 =>
    cases shaped
    cases found
  | [_], _ + 1 => simp at found
  | self :: _ :: _, 0 =>
    obtain ⟨rfl, -⟩ := shaped
    cases found
  | _ :: parent :: _, 1 =>
    cases found
    rfl
  | _ :: _ :: rest, off + 2 =>
    obtain ⟨-, -, -, plain⟩ := shaped
    have mem : (⟨target, .dotdot⟩ : Dirent) ∈ rest := mem_of_getElem? found
    cases plain _ mem used

/-- A name that a whole directory does not have is a name of its own. -/
theorem plain_of_lookup (real : inum ≠ 0)
    (whole : 2 ≤ entries.length) (missing : lookup name entries = none) :
    name.plain = true := by
  match entries with
  | self :: parent :: rest =>
    obtain ⟨rfl, isParent, used, -⟩ := shaped
    have first := lookup_none missing ⟨inum, .dot⟩ (by simp) real
    have second := lookup_none missing parent (by simp) used
    cases name with
    | dot => exact absurd rfl first
    | dotdot => exact absurd isParent second
    | named text => rfl

/-- The first free entry of a whole directory is behind `..`. -/
theorem freeSlot_eq (real : inum ≠ 0) (whole : 2 ≤ entries.length) :
    freeSlot entries = freeSlot (entries.drop 2) + 2 := by
  match entries with
  | self :: parent :: rest =>
    obtain ⟨rfl, -, used, -⟩ := shaped
    simp [freeSlot, real, used]

/-- An entry is written behind `..`. -/
theorem place (whole : 2 ≤ entries.length) (off : Nat)
    (de : Dirent) (plain : de.inum ≠ 0 → de.name.plain = true) :
    Shaped inum (place entries (off + 2) de) ∧
      dotdot (Fs.place entries (off + 2) de) = dotdot entries := by
  match entries with
  | self :: parent :: rest =>
    obtain ⟨isSelf, isParent, used, others⟩ := shaped
    rw [place_cons, place_cons]
    refine ⟨⟨isSelf, isParent, used, fun other mem => ?_⟩, rfl⟩
    rcases mem_place mem with rfl | old
    · exact plain
    · exact others other old

/-- A proper entry is behind `..`. -/
theorem two_le_of_proper (found : entries[off]? = some de) (proper : de.proper = true) :
    ∃ behind, off = behind + 2 ∧ 2 ≤ entries.length := by
  match entries, off with
  | [], _ => simp at found
  | [self], 0 =>
    cases shaped
    cases found
    simp [Dirent.proper, Name.plain] at proper
  | [_], _ + 1 => simp at found
  | self :: _ :: _, 0 =>
    obtain ⟨rfl, -⟩ := shaped
    cases found
    simp [Dirent.proper, Name.plain] at proper
  | _ :: parent :: _, 1 =>
    obtain ⟨-, isParent, -⟩ := shaped
    cases found
    simp [Dirent.proper, isParent, Name.plain] at proper
  | _ :: _ :: rest, off + 2 => exact ⟨off, rfl, by simp⟩

/-- A directory that `isdirempty` accepts has no proper entries. -/
theorem childless (empty : isdirempty entries = true) :
    Childless entries := by
  intro de mem
  obtain ⟨off, found⟩ := mem_iff_getElem?.mp mem
  cases proper : de.proper with
  | false => rfl
  | true =>
    obtain ⟨behind, rfl, -⟩ := shaped.two_le_of_proper found proper
    have later : de ∈ entries.drop 2 := by
      refine mem_of_getElem? (i := behind) ?_
      rw [List.getElem?_drop, Nat.add_comm]
      exact found
    have free := all_eq_true.mp empty de later
    simp [Dirent.proper, of_decide_eq_true free] at proper

end

end Shaped

end Xv6.Fs
