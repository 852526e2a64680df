import Xv6.Log.History

/-!
# The header block and the buffer cache

A header block reads back as the block numbers that `write_head` stored. Through
the cache a block has one current content, `view`: its buffer's, or the disk's.
`Wrote` states what a stretch of the log code does to the machine by the list of
its disk writes; stretches compose by appending these lists.
-/

namespace Xv6.Crash

open Writes Machine Function

/-! ## The header block -/

theorem storeBlocks_before (lh : List Nat) (i : Nat) (buf : Block) (position : Nat)
    (before : position + 4 ≤ 4 + 4 * i) :
    (storeBlocks lh i buf).u32 position = buf.u32 position := by
  induction lh generalizing i buf with
  | nil => rfl
  | cons blockno rest ih =>
    rw [storeBlocks, ih (i + 1) _ (by omega)]
    exact Bytes.u32_putU32_ne _ _ _ _ (Or.inl before)

theorem storeBlocks_slot (lh : List Nat) (i : Nat) (buf : Block) (slot : Nat)
    (inside : slot < lh.length) (fits : 4 + 4 * (i + lh.length) ≤ bsize) :
    (storeBlocks lh i buf).u32 (4 + 4 * (i + slot)) = lh[slot] % 2 ^ 32 := by
  induction lh generalizing i buf slot with
  | nil => simp at inside
  | cons blockno rest ih =>
    simp only [List.length_cons] at inside fits
    cases slot with
    | zero =>
      rw [storeBlocks, storeBlocks_before _ _ _ _ (by omega)]
      simpa using Bytes.u32_putU32 buf (4 + 4 * i) blockno (by omega)
    | succ slot =>
      rw [storeBlocks, show i + (slot + 1) = i + 1 + slot by omega,
        ih (i + 1) _ slot (by omega) (by omega)]
      simp

/-- A header block reads back as the block numbers that were stored, for as many
as the log can hold and numbers of the field's width. -/
theorem loadHead_storeHead (buf : Block) (lh : List Nat) (short : lh.length ≤ logsize)
    (narrow : ∀ blockno ∈ lh, blockno < 2 ^ 32) : loadHead (storeHead buf lh) = lh := by
  have bound : lh.length ≤ 30 := short
  have size : bsize = 512 := rfl
  have stored : (storeHead buf lh).u32 0 = lh.length := by
    rw [storeHead, storeBlocks_before _ _ _ _ (by omega), Bytes.u32_putU32 _ _ _ (by omega)]
    omega
  have counted : headCount (storeHead buf lh) = lh.length := by
    rw [headCount, stored, if_pos (by omega)]
  apply List.ext_getElem
  · simp [loadHead, counted]
  · intro slot inLoaded inside
    have slotValue := storeBlocks_slot lh 0 (buf.putU32 0 lh.length) slot inside (by omega)
    rw [Nat.zero_add] at slotValue
    simp only [loadHead, List.getElem_map, List.getElem_range, storeHead, slotValue]
    exact Nat.mod_eq_of_lt (narrow _ (List.getElem_mem inside))

/-! ## The buffer cache -/

/-- What `bread` returns for a block. -/
def view (m : Machine) : Disk := fun blockno =>
  match m.cache blockno with
  | some buf => buf.data
  | none => m.disk blockno

/-- Clean buffers agree with the disk. -/
def Coherent (m : Machine) : Prop :=
  ∀ blockno buf, m.cache blockno = some buf → buf.dirty = false → buf.data = m.disk blockno

/-- The block's buffer is dirty. -/
def Dirty (m : Machine) (blockno : Nat) : Prop :=
  ∃ buf, m.cache blockno = some buf ∧ buf.dirty = true

theorem view_of_not_dirty {m : Machine} (coherent : Coherent m) {blockno : Nat}
    (clean : ¬ Dirty m blockno) : view m blockno = m.disk blockno := by
  unfold view
  split
  · rename_i buf cached
    cases flag : buf.dirty with
    | false => exact coherent blockno buf cached flag
    | true => exact absurd ⟨buf, cached, flag⟩ clean
  · rfl

/-- `later` is `m` after exactly the disk writes `ws`: they are appended to the
issued writes and show in the disk and through the cache. The in-memory log is
not touched. -/
structure Wrote (m : Machine) (ws : List (Nat × Block)) (later : Machine) : Prop where
  log : later.log = m.log
  writes : later.writes = m.writes ++ ws
  disk : later.disk = Writes.apply ws m.disk
  view : Crash.view later = Writes.apply ws (Crash.view m)
  coherent : Coherent later
  dirty : ∀ blockno, Dirty later blockno → Dirty m blockno ∧ ∀ w ∈ ws, w.1 ≠ blockno

theorem Wrote.trans {m middle later : Machine} {first second : List (Nat × Block)}
    (begun : Wrote m first middle) (ended : Wrote middle second later) :
    Wrote m (first ++ second) later where
  log := ended.log.trans begun.log
  writes := by rw [ended.writes, begun.writes, List.append_assoc]
  disk := by rw [ended.disk, begun.disk, apply_append]
  view := by rw [ended.view, begun.view, apply_append]
  coherent := ended.coherent
  dirty := by
    intro blockno isDirty
    obtain ⟨middleDirty, notSecond⟩ := ended.dirty blockno isDirty
    obtain ⟨firstDirty, notFirst⟩ := begun.dirty blockno middleDirty
    refine ⟨firstDirty, ?_⟩
    intro w member
    rcases List.mem_append.mp member with inFirst | inSecond
    · exact notFirst w inFirst
    · exact notSecond w inSecond

section
variable (steal : Nat → Nat → Bool)

/-- Recycling clean buffers is invisible. -/
theorem recycle_wrote {m : Machine} (coherent : Coherent m) : Wrote m [] (m.recycle steal) where
  log := rfl
  writes := by simp [recycle]
  disk := rfl
  view := by
    funext blockno
    simp only [view, recycle, apply_nil]
    cases cached : m.cache blockno with
    | none => simp
    | some buf =>
      cases kept : (buf.dirty || !steal m.tick blockno) with
      | true => simp [Option.filter, kept]
      | false =>
        have clean : buf.dirty = false := by
          cases flag : buf.dirty <;> simp_all
        simp [Option.filter, kept, coherent blockno buf cached clean]
  coherent := by
    intro blockno buf cached clean
    simp only [recycle, Option.filter_eq_some_iff] at cached
    exact coherent blockno buf cached.1 clean
  dirty := by
    rintro blockno ⟨buf, cached, isDirty⟩
    simp only [recycle, Option.filter_eq_some_iff] at cached
    exact ⟨⟨buf, cached.1, isDirty⟩, by simp⟩

/-- `bread` returns the block's current contents and writes nothing. -/
theorem bread_wrote {m : Machine} (coherent : Coherent m) (blockno : Nat) :
    (m.bread steal blockno).1 = view m blockno ∧ Wrote m [] (m.bread steal blockno).2 := by
  have recycled := recycle_wrote steal coherent
  have same : view (m.recycle steal) blockno = view m blockno := by rw [recycled.view]; rfl
  unfold bread
  simp only
  split
  · rename_i buf cached
    refine ⟨?_, recycled⟩
    rw [← same]
    simp [view, cached]
  · rename_i absent
    refine ⟨?_, recycled.trans (?_ : Wrote _ [] _)⟩
    · rw [← same]
      simp [view, absent]
    · refine ⟨rfl, by simp, rfl, ?_, ?_, ?_⟩
      · funext other
        by_cases here : other = blockno
        · subst here
          simp [view, absent]
        · simp [view, update_of_ne here]
      · intro other buf cached clean
        by_cases here : other = blockno
        · subst here
          simp only [update_self, Option.some.injEq] at cached
          simp [← cached]
        · simp only [update_of_ne here] at cached
          exact recycled.coherent other buf cached clean
      · rintro other ⟨buf, cached, isDirty⟩
        by_cases here : other = blockno
        · subst here
          simp only [update_self, Option.some.injEq] at cached
          simp [← cached] at isDirty
        · simp only [update_of_ne here] at cached
          exact ⟨⟨buf, cached, isDirty⟩, by simp⟩

/-- `bwrite` issues one disk write. -/
theorem bwrite_wrote {m : Machine} (coherent : Coherent m) (blockno : Nat) (data : Block) :
    Wrote m [(blockno, data)] (m.bwrite blockno data) where
  log := rfl
  writes := rfl
  disk := rfl
  view := by
    funext other
    by_cases here : other = blockno
    · subst here
      simp [view, bwrite]
    · simp [view, bwrite, update_of_ne here]
  coherent := by
    intro other buf cached clean
    by_cases here : other = blockno
    · subst here
      simp only [bwrite, update_self, Option.some.injEq] at cached
      simp [bwrite, ← cached]
    · simp only [bwrite, update_of_ne here] at cached ⊢
      exact coherent other buf cached clean
  dirty := by
    rintro other ⟨buf, cached, isDirty⟩
    by_cases here : other = blockno
    · subst here
      simp only [bwrite, update_self, Option.some.injEq] at cached
      simp [← cached] at isDirty
    · simp only [bwrite, update_of_ne here] at cached
      refine ⟨⟨buf, cached, isDirty⟩, ?_⟩
      intro w member same
      simp only [List.mem_singleton] at member
      subst member
      exact here same.symm

end

end Xv6.Crash
