import Xv6.Log.Cache

/-!
# Replaying the log

The disk has an abstract reading, `replayed`: its contents once the blocks that
the on-disk header lists have been copied home. Every disk write of `commit` and
of `recover_from_log` leaves this reading of the home blocks alone, except the
one write of a full header, which replaces it by the transaction's effect.
-/

namespace Xv6.Crash

open Writes Machine List

variable {start tail size k : Nat} {contents disk target : Disk} {lh : List Nat} {w : Nat × Block}
  {erased : Block}

/-! ## The disk writes of the loops -/

/-- The writes of `install_trans` from slot `tail` on, for given block contents. -/
def installWrites (start : Nat) (contents : Disk) : List Nat → Nat → List (Nat × Block)
  | [], _ => []
  | blockno :: rest, tail =>
    (blockno, contents (start + tail + 1)) :: installWrites start contents rest (tail + 1)

/-- The writes of `write_log` from slot `tail` on, for given block contents. -/
def logWrites (start : Nat) (contents : Disk) : List Nat → Nat → List (Nat × Block)
  | [], _ => []
  | blockno :: rest, tail =>
    (start + tail + 1, contents blockno) :: logWrites start contents rest (tail + 1)

theorem installWrites_fst (start : Nat) (contents : Disk) (lh : List Nat) (tail : Nat) :
    (installWrites start contents lh tail).map Prod.fst = lh := by
  induction lh generalizing tail with
  | nil => rfl
  | cons blockno rest ih => simp [installWrites, ih]

theorem mem_installWrites (member : w ∈ installWrites start contents lh tail) : w.1 ∈ lh := by
  rw [← installWrites_fst start contents lh tail]
  exact mem_map_of_mem member

theorem mem_logWrites (member : w ∈ logWrites start contents lh tail) :
    start + tail < w.1 ∧ w.1 ≤ start + tail + lh.length := by
  induction lh generalizing tail with
  | nil => simp [logWrites] at member
  | cons blockno rest ih =>
    simp only [logWrites, mem_cons] at member
    simp only [length_cons]
    rcases member with rfl | later
    · constructor
      · exact Nat.lt_succ_self _
      · dsimp only
        omega
    · have bounds := ih later
      omega

theorem logWrites_length (start : Nat) (contents : Disk) (lh : List Nat) (tail : Nat) :
    (logWrites start contents lh tail).length = lh.length := by
  induction lh generalizing tail with
  | nil => rfl
  | cons blockno rest ih => simp [logWrites, ih]

/-- The writes home depend only on the log slots they copy from. -/
theorem installWrites_congr (start : Nat) (left right : Disk) (lh : List Nat) (tail : Nat)
    (agree : ∀ slot, tail ≤ slot → slot < tail + lh.length →
      left (start + slot + 1) = right (start + slot + 1)) :
    installWrites start left lh tail = installWrites start right lh tail := by
  induction lh generalizing tail with
  | nil => rfl
  | cons blockno rest ih =>
    simp only [length_cons] at agree
    rw [installWrites, installWrites, agree tail (Nat.le_refl _) (by omega),
      ih (tail + 1) fun slot above below => agree slot (by omega) (by omega)]

/-- The writes into the log depend only on the blocks they copy from. -/
theorem logWrites_congr (start : Nat) (left right : Disk) (lh : List Nat) (tail : Nat)
    (agree : ∀ blockno ∈ lh, left blockno = right blockno) :
    logWrites start left lh tail = logWrites start right lh tail := by
  induction lh generalizing tail with
  | nil => rfl
  | cons blockno rest ih =>
    rw [logWrites, logWrites, agree blockno (by simp),
      ih (tail + 1) fun other member => agree other (by simp [member])]

/-- Copying into the log and back home writes each block's own contents. -/
theorem installWrites_logWrites (start : Nat) (contents store : Disk) (lh : List Nat) (tail : Nat) :
    installWrites start (Writes.apply (logWrites start contents lh tail) store) lh tail =
      lh.map fun blockno => (blockno, contents blockno) := by
  induction lh generalizing tail store with
  | nil => rfl
  | cons blockno rest ih =>
    have kept : Writes.apply (logWrites start contents rest (tail + 1))
        (Function.update store (start + tail + 1) (contents blockno)) (start + tail + 1) =
          contents blockno := by
      rw [apply_of_not_mem]
      · simp
      · intro w member same
        have bounds := mem_logWrites member
        omega
    rw [installWrites, logWrites, apply_cons, ih, kept]
    rfl

section
variable (steal : Nat → Nat → Bool)

theorem installFrom_wrote (start size : Nat) (lh : List Nat) (tail : Nat) (m : Machine)
    (coherent : Coherent m) (here : m.log.start = start)
    (homes : ∀ blockno ∈ lh, Home start size blockno) (short : tail + lh.length < size) :
    Wrote m (installWrites start (view m) lh tail) (installFrom steal lh tail m) := by
  induction lh generalizing tail m with
  | nil => exact ⟨rfl, by simp [installFrom, installWrites], rfl, rfl, coherent,
      fun _ isDirty => ⟨isDirty, by simp [installWrites]⟩⟩
  | cons blockno rest ih =>
    simp only [length_cons] at short
    obtain ⟨logRead, first⟩ := bread_wrote steal coherent (m.log.start + tail + 1)
    obtain ⟨_, second⟩ := bread_wrote steal first.coherent blockno
    have third := bwrite_wrote second.coherent blockno (view m (m.log.start + tail + 1))
    have copied := (first.trans second).trans third
    have rest' := ih (tail + 1)
      ((((m.bread steal (m.log.start + tail + 1)).2.bread steal blockno).2).bwrite blockno
        (view m (m.log.start + tail + 1))) copied.coherent (by rw [copied.log, here])
      (fun other member => homes other (by simp [member])) (by omega)
    have home : Home start size blockno := homes blockno (by simp)
    have whole := copied.trans rest'
    rw [installWrites_congr start _ (view m) rest (tail + 1)] at whole
    · rw [here] at logRead
      simpa [installFrom, installWrites, logRead, here] using whole
    · intro slot above below
      rw [copied.view]
      apply apply_of_not_mem
      intro w member same
      simp only [nil_append, mem_singleton] at member
      subst member
      unfold Home at home
      dsimp only at same
      omega

theorem writeLogFrom_wrote (start size : Nat) (lh : List Nat) (tail : Nat) (m : Machine)
    (coherent : Coherent m) (here : m.log.start = start)
    (homes : ∀ blockno ∈ lh, Home start size blockno) (short : tail + lh.length < size) :
    Wrote m (logWrites start (view m) lh tail) (writeLogFrom steal lh tail m) := by
  induction lh generalizing tail m with
  | nil => exact ⟨rfl, by simp [writeLogFrom, logWrites], rfl, rfl, coherent,
      fun _ isDirty => ⟨isDirty, by simp [logWrites]⟩⟩
  | cons blockno rest ih =>
    simp only [length_cons] at short
    obtain ⟨_, first⟩ := bread_wrote steal coherent (m.log.start + tail + 1)
    obtain ⟨blockRead, second⟩ := bread_wrote steal first.coherent blockno
    have sameView : view (m.bread steal (m.log.start + tail + 1)).2 blockno = view m blockno := by
      rw [first.view]
      rfl
    have third := bwrite_wrote second.coherent (m.log.start + tail + 1) (view m blockno)
    have copied := (first.trans second).trans third
    have rest' := ih (tail + 1)
      ((((m.bread steal (m.log.start + tail + 1)).2.bread steal blockno).2).bwrite
        (m.log.start + tail + 1) (view m blockno)) copied.coherent (by rw [copied.log, here])
      (fun other member => homes other (by simp [member])) (by omega)
    have whole := copied.trans rest'
    have sameLog : ((m.bread steal (m.log.start + tail + 1)).2.bread steal blockno).2.log =
        m.log := second.log.trans first.log
    rw [logWrites_congr start _ (view m) rest (tail + 1)] at whole
    · rw [here] at blockRead sameView sameLog
      simpa [writeLogFrom, logWrites, blockRead, sameView, sameLog, here] using whole
    · intro other member
      have home : Home start size other := homes other (by simp [member])
      rw [copied.view]
      apply apply_of_not_mem
      intro w inside same
      simp only [nil_append, mem_singleton] at inside
      subst inside
      unfold Home at home
      dsimp only at same
      omega

/-- `write_head` issues one write: the header with the listed block numbers. -/
theorem writeHead_wrote {m : Machine} (coherent : Coherent m) :
    Wrote m [(m.log.start, storeHead (view m m.log.start) m.log.lh)] (m.writeHead steal) := by
  obtain ⟨headRead, read⟩ := bread_wrote steal coherent m.log.start
  have wrote := read.trans (bwrite_wrote read.coherent m.log.start
    (storeHead (view m m.log.start) m.log.lh))
  simpa [writeHead, headRead, read.log] using wrote

end

/-! ## The abstract reading of a disk -/

/-- The block contents after the blocks listed in the on-disk header have been
copied home. -/
def replayed (start : Nat) (disk : Disk) : Disk :=
  Writes.apply (installWrites start disk (loadHead (disk start)) 0) disk

/-- The disk recovers to the home contents `target`: the header lists home
blocks, fewer than the log has blocks, and replaying them gives `target`. -/
structure Recoverable (start size : Nat) (disk target : Disk) : Prop where
  homes : ∀ blockno ∈ loadHead (disk start), Home start size blockno
  short : (loadHead (disk start)).length < size
  replays : ∀ blockno, Home start size blockno → replayed start disk blockno = target blockno

theorem not_home_slot (start : Nat) {slot : Nat} (short : slot < size) :
    ¬ Home start size (start + slot) := by
  unfold Home
  omega

/-- A disk with an empty header is its own reading. -/
theorem Recoverable.of_clear (room : 0 < size) (clear : loadHead (disk start) = [])
    (same : ∀ blockno, Home start size blockno → disk blockno = target blockno) :
    Recoverable start size disk target where
  homes := by simp [clear]
  short := by simpa [clear] using room
  replays := by
    intro blockno home
    simpa [replayed, clear, installWrites] using same blockno home

/-- Writes to home blocks alone do not change the header or the log slots. -/
theorem apply_homes (start size slot : Nat) (ws : List (Nat × Block)) (disk : Disk)
    (homes : ∀ w ∈ ws, Home start size w.1) (short : slot < size) :
    Writes.apply ws disk (start + slot) = disk (start + slot) := by
  apply apply_of_not_mem
  intro w member same
  exact not_home_slot start short (same ▸ homes w member)

/-- Any part of the writes home leaves the disk recoverable to the same contents,
and so does the erased header once all of them are there. -/
theorem Recoverable.replay_partial (recoverable : Recoverable start size disk target)
    (empty : loadHead erased = []) (k : Nat) :
    Recoverable start size
      (Writes.apply ((installWrites start disk (loadHead (disk start)) 0 ++
        [(start, erased)]).take k) disk) target := by
  obtain ⟨homes, short, replays⟩ := recoverable
  generalize listed : loadHead (disk start) = lh at homes short
  have replaysList : ∀ blockno, Home start size blockno →
      Writes.apply (installWrites start disk lh 0) disk blockno = target blockno := by
    simpa only [replayed, listed] using replays
  rw [take_append]
  by_cases all : k ≤ (installWrites start disk lh 0).length
  · have partialHomes : ∀ w ∈ (installWrites start disk lh 0).take k, Home start size w.1 :=
      fun w member => homes w.1 (mem_installWrites (mem_of_mem_take member))
    rw [Nat.sub_eq_zero_of_le all, take_zero, append_nil]
    have sameHead := apply_homes start size 0 _ disk partialHomes (by omega)
    rw [Nat.add_zero] at sameHead
    have sameWrites : installWrites start
        (Writes.apply ((installWrites start disk lh 0).take k) disk) lh 0 =
          installWrites start disk lh 0 :=
      installWrites_congr start _ _ lh 0 fun slot _ below =>
        apply_homes start size (slot + 1) _ disk partialHomes (by omega)
    refine ⟨by simpa only [sameHead, listed] using homes,
      by simpa only [sameHead, listed] using short, ?_⟩
    intro blockno home
    rw [replayed, sameHead, listed, sameWrites, apply_of_subset]
    · exact replaysList blockno home
    · intro w member
      exact ⟨w, mem_of_mem_take member, rfl⟩
  · rw [take_of_length_le (by omega), take_of_length_le (by simp; omega), apply_append]
    refine Recoverable.of_clear (by omega) ?_ ?_
    · simpa using empty
    · intro blockno home
      have apart : blockno ≠ start := by
        intro same
        have room : 0 < size := by omega
        exact not_home_slot start room (same ▸ home)
      simpa [Function.update_of_ne apart] using replaysList blockno home

/-- The writes of a commit, in order. -/
def commitWrites (start : Nat) (contents : Disk) (lh : List Nat) (full erased : Block) :
    List (Nat × Block) :=
  logWrites start contents lh 0 ++ (start, full) ::
    (lh.map (fun blockno => (blockno, contents blockno)) ++ [(start, erased)])

/-- Before the header is written a commit is invisible. -/
theorem commit_before (contents : Disk) (full erased : Block) (clear : loadHead (disk start) = [])
    (short : lh.length < size) (early : k ≤ lh.length) :
    Recoverable start size
      (Writes.apply ((commitWrites start contents lh full erased).take k) disk) disk := by
  have partialLog : (commitWrites start contents lh full erased).take k =
      (logWrites start contents lh 0).take k := by
    rw [commitWrites, take_append_of_le_length]
    rwa [logWrites_length]
  have untouched : ∀ blockno, (blockno = start ∨ Home start size blockno) →
      Writes.apply ((logWrites start contents lh 0).take k) disk blockno = disk blockno := by
    intro blockno outside
    apply apply_of_not_mem
    intro w member same
    have bounds := mem_logWrites (mem_of_mem_take member)
    unfold Home at outside
    omega
  rw [partialLog]
  refine Recoverable.of_clear (by omega) ?_ ?_
  · rw [untouched start (Or.inl rfl)]
    exact clear
  · intro blockno home
    exact untouched blockno (Or.inr home)

/-- Once the header is written, the disk reads as the whole transaction applied,
at every later write of the commit. -/
theorem commit_after (disk contents : Disk) {full : Block}
    (homes : ∀ blockno ∈ lh, Home start size blockno) (short : lh.length < size)
    (listed : loadHead full = lh) (empty : loadHead erased = []) (late : lh.length < k) :
    Recoverable start size
      (Writes.apply ((commitWrites start contents lh full erased).take k) disk)
      (Writes.apply (lh.map fun blockno => (blockno, contents blockno)) disk) := by
  obtain ⟨rest, rfl⟩ : ∃ rest, k = lh.length + (rest + 1) := ⟨k - lh.length - 1, by omega⟩
  have taken : (commitWrites start contents lh full erased).take (lh.length + (rest + 1)) =
      (logWrites start contents lh 0 ++ [(start, full)]) ++
        (lh.map (fun blockno => (blockno, contents blockno)) ++ [(start, erased)]).take rest := by
    have whole : (logWrites start contents lh 0).length = lh.length := logWrites_length ..
    rw [commitWrites, take_append, take_of_length_le (by omega), whole,
      Nat.add_sub_cancel_left, take_succ_cons, append_assoc]
    rfl
  rw [taken, apply_append]
  generalize logged : Writes.apply (logWrites start contents lh 0 ++ [(start, full)]) disk = mid
  have headWritten : mid start = full := by
    rw [← logged, apply_append]
    simp
  have slots : installWrites start mid lh 0 =
      lh.map fun blockno => (blockno, contents blockno) := by
    rw [← installWrites_logWrites start contents disk lh 0]
    apply installWrites_congr
    intro slot _ _
    rw [← logged, apply_append]
    simp [Function.update_of_ne (show start + slot + 1 ≠ start by omega)]
  have committed : Recoverable start size mid
      (Writes.apply (lh.map fun blockno => (blockno, contents blockno)) disk) := by
    refine ⟨by simpa only [headWritten, listed] using homes,
      by simpa only [headWritten, listed] using short, ?_⟩
    intro blockno home
    rw [replayed, headWritten, listed, slots]
    apply apply_congr
    right
    rw [← logged]
    apply apply_of_not_mem
    intro w member same
    unfold Home at home
    rcases mem_append.mp member with inLog | atHead
    · have bounds := mem_logWrites inLog
      omega
    · simp only [mem_singleton] at atHead
      subst atHead
      dsimp only at same
      omega
  have resumed := committed.replay_partial empty rest
  rwa [headWritten, listed, slots] at resumed

end Xv6.Crash
