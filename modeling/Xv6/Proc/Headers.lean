import Xv6.Proc.Boot

/-!
# What `exec` knows of the headers it uses

`exec` reads the header of a file into a local variable, and compares the answer of
`readi` with the size of the header. The size is unsigned, so the answer of a read that
failed passes for a large count, and `exec` goes on with what was on its stack. The
answers for the program headers and for the contents of the segments are compared for
equality, which no failure passes.

So a call depends on the bytes that it read exactly when the first read did not fail, or
stored the whole header all the same, or stored bytes that no program starts with.
-/

namespace Xv6

open Vm

/-- The answer to the read of the header settles what `exec` takes the header to be. -/
def Answer.Settles (answer : Answer) : Prop :=
  0 ≤ answer.value ∨ answer.bytes.length = 52 ∨
    ∀ old : Bytes 52, (lay old answer.bytes).u32 0 ≠ elfMagic

/-- A call of `exec` for the inode does the same whatever its local variables held, and
fails if less than a header could be read. -/
def Inode.Determines (ip : Inode) : Prop :=
  ∀ (layout : Layout) (k : Kernel) (p : Nat) (t : Thread) (path : List UInt8)
    (argv : List (List UInt8)) (stack : Locals),
    (∀ other : Locals, k.execInode layout p t other path (some ip) argv =
      k.execInode layout p t stack path (some ip) argv) ∧
    ((ip.readi 0 0 52).bytes.length < 52 →
      k.execInode layout p t stack path (some ip) argv = .ok (-1, t, k))

/-! ## Reads that succeed -/

/-- A read that answers what it was asked for stored that much. -/
theorem Inode.whole {ip : Inode} {call off n : Nat} (small : n < 2 ^ 31)
    (same : asWord (ip.readi call off n).value = n) : (ip.readi call off n).bytes.length = n := by
  have nonneg : 0 ≤ (ip.readi call off n).value := by
    by_contra negative
    have large := asWord_negative (not_le.mp negative) (ip.negative call off n)
    omega
  have isLength := ip.counts call off n nonneg
  have bound := ip.fits call off n
  simp only [asWord] at same
  omega

/-- The segments do not depend on what the record of a program header held. -/
theorem Inode.loadSegments_fresh {layout : Layout} {ip : Inode} {pgdir : Nat} (count : Nat)
    {m : Vm} {call off sz : Nat} {old other : Bytes 32} :
    ip.loadSegments layout pgdir count m call old off sz =
      ip.loadSegments layout pgdir count m call other off sz := by
  cases count with
  | zero => rfl
  | succ count =>
    simp only [loadSegments]
    by_cases short : asWord (ip.readi call off 32).value ≠ 32
    · rw [if_pos short, if_pos short]
    · have whole := whole (by decide) (not_not.mp short)
      rw [lay_all old whole, lay_all other whole]

namespace Kernel

variable {layout : Layout} {k : Kernel} {p : Nat} {t : Thread} {stack other : Locals}
  {path : List UInt8} {ip : Inode} {argv : List (List UInt8)}

/-- Two calls that take the header to be the same do the same. -/
theorem execInode_fresh
    (same : lay other.elf (ip.readi 0 0 52).bytes = lay stack.elf (ip.readi 0 0 52).bytes) :
    k.execInode layout p t other path (some ip) argv =
      k.execInode layout p t stack path (some ip) argv := by
  have segments : ∀ pgdir count vm off, ip.loadSegments layout pgdir count vm 1 other.ph off 0 =
      ip.loadSegments layout pgdir count vm 1 stack.ph off 0 :=
    fun _ count _ _ => Inode.loadSegments_fresh count
  simp only [execInode, same, segments]

/-- A header without the magic number is refused. -/
theorem execInode_other (foreign : (lay stack.elf (ip.readi 0 0 52).bytes).u32 0 ≠ elfMagic) :
    k.execInode layout p t stack path (some ip) argv = .ok (-1, t, k) := by
  simp only [execInode, if_pos foreign]
  exact ite_self _

/-- Nor does the call depend on them if the answer settles the header. -/
theorem execInode_settled (settles : (ip.readi 0 0 52).Settles) : ip.Determines := by
  intro layout k p t path argv stack
  have bound := ip.fits 0 0 52
  rcases settles with nonneg | whole | foreign
  · have isLength := ip.counts 0 0 52 nonneg
    by_cases short : (ip.readi 0 0 52).bytes.length < 52
    · have refused : ∀ stack,
          k.execInode layout p t stack path (some ip) argv = .ok (-1, t, k) := by
        intro stack
        simp only [execInode]
        rw [if_pos]
        rw [isLength, asWord_count (by omega)]
        exact short
      exact ⟨fun other => (refused other).trans (refused stack).symm, fun _ => refused stack⟩
    · have whole : (ip.readi 0 0 52).bytes.length = 52 := by omega
      exact ⟨fun other => execInode_fresh (by rw [lay_all _ whole, lay_all _ whole]),
        fun less => absurd less short⟩
  · exact ⟨fun other => execInode_fresh (by rw [lay_all _ whole, lay_all _ whole]),
      fun less => absurd whole (Nat.ne_of_lt less)⟩
  · exact ⟨fun other => (execInode_other (foreign _)).trans (execInode_other (foreign _)).symm,
      fun _ => execInode_other (foreign _)⟩

/-! ## A read that fails -/

/-- Headers of segments that are not to be loaded. -/
theorem loadSegments_blank {pgdir : Nat} (count : Nat)
    (later : ∀ call off, ip.readi (call + 1) off 32 = ⟨32, List.replicate 32 0⟩) :
    ∀ {m : Vm} {call off sz : Nat} {old : Bytes 32},
    ip.loadSegments layout pgdir count m (call + 1) old off sz = .ok (some sz, m) := by
  induction count with
  | zero => exact rfl
  | succ count ih =>
    intro m call off sz old
    have blank : (segmentOf (record 32 (List.replicate 32 0))).type ≠ elfProgLoad := by decide
    simp only [Inode.loadSegments, later, lay_all old (List.length_replicate)]
    rw [if_neg (by decide), if_pos blank]
    exact ih

/-- A call that goes on with a header from its stack, for a program without segments. -/
theorem Sane.exec_stale {own : Places Holder} (sane : Sane layout k own)
    (stack : Locals) (used : k.Used p)
    (plenty : ∀ requests : List Request, requests.length ≤ 50000 →
      k.vm.foresee requests = none)
    (fails : (ip.readi 0 0 52).value < 0)
    (magic : (lay stack.elf (ip.readi 0 0 52).bytes).u32 0 = elfMagic)
    (empty : ∀ pgdir vm, ip.loadSegments layout pgdir
      ((lay stack.elf (ip.readi 0 0 52).bytes).u16 44) vm 1 stack.ph
      ((lay stack.elf (ip.readi 0 0 52).bytes).u32 28) 0 = .ok (some 0, vm)) :
    ∃ thread after, k.execInode layout p t stack path (some ip) [] = .ok (0, thread, after) := by
  have large := asWord_negative fails (ip.negative 0 0 52)
  obtain ⟨answer, vm, setting⟩ := setupkvm_ok sane.owned
  have granted : k.vm.foresee (setupRequests ++ stackRequests (some 0)) = none :=
    plenty _ (by decide)
  have asked := (setupkvm_asked sane.owned setting).1
  cases answer with
  | none => exact absurd rfl (asked.served (foresee_granted granted)).1
  | some pgdir =>
    obtain ⟨next, building, ready⟩ := sane.setup_ready setting
    obtain ⟨-, served⟩ := asked.served (foresee_granted granted)
    rw [served.foresee (foresee_granted granted)] at granted
    obtain ⟨result, built, stacking, builds⟩ :=
      buildStack_builds (k.proc p).pgdir ready (by simp [granted])
        (show argsFit _ _ [] = true from rfl)
    obtain ⟨newest, owned, -⟩ := builds.reached
    obtain ⟨freed, freeing⟩ := freevm_ok owned (Or.inl used.live)
    have isSome := builds.granted granted (by decide) (by decide) (by decide)
    obtain ⟨⟨sz, esp⟩, rfl⟩ := Option.isSome_iff_exists.mp isSome
    have passes : ¬ asWord (ip.readi 0 0 52).value < 52 := by omega
    simp only [execInode, if_neg passes, if_neg (not_not.mpr magic),
      setting, empty, stacking, freeing, bind, Except.bind]
    exact ⟨_, _, rfl⟩

/-- The first process, with nearly all memory free. -/
theorem booted_plenty : ∃ first own,
    main sampleLayout 2 (fun _ => Bytes.zero) [] (fun _ => false) = .ok first ∧
    Sane sampleLayout (first.enter fun _ => false) own ∧ (first.enter fun _ => false).Used 0 ∧
    ∀ requests : List Request, requests.length ≤ 50000 →
      (first.enter fun _ => false).vm.foresee requests = none := by
  obtain ⟨first, booted, -, state, -, -, many⟩ := main_ok sampleLayout 2 (fun _ => Bytes.zero) []
    (by decide) (by decide)
  obtain ⟨own, sane, -⟩ := main_spec booted
  refine ⟨first, own, booted, (sane.enter _).1, ⟨by decide, fun unused => ?_⟩,
    fun requests few => ?_⟩
  · cases state.symm.trans unused
  · exact forecast_none (few.trans many)

end Kernel

/-- The answer to the first read, and zeros for all others. -/
def Inode.continuing (first : Inode) : Nat → Nat → Nat → Answer
  | 0, off, n => first.readi 0 off n
  | _ + 1, _, n => ⟨n, List.replicate n 0⟩

theorem Inode.continuing_legal (first : Inode) (call off n : Nat) :
    (first.continuing call off n).bytes.length ≤ n ∧
      (0 ≤ (first.continuing call off n).value →
        (first.continuing call off n).value = (first.continuing call off n).bytes.length) ∧
      -(2 ^ 31) ≤ (first.continuing call off n).value := by
  cases call with
  | zero => exact ⟨first.fits 0 off n, first.counts 0 off n, first.negative 0 off n⟩
  | succ call =>
    refine ⟨List.length_replicate.le, fun _ => ?_, ?_⟩
    · simp only [continuing, List.length_replicate]
    · simp only [continuing]
      omega

/-- The inode that answers the first read in the same way and all others with zeros. -/
def Inode.continued (first : Inode) : Inode where
  readi := first.continuing
  fits := fun call off n => (first.continuing_legal call off n).1
  counts := fun call off n => (first.continuing_legal call off n).2.1
  negative := fun call off n => (first.continuing_legal call off n).2.2

/-- A process that has not run yet. -/
def freshThread : Thread := ⟨0, 0, Bytes.zero, 0⟩

/-- `exec` depends only on what it reads, for all inodes with the same answer to the read of
the header, exactly if that answer settles the header. -/
theorem exec_reads_header (first : Inode) :
    (∀ ip : Inode, ip.readi 0 0 52 = first.readi 0 0 52 → ip.Determines) ↔
      (first.readi 0 0 52).Settles := by
  constructor
  · intro determines
    by_contra unsettled
    simp only [Answer.Settles, not_or, not_le, not_forall, not_not] at unsettled
    obtain ⟨fails, part, old, magic⟩ := unsettled
    have short := Nat.lt_of_le_of_ne (first.fits 0 0 52) part
    obtain ⟨kernel, own, -, sane, used, plenty⟩ := Kernel.booted_plenty
    have same : first.continued.readi 0 0 52 = first.readi 0 0 52 := rfl
    rw [← same] at fails short magic
    have refused := (determines first.continued same Kernel.sampleLayout
      (kernel.enter fun _ => false) 0 freshThread [] [] ⟨old, Bytes.zero⟩).2 short
    obtain ⟨thread, after, ran⟩ := sane.exec_stale ⟨old, Bytes.zero⟩ used plenty fails magic
      fun pgdir vm => Kernel.loadSegments_blank _ (fun _ _ => rfl)
    cases ran.symm.trans refused
  · intro settles ip same
    apply Kernel.execInode_settled
    rw [same]
    exact settles

/-- A device without a driver. -/
def brokenDevice : Inode where
  readi := fun _ _ _ => ⟨-1, []⟩
  fits := fun _ _ _ => Nat.zero_le _
  counts := fun _ _ _ impossible => absurd impossible (by decide)
  negative := fun _ _ _ => by decide

/-- What is left on the kernel's stack after a call that read the header of a program. -/
def staleLocals : Locals := ⟨record 52 [0x7F, 0x45, 0x4C, 0x46], Bytes.zero⟩

/-- A device without a driver is run as the program whose header is on the kernel's stack. -/
theorem exec_stale_header : ∃ first thread after,
    Kernel.main Kernel.sampleLayout 2 (fun _ => Bytes.zero) [] (fun _ => false) = .ok first ∧
    (first.enter fun _ => false).execInode Kernel.sampleLayout 0 freshThread staleLocals []
      (some brokenDevice) [] = .ok (0, thread, after) ∧
    (first.enter fun _ => false).execInode Kernel.sampleLayout 0 freshThread
      ⟨Bytes.zero, Bytes.zero⟩ [] (some brokenDevice) [] =
        .ok (-1, freshThread, first.enter fun _ => false) := by
  obtain ⟨first, own, booted, sane, used, plenty⟩ := Kernel.booted_plenty
  have magic : (lay staleLocals.elf (brokenDevice.readi 0 0 52).bytes).u32 0 = elfMagic := by decide
  have none : (lay staleLocals.elf (brokenDevice.readi 0 0 52).bytes).u16 44 = 0 := by decide
  obtain ⟨thread, after, ran⟩ := sane.exec_stale staleLocals used plenty (by decide) magic
    fun pgdir vm => by rw [none]; rfl
  have foreign : (lay (Bytes.zero : Bytes 52) []).u32 0 ≠ elfMagic := by decide
  exact ⟨first, thread, after, booted, ran, Kernel.execInode_other foreign⟩

end Xv6
