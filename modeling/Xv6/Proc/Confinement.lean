import Xv6.Proc.Loading
import Xv6.Vm.Total

/-!
# Loading the segments

Loading the segments of a file comes to an end with all its stores in user pages of
the new directory exactly when the program headers are confined, as long as no page
table is denied unnoticed.

One lemma says what a round of the loop can do. That the directory stays in order, and
that loading only fails for want of memory or because of the file, follow from it by
induction on the number of headers, for a file that is confined; a tame file is.
-/

namespace Xv6

open Vm

variable {β : Type} {layout : Layout} {m later : Vm} {live : Nat → Prop}
  {held : β → Option Nat} {own : Places β}
  {between : Places β} {grown now : Vm} {vaddr : Nat} {result : Option Nat}

/-- A directory reached from an earlier state of memory. -/
def Reached (layout : Layout) (live : Nat → Prop) (held : β → Option Nat) (pgdir : Nat) (m : Vm)
    (own : Places β) (later : Vm) : Prop :=
  ∃ next, Owned layout later live held next ∧ Keeps pgdir m own later next

theorem Reached.trans {pgdir : Nat} {middle : Vm}
    (reached : Reached layout live held pgdir middle between later)
    (keeps : Keeps pgdir m own middle between) :
    Reached layout live held pgdir m own later := by
  obtain ⟨next, owned, keepsToo⟩ := reached
  exact ⟨next, owned, keeps.trans keepsToo⟩

theorem Filled.reached {pgdir : Nat} (filled : Filled layout live held pgdir m own later) :
    Reached layout live held pgdir m own later :=
  ⟨own, filled.owned, filled.keeps⟩

/-- The user tables that the directory lacks. -/
theorem Ready.lacks {pgdir size : Nat} (ready : Ready layout live held pgdir size m own) :
    Lacks m pgdir (lacking size) := by
  intro index inside
  have table := ready.tables index (by omega)
  rwa [untabled, if_pos inside] at table

/-- Growing the directory for a segment: it fails, or the directory is ready for the
segment. -/
theorem Ready.grow {pgdir sz top size : Nat} (ready : Ready layout live held pgdir sz m own)
    (loud : m.foresee (allocRequests (lacking sz) sz top) ≠ some .silent)
    (growing : m.allocuvm layout pgdir sz top = .ok (size, grown)) :
    ∃ next, Owned layout grown live held next ∧ Keeps pgdir m own grown next ∧
      Accounted layout m own grown next ∧
      (size = 0 ∧ (grownSize sz top = 0 ∨
          m.foresee (allocRequests (lacking sz) sz top) ≠ none) ∨
        size ≠ 0 ∧ size = grownSize sz top ∧
          m.foresee (allocRequests (lacking sz) sz top) = none ∧
          Served (allocRequests (lacking sz) sz top).length m grown ∧
          Ready layout live held pgdir size grown next) := by
  obtain ⟨next, owned, keeps, account, sizes, whole⟩ :=
    allocuvm_spec ready.owned ready.alive growing
  have asked := allocuvm_asked ready.owned ready.alive ready.lacks growing
  obtain ⟨torn, ended⟩ := asked.outcome loud
  refine ⟨next, owned, keeps, account, ?_⟩
  by_cases zero : size = 0
  · refine .inl ⟨zero, ?_⟩
    rw [or_iff_not_imp_right, not_not]
    intro through
    obtain ⟨⟨same, -⟩, -⟩ := asked.served through
    exact same ▸ zero
  · obtain ⟨through, ⟨isSize, filling⟩, served⟩ := ended.resolve_right zero
    obtain ⟨limit, isMax⟩ : top < kernbase ∧ size = max sz top := by
      unfold grownSize at isSize
      split at isSize <;> omega
    have small : size < kernbase := isMax ▸ max_lt ready.top limit
    refine .inr ⟨zero, isSize, through, served, owned, ready.alive, small,
      (whole torn ready.complete).1 zero, fun index inside => ?_⟩
    unfold untabled
    split
    · rename_i user
      rw [isMax]
      exact ready.lacks.grow (filling limit) index user
    · rename_i kernel
      have table := ready.tables index inside
      rw [untabled, if_neg kernel] at table
      rw [table, filling limit index inside]
      refine (and_iff_left ?_).symm
      rintro ⟨page, low, high, rfl⟩
      rw [kernbase_eq] at limit
      omega

/-- A segment in a directory that has grown for it. -/
theorem Ready.segment {pgdir size : Nat} (ready : Ready layout live held pgdir size m own)
    (aligned : vaddr % pgsize = 0) (ip : Image) (offset filesz : Nat) :
    Loads layout live held pgdir own (m.loaduvm layout pgdir vaddr ip offset filesz)
      (segmentConfined ip vaddr offset filesz size 0) m := by
  rw [loaduvm, if_neg (not_not.mpr aligned)]
  exact loadLoop_confined aligned (Nat.zero_mod _) ready

/-! ## One header -/

/-- The loop goes on with the next header, in a directory that is ready. -/
structure Continues (layout : Layout) (live : Nat → Prop) (held : β → Option Nat)
    (pgdir : Nat) (ip : Image) (count off sz : Nat) (m : Vm) (own : Places β)
    (size : Nat) (now : Vm) (between : Places β) (result : Option Nat)
    (later : Vm) : Prop where
  ready : Ready layout live held pgdir size now between
  keeps : Keeps pgdir m own now between
  account : Accounted layout m own now between
  ran : (loadSegments layout ip pgdir count now ((off + 32) % 2 ^ 32) size).result =
    .ok (result, later)
  confined : segmentsConfined m.refuse ip (count + 1) off sz m.tick m.free =
    segmentsConfined now.refuse ip count ((off + 32) % 2 ^ 32) size now.tick now.free
  requests : m.foresee (segmentRequests ip (count + 1) off sz).1 =
    now.foresee (segmentRequests ip count ((off + 32) % 2 ^ 32) size).1
  sizes : (segmentRequests ip (count + 1) off sz).2 =
    (segmentRequests ip count ((off + 32) % 2 ^ 32) size).2
  asked : ∀ {ok bad : Prop},
    Asked (segmentRequests ip count ((off + 32) % 2 ^ 32) size).1 now ok bad later →
    Asked (segmentRequests ip (count + 1) off sz).1 m ok bad later

/-- Loading gave up. -/
structure GivesUp (layout : Layout) (live : Nat → Prop) (held : β → Option Nat)
    (pgdir : Nat) (ip : Image) (count off sz : Nat) (m : Vm) (own : Places β)
    (later : Vm) : Prop where
  stage : ∃ next, Owned layout later live held next ∧ Keeps pgdir m own later next ∧
    Accounted layout m own later next
  asked : Asked (segmentRequests ip count off sz).1 m
    (none = (segmentRequests ip count off sz).2) True later
  confined : segmentsConfined m.refuse ip count off sz m.tick m.free = true

/-- The requests for a segment fail silently only if those of the whole file do. -/
theorem segment_loud {count off sz top : Nat} {ip : Image} {ph : Proghdr}
    {requests : List Request} (header : ip.header off = .load ph)
    (isTop : top = (ph.vaddr + ph.memsz) % 2 ^ 32)
    (isRequests : requests = allocRequests (lacking sz) sz top)
    (loud : m.foresee (segmentRequests ip (count + 1) off sz).1 ≠ some .silent) :
    m.foresee requests ≠ some .silent := by
  rw [segmentRequests_load header isTop, ← isRequests] at loud
  split at loud
  · exact loud
  · exact foresee_first loud

/-- What a round of the loop does, if the segment it loads is confined: it gives up for want
of memory or because of the file, it passes over the header, or it loads the segment. -/
theorem loadSegments_round {pgdir count off sz : Nat} {ip : Image}
    (ready : Ready layout live held pgdir sz m own)
    (loud : m.foresee (segmentRequests ip (count + 1) off sz).1 ≠ some .silent)
    (fits : ∀ ph size, ip.header off = .load ph →
      size = grownSize sz ((ph.vaddr + ph.memsz) % 2 ^ 32) → size ≠ 0 →
      m.foresee (allocRequests (lacking sz) sz ((ph.vaddr + ph.memsz) % 2 ^ 32)) = none →
      segmentConfined ip ph.vaddr ph.off ph.filesz size 0 = true)
    (ran : (loadSegments layout ip pgdir (count + 1) m off sz).result = .ok (result, later)) :
    (result = none ∧ GivesUp layout live held pgdir ip (count + 1) off sz m own later) ∨
      (ip.header off = .skip ∧
        Continues layout live held pgdir ip count off sz m own sz m own result later) ∨
      ∃ ph size between stored, ip.header off = .load ph ∧
        size = grownSize sz ((ph.vaddr + ph.memsz) % 2 ^ 32) ∧ size ≠ 0 ∧
        Continues layout live held pgdir ip count off sz m own size stored between result
          later := by
  have still : Accounted layout m own m own := Accounted.of_quiet rfl fun _ => id
  rw [loadSegments_header] at ran
  cases header : ip.header off with
  | bad =>
    rw [header] at ran
    cases ran
    refine Or.inl ⟨rfl, ⟨own, ready.owned, Keeps.refl _ _ _, still⟩, ?_, ?_⟩
    · rw [segmentRequests, header]
      exact Asked.nil (Served.refl _) rfl
    · rw [segmentsConfined, header]
  | skip =>
    rw [header] at ran
    have asks : segmentRequests ip (count + 1) off sz =
        segmentRequests ip count ((off + 32) % 2 ^ 32) sz := by
      rw [segmentRequests, header]
    refine Or.inr (Or.inl ⟨rfl, ready, Keeps.refl _ _ _, still, ran, ?_, by rw [asks],
      by rw [asks], fun asked => by rw [asks]; exact asked⟩)
    rw [segmentsConfined, header]
  | load ph =>
    rw [header] at ran
    obtain ⟨top, isTop⟩ : ∃ top, top = (ph.vaddr + ph.memsz) % 2 ^ 32 := ⟨_, rfl⟩
    obtain ⟨requests, isRequests⟩ : ∃ requests, requests = allocRequests (lacking sz) sz top :=
      ⟨_, rfl⟩
    have confined := fun size => fits ph size header
    have asks := @segmentRequests_load ip off count sz ph top header isTop
    have condition := @segmentsConfined_load m.refuse ip ph count off sz m.tick m.free top requests
      header isTop isRequests
    have first := segment_loud header isTop isRequests loud
    rw [← isRequests] at asks
    rw [← isTop, ← isRequests] at confined
    dsimp only at ran
    rw [← isTop, Traced.result_andThen] at ran
    obtain ⟨⟨size, grown⟩, growing, ran⟩ := Except.of_bind_ok ran
    have asked := allocuvm_asked ready.owned ready.alive ready.lacks growing
    rw [← isRequests] at asked
    obtain ⟨between, owned, keeps, account,
        ⟨zero, why⟩ | ⟨nonzero, isSize, through, served, fresh⟩⟩ :=
      ready.grow (isRequests ▸ first) growing
    · -- The directory could not grow.
      dsimp only at ran
      rw [if_pos zero] at ran
      cases ran
      rw [← isRequests] at why
      refine Or.inl ⟨rfl, ⟨between, owned, keeps, account⟩, ?_, condition.trans (if_pos why)⟩
      rw [asks]
      split
      · exact asked.quietly (Served.refl _) (fun _ => rfl) fun _ => trivial
      · rename_i continues
        exact asked.append (fun success => absurd (success.1.symm.trans zero)
          fun none => continues (Or.inl none)) fun _ => ⟨trivial, rfl, rfl⟩
    · rw [← isRequests] at through served
      have continues : ¬ (grownSize sz top = 0 ∨ m.foresee requests ≠ none) := by
        rw [← isSize, through]
        simp [nonzero]
      replace condition := condition.trans (if_neg continues)
      rw [← isSize] at asks condition
      dsimp only at ran
      rw [if_neg nonzero, Traced.result_andThen] at ran
      obtain ⟨⟨loaded, stored⟩, loading, ran⟩ := Except.of_bind_ok ran
      obtain ⟨aligned, quietly, isLoaded⟩ := loaduvm_served loading
      have whole := confined size isSize nonzero through
      have filled := (fresh.segment aligned ip ph.off ph.filesz).filled whole loaded stored loading
      have keepsToo := keeps.trans filled.keeps
      have accountToo := account.trans (Accounted.of_quiet filled.denied fun _ => id) keeps.denied
        filled.keeps
      rw [decide_eq_true aligned, whole, Bool.true_and, ← isLoaded] at condition
      dsimp only at ran
      cases loaded with
      | false =>
        cases ran
        refine Or.inl ⟨rfl, ⟨between, filled.owned, keepsToo, accountToo⟩, ?_, condition⟩
        rw [asks, if_pos (Or.inr isLoaded.symm)]
        exact asked.quietly quietly (fun _ => rfl) fun _ => trivial
      | true =>
        rw [if_neg (by simp [nonzero, ← isLoaded])] at asks
        have reached := served.trans quietly
        refine Or.inr (Or.inr ⟨ph, size, between, stored, rfl, isTop ▸ isSize, nonzero,
          fresh.filled filled, keepsToo, accountToo, ran, ?_, ?_, by rw [asks], fun rest => ?_⟩)
        · rw [condition, reached.refuse, reached.tick, reached.free]
          rfl
        · rw [asks]
          exact reached.foresee through _
        · rw [asks]
          exact (asked.quietly quietly (fun _ => trivial) id).append (fun _ => rest)
            fun failed => absurd failed nonzero

/-- The next round fails silently only if the whole does. -/
theorem Continues.loud {pgdir count off sz size : Nat} {ip : Image}
    (continues : Continues layout live held pgdir ip count off sz m own size now between result
      later)
    (loud : m.foresee (segmentRequests ip (count + 1) off sz).1 ≠ some .silent) :
    now.foresee (segmentRequests ip count ((off + 32) % 2 ^ 32) size).1 ≠ some .silent := by
  rw [← continues.requests]
  exact loud

/-- The segment of a header that is confined. -/
theorem segment_confined {count off sz size : Nat} {ip : Image} {ph : Proghdr}
    (confined : segmentsConfined m.refuse ip (count + 1) off sz m.tick m.free = true)
    (header : ip.header off = .load ph)
    (isSize : size = grownSize sz ((ph.vaddr + ph.memsz) % 2 ^ 32)) (nonzero : size ≠ 0)
    (through : m.foresee (allocRequests (lacking sz) sz ((ph.vaddr + ph.memsz) % 2 ^ 32)) = none) :
    segmentConfined ip ph.vaddr ph.off ph.filesz size 0 = true := by
  rw [segmentsConfined_load header rfl rfl, ← isSize] at confined
  have both := (if_neg (not_or.mpr ⟨nonzero, not_not.mpr through⟩)).symm.trans confined
  simp only [Bool.and_eq_true] at both
  exact both.1.2

/-! ## All headers -/

/-- What loading the segments of a file leaves. -/
structure SegmentsDone (layout : Layout) (live : Nat → Prop) (held : β → Option Nat)
    (pgdir : Nat) (ip : Image) (count off sz : Nat) (m : Vm) (own : Places β)
    (result : Option Nat) (later : Vm) : Prop where
  stage : ∃ next, Owned layout later live held next ∧ Keeps pgdir m own later next ∧
    Accounted layout m own later next ∧
    ∀ size, result = some size → Ready layout live held pgdir size later next
  asked : Asked (segmentRequests ip count off sz).1 m
    (result = (segmentRequests ip count off sz).2) (result = none) later

theorem Continues.done {pgdir count off sz size : Nat} {ip : Image}
    (continues : Continues layout live held pgdir ip count off sz m own size now between result
      later)
    (rest : SegmentsDone layout live held pgdir ip count ((off + 32) % 2 ^ 32) size now between
      result later) :
    SegmentsDone layout live held pgdir ip (count + 1) off sz m own result later := by
  obtain ⟨next, owned, keeps, account, ready⟩ := rest.stage
  refine ⟨⟨next, owned, continues.keeps.trans keeps, ?_, ready⟩, ?_⟩
  · exact continues.account.trans account continues.keeps.denied keeps
  · rw [continues.sizes]
    exact continues.asked rest.asked

/-- Loading the segments of a file that is confined. -/
theorem loadSegments_done {pgdir : Nat} {ip : Image} (count : Nat) :
    ∀ {m : Vm} {own : Places β} {off sz : Nat},
      Ready layout live held pgdir sz m own →
      m.foresee (segmentRequests ip count off sz).1 ≠ some .silent →
      segmentsConfined m.refuse ip count off sz m.tick m.free = true →
      (loadSegments layout ip pgdir count m off sz).result = .ok (result, later) →
      SegmentsDone layout live held pgdir ip count off sz m own result later := by
  induction count with
  | zero =>
    intro m own off sz ready _ _ ran
    cases ran
    refine ⟨⟨own, ready.owned, Keeps.refl _ _ _, Accounted.of_quiet rfl fun _ => id, ?_⟩,
      Asked.nil (Served.refl _) rfl⟩
    rintro size ⟨⟩
    exact ready
  | succ count ih =>
    intro m own off sz ready loud confined ran
    rcases loadSegments_round ready loud (fun _ _ => segment_confined confined) ran with
      ⟨rfl, fails⟩ | ⟨-, continues⟩ | ⟨ph, now, between, stored, -, -, -, continues⟩
    · obtain ⟨next, owned, keeps, account⟩ := fails.stage
      exact ⟨⟨next, owned, keeps, account, by rintro _ ⟨⟩⟩,
        fails.asked.quietly (Served.refl _) id fun _ => rfl⟩
    · exact continues.done (ih continues.ready (continues.loud loud)
        (continues.confined ▸ confined) continues.ran)
    · exact continues.done (ih continues.ready (continues.loud loud)
        (continues.confined ▸ confined) continues.ran)

/-- A segment below the size is confined. -/
theorem segmentConfined_within {ip : Image} {offset filesz size i : Nat}
    (within : vaddr + filesz ≤ size) (top : size ≤ kernbase) :
    segmentConfined ip vaddr offset filesz size i = true := by
  rw [kernbase_eq] at top
  fun_induction segmentConfined ip vaddr offset filesz size i with
  | case1 i inside a n =>
    have below : a < size := by
      rw [show a = (vaddr + i) % 2 ^ 32 from rfl]
      omega
    simp [below]
  | case2 i inside a n bytes reading ih =>
    have below : a < size := by
      rw [show a = (vaddr + i) % 2 ^ 32 from rfl]
      omega
    simp [below, ih]
  | case3 => rfl

/-- A segment of a tame file that memory was allocated for, and the segments after it. -/
theorem segment_tame {argv : List (List UInt8)} {ph : Proghdr} {ip : Image}
    {count off sz size : Nat} (tame : segmentsTame ip argv (count + 1) off sz = true)
    (header : ip.header off = .load ph) (low : sz < kernbase)
    (isSize : size = grownSize sz ((ph.vaddr + ph.memsz) % 2 ^ 32)) (nonzero : size ≠ 0) :
    segmentConfined ip ph.vaddr ph.off ph.filesz size 0 = true ∧
      segmentsTame ip argv count ((off + 32) % 2 ^ 32) size = true := by
  have fits := Image.header_load header
  rw [segmentsTame, header] at tame
  dsimp only at tame
  rw [← isSize, decide_eq_false nonzero, Bool.false_or, Bool.and_eq_true] at tame
  obtain ⟨range, rest⟩ := tame
  refine ⟨?_, rest⟩
  simp only [Bool.or_eq_true, decide_eq_true_eq] at range
  rcases range with empty | small
  · rw [empty, segmentConfined, if_neg (lt_irrefl 0)]
  · rw [Nat.mod_eq_of_lt small] at isSize
    unfold grownSize at isSize
    split at isSize
    · exact absurd isSize nonzero
    · exact segmentConfined_within (by omega) (by omega)

/-- A tame file is confined, and the arguments fit on the stack of its program. -/
theorem loadSegments_tame {pgdir : Nat} {ip : Image} {argv : List (List UInt8)} (count : Nat) :
    ∀ {m : Vm} {own : Places β} {off sz : Nat},
      Ready layout live held pgdir sz m own →
      m.foresee (segmentRequests ip count off sz).1 ≠ some .silent →
      segmentsTame ip argv count off sz = true →
      (loadSegments layout ip pgdir count m off sz).result = .ok (result, later) →
      segmentsConfined m.refuse ip count off sz m.tick m.free = true ∧
        ∀ size, result = some size →
          argsFit (pgroundup size + pgsize) (pgroundup size + 2 * pgsize) argv = true := by
  induction count with
  | zero =>
    intro m own off sz _ _ tame ran
    cases ran
    refine ⟨rfl, ?_⟩
    rintro size ⟨⟩
    exact tame
  | succ count ih =>
    intro m own off sz ready loud tame ran
    have fits := fun ph size header isSize nonzero
      (_ : m.foresee (allocRequests (lacking sz) sz ((ph.vaddr + ph.memsz) % 2 ^ 32)) = none) =>
      (@segment_tame argv ph ip count off sz size tame header ready.top isSize nonzero).1
    rcases loadSegments_round ready loud fits ran with ⟨rfl, fails⟩ | ⟨header, continues⟩ |
      ⟨ph, now, between, stored, header, isSize, nonzero, continues⟩
    · exact ⟨fails.confined, by rintro _ ⟨⟩⟩
    · rw [segmentsTame, header] at tame
      rw [continues.confined]
      exact ih continues.ready (continues.loud loud) tame continues.ran
    · rw [continues.confined]
      exact ih continues.ready (continues.loud loud)
        (segment_tame tame header ready.top isSize nonzero).2 continues.ran

/-! ## The stores -/

/-- Where loading the segments of a file stores, and whether it comes to an end. -/
structure SegmentsStore (layout : Layout) (live : Nat → Prop) (held : β → Option Nat) (pgdir : Nat)
    (load : Traced LoadWrite String (Option Nat × Vm)) (confined : Bool) (m : Vm)
    (own : Places β) : Prop where
  exact_when : load.Only LoadWrite.InUser ↔ confined = true
  during : confined = true → ∀ write ∈ load.events,
    write.pgdir = pgdir ∧ Reached layout live held pgdir m own write.vm

namespace SegmentsStore

variable {pgdir : Nat} {confined : Bool} {stored : Vm} {writes : List LoadWrite}
  {load : Traced LoadWrite String (Option Nat × Vm)}

/-- Loading that ends before it stores anything more. -/
theorem stop (value : Option Nat × Vm) :
    SegmentsStore layout live held pgdir (.done value) true m own where
  exact_when := iff_of_true (Traced.only_done _) rfl
  during := by simp

/-- Loading that does not come to an end, or stores elsewhere. -/
theorem never (fails : ¬ load.Only LoadWrite.InUser) :
    SegmentsStore layout live held pgdir load false m own where
  exact_when := iff_of_false fails (by simp)
  during := by simp

/-- The stores of a segment, and what comes after them. -/
theorem more (keeps : Keeps pgdir m own grown between)
    (filled : Filled layout live held pgdir grown between stored)
    (good : ∀ write ∈ writes, write.InUser) (now : ∀ write ∈ writes,
      Filled layout live held pgdir grown between write.vm ∧ write.pgdir = pgdir)
    (rest : SegmentsStore layout live held pgdir load confined stored between) :
    SegmentsStore layout live held pgdir (.after writes load) confined m own where
  exact_when := (Traced.only_after good).trans rest.exact_when
  during := by
    intro holds write member
    rcases List.mem_append.mp member with here | later
    · exact ⟨(now write here).2, (now write here).1.reached.trans keeps⟩
    · obtain ⟨directory, reached⟩ := rest.during holds write later
      exact ⟨directory, reached.trans (keeps.trans filled.keeps)⟩

end SegmentsStore

/-- The stores of the segments, header by header. -/
theorem loadSegments_stores {pgdir : Nat} {ip : Image} (count : Nat) :
    ∀ {m : Vm} {own : Places β} {off sz : Nat},
      Ready layout live held pgdir sz m own →
      m.foresee (segmentRequests ip count off sz).1 ≠ some .silent →
      SegmentsStore layout live held pgdir (loadSegments layout ip pgdir count m off sz)
        (segmentsConfined m.refuse ip count off sz m.tick m.free) m own := by
  induction count with
  | zero =>
    intro m own off sz ready _
    exact SegmentsStore.stop _
  | succ count ih =>
    intro m own off sz ready loud
    rw [loadSegments_header]
    cases header : ip.header off with
    | bad =>
      rw [segmentsConfined, header]
      exact SegmentsStore.stop _
    | skip =>
      rw [segmentRequests, header] at loud
      rw [segmentsConfined, header]
      exact ih ready loud
    | load ph =>
      obtain ⟨top, isTop⟩ : ∃ top, top = (ph.vaddr + ph.memsz) % 2 ^ 32 := ⟨_, rfl⟩
      obtain ⟨requests, isRequests⟩ : ∃ requests, requests = allocRequests (lacking sz) sz top :=
        ⟨_, rfl⟩
      have first := segment_loud header isTop isRequests loud
      rw [segmentRequests_load header isTop, ← isRequests] at loud
      rw [segmentsConfined_load header isTop isRequests,
        show forecast m.refuse requests m.tick m.free = m.foresee requests from rfl]
      dsimp only
      rw [← isTop]
      obtain ⟨size, grown, growing⟩ := allocuvm_ok ready.owned ready.alive ready.complete top
      rw [Traced.lift_andThen growing]
      dsimp only
      obtain ⟨between, -, keeps, -, ⟨zero, why⟩ | ⟨nonzero, isSize, through, served, fresh⟩⟩ :=
        ready.grow (isRequests ▸ first) growing
      · rw [← isRequests] at why
        rw [if_pos zero, if_pos why]
        exact SegmentsStore.stop _
      · rw [← isRequests] at through served
        rw [← isSize] at loud ⊢
        rw [if_neg nonzero, if_neg (not_or.mpr ⟨nonzero, not_not.mpr through⟩)]
        by_cases aligned : ph.vaddr % pgsize = 0
        · have loads := fresh.segment aligned ip ph.off ph.filesz
          rw [decide_eq_true aligned, Bool.true_and]
          cases confined : segmentConfined ip ph.vaddr ph.off ph.filesz size 0 with
          | false =>
            rw [confined] at loads
            exact SegmentsStore.never fun only =>
              absurd (loads.exact_when.mp only.of_andThen) (by simp)
          | true =>
            rw [confined] at loads
            obtain ⟨⟨⟨loaded, stored⟩, finished⟩, good⟩ := loads.exact_when.mpr rfl
            have filled := loads.filled rfl loaded stored finished
            obtain ⟨-, quiet, isLoaded⟩ := loaduvm_served finished
            rw [Traced.andThen_of_ok finished, ← isLoaded, Bool.true_and]
            refine SegmentsStore.more keeps filled good (loads.during rfl) ?_
            cases loaded with
            | false => exact SegmentsStore.stop _
            | true =>
              have reached := served.trans quiet
              rw [if_neg (by simp [nonzero, ← isLoaded]), reached.foresee through] at loud
              have rest := ih (fresh.filled filled) loud
              rw [reached.refuse, reached.tick, reached.free] at rest
              exact rest
        · rw [decide_eq_false aligned]
          refine SegmentsStore.never fun only => ?_
          obtain ⟨⟨loaded, stored⟩, finished⟩ := only.of_andThen.1
          exact aligned (loaduvm_served finished).1

/-- What loading the segments of a file does. -/
structure SegmentsLoad (layout : Layout) (live : Nat → Prop) (held : β → Option Nat) (pgdir : Nat)
    (load : Traced LoadWrite String (Option Nat × Vm)) (requests : List Request × Option Nat)
    (confined : Bool) (m : Vm) (own : Places β) : Prop where
  stores : SegmentsStore layout live held pgdir load confined m own
  after : confined = true → ∀ result later, load.result = .ok (result, later) →
    Reached layout live held pgdir m own later ∧
      ∀ size, result = some size → requests.2 = some size ∧
        Served requests.1.length m later ∧ m.foresee requests.1 = none ∧
        ∃ next, Ready layout live held pgdir size later next ∧ Keeps pgdir m own later next

/-- Loading the segments of any file into a directory that is ready. -/
theorem loadSegments_confined {pgdir off sz : Nat} {ip : Image} (count : Nat)
    (ready : Ready layout live held pgdir sz m own)
    (loud : m.foresee (segmentRequests ip count off sz).1 ≠ some .silent) :
    SegmentsLoad layout live held pgdir (loadSegments layout ip pgdir count m off sz)
      (segmentRequests ip count off sz) (segmentsConfined m.refuse ip count off sz m.tick m.free)
      m own := by
  refine ⟨loadSegments_stores count ready loud, fun confined result later ran => ?_⟩
  obtain ⟨⟨next, owned, keeps, -, readyToo⟩, asked⟩ :=
    loadSegments_done count ready loud confined ran
  refine ⟨⟨next, owned, keeps⟩, fun size isSize => ?_⟩
  rw [isSize] at asked
  obtain ⟨through, same, served⟩ := (asked.outcome loud).2.resolve_right (by rintro ⟨⟩)
  exact ⟨same.symm, served, through, next, readyToo size isSize, keeps⟩

/-! ## The stack -/

/-- Where an argument string goes, when it fits. -/
theorem arg_place {sz sp : Nat} {arg : List UInt8} (top : sz ≤ kernbase) (below : sp ≤ sz)
    (fits : arg.length < sp) :
    (sp + 2 ^ 32 - (arg.length + 1)) % 2 ^ 32 / 4 * 4 = (sp - (arg.length + 1)) / 4 * 4 := by
  rw [kernbase_eq] at top
  omega

/-- `clearpteu` on a mapped page does not panic. -/
theorem clearpteu_ok {pgdir vpn pte : Nat} (inside : vpn < 1048576)
    (stored : m.entry pgdir vpn = some pte) :
    ∃ later, m.clearpteu pgdir (vpn * pgsize) = .ok later := by
  obtain ⟨pgtab, index, walked, -⟩ := walk_mapped inside stored
  rw [clearpteu, walked]
  exact ⟨_, rfl⟩

end Xv6
