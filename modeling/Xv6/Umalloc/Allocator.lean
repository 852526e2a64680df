import Xv6.Umalloc.FreeList

/-!
# The allocator keeps its blocks apart

The free blocks and the live ones do not overlap, have their sizes in their headers, and
together are all that `sbrk` gave. `malloc` and `free` keep this, and their loops end.
-/

namespace Xv6.Umalloc

open Function List Option

namespace Heap

variable {h : Heap} {blocks : List Span}

/-- The blocks of a heap, of which some units are in neither list. -/
structure Sound (h : Heap) (blocks : List Span) (missing : Nat) : Prop where
  list : FreeList h.mem h.base blocks
  place : ∃ s ∈ (⟨h.base, 0⟩ : Span) :: blocks, h.freep = some s.addr
  low : h.base < h.start
  grown : h.start ≤ h.brk
  inside : ∀ s ∈ blocks ++ h.live, h.start ≤ s.addr ∧ s.stop ≤ h.brk
  used : ∀ l ∈ h.live, 0 < l.size ∧ (h.mem l.addr).size = l.size
  apart : h.live.Pairwise Span.Apart
  separate : ∀ b ∈ blocks, ∀ l ∈ h.live, b.Apart l
  total : Span.total blocks + Span.total h.live + missing = h.brk - h.start

namespace Sound

variable {missing : Nat}

theorem length_lt (sound : Sound h blocks missing) : blocks.length + 1 < h.rounds := by
  have length := Span.length_le_total sound.list.some
  have total := sound.total
  rw [rounds]
  omega

/-- The header of a live block is not that of a node of the list. -/
theorem live_ne (sound : Sound h blocks missing) {l : Span} (isLive : l ∈ h.live) :
    ∀ s ∈ (⟨h.base, 0⟩ : Span) :: blocks, s.addr ≠ l.addr := by
  have low := sound.low
  have place := sound.inside l (mem_append_right _ isLive)
  have size := (sound.used l isLive).1
  refine forall_mem_cons.mpr ⟨?_, fun s isBlock => ?_⟩
  · simp only
    omega
  · have some := sound.list.some s isBlock
    have away := sound.separate s isBlock l isLive
    simp only [Span.Apart, Span.stop] at away
    omega

end Sound

/-! ## free -/

/-- The record of live blocks does not matter to `free`. -/
theorem free_record (h : Heap) (live : List Span) (bp : Nat) :
    { h with live }.free bp = (h.free bp).map fun after => { after with live } := by
  cases isFreep : h.freep with
  | none => simp only [free, isFreep, map_none]
  | some f =>
    simp only [free, isFreep, Option.map_map]
    rfl

/-- What `free` gives back is in the list. -/
theorem Sound.free (new : Span) (sound : Sound h blocks new.size) (some : 0 < new.size)
    (header : (h.mem new.addr).size = new.size) (start : h.start ≤ new.addr)
    (stop : new.stop ≤ h.brk) (awayFree : ∀ b ∈ blocks, b.Apart new)
    (awayLive : ∀ l ∈ h.live, new.Apart l) :
    ∃ mem p now, h.free new.addr = Option.some { h with mem, freep := Option.some p } ∧
      Sound { h with mem, freep := Option.some p } now 0 ∧ now.length ≤ blocks.length + 1 ∧
      ∃ b ∈ now, new.size ≤ b.size := by
  have low := sound.low
  have behindBase : h.base < new.addr := by omega
  have otherAddr : ∀ b ∈ blocks, b.addr ≠ new.addr := by
    intro b isBlock
    have someBlock := sound.list.some b isBlock
    have away := awayFree b isBlock
    simp only [Span.Apart, Span.stop] at away
    omega
  have away : ∀ s ∈ (⟨h.base, 0⟩ : Span) :: blocks, s.Apart new :=
    forall_mem_cons.mpr ⟨Or.inl (Nat.le_of_lt behindBase), awayFree⟩
  obtain ⟨before, p, after, split, behind, beyond⟩ :=
    split_at sound.list.spaced behindBase otherAddr
  obtain ⟨now, inserted⟩ := sound.list.insert split header some behindBase behind beyond away
  obtain ⟨s, isNode, isFreep⟩ := sound.place
  have found := sound.list.findPlace_eq split behindBase behind beyond isNode sound.length_lt
  have isPlace : p ∈ (⟨h.base, 0⟩ : Span) :: blocks := by
    rw [split]
    simp
  have inside : ∀ b ∈ now ++ h.live, h.start ≤ b.addr ∧ b.stop ≤ h.brk := by
    intro b isBlock
    rcases mem_append.mp isBlock with isFree | isLive
    · refine inserted.forall_blocks sound.list behindBase (fun s => h.start ≤ s.addr ∧ s.stop ≤ h.brk)
        (fun c isOld => sound.inside c (mem_append_left _ isOld)) ⟨start, stop⟩ ?_ b isFree
      rintro c d ⟨low, -⟩ ⟨-, high⟩ touches
      refine ⟨low, ?_⟩
      simp only [Span.stop] at *
      omega
    · exact sound.inside b (mem_append_right _ isLive)
  have separate : ∀ b ∈ now, ∀ l ∈ h.live, b.Apart l := by
    intro b isBlock l isLive
    exact inserted.forall_blocks sound.list behindBase (fun s => s.Apart l)
      (fun c isOld => sound.separate c isOld l isLive) (awayLive l isLive)
      (fun c d first second => Span.Apart.join (sound.used l isLive).1 first second) b isBlock
  have used : ∀ l ∈ h.live, 0 < l.size ∧
      (attach (attach h.mem new.addr (h.mem p.addr).ptr) p.addr new.addr l.addr).size = l.size := by
    intro l isLive
    have size := sound.used l isLive
    have apartNew := awayLive l isLive
    have notNew : l.addr ≠ new.addr := by
      simp only [Span.Apart, Span.stop] at apartNew
      omega
    refine ⟨size.1, ?_⟩
    rw [inserted.frame l.addr notNew (sound.live_ne isLive p isPlace).symm]
    exact size.2
  have total : Span.total now + Span.total h.live + 0 = h.brk - h.start := by
    rw [inserted.total, ← sound.total]
    omega
  obtain ⟨t, isNow, same⟩ := inserted.place
  refine ⟨attach (attach h.mem new.addr (h.mem p.addr).ptr) p.addr new.addr, p.addr, now, ?_,
    ⟨inserted.list, ⟨t, isNow, by rw [same]⟩, low, sound.grown, inside, used, sound.apart, separate,
      total⟩, inserted.length, inserted.large⟩
  rw [Heap.free, isFreep]
  simp only [found, map_some]

/-! ## malloc -/

/-- The loop of `malloc` takes the first block of a walk that is large enough, or asks for
more at its end. -/
theorem search_walk (n : Nat) (ask : Heap → Option (Heap × Option Nat)) {path : List Nat}
    {f : Nat} (isFreep : h.freep = some f) (once : f ∉ path) :
    ∀ {rounds prevp : Nat}, Walk h.mem prevp (path ++ [f]) → path.length < rounds →
      (∃ prev ∈ prevp :: path, ∃ q ∈ path ++ [f], (h.mem prev).ptr = q ∧ n ≤ (h.mem q).size ∧
        search ask n rounds h prevp (h.mem prevp).ptr = some (h.carve prev q n)) ∨
      ((∀ q ∈ path ++ [f], (h.mem q).size < n) ∧
        (∀ after, ask h = some (after, none) →
          search ask n rounds h prevp (h.mem prevp).ptr = some (after, none)) ∧
        ∀ after p, ask h = some (after, some p) →
          search ask n rounds h prevp (h.mem prevp).ptr =
            search ask n (rounds - path.length - 1) after p (after.mem p).ptr) := by
  induction path with
  | nil =>
    intro rounds prevp walk enough
    obtain ⟨rounds, rfl⟩ := Nat.exists_eq_succ_of_ne_zero (Nat.ne_zero_of_lt enough)
    have isNext : (h.mem prevp).ptr = f := walk.1
    by_cases large : n ≤ (h.mem f).size
    · refine Or.inl ⟨prevp, mem_cons_self, f, by simp, isNext, large, ?_⟩
      rw [isNext, search, if_pos large]
    · refine Or.inr ⟨by simpa using large, fun after more => ?_, fun after p more => ?_⟩
      · rw [isNext, search, if_neg large, if_pos isFreep, more]
      · rw [isNext, search, if_neg large, if_pos isFreep, more]
        rfl
  | cons q rest ih =>
    intro rounds prevp walk enough
    obtain ⟨rounds, rfl⟩ := Nat.exists_eq_succ_of_ne_zero (Nat.ne_zero_of_lt enough)
    obtain ⟨isNext, walk⟩ := walk
    by_cases large : n ≤ (h.mem q).size
    · refine Or.inl ⟨prevp, mem_cons_self, q, by simp, isNext, large, ?_⟩
      rw [isNext, search, if_pos large]
    · have notFreep : h.freep ≠ some q := by
        rw [isFreep]
        rintro ⟨⟩
        exact once mem_cons_self
      have goesOn : search ask n (rounds + 1) h prevp (h.mem prevp).ptr =
          search ask n rounds h q (h.mem q).ptr := by
        rw [isNext, search, if_neg large, if_neg notFreep]
      have others := ih (fun later => once (mem_cons_of_mem q later)) walk
        (Nat.lt_of_succ_lt_succ enough)
      rw [Nat.succ_eq_add_one, goesOn]
      rcases others with ⟨prev, isPrev, r, isMet, leads, fits, found⟩ | ⟨small, failed, again⟩
      · exact Or.inl ⟨prev, mem_cons_of_mem _ isPrev, r, mem_cons_of_mem _ isMet, leads,
          fits, found⟩
      · refine Or.inr ⟨forall_mem_cons.mpr ⟨Nat.lt_of_not_le large, small⟩, failed, ?_⟩
        intro after p more
        rw [again after p more, length_cons]
        congr 1
        omega

namespace Sound

variable {n missing : Nat}

/-- The same over the nodes of the list. -/
theorem search_cases (sound : Sound h blocks 0) (some : 0 < n)
    (ask : Heap → Option (Heap × Option Nat)) {s : Span}
    (isNode : s ∈ (⟨h.base, 0⟩ : Span) :: blocks) (isFreep : h.freep = Option.some s.addr)
    {rounds : Nat} (enough : blocks.length < rounds) :
    (∃ prev ∈ (⟨h.base, 0⟩ : Span) :: blocks, ∃ q ∈ blocks, (h.mem prev.addr).ptr = q.addr ∧
      n ≤ q.size ∧
      search ask n rounds h s.addr (h.mem s.addr).ptr =
        Option.some (h.carve prev.addr q.addr n)) ∨
    ((∀ q ∈ blocks, q.size < n) ∧
      (∀ after, ask h = Option.some (after, none) →
        search ask n rounds h s.addr (h.mem s.addr).ptr = Option.some (after, none)) ∧
      ∀ after p, ask h = Option.some (after, Option.some p) →
        search ask n rounds h s.addr (h.mem s.addr).ptr =
          search ask n (rounds - blocks.length - 1) after p (after.mem p).ptr) := by
  obtain ⟨path, walk, length, once, met⟩ := sound.list.round isNode
  have linked := sound.list.linked
  have metLast : ∀ addr, addr ∈ path ++ [s.addr] ↔ addr ∈ s.addr :: path := by
    intro addr
    simp only [mem_cons, mem_append, not_mem_nil, or_false]
    tauto
  rcases search_walk n ask isFreep once walk (by omega : path.length < rounds) with
    ⟨prev, isPrev, q, isMet, leads, fits, found⟩ | ⟨small, failed, again⟩
  · left
    obtain ⟨prev, isNodePrev, rfl⟩ := (met prev).mp isPrev
    obtain ⟨q, isNodeMet, rfl⟩ := (met q).mp ((metLast q).mp isMet)
    rw [linked.size_eq isNodeMet] at fits
    rcases mem_cons.mp isNodeMet with rfl | isBlock
    · exact absurd fits (Nat.not_le_of_lt some)
    · exact ⟨prev, isNodePrev, q, isBlock, leads, fits, found⟩
  · right
    rw [length] at again
    refine ⟨fun q isBlock => ?_, failed, again⟩
    have isNodeMet := mem_cons_of_mem (⟨h.base, 0⟩ : Span) isBlock
    have short := small q.addr ((metLast _).mpr ((met _).mpr ⟨q, isNodeMet, rfl⟩))
    rw [linked.size_eq isNodeMet] at short
    exact short

/-- What is taken from the list is a live block. -/
theorem carve (sound : Sound h blocks 0) (some : 0 < n) {prev q : Span}
    (isNode : prev ∈ (⟨h.base, 0⟩ : Span) :: blocks) (isBlock : q ∈ blocks)
    (leads : (h.mem prev.addr).ptr = q.addr) (fits : n ≤ q.size) :
    ∃ after p now, h.carve prev.addr q.addr n = (after, Option.some p) ∧
      Sound { after with live := ⟨p, n⟩ :: after.live } now 0 := by
  obtain ⟨left, right, split⟩ := sound.list.split_prev isNode isBlock leads
  have size := sound.list.linked.size_eq (mem_cons_of_mem _ isBlock)
  have carved : ∃ mem taken now, h.carve prev.addr q.addr n =
      ({ h with mem, freep := Option.some prev.addr }, Option.some taken.addr) ∧ taken.size = n ∧
      FreeList.Carved h.mem mem h.base blocks prev taken now := by
    rw [Heap.carve, size]
    split
    · rename_i exactly
      obtain ⟨now, carved⟩ := sound.list.unlink split
      exact ⟨_, q, now, rfl, exactly, carved⟩
    · rename_i larger
      have whole : q.size - n + n = q.size := Nat.sub_add_cancel fits
      obtain ⟨now, carved⟩ := sound.list.shrink split whole (by omega) some
      refine ⟨_, ⟨q.addr + (q.size - n), n⟩, now, ?_, rfl, carved⟩
      dsimp only
      rw [update_of_ne (by omega : q.addr + (q.size - n) ≠ q.addr)]
  obtain ⟨mem, taken, now, isCarved, rfl, carved⟩ := carved
  obtain ⟨origin, isOrigin, part⟩ := carved.origin
  have away : ∀ l ∈ h.live, taken.Apart l :=
    fun l isLive => (sound.separate origin isOrigin l isLive).within part
  have within : ∀ s ∈ now ++ taken :: h.live, h.start ≤ s.addr ∧ s.stop ≤ h.brk := by
    have free : ∀ {s b : Span}, b ∈ blocks → s.Within b → h.start ≤ s.addr ∧ s.stop ≤ h.brk := by
      intro s b isFree inner
      have bounds := sound.inside b (mem_append_left _ isFree)
      exact ⟨Nat.le_trans bounds.1 inner.1, Nat.le_trans inner.2 bounds.2⟩
    intro s isSpan
    rcases mem_append.mp isSpan with isNow | isUsed
    · obtain ⟨b, isFree, inner⟩ := carved.rest s isNow
      exact free isFree inner
    · rcases mem_cons.mp isUsed with rfl | isLive
      · exact free isOrigin part
      · exact sound.inside s (mem_append_right _ isLive)
  have used : ∀ l ∈ taken :: h.live, 0 < l.size ∧ (mem l.addr).size = l.size := by
    refine forall_mem_cons.mpr ⟨⟨some, carved.header⟩, fun l isLive => ?_⟩
    have size := sound.used l isLive
    have other : l.addr ≠ taken.addr := by
      have apart := away l isLive
      simp only [Span.Apart, Span.stop] at apart
      omega
    refine ⟨size.1, ?_⟩
    rw [carved.frame l.addr (sound.live_ne isLive) other]
    exact size.2
  have separate : ∀ b ∈ now, ∀ l ∈ taken :: h.live, b.Apart l := by
    intro b isNow
    refine forall_mem_cons.mpr ⟨carved.apart b isNow, fun l isLive => ?_⟩
    obtain ⟨c, isFree, inner⟩ := carved.rest b isNow
    exact (sound.separate c isFree l isLive).within inner
  have total : Span.total now + Span.total (taken :: h.live) + 0 = h.brk - h.start := by
    rw [Span.total_cons, ← sound.total, ← carved.total]
    omega
  obtain ⟨t, isNow, same⟩ := carved.place
  refine ⟨_, taken.addr, now, isCarved, ⟨carved.list, ⟨t, isNow, by rw [same]⟩, sound.low, sound.grown,
    within, used, pairwise_cons.mpr ⟨away, sound.apart⟩, separate, total⟩⟩

/-- The memory that `sbrk` gives is in the list. -/
theorem morecore (sound : Sound h blocks 0) :
    ∃ after p now, h.morecore (grow true) n = Option.some (after, Option.some p) ∧
      after.freep = Option.some p ∧ Sound after now 0 ∧ now.length ≤ blocks.length + 1 ∧
      ∃ b ∈ now, n ≤ b.size := by
  simp only [Heap.morecore, grow, if_true]
  generalize isUnits : (if n < 4096 then 4096 else n) = nu
  have atLeast : n ≤ nu ∧ 0 < nu := by
    rw [← isUnits]
    split
    · omega
    · omega
  have grown := sound.grown
  have low := sound.low
  -- Below the new memory nothing changes.
  have below : ∀ s ∈ blocks ++ h.live, s.stop ≤ h.brk := fun s mem => (sound.inside s mem).2
  have frame : ∀ addr, addr < h.brk →
      update h.mem h.brk { h.mem h.brk with size := nu } addr = h.mem addr :=
    fun addr isBelow => update_of_ne (Nat.ne_of_lt isBelow) ..
  have nodes : ∀ s ∈ (⟨h.base, 0⟩ : Span) :: blocks, s.addr < h.brk := by
    refine forall_mem_cons.mpr ⟨Nat.lt_of_lt_of_le low grown, fun s isBlock => ?_⟩
    have some := sound.list.some s isBlock
    have stop := below s (mem_append_left _ isBlock)
    rw [Span.stop] at stop
    omega
  have extended : Sound { h with
      brk := h.brk + nu
      mem := update h.mem h.brk { h.mem h.brk with size := nu } } blocks nu := by
    refine ⟨⟨sound.list.linked.congr fun s isNode => frame _ (nodes s isNode), sound.list.spaced,
      sound.list.some⟩, sound.place, low, Nat.le_trans grown (Nat.le_add_right ..), ?_, ?_, sound.apart,
      sound.separate, ?_⟩
    · intro s isSpan
      exact ⟨(sound.inside s isSpan).1, Nat.le_trans (below s isSpan) (Nat.le_add_right ..)⟩
    · intro l isLive
      have size := sound.used l isLive
      have stop := below l (mem_append_right _ isLive)
      rw [Span.stop] at stop
      exact ⟨size.1, (congrArg Header.size (frame l.addr (by omega))).trans size.2⟩
    · have total := sound.total
      simp only at total ⊢
      omega
  obtain ⟨mem, p, now, freed, soundNow, length, b, isNow, large⟩ := extended.free ⟨h.brk, nu⟩
    atLeast.2 (by simp) grown (Nat.le_refl _)
    (fun b isBlock => Or.inl (below b (mem_append_left _ isBlock)))
    (fun l isLive => Or.inr (below l (mem_append_right _ isLive)))
  refine ⟨_, p, now, ?_, rfl, soundNow, length, b, isNow, Nat.le_trans atLeast.1 large⟩
  simp only [freed, map_some]

/-- `malloc` ends, with a new live block or without memory. -/
theorem malloc (sound : Sound h blocks 0) (nbytes : Nat) (granted : Bool) :
    ∃ after now, (h.malloc nbytes granted = Option.some (after, none) ∧ Sound after now 0) ∨
      ∃ p, h.malloc nbytes granted = Option.some (after, Option.some p) ∧
        Sound { after with live := ⟨p, unitsFor nbytes⟩ :: after.live } now 0 := by
  obtain ⟨s, isNode, isFreep⟩ := sound.place
  have some : 0 < unitsFor nbytes := Nat.succ_pos _
  have length := sound.length_lt
  have isMalloc : h.malloc nbytes granted =
      search (fun h => h.morecore (grow granted) (unitsFor nbytes)) (unitsFor nbytes)
        (2 * h.rounds) h s.addr (h.mem s.addr).ptr := by
    rw [Heap.malloc, mallocUnits, ensureBase, isFreep]
  rw [isMalloc]
  rcases sound.search_cases some _ isNode isFreep (by omega : blocks.length < 2 * h.rounds) with
    ⟨prev, isPrev, q, isBlock, leads, fits, found⟩ | ⟨-, failed, again⟩
  · obtain ⟨after, p, now, isCarved, soundNow⟩ := sound.carve some isPrev isBlock leads fits
    exact ⟨after, now, Or.inr ⟨p, by rw [found, isCarved], soundNow⟩⟩
  · cases granted with
    | false => exact ⟨h, blocks, Or.inl ⟨failed h rfl, sound⟩⟩
    | true =>
      obtain ⟨more, p, now, isMore, isPlace, soundMore, longer, b, isNow, large⟩ :=
        sound.morecore (n := unitsFor nbytes)
      obtain ⟨t, isNodeMore, isFreepMore⟩ := soundMore.place
      obtain rfl : p = t.addr := Option.some.inj (isPlace.symm.trans isFreepMore)
      rw [again more t.addr isMore]
      rcases soundMore.search_cases some _ isNodeMore isFreepMore
        (by omega : now.length < 2 * h.rounds - blocks.length - 1) with
        ⟨prev, isPrev, q, isBlock, leads, fits, found⟩ | ⟨small, -, -⟩
      · obtain ⟨after, p, last, isCarved, soundLast⟩ :=
          soundMore.carve some isPrev isBlock leads fits
        exact ⟨after, last, Or.inr ⟨p, by rw [found, isCarved], soundLast⟩⟩
      · exact absurd (small b isNow) (Nat.not_lt_of_le large)

/-- A live block and the others. -/
theorem apart_erase (sound : Sound h blocks missing) {block : Span} (isLive : block ∈ h.live) :
    (∀ l ∈ h.live.erase block, block.Apart l) ∧ (h.live.erase block).Pairwise Span.Apart := by
  have order := perm_cons_erase isLive
  exact pairwise_cons.mp ((order.pairwise_iff Span.Apart.symm).mp sound.apart)

/-- A program may free any live block. -/
theorem free_live (sound : Sound h blocks 0) {block : Span} (isLive : block ∈ h.live) :
    ∃ after now, h.free block.addr = Option.some after ∧
      Sound { after with live := after.live.erase block } now 0 := by
  obtain ⟨some, header⟩ := sound.used block isLive
  have bounds := sound.inside block (mem_append_right _ isLive)
  have order := perm_cons_erase isLive
  have rest : ∀ l ∈ h.live.erase block, l ∈ h.live := fun l isRest => mem_of_mem_erase isRest
  obtain ⟨awayLive, apart⟩ := sound.apart_erase isLive
  have totals : Span.total h.live = block.size + Span.total (h.live.erase block) := by
    rw [← Span.total_cons]
    exact (order.map Span.size).sum_eq
  have without : Sound { h with live := h.live.erase block } blocks block.size := by
    refine ⟨sound.list, sound.place, sound.low, sound.grown, ?_, fun l isRest => sound.used l (rest l isRest),
      apart, fun b isBlock l isRest => sound.separate b isBlock l (rest l isRest), ?_⟩
    · intro s isSpan
      refine sound.inside s ?_
      rcases mem_append.mp isSpan with isFree | isRest
      · exact mem_append_left _ isFree
      · exact mem_append_right _ (rest s isRest)
    · have total := sound.total
      simp only at total ⊢
      omega
  obtain ⟨mem, p, now, freed, soundNow, -⟩ := without.free block some header bounds.1 bounds.2
    (fun b isBlock => sound.separate b isBlock block isLive) awayLive
  rw [free_record] at freed
  obtain ⟨after, isAfter, same⟩ := map_eq_some_iff.mp freed
  have sameLive : after.live = h.live := by
    have again := free_record h h.live block.addr
    rw [isAfter, map_some, Option.some.injEq] at again
    rw [again]
  rw [← same] at soundNow
  rw [← sameLive] at soundNow
  exact ⟨after, now, isAfter, soundNow⟩

/-- A program may write what it likes behind the header of a live block. -/
theorem write (sound : Sound h blocks 0) {block : Span} (isLive : block ∈ h.live) {addr : Nat}
    (behind : block.addr < addr) (before : addr < block.stop) (value : Header) :
    Sound { h with mem := update h.mem addr value } blocks 0 := by
  have bounds := sound.inside block (mem_append_right _ isLive)
  have low := sound.low
  have nodes : ∀ s ∈ (⟨h.base, 0⟩ : Span) :: blocks, s.addr ≠ addr := by
    refine forall_mem_cons.mpr ⟨by simp only; omega, fun s isBlock => ?_⟩
    have some := sound.list.some s isBlock
    have away := sound.separate s isBlock block isLive
    simp only [Span.Apart, Span.stop] at away before
    omega
  have headers : ∀ l ∈ h.live, l.addr ≠ addr := by
    intro l isOther
    rcases eq_or_ne l block with rfl | different
    · exact Nat.ne_of_lt behind
    · have isRest := (mem_erase_of_ne different).mpr isOther
      have away := (sound.apart_erase isLive).1 l isRest
      have some := (sound.used l isOther).1
      simp only [Span.Apart, Span.stop] at away before
      omega
  refine ⟨⟨sound.list.linked.congr fun s isNode => ?_, sound.list.spaced, sound.list.some⟩, sound.place,
    low, sound.grown, sound.inside, fun l isOther => ?_, sound.apart, sound.separate, sound.total⟩
  · exact update_of_ne (nodes s isNode) ..
  · have size := sound.used l isOther
    have same := update_of_ne (headers l isOther) value h.mem
    exact ⟨size.1, (congrArg Header.size same).trans size.2⟩

end Sound

/-! ## Runs -/

/-- A heap that was never used, or one with its blocks. -/
inductive Good : Heap → Prop
  | fresh (mem : Memory) {base start : Nat} (low : base < start) : Good (boot mem base start)
  | used {h : Heap} {blocks : List Span} (sound : Sound h blocks 0) : Good h

/-- The first `malloc` makes the list of one node. -/
theorem sound_ensureBase (mem : Memory) {base start : Nat} (low : base < start) :
    Sound (boot mem base start).ensureBase.1 [] 0 := by
  refine ⟨⟨⟨?_, trivial⟩, pairwise_singleton .., by rintro _ ⟨⟩⟩, ⟨_, mem_cons_self, rfl⟩, low,
    Nat.le_refl _, by rintro _ ⟨⟩, by rintro _ ⟨⟩, List.Pairwise.nil, by rintro _ ⟨⟩,
    (Nat.sub_self start).symm⟩
  exact update_self ..

theorem malloc_ensureBase (nbytes : Nat) (granted : Bool) :
    h.malloc nbytes granted = h.ensureBase.1.malloc nbytes granted := by
  cases isFreep : h.freep with
  | none => simp only [malloc, mallocUnits, ensureBase, isFreep]
  | some p => simp only [malloc, mallocUnits, ensureBase, isFreep]

/-- `malloc` in any heap. -/
theorem Good.malloc (good : Good h) (nbytes : Nat) (granted : Bool) :
    ∃ after now, (h.malloc nbytes granted = some (after, none) ∧ Sound after now 0) ∨
      ∃ p, h.malloc nbytes granted = some (after, some p) ∧
        Sound { after with live := ⟨p, unitsFor nbytes⟩ :: after.live } now 0 := by
  cases good with
  | used sound => exact sound.malloc nbytes granted
  | fresh mem low =>
    rw [malloc_ensureBase]
    exact (sound_ensureBase mem low).malloc nbytes granted

/-- No step fails, and each keeps the heap good. -/
theorem Good.step (good : Good h) (event : Event) :
    ∃ after, h.step event = .ok after ∧ ∀ next ∈ after, Good next := by
  cases event with
  | malloc nbytes granted =>
    obtain ⟨after, now, ⟨isMalloc, sound⟩ | ⟨p, isMalloc, sound⟩⟩ := good.malloc nbytes granted
    · refine ⟨some after, by rw [Heap.step, isMalloc], ?_⟩
      rintro next ⟨⟩
      exact .used sound
    · refine ⟨some _, by rw [Heap.step, isMalloc], ?_⟩
      rintro next ⟨⟩
      exact .used sound
  | free block =>
    rw [Heap.step]
    split
    · rename_i isLive
      cases good with
      | fresh mem low => cases isLive
      | used sound =>
        obtain ⟨after, now, freed, soundNow⟩ := sound.free_live isLive
        rw [freed]
        refine ⟨some _, rfl, ?_⟩
        rintro next ⟨⟩
        exact .used soundNow
    · exact ⟨none, rfl, by rintro _ ⟨⟩⟩
  | write block addr value =>
    refine ⟨_, rfl, ?_⟩
    split
    · rename_i inside
      rintro next ⟨⟩
      cases good with
      | fresh mem low => exact absurd inside.1 not_mem_nil
      | used sound => exact .used (sound.write inside.1 inside.2.1 inside.2.2 value)
    · rintro _ ⟨⟩

/-- The free list is a cycle through `base` of blocks in increasing order with gaps between
them, no two blocks overlap, live blocks keep the size in their header, all units that `sbrk`
gave are in one block, and no loop goes on forever. -/
theorem heap_allocator_safety (mem : Memory) {base start : Nat} (low : base < start)
    {events : List Event} (ran : (boot mem base start).run events = some h) :
    ((h.freep = none ∧ h.live = [] ∧ h.brk = h.start) ∨
      ∃ blocks, FreeList h.mem h.base blocks ∧
        (∃ s ∈ (⟨h.base, 0⟩ : Span) :: blocks, h.freep = some s.addr) ∧
        (blocks ++ h.live).Pairwise Span.Apart ∧
        (∀ l ∈ h.live, (h.mem l.addr).size = l.size) ∧
        Span.total blocks + Span.total h.live = h.brk - h.start) ∧
    ∀ event, h.step event ≠ .error () := by
  have good : Good h := by
    refine Runs.always Good (fun good took => ?_) (.fresh mem low) ran
    obtain ⟨after, stepped, isGood⟩ := good.step _
    rw [stepped] at took
    cases took
    exact isGood _ rfl
  refine ⟨?_, fun event failed => ?_⟩
  · cases good with
    | fresh mem low => exact Or.inl ⟨rfl, rfl, rfl⟩
    | used sound =>
      refine Or.inr ⟨_, sound.list, sound.place, ?_, fun l isLive => (sound.used l isLive).2, sound.total⟩
      have spaced := (List.pairwise_cons.mp sound.list.spaced).2
      exact List.pairwise_append.mpr
        ⟨spaced.imp Span.Before.apart, sound.apart, sound.separate⟩
  · obtain ⟨after, stepped, -⟩ := good.step event
    rw [stepped] at failed
    cases failed

/-- Two blocks are given out, one is freed between a live block and the end, and a large request
makes the heap grow. -/
theorem heap_allocator_safety_grown :
    ∃ h, (boot (fun _ => ⟨0, 0⟩) 1 10).run
        [.malloc 8 true, .malloc 16 true, .write ⟨4101, 3⟩ 4102 ⟨7, 7⟩, .free ⟨4104, 2⟩,
          .malloc 40000 false, .malloc 40000 true] = some h ∧
      h.live = [⟨4106, 5001⟩, ⟨4101, 3⟩] ∧ h.brk = 9107 ∧
      (∃ blocks, FreeList h.mem h.base blocks ∧
        Span.total blocks + Span.total h.live = h.brk - h.start) ∧
      ∀ event, h.step event ≠ .error () := by
  have ends : ((boot (fun _ => ⟨0, 0⟩) 1 10).run
      [.malloc 8 true, .malloc 16 true, .write ⟨4101, 3⟩ 4102 ⟨7, 7⟩, .free ⟨4104, 2⟩,
        .malloc 40000 false, .malloc 40000 true]).map (fun h => (h.freep, h.live, h.brk)) =
      some (some 10, [⟨4106, 5001⟩, ⟨4101, 3⟩], 9107) := by decide +kernel
  obtain ⟨h, ran, isLast⟩ := Option.map_eq_some_iff.mp ends
  rw [Prod.mk.injEq, Prod.mk.injEq] at isLast
  obtain ⟨isFreep, isLive, isEnd⟩ := isLast
  obtain ⟨⟨unused, -⟩ | ⟨blocks, list, -, -, -, total⟩, ends⟩ :=
    heap_allocator_safety (fun _ => ⟨0, 0⟩) (by decide : 1 < 10) ran
  · rw [isFreep] at unused
    cases unused
  · exact ⟨h, ran, isLive, isEnd, ⟨blocks, list, total⟩, ends⟩

end Heap

end Xv6.Umalloc
