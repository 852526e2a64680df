import Xv6.Umalloc.Model

/-!
# The free list

The list of free blocks runs from `base` through blocks of increasing addresses and back to
`base`. The loop of `free` ends at the block behind which a new one belongs, wherever it
begins, and the two joins of `free` keep the list in order with gaps between its blocks.
-/

namespace Xv6.Umalloc

open Function List

variable {mem after : Memory} {home : Nat} {s : Span} {rest : List Span} {bp rounds : Nat}

/-- Where the first of some blocks is, or where the list goes on if there is none. -/
def first (home : Nat) : List Span → Nat
  | [] => home
  | s :: _ => s.addr

/-- The headers link the blocks, and the last one to an address. -/
def Linked (mem : Memory) (home : Nat) : List Span → Prop
  | [] => True
  | s :: rest => mem s.addr = ⟨first home rest, s.size⟩ ∧ Linked mem home rest

theorem linked_append {left right : List Span} :
    Linked mem home (left ++ right) ↔ Linked mem (first home right) left ∧ Linked mem home right := by
  induction left with
  | nil => simp [Linked]
  | cons s rest ih =>
    have same : first home (rest ++ right) = first (first home right) rest := by
      cases rest with
      | nil => rfl
      | cons t rest => rfl
    rw [cons_append, Linked, Linked, ih, same, and_assoc]

/-- Only the headers of the blocks matter. -/
theorem Linked.congr {blocks : List Span} (linked : Linked mem home blocks)
    (same : ∀ s ∈ blocks, after s.addr = mem s.addr) : Linked after home blocks := by
  induction blocks with
  | nil => trivial
  | cons s rest ih =>
    refine ⟨?_, ih linked.2 fun t mem => same t (mem_cons_of_mem s mem)⟩
    rw [same s mem_cons_self]
    exact linked.1

/-- The size in the header of a block. -/
theorem Linked.size_eq {blocks : List Span} (linked : Linked mem home blocks) (isBlock : s ∈ blocks) :
    (mem s.addr).size = s.size := by
  induction blocks with
  | nil => cases isBlock
  | cons t rest ih =>
    rcases mem_cons.mp isBlock with rfl | later
    · rw [linked.1]
    · exact ih linked.2 later

theorem attach_of_ne (mem : Memory) {b next other : Nat} (apart : other ≠ b) :
    attach mem b next other = mem other := by
  rw [attach]
  split
  · exact update_of_ne apart ..
  · exact update_of_ne apart ..

/-- A block is linked to those behind it, or joined with the first of them. -/
theorem attach_linked (linked : Linked mem home rest) (size : (mem s.addr).size = s.size)
    (outside : ∀ t ∈ rest, t.addr ≠ s.addr) (notHome : rest = [] → s.stop ≠ home) :
    Linked (attach mem s.addr (first home rest)) home (s.merge rest) := by
  have isStop : s.addr + (mem s.addr).size = s.stop := by rw [size, Span.stop]
  cases rest with
  | nil =>
    refine ⟨?_, trivial⟩
    rw [first, attach, isStop, if_neg (notHome rfl), update_self, size]
  | cons t rest =>
    have later : ∀ u ∈ rest, attach mem s.addr t.addr u.addr = mem u.addr :=
      fun u mem => attach_of_ne _ (outside u (mem_cons_of_mem t mem))
    rw [Span.merge, first]
    split
    · rename_i touches
      refine ⟨?_, linked.2.congr later⟩
      rw [attach, isStop, if_pos touches, update_self, size, linked.1]
    · rename_i gap
      refine ⟨?_, Linked.congr linked (forall_mem_cons.mpr ⟨?_, later⟩)⟩
      · rw [attach, isStop, if_neg gap, update_self, size]
        rfl
      · exact attach_of_ne _ (outside t mem_cons_self)

/-! ## Walks -/

/-- The addresses met from a block on. -/
def Walk (mem : Memory) : Nat → List Nat → Prop
  | _, [] => True
  | p, q :: rest => (mem p).ptr = q ∧ Walk mem q rest

theorem Walk.append {p q : Nat} {left right : List Nat} (before : Walk mem p (left ++ [q]))
    (behind : Walk mem q right) : Walk mem p (left ++ q :: right) := by
  induction left generalizing p with
  | nil => exact ⟨before.1, behind⟩
  | cons r rest ih => exact ⟨before.1, ih before.2⟩

theorem Linked.walk (linked : Linked mem home (s :: rest)) :
    Walk mem s.addr (rest.map Span.addr ++ [home]) := by
  induction rest generalizing s with
  | nil => exact ⟨by rw [linked.1]; rfl, trivial⟩
  | cons t rest ih => exact ⟨by rw [linked.1]; rfl, ih linked.2⟩

/-- From any block of a list that leads back to its first block, the walk meets the blocks
behind it, those before it, and then itself. -/
theorem Linked.round {before behind : List Span}
    (linked : Linked mem (first s.addr before) (before ++ s :: behind)) :
    Walk mem s.addr ((behind ++ before).map Span.addr ++ [s.addr]) := by
  obtain ⟨front, back⟩ := linked_append.mp linked
  cases before with
  | nil =>
    rw [append_nil]
    exact back.walk
  | cons t rest =>
    have walk := Walk.append back.walk front.walk
    simpa [first] using walk

/-- The condition under which the loop of `free` stops at a block. -/
def Stops (mem : Memory) (bp p : Nat) : Prop :=
  (bp > p ∧ bp < (mem p).ptr) ∨ (p ≥ (mem p).ptr ∧ (bp > p ∨ bp < (mem p).ptr))

/-- The loop of `free` finds the one block of a walk at which it stops. -/
theorem findPlace_eq {p target : Nat} {path : List Nat} (walk : Walk mem p path)
    (isMet : target ∈ p :: path) (stops : Stops mem bp target)
    (unique : ∀ q ∈ p :: path, Stops mem bp q → q = target) (enough : path.length < rounds) :
    findPlace mem bp rounds p = some target := by
  induction path generalizing p rounds with
  | nil =>
    obtain ⟨rounds, rfl⟩ := Nat.exists_eq_succ_of_ne_zero (Nat.ne_zero_of_lt enough)
    cases mem_singleton.mp isMet
    rw [findPlace]
    split
    · rfl
    · rename_i notBetween
      rw [if_pos (stops.resolve_left notBetween)]
  | cons q rest ih =>
    obtain ⟨rounds, rfl⟩ := Nat.exists_eq_succ_of_ne_zero (Nat.ne_zero_of_lt enough)
    obtain ⟨isNext, walk⟩ := walk
    rw [findPlace]
    split
    · rename_i between
      rw [unique p mem_cons_self (Or.inl between)]
    · rename_i notBetween
      split
      · rename_i wraps
        rw [unique p mem_cons_self (Or.inr wraps)]
      · rename_i notWraps
        have isLater : target ∈ q :: rest := by
          rcases mem_cons.mp isMet with rfl | later
          · exact absurd stops (not_or.mpr ⟨notBetween, notWraps⟩)
          · exact later
        rw [isNext]
        exact ih walk isLater
          (fun r mem => unique r (mem_cons_of_mem p mem)) (Nat.lt_of_succ_lt_succ enough)

/-! ## Insertion -/

/-- The free blocks behind `base`. -/
structure FreeList (mem : Memory) (base : Nat) (blocks : List Span) : Prop where
  linked : Linked mem base (⟨base, 0⟩ :: blocks)
  spaced : (⟨base, 0⟩ :: blocks).Pairwise Span.Before
  some : ∀ b ∈ blocks, 0 < b.size

/-- An address behind the first block is behind one block and before the next. -/
theorem split_at {addr : Nat} (spaced : (s :: rest).Pairwise Span.Before) (behind : s.addr < addr)
    (other : ∀ t ∈ rest, t.addr ≠ addr) :
    ∃ before p after, s :: rest = before ++ p :: after ∧ p.addr < addr ∧
      ∀ t ∈ after, addr < t.addr := by
  induction rest generalizing s with
  | nil => exact ⟨[], s, [], rfl, behind, by rintro _ ⟨⟩⟩
  | cons t rest ih =>
    obtain ⟨later, spaced⟩ := pairwise_cons.mp spaced
    by_cases beyond : addr < t.addr
    · refine ⟨[], s, t :: rest, rfl, behind, forall_mem_cons.mpr ⟨beyond, fun u mem => ?_⟩⟩
      have order := ((pairwise_cons.mp spaced).1 u mem).addr_lt
      omega
    · have apart := other t mem_cons_self
      obtain ⟨before, p, after, split, isBehind, isBefore⟩ := ih spaced (by omega)
        fun u mem => other u (mem_cons_of_mem t mem)
      exact ⟨s :: before, p, after, by rw [split]; rfl, isBehind, isBefore⟩

namespace FreeList

variable {base : Nat} {blocks before after : List Span} {p new : Span}

/-- At every block but the one behind which the address is, the loop goes on. -/
theorem stops_iff (list : FreeList mem base blocks)
    (split : ⟨base, 0⟩ :: blocks = before ++ p :: after) (inHeap : base < bp) (behind : p.addr < bp)
    (beyond : ∀ t ∈ after, bp < t.addr) (isNode : s ∈ (⟨base, 0⟩ : Span) :: blocks) :
    Stops mem bp s.addr ↔ s = p := by
  have linked := list.linked
  have spaced := list.spaced
  have lowest : ∀ t ∈ (⟨base, 0⟩ : Span) :: blocks, base ≤ t.addr := by
    refine forall_mem_cons.mpr ⟨Nat.le_refl _, fun t mem => ?_⟩
    exact Nat.le_of_lt ((pairwise_cons.mp spaced).1 t mem).addr_lt
  have atLeast := lowest s isNode
  rw [split] at linked spaced isNode
  obtain ⟨front, back⟩ := linked_append.mp linked
  obtain ⟨spacedFront, spacedBack, across⟩ := pairwise_append.mp spaced
  rcases mem_append.mp isNode with isFront | isBack
  · -- Before the place, the next block is still not beyond the address.
    have apart : s ≠ p := by
      rintro rfl
      exact absurd (across s isFront s mem_cons_self).addr_lt (Nat.lt_irrefl _)
    obtain ⟨left, right, rfl⟩ := append_of_mem isFront
    obtain ⟨-, atBlock⟩ := linked_append.mp front
    have isNext := congrArg Header.ptr atBlock.1
    have nextLe : (mem s.addr).ptr ≤ p.addr ∧ s.addr < (mem s.addr).ptr := by
      cases right with
      | nil =>
        rw [isNext]
        exact ⟨Nat.le_refl _, (across s isFront p mem_cons_self).addr_lt⟩
      | cons t right =>
        rw [isNext]
        have later := (pairwise_append.mp spacedFront).2.1
        have isIn : t ∈ left ++ s :: t :: right := by simp
        exact ⟨Nat.le_of_lt (across t isIn p mem_cons_self).addr_lt,
          ((pairwise_cons.mp later).1 t mem_cons_self).addr_lt⟩
    refine iff_of_false ?_ apart
    rintro (⟨-, below⟩ | ⟨wraps, -⟩)
    · omega
    · omega
  · rcases mem_cons.mp isBack with rfl | isAfter
    · refine iff_of_true ?_ rfl
      have isNext := congrArg Header.ptr back.1
      cases after with
      | nil => exact Or.inr ⟨by rw [isNext]; exact atLeast, Or.inl behind⟩
      | cons t after => exact Or.inl ⟨behind, by rw [isNext]; exact beyond t mem_cons_self⟩
    · -- Beyond the place, the blocks have higher addresses, or the list goes back to `base`.
      have apart : s ≠ p := by
        rintro rfl
        exact absurd (beyond s isAfter) (Nat.lt_asymm behind)
      have isBeyond := beyond s isAfter
      obtain ⟨left, right, rfl⟩ := append_of_mem isAfter
      obtain ⟨-, atBlock⟩ := linked_append.mp back.2
      have isNext := congrArg Header.ptr atBlock.1
      refine iff_of_false ?_ apart
      cases right with
      | nil =>
        have wrapped : (mem s.addr).ptr = base := isNext
        rintro (⟨below, -⟩ | ⟨-, below | above⟩)
        · omega
        · omega
        · omega
      | cons t right =>
        have isHigher : (mem s.addr).ptr = t.addr := isNext
        have later := (pairwise_append.mp (pairwise_cons.mp spacedBack).2).2.1
        have order := ((pairwise_cons.mp later).1 t mem_cons_self).addr_lt
        rintro (⟨below, -⟩ | ⟨wraps, -⟩)
        · omega
        · omega

/-- The walk from any node meets every node once and comes back. -/
theorem round (list : FreeList mem base blocks) (isNode : s ∈ (⟨base, 0⟩ : Span) :: blocks) :
    ∃ path, Walk mem s.addr (path ++ [s.addr]) ∧ path.length = blocks.length ∧ s.addr ∉ path ∧
      ∀ addr, addr ∈ s.addr :: path ↔ ∃ t ∈ (⟨base, 0⟩ : Span) :: blocks, t.addr = addr := by
  obtain ⟨left, right, around⟩ := append_of_mem isNode
  have home : first s.addr left = base := by
    cases left with
    | nil => exact congrArg Span.addr (List.cons.inj around).1.symm
    | cons t left => exact congrArg Span.addr (List.cons.inj around).1.symm
  have linked := list.linked
  have spaced := list.spaced
  rw [around] at linked spaced
  rw [← home] at linked
  obtain ⟨-, spacedBack, across⟩ := pairwise_append.mp spaced
  refine ⟨(right ++ left).map Span.addr, linked.round, ?_, ?_, ?_⟩
  · have length := congrArg List.length around
    simp only [length_cons, length_append] at length
    rw [length_map, length_append]
    omega
  · rw [mem_map]
    rintro ⟨t, isOther, same⟩
    rcases mem_append.mp isOther with isRight | isLeft
    · exact Nat.ne_of_gt ((pairwise_cons.mp spacedBack).1 t isRight).addr_lt same
    · exact Nat.ne_of_lt (across t isLeft s mem_cons_self).addr_lt same
  · intro addr
    rw [around]
    simp only [mem_cons, mem_append, mem_map]
    grind

/-- The loop of `free` finds the block behind which the address is, from any block. -/
theorem findPlace_eq (list : FreeList mem base blocks)
    (split : ⟨base, 0⟩ :: blocks = before ++ p :: after) (inHeap : base < bp) (behind : p.addr < bp)
    (beyond : ∀ t ∈ after, bp < t.addr) (isNode : s ∈ (⟨base, 0⟩ : Span) :: blocks)
    (enough : blocks.length + 1 < rounds) :
    findPlace mem bp rounds s.addr = Option.some p.addr := by
  have stops := fun {t} isNode => list.stops_iff split inHeap behind beyond (s := t) isNode
  have isPlace : p ∈ (⟨base, 0⟩ : Span) :: blocks := by
    rw [split]
    simp
  obtain ⟨path, walk, length, -, met⟩ := list.round isNode
  have metAgain : ∀ addr, addr ∈ s.addr :: (path ++ [s.addr]) ↔ addr ∈ s.addr :: path := by
    intro addr
    simp only [mem_cons, mem_append, not_mem_nil, or_false]
    tauto
  refine Umalloc.findPlace_eq walk ?_ ((stops isPlace).mpr rfl) ?_ ?_
  · rw [metAgain, met]
    exact ⟨p, isPlace, rfl⟩
  · intro addr isMet isStop
    obtain ⟨t, isNode, rfl⟩ := (met addr).mp ((metAgain addr).mp isMet)
    rw [(stops isNode).mp isStop]
  · rw [length_append, length]
    exact enough

/-- What an insertion makes of the list: one more block, perhaps joined with its neighbours. -/
structure Inserted (mem after : Memory) (base : Nat) (blocks : List Span) (p new : Span)
    (now : List Span) : Prop where
  list : FreeList after base now
  place : ∃ s ∈ (⟨base, 0⟩ : Span) :: now, s.addr = p.addr
  total : Span.total now = Span.total blocks + new.size
  length : now.length ≤ blocks.length + 1
  large : ∃ b ∈ now, new.size ≤ b.size
  /-- What holds of the old blocks and the new one, and of joined blocks if it holds of their
  parts, holds of all. -/
  carries : ∀ holds : Span → Prop, (∀ s ∈ (⟨base, 0⟩ : Span) :: blocks, holds s) → holds new →
    (∀ s t : Span, holds s → holds t → s.stop = t.addr → holds ⟨s.addr, s.size + t.size⟩) →
    ∀ s ∈ (⟨base, 0⟩ : Span) :: now, holds s
  frame : ∀ addr, addr ≠ new.addr → addr ≠ p.addr → after addr = mem addr

/-- The two joins of `free`. -/
theorem insert (list : FreeList mem base blocks)
    (split : ⟨base, 0⟩ :: blocks = before ++ p :: after) (size : (mem new.addr).size = new.size)
    (some : 0 < new.size) (inHeap : base < new.addr) (behind : p.addr < new.addr)
    (beyond : ∀ t ∈ after, new.addr < t.addr)
    (apart : ∀ s ∈ (⟨base, 0⟩ : Span) :: blocks, s.Apart new) :
    ∃ now, Inserted mem (attach (attach mem new.addr (mem p.addr).ptr) p.addr new.addr) base blocks p
      new now := by
  have linked := list.linked
  have spaced := list.spaced
  rw [split] at linked spaced apart
  obtain ⟨front, back⟩ := linked_append.mp linked
  obtain ⟨spacedFront, spacedBack, across⟩ := pairwise_append.mp spaced
  obtain ⟨spacedPlace, spacedAfter⟩ := pairwise_cons.mp spacedBack
  have isNext : (mem p.addr).ptr = first base after := congrArg Header.ptr back.1
  -- The new block lies between its neighbours.
  have stopBehind : p.stop ≤ new.addr := by
    have away := apart p (by simp)
    simp only [Span.Apart, Span.stop] at *
    omega
  have stopBeyond : ∀ t ∈ after, new.stop ≤ t.addr := by
    intro t mem
    have away := apart t (by simp [mem])
    have order := beyond t mem
    simp only [Span.Apart, Span.stop] at *
    omega
  have newBehind : ∀ t ∈ new.merge after, new.addr ≤ t.addr :=
    Span.merge_forall (Nat.le_refl _) (fun t mem => Nat.le_of_lt (beyond t mem))
      fun _ _ _ => Nat.le_refl _
  obtain ⟨next, rest, isMerge, isFirst⟩ := Span.merge_eq_cons new after
  have firstNew : first base (new.merge after) = new.addr := by
    rw [isMerge]
    exact isFirst
  -- The links, from the new block, from the place and from the front.
  have linkedNew := attach_linked back.2 size (fun t mem => (Nat.ne_of_lt (beyond t mem)).symm)
    fun _ => Nat.ne_of_gt (Nat.lt_of_lt_of_le inHeap (Nat.le_add_right ..))
  rw [← isNext] at linkedNew
  have sizePlace : (attach mem new.addr (mem p.addr).ptr p.addr).size = p.size := by
    rw [attach_of_ne _ (Nat.ne_of_lt behind), back.1]
  have linkedPlace := attach_linked linkedNew sizePlace
    (fun t mem => Nat.ne_of_gt (Nat.lt_of_lt_of_le behind (newBehind t mem)))
    (fun empty => by rw [isMerge] at empty; cases empty)
  rw [firstNew] at linkedPlace
  have firstPlace : first base (p.merge (new.merge after)) = p.addr := by
    obtain ⟨s, others, isAll, same⟩ := Span.merge_eq_cons p (new.merge after)
    rw [isAll]
    exact same
  have frame : ∀ addr, addr ≠ new.addr → addr ≠ p.addr →
      attach (attach mem new.addr (mem p.addr).ptr) p.addr new.addr addr = mem addr := by
    intro addr notNew notPlace
    rw [attach_of_ne _ notPlace, attach_of_ne _ notNew]
  have linkedAll : Linked (attach (attach mem new.addr (mem p.addr).ptr) p.addr new.addr) base
      (before ++ p.merge (new.merge after)) := by
    refine linked_append.mpr ⟨?_, linkedPlace⟩
    rw [firstPlace]
    refine front.congr fun t mem => ?_
    have order := (across t mem p mem_cons_self).addr_lt
    exact frame t.addr (by omega) (by omega)
  have spacedAll : (before ++ p.merge (new.merge after)).Pairwise Span.Before := by
    refine pairwise_append.mpr ⟨spacedFront, ?_, fun s isFront t isBack => ?_⟩
    · refine Span.merge_spaced (Span.merge_spaced spacedAfter stopBeyond) fun t mem => ?_
      exact Nat.le_trans stopBehind (newBehind t mem)
    · have order := across s isFront p mem_cons_self
      have later : ∀ u ∈ p.merge (new.merge after), p.addr ≤ u.addr := by
        refine Span.merge_forall (Nat.le_refl _) (fun u mem => ?_) fun _ _ _ => Nat.le_refl _
        exact Nat.le_trans (Nat.le_of_lt behind) (newBehind u mem)
      exact Nat.lt_of_lt_of_le order (later t isBack)
  -- The list still begins with `base`, which touches no block.
  obtain ⟨now, isNow⟩ : ∃ now, before ++ p.merge (new.merge after) = ⟨base, 0⟩ :: now := by
    cases before with
    | nil =>
      obtain ⟨rfl, rfl⟩ := List.cons.inj split
      refine ⟨new.merge blocks, ?_⟩
      rw [nil_append, isMerge, Span.merge, if_neg]
      rw [isFirst]
      exact Nat.ne_of_lt inHeap
    | cons s before => exact ⟨_, by rw [(List.cons.inj split).1]; rfl⟩
  rw [isNow] at linkedAll spacedAll
  have carries : ∀ holds : Span → Prop, (∀ s ∈ (⟨base, 0⟩ : Span) :: blocks, holds s) → holds new →
      (∀ s t : Span, holds s → holds t → s.stop = t.addr → holds ⟨s.addr, s.size + t.size⟩) →
      ∀ s ∈ (⟨base, 0⟩ : Span) :: now, holds s := by
    intro holds old holdsNew joins s mem
    rw [split] at old
    rw [← isNow] at mem
    have behindNew : ∀ t ∈ new.merge after, holds t :=
      Span.merge_forall holdsNew (fun t isAfter => old t (by simp [isAfter]))
        fun t isAfter touches => joins new t holdsNew (old t (by simp [isAfter])) touches
    have holdsPlace := old p (by simp)
    rcases mem_append.mp mem with isFront | isBack
    · exact old s (by simp [isFront])
    · exact Span.merge_forall holdsPlace behindNew
        (fun t isMerged touches => joins p t holdsPlace (behindNew t isMerged) touches) s isBack
  refine ⟨now, ⟨linkedAll, spacedAll, ?_⟩, ?_, ?_, ?_, ?_, carries, frame⟩
  · intro b isBlock
    have order := ((pairwise_cons.mp spacedAll).1 b isBlock).addr_lt
    have either := carries (fun s => s.addr = base ∨ 0 < s.size)
      (forall_mem_cons.mpr ⟨Or.inl rfl, fun s mem => Or.inr (list.some s mem)⟩) (Or.inr some)
      (fun s t first second _ => by simp only at *; omega) b (mem_cons_of_mem _ isBlock)
    simp only at order either
    omega
  · obtain ⟨s, others, isAll, same⟩ := Span.merge_eq_cons p (new.merge after)
    refine ⟨s, ?_, same⟩
    rw [← isNow, isAll]
    simp
  · have sums := congrArg Span.total isNow
    have sumsBefore := congrArg Span.total split
    simp only [Span.total_append, Span.total_cons, Span.total_merge] at sums sumsBefore
    omega
  · have counts := congrArg List.length isNow
    have countsBefore := congrArg List.length split
    have joins := Span.length_merge_le p (new.merge after)
    have joinsNew := Span.length_merge_le new after
    simp only [length_append, length_cons] at counts countsBefore
    omega
  · obtain ⟨joined, isJoined, atLeast⟩ := Span.merge_size_le (t := new)
      (mem_cons_self (l := after))
    obtain ⟨b, isNode, larger⟩ := Span.merge_size_le (mem_cons_of_mem p isJoined)
    have isNode : b ∈ (⟨base, 0⟩ : Span) :: now := by
      rw [← isNow]
      exact mem_append_right before isNode
    rcases mem_cons.mp isNode with rfl | isBlock
    · exact absurd (Nat.le_trans atLeast larger) (Nat.not_le_of_lt some)
    · exact ⟨b, isBlock, Nat.le_trans atLeast larger⟩

/-- What holds of the old blocks and the new one, and of joined blocks if it holds of their
parts, holds of all blocks. The node `base` is joined with none. -/
theorem Inserted.forall_blocks {after : Memory} {now : List Span}
    (inserted : Inserted mem after base blocks p new now) (list : FreeList mem base blocks)
    (inHeap : base < new.addr) (holds : Span → Prop) (old : ∀ b ∈ blocks, holds b)
    (holdsNew : holds new)
    (joins : ∀ s t : Span, holds s → holds t → s.stop = t.addr → holds ⟨s.addr, s.size + t.size⟩) :
    ∀ b ∈ now, holds b := by
  have higher : ∀ {blocks mem}, FreeList mem base blocks → ∀ b ∈ blocks, base < b.addr :=
    fun list b isBlock => ((pairwise_cons.mp list.spaced).1 b isBlock).addr_lt
  have either := inserted.carries (fun s => s = ⟨base, 0⟩ ∨ base < s.addr ∧ holds s)
    (forall_mem_cons.mpr ⟨Or.inl rfl, fun b isBlock => Or.inr ⟨higher list b isBlock, old b isBlock⟩⟩)
    (Or.inr ⟨inHeap, holdsNew⟩) ?_
  · intro b isBlock
    rcases either b (mem_cons_of_mem _ isBlock) with rfl | ⟨-, held⟩
    · exact absurd (higher inserted.list _ isBlock) (Nat.lt_irrefl _)
    · exact held
  · rintro s t (rfl | ⟨above, first⟩) (rfl | ⟨aboveNext, second⟩) touches
    · exact Or.inl rfl
    · exact absurd aboveNext (by rw [← touches]; exact Nat.lt_irrefl _)
    · exact Or.inr ⟨above, first⟩
    · exact Or.inr ⟨above, joins s t first second touches⟩

/-! ## Removal -/

/-- A block and the one whose header leads to it stand next to each other. -/
theorem split_prev (list : FreeList mem base blocks) {prev q : Span}
    (isNode : prev ∈ (⟨base, 0⟩ : Span) :: blocks) (isBlock : q ∈ blocks)
    (leads : (mem prev.addr).ptr = q.addr) :
    ∃ left right, ⟨base, 0⟩ :: blocks = left ++ prev :: q :: right := by
  obtain ⟨left, right, around⟩ := append_of_mem isNode
  have linked := list.linked
  have spaced := list.spaced
  have isNext : first base right = q.addr := by
    rw [around] at linked
    rw [← leads, (linked_append.mp linked).2.1]
  have behindBase := ((pairwise_cons.mp spaced).1 q isBlock).addr_lt
  cases right with
  | nil => exact absurd isNext (Nat.ne_of_lt behindBase)
  | cons t right =>
    have isNodeNext : t ∈ (⟨base, 0⟩ : Span) :: blocks := by
      rw [around]
      simp
    have isNodeBlock := mem_cons_of_mem (⟨base, 0⟩ : Span) isBlock
    have same := Span.eq_of_addr_eq spaced isNodeNext isNodeBlock isNext
    exact ⟨left, right, by rw [around, same]⟩

/-- What the removal of a block, or of its end, makes of the list. -/
structure Carved (mem after : Memory) (base : Nat) (blocks : List Span) (prev taken : Span)
    (now : List Span) : Prop where
  list : FreeList after base now
  place : ∃ s ∈ (⟨base, 0⟩ : Span) :: now, s.addr = prev.addr
  total : Span.total now + taken.size = Span.total blocks
  header : (after taken.addr).size = taken.size
  origin : ∃ b ∈ blocks, taken.Within b
  rest : ∀ s ∈ now, ∃ b ∈ blocks, s.Within b
  apart : ∀ s ∈ now, s.Apart taken
  frame : ∀ addr, (∀ s ∈ (⟨base, 0⟩ : Span) :: blocks, s.addr ≠ addr) → addr ≠ taken.addr →
    after addr = mem addr

section

variable {left right : List Span} {prev q : Span}

/-- The blocks of the list around one that is not the first. -/
theorem blocks_eq (split : s :: blocks = left ++ prev :: q :: right) :
    ∃ front, blocks = front ++ q :: right ∧ left ++ [prev] = s :: front := by
  cases left with
  | nil =>
    obtain ⟨rfl, rfl⟩ := List.cons.inj split
    exact ⟨[], rfl, rfl⟩
  | cons t left =>
    obtain ⟨rfl, rfl⟩ := List.cons.inj split
    exact ⟨left ++ [prev], by simp, rfl⟩

section

variable (list : FreeList mem base blocks)
  (split : ⟨base, 0⟩ :: blocks = left ++ prev :: q :: right)

include list split

/-- A block of the size wanted is taken out. -/
theorem unlink :
    ∃ now, Carved mem (update mem prev.addr ⟨(mem q.addr).ptr, (mem prev.addr).size⟩) base
      blocks prev q now := by
  obtain ⟨front, rfl, isFront⟩ := blocks_eq split
  have linked := list.linked
  have spaced := list.spaced
  rw [split] at linked
  obtain ⟨linkedLeft, linkedPrev, linkedBlock, linkedRight⟩ := linked_append.mp linked
  have nodes : left ++ prev :: right = ⟨base, 0⟩ :: (front ++ right) := by
    rw [← cons_append, ← isFront]
    simp
  have remains : (front ++ right).Sublist (front ++ q :: right) :=
    (sublist_cons_self q right).append_left front
  have spacedNow := spaced.sublist (remains.cons_cons _)
  have around := spacedNow
  rw [← nodes] at around
  obtain ⟨-, spacedBack, across⟩ := pairwise_append.mp around
  obtain ⟨frontSpaced, backSpaced, beside⟩ := pairwise_append.mp (pairwise_cons.mp spaced).2
  have isPrev : prev ∈ (⟨base, 0⟩ : Span) :: (front ++ q :: right) := by
    rw [split]
    simp
  have isBlock : q ∈ front ++ q :: right := by simp
  have order : prev.addr ≠ q.addr := by
    intro same
    rw [split] at spaced
    have before := (pairwise_cons.mp (pairwise_append.mp spaced).2.1).1 q mem_cons_self
    exact Nat.ne_of_lt before.addr_lt same
  refine ⟨front ++ right, ⟨?_, spacedNow, fun b mem => list.some b (remains.subset mem)⟩, ?_, ?_, ?_,
    ⟨q, isBlock, .refl q⟩, fun s mem => ⟨s, remains.subset mem, .refl s⟩, ?_, ?_⟩
  · rw [← nodes]
    refine linked_append.mpr ⟨linkedLeft.congr fun s mem => ?_, ?_, linkedRight.congr fun s mem => ?_⟩
    · exact update_of_ne (Nat.ne_of_lt (across s mem prev mem_cons_self).addr_lt) ..
    · rw [update_self, linkedBlock, linkedPrev]
    · exact update_of_ne
        (Nat.ne_of_gt ((pairwise_cons.mp spacedBack).1 s mem).addr_lt) ..
  · refine ⟨prev, ?_, rfl⟩
    rw [← nodes]
    simp
  · simp only [Span.total_append, Span.total_cons]
    omega
  · rw [update_of_ne order.symm, linkedBlock]
  · intro s mem
    rcases mem_append.mp mem with isLeft | isRight
    · exact (beside s isLeft q mem_cons_self).apart
    · exact ((pairwise_cons.mp backSpaced).1 s isRight).apart.symm
  · intro addr outside _
    exact update_of_ne (outside prev isPrev).symm ..

/-- The end of a larger block is taken. -/
theorem shrink {rest nunits : Nat}
    (isSize : rest + nunits = q.size) (someRest : 0 < rest) (someTaken : 0 < nunits) :
    ∃ now, Carved mem (update
      (update mem q.addr ⟨(mem q.addr).ptr, rest⟩) (q.addr + rest)
        ⟨(mem (q.addr + rest)).ptr, nunits⟩) base blocks prev ⟨q.addr + rest, nunits⟩ now := by
  obtain ⟨front, rfl, isFront⟩ := blocks_eq split
  have linked := list.linked
  have spaced := list.spaced
  rw [← cons_append] at linked spaced
  obtain ⟨linkedFront, linkedBlock, linkedRight⟩ := linked_append.mp linked
  obtain ⟨spacedFront, spacedBack, across⟩ := pairwise_append.mp spaced
  obtain ⟨behind, spacedRight⟩ := pairwise_cons.mp spacedBack
  have isBlock : q ∈ front ++ q :: right := by simp
  have isStop : q.stop = q.addr + rest + nunits := by
    rw [Span.stop]
    omega
  have frontBelow : ∀ s ∈ ⟨base, 0⟩ :: front, s.stop < q.addr :=
    fun s mem => across s mem q mem_cons_self
  have belowAddr : ∀ s ∈ ⟨base, 0⟩ :: front, s.addr < q.addr :=
    fun s mem => (across s mem q mem_cons_self).addr_lt
  have rightAbove : ∀ s ∈ right, q.addr + rest + nunits < s.addr := by
    intro s mem
    rw [← isStop]
    exact behind s mem
  have spacedNow : (⟨base, 0⟩ :: front ++ ⟨q.addr, rest⟩ :: right).Pairwise Span.Before := by
    refine pairwise_append.mpr ⟨spacedFront, pairwise_cons.mpr ⟨?_, spacedRight⟩, ?_⟩
    · intro s mem
      have above := rightAbove s mem
      simp only [Span.Before, Span.stop]
      omega
    · intro s isLeft t isBack
      rcases mem_cons.mp isBack with rfl | isRight
      · exact frontBelow s isLeft
      · exact across s isLeft t (mem_cons_of_mem q isRight)
  have isPart : (⟨q.addr, rest⟩ : Span).Within q := by
    refine ⟨Nat.le_refl _, ?_⟩
    rw [isStop]
    exact Nat.le_add_right ..
  have others : ∀ s ∈ front ++ ⟨q.addr, rest⟩ :: right, s = ⟨q.addr, rest⟩ ∨ s ∈ front ∨ s ∈ right := by
    intro s mem
    simp only [mem_append, mem_cons] at mem
    tauto
  refine ⟨front ++ ⟨q.addr, rest⟩ :: right, ⟨?_, spacedNow, ?_⟩, ?_, ?_, ?_, ⟨q, isBlock, ?_⟩, ?_, ?_, ?_⟩
  · rw [← cons_append]
    refine linked_append.mpr ⟨linkedFront.congr fun s mem => ?_, ?_, linkedRight.congr fun s mem => ?_⟩
    · have below := belowAddr s mem
      rw [update_of_ne (by omega), update_of_ne (by omega)]
    · rw [update_of_ne (by simp only; omega), update_self, linkedBlock]
    · have above := rightAbove s mem
      rw [update_of_ne (by omega), update_of_ne (by omega)]
  · intro s mem
    rcases others s mem with rfl | isLeft | isRight
    · exact someRest
    · exact list.some s (by simp [isLeft])
    · exact list.some s (by simp [isRight])
  · have isPrev : prev ∈ (⟨base, 0⟩ : Span) :: front := by
      rw [← isFront]
      simp
    exact ⟨prev, by rw [← cons_append]; exact mem_append_left _ isPrev, rfl⟩
  · simp only [Span.total_append, Span.total_cons]
    omega
  · rw [update_self]
  · refine ⟨Nat.le_add_right .., ?_⟩
    rw [isStop]
    exact Nat.le_refl _
  · intro s mem
    rcases others s mem with rfl | isLeft | isRight
    · exact ⟨q, isBlock, isPart⟩
    · exact ⟨s, by simp [isLeft], .refl s⟩
    · exact ⟨s, by simp [isRight], .refl s⟩
  · intro s mem
    rcases others s mem with rfl | isLeft | isRight
    · exact Or.inl (Nat.le_refl _)
    · have below := frontBelow s (mem_cons_of_mem _ isLeft)
      exact Or.inl (by simp only; omega)
    · exact Or.inr (Nat.le_of_lt (rightAbove s isRight))
  · intro addr outside notTaken
    rw [update_of_ne notTaken, update_of_ne]
    exact (outside q (mem_cons_of_mem _ isBlock)).symm

end

end

end FreeList

end Xv6.Umalloc
