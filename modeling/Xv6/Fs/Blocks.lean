import Xv6.Fs.Model

/-!
# The blocks of a file

A file is backed when a block is allocated for every byte below its size. `writei` keeps
files backed, and changes the inode in memory only when it also writes it to the disk.
-/

namespace Xv6.Fs

variable {bn off n : Nat}

section Bmap

variable (balloc : Supply) {addrs : Fin (ndirect + 1) → Nat} {k : Fin (ndirect + 1)}
  {wanted : List Nat}

/-- `bmap` leaves the blocks that are there. -/
theorem bmap_of_ne (there : addrs k ≠ 0) (bn : Nat) : bmap balloc addrs bn k = addrs k := by
  rw [bmap]
  split
  · rename_i missing
    refine Function.update_of_ne ?_ _ _
    rintro rfl
    exact there missing
  · rfl

/-- After `bmap` the block is there. -/
theorem bmap_self (addrs : Fin (ndirect + 1) → Nat) (bn : Nat) :
    bmap balloc addrs bn (slot bn) ≠ 0 := by
  rw [bmap]
  split
  · rw [Function.update_self]
    exact (balloc (slot bn)).ne_zero
  · assumption

theorem foldl_bmap_of_ne (wanted : List Nat) :
    ∀ {addrs : Fin (ndirect + 1) → Nat}, addrs k ≠ 0 →
      wanted.foldl (bmap balloc) addrs k = addrs k := by
  induction wanted with
  | nil =>
    intro addrs _
    rfl
  | cons bn rest ih =>
    intro addrs there
    have kept := bmap_of_ne balloc there bn
    rw [List.foldl_cons, ih (by rwa [kept]), kept]

/-- After the loop the blocks it went through are there. -/
theorem foldl_bmap_mem :
    ∀ {addrs : Fin (ndirect + 1) → Nat}, bn ∈ wanted →
      wanted.foldl (bmap balloc) addrs (slot bn) ≠ 0 := by
  induction wanted with
  | nil => rintro _ ⟨⟩
  | cons first rest ih =>
    intro addrs mem
    rw [List.foldl_cons]
    rcases List.mem_cons.mp mem with rfl | later
    · have there := bmap_self balloc addrs bn
      rwa [foldl_bmap_of_ne balloc rest there]
    · exact ih later

/-- When all blocks are there, the loop allocates none. -/
theorem foldl_bmap_eq (there : ∀ bn ∈ wanted, addrs (slot bn) ≠ 0) :
    wanted.foldl (bmap balloc) addrs = addrs := by
  induction wanted with
  | nil => rfl
  | cons bn rest ih =>
    have first : bmap balloc addrs bn = addrs := by
      rw [bmap, if_neg (there bn (by simp))]
    rw [List.foldl_cons, first]
    exact ih fun other mem => there other (by simp [mem])

end Bmap

/-- A block is allocated for every byte below the size. -/
def Dinode.Backed (node : Dinode) : Prop := ∀ bn, bn * bsize < node.size → node.addrs (slot bn) ≠ 0

theorem Dinode.fresh_backed (type : FileType) : (Dinode.fresh type).Backed :=
  fun _ below => absurd below (Nat.not_lt_zero _)

/-- The blocks of a range of bytes. -/
theorem mem_blocks (some : n ≠ 0) :
    bn ∈ blocks off n ↔ off / bsize ≤ bn ∧ bn * bsize < off + n := by
  have order : off / bsize ≤ (off + n - 1) / bsize := Nat.div_le_div_right (by omega)
  rw [blocks, if_neg some, List.mem_range'_1]
  simp only [bsize_eq] at order ⊢
  omega

/-- What `writei` does to the inode of a backed file. -/
theorem Dinode.Backed.writei {node : Dinode} (backed : node.Backed) {balloc : Supply}
    {written : Dinode × Bool} (wrote : node.writei balloc off n = some written) :
    written.1.Backed ∧ written.1.type = node.type ∧ written.1.nlink = node.nlink ∧
      written.1.size = (if 0 < n then max node.size (off + n) else node.size) ∧
      (written.2 = false → written.1 = node) := by
  rw [Dinode.writei] at wrote
  split at wrote
  · cases wrote
  · rename_i inside
    obtain ⟨reached, -⟩ := not_or.mp inside
    split at wrote
    · cases wrote
    · dsimp only at wrote
      split at wrote
      · rename_i grows
        cases wrote
        refine ⟨fun bn below => ?_, rfl, rfl, ?_, by rintro ⟨⟩⟩
        · by_cases old : bn * bsize < node.size
          · have kept := foldl_bmap_of_ne balloc (blocks off n) (backed bn old)
            exact fun zero => backed bn old (kept.symm.trans zero)
          · refine foldl_bmap_mem balloc ((mem_blocks (by omega)).mpr ⟨?_, below⟩)
            simp only [bsize_eq] at old ⊢
            omega
        · rw [if_pos grows.1]
          show off + n = _
          omega
      · rename_i fits
        cases wrote
        have same : (blocks off n).foldl (bmap balloc) node.addrs = node.addrs := by
          refine foldl_bmap_eq balloc fun bn mem => ?_
          by_cases none : n = 0
          · rw [blocks, if_pos none] at mem
            cases mem
          · have place := (mem_blocks none).mp mem
            exact backed bn (by omega)
        have whole : { node with addrs := (blocks off n).foldl (bmap balloc) node.addrs } = node := by
          rw [same]
        rw [whole]
        refine ⟨backed, rfl, rfl, ?_, fun _ => rfl⟩
        show node.size = _
        split
        · omega
        · rfl

end Xv6.Fs
