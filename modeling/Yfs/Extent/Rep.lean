import Mathlib.Data.List.Nodup
import Yfs.Extent.Server

/-!
# When a disk holds given files

`Rep d σ` says that the disk `d` holds the files of `σ`: every file's inode and blocks are as they
should be, no block belongs to two files, and the bitmap marks exactly the blocks that formatting
has reserved and those that belong to a file.

What belongs to an inode is computed from the disk (`Inode.owned`), in the way in which the code
that frees a file's blocks does it.  It depends on the inode and, for a long file, on the indirect
block, so a call that touches neither leaves it alone; `Rep.set` is the resulting rule for all the
calls that change a single file.
-/

set_option autoImplicit false

namespace Yfs
namespace Extent

/-! ## Contents -/

/-- The contents of some blocks, one after the other. -/
def Disk.flat (d : Disk) (bs : List Nat) : List UInt8 := bs.flatMap fun b ↦ (d b).toList

namespace Disk

variable (d : Disk)

@[simp] theorem flat_nil : d.flat [] = [] := rfl

@[simp] theorem flat_cons (b : Nat) (bs : List Nat) :
    d.flat (b :: bs) = (d b).toList ++ d.flat bs :=
  List.flatMap_cons

@[simp] theorem flat_append (bs cs : List Nat) : d.flat (bs ++ cs) = d.flat bs ++ d.flat cs :=
  List.flatMap_append

@[simp] theorem length_flat (bs : List Nat) : (d.flat bs).length = 512 * bs.length := by
  induction bs with
  | nil => rfl
  | cons b bs ih =>
    rw [flat_cons, List.length_append, ih, Vector.length_toList, List.length_cons]
    simp only [blockSize]
    omega

/-- The blocks behind the first `n` do not matter for the first `512 * n` bytes. -/
theorem take_flat_take {n size : Nat} (bs : List Nat) (h : size ≤ 512 * n) :
    (d.flat (bs.take n)).take size = (d.flat bs).take size := by
  by_cases hn : n ≤ bs.length
  · conv_rhs => rw [← List.take_append_drop n bs, flat_append]
    rw [List.take_append_of_le_length]
    rw [length_flat, List.length_take]
    omega
  · rw [List.take_of_length_le (l := bs) (by omega)]

/-- Where the first byte of a block is. -/
theorem getElem?_flat {bs : List Nat} {k b : Nat} (h : bs[k]? = some b) :
    (d.flat bs)[512 * k]? = some ((d b).byte 0) := by
  induction bs generalizing k with
  | nil => exact absurd h (by simp)
  | cons c bs ih =>
    have hlen : (d c).toList.length = 512 := Vector.length_toList ..
    rw [flat_cons]
    cases k with
    | zero =>
      obtain rfl : c = b := by simpa using h
      rw [Nat.mul_zero, List.getElem?_append_left (by omega), List.getElem?_eq_getElem (by omega),
        Block.getElem_toList]
    | succ k =>
      rw [List.getElem?_cons_succ] at h
      rw [List.getElem?_append_right (by omega), hlen, ← ih h,
        show 512 * (k + 1) - 512 = 512 * k by omega]

theorem flat_congr {d d' : Disk} {bs : List Nat} (h : ∀ b ∈ bs, d' b = d b) :
    d'.flat bs = d.flat bs := by
  induction bs with
  | nil => rfl
  | cons b bs ih =>
    rw [flat_cons, flat_cons, h b List.mem_cons_self,
      ih fun x hx ↦ h x (List.mem_cons_of_mem _ hx)]

/-- Inode `i`. -/
def inode (i : Nat) : Inode := Inode.read (d (iblock i))

end Disk

namespace Inode

variable (ino : Inode) (d : Disk)

/-- The direct blocks in use. -/
def direct : List Nat := ino.blocks.toList.take (min (Extent.blocks ino.size) ndirect)

/-- The blocks behind the indirect block that are in use. -/
def table : List Nat :=
  if Extent.blocks ino.size > ndirect then
    (d (ino.block ndirect)).words.take (Extent.blocks ino.size - ndirect)
  else []

/-- The indirect block, if there is one, and the blocks behind it. -/
def indirect : List Nat :=
  if Extent.blocks ino.size > ndirect then ino.block ndirect :: ino.table d else []

/-- All the blocks that belong to the inode. -/
def owned : List Nat := ino.direct ++ ino.indirect d

/-- The bytes of the file. -/
def contents : List UInt8 := (d.flat (ino.direct ++ ino.table d)).take ino.size

variable {ino d}

/-- What belongs to an inode is a matter of its size and its block numbers. -/
theorem owned_eq {ino' : Inode} (hsize : ino'.size = ino.size)
    (hblocks : ino'.blocks = ino.blocks) :
    ino'.owned d = ino.owned d ∧ ino'.contents d = ino.contents d := by
  simp only [owned, contents, direct, indirect, table, block, hsize, hblocks, and_self]

theorem mem_owned_of_mem {b : Nat} (h : b ∈ ino.direct ++ ino.table d) : b ∈ ino.owned d := by
  rw [List.mem_append] at h
  rw [owned, List.mem_append]
  rcases h with h | h
  · exact Or.inl h
  · rw [table] at h
    split at h
    · rename_i hn
      rw [indirect, if_pos hn]
      refine Or.inr (List.mem_cons_of_mem _ ?_)
      rwa [table, if_pos hn]
    · exact absurd h (by simp)

/-- The table is what stands in the indirect block. -/
theorem table_congr {d' : Disk}
    (h : Extent.blocks ino.size > ndirect → d' (ino.block ndirect) = d (ino.block ndirect)) :
    ino.table d' = ino.table d := by
  simp only [table]
  split
  · rename_i hn
    rw [h hn]
  · rfl

theorem indirect_eq_of_table {d' : Disk} (h : ino.table d' = ino.table d) :
    ino.indirect d' = ino.indirect d := by
  rw [indirect, indirect, h]

theorem block_mem_owned (h : Extent.blocks ino.size > ndirect) :
    ino.block ndirect ∈ ino.owned d := by
  rw [owned, indirect, if_pos h]
  exact List.mem_append_right _ List.mem_cons_self

/-- Nobody's blocks are touched, so nothing changes. -/
theorem owned_congr {d' : Disk} (h : ∀ b ∈ ino.owned d, d' b = d b) :
    ino.owned d' = ino.owned d ∧ ino.contents d' = ino.contents d := by
  have htable : ino.table d' = ino.table d := table_congr fun hn ↦ h _ (block_mem_owned hn)
  refine ⟨by rw [owned, owned, indirect_eq_of_table htable], ?_⟩
  rw [contents, contents, htable, Disk.flat_congr fun b hb ↦ h b (mem_owned_of_mem hb)]

/-- Contents in two parts: the direct blocks have the first 16384 bytes, the table has the rest. -/
theorem contents_of_parts {buf : List UInt8} (hsize : ino.size = buf.length)
    (hmore : 16384 < buf.length) (hdirect : d.flat ino.direct = buf.take 16384)
    (htable : (d.flat (ino.table d)).take (buf.length - 16384) = buf.drop 16384) :
    ino.contents d = buf := by
  have hlen : (buf.take 16384).length = 16384 := by
    rw [List.length_take]
    omega
  rw [contents, Disk.flat_append, hdirect, hsize, List.take_append,
    List.take_of_length_le (by omega), hlen, htable, List.take_append_drop]

/-- How many blocks there are contents in. -/
theorem length_direct_append_table (hsize : ino.size ≤ 81920) :
    (ino.direct ++ ino.table d).length = (ino.size + 511) / 512 := by
  rw [List.length_append, direct, table, List.length_take, Vector.length_toList, blocks_of_le hsize]
  simp only [ndirect]
  split
  · rw [List.length_take, Block.length_words]
    omega
  · rw [List.length_nil]
    omega

theorem length_contents (hsize : ino.size ≤ 81920) : (ino.contents d).length = ino.size := by
  rw [contents, List.length_take, Disk.length_flat, length_direct_append_table hsize]
  omega

/-- How many blocks belong to an inode. -/
theorem length_owned (hsize : ino.size ≤ 81920) : (ino.owned d).length = cost ino.size := by
  have hlen := length_direct_append_table (d := d) hsize
  rw [← blocks_of_le hsize, List.length_append] at hlen
  rw [owned, List.length_append, indirect, cost]
  split
  · rw [List.length_cons]
    omega
  · rename_i hn
    rw [table, if_neg hn] at hlen
    exact hlen

/-- An empty file has no blocks. -/
theorem owned_of_size_zero (h : ino.size = 0) : ino.owned d = [] ∧ ino.contents d = [] := by
  have : Extent.blocks 0 = 0 := rfl
  simp [owned, contents, direct, indirect, table, h, this]

end Inode

/-! ## Representation -/

theorem type_bounds {type : Nat} (h : type ∈ [tDir, tFile, tSymlink]) : 1 ≤ type ∧ type ≤ 3 := by
  simp only [List.mem_cons, List.not_mem_nil, or_false] at h
  rcases h with rfl | rfl | rfl <;> decide

/-- Inode `i` of the disk is the file `f`. -/
structure FileOk (d : Disk) (i : Nat) (f : File) : Prop where
  type : (d.inode i).type = f.type
  kind : f.type ∈ [tDir, tFile, tSymlink]
  size : (d.inode i).size = f.data.length
  small : f.data.length ≤ 81920
  contents : (d.inode i).contents d = f.data
  nodup : ((d.inode i).owned d).Nodup
  /-- The blocks of a file are data blocks. -/
  data : ∀ b ∈ (d.inode i).owned d, 1034 ≤ b ∧ b < blockNum

/-- The disk holds the files of the store. -/
structure Rep (d : Disk) (σ : Store) : Prop where
  inum : ∀ i f, σ i = some f → 1 ≤ i ∧ i ≤ 1022
  /-- An inode that is not in use says so, and has no contents left over. -/
  free : ∀ i, 1 ≤ i → i ≤ 1022 → σ i = none → (d.inode i).type = 0 ∧ (d.inode i).size = 0
  file : ∀ i f, σ i = some f → FileOk d i f
  /-- No block belongs to two files. -/
  disjoint : ∀ i j f g, σ i = some f → σ j = some g → i ≠ j →
    ((d.inode i).owned d).Disjoint ((d.inode j).owned d)
  /-- The bitmap is exact. -/
  used : ∀ b, b < blockNum →
    (d.used b = true ↔ b < 1034 ∨ ∃ i f, σ i = some f ∧ b ∈ (d.inode i).owned d)

/-- A file does not notice what happens elsewhere on the disk. -/
theorem FileOk.congr {d d' : Disk} {i : Nat} {f : File} (h : FileOk d i f)
    (hinode : d' (iblock i) = d (iblock i)) (hown : ∀ b ∈ (d.inode i).owned d, d' b = d b) :
    FileOk d' i f ∧ (d'.inode i).owned d' = (d.inode i).owned d := by
  have hino : d'.inode i = d.inode i := by rw [Disk.inode, hinode, Disk.inode]
  obtain ⟨h₁, h₂⟩ := Inode.owned_congr hown
  refine ⟨⟨?_, h.kind, ?_, h.small, ?_, ?_, ?_⟩, by rw [hino, h₁]⟩
  · rw [hino, h.type]
  · rw [hino, h.size]
  · rw [hino, h₂, h.contents]
  · rw [hino, h₁]; exact h.nodup
  · rw [hino, h₁]; exact h.data

namespace Rep

variable {d d' : Disk} {σ : Store} {i : Nat}

theorem iblock_lt (hi : i ≤ 1022) : iblock i < 1034 := by
  rw [iblock_eq]
  omega

/-- **One file changes.**  The call has made inode `i` into `v`, with the blocks `own`; it has
written to nothing but that inode, those blocks and the bitmap; and it has marked those blocks,
having unmarked the ones the file had before. -/
theorem set (h : Rep d σ) (hi : 1 ≤ i ∧ i ≤ 1022) {v : Option File} {own : List Nat}
    (hv : (∃ f, v = some f ∧ FileOk d' i f ∧ (d'.inode i).owned d' = own) ∨
      (v = none ∧ (d'.inode i).type = 0 ∧ (d'.inode i).size = 0 ∧ own = []))
    (hother : ∀ x, (x < 2 ∨ 10 ≤ x) → x ≠ iblock i → x ∉ own → d' x = d x)
    (hnew : ∀ b ∈ own, ∀ j g, σ j = some g → j ≠ i → b ∉ (d.inode j).owned d)
    (hused : ∀ b, b < blockNum → (d'.used b = true ↔ b < 1034 ∨ b ∈ own ∨
      ∃ j g, j ≠ i ∧ σ j = some g ∧ b ∈ (d.inode j).owned d)) :
    Rep d' (Function.update σ i v) := by
  have hdata : ∀ b ∈ own, 1034 ≤ b := by
    rcases hv with ⟨f, -, hf, rfl⟩ | ⟨-, -, -, rfl⟩
    · exact fun b hb ↦ (hf.data b hb).1
    · simp
  -- the inode blocks of the other files
  have hinode : ∀ j, j ≤ 1022 → j ≠ i → d' (iblock j) = d (iblock j) := by
    intro j hj hne
    have hlt := iblock_lt hj
    refine hother _ (Or.inr ?_) ?_ fun hm ↦ ?_
    · rw [iblock_eq]; omega
    · rw [iblock_eq, iblock_eq]; omega
    · have := hdata _ hm; omega
  have hfile : ∀ j g, σ j = some g → j ≠ i →
      FileOk d' j g ∧ (d'.inode j).owned d' = (d.inode j).owned d := by
    intro j g hj hne
    refine (h.file j g hj).congr (hinode j (h.inum j g hj).2 hne) fun b hb ↦ ?_
    have hb' := ((h.file j g hj).data b hb).1
    have hlt := iblock_lt hi.2
    exact hother b (Or.inr (by omega)) (by omega) fun hm ↦ hnew b hm j g hj hne hb
  have hset : ∀ j g, Function.update σ i v j = some g →
      (j = i ∧ v = some g ∧ FileOk d' j g ∧ (d'.inode j).owned d' = own) ∨
      (j ≠ i ∧ σ j = some g ∧ FileOk d' j g ∧ (d'.inode j).owned d' = (d.inode j).owned d) := by
    intro j g hj
    by_cases e : j = i
    · subst e
      rw [Function.update_self] at hj
      rcases hv with ⟨f, hf, hok, hown⟩ | ⟨hnone, -⟩
      · obtain rfl : f = g := Option.some_inj.1 (hf.symm.trans hj)
        exact Or.inl ⟨rfl, hj, hok, hown⟩
      · exact absurd (hj.symm.trans hnone) (by simp)
    · rw [Function.update_of_ne e] at hj
      exact Or.inr ⟨e, hj, hfile j g hj e⟩
  refine ⟨?_, ?_, ?_, ?_, ?_⟩
  · intro j g hj
    rcases hset j g hj with ⟨rfl, -⟩ | ⟨-, hj', -⟩
    · exact hi
    · exact h.inum j g hj'
  · intro j h₁ h₂ hj
    by_cases e : j = i
    · subst e
      rw [Function.update_self] at hj
      rcases hv with ⟨f, hf, -⟩ | ⟨-, ht, hs, -⟩
      · exact absurd (hf.symm.trans hj) (by simp)
      · exact ⟨ht, hs⟩
    · rw [Function.update_of_ne e] at hj
      rw [Disk.inode, hinode j h₂ e]
      exact h.free j h₁ h₂ hj
  · intro j g hj
    rcases hset j g hj with ⟨-, -, hok, -⟩ | ⟨-, -, hok, -⟩ <;> exact hok
  · intro j k f g hj hk hne
    rcases hset j f hj with ⟨rfl, -, -, ho⟩ | ⟨hji, hj', -, ho⟩ <;>
      rcases hset k g hk with ⟨rfl, -, -, ho'⟩ | ⟨hki, hk', -, ho'⟩
    · exact absurd rfl hne
    · rw [ho, ho']
      exact fun b hb ↦ hnew b hb k g hk' hki
    · rw [ho, ho']
      exact fun b hb hb' ↦ hnew b hb' j f hj' hji hb
    · rw [ho, ho']
      exact h.disjoint j k f g hj' hk' hne
  · intro b hb
    rw [hused b hb]
    refine or_congr_right ⟨?_, ?_⟩
    · rintro (hm | ⟨j, g, hne, hj, hm⟩)
      · rcases hv with ⟨f, hf, -, ho⟩ | ⟨-, -, -, rfl⟩
        · exact ⟨i, f, by rw [Function.update_self, hf], by rwa [ho]⟩
        · exact absurd hm (by simp)
      · exact ⟨j, g, by rwa [Function.update_of_ne hne], by rwa [(hfile j g hj hne).2]⟩
    · rintro ⟨j, g, hj, hm⟩
      rcases hset j g hj with ⟨rfl, -, -, ho⟩ | ⟨hne, hj', -, ho⟩
      · exact Or.inl (by rwa [ho] at hm)
      · exact Or.inr ⟨j, g, hne, hj', by rwa [ho] at hm⟩

end Rep

end Extent
end Yfs
