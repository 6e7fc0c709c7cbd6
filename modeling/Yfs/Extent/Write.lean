import Mathlib.Algebra.Order.BigOperators.Group.Finset
import Yfs.Extent.Read

/-!
# Writing and removing

`write_file` frees all the blocks of the file, allocates as many as the new contents need, and
writes them; `remove_file` only frees.  Both are taken apart into their loops.  Freeing and
allocating are about the bitmap, with the rest of the disk the same afterwards (`Disk.SameData`);
writing is about the rest of the disk.

That `alloc_block` finds a free block every time is a matter of counting: the blocks in use are the
reserved ones and those of the other files, so as many are free as the capacity of the disk exceeds
their number (`Rep.room`).
-/

set_option autoImplicit false

namespace Yfs
namespace Extent

open Machine

variable {d d' d₁ d₂ : Disk} {σ : Store} {i : Nat} (env : Env)

/-! ## Freeing -/

theorem exec_freeBlocks (bs : List Nat) (hbs : ∀ b ∈ bs, 1034 ≤ b ∧ b < blockNum) :
    ∃ d', exec (freeBlocks bs) d = .ok ((), d') ∧ Disk.SameData d d' ∧
      ∀ b, b < blockNum → (d'.used b = true ↔ d.used b = true ∧ b ∉ bs) := by
  induction bs generalizing d with
  | nil => exact ⟨d, rfl, .refl d, by simp⟩
  | cons b bs ih =>
    have hb := hbs b List.mem_cons_self
    obtain ⟨d', he, hsame, hused⟩ := ih (d := d.setFree b) fun x hx ↦
      hbs x (List.mem_cons_of_mem _ hx)
    refine ⟨d', ?_, (Disk.sameData_setFree d hb.2).trans hsame, fun x hx ↦ ?_⟩
    · rw [freeBlocks, exec_bind (exec_freeBlock d (by omega) hb.2), he]
    · rw [hused x hx, Disk.used_setFree, Bool.and_eq_true, Bool.not_eq_true',
        decide_eq_false_iff_not, List.mem_cons, not_or]
      exact ⟨fun ⟨⟨h₁, h₂⟩, h₃⟩ ↦ ⟨h₂, h₁, h₃⟩, fun ⟨h₂, h₁, h₃⟩ ↦ ⟨⟨h₁, h₂⟩, h₃⟩⟩

/-- The indirect table is not in the bitmap. -/
theorem Inode.indirect_congr {ino : Inode} (h : Disk.SameData d d')
    (hown : ∀ b ∈ ino.owned d, 1034 ≤ b) : ino.indirect d' = ino.indirect d := by
  refine indirect_eq_of_table (table_congr fun hn ↦ ?_)
  have := hown _ (block_mem_owned hn)
  rw [h _ (Or.inr (by omega))]

theorem exec_freeIndirect (ino : Inode) (hsize : ino.size ≤ 81920)
    (hbs : ∀ b ∈ ino.indirect d, 1034 ≤ b ∧ b < blockNum) :
    ∃ d', exec (freeIndirect env ino) d = .ok ((), d') ∧ Disk.SameData d d' ∧
      ∀ b, b < blockNum → (d'.used b = true ↔ d.used b = true ∧ b ∉ ino.indirect d) := by
  have hblocks := blocks_of_le hsize
  rw [freeIndirect, Inode.indirect]
  rw [Inode.indirect] at hbs
  split
  · rename_i hn
    rw [if_pos hn] at hbs
    have hind := hbs _ List.mem_cons_self
    obtain ⟨d₁, he₁, hsame₁, hused₁⟩ := exec_freeBlocks (d := d) (ino.table d) fun b hb ↦
      hbs b (List.mem_cons_of_mem _ hb)
    rw [Inode.table, if_pos hn] at he₁
    refine ⟨d₁.setFree (ino.block ndirect), ?_, hsame₁.trans (Disk.sameData_setFree d₁ hind.2),
      fun x hx ↦ ?_⟩
    · rw [exec_bind (exec_readBlock hind.2 _), exec_bind he₁,
        if_neg (by rw [hblocks, nindirect_eq]; simp only [ndirect]; omega),
        exec_freeBlock d₁ (by omega) hind.2]
    · rw [Disk.used_setFree, Bool.and_eq_true, Bool.not_eq_true', decide_eq_false_iff_not,
        hused₁ x hx, List.mem_cons, not_or]
      exact and_left_comm
  · exact ⟨d, rfl, .refl d, by simp⟩

/-! ## Allocating -/

/-- The free blocks. -/
def Disk.freeSet (d : Disk) : Finset Nat := (Finset.range blockNum).filter fun b ↦ d.used b = false

/-- Some free blocks have been taken, and nothing else has happened. -/
structure Allocated (d : Disk) (bs : List Nat) (d' : Disk) : Prop where
  nodup : bs.Nodup
  fresh : ∀ b ∈ bs, b < blockNum ∧ d.used b = false
  same : Disk.SameData d d'
  used : ∀ b, b < blockNum → (d'.used b = true ↔ d.used b = true ∨ b ∈ bs)

namespace Allocated

theorem nil (d : Disk) : Allocated d [] d := ⟨List.nodup_nil, by simp, .refl d, by simp⟩

theorem append {bs cs : List Nat} (h₁ : Allocated d bs d₁) (h₂ : Allocated d₁ cs d₂) :
    Allocated d (bs ++ cs) d₂ := by
  have hfresh : ∀ b ∈ cs, d.used b = false ∧ b ∉ bs := by
    intro b hb
    obtain ⟨hlt, hf⟩ := h₂.fresh b hb
    have := h₁.used b hlt
    rw [hf] at this
    simp only [Bool.false_eq_true, false_iff, not_or, Bool.not_eq_true] at this
    exact this
  refine ⟨?_, ?_, h₁.same.trans h₂.same, fun b hb ↦ ?_⟩
  · rw [List.nodup_append]
    refine ⟨h₁.nodup, h₂.nodup, ?_⟩
    rintro a ha b hb rfl
    exact (hfresh a hb).2 ha
  · intro b hb
    rcases List.mem_append.1 hb with hb | hb
    · exact h₁.fresh b hb
    · exact ⟨(h₂.fresh b hb).1, (hfresh b hb).1⟩
  · rw [h₂.used b hb, h₁.used b hb, List.mem_append, or_assoc]

/-- Taken blocks are no longer free. -/
theorem card_freeSet {bs : List Nat} (h : Allocated d bs d') :
    d'.freeSet.card + bs.length = d.freeSet.card := by
  have hsub : bs.toFinset ⊆ d.freeSet := by
    intro b hb
    have := h.fresh b (List.mem_toFinset.1 hb)
    simpa [Disk.freeSet] using this
  have hset : d'.freeSet = d.freeSet \ bs.toFinset := by
    ext b
    simp only [Disk.freeSet, Finset.mem_filter, Finset.mem_range, Finset.mem_sdiff,
      List.mem_toFinset, ← Bool.not_eq_true]
    constructor
    · rintro ⟨hb, hu⟩
      rw [h.used b hb, not_or] at hu
      exact ⟨⟨hb, hu.1⟩, hu.2⟩
    · rintro ⟨⟨hb, hu⟩, hm⟩
      rw [h.used b hb, not_or]
      exact ⟨hb, hu, hm⟩
  rw [hset, ← List.toFinset_card_of_nodup h.nodup]
  exact Finset.card_sdiff_add_card_eq_card hsub

end Allocated

theorem exec_allocBlock (h : 1 ≤ d.freeSet.card) :
    ∃ b d', exec allocBlock d = .ok (b, d') ∧ Allocated d [b] d' := by
  rcases alloc_cases d with ⟨b, hb, hfree, -, he⟩ | ⟨hall, -⟩
  · refine ⟨b, _, he, List.nodup_singleton b, ?_, Disk.sameData_setUsed d hb, fun x hx ↦ ?_⟩
    · rintro x hx
      obtain rfl := List.mem_singleton.1 hx
      exact ⟨hb, hfree⟩
    · rw [Disk.used_setUsed, Bool.or_eq_true, decide_eq_true_iff, List.mem_singleton, or_comm]
  · obtain ⟨b, hb⟩ := Finset.card_pos.1 h
    simp only [Disk.freeSet, Finset.mem_filter, Finset.mem_range] at hb
    exact absurd (hall b hb.1) (by simp [hb.2])

theorem exec_allocBlocks {n : Nat} (h : n ≤ d.freeSet.card) :
    ∃ bs d', exec (allocBlocks n) d = .ok (bs, d') ∧ bs.length = n ∧ Allocated d bs d' := by
  induction n generalizing d with
  | zero => exact ⟨[], d, rfl, rfl, .nil d⟩
  | succ n ih =>
    obtain ⟨b, d₁, he₁, ha₁⟩ := exec_allocBlock (d := d) (by omega)
    have hcard := ha₁.card_freeSet
    rw [List.length_singleton] at hcard
    obtain ⟨bs, d₂, he₂, hlen, ha₂⟩ := ih (d := d₁) (by omega)
    refine ⟨b :: bs, d₂, ?_, by rw [List.length_cons, hlen], ha₁.append ha₂⟩
    rw [allocBlocks, exec_bind he₁, exec_bind he₂, exec_pure]

/-- **There is room.**  When the blocks of file `i` have been freed, the blocks in use are the
reserved ones and those of the other files. -/
theorem Rep.room (h : Rep d σ)
    (hfreed : ∀ b, b < blockNum → (d'.used b = true ↔ b < 1034 ∨
      ∃ j g, j ≠ i ∧ σ j = some g ∧ b ∈ (d.inode j).owned d)) :
    d'.freeSet.card + ∑ j ∈ (Finset.Icc 1 1022).erase i, σ.costAt j = Store.capacity := by
  let U : Finset Nat := (Finset.range blockNum).filter fun b ↦ d'.used b = true
  let own : Nat → Finset Nat := fun j ↦
    if (σ j).isSome then ((d.inode j).owned d).toFinset else ∅
  have mem_own : ∀ {j b}, b ∈ own j ↔ ∃ g, σ j = some g ∧ b ∈ (d.inode j).owned d := by
    intro j b
    simp only [own]
    cases hσ : σ j <;> simp
  let O : Finset Nat := ((Finset.Icc 1 1022).erase i).biUnion own
  have mem_O : ∀ {b}, b ∈ O ↔ ∃ j g, j ≠ i ∧ σ j = some g ∧ b ∈ (d.inode j).owned d := by
    intro b
    simp only [O, Finset.mem_biUnion, mem_own, Finset.mem_erase]
    constructor
    · rintro ⟨j, ⟨hji, -⟩, g, hg, hm⟩
      exact ⟨j, g, hji, hg, hm⟩
    · rintro ⟨j, g, hji, hg, hm⟩
      exact ⟨j, ⟨hji, Finset.mem_Icc.2 (h.inum j g hg)⟩, g, hg, hm⟩
  have hU : U = Finset.range 1034 ∪ O := by
    ext b
    simp only [U, Finset.mem_filter, Finset.mem_range, Finset.mem_union, mem_O]
    refine ⟨fun hb ↦ (hfreed b hb.1).1 hb.2, fun hb ↦ ?_⟩
    have hlt : b < blockNum := by
      rcases hb with hb | ⟨j, g, -, hg, hm⟩
      · exact hb.trans (by decide)
      · exact ((h.file j g hg).data b hm).2
    exact ⟨hlt, (hfreed b hlt).2 hb⟩
  have hO : O.card = ∑ j ∈ (Finset.Icc 1 1022).erase i, σ.costAt j := by
    rw [Finset.card_biUnion]
    · refine Finset.sum_congr rfl fun j _ ↦ ?_
      simp only [own]
      cases hσ : σ j with
      | none => simp [Store.costAt, hσ]
      | some g =>
        have hok := h.file j g hσ
        rw [Option.isSome_some, if_pos rfl, Store.costAt, hσ, Option.map_some, Option.getD_some,
          List.toFinset_card_of_nodup hok.nodup, ← hok.size,
          Inode.length_owned (hok.size ▸ hok.small)]
    · intro j _ k _ hjk
      refine Finset.disjoint_left.2 fun b hb hb' ↦ ?_
      obtain ⟨g, hg, hm⟩ := mem_own.1 hb
      obtain ⟨g', hg', hm'⟩ := mem_own.1 hb'
      exact h.disjoint j k g g' hg hg' hjk hm hm'
  have hcard : U.card = 1034 + O.card := by
    rw [hU, Finset.card_union_of_disjoint, Finset.card_range]
    refine Finset.disjoint_left.2 fun b hb hb' ↦ ?_
    obtain ⟨j, g, -, hg, hm⟩ := mem_O.1 hb'
    have := ((h.file j g hg).data b hm).1
    have := Finset.mem_range.1 hb
    omega
  have hsplit : U.card + d'.freeSet.card = blockNum := by
    have := Finset.card_filter_add_card_filter_not (s := Finset.range blockNum)
      fun b ↦ d'.used b = true
    simpa [U, Disk.freeSet] using this
  simp only [Store.capacity]
  omega

/-- The load of the disk after file `i` has been given new contents. -/
theorem Store.load_update {f : File} (hi : 1 ≤ i ∧ i ≤ 1022) :
    load (Function.update σ i (some f))
      = cost f.data.length + ∑ j ∈ (Finset.Icc 1 1022).erase i, σ.costAt j := by
  rw [load, ← Finset.add_sum_erase _ _ (Finset.mem_Icc.2 hi)]
  congr 1
  · simp [costAt]
  · refine Finset.sum_congr rfl fun j hj ↦ ?_
    rw [costAt, Function.update_of_ne (Finset.ne_of_mem_erase hj), costAt]

/-! ## The new blocks of an inode -/

namespace Inode

theorem take_setDirect (ino : Inode) (bs : List Nat) (h : bs.length ≤ 33) :
    (ino.setDirect bs).blocks.toList.take bs.length = bs := by
  refine List.ext_getElem ?_ fun k h₁ h₂ ↦ ?_
  · rw [List.length_take, Vector.length_toList]
    exact Nat.min_eq_left h
  · rw [List.getElem_take, Vector.getElem_toList]
    simp [setDirect, List.getElem?_eq_getElem h₂]

theorem block_setDirect_lt {ino : Inode} {bs : List Nat} (hbs : ∀ b ∈ bs, b < 2 ^ 32)
    (h : ∀ k, ino.block k < 2 ^ 32) (k : Nat) : (ino.setDirect bs).block k < 2 ^ 32 := by
  rw [block]
  by_cases hk : k < ndirect + 1
  · have : (ino.setDirect bs).blocks[k]? = some (bs.getD k (ino.block k)) := by
      simp [setDirect, hk]
    rw [this, Option.getD_some]
    by_cases hlt : k < bs.length
    · rw [List.getD_eq_getElem _ _ hlt]
      exact hbs _ (List.getElem_mem hlt)
    · rw [List.getD_eq_default _ _ (by omega)]
      exact h k
  · rw [Vector.getElem?_eq_none (by omega)]
    exact Nat.two_pow_pos 32

theorem setDirect_type (ino : Inode) (bs : List Nat) : (ino.setDirect bs).type = ino.type := by
  rw [setDirect]

theorem setIndirect_type (ino : Inode) (b : Nat) : (ino.setIndirect b).type = ino.type := by
  rw [setIndirect]

theorem block_setIndirect (ino : Inode) (b : Nat) : (ino.setIndirect b).block ndirect = b := by
  simp [block, setIndirect]

theorem take_setIndirect (ino : Inode) (b : Nat) {n : Nat} (h : n ≤ 32) :
    (ino.setIndirect b).blocks.toList.take n = ino.blocks.toList.take n := by
  rw [setIndirect, Vector.toList_set, List.take_set_of_le h]

theorem block_setIndirect_lt {ino : Inode} {b : Nat} (hb : b < 2 ^ 32)
    (h : ∀ k, ino.block k < 2 ^ 32) (k : Nat) : (ino.setIndirect b).block k < 2 ^ 32 := by
  by_cases hk : k = ndirect
  · rw [hk, block_setIndirect]
    exact hb
  · have := h k
    rw [block] at this ⊢
    rwa [setIndirect, Vector.getElem?_set_ne _ (Ne.symm hk)]

end Inode

/-- An inode whose direct blocks are `direct` and whose indirect block `ind` lists `table` owns just
these. -/
theorem Inode.owned_of {ino : Inode} (direct table : List Nat) (ind : Nat)
    (hdirect : ino.blocks.toList.take (min (Extent.blocks ino.size) ndirect) = direct)
    (hind : Extent.blocks ino.size > ndirect → ino.block ndirect = ind ∧
      (d ind).words.take (Extent.blocks ino.size - ndirect) = table) :
    ino.owned d = direct ++ if Extent.blocks ino.size > ndirect then ind :: table else [] := by
  rw [owned, Inode.direct, hdirect, indirect, Inode.table]
  split
  · rename_i hn
    rw [(hind hn).1, (hind hn).2]
  · rfl

/-- **New blocks.**  An inode with the new block numbers, and a size that needs `n` blocks, owns the
blocks that were allocated. -/
theorem exec_allocContents (ino : Inode) {n : Nat} (hn : n ≤ 160)
    (hroom : (if n > ndirect then n + 1 else n) ≤ d.freeSet.card)
    (hblock : ∀ k, ino.block k < 2 ^ 32) :
    ∃ ino' own d₁ d', exec (allocContents ino n) d = .ok (ino', d') ∧ ino'.type = ino.type ∧
      (∀ k, ino'.block k < 2 ^ 32) ∧ Allocated d own d₁ ∧ (∀ x, x ∉ own → d' x = d₁ x) ∧
      ∀ ino'' : Inode, ino''.blocks = ino'.blocks → blocks ino''.size = n →
        ino''.owned d' = own := by
  have hlt : ∀ {bs : List Nat} {e e' : Disk}, Allocated e bs e' → ∀ b ∈ bs, b < 2 ^ 32 := by
    intro bs e e' ha b hb
    have := (ha.fresh b hb).1
    rw [blockNum_eq] at this
    omega
  have hmin : min n ndirect ≤ d.freeSet.card := by
    split at hroom <;> omega
  obtain ⟨direct, d₁, he₁, hlen₁, ha₁⟩ := exec_allocBlocks hmin
  have hdirect : (ino.setDirect direct).blocks.toList.take (min n ndirect) = direct := by
    rw [← hlen₁]
    refine ino.take_setDirect _ ?_
    rw [hlen₁]
    exact (Nat.min_le_right _ _).trans (by decide)
  have hblock₁ := Inode.block_setDirect_lt (hlt ha₁) hblock
  rw [allocContents, exec_bind he₁]
  simp only
  split
  · rename_i hbig
    rw [if_pos hbig] at hroom
    have hcard₁ := ha₁.card_freeSet
    obtain ⟨ind, d₂, he₂, ha₂⟩ := exec_allocBlock (d := d₁) (by omega)
    have hcard₂ := ha₂.card_freeSet
    rw [List.length_singleton] at hcard₂
    have hnind : n - ndirect ≤ nindirect := by
      rw [nindirect_eq]
      simp only [ndirect]
      omega
    obtain ⟨table, d₃, he₃, hlen₃, ha₃⟩ := exec_allocBlocks (d := d₂)
      (n := min (n - ndirect) (nindirect + 1)) (by omega)
    have hlen₃' : table.length = n - ndirect := by omega
    have hind := ha₂.fresh ind List.mem_cons_self
    refine ⟨(ino.setDirect direct).setIndirect ind, direct ++ (ind :: table), d₃,
      Function.update d₃ ind (.ofWords table), ?_, ?_, ?_, ha₁.append (ha₂.append ha₃), ?_, ?_⟩
    · rw [exec_bind he₂, exec_bind he₃, if_neg (Nat.not_lt.2 hnind),
        exec_bind (exec_writeBlock hind.1 _), exec_pure]
    · rw [Inode.setIndirect_type, Inode.setDirect_type]
    · exact Inode.block_setIndirect_lt (hlt ha₂ ind List.mem_cons_self) hblock₁
    · intro x hx
      refine Function.update_of_ne ?_ _ _
      rintro rfl
      exact hx (by simp)
    · intro ino'' hb hsize
      have hblk : ino''.block ndirect = ind := by
        rw [Inode.block, hb]
        exact Inode.block_setIndirect _ _
      rw [Inode.owned_of direct table ind, hsize, if_pos hbig]
      · rw [hsize, hb, Inode.take_setIndirect _ _ (Nat.min_le_right _ _), hdirect]
      · intro _
        rw [hsize, Function.update_self, ← hlen₃']
        exact ⟨hblk, Block.take_words_ofWords (by rw [hlen₃']; exact hnind) (hlt ha₃)⟩
  · rename_i hsmall
    refine ⟨ino.setDirect direct, direct, d₁, d₁, rfl, ino.setDirect_type direct, hblock₁, ha₁,
      fun _ _ ↦ rfl, ?_⟩
    intro ino'' hb hsize
    rw [Inode.owned_of direct [] 0, hsize, if_neg hsmall, List.append_nil]
    · rw [hsize, hb, hdirect]
    · intro hbig
      rw [hsize] at hbig
      exact absurd hbig hsmall

/-! ## Writing the contents -/

theorem exec_writeChunk {b : Nat} (hb : b < blockNum) (block : Block) (data : List UInt8) :
    ∃ blk : Block, blk.toList.take (min data.length 512) = data.take 512 ∧
      exec (writeChunk block b data) d = .ok ((), Function.update d b blk) := by
  rw [writeChunk]
  split
  · rename_i hbig
    have hbig : data.length > 512 := hbig
    have hlen : (data.take 512).length = 512 := by
      rw [List.length_take]
      omega
    refine ⟨Block.zero.patch (data.take 512), ?_, exec_writeBlock hb _⟩
    rw [Nat.min_eq_right (by omega)]
    have := Block.zero.take_patch hlen.le
    rwa [hlen] at this
  · rename_i hsmall
    have hsmall : ¬ data.length > 512 := hsmall
    refine ⟨block.patch data, ?_, exec_writeBlock hb _⟩
    rw [Nat.min_eq_left (by omega), Block.take_patch block (by omega),
      List.take_of_length_le (by omega)]

/-- **The writing loop.**  It writes to as many of the blocks as the data need, and returns what did
not fit into all of them. -/
theorem exec_writeBlocks (block : Block) (bs : List Nat) (data : List UInt8)
    (hlt : ∀ b ∈ bs.take ((data.length + 511) / 512), b < blockNum)
    (hnd : (bs.take ((data.length + 511) / 512)).Nodup) :
    ∃ d', exec (writeBlocks block bs data) d = .ok (data.drop (512 * bs.length), d') ∧
      (∀ x, x ∉ bs.take ((data.length + 511) / 512) → d' x = d x) ∧
      (d'.flat (bs.take ((data.length + 511) / 512))).take data.length
        = data.take (512 * bs.length) := by
  induction bs generalizing data d with
  | nil => exact ⟨d, by simp [writeBlocks], fun _ _ ↦ rfl, by simp⟩
  | cons b bs ih =>
    rw [writeBlocks]
    by_cases hpos : data.length > 0
    · have hn : (data.length + 511) / 512 = ((data.drop 512).length + 511) / 512 + 1 := by
        rw [List.length_drop]
        omega
      rw [hn, List.take_succ_cons] at hlt hnd ⊢
      rw [List.nodup_cons] at hnd
      have hb := hlt b List.mem_cons_self
      obtain ⟨blk, hblk, he₁⟩ := exec_writeChunk (d := d) hb block data
      obtain ⟨d₂, he₂, hframe, hflat⟩ := ih (d := Function.update d b blk)
        (data.drop 512) (fun x hx ↦ hlt x (List.mem_cons_of_mem _ hx)) hnd.2
      refine ⟨d₂, ?_, fun x hx ↦ ?_, ?_⟩
      · rw [if_pos hpos, exec_bind he₁]
        refine he₂.trans ?_
        rw [List.drop_drop, List.length_cons, Nat.mul_succ, Nat.add_comm]
      · rw [List.mem_cons, not_or] at hx
        rw [hframe x hx.2, Function.update_of_ne hx.1]
      · have hd₂ : d₂ b = blk := by rw [hframe b hnd.1, Function.update_self]
        have hlen : blk.toList.length = 512 := Vector.length_toList ..
        rw [Disk.flat_cons, hd₂, List.length_cons, Nat.mul_succ, Nat.add_comm (512 * bs.length),
          List.take_add]
        by_cases hbig : data.length > 512
        · rw [Nat.min_eq_right (by omega), List.take_of_length_le (l := blk.toList) (by omega)]
            at hblk
          rw [List.take_append, hlen, List.take_of_length_le (l := blk.toList) (by omega), hblk,
            ← hflat, List.length_drop]
        · rw [Nat.min_eq_left (by omega)] at hblk
          rw [List.take_append_of_le_length (by omega), hblk,
            List.drop_of_length_le (l := data) (by omega), List.take_nil, List.append_nil]
    · have hnil : data = [] := List.length_eq_zero_iff.1 (by omega)
      subst hnil
      exact ⟨d, by simp, fun _ _ ↦ rfl, by simp⟩

/-- **Contents.**  The last part of `write_file` puts the data where `read_file` will look for them,
and writes to no block but the inode's own. -/
theorem exec_writeContents (ino : Inode) {buf : List UInt8} (hsize : ino.size = buf.length)
    (hsmall : buf.length ≤ 81920) (hnd : (ino.owned d).Nodup)
    (hdata : ∀ b ∈ ino.owned d, b < blockNum) :
    ∃ d', exec (writeContents env ino buf) d = .ok ((), d') ∧
      (∀ x, x ∉ ino.owned d → d' x = d x) ∧ ino.owned d' = ino.owned d ∧
      ino.contents d' = buf := by
  have hblocks : blocks ino.size = (buf.length + 511) / 512 := by
    rw [hsize]
    exact blocks_of_le hsmall
  have hlen : (ino.blocks.toList.take ndirect).length = 32 := by
    rw [List.length_take, Vector.length_toList]
    rfl
  have hdirect : (ino.blocks.toList.take ndirect).take ((buf.length + 511) / 512) = ino.direct := by
    rw [List.take_take, Inode.direct, hblocks]
  rw [Inode.owned, List.nodup_append] at hnd
  obtain ⟨hnd₁, hnd₂, hdisj⟩ := hnd
  obtain ⟨d₁, he₁, hframe₁, hflat₁⟩ := exec_writeBlocks (d := d) env.stack
    (ino.blocks.toList.take ndirect) buf
    (fun b hb ↦ hdata b (by rw [hdirect] at hb; exact List.mem_append_left _ hb))
    (by rw [hdirect]; exact hnd₁)
  rw [hdirect] at hframe₁ hflat₁
  rw [hlen] at he₁ hflat₁
  rw [writeContents, exec_bind he₁]
  split
  · rename_i hmore
    rw [List.length_drop] at hmore
    have hmany : blocks ino.size > ndirect := by
      rw [hblocks]
      simp only [ndirect]
      omega
    have hind : ino.indirect d = ino.block ndirect :: ino.table d := if_pos hmany
    rw [hind] at hnd₂ hdisj
    rw [List.nodup_cons] at hnd₂
    have hown : ∀ b, b ∈ ino.owned d ↔ b ∈ ino.direct ∨ b = ino.block ndirect ∨
        b ∈ ino.table d := by
      intro b
      rw [Inode.owned, hind, List.mem_append, List.mem_cons]
    have hnot : ino.block ndirect ∉ ino.direct := fun hm ↦
      hdisj _ hm _ List.mem_cons_self rfl
    have hd₁ : d₁ (ino.block ndirect) = d (ino.block ndirect) := hframe₁ _ hnot
    have htable : (d₁ (ino.block ndirect)).words.take (((buf.drop (512 * 32)).length + 511) / 512)
        = ino.table d := by
      have hcount : (buf.length + 511) / 512 - ndirect = (buf.length - 512 * 32 + 511) / 512 := by
        simp only [ndirect]
        omega
      rw [hd₁, Inode.table, if_pos hmany, hblocks, List.length_drop, hcount]
    obtain ⟨d₂, he₂, hframe₂, hflat₂⟩ := exec_writeBlocks (d := d₁) env.stack
      (d₁ (ino.block ndirect)).words (buf.drop (512 * 32))
      (fun b hb ↦ hdata b ((hown b).2 (by rw [htable] at hb; exact Or.inr (Or.inr hb))))
      (by rw [htable]; exact hnd₂.2)
    rw [htable] at hframe₂ hflat₂
    have hd₂ : d₂ (ino.block ndirect) = d (ino.block ndirect) := by
      rw [hframe₂ _ hnd₂.1, hd₁]
    have htable₂ : ino.table d₂ = ino.table d := Inode.table_congr fun _ ↦ hd₂
    refine ⟨d₂, ?_, fun x hx ↦ ?_, ?_, ?_⟩
    · have hlt : ino.block ndirect < blockNum := hdata _ (Inode.block_mem_owned hmany)
      rw [exec_bind (exec_readBlock hlt _), exec_bind he₂, exec_pure]
    · rw [hown, not_or, not_or] at hx
      rw [hframe₂ x hx.2.2, hframe₁ x hx.1]
    · rw [Inode.owned, Inode.owned, Inode.indirect_eq_of_table htable₂]
    · refine Inode.contents_of_parts hsize (by omega) ?_ ?_
      · -- the second loop writes to none of the direct blocks
        have hsame : d₂.flat ino.direct = d₁.flat ino.direct := Disk.flat_congr fun b hb ↦
          hframe₂ b fun hm ↦ hdisj b hb b (List.mem_cons_of_mem _ hm) rfl
        have hdl : ino.direct.length = 32 := by
          rw [Inode.direct, List.length_take, Vector.length_toList, hblocks]
          simp only [ndirect]
          omega
        rw [List.take_of_length_le (by rw [Disk.length_flat, hdl]; omega)] at hflat₁
        exact hsame.trans hflat₁
      · rw [List.length_drop, Block.length_words,
          List.take_of_length_le (l := buf.drop _) (by rw [List.length_drop]; omega)] at hflat₂
        rw [htable₂]
        simpa only [Nat.reduceMul] using hflat₂
  · rename_i hdone
    rw [List.length_drop] at hdone
    have hfew : ¬ blocks ino.size > ndirect := by
      rw [hblocks]
      simp only [ndirect]
      omega
    have hind : ∀ e : Disk, ino.indirect e = [] := fun e ↦ if_neg hfew
    have htable : ino.table d₁ = [] := if_neg hfew
    refine ⟨d₁, rfl, fun x hx ↦ ?_, ?_, ?_⟩
    · rw [Inode.owned, hind, List.append_nil] at hx
      exact hframe₁ x hx
    · rw [Inode.owned, Inode.owned, hind, hind]
    · rw [Inode.contents, htable, List.append_nil, hsize, hflat₁,
        List.take_of_length_le (by omega)]

/-! ## The two calls -/

/-- Freeing a file's blocks unmarks them, in the order of `write_file`. -/
theorem FileOk.exec_free {f : File} (h : FileOk d i f) :
    ∃ d₁ d₂, exec (freeDirect (d.inode i)) d = .ok ((), d₁) ∧
      exec (freeIndirect env (d.inode i)) d₁ = .ok ((), d₂) ∧ Disk.SameData d d₂ ∧
      ∀ b, b < blockNum → (d₂.used b = true ↔ d.used b = true ∧ b ∉ (d.inode i).owned d) := by
  obtain ⟨d₁, he₁, hsame₁, hused₁⟩ := exec_freeBlocks (d := d) (d.inode i).direct
    fun b hb ↦ h.data b (List.mem_append_left _ hb)
  have hind := Inode.indirect_congr hsame₁ fun b hb ↦ (h.data b hb).1
  obtain ⟨d₂, he₂, hsame₂, hused₂⟩ := exec_freeIndirect (d := d₁) env
    (d.inode i) (h.size ▸ h.small) fun b hb ↦ by
      rw [hind] at hb
      exact h.data b (List.mem_append_right _ hb)
  refine ⟨d₁, d₂, he₁, he₂, hsame₁.trans hsame₂, fun b hb ↦ ?_⟩
  rw [hused₂ b hb, hused₁ b hb, hind, Inode.owned, List.mem_append, not_or, and_assoc]

/-- The same in the order of `remove_file`. -/
theorem FileOk.exec_free' {f : File} (h : FileOk d i f) :
    ∃ d₁ d₂, exec (freeIndirect env (d.inode i)) d = .ok ((), d₁) ∧
      exec (freeDirect (d.inode i)) d₁ = .ok ((), d₂) ∧ Disk.SameData d d₂ ∧
      ∀ b, b < blockNum → (d₂.used b = true ↔ d.used b = true ∧ b ∉ (d.inode i).owned d) := by
  obtain ⟨d₁, he₁, hsame₁, hused₁⟩ := exec_freeIndirect (d := d) env
    (d.inode i) (h.size ▸ h.small) fun b hb ↦ h.data b (List.mem_append_right _ hb)
  obtain ⟨d₂, he₂, hsame₂, hused₂⟩ := exec_freeBlocks (d := d₁) (d.inode i).direct
    fun b hb ↦ h.data b (List.mem_append_left _ hb)
  refine ⟨d₁, d₂, he₁, he₂, hsame₁.trans hsame₂, fun b hb ↦ ?_⟩
  rw [hused₂ b hb, hused₁ b hb, Inode.owned, List.mem_append, not_or, and_assoc]
  exact and_congr_right fun _ ↦ and_comm

/-- A block that is still marked when the blocks of file `i` have been freed is reserved or belongs
to another file. -/
theorem Rep.used_of_freed (h : Rep d σ) {f : File} (hf : σ i = some f)
    (hused : ∀ b, b < blockNum →
      (d'.used b = true ↔ d.used b = true ∧ b ∉ (d.inode i).owned d)) {b : Nat}
    (hb : b < blockNum) : d'.used b = true ↔ b < 1034 ∨
      ∃ j g, j ≠ i ∧ σ j = some g ∧ b ∈ (d.inode j).owned d := by
  rw [hused b hb, h.used b hb]
  constructor
  · rintro ⟨hlt | ⟨j, g, hj, hm⟩, hnot⟩
    · exact Or.inl hlt
    · exact Or.inr ⟨j, g, by rintro rfl; exact hnot hm, hj, hm⟩
  · rintro (hlt | ⟨j, g, hne, hj, hm⟩)
    · refine ⟨Or.inl hlt, fun hm ↦ ?_⟩
      have := ((h.file i f hf).data b hm).1
      omega
    · exact ⟨Or.inr ⟨j, g, hj, hm⟩, fun hm' ↦ h.disjoint i j f g hf hj hne.symm hm' hm⟩

/-- **`write_file`** replaces the contents of a file, and touches no inode but its own. -/
theorem Rep.writeFile (h : Rep d σ) {f : File} (hf : σ i = some f) {buf : List UInt8}
    (hlen : buf.length ≤ 81920)
    (hload : Store.load (Function.update σ i (some { f with data := buf })) ≤ Store.capacity) :
    ∃ d', exec (Extent.writeFile env i buf) d = .ok ((), d') ∧
      Rep d' (Function.update σ i (some { f with data := buf })) ∧
      ∀ x, 10 ≤ x → x < 1034 → x ≠ iblock i → d' x = d x := by
  have hi := h.inum i f hf
  have hok := h.file i f hf
  obtain ⟨d₁, d₂, he₁, he₂, hsame₂, hused₂⟩ := hok.exec_free env
  have hfreed := fun b ↦ h.used_of_freed hf hused₂ (b := b)
  have hroom := h.room fun b hb ↦ hfreed b hb
  rw [Store.load_update hi] at hload
  obtain ⟨ino, own, d₃, d₄, he₄, htype, hblock, halloc, hd₄, hown⟩ :=
    exec_allocContents (d := d₂) (d.inode i) (n := blocks buf.length)
      (by rw [blocks_of_le hlen]; omega)
      (by
        have : cost buf.length ≤ d₂.freeSet.card := by
          simp only at hload
          omega
        exact this)
      (Inode.block_read_lt _)
  -- the new blocks are data blocks that no other file has
  have hnew : ∀ b ∈ own, 1034 ≤ b ∧ b < blockNum ∧
      ∀ j g, σ j = some g → j ≠ i → b ∉ (d.inode j).owned d := by
    intro b hb
    obtain ⟨hlt, hfree⟩ := halloc.fresh b hb
    have hnot : ¬ d₂.used b = true := by simp [hfree]
    rw [hfreed b hlt, not_or] at hnot
    exact ⟨by omega, hlt, fun j g hj hne hm ↦ hnot.2 ⟨j, g, hne, hj, hm⟩⟩
  -- the inode as it is going to be stored
  let new : Inode := { ino with size := buf.length, mtime := env.now, ctime := env.now }
  have hown₄ : new.owned d₄ = own := hown new rfl rfl
  obtain ⟨d₅, he₅, hd₅, hown₅, hcont₅⟩ := exec_writeContents (d := d₄) env new rfl hlen
    (by rw [hown₄]; exact halloc.nodup) (by rw [hown₄]; exact fun b hb ↦ (hnew b hb).2.1)
  rw [hown₄] at hd₅ hown₅
  obtain ⟨hfile, hown₆⟩ := FileOk.store (d := d₅) (f := { f with data := buf }) new hi.2
    (htype.trans hok.type) hok.kind rfl hlen hblock hcont₅ (by rw [hown₅]; exact halloc.nodup)
    (by rw [hown₅]; exact fun b hb ↦ ⟨(hnew b hb).1, (hnew b hb).2.1⟩)
  rw [hown₅] at hown₆
  -- outside the bitmap, only the inode and the new blocks have been written to
  have hother : ∀ x, (x < 2 ∨ 10 ≤ x) → x ≠ iblock i → x ∉ own →
      d₅.setInode i new x = d x := by
    intro x hx hxi hxo
    rw [Disk.setInode_of_ne _ hxi, hd₅ x hxo, hd₄ x hxo, halloc.same x hx, hsame₂ x hx]
  refine ⟨d₅.setInode i new, ?_, h.set hi (Or.inl ⟨_, rfl, hfile, hown₆⟩) hother
    (fun b hb ↦ (hnew b hb).2.2) fun b hb ↦ ?_,
    fun x h₁ h₂ hne ↦ hother x (Or.inr h₁) hne fun hm ↦ ?_⟩
  · rw [Extent.writeFile, exec_bind (h.exec_getInode hf)]
    simp only
    have he₅' : exec (writeContents env ino buf) d₄ = .ok ((), d₅) := he₅
    rw [exec_bind he₁, exec_bind he₂, exec_bind he₄, exec_bind he₅', exec_putInode (by omega)]
  · have hmap : bblock b ∉ own := fun hm ↦ by
      have h₁ := (hnew _ hm).1
      have h₂ := Disk.bblock_lt hb
      omega
    have hu : d₅.used b = d₃.used b := by
      rw [Disk.used, hd₅ _ hmap, hd₄ _ hmap, Disk.used]
    rw [Disk.used_setInode _ hb, hu, halloc.used b hb, hfreed b hb, or_assoc]
    exact or_congr_right or_comm
  · have := (hnew x hm).1
    omega

/-- **`remove_file`** removes a file, and touches no inode but its own. -/
theorem Rep.removeFile (h : Rep d σ) {f : File} (hf : σ i = some f) :
    ∃ d', exec (Extent.removeFile env i) d = .ok ((), d') ∧
      Rep d' (Function.update σ i none) ∧
      ∀ x, 10 ≤ x → x < 1034 → x ≠ iblock i → d' x = d x := by
  have hi := h.inum i f hf
  have hok := h.file i f hf
  obtain ⟨d₁, d₂, he₁, he₂, hsame₂, hused₂⟩ := hok.exec_free' env
  have hino₂ : d₂.inode i = d.inode i := by
    rw [Disk.inode, hsame₂ _ (Or.inr (by rw [iblock_eq]; omega)), Disk.inode]
  have hkind := type_bounds hok.kind
  have hlive : (d₂.inode i).type ≠ 0 := by
    rw [hino₂, hok.type]
    omega
  have hino := Disk.inode_setInode (d := d₂) (i := i) .zero
  refine ⟨d₂.setInode i .zero, ?_, h.set hi (Or.inr ⟨rfl, ?_, ?_, rfl⟩) (fun x hx hxi _ ↦ ?_)
    (by simp) fun b hb ↦ ?_, fun x h₁ h₂ hne ↦ ?_⟩
  · rw [Extent.removeFile, exec_bind (h.exec_getInode hf)]
    simp only
    rw [exec_bind he₁, exec_bind he₂, exec_freeInode (by omega), if_neg hlive]
  · rw [hino, Inode.read_write_type]
    rfl
  · rw [hino, Inode.read_write_size]
    rfl
  · rw [Disk.setInode_of_ne _ hxi, hsame₂ x hx]
  · rw [Disk.used_setInode _ hb, h.used_of_freed hf hused₂ hb]
    simp
  · rw [Disk.setInode_of_ne _ hne, hsame₂ x (Or.inr h₁)]

end Extent
end Yfs
