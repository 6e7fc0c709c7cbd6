import Yfs.Extent.Rep

/-!
# Creating, reading and looking

The calls that move no blocks.  `create` turns the first free inode into an empty file; `read_file`
and `getattr` return what is there, and a read leaves its mark in two time stamps.
-/

set_option autoImplicit false

namespace Yfs
namespace Extent

open Machine

variable {d : Disk} {σ : Store} {i : Nat} (env : Env)

/-! ## Inodes -/

/-- Store an inode in its place. -/
def Disk.setInode (d : Disk) (i : Nat) (ino : Inode) : Disk :=
  Function.update d (iblock i) (ino.write (d (iblock i)))

theorem iblock_lt_blockNum (hi : i < 1024) : iblock i < blockNum := by
  rw [iblock_eq, blockNum_eq]
  omega

theorem exec_getInode (hi : i < 1024) :
    exec (getInode i) d
      = .ok (if (d.inode i).type = 0 then none else some (d.inode i), d) := by
  rw [getInode, if_neg (by simp only [inodeNum]; omega),
    exec_bind (exec_readBlock (iblock_lt_blockNum hi) _)]
  simp only
  rw [Disk.inode]
  split <;> rw [exec_pure]

/-- An inode that is in use is found. -/
theorem exec_getInode_live (hi : i < 1024) (hlive : (d.inode i).type ≠ 0) :
    exec (getInode i) d = .ok (some (d.inode i), d) := by
  rw [exec_getInode hi, if_neg hlive]

/-- `get_inode` returns null. -/
theorem exec_getInode_none (h : i < 1024 → (d.inode i).type = 0) :
    exec (getInode i) d = .ok (none, d) := by
  rcases Nat.lt_or_ge i 1024 with hi | hi
  · rw [exec_getInode hi, if_pos (h hi)]
  · rw [getInode, if_pos hi, exec_pure]

theorem exec_putInode (hi : i < 1024) (ino : Inode) :
    exec (putInode i ino) d = .ok ((), d.setInode i ino) := by
  rw [putInode, exec_bind (exec_readBlock (iblock_lt_blockNum hi) _),
    exec_writeBlock (iblock_lt_blockNum hi)]
  rfl

/-- `free_inode` clears an inode; it does not survive one that is free already. -/
theorem exec_freeInode (hi : i < 1024) : exec (freeInode i) d =
    if (d.inode i).type = 0 then .error .nullInode else .ok ((), d.setInode i .zero) := by
  split
  · rename_i hfree
    rw [freeInode, exec_bind (exec_getInode_none fun _ ↦ hfree), exec_throw]
  · rename_i hlive
    rw [freeInode, exec_bind (exec_getInode_live hi hlive)]
    simp only [if_neg hlive]
    rw [exec_putInode hi]

namespace Disk

theorem setInode_of_ne (ino : Inode) {x : Nat} (h : x ≠ iblock i) : d.setInode i ino x = d x :=
  Function.update_of_ne h _ _

theorem used_setInode (ino : Inode) {b : Nat} (hb : b < blockNum) :
    (d.setInode i ino).used b = d.used b :=
  used_update d _ hb (by rw [iblock_eq]; omega)

theorem inode_setInode (ino : Inode) :
    (d.setInode i ino).inode i = Inode.read (ino.write (d (iblock i))) := by
  rw [inode, setInode, Function.update_self]

theorem inode_setInode_of_ne {i j : Nat} (ino : Inode) (h : j ≠ i) :
    (d.setInode i ino).inode j = d.inode j := by
  rw [Disk.inode, Disk.setInode_of_ne _ (by rw [iblock_eq, iblock_eq]; omega), Disk.inode]

/-- What `alloc_inode` has made of an inode. -/
theorem inode_made (i now : Nat) {type : Nat} (htype : type ≤ 3) :
    ((d.setInode i { d.inode i with type := type, ctime := now }).inode i).type = type ∧
      ((d.setInode i { d.inode i with type := type, ctime := now }).inode i).size
        = (d.inode i).size := by
  rw [inode_setInode, Inode.read_write_type, Inode.read_write_size]
  exact ⟨Nat.mod_eq_of_lt (by simp only; omega), Nat.mod_eq_of_lt (Block.word_lt _ _)⟩

end Disk

/-- The block numbers of an inode on the disk are 32-bit numbers. -/
theorem Inode.block_read_lt (b : Block) (k : Nat) : (Inode.read b).block k < 2 ^ 32 := by
  rw [Inode.block]
  by_cases hk : k < 33
  · have : (Inode.read b).blocks[k]? = some (b.word (20 + 4 * k)) := by
      simp [Inode.read, ndirect, hk]
    rw [this]
    exact b.word_lt _
  · rw [Vector.getElem?_eq_none (by simpa [ndirect] using hk)]
    exact Nat.two_pow_pos 32

/-- Stored block numbers come back. -/
theorem Inode.blocks_read_write {ino : Inode} (b : Block) (h : ∀ k, k < 33 → ino.block k < 2 ^ 32) :
    (Inode.read (ino.write b)).blocks = ino.blocks := by
  refine Vector.ext fun k hk ↦ ?_
  have hk' : k < 33 := hk
  have := Inode.read_write_block ino b hk'
  rw [Nat.mod_eq_of_lt (h k hk')] at this
  simpa [Inode.block, hk] using this

/-- An inode that describes a file is that file once it has been stored. -/
theorem FileOk.store {f : File} (ino : Inode) (hi : i ≤ 1022) (htype : ino.type = f.type)
    (hkind : f.type ∈ [tDir, tFile, tSymlink]) (hsize : ino.size = f.data.length)
    (hsmall : f.data.length ≤ 81920) (hblock : ∀ k, ino.block k < 2 ^ 32)
    (hcontents : ino.contents d = f.data) (hnodup : (ino.owned d).Nodup)
    (hdata : ∀ b ∈ ino.owned d, 1034 ≤ b ∧ b < blockNum) :
    FileOk (d.setInode i ino) i f ∧
      ((d.setInode i ino).inode i).owned (d.setInode i ino) = ino.owned d := by
  have hino := Disk.inode_setInode (d := d) (i := i) ino
  have hbounds := type_bounds hkind
  have htype' : ((d.setInode i ino).inode i).type = f.type := by
    rw [hino, Inode.read_write_type, htype, Nat.mod_eq_of_lt (by omega)]
  have hsize' : ((d.setInode i ino).inode i).size = ino.size := by
    rw [hino, Inode.read_write_size, Nat.mod_eq_of_lt (by omega)]
  have hblocks' : ((d.setInode i ino).inode i).blocks = ino.blocks := by
    rw [hino, Inode.blocks_read_write _ fun k _ ↦ hblock k]
  obtain ⟨ho, hc⟩ := Inode.owned_eq (d := d.setInode i ino) hsize' hblocks'
  have hsame : ∀ b ∈ ino.owned d, d.setInode i ino b = d b := by
    intro b hb
    have h₁ := (hdata b hb).1
    have h₂ := Rep.iblock_lt hi
    exact Disk.setInode_of_ne ino (by omega)
  obtain ⟨ho', hc'⟩ := Inode.owned_congr hsame
  refine ⟨⟨htype', hkind, hsize'.trans hsize, hsmall, ?_, ?_, ?_⟩, ho.trans ho'⟩
  · rw [hc, hc', hcontents]
  · rw [ho, ho']; exact hnodup
  · rw [ho, ho']; exact hdata

/-- Changing the times of a file changes no file. -/
theorem Rep.touch (h : Rep d σ) {f : File} (hf : σ i = some f) {ino : Inode}
    (htype : ino.type = (d.inode i).type) (hsize : ino.size = (d.inode i).size)
    (hblocks : ino.blocks = (d.inode i).blocks) : Rep (d.setInode i ino) σ := by
  have hi := h.inum i f hf
  have hfile := h.file i f hf
  obtain ⟨ho, hc⟩ := Inode.owned_eq (d := d) hsize hblocks
  obtain ⟨hok, hown⟩ := FileOk.store (d := d) (f := f) ino hi.2 (htype.trans hfile.type) hfile.kind
    (hsize.trans hfile.size) hfile.small
    (fun k ↦ by rw [Inode.block, hblocks]; exact Inode.block_read_lt _ k)
    (hc.trans hfile.contents) (by rw [ho]; exact hfile.nodup) (by rw [ho]; exact hfile.data)
  rw [ho] at hown
  have hrep := h.set hi (Or.inl ⟨f, rfl, hok, hown⟩)
    (fun x _ hx _ ↦ Disk.setInode_of_ne ino hx)
    (fun b hb j g hj hne ↦ h.disjoint i j f g hf hj hne.symm hb)
    (fun b hb ↦ by
      rw [Disk.used_setInode ino hb, h.used b hb]
      refine or_congr_right ⟨?_, ?_⟩
      · rintro ⟨j, g, hj, hm⟩
        by_cases e : j = i
        · exact Or.inl (e ▸ hm)
        · exact Or.inr ⟨j, g, e, hj, hm⟩
      · rintro (hm | ⟨j, g, -, hj, hm⟩)
        · exact ⟨i, f, hf, hm⟩
        · exact ⟨j, g, hj, hm⟩)
  rwa [← hf, Function.update_eq_self] at hrep

/-- What the calls need of a file. -/
theorem Rep.live (h : Rep d σ) {f : File} (hf : σ i = some f) :
    i < 1024 ∧ (d.inode i).type ≠ 0 ∧ (d.inode i).size ≤ 81920 := by
  have hok := h.file i f hf
  have hi := h.inum i f hf
  have hkind := type_bounds hok.kind
  refine ⟨by omega, ?_, hok.size ▸ hok.small⟩
  rw [hok.type]
  omega

theorem Rep.exec_getInode (h : Rep d σ) {f : File} (hf : σ i = some f) :
    exec (getInode i) d = .ok (some (d.inode i), d) :=
  exec_getInode_live (h.live hf).1 (h.live hf).2.1

/-! ## Creating -/

/-- The scan of `alloc_inode` takes the first free inode of a list. -/
theorem exec_allocInodeScan {type : Nat} {is : List Nat} (his : ∀ i ∈ is, i < 1024)
    (hfind : is.find? (fun i ↦ (d.inode i).type = 0) = some i) :
    exec (allocInodeScan env type is) d
      = .ok (i, d.setInode i { d.inode i with type := type, ctime := env.now }) := by
  induction is with
  | nil => exact absurd hfind (by simp)
  | cons j is ih =>
    have hj := iblock_lt_blockNum (his j List.mem_cons_self)
    rw [allocInodeScan, exec_bind (exec_readBlock hj _)]
    rw [List.find?_cons] at hfind
    simp only
    split
    · rename_i hfree
      have hd : decide ((d.inode j).type = 0) = true := decide_eq_true hfree
      rw [hd] at hfind
      obtain rfl : j = i := by simpa using hfind
      rw [exec_bind (exec_writeBlock hj _), exec_pure]
      rfl
    · rename_i hfree
      have hd : decide ((d.inode j).type = 0) = false := decide_eq_false hfree
      rw [hd] at hfind
      exact ih (fun k hk ↦ his k (List.mem_cons_of_mem _ hk)) hfind

/-- Which inodes are free can be read off the disk. -/
theorem Rep.type_eq_zero_iff (h : Rep d σ) (hi : 1 ≤ i ∧ i ≤ 1022) :
    (d.inode i).type = 0 ↔ (σ i).isNone = true := by
  cases hσ : σ i with
  | none => simp [(h.free i hi.1 hi.2 hσ).1]
  | some f =>
    have hkind := type_bounds (h.file i f hσ).kind
    simp only [Option.isNone_some, Bool.false_eq_true, iff_false, (h.file i f hσ).type]
    omega

/-- **`alloc_inode`** makes an empty file out of the first free inode. -/
theorem Rep.allocInode (h : Rep d σ) {type : Nat} (htype : type ∈ [tDir, tFile, tSymlink])
    (hfree : σ.firstFree = some i) :
    exec (Extent.allocInode env type) d
        = .ok (i, d.setInode i { d.inode i with type := type, ctime := env.now }) ∧
      Rep (d.setInode i { d.inode i with type := type, ctime := env.now })
        (Function.update σ i (some ⟨type, []⟩)) := by
  obtain ⟨hi, hnone⟩ := Store.firstFree_bounds hfree
  have hzero := h.free i hi.1 hi.2 hnone
  have hfind : (List.range' 1 (inodeNum - 1)).find? (fun j ↦ (d.inode j).type = 0) = some i := by
    rw [Store.firstFree, List.find?_range'_eq_some] at hfree
    rw [List.find?_range'_eq_some]
    refine ⟨decide_eq_true hzero.1, ?_, fun j hj hlt ↦ ?_⟩
    · rw [List.mem_range'_1]
      simp only [inodeNum]
      omega
    · rw [Bool.not_eq_true', decide_eq_false_iff_not, h.type_eq_zero_iff (by omega),
        Bool.not_eq_true, ← Bool.not_eq_true']
      exact hfree.2.2 j hj hlt
  refine ⟨exec_allocInodeScan env (fun j hj ↦ ?_) hfind, ?_⟩
  · rw [List.mem_range'_1] at hj
    simp only [inodeNum] at hj
    omega
  · obtain ⟨htype', hsize⟩ := Disk.inode_made (d := d) i env.now (type_bounds htype).2
    rw [hzero.2] at hsize
    obtain ⟨ho, hc⟩ := Inode.owned_of_size_zero
      (d := d.setInode i { d.inode i with type := type, ctime := env.now }) hsize
    refine h.set hi (Or.inl ⟨_, rfl, ⟨htype', htype, hsize, by simp, hc, by simp [ho],
      by simp [ho]⟩, ho⟩) (fun x _ hx _ ↦ Disk.setInode_of_ne _ hx) (by simp) fun b hb ↦ ?_
    rw [Disk.used_setInode _ hb, h.used b hb]
    simp only [List.not_mem_nil, false_or]
    refine or_congr_right (exists_congr fun j ↦ exists_congr fun g ↦ ?_)
    refine ⟨fun ⟨hj, hm⟩ ↦ ⟨?_, hj, hm⟩, fun ⟨_, hj, hm⟩ ↦ ⟨hj, hm⟩⟩
    rintro rfl
    exact absurd (hj.symm.trans hnone) (by simp)

/-! ## Reading -/

/-- A loop over blocks appends their contents, up to the size of the file.  Only the blocks that are
still needed have to be there. -/
theorem exec_readBlocks {size : Nat} {bs : List Nat} {res : List UInt8} (hres : res.length ≤ size)
    (hbs : ∀ b ∈ bs.take ((size - res.length + 511) / 512), b < blockNum) :
    exec (readBlocks env size bs res) d = .ok ((res ++ d.flat bs).take size, d) := by
  induction bs generalizing res with
  | nil =>
    rw [readBlocks, exec_pure, Disk.flat_nil, List.append_nil, List.take_of_length_le hres]
  | cons b bs ih =>
    have hlen : (d b).toList.length = 512 := Vector.length_toList ..
    have hmem : ∀ m x, x ∈ bs.take m → x ∈ (b :: bs).take (m + 1) := by
      intro m x hx
      rw [List.take_succ_cons]
      exact List.mem_cons_of_mem _ hx
    rw [readBlocks, Disk.flat_cons, ← List.append_assoc]
    split
    · rename_i hlt
      have hb : b < blockNum := by
        refine hbs b ?_
        rw [show (size - res.length + 511) / 512 = (size - res.length - 1) / 512 + 1 by omega,
          List.take_succ_cons]
        exact List.mem_cons_self
      split
      · rename_i hmore
        have hmore : res.length + 512 < size := hmore
        rw [exec_bind (exec_readBlock hb _)]
        refine ih (by rw [List.length_append, hlen]; omega) fun x hx ↦ hbs x ?_
        rw [List.length_append, hlen] at hx
        rw [show (size - res.length + 511) / 512 = (size - (res.length + 512) + 511) / 512 + 1 by
          omega]
        exact hmem _ x hx
      · rename_i hlast
        have hlast : ¬ res.length + 512 < size := hlast
        have hfull : (res ++ (d b).toList.take (size - res.length)).length = size := by
          rw [List.length_append, List.length_take, hlen]
          omega
        rw [exec_bind (exec_readBlock hb _), ih hfull.le]
        · have hle : size ≤ (res ++ (d b).toList).length := by
            rw [List.length_append, hlen]
            omega
          rw [List.take_left' hfull, List.take_append_of_le_length hle, List.take_append,
            List.take_of_length_le (l := res) hres]
        · intro x hx
          rw [hfull, Nat.sub_self] at hx
          exact absurd hx (by simp)
    · rename_i hge
      rw [exec_pure, List.append_assoc, List.take_append_of_le_length (by omega),
        List.take_of_length_le (by omega)]

/-- What the two loops of `read_file` put together is the contents of the file. -/
theorem Inode.take_flat_words {ino : Inode} (hsize : ino.size ≤ 81920) :
    (if (((d.flat (ino.blocks.toList.take ndirect)).take ino.size).length < ino.size) then
      ((d.flat (ino.blocks.toList.take ndirect)).take ino.size
        ++ d.flat (d (ino.block ndirect)).words).take ino.size
      else (d.flat (ino.blocks.toList.take ndirect)).take ino.size) = ino.contents d := by
  have hblocks : Extent.blocks ino.size = (ino.size + 511) / 512 := blocks_of_le hsize
  have hlen : (ino.blocks.toList.take ndirect).length = 32 := by
    rw [List.length_take, Vector.length_toList]
    rfl
  have hflat := d.length_flat (ino.blocks.toList.take ndirect)
  rw [hlen] at hflat
  rw [contents, direct, table, List.length_take, hflat, hblocks]
  simp only [ndirect] at *
  split
  · rename_i hlt
    have hbig : 16384 < ino.size := by omega
    have hall : (d.flat (ino.blocks.toList.take 32)).take ino.size
        = d.flat (ino.blocks.toList.take 32) := List.take_of_length_le (by omega)
    rw [if_pos (by omega), Nat.min_eq_right (by omega), hall, ← Disk.flat_append]
    rw [← Disk.take_flat_take d (n := (ino.size + 511) / 512) (ino.blocks.toList.take 32 ++ _)
      (by omega), List.take_append, hlen, List.take_take, Nat.min_eq_right (by omega)]
  · rename_i hlt
    have hsmall : ino.size ≤ 16384 := by omega
    rw [if_neg (by omega), List.append_nil, Nat.min_eq_left (by omega)]
    rw [← Disk.take_flat_take d (n := (ino.size + 511) / 512) (ino.blocks.toList.take 32)
      (by omega), List.take_take, Nat.min_eq_left (by omega)]

/-- **`read_file`** returns the contents of whatever is an inode. -/
theorem exec_readFile (hi : i < 1024) (hlive : (d.inode i).type ≠ 0)
    (hsmall : (d.inode i).size ≤ 81920) (hown : ∀ b ∈ (d.inode i).owned d, b < blockNum) :
    exec (Extent.readFile env i) d = .ok (some ((d.inode i).contents d),
      d.setInode i { d.inode i with atime := env.now, ctime := env.now }) := by
  have hblocks : blocks (d.inode i).size = ((d.inode i).size + 511) / 512 := blocks_of_le hsmall
  rw [Extent.readFile, exec_bind (exec_getInode_live hi hlive)]
  simp only
  have hdirect :
      exec (readBlocks env (d.inode i).size ((d.inode i).blocks.toList.take ndirect) []) d
      = .ok ((d.flat ((d.inode i).blocks.toList.take ndirect)).take (d.inode i).size, d) := by
    rw [exec_readBlocks env (Nat.zero_le _), List.nil_append]
    intro b hb
    refine hown b (Inode.mem_owned_of_mem (List.mem_append_left _ ?_))
    rw [Inode.direct, hblocks]
    rwa [List.take_take, List.length_nil, Nat.sub_zero] at hb
  rw [exec_bind hdirect]
  have hcontents := Inode.take_flat_words (d := d) hsmall
  -- the rest of the blocks, if there are any
  have hrest : exec (readIndirect env (d.inode i)
      ((d.flat ((d.inode i).blocks.toList.take ndirect)).take (d.inode i).size)) d
        = .ok ((d.inode i).contents d, d) := by
    rw [readIndirect]
    split
    · rename_i hlt
      rw [if_pos hlt] at hcontents
      have hlen : ((d.inode i).blocks.toList.take ndirect).length = 32 := by
        rw [List.length_take, Vector.length_toList]
        rfl
      have hbig : 16384 < (d.inode i).size := by
        rw [List.length_take, Disk.length_flat, hlen] at hlt
        omega
      have hmany : blocks (d.inode i).size > ndirect := by
        rw [hblocks]
        simp only [ndirect]
        omega
      have hind : (d.inode i).block ndirect < blockNum :=
        hown _ (by simp [Inode.owned, Inode.indirect, hmany])
      rw [exec_bind (exec_readBlock hind _), exec_readBlocks, hcontents]
      · rw [List.length_take]
        exact Nat.min_le_left _ _
      · intro b hb
        refine hown b (Inode.mem_owned_of_mem (List.mem_append_right _ ?_))
        rw [Inode.table, if_pos hmany, hblocks]
        rw [List.length_take, Disk.length_flat, hlen] at hb
        rwa [show ((d.inode i).size + 511) / 512 - ndirect
          = ((d.inode i).size - min (d.inode i).size (512 * 32) + 511) / 512 by
            simp only [ndirect]; omega]
    · rename_i hge
      rw [if_neg hge] at hcontents
      rw [hcontents, exec_pure]
  rw [exec_bind hrest, exec_bind (exec_putInode hi _), exec_pure, Inode.length_contents hsmall,
    Nat.sub_self, List.range'_zero, List.map_nil, List.append_nil]

/-- A file can be read, and is the same afterwards. -/
theorem Rep.readFile (h : Rep d σ) {f : File} (hf : σ i = some f) :
    exec (Extent.readFile env i) d
        = .ok (some f.data, d.setInode i { d.inode i with atime := env.now, ctime := env.now }) ∧
      Rep (d.setInode i { d.inode i with atime := env.now, ctime := env.now }) σ := by
  have hok := h.file i f hf
  obtain ⟨hi, hlive, hsmall⟩ := h.live hf
  refine ⟨?_, h.touch hf rfl rfl rfl⟩
  rw [exec_readFile env hi hlive hsmall fun b hb ↦ (hok.data b hb).2, hok.contents]

theorem exec_getattr_live (hi : i < 1024) (hlive : (d.inode i).type ≠ 0) :
    exec (Extent.getattr i) d = .ok (⟨uintOfShort (d.inode i).type, (d.inode i).atime,
      (d.inode i).mtime, (d.inode i).ctime, (d.inode i).size⟩, d) := by
  rw [Extent.getattr, exec_bind (exec_getInode_live hi hlive)]
  rfl

/-- **`getattr`** returns the type and the length. -/
theorem Rep.getattr (h : Rep d σ) {f : File} (hf : σ i = some f) :
    exec (Extent.getattr i) d = .ok (⟨f.type, (d.inode i).atime, (d.inode i).mtime,
      (d.inode i).ctime, f.data.length⟩, d) := by
  have hok := h.file i f hf
  have hkind := type_bounds hok.kind
  rw [exec_getattr_live (h.live hf).1 (h.live hf).2.1, hok.type, hok.size, uintOfShort,
    if_pos (by omega)]

end Extent
end Yfs
