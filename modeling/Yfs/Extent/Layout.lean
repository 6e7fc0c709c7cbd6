import Mathlib.Data.List.GetD
import Mathlib.Data.Nat.Bitwise
import Mathlib.Tactic.IntervalCases

/-!
# Blocks and what is stored in them

The disk of the extent server is an array of 512-byte blocks.  The constants of `inode_manager.h`
divide it into a bitmap, a table of inodes and a data area, and the code above the disk reads and
writes a block as one of three things:

* as bits, in the bitmap;
* as 32-bit words, in an indirect block;
* as a `struct inode`, at the beginning of a block of the inode table.

The last two are casts of a `char` buffer in the source, so they fix a representation: this one is
little-endian, with the field offsets of the usual C ABI.  Numbers are natural numbers here and are
reduced modulo the width of the field when they are stored.
-/

set_option autoImplicit false

namespace Yfs
namespace Extent

/-- `BLOCK_SIZE`. -/
abbrev blockSize : Nat := 512
/-- `BLOCK_NUM`, from a `DISK_SIZE` of 16 MB. -/
abbrev blockNum : Nat := 1024 * 1024 * 16 / blockSize
/-- `INODE_NUM`. -/
abbrev inodeNum : Nat := 1024
/-- `IPB`: inodes per block. -/
abbrev ipb : Nat := 1
/-- `BPB`: bitmap bits per block. -/
abbrev bpb : Nat := blockSize * 8
/-- `NDIRECT`. -/
abbrev ndirect : Nat := 32
/-- `NINDIRECT`. -/
abbrev nindirect : Nat := blockSize / 4

theorem blockNum_eq : blockNum = 32768 := rfl
theorem bpb_eq : bpb = 4096 := rfl
theorem nindirect_eq : nindirect = 128 := rfl

/-- `IBLOCK(i, nblocks)`: the block that contains inode `i`. -/
def iblock (i : Nat) : Nat := blockNum / bpb + i / ipb + 3

theorem iblock_eq (i : Nat) : iblock i = i + 11 := by
  simp only [iblock, blockNum_eq, bpb_eq, ipb]
  omega

/-- `BBLOCK(b)`: the block that contains the bit for block `b`. -/
def bblock (b : Nat) : Nat := b / bpb + 2

theorem bblock_eq (b : Nat) : bblock b = b / 4096 + 2 := rfl

/-- `BLOCKS(b)`: the blocks needed for `b` bytes, in 32-bit arithmetic. -/
def blocks (b : Nat) : Nat := (b + blockSize - 1) % 2 ^ 32 / blockSize

theorem blocks_of_le {b : Nat} (h : b ≤ 81920) : blocks b = (b + 511) / 512 := by
  simp only [blocks, blockSize]
  omega

/-- A disk block. -/
abbrev Block := Vector UInt8 blockSize

namespace Block

/-- The byte at an offset. -/
def byte (b : Block) (i : Nat) : UInt8 := b[i]?.getD 0

/-- The block with given bytes. -/
def gen (f : Nat → UInt8) : Block := Vector.ofFn fun i ↦ f i

@[simp] theorem byte_gen (f : Nat → UInt8) {i : Nat} (h : i < 512) : (gen f).byte i = f i := by
  simp [byte, gen, h]

/-- A block of zeros. -/
def zero : Block := gen fun _ ↦ 0

/-- `memcpy` of some bytes to the beginning of a block. -/
def patch (b : Block) (bytes : List UInt8) : Block := gen fun i ↦ bytes.getD i (b.byte i)

theorem getElem_toList (b : Block) {i : Nat} (h : i < b.toList.length) :
    b.toList[i] = b.byte i := by
  have h' : i < 512 := by simpa using h
  simp [byte, h']

/-- What was copied to the beginning of a block is at its beginning. -/
theorem take_patch (b : Block) {bytes : List UInt8} (h : bytes.length ≤ 512) :
    (b.patch bytes).toList.take bytes.length = bytes := by
  refine List.ext_getElem (by simpa using h) fun i h₁ h₂ ↦ ?_
  have hi : i < 512 := lt_of_lt_of_le h₂ h
  rw [List.getElem_take, getElem_toList, patch, byte_gen _ hi, List.getD_eq_getElem _ _ h₂]

/-! ## Words -/

/-- Byte `k` of a number. -/
def byteOf (n k : Nat) : UInt8 := UInt8.ofNat (n / 256 ^ k)

/-- The 16-bit number at an offset. -/
def short (b : Block) (off : Nat) : Nat := (b.byte off).toNat + 256 * (b.byte (off + 1)).toNat

/-- The 32-bit number at an offset. -/
def word (b : Block) (off : Nat) : Nat := b.short off + 65536 * b.short (off + 2)

theorem short_lt (b : Block) (off : Nat) : b.short off < 2 ^ 16 := by
  have h₀ := (b.byte off).toNat_lt
  have h₁ := (b.byte (off + 1)).toNat_lt
  rw [short]
  omega

theorem word_lt (b : Block) (off : Nat) : b.word off < 2 ^ 32 := by
  have h₀ := b.short_lt off
  have h₁ := b.short_lt (off + 2)
  rw [word]
  omega

theorem toNat_byteOf (n k : Nat) : (byteOf n k).toNat = n / 256 ^ k % 256 := by
  simp [byteOf]

theorem short_eq {b : Block} {off n : Nat} (h₀ : b.byte off = byteOf n 0)
    (h₁ : b.byte (off + 1) = byteOf n 1) : b.short off = n % 2 ^ 16 := by
  rw [short, h₀, h₁, toNat_byteOf, toNat_byteOf]
  omega

theorem word_eq {b : Block} {off n : Nat} (h : ∀ k, k < 4 → b.byte (off + k) = byteOf n k) :
    b.word off = n % 2 ^ 32 := by
  have h₀ := h 0 (by omega)
  have h₁ := h 1 (by omega)
  have h₂ := h 2 (by omega)
  have h₃ := h 3 (by omega)
  rw [word, short, short, Nat.add_assoc off 2 1, h₁, h₂, h₃]
  rw [Nat.add_zero] at h₀
  rw [h₀]
  simp only [toNat_byteOf]
  omega

/-- An indirect block as the 32-bit numbers in it. -/
def words (b : Block) : List Nat := (List.range nindirect).map fun k ↦ b.word (4 * k)

/-- The indirect block with given numbers, and zeros after them. -/
def ofWords (ws : List Nat) : Block := gen fun i ↦ byteOf (ws.getD (i / 4) 0) (i % 4)

@[simp] theorem length_words (b : Block) : b.words.length = 128 := by
  simp [words, nindirect_eq]

theorem word_ofWords (ws : List Nat) {k : Nat} (hk : k < 128) :
    (ofWords ws).word (4 * k) = ws.getD k 0 % 2 ^ 32 := by
  refine word_eq fun j hj ↦ ?_
  rw [ofWords, byte_gen _ (by omega), show (4 * k + j) / 4 = k by omega,
    show (4 * k + j) % 4 = j by omega]

/-- The numbers that were stored in an indirect block are in it. -/
theorem take_words_ofWords {ws : List Nat} (h : ws.length ≤ 128) (hlt : ∀ w ∈ ws, w < 2 ^ 32) :
    (ofWords ws).words.take ws.length = ws := by
  refine List.ext_getElem (by simpa using h) fun i h₁ h₂ ↦ ?_
  simp only [words, List.getElem_take, List.getElem_map, List.getElem_range]
  rw [word_ofWords ws (by omega), List.getD_eq_getElem _ _ h₂,
    Nat.mod_eq_of_lt (hlt _ (List.getElem_mem h₂))]

/-! ## Bits -/

/-- The mask `1 << (off % 8)`. -/
def mask (off : Nat) : UInt8 := 1 <<< UInt8.ofNat (off % 8)

/-- Is the bit at an offset set? -/
def bit (b : Block) (off : Nat) : Bool := b.byte (off / 8) &&& mask off != 0

/-- Set the bit at an offset. -/
def setBit (b : Block) (off : Nat) : Block :=
  gen fun i ↦ if i = off / 8 then b.byte i ||| mask off else b.byte i

/-- Clear the bit at an offset. -/
def clearBit (b : Block) (off : Nat) : Block :=
  gen fun i ↦ if i = off / 8 then b.byte i &&& ~~~ mask off else b.byte i

theorem toNat_mask (off : Nat) : (mask off).toNat = 2 ^ (off % 8) := by
  have h : off % 8 < 8 := Nat.mod_lt _ (by omega)
  rw [mask]
  generalize off % 8 = k at h
  interval_cases k <;> rfl

/-- The test with the mask tests one bit. -/
theorem bit_eq (b : Block) (off : Nat) :
    b.bit off = (b.byte (off / 8)).toNat.testBit (off % 8) := by
  rw [bit, bne, Bool.eq_iff_iff, Bool.not_eq_true', beq_eq_false_iff_ne, ne_eq, ← UInt8.toNat_inj,
    UInt8.toNat_and, toNat_mask, UInt8.toNat_zero, Nat.and_two_pow]
  cases (b.byte (off / 8)).toNat.testBit (off % 8) <;> simp

theorem testBit_compl_mask (off : Nat) {k : Nat} (hk : k < 8) :
    (~~~ mask off).toNat.testBit k = !decide (k = off % 8) := by
  have h : off % 8 < 8 := Nat.mod_lt _ (by omega)
  rw [UInt8.toNat_not, toNat_mask]
  generalize off % 8 = j at h
  interval_cases j <;> interval_cases k <;> rfl

/-- Setting a bit sets that bit. -/
theorem bit_setBit (b : Block) {off off' : Nat} (h : off' < 4096) :
    (b.setBit off).bit off' = (decide (off' = off) || b.bit off') := by
  rw [bit_eq, bit_eq, setBit, byte_gen _ (by omega)]
  split
  · rename_i e
    rw [UInt8.toNat_or, Nat.testBit_or, toNat_mask, Nat.testBit_two_pow, Bool.or_comm]
    congr 1
    exact decide_eq_decide.2 (by omega)
  · rename_i e
    have hne : off' ≠ off := by rintro rfl; exact e rfl
    simp [hne]

/-- Clearing a bit clears that bit. -/
theorem bit_clearBit (b : Block) {off off' : Nat} (h : off' < 4096) :
    (b.clearBit off).bit off' = (!decide (off' = off) && b.bit off') := by
  rw [bit_eq, bit_eq, clearBit, byte_gen _ (by omega)]
  split
  · rename_i e
    rw [UInt8.toNat_and, Nat.testBit_and, testBit_compl_mask _ (Nat.mod_lt _ (by omega)),
      Bool.and_comm]
    congr 2
    exact decide_eq_decide.2 (by omega)
  · rename_i e
    have hne : off' ≠ off := by rintro rfl; exact e rfl
    simp [hne]

end Block

/-! ## Inodes -/

/-- `struct inode`. -/
structure Inode where
  type : Nat
  size : Nat
  atime : Nat
  mtime : Nat
  ctime : Nat
  /-- The numbers of the direct blocks, and at the end of the indirect block. -/
  blocks : Vector Nat (ndirect + 1)

namespace Inode

/-- `inode->blocks[k]`. -/
def block (ino : Inode) (k : Nat) : Nat := ino.blocks[k]?.getD 0

/-- The inode at the beginning of a block. -/
def read (b : Block) : Inode where
  type := b.short 0
  size := b.word 4
  atime := b.word 8
  mtime := b.word 12
  ctime := b.word 16
  blocks := Vector.ofFn fun k ↦ b.word (20 + 4 * k)

/-- Store an inode at the beginning of a block.  The two bytes of padding after the type and the
rest of the block stay. -/
def write (ino : Inode) (b : Block) : Block :=
  Block.gen fun i ↦
    if i < 2 then Block.byteOf ino.type i
    else if i < 4 then b.byte i
    else if i < 8 then Block.byteOf ino.size (i - 4)
    else if i < 12 then Block.byteOf ino.atime (i - 8)
    else if i < 16 then Block.byteOf ino.mtime (i - 12)
    else if i < 20 then Block.byteOf ino.ctime (i - 16)
    else if i < 152 then Block.byteOf (ino.block ((i - 20) / 4)) ((i - 20) % 4)
    else b.byte i

variable (ino : Inode) (b : Block)

@[simp] theorem read_write_type : (read (ino.write b)).type = ino.type % 2 ^ 16 := by
  refine Block.short_eq ?_ ?_ <;> simp [write]

@[simp] theorem read_write_size : (read (ino.write b)).size = ino.size % 2 ^ 32 := by
  refine Block.word_eq fun k hk ↦ ?_
  interval_cases k <;> simp [write]

@[simp] theorem read_write_atime : (read (ino.write b)).atime = ino.atime % 2 ^ 32 := by
  refine Block.word_eq fun k hk ↦ ?_
  interval_cases k <;> simp [write]

@[simp] theorem read_write_mtime : (read (ino.write b)).mtime = ino.mtime % 2 ^ 32 := by
  refine Block.word_eq fun k hk ↦ ?_
  interval_cases k <;> simp [write]

@[simp] theorem read_write_ctime : (read (ino.write b)).ctime = ino.ctime % 2 ^ 32 := by
  refine Block.word_eq fun k hk ↦ ?_
  interval_cases k <;> simp [write]

theorem read_write_block {k : Nat} (hk : k < 33) :
    (read (ino.write b)).block k = ino.block k % 2 ^ 32 := by
  have : (read (ino.write b)).block k = (ino.write b).word (20 + 4 * k) := by
    simp [block, read, ndirect, hk]
  rw [this]
  refine Block.word_eq fun j hj ↦ ?_
  rw [write, Block.byte_gen _ (by omega)]
  repeat rw [if_neg (by omega)]
  rw [if_pos (by omega), show (20 + 4 * k + j - 20) / 4 = k by omega,
    show (20 + 4 * k + j - 20) % 4 = j by omega]

end Inode

end Extent
end Yfs
