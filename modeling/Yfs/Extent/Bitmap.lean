import Mathlib.Order.Bounds.Basic
import Yfs.Extent.BlockManager

/-!
# The bitmap, bit by bit

`alloc_block` and `free_block` once more, this time as they stand: with a buffer of `char`s, which
are signed, with masks that are made into `int`s before they are used, and with a loop inside a
loop.  The mask of the last bit of a byte is -128.  What is in the buffer at first is not known.

They are the two programs of `Yfs.Extent.BlockManager` (`Signed.allocBlock_eq`,
`Signed.freeBlock_eq`), so what is said there and above is about them.

The bitmap is one string of bits that begins at the beginning of block 2 (`Disk.bitmap`).  The two
functions take a block number apart in two different ways, one by counting and one by dividing.
Each changes one bit of that string and nothing else on the disk, and it is the same bit
(`bitmap_exact`).
-/

set_option autoImplicit false

namespace Yfs
namespace Extent

open Machine

namespace Block

/-! ## Signed bytes -/

/-- `buf[i]`, with its sign. -/
def char (buf : Block) (i : Nat) : Int8 := (buf.byte i).toInt8

/-- `buf[i] = c`. -/
def setChar (buf : Block) (i : Nat) (c : Int8) : Block :=
  gen fun j ↦ if j = i then c.toUInt8 else buf.byte j

end Block

namespace Signed

/-- `(char) (1 << (off % 8))`. -/
def mask (off : Nat) : Int8 := ((1 : Int32) <<< Int32.ofNat (off % 8)).toInt8

/-- The body of the inner loop of `alloc_block`, over the offsets that are left.  Both operands of
`&` and of `|` are `int`s. -/
def scanBits (buf : Block) : List Nat → Option (Nat × Block)
  | [] => none
  | off :: offs =>
    if (buf.char (off / 8)).toInt32 &&& (mask off).toInt32 = 0 then
      some (off, buf.setChar (off / 8) ((buf.char (off / 8)).toInt32 ||| (mask off).toInt32).toInt8)
    else scanBits buf offs

/-- The inner loop of `alloc_block`. -/
def scanBlock (buf : Block) : Option (Nat × Block) := scanBits buf (List.range bpb)

/-! ## The sign does not matter -/

theorem mask_eq (off : Nat) : mask off = (Block.mask off).toInt8 := by
  have h : off % 8 < 8 := Nat.mod_lt _ (by omega)
  rw [mask, Block.mask]
  generalize off % 8 = k at h
  interval_cases k <;> rfl

/-- A test of two `char`s as `int`s is a test of the `char`s: an extended sign is in both or it is
masked out. -/
theorem toInt32_and_eq_zero {a b : Int8} : a.toInt32 &&& b.toInt32 = 0 ↔ a &&& b = 0 := by
  rw [← Int8.toInt32_and]
  constructor
  · intro h
    have h' := congrArg Int32.toInt8 h
    rwa [Int8.toInt8_toInt32] at h'
  · intro h
    rw [h]
    rfl

theorem test_eq_zero (buf : Block) (off : Nat) :
    (buf.char (off / 8)).toInt32 &&& (mask off).toInt32 = 0 ↔ buf.bit off = false := by
  rw [toInt32_and_eq_zero, mask_eq, Block.char, ← UInt8.toInt8_and, Block.bit, bne_eq_false_iff_eq]
  exact ⟨fun h ↦ congrArg Int8.toUInt8 h, fun h ↦ congrArg UInt8.toInt8 h⟩

theorem setChar_or (buf : Block) (off : Nat) :
    buf.setChar (off / 8) ((buf.char (off / 8)).toInt32 ||| (mask off).toInt32).toInt8 =
      buf.setBit off := by
  have hbyte : ((buf.char (off / 8)).toInt32 ||| (mask off).toInt32).toInt8.toUInt8 =
      buf.byte (off / 8) ||| Block.mask off := by
    rw [Int32.toInt8_or, Int8.toInt8_toInt32, Int8.toInt8_toInt32, Int8.toUInt8_or, mask_eq,
      Block.char]
    rfl
  rw [Block.setChar, hbyte, Block.setBit]
  congr 1
  funext i
  split
  · rename_i e
    rw [e]
  · rfl

theorem setChar_and (buf : Block) (off : Nat) :
    buf.setChar (off / 8) ((buf.char (off / 8)).toInt32 &&&
      ~~~ ((1 : Int32) <<< Int32.ofNat (off % 8))).toInt8 = buf.clearBit off := by
  have hbyte : ((buf.char (off / 8)).toInt32 &&&
      ~~~ ((1 : Int32) <<< Int32.ofNat (off % 8))).toInt8.toUInt8 =
      buf.byte (off / 8) &&& ~~~ Block.mask off := by
    rw [Int32.toInt8_and, Int8.toInt8_toInt32, Int32.toInt8_not, ← mask, mask_eq, Int8.toUInt8_and,
      Int8.toUInt8_not, Block.char]
    rfl
  rw [Block.setChar, hbyte, Block.clearBit]
  congr 1
  funext i
  split
  · rename_i e
    rw [e]
  · rfl

theorem scanBits_eq (buf : Block) (offs : List Nat) :
    scanBits buf offs =
      (offs.find? fun off ↦ !buf.bit off).map fun off ↦ (off, buf.setBit off) := by
  induction offs with
  | nil => rfl
  | cons off offs ih =>
    rw [scanBits, List.find?_cons, ih]
    by_cases h : buf.bit off = false
    · rw [if_pos ((test_eq_zero buf off).2 h), setChar_or, h]
      rfl
    · rw [if_neg fun h' ↦ h ((test_eq_zero buf off).1 h')]
      rw [Bool.not_eq_false] at h
      rw [h]
      rfl

theorem scanBlock_eq (buf : Block) :
    scanBlock buf = (firstClear buf).map fun off ↦ (off, buf.setBit off) := by
  rw [scanBlock, scanBits_eq]
  unfold firstClear
  rfl

-- as with `firstClear`, nobody should count to 4096
attribute [irreducible] scanBlock

/-! ## The two functions -/

/-- The outer loop of `alloc_block`, over the values that `bnum` still takes. -/
def allocLoop (buf : Block) : List Nat → DiskM Nat
  | [] => pure 0
  | bnum :: bnums => do
    let buf ← readBlock (bblock bnum) buf
    match scanBlock buf with
    | some (off, buf) =>
      writeBlock (bblock bnum) buf
      pure (bnum + off)
    | none => allocLoop buf bnums

/-- `block_manager::alloc_block`, with what is in its buffer at first. -/
def allocBlock (buf : Block) : DiskM Nat :=
  allocLoop buf ((List.range (blockNum / bpb)).map (· * bpb))

/-- `block_manager::free_block`, with what is in its buffer at first. -/
def freeBlock (buf : Block) (bnum : Nat) : DiskM Unit :=
  if bnum ≤ bblock blockNum then pure ()
  else do
    let buf ← readBlock (bblock bnum) buf
    let offset := bnum % bpb
    writeBlock (bblock bnum) (buf.setChar (offset / 8)
      ((buf.char (offset / 8)).toInt32 &&& ~~~ ((1 : Int32) <<< Int32.ofNat (offset % 8))).toInt8)

/-- A block that is on the disk replaces all of the buffer. -/
theorem readBlock_congr {b : Nat} (h : b < blockNum) (buf buf' : Block) :
    readBlock b buf = readBlock b buf' := by
  rw [readBlock, readBlock, if_neg (by omega), if_neg (by omega)]

theorem allocLoop_eq (buf : Block) {bnums : List Nat} (h : ∀ bnum ∈ bnums, bblock bnum < blockNum) :
    allocLoop buf bnums = allocScan bnums := by
  induction bnums generalizing buf with
  | nil => rfl
  | cons bnum bnums ih =>
    rw [allocLoop, allocScan, readBlock_congr (h bnum List.mem_cons_self) buf .zero]
    refine congrArg (readBlock (bblock bnum) .zero >>= ·) (funext fun buf ↦ ?_)
    rw [scanBlock_eq]
    cases firstClear buf with
    | some off => rfl
    | none => exact ih _ fun b hb ↦ h b (List.mem_cons_of_mem _ hb)

/-- **The loops of `alloc_block` are the scan**, whatever is in the buffer. -/
theorem allocBlock_eq (buf : Block) : allocBlock buf = Extent.allocBlock := by
  refine allocLoop_eq buf fun bnum hb ↦ ?_
  obtain ⟨k, hk, rfl⟩ := List.mem_map.1 hb
  rw [List.mem_range] at hk
  simp only [bblock_eq, blockNum_eq, bpb_eq] at hk ⊢
  omega

theorem freeBlock_eq (buf : Block) (bnum : Nat) : freeBlock buf bnum = Extent.freeBlock bnum := by
  rw [freeBlock, Extent.freeBlock]
  split
  · rfl
  · by_cases hb : bblock bnum < blockNum
    · simp only [setChar_and, readBlock_congr hb buf .zero]
    · -- nothing is read and nothing is written
      have hread : ∀ b : Block, readBlock (bblock bnum) b = pure b := fun b ↦ if_pos (by omega)
      have hwrite : ∀ b : Block, writeBlock (bblock bnum) b = pure () := fun b ↦ if_pos (by omega)
      rw [hread, hread]
      exact (hwrite _).trans (hwrite _).symm

end Signed

/-! ## One bit at a time -/

theorem Block.ext_bit {blk blk' : Block} (h : ∀ off, off < 4096 → blk'.bit off = blk.bit off) :
    blk' = blk := by
  have hbyte : ∀ i, i < 512 → blk'.byte i = blk.byte i := by
    intro i hi
    refine UInt8.toNat_inj.1 (Nat.eq_of_testBit_eq fun k ↦ ?_)
    by_cases hk : k < 8
    · have hbit := h (8 * i + k) (by omega)
      rw [bit_eq, bit_eq] at hbit
      rwa [show (8 * i + k) / 8 = i by omega, show (8 * i + k) % 8 = k by omega] at hbit
    · have hpow : 2 ^ 8 ≤ 2 ^ k := Nat.pow_le_pow_right (by omega) (by omega)
      rw [Nat.testBit_lt_two_pow (lt_of_lt_of_le (UInt8.toNat_lt _) hpow),
        Nat.testBit_lt_two_pow (lt_of_lt_of_le (UInt8.toNat_lt _) hpow)]
  refine Vector.ext fun i hi ↦ ?_
  have := hbyte i hi
  rwa [byte, byte, Vector.getElem?_eq_getElem hi, Vector.getElem?_eq_getElem hi, Option.getD_some,
    Option.getD_some] at this

namespace Disk

/-- Bit `b` of the string of bits that begins with block 2.  The lowest bit of a byte is its
first. -/
def bitmap (d : Disk) (b : Nat) : Bool :=
  ((d (2 + b / 8 / 512)).byte (b / 8 % 512)).toNat.testBit (b % 8)

theorem bitmap_eq (d : Disk) (b : Nat) : d.bitmap b = d.used b := by
  rw [bitmap, used, Block.bit_eq, bblock_eq, bpb_eq, show b % 4096 / 8 = b / 8 % 512 by omega,
    show b % 4096 % 8 = b % 8 by omega, show b / 4096 + 2 = 2 + b / 8 / 512 by omega]

/-- Bit `b` has become `v`, and nothing else has changed. -/
structure OnlyBit (d : Disk) (b : Nat) (v : Bool) (d' : Disk) : Prop where
  bit : d'.bitmap b = v
  bits : ∀ b', b' ≠ b → d'.bitmap b' = d.bitmap b'
  blocks : ∀ x, x ≠ bblock b → d' x = d x

theorem onlyBit_setUsed (d : Disk) (b : Nat) : OnlyBit d b true (d.setUsed b) where
  bit := by rw [bitmap_eq, used_setUsed]; simp
  bits b' hb := by rw [bitmap_eq, bitmap_eq, used_setUsed]; simp [hb]
  blocks _ hx := Function.update_of_ne hx _ _

theorem onlyBit_setFree (d : Disk) (b : Nat) : OnlyBit d b false (d.setFree b) where
  bit := by rw [bitmap_eq, used_setFree]; simp
  bits b' hb := by rw [bitmap_eq, bitmap_eq, used_setFree]; simp [hb]
  blocks _ hx := Function.update_of_ne hx _ _

/-- A bit that is set and cleared again is as it was, and so is everything else. -/
theorem OnlyBit.restore {d d₁ d₂ : Disk} {b : Nat} {v : Bool} (h₁ : OnlyBit d b v d₁)
    (h₂ : OnlyBit d₁ b (d.bitmap b) d₂) : d₂ = d := by
  have hbits : ∀ b', d₂.bitmap b' = d.bitmap b' := by
    intro b'
    by_cases hb : b' = b
    · rw [hb, h₂.bit]
    · rw [h₂.bits b' hb, h₁.bits b' hb]
  funext x
  by_cases hx : x = bblock b
  · subst hx
    refine Block.ext_bit fun off hoff ↦ ?_
    -- the bit at this offset is the bit of a block with the same bitmap block as `b`
    have hbit := hbits (4096 * (b / 4096) + off)
    rw [bitmap_eq, bitmap_eq, used, used, bpb_eq, bblock_eq,
      show (4096 * (b / 4096) + off) / 4096 = b / 4096 by omega,
      show (4096 * (b / 4096) + off) % 4096 = off by omega] at hbit
    exact hbit
  · rw [h₂.blocks x hx, h₁.blocks x hx]

end Disk

/-- **The bitmap is exact.**  On a disk whose bit 0 is set, `alloc_block` sets the first bit that is
clear and returns its number, or it returns 0 if there is none, and then nothing has changed.
`free_block` clears the bit of a block that is not in front of the inodes.  The one undoes the
other. -/
theorem bitmap_exact (buf buf' : Block) (d : Disk) :
    (d.bitmap 0 = true →
      ((∀ b, b < blockNum → d.bitmap b = true) →
        exec (Signed.allocBlock buf) d = .ok (0, d)) ∧
      ((∃ b, b < blockNum ∧ d.bitmap b = false) →
        ∃ b d', exec (Signed.allocBlock buf) d = .ok (b, d') ∧ b ≠ 0 ∧
          IsLeast {b | b < blockNum ∧ d.bitmap b = false} b ∧ d.OnlyBit b true d')) ∧
    (∀ b, bblock blockNum < b → b < blockNum →
      ∃ d', exec (Signed.freeBlock buf b) d = .ok ((), d') ∧ d.OnlyBit b false d') ∧
    (∀ b d', exec (Signed.allocBlock buf) d = .ok (b, d') → bblock blockNum < b →
      exec (Signed.freeBlock buf' b) d' = .ok ((), d)) := by
  simp only [Signed.allocBlock_eq, Signed.freeBlock_eq]
  refine ⟨fun h₀ ↦ ⟨fun hall ↦ ?_, fun ⟨b, hb, hclear⟩ ↦ ?_⟩, fun b hlow hb ↦ ?_,
    fun b d' halloc hlow ↦ ?_⟩
  · rcases alloc_cases d with ⟨b, hb, hbf, -, -⟩ | ⟨-, he⟩
    · rw [← Disk.bitmap_eq, hall b hb] at hbf
      exact absurd hbf (by simp)
    · exact he
  · rcases alloc_cases d with ⟨b, hb, hbf, hleast, he⟩ | ⟨hall, -⟩
    · refine ⟨b, d.setUsed b, he, ?_, ⟨⟨hb, (d.bitmap_eq b).trans hbf⟩, ?_⟩, d.onlyBit_setUsed b⟩
      · rintro rfl
        rw [← Disk.bitmap_eq, h₀] at hbf
        exact absurd hbf (by simp)
      · rintro b' ⟨-, hclear'⟩
        by_contra hlt
        rw [d.bitmap_eq, hleast b' (by omega)] at hclear'
        exact absurd hclear' (by simp)
    · rw [d.bitmap_eq, hall b hb] at hclear
      exact absurd hclear (by simp)
  · exact ⟨d.setFree b, exec_freeBlock d hlow hb, d.onlyBit_setFree b⟩
  · rcases alloc_cases d with ⟨b₁, hb, hbf, -, he⟩ | ⟨-, he⟩
    · rw [he] at halloc
      obtain ⟨rfl, rfl⟩ := Prod.mk.inj (Except.ok.inj halloc)
      rw [exec_freeBlock _ hlow hb]
      have hback := Disk.onlyBit_setFree (d.setUsed b₁) b₁
      rw [← hbf, ← d.bitmap_eq] at hback
      rw [(d.onlyBit_setUsed b₁).restore hback]
    · rw [he] at halloc
      obtain ⟨rfl, -⟩ := Prod.mk.inj (Except.ok.inj halloc)
      exact absurd hlow (by decide)

/-- A disk of zeros but for bit 0 has block 1 to give away. -/
theorem bitmap_exact_second :
    ∃ d', exec (Signed.allocBlock .zero) (Disk.setUsed (fun _ ↦ .zero) 0) = .ok (1, d') ∧
      Disk.OnlyBit (Disk.setUsed (fun _ ↦ .zero) 0) 1 true d' := by
  have hset : (Disk.setUsed (fun _ ↦ .zero) 0).bitmap 0 = true := (Disk.onlyBit_setUsed _ 0).bit
  have hclear : (Disk.setUsed (fun _ ↦ .zero) 0).bitmap 1 = false := by
    rw [(Disk.onlyBit_setUsed _ 0).bits 1 (by decide)]
    simp [Disk.bitmap, Block.zero]
  obtain ⟨b, d', he, hne, ⟨-, hleast⟩, honly⟩ :=
    ((bitmap_exact .zero .zero _).1 hset).2 ⟨1, by decide, hclear⟩
  have hle : b ≤ 1 := hleast ⟨by decide, hclear⟩
  obtain rfl : b = 1 := by omega
  exact ⟨d', he, honly⟩

end Extent
end Yfs
