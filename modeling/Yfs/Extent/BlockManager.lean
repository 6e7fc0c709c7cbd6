import Yfs.Machine.Prog
import Yfs.Extent.Layout

/-!
# The disk and its bitmap

`disk` and `block_manager`.  Everything above the disk is a program that reads and writes whole
blocks (`DiskM`), because that is the granularity at which two requests to the server can get into
each other's way; executed alone, a program takes one disk to another (`exec`).

The bitmap marks the blocks in use.  `Disk.used` reads a bit of it, and the three facts that the
layers above need are that `alloc_block` finds and marks the first free block (`alloc_cases`), that
`free_block` unmarks a block (`exec_freeBlock`), and that neither touches anything but the bitmap.
-/

set_option autoImplicit false

namespace Yfs
namespace Extent

open Machine

/-- How a request can bring the server down. -/
inductive Fault where
  /-- A null inode pointer is used. -/
  | nullInode
  /-- An index into the indirect table is out of its bounds. -/
  | indexOut
  /-- The server has called `exit`. -/
  | exited
  deriving DecidableEq, Repr

/-- The contents of the disk. -/
abbrev Disk := Nat → Block

/-- A program that reads and writes blocks. -/
abbrev DiskM (α : Type) := Prog (MemCmd Nat Block) MemCmd.Ans Fault α

/-- Execute a program alone. -/
def exec {α : Type} (p : DiskM α) (d : Disk) : Except Fault (α × Disk) := p.run MemCmd.exec d

/-- `disk::read_block`: a number that is out of range leaves the buffer as it was. -/
def readBlock (bnum : Nat) (buf : Block) : DiskM Block :=
  if bnum ≥ blockNum then pure buf else Prog.ask (MemCmd.read bnum)

/-- `disk::write_block`: a number that is out of range is ignored. -/
def writeBlock (bnum : Nat) (buf : Block) : DiskM Unit :=
  if bnum ≥ blockNum then pure () else Prog.ask (MemCmd.write bnum buf)

section exec

variable {α β : Type} {d d' : Disk} {a : α}

@[simp] theorem exec_pure : exec (pure a) d = .ok (a, d) := rfl

@[simp] theorem exec_throw (e : Fault) : exec (.throw e : DiskM α) d = .error e := rfl

theorem exec_bind {p : DiskM α} {f : α → DiskM β} (h : exec p d = .ok (a, d')) :
    exec (p >>= f) d = exec (f a) d' := Prog.run_bind_ok h

theorem exec_bind_eq_ok {p : DiskM α} {f : α → DiskM β} {b : β} :
    exec (p >>= f) d = .ok (b, d') ↔ ∃ a d₁, exec p d = .ok (a, d₁) ∧ exec (f a) d₁ = .ok (b, d') :=
  Prog.run_bind_eq_ok

theorem exec_bind_eq_error {p : DiskM α} {f : α → DiskM β} {e : Fault} :
    exec (p >>= f) d = .error e ↔
      exec p d = .error e ∨ ∃ a d₁, exec p d = .ok (a, d₁) ∧ exec (f a) d₁ = .error e :=
  Prog.run_bind_eq_error

theorem exec_total {p : DiskM α} (hp : p.Total) (d : Disk) : ∃ a d', exec p d = .ok (a, d') :=
  hp.exists_run _ d

theorem exec_map (f : α → β) {p : DiskM α} (h : exec p d = .ok (a, d')) :
    exec (f <$> p) d = .ok (f a, d') := by
  rw [exec] at h
  rw [exec, Prog.run_map, h]
  rfl

theorem exec_map_eq_ok {f : α → β} {p : DiskM α} {b : β} :
    exec (f <$> p) d = .ok (b, d') ↔ ∃ a, exec p d = .ok (a, d') ∧ f a = b := by
  rw [exec, Prog.run_map, exec]
  cases p.run MemCmd.exec d with
  | error e => simp [Except.map]
  | ok x => simp [Except.map, Prod.ext_iff, and_comm]

theorem exec_map_eq_error {f : α → β} {p : DiskM α} {e : Fault} :
    exec (f <$> p) d = .error e ↔ exec p d = .error e := by
  rw [exec, Prog.run_map, exec]
  cases p.run MemCmd.exec d <;> simp [Except.map]

theorem exec_readBlock {b : Nat} (h : b < blockNum) (buf : Block) :
    exec (readBlock b buf) d = .ok (d b, d) := by
  rw [readBlock, if_neg (by omega)]
  rfl

theorem exec_writeBlock {b : Nat} (h : b < blockNum) (buf : Block) :
    exec (writeBlock b buf) d = .ok ((), Function.update d b buf) := by
  rw [writeBlock, if_neg (by omega)]
  rfl

end exec

/-! ## The bitmap -/

namespace Disk

/-- Is the block marked as used? -/
def used (d : Disk) (b : Nat) : Bool := (d (bblock b)).bit (b % bpb)

/-- Mark a block as used. -/
def setUsed (d : Disk) (b : Nat) : Disk :=
  Function.update d (bblock b) ((d (bblock b)).setBit (b % bpb))

/-- Mark a block as free. -/
def setFree (d : Disk) (b : Nat) : Disk :=
  Function.update d (bblock b) ((d (bblock b)).clearBit (b % bpb))

theorem bblock_lt {b : Nat} (h : b < blockNum) : bblock b < 10 := by
  simp only [bblock_eq, blockNum_eq] at *
  omega

theorem two_le_bblock (b : Nat) : 2 ≤ bblock b := Nat.le_add_left _ _

theorem mod_lt_bpb (b : Nat) : b % bpb < 4096 := Nat.mod_lt _ (by decide)

/-- A block is known by its bitmap block and its bit there. -/
theorem eq_iff_bit {b b' : Nat} : b' = b ↔ bblock b' = bblock b ∧ b' % bpb = b % bpb := by
  simp only [bblock_eq, bpb_eq]
  omega

theorem used_setUsed (d : Disk) (b b' : Nat) :
    (d.setUsed b).used b' = (decide (b' = b) || d.used b') := by
  rw [used, setUsed, Function.update_apply, used]
  split
  · rename_i e
    rw [Block.bit_setBit _ (mod_lt_bpb b'), e]
    congr 1
    exact decide_eq_decide.2 ⟨fun h ↦ eq_iff_bit.2 ⟨e, h⟩, fun h ↦ h ▸ rfl⟩
  · rename_i e
    have hne : b' ≠ b := by rintro rfl; exact e rfl
    simp [hne]

theorem used_setFree (d : Disk) (b b' : Nat) :
    (d.setFree b).used b' = (!decide (b' = b) && d.used b') := by
  rw [used, setFree, Function.update_apply, used]
  split
  · rename_i e
    rw [Block.bit_clearBit _ (mod_lt_bpb b'), e]
    congr 2
    exact decide_eq_decide.2 ⟨fun h ↦ eq_iff_bit.2 ⟨e, h⟩, fun h ↦ h ▸ rfl⟩
  · rename_i e
    have hne : b' ≠ b := by rintro rfl; exact e rfl
    simp [hne]

/-- Two disks that differ at most in the bitmap. -/
def SameData (d d' : Disk) : Prop := ∀ x, (x < 2 ∨ 10 ≤ x) → d' x = d x

theorem SameData.refl (d : Disk) : SameData d d := fun _ _ ↦ rfl

theorem SameData.trans {d₁ d₂ d₃ : Disk} (h₁ : SameData d₁ d₂) (h₂ : SameData d₂ d₃) :
    SameData d₁ d₃ := fun x hx ↦ (h₂ x hx).trans (h₁ x hx)

theorem sameData_setUsed (d : Disk) {b : Nat} (h : b < blockNum) : SameData d (d.setUsed b) := by
  intro x hx
  have h₁ := bblock_lt h
  have h₂ := two_le_bblock b
  exact Function.update_of_ne (by omega) _ _

theorem sameData_setFree (d : Disk) {b : Nat} (h : b < blockNum) : SameData d (d.setFree b) := by
  intro x hx
  have h₁ := bblock_lt h
  have h₂ := two_le_bblock b
  exact Function.update_of_ne (by omega) _ _

/-- The bitmap does not depend on the rest of the disk. -/
theorem used_update (d : Disk) {x b : Nat} (blk : Block) (hb : b < blockNum) (hx : 10 ≤ x) :
    used (Function.update d x blk) b = d.used b := by
  have h₁ := bblock_lt hb
  rw [used, Function.update_of_ne (by omega), used]

end Disk

/-! ## Allocation -/

/-- The first bit of a bitmap block that is clear. -/
def firstClear (buf : Block) : Option Nat := (List.range bpb).find? fun off ↦ !buf.bit off

theorem firstClear_eq_some {buf : Block} {off : Nat} (h : firstClear buf = some off) :
    off < 4096 ∧ buf.bit off = false ∧ ∀ j, j < off → buf.bit j = true := by
  rw [firstClear, List.find?_range_eq_some] at h
  obtain ⟨h₁, h₂, h₃⟩ := h
  exact ⟨List.mem_range.1 h₂, by simpa using h₁, fun j hj ↦ by simpa using h₃ j hj⟩

theorem firstClear_eq_none {buf : Block} (h : firstClear buf = none) {off : Nat}
    (hoff : off < 4096) : buf.bit off = true := by
  rw [firstClear, List.find?_eq_none] at h
  simpa using h off (List.mem_range.2 hoff)

-- its value is only ever used through the two lemmas above
attribute [irreducible] firstClear

/-- The loop of `alloc_block`, over the numbers of the first block of each bitmap block. -/
def allocScan : List Nat → DiskM Nat
  | [] => pure 0
  | bnum :: rest => do
    let buf ← readBlock (bblock bnum) .zero
    match firstClear buf with
    | some off =>
      writeBlock (bblock bnum) (buf.setBit off)
      pure (bnum + off)
    | none => allocScan rest

/-- `block_manager::alloc_block`.  A full disk is reported as block 0. -/
def allocBlock : DiskM Nat := allocScan ((List.range (blockNum / bpb)).map (· * bpb))

/-- `block_manager::free_block`. -/
def freeBlock (bnum : Nat) : DiskM Unit :=
  if bnum ≤ bblock blockNum then pure ()
  else do
    let buf ← readBlock (bblock bnum) .zero
    writeBlock (bblock bnum) (buf.clearBit (bnum % bpb))

/-- The scan over the bitmap blocks `k`, …, `k + n - 1` takes the first free block there. -/
theorem allocScan_cases (d : Disk) (n k : Nat) (hk : k + n ≤ 8) :
    (∃ b, 4096 * k ≤ b ∧ b < 4096 * (k + n) ∧ d.used b = false ∧
      (∀ b', 4096 * k ≤ b' → b' < b → d.used b' = true) ∧
      exec (allocScan ((List.range' k n).map (· * bpb))) d = .ok (b, d.setUsed b)) ∨
    ((∀ b, 4096 * k ≤ b → b < 4096 * (k + n) → d.used b = true) ∧
      exec (allocScan ((List.range' k n).map (· * bpb))) d = .ok (0, d)) := by
  induction n generalizing k with
  | zero =>
    refine Or.inr ⟨fun b h₁ h₂ ↦ by omega, rfl⟩
  | succ n ih =>
    rw [List.range'_succ, List.map_cons, allocScan]
    have hb : ∀ j, j < 4096 → bblock (4096 * k + j) = bblock (k * bpb) := by
      intro j hj
      simp only [bblock_eq, bpb_eq]
      omega
    have hm : ∀ j, j < 4096 → (4096 * k + j) % bpb = j := by
      intro j hj
      simp only [bpb_eq]
      omega
    have hbit : ∀ j, j < 4096 → d.used (4096 * k + j) = (d (bblock (k * bpb))).bit j := by
      intro j hj
      rw [Disk.used, hb j hj, hm j hj]
    have hread := exec_readBlock (d := d) (b := bblock (k * bpb))
      (by simp only [bblock_eq, bpb_eq, blockNum_eq]; omega) .zero
    rw [exec_bind hread]
    cases hf : firstClear (d (bblock (k * bpb))) with
    | some off =>
      obtain ⟨hoff, hclear, hset⟩ := firstClear_eq_some hf
      refine Or.inl ⟨4096 * k + off, by omega, by omega, by rw [hbit off hoff]; exact hclear,
        fun b' h₁ h₂ ↦ ?_, ?_⟩
      · obtain ⟨j, rfl⟩ := Nat.exists_eq_add_of_le h₁
        rw [hbit j (by omega)]
        exact hset j (by omega)
      · have hwrite := exec_writeBlock (d := d) (b := bblock (k * bpb))
          (by simp only [bblock_eq, bpb_eq, blockNum_eq]; omega)
          ((d (bblock (k * bpb))).setBit off)
        simp only
        rw [exec_bind hwrite, exec_pure, Disk.setUsed, hb off hoff, hm off hoff,
          show k * bpb = 4096 * k from Nat.mul_comm _ _]
    | none =>
      have hfull : ∀ b, 4096 * k ≤ b → b < 4096 * (k + 1) → d.used b = true := by
        intro b h₁ h₂
        obtain ⟨j, rfl⟩ := Nat.exists_eq_add_of_le h₁
        rw [hbit j (by omega)]
        exact firstClear_eq_none hf (by omega)
      rcases ih (k + 1) (by omega) with ⟨b, h₁, h₂, h₃, h₄, h₅⟩ | ⟨h₁, h₂⟩
      · refine Or.inl ⟨b, by omega, by omega, h₃, fun b' hb' hlt ↦ ?_, h₅⟩
        by_cases hin : b' < 4096 * (k + 1)
        · exact hfull b' hb' hin
        · exact h₄ b' (by omega) hlt
      · refine Or.inr ⟨fun b hb hlt ↦ ?_, h₂⟩
        by_cases hin : b < 4096 * (k + 1)
        · exact hfull b hb hin
        · exact h₁ b (by omega) (by omega)

/-- **Allocation is first fit.**  `alloc_block` returns the first free block and marks it, or
reports a full disk and changes nothing. -/
theorem alloc_cases (d : Disk) :
    (∃ b, b < blockNum ∧ d.used b = false ∧ (∀ b', b' < b → d.used b' = true) ∧
      exec allocBlock d = .ok (b, d.setUsed b)) ∨
    ((∀ b, b < blockNum → d.used b = true) ∧ exec allocBlock d = .ok (0, d)) := by
  have h := allocScan_cases d 8 0 (by omega)
  rw [← List.range_eq_range'] at h
  rcases h with ⟨b, -, h₂, h₃, h₄, h₅⟩ | ⟨h₁, h₂⟩
  · exact Or.inl ⟨b, by rw [blockNum_eq]; omega, h₃, fun b' hb' ↦ h₄ b' (by omega) hb', h₅⟩
  · exact Or.inr ⟨fun b hb ↦ h₁ b (by omega) (by rw [blockNum_eq] at hb; omega), h₂⟩

theorem exec_freeBlock (d : Disk) {b : Nat} (h : 10 < b) (hb : b < blockNum) :
    exec (freeBlock b) d = .ok ((), d.setFree b) := by
  have hlt := Disk.bblock_lt hb
  have hn : bblock b < blockNum := by simp only [blockNum_eq]; omega
  rw [freeBlock, if_neg (by simp only [bblock_eq, blockNum_eq]; omega),
    exec_bind (exec_readBlock hn _), exec_writeBlock hn]
  rfl

/-! ## Programs that cannot fail -/

theorem total_readBlock (b : Nat) (buf : Block) : (readBlock b buf).Total := by
  rw [readBlock]
  split
  · trivial
  · exact Prog.total_ask _

theorem total_writeBlock (b : Nat) (buf : Block) : (writeBlock b buf).Total := by
  rw [writeBlock]
  split
  · trivial
  · exact Prog.total_ask _

theorem total_allocScan (bnums : List Nat) : (allocScan bnums).Total := by
  induction bnums with
  | nil => trivial
  | cons bnum rest ih =>
    refine (total_readBlock _ _).bind fun buf ↦ ?_
    split
    · exact (total_writeBlock _ _).bind fun _ ↦ trivial
    · exact ih

theorem total_freeBlock (b : Nat) : (freeBlock b).Total := by
  rw [freeBlock]
  split
  · trivial
  · exact (total_readBlock _ _).bind fun _ ↦ total_writeBlock _ _

/-! ## Formatting -/

/-- Call `alloc_block` a number of times. -/
def allocTimes : Nat → DiskM Unit
  | 0 => pure ()
  | n + 1 => do
    let _ ← allocBlock
    allocTimes n

/-- `block_manager::block_manager`, on a disk of zeros. -/
def blockManager : DiskM Unit := allocTimes (blockNum / bpb + inodeNum / ipb + 2)

/-- The first `n` calls on a disk whose first `k` blocks are used take the next `n` blocks. -/
theorem exec_allocTimes (n k : Nat) (hn : k + n ≤ blockNum) (d : Disk)
    (hd : ∀ b, b < blockNum → (d.used b = true ↔ b < k)) :
    ∃ d', exec (allocTimes n) d = .ok ((), d') ∧ Disk.SameData d d' ∧
      ∀ b, b < blockNum → (d'.used b = true ↔ b < k + n) := by
  induction n generalizing k d with
  | zero => exact ⟨d, rfl, .refl d, hd⟩
  | succ n ih =>
    have hk : k < blockNum := by omega
    have hfree : d.used k = false := by
      rw [← Bool.not_eq_true, hd k hk]
      omega
    have hset : ∀ b, b < blockNum → ((d.setUsed k).used b = true ↔ b < k + 1) := by
      intro b hb
      rw [Disk.used_setUsed, Bool.or_eq_true, decide_eq_true_iff, hd b hb]
      omega
    have halloc : exec allocBlock d = .ok (k, d.setUsed k) := by
      rcases alloc_cases d with ⟨b, hb, hbf, hlow, he⟩ | ⟨hall, -⟩
      · have h₁ : ¬ b < k := fun hlt ↦ by simp [(hd b hb).2 hlt] at hbf
        have h₂ : ¬ k < b := fun hlt ↦ by simp [hlow k hlt] at hfree
        obtain rfl : b = k := by omega
        exact he
      · exact absurd (hall k hk) (by simp [hfree])
    obtain ⟨d', he, hsame, hused⟩ := ih (k + 1) (by omega) (d.setUsed k) hset
    refine ⟨d', ?_, (Disk.sameData_setUsed d hk).trans hsame, fun b hb ↦ ?_⟩
    · rw [allocTimes, exec_bind halloc, he]
    · rw [hused b hb]
      omega

end Extent
end Yfs
