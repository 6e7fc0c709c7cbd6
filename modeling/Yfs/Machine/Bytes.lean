import Mathlib.Data.Nat.Bitwise
import Mathlib.Logic.Function.Basic
import Mathlib.Tactic.Ring

/-!
# Bytes

Numbers as bytes in network order, and a memory in which whole sequences of cells are written and
read.

A memory is a function from addresses to cells.  That a cell has never been written is not recorded:
what is in it is whatever the function says, and a result that holds for every memory to start with
does not depend on it.
-/

set_option autoImplicit false

namespace Machine

/-! ## Network order -/

/-- The lowest `n` bytes of a number, the most significant one first. -/
def bigEndian : Nat → Nat → List UInt8
  | 0, _ => []
  | n + 1, x => .ofNat (x / 256 ^ n) :: bigEndian n x

/-- The number that is written in network order. -/
def ofBigEndian (bs : List UInt8) : Nat := bs.foldl (fun x b ↦ x * 256 + b.toNat) 0

@[simp] theorem length_bigEndian (n x : Nat) : (bigEndian n x).length = n := by
  induction n with
  | zero => rfl
  | succ n ih => rw [bigEndian, List.length_cons, ih]

theorem foldl_bigEndian (n x acc : Nat) :
    (bigEndian n x).foldl (fun x b ↦ x * 256 + b.toNat) acc = acc * 256 ^ n + x % 256 ^ n := by
  induction n generalizing acc with
  | zero => simp [bigEndian, Nat.mod_one]
  | succ n ih =>
    have hbyte : (UInt8.ofNat (x / 256 ^ n)).toNat = x / 256 ^ n % 256 := by simp
    rw [bigEndian, List.foldl_cons, ih, hbyte, Nat.mod_pow_succ]
    ring

/-- A number that fits is read as it was written. -/
theorem ofBigEndian_bigEndian {n x : Nat} (h : x < 256 ^ n) : ofBigEndian (bigEndian n x) = x := by
  rw [ofBigEndian, foldl_bigEndian, Nat.mod_eq_of_lt h]
  omega

theorem foldl_append_byte (bs : List UInt8) (x : Nat) :
    bs.foldl (fun x b ↦ x * 256 + b.toNat) x = x * 256 ^ bs.length + ofBigEndian bs := by
  rw [ofBigEndian]
  induction bs generalizing x with
  | nil => simp
  | cons b bs ih =>
    rw [List.foldl_cons, List.foldl_cons, ih, ih (0 * 256 + b.toNat),
      List.length_cons, Nat.pow_succ]
    ring

theorem ofBigEndian_append (as bs : List UInt8) :
    ofBigEndian (as ++ bs) = ofBigEndian as * 256 ^ bs.length + ofBigEndian bs := by
  rw [ofBigEndian, List.foldl_append, foldl_append_byte, ← ofBigEndian]

theorem ofBigEndian_lt (bs : List UInt8) : ofBigEndian bs < 256 ^ bs.length := by
  induction bs with
  | nil => decide
  | cons b bs ih =>
    have hb := b.toNat_lt
    have hmul : b.toNat * 256 ^ bs.length ≤ 255 * 256 ^ bs.length :=
      Nat.mul_le_mul_right _ (by omega)
    rw [← List.singleton_append, ofBigEndian_append, List.length_append, List.length_singleton,
      show ofBigEndian [b] = b.toNat by simp [ofBigEndian], Nat.pow_add]
    omega

theorem bigEndian_add (m n x : Nat) :
    bigEndian (m + n) x = bigEndian m (x / 256 ^ n) ++ bigEndian n x := by
  induction m with
  | zero => rw [Nat.zero_add]; rfl
  | succ m ih =>
    rw [Nat.succ_add, bigEndian, ih, bigEndian, List.cons_append, Nat.div_div_eq_div_mul,
      ← Nat.pow_add, Nat.add_comm n m]

/-- Higher bytes do not matter. -/
theorem bigEndian_mod {n k : Nat} (h : n ≤ k) (x : Nat) :
    bigEndian n (x % 256 ^ k) = bigEndian n x := by
  induction n with
  | zero => rfl
  | succ n ih =>
    have hbyte : x % 256 ^ k / 256 ^ n % 256 = x / 256 ^ n % 256 := by
      obtain ⟨d, rfl⟩ := Nat.exists_eq_add_of_lt h
      rw [Nat.add_assoc, Nat.pow_add, Nat.mod_mul_right_div_self, Nat.pow_succ,
        Nat.mod_mul_left_mod]
    have hhead : UInt8.ofNat (x % 256 ^ k / 256 ^ n) = UInt8.ofNat (x / 256 ^ n) :=
      UInt8.toNat_inj.1 (by simpa using hbyte)
    rw [bigEndian, bigEndian, ih (by omega), hhead]

/-! ## Bytes of machine words

A byte is put into a word by shifts and taken out of it by shifts and masks, and on the way it may
have been a signed character. -/

theorem or_eq_add {x y k : Nat} (h : y < 2 ^ k) : x * 2 ^ k ||| y = x * 2 ^ k + y := by
  rw [Nat.mul_comm, Nat.two_pow_add_eq_or_of_lt h]

theorem and_255 (x : UInt32) : x &&& 0xff = x.toUInt8.toUInt32 := by
  apply UInt32.toNat_inj.1
  simp [Nat.and_two_pow_sub_one_eq_mod _ 8]

/-- The lowest byte of a character that has been sign-extended. -/
theorem toUInt8_signExtend (c : UInt8) : c.toInt8.toInt32.toUInt32.toUInt8 = c := by
  apply UInt8.toBitVec_inj.1
  change BitVec.setWidth 8 (BitVec.signExtend 32 c.toBitVec) = c.toBitVec
  ext i hi
  rw [BitVec.getElem_setWidth, BitVec.getLsbD_signExtend]
  simp [hi, Nat.lt_trans hi (show 8 < 32 by decide)]

theorem toUInt16_signExtend (c : UInt16) : c.toInt16.toInt32.toUInt32.toUInt16 = c := by
  apply UInt16.toBitVec_inj.1
  change BitVec.setWidth 16 (BitVec.signExtend 32 c.toBitVec) = c.toBitVec
  ext i hi
  rw [BitVec.getElem_setWidth, BitVec.getLsbD_signExtend]
  have hlt : i < 32 := by omega
  simp [hi, hlt, BitVec.getLsbD_eq_getElem]

theorem signExtend_and_255 (c : UInt8) : c.toInt8.toInt32.toUInt32 &&& 0xff = c.toUInt32 := by
  rw [and_255, toUInt8_signExtend]

theorem signExtend_eq_zero {c : UInt8} : c.toInt8.toInt32.toUInt32 = 0 ↔ c = 0 := by
  constructor
  · intro h
    have hc := toUInt8_signExtend c
    rw [h] at hc
    exact hc.symm
  · rintro rfl
    rfl

/-- Byte number `k / 8` of a word. -/
theorem toUInt8_shiftRight (x : UInt32) {k : Nat} (hk : k < 32) :
    ((x >>> UInt32.ofNat k) &&& 0xff).toUInt8 = .ofNat (x.toNat / 2 ^ k) := by
  apply UInt8.toNat_inj.1
  simp [Nat.shiftRight_eq_div_pow, Nat.and_two_pow_sub_one_eq_mod _ 8, Nat.mod_eq_of_lt hk]

theorem bytes_uint32 (x : UInt32) :
    [((x >>> 24) &&& 0xff).toUInt8, ((x >>> 16) &&& 0xff).toUInt8, ((x >>> 8) &&& 0xff).toUInt8,
      (x &&& 0xff).toUInt8] = bigEndian 4 x.toNat := by
  have h := @toUInt8_shiftRight x
  have h₀ : (x &&& 0xff).toUInt8 = .ofNat (x.toNat / 2 ^ 0) := by
    simpa using h (show 0 < 32 by decide)
  simp only [bigEndian]
  rw [h₀]
  exact congrArg₂ _ (h (show 24 < 32 by decide))
    (congrArg₂ _ (h (show 16 < 32 by decide)) (congrArg₂ _ (h (show 8 < 32 by decide)) rfl))

theorem bytes_uint16 (x : UInt16) :
    [((x >>> 8) &&& 0xff).toUInt8, (x &&& 0xff).toUInt8] = bigEndian 2 x.toNat := by
  have h₁ : ((x >>> 8) &&& 0xff).toUInt8 = .ofNat (x.toNat / 256 ^ 1) := by
    apply UInt8.toNat_inj.1
    simp [Nat.shiftRight_eq_div_pow, Nat.and_two_pow_sub_one_eq_mod _ 8]
  have h₀ : (x &&& 0xff).toUInt8 = .ofNat (x.toNat / 256 ^ 0) := by
    apply UInt8.toNat_inj.1
    simp [Nat.and_two_pow_sub_one_eq_mod _ 8]
  rw [bigEndian, bigEndian, bigEndian, h₁, h₀]

/-- The two halves of a long word. -/
theorem bytes_uint64 (x : UInt64) :
    bigEndian 4 (x >>> 32).toUInt32.toNat ++ bigEndian 4 x.toUInt32.toNat =
      bigEndian 8 x.toNat := by
  have hhigh : (x >>> 32).toUInt32.toNat = x.toNat / 256 ^ 4 % 256 ^ 4 := by
    simp [Nat.shiftRight_eq_div_pow]
  have hlow : x.toUInt32.toNat = x.toNat % 256 ^ 4 := by simp
  rw [hhigh, hlow, bigEndian_mod le_rfl, bigEndian_mod le_rfl, ← bigEndian_add]

/-- Taking bytes out of a signed word is no different. -/
theorem toUInt8_sshiftRight (x : BitVec 32) {k : Nat} (hk : k ≤ 24) :
    (x.sshiftRight k).setWidth 8 = (x >>> k).setWidth 8 := by
  ext i hi
  have hlt : k + i < 32 := by omega
  simp [BitVec.getElem_sshiftRight, hlt, Nat.lt_trans hi (show 8 < 32 by decide)]

theorem toNat_shiftLeft_byte (a : UInt8) {k : Nat} (hk : k ≤ 24) :
    (a.toUInt32 <<< UInt32.ofNat k).toNat = a.toNat * 2 ^ k := by
  have hlt : a.toNat * 2 ^ k < 2 ^ 32 :=
    calc a.toNat * 2 ^ k < 2 ^ 8 * 2 ^ k :=
          Nat.mul_lt_mul_of_pos_right a.toNat_lt (Nat.two_pow_pos k)
      _ = 2 ^ (8 + k) := (Nat.pow_add 2 8 k).symm
      _ ≤ 2 ^ 32 := Nat.pow_le_pow_right (by decide) (by omega)
  have hk' : k % 32 = k := Nat.mod_eq_of_lt (by omega)
  simpa [Nat.shiftLeft_eq, hk'] using hlt

theorem ofBytes_uint16 (a b : UInt8) :
    ((a.toUInt32 <<< 8).toUInt16.toUInt32 ||| b.toUInt32).toUInt16 =
      .ofNat (ofBigEndian [a, b]) := by
  have ha := a.toNat_lt
  have hb := b.toNat_lt
  have hshift : (a.toUInt32 <<< 8).toNat = a.toNat * 2 ^ 8 := toNat_shiftLeft_byte a (by decide)
  apply UInt16.toNat_inj.1
  rw [UInt32.toNat_toUInt16, UInt32.toNat_or, UInt16.toNat_toUInt32, UInt32.toNat_toUInt16, hshift,
    UInt8.toNat_toUInt32, Nat.mod_eq_of_lt (show a.toNat * 2 ^ 8 < 2 ^ 16 by omega), or_eq_add hb,
    UInt16.toNat_ofNat', ofBigEndian, List.foldl_cons, List.foldl_cons, List.foldl_nil]
  omega

theorem ofBytes_uint32 (a b c d : UInt8) :
    a.toUInt32 <<< 24 ||| b.toUInt32 <<< 16 ||| c.toUInt32 <<< 8 ||| d.toUInt32 =
      .ofNat (ofBigEndian [a, b, c, d]) := by
  have ha := a.toNat_lt
  have hb := b.toNat_lt
  have hc := c.toNat_lt
  have hd := d.toNat_lt
  have ha' : (a.toUInt32 <<< 24).toNat = a.toNat * 2 ^ 24 := toNat_shiftLeft_byte a (by decide)
  have hb' : (b.toUInt32 <<< 16).toNat = b.toNat * 2 ^ 16 := toNat_shiftLeft_byte b (by decide)
  have hc' : (c.toUInt32 <<< 8).toNat = c.toNat * 2 ^ 8 := toNat_shiftLeft_byte c (by decide)
  have h₁ : a.toNat * 2 ^ 24 ||| b.toNat * 2 ^ 16 = (a.toNat * 256 + b.toNat) * 2 ^ 16 := by
    rw [or_eq_add (by omega)]
    omega
  have h₂ : (a.toNat * 256 + b.toNat) * 2 ^ 16 ||| c.toNat * 2 ^ 8 =
      ((a.toNat * 256 + b.toNat) * 256 + c.toNat) * 2 ^ 8 := by
    rw [or_eq_add (by omega)]
    omega
  apply UInt32.toNat_inj.1
  rw [UInt32.toNat_or, UInt32.toNat_or, UInt32.toNat_or, ha', hb', hc', h₁, h₂,
    UInt8.toNat_toUInt32, or_eq_add hd, UInt32.toNat_ofNat', ofBigEndian, List.foldl_cons,
    List.foldl_cons, List.foldl_cons, List.foldl_cons, List.foldl_nil]
  omega

theorem ofWords_uint64 {h l : Nat} (hh : h < 2 ^ 32) (hl : l < 2 ^ 32) :
    (UInt32.ofNat l).toUInt64 ||| (UInt32.ofNat h).toUInt64 <<< 32 = .ofNat (h * 256 ^ 4 + l) := by
  have hlow : (UInt32.ofNat l).toUInt64.toNat = l := by simpa using hl
  have hhigh : ((UInt32.ofNat h).toUInt64 <<< 32).toNat = h * 2 ^ 32 := by
    have hlt : h * 2 ^ 32 < 2 ^ 64 := by omega
    simp [Nat.shiftLeft_eq]
    omega
  apply UInt64.toNat_inj.1
  rw [UInt64.toNat_or, hlow, hhigh, Nat.or_comm, or_eq_add hl, UInt64.toNat_ofNat',
    Nat.mod_eq_of_lt (by omega)]
  norm_num

/-! ## Memory -/

variable {B : Type}

/-- Write the cells from address `i` on. -/
def write (mem : Nat → B) (i : Nat) : List B → Nat → B
  | [] => mem
  | b :: bs => write (Function.update mem i b) (i + 1) bs

/-- Read `n` cells from address `i` on. -/
def read (mem : Nat → B) (i : Nat) : Nat → List B
  | 0 => []
  | n + 1 => mem i :: read mem (i + 1) n

@[simp] theorem length_read (mem : Nat → B) (i n : Nat) : (read mem i n).length = n := by
  induction n generalizing i with
  | zero => rfl
  | succ n ih => rw [read, List.length_cons, ih]

theorem write_append (mem : Nat → B) (i : Nat) (as bs : List B) :
    write mem i (as ++ bs) = write (write mem i as) (i + as.length) bs := by
  induction as generalizing mem i with
  | nil => rfl
  | cons a as ih =>
    rw [List.cons_append, write, ih, write, List.length_cons]
    congr 1
    omega

/-- What is not written stays. -/
theorem write_of_notMem (mem : Nat → B) {i j : Nat} {bs : List B} (h : j < i ∨ i + bs.length ≤ j) :
    write mem i bs j = mem j := by
  induction bs generalizing mem i with
  | nil => rfl
  | cons b bs ih =>
    rw [List.length_cons] at h
    rw [write, ih _ (by omega), Function.update_of_ne (by omega)]

theorem read_congr {mem mem' : Nat → B} {i n : Nat}
    (h : ∀ j, i ≤ j → j < i + n → mem' j = mem j) : read mem' i n = read mem i n := by
  induction n generalizing i with
  | zero => rfl
  | succ n ih =>
    rw [read, read, h i le_rfl (by omega), ih fun j hj hlt ↦ h j (by omega) (by omega)]

theorem read_add (mem : Nat → B) (i m n : Nat) :
    read mem i (m + n) = read mem i m ++ read mem (i + m) n := by
  induction m generalizing i with
  | zero => rw [Nat.zero_add]; rfl
  | succ m ih =>
    rw [Nat.succ_add, read, ih, read, List.cons_append, Nat.add_assoc, Nat.add_comm 1 m]

/-- What is written is read. -/
theorem read_write (mem : Nat → B) (i : Nat) (bs : List B) :
    read (write mem i bs) i bs.length = bs := by
  induction bs generalizing mem i with
  | nil => rfl
  | cons b bs ih =>
    rw [write, List.length_cons, read, ih, write_of_notMem _ (by omega), Function.update_self]

/-- What has been written elsewhere does not matter. -/
theorem read_write_of_disjoint (mem : Nat → B) {i j n : Nat} {bs : List B}
    (h : j + n ≤ i ∨ i + bs.length ≤ j) : read (write mem i bs) j n = read mem j n :=
  read_congr fun k hk hlt ↦ write_of_notMem mem (by omega)

end Machine
