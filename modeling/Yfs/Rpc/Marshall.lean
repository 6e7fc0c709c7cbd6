import Yfs.Rpc.Wire

/-!
# Writing messages

A `marshall` is a buffer that grows.  The first bytes of it are kept free for the header, values are
written behind them in the order of the `<<`s, and in the end the header is written into its place,
which is done by moving the write index back and forth.

What has been allocated and not been written is not known, so the buffer starts with any contents.
The capacity is an `int`, and to double it can be too much for one; a buffer that cannot grow is a
failure (`none`), because the process does not survive it.  That the index stays within the capacity
is part of what a `Marshall` is.

The result of this file is that writing a value appends the bytes that the format prescribes, and
changes no other byte (`Ty.writes_marshall`), and that writing a header changes the header only
(`exists_packHeader`).
-/

set_option autoImplicit false

namespace Yfs
namespace Rpc

open Machine

/-- `RPC_HEADER_SZ`: a `req_header`, and an `int` that is filled in by the connection. -/
def headerSz : Nat := 24

/-- `sizeof(rpc_sz_t)`. -/
def rpcSz : Nat := 4

/-- `req_header`. -/
structure ReqHeader where
  xid : Int32
  proc : Int32
  cltNonce : UInt32
  srvNonce : UInt32
  xidRep : Int32
  deriving DecidableEq, Repr

/-- `reply_header`. -/
structure ReplyHeader where
  xid : Int32
  ret : Int32
  deriving DecidableEq, Repr

/-- `marshall`. -/
structure Marshall where
  buf : Nat → UInt8
  capa : Nat
  ind : Nat
  ind_le : ind ≤ capa
  le_capa : 1024 ≤ capa
  capa_lt : capa < 2 ^ 31

namespace Marshall

/-- `marshall::marshall`, with `DEFAULT_RPC_SZ` bytes that contain anything. -/
def new (mem : Nat → UInt8) : Marshall where
  buf := mem
  capa := 1024
  ind := headerSz
  ind_le := by decide
  le_capa := le_rfl
  capa_lt := by decide

/-- `marshall::rawbyte`. -/
def rawbyte (x : UInt8) (m : Marshall) : Option Marshall :=
  let buf := Function.update m.buf m.ind x
  if h : m.ind < m.capa then
    some { m with buf := buf, ind := m.ind + 1, ind_le := h }
  else if h : 2 * m.capa < 2 ^ 31 then
    some { m with
      buf := buf
      capa := 2 * m.capa
      ind := m.ind + 1
      ind_le := by have := m.ind_le; have := m.le_capa; omega
      le_capa := by have := m.le_capa; omega
      capa_lt := h }
  else none

/-- The capacity that `marshall::rawbytes` asks for when `n` bytes do not fit. -/
def grown (m : Marshall) (n : Nat) : Nat := if n < m.capa then 2 * m.capa else m.capa + n

theorem add_le_grown (m : Marshall) (n : Nat) : m.ind + n ≤ m.grown n := by
  have := m.ind_le
  rw [grown]
  split <;> omega

theorem capa_le_grown (m : Marshall) (n : Nat) : m.capa ≤ m.grown n := by
  rw [grown]
  split <;> omega

/-- `marshall::rawbytes`. -/
def rawbytes (p : List UInt8) (m : Marshall) : Option Marshall :=
  let buf := write m.buf m.ind p
  if h : m.ind + p.length ≤ m.capa then
    some { m with buf := buf, ind := m.ind + p.length, ind_le := h }
  else if h : m.grown p.length < 2 ^ 31 then
    some { m with
      buf := buf
      capa := m.grown p.length
      ind := m.ind + p.length
      ind_le := m.add_le_grown p.length
      le_capa := m.le_capa.trans (m.capa_le_grown p.length)
      capa_lt := h }
  else none

/-! ## Operators -/

def putBool (x : Bool) : Marshall → Option Marshall := rawbyte x.toUInt8

def putUChar (x : UInt8) : Marshall → Option Marshall := rawbyte x

def putChar (x : Int8) : Marshall → Option Marshall := putUChar x.toUInt8

def putUShort (x : UInt16) (m : Marshall) : Option Marshall := do
  let m ← m.rawbyte ((x >>> 8) &&& 0xff).toUInt8
  m.rawbyte (x &&& 0xff).toUInt8

def putShort (x : Int16) : Marshall → Option Marshall := putUShort x.toUInt16

def putUInt (x : UInt32) (m : Marshall) : Option Marshall := do
  let m ← m.rawbyte ((x >>> 24) &&& 0xff).toUInt8
  let m ← m.rawbyte ((x >>> 16) &&& 0xff).toUInt8
  let m ← m.rawbyte ((x >>> 8) &&& 0xff).toUInt8
  m.rawbyte (x &&& 0xff).toUInt8

def putInt (x : Int32) : Marshall → Option Marshall := putUInt x.toUInt32

def putString (s : List UInt8) (m : Marshall) : Option Marshall := do
  let m ← m.putUInt (.ofNat s.length)
  m.rawbytes s

def putULL (x : UInt64) (m : Marshall) : Option Marshall := do
  let m ← m.putUInt (x >>> 32).toUInt32
  m.putUInt x.toUInt32

/-- The operators of `std::vector` and `std::map`: `put` writes an element, or an entry. -/
def putList {α : Type} (put : α → Marshall → Option Marshall) (l : List α) (m : Marshall) :
    Option Marshall := do
  let m ← m.putUInt (.ofNat l.length)
  l.foldlM (fun m a ↦ put a m) m

def putAttr (a : Attr) (m : Marshall) : Option Marshall := do
  let m ← m.putUInt a.type
  let m ← m.putUInt a.atime
  let m ← m.putUInt a.mtime
  let m ← m.putUInt a.ctime
  m.putUInt a.size

end Marshall

/-- `operator<<` of a number. -/
def Scalar.marshall : (a : Scalar) → a.Val → Marshall → Option Marshall
  | .bool, x => Marshall.putBool x
  | .char, x => Marshall.putChar x
  | .uchar, x => Marshall.putUChar x
  | .short, x => Marshall.putShort x
  | .ushort, x => Marshall.putUShort x
  | .int, x => Marshall.putInt x
  | .uint, x => Marshall.putUInt x
  | .ull, x => Marshall.putULL x

/-- `operator<<`. -/
def Ty.marshall : (t : Ty) → t.Val → Marshall → Option Marshall
  | .scalar a, x => a.marshall x
  | .string, s => Marshall.putString s
  | .vector t, v => Marshall.putList t.marshall v
  | .map k v, d =>
    Marshall.putList (fun p m ↦ (k.marshall p.1 m).bind (v.marshall p.2)) (OrderedMap.entries d)
  | .attr, a => Marshall.putAttr a

namespace Marshall

/-! ## Headers -/

/-- `marshall::pack`. -/
def pack (x : Int32) (m : Marshall) : Option Marshall := do
  let m ← m.rawbyte ((x >>> 24) &&& 0xff).toUInt32.toUInt8
  let m ← m.rawbyte ((x >>> 16) &&& 0xff).toUInt32.toUInt8
  let m ← m.rawbyte ((x >>> 8) &&& 0xff).toUInt32.toUInt8
  m.rawbyte (x &&& 0xff).toUInt32.toUInt8

/-- Move the write index. -/
def seek (i : Nat) (m : Marshall) : Option Marshall :=
  if h : i ≤ m.capa then some { m with ind := i, ind_le := h } else none

/-- Write some numbers into the place of the header, and come back. -/
def packHeader (xs : List Int32) (m : Marshall) : Option Marshall := do
  let savedSz := m.ind
  let m ← m.seek rpcSz
  let m ← xs.foldlM (fun m x ↦ m.pack x) m
  m.seek savedSz

/-- `marshall::pack_req_header`. -/
def packReqHeader (h : ReqHeader) : Marshall → Option Marshall :=
  packHeader [h.xid, h.proc, h.cltNonce.toInt32, h.srvNonce.toInt32, h.xidRep]

/-- `marshall::pack_reply_header`. -/
def packReplyHeader (h : ReplyHeader) : Marshall → Option Marshall := packHeader [h.xid, h.ret]

/-- `marshall::get_content`. -/
def content (m : Marshall) : List UInt8 := read m.buf headerSz (m.ind - headerSz)

/-- What `marshall::take_buf` hands over. -/
def bytes (m : Marshall) : List UInt8 := read m.buf 0 m.ind

/-! ## What is written -/

/-- These bytes have been appended, and nothing else has been written. -/
structure Emits (m : Marshall) (bs : List UInt8) (m' : Marshall) : Prop where
  ind : m'.ind = m.ind + bs.length
  buf : m'.buf = write m.buf m.ind bs
  capa : m.capa ≤ m'.capa

/-- A step appends these bytes to every buffer, if that does not get too large. -/
def Writes (f : Marshall → Option Marshall) (bs : List UInt8) : Prop :=
  ∀ m : Marshall, m.ind + bs.length < 2 ^ 30 → ∃ m', f m = some m' ∧ m.Emits bs m'

variable {f g : Marshall → Option Marshall} {as bs : List UInt8}

/-- A buffer with less than 2^30 bytes in it can grow for one more. -/
theorem emits_rawbyte (x : UInt8) {m : Marshall} (hm : m.ind + 1 ≤ 2 ^ 30) :
    ∃ m', m.rawbyte x = some m' ∧ m.Emits [x] m' := by
  rw [rawbyte]
  split
  · exact ⟨_, rfl, rfl, rfl, le_rfl⟩
  · have hle := m.ind_le
    rw [dif_pos (by omega)]
    exact ⟨_, rfl, rfl, rfl, by dsimp only; omega⟩

theorem emits_rawbytes (p : List UInt8) {m : Marshall} (hm : m.ind + p.length ≤ 2 ^ 30) :
    ∃ m', m.rawbytes p = some m' ∧ m.Emits p m' := by
  rw [rawbytes]
  split
  · exact ⟨_, rfl, rfl, rfl, le_rfl⟩
  · have hle := m.ind_le
    have hgrown : m.grown p.length < 2 ^ 31 := by
      rw [grown]
      split <;> omega
    rw [dif_pos hgrown]
    exact ⟨_, rfl, rfl, rfl, m.capa_le_grown _⟩

theorem writes_rawbyte (x : UInt8) : Writes (rawbyte x) [x] := fun _ hm ↦ emits_rawbyte x hm.le

theorem writes_rawbytes (p : List UInt8) : Writes (rawbytes p) p :=
  fun _ hm ↦ emits_rawbytes p hm.le

theorem writes_nil : Writes some [] := fun m _ ↦ ⟨m, rfl, rfl, rfl, le_rfl⟩

theorem Writes.bind (hf : Writes f as) (hg : Writes g bs) :
    Writes (fun m ↦ (f m).bind g) (as ++ bs) := by
  intro m hm
  rw [List.length_append] at hm
  obtain ⟨m₁, h₁, hind, hbuf, hcapa⟩ := hf m (by omega)
  obtain ⟨m₂, h₂, hind', hbuf', hcapa'⟩ := hg m₁ (by omega)
  refine ⟨m₂, Option.bind_eq_some_iff.2 ⟨m₁, h₁, h₂⟩, ?_, ?_, hcapa.trans hcapa'⟩
  · rw [hind', hind, List.length_append, Nat.add_assoc]
  · rw [hbuf', hbuf, hind, write_append]

/-- One after another. -/
theorem Writes.foldlM {α : Type} {put : α → Marshall → Option Marshall} {enc : α → List UInt8}
    (l : List α) (h : ∀ a ∈ l, Writes (put a) (enc a)) :
    Writes (fun m ↦ l.foldlM (fun m a ↦ put a m) m) (l.flatMap enc) := by
  induction l with
  | nil => exact writes_nil
  | cons a l ih =>
    exact (h a List.mem_cons_self).bind (ih fun b hb ↦ h b (List.mem_cons_of_mem _ hb))

theorem writes_putUShort (x : UInt16) : Writes (putUShort x) (bigEndian 2 x.toNat) := by
  rw [← bytes_uint16]
  exact (writes_rawbyte _).bind (writes_rawbyte _)

theorem writes_putUInt (x : UInt32) : Writes (putUInt x) (encodeUInt x) := by
  rw [encodeUInt, ← bytes_uint32]
  exact (writes_rawbyte _).bind ((writes_rawbyte _).bind
    ((writes_rawbyte _).bind (writes_rawbyte _)))

theorem writes_putULL (x : UInt64) : Writes (putULL x) (bigEndian 8 x.toNat) := by
  rw [← bytes_uint64]
  exact (writes_putUInt _).bind (writes_putUInt _)

/-- A length that is small enough is written as it is. -/
theorem encodeUInt_ofNat {n : Nat} (h : n < 2 ^ 32) : encodeUInt (.ofNat n) = bigEndian 4 n := by
  rw [encodeUInt, UInt32.toNat_ofNat', Nat.mod_eq_of_lt h]

theorem writes_putString (s : List UInt8) : Writes (putString s) (encodeString s) := by
  intro m hm
  rw [length_encodeString] at hm
  have hlen := encodeUInt_ofNat (n := s.length) (by omega)
  rw [encodeString, ← hlen]
  refine (writes_putUInt _).bind (writes_rawbytes s) m ?_
  rw [hlen, List.length_append, length_bigEndian]
  omega

theorem writes_putList {α : Type} {put : α → Marshall → Option Marshall} {enc : α → List UInt8}
    {l : List α} (h : ∀ a ∈ l, Writes (put a) (enc a)) (hpos : ∀ a ∈ l, 0 < (enc a).length) :
    Writes (putList put l) (encodeList enc l) := by
  intro m hm
  have hcount := length_le_length_flatMap hpos
  rw [encodeList, List.length_append] at hm
  have hlen := encodeUInt_ofNat (n := l.length) (by omega)
  rw [encodeList, ← hlen]
  refine (writes_putUInt _).bind (Writes.foldlM l h) m ?_
  rw [hlen, List.length_append]
  omega

theorem writes_putAttr (a : Attr) : Writes (putAttr a) a.encode :=
  (writes_putUInt _).bind ((writes_putUInt _).bind ((writes_putUInt _).bind
    ((writes_putUInt _).bind (writes_putUInt _))))

end Marshall

open Marshall

theorem Scalar.writes_marshall (a : Scalar) (x : a.Val) :
    Writes (a.marshall x) (bigEndian a.width (a.toBits x)) := by
  have hbyte : ∀ b : UInt8, Writes (rawbyte b) (bigEndian 1 b.toNat) := by
    intro b
    have hb : bigEndian 1 b.toNat = [b] := by simp [bigEndian]
    rw [hb]
    exact writes_rawbyte b
  cases a with
  | bool =>
    cases x
    · exact hbyte 0
    · exact hbyte 1
  | char => exact hbyte _
  | uchar => exact hbyte _
  | short => exact writes_putUShort _
  | ushort => exact writes_putUShort _
  | int => exact writes_putUInt _
  | uint => exact writes_putUInt _
  | ull => exact writes_putULL _

/-- **Writing a value appends its encoding.** -/
theorem Ty.writes_marshall (t : Ty) (x : t.Val) : Writes (t.marshall x) (t.encode x) := by
  induction t with
  | scalar a => exact a.writes_marshall x
  | string => exact writes_putString x
  | vector t ih => exact writes_putList (fun a _ ↦ ih a) fun a _ ↦ t.length_encode_pos a
  | map k v ihk ihv =>
    refine writes_putList (fun p _ ↦ (ihk p.1).bind (ihv p.2)) fun p _ ↦ ?_
    rw [List.length_append]
    exact Nat.add_pos_left (k.length_encode_pos p.1) _
  | attr => exact writes_putAttr x

/-! ## What a header overwrites -/

/-- The bytes of the numbers in a header. -/
def encodeHeader (xs : List Int32) : List UInt8 := xs.flatMap fun x ↦ encodeUInt x.toUInt32

theorem length_encodeHeader (xs : List Int32) : (encodeHeader xs).length = 4 * xs.length := by
  induction xs with
  | nil => rfl
  | cons x xs ih =>
    rw [encodeHeader, List.flatMap_cons, List.length_append, encodeUInt, length_bigEndian,
      List.length_cons, ← encodeHeader, ih]
    omega

/-- The bytes of an `int` are those of the `unsigned int`, whatever its sign. -/
theorem pack_eq (x : Int32) : pack x = putUInt x.toUInt32 := by
  have h₂₄ : ((x >>> 24) &&& 0xff).toUInt32.toUInt8 = ((x.toUInt32 >>> 24) &&& 0xff).toUInt8 := by
    apply UInt8.toBitVec_inj.1
    simp [toUInt8_sshiftRight x.toBitVec (show 24 ≤ 24 by decide)]
  have h₁₆ : ((x >>> 16) &&& 0xff).toUInt32.toUInt8 = ((x.toUInt32 >>> 16) &&& 0xff).toUInt8 := by
    apply UInt8.toBitVec_inj.1
    simp [toUInt8_sshiftRight x.toBitVec (show 16 ≤ 24 by decide)]
  have h₈ : ((x >>> 8) &&& 0xff).toUInt32.toUInt8 = ((x.toUInt32 >>> 8) &&& 0xff).toUInt8 := by
    apply UInt8.toBitVec_inj.1
    simp [toUInt8_sshiftRight x.toBitVec (show 8 ≤ 24 by decide)]
  have h₀ : (x &&& 0xff).toUInt32.toUInt8 = (x.toUInt32 &&& 0xff).toUInt8 := by
    apply UInt8.toBitVec_inj.1
    simp
  funext m
  rw [pack, putUInt, h₂₄, h₁₆, h₈, h₀]

theorem writes_pack (x : Int32) : Writes (pack x) (encodeUInt x.toUInt32) := by
  rw [pack_eq]
  exact writes_putUInt _

/-- A header goes into its place. -/
theorem exists_packHeader {xs : List Int32} (hxs : xs.length ≤ 5) (m : Marshall) :
    ∃ m', m.packHeader xs = some m' ∧ m'.ind = m.ind ∧
      m'.buf = write m.buf rpcSz (encodeHeader xs) := by
  have hcapa : rpcSz ≤ m.capa := le_trans (by decide) m.le_capa
  have hlen := length_encodeHeader xs
  have hroom : rpcSz + (encodeHeader xs).length < 2 ^ 30 := by
    simp only [hlen, rpcSz]
    omega
  obtain ⟨m₁, h₁, -, hbuf, hle⟩ := Writes.foldlM xs (fun x _ ↦ writes_pack x)
    { m with ind := rpcSz, ind_le := hcapa } hroom
  refine ⟨{ m₁ with ind := m.ind, ind_le := m.ind_le.trans hle }, ?_, rfl, hbuf⟩
  simp only [packHeader, seek, dif_pos hcapa, Option.bind_eq_bind, Option.bind_some]
  refine Option.bind_eq_some_iff.2 ⟨m₁, h₁, ?_⟩
  rw [dif_pos (m.ind_le.trans hle)]

theorem drop_bytes (m : Marshall) {i : Nat} (h : i ≤ m.ind) :
    m.bytes.drop i = read m.buf i (m.ind - i) := by
  have hsplit : m.bytes = read m.buf 0 i ++ read m.buf i (m.ind - i) := by
    have hadd := read_add m.buf 0 i (m.ind - i)
    rwa [Nat.add_sub_cancel' h, Nat.zero_add] at hadd
  rw [hsplit, List.drop_left' (length_read _ _ _)]

/-- What a header of at most five numbers leaves of a buffer: the numbers, and the contents. -/
theorem bytes_of_packHeader {xs : List Int32} (hxs : xs.length ≤ 5) {m m' : Marshall}
    (hm : headerSz ≤ m.ind) (hind : m'.ind = m.ind)
    (hbuf : m'.buf = write m.buf rpcSz (encodeHeader xs)) :
    m'.content = m.content ∧ (∃ rest, m'.bytes.drop rpcSz = encodeHeader xs ++ rest) ∧
      m'.bytes.drop headerSz = m.content := by
  have hlen := length_encodeHeader xs
  have hcontent : m'.content = m.content := by
    rw [content, content, hind, hbuf]
    exact read_write_of_disjoint _ (Or.inr (by rw [hlen, rpcSz, headerSz]; omega))
  refine ⟨hcontent, ?_, ?_⟩
  · have hle : rpcSz + (encodeHeader xs).length ≤ m.ind := by
      rw [headerSz] at hm
      rw [hlen, rpcSz]
      omega
    refine ⟨read m'.buf (rpcSz + (encodeHeader xs).length)
      (m.ind - rpcSz - (encodeHeader xs).length), ?_⟩
    have hnum : m.ind - rpcSz =
        (encodeHeader xs).length + (m.ind - rpcSz - (encodeHeader xs).length) := by omega
    rw [drop_bytes m' (by omega), hind, hnum, read_add, hbuf, read_write, ← hnum]
  · rw [drop_bytes m' (by omega), ← hcontent]
    rfl

end Rpc
end Yfs
