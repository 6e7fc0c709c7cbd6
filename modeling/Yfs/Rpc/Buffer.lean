import Mathlib.Data.List.Flatten
import Yfs.Rpc.Marshall

/-!
# Room in the buffer

`marshall` once more, with nothing taken for granted: `_capa` and `_ind` are `int`s that can
overflow, and a byte can be written only where memory has been allocated.  What cannot be done is a
fault.

A `Marshall` is such a buffer (`Marshall.toBuffer`), and the operations on it are the operations of
the code, fault for fault (`rawbyte_toBuffer`, `rawbytes_toBuffer`, `packHeader_toBuffer`).  So
nothing is ever written outside of the memory: the two ways in which the buffer grows are each
enough for one step.  The one thing that can go wrong is that a capacity of 2^30 or more is doubled.
That does not happen to a buffer with no more than 2^30 bytes in it (`buffer_has_room`), and the
bytes that are kept free for the header are among them (`doubled_too_far`).
-/

set_option autoImplicit false

namespace Yfs
namespace Rpc

open Machine

/-- How a buffer goes wrong. -/
inductive BufferFault where
  /-- A sum or a product is not an `int`. -/
  | overflow
  /-- There is no memory at the index. -/
  | outside
  deriving DecidableEq, Repr

/-- The members of a `marshall`, with the number of bytes that are allocated. -/
structure Buffer where
  buf : Nat → UInt8
  allocated : Nat
  capa : Int
  ind : Int

namespace Buffer

/-- A computation with `int`s. -/
def int (x : Int) : Except BufferFault Int :=
  if -2 ^ 31 ≤ x ∧ x < 2 ^ 31 then .ok x else .error .overflow

/-- `marshall::marshall`. -/
def new (mem : Nat → UInt8) : Buffer := ⟨mem, 1024, 1024, headerSz⟩

/-- `_buf[i] = x`. -/
def store (i : Int) (x : UInt8) (b : Buffer) : Except BufferFault Buffer :=
  if 0 ≤ i ∧ i < b.allocated then .ok { b with buf := Function.update b.buf i.toNat x }
  else .error .outside

/-- `memcpy(_buf + i, p, n)`. -/
def memcpy (i : Int) : List UInt8 → Buffer → Except BufferFault Buffer
  | [], b => .ok b
  | x :: p, b => (b.store i x).bind (memcpy (i + 1) p)

/-- `_capa = capa; _buf = realloc(_buf, _capa)`. -/
def realloc (capa : Int) (b : Buffer) : Except BufferFault Buffer :=
  (int capa).map fun capa ↦ { b with capa := capa, allocated := capa.toNat }

/-- `memcpy(_buf + _ind, p, n); _ind += n`, and for one byte `_buf[_ind++] = x`. -/
def append (p : List UInt8) (b : Buffer) : Except BufferFault Buffer := do
  let b ← b.memcpy b.ind p
  let ind ← int (b.ind + p.length)
  pure { b with ind := ind }

/-- The first half of `marshall::rawbyte`. -/
def growByte (b : Buffer) : Except BufferFault Buffer :=
  if b.ind ≥ b.capa then b.realloc (b.capa * 2) else .ok b

/-- `marshall::rawbyte`. -/
def rawbyte (x : UInt8) (b : Buffer) : Except BufferFault Buffer := do
  let b ← b.growByte
  b.append [x]

/-- The first half of `marshall::rawbytes`. -/
def growBytes (n : Int) (b : Buffer) : Except BufferFault Buffer := do
  let stop ← int (b.ind + n)
  if stop > b.capa then b.realloc (if b.capa > n then 2 * b.capa else b.capa + n) else .ok b

/-- `marshall::rawbytes`. -/
def rawbytes (p : List UInt8) (b : Buffer) : Except BufferFault Buffer := do
  let b ← b.growBytes p.length
  b.append p

/-- `marshall::pack`. -/
def pack (x : Int32) (b : Buffer) : Except BufferFault Buffer := do
  let b ← b.rawbyte ((x >>> 24) &&& 0xff).toUInt32.toUInt8
  let b ← b.rawbyte ((x >>> 16) &&& 0xff).toUInt32.toUInt8
  let b ← b.rawbyte ((x >>> 8) &&& 0xff).toUInt32.toUInt8
  b.rawbyte (x &&& 0xff).toUInt32.toUInt8

/-- Write some numbers into the place of the header, and come back. -/
def packHeader (xs : List Int32) (b : Buffer) : Except BufferFault Buffer := do
  let savedSz := b.ind
  let b ← xs.foldlM (fun b x ↦ b.pack x) { b with ind := rpcSz }
  pure { b with ind := savedSz }

/-- `marshall::pack_req_header`. -/
def packReqHeader (h : ReqHeader) : Buffer → Except BufferFault Buffer :=
  packHeader [h.xid, h.proc, h.cltNonce.toInt32, h.srvNonce.toInt32, h.xidRep]

/-- `marshall::pack_reply_header`. -/
def packReplyHeader (h : ReplyHeader) : Buffer → Except BufferFault Buffer :=
  packHeader [h.xid, h.ret]

/-- `marshall::get_content`. -/
def content (b : Buffer) : List UInt8 := read b.buf headerSz (b.ind - headerSz).toNat

theorem int_of_lt {x : Int} (h₀ : 0 ≤ x) (h : x < 2 ^ 31) : int x = .ok x :=
  if_pos ⟨by omega, h⟩

theorem int_of_ge {x : Int} (h : 2 ^ 31 ≤ x) : int x = .error .overflow :=
  if_neg fun hx ↦ by omega

/-- Bytes for which there is room. -/
theorem memcpy_of_le (p : List UInt8) (b : Buffer) {i : Nat} (h : i + p.length ≤ b.allocated) :
    b.memcpy i p = .ok { b with buf := write b.buf i p } := by
  induction p generalizing b i with
  | nil => rfl
  | cons x p ih =>
    rw [List.length_cons] at h
    have hstore : b.store i x = .ok { b with buf := Function.update b.buf i x } :=
      if_pos ⟨by omega, by omega⟩
    have hrest := ih { b with buf := Function.update b.buf i x } (i := i + 1)
      (by dsimp only; omega)
    rw [memcpy, hstore, Except.bind]
    exact_mod_cast hrest

theorem append_of_le (p : List UInt8) (b : Buffer) {i : Nat} (hi : b.ind = i)
    (h : i + p.length ≤ b.allocated) (hint : b.allocated < 2 ^ 31) :
    b.append p = .ok { b with buf := write b.buf i p, ind := (i + p.length : Nat) } := by
  have hcopy := memcpy_of_le p b h
  rw [← hi] at hcopy
  have hind : int (b.ind + p.length) = .ok ((i + p.length : Nat) : Int) := by
    rw [hi, int_of_lt (by omega) (by omega)]
    rfl
  rw [append, hcopy]
  change (int (b.ind + p.length)).bind _ = _
  rw [hind]
  rfl

theorem realloc_of_lt {capa : Nat} (h : capa < 2 ^ 31) (b : Buffer) :
    b.realloc capa = .ok { b with capa := capa, allocated := capa } := by
  rw [realloc, int_of_lt (by omega) (by omega)]
  rfl

theorem realloc_of_ge {capa : Int} (h : 2 ^ 31 ≤ capa) (b : Buffer) :
    b.realloc capa = .error .overflow := by
  rw [realloc, int_of_ge h]
  rfl

end Buffer

/-! ## A `Marshall` is such a buffer -/

namespace Marshall

/-- The members of the class. -/
def toBuffer (m : Marshall) : Buffer := ⟨m.buf, m.capa, m.capa, m.ind⟩

/-- The buffer after a step, or the overflow. -/
def outcome : Option Marshall → Except BufferFault Buffer
  | some m => .ok m.toBuffer
  | none => .error .overflow

theorem toBuffer_new (mem : Nat → UInt8) : (new mem).toBuffer = Buffer.new mem := rfl

theorem content_toBuffer (m : Marshall) : m.toBuffer.content = m.content := by
  have : (m.toBuffer.ind - headerSz).toNat = m.ind - headerSz := by
    rw [toBuffer]
    dsimp only
    omega
  rw [Buffer.content, this]
  rfl

/-- **One byte.**  There is room for it, or there will be. -/
theorem rawbyte_toBuffer (x : UInt8) (m : Marshall) :
    m.toBuffer.rawbyte x = outcome (m.rawbyte x) := by
  have hle := m.ind_le
  have hcapa := m.le_capa
  have hint := m.capa_lt
  rw [Buffer.rawbyte, Buffer.growByte, rawbyte]
  by_cases hroom : m.ind < m.capa
  · rw [if_neg (by simp only [toBuffer]; omega), dif_pos hroom]
    exact Buffer.append_of_le [x] m.toBuffer rfl hroom hint
  · rw [if_pos (by simp only [toBuffer]; omega), dif_neg hroom,
      show m.toBuffer.capa * 2 = ((2 * m.capa : Nat) : Int) by simp only [toBuffer]; omega]
    by_cases hgrow : 2 * m.capa < 2 ^ 31
    · rw [dif_pos hgrow, Buffer.realloc_of_lt hgrow]
      exact Buffer.append_of_le [x] { m.toBuffer with capa := _, allocated := 2 * m.capa } rfl
        (by simp only [List.length_singleton]; omega) hgrow
    · rw [dif_neg hgrow, Buffer.realloc_of_ge (by omega)]
      rfl

theorem cast_grown (m : Marshall) (n : Nat) :
    (if m.toBuffer.capa > n then 2 * m.toBuffer.capa else m.toBuffer.capa + n) =
      (m.grown n : Int) := by
  have hcapa : m.toBuffer.capa = m.capa := rfl
  rw [grown]
  split <;> split <;> omega

/-- **Many bytes.**  There is room for them, or there will be. -/
theorem rawbytes_toBuffer (p : List UInt8) (m : Marshall) :
    m.toBuffer.rawbytes p = outcome (m.rawbytes p) := by
  have hle := m.ind_le
  have hint := m.capa_lt
  have hgrown := m.add_le_grown p.length
  have hstop : m.toBuffer.ind + p.length = ((m.ind + p.length : Nat) : Int) := rfl
  rw [Buffer.rawbytes, Buffer.growBytes, cast_grown, hstop, rawbytes]
  by_cases hroom : m.ind + p.length ≤ m.capa
  · rw [Buffer.int_of_lt (by omega) (by omega), dif_pos hroom]
    change ((if _ then _ else _ : Except BufferFault Buffer).bind _) = _
    rw [if_neg (by simp only [toBuffer]; omega)]
    exact Buffer.append_of_le p m.toBuffer rfl hroom hint
  · rw [dif_neg hroom]
    by_cases hgrow : m.grown p.length < 2 ^ 31
    · rw [Buffer.int_of_lt (by omega) (by omega), dif_pos hgrow]
      change ((if _ then _ else _ : Except BufferFault Buffer).bind _) = _
      rw [if_pos (by simp only [toBuffer]; omega), Buffer.realloc_of_lt hgrow]
      exact Buffer.append_of_le p { m.toBuffer with capa := _, allocated := m.grown p.length } rfl
        hgrown hgrow
    · rw [dif_neg hgrow]
      by_cases hsum : m.ind + p.length < 2 ^ 31
      · rw [Buffer.int_of_lt (by omega) (by omega)]
        change ((if _ then _ else _ : Except BufferFault Buffer).bind _) = _
        rw [if_pos (by simp only [toBuffer]; omega), Buffer.realloc_of_ge (by omega)]
        rfl
      · -- not even the sum in the test is an `int`
        rw [Buffer.int_of_ge (by omega)]
        rfl

/-- One step after another. -/
theorem outcome_bind {f : Marshall → Option Marshall} {g : Buffer → Except BufferFault Buffer}
    (h : ∀ m, g m.toBuffer = outcome (f m)) (o : Option Marshall) :
    (outcome o).bind g = outcome (o.bind f) := by
  cases o with
  | none => rfl
  | some m => exact h m

theorem pack_toBuffer (x : Int32) (m : Marshall) : m.toBuffer.pack x = outcome (m.pack x) := by
  have hbyte : ∀ y, ∀ m : Marshall, m.toBuffer.rawbyte y = outcome (m.rawbyte y) := rawbyte_toBuffer
  rw [Buffer.pack, hbyte]
  exact outcome_bind (fun m ↦ by rw [hbyte]; exact outcome_bind (fun m ↦ by
    rw [hbyte]; exact outcome_bind (hbyte _) _) _) _

theorem foldlM_pack_toBuffer (xs : List Int32) (m : Marshall) :
    xs.foldlM (fun b x ↦ b.pack x) m.toBuffer = outcome (xs.foldlM (fun m x ↦ m.pack x) m) := by
  induction xs generalizing m with
  | nil => rfl
  | cons x xs ih =>
    rw [List.foldlM_cons, List.foldlM_cons, pack_toBuffer]
    exact outcome_bind ih _

/-- **A header.**  There is always room for it. -/
theorem packHeader_toBuffer {xs : List Int32} {m m' : Marshall} (h : m.packHeader xs = some m') :
    m.toBuffer.packHeader xs = .ok m'.toBuffer := by
  have hcapa : rpcSz ≤ m.capa := le_trans (by decide) m.le_capa
  simp only [packHeader, seek, dif_pos hcapa, Option.bind_eq_bind, Option.bind_some] at h
  obtain ⟨m₁, hfold, hseek⟩ := Option.bind_eq_some_iff.1 h
  have hbuf := foldlM_pack_toBuffer xs { m with ind := rpcSz, ind_le := hcapa }
  rw [hfold] at hbuf
  have hm' : m'.toBuffer = { m₁.toBuffer with ind := m.toBuffer.ind } := by
    split at hseek
    · rw [← Option.some_inj.1 hseek]
      rfl
    · exact absurd hseek (by simp)
  have hstart : { m.toBuffer with ind := rpcSz } =
      toBuffer { m with ind := rpcSz, ind_le := hcapa } := rfl
  rw [Buffer.packHeader, hm', hstart, hbuf]
  rfl

end Marshall

/-! ## Whole sequences -/

/-- What is done to a `marshall`. -/
inductive BufferOp where
  | rawbyte (x : UInt8)
  | rawbytes (p : List UInt8)
  | packReqHeader (h : ReqHeader)
  | packReplyHeader (h : ReplyHeader)

namespace BufferOp

def run : BufferOp → Buffer → Except BufferFault Buffer
  | .rawbyte x => Buffer.rawbyte x
  | .rawbytes p => Buffer.rawbytes p
  | .packReqHeader h => Buffer.packReqHeader h
  | .packReplyHeader h => Buffer.packReplyHeader h

/-- The bytes that are appended. -/
def appended : BufferOp → List UInt8
  | .rawbyte x => [x]
  | .rawbytes p => p
  | .packReqHeader _ => []
  | .packReplyHeader _ => []

/-- A sequence of steps. -/
def runAll (ops : List BufferOp) (b : Buffer) : Except BufferFault Buffer :=
  ops.foldlM (fun b op ↦ op.run b) b

theorem runAll_cons {op : BufferOp} {b b' : Buffer} (h : op.run b = .ok b') (ops : List BufferOp) :
    runAll (op :: ops) b = runAll ops b' := by
  rw [runAll, List.foldlM_cons, h]
  rfl

end BufferOp

open Marshall

/-- What is appended is appended to the contents. -/
theorem Marshall.Emits.content {m m' : Marshall} {bs : List UInt8} (h : m.Emits bs m')
    (hm : headerSz ≤ m.ind) : m'.content = m.content ++ bs := by
  rw [Marshall.content, h.ind, h.buf, Nat.sub_add_comm hm, read_add,
    read_write_of_disjoint _ (Or.inl (by omega)), Nat.add_sub_cancel' hm, read_write]
  rfl

/-- **One step.** -/
theorem BufferOp.exists_run (op : BufferOp) {m : Marshall} (hm : headerSz ≤ m.ind)
    (hroom : m.ind + op.appended.length ≤ 2 ^ 30) :
    ∃ m' : Marshall, op.run m.toBuffer = .ok m'.toBuffer ∧
      m'.ind = m.ind + op.appended.length ∧ m'.content = m.content ++ op.appended := by
  have hheader : ∀ xs : List Int32, xs.length ≤ 5 →
      ∃ m' : Marshall, m.toBuffer.packHeader xs = .ok m'.toBuffer ∧
        m'.ind = m.ind + 0 ∧ m'.content = m.content ++ [] := by
    intro xs hxs
    obtain ⟨m', hpack, hind, hbuf⟩ := exists_packHeader hxs m
    refine ⟨m', packHeader_toBuffer hpack, hind, ?_⟩
    rw [List.append_nil]
    exact (bytes_of_packHeader hxs hm hind hbuf).1
  cases op with
  | rawbyte x =>
    obtain ⟨m', hraw, hemits⟩ := emits_rawbyte x hroom
    exact ⟨m', by rw [run, rawbyte_toBuffer, hraw]; rfl, hemits.ind, hemits.content hm⟩
  | rawbytes p =>
    obtain ⟨m', hraw, hemits⟩ := emits_rawbytes p hroom
    exact ⟨m', by rw [run, rawbytes_toBuffer, hraw]; rfl, hemits.ind, hemits.content hm⟩
  | packReqHeader h => exact hheader _ (by simp)
  | packReplyHeader h => exact hheader _ (by simp)

theorem BufferOp.exists_runAll (ops : List BufferOp) {m : Marshall} (hm : headerSz ≤ m.ind)
    (hroom : m.ind + (ops.flatMap appended).length ≤ 2 ^ 30) :
    ∃ m' : Marshall, runAll ops m.toBuffer = .ok m'.toBuffer ∧
      m'.content = m.content ++ ops.flatMap appended := by
  induction ops generalizing m with
  | nil => exact ⟨m, rfl, by simp⟩
  | cons op ops ih =>
    rw [List.flatMap_cons, List.length_append] at hroom
    obtain ⟨m₁, hrun, hind, hcontent⟩ := op.exists_run hm (by omega)
    obtain ⟨m', hrest, hcontent'⟩ := ih (m := m₁) (by omega) (by omega)
    refine ⟨m', (runAll_cons hrun ops).trans hrest, ?_⟩
    rw [hcontent', hcontent, List.flatMap_cons, List.append_assoc]

/-- **There is room.**  Whatever is done to a new `marshall`, as long as what is appended and the
place for the header are not more than 2^30 bytes: no `int` overflows, no byte is written where
there is no memory, after every step the index is within the capacity and all of the capacity is
allocated, and the contents are what has been appended. -/
theorem buffer_has_room (mem : Nat → UInt8) (ops : List BufferOp)
    (hsize : headerSz + (ops.flatMap BufferOp.appended).length ≤ 2 ^ 30) (k : Nat) :
    ∃ b, BufferOp.runAll (ops.take k) (Buffer.new mem) = .ok b ∧
      0 ≤ b.ind ∧ b.ind ≤ b.capa ∧ b.capa < 2 ^ 31 ∧ (b.allocated : Int) = b.capa ∧
      b.content = (ops.take k).flatMap BufferOp.appended := by
  have hle : ((ops.take k).flatMap BufferOp.appended).length ≤
      (ops.flatMap BufferOp.appended).length :=
    ((List.take_sublist k ops).flatMap _).length_le
  obtain ⟨m, hrun, hcontent⟩ := BufferOp.exists_runAll (ops.take k) (m := Marshall.new mem) le_rfl
    (by change headerSz + _ ≤ _; omega)
  refine ⟨m.toBuffer, hrun, Int.natCast_nonneg _, Int.ofNat_le.2 m.ind_le, ?_, rfl, ?_⟩
  · have := m.capa_lt
    simp only [toBuffer]
    omega
  · rw [content_toBuffer, hcontent]
    rfl

/-- A header goes in front of what is there, and more comes behind it. -/
theorem buffer_has_room_reply :
    ∃ b, BufferOp.runAll [.rawbytes [1, 2], .packReplyHeader ⟨7, 0⟩, .rawbyte 3]
        (Buffer.new fun _ ↦ 0) = .ok b ∧ b.ind ≤ b.capa ∧ b.content = [1, 2, 3] := by
  obtain ⟨b, hrun, -, hle, -, -, hcontent⟩ := buffer_has_room (fun _ ↦ 0)
    [.rawbytes [1, 2], .packReplyHeader ⟨7, 0⟩, .rawbyte 3] (by decide) 3
  exact ⟨b, hrun, hle, hcontent⟩

/-- A large string makes the capacity 2^30, and then a small one does not fit. -/
theorem runAll_eq_overflow (mem : Nat → UInt8) {p q : List UInt8} (hp : p.length = 2 ^ 30 - 1024)
    (hq : q.length = 1001) :
    BufferOp.runAll [.rawbytes p, .rawbytes q] (Buffer.new mem) = .error .overflow := by
  have hind : (new mem).ind = 24 := rfl
  have hcapa : (new mem).capa = 1024 := rfl
  have hgrown : (new mem).grown p.length = 2 ^ 30 := by
    rw [grown, if_neg (by omega), hp, hcapa]
    omega
  obtain ⟨m, hm, hemits⟩ := emits_rawbytes p (m := new mem) (by omega)
  have hmcapa : m.capa = 2 ^ 30 := by
    rw [rawbytes, dif_neg (by omega), dif_pos (by omega)] at hm
    rw [← Option.some_inj.1 hm]
    exact hgrown
  have hmind : m.ind = 2 ^ 30 - 1000 := by
    rw [hemits.ind]
    omega
  have hfail : m.rawbytes q = none := by
    rw [rawbytes, dif_neg (by omega), dif_neg]
    rw [grown, if_pos (by omega)]
    omega
  have hrun : BufferOp.run (.rawbytes p) (Buffer.new mem) = .ok m.toBuffer := by
    rw [BufferOp.run, ← toBuffer_new, rawbytes_toBuffer, hm]
    rfl
  have hrun' : BufferOp.run (.rawbytes q) m.toBuffer = .error .overflow := by
    rw [BufferOp.run, rawbytes_toBuffer, hfail]
    rfl
  rw [BufferOp.runAll_cons hrun, BufferOp.runAll, List.foldlM_cons, hrun']
  rfl

/-- Less than 2^30 bytes are too many if the place for the header comes on top of them. -/
theorem doubled_too_far :
    ([.rawbytes (.replicate (2 ^ 30 - 1024) 0), .rawbytes (.replicate 1001 0)].flatMap
      BufferOp.appended).length < 2 ^ 30 ∧
    BufferOp.runAll [.rawbytes (.replicate (2 ^ 30 - 1024) 0), .rawbytes (.replicate 1001 0)]
      (Buffer.new fun _ ↦ 0) = .error .overflow := by
  refine ⟨?_, runAll_eq_overflow _ List.length_replicate List.length_replicate⟩
  simp only [List.flatMap_cons, List.flatMap_nil, BufferOp.appended, List.length_append,
    List.length_replicate, List.length_nil]
  omega

end Rpc
end Yfs
