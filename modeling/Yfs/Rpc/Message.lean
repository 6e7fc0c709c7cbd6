import Yfs.Rpc.Unmarshall

/-!
# Whole messages

A message is a header and a sequence of values.  Whoever sends one writes the values with `<<`, one
after another, and then the header into the place that has been kept for it.  Whoever receives one
unpacks the header, and extracts values of the types that it expects with `>>`.

Two questions are asked here.

* If both sides agree on the types, does the receiver get what was sent?  `roundTrip` says so, for
  every message whose size, the header included, is below `2 ^ 30`.  It is not enough that the
  values take less than that: the capacity of the buffer need not be an `int` then
  (`marshall_overflows`).
* If they do not agree, or if the bytes are arbitrary, does the receiver stay within the buffer?
  `inBuffer_iff` says exactly when: a string is read whose declared length wraps around when it is
  added to the index, or else everything is as it should be.  `string_leaves_buffer` is a message of
  28 bytes that makes the receiver read what lies behind it.
-/

set_option autoImplicit false

namespace Yfs
namespace Rpc

open Machine Unmarshall

/-! ## Sequences of values -/

/-- A value in a message. -/
structure Value where
  ty : Ty
  val : ty.Val

def encodeAll (vs : List Value) : List UInt8 := vs.flatMap fun v ↦ v.ty.encode v.val

def parseAll : List Ty → Parser (List Value)
  | [] => Parser.pure []
  | t :: ts => t.parse.bind fun x ↦ (parseAll ts).bind fun xs ↦ Parser.pure (⟨t, x⟩ :: xs)

def lengthsAll : List Ty → Lengths
  | [] => fun _ ↦ []
  | t :: ts => lengthsThen t.lengths t.parse fun _ ↦ lengthsAll ts

/-- `m << v₁ << v₂ …`. -/
def marshallAll (vs : List Value) (m : Marshall) : Option Marshall :=
  vs.foldlM (fun m v ↦ v.ty.marshall v.val m) m

/-- `u >> x₁ >> x₂ …`. -/
def extractAll : List Ty → Decode (List Value)
  | [] => pure []
  | t :: ts => do
    let x ← t.extract
    let xs ← extractAll ts
    pure (⟨t, x⟩ :: xs)

theorem parseAll_encodeAll {vs : List Value} (h : (encodeAll vs).length < 2 ^ 32)
    (rest : List UInt8) : parseAll (vs.map Value.ty) (encodeAll vs ++ rest) = some (vs, rest) := by
  induction vs with
  | nil => rfl
  | cons v vs ih =>
    rw [encodeAll, List.flatMap_cons, List.length_append, ← encodeAll] at h
    rw [encodeAll, List.flatMap_cons, ← encodeAll, List.map_cons, parseAll, Parser.bind,
      List.append_assoc, v.ty.parse_encode v.val (by omega), Option.bind_some, Parser.bind,
      ih (by omega)]
    rfl

theorem writes_marshallAll (vs : List Value) : Marshall.Writes (marshallAll vs) (encodeAll vs) :=
  Marshall.Writes.foldlM vs fun v _ ↦ v.ty.writes_marshall v.val

theorem parses_extractAll (ts : List Ty) : Parses (extractAll ts) (parseAll ts) := by
  induction ts with
  | nil => exact parses_pure []
  | cons t ts ih =>
    exact t.parses_extract.bind fun x ↦ ih.bind fun xs ↦ parses_pure (⟨t, x⟩ :: xs)

theorem demands_extractAll (ts : List Ty) : Demands (extractAll ts) (lengthsAll ts) := by
  induction ts with
  | nil => exact (stringless_pure []).demands
  | cons t ts ih =>
    exact t.demands_extract.bind t.parses_extract fun x ↦
      ih.map (parses_extractAll ts) fun xs ↦ (⟨t, x⟩ :: xs : List Value)

/-! ## Headers -/

def ReqHeader.parse : Parser ReqHeader :=
  parseInt.bind fun xid ↦ parseInt.bind fun proc ↦ parseInt.bind fun cltNonce ↦
    parseInt.bind fun srvNonce ↦ parseInt.bind fun xidRep ↦
      Parser.pure ⟨xid, proc, cltNonce.toUInt32, srvNonce.toUInt32, xidRep⟩

def ReplyHeader.parse : Parser ReplyHeader :=
  parseInt.bind fun xid ↦ parseInt.bind fun ret ↦ Parser.pure ⟨xid, ret⟩

theorem takes_reqHeader : Takes ReqHeader.parse 20 :=
  takes_parseInt.bind fun _ ↦ takes_parseInt.bind fun _ ↦ takes_parseInt.bind fun _ ↦
    takes_parseInt.bind fun _ ↦ takes_parseInt.bind fun _ ↦ takes_pure _

theorem takes_replyHeader : Takes ReplyHeader.parse 8 :=
  takes_parseInt.bind fun _ ↦ takes_parseInt.bind fun _ ↦ takes_pure _

theorem parses_reqFields : Parses reqFields ReqHeader.parse :=
  parses_getInt.bind fun _ ↦ parses_getInt.bind fun _ ↦ parses_getInt.bind fun _ ↦
    parses_getInt.bind fun _ ↦ parses_getInt.bind fun _ ↦ parses_pure _

theorem parses_replyFields : Parses replyFields ReplyHeader.parse :=
  parses_getInt.bind fun _ ↦ parses_getInt.bind fun _ ↦ parses_pure _

theorem stringless_reqFields : Stringless reqFields :=
  stringless_getInt.bind fun _ ↦ stringless_getInt.bind fun _ ↦ stringless_getInt.bind fun _ ↦
    stringless_getInt.bind fun _ ↦ stringless_getInt.bind fun _ ↦ stringless_pure _

theorem stringless_replyFields : Stringless replyFields :=
  stringless_getInt.bind fun _ ↦ stringless_getInt.bind fun _ ↦ stringless_pure _

theorem ReqHeader.parse_encodeHeader (h : ReqHeader) (rest : List UInt8) :
    ReqHeader.parse
        (encodeHeader [h.xid, h.proc, h.cltNonce.toInt32, h.srvNonce.toInt32, h.xidRep] ++ rest) =
      some (h, rest) := by
  simp only [ReqHeader.parse, Parser.bind, Parser.pure, encodeHeader, List.flatMap_cons,
    List.flatMap_nil, List.append_nil, List.append_assoc, parseInt_encodeUInt, Option.bind_some]
  simp only [UInt32.toUInt32_toInt32]

theorem ReplyHeader.parse_encodeHeader (h : ReplyHeader) (rest : List UInt8) :
    ReplyHeader.parse (encodeHeader [h.xid, h.ret] ++ rest) = some (h, rest) := by
  simp only [ReplyHeader.parse, Parser.bind, Parser.pure, encodeHeader, List.flatMap_cons,
    List.flatMap_nil, List.append_nil, List.append_assoc, parseInt_encodeUInt, Option.bind_some]

/-- The fields of a header are read from its place, and the index is behind it afterwards. -/
theorem eval_unpackHeader {α : Type} {fields : Decode α} {u u' : Unmarshall} {a : α} :
    (unpackHeader fields).eval exec u = some (.ok a, u') ↔
      ∃ u₁, fields.eval exec { u with ind := rpcSz } = some (.ok a, u₁) ∧
        u' = { u₁ with ind := headerSz } := by
  rw [unpackHeader, Prog.eval_ask_bind_eq_ok]
  constructor
  · rintro ⟨_, u₀, h₀, h⟩
    obtain ⟨-, rfl⟩ := Prod.mk.inj (Option.some_inj.1 h₀)
    obtain ⟨b, u₁, h₁, h⟩ := Prog.eval_bind_eq_ok.1 h
    obtain ⟨_, u₂, h₂, h⟩ := Prog.eval_ask_bind_eq_ok.1 h
    obtain ⟨-, rfl⟩ := Prod.mk.inj (Option.some_inj.1 h₂)
    obtain ⟨hb, rfl⟩ := Prod.mk.inj (Option.some_inj.1 h)
    obtain rfl := Except.ok.inj hb
    exact ⟨u₁, h₁, rfl⟩
  · rintro ⟨u₁, h₁, rfl⟩
    exact ⟨(), _, rfl, Prog.eval_bind_eq_ok.2
      ⟨a, u₁, h₁, Prog.eval_ask_bind_eq_ok.2 ⟨(), _, rfl, rfl⟩⟩⟩

/-! ## What is sent is received -/

theorem length_bytes (m : Marshall) : m.bytes.length = m.ind := length_read _ _ _

/-- The receiver's object, with the buffer that the sender has handed over. -/
def Marshall.received (m : Marshall) : Unmarshall where
  buf := m.bytes
  size_lt := by
    have hle := m.ind_le
    have hlt := m.capa_lt
    rw [length_bytes]
    omega

/-- A header is packed behind the values `vs` in `m`, and then the message is read. -/
structure RoundTrip {H : Type} (pack : H → Marshall → Option Marshall) (unpack : Decode H)
    (vs : List Value) (m : Marshall) (h : H) (m' : Marshall) (u : Unmarshall) : Prop where
  packed : pack h m = some m'
  size_eq : m'.ind = m.ind
  content_eq : m'.content = m.content
  read : (do
      let h ← unpack
      let xs ← extractAll (vs.map Value.ty)
      pure (h, xs)).eval exec m'.received = some (.ok (h, vs), u)
  all : u.ind = u.sz
  okdone : u.okdone = true

theorem exists_roundTrip {H : Type} {pack : H → Marshall → Option Marshall} {fields : Decode H}
    {q : Parser H} {vs : List Value} {m : Marshall} {h : H} {xs : List Int32} (hxs : xs.length ≤ 5)
    (hpack : pack h = Marshall.packHeader xs) (hp : Parses fields q)
    (hq : ∀ rest, q (encodeHeader xs ++ rest) = some (h, rest)) (hm : headerSz ≤ m.ind)
    (hcontent : m.content = encodeAll vs) (hsize : (encodeAll vs).length < 2 ^ 32) :
    ∃ m' u, RoundTrip pack (unpackHeader fields) vs m h m' u := by
  obtain ⟨m', hm', hind, hbuf⟩ := exists_packHeader hxs m
  obtain ⟨hkeep, ⟨rest, hrest⟩, hdrop⟩ := bytes_of_packHeader hxs hm hind hbuf
  obtain ⟨u₁, he₁, hok₁, -⟩ := hp.complete (u := { m'.received with ind := rpcSz }) rfl
    ((congrArg q hrest).trans (hq rest))
  have hmoves := hp.moves he₁
  have hbody : parseAll (vs.map Value.ty) ({ u₁ with ind := headerSz } : Unmarshall).rest =
      some (vs, []) := by
    have hparse := parseAll_encodeAll hsize []
    rw [List.append_nil, ← hcontent, ← hdrop] at hparse
    rw [← hparse]
    exact congrArg (fun b ↦ parseAll _ (List.drop headerSz b)) hmoves.buf
  obtain ⟨u₂, he₂, hok₂, hnil⟩ := (parses_extractAll _).complete
    (u := { u₁ with ind := headerSz }) hok₁ hbody
  have hmoves₂ := (parses_extractAll _).moves he₂
  have hsz : u₂.sz = m.ind := by
    rw [hmoves₂.sz_eq, sz, hmoves.buf]
    exact (length_bytes m').trans hind
  have hlen := rest_length u₂
  have hle := hmoves₂.le
  have hall : u₂.ind = u₂.sz := by
    rw [hnil, List.length_nil] at hlen
    rcases hmoves₂.ind_le with h | h
    · omega
    · dsimp only at h
      omega
  refine ⟨m', u₂, hpack ▸ hm', hind, hkeep, ?_, hall, ?_⟩
  · refine Prog.eval_bind_eq_ok.2 ⟨h, _, eval_unpackHeader.2 ⟨u₁, he₁, rfl⟩, ?_⟩
    exact Prog.eval_bind_eq_ok.2 ⟨vs, u₂, he₂, rfl⟩
  · rw [Unmarshall.okdone, hok₂, hall]
    simp

/-- **What is sent is received.**  Values that have been written are read again, behind every
header, and nothing is left over. -/
theorem roundTrip (mem : Nat → UInt8) (vs : List Value)
    (h : headerSz + (encodeAll vs).length < 2 ^ 30) :
    ∃ m, marshallAll vs (Marshall.new mem) = some m ∧ m.content = encodeAll vs ∧
      (∀ hd, ∃ m' u, RoundTrip Marshall.packReqHeader unpackReqHeader vs m hd m' u) ∧
      ∀ hd, ∃ m' u, RoundTrip Marshall.packReplyHeader unpackReplyHeader vs m hd m' u := by
  obtain ⟨m, hm, hind, hbuf, -⟩ := writes_marshallAll vs (Marshall.new mem) h
  have hle : headerSz ≤ m.ind := hind ▸ Nat.le_add_right _ _
  have hcontent : m.content = encodeAll vs := by
    rw [Marshall.content, hind, hbuf]
    have hlen : (Marshall.new mem).ind + (encodeAll vs).length - headerSz = (encodeAll vs).length :=
      Nat.add_sub_cancel_left _ _
    rw [hlen]
    exact read_write _ _ _
  refine ⟨m, hm, hcontent, fun hd ↦ ?_, fun hd ↦ ?_⟩
  · exact exists_roundTrip le_rfl rfl parses_reqFields hd.parse_encodeHeader hle hcontent (by omega)
  · exact exists_roundTrip (by simp) rfl parses_replyFields hd.parse_encodeHeader hle hcontent
      (by omega)

/-- A map from strings to vectors, and numbers of both signs. -/
def sampleValues : List Value :=
  [⟨.scalar .short, (-2 : Int16)⟩,
    ⟨.map .string (.vector (.scalar .ull)),
      OrderedMap.ofEntries [([98], [(0x0102030405060708 : UInt64)]), ([97], [])]⟩,
    ⟨.scalar .bool, true⟩]

theorem roundTrip_sampleValues :
    headerSz + (encodeAll sampleValues).length < 2 ^ 30 ∧
      ∃ m, marshallAll sampleValues (Marshall.new fun _ ↦ 0xa5) = some m ∧
        m.content = encodeAll sampleValues ∧
        (∀ hd, ∃ m' u, RoundTrip Marshall.packReqHeader unpackReqHeader sampleValues m hd m' u) ∧
        ∀ hd, ∃ m' u, RoundTrip Marshall.packReplyHeader unpackReplyHeader sampleValues m hd m' u :=
  ⟨by decide +kernel, roundTrip _ sampleValues (by decide +kernel)⟩

/-- A number that fits leaves the capacity as it is. -/
theorem Marshall.putUInt_of_room (x : UInt32) {m : Marshall} (h : m.ind + 4 ≤ m.capa) :
    ∃ m', m.putUInt x = some m' ∧ m'.ind = m.ind + 4 ∧ m'.capa = m.capa := by
  simp only [putUInt, rawbyte, Option.bind_eq_bind]
  rw [dif_pos (by omega), Option.bind_some, dif_pos (by simp only; omega), Option.bind_some,
    dif_pos (by simp only; omega), Option.bind_some, dif_pos (by simp only; omega)]
  exact ⟨_, rfl, rfl, rfl⟩

/-- A large string makes the capacity 2^30, and then a small one does not fit. -/
theorem marshallAll_eq_none (mem : Nat → UInt8) {p q : List UInt8} (hp : p.length = 2 ^ 30 - 1024)
    (hq : q.length = 993) :
    marshallAll [⟨.string, p⟩, ⟨.string, q⟩] (Marshall.new mem) = none := by
  obtain ⟨m₁, hm₁, hind₁, hcapa₁⟩ := (Marshall.new mem).putUInt_of_room (.ofNat p.length)
    (show headerSz + 4 ≤ 1024 by decide)
  have hind₁ : m₁.ind = 28 := hind₁
  have hcapa₁ : m₁.capa = 1024 := hcapa₁
  have hgrown : m₁.grown p.length = 2 ^ 30 := by
    rw [Marshall.grown, if_neg (by omega)]
    omega
  obtain ⟨m₂, hm₂, hind₂, hcapa₂⟩ : ∃ m₂, m₁.rawbytes p = some m₂ ∧
      m₂.ind = 2 ^ 30 - 996 ∧ m₂.capa = 2 ^ 30 := by
    rw [Marshall.rawbytes, dif_neg (by omega), dif_pos (by omega)]
    exact ⟨_, rfl, by simp only; omega, hgrown⟩
  obtain ⟨m₃, hm₃, hind₃, hcapa₃⟩ := m₂.putUInt_of_room (.ofNat q.length) (by omega)
  have hfail : m₃.rawbytes q = none := by
    rw [Marshall.rawbytes, dif_neg (by omega), dif_neg]
    rw [Marshall.grown, if_pos (by omega)]
    omega
  have hfirst : Marshall.putString p (Marshall.new mem) = some m₂ := by
    rw [Marshall.putString, hm₁]
    exact hm₂
  have hsecond : Marshall.putString q m₂ = none := by
    rw [Marshall.putString, hm₃]
    exact hfail
  simp only [marshallAll, List.foldlM_cons, Ty.marshall, Option.bind_eq_bind]
  rw [hfirst, Option.bind_some, hsecond, Option.bind_none]

/-- **The header counts.**  Values of less than 2^30 bytes are too many if the place for the header
comes on top of them. -/
theorem marshall_overflows :
    (encodeAll [⟨.string, List.replicate (2 ^ 30 - 1024) 0⟩,
      ⟨.string, List.replicate 993 0⟩]).length < 2 ^ 30 ∧
    ∀ mem, marshallAll [⟨.string, List.replicate (2 ^ 30 - 1024) 0⟩,
      ⟨.string, List.replicate 993 0⟩] (Marshall.new mem) = none := by
  refine ⟨?_, fun mem ↦ marshallAll_eq_none mem List.length_replicate List.length_replicate⟩
  simp only [encodeAll, List.flatMap_cons, List.flatMap_nil, Ty.encode, List.length_append,
    length_encodeString, List.length_replicate, List.length_nil]
  omega

/-! ## What is received may be anything -/

/-- How the index gets behind the header. -/
inductive Start where
  /-- `unpack_req_header`. -/
  | request
  /-- `unpack_reply_header`. -/
  | reply
  /-- `take_in`. -/
  | takeIn
  deriving DecidableEq, Repr

/-- The number of bytes that have to be there. -/
def Start.size : Start → Nat
  | .request => 24
  | .reply => 12
  | .takeIn => 24

/-- The object that has been made from a buffer, or has taken it from such an object. -/
def Start.init (start : Start) (b : List UInt8) (hb : b.length < 2 ^ 31) : Unmarshall :=
  match start with
  | .takeIn => Unmarshall.takeIn { buf := b, size_lt := hb }
  | _ => { buf := b, size_lt := hb }

/-- The header is unpacked. -/
def Start.header : Start → Decode Unit
  | .request => do
    let _ ← unpackReqHeader
    pure ()
  | .reply => do
    let _ ← unpackReplyHeader
    pure ()
  | .takeIn => pure ()

/-- The header is unpacked, and values of these types are extracted. -/
def Start.receive (start : Start) (ts : List Ty) : Decode (List Value) := do
  start.header
  extractAll ts

/-- What a receiver may rely on, whatever the buffer contains. -/
structure InBuffer (start : Start) (b : List UInt8) (hb : b.length < 2 ^ 31) (ts : List Ty) :
    Prop where
  /-- No byte outside the buffer is read. -/
  reads : (start.receive ts).eval exec (start.init b hb) ≠ none
  /-- If the header is not there, the flag is cleared. -/
  header {u : Unmarshall} (h : start.header.eval exec (start.init b hb) = some (.ok (), u))
    (hlen : b.length < start.size) : u.ok = false
  /-- An extraction does not move the index past the end. -/
  ind_le {ts₁ ts₂ : List Ty} {t : Ty} {vs : List Value} {x : t.Val} {u u' : Unmarshall}
    (hts : ts = ts₁ ++ t :: ts₂)
    (h : (start.receive ts₁).eval exec (start.init b hb) = some (.ok vs, u))
    (hx : t.extract.eval exec u = some (.ok x, u')) : u'.ind ≤ u'.sz ∨ u'.ind = u.ind
  /-- An extraction that needs more bytes than there are clears the flag. -/
  short {ts₁ ts₂ : List Ty} {t : Ty} {vs : List Value} {x : t.Val} {u u' : Unmarshall}
    (hts : ts = ts₁ ++ t :: ts₂)
    (h : (start.receive ts₁).eval exec (start.init b hb) = some (.ok vs, u))
    (hx : t.extract.eval exec u = some (.ok x, u')) (hparse : t.parse u.rest = none) :
    u'.ok = false
  /-- It is not set again. -/
  stays {ts₁ ts₂ : List Ty} {t : Ty} {vs : List Value} {x : t.Val} {u u' : Unmarshall}
    (hts : ts = ts₁ ++ t :: ts₂)
    (h : (start.receive ts₁).eval exec (start.init b hb) = some (.ok vs, u))
    (hx : t.extract.eval exec u = some (.ok x, u')) (hok : u.ok = false) : u'.ok = false
  /-- If all is well in the end, the values are the whole message. -/
  okdone {vs : List Value} {u : Unmarshall}
    (h : (start.receive ts).eval exec (start.init b hb) = some (.ok vs, u))
    (hok : u.okdone = true) : headerSz ≤ b.length ∧ parseAll ts (b.drop headerSz) = some (vs, [])

theorem Stringless.exists_eval {α : Type} {p : Decode α} (hp : Stringless p) (u : Unmarshall) :
    ∃ a u', p.eval exec u = some (.ok a, u') := by
  have hne : p.eval exec u ≠ none :=
    hp.demands.eval_ne_none_iff.2 fun _ r hr ↦ absurd hr List.not_mem_nil
  obtain ⟨⟨a | a, u'⟩, he⟩ := Option.ne_none_iff_exists'.1 hne
  · exact a.elim
  · exact ⟨a, u', he⟩

/-- After a header the index is where the values start, and the flag says whether the header was
there. -/
theorem exists_unpackHeader {α : Type} {fields : Decode α} {q : Parser α} {n : Nat}
    (hp : Parses fields q) (hs : Stringless fields) (hq : Takes q n) (hn : 0 < n)
    {u : Unmarshall} (hok : u.ok = true) :
    ∃ a u', (unpackHeader fields).eval exec u = some (.ok a, u') ∧ u'.buf = u.buf ∧
      u'.ind = headerSz ∧ (u'.ok = true ↔ rpcSz + n ≤ u.sz) := by
  obtain ⟨a, u₁, he⟩ := hs.exists_eval { u with ind := rpcSz }
  refine ⟨a, _, eval_unpackHeader.2 ⟨u₁, he, rfl⟩, (hp.moves he).buf, rfl, ?_⟩
  have hlen : ({ u with ind := rpcSz } : Unmarshall).rest.length = u.sz - rpcSz := rest_length _
  constructor
  · intro hok₁
    have hparse := hp.sound he hok₁
    by_contra hlt
    rw [hq.short (by omega)] at hparse
    exact absurd hparse (by simp)
  · intro hle
    obtain ⟨b, hb⟩ := @hq.enough ({ u with ind := rpcSz } : Unmarshall).rest (by omega)
    obtain ⟨u₂, he₂, hok₂, -⟩ := hp.complete (u := { u with ind := rpcSz }) hok hb
    obtain ⟨-, rfl⟩ := Prod.mk.inj (Option.some_inj.1 (he.symm.trans he₂))
    exact hok₂

theorem Start.exists_header (start : Start) (b : List UInt8) (hb : b.length < 2 ^ 31) :
    ∃ u, start.header.eval exec (start.init b hb) = some (.ok (), u) ∧ u.buf = b ∧
      u.ind = headerSz ∧ (u.ok = true ↔ start.size ≤ b.length) := by
  cases start with
  | request =>
    obtain ⟨a, u, he, hu⟩ := exists_unpackHeader parses_reqFields stringless_reqFields
      takes_reqHeader (by decide) (u := { buf := b, size_lt := hb }) rfl
    exact ⟨u, Prog.eval_bind_eq_ok.2 ⟨a, u, he, rfl⟩, hu⟩
  | reply =>
    obtain ⟨a, u, he, hu⟩ := exists_unpackHeader parses_replyFields stringless_replyFields
      takes_replyHeader (by decide) (u := { buf := b, size_lt := hb }) rfl
    exact ⟨u, Prog.eval_bind_eq_ok.2 ⟨a, u, he, rfl⟩, hu⟩
  | takeIn => exact ⟨_, rfl, rfl, rfl, decide_eq_true_iff⟩

/-- Nothing can be taken off the front of nothing. -/
theorem Ty.parse_nil (t : Ty) : t.parse [] = none := by
  cases t with
  | scalar a => cases a <;> rfl
  | string => rfl
  | vector t => rfl
  | map k v => rfl
  | attr => rfl

theorem lengthsAll_nil (ts : List Ty) : lengthsAll ts [] = [] := by
  cases ts with
  | nil => rfl
  | cons t ts =>
    rw [lengthsAll, lengthsThen, t.parse_nil]
    cases t <;> rfl

/-- **When a receiver stays within the buffer.**  Everything is as it should be if and only if no
string in the message, where the format has it, declares a length that wraps around when it is added
to the index at which the string starts. -/
theorem inBuffer_iff (start : Start) (b : List UInt8) (hb : b.length < 2 ^ 31) (ts : List Ty) :
    InBuffer start b hb ts ↔
      ∀ r ∈ lengthsAll ts (b.drop headerSz), b.length - r.2.length + r.1.toNat < 2 ^ 32 := by
  obtain ⟨u, he, hbuf, hind, hok⟩ := start.exists_header b hb
  have hrest : u.rest = b.drop headerSz := by rw [Unmarshall.rest, hbuf, hind]
  have hsz : u.sz = b.length := congrArg List.length hbuf
  have hreceive : ∀ ts, (start.receive ts).eval exec (start.init b hb) =
      (extractAll ts).eval exec u := by
    intro ts
    rw [Start.receive, Prog.eval_bind, he]
    rfl
  -- A flag that has been cleared by the header leaves no bytes for strings.
  have hreads : (start.receive ts).eval exec (start.init b hb) ≠ none ↔
      ∀ r ∈ lengthsAll ts (b.drop headerSz), b.length - r.2.length + r.1.toNat < 2 ^ 32 := by
    rw [hreceive, (demands_extractAll ts).eval_ne_none_iff, hrest, hsz]
    refine ⟨fun h r hr ↦ ?_, fun h _ ↦ h⟩
    by_cases hlen : headerSz ≤ b.length
    · refine h (hok.2 (le_trans ?_ hlen)) r hr
      cases start <;> decide
    · rw [List.drop_eq_nil_of_le (by omega), lengthsAll_nil] at hr
      exact absurd hr List.not_mem_nil
  refine ⟨fun h ↦ hreads.1 h.reads, fun h ↦ ?_⟩
  constructor
  · exact hreads.2 h
  · intro u' h' hlen
    obtain ⟨-, rfl⟩ := Prod.mk.inj (Option.some_inj.1 (he.symm.trans h'))
    rw [← Bool.not_eq_true, hok]
    omega
  · intro ts₁ ts₂ t vs x u₁ u₂ _ _ hx
    exact (t.parses_extract.moves hx).ind_le
  · intro ts₁ ts₂ t vs x u₁ u₂ _ _ hx hparse
    rw [← Bool.not_eq_true]
    intro hok₂
    exact absurd (hparse.symm.trans (t.parses_extract.sound hx hok₂)) (by simp)
  · intro ts₁ ts₂ t vs x u₁ u₂ _ _ hx hok₁
    rw [← Bool.not_eq_true]
    intro hok₂
    exact absurd (hok₁.symm.trans ((t.parses_extract.moves hx).ok hok₂)) (by simp)
  · intro vs u' h' hdone
    rw [hreceive] at h'
    rw [Unmarshall.okdone, Bool.and_eq_true, beq_iff_eq] at hdone
    have hmoves := (parses_extractAll ts).moves h'
    have hsz' := hmoves.sz_eq
    have hle := hmoves.le
    have hnil : u'.rest = [] := List.drop_eq_nil_of_le (Nat.le_of_eq hdone.2.symm)
    have hparse := (parses_extractAll ts).sound h' hdone.1
    rw [hrest, hnil] at hparse
    exact ⟨by omega, hparse⟩

/-- A buffer with a header of zeros, and these bytes behind it. -/
def behindHeader (bs : List UInt8) : List UInt8 := List.replicate headerSz 0 ++ bs

theorem inBuffer_hello :
    InBuffer .reply (behindHeader [0, 0, 0, 2, 104, 105]) (by decide) [.string] :=
  (inBuffer_iff _ _ _ _).2 (by decide +kernel)

/-- **A string that leaves the buffer.**  The declared length is 16 less than `2 ^ 32`, so that the
sum with the index, which is 28, is 12. -/
theorem string_leaves_buffer :
    ¬ InBuffer .request (behindHeader [0xff, 0xff, 0xff, 0xf0]) (by decide) [.string] :=
  fun h ↦ h.reads rfl

end Rpc
end Yfs
