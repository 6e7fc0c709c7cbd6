import Yfs.Machine.Prog
import Yfs.Rpc.Marshall

/-!
# Reading messages

An `unmarshall` is a buffer that has been received, with a read index and a flag.  Whoever extracts
values from it uses four methods of it: `rawbyte`, `rawbytes`, `ok`, and the assignment of the index
by which a header is passed over.  So the extraction operators are programs that issue these
commands, and the object executes them.

An object that would read a byte outside its buffer does not execute the command (`none`): what
happens then is not determined by the program.  `rawbyte` never does so.  `rawbytes` compares the
size of the buffer with the sum of the index and a length, in unsigned arithmetic of 32 bits, and
the length has been read from the message.

`Parses` relates an operator to the parser of the format.  If it comes to its end, then the index
has moved forward and not past the end, and the flag is still set only if the bytes were parsed; and
if the bytes can be parsed it does come to its end, with the value.
-/

set_option autoImplicit false

namespace Yfs
namespace Rpc

open Machine

/-! ## The object -/

/-- `unmarshall`.  The size of the buffer is an `int`. -/
structure Unmarshall where
  buf : List UInt8
  ind : Nat := 0
  ok : Bool := true
  size_lt : buf.length < 2 ^ 31

namespace Unmarshall

/-- `_sz`. -/
def sz (u : Unmarshall) : Nat := u.buf.length

/-- The methods that the operators use. -/
inductive Cmd where
  | rawbyte
  | rawbytes (n : UInt32)
  | ok
  /-- An assignment to the index. -/
  | seek (i : Nat)

/-- What they return.  `rawbytes` assigns a string, or does not. -/
@[reducible] def Cmd.Ans : Cmd → Type
  | .rawbyte => UInt32
  | .rawbytes _ => Option (List UInt8)
  | .ok => Bool
  | .seek _ => Unit

/-- `unmarshall::rawbyte`; the byte is a `char`, which is signed. -/
def rawbyte (u : Unmarshall) : UInt32 × Unmarshall :=
  match u.buf[u.ind]? with
  | none => (0, { u with ok := false })
  | some c => (c.toInt8.toInt32.toUInt32, { u with ind := u.ind + 1 })

/-- `unmarshall::rawbytes`. -/
def rawbytes (u : Unmarshall) (n : UInt32) : Option (Option (List UInt8) × Unmarshall) :=
  let sum := UInt32.ofNat u.ind + n
  if sum > UInt32.ofNat u.sz then some (none, { u with ok := false })
  else if u.ind + n.toNat ≤ u.sz then
    some (some ((u.buf.drop u.ind).take n.toNat), { u with ind := sum.toNat })
  else none

/-- The object executes a method. -/
def exec : (c : Cmd) → Unmarshall → Option (c.Ans × Unmarshall)
  | .rawbyte, u => some u.rawbyte
  | .rawbytes n, u => u.rawbytes n
  | .ok, u => some (u.ok, u)
  | .seek i, u => some ((), { u with ind := i })

/-- `unmarshall::okdone`. -/
def okdone (u : Unmarshall) : Bool := u.ok && u.ind == u.sz

/-- `unmarshall::take_in`. -/
def takeIn (another : Unmarshall) : Unmarshall :=
  { buf := another.buf, ind := headerSz, ok := headerSz ≤ another.sz, size_lt := another.size_lt }

end Unmarshall

open Unmarshall

/-! ## Operators -/

/-- A program that extracts something. -/
abbrev Decode (α : Type) := Prog Cmd Cmd.Ans Empty α

def getByte : Decode UInt32 := Prog.ask Cmd.rawbyte

def getBool : Decode Bool := do
  let c ← getByte
  pure (c != 0)

def getUChar : Decode UInt8 := do
  let c ← getByte
  pure c.toUInt8

def getChar : Decode Int8 := do
  let c ← getByte
  pure c.toUInt8.toInt8

def getUShort : Decode UInt16 := do
  let c ← getByte
  let x := ((c &&& 0xff) <<< 8).toUInt16
  let c ← getByte
  pure (x.toUInt32 ||| (c &&& 0xff)).toUInt16

def getShort : Decode Int16 := do
  let c ← getByte
  let x := ((c &&& 0xff) <<< 8).toUInt16.toInt16
  let c ← getByte
  pure (x.toInt32.toUInt32 ||| (c &&& 0xff)).toUInt16.toInt16

def getUInt : Decode UInt32 := do
  let c ← getByte
  let x := (c &&& 0xff) <<< 24
  let c ← getByte
  let x := x ||| (c &&& 0xff) <<< 16
  let c ← getByte
  let x := x ||| (c &&& 0xff) <<< 8
  let c ← getByte
  pure (x ||| (c &&& 0xff))

/-- `operator>>` of an `int`, and `unmarshall::unpack`, have the same text. -/
def getInt : Decode Int32 := do
  let c ← getByte
  let x := ((c &&& 0xff) <<< 24).toInt32
  let c ← getByte
  let x := (x.toUInt32 ||| (c &&& 0xff) <<< 16).toInt32
  let c ← getByte
  let x := (x.toUInt32 ||| (c &&& 0xff) <<< 8).toInt32
  let c ← getByte
  pure (x.toUInt32 ||| (c &&& 0xff)).toInt32

def getULL : Decode UInt64 := do
  let h ← getUInt
  let l ← getUInt
  pure (l.toUInt64 ||| h.toUInt64 <<< 32)

/-- Into a string that is empty. -/
def getString : Decode (List UInt8) := do
  let sz ← getUInt
  if ← Prog.ask Cmd.ok then
    let s ← Prog.ask (Cmd.rawbytes sz)
    pure (s.getD [])
  else pure []

/-- The loop of the operator of `std::vector`, which appends what it extracts. -/
def getMany {α : Type} (get : Decode α) : Nat → Decode (List α)
  | 0 => pure []
  | n + 1 => do
    let a ← get
    let as ← getMany get n
    pure (a :: as)

/-- The loop of the operator of `std::map`. -/
def fillMap {K V : Type} {cmp : K → K → Ordering} [Std.TransCmp cmp] (key : Decode K)
    (val : Decode V) : Nat → OrderedMap cmp V → Decode (OrderedMap cmp V)
  | 0, d => pure d
  | n + 1, d => do
    let a ← key
    let b ← val
    fillMap key val n (d.insert (a, b))

def getAttr : Decode Attr := do
  let type ← getUInt
  let atime ← getUInt
  let mtime ← getUInt
  let ctime ← getUInt
  let size ← getUInt
  pure ⟨type, atime, mtime, ctime, size⟩

/-- `operator>>` of a number. -/
def Scalar.extract : (a : Scalar) → Decode a.Val
  | .bool => getBool
  | .char => getChar
  | .uchar => getUChar
  | .short => getShort
  | .ushort => getUShort
  | .int => getInt
  | .uint => getUInt
  | .ull => getULL

/-- `operator>>` into a variable that has just been declared. -/
def Ty.extract : (t : Ty) → Decode t.Val
  | .scalar a => a.extract
  | .string => getString
  | .vector t => do
    let n ← getUInt
    getMany t.extract n.toNat
  | .map k v => do
    let n ← getUInt
    fillMap k.extract v.extract n.toNat OrderedMap.empty
  | .attr => getAttr

/-- `unmarshall::unpack`. -/
def unpack : Decode Int32 := getInt

/-- Go to the place of the header, read its fields, and go behind it. -/
def unpackHeader {α : Type} (fields : Decode α) : Decode α := do
  Prog.ask (Cmd.seek rpcSz)
  let h ← fields
  Prog.ask (Cmd.seek headerSz)
  pure h

def reqFields : Decode ReqHeader := do
  let xid ← unpack
  let proc ← unpack
  let cltNonce ← unpack
  let srvNonce ← unpack
  let xidRep ← unpack
  pure ⟨xid, proc, cltNonce.toUInt32, srvNonce.toUInt32, xidRep⟩

def replyFields : Decode ReplyHeader := do
  let xid ← unpack
  let ret ← unpack
  pure ⟨xid, ret⟩

/-- `unmarshall::unpack_req_header`. -/
def unpackReqHeader : Decode ReqHeader := unpackHeader reqFields

/-- `unmarshall::unpack_reply_header`. -/
def unpackReplyHeader : Decode ReplyHeader := unpackHeader replyFields

/-! ## Reading and parsing -/

namespace Unmarshall

/-- The bytes that have not been read. -/
def rest (u : Unmarshall) : List UInt8 := u.buf.drop u.ind

/-- What an operator may do to the object: the index moves forward, and if it moves at all it does
not move past the end; the flag is cleared and never set. -/
structure Moves (u u' : Unmarshall) : Prop where
  buf : u'.buf = u.buf
  le : u.ind ≤ u'.ind
  ind_le : u'.ind ≤ u'.sz ∨ u'.ind = u.ind
  ok : u'.ok = true → u.ok = true

variable {u u₁ u₂ : Unmarshall}

theorem Moves.refl (u : Unmarshall) : u.Moves u := ⟨rfl, le_rfl, Or.inr rfl, id⟩

theorem Moves.sz_eq (h : u.Moves u₁) : u₁.sz = u.sz := congrArg List.length h.buf

theorem Moves.trans (h₁ : u.Moves u₁) (h₂ : u₁.Moves u₂) : u.Moves u₂ := by
  refine ⟨h₂.buf.trans h₁.buf, h₁.le.trans h₂.le, ?_, fun h ↦ h₁.ok (h₂.ok h)⟩
  have hsz := h₂.sz_eq
  rcases h₂.ind_le with h | h
  · exact Or.inl h
  · rcases h₁.ind_le with h' | h'
    · exact Or.inl (by omega)
    · exact Or.inr (h.trans h')

end Unmarshall

/-- An operator reads what a parser takes off the front. -/
structure Parses {α : Type} (p : Decode α) (q : Parser α) : Prop where
  moves {u u' : Unmarshall} {a : α} (h : p.eval exec u = some (.ok a, u')) : u.Moves u'
  sound {u u' : Unmarshall} {a : α} (h : p.eval exec u = some (.ok a, u')) (hok : u'.ok = true) :
    q u.rest = some (a, u'.rest)
  complete {u : Unmarshall} {a : α} {bs : List UInt8} (hok : u.ok = true)
    (h : q u.rest = some (a, bs)) :
    ∃ u', p.eval exec u = some (.ok a, u') ∧ u'.ok = true ∧ u'.rest = bs

section Parses

variable {α β : Type} {p : Decode α} {q q' : Parser α} {f : α → Decode β} {g : α → Parser β}

theorem parses_pure (a : α) : Parses (pure a) (Parser.pure a) where
  moves h := by
    obtain ⟨-, rfl⟩ := Prod.mk.inj (Option.some_inj.1 h)
    exact Moves.refl _
  sound h _ := by
    obtain ⟨he, rfl⟩ := Prod.mk.inj (Option.some_inj.1 h)
    rw [← Except.ok.inj he]
    rfl
  complete {u a' bs} hok h := by
    obtain ⟨rfl, rfl⟩ := Prod.mk.inj (Option.some_inj.1 h)
    exact ⟨u, rfl, hok, rfl⟩

theorem Parses.bind (hp : Parses p q) (hf : ∀ a, Parses (f a) (g a)) :
    Parses (p >>= f) (q.bind g) where
  moves h := by
    obtain ⟨a, u₁, h₁, h₂⟩ := Prog.eval_bind_eq_ok.1 h
    exact (hp.moves h₁).trans ((hf a).moves h₂)
  sound h hok := by
    obtain ⟨a, u₁, h₁, h₂⟩ := Prog.eval_bind_eq_ok.1 h
    rw [Parser.bind, hp.sound h₁ (((hf a).moves h₂).ok hok)]
    exact (hf a).sound h₂ hok
  complete hok h := by
    obtain ⟨⟨a, bs₁⟩, h₁, h₂⟩ := Option.bind_eq_some_iff.1 h
    obtain ⟨u₁, he₁, hok₁, rfl⟩ := hp.complete hok h₁
    obtain ⟨u₂, he₂, hok₂, hrest⟩ := (hf a).complete hok₁ h₂
    exact ⟨u₂, Prog.eval_bind_eq_ok.2 ⟨a, u₁, he₁, he₂⟩, hok₂, hrest⟩

theorem Parses.congr (hp : Parses p q) (h : ∀ bs, q bs = q' bs) : Parses p q' :=
  funext h ▸ hp

/-- A result that is converted. -/
theorem Parses.map (hp : Parses p q) (c : α → β) :
    Parses (p >>= fun a ↦ pure (c a)) fun bs ↦ (q bs).map fun r ↦ (c r.1, r.2) := by
  refine (hp.bind fun a ↦ parses_pure (c a)).congr fun bs ↦ ?_
  rw [Parser.bind]
  cases q bs <;> rfl

/-! ### Numbers -/

/-- A byte, which is extended as a `char` is. -/
def parseByte : Parser UInt32
  | [] => none
  | c :: bs => some (c.toInt8.toInt32.toUInt32, bs)

theorem parses_getByte : Parses getByte parseByte := by
  have heval : ∀ u : Unmarshall, getByte.eval exec u = some (.ok u.rawbyte.1, u.rawbyte.2) :=
    fun _ ↦ rfl
  constructor
  · intro u u' a h
    rw [heval] at h
    obtain ⟨-, rfl⟩ := Prod.mk.inj (Option.some_inj.1 h)
    rw [rawbyte]
    split
    · exact ⟨rfl, le_rfl, Or.inr rfl, fun h ↦ absurd h (by simp)⟩
    · rename_i c hc
      obtain ⟨hlt, -⟩ := List.getElem?_eq_some_iff.1 hc
      exact ⟨rfl, Nat.le_succ _, Or.inl hlt, id⟩
  · intro u u' a h hok
    rw [heval] at h
    obtain ⟨he, rfl⟩ := Prod.mk.inj (Option.some_inj.1 h)
    rw [← Except.ok.inj he]
    revert hok
    rw [rawbyte]
    split
    · exact fun h ↦ absurd h (by simp)
    · rename_i c hc
      intro _
      obtain ⟨hlt, hget⟩ := List.getElem?_eq_some_iff.1 hc
      rw [Unmarshall.rest, List.drop_eq_getElem_cons hlt, hget]
      rfl
  · intro u a bs hok h
    refine ⟨u.rawbyte.2, ?_⟩
    rw [heval, rawbyte]
    cases hc : u.buf[u.ind]? with
    | none =>
      rw [Unmarshall.rest, List.drop_eq_nil_iff.2 (List.getElem?_eq_none_iff.1 hc)] at h
      exact absurd h (by simp [parseByte])
    | some c =>
      obtain ⟨hlt, hget⟩ := List.getElem?_eq_some_iff.1 hc
      rw [Unmarshall.rest, List.drop_eq_getElem_cons hlt, hget] at h
      obtain ⟨rfl, rfl⟩ := Prod.mk.inj (Option.some_inj.1 h)
      exact ⟨rfl, hok, rfl⟩

theorem parses_byte {c : UInt32 → α} {d : Nat → α}
    (h : ∀ b : UInt8, c b.toInt8.toInt32.toUInt32 = d b.toNat) :
    Parses (getByte >>= fun b ↦ pure (c b)) fun bs ↦ (parseNat 1 bs).map fun r ↦ (d r.1, r.2) := by
  refine (parses_getByte.map c).congr fun bs ↦ ?_
  cases bs with
  | nil => rfl
  | cons b bs => simp [parseByte, parseNat, ofBigEndian, h]

theorem parses_getUShort :
    Parses getUShort fun bs ↦ (parseNat 2 bs).map fun r ↦ (.ofNat r.1, r.2) := by
  refine (parses_getByte.bind fun a ↦ parses_getByte.bind fun b ↦ parses_pure _).congr fun bs ↦ ?_
  match bs with
  | [] | [_] => rfl
  | a :: b :: bs =>
    have hbs : parseNat 2 (a :: b :: bs) = _ := parseNat_append [a, b] bs
    rw [hbs]
    refine congrArg (fun x ↦ some (x, bs)) ?_
    rw [signExtend_and_255, signExtend_and_255, ofBytes_uint16]

theorem parses_getUInt : Parses getUInt parseUInt := by
  refine (parses_getByte.bind fun a ↦ parses_getByte.bind fun b ↦ parses_getByte.bind fun c ↦
    parses_getByte.bind fun d ↦ parses_pure _).congr fun bs ↦ ?_
  match bs with
  | [] | [_] | [_, _] | [_, _, _] => rfl
  | a :: b :: c :: d :: bs =>
    have hbs : parseNat 4 (a :: b :: c :: d :: bs) = _ := parseNat_append [a, b, c, d] bs
    rw [parseUInt, hbs]
    refine congrArg (fun x ↦ some (x, bs)) ?_
    rw [signExtend_and_255, signExtend_and_255, signExtend_and_255, signExtend_and_255,
      ofBytes_uint32]

theorem parses_getULL : Parses getULL fun bs ↦ (parseNat 8 bs).map fun r ↦ (.ofNat r.1, r.2) := by
  refine (parses_getUInt.bind fun h ↦ parses_getUInt.bind fun l ↦ parses_pure _).congr fun bs ↦ ?_
  rw [show 8 = 4 + 4 from rfl, parseNat_add]
  simp only [Parser.bind, Parser.pure, parseUInt]
  cases hh : parseNat 4 bs with
  | none => rfl
  | some r =>
    cases hl : parseNat 4 r.2 with
    | none => simp [hl]
    | some r' => simp [hl, ofWords_uint64 (parseNat_lt hh) (parseNat_lt hl)]

/-- An `int` is read as an `unsigned int` is. -/
theorem getInt_eq : getInt = getUInt >>= fun x ↦ pure x.toInt32 := by
  simp [getInt, getUInt, getByte]
  rfl

theorem parses_getInt : Parses getInt parseInt :=
  getInt_eq ▸ parses_getUInt.map UInt32.toInt32

theorem getShort_eq : getShort = getUShort >>= fun x ↦ pure x.toInt16 := by
  have h : ∀ (x : UInt16) (y : UInt32), (x.toInt16.toInt32.toUInt32 ||| y).toUInt16 =
      (x.toUInt32 ||| y).toUInt16 := by
    intro x y
    rw [UInt32.toUInt16_or, UInt32.toUInt16_or, toUInt16_signExtend, UInt16.toUInt16_toUInt32]
  simp only [getShort, getUShort, h]
  rfl

theorem Scalar.parses_extract (a : Scalar) :
    Parses a.extract fun bs ↦ (parseNat a.width bs).map fun r ↦ (a.ofBits r.1, r.2) := by
  cases a with
  | bool =>
    refine parses_byte fun b ↦ ?_
    have h : (b.toInt8.toInt32.toUInt32 != 0) = decide (b.toNat ≠ 0) := by
      rw [Bool.eq_iff_iff, bne_iff_ne, decide_eq_true_iff, Ne, signExtend_eq_zero, Ne,
        ← UInt8.toNat_inj]
      rfl
    exact h
  | char =>
    refine parses_byte fun b ↦ ?_
    have h : b.toInt8.toInt32.toUInt32.toUInt8.toInt8 = (UInt8.ofNat b.toNat).toInt8 := by
      rw [toUInt8_signExtend, UInt8.ofNat_toNat]
    exact h
  | uchar =>
    refine parses_byte fun b ↦ ?_
    have h : b.toInt8.toInt32.toUInt32.toUInt8 = UInt8.ofNat b.toNat := by
      rw [toUInt8_signExtend, UInt8.ofNat_toNat]
    exact h
  | short =>
    refine (getShort_eq ▸ parses_getUShort.map UInt16.toInt16).congr fun bs ↦ ?_
    rw [Option.map_map]
    rfl
  | ushort => exact parses_getUShort
  | int =>
    refine parses_getInt.congr fun bs ↦ ?_
    rw [parseInt, parseUInt, Option.map_map]
    rfl
  | uint => exact parses_getUInt
  | ull => exact parses_getULL

/-! ### Strings -/

theorem rest_length (u : Unmarshall) : u.rest.length = u.sz - u.ind := List.length_drop

theorem rawbytes_of_le {u : Unmarshall} {n : UInt32} (h : u.ind + n.toNat ≤ u.sz) :
    u.rawbytes n = some (some (u.rest.take n.toNat), { u with ind := u.ind + n.toNat }) := by
  have hsz : u.sz < 2 ^ 31 := u.size_lt
  have hsum : (UInt32.ofNat u.ind + n).toNat = u.ind + n.toNat := by
    rw [UInt32.toNat_add, UInt32.toNat_ofNat', Nat.mod_add_mod, Nat.mod_eq_of_lt (by omega)]
  have hle : ¬ UInt32.ofNat u.ind + n > UInt32.ofNat u.sz := by
    rw [gt_iff_lt, UInt32.lt_iff_toNat_lt, hsum, UInt32.toNat_ofNat', Nat.mod_eq_of_lt (by omega)]
    omega
  simp only [rawbytes, if_neg hle, if_pos h, hsum]
  rfl

/-- It fails, or it reads what is there. -/
theorem rawbytes_cases {u u' : Unmarshall} {n : UInt32} {s : Option (List UInt8)}
    (h : u.rawbytes n = some (s, u')) :
    s = none ∧ u' = { u with ok := false } ∨
      u.ind + n.toNat ≤ u.sz ∧ s = some (u.rest.take n.toNat) ∧
        u' = { u with ind := u.ind + n.toNat } := by
  by_cases hle : u.ind + n.toNat ≤ u.sz
  · rw [rawbytes_of_le hle] at h
    obtain ⟨rfl, rfl⟩ := Prod.mk.inj (Option.some_inj.1 h)
    exact Or.inr ⟨hle, rfl, rfl⟩
  · rw [rawbytes] at h
    split at h
    · obtain ⟨rfl, rfl⟩ := Prod.mk.inj (Option.some_inj.1 h)
      exact Or.inl ⟨rfl, rfl⟩
    · exact absurd h (by simp)

/-- A string is read after its length, if that could be read. -/
theorem eval_getString {u u' : Unmarshall} {s : List UInt8} :
    getString.eval exec u = some (.ok s, u') ↔ ∃ sz u₁, getUInt.eval exec u = some (.ok sz, u₁) ∧
      (u₁.ok = false ∧ s = [] ∧ u' = u₁ ∨
        u₁.ok = true ∧ ∃ o, u₁.rawbytes sz = some (o, u') ∧ s = o.getD []) := by
  rw [getString, Prog.eval_bind_eq_ok]
  refine exists_congr fun sz ↦ exists_congr fun u₁ ↦ and_congr_right fun _ ↦ ?_
  rw [Prog.eval_ask_bind_eq_ok]
  constructor
  · rintro ⟨b, u₂, hb, he⟩
    obtain ⟨rfl, rfl⟩ := Prod.mk.inj (Option.some_inj.1 hb)
    cases hok : u₁.ok with
    | false =>
      rw [hok] at he
      obtain ⟨hs, rfl⟩ := Prod.mk.inj (Option.some_inj.1 he)
      exact Or.inl ⟨rfl, (Except.ok.inj hs).symm, rfl⟩
    | true =>
      rw [hok] at he
      obtain ⟨o, u₂, ho, he⟩ := Prog.eval_ask_bind_eq_ok.1 he
      obtain ⟨hs, rfl⟩ := Prod.mk.inj (Option.some_inj.1 he)
      exact Or.inr ⟨rfl, o, ho, (Except.ok.inj hs).symm⟩
  · rintro (⟨hok, rfl, rfl⟩ | ⟨hok, o, ho, rfl⟩)
    · exact ⟨u'.ok, u', rfl, by rw [hok]; rfl⟩
    · refine ⟨u₁.ok, u₁, rfl, ?_⟩
      rw [hok]
      exact Prog.eval_ask_bind_eq_ok.2 ⟨o, u', ho, rfl⟩

/-- If a length could be read, the index is within the buffer. -/
theorem ind_le_of_getUInt {u u₁ : Unmarshall} {n : UInt32}
    (h : getUInt.eval exec u = some (.ok n, u₁)) (hok : u₁.ok = true) : u₁.ind ≤ u₁.sz := by
  have hmoves := parses_getUInt.moves h
  have hsz := hmoves.sz_eq
  have hparse := parses_getUInt.sound h hok
  have hlen : 4 ≤ u.rest.length := by
    by_contra hlt
    rw [takes_parseUInt.short (Nat.lt_of_not_le hlt)] at hparse
    exact absurd hparse (by simp)
  rw [rest_length] at hlen
  rcases hmoves.ind_le with h | h
  · exact h
  · omega

theorem parses_getString : Parses getString parseString where
  moves h := by
    obtain ⟨sz, u₁, h₁, ⟨-, -, rfl⟩ | ⟨-, o, ho, -⟩⟩ := eval_getString.1 h
    · exact parses_getUInt.moves h₁
    · refine (parses_getUInt.moves h₁).trans ?_
      rcases rawbytes_cases ho with ⟨-, rfl⟩ | ⟨hle, -, rfl⟩
      · exact ⟨rfl, le_rfl, Or.inr rfl, fun h ↦ absurd h (by simp)⟩
      · exact ⟨rfl, Nat.le_add_right _ _, Or.inl hle, id⟩
  sound h hok := by
    obtain ⟨sz, u₁, h₁, ⟨hok₁, -, rfl⟩ | ⟨hok₁, o, ho, rfl⟩⟩ := eval_getString.1 h
    · exact absurd (hok.symm.trans hok₁) (by simp)
    · rw [parseString_eq, parses_getUInt.sound h₁ hok₁, Option.bind_some]
      rcases rawbytes_cases ho with ⟨-, rfl⟩ | ⟨hle, rfl, rfl⟩
      · exact absurd hok (by simp)
      · have hlen : sz.toNat ≤ u₁.rest.length := by
          rw [rest_length]
          omega
        rw [if_pos hlen]
        simp [Unmarshall.rest]
  complete {u s bs} hok h := by
    rw [parseString_eq] at h
    obtain ⟨⟨sz, bs₁⟩, h₁, h₂⟩ := Option.bind_eq_some_iff.1 h
    obtain ⟨u₁, he, hok₁, rfl⟩ := parses_getUInt.complete hok h₁
    have hind := ind_le_of_getUInt he hok₁
    by_cases hlen : sz.toNat ≤ u₁.rest.length
    · rw [if_pos hlen] at h₂
      obtain ⟨rfl, rfl⟩ := Prod.mk.inj (Option.some_inj.1 h₂)
      rw [rest_length] at hlen
      have hraw := rawbytes_of_le (u := u₁) (n := sz) (by omega)
      refine ⟨_, eval_getString.2 ⟨sz, u₁, he, Or.inr ⟨hok₁, _, hraw, rfl⟩⟩, hok₁, ?_⟩
      simp [Unmarshall.rest]
    · rw [if_neg hlen] at h₂
      exact absurd h₂ (by simp)

/-! ### Containers -/

theorem parses_getMany (hp : Parses p q) (n : Nat) : Parses (getMany p n) (parseMany q n) := by
  induction n with
  | zero => exact parses_pure []
  | succ n ih => exact hp.bind fun a ↦ ih.bind fun as ↦ parses_pure (a :: as)

theorem parses_fillMap {K V : Type} {cmp : K → K → Ordering} [Std.TransCmp cmp] {key : Decode K}
    {val : Decode V} {k : Parser K} {v : Parser V}
    (hkey : Parses key k) (hval : Parses val v) (n : Nat) (d : OrderedMap cmp V) :
    Parses (fillMap key val n d) fun bs ↦
      (parseMany (parsePair k v) n bs).map fun r ↦ (r.1.foldl OrderedMap.insert d, r.2) := by
  induction n generalizing d with
  | zero => exact parses_pure d
  | succ n ih =>
    refine (hkey.bind fun a ↦ hval.bind fun b ↦ ih (d.insert (a, b))).congr fun bs ↦ ?_
    simp only [Parser.bind, parseMany, parsePair]
    cases h₁ : k bs with
    | none => rfl
    | some r =>
      cases h₂ : v r.2 with
      | none => simp [h₂]
      | some r' =>
        cases h₃ : parseMany (parsePair k v) n r'.2 <;> simp_all

theorem parses_getAttr : Parses getAttr Attr.parse :=
  parses_getUInt.bind fun _ ↦ parses_getUInt.bind fun _ ↦ parses_getUInt.bind fun _ ↦
    parses_getUInt.bind fun _ ↦ parses_getUInt.bind fun _ ↦ parses_pure _

end Parses

/-- **Extraction reads what the format prescribes.** -/
theorem Ty.parses_extract (t : Ty) : Parses t.extract t.parse := by
  induction t with
  | scalar a => exact a.parses_extract
  | string => exact parses_getString
  | vector t ih =>
    exact (parses_getUInt.bind fun n ↦ parses_getMany ih n.toNat).congr fun bs ↦
      (parseList_eq t.parse bs).symm
  | map k v ihk ihv =>
    refine (parses_getUInt.bind fun n ↦ parses_fillMap ihk ihv n.toNat OrderedMap.empty).congr
      fun bs ↦ ?_
    rw [Ty.parse, parseList_eq]
    simp only [Parser.bind]
    cases parseUInt bs <;> rfl
  | attr => exact parses_getAttr


/-! ## Where strings are asked for

`rawbytes` is the one command that can leave the buffer, so it matters with which lengths it comes
to be issued: with those that the format finds in the message (`Demands`). -/

/-- It never asks for a string. -/
def Stringless {α : Type} (p : Decode α) : Prop :=
  ∀ ⦃j u n k u'⦄, ¬ Prog.Issues exec j p u (.rawbytes n) k u'

/-- It asks for strings of these lengths, as long as no extraction has failed. -/
structure Demands {α : Type} (p : Decode α) (l : Lengths) : Prop where
  met {j : Nat} {u u' : Unmarshall} {n : UInt32} {k : Option (List UInt8) → Decode α}
    (h : Prog.Issues exec j p u (.rawbytes n) k u') :
    u.ok = true ∧ u'.buf = u.buf ∧ u'.ind ≤ u'.sz ∧ (n, u'.rest) ∈ l u.rest
  asked {u : Unmarshall} {n : UInt32} {bs : List UInt8} (hok : u.ok = true)
    (h : (n, bs) ∈ l u.rest) :
    ∃ j k u', Prog.Issues exec j p u (.rawbytes n) k u' ∧ u'.rest = bs

section Demands

variable {α β : Type} {p : Decode α} {f : α → Decode β} {q : Parser α} {l l' : Lengths}

theorem stringless_pure (a : α) : Stringless (pure a) := by
  intro j u n k u' h
  cases h

theorem stringless_ask {c : Cmd} (hc : ∀ n, c ≠ .rawbytes n) : Stringless (Prog.ask c) := by
  intro j u n k u' h
  cases h with
  | here => exact hc n rfl
  | later _ h => cases h

theorem Stringless.bind (hp : Stringless p) (hf : ∀ a, Stringless (f a)) :
    Stringless (p >>= f) := by
  intro j u n k u' h
  rcases h.bind_cases with ⟨k', hk, -⟩ | ⟨a, u₁, m, -, -, hk⟩
  · exact hp hk
  · exact hf a hk

theorem stringless_getByte : Stringless getByte := stringless_ask fun n h ↦ by cases h

theorem stringless_getUInt : Stringless getUInt :=
  stringless_getByte.bind fun _ ↦ stringless_getByte.bind fun _ ↦ stringless_getByte.bind fun _ ↦
    stringless_getByte.bind fun _ ↦ stringless_pure _

theorem stringless_getInt : Stringless getInt :=
  getInt_eq ▸ stringless_getUInt.bind fun _ ↦ stringless_pure _

theorem Scalar.stringless_extract (a : Scalar) : Stringless a.extract := by
  cases a with
  | bool => exact stringless_getByte.bind fun _ ↦ stringless_pure _
  | char => exact stringless_getByte.bind fun _ ↦ stringless_pure _
  | uchar => exact stringless_getByte.bind fun _ ↦ stringless_pure _
  | short => exact stringless_getByte.bind fun _ ↦ stringless_getByte.bind fun _ ↦ stringless_pure _
  | ushort =>
    exact stringless_getByte.bind fun _ ↦ stringless_getByte.bind fun _ ↦ stringless_pure _
  | int => exact stringless_getInt
  | uint => exact stringless_getUInt
  | ull => exact stringless_getUInt.bind fun _ ↦ stringless_getUInt.bind fun _ ↦ stringless_pure _

theorem stringless_getAttr : Stringless getAttr :=
  stringless_getUInt.bind fun _ ↦ stringless_getUInt.bind fun _ ↦ stringless_getUInt.bind fun _ ↦
    stringless_getUInt.bind fun _ ↦ stringless_getUInt.bind fun _ ↦ stringless_pure _

theorem Stringless.demands (hp : Stringless p) : Demands p fun _ ↦ [] where
  met h := (hp h).elim
  asked _ h := absurd h List.not_mem_nil

theorem Demands.congr (hp : Demands p l) (h : ∀ bs, l bs = l' bs) : Demands p l' :=
  funext h ▸ hp

theorem mem_lengthsThen {g : α → Lengths} {bs : List UInt8} {r : UInt32 × List UInt8} :
    r ∈ lengthsThen l q g bs ↔ r ∈ l bs ∨ ∃ a bs', q bs = some (a, bs') ∧ r ∈ g a bs' := by
  rw [lengthsThen, List.mem_append]
  rcases q bs with _ | ⟨a, bs'⟩ <;> simp

/-- The second part is reached with its flag set if and only if the first part can be parsed. -/
theorem Demands.bind {g : α → Lengths} (hp : Parses p q) (hd : Demands p l)
    (hf : ∀ a, Demands (f a) (g a)) : Demands (p >>= f) (lengthsThen l q g) where
  met h := by
    rcases h.bind_cases with ⟨k', hk, -⟩ | ⟨a, u₁, m, he, -, hk⟩
    · obtain ⟨hok, hbuf, hind, hmem⟩ := hd.met hk
      exact ⟨hok, hbuf, hind, mem_lengthsThen.2 (Or.inl hmem)⟩
    · obtain ⟨hok, hbuf, hind, hmem⟩ := (hf a).met hk
      have hmoves := hp.moves he
      exact ⟨hmoves.ok hok, hbuf.trans hmoves.buf, hind,
        mem_lengthsThen.2 (Or.inr ⟨a, u₁.rest, hp.sound he hok, hmem⟩)⟩
  asked hok h := by
    rcases mem_lengthsThen.1 h with h | ⟨a, bs', hq, h⟩
    · obtain ⟨j, k, u', hi, hrest⟩ := hd.asked hok h
      exact ⟨j, _, u', hi.bind f, hrest⟩
    · obtain ⟨u₁, he, hok₁, rfl⟩ := hp.complete hok hq
      obtain ⟨j, k, u', hi, hrest⟩ := (hf a).asked hok₁ h
      exact ⟨_, k, u', hi.after he, hrest⟩

theorem Demands.map (hp : Parses p q) (hd : Demands p l) (c : α → β) :
    Demands (p >>= fun a ↦ pure (c a)) l := by
  refine (Demands.bind hp hd fun a ↦ (stringless_pure (c a)).demands).congr fun bs ↦ ?_
  rw [lengthsThen]
  cases q bs <;> exact List.append_nil _

theorem demands_getString : Demands getString fun bs ↦ (parseUInt bs).toList where
  met := by
    intro j u u' n k h
    rcases h.bind_cases with ⟨k', hk, -⟩ | ⟨sz, u₁, m, he, -, hk⟩
    · exact (stringless_getUInt hk).elim
    rcases hk.bind_cases with ⟨k', hk, -⟩ | ⟨b, u₂, m', hb, -, hk⟩
    · exact (stringless_ask (fun n h ↦ by cases h) hk).elim
    obtain ⟨hok, rfl⟩ := Prod.mk.inj (Option.some_inj.1 hb)
    obtain rfl := Except.ok.inj hok
    cases hok : u₁.ok with
    | false =>
      rw [hok] at hk
      cases hk
    | true =>
      rw [hok] at hk
      have hmoves := parses_getUInt.moves he
      cases hk with
      | here =>
        refine ⟨hmoves.ok hok, hmoves.buf, ind_le_of_getUInt he hok, ?_⟩
        rw [parses_getUInt.sound he hok]
        exact List.mem_singleton.2 rfl
      | later _ hk => cases hk
  asked := by
    intro u n bs hok h
    obtain ⟨u₁, he, hok₁, rfl⟩ := parses_getUInt.complete hok (Option.mem_toList.1 h)
    refine ⟨0 + 1 + getUInt.steps exec u, fun s ↦ pure (s.getD []), u₁,
      Prog.Issues.after (.later rfl ?_) he, rfl⟩
    rw [hok₁]
    exact Prog.Issues.here _ _ _

theorem demands_getMany (hp : Parses p q) (hd : Demands p l) (n : Nat) :
    Demands (getMany p n) (lengthsMany l q n) := by
  induction n with
  | zero => exact (stringless_pure []).demands
  | succ n ih => exact hd.bind hp fun a ↦ ih.map (parses_getMany hp n) fun as ↦ a :: as

theorem lengthsThen_pair {K V : Type} {k : Parser K} {v : Parser V} {lk lv g : Lengths}
    (bs : List UInt8) :
    lengthsThen lk k (fun _ ↦ lengthsThen lv v fun _ ↦ g) bs =
      lengthsThen (lengthsThen lk k fun _ ↦ lv) (parsePair k v) (fun _ ↦ g) bs := by
  simp only [lengthsThen, parsePair]
  cases hk : k bs with
  | none => simp
  | some r => cases hv : v r.2 <;> simp [hv]

theorem demands_fillMap {K V : Type} {cmp : K → K → Ordering} [Std.TransCmp cmp] {key : Decode K}
    {val : Decode V} {k : Parser K} {v : Parser V} {lk lv : Lengths} (hkey : Parses key k)
    (hval : Parses val v) (hlk : Demands key lk) (hlv : Demands val lv) (n : Nat)
    (d : OrderedMap cmp V) :
    Demands (fillMap key val n d) (lengthsMany (lengthsThen lk k fun _ ↦ lv)
      (parsePair k v) n) := by
  induction n generalizing d with
  | zero => exact (stringless_pure d).demands
  | succ n ih =>
    exact (hlk.bind hkey fun a ↦ hlv.bind hval fun b ↦ ih (d.insert (a, b))).congr lengthsThen_pair

end Demands

theorem Ty.demands_extract (t : Ty) : Demands t.extract t.lengths := by
  induction t with
  | scalar a => exact a.stringless_extract.demands
  | string => exact demands_getString
  | vector t ih =>
    exact stringless_getUInt.demands.bind parses_getUInt fun n ↦
      demands_getMany t.parses_extract ih n.toNat
  | map k v ihk ihv =>
    exact stringless_getUInt.demands.bind parses_getUInt fun n ↦
      demands_fillMap k.parses_extract v.parses_extract ihk ihv n.toNat OrderedMap.empty
  | attr => exact stringless_getAttr.demands

/-- **When a string leaves the buffer**: if the sum of the index and the length wraps around. -/
theorem rawbytes_eq_none_iff {u : Unmarshall} {n : UInt32} (h : u.ind ≤ u.sz) :
    u.rawbytes n = none ↔ 2 ^ 32 ≤ u.ind + n.toNat := by
  have hsz : u.sz < 2 ^ 31 := u.size_lt
  have hn := n.toNat_lt
  have hsum : (UInt32.ofNat u.ind + n).toNat = (u.ind + n.toNat) % 2 ^ 32 := by
    rw [UInt32.toNat_add, UInt32.toNat_ofNat', Nat.mod_add_mod]
  have hgt : UInt32.ofNat u.ind + n > UInt32.ofNat u.sz ↔ u.sz < (u.ind + n.toNat) % 2 ^ 32 := by
    rw [gt_iff_lt, UInt32.lt_iff_toNat_lt, hsum, UInt32.toNat_ofNat',
      Nat.mod_eq_of_lt (show u.sz < 2 ^ 32 by omega)]
  simp only [rawbytes, hgt]
  split_ifs <;> simp <;> omega

/-- An extraction stays within the buffer if and only if no length that is met wraps around. -/
theorem Demands.eval_ne_none_iff {α : Type} {p : Decode α} {l : Lengths} (hd : Demands p l)
    {u : Unmarshall} : p.eval exec u ≠ none ↔
      (u.ok = true → ∀ r ∈ l u.rest, u.sz - r.2.length + r.1.toNat < 2 ^ 32) := by
  constructor
  · intro hne hok r hr
    by_contra hwrap
    obtain ⟨j, k, u', hi, hrest⟩ := hd.asked hok hr
    obtain ⟨-, hbuf, hind, -⟩ := hd.met hi
    have hsz : u'.sz = u.sz := congrArg List.length hbuf
    have hlen := rest_length u'
    rw [hrest] at hlen
    exact hne (Prog.eval_eq_none_iff.2
      ⟨j, _, k, u', hi, (rawbytes_eq_none_iff (n := r.1) hind).2 (by omega)⟩)
  · intro hall hnone
    obtain ⟨j, c, k, u', hi, hc⟩ := Prog.eval_eq_none_iff.1 hnone
    cases c with
    | rawbyte => exact absurd hc (by simp [exec])
    | ok => exact absurd hc (by simp [exec])
    | seek i => exact absurd hc (by simp [exec])
    | rawbytes n =>
      obtain ⟨hok, hbuf, hind, hmem⟩ := hd.met hi
      have hsz : u'.sz = u.sz := congrArg List.length hbuf
      have hlen := rest_length u'
      have hlt := hall hok _ hmem
      have hwrap := (rawbytes_eq_none_iff hind).1 hc
      dsimp only at hlt
      omega

end Rpc
end Yfs
