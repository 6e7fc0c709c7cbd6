import Yfs.Machine.Bytes
import Yfs.Machine.OrderedMap

/-!
# The wire format

What `operator<<` and `operator>>` agree on.  A number is a fixed number of bytes in network order;
a string is its length and its bytes; a vector or a map is the number of its elements, and then the
elements one after another; an `extent_protocol::attr` is its five fields.  Nothing says what type a
value has: the two sides have to know.

`encode` is the format, and `parse` takes a value of a given type off the front of a sequence of
bytes, or finds that the bytes do not suffice.  Both are about sequences of bytes only.  What the
code does with its buffers is compared with them in other files.

The types are those that the code has operators for.  A `std::map` is iterated in the order of its
keys, so the types come with their orders (`Ty.sem`); the order of `attr` is there only so that
every type has one, for a map with such keys does not compile.
-/

set_option autoImplicit false

namespace Yfs
namespace Rpc

open Machine
open Std (TransCmp TransOrd)

/-! ## Types and values -/

/-- The types with operators of their own that are numbers. -/
inductive Scalar where
  | bool | char | uchar | short | ushort | int | uint | ull
  deriving DecidableEq, Repr

/-- `sizeof`. -/
def Scalar.width : Scalar → Nat
  | .bool | .char | .uchar => 1
  | .short | .ushort => 2
  | .int | .uint => 4
  | .ull => 8

/-- The types of the values in a message. -/
inductive Ty where
  | scalar (a : Scalar)
  | string
  | vector (t : Ty)
  | map (k v : Ty)
  | attr
  deriving DecidableEq, Repr

/-- `extent_protocol::attr`. -/
structure Attr where
  type : UInt32
  atime : UInt32
  mtime : UInt32
  ctime : UInt32
  size : UInt32
  deriving DecidableEq, Repr

/-- A type of C++ with its `operator<`. -/
structure Sem where
  carrier : Type
  cmp : carrier → carrier → Ordering
  trans : TransCmp cmp

def Sem.of (α : Type) [Ord α] [TransOrd α] : Sem := ⟨α, compare, inferInstance⟩

/-- The values of a number type; `char` is signed. -/
def Scalar.sem : Scalar → Sem
  | .bool => .of Bool
  | .char => .of Int8
  | .uchar => .of UInt8
  | .short => .of Int16
  | .ushort => .of UInt16
  | .int => .of Int32
  | .uint => .of UInt32
  | .ull => .of UInt64

/-- The values of a type.  A string is the sequence of its bytes. -/
def Ty.sem : Ty → Sem
  | .scalar a => a.sem
  | .string => ⟨List UInt8, List.compareLex compare, inferInstance⟩
  | .vector t => have := t.sem.trans; ⟨List t.sem.carrier, List.compareLex t.sem.cmp, inferInstance⟩
  | .map k v =>
    have := k.sem.trans
    have := v.sem.trans
    ⟨OrderedMap k.sem.cmp v.sem.carrier, compareMap k.sem.cmp v.sem.cmp, inferInstance⟩
  | .attr =>
    ⟨Attr, fun a b ↦ comparePair compare compare (a.type, a.size) (b.type, b.size), transCmp_on _⟩

abbrev Scalar.Val (a : Scalar) : Type := a.sem.carrier

abbrev Ty.Val (t : Ty) : Type := t.sem.carrier

instance (t : Ty) : TransCmp t.sem.cmp := t.sem.trans

/-- The bit pattern of a number. -/
def Scalar.toBits : (a : Scalar) → a.Val → Nat
  | .bool, x => Bool.toNat x
  | .char, x => (Int8.toUInt8 x).toNat
  | .uchar, x => UInt8.toNat x
  | .short, x => (Int16.toUInt16 x).toNat
  | .ushort, x => UInt16.toNat x
  | .int, x => (Int32.toUInt32 x).toNat
  | .uint, x => UInt32.toNat x
  | .ull, x => UInt64.toNat x

/-- The number with a bit pattern. -/
def Scalar.ofBits : (a : Scalar) → Nat → a.Val
  | .bool, n => decide (n ≠ 0)
  | .char, n => (UInt8.ofNat n).toInt8
  | .uchar, n => UInt8.ofNat n
  | .short, n => (UInt16.ofNat n).toInt16
  | .ushort, n => UInt16.ofNat n
  | .int, n => (UInt32.ofNat n).toInt32
  | .uint, n => UInt32.ofNat n
  | .ull, n => UInt64.ofNat n

theorem Scalar.toBits_lt (a : Scalar) (x : a.Val) : a.toBits x < 256 ^ a.width := by
  cases a with
  | bool => cases x <;> decide
  | char => exact UInt8.toNat_lt _
  | uchar => exact UInt8.toNat_lt _
  | short => exact UInt16.toNat_lt _
  | ushort => exact UInt16.toNat_lt _
  | int => exact UInt32.toNat_lt _
  | uint => exact UInt32.toNat_lt _
  | ull => exact UInt64.toNat_lt _

theorem Scalar.ofBits_toBits (a : Scalar) (x : a.Val) : a.ofBits (a.toBits x) = x := by
  cases a with
  | bool => cases x <;> rfl
  | char =>
    have h : ∀ y : Int8, (UInt8.ofNat y.toUInt8.toNat).toInt8 = y := by simp
    exact h x
  | uchar => exact UInt8.ofNat_toNat
  | short =>
    have h : ∀ y : Int16, (UInt16.ofNat y.toUInt16.toNat).toInt16 = y := by simp
    exact h x
  | ushort => exact UInt16.ofNat_toNat
  | int =>
    have h : ∀ y : Int32, (UInt32.ofNat y.toUInt32.toNat).toInt32 = y := by simp
    exact h x
  | uint => exact UInt32.ofNat_toNat
  | ull => exact UInt64.ofNat_toNat

/-! ## The format -/

def encodeUInt (x : UInt32) : List UInt8 := bigEndian 4 x.toNat

def encodeString (s : List UInt8) : List UInt8 := bigEndian 4 s.length ++ s

/-- The number of elements, and the elements. -/
def encodeList {α : Type} (enc : α → List UInt8) (l : List α) : List UInt8 :=
  bigEndian 4 l.length ++ l.flatMap enc

def Attr.encode (a : Attr) : List UInt8 :=
  encodeUInt a.type ++ (encodeUInt a.atime ++ (encodeUInt a.mtime ++
    (encodeUInt a.ctime ++ encodeUInt a.size)))

/-- The bytes of a value. -/
def Ty.encode : (t : Ty) → t.Val → List UInt8
  | .scalar a, x => bigEndian a.width (a.toBits x)
  | .string, s => encodeString s
  | .vector t, v => encodeList t.encode v
  | .map k v, d => encodeList (fun p ↦ k.encode p.1 ++ v.encode p.2) (OrderedMap.entries d)
  | .attr, a => Attr.encode a

/-- What takes a value off the front of a sequence of bytes. -/
abbrev Parser (α : Type) := List UInt8 → Option (α × List UInt8)

section Parsers

variable {α β : Type}

def parseNat (n : Nat) : Parser Nat := fun bs ↦
  if n ≤ bs.length then some (ofBigEndian (bs.take n), bs.drop n) else none

def parseUInt : Parser UInt32 := fun bs ↦ (parseNat 4 bs).map fun r ↦ (.ofNat r.1, r.2)

def parseInt : Parser Int32 := fun bs ↦ (parseUInt bs).map fun r ↦ (r.1.toInt32, r.2)

def parseString : Parser (List UInt8) := fun bs ↦ do
  let (n, bs) ← parseNat 4 bs
  if n ≤ bs.length then some (bs.take n, bs.drop n) else none

def parsePair (p : Parser α) (q : Parser β) : Parser (α × β) := fun bs ↦ do
  let (a, bs) ← p bs
  let (b, bs) ← q bs
  some ((a, b), bs)

def parseMany (p : Parser α) : Nat → Parser (List α)
  | 0, bs => some ([], bs)
  | n + 1, bs => do
    let (a, bs) ← p bs
    let (as, bs) ← parseMany p n bs
    some (a :: as, bs)

def parseList (p : Parser α) : Parser (List α) := fun bs ↦ do
  let (n, bs) ← parseNat 4 bs
  parseMany p n bs

def Parser.pure (a : α) : Parser α := fun bs ↦ some (a, bs)

def Parser.bind (p : Parser α) (q : α → Parser β) : Parser β := fun bs ↦
  (p bs).bind fun r ↦ q r.1 r.2

end Parsers

def Attr.parse : Parser Attr := fun bs ↦ do
  let (type, bs) ← parseUInt bs
  let (atime, bs) ← parseUInt bs
  let (mtime, bs) ← parseUInt bs
  let (ctime, bs) ← parseUInt bs
  let (size, bs) ← parseUInt bs
  some (⟨type, atime, mtime, ctime, size⟩, bs)

/-- Take a value of a type off the front. -/
def Ty.parse : (t : Ty) → Parser t.Val
  | .scalar a, bs => (parseNat a.width bs).map fun r ↦ (a.ofBits r.1, r.2)
  | .string, bs => parseString bs
  | .vector t, bs => parseList t.parse bs
  | .map k v, bs =>
    (parseList (parsePair k.parse v.parse) bs).map fun r ↦ (OrderedMap.ofEntries r.1, r.2)
  | .attr, bs => Attr.parse bs

/-! ## Lengths of strings

A string is the only value whose length in bytes is written in the message.  `Ty.lengths` lists
these numbers as a parser comes to them, each with the bytes that follow it. -/

/-- The lengths of strings in a sequence of bytes. -/
abbrev Lengths := List UInt8 → List (UInt32 × List UInt8)

section Lengths

variable {α : Type}

/-- Those of a value, and those of what comes after it if it can be parsed. -/
def lengthsThen (l : Lengths) (p : Parser α) (l' : α → Lengths) : Lengths := fun bs ↦
  l bs ++
    match p bs with
    | none => []
    | some (a, bs) => l' a bs

/-- Those of several values. -/
def lengthsMany (l : Lengths) (p : Parser α) : Nat → Lengths
  | 0 => fun _ ↦ []
  | n + 1 => lengthsThen l p fun _ ↦ lengthsMany l p n

end Lengths

/-- The lengths of strings that are met when a value is parsed. -/
def Ty.lengths : Ty → Lengths
  | .scalar _ => fun _ ↦ []
  | .string => fun bs ↦ (parseUInt bs).toList
  | .vector t =>
    lengthsThen (fun _ ↦ []) parseUInt fun n ↦ lengthsMany t.lengths t.parse n.toNat
  | .map k v =>
    lengthsThen (fun _ ↦ []) parseUInt fun n ↦
      lengthsMany (lengthsThen k.lengths k.parse fun _ ↦ v.lengths)
        (parsePair k.parse v.parse) n.toNat
  | .attr => fun _ ↦ []

/-! ## Numbers in the stream -/

section Numbers

variable {α : Type}

theorem parseNat_append (as bs : List UInt8) :
    parseNat as.length (as ++ bs) = some (ofBigEndian as, bs) := by
  rw [parseNat, if_pos (by simp), List.take_left, List.drop_left]

theorem parseNat_add (m n : Nat) (bs : List UInt8) :
    parseNat (m + n) bs = (parseNat m bs).bind fun r ↦
      (parseNat n r.2).map fun r' ↦ (r.1 * 256 ^ n + r'.1, r'.2) := by
  simp only [parseNat]
  by_cases hm : m ≤ bs.length
  · by_cases hn : n ≤ (bs.drop m).length
    · have hlen : ((bs.drop m).take n).length = n := by rw [List.length_take, Nat.min_eq_left hn]
      rw [if_pos hm, Option.bind_some, if_pos hn, Option.map_some, List.take_add,
        ofBigEndian_append, hlen, List.drop_drop, if_pos]
      rw [List.length_drop] at hn
      omega
    · rw [if_pos hm, Option.bind_some, if_neg hn, Option.map_none, if_neg]
      rw [List.length_drop] at hn
      omega
  · rw [if_neg hm, Option.bind_none, if_neg (by omega)]

theorem parseNat_lt {n : Nat} {bs bs' : List UInt8} {x : Nat} (h : parseNat n bs = some (x, bs')) :
    x < 256 ^ n := by
  rw [parseNat] at h
  split at h
  · rename_i hn
    obtain ⟨rfl, -⟩ := Prod.mk.inj (Option.some_inj.1 h)
    have hlt := ofBigEndian_lt (bs.take n)
    rwa [List.length_take, Nat.min_eq_left hn] at hlt
  · exact absurd h (by simp)

/-- A parser that takes as many bytes in any case. -/
structure Takes {α : Type} (q : Parser α) (n : Nat) : Prop where
  enough {bs : List UInt8} (h : n ≤ bs.length) : ∃ a, q bs = some (a, bs.drop n)
  short {bs : List UInt8} (h : bs.length < n) : q bs = none

theorem takes_pure (a : α) : Takes (Parser.pure a) 0 :=
  ⟨fun _ ↦ ⟨a, rfl⟩, fun h ↦ absurd h (Nat.not_lt_zero _)⟩

theorem takes_parseNat (n : Nat) : Takes (parseNat n) n :=
  ⟨fun h ↦ ⟨_, if_pos h⟩, fun h ↦ if_neg (Nat.not_le_of_lt h)⟩

theorem Takes.map {β : Type} {q : Parser α} {n : Nat} (hq : Takes q n) (c : α → β) :
    Takes (fun bs ↦ (q bs).map fun r ↦ (c r.1, r.2)) n := by
  refine ⟨fun h ↦ ?_, fun h ↦ by rw [hq.short h, Option.map_none]⟩
  obtain ⟨a, ha⟩ := hq.enough h
  exact ⟨c a, by rw [ha, Option.map_some]⟩

theorem Takes.bind {β : Type} {q : Parser α} {g : α → Parser β} {m n : Nat} (hq : Takes q m)
    (hg : ∀ a, Takes (g a) n) : Takes (q.bind g) (m + n) := by
  constructor
  · intro bs h
    obtain ⟨a, ha⟩ := hq.enough (Nat.le_of_add_right_le h)
    obtain ⟨b, hb⟩ := @(hg a).enough (bs.drop m) (by rw [List.length_drop]; omega)
    exact ⟨b, by rw [Parser.bind, ha, Option.bind_some, hb, List.drop_drop]⟩
  · intro bs h
    by_cases hm : m ≤ bs.length
    · obtain ⟨a, ha⟩ := hq.enough hm
      rw [Parser.bind, ha, Option.bind_some]
      exact (hg a).short (by rw [List.length_drop]; omega)
    · rw [Parser.bind, hq.short (Nat.lt_of_not_le hm), Option.bind_none]

theorem takes_parseUInt : Takes parseUInt 4 := (takes_parseNat 4).map UInt32.ofNat

theorem takes_parseInt : Takes parseInt 4 := takes_parseUInt.map UInt32.toInt32

theorem parseNat_four (bs : List UInt8) :
    parseNat 4 bs = (parseUInt bs).map fun r ↦ (r.1.toNat, r.2) := by
  rw [parseUInt, Option.map_map]
  cases h : parseNat 4 bs with
  | none => rfl
  | some r =>
    have hlt : (UInt32.ofNat r.1).toNat = r.1 := by
      rw [UInt32.toNat_ofNat']
      exact Nat.mod_eq_of_lt (parseNat_lt h)
    simp [hlt]

theorem parseList_eq (q : Parser α) (bs : List UInt8) :
    parseList q bs = (parseUInt.bind fun n ↦ parseMany q n.toNat) bs := by
  rw [parseList, parseNat_four]
  cases h : parseUInt bs <;> simp [Parser.bind, h]

theorem parseString_eq (bs : List UInt8) :
    parseString bs = (parseUInt bs).bind fun r ↦
      if r.1.toNat ≤ r.2.length then some (r.2.take r.1.toNat, r.2.drop r.1.toNat) else none := by
  rw [parseString, parseNat_four]
  cases h : parseUInt bs <;> rfl

end Numbers

/-! ## Round trip -/

section RoundTrip

variable {α β : Type} {p : Parser α} {q : Parser β} {enc : α → List UInt8} {l : List α}

theorem parseNat_bigEndian {n x : Nat} (h : x < 256 ^ n) (rest : List UInt8) :
    parseNat n (bigEndian n x ++ rest) = some (x, rest) := by
  have hlen := length_bigEndian n x
  rw [parseNat, if_pos (by simp), List.take_left' hlen, List.drop_left' hlen,
    ofBigEndian_bigEndian h]

theorem parseUInt_encodeUInt (x : UInt32) (rest : List UInt8) :
    parseUInt (encodeUInt x ++ rest) = some (x, rest) := by
  rw [parseUInt, encodeUInt, parseNat_bigEndian x.toNat_lt]
  simp

theorem parseInt_encodeUInt (x : Int32) (rest : List UInt8) :
    parseInt (encodeUInt x.toUInt32 ++ rest) = some (x, rest) := by
  rw [parseInt, parseUInt_encodeUInt]
  simp

theorem length_encodeString (s : List UInt8) : (encodeString s).length = 4 + s.length := by
  rw [encodeString, List.length_append, length_bigEndian]

theorem parseString_encodeString {s : List UInt8} (h : (encodeString s).length < 2 ^ 32)
    (rest : List UInt8) : parseString (encodeString s ++ rest) = some (s, rest) := by
  rw [length_encodeString] at h
  rw [parseString, encodeString, List.append_assoc, parseNat_bigEndian (by omega)]
  simp only [Option.bind_eq_bind, Option.bind_some, List.length_append]
  rw [if_pos (by omega), List.take_left, List.drop_left]

theorem parsePair_append {as bs rest : List UInt8} {a : α} {b : β}
    (hp : p (as ++ (bs ++ rest)) = some (a, bs ++ rest)) (hq : q (bs ++ rest) = some (b, rest)) :
    parsePair p q (as ++ bs ++ rest) = some ((a, b), rest) := by
  rw [parsePair, List.append_assoc, hp]
  simp only [Option.bind_eq_bind, Option.bind_some, hq]

theorem parseMany_flatMap (h : ∀ a ∈ l, ∀ rest, p (enc a ++ rest) = some (a, rest))
    (rest : List UInt8) : parseMany p l.length (l.flatMap enc ++ rest) = some (l, rest) := by
  induction l with
  | nil => rfl
  | cons a l ih =>
    rw [List.length_cons, parseMany, List.flatMap_cons, List.append_assoc, h a List.mem_cons_self]
    simp only [Option.bind_eq_bind, Option.bind_some,
      ih fun b hb ↦ h b (List.mem_cons_of_mem _ hb)]

theorem length_le_length_flatMap (h : ∀ a ∈ l, 0 < (enc a).length) :
    l.length ≤ (l.flatMap enc).length := by
  induction l with
  | nil => simp
  | cons a l ih =>
    have hpos := h a List.mem_cons_self
    have hle := ih fun b hb ↦ h b (List.mem_cons_of_mem _ hb)
    rw [List.flatMap_cons, List.length_append, List.length_cons]
    omega

theorem length_encode_le_of_mem (enc : α → List UInt8) {a : α} (h : a ∈ l) :
    (enc a).length ≤ (encodeList enc l).length := by
  obtain ⟨l₁, l₂, rfl⟩ := List.append_of_mem h
  simp only [encodeList, List.flatMap_append, List.flatMap_cons, List.length_append]
  omega

/-- Elements that take some room each are not too many for their number to be written. -/
theorem parseList_encodeList (hlen : (encodeList enc l).length < 2 ^ 32)
    (hpos : ∀ a ∈ l, 0 < (enc a).length) (h : ∀ a ∈ l, ∀ rest, p (enc a ++ rest) = some (a, rest))
    (rest : List UInt8) : parseList p (encodeList enc l ++ rest) = some (l, rest) := by
  have hcount := length_le_length_flatMap hpos
  rw [encodeList, List.length_append, length_bigEndian] at hlen
  rw [parseList, encodeList, List.append_assoc, parseNat_bigEndian (by omega)]
  exact parseMany_flatMap h rest

end RoundTrip

theorem Attr.parse_encode (a : Attr) (rest : List UInt8) :
    Attr.parse (a.encode ++ rest) = some (a, rest) := by
  simp only [Attr.encode, Attr.parse, List.append_assoc, parseUInt_encodeUInt, Option.bind_eq_bind,
    Option.bind_some]

/-- Every value takes at least one byte. -/
theorem Ty.length_encode_pos (t : Ty) (x : t.Val) : 0 < (t.encode x).length := by
  cases t with
  | scalar a => cases a <;> simp [Ty.encode, Scalar.width]
  | string => exact Nat.lt_of_lt_of_eq (Nat.add_pos_left (by decide) _) (length_encodeString x).symm
  | vector t => simp [Ty.encode, encodeList]
  | map k v => simp [Ty.encode, encodeList]
  | attr => simp [Ty.encode, Attr.encode, encodeUInt]

/-- **What is encoded is parsed**, as long as lengths fit into four bytes. -/
theorem Ty.parse_encode (t : Ty) (x : t.Val) (h : (t.encode x).length < 2 ^ 32)
    (rest : List UInt8) : t.parse (t.encode x ++ rest) = some (x, rest) := by
  induction t generalizing rest with
  | scalar a =>
    rw [Ty.encode, Ty.parse, parseNat_bigEndian (a.toBits_lt x), Option.map_some]
    exact congrArg (fun y ↦ some (y, rest)) (a.ofBits_toBits x)
  | string => exact parseString_encodeString h rest
  | vector t ih =>
    refine parseList_encodeList h (fun a _ ↦ t.length_encode_pos a) (fun a ha rest ↦ ?_) rest
    exact ih a (Nat.lt_of_le_of_lt (length_encode_le_of_mem t.encode ha) h) rest
  | map k v ihk ihv =>
    have hpos : ∀ p ∈ OrderedMap.entries x, 0 < (k.encode p.1 ++ v.encode p.2).length := by
      intro p _
      have hk := k.length_encode_pos p.1
      rw [List.length_append]
      omega
    have hpair : ∀ p ∈ OrderedMap.entries x, ∀ rest,
        parsePair k.parse v.parse (k.encode p.1 ++ v.encode p.2 ++ rest) = some (p, rest) := by
      intro p hp rest
      have hle : (k.encode p.1 ++ v.encode p.2).length < 2 ^ 32 :=
        Nat.lt_of_le_of_lt
          (length_encode_le_of_mem (fun p ↦ k.encode p.1 ++ v.encode p.2) hp) h
      rw [List.length_append] at hle
      exact parsePair_append (ihk p.1 (by omega) _) (ihv p.2 (by omega) rest)
    have hlist := parseList_encodeList h hpos hpair rest
    rw [Ty.encode, Ty.parse, hlist, Option.map_some]
    exact congrArg (fun d ↦ some (d, rest)) (OrderedMap.ofEntries_entries x)
  | attr => exact Attr.parse_encode x rest

end Rpc
end Yfs
