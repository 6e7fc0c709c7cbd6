import Mathlib.Algebra.Group.Nat.Defs
import Mathlib.Data.List.Basic
import Mathlib.Data.List.TakeWhile

/-!
# The text of a directory

A directory is a file, and its contents list the entries one after another, each as
`name/inum/` with the number in decimal.  `yfs_client` writes it by appending entries
(`Dirent.text`) and reads it by looking for slashes (`readdirLoop`).

`std::string::find` returns `npos` if there is no slash, `npos + 1` is 0, and so both halves of a
text without a slash are the whole text (`field`).  The loop of `_readdir` then goes round for ever:
a contents for which it does not end has no list of entries, whatever the fuel
(`parseDir_eq_none_iff`).  For contents that are the text of some entries it returns those entries
(`parseDir_textAll`).
-/

set_option autoImplicit false

namespace Yfs
namespace Client

/-- `std::string`. -/
abbrev Bytes := List UInt8

/-- `'/'`. -/
abbrev slash : UInt8 := 47

/-! ## Numbers -/

/-- `yfs_client::filename`: a number in decimal. -/
def filename (inum : Nat) : Bytes := (Nat.toDigits 10 inum).map fun c ↦ UInt8.ofNat c.toNat

/-- `std::isspace`. -/
def isSpace (c : UInt8) : Bool := c = 32 || (9 ≤ c && c ≤ 13)

/-- `std::isdigit`. -/
def isDigit (c : UInt8) : Bool := 48 ≤ c && c ≤ 57

/-- The number that some digits stand for. -/
def digitsValue (ds : Bytes) : Nat := ds.foldl (fun n c ↦ 10 * n + (c.toNat - 48)) 0

/-- `yfs_client::n2i`: what `>>` reads into an `unsigned long long`.  White space is skipped, a sign
is accepted, and the digits that follow are read; a number that is too large becomes the largest
one.  If there is nothing but white space, then the variable is not set, and has any value; it is 0
here. -/
def n2i (n : Bytes) : Nat :=
  let s := n.dropWhile isSpace
  let neg := s.head? = some 45
  let s := if s.head? = some 45 ∨ s.head? = some 43 then s.tail else s
  let v := digitsValue (s.takeWhile isDigit)
  if 2 ^ 64 ≤ v then 2 ^ 64 - 1 else if neg then (2 ^ 64 - v) % 2 ^ 64 else v

theorem not_isSpace_of_isDigit {c : UInt8} (h : isDigit c = true) : isSpace c = false := by
  simp only [isDigit, Bool.and_eq_true, decide_eq_true_eq, UInt8.le_iff_toNat_le,
    UInt8.reduceToNat] at h
  simp only [isSpace, Bool.or_eq_false_iff, Bool.and_eq_false_iff, decide_eq_false_iff_not,
    UInt8.le_iff_toNat_le, ← UInt8.toNat_inj, UInt8.reduceToNat]
  omega

theorem toNat_of_mem_toDigits {inum : Nat} {ch : Char} (h : ch ∈ Nat.toDigits 10 inum) :
    (48 ≤ ch.toNat ∧ ch.toNat ≤ 57) ∧ (UInt8.ofNat ch.toNat).toNat = ch.toNat := by
  have hdigit := Nat.isDigit_of_mem_toDigits (by decide) (by decide) h
  rw [Char.isDigit, Bool.and_eq_true, decide_eq_true_eq, decide_eq_true_eq] at hdigit
  have h₁ : 48 ≤ ch.toNat := hdigit.1
  have h₂ : ch.toNat ≤ 57 := hdigit.2
  exact ⟨⟨h₁, h₂⟩, UInt8.toNat_ofNat_of_lt' (show ch.toNat < 256 by omega)⟩

theorem isDigit_of_mem_filename {inum : Nat} {c : UInt8} (h : c ∈ filename inum) :
    isDigit c = true := by
  obtain ⟨ch, hch, rfl⟩ := List.mem_map.1 h
  obtain ⟨hbounds, hnat⟩ := toNat_of_mem_toDigits hch
  rw [isDigit, Bool.and_eq_true, decide_eq_true_eq, decide_eq_true_eq, UInt8.le_iff_toNat_le,
    UInt8.le_iff_toNat_le, hnat]
  exact hbounds

theorem filename_ne_nil (inum : Nat) : filename inum ≠ [] := by
  rw [filename, ne_eq, List.map_eq_nil_iff]
  exact Nat.toDigits_ne_nil

theorem slash_notMem_filename (inum : Nat) : slash ∉ filename inum := fun h ↦
  absurd (isDigit_of_mem_filename h) (by decide)

theorem digitsValue_filename (inum : Nat) : digitsValue (filename inum) = inum := by
  have hvalue : digitsValue (filename inum) = Nat.ofDigitChars 10 (Nat.toDigits 10 inum) 0 := by
    rw [digitsValue, filename, List.foldl_map, Nat.ofDigitChars]
    refine List.foldl_ext _ _ _ fun n ch hch ↦ ?_
    rw [(toNat_of_mem_toDigits hch).2]
    rfl
  rw [hvalue, Nat.ofDigitChars_ten_toDigits]

/-- **A number that has been printed is read back.** -/
theorem n2i_filename {inum : Nat} (h : inum < 2 ^ 64) : n2i (filename inum) = inum := by
  obtain ⟨c, cs, hcons⟩ := List.exists_cons_of_ne_nil (filename_ne_nil inum)
  have hc : isDigit c = true := isDigit_of_mem_filename (hcons ▸ List.mem_cons_self)
  have hspace : (filename inum).dropWhile isSpace = filename inum := by
    rw [hcons, List.dropWhile_cons_of_neg]
    simp [not_isSpace_of_isDigit hc]
  have hminus : (filename inum).head? ≠ some 45 := by
    rw [hcons]
    rintro h
    rw [Option.some_inj.1 h] at hc
    exact absurd hc (by decide)
  have hplus : (filename inum).head? ≠ some 43 := by
    rw [hcons]
    rintro h
    rw [Option.some_inj.1 h] at hc
    exact absurd hc (by decide)
  have hdigits : (filename inum).takeWhile isDigit = filename inum :=
    List.takeWhile_eq_self_iff.2 fun _ ↦ isDigit_of_mem_filename
  simp only [n2i, hspace, hminus, hplus, or_self, if_false, hdigits, digitsValue_filename]
  rw [if_neg (by omega)]

/-! ## Entries -/

/-- `yfs_client::dirent`. -/
structure Dirent where
  name : Bytes
  inum : Nat
  deriving DecidableEq

/-- The text of an entry, as `_create`, `_mkdir`, `_symlink` and `_unlink` make it. -/
def Dirent.text (e : Dirent) : Bytes := e.name ++ slash :: filename e.inum ++ [slash]

/-- The text of some entries. -/
def textAll (ents : List Dirent) : Bytes := ents.flatMap Dirent.text

/-- `pos = s.find('/')`, and then `s.substr(0, pos)` and `s.substr(pos + 1)`. -/
def field (s : Bytes) : Bytes × Bytes :=
  match s.findIdx? (· = slash) with
  | some pos => (s.take pos, s.drop (pos + 1))
  | none => (s, s)

/-- The body of the loop of `_readdir`: an entry, and what is left of the contents. -/
def parseEntry (buf : Bytes) : Dirent × Bytes :=
  let (name, rest) := field buf
  let (inum, rest) := field rest
  (⟨name, n2i inum⟩, rest)

/-- The loop of `_readdir`, which may go round so many times; `none` if that is not enough. -/
def readdirLoop : Nat → Bytes → Option (List Dirent)
  | _, [] => some []
  | 0, _ :: _ => none
  | fuel + 1, c :: buf =>
    (readdirLoop fuel (parseEntry (c :: buf)).2).map ((parseEntry (c :: buf)).1 :: ·)

/-- The entries that `_readdir` finds in some contents; `none` if it goes round for ever. -/
def parseDir (buf : Bytes) : Option (List Dirent) := readdirLoop buf.length buf

/-- `s.find(text)`: where a text begins for the first time; `none` for `npos`. -/
def findText (text : Bytes) : Bytes → Option Nat
  | [] => if text = [] then some 0 else none
  | c :: s => if text <+: c :: s then some 0 else (findText text s).map (· + 1)

theorem field_append {s : Bytes} (h : slash ∉ s) (rest : Bytes) :
    field (s ++ slash :: rest) = (s, rest) := by
  have hpos : (s ++ slash :: rest).findIdx? (· = slash) = some s.length := by
    rw [List.findIdx?_append, List.findIdx?_eq_none_iff.2, List.findIdx?_cons]
    · simp
    · intro c hc
      simp only [decide_eq_false_iff_not]
      rintro rfl
      exact h hc
  rw [field, hpos]
  simp

theorem field_of_notMem {s : Bytes} (h : slash ∉ s) : field s = (s, s) := by
  have hpos : s.findIdx? (· = slash) = none := by
    rw [List.findIdx?_eq_none_iff]
    intro c hc
    simp only [decide_eq_false_iff_not]
    rintro rfl
    exact h hc
  rw [field, hpos]

/-- A field is followed by a slash, or there is none. -/
theorem field_cases (s : Bytes) :
    (slash ∉ s ∧ field s = (s, s)) ∨
      ∃ t rest, slash ∉ t ∧ s = t ++ slash :: rest ∧ field s = (t, rest) := by
  by_cases h : slash ∈ s
  · obtain ⟨t, rest, rfl, ht⟩ := List.eq_append_cons_of_mem h
    exact Or.inr ⟨t, rest, ht, rfl, field_append ht rest⟩
  · exact Or.inl ⟨h, field_of_notMem h⟩

/-- What the loop leaves of contents with a slash comes after one. -/
theorem parseEntry_split {buf : Bytes} (h : slash ∈ buf) :
    ∃ u, buf = u ++ slash :: (parseEntry buf).2 := by
  rcases field_cases buf with ⟨hmem, -⟩ | ⟨t, rest, -, rfl, he⟩
  · exact absurd h hmem
  · have hentry : (parseEntry (t ++ slash :: rest)).2 = (field rest).2 := by
      simp only [parseEntry, he]
    rw [hentry]
    rcases field_cases rest with ⟨-, hf⟩ | ⟨t', rest', -, rfl, hf⟩
    · exact ⟨t, by rw [hf]⟩
    · exact ⟨t ++ slash :: t', by rw [hf]; simp⟩

/-- The loop leaves less of the contents, or everything. -/
theorem parseEntry_cases (buf : Bytes) :
    (slash ∉ buf ∧ (parseEntry buf).2 = buf) ∨
      slash ∈ buf ∧ (parseEntry buf).2.length < buf.length := by
  by_cases h : slash ∈ buf
  · obtain ⟨u, hu⟩ := parseEntry_split h
    have hlen := congrArg List.length hu
    rw [List.length_append, List.length_cons] at hlen
    exact Or.inr ⟨h, by omega⟩
  · refine Or.inl ⟨h, ?_⟩
    simp only [parseEntry, field_of_notMem h]

/-- Contents without a slash keep the loop busy for ever. -/
theorem readdirLoop_of_notMem {buf : Bytes} (hne : buf ≠ []) (h : slash ∉ buf) (fuel : Nat) :
    readdirLoop fuel buf = none := by
  obtain ⟨c, cs, rfl⟩ := List.exists_cons_of_ne_nil hne
  induction fuel with
  | zero => rfl
  | succ fuel ih =>
    rcases parseEntry_cases (c :: cs) with ⟨-, he⟩ | ⟨hmem, -⟩
    · rw [readdirLoop, he, ih, Option.map_none]
    · exact absurd hmem h

/-- It does not go round more often than there are bytes, or it never ends. -/
theorem readdirLoop_eq_parseDir (buf : Bytes) {fuel : Nat} (h : buf.length ≤ fuel) :
    readdirLoop fuel buf = parseDir buf := by
  -- all fuels that are not less than the length give the same
  suffices hsame : ∀ n (buf : Bytes), buf.length ≤ n → ∀ fuel fuel', buf.length ≤ fuel →
      buf.length ≤ fuel' → readdirLoop fuel buf = readdirLoop fuel' buf from
    hsame buf.length buf le_rfl _ _ h le_rfl
  intro n
  induction n with
  | zero =>
    intro buf hn fuel fuel' _ _
    obtain rfl := List.length_eq_zero_iff.1 (Nat.le_zero.1 hn)
    cases fuel <;> cases fuel' <;> rfl
  | succ n ih =>
    intro buf hn fuel fuel' hfuel hfuel'
    match buf, fuel, fuel' with
    | [], fuel, fuel' => cases fuel <;> cases fuel' <;> rfl
    | c :: buf, fuel + 1, fuel' + 1 =>
      rcases parseEntry_cases (c :: buf) with ⟨hmem, -⟩ | ⟨-, hlt⟩
      · rw [readdirLoop_of_notMem (by simp) hmem, readdirLoop_of_notMem (by simp) hmem]
      · rw [List.length_cons] at *
        rw [readdirLoop, readdirLoop,
          ih _ (by omega) fuel fuel' (by omega) (by omega)]

/-- A list that has been returned is returned with more fuel, too. -/
theorem readdirLoop_mono {buf : Bytes} {fuel fuel' : Nat} {ents : List Dirent}
    (h : readdirLoop fuel buf = some ents) (hle : fuel ≤ fuel') :
    readdirLoop fuel' buf = some ents := by
  induction fuel generalizing buf fuel' ents with
  | zero =>
    cases buf with
    | nil => cases fuel' <;> exact h
    | cons c buf => exact absurd h (by simp [readdirLoop])
  | succ fuel ih =>
    cases buf with
    | nil => cases fuel' <;> exact h
    | cons c buf =>
      obtain ⟨fuel', rfl⟩ := Nat.exists_eq_succ_of_ne_zero (show fuel' ≠ 0 by omega)
      rw [readdirLoop, Option.map_eq_some_iff] at h
      obtain ⟨rest, hrest, rfl⟩ := h
      rw [readdirLoop, ih hrest (by omega), Option.map_some]

/-- **Contents without a list of entries** are those for which the loop of `_readdir` never ends. -/
theorem parseDir_eq_none_iff (buf : Bytes) :
    parseDir buf = none ↔ ∀ fuel, readdirLoop fuel buf = none := by
  refine ⟨fun h fuel ↦ ?_, fun h ↦ h buf.length⟩
  rw [Option.eq_none_iff_forall_not_mem]
  intro ents hents
  have hmore := readdirLoop_mono hents (Nat.le_add_right fuel buf.length)
  rw [readdirLoop_eq_parseDir buf (Nat.le_add_left _ _), h] at hmore
  exact absurd hmore (by simp)

/-- Contents with a slash begin with an entry. -/
theorem parseDir_of_mem {buf : Bytes} (h : slash ∈ buf) :
    parseDir buf = (parseDir (parseEntry buf).2).map ((parseEntry buf).1 :: ·) := by
  have hlt : (parseEntry buf).2.length < buf.length := by
    rcases parseEntry_cases buf with ⟨hmem, -⟩ | ⟨-, hlt⟩
    · exact absurd h hmem
    · exact hlt
  cases buf with
  | nil => exact absurd h (by simp)
  | cons c buf =>
    rw [← readdirLoop_eq_parseDir _ (show (parseEntry (c :: buf)).2.length ≤ buf.length by
      rw [List.length_cons] at hlt; omega)]
    rfl

/-- **The loop of `_readdir` ends** for contents that end with a slash, and for no others that are
not empty. -/
theorem isSome_parseDir_iff (buf : Bytes) :
    (parseDir buf).isSome = true ↔ buf = [] ∨ buf.getLast? = some slash := by
  -- a round leaves what comes after a slash
  induction hn : buf.length using Nat.strong_induction_on generalizing buf with
  | _ n ih =>
    subst hn
    rcases parseEntry_cases buf with ⟨hmem, -⟩ | ⟨hmem, hlt⟩
    · by_cases hne : buf = []
      · subst hne
        simp [parseDir, readdirLoop]
      · rw [parseDir, readdirLoop_of_notMem hne hmem]
        refine iff_of_false (by simp) (not_or.2 ⟨hne, fun hlast ↦ hmem ?_⟩)
        exact List.mem_of_getLast? hlast
    · obtain ⟨u, hu⟩ := parseEntry_split hmem
      rw [parseDir_of_mem hmem, Option.isSome_map, ih _ hlt _ rfl]
      generalize (parseEntry buf).2 = rest at hu
      subst hu
      rw [List.getLast?_append, List.getLast?_cons]
      cases hlast : rest.getLast? with
      | none => simp [List.getLast?_eq_none_iff.1 hlast]
      | some c =>
        have hne : rest ≠ [] := by
          rintro rfl
          exact absurd hlast (by simp)
        simp [hne]

/-- Every entry costs a round. -/
theorem length_le_of_readdirLoop {fuel : Nat} {buf : Bytes} {ents : List Dirent}
    (h : readdirLoop fuel buf = some ents) : ents.length ≤ fuel := by
  induction fuel generalizing buf ents with
  | zero =>
    cases buf with
    | nil => simp [← Option.some_inj.1 h]
    | cons c buf => exact absurd h (by simp [readdirLoop])
  | succ fuel ih =>
    cases buf with
    | nil => simp [← Option.some_inj.1 h]
    | cons c buf =>
      rw [readdirLoop, Option.map_eq_some_iff] at h
      obtain ⟨rest, hrest, rfl⟩ := h
      exact Nat.succ_le_succ (ih hrest)

/-! ## Reading back what has been written -/

/-- An entry whose name has no slash in it and whose number is one. -/
def Dirent.Proper (e : Dirent) : Prop := slash ∉ e.name ∧ e.inum < 2 ^ 64

/-- Two fields make an entry. -/
theorem parseDir_fields {name num : Bytes} (hname : slash ∉ name) (hnum : slash ∉ num)
    (rest : Bytes) : parseDir (name ++ slash :: (num ++ slash :: rest))
      = (parseDir rest).map (⟨name, n2i num⟩ :: ·) := by
  have hentry : parseEntry (name ++ slash :: (num ++ slash :: rest)) = (⟨name, n2i num⟩, rest) := by
    simp only [parseEntry, field_append hname, field_append hnum]
  rw [parseDir_of_mem (by simp), hentry]

theorem textAll_append (l l' : List Dirent) : textAll (l ++ l') = textAll l ++ textAll l' :=
  List.flatMap_append

theorem textAll_singleton (e : Dirent) : textAll [e] = e.text := List.flatMap_singleton ..

theorem textAll_cons (d : Dirent) (l : List Dirent) :
    textAll (d :: l) = d.name ++ slash :: (filename d.inum ++ slash :: textAll l) := by
  simp [textAll, Dirent.text]

/-- An entry that has been written is read back. -/
theorem parseDir_text_append {e : Dirent} (h : e.Proper) (rest : Bytes) :
    parseDir (e.text ++ rest) = (parseDir rest).map (e :: ·) := by
  have htext : e.text ++ rest = e.name ++ slash :: (filename e.inum ++ slash :: rest) := by
    simp [Dirent.text]
  rw [htext, parseDir_fields h.1 (slash_notMem_filename _), n2i_filename h.2]

/-- **Entries that have been written are read back.** -/
theorem parseDir_textAll {ents : List Dirent} (h : ∀ e ∈ ents, e.Proper) :
    parseDir (textAll ents) = some ents := by
  induction ents with
  | nil => rfl
  | cons e ents ih =>
    have hcons : textAll (e :: ents) = e.text ++ textAll ents := rfl
    rw [hcons, parseDir_text_append (h e List.mem_cons_self),
      ih fun e' he' ↦ h e' (List.mem_cons_of_mem _ he')]
    rfl

/-! ## Looking for an entry

`_unlink` looks for the text of an entry.  It need not find it where the entry is: the text may
begin in the middle of the name of another entry, or in the middle of its number, when the name that
comes next is the number that is looked for. -/

theorem filename_injective {m n : Nat} (h : filename m = filename n) : m = n := by
  rw [← digitsValue_filename m, h, digitsValue_filename]

/-- Fields can be compared one by one. -/
theorem field_eq {a b x y : Bytes} (ha : slash ∉ a) (hb : slash ∉ b)
    (h : a ++ slash :: x = b ++ slash :: y) : a = b ∧ x = y := by
  have hfield := field_append hb y
  rw [← h, field_append ha] at hfield
  exact Prod.mk.inj hfield

theorem field_prefix {a b x y : Bytes} (ha : slash ∉ a) (hb : slash ∉ b)
    (h : a ++ slash :: x <+: b ++ slash :: y) : a = b ∧ x <+: y := by
  obtain ⟨t, ht⟩ := h
  rw [List.append_assoc, List.cons_append] at ht
  obtain ⟨hab, hxy⟩ := field_eq ha hb ht
  exact ⟨hab, t, hxy⟩

/-- A text that does not begin in the first part is found in the second. -/
theorem findText_append {text u s : Bytes} (h : ∀ v w, u = v ++ w → w ≠ [] → ¬ text <+: w ++ s) :
    findText text (u ++ s) = (findText text s).map (· + u.length) := by
  induction u with
  | nil => simp
  | cons c u ih =>
    have hc : ¬ text <+: c :: (u ++ s) := h [] (c :: u) rfl (by simp)
    have hu := ih fun v w hvw ↦ h (c :: v) w (by rw [hvw]; rfl)
    rw [List.cons_append, findText, if_neg hc, hu, Option.map_map, List.length_cons]
    rfl

theorem findText_self {text : Bytes} (hne : text ≠ []) (s : Bytes) :
    findText text (text ++ s) = some 0 := by
  obtain ⟨c, cs, rfl⟩ := List.exists_cons_of_ne_nil hne
  have hpre : c :: cs <+: c :: (cs ++ s) := List.prefix_append (c :: cs) s
  rw [List.cons_append, findText, if_pos hpre]

/-- The places at which the rest of an entry can begin. -/
theorem text_split {d : Dirent} {v w : Bytes} (h : d.text = v ++ w) (hw : w ≠ []) :
    (∃ a, a <:+ d.name ∧ w = a ++ slash :: (filename d.inum ++ [slash])) ∨
      ∃ z, z <:+ filename d.inum ∧ w = z ++ [slash] := by
  rw [Dirent.text, List.append_assoc, List.append_eq_append_iff] at h
  rcases h with ⟨a, rfl, hrest⟩ | ⟨a, hname, rfl⟩
  · rw [List.cons_append, List.cons_eq_append_iff] at hrest
    rcases hrest with ⟨rfl, rfl⟩ | ⟨a', rfl, hrest⟩
    · exact Or.inl ⟨[], List.nil_suffix, rfl⟩
    · rw [List.append_eq_append_iff] at hrest
      rcases hrest with ⟨z, rfl, hz⟩ | ⟨z, hz, rfl⟩
      · rw [List.singleton_eq_append_iff] at hz
        rcases hz with ⟨rfl, rfl⟩ | ⟨-, rfl⟩
        · exact Or.inr ⟨[], List.nil_suffix, rfl⟩
        · exact absurd rfl hw
      · exact Or.inr ⟨z, ⟨a', hz.symm⟩, rfl⟩
  · exact Or.inl ⟨a, ⟨v, hname.symm⟩, rfl⟩

/-- A text that begins in the entry of another inode begins in its number, and goes on into the name
that comes next. -/
theorem suffix_of_prefix_text {d e : Dirent} {v w s : Bytes} (hd : slash ∉ d.name)
    (he : slash ∉ e.name) (hne : d.inum ≠ e.inum) (hvw : d.text = v ++ w) (hw : w ≠ [])
    (hpre : e.text <+: w ++ s) :
    e.name <:+ filename d.inum ∧ w = e.name ++ [slash] ∧ filename e.inum ++ [slash] <+: s := by
  have htext : e.text = e.name ++ slash :: (filename e.inum ++ [slash]) := by
    simp [Dirent.text]
  rw [htext] at hpre
  rcases text_split hvw hw with ⟨a, ha, rfl⟩ | ⟨z, hz, rfl⟩
  · -- in the name, so the number is the same
    rw [List.append_assoc, List.cons_append, List.append_assoc, List.singleton_append] at hpre
    obtain ⟨-, hpre⟩ := field_prefix he (fun hin ↦ hd (ha.subset hin)) hpre
    obtain ⟨heq, -⟩ := field_prefix (slash_notMem_filename _) (slash_notMem_filename _) hpre
    exact absurd (filename_injective heq).symm hne
  · rw [List.append_assoc, List.singleton_append] at hpre
    obtain ⟨rfl, hnext⟩ := field_prefix he (fun hin ↦ slash_notMem_filename _ (hz.subset hin)) hpre
    exact ⟨hz, rfl, hnext⟩

/-- **The text of an entry is found where the entry is**, if no entry before has the same number,
and no entry is named by that number. -/
theorem findText_textAll {l₁ l₂ : List Dirent} {e : Dirent}
    (hslash : ∀ d ∈ l₁ ++ [e], slash ∉ d.name)
    (hinum : ∀ d ∈ l₁, d.inum ≠ e.inum) (hname : ∀ d ∈ l₁ ++ [e], d.name ≠ filename e.inum) :
    findText e.text (textAll (l₁ ++ e :: l₂)) = some (textAll l₁).length := by
  have he : slash ∉ e.name := hslash e (by simp)
  induction l₁ with
  | nil => exact findText_self (by simp [Dirent.text]) _
  | cons d l₁ ih =>
    have hskip : ∀ v w, d.text = v ++ w → w ≠ [] → ¬ e.text <+: w ++ textAll (l₁ ++ e :: l₂) := by
      intro v w hvw hw hpre
      obtain ⟨-, -, hnext⟩ :=
        suffix_of_prefix_text (hslash d (by simp)) he (hinum d (by simp)) hvw hw hpre
      -- the next name is the number that is looked for
      obtain ⟨d', hd', rest, hrest⟩ : ∃ d' ∈ l₁ ++ [e], ∃ rest,
          textAll (l₁ ++ e :: l₂) = d'.name ++ slash :: rest := by
        cases l₁ with
        | nil => exact ⟨e, by simp, _, textAll_cons e l₂⟩
        | cons d' l₁ => exact ⟨d', by simp, _, textAll_cons d' (l₁ ++ e :: l₂)⟩
      rw [hrest] at hnext
      have hmem : d' ∈ d :: l₁ ++ [e] := List.mem_cons_of_mem _ hd'
      obtain ⟨heq, -⟩ := field_prefix (slash_notMem_filename _) (hslash d' hmem) hnext
      exact hname d' hmem heq.symm
    have hrest := ih (fun d' hd' ↦ hslash d' (List.mem_cons_of_mem _ hd'))
      (fun d' hd' ↦ hinum d' (List.mem_cons_of_mem _ hd'))
      (fun d' hd' ↦ hname d' (List.mem_cons_of_mem _ hd'))
    have hcons : textAll (d :: l₁ ++ e :: l₂) = d.text ++ textAll (l₁ ++ e :: l₂) := rfl
    rw [hcons, findText_append hskip, hrest, Option.map_some]
    simp [textAll, Nat.add_comm]

end Client
end Yfs
