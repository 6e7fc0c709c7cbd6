import Mathlib.Data.List.Basic

/-!
# Records that are read in pages

Records of different sizes are laid out one after the other, and each of them carries the position
at which it ends (`Records.layout`).  Whoever wants them asks for a page, which is a piece of the
layout from a position on, takes out of it the records that are there as a whole, and asks for the
next page at the position that the last one of them carries (`Reader.turn`).

The list of records may grow between two pages.  What has been read is always a beginning of it
(`Reader.At`), and the reader goes on as long as there is a record left and the pages are large
enough for one (`Reader.At.turn`).
-/

set_option autoImplicit false

namespace Machine

/-- A format of records in a sequence of cells. -/
structure Records (R B : Type) where
  /-- The number of cells of a record. -/
  size : R → Nat
  /-- A record that carries a position. -/
  put : R → Nat → List B
  length_put : ∀ r n, (put r n).length = size r

/-- How records are taken out again: the record at the beginning, the position that it carries, and
the cells that follow it; `none` if it is not there as a whole. -/
def Next (R B : Type) := List B → Option ((R × Nat) × List B)

/-- The records that can be taken out one after the other; at most so many. -/
def Next.takeAll {R B : Type} (next : Next R B) : Nat → List B → List (R × Nat)
  | 0, _ => []
  | fuel + 1, bs =>
    match next bs with
    | none => []
    | some (x, rest) => x :: next.takeAll fuel rest

namespace Records

variable {R B : Type} (F : Records R B)

/-- The records one after the other, from a position on. -/
def layout : Nat → List R → List B
  | _, [] => []
  | n, r :: rs => F.put r (n + F.size r) ++ layout (n + F.size r) rs

/-- The records with the positions that they carry. -/
def marks : Nat → List R → List (R × Nat)
  | _, [] => []
  | n, r :: rs => (r, n + F.size r) :: marks (n + F.size r) rs

/-- The number of cells of all the records. -/
def total : List R → Nat
  | [] => 0
  | r :: rs => F.size r + total rs

/-- What is put can be taken out again, if it is all right, and not before it is there as a
whole. -/
structure Sound (next : Next R B) (ok : R → Nat → Prop) : Prop where
  next_nil : next [] = none
  next_whole : ∀ r n bs, ok r n → next (F.put r n ++ bs) = some ((r, n), bs)
  next_part : ∀ r n k, ok r n → k < F.size r → next ((F.put r n).take k) = none

variable {F} {next : Next R B} {ok : R → Nat → Prop} {n : Nat} {rs rs' : List R}

@[simp] theorem total_nil : F.total [] = 0 := rfl

@[simp] theorem total_cons (r : R) : F.total (r :: rs) = F.size r + F.total rs := rfl

@[simp] theorem total_append : F.total (rs ++ rs') = F.total rs + F.total rs' := by
  induction rs with
  | nil => rw [List.nil_append, total_nil, Nat.zero_add]
  | cons r rs ih => rw [List.cons_append, total_cons, total_cons, ih, Nat.add_assoc]

theorem marks_append : F.marks n (rs ++ rs') = F.marks n rs ++ F.marks (n + F.total rs) rs' := by
  induction rs generalizing n with
  | nil => rfl
  | cons r rs ih =>
    rw [List.cons_append, marks, marks, ih, total_cons, List.cons_append, Nat.add_assoc]

theorem map_fst_marks : (F.marks n rs).map Prod.fst = rs := by
  induction rs generalizing n with
  | nil => rfl
  | cons r rs ih => rw [marks, List.map_cons, ih]

/-- The last record carries the position at which all of them end. -/
theorem last_marks : (((F.marks n rs).getLast?.map Prod.snd).getD n) = n + F.total rs := by
  induction rs generalizing n with
  | nil => rfl
  | cons r rs ih =>
    rw [marks, List.getLast?_cons, total_cons, ← Nat.add_assoc, ← ih]
    cases (F.marks (n + F.size r) rs).getLast? <;> rfl

/-- From the end of a record on there are the records that follow it. -/
theorem drop_layout :
    (F.layout n (rs ++ rs')).drop (F.total rs) = F.layout (n + F.total rs) rs' := by
  induction rs generalizing n with
  | nil => rfl
  | cons r rs ih =>
    have hlen := F.length_put r (n + F.size r)
    rw [List.cons_append, layout, total_cons, ← List.drop_drop, List.drop_left' hlen, ih,
      Nat.add_assoc]

namespace Sound

variable (hF : F.Sound next ok)
include hF

theorem size_pos {r : R} (h : ok r n) : 0 < F.size r := by
  rcases Nat.eq_zero_or_pos (F.size r) with hzero | hpos
  · have hnil : F.put r n = [] := List.eq_nil_of_length_eq_zero (by rw [F.length_put, hzero])
    have hnext := hF.next_whole r n [] h
    rw [hnil, List.append_nil, hF.next_nil] at hnext
    exact absurd hnext (by simp)
  · exact hpos

/-- **A page holds the first few records**, and at least one if there is one and it fits. -/
theorem takeAll_page (max fuel : Nat) (hok : ∀ x ∈ F.marks n rs, ok x.1 x.2)
    (hfuel : ((F.layout n rs).take max).length ≤ fuel) :
    ∃ rs₁ rs₂, rs = rs₁ ++ rs₂ ∧ next.takeAll fuel ((F.layout n rs).take max) = F.marks n rs₁ ∧
      (rs₁ = [] → ∀ r ∈ rs.head?, max < F.size r) := by
  induction rs generalizing n max fuel with
  | nil =>
    refine ⟨[], [], rfl, ?_, by simp⟩
    rw [layout, List.take_nil]
    cases fuel with
    | zero => rfl
    | succ fuel => rw [Next.takeAll, hF.next_nil]; rfl
  | cons r rs ih =>
    have hr : ok r (n + F.size r) := hok _ List.mem_cons_self
    have hlen := F.length_put r (n + F.size r)
    rw [layout] at hfuel ⊢
    rcases Nat.lt_or_ge max (F.size r) with hmax | hmax
    · refine ⟨[], r :: rs, rfl, ?_, by simpa using hmax⟩
      rw [List.take_append_of_le_length (by omega)]
      cases fuel with
      | zero => rfl
      | succ fuel => rw [Next.takeAll, hF.next_part _ _ _ hr hmax]; rfl
    · obtain ⟨k, rfl⟩ := Nat.exists_eq_add_of_le hmax
      have hpage : (F.put r (n + F.size r) ++ F.layout (n + F.size r) rs).take (F.size r + k) =
          F.put r (n + F.size r) ++ (F.layout (n + F.size r) rs).take k := by
        rw [List.take_append, hlen, List.take_of_length_le (by omega), Nat.add_sub_cancel_left]
      have hpos := hF.size_pos hr
      rw [hpage, List.length_append, hlen] at hfuel
      obtain ⟨fuel, rfl⟩ : ∃ m, fuel = m + 1 := ⟨fuel - 1, by omega⟩
      obtain ⟨rs₁, rs₂, rfl, htake, -⟩ :=
        ih k fuel (fun x hx ↦ hok x (List.mem_cons_of_mem _ hx)) (by omega)
      refine ⟨r :: rs₁, rs₂, rfl, ?_, by simp⟩
      rw [hpage, Next.takeAll, hF.next_whole _ _ _ hr, marks]
      exact congrArg _ htake

end Sound

end Records

/-! ## The reader -/

/-- Who reads the records. -/
structure Reader (R : Type) where
  /-- The position to read from. -/
  pos : Nat := 0
  /-- The records that have been read. -/
  got : List R := []
  /-- The number of pages that have been asked for. -/
  pages : Nat := 0
  /-- There was a page without a record. -/
  ended : Bool := false
  deriving DecidableEq

namespace Reader

variable {R B : Type} {F : Records R B} {next : Next R B} {ok : R → Nat → Prop} {rs : List R}
  {rd : Reader R}

/-- Take a page. -/
def turn (next : Next R B) (rd : Reader R) (page : List B) : Reader R :=
  let new := next.takeAll page.length page
  { pos := (new.getLast?.map Prod.snd).getD rd.pos
    got := rd.got ++ new.map Prod.fst
    pages := rd.pages + 1
    ended := rd.ended || new.isEmpty }

/-- What has been read is a beginning of the records, and the position is where it ends. -/
structure At (F : Records R B) (rs : List R) (rd : Reader R) : Prop where
  got : rd.got <+: rs
  pos : rd.pos = F.total rd.got

/-- The records may become more. -/
theorem At.mono {rs' : List R} (h : At F rs rd) (hle : rs <+: rs') : At F rs' rd :=
  ⟨h.got.trans hle, h.pos⟩

/-- **Every page with room for a record brings the next ones**, and one without a record is the
last. -/
theorem At.turn {max : Nat} (h : At F rs rd) (hF : F.Sound next ok)
    (hok : ∀ x ∈ F.marks 0 rs, ok x.1 x.2) (hmax : ∀ r ∈ rs, F.size r ≤ max) :
    ∃ rd', rd.turn next (((F.layout 0 rs).drop rd.pos).take max) = rd' ∧ At F rs rd' ∧
      rd.got <+: rd'.got ∧ rd'.pages = rd.pages + 1 ∧
      (rd.got.length < rd'.got.length ∧ rd'.ended = rd.ended ∨ rd'.got = rs ∧
        rd'.ended = true) := by
  obtain ⟨rest, hrest⟩ := h.got
  subst hrest
  have hdrop : (F.layout 0 (rd.got ++ rest)).drop (F.total rd.got)
      = F.layout (F.total rd.got) rest := by
    rw [Records.drop_layout, Nat.zero_add]
  rw [Records.marks_append, Nat.zero_add] at hok
  obtain ⟨rs₁, rs₂, rfl, htake, hnil⟩ := hF.takeAll_page max _
    (fun x hx ↦ hok x (List.mem_append_right _ hx)) (Nat.le_refl _)
  refine ⟨_, rfl, ?_⟩
  rw [h.pos, hdrop, Reader.turn, htake, Records.map_fst_marks]
  refine ⟨⟨?_, ?_⟩, List.prefix_append _ _, rfl, ?_⟩
  · rw [← List.append_assoc]
    exact List.prefix_append _ _
  · rw [Records.total_append, h.pos]
    exact Records.last_marks
  · cases rs₁ with
    | nil =>
      right
      cases rs₂ with
      | nil => simp [Records.marks]
      | cons r rs₂ =>
        have hlt := hnil rfl r rfl
        have hle := hmax r (by simp)
        omega
    | cons r rs₁ =>
      left
      simp [Records.marks]

end Reader

end Machine
