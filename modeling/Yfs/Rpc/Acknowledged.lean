import Mathlib.Data.List.TakeWhile
import Mathlib.Order.Bounds.Basic
import Yfs.Rpc.Window

/-!
# The client's window, exactly

`update_xid_rep` once more, with its iterators and with `unsigned int`s.  A `std::list` and an
iterator into it are the elements before the iterator and those from it on, so that one can see
which element is popped.  To pop the one that the iterator stands on would be a failure (`none`).

The window forgets nothing and claims nothing (`Exact`).  That it claims nothing is `Truthful`; what
is new is that compressing only takes elements off the front (`compress_suffix`), and does not stop
too early (`Closed.compress`).  Numbers are reported twice, and in any order, so there may be
several of one number in the list, and one number can close a gap behind which many others wait.
-/

set_option autoImplicit false

namespace Yfs
namespace Rpc

namespace Iter

/-- The `while` loop at `compress`, with the iterator at `x` and the elements before it.  If there
are none, then `x` itself is the front. -/
def popWhile (x : UInt32) : List UInt32 → Option (List UInt32)
  | [] => if x + 1 = x then none else some []
  | f :: pre => if f + 1 = x then popWhile x pre else some (f :: pre)

/-- The `for` loop at `compress`, with the elements before the iterator and those from it on. -/
def compressLoop (pre : List UInt32) : List UInt32 → Option (List UInt32)
  | [] => some pre
  | x :: rest => (popWhile x pre).bind fun pre ↦ compressLoop (pre ++ [x]) rest

/-- The first loop: insert the number before the first greater one, or at the end. -/
def insertLoop (xid : UInt32) : List UInt32 → List UInt32
  | [] => [xid]
  | x :: rest => if x > xid then xid :: x :: rest else x :: insertLoop xid rest

/-- `rpcc::update_xid_rep`. -/
def updateXidRep (window : List UInt32) (xid : UInt32) : Option (List UInt32) :=
  match window with
  | [] => none
  | f :: _ =>
    if xid ≤ f then some window
    else
      match insertLoop xid window with
      | [] => none
      | f :: rest => compressLoop [f] rest

end Iter

/-! ## Compressing -/

theorem compress_suffix (pre rest : List Nat) : compress pre rest <:+ pre ++ rest := by
  induction rest generalizing pre with
  | nil => simp [compress]
  | cons x rest ih =>
    rw [compress]
    refine (ih _).trans ?_
    rw [List.append_assoc, List.singleton_append]
    obtain ⟨dropped, h⟩ := List.dropWhile_suffix (fun f ↦ decide (f + 1 = x)) (l := pre)
    exact ⟨dropped, by rw [← List.append_assoc, h]⟩

/-- The number after the front is not in the list. -/
def Closed (l : List Nat) : Prop := ∀ y ∈ l, y ≠ l.headD 0 + 1

theorem closed_singleton (x : Nat) : Closed [x] := by
  intro y hy
  obtain rfl := List.mem_singleton.1 hy
  exact Nat.ne_of_lt (Nat.lt_succ_self _)

namespace Closed

/-- The iterator goes on to `x`. -/
theorem step {pre : List Nat} {x : Nat} (hs : (pre ++ [x]).Pairwise (· ≤ ·)) (h : Closed pre) :
    Closed (pre.dropWhile (fun f ↦ f + 1 = x) ++ [x]) := by
  cases pre with
  | nil => exact closed_singleton x
  | cons f pre =>
    by_cases hf : f + 1 = x
    · -- whatever is before `x` is `f`, so all of it goes
      have hall : ∀ y ∈ f :: pre, y + 1 = x := by
        intro y hy
        have hle : y ≤ x := (List.pairwise_append.1 hs).2.2 y hy x List.mem_cons_self
        have hne : y ≠ f + 1 := h y hy
        have hge : f ≤ y := by
          rcases List.mem_cons.1 hy with rfl | hy
          · exact le_rfl
          · exact List.rel_of_pairwise_cons (List.pairwise_append.1 hs).1 hy
        omega
      have hnil : (f :: pre).dropWhile (fun f ↦ f + 1 = x) = [] :=
        List.dropWhile_eq_nil_iff.2 fun y hy ↦ decide_eq_true (hall y hy)
      rw [hnil]
      exact closed_singleton x
    · rw [List.dropWhile_cons, if_neg (by simpa using hf)]
      intro y hy
      rcases List.mem_append.1 hy with hy | hy
      · exact h y hy
      · obtain rfl := List.mem_singleton.1 hy
        exact Ne.symm hf

/-- **Compressing does not stop too early.** -/
theorem compress {pre rest : List Nat} (hs : (pre ++ rest).Pairwise (· ≤ ·)) (h : Closed pre) :
    Closed (compress pre rest) := by
  induction rest generalizing pre with
  | nil => exact h
  | cons x rest ih =>
    have hs' : (pre ++ [x] ++ rest).Pairwise (· ≤ ·) := by
      rwa [List.append_assoc, List.singleton_append]
    refine ih (hs'.sublist ?_) (h.step (List.pairwise_append.1 hs').1)
    exact ((List.dropWhile_sublist _).append (List.Sublist.refl _)).append (List.Sublist.refl _)

end Closed

/-! ## The invariant -/

/-- A window that tells the truth, and the whole of it. -/
structure Exact (reported : Nat → Prop) (window : List Nat) : Prop extends
    Truthful reported window where
  closed : Closed window
  kept : ∀ x, reported x → window.headD 0 < x → x ∈ window

namespace Exact

variable {reported : Nat → Prop} {window : List Nat}

/-- The front ends an unbroken series. -/
theorem not_reported_succ (h : Exact reported window) : ¬ reported (window.headD 0 + 1) :=
  fun hr ↦ h.closed _ (h.kept _ hr (Nat.lt_succ_self _)) rfl

/-- Elements that are above the front were not taken off. -/
theorem mem_of_suffix {l l' : List Nat} (hs : l.Pairwise (· ≤ ·)) (hsuf : l' <:+ l) (hne : l' ≠ [])
    {x : Nat} (hx : x ∈ l) (hlt : l'.headD 0 < x) : x ∈ l' := by
  obtain ⟨dropped, rfl⟩ := hsuf
  obtain ⟨f, fs, rfl⟩ := List.exists_cons_of_ne_nil hne
  rcases List.mem_append.1 hx with hx | hx
  · have hle : x ≤ f := (List.pairwise_append.1 hs).2.2 x hx f List.mem_cons_self
    exact absurd hlt (Nat.not_lt.2 hle)
  · exact hx

/-- **One more number is reported.** -/
theorem updateXidRep {xid : Nat} (h : Exact reported window) :
    Exact (fun x ↦ reported x ∨ x = xid) (updateXidRep window xid) := by
  have htruth : Truthful (fun x ↦ reported x ∨ x = xid) (Rpc.updateXidRep window xid) :=
    (h.mono fun _ hx ↦ Or.inl hx).updateXidRep (Or.inr rfl)
  obtain ⟨f, fs, rfl⟩ := List.exists_cons_of_ne_nil h.ne_nil
  rcases Nat.lt_or_ge f xid with hlt | hle
  · have hsorted := pairwise_cons_orderedInsert h.sorted hlt
    have hsuf := compress_suffix [f] (fs.orderedInsert (· < ·) xid)
    rw [updateXidRep_of_lt fs hlt] at htruth ⊢
    refine ⟨htruth, (closed_singleton f).compress hsorted, fun x hx hlt' ↦ ?_⟩
    refine mem_of_suffix hsorted hsuf htruth.ne_nil ?_ hlt'
    rw [List.mem_cons, List.mem_orderedInsert]
    rcases hx with hx | rfl
    · -- the front has not gone down
      have hfront : f ≤ (Rpc.compress [f] (fs.orderedInsert (· < ·) xid)).headD 0 := by
        obtain ⟨f', fs', hcons⟩ := List.exists_cons_of_ne_nil htruth.ne_nil
        rw [hcons] at hsuf ⊢
        rcases List.mem_cons.1 (hsuf.subset List.mem_cons_self) with rfl | hmem
        · exact le_rfl
        · exact List.rel_of_pairwise_cons hsorted hmem
      have hmem := h.kept x hx (lt_of_le_of_lt hfront hlt')
      exact (List.mem_cons.1 hmem).imp_right Or.inr
    · exact Or.inr (Or.inl rfl)
  · -- a number that the window knows
    rw [updateXidRep_of_le fs hle] at htruth ⊢
    refine ⟨htruth, h.closed, fun x hx hlt ↦ ?_⟩
    rcases hx with hx | rfl
    · exact h.kept x hx hlt
    · exact absurd hle (Nat.not_le.2 hlt)

end Exact

/-! ## The iterator stays where it is -/

namespace Iter

/-- Numbers in order do not wrap around from one to the next. -/
theorem succ_eq_iff {f x : UInt32} (h : f ≤ x) : f + 1 = x ↔ f.toNat + 1 = x.toNat := by
  have hle : f.toNat ≤ x.toNat := UInt32.le_iff_toNat_le.1 h
  have hx := x.toNat_lt
  rw [← UInt32.toNat_inj, UInt32.toNat_add, UInt32.toNat_one]
  omega

theorem ne_succ (x : UInt32) : ¬ x + 1 = x := by
  rw [succ_eq_iff (UInt32.le_refl x)]
  omega

/-- What is popped is in front of the iterator. -/
theorem popWhile_eq {x : UInt32} {pre : List UInt32} (h : ∀ f ∈ pre, f ≤ x) :
    ∃ pre', popWhile x pre = some pre' ∧ pre' <:+ pre ∧
      pre'.map UInt32.toNat = (pre.map UInt32.toNat).dropWhile (fun f ↦ f + 1 = x.toNat) := by
  induction pre with
  | nil => exact ⟨[], if_neg (ne_succ x), List.suffix_rfl, rfl⟩
  | cons f pre ih =>
    have hiff := succ_eq_iff (h f List.mem_cons_self)
    rw [popWhile, List.map_cons, List.dropWhile_cons]
    by_cases hf : f + 1 = x
    · obtain ⟨pre', hpop, hsuf, hmap⟩ := ih fun g hg ↦ h g (List.mem_cons_of_mem _ hg)
      rw [if_pos hf, if_pos (decide_eq_true (hiff.1 hf))]
      exact ⟨pre', hpop, hsuf.trans (List.suffix_cons f pre), hmap⟩
    · rw [if_neg hf, if_neg (by simpa using fun h ↦ hf (hiff.2 h))]
      exact ⟨f :: pre, rfl, List.suffix_rfl, rfl⟩

theorem compressLoop_eq {pre rest : List UInt32} (hs : (pre ++ rest).Pairwise (· ≤ ·)) :
    ∃ window, compressLoop pre rest = some window ∧
      window.map UInt32.toNat = compress (pre.map UInt32.toNat) (rest.map UInt32.toNat) := by
  induction rest generalizing pre with
  | nil => exact ⟨pre, rfl, rfl⟩
  | cons x rest ih =>
    have hle : ∀ f ∈ pre, f ≤ x := fun f hf ↦
      (List.pairwise_append.1 hs).2.2 f hf x List.mem_cons_self
    obtain ⟨pre', hpop, hsuf, hmap⟩ := popWhile_eq hle
    have hs' : (pre' ++ [x] ++ rest).Pairwise (· ≤ ·) := by
      rw [List.append_assoc, List.singleton_append]
      exact hs.sublist (hsuf.sublist.append (List.Sublist.refl _))
    obtain ⟨window, hloop, hwindow⟩ := ih hs'
    refine ⟨window, ?_, ?_⟩
    · rw [compressLoop, hpop, Option.bind_some, hloop]
    · rw [hwindow, List.map_append, hmap]
      rfl

theorem map_insertLoop (xid : UInt32) (l : List UInt32) :
    (insertLoop xid l).map UInt32.toNat = (l.map UInt32.toNat).orderedInsert (· < ·) xid.toNat := by
  induction l with
  | nil => rfl
  | cons x l ih =>
    rw [insertLoop, List.map_cons, List.orderedInsert_cons]
    by_cases hx : x > xid
    · rw [if_pos hx, if_pos (UInt32.lt_iff_toNat_lt.1 hx)]
      rfl
    · rw [if_neg hx, if_neg fun h ↦ hx (UInt32.lt_iff_toNat_lt.2 h), List.map_cons, ih]

theorem pairwise_toNat {l : List UInt32} :
    (l.map UInt32.toNat).Pairwise (· ≤ ·) ↔ l.Pairwise (· ≤ ·) := by
  rw [List.pairwise_map]
  rfl

/-- **The code on a sorted window.**  Nothing goes wrong, and the window is that of
`Yfs.Rpc.updateXidRep`. -/
theorem updateXidRep_eq {window : List UInt32} (hne : window ≠ [])
    (hs : window.Pairwise (· ≤ ·)) (xid : UInt32) :
    ∃ window', updateXidRep window xid = some window' ∧
      window'.map UInt32.toNat = Rpc.updateXidRep (window.map UInt32.toNat) xid.toNat := by
  obtain ⟨f, fs, rfl⟩ := List.exists_cons_of_ne_nil hne
  rw [updateXidRep, List.map_cons]
  by_cases hle : xid ≤ f
  · rw [if_pos hle, updateXidRep_of_le _ (UInt32.le_iff_toNat_le.1 hle)]
    exact ⟨f :: fs, rfl, rfl⟩
  · have hlt : f.toNat < xid.toNat := Nat.lt_of_not_le fun h ↦ hle (UInt32.le_iff_toNat_le.2 h)
    have hins : insertLoop xid (f :: fs) = f :: insertLoop xid fs :=
      if_neg fun h ↦ Nat.lt_asymm hlt (UInt32.lt_iff_toNat_lt.1 h)
    have hsorted : ([f] ++ insertLoop xid fs).Pairwise (· ≤ ·) := by
      rw [← pairwise_toNat, List.singleton_append, List.map_cons, map_insertLoop]
      exact pairwise_cons_orderedInsert (pairwise_toNat.2 hs) hlt
    obtain ⟨window', hloop, hmap⟩ := compressLoop_eq hsorted
    refine ⟨window', ?_, ?_⟩
    · rw [if_neg hle, hins]
      exact hloop
    · rw [hmap, updateXidRep_of_lt _ hlt, map_insertLoop]
      rfl

/-- A number has been reported, or there is nothing to report. -/
def Reported (xs : List UInt32) (n : Nat) : Prop := n = 0 ∨ ∃ x ∈ xs, x.toNat = n

theorem reported_concat (xs : List UInt32) (y : UInt32) :
    Reported (xs ++ [y]) = fun n ↦ Reported xs n ∨ n = y.toNat := by
  funext n
  simp only [Reported, List.mem_append, List.mem_singleton, or_and_right, exists_or,
    exists_eq_left, or_assoc, eq_comm (a := n)]

/-- What is true of the window after any number of reports. -/
theorem exists_foldlM {window : List UInt32} {xs : List UInt32}
    (h : Exact (Reported xs) (window.map UInt32.toNat)) (ys : List UInt32) :
    ∃ window', ys.foldlM updateXidRep window = some window' ∧
      Exact (Reported (xs ++ ys)) (window'.map UInt32.toNat) := by
  induction ys generalizing window xs with
  | nil => exact ⟨window, rfl, by rwa [List.append_nil]⟩
  | cons y ys ih =>
    obtain ⟨w, hstep, hmap⟩ := updateXidRep_eq (by simpa using h.ne_nil)
      (pairwise_toNat.1 h.sorted) y
    have hw : Exact (Reported (xs ++ [y])) (w.map UInt32.toNat) := by
      rw [hmap, reported_concat]
      exact h.updateXidRep
    obtain ⟨window', hrest, hexact⟩ := ih hw
    rw [List.append_assoc, List.singleton_append] at hexact
    exact ⟨window', by rw [List.foldlM_cons, hstep]; exact hrest, hexact⟩

end Iter

/-- **The window is exact.**  Whatever is reported, in whatever order and how often: the list is in
order, its front is the last number of the unbroken series that has been reported, what is above the
front has been reported and all that has been is there, and no iterator has lost its element. -/
theorem window_exact (xs : List UInt32) :
    ∃ f rest, xs.foldlM Iter.updateXidRep [0] = some (f :: rest) ∧
      (f :: rest).Pairwise (· ≤ ·) ∧
      IsGreatest {n : Nat | ∀ x, 1 ≤ x → x ≤ n → ∃ y ∈ xs, y.toNat = x} f.toNat ∧
      ∀ x, (x ∈ f :: rest ∧ f < x) ↔ (x ∈ xs ∧ f < x) := by
  have hstart : Exact (Iter.Reported []) (([0] : List UInt32).map UInt32.toNat) := by
    refine ⟨⟨by simp, by simp, by simp [Iter.Reported], by simp [Iter.Reported]⟩,
      closed_singleton 0, by simp [Iter.Reported]⟩
  obtain ⟨window, hrun, h⟩ := Iter.exists_foldlM hstart xs
  rw [List.nil_append] at h
  obtain ⟨f, rest, rfl⟩ := List.exists_cons_of_ne_nil (l := window) (by simpa using h.ne_nil)
  refine ⟨f, rest, hrun, Iter.pairwise_toNat.1 h.sorted, ⟨fun x hpos hle ↦ ?_, fun n hn ↦ ?_⟩,
    fun x ↦ and_congr_left fun hlt ↦ ?_⟩
  · rcases h.front x hle with rfl | hx
    · exact absurd hpos (by simp)
    · exact hx
  · by_contra hlt
    exact h.not_reported_succ (Or.inr (hn _ (Nat.succ_pos _) (Nat.lt_of_not_le hlt)))
  · have hlt' : f.toNat < x.toNat := UInt32.lt_iff_toNat_lt.1 hlt
    constructor
    · intro hx
      rcases h.all _ (List.mem_map_of_mem hx) with hzero | ⟨y, hy, heq⟩
      · omega
      · rwa [← UInt32.toNat_inj.1 heq]
    · intro hx
      obtain ⟨y, hy, heq⟩ := List.mem_map.1 (h.kept x.toNat (Or.inr ⟨x, hx, rfl⟩) hlt')
      rwa [← UInt32.toNat_inj.1 heq]

end Rpc
end Yfs
