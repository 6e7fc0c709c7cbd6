import Mathlib.Data.List.Sort

/-!
# The two windows of the RPC library

A client numbers its calls: 1, 2, 3, and so on.  Such a number is an `xid`.  Both ends keep a sorted
list of them.

* The client's list, `xid_rep_window_`, says which calls are over.  Its front is the last call of an
  unbroken series: that call and all before it are over.  The client sends the front along with
  every request, as `xid_rep`.
* The server's list has an entry for each call that it has accepted and that is not known to be
  over, with the reply once there is one.  The entries before `xid_rep` are thrown away.

The server cannot remember which calls it had before the first entry of the list.  It takes it that
it had them all.  So a list *knows* a number that it contains or that is before its front (`Known`),
and what matters is that the list never unlearns a number (`Known.remember`).
-/

set_option autoImplicit false

namespace Yfs
namespace Rpc

/-! ## Sorted insertion

Both windows insert a number before the first greater one.  The relation the loop tests is not the
one that the list is sorted by, so the fact about Mathlib's `orderedInsert` is needed for two
relations. -/

theorem pairwise_orderedInsert {α : Type} {r R : α → α → Prop} [DecidableRel r] [IsTrans α R]
    {a : α} {l : List α} (hl : l.Pairwise R) (hlt : ∀ b ∈ l, r a b → R a b)
    (hge : ∀ b ∈ l, ¬ r a b → R b a) : (l.orderedInsert r a).Pairwise R := by
  induction l with
  | nil => exact List.pairwise_singleton R a
  | cons b l ih =>
    rw [List.pairwise_cons] at hl
    rw [List.orderedInsert_cons]
    split
    · rename_i hab
      have hab := hlt b List.mem_cons_self hab
      rw [List.pairwise_cons]
      refine ⟨fun c hc ↦ ?_, List.pairwise_cons.2 hl⟩
      rcases List.mem_cons.1 hc with rfl | hc
      · exact hab
      · exact Trans.trans hab (hl.1 c hc)
    · rename_i hab
      rw [List.pairwise_cons]
      refine ⟨fun c hc ↦ ?_, ih hl.2 (fun c hc ↦ hlt c (List.mem_cons_of_mem _ hc))
        fun c hc ↦ hge c (List.mem_cons_of_mem _ hc)⟩
      rcases (List.mem_orderedInsert _).1 hc with rfl | hc
      · exact hge b List.mem_cons_self hab
      · exact hl.1 c hc

/-! ## The client's window -/

/-- The loop at `compress` in `update_xid_rep`: `pre` is the list up to the iterator, `rest` what
comes after it. -/
def compress (pre : List Nat) : List Nat → List Nat
  | [] => pre
  | x :: rest => compress (pre.dropWhile (fun f ↦ f + 1 = x) ++ [x]) rest

/-- `rpcc::update_xid_rep`. -/
def updateXidRep (window : List Nat) (xid : Nat) : List Nat :=
  if xid ≤ window.headD 0 then window
  else
    match window.orderedInsert (· < ·) xid with
    | [] => []
    | f :: rest => compress [f] rest

theorem updateXidRep_of_le {f xid : Nat} (fs : List Nat) (h : xid ≤ f) :
    updateXidRep (f :: fs) xid = f :: fs := if_pos h

theorem updateXidRep_of_lt {f xid : Nat} (fs : List Nat) (h : f < xid) :
    updateXidRep (f :: fs) xid = compress [f] (fs.orderedInsert (· < ·) xid) := by
  rw [updateXidRep, List.headD_cons, if_neg (by omega), List.orderedInsert, if_neg (by omega)]

/-- The new number does not become the front. -/
theorem pairwise_cons_orderedInsert {f xid : Nat} {fs : List Nat}
    (hs : (f :: fs).Pairwise (· ≤ ·)) (h : f < xid) :
    (f :: fs.orderedInsert (· < ·) xid).Pairwise (· ≤ ·) := by
  have hins := pairwise_orderedInsert (r := (· < ·)) (a := xid) hs (fun _ _ ↦ Nat.le_of_lt)
    fun _ _ ↦ Nat.le_of_not_lt
  rwa [List.orderedInsert_cons, if_neg (by omega)] at hins

/-- A window tells the truth about what is over: all of its numbers are, and so is everything up to
its front. -/
structure Truthful (reported : Nat → Prop) (window : List Nat) : Prop where
  ne_nil : window ≠ []
  sorted : window.Pairwise (· ≤ ·)
  all : ∀ x ∈ window, reported x
  front : ∀ x, x ≤ window.headD 0 → reported x

namespace Truthful

variable {reported : Nat → Prop} {window : List Nat}

theorem mono {reported' : Nat → Prop} (h : Truthful reported window)
    (hle : ∀ x, reported x → reported' x) : Truthful reported' window :=
  ⟨h.ne_nil, h.sorted, fun x hx ↦ hle x (h.all x hx), fun x hx ↦ hle x (h.front x hx)⟩

theorem tail {f f' : Nat} {rest : List Nat} (h : Truthful reported (f :: f' :: rest))
    (hle : f' ≤ f + 1) : Truthful reported (f' :: rest) := by
  refine ⟨by simp, h.sorted.of_cons, fun x hx ↦ h.all x (List.mem_cons_of_mem _ hx), fun x hx ↦ ?_⟩
  rw [List.headD_cons] at hx
  rcases Nat.lt_or_ge f x with hlt | hge
  · obtain rfl : x = f' := by omega
    exact h.all x (by simp)
  · exact h.front x hge

/-- What stays in front of the iterator when it has come to `x`. -/
theorem dropWhile {x : Nat} {pre rest : List Nat} (h : Truthful reported (pre ++ x :: rest)) :
    Truthful reported (pre.dropWhile (fun f ↦ f + 1 = x) ++ x :: rest) := by
  induction pre with
  | nil => exact h
  | cons f pre ih =>
    rw [List.dropWhile_cons]
    split
    · rename_i hf
      have hf : f + 1 = x := of_decide_eq_true hf
      refine ih ?_
      -- the new front is between `f` and `x`
      cases pre with
      | nil => exact h.tail hf.ge
      | cons f' pre =>
        have hle : f' ≤ x := by
          have := h.sorted.of_cons
          exact (List.pairwise_append.1 this).2.2 f' List.mem_cons_self x List.mem_cons_self
        exact h.tail (by omega)
    · exact h

theorem compress (pre : List Nat) {rest : List Nat} (h : Truthful reported (pre ++ rest)) :
    Truthful reported (compress pre rest) := by
  induction rest generalizing pre with
  | nil => rwa [List.append_nil] at h
  | cons x rest ih =>
    refine ih _ ?_
    rw [List.append_assoc]
    exact h.dropWhile

/-- **One more call is over.** -/
theorem updateXidRep {xid : Nat} (h : Truthful reported window) (hover : reported xid) :
    Truthful reported (updateXidRep window xid) := by
  obtain ⟨f, fs, rfl⟩ := List.exists_cons_of_ne_nil h.ne_nil
  rcases Nat.lt_or_ge f xid with hlt | hle
  · rw [updateXidRep_of_lt fs hlt]
    refine compress [f] ⟨by simp, pairwise_cons_orderedInsert h.sorted hlt, fun x hx ↦ ?_, h.front⟩
    rw [List.singleton_append, List.mem_cons, List.mem_orderedInsert] at hx
    rcases hx with rfl | rfl | hx
    · exact h.all x List.mem_cons_self
    · exact hover
    · exact h.all x (List.mem_cons_of_mem _ hx)
  · rwa [updateXidRep_of_le fs hle]

end Truthful

/-! ## The server's window -/

/-- A reply: its header, and the bytes of its body. -/
structure Reply where
  xid : Nat
  ret : Int
  body : List UInt8
  deriving DecidableEq

/-- `reply_t`.  The reply is there when `cb_present` is set. -/
structure Entry where
  xid : Nat
  reply : Option Reply := none
  deriving DecidableEq

/-- `rpcstate_t`, with the saved reply. -/
inductive RpcState where
  | new
  | inProgress
  | done (b : Reply)
  | forgotten
  deriving DecidableEq

/-- The end of `checkduplicate_and_update`: a new entry is inserted and old ones are deleted. -/
def remember (rlist : List Entry) (xid xidRep : Nat) : List Entry :=
  (rlist.orderedInsert (fun e e' ↦ e.xid < e'.xid) ⟨xid, none⟩).dropWhile (·.xid < xidRep)

/-- `rpcs::checkduplicate_and_update`, for the list of one client. -/
def checkduplicateAndUpdate (rlist : List Entry) (xid xidRep : Nat) : RpcState × List Entry :=
  match rlist.find? (·.xid = xid) with
  | some e =>
    match e.reply with
    | some b => (.done b, rlist)
    | none => (.inProgress, rlist)
  | none =>
    if rlist.length > 0 ∧ xid < (rlist.headD ⟨0, none⟩).xid then (.forgotten, rlist)
    else (.new, remember rlist xid xidRep)

/-- `rpcs::add_reply`. -/
def addReply (rlist : List Entry) (xid : Nat) (b : Reply) : List Entry :=
  rlist.map fun e ↦ if e.xid = xid then { e with reply := some b } else e

/-- A list of entries in order. -/
abbrev Sorted (l : List Entry) : Prop := l.Pairwise fun e e' ↦ e.xid < e'.xid

/-- The number is before the front of the list. -/
def Below (l : List Entry) (x : Nat) : Prop := ∃ e es, l = e :: es ∧ x < e.xid

/-- The number is in the list or before its front. -/
def Known (l : List Entry) (x : Nat) : Prop := (∃ e ∈ l, e.xid = x) ∨ Below l x

theorem not_known_nil (x : Nat) : ¬ Known [] x := by
  rintro (⟨e, he, -⟩ | ⟨e, es, h, -⟩)
  · exact absurd he (by simp)
  · exact absurd h (by simp)

theorem known_cons_iff {e : Entry} {es : List Entry} {x : Nat} :
    Known (e :: es) x ↔ x ≤ e.xid ∨ ∃ e' ∈ es, e'.xid = x := by
  constructor
  · rintro (⟨e', he', rfl⟩ | ⟨e', es', h, hlt⟩)
    · rcases List.mem_cons.1 he' with rfl | he'
      · exact Or.inl le_rfl
      · exact Or.inr ⟨e', he', rfl⟩
    · obtain ⟨rfl, -⟩ := List.cons.inj h
      exact Or.inl hlt.le
  · rintro (hle | ⟨e', he', rfl⟩)
    · rcases Nat.lt_or_eq_of_le hle with hlt | rfl
      · exact Or.inr ⟨e, es, rfl, hlt⟩
      · exact Or.inl ⟨e, List.mem_cons_self, rfl⟩
    · exact Or.inl ⟨e', List.mem_cons_of_mem _ he', rfl⟩

theorem mem_dropWhile {p : Entry → Bool} {l : List Entry} {e : Entry} (h : e ∈ l)
    (hp : p e = false) : e ∈ l.dropWhile p := by
  induction l with
  | nil => exact h
  | cons e' es ih =>
    rw [List.dropWhile_cons]
    split
    · rename_i hp'
      rcases List.mem_cons.1 h with rfl | h
      · exact absurd hp' (by simp [hp])
      · exact ih h
    · exact h

/-- A list that loses entries at its front still knows them. -/
theorem Known.dropWhile {p : Entry → Bool} {l : List Entry} {x : Nat} (hs : Sorted l)
    (hne : l.dropWhile p ≠ []) (h : Known l x) : Known (l.dropWhile p) x := by
  induction l with
  | nil => exact h
  | cons e es ih =>
    rw [List.dropWhile_cons] at hne ⊢
    split
    · rename_i hp
      rw [if_pos hp] at hne
      rw [Sorted, List.pairwise_cons] at hs
      refine ih hs.2 hne ?_
      cases es with
      | nil => exact absurd rfl hne
      | cons e' es =>
        have hlt := hs.1 e' List.mem_cons_self
        rw [known_cons_iff] at h ⊢
        rcases h with hle | ⟨e'', he'', rfl⟩
        · exact Or.inl (by omega)
        · rcases List.mem_cons.1 he'' with rfl | he''
          · exact Or.inl le_rfl
          · exact Or.inr ⟨e'', he'', rfl⟩
    · exact h

/-- **What the check can answer.**  The list changes only where the answer is `NEW`, and that is the
answer to the numbers that the list does not know. -/
theorem check_cases (l : List Entry) (xid xidRep : Nat) :
    (∃ e ∈ l, e.xid = xid ∧ e.reply = none ∧
      checkduplicateAndUpdate l xid xidRep = (.inProgress, l)) ∨
    (∃ e ∈ l, ∃ b, e.xid = xid ∧ e.reply = some b ∧
      checkduplicateAndUpdate l xid xidRep = (.done b, l)) ∨
    (Below l xid ∧ checkduplicateAndUpdate l xid xidRep = (.forgotten, l)) ∨
    (¬ Known l xid ∧ checkduplicateAndUpdate l xid xidRep = (.new, remember l xid xidRep)) := by
  cases hfind : l.find? (·.xid = xid) with
  | some e =>
    have hxid : e.xid = xid := by simpa using List.find?_some hfind
    have hmem := List.mem_of_find?_eq_some hfind
    cases hreply : e.reply with
    | none => exact Or.inl ⟨e, hmem, hxid, hreply, by simp [checkduplicateAndUpdate, hfind, hreply]⟩
    | some b =>
      exact Or.inr (Or.inl ⟨e, hmem, b, hxid, hreply,
        by simp [checkduplicateAndUpdate, hfind, hreply]⟩)
  | none =>
    have hnot : ¬ ∃ e ∈ l, e.xid = xid := by
      rintro ⟨e, he, hxid⟩
      exact List.find?_eq_none.1 hfind e he (by simpa using hxid)
    rw [checkduplicateAndUpdate, hfind]
    simp only
    cases l with
    | nil => exact Or.inr (Or.inr (Or.inr ⟨not_known_nil _, rfl⟩))
    | cons e es =>
      rw [List.headD_cons]
      by_cases hlt : xid < e.xid
      · rw [if_pos ⟨by simp, hlt⟩]
        exact Or.inr (Or.inr (Or.inl ⟨⟨e, es, rfl, hlt⟩, rfl⟩))
      · rw [if_neg fun h ↦ hlt h.2]
        refine Or.inr (Or.inr (Or.inr ⟨?_, rfl⟩))
        rintro (h | ⟨e', es', h, hlt'⟩)
        · exact hnot h
        · obtain ⟨rfl, -⟩ := List.cons.inj h
          exact hlt hlt'

section Remember

variable {l : List Entry} {xid xidRep : Nat}

theorem mem_of_mem_remember {e : Entry} (h : e ∈ remember l xid xidRep) :
    e ∈ l ∨ e = ⟨xid, none⟩ := by
  have := (List.dropWhile_sublist _).subset h
  exact ((List.mem_orderedInsert _).1 this).symm

/-- The list with the new entry, before any are deleted. -/
theorem sorted_insert (hs : Sorted l) (hnew : ¬ Known l xid) :
    Sorted (l.orderedInsert (fun e e' ↦ e.xid < e'.xid) ⟨xid, none⟩) := by
  have : IsTrans Entry fun e e' ↦ e.xid < e'.xid := ⟨fun _ _ _ ↦ Nat.lt_trans⟩
  refine pairwise_orderedInsert hs (fun _ _ h ↦ h) fun e he hle ↦ ?_
  have hne : e.xid ≠ xid := fun h ↦ hnew (Or.inl ⟨e, he, h⟩)
  exact Nat.lt_of_le_of_ne (Nat.le_of_not_lt hle) hne

theorem sorted_remember (hs : Sorted l) (hnew : ¬ Known l xid) : Sorted (remember l xid xidRep) :=
  (sorted_insert hs hnew).sublist (List.dropWhile_sublist _)

/-- The new entry is not deleted, as the request is later than what it says is over. -/
theorem mem_remember_self (hlt : xidRep < xid) : (⟨xid, none⟩ : Entry) ∈ remember l xid xidRep := by
  have hmem : (⟨xid, none⟩ : Entry) ∈ l.orderedInsert (fun e e' ↦ e.xid < e'.xid) ⟨xid, none⟩ :=
    (List.mem_orderedInsert _).2 (Or.inl rfl)
  exact mem_dropWhile hmem (by simpa using hlt.le)

/-- **Nothing is unlearnt.** -/
theorem Known.remember {x : Nat} (h : Known l x) (hs : Sorted l) (hnew : ¬ Known l xid)
    (hlt : xidRep < xid) : Known (remember l xid xidRep) x := by
  refine Known.dropWhile (sorted_insert hs hnew)
    (List.ne_nil_of_mem (mem_remember_self hlt)) ?_
  rcases h with ⟨e, he, rfl⟩ | ⟨e, es, rfl, hx⟩
  · exact Or.inl ⟨e, (List.mem_orderedInsert _).2 (Or.inr he), rfl⟩
  · have hge : ¬ xid < e.xid := fun h ↦ hnew (Or.inr ⟨e, es, rfl, h⟩)
    rw [List.orderedInsert_cons, if_neg hge]
    exact Or.inr ⟨e, _, rfl, hx⟩

/-- Entries are deleted up to one that is there. -/
theorem front_dropWhile {a : Nat} {l : List Entry} (hs : Sorted l) (h : ∃ e ∈ l, e.xid = a) :
    ∃ f fs, l.dropWhile (·.xid < a) = f :: fs ∧ f.xid = a := by
  induction l with
  | nil => exact absurd h (by simp)
  | cons e es ih =>
    rw [Sorted, List.pairwise_cons] at hs
    rw [List.dropWhile_cons]
    obtain ⟨e', he', rfl⟩ := h
    rcases List.mem_cons.1 he' with rfl | he'
    · exact ⟨e', es, by simp, rfl⟩
    · rw [if_pos (by simpa using hs.1 e' he')]
      exact ih hs.2 ⟨e', he', rfl⟩

/-- **The new front** is the old one, or the last call that the request acknowledges, if that is in
the list. -/
theorem front_remember {e : Entry} {es : List Entry} (hs : Sorted (e :: es))
    (hnew : ¬ Known (e :: es) xid) (ha : xidRep ≤ e.xid ∨ ∃ e' ∈ e :: es, e'.xid = xidRep) :
    ∃ f fs, remember (e :: es) xid xidRep = f :: fs ∧ (f.xid = e.xid ∨ f.xid = xidRep) := by
  have hge : ¬ xid < e.xid := fun h ↦ hnew (Or.inr ⟨e, es, rfl, h⟩)
  have hsorted := sorted_insert hs hnew
  rw [remember]
  rcases ha with hle | ⟨e', he', hxid⟩
  · rw [List.orderedInsert_cons, if_neg hge, List.dropWhile_cons, if_neg (by simpa using hle)]
    exact ⟨e, _, rfl, Or.inl rfl⟩
  · obtain ⟨f, fs, heq, hf⟩ := front_dropWhile hsorted
      ⟨e', (List.mem_orderedInsert _).2 (Or.inr he'), hxid⟩
    exact ⟨f, fs, heq, Or.inr hf⟩

end Remember

/-! ## Saved replies -/

theorem mem_addReply {l : List Entry} {xid : Nat} {b : Reply} {e : Entry}
    (h : e ∈ addReply l xid b) :
    ∃ e' ∈ l, e'.xid = e.xid ∧ (e.reply = e'.reply ∨ (e.xid = xid ∧ e.reply = some b)) := by
  obtain ⟨e', he', rfl⟩ := List.mem_map.1 h
  refine ⟨e', he', ?_⟩
  split
  · rename_i hxid
    exact ⟨rfl, Or.inr ⟨hxid, rfl⟩⟩
  · exact ⟨rfl, Or.inl rfl⟩

theorem map_xid_addReply (l : List Entry) (xid : Nat) (b : Reply) :
    (addReply l xid b).map (·.xid) = l.map (·.xid) := by
  rw [addReply, List.map_map]
  refine List.map_congr_left fun e _ ↦ ?_
  rw [Function.comp_apply]
  split <;> rfl

theorem sorted_addReply {l : List Entry} (h : Sorted l) (xid : Nat) (b : Reply) :
    Sorted (addReply l xid b) := by
  have hmap : (l.map (·.xid)).Pairwise (· < ·) := List.pairwise_map.2 h
  rw [← map_xid_addReply l xid b] at hmap
  exact List.pairwise_map.1 hmap

theorem Known.addReply {l : List Entry} {x : Nat} (h : Known l x) (xid : Nat) (b : Reply) :
    Known (addReply l xid b) x := by
  have hmap := map_xid_addReply l xid b
  cases l with
  | nil => exact absurd h (not_known_nil x)
  | cons e es =>
    rw [Rpc.addReply, List.map_cons, List.map_cons, List.map_cons] at hmap
    obtain ⟨hhead, htail⟩ := List.cons.inj hmap
    rw [Rpc.addReply, List.map_cons, known_cons_iff, hhead]
    rw [known_cons_iff] at h
    refine h.imp_right fun hmem ↦ List.mem_map.1 ?_
    rw [htail]
    exact List.mem_map.2 hmem

end Rpc
end Yfs
