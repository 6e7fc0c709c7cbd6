import Yfs.Machine.Holders
import Yfs.Machine.Run

/-!
# Cached connections

The lock server calls its clients back through a `handle`.  All the handles for one client share an
`hinfo`, in which there is the connection once one of them has bound it, and `handle_mgr` finds it
by the client's name.  An `hinfo` is deleted when it is marked and nobody refers to it any more.  It
is marked by `delete_handle`, or because binding has failed.

Two mutexes are at work.  What `handle_mgr` does is one step, under `handle_mutex`.  `safebind`
holds the `cl_mutex` of its `hinfo` instead, and waits while it binds, so it is two steps, between
which anything may happen that does not need that mutex.  A handle is not destroyed while `safebind`
is at work on it.

Pointers are of any type, and what is deleted may be used again for something new.  To follow a
pointer to what has been deleted, to delete it again, and to destroy a mutex that is held are
faults.  There are none, in any order of the steps (`handles_safe`).
-/

set_option autoImplicit false

namespace Yfs
namespace Rpc
namespace Handle

open Machine

variable {H P R : Type}

/-- `struct hinfo`. -/
structure Hinfo (H R : Type) where
  cl : Option R
  refcnt : Int
  del : Bool
  m : String
  /-- The handle that holds `cl_mutex`, and the connection that it is binding. -/
  binding : Option (H × R)

/-- The handles, the handle manager, and what has been allocated. -/
structure State (H P R : Type) where
  hmap : String → Option P := fun _ ↦ none
  hinfos : P → Option (Hinfo H R) := fun _ ↦ none
  /-- Is there an `rpcc` at the address? -/
  rpccs : R → Bool := fun _ ↦ false
  /-- The handles, with their members `h`. -/
  handles : Holders H P := .empty
  /-- The connection that the user of a handle has got from `safebind`. -/
  conn : H → Option R := fun _ ↦ none
  /-- The `hinfo`s that have been deleted, as they were then. -/
  deleted : List (Hinfo H R) := []
  fault : Bool := false

namespace State

variable [DecidableEq P] [DecidableEq R]

/-- Change what is at an address. -/
def put (s : State H P R) (p : P) (i : Hinfo H R) : State H P R :=
  { s with hinfos := Function.update s.hinfos p (some i) }

/-- Delete an `hinfo`, with its connection. -/
def delete (s : State H P R) (p : P) (i : Hinfo H R) : State H P R :=
  { s with
    hmap := Function.update s.hmap i.m none
    hinfos := Function.update s.hinfos p none
    rpccs := i.cl.elim s.rpccs fun r ↦ Function.update s.rpccs r false
    deleted := s.deleted ++ [i]
    fault := s.fault || i.binding.isSome || i.cl.any fun r ↦ !s.rpccs r }

end State

section Code

variable [DecidableEq H] [DecidableEq P] [DecidableEq R]

/-- `handle_mgr::get_handle`, with the address at which a new `hinfo` is made. -/
def getHandle (s : State H P R) (m : String) (p : P) : Option P × State H P R :=
  match s.hmap m with
  | none =>
    (some p, { s.put p ⟨none, 1, false, m, none⟩ with hmap := Function.update s.hmap m (some p) })
  | some q =>
    match s.hinfos q with
    | none => (none, { s with fault := true })
    | some i => if i.del then (none, s) else (some q, s.put q { i with refcnt := i.refcnt + 1 })

/-- `handle_mgr::delete_handle_wo`. -/
def deleteHandleWo (s : State H P R) (m : String) : State H P R :=
  match s.hmap m with
  | none => s
  | some p =>
    match s.hinfos p with
    | none => { s with fault := true }
    | some i => if i.refcnt = 0 then s.delete p i else s.put p { i with del := true }

/-- `handle_mgr::done_handle`. -/
def doneHandle (s : State H P R) (p : P) : State H P R :=
  match s.hinfos p with
  | none => { s with fault := true }
  | some i =>
    let s := s.put p { i with refcnt := i.refcnt - 1 }
    if i.refcnt - 1 = 0 ∧ i.del then deleteHandleWo s i.m else s

/-- `handle::safebind`, up to where it begins to bind a new `rpcc`.  It has to wait if the mutex is
held. -/
def safebind (s : State H P R) (x : H) (r : R) : Option (State H P R) :=
  match s.handles.ptr x with
  | none => some s
  | some p =>
    match s.hinfos p with
    | none => some { s with fault := true }
    | some i =>
      if i.binding.isSome then none
      else if i.del then some s
      else
        match i.cl with
        | some c => some { s with conn := Function.update s.conn x (some c) }
        | none =>
          some { s.put p { i with binding := some (x, r) } with
            rpccs := Function.update s.rpccs r true }

/-- The rest of `handle::safebind`, when `bind` has returned. -/
def bound (s : State H P R) (x : H) (ok : Bool) : Option (State H P R) :=
  (s.handles.ptr x).bind fun p ↦
    match s.hinfos p with
    | none => some { s with fault := true }
    | some i =>
      match i.binding with
      | none => none
      | some (y, r) =>
        if y ≠ x then none
        else if ok then
          some { s.put p { i with cl := some r, binding := none } with
            conn := Function.update s.conn x (some r) }
        else
          some { s.put p { i with del := true, binding := none } with
            rpccs := Function.update s.rpccs r false }

/-- `handle::handle`, when `get_handle` has returned. -/
def State.enter (s : State H P R) (x : H) (o : Option P) : State H P R :=
  { s with handles := s.handles.add x o, conn := Function.update s.conn x none }

/-- Is `safebind` at work on a handle? -/
def State.binds (s : State H P R) (x : H) : Bool :=
  ((s.handles.ptr x).bind s.hinfos).any fun i ↦ i.binding.any fun b ↦ b.1 = x

/-- What can happen. -/
inductive Event (H P R : Type) where
  /-- A handle is made for a client; a new `hinfo` would be at `p`. -/
  | construct (x : H) (m : String) (p : P)
  /-- `safebind` is called; a new `rpcc` would be at `r`. -/
  | safebind (x : H) (r : R)
  /-- `bind` returns. -/
  | bound (x : H) (ok : Bool)
  /-- The connection of a handle is used. -/
  | call (x : H)
  | destroy (x : H)
  | deleteHandle (m : String)

/-- A step.  Something new is made where nothing is. -/
def step (s : State H P R) : Event H P R → Option (State H P R)
  | .construct x m p =>
    if x ∉ s.handles.live ∧ (s.hinfos p).isNone then
      let r := getHandle s m p
      some (r.2.enter x r.1)
    else none
  | .safebind x r => if x ∈ s.handles.live ∧ s.rpccs r = false then safebind s x r else none
  | .bound x ok => if x ∈ s.handles.live then bound s x ok else none
  | .call x =>
    if x ∈ s.handles.live then
      (s.conn x).map fun r ↦ { s with fault := s.fault || !s.rpccs r }
    else none
  | .destroy x =>
    if x ∈ s.handles.live ∧ s.binds x = false then
      let s := { s with handles := s.handles.remove x }
      match s.handles.ptr x with
      | none => some s
      | some p => some (doneHandle s p)
    else none
  | .deleteHandle m => some (deleteHandleWo s m)

end Code

/-! ## The invariant -/

/-- The connection is the one of the `hinfo`, or it is being bound for it. -/
def Hinfo.Owns (i : Hinfo H R) (r : R) : Prop := i.cl = some r ∨ ∃ x, i.binding = some (x, r)

/-- Names and `hinfo`s belong together. -/
structure Names (hmap : String → Option P) (hinfos : P → Option (Hinfo H R)) : Prop where
  mapped : ∀ m p, hmap m = some p → ∃ i, hinfos p = some i ∧ i.m = m
  owned : ∀ p i, hinfos p = some i → hmap i.m = some p

/-- The counts are right, and what a handle refers to is there. -/
structure Counts [DecidableEq P] (hinfos : P → Option (Hinfo H R)) (t : Holders H P) : Prop where
  count : ∀ p i, hinfos p = some i → i.refcnt = t.count p
  held : ∀ x ∈ t.live, ∀ p, t.ptr x = some p → ∃ i, hinfos p = some i

/-- Every connection belongs to one `hinfo`, and those that are in use are there. -/
structure Conns (hinfos : P → Option (Hinfo H R)) (rpccs : R → Bool) (t : Holders H P)
    (conn : H → Option R) : Prop where
  binder : ∀ p i x r, hinfos p = some i → i.binding = some (x, r) →
    x ∈ t.live ∧ t.ptr x = some p ∧ i.cl = none
  alive : ∀ p i r, hinfos p = some i → i.Owns r → rpccs r = true
  apart : ∀ p q i j r, hinfos p = some i → hinfos q = some j → i.Owns r → j.Owns r → p = q
  got : ∀ x ∈ t.live, ∀ r, conn x = some r →
    ∃ p i, t.ptr x = some p ∧ hinfos p = some i ∧ i.cl = some r

/-- What is true whenever no step is being taken. -/
structure Inv [DecidableEq P] (s : State H P R) : Prop where
  ok : s.fault = false
  deleted : ∀ i ∈ s.deleted, i.refcnt = 0
  names : Names s.hmap s.hinfos
  counts : Counts s.hinfos s.handles
  conns : Conns s.hinfos s.rpccs s.handles s.conn

variable {hmap : String → Option P} {hinfos : P → Option (Hinfo H R)} {p : P} {i k : Hinfo H R}

namespace Conns

variable {rpccs : R → Bool} {t : Holders H P} {conn : H → Option R} {x : H} {r : R}

/-- A connection is deleted that belongs to nobody. -/
theorem forget [DecidableEq R] (h : Conns hinfos rpccs t conn)
    (hno : ∀ p i, hinfos p = some i → ¬ i.Owns r) :
    Conns hinfos (Function.update rpccs r false) t conn := by
  refine ⟨h.binder, fun q j c hj hc ↦ ?_, h.apart, h.got⟩
  have e : c ≠ r := by rintro rfl; exact hno q j hj hc
  rw [Function.update_of_ne e]
  exact h.alive q j c hj hc

variable [DecidableEq H]

/-- `safebind` returns a connection. -/
theorem give (h : Conns hinfos rpccs t conn) (hptr : t.ptr x = some p) (hp : hinfos p = some i)
    (hcl : i.cl = some r) : Conns hinfos rpccs t (Function.update conn x (some r)) := by
  refine ⟨h.binder, h.alive, h.apart, fun y hy c hc ↦ ?_⟩
  rcases update_eq_some hc with ⟨rfl, rfl⟩ | ⟨-, hc⟩
  · exact ⟨p, i, hptr, hp, hcl⟩
  · exact h.got y hy c hc

theorem add (h : Conns hinfos rpccs t conn) (hx : x ∉ t.live) (o : Option P) :
    Conns hinfos rpccs (t.add x o) (Function.update conn x none) := by
  refine ⟨fun q j y c hj hb ↦ ?_, h.alive, h.apart, fun y hy c hc ↦ ?_⟩
  · obtain ⟨hy, hq, hcl⟩ := h.binder q j y c hj hb
    have e : y ≠ x := by rintro rfl; exact hx hy
    exact ⟨Holders.mem_live_add.2 (Or.inr hy), by rwa [Holders.ptr_add_of_ne e], hcl⟩
  · obtain ⟨e, hc⟩ := update_none_eq_some hc
    rw [Holders.ptr_add_of_ne e]
    exact h.got y ((Holders.mem_live_add.1 hy).resolve_left e) c hc

theorem remove (h : Conns hinfos rpccs t conn)
    (hno : ∀ p i r, t.ptr x = some p → hinfos p = some i → i.binding ≠ some (x, r)) :
    Conns hinfos rpccs (t.remove x) conn := by
  refine ⟨fun q j y c hj hb ↦ ?_, h.alive, h.apart, fun y hy c hc ↦ ?_⟩
  · obtain ⟨hy, hq, hcl⟩ := h.binder q j y c hj hb
    have e : y ≠ x := by rintro rfl; exact hno q j c hq hj hb
    exact ⟨Holders.mem_live_remove.2 ⟨e, hy⟩, hq, hcl⟩
  · exact h.got y (Holders.mem_live_remove.1 hy).2 c hc

end Conns

variable [DecidableEq P]

namespace Names

theorem put (h : Names hmap hinfos) (hp : hinfos p = some i) (hm : k.m = i.m) :
    Names hmap (Function.update hinfos p (some k)) := by
  refine ⟨fun m q hq ↦ ?_, fun q j hj ↦ ?_⟩
  · obtain ⟨j, hj, rfl⟩ := h.mapped m q hq
    by_cases e : q = p
    · subst e
      obtain rfl := Option.some_inj.1 (hp.symm.trans hj)
      exact ⟨k, Function.update_self .., hm⟩
    · exact ⟨j, by rwa [Function.update_of_ne e], rfl⟩
  · rcases update_eq_some hj with ⟨rfl, rfl⟩ | ⟨-, hj⟩
    · rw [hm]
      exact h.owned _ i hp
    · exact h.owned q j hj

/-- A new `hinfo` gets a name that is not taken. -/
theorem fresh (h : Names hmap hinfos) (hm : hmap i.m = none) (hp : hinfos p = none) :
    Names (Function.update hmap i.m (some p)) (Function.update hinfos p (some i)) := by
  refine ⟨fun m q hq ↦ ?_, fun q j hj ↦ ?_⟩
  · rcases update_eq_some hq with ⟨rfl, rfl⟩ | ⟨-, hq⟩
    · exact ⟨i, Function.update_self .., rfl⟩
    · obtain ⟨j, hj, hmj⟩ := h.mapped m q hq
      have e : q ≠ p := by rintro rfl; exact absurd (hp.symm.trans hj) (by simp)
      exact ⟨j, by rwa [Function.update_of_ne e], hmj⟩
  · rcases update_eq_some hj with ⟨rfl, rfl⟩ | ⟨-, hj⟩
    · exact Function.update_self ..
    · have e : j.m ≠ i.m := by
        intro e
        have := h.owned q j hj
        rw [e, hm] at this
        exact absurd this (by simp)
      rw [Function.update_of_ne e]
      exact h.owned q j hj

theorem delete (h : Names hmap hinfos) (hp : hinfos p = some i) :
    Names (Function.update hmap i.m none) (Function.update hinfos p none) := by
  refine ⟨fun m q hq ↦ ?_, fun q j hj ↦ ?_⟩
  · obtain ⟨hne, hq⟩ := update_none_eq_some hq
    obtain ⟨j, hj, rfl⟩ := h.mapped m q hq
    have e : q ≠ p := by
      rintro rfl
      obtain rfl := Option.some_inj.1 (hp.symm.trans hj)
      exact hne rfl
    exact ⟨j, by rwa [Function.update_of_ne e], rfl⟩
  · obtain ⟨hne, hj⟩ := update_none_eq_some hj
    have e : j.m ≠ i.m := by
      intro e
      have h₁ := h.owned q j hj
      rw [e, h.owned p i hp] at h₁
      exact hne (Option.some_inj.1 h₁).symm
    rw [Function.update_of_ne e]
    exact h.owned q j hj

end Names

namespace Counts

variable {t : Holders H P} {x : H}

theorem put (h : Counts hinfos t) (hp : hinfos p = some i) (href : k.refcnt = i.refcnt) :
    Counts (Function.update hinfos p (some k)) t := by
  refine ⟨fun q j hj ↦ ?_, fun y hy q hq ↦ ?_⟩
  · rcases update_eq_some hj with ⟨rfl, rfl⟩ | ⟨-, hj⟩
    · rw [href]
      exact h.count _ i hp
    · exact h.count q j hj
  · by_cases e : q = p
    · exact ⟨k, by rw [e, Function.update_self]⟩
    · rw [Function.update_of_ne e]
      exact h.held y hy q hq

/-- Nobody refers to what is not there. -/
theorem count_eq_zero (h : Counts hinfos t) (hp : hinfos p = none) : t.count p = 0 := by
  rw [Holders.count_eq_zero_iff]
  intro y hy hq
  obtain ⟨j, hj⟩ := h.held y hy p hq
  exact absurd (hp.symm.trans hj) (by simp)

theorem delete (h : Counts hinfos t) (hp : t.count p = 0) :
    Counts (Function.update hinfos p none) t := by
  refine ⟨fun q j hj ↦ h.count q j (update_none_eq_some hj).2, fun y hy q hq ↦ ?_⟩
  have e : q ≠ p := by rintro rfl; exact Holders.count_eq_zero_iff.1 hp y hy hq
  rw [Function.update_of_ne e]
  exact h.held y hy q hq

variable [DecidableEq H]

/-- A handle is made, and what it refers to is counted up. -/
theorem add (h : Counts hinfos t) (hx : x ∉ t.live) (href : k.refcnt = t.count p + 1) :
    Counts (Function.update hinfos p (some k)) (t.add x (some p)) := by
  refine ⟨fun q j hj ↦ ?_, fun y hy q hq ↦ ?_⟩
  · rw [Holders.count_add hx]
    rcases update_eq_some hj with ⟨rfl, rfl⟩ | ⟨hne, hj⟩
    · rw [href, if_pos rfl]
      rfl
    · rw [if_neg fun e ↦ hne (Option.some_inj.1 e).symm]
      exact h.count q j hj
  · by_cases e : q = p
    · exact ⟨k, by rw [e, Function.update_self]⟩
    · rw [Function.update_of_ne e]
      have hy' : y ≠ x := by
        rintro rfl
        rw [Holders.ptr_add_self] at hq
        exact e (Option.some_inj.1 hq).symm
      rw [Holders.ptr_add_of_ne hy'] at hq
      exact h.held y ((Holders.mem_live_add.1 hy).resolve_left hy') q hq

/-- A handle is made that refers to nothing. -/
theorem add_none (h : Counts hinfos t) (hx : x ∉ t.live) : Counts hinfos (t.add x none) := by
  refine ⟨fun q j hj ↦ ?_, fun y hy q hq ↦ ?_⟩
  · rw [Holders.count_add hx, if_neg (by simp)]
    exact h.count q j hj
  · have hy' : y ≠ x := by
      rintro rfl
      rw [Holders.ptr_add_self] at hq
      exact absurd hq (by simp)
    rw [Holders.ptr_add_of_ne hy'] at hq
    exact h.held y ((Holders.mem_live_add.1 hy).resolve_left hy') q hq

/-- A handle is destroyed, and what it refers to is counted down. -/
theorem remove (h : Counts hinfos t) (hx : x ∈ t.live) (hptr : t.ptr x = some p)
    (hp : hinfos p = some i) (href : k.refcnt = i.refcnt - 1) :
    Counts (Function.update hinfos p (some k)) (t.remove x) := by
  refine ⟨fun q j hj ↦ ?_, fun y hy q hq ↦ ?_⟩
  · have hcount := Holders.count_remove (p := q) hx
    rcases update_eq_some hj with ⟨rfl, rfl⟩ | ⟨hne, hj⟩
    · rw [if_pos hptr] at hcount
      rw [href, h.count _ i hp, ← hcount]
      omega
    · rw [hptr, if_neg fun e ↦ hne (Option.some_inj.1 e).symm] at hcount
      rw [h.count q j hj, ← hcount]
      rfl
  · by_cases e : q = p
    · exact ⟨k, by rw [e, Function.update_self]⟩
    · rw [Function.update_of_ne e]
      exact h.held y (Holders.mem_live_remove.1 hy).2 q hq

theorem remove_none (h : Counts hinfos t) (hx : x ∈ t.live) (hptr : t.ptr x = none) :
    Counts hinfos (t.remove x) := by
  refine ⟨fun q j hj ↦ ?_, fun y hy q hq ↦ h.held y (Holders.mem_live_remove.1 hy).2 q hq⟩
  have hcount := Holders.count_remove (p := q) hx
  rw [hptr, if_neg (by simp)] at hcount
  rw [h.count q j hj, ← hcount]
  rfl

end Counts

namespace Conns

variable {rpccs : R → Bool} {t : Holders H P} {conn : H → Option R} {x : H} {r : R}

/-- An `hinfo` changes that does not lose its connection and does not get a new one, unless it is
the one that has been bound for it. -/
theorem put (h : Conns hinfos rpccs t conn) (hp : hinfos p = some i)
    (hcl : ∀ r, i.cl = some r → k.cl = some r) (howns : ∀ r, k.Owns r → i.Owns r)
    (hbind : ∀ x r, k.binding = some (x, r) → i.binding = some (x, r) ∧ k.cl = i.cl) :
    Conns (Function.update hinfos p (some k)) rpccs t conn := by
  -- every `hinfo` there is has one that owns as much
  have hold : ∀ {q : P} {j : Hinfo H R}, Function.update hinfos p (some k) q = some j →
      ∃ j', hinfos q = some j' ∧ ∀ r, j.Owns r → j'.Owns r := by
    intro q j hj
    rcases update_eq_some hj with ⟨rfl, rfl⟩ | ⟨-, hj⟩
    · exact ⟨i, hp, howns⟩
    · exact ⟨j, hj, fun _ hr ↦ hr⟩
  refine ⟨fun q j y c hj hb ↦ ?_, fun q j c hj hc ↦ ?_, fun q q' j j' c hj hj' hc hc' ↦ ?_,
    fun y hy c hc ↦ ?_⟩
  · rcases update_eq_some hj with ⟨rfl, rfl⟩ | ⟨-, hj⟩
    · obtain ⟨hb', hcl'⟩ := hbind y c hb
      rw [hcl']
      exact h.binder _ i y c hp hb'
    · exact h.binder q j y c hj hb
  · obtain ⟨j', hj', hle⟩ := hold hj
    exact h.alive q j' c hj' (hle c hc)
  · obtain ⟨l, hl, hle⟩ := hold hj
    obtain ⟨l', hl', hle'⟩ := hold hj'
    exact h.apart q q' l l' c hl hl' (hle c hc) (hle' c hc')
  · obtain ⟨q, j, hq, hj, hjc⟩ := h.got y hy c hc
    by_cases e : q = p
    · subst e
      obtain rfl := Option.some_inj.1 (hp.symm.trans hj)
      exact ⟨q, k, hq, Function.update_self .., hcl c hjc⟩
    · exact ⟨q, j, hq, by rwa [Function.update_of_ne e], hjc⟩

/-- An `hinfo` changes, but not its connection. -/
theorem put_same (h : Conns hinfos rpccs t conn) (hp : hinfos p = some i) (hcl : k.cl = i.cl)
    (hbind : k.binding = i.binding) : Conns (Function.update hinfos p (some k)) rpccs t conn := by
  refine h.put hp (fun r hr ↦ hcl.trans hr) (fun r hr ↦ ?_) fun y r hb ↦ ⟨hbind ▸ hb, hcl⟩
  rwa [Hinfo.Owns, hcl, hbind] at hr

/-- A new `hinfo` has no connection. -/
theorem fresh (h : Conns hinfos rpccs t conn) (hp : hinfos p = none) (hcl : i.cl = none)
    (hbind : i.binding = none) : Conns (Function.update hinfos p (some i)) rpccs t conn := by
  have hno : ∀ r, ¬ i.Owns r := by
    rintro r (hr | ⟨y, hr⟩)
    · exact absurd (hcl.symm.trans hr) (by simp)
    · exact absurd (hbind.symm.trans hr) (by simp)
  have hold : ∀ {q : P} {j : Hinfo H R} {r : R}, Function.update hinfos p (some i) q = some j →
      j.Owns r → hinfos q = some j := by
    intro q j r hj hr
    rcases update_eq_some hj with ⟨-, rfl⟩ | ⟨-, hj⟩
    · exact absurd hr (hno r)
    · exact hj
  refine ⟨fun q j y c hj hb ↦ h.binder q j y c (hold hj (Or.inr ⟨y, hb⟩)) hb,
    fun q j c hj hc ↦ h.alive q j c (hold hj hc) hc,
    fun q q' j j' c hj hj' hc hc' ↦ h.apart q q' j j' c (hold hj hc) (hold hj' hc') hc hc',
    fun y hy c hc ↦ ?_⟩
  obtain ⟨q, j, hq, hj, hjc⟩ := h.got y hy c hc
  have e : q ≠ p := by rintro rfl; exact absurd (hp.symm.trans hj) (by simp)
  exact ⟨q, j, hq, by rwa [Function.update_of_ne e], hjc⟩

/-- An `hinfo` is deleted to which no handle refers, and its connection with it. -/
theorem delete [DecidableEq R] (h : Conns hinfos rpccs t conn) (hp : hinfos p = some i)
    (hcount : t.count p = 0) :
    Conns (Function.update hinfos p none)
      (i.cl.elim rpccs fun r ↦ Function.update rpccs r false) t conn := by
  refine ⟨fun q j y c hj hb ↦ h.binder q j y c (update_none_eq_some hj).2 hb,
    fun q j c hj hc ↦ ?_, fun q q' j j' c hj hj' hc hc' ↦
      h.apart q q' j j' c (update_none_eq_some hj).2 (update_none_eq_some hj').2 hc hc',
    fun y hy c hc ↦ ?_⟩
  · obtain ⟨hne, hj⟩ := update_none_eq_some hj
    have halive := h.alive q j c hj hc
    cases hcl : i.cl with
    | none => exact halive
    | some r =>
      have e : c ≠ r := by rintro rfl; exact hne (h.apart q p j i c hj hp hc (Or.inl hcl))
      rw [Option.elim, Function.update_of_ne e]
      exact halive
  · obtain ⟨q, j, hq, hj, hjc⟩ := h.got y hy c hc
    have e : q ≠ p := by rintro rfl; exact Holders.count_eq_zero_iff.1 hcount y hy hq
    exact ⟨q, j, hq, by rwa [Function.update_of_ne e], hjc⟩

/-- `safebind` begins to bind a new connection. -/
theorem bind [DecidableEq R] (h : Conns hinfos rpccs t conn) (hp : hinfos p = some i)
    (hx : x ∈ t.live) (hptr : t.ptr x = some p) (hcl : i.cl = none) (hr : rpccs r = false) :
    Conns (Function.update hinfos p (some { i with binding := some (x, r) }))
      (Function.update rpccs r true) t conn := by
  have hno : ∀ {q : P} {j : Hinfo H R}, hinfos q = some j → ¬ j.Owns r := by
    intro q j hj hc
    exact absurd ((h.alive q j r hj hc).symm.trans hr) (by simp)
  have howns : ∀ c, Hinfo.Owns { i with binding := some (x, r) } c → c = r := by
    rintro c (hc | ⟨y, hc⟩)
    · exact absurd (hcl.symm.trans hc) (by simp)
    · exact (Prod.mk.inj (Option.some_inj.1 hc)).2.symm
  refine ⟨fun q j y c hj hb ↦ ?_, fun q j c hj hc ↦ ?_, fun q q' j j' c hj hj' hc hc' ↦ ?_,
    fun y hy c hc ↦ ?_⟩
  · rcases update_eq_some hj with ⟨rfl, rfl⟩ | ⟨-, hj⟩
    · obtain ⟨rfl, -⟩ := Prod.mk.inj (Option.some_inj.1 hb)
      exact ⟨hx, hptr, hcl⟩
    · exact h.binder q j y c hj hb
  · by_cases e : c = r
    · rw [e, Function.update_self]
    · rw [Function.update_of_ne e]
      rcases update_eq_some hj with ⟨-, rfl⟩ | ⟨-, hj⟩
      · exact absurd (howns c hc) e
      · exact h.alive q j c hj hc
  · rcases update_eq_some hj with ⟨rfl, rfl⟩ | ⟨-, hold⟩ <;>
      rcases update_eq_some hj' with ⟨rfl, rfl⟩ | ⟨-, hold'⟩
    · rfl
    · obtain rfl := howns c hc
      exact absurd hc' (hno hold')
    · obtain rfl := howns c hc'
      exact absurd hc (hno hold)
    · exact h.apart q q' j j' c hold hold' hc hc'
  · obtain ⟨q, j, hq, hj, hjc⟩ := h.got y hy c hc
    have e : q ≠ p := by
      rintro rfl
      obtain rfl := Option.some_inj.1 (hp.symm.trans hj)
      exact absurd (hcl.symm.trans hjc) (by simp)
    exact ⟨q, j, hq, by rwa [Function.update_of_ne e], hjc⟩

/-- The connection that has been bound is the one of the `hinfo`. -/
theorem succeed (h : Conns hinfos rpccs t conn) (hp : hinfos p = some i)
    (hb : i.binding = some (x, r)) :
    Conns (Function.update hinfos p (some { i with cl := some r, binding := none }))
      rpccs t conn := by
  have hcl : i.cl = none := (h.binder p i x r hp hb).2.2
  refine h.put hp (fun c hc ↦ absurd (hcl.symm.trans hc) (by simp)) ?_
    fun y c hc ↦ absurd hc (by simp)
  rintro c (hc | ⟨y, hc⟩)
  · exact Or.inr ⟨x, by rw [hb, Option.some_inj.1 hc]⟩
  · exact absurd hc (by simp)

/-- The connection that could not be bound is deleted. -/
theorem fail [DecidableEq R] (h : Conns hinfos rpccs t conn) (hp : hinfos p = some i)
    (hb : i.binding = some (x, r)) :
    Conns (Function.update hinfos p (some { i with del := true, binding := none }))
      (Function.update rpccs r false) t conn := by
  have hcl : i.cl = none := (h.binder p i x r hp hb).2.2
  have hnone : ∀ c, ¬ Hinfo.Owns (H := H) { i with del := true, binding := none } c := by
    rintro c (hc | ⟨y, hc⟩)
    · exact absurd (hcl.symm.trans hc) (by simp)
    · exact absurd hc (by simp)
  have hput := h.put hp (k := { i with del := true, binding := none }) (fun _ hc ↦ hc)
    (fun c hc ↦ absurd hc (hnone c)) fun y c hc ↦ absurd hc (by simp)
  refine hput.forget fun q j hj hc ↦ ?_
  -- the connection was that of this `hinfo`, and is not any more
  rcases update_eq_some hj with ⟨-, rfl⟩ | ⟨hne, hj⟩
  · exact hnone r hc
  · exact hne (h.apart q p j i r hj hp hc (Or.inr ⟨x, hb⟩))

end Conns

/-! ## Steps -/

namespace Inv

variable {s s' : State H P R} {x : H} {m : String}

theorem init : Inv ({} : State H P R) where
  ok := rfl
  deleted := by simp
  names := ⟨by simp, by simp⟩
  counts := ⟨by simp, by simp [Holders.empty]⟩
  conns := ⟨by simp, by simp, by simp, by simp⟩

/-- Only the flag changes. -/
theorem mark (h : Inv s) (hp : s.hinfos p = some i) : Inv (s.put p { i with del := true }) where
  ok := h.ok
  deleted := h.deleted
  names := h.names.put hp rfl
  counts := h.counts.put hp rfl
  conns := h.conns.put_same hp rfl rfl

variable [DecidableEq R]

/-- **What nobody refers to can be deleted.** -/
theorem delete (h : Inv s) (hp : s.hinfos p = some i) (hzero : i.refcnt = 0) :
    Inv (s.delete p i) := by
  have hcount : s.handles.count p = 0 := by
    have := h.counts.count p i hp
    omega
  have hbind : i.binding = none := by
    cases hb : i.binding with
    | none => rfl
    | some b =>
      obtain ⟨hx, hptr, -⟩ := h.conns.binder p i b.1 b.2 hp hb
      exact absurd hptr (Holders.count_eq_zero_iff.1 hcount _ hx)
  have hcl : (i.cl.any fun r ↦ !s.rpccs r) = false := by
    cases hr : i.cl with
    | none => rfl
    | some r => simp [h.conns.alive p i r hp (Or.inl hr)]
  refine ⟨?_, fun j hj ↦ ?_, h.names.delete hp, h.counts.delete hcount, h.conns.delete hp hcount⟩
  · simp only [State.delete, h.ok, hbind, hcl]
    rfl
  · rcases List.mem_append.1 hj with hj | hj
    · exact h.deleted j hj
    · rw [List.mem_singleton.1 hj, hzero]

theorem deleteHandleWo (h : Inv s) (m : String) : Inv (deleteHandleWo s m) := by
  rw [Handle.deleteHandleWo]
  cases hm : s.hmap m with
  | none => exact h
  | some p =>
    obtain ⟨i, hp, -⟩ := h.names.mapped m p hm
    simp only [hp]
    split
    · rename_i hzero
      exact h.delete hp hzero
    · exact h.mark hp

variable [DecidableEq H]

omit [DecidableEq R] in
/-- A handle is made. -/
theorem construct (h : Inv s) (hx : x ∉ s.handles.live) (hp : s.hinfos p = none) (m : String) :
    Inv ((getHandle s m p).2.enter x (getHandle s m p).1) := by
  cases hm : s.hmap m with
  | none =>
    have hcounts := h.counts.add hx (p := p) (k := ⟨none, 1, false, m, none⟩)
      (by rw [h.counts.count_eq_zero hp]; rfl)
    rw [getHandle, hm]
    exact ⟨h.ok, h.deleted, h.names.fresh (i := ⟨none, 1, false, m, none⟩) hm hp, hcounts,
      (h.conns.fresh hp rfl rfl).add hx _⟩
  | some q =>
    obtain ⟨i, hq, -⟩ := h.names.mapped m q hm
    by_cases hdel : i.del
    · have hget : getHandle s m p = (none, s) := by simp [getHandle, hm, hq, hdel]
      rw [hget]
      exact ⟨h.ok, h.deleted, h.names, h.counts.add_none hx, h.conns.add hx _⟩
    · have hget : getHandle s m p = (some q, s.put q { i with refcnt := i.refcnt + 1 }) := by
        simp [getHandle, hm, hq, hdel]
      rw [hget]
      have hcounts := h.counts.add hx (p := q) (k := { i with refcnt := i.refcnt + 1 })
        (by rw [h.counts.count q i hq])
      have hconns := h.conns.put_same hq (k := { i with refcnt := i.refcnt + 1 }) rfl rfl
      exact ⟨h.ok, h.deleted, h.names.put hq rfl, hcounts, hconns.add hx _⟩

/-- A handle is destroyed. -/
theorem destroy (h : Inv s) (hx : x ∈ s.handles.live) (hbinds : s.binds x = false)
    (hptr : s.handles.ptr x = some p) :
    Inv (doneHandle { s with handles := s.handles.remove x } p) := by
  obtain ⟨i, hp⟩ := h.counts.held x hx p hptr
  have hno : ∀ q j r, s.handles.ptr x = some q → s.hinfos q = some j →
      j.binding ≠ some (x, r) := by
    intro q j r hq hj hb
    rw [State.binds, hq, Option.bind_some, hj] at hbinds
    simp [hb] at hbinds
  have hdown : Inv ({ s with handles := s.handles.remove x }.put p
      { i with refcnt := i.refcnt - 1 }) :=
    ⟨h.ok, h.deleted, h.names.put hp rfl, h.counts.remove hx hptr hp rfl,
      (h.conns.remove hno).put_same hp rfl rfl⟩
  rw [doneHandle]
  simp only [hp]
  split
  · exact hdown.deleteHandleWo _
  · exact hdown

/-- `safebind` is called. -/
theorem safebind {r : R} (h : Inv s) (hx : x ∈ s.handles.live) (hr : s.rpccs r = false)
    (hs : safebind s x r = some s') : Inv s' := by
  rw [Handle.safebind] at hs
  cases hptr : s.handles.ptr x with
  | none =>
    simp only [hptr, Option.some_inj] at hs
    rwa [← hs]
  | some p =>
    obtain ⟨i, hp⟩ := h.counts.held x hx p hptr
    simp only [hptr, hp, Option.ite_none_left_eq_some] at hs
    obtain ⟨-, hs⟩ := hs
    split at hs
    · rwa [← Option.some_inj.1 hs]
    · split at hs
      · rename_i c hcl
        rw [← Option.some_inj.1 hs]
        exact ⟨h.ok, h.deleted, h.names, h.counts, h.conns.give hptr hp hcl⟩
      · rename_i hcl
        rw [← Option.some_inj.1 hs]
        exact ⟨h.ok, h.deleted, h.names.put hp rfl, h.counts.put hp rfl,
          h.conns.bind hp hx hptr hcl hr⟩

/-- `bind` returns. -/
theorem bound {ok : Bool} (h : Inv s) (hx : x ∈ s.handles.live) (hs : bound s x ok = some s') :
    Inv s' := by
  rw [Handle.bound, Option.bind_eq_some_iff] at hs
  obtain ⟨p, hptr, hs⟩ := hs
  obtain ⟨i, hp⟩ := h.counts.held x hx p hptr
  simp only [hp] at hs
  cases hb : i.binding with
  | none => simp [hb] at hs
  | some b =>
    obtain ⟨y, r⟩ := b
    simp only [hb, Option.ite_none_left_eq_some, ne_eq, not_not] at hs
    obtain ⟨rfl, hs⟩ := hs
    split at hs
    · rw [← Option.some_inj.1 hs]
      exact ⟨h.ok, h.deleted, h.names.put hp rfl, h.counts.put hp rfl,
        (h.conns.succeed hp hb).give hptr (Function.update_self ..) rfl⟩
    · rw [← Option.some_inj.1 hs]
      exact ⟨h.ok, h.deleted, h.names.put hp rfl, h.counts.put hp rfl, h.conns.fail hp hb⟩

/-- **A step.** -/
theorem step {e : Event H P R} (h : Inv s) (hs : step s e = some s') : Inv s' := by
  cases e with
  | construct x m p =>
    obtain ⟨⟨hx, hp⟩, hs⟩ := Option.ite_none_right_eq_some.1 hs
    obtain rfl := Option.some_inj.1 hs
    exact h.construct hx (Option.isNone_iff_eq_none.1 hp) m
  | safebind x r =>
    obtain ⟨⟨hx, hr⟩, hs⟩ := Option.ite_none_right_eq_some.1 hs
    exact h.safebind hx hr hs
  | bound x ok =>
    obtain ⟨hx, hs⟩ := Option.ite_none_right_eq_some.1 hs
    exact h.bound hx hs
  | call x =>
    obtain ⟨hx, hs⟩ := Option.ite_none_right_eq_some.1 hs
    obtain ⟨r, hr, rfl⟩ := Option.map_eq_some_iff.1 hs
    obtain ⟨p, i, -, hp, hcl⟩ := h.conns.got x hx r hr
    refine ⟨?_, h.deleted, h.names, h.counts, h.conns⟩
    simp [h.ok, h.conns.alive p i r hp (Or.inl hcl)]
  | destroy x =>
    obtain ⟨⟨hx, hbinds⟩, hs⟩ := Option.ite_none_right_eq_some.1 hs
    split at hs
    · rename_i hptr
      obtain rfl := Option.some_inj.1 hs
      have hno : ∀ q j r, s.handles.ptr x = some q → s.hinfos q = some j →
          j.binding ≠ some (x, r) := fun q j r hq ↦ absurd (hptr.symm.trans hq) (by simp)
      exact ⟨h.ok, h.deleted, h.names, h.counts.remove_none hx hptr, h.conns.remove hno⟩
    · rename_i p hptr
      obtain rfl := Option.some_inj.1 hs
      exact h.destroy hx hbinds hptr
  | deleteHandle m =>
    obtain rfl := Option.some_inj.1 hs
    exact h.deleteHandleWo m

end Inv

/-! ## Runs -/

section Runs

variable [DecidableEq H] [DecidableEq R]

/-- **An `hinfo` is there as long as a handle refers to it.**  After any steps, in any order, there
has been no fault; what a handle refers to is in `hmap` under its own name, and its count is the
number of the handles that refer to it; whatever has been deleted had the count 0; there is one
`hinfo` for a name; and the connections that the users of the handles have got are there. -/
theorem handles_safe {run : List (Event H P R)} {s : State H P R}
    (hrun : run.foldlM step {} = some s) :
    s.fault = false ∧
    (∀ x ∈ s.handles.live, ∀ p, s.handles.ptr x = some p →
      ∃ i, s.hinfos p = some i ∧ s.hmap i.m = some p ∧ i.refcnt = s.handles.count p) ∧
    (∀ i ∈ s.deleted, i.refcnt = 0) ∧
    (∀ p q i j, s.hinfos p = some i → s.hinfos q = some j → i.m = j.m → p = q) ∧
    ∀ x ∈ s.handles.live, ∀ r, s.conn x = some r → s.rpccs r = true := by
  have h : Inv s := run_induction (fun _ _ _ ↦ Inv.step) Inv.init hrun
  refine ⟨h.ok, fun x hx p hp ↦ ?_, h.deleted, fun p q i j hi hj hm ↦ ?_, fun x hx r hr ↦ ?_⟩
  · obtain ⟨i, hi⟩ := h.counts.held x hx p hp
    exact ⟨i, hi, h.names.owned p i hi, h.counts.count p i hi⟩
  · have hp := h.names.owned p i hi
    rw [hm, h.names.owned q j hj] at hp
    exact (Option.some_inj.1 hp).symm
  · obtain ⟨p, i, -, hi, hcl⟩ := h.conns.got x hx r hr
    exact h.conns.alive p i r hi (Or.inl hcl)

/-- Two callbacks to one client, and a bind that fails for another.  The client is deleted while
both have its connection. -/
def callbacks : List (Event ℕ ℕ ℕ) :=
  [.construct 0 "a" 0, .safebind 0 0, .construct 1 "a" 1, .bound 0 true, .safebind 1 1,
    .construct 2 "b" 1, .safebind 2 1, .deleteHandle "a", .bound 2 false, .call 0, .destroy 0,
    .construct 3 "a" 2, .call 1, .destroy 1, .destroy 2, .construct 4 "a" 0]

theorem handles_safe_callbacks : ∃ s : State ℕ ℕ ℕ, callbacks.foldlM step {} = some s ∧
    s.deleted.length = 2 ∧ s.handles.live = {3, 4} ∧ s.fault = false := by
  have hend : (callbacks.foldlM step ({} : State ℕ ℕ ℕ)).map
      (fun s ↦ (s.deleted.length, s.handles.live)) = some (2, {3, 4}) := by decide +kernel
  obtain ⟨s, hs, hs'⟩ := Option.map_eq_some_iff.1 hend
  obtain ⟨hdel, hlive⟩ := Prod.mk.inj hs'
  exact ⟨s, hs, hdel, hlive, (handles_safe hs).1⟩

end Runs

end Handle
end Rpc
end Yfs
