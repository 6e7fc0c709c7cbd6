import Yfs.Machine.Serial
import Yfs.Client.Ops

/-!
# Clients of one file system

What the clients share is the extent server and the locks.  The extent server is a map of files
(`Extent.Store`) and every RPC to it is atomic.  It replies to a request about a number that no file
has, too: there is nothing in such a file, it has no attributes, and removing it does nothing.  Only
writing to it brings the server down.  A lock is held or free, and whoever acquires a lock that is
held has to wait.

Two commands can be exchanged if they are not for one lock, not for one inode, and do not both
change which inodes are live (`swaps`).
-/

set_option autoImplicit false

namespace Yfs
namespace Client

open Machine
open Extent (Attr File Store inumOf)

/-- The files and the locks. -/
structure State where
  files : Store
  held : Nat → Bool := fun _ ↦ false

/-- A request about one inode: the reply, and the file afterwards. -/
def touch : (c : Cmd) → Option File → Option (c.Ans × Option File)
  | .get _, f => some (.ok ((f.map File.data).getD []), f)
  | .getattr _, f =>
    some (.ok ((f.map fun f ↦ { type := f.type, size := f.data.length }).getD {}), f)
  | .put _ buf, f => f.map fun f ↦ (.ok (), some { f with data := buf })
  | .remove _, _ => some (.ok (), none)
  | _, _ => none

/-- The file system executes a command; `none` if it waits for a lock, or if the extent server goes
down.  The extent server is a map here that has room for everything; what it is on a disk, is said
in other files. -/
def handler : (c : Cmd) → State → Option (c.Ans × State)
  | .acquire lid, s =>
    if s.held lid then none else some ((), { s with held := Function.update s.held lid true })
  | .release lid, s => some ((), { s with held := Function.update s.held lid false })
  | .create type, s =>
    s.files.firstFree.map fun i ↦
      (.ok i, { s with files := Function.update s.files i (some ⟨type, []⟩) })
  | .get id, s => inodeAt id (.get id) s
  | .getattr id, s => inodeAt id (.getattr id) s
  | .put id buf, s => inodeAt id (.put id buf) s
  | .remove id, s => inodeAt id (.remove id) s
where
  inodeAt (id : Nat) (c : Cmd) (s : State) : Option (c.Ans × State) :=
    (touch c (s.files (inumOf id))).map fun r ↦
      (r.1, { s with files := Function.update s.files (inumOf id) r.2 })

/-! ## The extent server

The map is the one that the extent server keeps, and a request that the server makes a promise about
is answered as promised. -/

/-- The request that a command is. -/
def Cmd.request : Cmd → Option Extent.Request
  | .create type => some (.create type)
  | .get id => some (.get id)
  | .getattr id => some (.getattr id)
  | .put id buf => some (.put id buf)
  | .remove id => some (.remove id)
  | _ => none

/-- The reply that an answer is made from. -/
def replyOf : Act Cmd.Ans → Option Extent.Reply
  | ⟨.create _, .ok i⟩ => some (.id i)
  | ⟨.get _, .ok buf⟩ => some (.content buf)
  | ⟨.getattr _, .ok a⟩ => some (.attr a)
  | ⟨.put _ _, .ok ()⟩ | ⟨.remove _, .ok ()⟩ => some .ok
  | _ => none

/-- **Every RPC that succeeds does what the extent server does.** -/
theorem handler_of_step {σ σ' : Store} {c : Cmd} {q : Extent.Request} {r : Extent.Ret}
    (hq : c.request = some q) (h : σ.step q.call = some (r, σ')) (held : Nat → Bool) :
    ∃ a, handler c ⟨σ, held⟩ = some (a, ⟨σ', held⟩) ∧ replyOf ⟨c, a⟩ = some r.reply := by
  cases c with
  | acquire lid => exact absurd hq (by simp [Cmd.request])
  | release lid => exact absurd hq (by simp [Cmd.request])
  | create type =>
    obtain rfl := Option.some_inj.1 hq
    obtain ⟨-, i, hi, rfl, rfl⟩ := Store.of_allocInode h
    exact ⟨.ok i, by simp only [handler, hi, Option.map_some], rfl⟩
  | get id =>
    obtain rfl := Option.some_inj.1 hq
    simp only [Extent.Request.call, Store.step, Option.map_eq_some_iff] at h
    obtain ⟨f, hf, he⟩ := h
    obtain ⟨rfl, rfl⟩ := Prod.mk.inj he
    refine ⟨.ok f.data, ?_, rfl⟩
    simp only [handler, handler.inodeAt, touch, Option.map_some, Function.update_eq_self]
    rw [hf]
    rfl
  | getattr id =>
    obtain rfl := Option.some_inj.1 hq
    simp only [Extent.Request.call, Store.step, Option.map_eq_some_iff] at h
    obtain ⟨f, hf, he⟩ := h
    obtain ⟨rfl, rfl⟩ := Prod.mk.inj he
    refine ⟨.ok { type := f.type, size := f.data.length }, ?_, rfl⟩
    simp only [handler, handler.inodeAt, touch, Option.map_some, Function.update_eq_self]
    rw [hf]
    rfl
  | put id buf =>
    obtain rfl := Option.some_inj.1 hq
    obtain ⟨f, hf, -, -, rfl, rfl⟩ := Store.of_writeFile h
    refine ⟨.ok (), ?_, rfl⟩
    simp only [handler, handler.inodeAt, touch, hf, Option.map_some]
  | remove id =>
    obtain rfl := Option.some_inj.1 hq
    simp only [Extent.Request.call, Store.step, Option.map_eq_some_iff] at h
    obtain ⟨f, -, he⟩ := h
    obtain ⟨rfl, rfl⟩ := Prod.mk.inj he
    exact ⟨.ok (), rfl, rfl⟩

/-! ## What a command touches -/

namespace Cmd

/-- The lock that the command is for. -/
def lock : Cmd → Option Nat
  | acquire lid | release lid => some lid
  | _ => none

/-- The inode that the command is for, if it is in the request. -/
def inode : Cmd → Option Nat
  | get id | getattr id | put id _ | remove id => some (inumOf id)
  | _ => none

/-- Whether the command changes which inodes are live. -/
def allocates : Cmd → Bool
  | create _ | remove _ => true
  | _ => false

end Cmd

/-- The inode that a command with its answer is for. -/
def inodeOf : Act Cmd.Ans → Option Nat
  | ⟨.create _, .ok i⟩ => some i
  | ⟨c, _⟩ => c.inode

/-- Two commands are for one lock or for one inode, or both change which inodes are live. -/
def Conflict (x y : Act Cmd.Ans) : Prop :=
  (∃ lid, x.cmd.lock = some lid ∧ y.cmd.lock = some lid) ∨
    (∃ i, inodeOf x = some i ∧ inodeOf y = some i) ∨
    (x.cmd.allocates = true ∧ y.cmd.allocates = true)

variable {s s' : State} {σ : Store} {x y : Act Cmd.Ans}

/-- The first free inode depends only on which inodes are live. -/
theorem firstFree_update {i : Nat} {o : Option File} (h : o.isNone = (σ i).isNone) :
    Store.firstFree (Function.update σ i o) = σ.firstFree := by
  rw [Store.firstFree, Store.firstFree]
  congr 1
  funext j
  rw [Function.update_apply]
  split
  · rename_i e
    rw [e, h]
  · rfl

/-- A command that is for a lock. -/
structure LockStep (x : Act Cmd.Ans) (s s' : State) (lid : Nat) (b : Bool) : Prop where
  lock : x.cmd.lock = some lid
  eq : s' = ⟨s.files, Function.update s.held lid b⟩
  /-- It does the same in every state in which the lock is the same. -/
  again : ∀ s₁ : State, s₁.held lid = s.held lid →
    handler x.cmd s₁ = some (x.ans, ⟨s₁.files, Function.update s₁.held lid b⟩)

/-- A command that is for an inode. -/
structure InodeStep (x : Act Cmd.Ans) (s s' : State) (i : Nat) (o : Option File) : Prop where
  inode : inodeOf x = some i
  eq : s' = ⟨Function.update s.files i o, s.held⟩
  live : x.cmd.allocates = false → o.isNone = (s.files i).isNone
  /-- It does the same in every state in which the inode is the same. -/
  again : ∀ s₁ : State, s₁.files i = s.files i →
    handler x.cmd s₁ = some (x.ans, ⟨Function.update s₁.files i o, s₁.held⟩)

/-- A command that makes an inode. -/
structure CreateStep (x : Act Cmd.Ans) (s s' : State) (i : Nat) (f : File) : Prop where
  inode : inodeOf x = some i
  allocates : x.cmd.allocates = true
  free : s.files.firstFree = some i
  eq : s' = ⟨Function.update s.files i (some f), s.held⟩
  /-- It does the same in every state in which the same inode is the first free one. -/
  again : ∀ s₁ : State, s₁.files.firstFree = some i →
    handler x.cmd s₁ = some (x.ans, ⟨Function.update s₁.files i (some f), s₁.held⟩)

theorem touch_isNone {c : Cmd} {a : c.Ans} {f o : Option File} (hc : c.allocates = false)
    (h : touch c f = some (a, o)) : o.isNone = f.isNone := by
  cases c with
  | get id => rw [(Prod.mk.inj (Option.some_inj.1 h)).2]
  | getattr id => rw [(Prod.mk.inj (Option.some_inj.1 h)).2]
  | put id buf =>
    rw [touch, Option.map_eq_some_iff] at h
    obtain ⟨f, rfl, h⟩ := h
    rw [← (Prod.mk.inj h).2]
    rfl
  | remove id => exact absurd hc (by simp [Cmd.allocates])
  | acquire lid => exact absurd h (by simp [touch])
  | release lid => exact absurd h (by simp [touch])
  | create type => exact absurd h (by simp [touch])

theorem handler_inodeAt {id : Nat} {c : Cmd} {a : c.Ans}
    (hin : inodeOf ⟨c, a⟩ = some (inumOf id)) (heq : handler c = handler.inodeAt id c)
    (h : handler c s = some (a, s')) :
    ∃ o, touch c (s.files (inumOf id)) = some (a, o) ∧ InodeStep ⟨c, a⟩ s s' (inumOf id) o := by
  rw [heq, handler.inodeAt, Option.map_eq_some_iff] at h
  obtain ⟨⟨b, o⟩, ht, he⟩ := h
  obtain ⟨rfl, rfl⟩ := Prod.mk.inj he
  refine ⟨o, ht, hin, rfl, fun hc ↦ touch_isNone hc ht, fun s₁ hs₁ ↦ ?_⟩
  rw [heq]
  simp only [handler.inodeAt, hs₁, ht, Option.map_some]

theorem handler_create {type : Nat} {a : Cmd.Ans (.create type)}
    (h : handler (.create type) s = some (a, s')) :
    ∃ i, a = .ok i ∧ CreateStep ⟨.create type, .ok i⟩ s s' i ⟨type, []⟩ := by
  rw [handler, Option.map_eq_some_iff] at h
  obtain ⟨i, hi, he⟩ := h
  obtain ⟨rfl, rfl⟩ := Prod.mk.inj he
  refine ⟨i, rfl, rfl, rfl, hi, rfl, fun s₁ hs₁ ↦ ?_⟩
  simp only [handler, hs₁, Option.map_some]

/-- **What a command does.** -/
theorem handler_cases (h : handler x.cmd s = some (x.ans, s')) :
    (∃ lid b, LockStep x s s' lid b) ∨ (∃ i o, InodeStep x s s' i o) ∨
      ∃ i f, CreateStep x s s' i f := by
  obtain ⟨c, a⟩ := x
  cases c with
  | acquire lid =>
    rw [handler] at h
    split at h
    · exact absurd h (by simp)
    · rename_i hfree
      obtain ⟨rfl, rfl⟩ := Prod.mk.inj (Option.some_inj.1 h)
      refine Or.inl ⟨lid, true, rfl, rfl, fun s₁ hs₁ ↦ ?_⟩
      rw [handler, if_neg (by rw [hs₁]; exact hfree)]
  | release lid =>
    rw [handler] at h
    obtain ⟨rfl, rfl⟩ := Prod.mk.inj (Option.some_inj.1 h)
    exact Or.inl ⟨lid, false, rfl, rfl, fun s₁ _ ↦ rfl⟩
  | create type =>
    obtain ⟨i, rfl, hx⟩ := handler_create h
    exact Or.inr (Or.inr ⟨i, _, hx⟩)
  | get id =>
    obtain ⟨o, -, hx⟩ := handler_inodeAt rfl rfl h
    exact Or.inr (Or.inl ⟨_, o, hx⟩)
  | getattr id =>
    obtain ⟨o, -, hx⟩ := handler_inodeAt rfl rfl h
    exact Or.inr (Or.inl ⟨_, o, hx⟩)
  | put id buf =>
    obtain ⟨o, -, hx⟩ := handler_inodeAt rfl rfl h
    exact Or.inr (Or.inl ⟨_, o, hx⟩)
  | remove id =>
    obtain ⟨o, -, hx⟩ := handler_inodeAt rfl rfl h
    exact Or.inr (Or.inl ⟨_, o, hx⟩)

/-! ## Commands that can be exchanged -/

theorem LockStep.swap {s₁ : State} {lid : Nat} {b : Bool} (hx : LockStep x s s₁ lid b)
    (hy : handler y.cmd s₁ = some (y.ans, s')) (hc : ¬ Conflict x y) :
    Trace handler s [y, x] s' := by
  have hs₁ := hx.eq
  rcases handler_cases hy with ⟨lid', b', h⟩ | ⟨i, o, h⟩ | ⟨i, f, h⟩
  · have hne : lid ≠ lid' := fun e ↦ hc (Or.inl ⟨lid, hx.lock, e ▸ h.lock⟩)
    refine .cons (h.again s ?_) (.single ?_)
    · rw [hs₁]
      exact (Function.update_of_ne (Ne.symm hne) _ _).symm
    · rw [hx.again _ (Function.update_of_ne hne _ _), h.eq, hs₁]
      simp only [Function.update_comm hne]
  · refine .cons (h.again s (by rw [hs₁])) (.single ?_)
    refine Eq.trans (hx.again _ rfl) ?_
    rw [h.eq, hs₁]
  · refine .cons (h.again s ?_) (.single (Eq.trans (hx.again _ rfl) ?_))
    · rw [← h.free, hs₁]
    · rw [h.eq, hs₁]

theorem InodeStep.swap {s₁ : State} {i : Nat} {o : Option File} (hx : InodeStep x s s₁ i o)
    (hy : handler y.cmd s₁ = some (y.ans, s')) (hc : ¬ Conflict x y) :
    Trace handler s [y, x] s' := by
  have hs₁ := hx.eq
  rcases handler_cases hy with ⟨lid, b, h⟩ | ⟨j, o', h⟩ | ⟨j, f, h⟩
  · refine .cons (h.again s (by rw [hs₁])) (.single ?_)
    refine Eq.trans (hx.again _ rfl) ?_
    rw [h.eq, hs₁]
  · have hne : i ≠ j := fun e ↦ hc (Or.inr (Or.inl ⟨i, hx.inode, e ▸ h.inode⟩))
    refine .cons (h.again s ?_) (.single ?_)
    · rw [hs₁]
      exact (Function.update_of_ne (Ne.symm hne) _ _).symm
    · rw [hx.again _ (Function.update_of_ne hne _ _), h.eq, hs₁]
      simp only [Function.update_comm hne]
  · have hne : i ≠ j := fun e ↦ hc (Or.inr (Or.inl ⟨i, hx.inode, e ▸ h.inode⟩))
    have hkeep : x.cmd.allocates = false := by
      rw [Bool.eq_false_iff]
      exact fun ha ↦ hc (Or.inr (Or.inr ⟨ha, h.allocates⟩))
    refine .cons (h.again s ?_) (.single ?_)
    · rw [← h.free, hs₁]
      exact (firstFree_update (hx.live hkeep)).symm
    · rw [hx.again _ (Function.update_of_ne hne _ _), h.eq, hs₁]
      simp only [Function.update_comm hne]

theorem CreateStep.swap {s₁ : State} {i : Nat} {f : File} (hx : CreateStep x s s₁ i f)
    (hy : handler y.cmd s₁ = some (y.ans, s')) (hc : ¬ Conflict x y) :
    Trace handler s [y, x] s' := by
  have hs₁ := hx.eq
  rcases handler_cases hy with ⟨lid, b, h⟩ | ⟨j, o, h⟩ | ⟨j, f', h⟩
  · refine .cons (h.again s (by rw [hs₁])) (.single ?_)
    refine Eq.trans (hx.again _ hx.free) ?_
    rw [h.eq, hs₁]
  · have hne : i ≠ j := fun e ↦ hc (Or.inr (Or.inl ⟨i, hx.inode, e ▸ h.inode⟩))
    have hkeep : y.cmd.allocates = false := by
      rw [Bool.eq_false_iff]
      exact fun ha ↦ hc (Or.inr (Or.inr ⟨hx.allocates, ha⟩))
    have hj : s₁.files j = s.files j := by
      rw [hs₁]
      exact Function.update_of_ne (Ne.symm hne) _ _
    refine .cons (h.again s hj.symm) (.single ?_)
    · rw [hx.again _ ?_, h.eq, hs₁]
      · simp only [Function.update_comm hne]
      · rw [← hx.free]
        exact firstFree_update (by rw [h.live hkeep, hj])
  · exact absurd (Or.inr (Or.inr ⟨hx.allocates, h.allocates⟩)) hc

/-- **Commands that are not in conflict can be exchanged.** -/
theorem swaps (hc : ¬ Conflict x y) : Swaps handler x y := by
  intro s s' ht
  cases ht with
  | cons hx ht =>
    cases ht with
    | cons hy hnil =>
      cases hnil
      rcases handler_cases hx with ⟨lid, b, h⟩ | ⟨i, o, h⟩ | ⟨i, f, h⟩
      · exact h.swap hy hc
      · exact h.swap hy hc
      · exact h.swap hy hc

end Client
end Yfs
