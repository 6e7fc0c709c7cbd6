import Yfs.Machine.Simulation
import Yfs.Lock.Pool
import Yfs.Client.EndToEnd
import Yfs.Client.Linear

/-!
# The file system as it is deployed

In the other files about clients a lock is a bit that one step sets and another one clears, and the
extent server is a map.  Here both are what they are in the program.  The locks are those of the
caching lock service, with its messages in flight, its queues, its revokes and its six dispatch
threads; a call of `acquire` or `release` takes as many steps as the service needs for it.  The
files are on the disk of the extent server.  It has six dispatch threads, too, and its handlers read
and write one block at a time.  The operations of all clients take steps in any order
(`Deployed.step`).

A step of the deployed system is a step of the simple one, or nothing that an operation can see
(`Refines.step`): an `acquire` takes effect when it returns, a `release` when it is called, and a
request when its reply is sent.  So what is true of the simple system is true of this one, as long
as the extent server handles one request at a time, which nothing in the code makes it do.
-/

set_option autoImplicit false

namespace Yfs
namespace Client

open Machine
open Extent (Disk DiskM Env Rep Store inumOf)
open Lock (Cluster OnlyThread Tenure TenureStep poolSize poolStep)

/-! ## The system -/

/-- The lock service, the extent server, and the operations with what they have done. -/
structure Deployed (C ι : Type) where
  locks : Lock.State C ι := {}
  disk : Disk
  /-- How many requests the extent server has dispatched. -/
  served : Nat := 0
  /-- What the handler of an operation's request has yet to do, if the request has been
  dispatched. -/
  handling : ι → Option (DiskM Extent.Reply) := fun _ ↦ none
  prog : ι → ClientM Result
  hist : List (ι × Act Cmd.Ans) := []

/-- The lock that protects an inode. -/
def lockId (inum : Nat) : Lock.Lid := UInt64.ofNat inum

/-- The operations have been called, and nobody has a lock. -/
def deployed {C ι : Type} (disk : Disk) (op : ι → Op) : Deployed C ι :=
  { disk := disk, prog := fun t ↦ (op t).prog }

/-- An assertion in a handler has failed. -/
def crashed : Option (DiskM Extent.Reply) → Bool
  | some (.throw _) => true
  | _ => false

namespace Deployed

variable {C ι : Type} [DecidableEq C] [DecidableEq ι] [Fintype ι]

/-- Operation `t` goes on with the answer to a command. -/
def resume (D : Deployed C ι) (t : ι) (c : Cmd) (a : c.Ans) (k : c.Ans → ClientM Result) :
    Deployed C ι :=
  { D with prog := Function.update D.prog t (k a), hist := D.hist ++ [(t, ⟨c, a⟩)] }

/-- The handler of operation `t`'s request has come to this point. -/
def handle (D : Deployed C ι) (t : ι) (p : Option (DiskM Extent.Reply)) : Deployed C ι :=
  { D with handling := Function.update D.handling t p }

/-- A step inside a call of `acquire` or `release`.  While the call goes on, the lock is to the
operation one of `during`, and it returns when the lock has come to be `g`. -/
def lockStep (N : Cluster C ι) (D : Deployed C ι) (t : ι) (lid : Nat) (during : List Tenure)
    (g : Tenure) (ret : Deployed C ι → Deployed C ι) : Option (Deployed C ι) :=
  (D.locks.call (poolStep N) t (lockId lid) during g).map fun (locks, returned) ↦
    if returned then ret { D with locks := locks } else { D with locks := locks }

/-- A step for a request of operation `t`.  It is dispatched when there is a free thread; then the
handler reads or writes a block at a time; and then the client makes an answer of the reply.
Nothing happens any more once the process is down. -/
def extentStep (envs : Nat → Env) (D : Deployed C ι) (t : ι) (q : Extent.Request) (c : Cmd)
    (k : c.Ans → ClientM Result) : Option (Deployed C ι) :=
  if ∃ u, crashed (D.handling u) = true then none
  else
    match D.handling t with
    | none =>
      if (Finset.univ.filter fun u ↦ (D.handling u).isSome).card < poolSize then
        some { D.handle t (some (Extent.serve (envs D.served) q)) with served := D.served + 1 }
      else none
    | some (.call m j) =>
      some { D.handle t (some (j (m.exec D.disk).1)) with disk := (m.exec D.disk).2 }
    | some (.pure r) => (answer c r).map fun a ↦ (D.handle t none).resume t c a k
    | some (.throw _) => none

/-- Operation `t` takes a step.  An operation that acquires a lock which it has, or releases one
which it does not have, is not accounted for; there is none. -/
def step (N : Cluster C ι) (envs : Nat → Env) (D : Deployed C ι) (t : ι) :
    Option (Deployed C ι) :=
  match D.prog t with
  | .call (.acquire lid) k =>
    D.lockStep N t lid [.out, .acquiring] .held fun D ↦ D.resume t (.acquire lid) () k
  | .call (.release lid) k =>
    D.lockStep N t lid [.held, .releasing] .out fun D ↦ D.resume t (.release lid) () k
  | .call c k => c.request.bind fun q ↦ D.extentStep envs t q c k
  | _ => none

/-- The operation has come to its end. -/
def Ended (D : Deployed C ι) (t : ι) : Prop := ∃ o, D.prog t = .ofExcept o

/-- The inode that the operation is about exists, when it begins: it is one of those that were
there, or the operation that has made it has ended. -/
def Existing (op : ι → Op) (σ : Store) (D : Deployed C ι) (t : ι) : Prop :=
  t ∉ D.hist.map Prod.fst →
    inumOf (op t).target = (op t).target ∧ (σ (op t).target ≠ none ∨
      ∃ e ∈ D.hist, ∃ type, e.2 = ⟨.create type, .ok (op t).target⟩ ∧ D.Ended e.1)

/-- If the next step of the operation is to have a request dispatched, then it is one that the
extent server makes a promise about. -/
def Promised (D : Deployed C ι) (t : ι) : Prop :=
  D.handling t = none → ∀ c k, D.prog t = .call c k →
    Client.Promised c ⟨D.disk.files, fun _ ↦ false⟩

/-- If the next step of the operation is to have a request dispatched, then no other is being
handled. -/
def Alone (D : Deployed C ι) (t : ι) : Prop :=
  D.handling t = none → ∀ c k, D.prog t = .call c k → c.request ≠ none → ∀ u, D.handling u = none

/-- If the next step of the operation is to have an `acquire` dispatched, then there are fewer than
five `acquire` handlers on the lock server. -/
def Roomy (D : Deployed C ι) (t : ι) : Prop :=
  ∀ lid k, D.prog t = .call (.acquire lid) k → Lock.Roomy D.locks (t, lockId lid)

end Deployed

/-! ## Refinement -/

/-- An operation of the deployed system and the same operation of the simple one.  They are at the
same place in the program, except that a `release` which has been called may not have returned. -/
inductive Matches (target : Nat) : Tenure → Phase → ClientM Result → ClientM Result → Prop
  | out (p : ClientM Result) : Matches target .out .idle p p
  | acquiring (p : ClientM Result) : Matches target .acquiring .idle p p
  | held (made : Option Nat) (p : ClientM Result) : Matches target .held (.holding made) p p
  | releasing (made : Option Nat) (k : Unit → ClientM Result) :
      Matches target .releasing (.done made) (.call (.release target) k) (k ())
  | done (made : Option Nat) (p : ClientM Result) : Matches target .out (.done made) p p

variable {C ι : Type}

/-- The disk holds these files and no request is being handled; or one is, it has begun on a disk
that holds these files, and will end as if it had been alone. -/
inductive OnDisk (D : Deployed C ι) (σ : Store) : Prop
  | quiet (hrep : Rep D.disk σ) (hidle : ∀ u, D.handling u = none)
  | handling {u : ι} {c : Cmd} {k : c.Ans → ClientM Result} {q : Extent.Request}
      {p : DiskM Extent.Reply} {env : Env} {d : Disk} (hprog : D.prog u = .call c k)
      (hq : c.request = some q) (hprom : (σ.step q.call).isSome = true) (hrep : Rep d σ)
      (hp : D.handling u = some p)
      (hexec : Extent.exec p D.disk = Extent.exec (Extent.serve env q) d)
      (hidle : ∀ t, t ≠ u → D.handling t = none)

variable {N : Cluster C ι} {envs : Nat → Env} {op : ι → Op} {σ : Store} {D D' : Deployed C ι}
  {P P' : Clients ι} {phase phase' : ι → Phase} {t : ι}

/-- The deployed system is in a state of the simple one. -/
structure Refines (N : Cluster C ι) (op : ι → Op) (D : Deployed C ι) (P : Clients ι)
    (phase : ι → Phase) : Prop where
  locks : D.locks.Ok N
  disk : OnDisk D P.state.files
  busy : ∀ t, D.locks.busy t = none ∨ D.locks.busy t = some (lockId (op t).target)
  /-- An operation has to do with one lock only. -/
  away : ∀ t lid, lid ≠ lockId (op t).target → D.locks.tenure lid t = .out
  thread : ∀ t, Matches (op t).target (D.locks.tenure (lockId (op t).target) t) (phase t)
    (D.prog t) (P.prog t)
  held : ∀ lid, P.state.held lid = true → ∃ t, (phase t).Holds ∧ (op t).target = lid
  begun : ∀ t ∈ D.hist.map Prod.fst, t ∈ P.hist.map Prod.fst
  created : ∀ u type i, (u, (⟨.create type, .ok i⟩ : Act Cmd.Ans)) ∈ D.hist →
    (u, (⟨.create type, .ok i⟩ : Act Cmd.Ans)) ∈ P.hist
  respects : ∀ t, (P.prog t).Respects Cmd.Same

/-! ### One operation -/

theorem Move.of_acquire {op : Op} {g g' : Phase} {s s' : State} {lid : Nat}
    (h : Move op g ⟨.acquire lid, ()⟩ s s' g') : g' = .holding none := by
  cases h with
  | acquire => rfl
  | access _ hx => exact absurd (lock_eq_none hx.inode) (by simp [Cmd.lock])

theorem Move.of_release {op : Op} {g g' : Phase} {s s' : State} {lid : Nat}
    (h : Move op g ⟨.release lid, ()⟩ s s' g') : ∃ made, g' = .done made := by
  cases h with
  | release => exact ⟨_, rfl⟩
  | access _ hx => exact absurd (lock_eq_none hx.inode) (by simp [Cmd.lock])

/-- A request is made with the lock held. -/
theorem Move.of_request {op : Op} {g g' : Phase} {x : Act Cmd.Ans} {s s' : State}
    {q : Extent.Request} (h : Move op g x s s' g') (hq : x.cmd.request = some q) :
    ∃ made, g' = .holding made := by
  cases h with
  | acquire => exact absurd hq (by simp [Cmd.request])
  | release => exact absurd hq (by simp [Cmd.request])
  | access | create | remove => exact ⟨_, rfl⟩

/-! What the next command of an operation says about where it is. -/

namespace Matches

variable {target lid : Nat} {rm : Bool} {g : Tenure} {ph : Phase} {p p' : ClientM Result}
  {Q : Phase → Result → Prop} {R : Phase → Prop}

theorem of_acquire {k : Unit → ClientM Result} (h : Matches target g ph p p')
    (hp : p = .call (.acquire lid) k) (hob : p'.Obeys (discipline target rm) Q R ph) :
    lid = target ∧ ph = .idle ∧ p' = p ∧ (g = .out ∨ g = .acquiring) := by
  cases h with
  | out p | acquiring p =>
    subst hp
    exact ⟨hob.1, rfl, rfl, by simp⟩
  | held made p | done made p =>
    subst hp
    exact hob.1.elim
  | releasing made k' => exact absurd (Prog.call.inj hp).1 (by simp)

theorem of_release {k : Unit → ClientM Result} (h : Matches target g ph p p')
    (hp : p = .call (.release lid) k) (hob : p'.Obeys (discipline target rm) Q R ph) :
    lid = target ∧ ((g = .held ∧ p' = p) ∨ (g = .releasing ∧ p' = k () ∧
      ∃ made, ph = .done made)) := by
  cases h with
  | held made p =>
    subst hp
    exact ⟨hob.1, Or.inl ⟨rfl, rfl⟩⟩
  | releasing made k' =>
    obtain ⟨hc, hk⟩ := Prog.call.inj hp
    obtain rfl := Cmd.release.inj hc
    obtain rfl := eq_of_heq hk
    exact ⟨rfl, Or.inr ⟨rfl, rfl, made, rfl⟩⟩
  | out p | acquiring p | done made p =>
    subst hp
    exact hob.1.elim

theorem of_request {c : Cmd} {k : c.Ans → ClientM Result} {q : Extent.Request}
    (h : Matches target g ph p p') (hp : p = .call c k) (hq : c.request = some q)
    (hob : p'.Obeys (discipline target rm) Q R ph) : g = .held ∧ p' = p := by
  cases h with
  | held made p => exact ⟨rfl, rfl⟩
  | releasing made k' =>
    obtain ⟨rfl, -⟩ := Prog.call.inj hp
    exact absurd hq (by simp [Cmd.request])
  | out p | acquiring p =>
    subst hp
    cases c with
    | acquire lid => exact absurd hq (by simp [Cmd.request])
    | _ => exact hob.1.elim
  | done made p =>
    subst hp
    cases c <;> exact hob.1.elim

theorem held_of_holds (h : Matches target g ph p p') (hh : ph.Holds) : g = .held := by
  obtain ⟨made, hh⟩ := hh
  cases h with
  | held made p => rfl
  | _ => exact absurd hh (by simp)

theorem of_ended (h : Matches target g ph p p') {o : Except Fault Result} (hp : p = .ofExcept o) :
    p' = .ofExcept o := by
  cases h with
  | releasing made k => cases o <;> exact absurd hp (by simp [Prog.ofExcept])
  | _ => exact hp

/-- An operation that waits for a lock is inside `acquire`. -/
theorem of_acquiring (h : Matches target g ph p p') (hg : g = .acquiring)
    (hob : p'.Obeys (discipline target rm) (fun g _ ↦ g.Done) Phase.Holds ph) :
    ∃ k, p = .call (.acquire target) k := by
  cases h with
  | acquiring p =>
    cases p with
    | pure r | throw e =>
      obtain ⟨made, hd⟩ := hob
      exact absurd hd (by simp)
    | call c k =>
      cases c with
      | acquire lid =>
        obtain rfl : lid = target := hob.1
        exact ⟨k, rfl⟩
      | _ => exact hob.1.elim
  | _ => exact absurd hg (by simp)

theorem of_releasing (h : Matches target g ph p p') (hg : g = .releasing) :
    ∃ k, p = .call (.release target) k := by
  cases h with
  | releasing made k => exact ⟨k, rfl⟩
  | _ => exact absurd hg (by simp)

/-- An operation that has the lock has not been ended by anything but a crash. -/
theorem crashed_of_held (h : Matches target g ph p p') (hg : g = .held) {o : Except Fault Result}
    (hp : p = .ofExcept o) (hob : p'.Obeys (discipline target rm) (fun g _ ↦ g.Done) R ph) :
    ∃ e, p = .throw e := by
  cases h with
  | held made p =>
    subst hp
    cases o with
    | ok r =>
      obtain ⟨made', hd⟩ := hob
      exact absurd hd (by simp)
    | error e => exact ⟨e, rfl⟩
  | _ => exact absurd hg (by simp)

end Matches

/-! ### The disk -/

namespace OnDisk

/-- An operation that has nothing to do with the disk has gone on. -/
theorem of_lock (h : OnDisk D σ) (hdisk : D'.disk = D.disk) (hhandling : D'.handling = D.handling)
    (hprog : ∀ u, u ≠ t → D'.prog u = D.prog u)
    (ht : ∀ c k, D.prog t = .call c k → c.request = none) : OnDisk D' σ := by
  cases h with
  | quiet hrep hidle => exact .quiet (hdisk ▸ hrep) (hhandling ▸ hidle)
  | @handling u c k q p env d hp hq hprom hrep hu hexec hidle =>
    have hne : u ≠ t := by
      rintro rfl
      exact absurd (hq.symm.trans (ht c k hp)) (by simp)
    exact .handling ((hprog u hne).trans hp) hq hprom hrep (hhandling ▸ hu) (hdisk ▸ hexec)
      (hhandling ▸ hidle)

theorem rep_of_idle (h : OnDisk D σ) (hidle : ∀ u, D.handling u = none) : Rep D.disk σ := by
  cases h with
  | quiet hrep => exact hrep
  | @handling u _ _ _ _ _ _ _ _ _ _ hu => exact absurd ((hidle u).symm.trans hu) (by simp)

/-- A handler that is at work is the only one, and works on the request of its operation. -/
theorem of_handling {c : Cmd} {k : c.Ans → ClientM Result} {q : Extent.Request}
    {p : DiskM Extent.Reply} (h : OnDisk D σ) (ht : D.handling t = some p)
    (hp : D.prog t = .call c k) (hq : c.request = some q) :
    (σ.step q.call).isSome = true ∧ (∀ u, u ≠ t → D.handling u = none) ∧
      ∃ env d, Rep d σ ∧ Extent.exec p D.disk = Extent.exec (Extent.serve env q) d := by
  cases h with
  | quiet hrep hidle => exact absurd ((hidle t).symm.trans ht) (by simp)
  | @handling u c' k' q' p' env d hp' hq' hprom hrep hu hexec hidle =>
    obtain rfl : t = u := by
      by_contra hne
      exact absurd ((hidle t hne).symm.trans ht) (by simp)
    obtain rfl := Option.some_inj.1 (ht.symm.trans hu)
    obtain ⟨rfl, -⟩ := Prog.call.inj (hp.symm.trans hp')
    obtain rfl := Option.some_inj.1 (hq.symm.trans hq')
    exact ⟨hprom, hidle, env, d, hrep, hexec⟩

end OnDisk

/-- What the map answers, a handler replies, when it is alone. -/
theorem exists_exec {d : Disk} {c : Cmd} {q : Extent.Request} {s s' : State} {a : c.Ans} (env : Env)
    (hq : c.request = some q) (hprom : Promised c s) (hrep : Rep d s.files)
    (ha : handler c s = some (a, s')) :
    ∃ r d' b, Extent.exec (Extent.serve env q) d = .ok (r, d') ∧ answer c r = some b ∧ c.Same a b ∧
      Rep d' s'.files := by
  obtain ⟨-, r, -, n, b, -, -, hrespond, hn, hb, hsame⟩ := Node.exists_reply (fun _ ↦ env) q
    (n := ⟨d, s.held, 0⟩) hprom ⟨hrep, rfl⟩ ha hq rfl
  rw [Node.respond] at hrespond
  split at hrespond
  · exact absurd hrespond (by simp)
  · rename_i r' d' hexec
    obtain ⟨rfl, rfl⟩ := Prod.mk.inj (Option.some_inj.1 hrespond)
    exact ⟨_, _, b, hexec, hb, hsame, hn.files⟩

/-- What a handler that has come to its end replies, and what it has done. -/
theorem exists_answer {d d' : Disk} {c : Cmd} {q : Extent.Request} {r : Extent.Reply} {env : Env}
    (hq : c.request = some q) (hprom : (σ.step q.call).isSome = true) (hrep : Rep d σ)
    (hexec : Extent.exec (Extent.serve env q) d = .ok (r, d')) (held : Nat → Bool) :
    ∃ a b σ', handler c ⟨σ, held⟩ = some (a, ⟨σ', held⟩) ∧ answer c r = some b ∧ c.Same a b ∧
      Rep d' σ' := by
  obtain ⟨⟨r₀, σ'⟩, hr⟩ := Option.isSome_iff_exists.1 hprom
  obtain ⟨a, ha, -⟩ := handler_of_step hq hr held
  have hprom' : Promised c ⟨σ, held⟩ := by
    intro q' hq'
    obtain rfl := Option.some_inj.1 (hq.symm.trans hq')
    exact hprom
  obtain ⟨r', d₁, b, hexec', hb, hsame, hrep'⟩ := exists_exec env hq hprom' hrep ha
  obtain ⟨rfl, rfl⟩ := Prod.mk.inj (Except.ok.inj (hexec.symm.trans hexec'))
  exact ⟨a, b, σ', ha, hb, hsame, hrep'⟩

namespace Refines

variable (h : Refines N op D P phase)
include h

theorem respects_of_call {c : Cmd} {k : c.Ans → ClientM Result} (hp : P.prog t = .call c k) :
    (∀ a b, c.Same a b → k a = k b) ∧ ∀ a, (k a).Respects Cmd.Same := by
  have hresp := h.respects t
  rwa [hp] at hresp

/-- A command for a lock leaves the disk alone. -/
theorem disk_of_lock {c : Cmd} {k : c.Ans → ClientM Result} (hp : D.prog t = .call c k)
    (hc : c.request = none) (hdisk : D'.disk = D.disk) (hhandling : D'.handling = D.handling)
    (hprog : ∀ u, u ≠ t → D'.prog u = D.prog u) : OnDisk D' P.state.files := by
  refine h.disk.of_lock hdisk hhandling hprog fun c' k' hp' ↦ ?_
  obtain ⟨rfl, -⟩ := Prog.call.inj (hp.symm.trans hp')
  exact hc

end Refines

/-! ### What changes -/

variable [DecidableEq ι]

/-- The simple system can follow: it stays where it is, or takes a step of the same operation. -/
def Simulated (N : Cluster C ι) (op : ι → Op) (D' : Deployed C ι) (P : Clients ι) (t : ι) : Prop :=
  ∃ (acts : List ι) (P' : Clients ι), acts.Sublist [t] ∧ acts.foldlM Client.step P = some P' ∧
    ∃ phase', Locked op P' phase' ∧ Refines N op D' P' phase'

theorem simulated_stutter (hL : Locked op P phase) (h : Refines N op D' P phase) :
    Simulated N op D' P t :=
  ⟨[], P, List.nil_sublist _, rfl, phase, hL, h⟩

theorem simulated_step (hs : Client.step P t = some P') (hL : Locked op P' phase')
    (h : Refines N op D' P' phase') : Simulated N op D' P t :=
  ⟨[t], P', List.Sublist.refl _, by simp [hs], phase', hL, h⟩

namespace Refines

variable (h : Refines N op D P phase)
include h

/-- **Nothing has changed but operation `t`.** -/
theorem frame (hL : Locked op P' phase') (hok : D'.locks.Ok N)
    (honly : OnlyThread D.locks D'.locks t (lockId (op t).target))
    (hD : ∀ u, u ≠ t → D'.prog u = D.prog u) (hP : ∀ u, u ≠ t → P'.prog u = P.prog u)
    (hphase : ∀ u, u ≠ t → phase' u = phase u)
    (hthread : Matches (op t).target (D'.locks.tenure (lockId (op t).target) t) (phase' t)
      (D'.prog t) (P'.prog t))
    (hresp : (P'.prog t).Respects Cmd.Same) (hdisk : OnDisk D' P'.state.files)
    (hheld : ∀ lid, P'.state.held lid = true → ∃ u, (phase' u).Holds ∧ (op u).target = lid)
    (hbegun : ∀ u ∈ D'.hist.map Prod.fst, u ∈ D.hist.map Prod.fst ∨ (u = t ∧ phase' t ≠ .idle))
    (hhist : P.hist ⊆ P'.hist)
    (hcreated : ∀ u type i, (u, (⟨.create type, .ok i⟩ : Act Cmd.Ans)) ∈ D'.hist →
      (u, (⟨.create type, .ok i⟩ : Act Cmd.Ans)) ∈ P'.hist) : Refines N op D' P' phase' where
  locks := hok
  disk := hdisk
  busy u := by
    by_cases hu : u = t
    · subst hu
      exact honly.busy
    · rw [honly.otherBusy u hu]
      exact h.busy u
  away u lid hlid := by
    by_cases hu : u = t
    · subst hu
      rw [honly.other u lid (Or.inr hlid)]
      exact h.away u lid hlid
    · rw [honly.other u lid (Or.inl hu)]
      exact h.away u lid hlid
  thread u := by
    by_cases hu : u = t
    · subst hu
      exact hthread
    · rw [honly.other u _ (Or.inl hu), hphase u hu, hD u hu, hP u hu]
      exact h.thread u
  held := hheld
  begun u hu := by
    rcases hbegun u hu with hold | ⟨rfl, hstart⟩
    · obtain ⟨e, he, rfl⟩ := List.mem_map.1 (h.begun u hold)
      exact List.mem_map_of_mem (hhist he)
    · exact hL.mem_of_started hstart
  created := hcreated
  respects u := by
    by_cases hu : u = t
    · subst hu
      exact hresp
    · rw [hP u hu]
      exact h.respects u

/-- Operation `t` has taken a step in both systems.  In the deployed one it has got an answer, or it
is inside a call that goes on. -/
theorem of_step {x : Act Cmd.Ans} {g' : Phase} (hof : StepOf op P P' phase t x g')
    (hL' : Locked op P' (Function.update phase t g')) (hok : D'.locks.Ok N)
    (honly : OnlyThread D.locks D'.locks t (lockId (op t).target))
    (hD : ∀ u, u ≠ t → D'.prog u = D.prog u)
    (hthread : Matches (op t).target (D'.locks.tenure (lockId (op t).target) t) g'
      (D'.prog t) (P'.prog t))
    (hresp : (P'.prog t).Respects Cmd.Same) (hdisk : OnDisk D' P'.state.files)
    (hheld : P'.state.held (op t).target = true → g'.Holds)
    (hhist : D'.hist = D.hist ∨ ∃ b, D'.hist = D.hist ++ [(t, ⟨x.cmd, b⟩)] ∧ x.cmd.Same x.ans b) :
    Refines N op D' P' (Function.update phase t g') := by
  have hP : P.hist ⊆ P'.hist := by
    rw [hof.hist]
    exact fun e he ↦ List.mem_append_left _ he
  refine h.frame hL' hok honly hD hof.other (fun u hu ↦ Function.update_of_ne hu _ _) ?_ hresp
    hdisk (fun lid hlid ↦ ?_) (fun u hu ↦ ?_) hP fun u type i hm ↦ ?_
  · rw [Function.update_self]
    exact hthread
  · by_cases hlt : lid = (op t).target
    · subst hlt
      exact ⟨t, by rw [Function.update_self]; exact hheld hlid, rfl⟩
    · rw [hof.move.held_of_ne hlt] at hlid
      obtain ⟨u, hu, htarget⟩ := h.held lid hlid
      have hut : u ≠ t := by
        rintro rfl
        exact hlt htarget.symm
      exact ⟨u, by rwa [Function.update_of_ne hut], htarget⟩
  · rcases hhist with hsame | ⟨b, hnew, -⟩
    · exact Or.inl (hsame ▸ hu)
    · rw [hnew, List.map_append, List.mem_append] at hu
      refine hu.imp_right fun hut ↦ ⟨by simpa using hut, ?_⟩
      rw [Function.update_self]
      exact hof.move.ne_idle
  · rcases hhist with hsame | ⟨b, hnew, hb⟩
    · exact hP (h.created u type i (hsame ▸ hm))
    · rw [hnew, List.mem_append, List.mem_singleton] at hm
      rcases hm with hm | hm
      · exact hP (h.created u type i hm)
      · -- an inode number is not a time stamp
        obtain ⟨rfl, hx⟩ := Prod.mk.inj hm
        obtain ⟨c, a⟩ := x
        obtain ⟨rfl, hab⟩ := Act.mk.inj hx
        obtain rfl := eq_of_heq hab
        obtain rfl : a = .ok i := hb
        rw [hof.hist]
        exact List.mem_append_right _ (List.mem_singleton.2 rfl)

/-- Operation `t` has taken a step that is none in the simple system. -/
theorem of_stutter (hL : Locked op P phase) (hok : D'.locks.Ok N)
    (honly : OnlyThread D.locks D'.locks t (lockId (op t).target))
    (hD : ∀ u, u ≠ t → D'.prog u = D.prog u)
    (hthread : Matches (op t).target (D'.locks.tenure (lockId (op t).target) t) (phase t)
      (D'.prog t) (P.prog t))
    (hdisk : OnDisk D' P.state.files)
    (hbegun : ∀ u ∈ D'.hist.map Prod.fst, u ∈ D.hist.map Prod.fst ∨ (u = t ∧ phase t ≠ .idle))
    (hhist : ∀ u type i, (u, (⟨.create type, .ok i⟩ : Act Cmd.Ans)) ∈ D'.hist →
      (u, (⟨.create type, .ok i⟩ : Act Cmd.Ans)) ∈ D.hist) : Refines N op D' P phase :=
  h.frame hL hok honly hD (fun _ _ ↦ rfl) (fun _ _ ↦ rfl) hthread (h.respects t) hdisk h.held
    hbegun (fun _ he ↦ he) fun u type i hm ↦ h.created u type i (hhist u type i hm)

end Refines

/-! ### What a step can be -/

variable [Fintype ι]

theorem Deployed.extentStep_cases {q : Extent.Request} {c : Cmd} {k : c.Ans → ClientM Result}
    (hs : D.extentStep envs t q c k = some D') :
    (D.handling t = none ∧
      D' = { D.handle t (some (Extent.serve (envs D.served) q)) with served := D.served + 1 }) ∨
    (∃ m j, D.handling t = some (.call m j) ∧
      D' = { D.handle t (some (j (m.exec D.disk).1)) with disk := (m.exec D.disk).2 }) ∨
    ∃ r a, D.handling t = some (.pure r) ∧ answer c r = some a ∧
      D' = (D.handle t none).resume t c a k := by
  obtain ⟨-, hs⟩ := Option.ite_none_left_eq_some.1 hs
  split at hs
  · rename_i hnone
    obtain ⟨-, he⟩ := Option.ite_none_right_eq_some.1 hs
    exact Or.inl ⟨hnone, (Option.some_inj.1 he).symm⟩
  · rename_i m j hcall
    exact Or.inr (Or.inl ⟨m, j, hcall, (Option.some_inj.1 hs).symm⟩)
  · rename_i r hpure
    obtain ⟨a, ha, he⟩ := Option.map_eq_some_iff.1 hs
    exact Or.inr (Or.inr ⟨r, a, hpure, ha, he.symm⟩)
  · exact absurd hs (by simp)

variable [DecidableEq C]

theorem Deployed.lockStep_cases {lid : Nat} {during : List Tenure} {g : Tenure}
    {ret : Deployed C ι → Deployed C ι} (hs : D.lockStep N t lid during g ret = some D') :
    D.locks.tenure (lockId lid) t ∈ during ∧
      ∃ locks, poolStep N D.locks (t, lockId lid) = some locks ∧
        ((locks.tenure (lockId lid) t = g ∧ D' = ret { D with locks := locks }) ∨
          (locks.tenure (lockId lid) t ≠ g ∧ D' = { D with locks := locks })) := by
  obtain ⟨⟨locks, returned⟩, hcall, he⟩ := Option.map_eq_some_iff.1 hs
  obtain ⟨hduring, hlocks, hreturned⟩ := Lock.State.of_call hcall
  refine ⟨hduring, locks, hlocks, ?_⟩
  cases returned with
  | true => exact Or.inl ⟨hreturned.1 rfl, he.symm⟩
  | false => exact Or.inr ⟨fun hg ↦ absurd (hreturned.2 hg) (by simp), he.symm⟩

theorem Deployed.step_of_request {c : Cmd} {k : c.Ans → ClientM Result} {q : Extent.Request}
    (hp : D.prog t = .call c k) (hq : c.request = some q) :
    D.step N envs t = D.extentStep envs t q c k := by
  rw [step, hp]
  cases c with
  | acquire lid => exact absurd hq (by simp [Cmd.request])
  | release lid => exact absurd hq (by simp [Cmd.request])
  | _ =>
    obtain rfl := Option.some_inj.1 hq
    rfl

theorem Deployed.step_cases (hs : D.step N envs t = some D') :
    (∃ lid k, D.prog t = .call (.acquire lid) k ∧
      D.lockStep N t lid [.out, .acquiring] .held (fun D ↦ D.resume t (.acquire lid) () k)
        = some D') ∨
    (∃ lid k, D.prog t = .call (.release lid) k ∧
      D.lockStep N t lid [.held, .releasing] .out (fun D ↦ D.resume t (.release lid) () k)
        = some D') ∨
    ∃ c k q, D.prog t = .call c k ∧ c.request = some q ∧ D.extentStep envs t q c k = some D' := by
  rw [step] at hs
  split at hs
  · rename_i lid k hp
    exact Or.inl ⟨lid, k, hp, hs⟩
  · rename_i lid k hp
    exact Or.inr (Or.inl ⟨lid, k, hp, hs⟩)
  · rename_i c k hacq hrel hp
    obtain ⟨q, hq, hs⟩ := Option.bind_eq_some_iff.1 hs
    exact Or.inr (Or.inr ⟨c, k, q, hp, hq, hs⟩)
  · exact absurd hs (by simp)

/-! ### Simulation -/

namespace Refines

variable (h : Refines N op D P phase)
include h

/-- A step inside `acquire`.  It takes effect when the lock has been granted; nobody else has it
then. -/
theorem acquire_step (hL : Locked op P phase) {lid : Nat} {k : Unit → ClientM Result}
    (hp : D.prog t = .call (.acquire lid) k)
    (hs : D.lockStep N t lid [.out, .acquiring] .held (fun D ↦ D.resume t (.acquire lid) () k)
      = some D') : Simulated N op D' P t := by
  obtain ⟨rfl, hidle, hsame, hbefore⟩ := (h.thread t).of_acquire hp (hL.obeys t)
  rw [hp] at hsame
  obtain ⟨-, locks, hpool, hD'⟩ := Deployed.lockStep_cases hs
  have hlocks := (Lock.step_of_poolStep hpool).1
  have hok : locks.Ok N := h.locks.step hlocks
  have hst := h.locks.tenure_step hlocks
  rcases hD' with ⟨hheld, rfl⟩ | ⟨hheld, rfl⟩
  · have hfree : P.state.held (op t).target = false := by
      rw [← Bool.not_eq_true]
      intro hh
      obtain ⟨u, hu, htarget⟩ := h.held _ hh
      have hut : u ≠ t := by
        rintro rfl
        obtain ⟨made, hu⟩ := hu
        exact absurd (hidle.symm.trans hu) (by simp)
      have hheld' := (h.thread u).held_of_holds hu
      rw [htarget, ← hst.other u _ (Or.inl hut)] at hheld'
      exact hut (hok.eq_of_held hheld hheld')
    have hstep : Client.step P t = some _ :=
      Pool.step_of_call hsame (by simp only [handler, hfree]; rfl)
    obtain ⟨x, g', hof, hL'⟩ := hL.step hstep
    obtain rfl : (⟨.acquire (op t).target, ()⟩ : Act Cmd.Ans) = x := by simpa using hof.hist
    obtain rfl := hof.move.of_acquire
    have hD : ∀ u, u ≠ t → Function.update D.prog t (k ()) u = D.prog u :=
      fun u hu ↦ Function.update_of_ne hu _ _
    refine simulated_step hstep hL' (h.of_step hof hL' hok hst.toOnlyThread hD ?_ ?_
      (h.disk_of_lock hp rfl rfl rfl hD) (fun _ ↦ ⟨none, rfl⟩) (Or.inr ⟨(), rfl, rfl⟩))
    · simp only [Deployed.resume, Function.update_self, hheld]
      exact .held none _
    · simp only [Function.update_self]
      exact (h.respects_of_call hsame).2 ()
  · refine simulated_stutter hL (h.of_stutter hL hok hst.toOnlyThread (fun _ _ ↦ rfl) ?_
      (h.disk_of_lock hp rfl rfl rfl fun _ _ ↦ rfl) (fun u hu ↦ Or.inl hu) fun _ _ _ hm ↦ hm)
    have hacq := (hst.acquiring hbefore).resolve_right hheld
    simp only [hacq, hidle, hp, hsame]
    exact .acquiring _

/-- A step inside `release`.  It takes effect when it is called. -/
theorem release_step (hL : Locked op P phase) {lid : Nat} {k : Unit → ClientM Result}
    (hp : D.prog t = .call (.release lid) k)
    (hs : D.lockStep N t lid [.held, .releasing] .out (fun D ↦ D.resume t (.release lid) () k)
      = some D') : Simulated N op D' P t := by
  obtain ⟨rfl, hwhere⟩ := (h.thread t).of_release hp (hL.obeys t)
  obtain ⟨-, locks, hpool, hD'⟩ := Deployed.lockStep_cases hs
  have hlocks := (Lock.step_of_poolStep hpool).1
  have hok : locks.Ok N := h.locks.step hlocks
  have hst := h.locks.tenure_step hlocks
  have hD : ∀ u, u ≠ t → Function.update D.prog t (k ()) u = D.prog u :=
    fun u hu ↦ Function.update_of_ne hu _ _
  rcases hwhere with ⟨hheld, hsame⟩ | ⟨hrel, hk, made, hdone⟩
  · rw [hp] at hsame
    have hstep : Client.step P t = some _ := Pool.step_of_call hsame rfl
    obtain ⟨x, g', hof, hL'⟩ := hL.step hstep
    obtain rfl : (⟨.release (op t).target, ()⟩ : Act Cmd.Ans) = x := by simpa using hof.hist
    obtain ⟨made, rfl⟩ := hof.move.of_release
    have hresp := (h.respects_of_call hsame).2 ()
    rcases hD' with ⟨hout, rfl⟩ | ⟨hout, rfl⟩
    · refine simulated_step hstep hL' (h.of_step hof hL' hok hst.toOnlyThread hD ?_ ?_
        (h.disk_of_lock hp rfl rfl rfl hD) (fun hh ↦ absurd hh (by simp))
        (Or.inr ⟨(), rfl, rfl⟩))
      · simp only [Deployed.resume, Function.update_self, hout]
        exact .done made _
      · simpa only [Function.update_self] using hresp
    · refine simulated_step hstep hL' (h.of_step hof hL' hok hst.toOnlyThread (fun _ _ ↦ rfl) ?_ ?_
        (h.disk_of_lock hp rfl rfl rfl fun _ _ ↦ rfl) (fun hh ↦ absurd hh (by simp)) (Or.inl rfl))
      · have hrel := (hst.releasing (Or.inl hheld)).resolve_right hout
        simp only [Function.update_self, hrel, hp]
        exact .releasing made _
      · simpa only [Function.update_self] using hresp
  · -- the simple system has released the lock already
    rcases hD' with ⟨hout, rfl⟩ | ⟨hout, rfl⟩
    · refine simulated_stutter hL (h.of_stutter hL hok hst.toOnlyThread hD ?_
        (h.disk_of_lock hp rfl rfl rfl hD) (fun u hu ↦ ?_) fun u type i hm ↦ ?_)
      · simp only [Deployed.resume, Function.update_self, hout, hk, hdone]
        exact .done made _
      · simp only [Deployed.resume, List.map_append, List.mem_append, List.map_cons, List.map_nil,
          List.mem_singleton] at hu
        exact hu.imp_right fun hut ↦ ⟨hut, by simp [hdone]⟩
      · simpa [Deployed.resume] using hm
    · refine simulated_stutter hL (h.of_stutter hL hok hst.toOnlyThread (fun _ _ ↦ rfl) ?_
        (h.disk_of_lock hp rfl rfl rfl fun _ _ ↦ rfl) (fun u hu ↦ Or.inl hu) fun _ _ _ hm ↦ hm)
      have hrel' := (hst.releasing (Or.inr hrel)).resolve_right hout
      simp only [hrel', hk, hdone, hp]
      exact .releasing made k

omit [DecidableEq C] in
/-- A step for a request, which takes effect when the reply is sent. -/
theorem request_step (hL : Locked op P phase) {c : Cmd} {k : c.Ans → ClientM Result}
    {q : Extent.Request} (hp : D.prog t = .call c k) (hq : c.request = some q)
    (hprom : D.Promised t) (halone : D.Alone t) (hs : D.extentStep envs t q c k = some D') :
    Simulated N op D' P t := by
  have honly : OnlyThread D.locks D.locks t (lockId (op t).target) :=
    ⟨fun _ _ _ ↦ rfl, h.busy t, fun _ _ ↦ rfl⟩
  have hother : ∀ x, ∀ u, u ≠ t → D.handling u = none →
      Function.update D.handling t x u = none := fun x u hu hnone ↦ by
    rw [Function.update_of_ne hu, hnone]
  rcases Deployed.extentStep_cases hs with ⟨hnone, rfl⟩ | ⟨m, j, hcall, rfl⟩ |
    ⟨r, b, hpure, hb, rfl⟩
  · -- the request is dispatched
    have hidle := halone hnone c k hp (by simp [hq])
    have hrep := h.disk.rep_of_idle hidle
    have hpromised := hprom hnone c k hp q hq
    rw [← hrep.eq_files] at hpromised
    exact simulated_stutter hL (h.of_stutter hL h.locks honly (fun _ _ ↦ rfl) (h.thread t)
      (.handling hp hq hpromised hrep (Function.update_self ..) rfl
        fun u hu ↦ hother _ u hu (hidle u)) (fun u hu ↦ Or.inl hu) fun _ _ _ hm ↦ hm)
  · -- a block is read or written
    obtain ⟨hpromised, hidle, env, d, hrep, hexec⟩ := h.disk.of_handling hcall hp hq
    exact simulated_stutter hL (h.of_stutter hL h.locks honly (fun _ _ ↦ rfl) (h.thread t)
      (.handling hp hq hpromised hrep (Function.update_self ..) hexec
        fun u hu ↦ hother _ u hu (hidle u hu)) (fun u hu ↦ Or.inl hu) fun _ _ _ hm ↦ hm)
  · -- the reply is sent
    obtain ⟨hpromised, hidle, env, d, hrep, hexec⟩ := h.disk.of_handling hpure hp hq
    obtain ⟨a, b', σ', ha, hb', hab, hrep'⟩ :=
      exists_answer hq hpromised hrep hexec.symm P.state.held
    obtain rfl := Option.some_inj.1 (hb.symm.trans hb')
    obtain ⟨hheld, hsame⟩ := (h.thread t).of_request hp hq (hL.obeys t)
    rw [hp] at hsame
    have hstep : Client.step P t = some _ := Pool.step_of_call hsame ha
    obtain ⟨x, g', hof, hL'⟩ := hL.step hstep
    obtain rfl : (⟨c, a⟩ : Act Cmd.Ans) = x := by simpa using hof.hist
    obtain ⟨made, rfl⟩ := hof.move.of_request hq
    obtain ⟨hkab, hresp⟩ := h.respects_of_call hsame
    refine simulated_step hstep hL' (h.of_step hof hL' h.locks honly
      (fun u hu ↦ Function.update_of_ne hu _ _) ?_ ?_ (.quiet hrep' fun u ↦ ?_)
      (fun _ ↦ ⟨made, rfl⟩) (Or.inr ⟨b, rfl, hab⟩))
    · simp only [Deployed.resume, Deployed.handle, Function.update_self, hheld, ← hkab a b hab]
      exact .held made _
    · simp only [Function.update_self]
      exact hresp a
    · by_cases hu : u = t
      · subst hu
        exact Function.update_self ..
      · exact hother _ u hu (hidle u hu)

/-- **Refinement.**  Every step of the deployed system is a step of the simple one, or none. -/
theorem step (hL : Locked op P phase) (hprom : D.Promised t) (halone : D.Alone t)
    (hs : D.step N envs t = some D') : Simulated N op D' P t := by
  rcases Deployed.step_cases hs with ⟨lid, k, hp, hs⟩ | ⟨lid, k, hp, hs⟩ | ⟨c, k, q, hp, hq, hs⟩
  · exact h.acquire_step hL hp hs
  · exact h.release_step hL hp hs
  · exact h.request_step hL hp hq hprom halone hs

end Refines

omit [Fintype ι] in
theorem refines_deployed {disk : Disk} (hdisk : Rep disk σ) (N : Cluster C ι) (op : ι → Op) :
    Refines N op (deployed disk op) (called ⟨σ, fun _ ↦ false⟩ op) fun _ ↦ .idle where
  locks := Lock.Reachable.ok ⟨[], rfl⟩
  disk := .quiet hdisk fun _ ↦ rfl
  busy _ := Or.inl rfl
  away _ _ _ := rfl
  thread t := .out _
  held := by simp [called]
  begun := by simp [deployed]
  created := by simp [deployed]
  respects t := (op t).respects

end Client
end Yfs
