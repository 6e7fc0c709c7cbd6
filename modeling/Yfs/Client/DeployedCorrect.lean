import Yfs.Client.Deployed

/-!
# What is true of the file system as it is deployed

Operations of any number of clients are executed by the deployed system, step by step in any order.

* They take effect at once (`deployed_linearizable`), and the order in which they do so agrees with
  the order in which they were called and returned.
* The system does not come to a halt before they have ended, unless an operation has crashed that
  had a lock (`deployed_progress`).

Both are about runs that the code does not enforce.  The extent server has no mutex, and two
handlers that run at the same time can spoil each other's work; so it is assumed that it dispatches
one request at a time (`Deployed.Alone`).  The requests are within what it promises
(`Deployed.Promised`).  For the second result there are never more than five `acquire` handlers on
the lock server at a time (`Deployed.Roomy`), since with six of them it can wedge.

Two clients that want the same file show that such runs exist (`pairEnds_deployed`).
-/

set_option autoImplicit false

namespace Yfs
namespace Client

open Machine
open Extent (Disk DiskM Env Rep Store inumOf)
open Lock (Cluster Tenure poolSize poolStep)

variable {C ι : Type} [DecidableEq C] [DecidableEq ι] [Fintype ι] {N : Cluster C ι}
  {envs : Nat → Env} {op : ι → Op} {σ : Store} {D D' : Deployed C ι} {P : Clients ι}
  {phase : ι → Phase} {t : ι}

/-! ## Steps that can be taken -/

section Possible

variable {G : Deployed C ι → ι → Prop} {c : Cmd} {k : c.Ans → ClientM Result} {q : Extent.Request}

omit [DecidableEq C] [DecidableEq ι] [Fintype ι] in
/-- A handler that has not crashed, and works alone. -/
theorem not_crashed {p : DiskM Extent.Reply} (ht : D.handling t = some p)
    (hidle : ∀ u, u ≠ t → D.handling u = none) (hp : ∀ e, p ≠ .throw e) :
    ¬ ∃ u, crashed (D.handling u) = true := by
  rintro ⟨u, hu⟩
  by_cases hut : u = t
  · rw [hut, ht] at hu
    cases p with
    | throw e => exact hp e rfl
    | pure r | call m j => exact absurd hu (by simp [crashed])
  · rw [hidle u hut] at hu
    exact absurd hu (by simp [crashed])

/-- A request is dispatched, if no other is being handled. -/
theorem Deployed.dispatch (hp : D.prog t = .call c k) (hq : c.request = some q)
    (hidle : ∀ u, D.handling u = none) :
    D.step N envs t = some
      { D.handle t (some (Extent.serve (envs D.served) q)) with served := D.served + 1 } := by
  have hup : ¬ ∃ u, crashed (D.handling u) = true := by
    rintro ⟨u, hu⟩
    rw [hidle u] at hu
    exact absurd hu (by simp [crashed])
  have hfree : (Finset.univ.filter fun u ↦ (D.handling u).isSome = true).card < poolSize := by
    simp [hidle, poolSize]
  rw [step_of_request hp hq, extentStep, if_neg hup, hidle t]
  exact if_pos hfree

/-- A handler reads or writes a block. -/
theorem Deployed.access {m : MemCmd Nat Extent.Block} {j : m.Ans → DiskM Extent.Reply}
    (hp : D.prog t = .call c k) (hq : c.request = some q) (ht : D.handling t = some (.call m j))
    (hidle : ∀ u, u ≠ t → D.handling u = none) :
    D.step N envs t
      = some { D.handle t (some (j (m.exec D.disk).1)) with disk := (m.exec D.disk).2 } := by
  rw [step_of_request hp hq, extentStep, if_neg (not_crashed ht hidle (by simp)), ht]

/-- A reply is sent. -/
theorem Deployed.reply {r : Extent.Reply} {a : c.Ans} (hp : D.prog t = .call c k)
    (hq : c.request = some q) (ht : D.handling t = some (.pure r))
    (hidle : ∀ u, u ≠ t → D.handling u = none) (ha : answer c r = some a) :
    D.step N envs t = some ((D.handle t none).resume t c a k) := by
  rw [step_of_request hp hq, extentStep, if_neg (not_crashed ht hidle (by simp)), ht]
  simp only [ha, Option.map_some]

/-- A handler comes to its end. -/
theorem leads_handling {d : Disk} {r : Extent.Reply} (hmid : ∀ D, D.handling t ≠ none → G D t)
    (hq : c.request = some q) (p : DiskM Extent.Reply) (hp : D.prog t = .call c k)
    (ht : D.handling t = some p) (hidle : ∀ u, u ≠ t → D.handling u = none)
    (hexec : Extent.exec p D.disk = .ok (r, d)) :
    Leads (Deployed.step N envs) G D { D.handle t (some (.pure r)) with disk := d } := by
  induction p generalizing D with
  | pure r' =>
    obtain ⟨rfl, rfl⟩ := Prod.mk.inj (Except.ok.inj hexec)
    have hsame : Function.update D.handling t (some (.pure r')) = D.handling := by
      rw [← ht, Function.update_eq_self]
    rw [Deployed.handle, hsame]
    exact .refl D
  | throw e => exact absurd hexec (by simp)
  | call m j ih =>
    refine .head (Deployed.access hp hq ht hidle) (hmid D (by simp [ht])) ?_
    have hnext := ih (m.exec D.disk).1
      (D := { D.handle t (some (j (m.exec D.disk).1)) with disk := (m.exec D.disk).2 }) hp
      (Function.update_self ..) (fun u hu ↦ (Function.update_of_ne hu _ _).trans (hidle u hu)) hexec
    simpa only [Deployed.handle, Function.update_idem] using hnext

/-- A request is dispatched, handled and answered. -/
theorem leads_request {d : Disk} {r : Extent.Reply} {a : c.Ans}
    (hmid : ∀ D, D.handling t ≠ none → G D t) (hG : G D t) (hp : D.prog t = .call c k)
    (hq : c.request = some q) (hidle : ∀ u, D.handling u = none)
    (hexec : Extent.exec (Extent.serve (envs D.served) q) D.disk = .ok (r, d))
    (ha : answer c r = some a) : Leads (Deployed.step N envs) G D
      (Deployed.resume { D with disk := d, served := D.served + 1 } t c a k) := by
  have hothers : ∀ p u, u ≠ t → Function.update D.handling t p u = none :=
    fun p u hu ↦ (Function.update_of_ne hu _ _).trans (hidle u)
  have hback : Function.update D.handling t none = D.handling := by
    rw [← hidle t, Function.update_eq_self]
  refine .head (Deployed.dispatch hp hq hidle) hG (.trans (leads_handling hmid hq
    (Extent.serve (envs D.served) q) hp (Function.update_self ..) (hothers _) hexec) ?_)
  refine .head (Deployed.reply hp hq (Function.update_self ..) (fun u hu ↦ ?_) ha)
    (hmid _ (by simp [Deployed.handle])) ?_
  · simp only [Deployed.handle, Function.update_idem]
    exact hothers _ u hu
  · simp only [Deployed.handle, Deployed.resume, Function.update_idem, hback]
    exact .refl _

/-- Steps inside a call of `acquire` or `release`. -/
theorem leads_call {lid n : Nat} {during : List Tenure} {g : Tenure} {p : ClientM Result}
    {s : Lock.State C ι} {returned : Bool} (ret : Deployed C ι → Deployed C ι)
    (hG : ∀ D, D.prog t = p → G D t)
    (hstep : ∀ D : Deployed C ι, D.prog t = p → D.step N envs t = D.lockStep N t lid during g ret)
    (hp : D.prog t = p)
    (hs : D.locks.callFor N t (lockId lid) during g n = some (s, returned)) :
    Leads (Deployed.step N envs) G D
      (if returned then ret { D with locks := s } else { D with locks := s }) := by
  induction n generalizing D with
  | zero =>
    obtain ⟨rfl, rfl⟩ := Prod.mk.inj (Option.some_inj.1 hs)
    exact .refl D
  | succ n ih =>
    rw [Lock.State.callFor, Option.bind_eq_some_iff] at hs
    obtain ⟨⟨s₁, r₁⟩, hcall, hs⟩ := hs
    have hone : D.step N envs t
        = some (if r₁ then ret { D with locks := s₁ } else { D with locks := s₁ }) := by
      rw [hstep D hp, Deployed.lockStep, hcall]
      rfl
    refine .head hone (hG D hp) ?_
    cases r₁ with
    | true =>
      obtain ⟨rfl, hs⟩ := Option.ite_none_right_eq_some.1 hs
      obtain ⟨rfl, rfl⟩ := Prod.mk.inj (Option.some_inj.1 hs)
      exact .refl _
    | false => exact ih (D := { D with locks := s₁ }) hp hs

end Possible

/-! ## What is asked of every step -/

/-- The operation is one about an inode that exists, its requests are within the promise and are
handled alone, and there are not too many `acquire` handlers. -/
structure Orderly (op : ι → Op) (σ : Store) (D : Deployed C ι) (t : ι) : Prop where
  existing : D.Existing op σ t
  promised : D.Promised t
  alone : D.Alone t
  roomy : D.Roomy t

section Orderly

omit [DecidableEq C] [DecidableEq ι]
variable (hthere : ∀ t, inumOf (op t).target = (op t).target ∧ σ (op t).target ≠ none)
  (hcard : Fintype.card ι < 5)
include hthere hcard

/-- A request is being handled. -/
theorem orderly_of_handling (h : D.handling t ≠ none) : Orderly op σ D t where
  existing _ := ⟨(hthere t).1, Or.inl (hthere t).2⟩
  promised hnone := absurd hnone h
  alone hnone := absurd hnone h
  roomy _ _ _ := Lock.roomy_of_card hcard _ _

/-- A request can be dispatched. -/
theorem orderly_of_promised {c : Cmd} {k : c.Ans → ClientM Result} (hp : D.prog t = .call c k)
    (hprom : Promised c ⟨D.disk.files, fun _ ↦ false⟩)
    (hidle : c.request ≠ none → ∀ u, D.handling u = none) : Orderly op σ D t where
  existing _ := ⟨(hthere t).1, Or.inl (hthere t).2⟩
  promised _ c' k' hp' := by
    obtain ⟨rfl, -⟩ := Prog.call.inj (hp.symm.trans hp')
    exact hprom
  alone _ c' k' hp' hq := by
    obtain ⟨rfl, -⟩ := Prog.call.inj (hp.symm.trans hp')
    exact hidle hq
  roomy _ _ _ := Lock.roomy_of_card hcard _ _

/-- The next command of the operation is one for a lock. -/
theorem orderly_of_lock {c : Cmd} {k : c.Ans → ClientM Result} (hp : D.prog t = .call c k)
    (hc : c.request = none) : Orderly op σ D t :=
  orderly_of_promised hthere hcard hp (fun q hq ↦ absurd (hc.symm.trans hq) (by simp))
    fun hq ↦ absurd hc hq

end Orderly

/-! ## Two clients -/

/-- One client appends a byte to a file while another one reads it. -/
def pairOps : Bool → Op
  | false => .write 2 1 [105]
  | true => .read 2 4 0

def pairResults : Bool → Except Fault Result
  | false => .ok (.written 0 1)
  | true => .ok (.data 0 [104, 105])

/-- Both operations can be brought to their ends. -/
def PairEnds (D : Deployed Bool Bool) : Prop :=
  ∃ D', Leads (Deployed.step Lock.twoClients fun _ ↦ default)
      (Orderly pairOps (Store.filled [104] 1)) D D' ∧ ∀ t, D'.prog t = .ofExcept (pairResults t)

namespace PairEnds

variable {D : Deployed Bool Bool}

theorem there (t : Bool) : inumOf (pairOps t).target = (pairOps t).target ∧
    Store.filled [104] 1 (pairOps t).target ≠ none := by
  cases t <;> exact ⟨rfl, by decide⟩

theorem of_acquire (t : Bool) (lid : Nat) {n : Nat} {k : Unit → ClientM Result}
    {s : Lock.State Bool Bool} {returned : Bool} (hp : D.prog t = .call (.acquire lid) k)
    (hs : D.locks.callFor Lock.twoClients t (lockId lid) [.out, .acquiring] .held n
      = some (s, returned))
    (h : PairEnds (if returned then Deployed.resume { D with locks := s } t (.acquire lid) () k
      else { D with locks := s })) : PairEnds D := by
  obtain ⟨D'', hleads, hres⟩ := h
  refine ⟨D'', .trans (leads_call (fun D ↦ D.resume t (.acquire lid) () k)
    (fun D hp ↦ orderly_of_lock there (by decide) hp rfl) (fun D hp ↦ ?_) hp hs) hleads, hres⟩
  rw [Deployed.step, hp]

theorem of_release (t : Bool) (lid : Nat) {n : Nat} {k : Unit → ClientM Result}
    {s : Lock.State Bool Bool} {returned : Bool} (hp : D.prog t = .call (.release lid) k)
    (hs : D.locks.callFor Lock.twoClients t (lockId lid) [.held, .releasing] .out n
      = some (s, returned))
    (h : PairEnds (if returned then Deployed.resume { D with locks := s } t (.release lid) () k
      else { D with locks := s })) : PairEnds D := by
  obtain ⟨D'', hleads, hres⟩ := h
  refine ⟨D'', .trans (leads_call (fun D ↦ D.resume t (.release lid) () k)
    (fun D hp ↦ orderly_of_lock there (by decide) hp rfl) (fun D hp ↦ ?_) hp hs) hleads, hres⟩
  rw [Deployed.step, hp]

theorem of_request (t : Bool) (c : Cmd) {k : c.Ans → ClientM Result} {q : Extent.Request}
    {σ σ' : Store} {a : c.Ans} (hp : D.prog t = .call c k) (hq : c.request = some q)
    (hidle : ∀ u, D.handling u = none) (hrep : Rep D.disk σ)
    (hprom : Promised c ⟨σ, fun _ ↦ false⟩)
    (ha : handler c ⟨σ, fun _ ↦ false⟩ = some (a, ⟨σ', fun _ ↦ false⟩))
    (h : ∀ d b, c.Same a b → Rep d σ' →
      PairEnds (Deployed.resume { D with disk := d, served := D.served + 1 } t c b k)) :
    PairEnds D := by
  obtain ⟨r, d, b, hexec, hb, hsame, hrep'⟩ := exists_exec default hq hprom hrep ha
  obtain ⟨D', hleads, hres⟩ := h d b hsame hrep'
  refine ⟨D', .trans (leads_request (fun D h ↦ orderly_of_handling there (by decide) h) ?_ hp hq
    hidle hexec hb) hleads, hres⟩
  rw [hrep.eq_files] at hprom
  exact orderly_of_promised there (by decide) hp hprom fun _ ↦ hidle

end PairEnds

/-- The first client gets lock 2, the second asks for it, the first gives it back, the second gets
it, and keeps it in its cache. -/
theorem pairLocks : ∃ s₁ s₂ s₃ s₄ s₅,
    ({} : Lock.State Bool Bool).callFor Lock.twoClients false (lockId 2) [.out, .acquiring] .held 3
      = some (s₁, true) ∧
    s₁.callFor Lock.twoClients true (lockId 2) [.out, .acquiring] .held 6 = some (s₂, false) ∧
    s₂.callFor Lock.twoClients false (lockId 2) [.held, .releasing] .out 6 = some (s₃, true) ∧
    s₃.callFor Lock.twoClients true (lockId 2) [.out, .acquiring] .held 3 = some (s₄, true) ∧
    s₄.callFor Lock.twoClients true (lockId 2) [.held, .releasing] .out 1 = some (s₅, true) :=
  ⟨_, _, _, _, _, rfl, rfl, rfl, rfl, rfl⟩

/-- While the first client has the lock the second one asks for it, and the lock is revoked.  When
the first has written the file it gives the lock back, and the second gets it and reads the file. -/
theorem pairEnds_deployed {disk : Disk} (hdisk : Rep disk (Store.filled [104] 1)) :
    PairEnds (deployed disk pairOps) := by
  have hshort : Store.filled [104] 1 (inumOf 2) = some ⟨Extent.tFile, [104]⟩ := rfl
  -- the disk after the write
  have hlong : Function.update (Store.filled [104] 1) (inumOf 2)
      (some ⟨Extent.tFile, [104, 105]⟩) = Store.filled [104, 105] 1 := Function.update_idem ..
  have hput : handler (.put 2 [104, 105]) ⟨Store.filled [104] 1, fun _ ↦ false⟩
      = some (.ok (), ⟨Store.filled [104, 105] 1, fun _ ↦ false⟩) := by
    rw [← hlong]
    rfl
  have hload : Store.load (Store.filled [104, 105] 1) ≤ Store.capacity := by
    rw [Store.load_filled (by decide)]
    decide
  -- what the lock service does
  obtain ⟨s₁, s₂, s₃, s₄, s₅, h₁, h₂, h₃, h₄, h₅⟩ := pairLocks
  refine .of_acquire false 2 rfl h₁ ?_
  refine .of_acquire true 2 rfl h₂ ?_
  refine .of_request false (.get 2) rfl rfl (fun _ ↦ rfl) hdisk (promised_get hshort)
    (handler_get hshort) fun d₁ b₁ hb₁ hrep₁ ↦ ?_
  obtain rfl : .ok [104] = b₁ := hb₁
  refine .of_request false (.put 2 [104, 105]) rfl rfl (fun _ ↦ rfl) hrep₁
    (promised_put hshort (by decide) (hlong ▸ hload)) hput fun d₂ b₂ hb₂ hrep₂ ↦ ?_
  obtain rfl : .ok () = b₂ := hb₂
  refine .of_release false 2 rfl h₃ ?_
  refine .of_acquire true 2 rfl h₄ ?_
  refine .of_request true (.get 2) rfl rfl (fun _ ↦ rfl) hrep₂ (promised_get rfl)
    (handler_get rfl) fun d₃ b₃ hb₃ hrep₃ ↦ ?_
  obtain rfl : .ok [104, 105] = b₃ := hb₃
  refine .of_release true 2 rfl h₅ ⟨_, .refl _, fun t ↦ ?_⟩
  cases t <;> rfl

/-! ## Operations take effect at once -/

omit [DecidableEq C] [DecidableEq ι] [Fintype ι] in
theorem Refines.existing (h : Refines N op D P phase) (hmade : Made ⟨σ, fun _ ↦ false⟩ P)
    (hex : D.Existing op σ t) : Existing op P t := by
  intro hnot
  obtain ⟨hnum, hthere⟩ := hex fun hmem ↦ hnot (h.begun t hmem)
  refine hmade.existing hnum (hthere.imp_right fun ⟨e, he, type, hx, o, ho⟩ ↦ ?_) hnot
  have hmem : (e.1, e.2) ∈ P.hist := by
    rw [hx]
    exact h.created e.1 type _ (hx ▸ he)
  exact ⟨_, hmem, type, hx, o, (h.thread e.1).of_ended ho⟩

/-- What holds between the deployed file system and its clients on an abstract file system, in which
the operations take effect one after another. -/
structure Tracks (N : Cluster C ι) (op : ι → Op) (σ : Store) (D : Deployed C ι) (P : Clients ι) :
    Prop where
  refines : ∃ phase, Locked op P phase ∧ Refines N op D P phase
  made : Made ⟨σ, fun _ ↦ false⟩ P
  sound : Pool.Sound handler (fun t ↦ (op t).prog) ⟨σ, fun _ ↦ false⟩ P
  linear : ∃ phase order, Linear op P phase order

omit [Fintype ι] in
theorem tracks_deployed {disk : Disk} (hdisk : Rep disk σ) (N : Cluster C ι) (op : ι → Op) :
    Tracks N op σ (deployed disk op) (called ⟨σ, fun _ ↦ false⟩ op) where
  refines := ⟨_, locked_called _ op, refines_deployed hdisk N op⟩
  made := made_called _ op
  sound := Pool.sound_start
  linear := ⟨_, _, linear_called _ op⟩

theorem Tracks.step {envs : Nat → Env} {D' : Deployed C ι} (h : Tracks N op σ D P)
    (hrm : ∀ t, (op t).removes = false) (hex : D.Existing op σ t) (hprom : D.Promised t)
    (halone : D.Alone t) (hs : D.step N envs t = some D') :
    ∃ (acts : List ι) (P' : Clients ι), acts.Sublist [t] ∧ acts.foldlM Client.step P = some P' ∧
      Tracks N op σ D' P' := by
  obtain ⟨phase, hL, href⟩ := h.refines
  obtain ⟨acts, P', hacts, hsteps, hnext⟩ := href.step hL hprom halone hs
  refine ⟨acts, P', hacts, hsteps, ?_⟩
  -- the step is one of the abstract clients, or is not seen by them
  rcases List.sublist_singleton.1 hacts with rfl | rfl
  · obtain rfl : P = P' := by simpa using hsteps
    exact ⟨hnext, h.made, h.sound, h.linear⟩
  · have hstep : Client.step P t = some P' := by simpa using hsteps
    obtain ⟨phase', order, hlin⟩ := h.linear
    exact ⟨hnext, h.made.step hL hrm hstep, h.sound.step hstep,
      hlin.step hrm (href.existing h.made hex) hstep⟩

/-- **The deployed file system is linearizable.**  Operations of any number of clients, none of them
an `unlink`, are executed with the caching lock service and the extent server, step by step in any
order.  Each operation is about an inode that exists when it begins, and the extent server handles
one request at a time, all of them within its promise.  When all operations have ended, their
results and the files on the disk are those that some order of the operations gives when they are
executed one after another on the files that were there.  An operation that has ended before another
one was called comes first in that order. -/
theorem deployed_linearizable (N : Cluster C ι) (envs : Nat → Env) (op : ι → Op) {disk : Disk}
    {σ : Store} (hdisk : Rep disk σ) (res : ι → Except Fault Result)
    (hrm : ∀ t, (op t).removes = false) {run : List ι} {D : Deployed C ι}
    (hrun : run.foldlM (Deployed.step N envs) (deployed disk op) = some D)
    (hex : Along (Deployed.step N envs) (Deployed.Existing op σ) (deployed disk op) run)
    (hprom : Along (Deployed.step N envs) Deployed.Promised (deployed disk op) run)
    (halone : Along (Deployed.step N envs) Deployed.Alone (deployed disk op) run)
    (hres : ∀ t, D.prog t = .ofExcept (res t)) :
    ∃ (order : List ι) (held : Nat → Bool), order.Nodup ∧ (∀ t, t ∈ order) ∧
      (∀ t u, t ≠ u → ¬ [u, t].Sublist run → [t, u].Sublist order) ∧
      Prog.evalAll handler (order.map fun t ↦ (op t).prog) ⟨σ, fun _ ↦ false⟩
        = some (order.map res, ⟨D.disk.files, held⟩) := by
  obtain ⟨run', P, hsub, hrun', htracks⟩ :=
    run_simulation (fun t ↦ [t])
      (fun D t D' P (h : Tracks N op σ D P) ⟨hex, hprom, halone⟩ hs ↦
        h.step hrm hex hprom halone hs)
      run (deployed disk op) D _ (hex.and (hprom.and halone)) (tracks_deployed hdisk N op) hrun
  obtain ⟨phase, -, href⟩ := htracks.refines
  obtain ⟨phase', order, hlin⟩ := htracks.linear
  have hsched : P.hist.map Prod.fst = run' := Pool.map_fst_hist hrun'
  have hrep : Rep D.disk P.state.files := by
    cases href.disk with
    | quiet hrep => exact hrep
    | @handling u c k q p env d hp =>
      have hended := (hres u).symm.trans hp
      cases hr : res u <;> exact absurd (hr ▸ hended) (by simp [Prog.ofExcept])
  obtain ⟨hall, hreal, heval⟩ := hlin.serial htracks.sound fun t ↦ (href.thread t).of_ended (hres t)
  refine ⟨order, P.state.held, hlin.nodup, hall,
    fun t u hne hnot ↦ hreal t u hne fun hs ↦ hnot ?_, ?_⟩
  · rw [hsched] at hs
    rw [List.flatMap_singleton'] at hsub
    exact hs.trans hsub
  · rw [heval, ← hrep.eq_files]

/-- A client reads a file while another one has begun to write it, and sees what has been
written. -/
theorem deployed_linearizable_pairOps : ∃ (disk : Disk) (run : List Bool) (D : Deployed Bool Bool),
    Rep disk (Store.filled [104] 1) ∧
    run.foldlM (Deployed.step Lock.twoClients fun _ ↦ default) (deployed disk pairOps) = some D ∧
    (∀ t, D.prog t = .ofExcept (pairResults t)) ∧
    ∃ (order : List Bool) (held : Nat → Bool), order.Nodup ∧ (∀ t, t ∈ order) ∧
      Prog.evalAll handler (order.map fun t ↦ (pairOps t).prog)
          ⟨Store.filled [104] 1, fun _ ↦ false⟩
        = some (order.map pairResults, ⟨D.disk.files, held⟩) := by
  obtain ⟨calls, disk, hs⟩ := Extent.exists_session_filled [104] 1 (by decide)
    (by decide) (by decide)
  obtain ⟨D, ⟨run, hrun, halong⟩, hres⟩ := pairEnds_deployed hs.rep
  obtain ⟨order, held, hnd, hall, -, heval⟩ := deployed_linearizable Lock.twoClients
    (fun _ ↦ default) pairOps hs.rep pairResults (fun t ↦ by cases t <;> rfl) hrun
    (halong.mono fun _ _ h ↦ h.existing) (halong.mono fun _ _ h ↦ h.promised)
    (halong.mono fun _ _ h ↦ h.alone) hres
  exact ⟨disk, run, D, hs.rep, hrun, hres, order, held, hnd, hall, heval⟩

/-! ## The system does not come to a halt -/

theorem Deployed.lockStep_eq_none {lid : Nat} {during : List Tenure} {g : Tenure}
    {ret : Deployed C ι → Deployed C ι} (hs : D.lockStep N t lid during g ret = none)
    (hduring : D.locks.tenure (lockId lid) t ∈ during) :
    poolStep N D.locks (t, lockId lid) = none :=
  Lock.State.step_of_call_eq_none (Option.map_eq_none_iff.1 hs) hduring

/-- A step takes a step of the lock service, or has nothing to do with it. -/
theorem Deployed.roomyOk_step (hok : D.locks.RoomyOk N) (hroomy : D.Roomy t)
    (hs : D.step N envs t = some D') : D'.locks.RoomyOk N := by
  have hlock : ∀ {lid during g ret}, D.lockStep N t lid during g ret = some D' →
      (∀ locks, (ret { D with locks := locks }).locks = locks) →
      Lock.Roomy D.locks (t, lockId lid) → D'.locks.RoomyOk N := by
    intro lid during g ret hs hret hroom
    obtain ⟨-, locks, hpool, ⟨-, rfl⟩ | ⟨-, rfl⟩⟩ := lockStep_cases hs
    · rw [hret]
      exact hok.step hroom hpool
    · exact hok.step hroom hpool
  rcases step_cases hs with ⟨lid, k, hp, hs⟩ | ⟨lid, k, hp, hs⟩ | ⟨c, k, q, hp, hq, hs⟩
  · exact hlock hs (fun _ ↦ rfl) (hroomy lid k hp)
  · -- a thread inside `release` has no `acquire` to be dispatched
    refine hlock hs (fun _ ↦ rfl) fun hpc ↦ ?_
    have hduring := (lockStep_cases hs).1
    rw [Lock.State.tenure, show (D.locks.lane (lockId lid)).pc t = _ from hpc] at hduring
    exact absurd hduring (by simp [Lock.PC.tenure])
  · rcases extentStep_cases hs with ⟨-, rfl⟩ | ⟨m, j, -, rfl⟩ | ⟨r, a, -, -, rfl⟩ <;> exact hok

/-- A thread that needs no dispatch thread goes on as if there were no pools. -/
theorem poolStep_eq_step {s : Lock.State C ι} {lid : Lock.Lid}
    (h : ((s.lane lid).pc t).inRpc = false) : poolStep N s (t, lid) = Lock.step N s (t, lid) := by
  rw [poolStep, Lock.PC.dispatchedAt_of_inRpc h]

namespace Refines

variable (h : Refines N op D P phase)
include h

/-- The request of an operation can go on, or another one that is being handled. -/
theorem exists_step_of_request {c : Cmd} {k : c.Ans → ClientM Result} {q : Extent.Request}
    (hp : D.prog t = .call c k) (hq : c.request = some q) :
    ∃ u, D.step N envs u ≠ none := by
  cases h.disk with
  | quiet hrep hidle => exact ⟨t, by simp [Deployed.dispatch hp hq hidle]⟩
  | @handling u c' k' q' p env d hp' hq' hprom hrep hu hexec hidle =>
    refine ⟨u, ?_⟩
    cases p with
    | call m j => simp [Deployed.access hp' hq' hu hidle]
    | pure r =>
      obtain ⟨a, b, -, -, hb, -⟩ := exists_answer hq' hprom hrep hexec.symm P.state.held
      simp [Deployed.reply hp' hq' hu hidle hb]
    | throw e =>
      -- a handler does not crash within the promise
      obtain ⟨⟨r, σ'⟩, hr⟩ := Option.isSome_iff_exists.1 hprom
      obtain ⟨r', d', hx, -⟩ := hrep.perform env hr
      rw [Extent.serve, Extent.exec_map _ hx] at hexec
      exact absurd hexec (by simp)

variable (hL : Locked op P phase) (hstuck : ∀ t, D.step N envs t = none)
include hL hstuck

/-- If no operation can move, then no call of `acquire` or `release` can. -/
theorem poolStep_eq_none {lid : Lock.Lid} (hin : ((D.locks.lane lid).pc t).inCall = true) :
    poolStep N D.locks (t, lid) = none := by
  have hten : D.locks.tenure lid t = .acquiring ∨ D.locks.tenure lid t = .releasing :=
    Lock.PC.tenure_of_inCall hin
  obtain rfl : lid = lockId (op t).target := by
    by_contra hne
    rw [h.away t lid hne] at hten
    exact absurd hten (by simp)
  have hnone := hstuck t
  rcases hten with hten | hten
  · obtain ⟨k, hp⟩ := (h.thread t).of_acquiring hten (hL.obeys t)
    rw [Deployed.step, hp] at hnone
    exact Deployed.lockStep_eq_none hnone (by simp [hten])
  · obtain ⟨k, hp⟩ := (h.thread t).of_releasing hten
    rw [Deployed.step, hp] at hnone
    exact Deployed.lockStep_eq_none hnone (by simp [hten])

variable (hid : ∀ c, N.id c ≠ "") (hok : D.locks.RoomyOk N)
include hid hok

/-- If no operation can move, then none is inside an RPC of the lock service: with a thread of the
server's to spare, somebody could go on. -/
theorem inRpc_eq_false (lid : Lock.Lid) : ((D.locks.lane lid).pc t).inRpc = false := by
  rw [← Bool.not_eq_true]
  intro hrpc
  have hroom : D.locks.handlers < poolSize := lt_of_le_of_lt hok.handlers (by decide)
  obtain ⟨u, lid', s, hu, hs⟩ := Lock.exists_poolStep hok.toPoolOk hid hroom hrpc
  rw [h.poolStep_eq_none hL hstuck (Lock.PC.inCall_of_inRpc hu)] at hs
  exact absurd hs (by simp)

/-- So nobody who could take a step of the service without pools is at rest. -/
theorem step_eq_none {c : Cmd} {k : c.Ans → ClientM Result} (hp : D.prog t = .call c k)
    (hc : c = .acquire (op t).target ∧ D.locks.tenure (lockId (op t).target) t = .out ∨
      c = .release (op t).target ∧ D.locks.tenure (lockId (op t).target) t = .held) :
    Lock.step N D.locks (t, lockId (op t).target) = none := by
  rw [← poolStep_eq_step (h.inRpc_eq_false hL hstuck hid hok _)]
  have hnone := hstuck t
  rcases hc with ⟨rfl, hten⟩ | ⟨rfl, hten⟩
  · rw [Deployed.step, hp] at hnone
    exact Deployed.lockStep_eq_none hnone (by simp [hten])
  · rw [Deployed.step, hp] at hnone
    exact Deployed.lockStep_eq_none hnone (by simp [hten])

/-- An operation that is not inside a call has ended. -/
theorem ended_of_stuck (hten : D.locks.tenure (lockId (op t).target) t = .out ∨
    D.locks.tenure (lockId (op t).target) t = .held) : D.Ended t := by
  cases hp : D.prog t with
  | pure r => exact ⟨.ok r, hp⟩
  | throw e => exact ⟨.error e, hp⟩
  | call c k =>
    exfalso
    cases hq : c.request with
    | some q =>
      obtain ⟨u, hu⟩ := h.exists_step_of_request hp hq
      exact hu (hstuck u)
    | none =>
      have hsome := h.locks.isSome_step hid (h.busy t) (Or.inr hten)
      have hcmd : c = .acquire (op t).target ∧ D.locks.tenure (lockId (op t).target) t = .out ∨
          c = .release (op t).target ∧ D.locks.tenure (lockId (op t).target) t = .held := by
        cases c with
        | acquire lid =>
          obtain ⟨rfl, -, -, hacq⟩ := (h.thread t).of_acquire hp (hL.obeys t)
          refine Or.inl ⟨rfl, hten.resolve_right fun hheld ↦ ?_⟩
          rcases hacq with hacq | hacq <;> exact absurd (hacq.symm.trans hheld) (by simp)
        | release lid =>
          obtain ⟨rfl, ⟨hheld, -⟩ | ⟨hrel, -⟩⟩ := (h.thread t).of_release hp (hL.obeys t)
          · exact Or.inr ⟨rfl, hheld⟩
          · rcases hten with hten | hten <;> exact absurd (hrel.symm.trans hten) (by simp)
        | _ => exact absurd hq (by simp [Cmd.request])
      rw [h.step_eq_none hL hstuck hid hok hp hcmd] at hsome
      exact absurd hsome (by simp)

/-- **A halt.**  If no operation can move, then an operation that has not ended waits for a lock,
and the operation that has the lock has crashed. -/
theorem crashed_of_stuck (t : ι) : D.Ended t ∨ ∃ u e, D.prog u = .throw e ∧
    D.locks.tenure (lockId (op t).target) u = .held := by
  cases hten : D.locks.tenure (lockId (op t).target) t with
  | out => exact Or.inl (h.ended_of_stuck hL hstuck hid hok (Or.inl hten))
  | held => exact Or.inl (h.ended_of_stuck hL hstuck hid hok (Or.inr hten))
  | releasing =>
    -- inside a `release` there is always something left to do
    have hrpc := h.inRpc_eq_false hL hstuck hid hok (lockId (op t).target) (t := t)
    exact absurd (Lock.PC.inRpc_of_releasing hten) (by simp [hrpc])
  | acquiring =>
    right
    have hblocked : ∀ x l, ((D.locks.lane l).pc x).inCall = true →
        Lock.step N D.locks (x, l) = none := by
      intro x l hin
      rw [← poolStep_eq_step (h.inRpc_eq_false hL hstuck hid hok l)]
      exact h.poolStep_eq_none hL hstuck hin
    obtain ⟨u, hu⟩ := h.locks.held_of_blocked hid hblocked hten
    have hlock : lockId (op t).target = lockId (op u).target := by
      by_contra hne
      exact absurd ((h.away u _ hne).symm.trans hu) (by simp)
    rw [hlock] at hu ⊢
    obtain ⟨o, ho⟩ := h.ended_of_stuck hL hstuck hid hok (Or.inr hu)
    obtain ⟨e, he⟩ := (h.thread u).crashed_of_held hu ho (hL.obeys u)
    exact ⟨u, e, he, hu⟩

end Refines

/-- **The deployed file system does not come to a halt.**  Operations of any number of clients are
executed as before, with never more than five `acquire` handlers on the lock server at a time.  If
no operation can take a step, then every operation has ended, or waits for a lock that was held by
an operation that has crashed. -/
theorem deployed_progress (N : Cluster C ι) (hid : ∀ c, N.id c ≠ "") (envs : Nat → Env)
    (op : ι → Op) {disk : Disk} {σ : Store} (hdisk : Rep disk σ) {run : List ι} {D : Deployed C ι}
    (hrun : run.foldlM (Deployed.step N envs) (deployed disk op) = some D)
    (hprom : Along (Deployed.step N envs) Deployed.Promised (deployed disk op) run)
    (halone : Along (Deployed.step N envs) Deployed.Alone (deployed disk op) run)
    (hroomy : Along (Deployed.step N envs) Deployed.Roomy (deployed disk op) run)
    (hstuck : ∀ t, D.step N envs t = none) (t : ι) :
    D.Ended t ∨ ∃ u e, D.prog u = .throw e ∧ D.locks.tenure (lockId (op t).target) u = .held := by
  have hstep : ∀ (D : Deployed C ι) (t : ι) (D' : Deployed C ι) (P : Clients ι),
      ((∃ phase, Locked op P phase ∧ Refines N op D P phase) ∧ D.locks.RoomyOk N) →
      (D.Promised t ∧ D.Alone t ∧ D.Roomy t) → D.step N envs t = some D' →
      ∃ (acts : List ι) (P' : Clients ι), acts.Sublist [t] ∧ acts.foldlM Client.step P = some P' ∧
        (∃ phase, Locked op P' phase ∧ Refines N op D' P' phase) ∧ D'.locks.RoomyOk N := by
    rintro D t D' P ⟨⟨phase, hL, href⟩, hok⟩ ⟨hprom, halone, hroomy⟩ hs
    obtain ⟨acts, P', hacts, hsteps, hnext⟩ := href.step hL hprom halone hs
    exact ⟨acts, P', hacts, hsteps, hnext, Deployed.roomyOk_step hok hroomy hs⟩
  obtain ⟨-, P, -, -, ⟨phase, hL, href⟩, hok⟩ := run_simulation (fun t ↦ [t]) hstep run
    (deployed disk op) D (called ⟨σ, fun _ ↦ false⟩ op) (hprom.and (halone.and hroomy))
    ⟨⟨_, locked_called _ op, refines_deployed hdisk N op⟩, Lock.roomyOk_init⟩ hrun
  exact href.crashed_of_stuck hL hstuck hid hok t

/-- The lock is revoked while an operation uses it, and is handed on. -/
theorem deployed_progress_pairOps : ∃ (disk : Disk) (run : List Bool) (D : Deployed Bool Bool),
    Rep disk (Store.filled [104] 1) ∧
    run.foldlM (Deployed.step Lock.twoClients fun _ ↦ default) (deployed disk pairOps) = some D ∧
    (∀ t, D.step Lock.twoClients (fun _ ↦ default) t = none) ∧
    ∀ t, D.Ended t ∨ ∃ u e, D.prog u = .throw e ∧
      D.locks.tenure (lockId (pairOps t).target) u = .held := by
  obtain ⟨calls, disk, hs⟩ := Extent.exists_session_filled [104] 1 (by decide) (by decide)
    (by decide)
  obtain ⟨D, ⟨run, hrun, halong⟩, hres⟩ := pairEnds_deployed hs.rep
  have hstuck : ∀ t, D.step Lock.twoClients (fun _ ↦ default) t = none := by
    intro t
    rw [Deployed.step, hres t]
    cases t <;> rfl
  exact ⟨disk, run, D, hs.rep, hrun, hstuck, deployed_progress Lock.twoClients
    (fun c ↦ by cases c <;> simp [Lock.twoClients]) (fun _ ↦ default) pairOps hs.rep hrun
    (halong.mono fun _ _ h ↦ h.promised) (halong.mono fun _ _ h ↦ h.alone)
    (halong.mono fun _ _ h ↦ h.roomy) hstuck⟩

end Client
end Yfs
