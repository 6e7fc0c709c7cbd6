import Mathlib.Data.Fin.VecNotation
import Yfs.Client.Linear

/-!
# Removing a file that is in use

`unlink` holds the lock of the directory and removes the inode that the entry names, without the
lock of that inode.  Meanwhile another client may be in the middle of an operation on the inode.

* A `write` that has read the file goes on to write to an inode that is not live any more, and the
  extent server goes down.
* Or somebody has made a new file in between.  It has got the same number, because the first free
  inode is the one that is taken, and so the `write` stores what it has read of the old file into
  the new one (`unlink_breaks_write`).

An operation that writes an inode always holds its lock, or has made it.  If moreover no inode is
removed that an operation in progress works on (`Quiet`), then nothing gets lost
(`putSafe_of_quiet`).  The rule that whoever removes an inode holds its lock is not kept by any
`unlink` even then.
-/

set_option autoImplicit false

namespace Yfs
namespace Client

open Machine
open Extent (File Store inumOf)

variable {ι : Type} {op : ι → Op} {s₀ : State} {P P' : Clients ι} {phase : ι → Phase} {t u : ι}
  {x : Act Cmd.Ans} {g' : Phase} {i id : Nat}

/-! ## What an operation has, and what it is about to do -/

/-- The operation holds the lock. -/
def HoldsLock (P : Clients ι) (t : ι) (lid : Nat) : Prop :=
  (∃ e ∈ P.hist, e.1 = t ∧ e.2.cmd = .acquire lid) ∧ ∀ e ∈ P.hist, e.1 = t → e.2.cmd ≠ .release lid

/-- The inode that a step has made. -/
def createdBy : Act Cmd.Ans → Option Nat
  | ⟨.create _, .ok i⟩ => some i
  | _ => none

/-- The operation has made the inode. -/
def Created (P : Clients ι) (t : ι) (i : Nat) : Prop :=
  ∃ e ∈ P.hist, e.1 = t ∧ createdBy e.2 = some i

/-- The operation holds the lock of the inode, or has made the inode. -/
def Entitled (P : Clients ι) (t : ι) (i : Nat) : Prop := HoldsLock P t i ∨ Created P t i

/-- The operation has begun and has not ended. -/
def InProgress (P : Clients ι) (t : ι) : Prop := t ∈ P.hist.map Prod.fst ∧ ¬ P.Ended t

/-- The inode has not been removed since the operation has got its lock, or has made it. -/
def SameFile (P : Clients ι) (t : ι) (i : Nat) : Prop :=
  P.hist.Pairwise fun e e' ↦ e.1 = t → e.2.cmd = .acquire i ∨ createdBy e.2 = some i →
    ∀ id, e'.2.cmd = .remove id → inumOf id ≠ i

/-- If the operation is about to write an inode, then it is entitled to, the inode is live, and it
is still the same file. -/
def PutSafe (P : Clients ι) (t : ι) : Prop :=
  ∀ id buf, (P.prog t).next = some (.put id buf) →
    Entitled P t (inumOf id) ∧ P.state.files (inumOf id) ≠ none ∧ SameFile P t (inumOf id)

/-- The inode that a command removes. -/
def Cmd.removed : Cmd → Option Nat
  | .remove id => some (inumOf id)
  | _ => none

/-- The inode that the operation is about to remove. -/
def removing (P : Clients ι) (t : ι) : Option Nat := (P.prog t).next.bind Cmd.removed

/-- If the operation is about to remove an inode, then it is entitled to. -/
def RemoveSafe (P : Clients ι) (t : ι) : Prop := ∀ i ∈ removing P t, Entitled P t i

/-- An operation begins on a live inode, and does not remove an inode that an operation in progress
works on. -/
def Quiet (op : ι → Op) (P : Clients ι) (t : ι) : Prop :=
  (t ∉ P.hist.map Prod.fst →
    inumOf (op t).target = (op t).target ∧ P.state.files (op t).target ≠ none) ∧
  ∀ i ∈ removing P t, ∀ u, InProgress P u → (op u).target ≠ i ∧ ¬ Created P u i

/-! ## What the operation knows -/

theorem removing_eq_some : removing P t = some i ↔
    ∃ id, (P.prog t).next = some (.remove id) ∧ inumOf id = i := by
  rw [removing, Option.bind_eq_some_iff]
  constructor
  · rintro ⟨c, hc, hr⟩
    cases c with
    | remove id => exact ⟨id, hc, Option.some_inj.1 hr⟩
    | _ => exact absurd hr (by simp [Cmd.removed])
  · rintro ⟨id, hc, rfl⟩
    exact ⟨_, hc, rfl⟩

theorem not_ended_of_next {c : Cmd} (h : (P.prog t).next = some c) : ¬ P.Ended t := by
  rintro ⟨o, ho⟩
  rw [ho] at h
  cases o <;> exact absurd h (by simp [Prog.ofExcept, Prog.next])

namespace Locked

variable (hL : Locked op P phase)
include hL

theorem allowed_of_next {c : Cmd} (h : (P.prog t).next = some c) :
    (discipline (op t).target (op t).removes).allowed (phase t) c := by
  have hob := hL.obeys t
  cases hp : P.prog t with
  | call c' k =>
    rw [hp] at h hob
    obtain rfl := Option.some_inj.1 h
    exact hob.1
  | _ => rw [hp] at h; exact absurd h (by simp [Prog.next])

theorem holdsLock (hh : (phase t).Holds) : HoldsLock P t (op t).target := by
  obtain ⟨made, hg⟩ := hh
  refine ⟨hL.acquired t (by rw [hg]; simp), fun e he het hrel ↦ ?_⟩
  obtain ⟨made', hd⟩ := (hL.within e he).released _ hrel
  rw [het, hg] at hd
  exact absurd hd (by simp)

theorem created (hm : (phase t).made = some i) : Created P t i := by
  obtain ⟨-, type, hmem⟩ := hL.made t i hm
  exact ⟨_, hmem, rfl, rfl⟩

theorem inProgress (hh : (phase t).Holds) (hrun : ¬ P.Ended t) : InProgress P t := by
  obtain ⟨made, hg⟩ := hh
  exact ⟨hL.mem_of_started (by rw [hg]; simp), hrun⟩

theorem idle_notMem (hidle : phase t = .idle) : t ∉ P.hist.map Prod.fst := by
  intro hmem
  obtain ⟨e, he, rfl⟩ := List.mem_map.1 hmem
  exact (hL.within e he).started hidle

/-- Whoever removes an inode is not entitled to, if nobody works on it. -/
theorem removeSafe_iff (hq : Quiet op P t) : RemoveSafe P t ↔ removing P t = none := by
  constructor
  · intro hsafe
    by_contra hne
    obtain ⟨i, hi⟩ := Option.ne_none_iff_exists'.1 hne
    obtain ⟨id, hnext, -⟩ := removing_eq_some.1 hi
    have hh : (phase t).Holds := by
      have hallowed := hL.allowed_of_next hnext
      cases hg : phase t with
      | holding made => exact ⟨made, rfl⟩
      | _ => rw [hg] at hallowed; exact hallowed.elim
    obtain ⟨htarget, hmade⟩ := hq.2 i hi t (hL.inProgress hh (not_ended_of_next hnext))
    rcases hsafe i hi with ⟨⟨e, he, rfl, hacq⟩, -⟩ | hcreated
    · exact htarget ((hL.within e he).lock i (by rw [hacq]; rfl)).symm
    · exact hmade hcreated
  · intro hnone i hi
    exact absurd hi (by simp [hnone])

end Locked

/-! ## Quiet runs -/

/-- What an operation in progress works on stays as it is. -/
structure Kept (op : ι → Op) (P : Clients ι) (phase : ι → Phase) : Prop where
  locked : Locked op P phase
  target : ∀ t, phase t ≠ .idle → inumOf (op t).target = (op t).target
  live : ∀ t, (phase t).Holds → ¬ P.Ended t →
    P.state.files (op t).target ≠ none ∧ ∀ i, (phase t).made = some i → P.state.files i ≠ none
  same : P.hist.Pairwise fun e e' ↦ ¬ P.Ended e.1 → ∀ i,
    e.2.cmd = .acquire i ∨ createdBy e.2 = some i → ∀ id, e'.2.cmd = .remove id → inumOf id ≠ i

theorem kept_called (s₀ : State) (op : ι → Op) : Kept op (called s₀ op) fun _ ↦ .idle where
  locked := locked_called s₀ op
  target := by simp
  live := by rintro t ⟨made, h⟩; exact absurd h (by simp)
  same := List.Pairwise.nil

theorem Kept.putSafe (h : Kept op P phase) (t : ι) : PutSafe P t := by
  intro id buf hnext
  have hallowed := h.locked.allowed_of_next hnext
  have hrun := not_ended_of_next hnext
  cases hg : phase t with
  | idle => rw [hg] at hallowed; exact hallowed.elim
  | done made => rw [hg] at hallowed; exact hallowed.elim
  | holding made =>
    rw [hg] at hallowed
    have hh : (phase t).Holds := ⟨made, hg⟩
    obtain ⟨htarget, hmade⟩ := h.live t hh hrun
    have hsame : ∀ i, SameFile P t i := fun i ↦ h.same.imp fun {e e'} hold het hown ↦
      hold (by rwa [het]) i hown
    rcases hallowed with rfl | hid
    · rw [h.target t (by rw [hg]; simp)]
      exact ⟨Or.inl (h.locked.holdsLock hh), htarget, hsame _⟩
    · have hm : (phase t).made = some id := by rw [hg]; exact hid
      rw [(h.locked.made t id hm).1]
      exact ⟨Or.inr (h.locked.created hm), hmade id hm, hsame _⟩

section Step

variable [DecidableEq ι]

theorem StepOf.next (hst : StepOf op P P' phase t x g') (hs : Client.step P t = some P') :
    (P.prog t).next = some x.cmd := by
  obtain ⟨c, k, a, s', hp, -, rfl⟩ := Pool.step_cases hs
  have hx := hst.hist
  rw [List.append_cancel_left_eq, List.cons.injEq, Prod.mk.injEq] at hx
  rw [hp, ← hx.1.2]
  rfl

omit [DecidableEq ι] in
theorem StepOf.running_of_running (hst : StepOf op P P' phase t x g') (hu : ¬ P'.Ended u) :
    ¬ P.Ended u := by
  by_cases hne : u = t
  · subst hne
    exact hst.running
  · rwa [Pool.Ended, ← hst.other u hne]

/-- **What operations in progress work on stays as it is**, if nobody removes it. -/
theorem Kept.step (h : Kept op P phase) (hq : Quiet op P t) (hs : Client.step P t = some P') :
    ∃ phase', Kept op P' phase' := by
  obtain ⟨x, g', hst, hL'⟩ := h.locked.step hs
  have hremoves : ∀ id, x.cmd = .remove id → ∀ u, InProgress P u →
      (op u).target ≠ inumOf id ∧ ¬ Created P u (inumOf id) := by
    intro id hx
    exact hq.2 _ (removing_eq_some.2 ⟨id, by rw [hst.next hs, hx], rfl⟩)
  -- an inode that an operation in progress works on is not removed by this step
  have hlive : ∀ u, (phase u).Holds → ¬ P.Ended u →
      P'.state.files (op u).target ≠ none ∧
        ∀ i, (phase u).made = some i → P'.state.files i ≠ none := by
    intro u hh hrun
    have hin := h.locked.inProgress hh hrun
    obtain ⟨h₁, h₂⟩ := h.live u hh hrun
    refine ⟨hst.move.live_of_ne (fun id hx ↦ (hremoves id hx u hin).1.symm) h₁, fun i hi ↦ ?_⟩
    refine hst.move.live_of_ne (fun id hx heq ↦ ?_) (h₂ i hi)
    exact (hremoves id hx u hin).2 (heq ▸ h.locked.created hi)
  refine ⟨_, hL', fun u hu ↦ ?_, fun u hu hrun ↦ ?_, ?_⟩
  · by_cases hidle : phase u = .idle
    · have hut : u = t := by
        by_contra hne
        exact hu ((Function.update_of_ne hne _ _).trans hidle)
      subst hut
      exact (hq.1 (h.locked.idle_notMem hidle)).1
    · exact h.target u hidle
  · by_cases hut : u = t
    · subst hut
      rw [Function.update_self] at hu ⊢
      rcases hst.move.idle_or_holds with ⟨hidle, rfl⟩ | hh
      · have hbegin := (hq.1 (h.locked.idle_notMem hidle)).2
        refine ⟨hst.move.live_of_ne (fun id hx ↦ ?_) hbegin, by simp [Phase.made]⟩
        have hacq := hst.move.cmd_of_idle hidle
        exact absurd (hx.symm.trans hacq) (by simp)
      · obtain ⟨h₁, h₂⟩ := hlive u hh hst.running
        refine ⟨h₁, fun i hi ↦ ?_⟩
        rcases hst.move.made_cases hi with hold | ⟨-, hnew, -⟩
        · exact h₂ i hold
        · exact hnew
    · rw [Function.update_of_ne hut] at hu ⊢
      exact hlive u hu (hst.running_of_running hrun)
  · rw [hst.hist, List.pairwise_append]
    refine ⟨h.same.imp fun {e e'} hold hrun ↦ hold (hst.running_of_running hrun),
      List.pairwise_singleton _ _, fun e he e' he' hrun i hown id hx ↦ ?_⟩
    obtain rfl := List.mem_singleton.1 he'
    obtain ⟨htarget, hmade⟩ :=
      hremoves id hx e.1 ⟨List.mem_map_of_mem he, hst.running_of_running hrun⟩
    rintro rfl
    rcases hown with hacq | hcreated
    · exact htarget ((h.locked.within e he).lock _ (by rw [hacq]; rfl)).symm
    · exact hmade ⟨e, he, rfl, hcreated⟩

/-- **When no inode is removed that an operation in progress works on**, whoever writes an inode
holds its lock or has made it, and the inode is live and still the same file.  But whoever removes
an inode is never one who holds its lock: that would be so only if nothing were removed at all. -/
theorem putSafe_of_quiet (s₀ : State) (op : ι → Op) (run : List ι)
    (hq : Along Client.step (Quiet op) (called s₀ op) run) :
    Along Client.step PutSafe (called s₀ op) run ∧
      (Along Client.step (fun P t ↦ PutSafe P t ∧ RemoveSafe P t) (called s₀ op) run ↔
        Along Client.step (fun P t ↦ removing P t = none) (called s₀ op) run) := by
  have hboth := hq.and_invariant (P := fun P ↦ ∃ phase, Kept op P phase)
    (fun P t P' ⟨phase, h⟩ hq hs ↦ h.step hq hs) ⟨_, kept_called s₀ op⟩
  refine ⟨hboth.mono fun P t ⟨_, phase, h⟩ ↦ h.putSafe t, fun hsafe ↦ ?_, fun hnone ↦ ?_⟩
  · refine (hboth.and hsafe).mono fun P t ⟨⟨hq, phase, h⟩, _, hrm⟩ ↦ ?_
    exact (h.locked.removeSafe_iff hq).1 hrm
  · refine (hboth.and hnone).mono fun P t ⟨⟨hq, phase, h⟩, hnone⟩ ↦ ?_
    exact ⟨h.putSafe t, (h.locked.removeSafe_iff hq).2 hnone⟩

end Step

/-! ## Runs -/

instance decidableCreated [DecidableEq ι] : Decidable (Created P t i) :=
  inferInstanceAs (Decidable (∃ e ∈ P.hist, e.1 = t ∧ createdBy e.2 = some i))

instance decidableEnded : Decidable (P.Ended t) :=
  match hp : P.prog t with
  | .pure a => isTrue ⟨.ok a, hp⟩
  | .throw e => isTrue ⟨.error e, hp⟩
  | .call c k => isFalse (not_ended_of_next (c := c) (by rw [hp]; rfl))

instance decidableQuiet {n : Nat} {op : Fin n → Op} {P : Clients (Fin n)} {t : Fin n} :
    Decidable (Quiet op P t) :=
  have (u : Fin n) : Decidable (InProgress P u) :=
    inferInstanceAs (Decidable (u ∈ P.hist.map Prod.fst ∧ ¬ P.Ended u))
  inferInstanceAs (Decidable (_ ∧ _))

/-- Two directories and a file in one of them. -/
def unlinkFiles : Store
  | 1 => some ⟨Extent.tDir, [102, 47, 50, 47]⟩
  | 2 => some ⟨Extent.tFile, [111, 108, 100]⟩
  | 3 => some ⟨Extent.tDir, []⟩
  | _ => none

/-- The file is removed, written to, and another one made in its place. -/
def unlinkOps : Fin 3 → Op := ![.unlink 1 [102], .write 2 0 [120], .create 3 [103] 0]

/-- The start of these operations. -/
def unlinkStart : Clients (Fin 3) := called ⟨unlinkFiles, fun _ ↦ false⟩ unlinkOps

theorem run_remove : ∃ P, [1, 1, 0, 0, 0].foldlM step unlinkStart = some P ∧
    removing P 0 = some 2 ∧ P.hist.map (fun e ↦ (e.1, e.2.cmd)) =
      [(1, .acquire 2), (1, .get 2), (0, .acquire 1), (0, .getattr 1), (0, .get 1)] ∧
    ¬ Created P 0 2 :=
  ⟨_, rfl, rfl, rfl, by decide⟩

theorem run_put : ∃ P, [1, 1, 0, 0, 0, 0].foldlM step unlinkStart = some P ∧
    (P.prog 1).next = some (.put 2 [120, 108, 100]) ∧ P.state.files 2 = none :=
  ⟨_, rfl, rfl, rfl⟩

/-- **A removed file is written to.**  The `write` has read the file when the `unlink` removes it,
which it does without holding the lock of the file.  The `write` is then about to write to an inode
that is not live; or else, when the `create` has got that inode, it writes the old content into the
new file. -/
theorem unlink_breaks_write :
    (∃ P, [1, 1, 0, 0, 0].foldlM step unlinkStart = some P ∧ ¬ RemoveSafe P 0) ∧
    (∃ P, [1, 1, 0, 0, 0, 0].foldlM step unlinkStart = some P ∧ ¬ PutSafe P 1) ∧
    ∃ P, [1, 1, 0, 0, 0, 0, 2, 2, 2, 2, 2, 2, 2, 1].foldlM step unlinkStart = some P ∧
      P.prog 2 = .pure (.ino 0 2) ∧ P.state.files 2 = some ⟨Extent.tFile, [120, 108, 100]⟩ := by
  refine ⟨?_, ?_, _, rfl, rfl, rfl⟩
  · obtain ⟨P, hrun, hrm, hhist, hmade⟩ := run_remove
    refine ⟨P, hrun, fun hsafe ↦ ?_⟩
    rcases hsafe 2 hrm with ⟨⟨e, he, ht, hacq⟩, -⟩ | hcreated
    · have hmem := List.mem_map_of_mem (f := fun e ↦ (e.1, e.2.cmd)) he
      rw [hhist, ht, hacq] at hmem
      exact absurd hmem (by decide)
    · exact hmade hcreated
  · obtain ⟨P, hrun, hput, hnone⟩ := run_put
    exact ⟨P, hrun, fun hsafe ↦ (hsafe 2 _ hput).2.1 hnone⟩

/-- The file is removed while another one is being written. -/
def quietOps : Fin 2 → Op := ![.unlink 1 [102], .write 3 0 [120]]

theorem quiet_quietOps : Along step (Quiet quietOps) (called ⟨unlinkFiles, fun _ ↦ false⟩ quietOps)
    [1, 1, 0, 0, 0, 0, 0, 0, 0, 1, 1] := by
  decide

theorem putSafe_quietOps :
    Along step (Quiet quietOps) (called ⟨unlinkFiles, fun _ ↦ false⟩ quietOps)
        [1, 1, 0, 0, 0, 0, 0, 0, 0, 1, 1] ∧
      Along step PutSafe (called ⟨unlinkFiles, fun _ ↦ false⟩ quietOps)
        [1, 1, 0, 0, 0, 0, 0, 0, 0, 1, 1] :=
  ⟨quiet_quietOps, (putSafe_of_quiet _ quietOps _ quiet_quietOps).1⟩

end Client
end Yfs
