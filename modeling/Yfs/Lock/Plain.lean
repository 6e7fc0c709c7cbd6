import Mathlib.Logic.Function.Basic
import Yfs.Machine.Run
import Yfs.Lock.System

/-!
# The lock server without a cache

`lock_server` is the older server: a lock is free or taken, and whoever asks for a lock that is
taken waits at the server.  Each handler is one critical section of the server's mutex, except that
an `acquire` may wait for a condition in the middle of its section.  When it wakes up, with or
without a signal, it looks at the lock again.

A lock is put into the pool by the first `acquire` for it.  That `acquire` returns, but it leaves
the new lock *free*, and so the next one returns at once (`granted_twice`).  Everything is in order
as soon as the lock has been released for the first time: no two acquires return without a release
in between if and only if nobody asks for a lock between the first `acquire` and the first `release`
of it (`exclusive_iff_settled`).
-/

set_option autoImplicit false

namespace Yfs
namespace Lock
namespace Plain

open Machine

/-- The anonymous `state` enumeration of `lock_server::lock_t`. -/
inductive LockState where
  | free | locked
  deriving DecidableEq, Repr

/-! ## The handlers -/

/-- The `while` of `lock_server::acquire` and what comes after it: the lock, and whether the handler
returns or waits. -/
def acquireLoop : LockState → LockState × Bool
  | .locked => (.locked, false)
  | .free => (.locked, true)

/-- `lock_server::acquire` for this entry of `lock_pool`. -/
def acquire : Option LockState → LockState × Bool
  | some l => acquireLoop l
  | none => (.free, true)

/-- `lock_server::release` for this entry of `lock_pool`, and the status. -/
def release : Option LockState → Option LockState × Status
  | none => (none, .noEnt)
  | some _ => (some .free, .ok)

/-! ## The server -/

/-- What concerns one lock. -/
structure Lane where
  /-- The entry of `lock_pool`. -/
  entry : Option LockState := none
  /-- How many acquires have returned since a release was processed. -/
  granted : Nat := 0
  /-- Whether a release has found the lock. -/
  released : Bool := false

/-- The handlers `T` that wait, and for which locks. -/
structure State (T : Type) where
  lane : Lid → Lane := fun _ ↦ {}
  waiting : T → Option Lid := fun _ ↦ none

/-- A request is processed, or a handler that waits wakes up. -/
inductive Event (T : Type) where
  | acquire (t : T) (lid : Lid)
  | wake (t : T)
  | release (lid : Lid)

variable {T : Type} [DecidableEq T]

/-- A handler has come out of the `while`, or goes on waiting. -/
def finish (s : State T) (t : T) (lid : Lid) (r : LockState × Bool) : State T :=
  let l := s.lane lid
  ⟨Function.update s.lane lid
      { l with entry := some r.1, granted := if r.2 then l.granted + 1 else l.granted },
    Function.update s.waiting t (if r.2 then none else some lid)⟩

/-- A handler that waits looks at its lock again. -/
def wake (s : State T) (t : T) (lid : Lid) : State T :=
  finish s t lid (acquireLoop ((s.lane lid).entry.getD .free))

/-- The lane after `lock_server::release`. -/
def Lane.release (l : Lane) : Lane :=
  let r := Plain.release l.entry
  { entry := r.1, granted := 0, released := l.released || r.2 = .ok }

/-- One step of the server. -/
def step (s : State T) : Event T → Option (State T)
  | .acquire t lid =>
    match s.waiting t with
    | none => some (finish s t lid (acquire (s.lane lid).entry))
    | some _ => none
  | .wake t => (s.waiting t).map (wake s t)
  | .release lid =>
    some { s with lane := Function.update s.lane lid (s.lane lid).release }

/-- After this step no lock has been granted twice without a release. -/
def Exclusive (s : State T) (ev : Event T) : Prop :=
  ∀ s', step s ev = some s' → ∀ lid, (s'.lane lid).granted ≤ 1

/-- Nobody asks for a lock that has been granted and never been released. -/
def Settled (s : State T) : Event T → Prop
  | .acquire _ lid => (s.lane lid).granted = 0 ∨ (s.lane lid).released = true
  | _ => True

instance (s : State T) : (ev : Event T) → Decidable (Settled s ev)
  | .acquire _ _ => inferInstanceAs (Decidable (_ ∨ _))
  | .wake _ => isTrue trivial
  | .release _ => isTrue trivial

/-! ## Mutual exclusion -/

/-- A lock that has been released once is taken when it is granted. -/
structure Lane.Ok (l : Lane) : Prop where
  once : l.granted ≤ 1
  taken : l.granted = 1 → l.released = true → l.entry = some .locked
  unused : l.entry = none → l.granted = 0 ∧ l.released = false
  used : l.entry ≠ none → l.granted = 1 ∨ l.released = true
  locked : l.entry = some .locked → l.released = true

/-- What holds in every state. -/
structure State.Ok (s : State T) : Prop where
  lane : ∀ lid, (s.lane lid).Ok
  waiting : ∀ t lid, s.waiting t = some lid → (s.lane lid).released = true

omit [DecidableEq T] in
theorem ok_init : ({} : State T).Ok :=
  ⟨fun _ ↦ ⟨by simp, by simp, by simp, by simp, by simp⟩, by simp⟩

/-- The lock is free and has been released once, so nobody has it. -/
theorem Lane.Ok.granted_eq_zero {l : Lane} (h : l.Ok) (hfree : l.entry = some .free)
    (hrel : l.released = true) : l.granted = 0 := by
  have hone := h.once
  have htaken : l.granted ≠ 1 := by
    intro heq
    have hlocked := h.taken heq hrel
    rw [hfree] at hlocked
    exact absurd hlocked (by simp)
  omega

theorem State.Ok.finish {s : State T} (h : s.Ok) {t : T} {lid : Lid} {r : LockState × Bool}
    (hl : ({ s.lane lid with
      entry := some r.1
      granted := if r.2 then (s.lane lid).granted + 1 else (s.lane lid).granted } : Lane).Ok)
    (hr : r.2 = false → (s.lane lid).released = true) : (Plain.finish s t lid r).Ok := by
  constructor
  · intro lid'
    simp only [Plain.finish, Function.update_apply]
    split
    · exact hl
    · exact h.lane lid'
  · intro u lid' hu
    have hsame : ((Plain.finish s t lid r).lane lid').released = (s.lane lid').released := by
      simp only [Plain.finish, Function.update_apply]
      split
      · rename_i heq
        rw [heq]
      · rfl
    rw [hsame]
    simp only [Plain.finish, Function.update_apply] at hu
    split at hu
    · split at hu
      · exact absurd hu (by simp)
      · rename_i hret
        rw [← Option.some_inj.1 hu]
        exact hr (by simpa using hret)
    · exact h.waiting u lid' hu

/-- Coming out of the `while`, for a lock that has been released once. -/
theorem Lane.Ok.acquireLoop {l : Lane} (h : l.Ok) {e : LockState} (he : l.entry = some e)
    (hrel : l.released = true) :
    ({ l with
      entry := some (Plain.acquireLoop e).1
      granted := if (Plain.acquireLoop e).2 then l.granted + 1 else l.granted } : Lane).Ok := by
  cases e with
  | locked =>
    exact ⟨h.once, fun _ _ ↦ rfl, fun hn ↦ absurd hn (by simp), fun _ ↦ Or.inr hrel, fun _ ↦ hrel⟩
  | free =>
    have hzero := h.granted_eq_zero he hrel
    refine ⟨?_, fun _ _ ↦ rfl, fun hn ↦ absurd hn (by simp), fun _ ↦ Or.inr hrel, fun _ ↦ hrel⟩
    simp [Plain.acquireLoop, hzero]

/-- The very first acquire. -/
theorem Lane.Ok.created {l : Lane} (h : l.Ok) (he : l.entry = none) :
    ({ l with entry := some .free, granted := l.granted + 1 } : Lane).Ok := by
  obtain ⟨hzero, hrel⟩ := h.unused he
  refine ⟨by simp [hzero], fun _ hr ↦ ?_, fun hn ↦ absurd hn (by simp), fun _ ↦ ?_, fun hl ↦ ?_⟩
  · exact absurd hr (by simp [hrel])
  · exact Or.inl (by simp [hzero])
  · exact absurd hl (by simp)

theorem Lane.Ok.release {l : Lane} (h : l.Ok) : l.release.Ok := by
  cases he : l.entry with
  | none =>
    obtain ⟨-, hrel⟩ := h.unused he
    refine ⟨?_, ?_, ?_, ?_, ?_⟩ <;> simp [Lane.release, Plain.release, he, hrel]
  | some e => refine ⟨?_, ?_, ?_, ?_, ?_⟩ <;> simp [Lane.release, Plain.release, he]

theorem Lane.released_release {l : Lane} (h : l.released = true) : l.release.released = true := by
  simp [Lane.release, h]

theorem State.Ok.acquire {s : State T} (h : s.Ok) {t : T} {lid : Lid}
    (hset : Settled s (.acquire t lid)) :
    (Plain.finish s t lid (Plain.acquire (s.lane lid).entry)).Ok := by
  have hlane := h.lane lid
  cases he : (s.lane lid).entry with
  | none => exact h.finish (hlane.created he) (fun hn ↦ absurd hn (by simp [Plain.acquire]))
  | some e =>
    have hrel : (s.lane lid).released = true := by
      rcases hset with hzero | hrel
      · rcases hlane.used (by simp [he]) with hone | hrel
        · exact absurd hone (by simp [hzero])
        · exact hrel
      · exact hrel
    exact h.finish (hlane.acquireLoop he hrel) (fun _ ↦ hrel)

theorem State.Ok.wake {s : State T} (h : s.Ok) {t : T} {lid : Lid} (hw : s.waiting t = some lid) :
    (Plain.wake s t lid).Ok := by
  have hlane := h.lane lid
  have hrel := h.waiting t lid hw
  cases he : (s.lane lid).entry with
  | none => exact absurd hrel (by simp [(hlane.unused he).2])
  | some e =>
    rw [Plain.wake, he]
    exact h.finish (hlane.acquireLoop he hrel) (fun _ ↦ hrel)

omit [DecidableEq T] in
theorem State.Ok.release {s : State T} (h : s.Ok) (lid : Lid) :
    ({ s with lane := Function.update s.lane lid (s.lane lid).release } : State T).Ok := by
  constructor
  · intro lid'
    rcases eq_or_ne lid' lid with rfl | hne
    · simpa using (h.lane lid').release
    · simpa [hne] using h.lane lid'
  · intro t lid' hw
    have hrel := h.waiting t lid' hw
    rcases eq_or_ne lid' lid with rfl | hne
    · simpa using Lane.released_release hrel
    · simpa [hne] using hrel

/-- A settled step keeps everything in order. -/
theorem State.Ok.step {s s' : State T} {ev : Event T} (h : s.Ok) (hset : Settled s ev)
    (hs : Plain.step s ev = some s') : s'.Ok := by
  cases ev with
  | acquire t lid =>
    simp only [Plain.step] at hs
    split at hs
    · rw [← Option.some_inj.1 hs]
      exact h.acquire hset
    · exact absurd hs (by simp)
  | wake t =>
    obtain ⟨lid, hw, rfl⟩ := Option.map_eq_some_iff.1 hs
    exact h.wake hw
  | release lid =>
    rw [← Option.some_inj.1 hs]
    exact h.release lid

/-- An acquire that is not settled finds the lock free and returns, although the lock has been
granted. -/
theorem State.Ok.settled {s s' : State T} {ev : Event T} (h : s.Ok)
    (hs : Plain.step s ev = some s') (hex : Exclusive s ev) : Settled s ev := by
  cases ev with
  | wake t => trivial
  | release lid => trivial
  | acquire t lid =>
    have hlane := h.lane lid
    by_contra hnot
    obtain ⟨hgranted, hrel⟩ := not_or.1 hnot
    have hfree : (s.lane lid).entry = some .free := by
      cases he : (s.lane lid).entry with
      | none => exact absurd (hlane.unused he).1 hgranted
      | some e =>
        cases e with
        | free => rfl
        | locked => exact absurd (hlane.locked he) hrel
    have htwice := hex s' hs lid
    simp only [Plain.step] at hs
    split at hs
    · rw [← Option.some_inj.1 hs] at htwice
      exact hgranted (by simpa [Plain.finish, Plain.acquire, Plain.acquireLoop, hfree] using htwice)
    · exact absurd hs (by simp)

/-- **Mutual exclusion.**  A run keeps two acquires of a lock from returning without a release in
between if and only if nobody asks for a lock between the first acquire of it and its first
release. -/
theorem exclusive_iff_settled (run : List (Event T)) (s : State T)
    (hrun : run.foldlM step {} = some s) :
    Along step Exclusive {} run ↔ Along step Settled {} run := by
  refine along_congr ?_ ?_ run {} s ok_init hrun
  · intro s ev s' hok hset hs
    exact hok.step hset hs
  · intro s ev s' hok hs
    constructor
    · intro hex
      exact hok.settled hs hex
    · intro hset s₁ hs₁ lid
      exact ((hok.step hset hs₁).lane lid).once

/-- The lock is used by one client first and then by two, one of which waits and is woken twice. -/
def orderly : List (Event (Fin 2)) :=
  [.acquire 0 7, .release 7, .acquire 0 7, .acquire 1 7, .wake 1, .release 7, .wake 1, .release 7]

theorem orderly_runs : ∃ s, orderly.foldlM step {} = some s := ⟨_, rfl⟩

theorem exclusive_orderly : Along step Exclusive {} orderly := by
  obtain ⟨s, hrun⟩ := orderly_runs
  exact (exclusive_iff_settled orderly s hrun).2 (by decide)

/-- Two clients ask for a lock that nobody has used before, and both are told that they have it. -/
theorem granted_twice :
    ∃ s : State (Fin 2), [Event.acquire 0 7, .acquire 1 7].foldlM step {} = some s ∧
      (s.lane 7).entry = some .locked ∧ (s.lane 7).granted = 2 :=
  ⟨_, rfl, by decide, by decide⟩

end Plain
end Lock
end Yfs
