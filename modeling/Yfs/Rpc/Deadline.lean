import Mathlib.Tactic.Linarith
import Mathlib.Tactic.Ring

/-!
# Deadlines

`add_timespec`, and the loop in which `call1` waits for a reply.

`pthread_cond_timedwait` accepts a point in time only if its nanoseconds are less than a second
(`Timespec.Normal`).  `add_timespec` carries only what is *more* than a second, so there is one sum
for which it gives a whole second of nanoseconds (`normal_carry_iff`).  Such a deadline is refused
at once, and refused again, and while `call1` keeps asking it does not give back the mutex that the
reply would have to take (`await_of_not_normal`).

`call1` reads the clock once for its last deadline and once for each time that it waits.  The
timeouts between are 1000 ms, 2000 ms, and so on, of which nothing is left over for the nanoseconds,
so it is the last deadline that matters.  They are doubled in an `int`, but if the clock does not go
back then the last deadline comes before the `int` overflows (`exists_waits`).  So a call whose last
deadline is accepted comes back, after at most 23 turns (`call1_returns`).
-/

set_option autoImplicit false

namespace Yfs
namespace Rpc
namespace Deadline

/-- `struct timespec`. -/
structure Timespec where
  sec : Int
  nsec : Int
  deriving DecidableEq, Repr

namespace Timespec

/-- Nanoseconds since the epoch. -/
def value (t : Timespec) : Int := t.sec * 1000000000 + t.nsec

/-- What `pthread_cond_timedwait` accepts. -/
def Normal (t : Timespec) : Prop := 0 ≤ t.nsec ∧ t.nsec < 1000000000

instance (t : Timespec) : Decidable t.Normal := inferInstanceAs (Decidable (_ ∧ _))

end Timespec

/-- The loop of `add_timespec`. -/
def carry (t : Timespec) : Timespec :=
  if t.nsec > 1000000000 then carry ⟨t.sec + 1, t.nsec - 1000000000⟩ else t
termination_by t.nsec.toNat

/-- `add_timespec`.  The process does not survive a `VERIFY` that fails. -/
def addTimespec (a : Timespec) (b : Int) : Option Timespec :=
  let result : Timespec := ⟨a.sec + b.tdiv 1000, a.nsec + b.tmod 1000 * 1000000⟩
  if result.nsec ≥ 0 then some (carry result) else none

/-- `cmp_timespec`. -/
def cmpTimespec (a b : Timespec) : Int :=
  if a.sec > b.sec then 1
  else if a.sec < b.sec then -1
  else if a.nsec > b.nsec then 1
  else if a.nsec < b.nsec then -1
  else 0

/-! ## The sum -/

theorem value_carry (t : Timespec) : (carry t).value = t.value := by
  fun_induction carry t with
  | case1 t h ih =>
    rw [ih]
    simp only [Timespec.value]
    ring
  | case2 t h => rfl

theorem carry_of_le {t : Timespec} (h : t.nsec ≤ 1000000000) : carry t = t := by
  rw [carry, if_neg (by omega)]

theorem carry_of_gt {t : Timespec} (h : t.nsec > 1000000000) (h₂ : t.nsec ≤ 2000000000) :
    carry t = ⟨t.sec + 1, t.nsec - 1000000000⟩ := by
  rw [carry, if_pos h, carry_of_le (by dsimp only; omega)]

/-- **The one sum that is not carried.** -/
theorem normal_carry_iff {t : Timespec} (h₀ : 0 ≤ t.nsec) (h : t.nsec < 2000000000) :
    (carry t).Normal ↔ t.nsec ≠ 1000000000 := by
  rcases lt_or_ge 1000000000 t.nsec with hgt | hle
  · rw [carry_of_gt hgt h.le]
    simp only [Timespec.Normal]
    omega
  · rw [carry_of_le hle, Timespec.Normal]
    omega

theorem addTimespec_of_le {a : Timespec} {b : Int} (h₀ : 0 ≤ a.nsec + b.tmod 1000 * 1000000)
    (h : a.nsec + b.tmod 1000 * 1000000 ≤ 1000000000) :
    addTimespec a b = some ⟨a.sec + b.tdiv 1000, a.nsec + b.tmod 1000 * 1000000⟩ := by
  rw [addTimespec]
  simp only
  rw [if_pos h₀, carry_of_le h]

/-- **`add_timespec` is exact**, and its nanoseconds are never more than a second. -/
theorem exists_addTimespec {a : Timespec} (ha : a.Normal) {b : Int} (hb : 0 ≤ b) :
    ∃ r, addTimespec a b = some r ∧ r.value = a.value + b * 1000000 ∧
      0 ≤ r.nsec ∧ r.nsec ≤ 1000000000 ∧
      (r.Normal ↔ a.nsec + b % 1000 * 1000000 ≠ 1000000000) := by
  obtain ⟨h₀, h₁⟩ := ha
  have hdiv : b.tdiv 1000 = b / 1000 := Int.tdiv_eq_ediv_of_nonneg hb
  have hmod : b.tmod 1000 = b % 1000 := Int.tmod_eq_emod_of_nonneg hb
  have hm₀ : 0 ≤ b % 1000 := Int.emod_nonneg _ (by decide)
  have hm₁ : b % 1000 < 1000 := Int.emod_lt_of_pos _ (by decide)
  rw [addTimespec, hdiv, hmod]
  simp only
  rw [if_pos (by omega)]
  refine ⟨_, rfl, ?_, ?_⟩
  · rw [value_carry]
    simp only [Timespec.value]
    omega
  · have hiff := normal_carry_iff (t := ⟨a.sec + b / 1000, a.nsec + b % 1000 * 1000000⟩)
      (by dsimp only; omega) (by dsimp only; omega)
    rcases lt_or_ge 1000000000 (a.nsec + b % 1000 * 1000000) with hgt | hle
    · refine ⟨?_, ?_, hiff⟩ <;> rw [carry_of_gt hgt (by dsimp only; omega)] <;> dsimp only <;> omega
    · refine ⟨?_, ?_, hiff⟩ <;> rw [carry_of_le hle] <;> dsimp only <;> omega

/-- A whole number of seconds never makes trouble. -/
theorem exists_addTimespec_of_dvd {a : Timespec} (ha : a.Normal) {b : Int} (hb : 0 ≤ b)
    (hdvd : 1000 ∣ b) :
    ∃ r, addTimespec a b = some r ∧ r.value = a.value + b * 1000000 ∧ r.Normal := by
  obtain ⟨r, hr, hval, -, -, hiff⟩ := exists_addTimespec ha hb
  refine ⟨r, hr, hval, hiff.2 ?_⟩
  have := ha.2
  omega

/-! ## Waiting -/

/-- What ends a wait with a deadline that has been accepted.  The reply may come together with the
end of the time. -/
inductive WaitEvent where
  | woken (done : Bool)
  | timedOut (done : Bool)
  deriving DecidableEq, Repr

/-- The inner loop of `call1`, from `ca.done` to `ca.done`; `none` if it is still going on.  A
deadline that is refused is refused with the mutex held, so `ca.done` stays what it is. -/
def await (abstime : Timespec) : Bool → List WaitEvent → Option Bool
  | true, _ => some true
  | false, [] => none
  | false, event :: events =>
    if abstime.Normal then
      match event with
      | .timedOut done => some done
      | .woken done => await abstime done events
    else await abstime false events

/-- One turn of the outer loop: the time that is read, whether the reply is already there, and what
happens during the wait. -/
structure Turn where
  now : Timespec
  done : Bool
  events : List WaitEvent

/-- What has become of a call. -/
inductive CallOutcome where
  | replied
  | timeoutFailure
  | waiting
  deriving DecidableEq, Repr

/-- The deadlines that a call has computed, and what has become of it. -/
structure CallTrace where
  built : List Timespec
  outcome : CallOutcome

/-- One deadline more, before the others. -/
def CallTrace.push (d : Timespec) (trace : CallTrace) : CallTrace :=
  { trace with built := d :: trace.built }

/-- `x << 1`. -/
def shiftLeft (x : Int) : Int := (2 * x).bmod (2 ^ 32)

/-- The deadline of this turn: the next one, or the last if that is earlier. -/
def abstime (next last : Timespec) : Timespec := if cmpTimespec next last > 0 then last else next

/-- `finaldeadline` after this turn: it is marked when it is waited for. -/
def lastAfter (next last : Timespec) : Timespec :=
  if cmpTimespec next last > 0 then { last with sec := 0 } else last

/-- The loop of `call1`, for the turns that follow. -/
def waits (currTo : Int) (finaldeadline : Timespec) : List Turn → Option CallTrace
  | [] => some ⟨[], .waiting⟩
  | turn :: turns =>
    if finaldeadline.sec = 0 then some ⟨[], .timeoutFailure⟩
    else
      (addTimespec turn.now currTo).bind fun nextdeadline ↦
        Option.map (.push nextdeadline) <|
          match await (abstime nextdeadline finaldeadline) turn.done turn.events with
          | some true => some ⟨[], .replied⟩
          | some false => waits (shiftLeft currTo) (lastAfter nextdeadline finaldeadline) turns
          | none => some ⟨[], .waiting⟩

/-- What `rpcc::call1` does about time, with its timeout and with the time that it reads first;
`to_min` is 1000 ms. -/
def call1 (timeout : Int) (now : Timespec) (turns : List Turn) : Option CallTrace :=
  (addTimespec now timeout).bind fun finaldeadline ↦
    (waits 1000 finaldeadline turns).map (.push finaldeadline)

/-- The clock does not go back, and a wait is not over before its deadline: a time that is read is
no earlier than `since`. -/
def Timely (finaldeadline : Timespec) : Int → Int → List Turn → Prop
  | _, _, [] => True
  | currTo, since, turn :: turns =>
    since ≤ turn.now.value ∧
      Timely finaldeadline (shiftLeft currTo)
        (min (turn.now.value + currTo * 1000000) finaldeadline.value) turns

instance decidableTimely (finaldeadline : Timespec) :
    (currTo since : Int) → (turns : List Turn) → Decidable (Timely finaldeadline currTo since turns)
  | _, _, [] => .isTrue trivial
  | currTo, _, turn :: turns =>
    have := decidableTimely finaldeadline (shiftLeft currTo)
      (min (turn.now.value + currTo * 1000000) finaldeadline.value) turns
    inferInstanceAs (Decidable (_ ∧ _))

/-- **A deadline that is refused is waited for without end.** -/
theorem await_of_not_normal {abstime : Timespec} (h : ¬ abstime.Normal) (events : List WaitEvent) :
    await abstime false events = none := by
  induction events with
  | nil => rfl
  | cons event events ih => cases event <;> rw [await, if_neg h, ih]

theorem le_of_cmpTimespec {a b : Timespec} (h : ¬ cmpTimespec a b > 0) (ha : a.nsec ≤ 1000000000)
    (hb : 0 ≤ b.nsec) : a.value ≤ b.value := by
  rw [cmpTimespec] at h
  simp only [Timespec.value]
  split at h
  · omega
  · split at h
    · omega
    · split at h
      · omega
      · omega

theorem shiftLeft_of_lt {x : Int} (h₀ : 0 ≤ x) (h : 2 * x < 2 ^ 31) : shiftLeft x = 2 * x := by
  rw [shiftLeft]
  exact Int.bmod_eq_of_le (by omega) (by omega)

section Loop

variable {timeout : Int} {now finaldeadline : Timespec}

/-- Where the loop is after `k` timeouts.  Either the last deadline has been waited for, or all the
time of the timeouts has passed and there is still some left. -/
def Pending (timeout : Int) (now finaldeadline : Timespec) (k : Nat) (currTo : Int)
    (last : Timespec) (since : Int) : Prop :=
  (last.sec = 0 ∧ k ≤ 22) ∨ (last = finaldeadline ∧ currTo = 1000 * 2 ^ k ∧
    1000 * (2 ^ k - 1) ≤ timeout ∧ now.value + 1000 * (2 ^ k - 1) * 1000000 ≤ since)

/-- One turn of the loop, when there is still time. -/
theorem waits_cons {currTo : Int} {last next : Timespec} {turn : Turn} (hlast : last.sec ≠ 0)
    (hnext : addTimespec turn.now currTo = some next) (turns : List Turn) :
    waits currTo last (turn :: turns) =
      (Option.map (.push next) <|
        match await (abstime next last) turn.done turn.events with
        | some true => some ⟨[], .replied⟩
        | some false => waits (shiftLeft currTo) (lastAfter next last) turns
        | none => some ⟨[], .waiting⟩) := by
  rw [waits, if_neg hlast, hnext]
  rfl

/-- There is less time than an `int` has milliseconds. -/
theorem lt_of_pow_le {k : Nat} (h : 1000 * ((2 : Int) ^ k - 1) ≤ timeout) (hto : timeout < 2 ^ 31) :
    k < 22 := by
  by_contra hge
  have : (2 : Int) ^ 22 ≤ 2 ^ k := pow_le_pow_right₀ (by decide) (by omega)
  omega

/-- The wait of a turn times out. -/
theorem Pending.next (hfinal : finaldeadline.value = now.value + timeout * 1000000)
    (hnsec : 0 ≤ finaldeadline.nsec) (hto : timeout < 2 ^ 31) {k : Nat} (hk : k < 22) {since : Int}
    {turn : Turn} {next : Timespec}
    (hsince : now.value + 1000 * (2 ^ k - 1) * 1000000 ≤ since) (hnow : since ≤ turn.now.value)
    (hval : next.value = turn.now.value + 1000 * 2 ^ k * 1000000) (hnext : next.Normal) :
    Pending timeout now finaldeadline (k + 1) (shiftLeft (1000 * 2 ^ k))
      (lastAfter next finaldeadline)
      (min (turn.now.value + 1000 * 2 ^ k * 1000000) finaldeadline.value) := by
  rw [Pending, lastAfter]
  by_cases hlate : cmpTimespec next finaldeadline > 0
  · rw [if_pos hlate]
    exact Or.inl ⟨rfl, hk⟩
  · rw [if_neg hlate]
    have hcmp := le_of_cmpTimespec hlate hnext.2.le hnsec
    have hpos : 0 < (2 : Int) ^ k := Int.pow_pos (by decide)
    have hpow : (2 : Int) ^ (k + 1) = 2 * 2 ^ k := by ring
    have hmore : 1000 * ((2 : Int) ^ (k + 1) - 1) ≤ timeout := by omega
    have hlt : (2 : Int) ^ (k + 1) ≤ 2 ^ 21 :=
      pow_le_pow_right₀ (by decide) (by have := lt_of_pow_le hmore hto; omega)
    refine Or.inr ⟨rfl, ?_, hmore, ?_⟩
    · rw [shiftLeft_of_lt (by omega) (by omega), hpow]
      ring
    · rw [min_eq_left (by omega), hpow]
      omega

/-- The wait comes to an end if its deadline is accepted. -/
def Turn.Ends (turn : Turn) : Prop :=
  ∀ abstime : Timespec, abstime.Normal → await abstime turn.done turn.events ≠ none

theorem CallTrace.normal_push {rest : CallTrace} {next : Timespec} (hnext : next.Normal)
    (hrest : ∀ d ∈ rest.built, d.Normal) : ∀ d ∈ (rest.push next).built, d.Normal :=
  List.forall_mem_cons.2 ⟨hnext, hrest⟩

theorem abstime_normal {next last : Timespec} (hnext : next.Normal) (hlast : last.Normal) :
    (abstime next last).Normal := by
  rw [abstime]
  split
  · exact hlast
  · exact hnext

/-- **The loop.**  Its deadlines are accepted, its timeouts do not overflow, and it is over after
23 turns. -/
theorem exists_waits (hto : timeout < 2 ^ 31)
    (hfinal : finaldeadline.value = now.value + timeout * 1000000) (hnsec : 0 ≤ finaldeadline.nsec)
    {turns : List Turn} (hnormal : ∀ turn ∈ turns, turn.now.Normal) {k : Nat} {currTo since : Int}
    {last : Timespec} (hpend : Pending timeout now finaldeadline k currTo last since)
    (htimely : Timely finaldeadline currTo since turns) :
    ∃ trace, waits currTo last turns = some trace ∧ (∀ d ∈ trace.built, d.Normal) ∧
      (finaldeadline.Normal → (∀ turn ∈ turns, turn.Ends) → 22 < k + turns.length →
        trace.outcome ≠ .waiting) := by
  induction turns generalizing k currTo since last with
  | nil =>
    refine ⟨_, rfl, by simp, fun _ _ hlen ↦ ?_⟩
    rw [List.length_nil] at hlen
    rcases hpend with ⟨-, hk⟩ | ⟨-, -, hle, -⟩
    · omega
    · have := lt_of_pow_le hle hto
      omega
  | cons turn turns ih =>
    by_cases hzero : last.sec = 0
    · rw [waits, if_pos hzero]
      exact ⟨_, rfl, by simp, by simp⟩
    · obtain ⟨rfl, rfl, hle, hsince⟩ := hpend.resolve_left fun h ↦ hzero h.1
      obtain ⟨hnow, htimely⟩ := htimely
      have hpos : 0 < (2 : Int) ^ k := Int.pow_pos (by decide)
      obtain ⟨next, hadd, hval, hnext⟩ := exists_addTimespec_of_dvd
        (hnormal turn List.mem_cons_self) (b := 1000 * 2 ^ k) (by omega) ⟨_, rfl⟩
      rw [waits_cons hzero hadd]
      cases hawait : await (abstime next last) turn.done turn.events with
      | none =>
        refine ⟨_, rfl, CallTrace.normal_push hnext (by simp), fun hlast hends _ ↦ ?_⟩
        exact absurd hawait (hends turn List.mem_cons_self _ (abstime_normal hnext hlast))
      | some done =>
        cases done with
        | true =>
          exact ⟨_, rfl, CallTrace.normal_push hnext (by simp),
            fun _ _ _ ↦ by simp [CallTrace.push]⟩
        | false =>
          obtain ⟨rest, hrest, hbuilt, hover⟩ := ih
            (fun t ht ↦ hnormal t (List.mem_cons_of_mem _ ht))
            (Pending.next hfinal hnsec hto (lt_of_pow_le hle hto) hsince hnow hval hnext) htimely
          refine ⟨rest.push next, congrArg (Option.map _) hrest,
            CallTrace.normal_push hnext hbuilt, fun hlast hends hlen ↦ ?_⟩
          rw [List.length_cons] at hlen
          exact hover hlast (fun t ht ↦ hends t (List.mem_cons_of_mem _ ht)) (by omega)

end Loop

/-! ## Which deadlines are accepted -/

/-- `add_timespec` gives the sum, and in the form that is asked for. -/
def ExactSum (a : Timespec) (b : Int) : Prop :=
  ∃ r, addTimespec a b = some r ∧ r.Normal ∧ r.value = a.value + b * 1000000

/-- Every deadline that a call has computed is accepted. -/
def Accepted (timeout : Int) (now : Timespec) (turns : List Turn) : Prop :=
  ∃ trace, call1 timeout now turns = some trace ∧ ∀ d ∈ trace.built, d.Normal

/-- A call whose last deadline is known. -/
theorem exists_call1 {timeout : Int} (hto : timeout < 2 ^ 31) {now finaldeadline : Timespec}
    (hadd : addTimespec now timeout = some finaldeadline) (h₀ : 0 ≤ timeout)
    (hfinal : finaldeadline.value = now.value + timeout * 1000000) (hnsec : 0 ≤ finaldeadline.nsec)
    {turns : List Turn} (hnormal : ∀ turn ∈ turns, turn.now.Normal)
    (htimely : Timely finaldeadline 1000 now.value turns) :
    ∃ rest : CallTrace, call1 timeout now turns = some (rest.push finaldeadline) ∧
      (∀ d ∈ rest.built, d.Normal) ∧
      (finaldeadline.Normal → (∀ turn ∈ turns, turn.Ends) → 22 < turns.length →
        rest.outcome ≠ .waiting) := by
  have hpend : Pending timeout now finaldeadline 0 1000 finaldeadline now.value :=
    Or.inr ⟨rfl, by norm_num, by omega, by omega⟩
  obtain ⟨rest, hrest, hbuilt, hover⟩ := exists_waits hto hfinal hnsec hnormal hpend htimely
  refine ⟨rest, ?_, hbuilt, fun hlast hends hlen ↦ hover hlast hends (by omega)⟩
  rw [call1, hadd, Option.bind_some, hrest]
  rfl

/-- **When deadlines are in form.**  The sum is, unless the nanoseconds come to exactly a second;
and all the deadlines of a call are, under the same condition on its timeout and the time at which
it begins. -/
theorem deadline_iff {a : Timespec} (ha : a.Normal) {b : Int} (hb : 0 ≤ b) :
    (ExactSum a b ↔ a.nsec + b % 1000 * 1000000 ≠ 1000000000) ∧
    (b < 2 ^ 31 → ∀ finaldeadline, addTimespec a b = some finaldeadline →
      ∀ turns : List Turn, (∀ turn ∈ turns, turn.now.Normal) →
        Timely finaldeadline 1000 a.value turns →
        (Accepted b a turns ↔ a.nsec + b % 1000 * 1000000 ≠ 1000000000)) := by
  obtain ⟨r, hadd, hval, hnsec, -, hiff⟩ := exists_addTimespec ha hb
  refine ⟨⟨?_, fun h ↦ ⟨r, hadd, hiff.2 h, hval⟩⟩, ?_⟩
  · rintro ⟨r', hadd', hnormal, -⟩
    obtain rfl := Option.some_inj.1 (hadd.symm.trans hadd')
    exact hiff.1 hnormal
  · intro hto final hfinal turns hturns htimely
    obtain rfl := Option.some_inj.1 (hadd.symm.trans hfinal)
    obtain ⟨rest, hcall, hbuilt, -⟩ := exists_call1 hto hadd hb hval hnsec hturns htimely
    constructor
    · rintro ⟨trace, hcall', hall⟩
      obtain rfl := Option.some_inj.1 (hcall.symm.trans hcall')
      exact hiff.1 (hall r List.mem_cons_self)
    · intro h
      exact ⟨rest.push r, hcall, CallTrace.normal_push (hiff.2 h) hbuilt⟩

/-- Two minutes from the last nanosecond of a second, with a reply to the first request. -/
theorem deadline_iff_two_minutes :
    ExactSum ⟨1, 999999999⟩ 120000 ∧
      Accepted 120000 ⟨1, 999999999⟩ [⟨⟨2, 0⟩, false, [.woken true]⟩] := by
  obtain ⟨hsum, hcall⟩ := deadline_iff (a := ⟨1, 999999999⟩) (by decide) (b := 120000) (by decide)
  have hadd : addTimespec ⟨1, 999999999⟩ 120000 = some ⟨121, 999999999⟩ :=
    addTimespec_of_le (by decide) (by decide)
  exact ⟨hsum.2 (by decide), (hcall (by decide) _ hadd [⟨⟨2, 0⟩, false, [.woken true]⟩] (by decide)
    ⟨by decide, trivial⟩).2 (by decide)⟩

/-- Half a second from the middle of a second.  The call does not come back. -/
theorem deadline_refused :
    Timespec.Normal ⟨1, 500000000⟩ ∧
    addTimespec ⟨1, 500000000⟩ 500 = some ⟨1, 1000000000⟩ ∧
    ¬ ExactSum ⟨1, 500000000⟩ 500 ∧ ¬ Accepted 500 ⟨1, 500000000⟩ [] ∧
    ∀ events, (call1 500 ⟨1, 500000000⟩ [⟨⟨1, 500000000⟩, false, events⟩]).map (·.outcome) =
      some .waiting := by
  have hadd : addTimespec ⟨1, 500000000⟩ 500 = some ⟨1, 1000000000⟩ :=
    addTimespec_of_le (by decide) (by decide)
  have hnext : addTimespec ⟨1, 500000000⟩ 1000 = some ⟨2, 500000000⟩ :=
    addTimespec_of_le (by decide) (by decide)
  have hbad : ¬ Timespec.Normal ⟨1, 1000000000⟩ := by decide
  refine ⟨by decide, hadd, ?_, ?_, fun events ↦ ?_⟩
  · rintro ⟨r, hr, hnormal, -⟩
    obtain rfl := Option.some_inj.1 (hadd.symm.trans hr)
    exact hbad hnormal
  · rintro ⟨trace, htrace, hall⟩
    rw [call1, hadd] at htrace
    obtain rfl := Option.some_inj.1 htrace
    exact hbad (hall _ List.mem_cons_self)
  · rw [call1, hadd, Option.bind_some, waits_cons (by decide) hnext]
    have habs : abstime ⟨2, 500000000⟩ ⟨1, 1000000000⟩ = ⟨1, 1000000000⟩ := by decide
    rw [habs, await_of_not_normal hbad]
    rfl

/-- **A call comes back**, under the same condition: it is over after 23 turns. -/
theorem call1_returns {timeout : Int} (h₀ : 0 ≤ timeout) (hto : timeout < 2 ^ 31) {now : Timespec}
    (hnow : now.Normal) (hsum : now.nsec + timeout % 1000 * 1000000 ≠ 1000000000)
    {turns : List Turn} (hnormal : ∀ turn ∈ turns, turn.now.Normal)
    (hends : ∀ turn ∈ turns, turn.Ends) (hlen : 22 < turns.length)
    (htimely : ∀ finaldeadline, addTimespec now timeout = some finaldeadline →
      Timely finaldeadline 1000 now.value turns) :
    ∃ trace, call1 timeout now turns = some trace ∧ trace.outcome ≠ .waiting := by
  obtain ⟨r, hadd, hval, hnsec, -, hiff⟩ := exists_addTimespec hnow h₀
  obtain ⟨rest, hcall, -, hover⟩ :=
    exists_call1 hto hadd h₀ hval hnsec hnormal (htimely r hadd)
  exact ⟨rest.push r, hcall, hover (hiff.2 hsum) hends hlen⟩

/-- Nobody answers: each time is the deadline of the wait before.  The last turns are not taken. -/
def unanswered : List Turn :=
  ([1, 2, 4, 8, 16, 32, 64] ++ List.replicate 16 (121 : Int)).map fun sec ↦
    ⟨⟨sec, 0⟩, false, [.timedOut false]⟩

theorem call1_returns_unanswered :
    ∃ trace, call1 120000 ⟨1, 0⟩ unanswered = some trace ∧ trace.outcome ≠ .waiting := by
  refine call1_returns (by decide) (by decide) (by decide) (by decide) ?_ ?_ (by decide) ?_
  · decide
  · intro turn hturn
    obtain ⟨sec, -, rfl⟩ := List.mem_map.1 hturn
    intro abstime hnormal
    simp [await, hnormal]
  · intro final hfinal
    have hadd : addTimespec ⟨1, 0⟩ 120000 = some ⟨121, 0⟩ :=
      addTimespec_of_le (by decide) (by decide)
    obtain rfl := Option.some_inj.1 (hadd.symm.trans hfinal)
    decide

end Deadline
end Rpc
end Yfs
