import Mathlib.Data.Fintype.Prod
import Yfs.Lock.Threads

/-!
# The tester

`lock_tester` acquires and releases locks from many threads and clients, and counts who has which:
when a thread has been given a lock it calls `check_grant`, and when it gives the lock back it calls
`check_release`.  If two threads have a lock at the same time, then the counter of the lock tells,
and the tester exits.

A thread is the list of the calls that it has yet to make (`Op`).  The tests are run one after
another: `main` joins the threads of a test before it creates those of the next one.

A test of several threads calls `check_release` while it still has the lock.  The first test, which
is run by `main` itself, calls it afterwards, and it also acquires a lock while it has another one;
both would be wrong if it were not alone.  `Script` says what a thread may do, alone or not.  If all
threads keep to it then the tester never exits (`Inv.step`), and does not come to a halt before all
the tests have been passed (`Inv.ended_of_stuck`), whatever the lock service does.  So it is with
the tester's own tests (`tester_passes`).
-/

set_option autoImplicit false

namespace Yfs
namespace Lock
namespace Tester

/-! ## The program -/

/-- What a thread calls. -/
inductive Op where
  | acquire (lid : Lid)
  | release (lid : Lid)
  | checkGrant (lid : Lid)
  | checkRelease (lid : Lid)
  deriving DecidableEq

def Op.lid : Op → Lid
  | .acquire lid | .release lid | .checkGrant lid | .checkRelease lid => lid

/-- `lid & 0xff`. -/
def index (lid : Lid) : UInt8 := lid.toUInt8

/-- The tester. -/
structure State (C T : Type) where
  locks : Lock.State C T := {}
  /-- How many threads have a lock with this first byte. -/
  ct : UInt8 → Int := fun _ ↦ 0
  /-- What the threads have yet to call. -/
  todo : T → List Op
  /-- `exit(1)` has been called. -/
  exited : Bool := false

variable {C T : Type} [DecidableEq C] [DecidableEq T]

/-- A thread has made its next call. -/
def State.advance (s : State C T) (t : T) (ops : List Op) : State C T :=
  { s with todo := Function.update s.todo t ops }

/-- `check_grant`. -/
def State.checkGrant (s : State C T) (lid : Lid) : State C T :=
  if s.ct (index lid) ≠ 0 then { s with exited := true }
  else { s with ct := Function.update s.ct (index lid) (s.ct (index lid) + 1) }

/-- `check_release`. -/
def State.checkRelease (s : State C T) (lid : Lid) : State C T :=
  if s.ct (index lid) ≠ 1 then { s with exited := true }
  else { s with ct := Function.update s.ct (index lid) (s.ct (index lid) - 1) }

/-- A step inside a call of `acquire` or `release`. -/
def State.call (N : Cluster C T) (s : State C T) (t : T) (lid : Lid) (during : List Tenure)
    (g : Tenure) (ops : List Op) : Option (State C T) :=
  (s.locks.call (Lock.step N) t lid during g).map fun (locks, returned) ↦
    if returned then { s with locks := locks }.advance t ops else { s with locks := locks }

/-- Thread `t` goes on.  It has not been created before the threads of all earlier tests have been
joined. -/
def step [Fintype T] (N : Cluster C T) (test : T → Nat) (s : State C T) (t : T) :
    Option (State C T) :=
  if s.exited = false ∧ ∀ u, test u < test t → s.todo u = [] then
    match s.todo t with
    | [] => none
    | .acquire lid :: ops => s.call N t lid [.out, .acquiring] .held ops
    | .release lid :: ops => s.call N t lid [.held, .releasing] .out ops
    | .checkGrant lid :: ops => some ((s.checkGrant lid).advance t ops)
    | .checkRelease lid :: ops => some ((s.checkRelease lid).advance t ops)
  else none

/-! ## What a thread may do -/

/-- A thread that has the locks `H`, and has been counted for the locks `M`, may call these
functions.  If it is not alone, then it has one lock at a time, and does not release a lock for
which it is counted. -/
def Script (alone : Bool) : Finset Lid → Finset Lid → List Op → Prop
  | H, M, [] => H = ∅ ∧ M = ∅
  | H, M, .acquire l :: ops =>
    (l ∉ H ∧ (alone = false → H = ∅)) ∧ Script alone (insert l H) M ops
  | H, M, .release l :: ops =>
    (l ∈ H ∧ (alone = false → l ∉ M)) ∧ Script alone (H.erase l) M ops
  | H, M, .checkGrant l :: ops => (l ∈ H ∧ l ∉ M) ∧ Script alone H (insert l M) ops
  | H, M, .checkRelease l :: ops => l ∈ M ∧ Script alone H (M.erase l) ops

instance decidableScript (alone : Bool) :
    (ops : List Op) → (H M : Finset Lid) → Decidable (Script alone H M ops)
  | [], H, M => inferInstanceAs (Decidable (H = ∅ ∧ M = ∅))
  | .acquire l :: ops, H, M =>
    have := decidableScript alone ops (insert l H) M
    inferInstanceAs (Decidable (_ ∧ _))
  | .release l :: ops, H, M =>
    have := decidableScript alone ops (H.erase l) M
    inferInstanceAs (Decidable (_ ∧ _))
  | .checkGrant l :: ops, H, M =>
    have := decidableScript alone ops H (insert l M)
    inferInstanceAs (Decidable (_ ∧ _))
  | .checkRelease l :: ops, H, M =>
    have := decidableScript alone ops H (M.erase l)
    inferInstanceAs (Decidable (_ ∧ _))

/-- Tests that can be passed. -/
structure Plan (test : T → Nat) (prog : T → List Op) (alone : T → Bool) : Prop where
  script : ∀ t, Script (alone t) ∅ ∅ (prog t)
  /-- A thread that is alone is the only one of its test. -/
  alone : ∀ t u, alone t = true → test u = test t → prog u ≠ [] → u = t
  /-- The names of the locks differ in the first byte. -/
  names : ∀ t u, ∀ op ∈ prog t, ∀ op' ∈ prog u, index op.lid = index op'.lid → op.lid = op'.lid

/-! ## The counters -/

/-- The counters count the threads with a lock: `M t` are the locks that thread `t` is counted
for. -/
structure Counted (ct : UInt8 → Int) (M : T → Finset Lid) : Prop where
  single : ∀ t u l, l ∈ M t → l ∈ M u → t = u
  one : ∀ t, ∀ l ∈ M t, ct (index l) = 1
  someone : ∀ x, ct x ≠ 0 → ∃ t, ∃ l ∈ M t, index l = x

namespace Counted

variable {ct : UInt8 → Int} {M : T → Finset Lid} (h : Counted ct M) {t : T} {l : Lid}
include h

theorem grant (hzero : ct (index l) = 0) :
    Counted (Function.update ct (index l) (ct (index l) + 1))
      (Function.update M t (insert l (M t))) := by
  have hmem : ∀ u l', l' ∈ Function.update M t (insert l (M t)) u ↔
      l' ∈ M u ∨ (u = t ∧ l' = l) := by
    intro u l'
    by_cases hu : u = t
    · subst hu
      simp [or_comm]
    · simp [hu]
  have hfree : ∀ u, ∀ l' ∈ M u, index l' ≠ index l := by
    intro u l' hl' he
    have hone := h.one u l' hl'
    rw [he, hzero] at hone
    exact absurd hone (by decide)
  refine ⟨fun a b l' ha hb ↦ ?_, fun u l' hl' ↦ ?_, fun x hx ↦ ?_⟩
  · rcases (hmem a l').1 ha with ha | ⟨ha, hal⟩ <;>
      rcases (hmem b l').1 hb with hb | ⟨hb, hbl⟩
    · exact h.single a b l' ha hb
    · exact absurd (congrArg index hbl) (hfree a l' ha)
    · exact absurd (congrArg index hal) (hfree b l' hb)
    · rw [ha, hb]
  · rcases (hmem u l').1 hl' with hl' | ⟨-, rfl⟩
    · rw [Function.update_of_ne (hfree u l' hl'), h.one u l' hl']
    · rw [Function.update_self, hzero]
      rfl
  · by_cases hxl : x = index l
    · exact ⟨t, l, (hmem t l).2 (Or.inr ⟨rfl, rfl⟩), hxl.symm⟩
    · rw [Function.update_of_ne hxl] at hx
      obtain ⟨u, l', hl', he⟩ := h.someone x hx
      exact ⟨u, l', (hmem u l').2 (Or.inl hl'), he⟩

theorem release (hl : l ∈ M t) (hnames : ∀ u, ∀ l' ∈ M u, index l' = index l → l' = l) :
    Counted (Function.update ct (index l) (ct (index l) - 1))
      (Function.update M t ((M t).erase l)) := by
  have hmem : ∀ u l', l' ∈ Function.update M t ((M t).erase l) u ↔ l' ∈ M u ∧ l' ≠ l := by
    intro u l'
    by_cases hu : u = t
    · subst hu
      simp [and_comm]
    · rw [Function.update_of_ne hu]
      refine (and_iff_left_of_imp fun hl' he ↦ hu (h.single u t l ?_ hl)).symm
      rwa [← he]
  refine ⟨fun a b l' ha hb ↦ h.single a b l' ((hmem a l').1 ha).1 ((hmem b l').1 hb).1,
    fun u l' hl' ↦ ?_, fun x hx ↦ ?_⟩
  · obtain ⟨hl', hne⟩ := (hmem u l').1 hl'
    rw [Function.update_of_ne fun he ↦ hne (hnames u l' hl' he), h.one u l' hl']
  · by_cases hxl : x = index l
    · rw [hxl, Function.update_self, h.one t l hl] at hx
      exact absurd rfl hx
    · rw [Function.update_of_ne hxl] at hx
      obtain ⟨u, l', hl', he⟩ := h.someone x hx
      exact ⟨u, l', (hmem u l').2 ⟨hl', fun heq ↦ hxl (heq ▸ he.symm)⟩, he⟩

end Counted

/-! ## The invariant -/

/-- What a lock is to a thread that has the locks `H` and is about to call `ops`. -/
def Placed (ops : List Op) (H : Finset Lid) (l : Lid) : Tenure → Prop
  | .out => l ∉ H
  | .acquiring => l ∉ H ∧ ops.head? = some (.acquire l)
  | .held => l ∈ H
  | .releasing => l ∈ H ∧ ops.head? = some (.release l)

/-- A thread is not inside a call for a lock that its next call is not about. -/
theorem Placed.change {op : Op} {ops ops' : List Op} {H H' : Finset Lid} {l : Lid} {g : Tenure}
    (h : Placed (op :: ops) H l g) (hne : op ≠ .acquire l ∧ op ≠ .release l)
    (hl : l ∈ H' ↔ l ∈ H) : Placed ops' H' l g := by
  cases g with
  | out => exact fun hl' ↦ h (hl.1 hl')
  | held => exact hl.2 h
  | acquiring => exact absurd (Option.some_inj.1 h.2) hne.1
  | releasing => exact absurd (Option.some_inj.1 h.2) hne.2

variable {N : Cluster C T} {test : T → Nat} {prog : T → List Op} {alone : T → Bool}

/-- What holds in every state of the tester.  `H t` are the locks that thread `t` has. -/
structure Inv (N : Cluster C T) (test : T → Nat) (prog : T → List Op) (alone : T → Bool)
    (s : State C T) (H M : T → Finset Lid) : Prop where
  locks : s.locks.Ok N
  script : ∀ t, Script (alone t) (H t) (M t) (s.todo t)
  suffix : ∀ t, s.todo t <:+ prog t
  placed : ∀ t l, Placed (s.todo t) (H t) l (s.locks.tenure l t)
  busy : ∀ t, s.locks.busy t = none ∨ ∃ l, s.locks.busy t = some l ∧
    (s.locks.tenure l t = .acquiring ∨ s.locks.tenure l t = .releasing)
  guarded : ∀ t, alone t = false → M t ⊆ H t
  named : ∀ t, ∀ l ∈ M t, ∃ op ∈ prog t, op.lid = l
  counted : Counted s.ct M
  /-- A thread that has been created. -/
  joined : ∀ t, (s.todo t ≠ prog t ∨ (∃ l, s.locks.tenure l t ≠ .out) ∨ (M t).Nonempty) →
    ∀ u, test u < test t → s.todo u = []
  running : s.exited = false

theorem Plan.init (h : Plan test prog alone) :
    Inv N test prog alone { todo := prog } (fun _ ↦ ∅) (fun _ ↦ ∅) where
  locks := Reachable.ok ⟨[], rfl⟩
  script := h.script
  suffix _ := List.suffix_rfl
  placed _ _ := Finset.notMem_empty _
  busy _ := Or.inl rfl
  guarded _ _ := Finset.Subset.refl _
  named _ _ hl := absurd hl (Finset.notMem_empty _)
  counted := ⟨by simp, by simp, by simp⟩
  joined _ ht := by
    rcases ht with ht | ⟨l, hl⟩ | ht
    · exact absurd rfl ht
    · exact absurd rfl hl
    · exact absurd ht (by simp)
  running := rfl

namespace Inv

variable {s s' : State C T} {H M : T → Finset Lid} {t : T} {op : Op} {ops : List Op} {lid : Lid}
  (h : Inv N test prog alone s H M)
include h

omit [DecidableEq C] in
/-- Nothing has changed but thread `t`, which may go on. -/
theorem frame (s' : State C T) (H' M' : Finset Lid) (hgate : ∀ u, test u < test t → s.todo u = [])
    (hlocks : s'.locks.Ok N)
    (htenure : ∀ u l, u ≠ t → s'.locks.tenure l u = s.locks.tenure l u)
    (hothers : ∀ u, u ≠ t → s'.locks.busy u = s.locks.busy u)
    (htodo : ∀ u, u ≠ t → s'.todo u = s.todo u) (hsuffix : s'.todo t <:+ s.todo t)
    (hscript : Script (alone t) H' M' (s'.todo t))
    (hplaced : ∀ l, Placed (s'.todo t) H' l (s'.locks.tenure l t))
    (hbusy : s'.locks.busy t = none ∨ ∃ l, s'.locks.busy t = some l ∧
      (s'.locks.tenure l t = .acquiring ∨ s'.locks.tenure l t = .releasing))
    (hguarded : alone t = false → M' ⊆ H') (hnamed : ∀ l ∈ M', ∃ op ∈ prog t, op.lid = l)
    (hcounted : Counted s'.ct (Function.update M t M')) (hrunning : s'.exited = false) :
    Inv N test prog alone s' (Function.update H t H') (Function.update M t M') := by
  have hcases : ∀ {P : T → Prop}, P t → (∀ u, u ≠ t → P u) → ∀ u, P u := by
    intro P ht hu u
    by_cases hut : u = t
    · exact hut ▸ ht
    · exact hu u hut
  refine ⟨hlocks, hcases ?_ fun u hu ↦ ?_, hcases ?_ fun u hu ↦ ?_, hcases ?_ fun u hu l ↦ ?_,
    hcases hbusy fun u hu ↦ ?_, hcases ?_ fun u hu ↦ ?_, hcases ?_ fun u hu ↦ ?_, hcounted,
    hcases ?_ fun u hu ↦ ?_, hrunning⟩
  · rwa [Function.update_self, Function.update_self]
  · rw [Function.update_of_ne hu, Function.update_of_ne hu, htodo u hu]
    exact h.script u
  · exact hsuffix.trans (h.suffix t)
  · rw [htodo u hu]
    exact h.suffix u
  · rwa [Function.update_self]
  · rw [Function.update_of_ne hu, htodo u hu, htenure u l hu]
    exact h.placed u l
  · simp only [hothers u hu, htenure u _ hu]
    exact h.busy u
  · rwa [Function.update_self, Function.update_self]
  · rw [Function.update_of_ne hu, Function.update_of_ne hu]
    exact h.guarded u
  · rwa [Function.update_self]
  · rw [Function.update_of_ne hu]
    exact h.named u
  · intro _ u hlt
    have hu : u ≠ t := fun he ↦ absurd hlt (by rw [he]; exact lt_irrefl _)
    rw [htodo u hu, hgate u hlt]
  · rw [htodo u hu, Function.update_of_ne hu]
    simp only [htenure u _ hu]
    intro hstarted v hlt
    have hnil := h.joined u hstarted v hlt
    by_cases hv : v = t
    · subst hv
      rw [hnil] at hsuffix
      exact List.suffix_nil.1 hsuffix
    · rw [htodo v hv, hnil]

omit [DecidableEq C] [DecidableEq T] in
theorem script_of (hop : s.todo t = ops) : Script (alone t) (H t) (M t) ops := hop ▸ h.script t

omit [DecidableEq C] [DecidableEq T] in
theorem placed_of {l : Lid} {g : Tenure} (hop : s.todo t = ops) (hg : s.locks.tenure l t = g) :
    Placed ops (H t) l g := hop ▸ hg ▸ h.placed t l

/-! ### Calls of the lock service -/

/-- A step inside a call that does not return. -/
theorem stay (hgate : ∀ u, test u < test t → s.todo u = []) {locks : Lock.State C T}
    (hs : Lock.step N s.locks (t, lid) = some locks)
    (hplaced : Placed (s.todo t) (H t) lid (locks.tenure lid t))
    (hin : locks.tenure lid t = .acquiring ∨ locks.tenure lid t = .releasing) :
    Inv N test prog alone { s with locks := locks } H M := by
  have hten := h.locks.tenure_step hs
  have hframe := h.frame { s with locks := locks } (H t) (M t) hgate (h.locks.step hs)
    (fun u l hu ↦ hten.other u l (Or.inl hu)) hten.otherBusy (fun _ _ ↦ rfl) List.suffix_rfl
    (h.script t) (fun l ↦ ?_) (hten.busy.imp_right fun hb ↦ ⟨lid, hb, hin⟩)
      (h.guarded t) (h.named t)
  · rw [Function.update_eq_self, Function.update_eq_self] at hframe
    exact hframe h.counted h.running
  · by_cases hl : l = lid
    · exact hl ▸ hplaced
    · rw [hten.other t l (Or.inr hl)]
      exact h.placed t l

/-- A call returns, and then the thread has the locks `H'`. -/
theorem back (H' : Finset Lid) (hgate : ∀ u, test u < test t → s.todo u = [])
    (hop : s.todo t = op :: ops) (hcall : op = .acquire lid ∨ op = .release lid)
    {locks : Lock.State C T} (hs : Lock.step N s.locks (t, lid) = some locks)
    (hg : locks.tenure lid t = .held ∨ locks.tenure lid t = .out)
    (hscript : Script (alone t) H' (M t) ops) (hback : Placed ops H' lid (locks.tenure lid t))
    (hsame : ∀ l, l ≠ lid → (l ∈ H' ↔ l ∈ H t)) (hguarded : alone t = false → M t ⊆ H') :
    Inv N test prog alone ({ s with locks := locks }.advance t ops) (Function.update H t H') M := by
  have hten := h.locks.tenure_step hs
  have htodo : ({ s with locks := locks }.advance t ops).todo t = ops := Function.update_self ..
  have hframe := h.frame ({ s with locks := locks }.advance t ops) H' (M t) hgate (h.locks.step hs)
    (fun u l hu ↦ hten.other u l (Or.inl hu)) hten.otherBusy
    (fun u hu ↦ Function.update_of_ne hu ..) (by rw [htodo, hop]; exact List.suffix_cons ..)
    (by rwa [htodo]) (fun l ↦ ?_) (Or.inl (State.Ok.busy_of_returned hs hg)) hguarded (h.named t)
  · rw [Function.update_eq_self] at hframe
    exact hframe h.counted h.running
  · rw [htodo]
    by_cases hl : l = lid
    · exact hl ▸ hback
    · have hne : op ≠ .acquire l ∧ op ≠ .release l := by
        rcases hcall with rfl | rfl <;> simp [Ne.symm hl]
      exact (h.placed_of hop (hten.other t l (Or.inr hl)).symm).change hne (hsame l hl)

theorem acquire (hgate : ∀ u, test u < test t → s.todo u = [])
    (hop : s.todo t = .acquire lid :: ops)
    (hcall : s.call N t lid [.out, .acquiring] .held ops = some s') :
    ∃ H', Inv N test prog alone s' H' M := by
  obtain ⟨⟨locks, returned⟩, hcall, he⟩ := Option.map_eq_some_iff.1 hcall
  obtain ⟨hduring, hs, hreturned⟩ := State.of_call hcall
  obtain ⟨⟨hnew, -⟩, hscript⟩ := h.script_of hop
  cases returned with
  | true =>
    have hheld := hreturned.1 rfl
    obtain rfl := he
    refine ⟨_, h.back (insert lid (H t)) hgate hop (Or.inl rfl) hs (Or.inl hheld) hscript ?_
      (fun l hl ↦ ?_) fun ha ↦ (h.guarded t ha).trans (Finset.subset_insert ..)⟩
    · rw [hheld]
      exact Finset.mem_insert_self ..
    · rw [Finset.mem_insert, or_iff_right hl]
  | false =>
    have hacquiring : locks.tenure lid t = .acquiring :=
      ((h.locks.tenure_step hs).acquiring (by simpa using hduring)).resolve_right
        fun hheld ↦ absurd (hreturned.2 hheld) (by simp)
    obtain rfl := he
    refine ⟨H, h.stay hgate hs ?_ (Or.inl hacquiring)⟩
    rw [hacquiring, hop]
    exact ⟨hnew, rfl⟩

theorem release (hgate : ∀ u, test u < test t → s.todo u = [])
    (hop : s.todo t = .release lid :: ops)
    (hcall : s.call N t lid [.held, .releasing] .out ops = some s') :
    ∃ H', Inv N test prog alone s' H' M := by
  obtain ⟨⟨locks, returned⟩, hcall, he⟩ := Option.map_eq_some_iff.1 hcall
  obtain ⟨hduring, hs, hreturned⟩ := State.of_call hcall
  obtain ⟨⟨hhas, hnot⟩, hscript⟩ := h.script_of hop
  cases returned with
  | true =>
    have hout := hreturned.1 rfl
    obtain rfl := he
    refine ⟨_, h.back ((H t).erase lid) hgate hop (Or.inr rfl) hs (Or.inr hout) hscript ?_
      (fun l hl ↦ ?_) fun ha ↦ Finset.subset_erase.2 ⟨h.guarded t ha, hnot ha⟩⟩
    · rw [hout]
      exact Finset.notMem_erase lid (H t)
    · rw [Finset.mem_erase, and_iff_right hl]
  | false =>
    have hreleasing : locks.tenure lid t = .releasing :=
      ((h.locks.tenure_step hs).releasing (by simpa using hduring)).resolve_right
        fun hout ↦ absurd (hreturned.2 hout) (by simp)
    obtain rfl := he
    refine ⟨H, h.stay hgate hs ?_ (Or.inr hreleasing)⟩
    rw [hreleasing, hop]
    exact ⟨hhas, rfl⟩

/-! ### Checks -/

omit [DecidableEq C] in
/-- The counters have changed, and thread `t` is counted for the locks `M'`. -/
theorem check {ct : UInt8 → Int} (M' : Finset Lid) (hgate : ∀ u, test u < test t → s.todo u = [])
    (hop : s.todo t = op :: ops) (hcheck : ∀ l, op ≠ .acquire l ∧ op ≠ .release l)
    (hscript : Script (alone t) (H t) M' ops) (hguarded : alone t = false → M' ⊆ H t)
    (hnamed : ∀ l ∈ M', ∃ op ∈ prog t, op.lid = l)
    (hcounted : Counted ct (Function.update M t M')) :
    Inv N test prog alone ({ s with ct := ct }.advance t ops) H (Function.update M t M') := by
  have htodo : ({ s with ct := ct }.advance t ops).todo t = ops := Function.update_self ..
  have hframe := h.frame ({ s with ct := ct }.advance t ops) (H t) M' hgate h.locks
    (fun _ _ _ ↦ rfl) (fun _ _ ↦ rfl) (fun u hu ↦ Function.update_of_ne hu ..)
    (by rw [htodo, hop]; exact List.suffix_cons ..) (by rwa [htodo]) (fun l ↦ ?_) (h.busy t)
    hguarded hnamed hcounted h.running
  · rwa [Function.update_eq_self] at hframe
  · rw [htodo]
    exact (h.placed_of hop rfl).change (hcheck l) Iff.rfl

omit [DecidableEq C] [DecidableEq T] in
/-- A thread that is alone, and is counted for a lock, is the only thread that may go on. -/
theorem eq_of_alone (hplan : Plan test prog alone) {u : T} {l : Lid} (ha : alone u = true)
    (hl : l ∈ M u) (hgate : ∀ v, test v < test t → s.todo v = []) (ht : s.todo t ≠ []) : t = u := by
  have hu : s.todo u ≠ [] := by
    intro hnil
    obtain ⟨-, hM⟩ := h.script_of hnil
    exact absurd hl (by simp [hM])
  have hle : ¬ test u < test t := fun hlt ↦ hu (hgate u hlt)
  have hge : ¬ test t < test u := fun hlt ↦ ht (h.joined u (Or.inr (Or.inr ⟨l, hl⟩)) t hlt)
  refine hplan.alone u t ha (by omega) fun hnil ↦ ht ?_
  have hsuffix := h.suffix t
  rwa [hnil, List.suffix_nil] at hsuffix

omit [DecidableEq C] [DecidableEq T] in
/-- The names of two locks that are in use differ in the first byte. -/
theorem eq_of_index (hplan : Plan test prog alone) {u : T} {l : Lid} (hl : l ∈ M u)
    (hop : op ∈ s.todo t) (he : index l = index op.lid) : l = op.lid := by
  obtain ⟨op', hop', rfl⟩ := h.named u l hl
  exact hplan.names u t op' hop' op ((h.suffix t).subset hop) he

omit [DecidableEq C] [DecidableEq T] in
/-- **Nobody else is counted for a lock that a thread has been given.** -/
theorem ct_eq_zero (hplan : Plan test prog alone) (hgate : ∀ u, test u < test t → s.todo u = [])
    (hop : s.todo t = .checkGrant lid :: ops) : s.ct (index lid) = 0 := by
  by_contra hct
  obtain ⟨u, l, hl, he⟩ := h.counted.someone _ hct
  have hmem : Op.checkGrant lid ∈ s.todo t := hop ▸ List.mem_cons_self
  obtain rfl : l = lid := h.eq_of_index hplan hl hmem he
  obtain ⟨⟨hhas, hnot⟩, -⟩ := h.script_of hop
  have hut : t ≠ u := fun e ↦ hnot (e ▸ hl)
  cases ha : alone u with
  | true => exact hut (h.eq_of_alone hplan ha hl hgate (by simp [hop]))
  | false =>
    -- Both have the lock.
    have ht : s.locks.tenure l t = .held := by
      cases hten : s.locks.tenure l t with
      | held => rfl
      | out => exact absurd hhas (h.placed_of hop hten)
      | acquiring | releasing => exact absurd (h.placed_of hop hten).2 (by simp)
    have hu : s.locks.tenure l u = .held := by
      have hhas' := h.guarded u ha hl
      cases hten : s.locks.tenure l u with
      | held => rfl
      | out => exact absurd hhas' (h.placed_of rfl hten)
      | acquiring => exact absurd hhas' (h.placed_of rfl hten).1
      | releasing =>
        obtain ⟨ops', hops'⟩ := List.head?_eq_some_iff.1 (h.placed_of rfl hten).2
        exact absurd hl ((h.script_of hops').1.2 ha)
    exact hut (h.locks.eq_of_held hu ht)

/-! ### Steps -/

/-- **What a step keeps.** -/
theorem step [Fintype T] (hplan : Plan test prog alone) (hs : Tester.step N test s t = some s') :
    ∃ H' M', Inv N test prog alone s' H' M' := by
  obtain ⟨⟨-, hgate⟩, hs⟩ := Option.ite_none_right_eq_some.1 hs
  split at hs
  · exact absurd hs (by simp)
  · rename_i lid ops hop
    obtain ⟨H', h'⟩ := h.acquire hgate hop hs
    exact ⟨H', M, h'⟩
  · rename_i lid ops hop
    obtain ⟨H', h'⟩ := h.release hgate hop hs
    exact ⟨H', M, h'⟩
  · rename_i lid ops hop
    obtain rfl := Option.some_inj.1 hs
    have hmem : Op.checkGrant lid ∈ s.todo t := hop ▸ List.mem_cons_self
    have hzero := h.ct_eq_zero hplan hgate hop
    obtain ⟨⟨hhas, -⟩, hscript⟩ := h.script_of hop
    rw [State.checkGrant, if_neg (by simp [hzero])]
    refine ⟨H, _, h.check (insert lid (M t)) hgate hop (by simp) hscript
      (fun ha ↦ Finset.insert_subset hhas (h.guarded t ha)) (fun l hl ↦ ?_)
      (h.counted.grant hzero)⟩
    rcases Finset.mem_insert.1 hl with rfl | hl
    · exact ⟨_, (h.suffix t).subset hmem, rfl⟩
    · exact h.named t l hl
  · rename_i lid ops hop
    obtain rfl := Option.some_inj.1 hs
    have hmem : Op.checkRelease lid ∈ s.todo t := hop ▸ List.mem_cons_self
    obtain ⟨hmarked, hscript⟩ := h.script_of hop
    have hone := h.counted.one t lid hmarked
    rw [State.checkRelease, if_neg (by simp [hone])]
    exact ⟨H, _, h.check ((M t).erase lid) hgate hop (by simp) hscript
      (fun ha ↦ (Finset.erase_subset ..).trans (h.guarded t ha))
      (fun l hl ↦ h.named t l (Finset.mem_of_mem_erase hl))
      (h.counted.release hmarked fun u l hl he ↦ h.eq_of_index hplan hl hmem he)⟩

/-! ### The end -/

omit [DecidableEq C] [DecidableEq T] in
/-- A thread that is inside a call has been created. -/
theorem joined_of_call {l : Lid} (ht : s.locks.tenure l t ≠ .out) (u : T) (hlt : test u < test t) :
    s.todo u = [] :=
  h.joined t (Or.inr (Or.inl ⟨l, ht⟩)) u hlt

omit [DecidableEq C] [DecidableEq T] in
/-- The call that a thread is inside of is its next one. -/
theorem busy_of_next (hop : s.todo t = op :: ops) (hcall : op = .acquire lid ∨ op = .release lid) :
    s.locks.busy t = none ∨ s.locks.busy t = some lid := by
  refine (h.busy t).imp_right fun ⟨l, hb, hin⟩ ↦ ?_
  have hhead : op = .acquire l ∨ op = .release l := by
    rcases hin with hin | hin
    · exact Or.inl (Option.some_inj.1 (h.placed_of hop hin).2)
    · exact Or.inr (Option.some_inj.1 (h.placed_of hop hin).2)
  have heq : lid = l := by
    rcases hcall with rfl | rfl <;> simpa using hhead
  rw [hb, heq]

variable [Fintype T] (hid : ∀ c, N.id c ≠ "")
include hid

/-- A thread that has been created and cannot go on is waiting for a lock. -/
theorem waiting_of_stuck (hgate : ∀ u, test u < test t → s.todo u = []) (ht : s.todo t ≠ [])
    (hstuck : Tester.step N test s t = none) :
    ∃ l ops, s.todo t = .acquire l :: ops ∧ s.locks.tenure l t = .acquiring := by
  obtain ⟨op, ops, hop⟩ := List.exists_cons_of_ne_nil ht
  rw [Tester.step, if_pos ⟨h.running, hgate⟩, hop] at hstuck
  cases op with
  | acquire l =>
    refine ⟨l, ops, hop, ?_⟩
    have hstep := State.step_of_call_eq_none (Option.map_eq_none_iff.1 hstuck)
    have hnew : l ∉ H t := (h.script_of hop).1.1
    cases hten : s.locks.tenure l t with
    | acquiring => rfl
    | out =>
      have hsome := h.locks.isSome_step hid (h.busy_of_next hop (Or.inl rfl)) (Or.inr (Or.inl hten))
      rw [hstep (by simp [hten])] at hsome
      exact absurd hsome (by simp)
    | held => exact absurd (h.placed_of hop hten) hnew
    | releasing => exact absurd (h.placed_of hop hten).1 hnew
  | release l =>
    have hstep := State.step_of_call_eq_none (Option.map_eq_none_iff.1 hstuck)
    have hhas : l ∈ H t := (h.script_of hop).1.1
    have hsome : s.locks.tenure l t ∈ [Tenure.held, .releasing] → False := by
      intro hduring
      have hsome : (Lock.step N s.locks (t, l)).isSome = true := by
        refine h.locks.isSome_step hid (h.busy_of_next hop (Or.inr rfl)) ?_
        rcases List.mem_pair.1 hduring with hten | hten
        · exact Or.inr (Or.inr hten)
        · exact Or.inl (PC.resting_of_inRpc (PC.inRpc_of_releasing hten))
      rw [hstep hduring] at hsome
      exact absurd hsome (by simp)
    cases hten : s.locks.tenure l t with
    | held | releasing => exact (hsome (by simp [hten])).elim
    | out => exact absurd hhas (h.placed_of hop hten)
    | acquiring => exact absurd hhas (h.placed_of hop hten).1
  | checkGrant l | checkRelease l => exact absurd hstuck (by simp)

/-- **The tester does not come to a halt.**  If no thread can go on, then all have come to their
end. -/
theorem ended_of_stuck (hplan : Plan test prog alone) (hstuck : ∀ t, Tester.step N test s t = none)
    (t : T) : s.todo t = [] := by
  by_contra ht
  -- Among the threads that have not come to their end, one of the first test.
  obtain ⟨t, ht, hfirst⟩ : ∃ t, s.todo t ≠ [] ∧ ∀ u, s.todo u ≠ [] → test t ≤ test u := by
    obtain ⟨t, ht, hmin⟩ := Finset.exists_min_image (Finset.univ.filter fun u ↦ s.todo u ≠ []) test
      ⟨t, by simpa using ht⟩
    exact ⟨t, by simpa using ht, fun u hu ↦ hmin u (by simpa using hu)⟩
  have hgate : ∀ u, test u < test t → s.todo u = [] := by
    intro u hlt
    by_contra hu
    exact absurd (hfirst u hu) (by omega)
  obtain ⟨l, ops, hop, hten⟩ := h.waiting_of_stuck hid hgate ht (hstuck t)
  -- It waits for a lock, so somebody has the lock, and is waiting as well.
  have hblocked : ∀ x l', ((s.locks.lane l').pc x).inCall = true →
      Lock.step N s.locks (x, l') = none := by
    intro x l' hin
    have hnone := hstuck x
    rcases PC.tenure_of_inCall hin with hx | hx
    all_goals
      have hgatex := h.joined_of_call
        (show s.locks.tenure l' x ≠ .out by rw [State.tenure, hx]; simp)
      obtain ⟨ops', hops'⟩ := List.head?_eq_some_iff.1 (h.placed_of (l := l') rfl hx).2
      rw [Tester.step, if_pos ⟨h.running, hgatex⟩, hops'] at hnone
      refine State.step_of_call_eq_none (Option.map_eq_none_iff.1 hnone) ?_
      rw [State.tenure, hx]
      simp
  obtain ⟨u, hu⟩ := h.locks.held_of_blocked hid hblocked hten
  have hhas : l ∈ H u := h.placed_of rfl hu
  have hune : s.todo u ≠ [] := by
    intro hnil
    obtain ⟨hH, -⟩ := h.script_of hnil
    exact absurd hhas (by simp [hH])
  have hgateu := h.joined_of_call (show s.locks.tenure l u ≠ .out by simp [hu])
  obtain ⟨l', ops', hop', -⟩ := h.waiting_of_stuck hid hgateu hune (hstuck u)
  -- Only a thread that is alone waits for a lock while it has one.
  have ha : alone u = true := by
    by_contra ha
    have hH := (h.script_of hop').1.2 (by simpa using ha)
    exact absurd hhas (by simp [hH])
  have hsame : test t = test u := by
    have hle := hfirst u hune
    have hge : ¬ test t < test u := fun hlt ↦ ht (hgateu t hlt)
    omega
  have hprog : prog t ≠ [] := by
    intro hnil
    have hsuffix := h.suffix t
    rw [hnil, List.suffix_nil] at hsuffix
    exact ht hsuffix
  obtain rfl := hplan.alone u t ha hsame hprog
  exact absurd (hten.symm.trans hu) (by simp)

end Inv

/-! ## The tests -/

/-- `nt`, the number of clients and the greatest number of threads. -/
abbrev nt : Nat := 6

/-- The locks `a` and `b`. -/
abbrev a : Lid := 1

abbrev b : Lid := 2

/-- A lock is acquired and released, which is checked while the thread has it. -/
def round (lid : Lid) : List Op := [.acquire lid, .checkGrant lid, .checkRelease lid, .release lid]

def test1 : List Op :=
  [.acquire a, .checkGrant a, .release a, .checkRelease a,
    .acquire a, .checkGrant a, .release a, .checkRelease a,
    .acquire a, .checkGrant a, .acquire b, .checkGrant b,
    .release b, .checkRelease b, .release a, .checkRelease a]

def test2 : List Op := round a

/-- `test3`, `test4` and `test5`, which differ in the clients. -/
def test3 : List Op := (List.replicate 10 (round a)).flatten

/-- A test, counted from 0, and a thread of it.  The first test is run by `main`. -/
abbrev Thread := Fin 5 × Fin nt

/-- The client that a thread calls. -/
def client : Thread → Fin nt
  | (0, _) | (3, _) => 0
  | (4, i) => if i.val < 5 then 0 else 1
  | (_, i) => i

/-- The lock service of the tester, for some names of the clients. -/
def service (id : Fin nt → String) (hid : Function.Injective id) : Cluster (Fin nt) Thread where
  id := id
  clientAt s := (List.finRange nt).find? (id · = s)
  clientAt_eq s c := by
    rw [List.find?_eq_some_iff_getElem]
    constructor
    · rintro ⟨h, -⟩
      simpa using h
    · rintro rfl
      refine ⟨by simp, c.val, by simp, by simp, fun j hj ↦ ?_⟩
      simp only [List.getElem_finRange, Bool.not_eq_eq_eq_not, Bool.not_true,
        decide_eq_false_iff_not]
      intro he
      exact absurd (congrArg Fin.val (hid he)) (by simpa using hj.ne)
  owner := client

/-- What a thread does, if its test is run and there is such a thread. -/
def body : Thread → List Op
  | (0, i) => if i.val < 1 then test1 else []
  | (1, _) => test2
  | (3, i) => if i.val < 2 then test3 else []
  | _ => test3

/-- What there is to be done, for the number of a test on the command line; 0 is for all of them. -/
def main (arg : Nat) (t : Thread) : List Op :=
  if arg = 0 ∨ arg = t.1.val + 1 then body t else []

/-- The number of a thread's test. -/
def testOf (t : Thread) : Nat := t.1.val

/-- The thread of the first test is `main` itself. -/
def isAlone (t : Thread) : Bool := t = (0, 0)

theorem script_body (t : Thread) : Script (isAlone t) ∅ ∅ (body t) := by
  revert t
  decide +kernel

theorem eq_of_isAlone (t u : Thread) (ha : isAlone t = true) (hu : testOf u = testOf t)
    (hbody : body u ≠ []) : u = t := by
  revert t u
  decide +kernel

theorem lid_of_body (t : Thread) : ∀ op ∈ body t, op.lid = a ∨ op.lid = b := by
  revert t
  decide +kernel

/-- The tests are as they should be, and so are some of them. -/
theorem plan_main (arg : Nat) : Plan testOf (main arg) isAlone := by
  have hsub : ∀ t, main arg t = [] ∨ main arg t = body t := by
    intro t
    rw [main]
    split
    · exact Or.inr rfl
    · exact Or.inl rfl
  refine ⟨fun t ↦ ?_, fun t u ha hu hne ↦ eq_of_isAlone t u ha hu fun hnil ↦ ?_,
    fun t u op hop op' hop' he ↦ ?_⟩
  · rcases hsub t with he | he <;> rw [he]
    · exact ⟨rfl, rfl⟩
    · exact script_body t
  · rcases hsub u with he | he
    · exact hne he
    · exact hne (he.trans hnil)
  · have hlid : ∀ {t op}, op ∈ main arg t → op.lid = a ∨ op.lid = b := by
      intro t op hop
      rcases hsub t with he | he <;> rw [he] at hop
      · exact absurd hop (by simp)
      · exact lid_of_body t op hop
    rcases hlid hop with h | h <;> rcases hlid hop' with h' | h' <;> rw [h, h'] at he ⊢
    · exact absurd he (by decide)
    · exact absurd he (by decide)

/-- **The tester is satisfied.**  However the steps of its threads and of the lock service are
interleaved, `lock_tester` never finds that a lock has been granted twice or released by somebody
who does not have it, and it does not come to a halt before all the tests have been passed. -/
theorem tester_passes (id : Fin nt → String) (hinj : Function.Injective id) (hid : ∀ c, id c ≠ "")
    (arg : Nat) {run : List Thread} {s : State (Fin nt) Thread}
    (hrun : run.foldlM (step (service id hinj) testOf) { todo := main arg } = some s) :
    s.exited = false ∧
      ((∀ t, step (service id hinj) testOf s t = none) → ∀ t, s.todo t = []) := by
  have hplan := plan_main arg
  obtain ⟨H, M, h⟩ := Machine.run_induction
    (P := fun s ↦ ∃ H M, Inv (service id hinj) testOf (main arg) isAlone s H M)
    (fun s t s' ⟨H, M, h⟩ hs ↦ h.step hplan hs) ⟨_, _, hplan.init⟩ hrun
  exact ⟨h.running, h.ended_of_stuck hid hplan⟩

/-- Names of the clients. -/
def names (c : Fin nt) : String := toString c.val

theorem names_injective : Function.Injective names := by decide

/-- The first test from its beginning to its end. -/
theorem tester_passes_test1 : ∃ s, (List.replicate 20 ((0, 0) : Thread)).foldlM
      (step (service names names_injective) testOf) { todo := main 1 } = some s ∧
    s.todo (0, 0) = [] ∧ s.exited = false := by
  have hrun : ((List.replicate 20 ((0, 0) : Thread)).foldlM
      (step (service names names_injective) testOf) { todo := main 1 }).map
        (fun s ↦ s.todo (0, 0)) = some [] := by decide +kernel
  obtain ⟨s, hs, htodo⟩ := Option.map_eq_some_iff.1 hrun
  exact ⟨s, hs, htodo, (tester_passes names names_injective (by decide) 1 hs).1⟩

/-- If the first test were run by two threads at once, the tester would complain although each lock
is given to one of them only. -/
example : ((List.replicate 5 ((0, 0) : Thread) ++ List.replicate 2 (0, 1)).foldlM
    (step (service names names_injective) testOf) { todo := fun _ ↦ test1 }).map State.exited
      = some true := by
  decide +kernel

end Tester
end Lock
end Yfs
