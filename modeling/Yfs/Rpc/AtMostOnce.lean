import Mathlib.Data.List.Count
import Yfs.Machine.Run
import Yfs.Rpc.System

/-!
# A call is executed at most once

Abstractly a call goes through four stages.  It is fresh; then the server accepts it, on some
thread; then that thread runs the handler; and then the call has been run, with a result.  A stage
never comes back.  A call that has returned normally is one that has been run, and it has returned
the result.

`Rep` says how the stages of all calls show in a state of the system, and `Rep.step` that every step
either leaves the stages alone or moves one call on by one stage.  The step that matters is the one
from fresh to accepted.  It is taken when the window of the server does not know the number of the
call.  The window knows the calls that are not fresh, and it never unlearns one, as a request is
always later than what it acknowledges.
-/

set_option autoImplicit false

namespace Yfs
namespace Rpc

open Machine

/-! ## Stages -/

/-- How far a call has got. -/
inductive Stage where
  | fresh
  /-- Thread `t` is about to run it. -/
  | accepted (t : Nat)
  /-- Thread `t` is running it. -/
  | running (t : Nat)
  /-- It has been run. -/
  | ran (ret : Int) (body : List UInt8)

namespace Stage

/-- How often the handler has been invoked. -/
def invocations : Stage → Nat
  | fresh | accepted _ => 0
  | running _ | ran _ _ => 1

/-- What the handler has returned. -/
def results (n x : Nat) : Stage → List Result
  | fresh | accepted _ | running _ => []
  | ran ret body => [⟨n, x, ret, body⟩]

/-- The stage is not the business of a thread other than `t`. -/
def Free (t : Nat) (g : Stage) : Prop := g = fresh ∨ g = accepted t ∨ g = running t

end Stage

/-- The stages of all calls, by nonce and number. -/
abbrev Progress := Nat × Nat → Stage

section Progress

variable {g : Progress} {k k' : Nat × Nat} {v : Stage} {t u : Nat}

theorem ran_update {ret : Int} {body : List UInt8} (hfree : (g k).Free t)
    (h : g k' = .ran ret body) : Function.update g k v k' = .ran ret body := by
  rw [Function.update_of_ne, h]
  rintro rfl
  rcases hfree with e | e | e <;> simp [e] at h

theorem accepted_update (hfree : (g k).Free t) (hne : u ≠ t) (h : g k' = .accepted u) :
    Function.update g k v k' = .accepted u := by
  rw [Function.update_of_ne, h]
  rintro rfl
  rcases hfree with e | e | e
  · simp [e] at h
  · exact hne (Stage.accepted.inj (h.symm.trans e))
  · simp [e] at h

theorem running_update (hfree : (g k).Free t) (hne : u ≠ t) (h : g k' = .running u) :
    Function.update g k v k' = .running u := by
  rw [Function.update_of_ne, h]
  rintro rfl
  rcases hfree with e | e | e
  · simp [e] at h
  · simp [e] at h
  · exact hne (Stage.running.inj (h.symm.trans e))

end Progress

/-! ## The stages in the system -/

variable {C : Type} (S : Service C)

/-- An answer for a call of client `c` is a failure, or the result of the call. -/
def Answered (g : Progress) (c : C) (x : Nat) (ret : Int) (body : List UInt8) : Prop :=
  0 ≤ ret → g (S.nonce c, x) = .ran ret body

/-- What is true of the request or the reply that a thread is at. -/
def JobOk (s : State C) (g : Progress) (t : Nat) : Job C → Prop
  | .dispatch h | .check h => h ∈ s.requests
  | .call h => h ∈ s.requests ∧ g (h.cltNonce, h.xid) = .accepted t
  | .handler h => h ∈ s.requests ∧ g (h.cltNonce, h.xid) = .running t
  | .addReply h b =>
    h ∈ s.requests ∧ b.xid = h.xid ∧ g (h.cltNonce, h.xid) = .ran b.ret b.body
  | .send c b => b.xid < (s.client c).xid ∧ Answered S g c b.xid b.ret b.body

/-- What is true of a client. -/
structure ClientOk (g : Progress) (c : C) (cl : Client) : Prop where
  window : Truthful (· < cl.xid) cl.xidRepWindow
  issued : ∀ x ca, cl.calls x = some ca → x < cl.xid
  done : ∀ x ca, cl.calls x = some ca → ca.done = true → Answered S g c x ca.intret ca.un
  past : ∀ x o, cl.returned x = some o → x < cl.xid
  returned : ∀ x o, cl.returned x = some o → Answered S g c x o.ret o.body

/-- The stages of the calls are `g`. -/
structure Rep (s : State C) (g : Progress) : Prop where
  client : ∀ c, ClientOk S g c (s.client c)
  request : ∀ h ∈ s.requests,
    h.cltNonce = S.nonce h.src ∧ h.xidRep < h.xid ∧ h.xid < (s.client h.src).xid
  reply : ∀ c b, (c, b) ∈ s.replies →
    b.xid < (s.client c).xid ∧ Answered S g c b.xid b.ret b.body
  job : ∀ t j, s.pool t = some j → JobOk S s g t j
  sorted : ∀ n, Sorted (s.window n)
  /-- The window knows every call that has been accepted. -/
  known : ∀ n x, g (n, x) ≠ .fresh → Known (s.window n) x
  /-- The saved replies are the results. -/
  saved : ∀ n, ∀ e ∈ s.window n, ∀ b, e.reply = some b →
    b.xid = e.xid ∧ g (n, e.xid) = .ran b.ret b.body
  invoked : ∀ n x, s.invoked.count (n, x) = (g (n, x)).invocations
  results : ∀ n x, s.results.filter (fun r ↦ r.nonce = n ∧ r.xid = x) = (g (n, x)).results n x

variable {S} {s s' : State C} {g : Progress} {c : C} {t : Nat}

theorem rep_init : Rep S {} fun _ ↦ .fresh := by
  refine ⟨fun c ↦ ⟨⟨by simp, by simp, by simp, by simp⟩, by simp, by simp, by simp, by simp⟩,
    by simp, by simp, by simp, by simp, by simp, by simp, by simp [Stage.invocations],
    by simp [Stage.results]⟩

/-- What is true of a job depends on the requests that have been sent and on how many calls the
clients have made, and goes on being true as these grow. -/
theorem JobOk.mono {j : Job C} (h : JobOk S s g t j) (hreq : s.requests ⊆ s'.requests)
    (hxid : ∀ c, (s.client c).xid ≤ (s'.client c).xid) : JobOk S s' g t j := by
  cases j with
  | dispatch h' | check h' => exact hreq h
  | call h' | handler h' => exact ⟨hreq h.1, h.2⟩
  | addReply h' b => exact ⟨hreq h.1, h.2⟩
  | send c b => exact ⟨h.1.trans_le (hxid c), h.2⟩

/-! ## The client -/

namespace ClientOk

variable {cl : Client}

theorem start (h : ClientOk S g c cl) (proc : Nat) : ClientOk S g c (cl.start proc) := by
  refine ⟨h.window.mono fun x hx ↦ Nat.lt_succ_of_lt hx, fun x ca hx ↦ ?_, fun x ca hx hd ↦ ?_,
    fun x o hx ↦ Nat.lt_succ_of_lt (h.past x o hx), h.returned⟩
  · rcases Client.calls_start hx with ⟨rfl, -⟩ | ⟨-, hx⟩
    · exact Nat.lt_succ_self _
    · exact Nat.lt_succ_of_lt (h.issued x ca hx)
  · rcases Client.calls_start hx with ⟨-, rfl⟩ | ⟨-, hx⟩
    · exact absurd hd (by simp)
    · exact h.done x ca hx hd

theorem gotPdu (h : ClientOk S g c cl) {b : Reply} (hlt : b.xid < cl.xid)
    (hans : Answered S g c b.xid b.ret b.body) : ClientOk S g c (cl.gotPdu b) := by
  refine ⟨h.window.updateXidRep hlt, fun x ca hx ↦ ?_, fun x ca hx hd ↦ ?_, h.past, h.returned⟩
  · obtain ⟨ca', hx', -⟩ := Client.calls_gotPdu hx
    exact h.issued x ca' hx'
  · obtain ⟨ca', hx', -, ⟨rfl, -⟩ | ⟨rfl, -, hret, hun⟩⟩ := Client.calls_gotPdu hx
    · exact h.done x ca hx' hd
    · rw [hret, hun]
      exact hans

theorem finish (h : ClientOk S g c cl) {x : Nat} {ca : Caller} (hca : cl.calls x = some ca) :
    ClientOk S g c (cl.finish x ca) := by
  have hlt := h.issued x ca hca
  refine ⟨h.window.updateXidRep hlt, fun y ca' hy ↦ ?_, fun y ca' hy hd ↦ ?_, fun y o hy ↦ ?_,
    fun y o hy ↦ ?_⟩
  · exact h.issued y ca' (Client.calls_finish hy).2
  · exact h.done y ca' (Client.calls_finish hy).2 hd
  · rcases Client.returned_finish hy with ⟨rfl, -⟩ | hy
    · exact hlt
    · exact h.past y o hy
  · rcases Client.returned_finish hy with ⟨rfl, rfl⟩ | hy
    · simp only
      split
      · exact h.done y ca hca ‹_›
      · exact fun hpos ↦ absurd hpos (by simp [timeoutFailure])
    · exact h.returned y o hy

theorem cancel (h : ClientOk S g c cl) : ClientOk S g c cl.cancel := by
  refine ⟨h.window, fun x ca hx ↦ ?_, fun x ca hx _ hpos ↦ ?_, h.past, h.returned⟩
  · obtain ⟨ca', hx', -⟩ := Client.calls_cancel hx
    exact h.issued x ca' hx'
  · obtain ⟨ca', -, rfl⟩ := Client.calls_cancel hx
    exact absurd hpos (by simp [cancelFailure])

end ClientOk

namespace Rep

theorem addRequest (h : Rep S s g) {h' : Request C} (hnonce : h'.cltNonce = S.nonce h'.src)
    (hlt : h'.xidRep < h'.xid) (hxid : h'.xid < (s.client h'.src).xid) :
    Rep S { s with requests := h' :: s.requests } g := by
  refine ⟨h.client, fun h'' hh ↦ ?_, h.reply, fun t j hj ↦ ?_, h.sorted, h.known,
    h.saved, h.invoked, h.results⟩
  · rcases List.mem_cons.1 hh with rfl | hh
    · exact ⟨hnonce, hlt, hxid⟩
    · exact h.request h'' hh
  · exact (h.job t j hj).mono (List.subset_cons_self _ _) fun c ↦ le_rfl

section Client

variable [DecidableEq C]

/-- Client `c` changes, and nothing is forgotten. -/
theorem setClient (h : Rep S s g) {cl : Client} (hxid : (s.client c).xid ≤ cl.xid)
    (hok : ClientOk S g c cl) : Rep S (s.setClient c cl) g := by
  have hmono : ∀ c', (s.client c').xid ≤ ((s.setClient c cl).client c').xid := by
    intro c'
    simp only [State.setClient, Function.update_apply]
    split
    · rename_i e
      exact e ▸ hxid
    · exact le_rfl
  refine ⟨fun c' ↦ ?_, fun h' hh ↦ ?_, fun c' b hb ↦ ?_, fun t j hj ↦ ?_, h.sorted,
    h.known, h.saved, h.invoked, h.results⟩
  · simp only [State.setClient, Function.update_apply]
    split
    · rename_i e
      exact e ▸ hok
    · exact h.client c'
  · obtain ⟨h₁, h₂, h₃⟩ := h.request h' hh
    exact ⟨h₁, h₂, h₃.trans_le (hmono _)⟩
  · obtain ⟨h₁, h₂⟩ := h.reply c' b hb
    exact ⟨h₁.trans_le (hmono c'), h₂⟩
  · exact (h.job t j hj).mono (List.Subset.refl _) hmono

theorem issue (h : Rep S s g) {proc : Nat} (hs : Rpc.issue S s c proc = some s') : Rep S s' g := by
  obtain ⟨-, -, -, rfl⟩ := of_issue hs
  have hstart : Rep S (s.setClient c ((s.client c).start proc)) g :=
    h.setClient (Nat.le_succ _) ((h.client c).start proc)
  refine hstart.addRequest rfl ((h.client c).window.front _ le_rfl) ?_
  simp [State.setClient, Client.start]

theorem bound (h : Rep S s g) {x : Nat} (hs : Rpc.bound s c x = some s') : Rep S s' g := by
  have hc := h.client c
  obtain ⟨o, r, -, -, -, -, rfl⟩ := of_bound hs
  exact h.setClient le_rfl ⟨hc.window, hc.issued, hc.done, hc.past, hc.returned⟩

end Client

/-! ## The server -/

theorem setJob (h : Rep S s g) {j : Option (Job C)} (hj : ∀ j', j = some j' → JobOk S s g t j') :
    Rep S (s.setJob t j) g := by
  refine ⟨h.client, h.request, h.reply, fun u j' hu ↦ ?_, h.sorted, h.known, h.saved, h.invoked,
    h.results⟩
  refine JobOk.mono (s := s) ?_ (List.Subset.refl _) fun c ↦ le_rfl
  simp only [State.setJob, Function.update_apply] at hu
  split at hu
  · rename_i e
    exact e ▸ hj j' hu
  · exact h.job u j' hu

theorem setWindow (h : Rep S s g) {n : Nat} {l : List Entry} (hsorted : Sorted l)
    (hknown : ∀ x, g (n, x) ≠ .fresh → Known l x)
    (hsaved : ∀ e ∈ l, ∀ b, e.reply = some b → b.xid = e.xid ∧ g (n, e.xid) = .ran b.ret b.body) :
    Rep S (s.setWindow n l) g := by
  refine ⟨h.client, h.request, h.reply, fun u j hu ↦ ?_, fun m ↦ ?_, fun m x hx ↦ ?_,
    fun m e he ↦ ?_, h.invoked, h.results⟩
  · exact (h.job u j hu).mono (List.Subset.refl _) fun c ↦ le_rfl
  all_goals simp only [State.setWindow, Function.update_apply] at *
  · split
    · exact hsorted
    · exact h.sorted m
  · split
    · rename_i e
      exact hknown x (e ▸ hx)
    · exact h.known m x hx
  · split at he
    · rename_i e'
      exact e' ▸ hsaved e he
    · exact h.saved m e he

/-- **A call moves on by one stage.**  Thread `t` moves it on, and no other thread is concerned. -/
theorem advance (h : Rep S s g) {k : Nat × Nat} {v : Stage} {j : Job C} {iv : List (Nat × Nat)}
    {rs : List Result} (hfree : (g k).Free t) (hknown : Known (s.window k.1) k.2)
    (hj : JobOk S s (Function.update g k v) t j)
    (hiv : ∀ n x, iv.count (n, x) = (Function.update g k v (n, x)).invocations)
    (hrs : ∀ n x, rs.filter (fun r ↦ r.nonce = n ∧ r.xid = x)
      = (Function.update g k v (n, x)).results n x) :
    Rep S { s.setJob t (some j) with invoked := iv, results := rs } (Function.update g k v) := by
  have hans : ∀ {c x ret body}, Answered S g c x ret body →
      Answered S (Function.update g k v) c x ret body :=
    fun ha hpos ↦ ran_update hfree (ha hpos)
  refine ⟨fun c ↦ ?_, h.request, fun c b hb ↦ ?_, fun u j' hu ↦ ?_, h.sorted, fun n x hx ↦ ?_,
    fun n e he b hb ↦ ?_, hiv, hrs⟩
  · obtain ⟨h₁, h₂, h₃, h₄, h₅⟩ := h.client c
    exact ⟨h₁, h₂, fun x ca hx hd ↦ hans (h₃ x ca hx hd), h₄, fun x o hx ↦ hans (h₅ x o hx)⟩
  · exact ⟨(h.reply c b hb).1, hans (h.reply c b hb).2⟩
  · refine JobOk.mono (s := s) ?_ (List.Subset.refl _) fun c ↦ le_rfl
    simp only [State.setJob, Function.update_apply] at hu
    split at hu
    · rename_i e
      obtain rfl := Option.some_inj.1 hu
      exact e ▸ hj
    · rename_i hne
      have hold := h.job u j' hu
      -- the other threads' calls are at stages that are theirs, or have been run
      cases j' with
      | dispatch h' | check h' => exact hold
      | call h' => exact ⟨hold.1, accepted_update hfree hne hold.2⟩
      | handler h' => exact ⟨hold.1, running_update hfree hne hold.2⟩
      | addReply h' b => exact ⟨hold.1, hold.2.1, ran_update hfree hold.2.2⟩
      | send c b => exact ⟨hold.1, hans hold.2⟩
  · by_cases e : (n, x) = k
    · subst e
      exact hknown
    · rw [Function.update_of_ne e] at hx
      exact h.known n x hx
  · obtain ⟨h₁, h₂⟩ := h.saved n e he b hb
    exact ⟨h₁, ran_update hfree h₂⟩

/-- The request is new: its call is accepted. -/
theorem accept (h : Rep S s g) {h' : Request C} (hreq : h' ∈ s.requests)
    (hnew : ¬ Known (s.window h'.cltNonce) h'.xid) :
    Rep S ((s.setWindow h'.cltNonce (remember (s.window h'.cltNonce) h'.xid h'.xidRep)).setJob t
        (some (.call h'))) (Function.update g (h'.cltNonce, h'.xid) (.accepted t)) := by
  obtain ⟨-, hlt, -⟩ := h.request h' hreq
  have hfresh : g (h'.cltNonce, h'.xid) = .fresh := by
    by_contra hne
    exact hnew (h.known _ _ hne)
  have hwin :
      Rep S (s.setWindow h'.cltNonce (remember (s.window h'.cltNonce) h'.xid h'.xidRep)) g := by
    refine h.setWindow (sorted_remember (h.sorted _) hnew)
      (fun x hx ↦ (h.known _ x hx).remember (h.sorted _) hnew hlt) fun e he b hb ↦ ?_
    rcases mem_of_mem_remember he with he | rfl
    · exact h.saved _ e he b hb
    · exact absurd hb (by simp)
  refine hwin.advance (Or.inl hfresh) ?_ ⟨hreq, Function.update_self ..⟩ (fun n x ↦ ?_) fun n x ↦ ?_
  · simp only [State.setWindow, Function.update_self]
    exact Or.inl ⟨_, mem_remember_self hlt, rfl⟩
  · rw [Function.update_apply]
    split
    · rename_i e
      exact (h.invoked n x).trans (by rw [e, hfresh]; rfl)
    · exact h.invoked n x
  · rw [Function.update_apply]
    split
    · rename_i e
      exact (h.results n x).trans (by rw [e, hfresh]; rfl)
    · exact h.results n x

/-- The handler is invoked. -/
theorem invoke (h : Rep S s g) {h' : Request C} (hreq : h' ∈ s.requests)
    (hg : g (h'.cltNonce, h'.xid) = .accepted t) :
    Rep S { s.setJob t (some (.handler h')) with invoked := (h'.cltNonce, h'.xid) :: s.invoked }
      (Function.update g (h'.cltNonce, h'.xid) (.running t)) := by
  refine h.advance (Or.inr (Or.inl hg)) (h.known _ _ (by simp [hg]))
    ⟨hreq, Function.update_self ..⟩ (fun n x ↦ ?_) fun n x ↦ ?_
  · rw [List.count_cons, h.invoked n x]
    by_cases e : (h'.cltNonce, h'.xid) = (n, x)
    · rw [← e, Function.update_self, hg, if_pos (beq_self_eq_true _)]
      rfl
    · rw [Function.update_of_ne (Ne.symm e), if_neg (by simpa using e), Nat.add_zero]
  · rw [Function.update_apply]
    split
    · rename_i e
      exact (h.results n x).trans (by rw [e, hg]; rfl)
    · exact h.results n x

/-- The handler returns. -/
theorem handlerReturns (h : Rep S s g) {h' : Request C} (hreq : h' ∈ s.requests)
    (hg : g (h'.cltNonce, h'.xid) = .running t) (ret : Int) (body : List UInt8) :
    Rep S { s.setJob t (some (.addReply h' ⟨h'.xid, ret, body⟩)) with
        results := ⟨h'.cltNonce, h'.xid, ret, body⟩ :: s.results }
      (Function.update g (h'.cltNonce, h'.xid) (.ran ret body)) := by
  refine h.advance (Or.inr (Or.inr hg)) (h.known _ _ (by simp [hg]))
    ⟨hreq, rfl, Function.update_self ..⟩ (fun n x ↦ ?_) fun n x ↦ ?_
  · rw [Function.update_apply]
    split
    · rename_i e
      exact (h.invoked n x).trans (by rw [e, hg]; rfl)
    · exact h.invoked n x
  · rw [List.filter_cons, h.results n x]
    by_cases e : (h'.cltNonce, h'.xid) = (n, x)
    · obtain ⟨rfl, rfl⟩ := Prod.mk.inj e
      rw [Function.update_self, hg, if_pos (by simp)]
      rfl
    · rw [Function.update_of_ne (Ne.symm e), if_neg (by simpa using e)]

/-- The reply is saved. -/
theorem addReply (h : Rep S s g) {h' : Request C} {b : Reply} (hreq : h' ∈ s.requests)
    (hxid : b.xid = h'.xid) (hg : g (h'.cltNonce, h'.xid) = .ran b.ret b.body) :
    Rep S ((s.setJob t (some (.send h'.src b))).setWindow h'.cltNonce
      (addReply (s.window h'.cltNonce) h'.xid b)) g := by
  obtain ⟨hnonce, -, hlt⟩ := h.request h' hreq
  have hjob : Rep S (s.setJob t (some (.send h'.src b))) g := by
    refine h.setJob fun j hj ↦ ?_
    obtain rfl := Option.some_inj.1 hj
    exact ⟨hxid ▸ hlt, fun _ ↦ by rw [hxid, ← hnonce, hg]⟩
  refine hjob.setWindow (sorted_addReply (h.sorted _) _ _)
    (fun x hx ↦ (h.known _ x hx).addReply _ _) fun e he b' hb' ↦ ?_
  obtain ⟨e', he', hx, hr⟩ := mem_addReply he
  rcases hr with hr | ⟨hx', hr⟩
  · rw [← hx]
    exact h.saved _ e' he' b' (hr ▸ hb')
  · obtain rfl := Option.some_inj.1 (hr.symm.trans hb')
    exact ⟨hxid.trans hx'.symm, hx' ▸ hg⟩

/-- A reply is sent. -/
theorem send (h : Rep S s g) {b : Reply} (hlt : b.xid < (s.client c).xid)
    (hans : Answered S g c b.xid b.ret b.body) :
    Rep S { s.setJob t none with replies := (c, b) :: s.replies } g := by
  have hjob : Rep S (s.setJob t none) g := h.setJob fun j hj ↦ absurd hj (by simp)
  refine ⟨hjob.client, hjob.request, fun c' b' hb ↦ ?_, fun u j hu ↦ ?_, hjob.sorted, hjob.known,
    hjob.saved, hjob.invoked, hjob.results⟩
  · rcases List.mem_cons.1 hb with heq | hb
    · obtain ⟨rfl, rfl⟩ := Prod.mk.inj heq
      exact ⟨hlt, hans⟩
    · exact hjob.reply c' b' hb
  · exact (hjob.job u j hu).mono (List.Subset.refl _) fun c ↦ le_rfl

/-- The check, with each of its answers. -/
theorem check (h : Rep S s g) {h' : Request C} (hreq : h' ∈ s.requests)
    (hs : dispatch S s t (.check h') = some s') :
    Rep S s' g ∨ (¬ Known (s.window h'.cltNonce) h'.xid ∧
      Rep S s' (Function.update g (h'.cltNonce, h'.xid) (.accepted t))) := by
  obtain ⟨hnonce, -, hlt⟩ := h.request h' hreq
  have hsame : Rep S (s.setWindow h'.cltNonce (s.window h'.cltNonce)) g :=
    h.setWindow (h.sorted _) (h.known _) (h.saved _)
  have hreply : ∀ b : Reply, b.xid = h'.xid → Answered S g h'.src b.xid b.ret b.body →
      Rep S
        ((s.setWindow h'.cltNonce (s.window h'.cltNonce)).setJob t (some (.send h'.src b))) g := by
    intro b hxid hans
    refine hsame.setJob fun j hj ↦ ?_
    obtain rfl := Option.some_inj.1 hj
    exact ⟨hxid ▸ hlt, hans⟩
  rw [dispatch, if_pos (by rw [hnonce]; exact S.nonce_ne_zero _)] at hs
  rcases check_cases (s.window h'.cltNonce) h'.xid h'.xidRep with
    ⟨e, he, hxid, hnone, heq⟩ | ⟨e, he, b, hxid, hsome, heq⟩ | ⟨-, heq⟩ | ⟨hnew, heq⟩
  all_goals
    rw [heq] at hs
    obtain rfl := Option.some_inj.1 hs
  · exact Or.inl (hsame.setJob fun j hj ↦ absurd hj (by simp))
  · obtain ⟨hb, hran⟩ := h.saved _ e he b hsome
    refine Or.inl (hreply b (hb.trans hxid) fun _ ↦ ?_)
    rw [← hnonce, hb, hran]
  · exact Or.inl (hreply _ rfl fun hpos ↦ absurd hpos (by simp [atmostonceFailure]))
  · exact Or.inr ⟨hnew, h.accept hreq hnew⟩

end Rep

/-! ## Every run -/

/-- The stage that comes after. -/
inductive Stage.Next : Stage → Stage → Prop
  | accept (t : Nat) : Next fresh (accepted t)
  | invoke (t : Nat) : Next (accepted t) (running t)
  | result (t : Nat) (ret : Int) (body : List UInt8) : Next (running t) (ran ret body)

/-- At most one call moves on, by one stage. -/
def Progress.Next (g g' : Progress) : Prop :=
  g' = g ∨ ∃ k v, (g k).Next v ∧ g' = Function.update g k v

variable [DecidableEq C]

/-- **Every step** of the system is a step of the abstract one. -/
theorem Rep.step (h : Rep S s g) {e : Event C} (hs : step S s e = some s') :
    ∃ g', Rep S s' g' ∧ g.Next g' := by
  cases e with
  | issue c proc => exact ⟨g, h.issue hs, Or.inl rfl⟩
  | gotReply c b =>
    obtain ⟨hb, hs⟩ := Option.ite_none_right_eq_some.1 hs
    obtain rfl := Option.some_inj.1 hs
    obtain ⟨hlt, hans⟩ := h.reply c b hb
    exact ⟨g, h.setClient le_rfl ((h.client c).gotPdu hlt hans), Or.inl rfl⟩
  | finish c x =>
    obtain ⟨ca, hca, rfl⟩ := Option.map_eq_some_iff.1 hs
    exact ⟨g, h.setClient le_rfl ((h.client c).finish hca), Or.inl rfl⟩
  | bound c x => exact ⟨g, h.bound hs, Or.inl rfl⟩
  | cancel c =>
    obtain rfl := Option.some_inj.1 hs
    exact ⟨g, h.setClient le_rfl (h.client c).cancel, Or.inl rfl⟩
  | gotRequest t h' =>
    obtain ⟨hreq, hs⟩ := Option.ite_none_right_eq_some.1 hs
    obtain rfl := Option.some_inj.1 hs
    refine ⟨g, h.setJob fun j hj ↦ ?_, Or.inl rfl⟩
    obtain rfl := Option.some_inj.1 hj
    exact hreq.1
  | handlerReturns t ret body =>
    obtain ⟨h', hjob, -, -, rfl⟩ := of_handlerReturns hs
    obtain ⟨hreq, hg⟩ := h.job t _ hjob
    exact ⟨_, h.handlerReturns hreq hg ret body, Or.inr ⟨_, _, hg ▸ .result t ret body, rfl⟩⟩
  | dispatch t =>
    rw [Rpc.step, Option.bind_eq_some_iff] at hs
    obtain ⟨j, hj, hs⟩ := hs
    have hok := h.job t j hj
    cases j with
    | dispatch h' =>
      rw [dispatch] at hs
      split at hs
      · obtain rfl := Option.some_inj.1 hs
        refine ⟨g, h.setJob fun j hj ↦ ?_, Or.inl rfl⟩
        obtain rfl := Option.some_inj.1 hj
        exact ⟨(h.request h' hok).2.2, fun hpos ↦ absurd hpos (by simp [oldsrvFailure])⟩
      split at hs
      · exact absurd hs (by simp)
      · obtain rfl := Option.some_inj.1 hs
        refine ⟨g, h.setJob fun j hj ↦ ?_, Or.inl rfl⟩
        obtain rfl := Option.some_inj.1 hj
        exact hok
    | check h' =>
      rcases h.check hok hs with hrep | ⟨hnew, hrep⟩
      · exact ⟨g, hrep, Or.inl rfl⟩
      · have hfresh : g (h'.cltNonce, h'.xid) = .fresh := by
          by_contra hne
          exact hnew (h.known _ _ hne)
        exact ⟨_, hrep, Or.inr ⟨_, _, hfresh ▸ .accept t, rfl⟩⟩
    | call h' =>
      obtain rfl := Option.some_inj.1 hs
      exact ⟨_, h.invoke hok.1 hok.2, Or.inr ⟨_, _, hok.2 ▸ .invoke t, rfl⟩⟩
    | handler h' => exact absurd hs (by simp [dispatch])
    | addReply h' b =>
      obtain ⟨hreq, hxid, hg⟩ := hok
      rw [dispatch] at hs
      have hnonce : h'.cltNonce > 0 := by
        rw [(h.request h' hreq).1]
        exact Nat.pos_of_ne_zero (S.nonce_ne_zero _)
      rw [if_pos hnonce] at hs
      obtain rfl := Option.some_inj.1 hs
      exact ⟨g, h.addReply hreq hxid hg, Or.inl rfl⟩
    | send c b =>
      obtain rfl := Option.some_inj.1 hs
      exact ⟨g, h.send hok.1 hok.2, Or.inl rfl⟩

theorem rep_of_run {run : List (Event C)} (hrun : run.foldlM (step S) {} = some s) :
    ∃ g, Rep S s g := by
  refine run_induction (P := fun s ↦ ∃ g, Rep S s g) (fun s e s' h hs ↦ ?_) ⟨_, rep_init⟩ hrun
  obtain ⟨g, h⟩ := h
  obtain ⟨g', h', -⟩ := h.step hs
  exact ⟨g', h'⟩

/-- **At most once.**  In every run, the handler is invoked at most once for each call of a client;
and a call that has returned a status that is not a failure is one for which it was invoked, and
what has been returned is what the handler returned. -/
theorem at_most_once {run : List (Event C)} (hrun : run.foldlM (step S) {} = some s)
    (c : C) (x : Nat) :
    s.invoked.count (S.nonce c, x) ≤ 1 ∧
      ∀ o, (s.client c).returned x = some o → 0 ≤ o.ret →
        s.invoked.count (S.nonce c, x) = 1 ∧
        s.results.filter (fun r ↦ r.nonce = S.nonce c ∧ r.xid = x)
          = [⟨S.nonce c, x, o.ret, o.body⟩] := by
  obtain ⟨g, h⟩ := rep_of_run hrun
  refine ⟨?_, fun o ho hpos ↦ ?_⟩
  · rw [h.invoked]
    cases g (S.nonce c, x) <;> simp [Stage.invocations]
  · have hran := (h.client c).returned x o ho hpos
    exact ⟨by rw [h.invoked, hran]; rfl, by rw [h.results, hran]; rfl⟩

/-- One client, with nonce 7. -/
def oneClient : Service Unit where
  nonce _ := 7
  nonce_ne_zero _ := by decide
  nonce_injective _ _ _ := rfl
  srvNonce := 9
  srvNonce_lt := by decide
  procs _ := true

/-- The request with which the client binds. -/
def bindRequest : Request Unit := ⟨(), 1, bind, 7, 0, 0⟩

/-- The client binds.  Its request arrives twice, and the server answers it twice. -/
def binding : List (Event Unit) :=
  [.issue () bind, .gotRequest 0 bindRequest, .gotRequest 1 bindRequest, .dispatch 0, .dispatch 1,
    .dispatch 0, .dispatch 0, .handlerReturns 0 0 (packInt 9), .dispatch 0, .dispatch 1,
    .dispatch 0, .dispatch 1, .gotReply () ⟨1, 0, packInt 9⟩, .finish () 1, .bound () 1]

theorem binding_isSome : (binding.foldlM (step oneClient) {}).isSome = true := by decide

theorem binding_returned :
    (((binding.foldlM (step oneClient) {}).get binding_isSome).client ()).returned 1
      = some ⟨bind, 0, packInt 9⟩ := by decide

theorem at_most_once_binding :
    ((binding.foldlM (step oneClient) {}).get binding_isSome).invoked.count (7, 1) = 1 :=
  ((at_most_once (Option.some_get binding_isSome).symm () 1).2 _ binding_returned (by decide)).1

end Rpc
end Yfs
