import Yfs.Rpc.AtMostOnce

/-!
# Calls that the server has forgotten

The server answers `FORGOTTEN` to a request for a call before the front of its window.  It should
not do that to a call that the client is still waiting for.  But the front of the window is not what
the client has acknowledged: it is the first entry that is left when the entries before that have
been deleted.  If the last call that the client has acknowledged is not in the list, then the front
is a later one, and there may be live calls in between.

A call that the server has never seen can be acknowledged: the client does so when the call times
out.  The run `lostRequest` shows what happens then.  Call 2 is lost, and times out.  The client
makes the calls 3 and 4, whose requests say that call 2 is over.  Request 4 arrives first.  The
entry for call 1 is deleted, and request 3 is answered with `atmostonce_failure`, though the client
is waiting for it and the server has not run it.

If no call times out before the server has accepted it, this cannot happen (`never_forgotten`).
Then what the client acknowledges is in the window of the server (`Prompt.front`).
-/

set_option autoImplicit false

namespace Yfs
namespace Rpc

open Machine

/-! ## Prompt runs -/

/-- The client is waiting for the reply. -/
def Client.Waiting (cl : Client) (x : Nat) : Prop := ∃ ca, cl.calls x = some ca ∧ ca.done = false

variable {C : Type}

/-- The server has accepted the call, and has invoked the handler or is about to. -/
def Accepted (s : State C) (n x : Nat) : Prop :=
  (∃ t h, s.pool t = some (.call h) ∧ h.cltNonce = n ∧ h.xid = x) ∨ (n, x) ∈ s.invoked

/-- The client binds first, with its first call; and a call does not time out before the server has
accepted it. -/
def Timely (S : Service C) (s : State C) : Event C → Prop
  | .issue c proc => proc = bind → (s.client c).xid = 1
  | .finish c x => (s.client c).Waiting x → Accepted s (S.nonce c) x
  | _ => True

/-- The call is over, and the server has accepted it. -/
def Over (cl : Client) (g : Progress) (n x : Nat) : Prop :=
  x = 0 ∨ (g (n, x) ≠ .fresh ∧ x < cl.xid ∧ ¬ cl.Waiting x)

variable (S : Service C)

/-- What is true of a request that client `c` has sent. -/
structure RequestOk (cl : Client) (g : Progress) (c : C) (h : Request C) : Prop where
  pos : 1 ≤ h.xid
  /-- The server has accepted the call for `bind` before any other is made. -/
  bound : h.xid = 1 ∨ g (S.nonce c, 1) ≠ .fresh
  bind : h.xid = 1 → h.proc = bind
  srvNonce : h.srvNonce = 0 ∨ h.srvNonce = S.srvNonce
  acked : ∀ y, y ≤ h.xidRep → Over cl g (S.nonce c) y

/-- What is true of client `c` in a prompt run. -/
structure Prompt (s : State C) (g : Progress) (c : C) : Prop where
  window : (s.client c).destroyWait = false →
    Truthful (Over (s.client c) g (S.nonce c)) (s.client c).xidRepWindow
  done : (s.client c).destroyWait = false → ∀ x ca, (s.client c).calls x = some ca →
    ca.done = true → g (S.nonce c, x) ≠ .fresh
  pos : 1 ≤ (s.client c).xid
  call : ∀ x ca, (s.client c).calls x = some ca → 1 ≤ x ∧ (ca.proc = bind → x = 1)
  returned : ∀ x o, (s.client c).returned x = some o → o.proc = bind → x = 1
  bound : (s.client c).bindDone = true → 1 < (s.client c).xid ∧ g (S.nonce c, 1) ≠ .fresh
  srvNonce : (s.client c).srvNonce = 0 ∨ (s.client c).srvNonce = S.srvNonce
  request : ∀ h ∈ s.requests, h.src = c → RequestOk S (s.client c) g c h
  sent : ∀ b, (c, b) ∈ s.replies → g (S.nonce c, b.xid) ≠ .fresh
  sending : ∀ t b, s.pool t = some (.send c b) → g (S.nonce c, b.xid) ≠ .fresh
  /-- Everything up to the front of the server's window is over. -/
  front : ∀ e es, s.window (S.nonce c) = e :: es →
    e.xid = 1 ∨ ∀ y, y ≤ e.xid → Over (s.client c) g (S.nonce c) y
  result : ∀ r ∈ s.results, r.nonce = S.nonce c → r.xid = 1 → r.body = packInt S.srvNonce

variable {S} {s s' : State C} {g g' : Progress} {c : C} {t : Nat}

theorem prompt_init (c : C) : Prompt S {} (fun _ ↦ .fresh) c := by
  refine ⟨fun _ ↦ ⟨by simp, by simp, ?_, ?_⟩, by simp, by simp, by simp, by simp, by simp, by simp,
    by simp, by simp, by simp, by simp, by simp⟩
  · simp [Over]
  · simp [Over]

theorem Over.mono {cl cl' : Client} {n x : Nat} (h : Over cl g n x)
    (hg : ∀ k, g k ≠ .fresh → g' k ≠ .fresh) (hxid : cl.xid ≤ cl'.xid)
    (hwait : ∀ y, y < cl.xid → cl'.Waiting y → cl.Waiting y) : Over cl' g' n x := by
  rcases h with rfl | ⟨h₁, h₂, h₃⟩
  · exact Or.inl rfl
  · exact Or.inr ⟨hg _ h₁, h₂.trans_le hxid, fun hw ↦ h₃ (hwait x h₂ hw)⟩

theorem RequestOk.mono {cl cl' : Client} {h : Request C} (hok : RequestOk S cl g c h)
    (hg : ∀ k, g k ≠ .fresh → g' k ≠ .fresh) (hxid : cl.xid ≤ cl'.xid)
    (hwait : ∀ y, y < cl.xid → cl'.Waiting y → cl.Waiting y) : RequestOk S cl' g' c h :=
  ⟨hok.pos, hok.bound.imp_right (hg _), hok.bind, hok.srvNonce,
    fun y hy ↦ (hok.acked y hy).mono hg hxid hwait⟩

theorem Stage.Next.ne_fresh {v v' : Stage} (h : v.Next v') : v' ≠ .fresh := by
  cases h <;> simp

/-- A stage is never fresh again. -/
theorem Progress.Next.ne_fresh (h : g.Next g') {k : Nat × Nat} (hk : g k ≠ .fresh) :
    g' k ≠ .fresh := by
  rcases h with rfl | ⟨k', v, hv, rfl⟩
  · exact hk
  · rw [Function.update_apply]
    split
    · exact hv.ne_fresh
    · exact hk

theorem Accepted.ne_fresh {n x : Nat} (h : Accepted s n x) (hrep : Rep S s g) :
    g (n, x) ≠ .fresh := by
  intro hfresh
  rcases h with ⟨t, h', hj, rfl, rfl⟩ | hmem
  · have := (hrep.job t _ hj).2
    rw [hfresh] at this
    exact absurd this (by simp)
  · have := hrep.invoked n x
    rw [hfresh] at this
    exact List.count_eq_zero.1 this hmem

/-- A call that the client is waiting for is not before the front of the server's window. -/
theorem Prompt.not_below (h : Prompt S s g c) {x : Nat} (hx : (s.client c).Waiting x) :
    ¬ Below (s.window (S.nonce c)) x := by
  rintro ⟨e, es, heq, hlt⟩
  obtain ⟨ca, hca, -⟩ := id hx
  have hpos := (h.call x ca hca).1
  rcases h.front e es heq with h₁ | hover
  · omega
  · rcases hover x hlt.le with h₀ | ⟨-, -, hnot⟩
    · omega
    · exact hnot hx

/-! ## Steps of a client -/

namespace Prompt

/-- A step that does not concern client `c` much. -/
theorem frame (h : Prompt S s g c) (hg : ∀ k, g k ≠ .fresh → g' k ≠ .fresh)
    (hclient : s'.client c = s.client c)
    (hreq : ∀ h' ∈ s'.requests, h'.src = c → h' ∈ s.requests)
    (hsent : ∀ b, (c, b) ∈ s'.replies → (c, b) ∈ s.replies ∨ g' (S.nonce c, b.xid) ≠ .fresh)
    (hsending : ∀ u b, s'.pool u = some (.send c b) →
      s.pool u = some (.send c b) ∨ g' (S.nonce c, b.xid) ≠ .fresh)
    (hfront : ∀ e es, s'.window (S.nonce c) = e :: es →
      (∃ e' es', s.window (S.nonce c) = e' :: es' ∧ e.xid = e'.xid) ∨ e.xid = 1 ∨
        ∀ y, y ≤ e.xid → Over (s.client c) g (S.nonce c) y)
    (hresult : ∀ r ∈ s'.results,
      r ∈ s.results ∨ (r.nonce = S.nonce c → r.xid = 1 → r.body = packInt S.srvNonce)) :
    Prompt S s' g' c := by
  have hover : ∀ {y}, Over (s.client c) g (S.nonce c) y → Over (s.client c) g' (S.nonce c) y :=
    fun ho ↦ ho.mono hg le_rfl fun _ _ hw ↦ hw
  obtain ⟨h₁, h₂, h₃, h₄, h₅, h₆, h₇, h₈, h₉, h₁₀, h₁₁, h₁₂⟩ := h
  rw [← hclient] at h₁ h₂ h₃ h₄ h₅ h₆ h₇ h₈ h₁₁ hover hfront
  refine ⟨fun hd ↦ (h₁ hd).mono fun _ ↦ hover, fun hd x ca hx hdone ↦ hg _ (h₂ hd x ca hx hdone),
    h₃, h₄, h₅, fun hb ↦ ⟨(h₆ hb).1, hg _ (h₆ hb).2⟩, h₇, fun h' hh hsrc ↦ ?_, fun b hb ↦ ?_,
    fun u b hu ↦ ?_, fun e es he ↦ ?_, fun r hr ↦ ?_⟩
  · exact (h₈ h' (hreq h' hh hsrc) hsrc).mono hg le_rfl fun _ _ hw ↦ hw
  · exact (hsent b hb).elim (fun hb ↦ hg _ (h₉ b hb)) id
  · exact (hsending u b hu).elim (fun hu ↦ hg _ (h₁₀ u b hu)) id
  · rcases hfront e es he with ⟨e', es', heq, hxid⟩ | hone | hle
    · rw [hxid]
      exact (h₁₁ e' es' heq).imp_right fun hall y hy ↦ hover (hall y hy)
    · exact Or.inl hone
    · exact Or.inr fun y hy ↦ hover (hle y hy)
  · exact (hresult r hr).elim (h₁₂ r) id

theorem addRequest (h : Prompt S s g c) {h' : Request C}
    (hok : h'.src = c → RequestOk S (s.client c) g c h') :
    Prompt S { s with requests := h' :: s.requests } g c := by
  obtain ⟨h₁, h₂, h₃, h₄, h₅, h₆, h₇, h₈, h₉, h₁₀, h₁₁, h₁₂⟩ := h
  refine ⟨h₁, h₂, h₃, h₄, h₅, h₆, h₇, fun h'' hh hsrc ↦ ?_, h₉, h₁₀, h₁₁, h₁₂⟩
  rcases List.mem_cons.1 hh with rfl | hh
  · exact hok hsrc
  · exact h₈ h'' hh hsrc

section Client

variable [DecidableEq C] {cl : Client}

theorem setClient_of_ne {c' : C} (h : Prompt S s g c) (hne : c ≠ c') :
    Prompt S (s.setClient c' cl) g c :=
  h.frame (fun _ hk ↦ hk) (Function.update_of_ne hne _ _) (fun _ hh _ ↦ hh) (fun _ hb ↦ Or.inl hb)
    (fun _ _ hu ↦ Or.inl hu) (fun e es he ↦ Or.inl ⟨e, es, he, rfl⟩) fun _ hr ↦ Or.inl hr

/-- Client `c` changes. -/
theorem setClient (h : Prompt S s g c) (hxid : (s.client c).xid ≤ cl.xid)
    (hwait : ∀ y, y < (s.client c).xid → cl.Waiting y → (s.client c).Waiting y)
    (hwindow : cl.destroyWait = false → Truthful (Over cl g (S.nonce c)) cl.xidRepWindow)
    (hdone : cl.destroyWait = false → ∀ x ca, cl.calls x = some ca → ca.done = true →
      g (S.nonce c, x) ≠ .fresh)
    (hcall : ∀ x ca, cl.calls x = some ca → 1 ≤ x ∧ (ca.proc = bind → x = 1))
    (hreturned : ∀ x o, cl.returned x = some o → o.proc = bind → x = 1)
    (hbound : cl.bindDone = true → 1 < cl.xid ∧ g (S.nonce c, 1) ≠ .fresh)
    (hsrv : cl.srvNonce = 0 ∨ cl.srvNonce = S.srvNonce) : Prompt S (s.setClient c cl) g c := by
  have hclient : (s.setClient c cl).client c = cl := Function.update_self ..
  have hover : ∀ {y}, Over (s.client c) g (S.nonce c) y → Over cl g (S.nonce c) y :=
    fun ho ↦ ho.mono (fun _ hk ↦ hk) hxid hwait
  constructor
  all_goals rw [hclient] at *
  · exact hwindow
  · exact hdone
  · exact h.pos.trans hxid
  · exact hcall
  · exact hreturned
  · exact hbound
  · exact hsrv
  · exact fun h' hh hsrc ↦ (h.request h' hh hsrc).mono (fun _ hk ↦ hk) hxid hwait
  · exact h.sent
  · exact h.sending
  · exact fun e es he ↦ (h.front e es he).imp_right fun hall y hy ↦ hover (hall y hy)
  · exact h.result

theorem issue (h : Prompt S s g c) {proc : Nat} (htimely : proc = bind → (s.client c).xid = 1)
    (hs : Rpc.issue S s c proc = some s') : Prompt S s' g c := by
  obtain ⟨hbind, hdestroy, -, rfl⟩ := of_issue hs
  have hwait : ∀ y, y < (s.client c).xid → ((s.client c).start proc).Waiting y →
      (s.client c).Waiting y := by
    rintro y hy ⟨ca, hca, hd⟩
    rcases Client.calls_start hca with ⟨rfl, -⟩ | ⟨-, hca⟩
    · exact absurd hy (Nat.lt_irrefl _)
    · exact ⟨ca, hca, hd⟩
  have hover : ∀ {y}, Over (s.client c) g (S.nonce c) y →
      Over ((s.client c).start proc) g (S.nonce c) y :=
    fun ho ↦ ho.mono (fun _ hk ↦ hk) (Nat.le_succ _) hwait
  have hbound : proc ≠ bind → (s.client c).bindDone = true := by
    intro hp
    by_contra hb
    exact hp (hbind.2 (by simpa using hb))
  have hstart : Prompt S (s.setClient c ((s.client c).start proc)) g c := by
    refine h.setClient (Nat.le_succ _) hwait (fun _ ↦ (h.window hdestroy).mono fun _ ↦ hover)
      (fun _ x ca hx hd ↦ ?_) (fun x ca hx ↦ ?_) h.returned
      (fun hb ↦ ⟨Nat.lt_succ_of_lt (h.bound hb).1, (h.bound hb).2⟩) h.srvNonce
    · rcases Client.calls_start hx with ⟨-, rfl⟩ | ⟨-, hx⟩
      · exact absurd hd (by simp)
      · exact h.done hdestroy x ca hx hd
    · rcases Client.calls_start hx with ⟨rfl, rfl⟩ | ⟨-, hx⟩
      · exact ⟨h.pos, htimely⟩
      · exact h.call x ca hx
  refine hstart.addRequest fun _ ↦ ?_
  have hclient : (s.setClient c ((s.client c).start proc)).client c = (s.client c).start proc :=
    Function.update_self ..
  rw [hclient]
  refine ⟨h.pos, ?_, fun hx ↦ ?_, h.srvNonce, fun y hy ↦ hover ((h.window hdestroy).front y hy)⟩
  · by_cases hp : proc = bind
    · exact Or.inl (htimely hp)
    · exact Or.inr (h.bound (hbound hp)).2
  · by_contra hp
    exact absurd hx (h.bound (hbound hp)).1.ne'

theorem gotPdu (h : Prompt S s g c) (hrep : Rep S s g) {b : Reply} (hb : (c, b) ∈ s.replies) :
    Prompt S (s.setClient c ((s.client c).gotPdu b)) g c := by
  have hseen := h.sent b hb
  have hwait : ∀ y, y < (s.client c).xid → ((s.client c).gotPdu b).Waiting y →
      (s.client c).Waiting y := by
    rintro y - ⟨ca, hca, hd⟩
    obtain ⟨ca', hca', -, ⟨rfl, -⟩ | ⟨-, hd', -⟩⟩ := Client.calls_gotPdu hca
    · exact ⟨ca, hca', hd⟩
    · exact absurd hd' (by simp [hd])
  refine h.setClient le_rfl hwait (fun hd ↦ ?_) (fun hd x ca hx hdone ↦ ?_) (fun x ca hx ↦ ?_)
    h.returned h.bound h.srvNonce
  · refine Truthful.updateXidRep
      ((h.window hd).mono fun _ ho ↦ ho.mono (fun _ hk ↦ hk) le_rfl hwait)
      (Or.inr ⟨hseen, (hrep.reply c b hb).1, ?_⟩)
    rintro ⟨ca, hca, hd⟩
    obtain ⟨ca', -, -, ⟨-, hd'⟩ | ⟨-, hd', -⟩⟩ := Client.calls_gotPdu hca
    · exact absurd (hd' rfl) (by simp [hd])
    · exact absurd hd' (by simp [hd])
  · obtain ⟨ca', hx', -, ⟨rfl, -⟩ | ⟨rfl, -⟩⟩ := Client.calls_gotPdu hx
    · exact h.done hd x ca hx' hdone
    · exact hseen
  · obtain ⟨ca', hx', hproc, -⟩ := Client.calls_gotPdu hx
    rw [hproc]
    exact h.call x ca' hx'

theorem finish (h : Prompt S s g c) (hrep : Rep S s g) {x : Nat} {ca : Caller}
    (hca : (s.client c).calls x = some ca)
    (htimely : (s.client c).Waiting x → Accepted s (S.nonce c) x) :
    Prompt S (s.setClient c ((s.client c).finish x ca)) g c := by
  have hwait : ∀ y, y < (s.client c).xid → ((s.client c).finish x ca).Waiting y →
      (s.client c).Waiting y :=
    fun y _ ⟨ca', hca', hd⟩ ↦ ⟨ca', (Client.calls_finish hca').2, hd⟩
  refine h.setClient le_rfl hwait (fun hd ↦ ?_)
    (fun hd y ca' hy ↦ h.done hd y ca' (Client.calls_finish hy).2)
    (fun y ca' hy ↦ h.call y ca' (Client.calls_finish hy).2) (fun y o hy ↦ ?_) h.bound h.srvNonce
  · have hseen : g (S.nonce c, x) ≠ .fresh := by
      by_cases hdone : ca.done = true
      · exact h.done hd x ca hca hdone
      · exact (htimely ⟨ca, hca, by simpa using hdone⟩).ne_fresh hrep
    refine Truthful.updateXidRep ((h.window hd).mono fun _ ho ↦ ho.mono
      (fun _ hk ↦ hk) le_rfl hwait)
      (Or.inr ⟨hseen, (hrep.client c).issued x ca hca, ?_⟩)
    rintro ⟨ca', hca', -⟩
    exact (Client.calls_finish hca').1 rfl
  · rcases Client.returned_finish hy with ⟨rfl, rfl⟩ | hy
    · exact (h.call y ca hca).2
    · exact h.returned y o hy

theorem bind_returned (h : Prompt S s g c) (hrep : Rep S s g) {x : Nat}
    (hs : Rpc.bound s c x = some s') : Prompt S s' g c := by
  obtain ⟨o, r, ho, hproc, hret, hr, rfl⟩ := of_bound hs
  obtain rfl := h.returned x o ho hproc
  -- the call has been run, and what it returned is the nonce
  have hran := (hrep.client c).returned 1 o ho hret.ge
  have hres := hrep.results (S.nonce c) 1
  rw [hran, Stage.results] at hres
  have hmem : (⟨S.nonce c, 1, o.ret, o.body⟩ : Result) ∈ s.results :=
    (List.mem_filter.1 (hres ▸ List.mem_singleton_self _)).1
  have hbody : o.body = packInt S.srvNonce := h.result _ hmem rfl rfl
  rw [hbody, unpackInt_packInt S.srvNonce_lt] at hr
  have hseen : g (S.nonce c, 1) ≠ .fresh := by simp [hran]
  exact h.setClient le_rfl (fun _ _ hw ↦ hw) h.window h.done h.call h.returned
    (fun _ ↦ ⟨(hrep.client c).past 1 o ho, hseen⟩) (Or.inr (Option.some_inj.1 hr).symm)

theorem cancel (h : Prompt S s g c) (hrep : Rep S s g) :
    Prompt S (s.setClient c (s.client c).cancel) g c := by
  have hwait : ∀ y, y < (s.client c).xid → (s.client c).cancel.Waiting y →
      (s.client c).Waiting y := by
    rintro y - ⟨ca, hca, hd⟩
    obtain ⟨ca', -, rfl⟩ := Client.calls_cancel hca
    exact absurd hd (by simp)
  refine h.setClient le_rfl hwait (fun hd ↦ ?_) (fun hd x ca hx _ ↦ ?_)
    (fun x ca hx ↦ ?_) h.returned
    h.bound h.srvNonce
  · have hd : (s.client c).destroyWait = false := (Bool.or_eq_false_iff.1 hd).1
    exact (h.window hd).mono fun _ ho ↦ ho.mono (fun _ hk ↦ hk) le_rfl hwait
  · -- if the client is not being destroyed, there were no calls to cancel
    obtain ⟨ca', hca', -⟩ := Client.calls_cancel hx
    have hnone := (Bool.or_eq_false_iff.1 hd).2
    rw [List.any_eq_false] at hnone
    have := hnone x (List.mem_range.2 ((hrep.client c).issued x ca' hca'))
    exact absurd this (by simp [hca'])
  · obtain ⟨ca', hca', rfl⟩ := Client.calls_cancel hx
    exact h.call x ca' hca'

end Client

/-! ## Steps of the server -/

theorem setJob (h : Prompt S s g c) {j : Option (Job C)}
    (hj : ∀ b, j = some (.send c b) → g (S.nonce c, b.xid) ≠ .fresh) :
    Prompt S (s.setJob t j) g c := by
  refine h.frame (fun _ hk ↦ hk) rfl (fun _ hh _ ↦ hh) (fun _ hb ↦ Or.inl hb) (fun u b hu ↦ ?_)
    (fun e es he ↦ Or.inl ⟨e, es, he, rfl⟩) fun _ hr ↦ Or.inl hr
  simp only [State.setJob, Function.update_apply] at hu
  split at hu
  · exact Or.inr (hj b hu)
  · exact Or.inl hu

theorem setWindow (h : Prompt S s g c) {n : Nat} {l : List Entry}
    (hfront : n = S.nonce c → ∀ e es, l = e :: es →
      (∃ e' es', s.window n = e' :: es' ∧ e.xid = e'.xid) ∨ e.xid = 1 ∨
        ∀ y, y ≤ e.xid → Over (s.client c) g n y) :
    Prompt S (s.setWindow n l) g c := by
  refine h.frame (fun _ hk ↦ hk) rfl (fun _ hh _ ↦ hh) (fun _ hb ↦ Or.inl hb)
    (fun _ _ hu ↦ Or.inl hu)
    (fun e es he ↦ ?_) fun _ hr ↦ Or.inl hr
  simp only [State.setWindow, Function.update_apply] at he
  split at he
  · rename_i e'
    subst e'
    exact hfront rfl e es he
  · exact Or.inl ⟨e, es, he, rfl⟩

/-- **The window goes on from where it was to the last call that the request acknowledges.**  That
call is in the window, as the server has accepted it. -/
theorem front_check (h : Prompt S s g c) (hrep : Rep S s g) {h' : Request C}
    (hok : RequestOk S (s.client c) g c h')
    (hnew : ¬ Known (s.window (S.nonce c)) h'.xid) {e : Entry} {es : List Entry}
    (heq : remember (s.window (S.nonce c)) h'.xid h'.xidRep = e :: es) :
    e.xid = 1 ∨ ∀ y, y ≤ e.xid → Over (s.client c) g (S.nonce c) y := by
  cases hw : s.window (S.nonce c) with
  | nil =>
    -- nothing has been accepted, so this is the client's first call
    have hone : h'.xid = 1 := by
      refine hok.bound.resolve_right fun hseen ↦ ?_
      have := hrep.known _ _ hseen
      rw [hw] at this
      exact not_known_nil _ this
    have hmem : e ∈ remember (s.window (S.nonce c)) h'.xid h'.xidRep := by simp [heq]
    rcases mem_of_mem_remember hmem with hmem | rfl
    · exact absurd hmem (by simp [hw])
    · exact Or.inl hone
  | cons e₀ es₀ =>
    have hacked : h'.xidRep ≤ e₀.xid ∨ ∃ e' ∈ e₀ :: es₀, e'.xid = h'.xidRep := by
      rcases hok.acked _ le_rfl with hzero | ⟨hseen, -⟩
      · exact Or.inl (by omega)
      · have := hrep.known _ _ hseen
        rw [hw, known_cons_iff] at this
        exact this.imp_right fun ⟨e', he', hx⟩ ↦ ⟨e', List.mem_cons_of_mem _ he', hx⟩
    have hs := hrep.sorted (S.nonce c)
    rw [hw] at hs hnew heq
    obtain ⟨f, fs, heq', hf⟩ := front_remember hs hnew hacked
    obtain ⟨rfl, -⟩ := List.cons.inj (heq.symm.trans heq')
    rcases hf with hf | hf
    · rw [hf]
      exact h.front e₀ es₀ hw
    · rw [hf]
      exact Or.inr hok.acked

theorem check (h : Prompt S s g c) (hrep : Rep S s g) {h' : Request C} (hreq : h' ∈ s.requests)
    (hs : dispatch S s t (.check h') = some s') : Prompt S s' g c := by
  obtain ⟨hnonce, -, -⟩ := hrep.request h' hreq
  have hsrc : h'.cltNonce = S.nonce c → h'.src = c := fun e ↦ S.nonce_injective (hnonce ▸ e)
  have hsame : Prompt S (s.setWindow h'.cltNonce (s.window h'.cltNonce)) g c :=
    h.setWindow fun _ e es he ↦ Or.inl ⟨e, es, he, rfl⟩
  rw [dispatch, if_pos (by rw [hnonce]; exact S.nonce_ne_zero _)] at hs
  rcases check_cases (s.window h'.cltNonce) h'.xid h'.xidRep with
    ⟨e, he, hxid, hnone, heq⟩ | ⟨e, he, b, hxid, hsome, heq⟩ | ⟨hbelow, heq⟩ | ⟨hnew, heq⟩
  all_goals
    rw [heq] at hs
    obtain rfl := Option.some_inj.1 hs
  · exact hsame.setJob fun b hb ↦ absurd hb (by simp)
  · refine hsame.setJob fun b' hb' ↦ ?_
    obtain ⟨rfl, rfl⟩ := Job.send.inj (Option.some_inj.1 hb')
    obtain ⟨hb, hran⟩ := hrep.saved _ e he b hsome
    rw [← hnonce, hb, hran]
    simp
  · refine hsame.setJob fun b' hb' ↦ ?_
    obtain ⟨rfl, rfl⟩ := Job.send.inj (Option.some_inj.1 hb')
    -- what is before the front is over, and has been accepted
    have hok := h.request h' hreq rfl
    rw [hnonce] at hbelow
    obtain ⟨e, es, heq', hx⟩ := hbelow
    have hpos := hok.pos
    rcases h.front e es heq' with hone | hall
    · omega
    · rcases hall _ hx.le with hzero | ⟨hseen, -⟩
      · omega
      · exact hseen
  · refine (h.setWindow fun hn e es he ↦ Or.inr ?_).setJob fun b hb ↦ absurd hb (by simp)
    rw [hn] at hnew he ⊢
    exact h.front_check hrep (h.request h' hreq (hsrc hn)) hnew he

theorem addReply (h : Prompt S s g c) (hrep : Rep S s g) {h' : Request C} {b : Reply}
    (hok : JobOk S s g t (.addReply h' b)) (hs : dispatch S s t (.addReply h' b) = some s') :
    Prompt S s' g c := by
  obtain ⟨hreq, hxid, hg⟩ := hok
  obtain ⟨hnonce, -, -⟩ := hrep.request h' hreq
  have hjob : Prompt S (s.setJob t (some (.send h'.src b))) g c := by
    refine h.setJob fun b' hb' ↦ ?_
    obtain ⟨rfl, rfl⟩ := Job.send.inj (Option.some_inj.1 hb')
    rw [← hnonce, hxid, hg]
    simp
  rw [dispatch] at hs
  split at hs
  · obtain rfl := Option.some_inj.1 hs
    refine hjob.setWindow fun _ e es he ↦ Or.inl ?_
    have hmap := map_xid_addReply (s.window h'.cltNonce) h'.xid b
    rw [he] at hmap
    cases hw : s.window h'.cltNonce with
    | nil =>
      rw [hw] at hmap
      exact absurd hmap (by simp)
    | cons e' es' =>
      rw [hw, List.map_cons, List.map_cons] at hmap
      exact ⟨e', es', hw, (List.cons.inj hmap).1⟩
  · obtain rfl := Option.some_inj.1 hs
    exact hjob

theorem dispatch (h : Prompt S s g c) (hrep : Rep S s g) {j : Job C} (hj : s.pool t = some j)
    (hs : dispatch S s t j = some s') : Prompt S s' g c := by
  have hok := hrep.job t j hj
  cases j with
  | dispatch h' =>
    rw [Rpc.dispatch] at hs
    split at hs
    · obtain rfl := Option.some_inj.1 hs
      rename_i hold
      refine h.setJob fun b' hb' ↦ ?_
      obtain ⟨rfl, rfl⟩ := Job.send.inj (Option.some_inj.1 hb')
      -- there is only one server
      exact absurd (h.request h' hok rfl).srvNonce (by simpa using hold)
    split at hs
    · exact absurd hs (by simp)
    · obtain rfl := Option.some_inj.1 hs
      exact h.setJob fun b hb ↦ absurd hb (by simp)
  | check h' => exact h.check hrep hok hs
  | call h' =>
    obtain rfl := Option.some_inj.1 hs
    have hjob : Prompt S (s.setJob t (some (.handler h'))) g c :=
      h.setJob fun b hb ↦ absurd hb (by simp)
    exact hjob.frame (fun _ hk ↦ hk) rfl (fun _ hh _ ↦ hh) (fun _ hb ↦ Or.inl hb)
      (fun _ _ hu ↦ Or.inl hu) (fun e es he ↦ Or.inl ⟨e, es, he, rfl⟩) fun _ hr ↦ Or.inl hr
  | handler h' => exact absurd hs (by simp [Rpc.dispatch])
  | addReply h' b => exact h.addReply hrep hok hs
  | send dst b =>
    obtain rfl := Option.some_inj.1 hs
    have hjob : Prompt S (s.setJob t none) g c := h.setJob fun b hb ↦ absurd hb (by simp)
    refine hjob.frame (fun _ hk ↦ hk) rfl (fun _ hh _ ↦ hh) (fun b' hb' ↦ ?_)
      (fun _ _ hu ↦ Or.inl hu) (fun e es he ↦ Or.inl ⟨e, es, he, rfl⟩) fun _ hr ↦ Or.inl hr
    rcases List.mem_cons.1 hb' with heq | hb'
    · obtain ⟨rfl, rfl⟩ := Prod.mk.inj heq
      exact Or.inr (h.sending t b' hj)
    · exact Or.inl hb'

theorem handlerReturns (h : Prompt S s g c) (hrep : Rep S s g) {ret : Int} {body : List UInt8}
    (hs : Rpc.handlerReturns S s t ret body = some s') : Prompt S s' g c := by
  obtain ⟨h', hj, -, hbody, rfl⟩ := of_handlerReturns hs
  obtain ⟨hreq, -⟩ := hrep.job t _ hj
  obtain ⟨hnonce, -, -⟩ := hrep.request h' hreq
  have hjob : Prompt S (s.setJob t (some (.addReply h' ⟨h'.xid, ret, body⟩))) g c :=
    h.setJob fun b hb ↦ absurd hb (by simp)
  refine hjob.frame (fun _ hk ↦ hk) rfl (fun _ hh _ ↦ hh) (fun _ hb ↦ Or.inl hb)
    (fun _ _ hu ↦ Or.inl hu) (fun e es he ↦ Or.inl ⟨e, es, he, rfl⟩) fun r hr ↦ ?_
  rcases List.mem_cons.1 hr with rfl | hr
  · refine Or.inr fun hn hx ↦ (hbody ?_).2
    exact (h.request h' hreq (S.nonce_injective (hnonce ▸ hn))).bind hx
  · exact Or.inl hr

end Prompt

/-! ## Every prompt run -/

variable [DecidableEq C]

theorem Prompt.step (hrep : Rep S s g) (h : ∀ c, Prompt S s g c) {e : Event C} (ht : Timely S s e)
    (hs : step S s e = some s') (c : C) : Prompt S s' g c := by
  cases e with
  | issue c' proc =>
    by_cases hc : c = c'
    · subst hc
      exact (h c).issue ht hs
    · obtain ⟨-, -, -, rfl⟩ := of_issue hs
      exact ((h c).setClient_of_ne hc).addRequest fun hsrc ↦ absurd hsrc.symm hc
  | gotReply c' b =>
    obtain ⟨hb, hs⟩ := Option.ite_none_right_eq_some.1 hs
    obtain rfl := Option.some_inj.1 hs
    by_cases hc : c = c'
    · subst hc
      exact (h c).gotPdu hrep hb
    · exact (h c).setClient_of_ne hc
  | finish c' x =>
    obtain ⟨ca, hca, rfl⟩ := Option.map_eq_some_iff.1 hs
    by_cases hc : c = c'
    · subst hc
      exact (h c).finish hrep hca ht
    · exact (h c).setClient_of_ne hc
  | bound c' x =>
    by_cases hc : c = c'
    · subst hc
      exact (h c).bind_returned hrep hs
    · obtain ⟨o, r, -, -, -, -, rfl⟩ := of_bound hs
      exact (h c).setClient_of_ne hc
  | cancel c' =>
    obtain rfl := Option.some_inj.1 hs
    by_cases hc : c = c'
    · subst hc
      exact (h c).cancel hrep
    · exact (h c).setClient_of_ne hc
  | gotRequest t h' =>
    obtain ⟨-, hs⟩ := Option.ite_none_right_eq_some.1 hs
    obtain rfl := Option.some_inj.1 hs
    exact (h c).setJob fun b hb ↦ absurd hb (by simp)
  | dispatch t =>
    obtain ⟨j, hj, hs⟩ := Option.bind_eq_some_iff.1 hs
    exact (h c).dispatch hrep hj hs
  | handlerReturns t ret body => exact (h c).handlerReturns hrep hs

theorem prompt_of_run {run : List (Event C)} (hrun : run.foldlM (step S) {} = some s)
    (htimely : Along (step S) (Timely S) {} run) : ∃ g, Rep S s g ∧ ∀ c, Prompt S s g c := by
  refine along_induction (P := fun s ↦ ∃ g, Rep S s g ∧ ∀ c, Prompt S s g c)
    (fun s e s' h ht hs ↦ ?_) run {} s htimely ⟨_, rep_init, prompt_init⟩ hrun
  obtain ⟨g, hrep, h⟩ := h
  obtain ⟨g', hrep', hnext⟩ := hrep.step hs
  refine ⟨g', hrep', fun c ↦ ?_⟩
  exact (Prompt.step hrep h ht hs c).frame (fun _ ↦ hnext.ne_fresh) rfl (fun _ hh _ ↦ hh)
    (fun _ hb ↦ Or.inl hb) (fun _ _ hu ↦ Or.inl hu) (fun e es he ↦ Or.inl ⟨e, es, he, rfl⟩)
    fun _ hr ↦ Or.inl hr

/-- **A call that is being waited for is not forgotten**, in a run in which the clients bind first
and no call times out before the server has accepted it: whatever request for it arrives, the answer
is not `FORGOTTEN`. -/
theorem never_forgotten {run : List (Event C)} (hrun : run.foldlM (step S) {} = some s)
    (htimely : Along (step S) (Timely S) {} run) (c : C) (x xidRep : Nat)
    (hx : (s.client c).Waiting x) :
    (checkduplicateAndUpdate (s.window (S.nonce c)) x xidRep).1 ≠ .forgotten := by
  obtain ⟨g, -, h⟩ := prompt_of_run hrun htimely
  rcases check_cases (s.window (S.nonce c)) x xidRep with
    ⟨e, -, -, -, heq⟩ | ⟨e, -, b, -, -, heq⟩ | ⟨hbelow, -⟩ | ⟨-, heq⟩
  · simp [heq]
  · simp [heq]
  · exact absurd hbelow ((h c).not_below hx)
  · simp [heq]

/-- Call 2 times out while its handler runs; request 4 arrives before request 3, and the entry for
call 1 is deleted. -/
def slowHandler : List (Event Unit) :=
  binding ++ [.issue () 5, .gotRequest 0 ⟨(), 2, 5, 7, 9, 1⟩, .dispatch 0, .dispatch 0, .dispatch 0,
    .finish () 2, .issue () 5, .issue () 5, .gotRequest 1 ⟨(), 4, 5, 7, 9, 2⟩,
    .dispatch 1, .dispatch 1]

/-- The client binds first, and a call is not over before its handler has been invoked. -/
def unhurried (s : State Unit) : Event Unit → Bool
  | .issue _ proc => proc ≠ bind ∨ (s.client ()).xid = 1
  | .finish _ x => (7, x) ∈ s.invoked
  | _ => true

theorem timely_of_unhurried (s : State Unit) (e : Event Unit) (h : unhurried s e = true) :
    Timely oneClient s e := by
  cases e with
  | issue c proc => exact (of_decide_eq_true h).resolve_left ∘ not_not_intro
  | finish c x => exact fun _ ↦ Or.inr (of_decide_eq_true h)
  | _ => trivial

theorem slowHandler_isSome : (slowHandler.foldlM (step oneClient) {}).isSome = true := by decide

theorem never_forgotten_slowHandler :
    ∃ s, slowHandler.foldlM (step oneClient) {} = some s ∧ (s.window 7).map (·.xid) = [2, 4] ∧
      (s.client ()).Waiting 3 ∧ (checkduplicateAndUpdate (s.window 7) 3 2).1 ≠ .forgotten := by
  have hwait :
      (((slowHandler.foldlM (step oneClient) {}).get slowHandler_isSome).client ()).Waiting 3 :=
    ⟨{ proc := 5 }, by rfl, rfl⟩
  have halong : Along (step oneClient) (fun s e ↦ unhurried s e = true) {} slowHandler := by decide
  exact ⟨_, (Option.some_get slowHandler_isSome).symm, by decide, hwait,
    never_forgotten (S := oneClient) (Option.some_get slowHandler_isSome).symm
      (halong.mono timely_of_unhurried) () 3 2 hwait⟩

/-! ## A run that is not prompt -/

/-- Call 2 is lost, and times out; request 4 arrives before request 3. -/
def lostRequest : List (Event Unit) :=
  binding ++ [.issue () 5, .finish () 2, .issue () 5, .issue () 5,
    .gotRequest 0 ⟨(), 4, 5, 7, 9, 2⟩, .dispatch 0, .dispatch 0]

/-- Request 3 arrives, and is answered. -/
def answered : List (Event Unit) :=
  [.gotRequest 1 ⟨(), 3, 5, 7, 9, 2⟩, .dispatch 1, .dispatch 1, .dispatch 1,
    .gotReply () ⟨3, atmostonceFailure, []⟩, .finish () 3]

theorem lostRequest_isSome : (lostRequest.foldlM (step oneClient) {}).isSome = true := by decide

theorem answered_isSome :
    (answered.foldlM (step oneClient)
      ((lostRequest.foldlM (step oneClient) {}).get lostRequest_isSome)).isSome = true := by decide

/-- **A live call is forgotten.**  The client is waiting for call 3, whose request is on its way;
and `checkduplicate_and_update` answers `FORGOTTEN` to it.  The call fails, though it has not been
run. -/
theorem live_call_forgotten :
    ∃ s s', lostRequest.foldlM (step oneClient) {} = some s ∧ (s.client ()).Waiting 3 ∧
      (⟨(), 3, 5, 7, 9, 2⟩ : Request Unit) ∈ s.requests ∧
      (checkduplicateAndUpdate (s.window 7) 3 2).1 = .forgotten ∧
      answered.foldlM (step oneClient) s = some s' ∧
      (s'.client ()).returned 3 = some ⟨5, atmostonceFailure, []⟩ ∧ (7, 3) ∉ s'.invoked := by
  refine ⟨_, _, (Option.some_get lostRequest_isSome).symm, ⟨{ proc := 5 }, by rfl, rfl⟩, ?_, ?_,
    (Option.some_get answered_isSome).symm, ?_, ?_⟩
  all_goals decide

end Rpc
end Yfs
