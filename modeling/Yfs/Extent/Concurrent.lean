import Mathlib.Data.Fin.VecNotation
import Mathlib.Data.List.FinRange
import Yfs.Machine.Serial
import Yfs.Extent.Correct

/-!
# Requests that are served at the same time

The dispatch pool of the RPC server calls the methods of the extent server from several threads, and
neither `extent_server` nor `inode_manager` nor `block_manager` has a mutex.  Only a single
`read_block` or `write_block` is atomic.  So the requests that have arrived are programs that are
interleaved, one access to the disk at a time (`Serving`).

Nothing bad happens as long as no access gets into the way of a request that is still being served:
that is, if no request reads a block that a request in progress has written, or writes a block that
it has read or written (`Apart`).  Then the requests might as well have been served one after
another (`serve_serializable`), and what has been said about that applies.

The code does nothing to make it so.  Every `create` looks for a free inode from number 1 on and
takes the first one; two of them that look at the same time find the same inode (`creates_collide`).
-/

set_option autoImplicit false

namespace Yfs
namespace Extent

open Machine

variable {n : Nat} {d d' : Disk}

/-- The threads that serve some requests: the disk, what is left to do for each request, and the
accesses so far. -/
abbrev Serving (n : Nat) := Pool (MemCmd Nat Block) MemCmd.Ans Fault Disk Reply (Fin n)

/-- The requests have arrived. -/
def arrived (d : Disk) (reqs : Fin n → Env × Request) : Serving n :=
  ⟨d, fun t ↦ serve (reqs t).1 (reqs t).2, []⟩

/-- A thread reads or writes a block. -/
abbrev access : Serving n → Fin n → Option (Serving n) := Pool.step MemCmd.handler

/-- The next access of the thread does not get into the way of a request in progress. -/
def Apart (P : Serving n) (t : Fin n) : Prop :=
  ∀ c k, P.prog t = .call c k → ∀ e ∈ P.hist, e.1 ≠ t → e.2.cmd.Conflict c → P.Ended e.1

theorem apart_of_call {P : Serving n} {t : Fin n} {c : MemCmd Nat Block} {k : c.Ans → DiskM Reply}
    (hp : P.prog t = .call c k)
    (h : ∀ e ∈ P.hist, e.1 ≠ t → e.2.cmd.Conflict c → P.Ended e.1) : Apart P t := by
  intro c' k' hp'
  obtain ⟨rfl, -⟩ := Prog.call.inj (hp.symm.trans hp')
  exact h

theorem Apart.undisturbing {P : Serving n} {t : Fin n} (h : Apart P t) :
    P.Undisturbing MemCmd.handler t := by
  intro c k hp a s' _ e he hne hfin
  exact MemCmd.swaps fun hconf ↦ hfin (h c k hp e he hne hconf)

/-- To execute the programs one after another is to serve the requests one at a time. -/
theorem exec_serveAll_of_eval {reqs : Fin n → Env × Request} {replies : Fin n → Reply}
    {order : List (Fin n)}
    (h : Prog.evalAll MemCmd.handler (order.map fun t ↦ serve (reqs t).1 (reqs t).2) d
      = some (order.map fun t ↦ .ok (replies t), d')) :
    exec (serveAll (order.map reqs)) d = .ok (order.map replies, d') := by
  induction order generalizing d with
  | nil =>
    obtain ⟨-, rfl⟩ := Prod.mk.inj (Option.some_inj.1 h)
    rfl
  | cons t order ih =>
    rw [List.map_cons, List.map_cons, Prog.evalAll_cons] at h
    obtain ⟨o, os, d₁, hfirst, hrest, he⟩ := h
    obtain ⟨rfl, rfl⟩ := List.cons.inj he
    have hserve : exec (serve (reqs t).1 (reqs t).2) d = .ok (replies t, d₁) :=
      Prog.run_of_eval hfirst
    rw [List.map_cons, serveAll, exec_bind hserve, exec_bind (ih hrest), exec_pure, List.map_cons]

/-! ## Two creates -/

/-- What a `create` that has found inode `i` free goes on to do. -/
def claiming (env : Env) (type i : Nat) (buf : Block) : DiskM Reply :=
  .call (.write (iblock i) ({ Inode.read buf with type := type, ctime := env.now }.write buf))
    fun _ ↦ .pure (.id i)

/-- What is left to do for a `create` that has got to inode `i`. -/
def creating (env : Env) (type i : Nat) : DiskM Reply :=
  Ret.reply <$> Ret.inum <$> allocInodeScan env type (List.range' i (inodeNum - i))

theorem creating_eq (env : Env) (type : Nat) {i : Nat} (hi : i < 1024) :
    creating env type i = .call (.read (iblock i)) fun buf ↦
      if (Inode.read buf).type = 0 then claiming env type i buf else creating env type (i + 1) := by
  have hlt := iblock_lt_blockNum hi
  have hread : readBlock (iblock i) .zero = Prog.ask (MemCmd.read (iblock i)) :=
    if_neg (Nat.not_le.2 hlt)
  have hwrite : ∀ b, writeBlock (iblock i) b = Prog.ask (MemCmd.write (iblock i) b) :=
    fun b ↦ if_neg (Nat.not_le.2 hlt)
  have hsucc : inodeNum - i = inodeNum - (i + 1) + 1 := by
    simp only [inodeNum]
    omega
  rw [creating, hsucc, List.range'_succ, allocInodeScan, hread]
  refine congrArg (Prog.call (MemCmd.read (iblock i))) (funext fun buf ↦ ?_)
  simp only [hwrite]
  change (Ret.reply <$> Ret.inum <$> if (Inode.read buf).type = 0 then _ else _ : DiskM Reply) = _
  split <;> rfl

variable {t : Fin n} {prog : Fin n → DiskM Reply} {H : List (Fin n × Act MemCmd.Ans)} {env : Env}
  {type i : Nat}

/-- An inode is looked at, and is taken. -/
theorem access_busy (hi : i < 1024) (hp : prog t = creating env type i)
    (hbusy : ¬ (d.inode i).type = 0) :
    access ⟨d, prog, H⟩ t = some ⟨d, Function.update prog t (creating env type (i + 1)),
      H ++ [(t, ⟨.read (iblock i), d (iblock i)⟩)]⟩ := by
  have hstep := Pool.step_of_call (h := MemCmd.handler) (H := H) (s := d)
    (hp.trans (creating_eq env type hi)) rfl
  rw [Disk.inode] at hbusy
  rwa [if_neg hbusy] at hstep

/-- An inode is looked at, and is free. -/
theorem access_free (hi : i < 1024) (hp : prog t = creating env type i)
    (hfree : (d.inode i).type = 0) :
    access ⟨d, prog, H⟩ t = some ⟨d, Function.update prog t (claiming env type i (d (iblock i))),
      H ++ [(t, ⟨.read (iblock i), d (iblock i)⟩)]⟩ := by
  have hstep := Pool.step_of_call (h := MemCmd.handler) (H := H) (s := d)
    (hp.trans (creating_eq env type hi)) rfl
  rw [Disk.inode] at hfree
  rwa [if_pos hfree] at hstep

/-- An inode is written. -/
theorem access_claiming {buf : Block} (hp : prog t = claiming env type i buf) :
    access ⟨d, prog, H⟩ t = some ⟨Function.update d (iblock i)
      ({ Inode.read buf with type := type, ctime := env.now }.write buf),
      Function.update prog t (.pure (.id i)), H ++ [(t, ⟨.write (iblock i)
        ({ Inode.read buf with type := type, ctime := env.now }.write buf), ()⟩)]⟩ :=
  Pool.step_of_call hp rfl

/-- Two clients ask for a file. -/
def twoCreates : Fin 2 → Env × Request := fun _ ↦ (default, .create tFile)

theorem update_zero {α : Type} (a b c : α) : Function.update ![a, b] 0 c = ![c, b] :=
  funext (Fin.forall_fin_two.2 ⟨rfl, rfl⟩)

theorem update_one {α : Type} (a b c : α) : Function.update ![a, b] 1 c = ![a, c] :=
  funext (Fin.forall_fin_two.2 ⟨rfl, rfl⟩)

theorem arrived_twoCreates (d : Disk) :
    arrived d twoCreates = ⟨d, ![creating default tFile 1, creating default tFile 1], []⟩ :=
  congrArg (Pool.mk d · []) (funext (Fin.forall_fin_two.2 ⟨rfl, rfl⟩))

theorem Reply.untimed_eq_id {r : Reply} : r.untimed = .id i ↔ r = .id i := by
  cases r <;> simp [Reply.untimed]

/-- Served one at a time, they get the inodes 2 and 3. -/
theorem exec_twoCreates (h : Rep d .init) {order : List (Fin 2)} (horder : order.length = 2) :
    ∃ d', exec (serveAll (order.map twoCreates)) d = .ok ([.id 2, .id 3], d') := by
  have hmap : order.map twoCreates = [(default, .create tFile), (default, .create tFile)] := by
    rw [show twoCreates = Function.const _ (default, .create tFile) from rfl,
      List.map_const, horder]
    rfl
  obtain ⟨⟨rs, σ⟩, hrun, hrs⟩ :
      ∃ w, Store.init.run [.allocInode tFile, .allocInode tFile] = some w ∧
      w.1 = [.inum 2, .inum 3] := Option.map_eq_some_iff.1 (by decide)
  obtain ⟨replies, d', hx, hreplies, -⟩ := h.serveAll (order.map twoCreates)
    (by rw [hmap]; exact hrun)
  rw [show rs = _ from hrs] at hreplies
  obtain ⟨r, rest, rfl, hr, hrest⟩ := List.map_eq_cons_iff.1 hreplies
  obtain ⟨r', rest', rfl, hr', hnil⟩ := List.map_eq_cons_iff.1 hrest
  obtain rfl := List.map_eq_nil_iff.1 hnil
  rw [Reply.untimed_eq_id.1 hr, Reply.untimed_eq_id.1 hr'] at hx
  exact ⟨d', hx⟩

/-! ## What is true and what is not -/

/-- **Requests that stay apart.**  If no access gets into the way of a request in progress, then the
replies and the disk are those that some order of the requests gives when they are served one at a
time.  So if the disk held some files before, it now holds the files that the map says. -/
theorem serve_serializable (reqs : Fin n → Env × Request) (d : Disk) (replies : Fin n → Reply)
    {run : List (Fin n)} {P : Serving n} (hrun : run.foldlM access (arrived d reqs) = some P)
    (hapart : Along access Apart (arrived d reqs) run) (hdone : ∀ t, P.prog t = .pure (replies t)) :
    ∃ order : List (Fin n), order.Perm (List.finRange n) ∧
      exec (serveAll (order.map reqs)) d = .ok (order.map replies, P.state) ∧
      ∀ σ rs σ', Rep d σ → σ.run (order.map fun t ↦ (reqs t).2.call) = some (rs, σ') →
        (order.map replies).map Reply.untimed = rs.map Ret.reply ∧ Rep P.state σ' := by
  obtain ⟨order, hnd, hall, hserial⟩ := Pool.serial_of_undisturbing
    (fun t ↦ .ok (replies t)) hrun (hapart.mono fun _ _ h ↦ h.undisturbing) hdone
  have hx := exec_serveAll_of_eval hserial
  refine ⟨order, ?_, hx, fun σ rs σ' hrep hs ↦ ?_⟩
  · rw [List.perm_ext_iff_of_nodup hnd (List.nodup_finRange n)]
    simp [hall]
  · obtain ⟨replies', d', hx', hreplies, hrep'⟩ := hrep.serveAll (order.map reqs)
      (by rw [List.map_map]; exact hs)
    obtain ⟨rfl, rfl⟩ := Prod.mk.inj (Except.ok.inj (hx.symm.trans hx'))
    exact ⟨hreplies, hrep'⟩

/-- The two requests overlap: the second looks at inode 1 while the first is in progress, and gets
to inode 2 only after the first has taken it. -/
theorem serve_serializable_twoCreates :
    ∃ d P, exec (inodeManager default) blank = .ok ((), d) ∧
      [0, 1, 0, 0, 1, 1, 1].foldlM access (arrived d twoCreates) = some P ∧
      Along access Apart (arrived d twoCreates) [0, 1, 0, 0, 1, 1, 1] ∧
      ∃ order : List (Fin 2), order.Perm (List.finRange 2) ∧
        exec (serveAll (order.map twoCreates)) d = .ok (order.map ![.id 2, .id 3], P.state) := by
  obtain ⟨d, hx, hrep, -⟩ := exec_inodeManager default
  have h₁ : ¬ (d.inode 1).type = 0 := by
    rw [hrep.type_eq_zero_iff (by omega)]
    decide
  have h₂ : (d.inode 2).type = 0 := (hrep.type_eq_zero_iff (by omega)).2 (by decide)
  obtain ⟨-, hrep'⟩ := hrep.allocInode default (show tFile ∈ [tDir, tFile, tSymlink] by simp)
    (show Store.init.firstFree = some 2 by decide)
  let d' := d.setInode 2 { d.inode 2 with type := tFile, ctime := (default : Env).now }
  have h₂' : ¬ (d'.inode 2).type = 0 := by
    rw [hrep'.type_eq_zero_iff (by omega)]
    decide
  have h₃ : (d'.inode 3).type = 0 := (hrep'.type_eq_zero_iff (by omega)).2 (by decide)
  let c := creating default tFile
  let look (t : Fin 2) (d : Disk) (i : Nat) : Fin 2 × Act MemCmd.Ans :=
    (t, ⟨.read (iblock i), d (iblock i)⟩)
  let H := [look 0 d 1, look 1 d 1, look 0 d 2]
  have s₁ : access ⟨d, ![c 1, c 1], []⟩ 0 = some ⟨d, ![c 2, c 1], [look 0 d 1]⟩ := by
    rw [access_busy (by omega) rfl h₁, update_zero]
    rfl
  have s₂ : access ⟨d, ![c 2, c 1], [look 0 d 1]⟩ 1 = some ⟨d, ![c 2, c 2], H.take 2⟩ := by
    rw [access_busy (by omega) rfl h₁, update_one]
    rfl
  have s₃ : access ⟨d, ![c 2, c 2], H.take 2⟩ 0
      = some ⟨d, ![claiming default tFile 2 (d (iblock 2)), c 2], H⟩ := by
    rw [access_free (by omega) rfl h₂, update_zero]
    rfl
  have s₄ : ∃ H', access ⟨d, ![claiming default tFile 2 (d (iblock 2)), c 2], H⟩ 0
      = some ⟨d', ![.pure (.id 2), c 2], H'⟩ := by
    rw [access_claiming rfl, update_zero]
    exact ⟨_, rfl⟩
  obtain ⟨H₄, s₄⟩ := s₄
  obtain ⟨H₅, s₅⟩ : ∃ H', access ⟨d', ![.pure (.id 2), c 2], H₄⟩ 1
      = some ⟨d', ![.pure (.id 2), c 3], H'⟩ := by
    rw [access_busy (by omega) rfl h₂', update_one]
    exact ⟨_, rfl⟩
  obtain ⟨H₆, s₆⟩ : ∃ H', access ⟨d', ![.pure (.id 2), c 3], H₅⟩ 1
      = some ⟨d', ![.pure (.id 2), claiming default tFile 3 (d' (iblock 3))], H'⟩ := by
    rw [access_free (by omega) rfl h₃, update_one]
    exact ⟨_, rfl⟩
  obtain ⟨d₇, H₇, s₇⟩ : ∃ d₇ H', access ⟨d', ![.pure (.id 2),
      claiming default tFile 3 (d' (iblock 3))], H₆⟩ 1
      = some ⟨d₇, ![.pure (.id 2), .pure (.id 3)], H'⟩ := by
    rw [access_claiming rfl, update_one]
    exact ⟨_, _, rfl⟩
  have hrun : [0, 1, 0, 0, 1, 1, 1].foldlM access (arrived d twoCreates)
      = some ⟨d₇, ![.pure (.id 2), .pure (.id 3)], H₇⟩ := by
    rw [arrived_twoCreates]
    simp only [List.foldlM_cons, List.foldlM_nil, Option.bind_eq_bind, c, s₁, s₂, s₃,
      s₄, s₅, s₆, s₇, Option.bind_some, Option.pure_def]
  -- the first request only writes to the block of inode 2, and then it has finished
  have hlater : ∀ q H, Apart ⟨d', ![.pure (.id 2), q], H⟩ 1 := by
    intro q H _ _ _ e _ hne _
    have hzero : e.1 = 0 := (Fin.exists_fin_two.1 ⟨e.1, rfl⟩).resolve_right hne
    exact ⟨.ok (.id 2), by rw [hzero]; rfl⟩
  have halong : Along access Apart (arrived d twoCreates) [0, 1, 0, 0, 1, 1, 1] := by
    rw [arrived_twoCreates]
    refine along_cons s₁ (apart_of_call (creating_eq _ _ (by omega)) (by simp)) ?_
    refine along_cons s₂ (apart_of_call (creating_eq _ _ (by omega)) ?_) ?_
    · simp [look, MemCmd.Conflict, MemCmd.isWrite]
    refine along_cons s₃ (apart_of_call (creating_eq _ _ (by omega)) ?_) ?_
    · simp [H, look, MemCmd.Conflict, MemCmd.isWrite]
    refine along_cons s₄ (apart_of_call rfl ?_) ?_
    · simp [H, look, MemCmd.Conflict, MemCmd.addr, iblock]
    exact along_cons s₅ (hlater _ _) (along_cons s₆ (hlater _ _)
      (along_cons s₇ (hlater _ _) trivial))
  obtain ⟨order, horder, hserial, -⟩ := serve_serializable twoCreates d ![.id 2, .id 3] hrun halong
    (Fin.forall_fin_two.2 ⟨rfl, rfl⟩)
  exact ⟨d, _, hx, hrun, halong, order, horder, hserial⟩

/-- **Two creates return the same inode.**  On a new disk, both look at the inodes 1 and 2 before
either takes inode 2.  One at a time, they return different inodes. -/
theorem creates_collide :
    ∃ d, exec (inodeManager default) blank = .ok ((), d) ∧
      (∃ P, [0, 0, 1, 1, 0, 1].foldlM access (arrived d twoCreates) = some P ∧
        ∀ t, P.prog t = .pure (.id 2)) ∧
      ∀ order : List (Fin 2), order.Perm (List.finRange 2) → ∀ d',
        exec (serveAll (order.map twoCreates)) d ≠ .ok (order.map fun _ ↦ .id 2, d') := by
  obtain ⟨d, hx, hrep, -⟩ := exec_inodeManager default
  have h₁ : ¬ (d.inode 1).type = 0 := by
    rw [hrep.type_eq_zero_iff (by omega)]
    decide
  have h₂ : (d.inode 2).type = 0 := (hrep.type_eq_zero_iff (by omega)).2 (by decide)
  refine ⟨d, hx, ?_, fun order horder d' he ↦ ?_⟩
  · rw [arrived_twoCreates]
    simp only [List.foldlM_cons, List.foldlM_nil, Option.bind_eq_bind]
    rw [access_busy (by omega) rfl h₁, update_zero, Option.bind_some,
      access_free (by omega) rfl h₂, update_zero, Option.bind_some,
      access_busy (by omega) rfl h₁, update_one, Option.bind_some,
      access_free (by omega) rfl h₂, update_one, Option.bind_some,
      access_claiming rfl, update_zero, Option.bind_some,
      access_claiming rfl, update_one, Option.bind_some]
    exact ⟨_, rfl, Fin.forall_fin_two.2 ⟨rfl, rfl⟩⟩
  · obtain ⟨d₁, hx₁⟩ := exec_twoCreates hrep horder.length_eq
    obtain ⟨hreplies, -⟩ := Prod.mk.inj (Except.ok.inj (hx₁.symm.trans he))
    have hmem : (.id 3 : Reply) ∈ order.map fun _ ↦ .id 2 := hreplies ▸ by simp
    exact absurd hmem (by simp)

end Extent
end Yfs
