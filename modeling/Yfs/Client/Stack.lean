import Yfs.Client.Mount
import Yfs.Client.Wired

/-!
# From the kernel to the disk

All layers together: a request of the kernel is handled by `fuse.cc`, which calls `yfs_client`,
which makes requests to the extent server, which keeps the files in the blocks of its disk.  In
`Client/Mount` the files were a map, and in `Client/Wired` there was one operation.

A new disk behaves like a file system, as long as the requests of the kernel make sense and there is
room for what is written (`mount_refines`), and it does so with all requests to the extent server as
messages (`mount_wired`).  The answers are the ones that they should be, apart from the time stamps.
These a handler passes on to the kernel, and does not look at otherwise
(`Fuseserver.Request.related`).
-/

set_option autoImplicit false

namespace Yfs
namespace Client

open Machine
open Extent (Env Rep Store inumOf tDir tFile tSymlink)
open Fuse Fuseserver
open Status

/-! ## Time stamps -/

/-- An answer without the time stamps. -/
def Fuseserver.Answer.untimed : Answer → Answer
  | .reply r => .reply r.untimed
  | .entry ino st => .entry ino st.untimed
  | .create ino st => .create ino st.untimed
  | a => a

namespace Fuseserver

/-- Answers that differ at most in time stamps. -/
def SameAnswer (a b : Answer) : Prop := a.untimed = b.untimed

theorem related_createhelper (junk parent : Nat) (name : Bytes) (type : Nat) :
    Prog.Related Cmd.Same
      (fun x y ↦ x.map (Prod.map id Stat.untimed) = y.map (Prod.map id Stat.untimed))
      (createhelper junk parent name type) (createhelper junk parent name type) := by
  refine related_op _ fun r ↦ ?_
  split
  · exact .pure rfl
  · refine related_attr.bind fun x y hxy ↦ ?_
    obtain ⟨hret, hst⟩ := hxy
    simp only [hret]
    split
    · exact .pure rfl
    · exact .pure (by simp only [Except.map, Prod.map, id, hst])

/-- A handler that calls `createhelper`. -/
theorem related_made (junk parent : Nat) (name : Bytes) (type : Nat) (reply : Nat → Stat → Answer)
    (hreply : ∀ ino st st', st.untimed = st'.untimed → SameAnswer (reply ino st) (reply ino st'))
    {g : Except Int (Nat × Stat) → ClientM Answer} (hok : ∀ e, g (.ok e) = .pure (reply e.1 e.2))
    (herror : ∀ ret, g (.error ret) = .pure (notMade ret)) :
    Prog.Related Cmd.Same SameAnswer (createhelper junk parent name type >>= g)
      (createhelper junk parent name type >>= g) := by
  refine (related_createhelper junk parent name type).bind fun x y hxy ↦ ?_
  rcases x with e | x <;> rcases y with e' | y
  · obtain rfl := Except.error.inj hxy
    rw [herror]
    exact .pure rfl
  · exact absurd hxy (by simp [Except.map])
  · exact absurd hxy (by simp [Except.map])
  · obtain ⟨hino, hst⟩ := Prod.mk.inj (Except.ok.inj hxy)
    rw [hok, hok, show x.1 = y.1 from hino]
    exact .pure (hreply _ _ _ hst)

/-- **Time stamps are only passed on.** -/
theorem Request.related (L : Libfuse) (junk : Nat) (req : Request) :
    Prog.Related Cmd.Same SameAnswer (req.prog L junk) (req.prog L junk) := by
  cases req with
  | getattr ino =>
    refine related_attr.bind fun x y hxy ↦ ?_
    obtain ⟨hret, hst⟩ := hxy
    simp only [hret]
    split
    · exact .pure rfl
    · exact .pure (by simp only [SameAnswer, Answer.untimed, Reply.untimed, hst])
  | setattr ino stSize toSet =>
    exact (related_setattr L stSize toSet).bind fun _ _ hab ↦ .pure (congrArg Answer.reply hab)
  | read ino size off =>
    refine related_op _ fun r ↦ ?_
    split <;> exact .pure rfl
  | write ino data off =>
    refine related_op _ fun r ↦ ?_
    split <;> exact .pure rfl
  | create parent name =>
    exact related_made junk parent name tFile .create
      (fun _ _ _ hst ↦ by simp only [SameAnswer, Answer.untimed, hst]) (fun _ ↦ rfl) fun _ ↦ rfl
  | mknod parent name =>
    exact related_made junk parent name tFile .entry
      (fun _ _ _ hst ↦ by simp only [SameAnswer, Answer.untimed, hst]) (fun _ ↦ rfl) fun _ ↦ rfl
  | mkdir parent name =>
    exact related_made junk parent name tDir .entry
      (fun _ _ _ hst ↦ by simp only [SameAnswer, Answer.untimed, hst]) (fun _ ↦ rfl) fun _ ↦ rfl
  | symlink link parent name =>
    refine related_op _ fun r ↦ ?_
    split
    · exact .pure rfl
    · refine related_attr.bind fun x y hxy ↦ .pure ?_
      simp only [SameAnswer, Answer.untimed, hxy.2]
  | readlink ino =>
    refine related_op _ fun r ↦ ?_
    split <;> exact .pure rfl
  | lookup parent name =>
    refine related_op _ fun r ↦ ?_
    split
    · refine related_attr.bind fun x y hxy ↦ .pure ?_
      simp only [SameAnswer, Answer.untimed, hxy.2]
    · exact .pure rfl
  | unlink parent name =>
    refine related_op _ fun r ↦ ?_
    split
    · exact .pure rfl
    · split <;> exact .pure rfl
  | readdir ino size off =>
    refine related_isdir.bind fun b b' hb ↦ ?_
    subst hb
    split
    · exact .pure rfl
    · exact related_op _ fun r ↦ .pure rfl
  | «open» ino => exact .pure rfl
  | statfs => exact .pure rfl

end Fuseserver

/-! ## Requests to the extent server -/

/-- The inode that a request is about exists, and the type of one that is made is one that there
is. -/
def Asks : Cmd → Node → Prop
  | .get id, n | .getattr id, n | .put id _, n | .remove id, n =>
    (n.disk.files (inumOf id)).isSome = true
  | .create type, _ => type ∈ [tDir, tFile, tSymlink]
  | .acquire _, _ | .release _, _ => True

theorem asks_of_promised {c : Cmd} {s : State} {n : Node} (hprom : Promised c s) (hn : n.Holds s) :
    Asks c n := by
  have hfiles : n.disk.files = s.files := hn.files.eq_files.symm
  cases c with
  | acquire lid => trivial
  | release lid => trivial
  | create type =>
    obtain ⟨⟨r, σ'⟩, hstep⟩ := Option.isSome_iff_exists.1 (hprom _ rfl)
    exact (Store.of_allocInode hstep).1
  | put id buf =>
    obtain ⟨⟨r, σ'⟩, hstep⟩ := Option.isSome_iff_exists.1 (hprom _ rfl)
    obtain ⟨f, hf, -⟩ := Store.of_writeFile hstep
    rw [Asks, hfiles, hf]
    rfl
  | get id =>
    have hsome := hprom _ rfl
    rw [Extent.Request.call, Store.step, Option.isSome_map] at hsome
    rwa [Asks, hfiles]
  | getattr id =>
    have hsome := hprom _ rfl
    rw [Extent.Request.call, Store.step, Option.isSome_map] at hsome
    rwa [Asks, hfiles]
  | remove id =>
    have hsome := hprom _ rfl
    rw [Extent.Request.call, Store.step, Option.isSome_map] at hsome
    rwa [Asks, hfiles]

/-! ## All requests -/

/-- The node has these files and locks, and has given the same answers up to time stamps. -/
structure OnNode (s : State × List Answer) (n : Node × List Answer) : Prop where
  holds : n.1.Holds s.1
  answers : n.2.map Answer.untimed = s.2.map Answer.untimed

section

variable {g : (c : Cmd) → Node → Option (c.Ans × Node)} (hg : Faithful g) {L : Libfuse}
include hg

theorem OnNode.step {junk : Nat} {req : Request} {s s' : State × List Answer}
    {n : Node × List Answer}
    (h : OnNode s n) (hprom : (req.prog L junk).Always handler Promised s.1)
    (hs : Fuseserver.step handler L junk s req = some s') :
    (req.prog L junk).Always g Asks n.1 ∧
      ∃ n', Fuseserver.step g L junk n req = some n' ∧ OnNode s' n' := by
  rw [Fuseserver.step] at hs
  split at hs
  case h_2 => exact absurd hs (by simp)
  rename_i a s₁ heval
  obtain rfl := Option.some_inj.1 hs
  have hrel := req.related L junk
  obtain ⟨b, n₁, heval', hsame, hholds⟩ := Prog.eval_related (h := handler) (P := Promised)
    (Q := fun s (n : Node) ↦ n.Holds s) (fun hP hn hc ↦ hg hP hn hc) hrel hprom h.holds heval
  have hasks := hrel.always (h := handler) (P := Promised) (Q := fun s (n : Node) ↦ n.Holds s)
    (fun hP hn hc ↦ hg hP hn hc) (fun hP hn ↦ asks_of_promised hP hn) hprom h.holds heval
  refine ⟨hasks, (n₁, n.2 ++ [b]), by rw [Fuseserver.step, heval'], hholds, ?_⟩
  rw [List.map_append, List.map_append, h.answers, List.map_singleton, List.map_singleton,
    show a.untimed = b.untimed from hsame]

/-- Whatever refines the map of files, behaves like a file system. -/
theorem Faithful.mount (junk : Nat) {n₀ : Node} (hn₀ : n₀.Holds newDisk)
    {run : List Request} {t : Tree}
    {as : List Answer} (hrun : run.foldlM (Tree.step L) (Tree.new, []) = some (t, as)) :
    Along (Fuseserver.step g L junk) (fun n req ↦ (req.prog L junk).Always g Asks n.1)
      (n₀, []) run ∧
      ∃ n as', run.foldlM (Fuseserver.step g L junk) (n₀, []) = some (n, as') ∧
        as'.map Answer.untimed = as.map Answer.untimed ∧
        (∃ σ, Rep n.disk σ ∧ objects σ = t ∧ Tidy σ) ∧ n.held = fun _ ↦ false := by
  obtain ⟨hprom, ⟨s, as₁⟩, hs, hobj, rfl, hheld, htidy⟩ := mounted_run L junk hrun
  have hstep : ∀ (s : State × List Answer) (req : Request) (s' : State × List Answer)
      (n : Node × List Answer), OnNode s n → (req.prog L junk).Always handler Promised s.1 →
      Fuseserver.step handler L junk s req = some s' → (req.prog L junk).Always g Asks n.1 ∧
        ∃ n', Fuseserver.step g L junk n req = some n' ∧ OnNode s' n' :=
    fun _ _ _ _ h hG hs ↦ OnNode.step hg h hG hs
  obtain ⟨hasks, ⟨n, as'⟩, hn, hnode⟩ := run_lockstep _ hstep run _ _ (n₀, []) hprom
    ⟨hn₀, rfl⟩ hs
  exact ⟨hasks, n, as', hn, hnode.answers,
    ⟨s.files, hnode.holds.files, hobj, htidy⟩, hnode.holds.locks.trans hheld⟩

end

/-- A directory `d` with a file `f` and a link `l` to it, which are used. -/
def mountRun : List Request :=
  [.mkdir 1 [100], .create 2 [102], .create 2 [102], .write 3 [120, 121] 1,
    .setattr 3 2 Libfuse.sample.setAttrSize, .read 3 9 0, .symlink [102] 2 [108], .readlink 4,
    .lookup 2 [108], .readdir 2 64 4, .unlink 2 [102], .unlink 2 [102], .readdir 4 64 0]

/-- **From the kernel to the disk.**  The same with the extent server set up on the other side of a
wire: the requests of the kernel are answered as they should be; and each request that is sent on
the way is about an inode that exists. -/
theorem mount_wired (L : Libfuse) (nonce : UInt32) (envs : Nat → Env) (ints : Nat → Int32)
    (wires : Nat → Wire) (env : Env) (junk : Nat) (run : List Request) (t : Tree) (as : List Answer)
    (hrun : run.foldlM (Tree.step L) (Tree.new, []) = some (t, as)) :
    ∃ d srv n as', Extent.exec (Extent.inodeManager env) Extent.blank = .ok ((), d) ∧
      Rpc.rpcs nonce (extentMain envs ints) = some srv ∧
      run.foldlM (Fuseserver.step (Node.wired srv wires) L junk) (⟨d, fun _ ↦ false, 0⟩, []) =
        some (n, as') ∧
      as'.map Answer.untimed = as.map Answer.untimed ∧
      (∃ σ, Rep n.disk σ ∧ objects σ = t) ∧ (n.held = fun _ ↦ false) ∧
      Along (Fuseserver.step (Node.wired srv wires) L junk)
        (fun n req ↦ (req.prog L junk).Always (Node.wired srv wires) Asks n.1)
        (⟨d, fun _ ↦ false, 0⟩, []) run := by
  obtain ⟨d, hd, hrep, -⟩ := Extent.exec_inodeManager env
  obtain ⟨srv, hsrv, -, -⟩ := Rpc.exists_server (signatures_extentMain envs ints) nonce
  have hwired : Faithful (Node.wired srv wires) :=
    fun _ _ _ _ _ hP hn hc ↦ Node.wired_of_handler wires hsrv hP hn hc
  obtain ⟨hasks, n, as', hn, has, ⟨σ, hσ, hobj, -⟩, hheld⟩ := hwired.mount junk
    (⟨hrep, rfl⟩ : (⟨d, fun _ ↦ false, 0⟩ : Node).Holds newDisk) hrun
  exact ⟨d, srv, n, as', hd, hsrv, hn, has, ⟨σ, hσ, hobj⟩, hheld, hasks⟩

/-- A directory is made, and in it a file, which is written and read. -/
def stackRun : List Request := [.mkdir 1 [100], .create 2 [102], .write 3 [120] 0, .read 3 9 0]

theorem mount_wired_stackRun :
    ∃ srv d n as, stackRun.foldlM (Fuseserver.step (Node.wired srv fun _ ↦
      ⟨fun _ ↦ 0, fun _ ↦ 0, 3, 5, 1⟩) .sample 0) (⟨d, fun _ ↦ false, 0⟩, []) = some (n, as) ∧
    as.map Answer.untimed = [.entry 2 ((Object.dir []).stat 2), .create 3 ((Object.file []).stat 3),
      .write 1, .buf [120]] := by
  have hanswers : (stackRun.foldlM (Tree.step .sample) (Tree.new, [])).map Prod.snd = some
      [.entry 2 ((Object.dir []).stat 2), .create 3 ((Object.file []).stat 3), .write 1,
        .buf [120]] := by
    decide +kernel
  obtain ⟨⟨t, as⟩, hrun, rfl⟩ := Option.map_eq_some_iff.1 hanswers
  obtain ⟨d, srv, n, as', -, -, hn, has, -⟩ := mount_wired .sample 7 (fun _ ↦ default) (fun _ ↦ 9)
    (fun _ ↦ ⟨fun _ ↦ 0, fun _ ↦ 0, 3, 5, 1⟩) default 0 stackRun t _ hrun
  exact ⟨srv, d, n, as', hn, has⟩

end Client
end Yfs
