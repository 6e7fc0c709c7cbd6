import Yfs.Extent.Correct

/-!
# Time stamps

`Yfs.Extent.Correct` leaves the time stamps out of what the map says.  Here they are put back: a
`Dated` map has, beside the files, the three times of every inode, and what a call does to them is
`recordAt`.  A session with the inode manager returns exactly what the dated map returns, with
nothing left out (`serve_dated`).

The times are worth knowing.  A new file has been changed and read at time 0, whenever it was made,
and reading counts as a change of the inode.  And the time of the last write serves as the version
of a file: while it stays the same, so do the contents, provided that no later write happens in a
second in which there has been one before (`contents_of_mtime`).
-/

set_option autoImplicit false

namespace Yfs
namespace Extent

open Machine

variable {d d' : Disk} {σ' : Store} {env : Env} {i : Nat}

/-! ## A map with time stamps -/

/-- The three times of an inode; those of an inode that is not in use are 0. -/
structure Stamps where
  atime : Nat := 0
  mtime : Nat := 0
  ctime : Nat := 0
  deriving DecidableEq

/-- What `std::time(0)` is once it has been stored in an inode. -/
def Env.stamp (env : Env) : Nat := env.now % 2 ^ 32

/-- What a call that returns `r` does to the times of all inodes. -/
def recordAt (t : Nat) (τ : Nat → Stamps) : Call → Ret → Nat → Stamps
  | .allocInode _, .inum i => Function.update τ i { ctime := t }
  | .writeFile i _, _ => Function.update τ i { τ i with mtime := t, ctime := t }
  | .readFile i, _ => Function.update τ i { τ i with atime := t, ctime := t }
  | .removeFile i, _ => Function.update τ i {}
  | _, _ => τ

/-- The times in the result of a call. -/
def Ret.dated (τ : Nat → Stamps) : Call → Ret → Ret
  | .getattr i, .attr a =>
    .attr { a with atime := (τ i).atime, mtime := (τ i).mtime, ctime := (τ i).ctime }
  | _, r => r

/-- Files with their time stamps. -/
structure Dated where
  files : Store
  stamps : Nat → Stamps

namespace Dated

/-- What a call does, and returns. -/
def step (m : Dated) (env : Env) (c : Call) : Option (Ret × Dated) :=
  (m.files.step c).map fun (r, σ) ↦ (r.dated m.stamps c, ⟨σ, recordAt env.stamp m.stamps c r⟩)

def run (m : Dated) : List (Env × Call) → Option (List Ret × Dated)
  | [] => some ([], m)
  | (env, c) :: cs => do
    let (r, m') ← m.step env c
    let (rs, m'') ← m'.run cs
    pure (r :: rs, m'')

/-- A disk formatted at some time. -/
def init (env : Env) : Dated :=
  ⟨.init, Function.update (fun _ ↦ {}) 1 { ctime := env.stamp }⟩

variable {m m' : Dated}

theorem of_step {c : Call} {r : Ret} (h : m.step env c = some (r, m')) :
    ∃ r₀ σ, m.files.step c = some (r₀, σ) ∧ r = r₀.dated m.stamps c ∧
      m' = ⟨σ, recordAt env.stamp m.stamps c r₀⟩ := by
  obtain ⟨⟨r₀, σ⟩, hs, he⟩ := Option.map_eq_some_iff.1 h
  obtain ⟨rfl, rfl⟩ := Prod.mk.inj he
  exact ⟨r₀, σ, hs, rfl, rfl⟩

theorem of_run_cons {c : Call} {cs : List (Env × Call)} {rs : List Ret}
    (h : m.run ((env, c) :: cs) = some (rs, m')) :
    ∃ r m₁ rs', m.step env c = some (r, m₁) ∧ m₁.run cs = some (rs', m') ∧ rs = r :: rs' := by
  simp only [run, Option.bind_eq_bind, Option.bind_eq_some_iff] at h
  obtain ⟨⟨r, m₁⟩, hstep, ⟨rs', m₂⟩, hrun, he⟩ := h
  obtain ⟨rfl, rfl⟩ := Prod.mk.inj (Option.some_inj.1 he)
  exact ⟨r, m₁, rs', hstep, hrun, rfl⟩

/-- The dated map says something whenever the map does, and has the same files. -/
theorem exists_run (calls : List (Env × Call)) {rs : List Ret}
    (h : m.files.run (calls.map Prod.snd) = some (rs, σ')) :
    ∃ rs' m', m.run calls = some (rs', m') ∧ m'.files = σ' := by
  induction calls generalizing m rs with
  | nil =>
    obtain ⟨-, rfl⟩ := Prod.mk.inj (Option.some_inj.1 h)
    exact ⟨[], m, rfl, rfl⟩
  | cons c calls ih =>
    obtain ⟨env, c⟩ := c
    simp only [List.map_cons, Store.run, Option.bind_eq_bind, Option.bind_eq_some_iff] at h
    obtain ⟨⟨r, σ₁⟩, hstep, ⟨rs', σ₂⟩, hrun, he⟩ := h
    obtain ⟨-, rfl⟩ := Prod.mk.inj (Option.some_inj.1 he)
    obtain ⟨rs'', m', hrun', hfiles⟩ :=
      ih (m := ⟨σ₁, recordAt env.stamp m.stamps c r⟩) hrun
    refine ⟨r.dated m.stamps c :: rs'', m', ?_, hfiles⟩
    simp only [run, step, hstep, Option.map_some, Option.bind_eq_bind, Option.bind_some, hrun']
    rfl

theorem run_append (cs₁ cs₂ : List (Env × Call)) :
    m.run (cs₁ ++ cs₂)
      = (m.run cs₁).bind fun p ↦ (p.2.run cs₂).map fun q ↦ (p.1 ++ q.1, q.2) := by
  induction cs₁ generalizing m with
  | nil => simp [run]
  | cons c cs₁ ih =>
    obtain ⟨env, c⟩ := c
    rw [List.cons_append, run, run]
    cases m.step env c with
    | none => rfl
    | some p =>
      simp only [Option.bind_eq_bind, Option.bind_some, ih]
      cases p.2.run cs₁ with
      | none => rfl
      | some q => cases hq : q.2.run cs₂ <;> simp [hq]

end Dated

/-! ## Times on the disk -/

/-- The times of an inode. -/
def Inode.stamps (ino : Inode) : Stamps := ⟨ino.atime, ino.mtime, ino.ctime⟩

theorem Disk.stamps_setInode (ino : Inode) :
    ((d.setInode i ino).inode i).stamps
      = ⟨ino.atime % 2 ^ 32, ino.mtime % 2 ^ 32, ino.ctime % 2 ^ 32⟩ := by
  rw [Inode.stamps, Disk.inode_setInode, Inode.read_write_atime, Inode.read_write_mtime,
    Inode.read_write_ctime]

theorem Disk.atime_mod (d : Disk) (i : Nat) : (d.inode i).atime % 2 ^ 32 = (d.inode i).atime :=
  Nat.mod_eq_of_lt (Block.word_lt _ _)

theorem Disk.mtime_mod (d : Disk) (i : Nat) : (d.inode i).mtime % 2 ^ 32 = (d.inode i).mtime :=
  Nat.mod_eq_of_lt (Block.word_lt _ _)

/-- A call that writes to no other block of the inode table changes no other inode. -/
theorem Disk.inode_of_frame (h : ∀ x, 10 ≤ x → x < 1034 → x ≠ iblock i → d' x = d x) (j : Nat)
    (h₁ : 1 ≤ j) (h₂ : j ≤ 1022) (hne : j ≠ i) : d'.inode j = d.inode j := by
  rw [Disk.inode, h _ (by rw [iblock_eq]; omega) (by rw [iblock_eq]; omega)
    (by rw [iblock_eq, iblock_eq]; omega), Disk.inode]

/-- New blocks do not change the time of the last read. -/
theorem atime_of_allocContents {ino ino' : Inode} {n : Nat}
    (h : exec (allocContents ino n) d = .ok (ino', d')) : ino'.atime = ino.atime := by
  rw [allocContents] at h
  obtain ⟨direct, d₁, -, h⟩ := exec_bind_eq_ok.1 h
  split at h
  · obtain ⟨ind, d₂, -, h⟩ := exec_bind_eq_ok.1 h
    obtain ⟨table, d₃, -, h⟩ := exec_bind_eq_ok.1 h
    split at h
    · exact absurd h (by simp)
    · obtain ⟨⟨⟩, d₄, -, h⟩ := exec_bind_eq_ok.1 h
      rw [exec_pure] at h
      rw [← (Prod.mk.inj (Except.ok.inj h)).1, Inode.setIndirect, Inode.setDirect]
  · rw [exec_pure] at h
    rw [← (Prod.mk.inj (Except.ok.inj h)).1, Inode.setDirect]

theorem stamps_of_writeFile (hi : i < 1024) (hlive : (d.inode i).type ≠ 0) {buf : List UInt8}
    (h : exec (writeFile env i buf) d = .ok ((), d')) :
    (d'.inode i).stamps = ⟨(d.inode i).atime, env.stamp, env.stamp⟩ := by
  rw [writeFile, exec_bind (exec_getInode_live hi hlive)] at h
  obtain ⟨⟨⟩, d₁, -, h⟩ := exec_bind_eq_ok.1 h
  obtain ⟨⟨⟩, d₂, -, h⟩ := exec_bind_eq_ok.1 h
  obtain ⟨ino, d₃, halloc, h⟩ := exec_bind_eq_ok.1 h
  obtain ⟨⟨⟩, d₄, -, h⟩ := exec_bind_eq_ok.1 h
  rw [exec_putInode hi] at h
  obtain ⟨-, rfl⟩ := Prod.mk.inj (Except.ok.inj h)
  rw [Disk.stamps_setInode, atime_of_allocContents halloc, Disk.atime_mod]
  rfl

theorem stamps_of_removeFile (hi : i < 1024) (hlive : (d.inode i).type ≠ 0)
    (h : exec (removeFile env i) d = .ok ((), d')) : (d'.inode i).stamps = {} := by
  rw [removeFile, exec_bind (exec_getInode_live hi hlive)] at h
  obtain ⟨⟨⟩, d₁, -, h⟩ := exec_bind_eq_ok.1 h
  obtain ⟨⟨⟩, d₂, -, h⟩ := exec_bind_eq_ok.1 h
  rw [exec_freeInode hi] at h
  split at h
  · exact absurd h (by simp)
  · obtain ⟨-, rfl⟩ := Prod.mk.inj (Except.ok.inj h)
    rw [Disk.stamps_setInode]
    rfl

/-! ## The disk keeps a dated map -/

/-- The disk holds the files of a dated map, with their times. -/
structure Keeps (d : Disk) (m : Dated) : Prop where
  rep : Rep d m.files
  stamps : ∀ i, 1 ≤ i → i ≤ 1022 → (d.inode i).stamps = m.stamps i
  /-- A new file does not inherit times. -/
  unused : ∀ i, m.files i = none → m.stamps i = {}

variable {m m' : Dated}

/-- A call changes the times of one inode. -/
theorem Keeps.update (h : Keeps d m) (i : Nat) {s : Stamps} (hrep : Rep d' σ')
    (hfiles : ∀ j, j ≠ i → σ' j = m.files j)
    (hframe : ∀ j, 1 ≤ j → j ≤ 1022 → j ≠ i → d'.inode j = d.inode j)
    (hs : (d'.inode i).stamps = s) (hnone : σ' i = none → s = {}) :
    Keeps d' ⟨σ', Function.update m.stamps i s⟩ := by
  refine ⟨hrep, fun j h₁ h₂ ↦ ?_, fun j hj ↦ ?_⟩ <;> dsimp only
  · by_cases hji : j = i
    · subst hji
      rw [Function.update_self, hs]
    · rw [Function.update_of_ne hji, hframe j h₁ h₂ hji, h.stamps j h₁ h₂]
  · by_cases hji : j = i
    · subst hji
      rw [Function.update_self, hnone hj]
    · rw [Function.update_of_ne hji]
      exact h.unused j ((hfiles j hji).symm.trans hj)

theorem Keeps.live (h : Keeps d m) {f : File} (hf : m.files i = some f) :
    (1 ≤ i ∧ i ≤ 1022) ∧ (d.inode i).stamps = m.stamps i :=
  have hi := h.rep.inum i f hf
  ⟨hi, h.stamps i hi.1 hi.2⟩

/-- **Every call does what it does to the dated map**, and returns the same. -/
theorem Keeps.perform (h : Keeps d m) {c : Call} {r : Ret} (hm : m.step env c = some (r, m')) :
    ∃ d', exec (perform env c) d = .ok (r, d') ∧ Keeps d' m' := by
  obtain ⟨r₀, σ', hs, rfl, rfl⟩ := Dated.of_step hm
  cases c with
  | allocInode type =>
    obtain ⟨htype, i, hi, rfl, rfl⟩ := Store.of_allocInode hs
    obtain ⟨hx, hrep⟩ := h.rep.allocInode env htype hi
    obtain ⟨hbounds, hnone⟩ := Store.firstFree_bounds hi
    have hzero := (h.stamps i hbounds.1 hbounds.2).trans (h.unused i hnone)
    refine ⟨_, exec_map Ret.inum hx, h.update i hrep (fun j hj ↦ Function.update_of_ne hj ..)
      (fun j _ _ hj ↦ Disk.inode_setInode_of_ne _ hj) ?_ (by simp)⟩
    simp only [Inode.stamps, Stamps.mk.injEq] at hzero
    rw [Disk.stamps_setInode]
    simp only [hzero, Nat.zero_mod, Env.stamp]
  | writeFile i buf =>
    obtain ⟨f, hf, hlen, hload, rfl, rfl⟩ := Store.of_writeFile hs
    obtain ⟨d', hx, hrep, hframe⟩ := h.rep.writeFile env hf hlen hload
    obtain ⟨hi, hstamps⟩ := h.live hf
    refine ⟨d', exec_map (fun _ ↦ Ret.done) hx, h.update i hrep
      (fun j hj ↦ Function.update_of_ne hj ..) (Disk.inode_of_frame hframe) ?_ (by simp)⟩
    rw [stamps_of_writeFile (by omega) (h.rep.live hf).2.1 hx, ← hstamps]
    rfl
  | readFile i =>
    obtain ⟨f, hf, he⟩ := Option.map_eq_some_iff.1 hs
    obtain ⟨rfl, rfl⟩ := Prod.mk.inj he
    obtain ⟨hx, hrep⟩ := h.rep.readFile env hf
    refine ⟨_, exec_map Ret.bytes hx, h.update i hrep (fun _ _ ↦ rfl)
      (fun j _ _ hj ↦ Disk.inode_setInode_of_ne _ hj) ?_ (by simp [hf])⟩
    rw [Disk.stamps_setInode, ← (h.live hf).2]
    simp only [Disk.mtime_mod, Inode.stamps, Env.stamp]
  | getattr i =>
    obtain ⟨f, hf, he⟩ := Option.map_eq_some_iff.1 hs
    obtain ⟨rfl, rfl⟩ := Prod.mk.inj he
    refine ⟨d, ?_, h⟩
    rw [Extent.perform, exec_map Ret.attr (h.rep.getattr hf), Ret.dated, ← (h.live hf).2]
    rfl
  | removeFile i =>
    obtain ⟨f, hf, he⟩ := Option.map_eq_some_iff.1 hs
    obtain ⟨rfl, rfl⟩ := Prod.mk.inj he
    obtain ⟨d', hx, hrep, hframe⟩ := h.rep.removeFile env hf
    obtain ⟨hi, -⟩ := h.live hf
    exact ⟨d', exec_map (fun _ ↦ Ret.done) hx, h.update i hrep
      (fun j hj ↦ Function.update_of_ne hj ..) (Disk.inode_of_frame hframe)
      (stamps_of_removeFile (by omega) (h.rep.live hf).2.1 hx) (fun _ ↦ rfl)⟩

theorem Keeps.performAll (calls : List (Env × Call)) (h : Keeps d m) {rs : List Ret}
    (hs : m.run calls = some (rs, m')) :
    ∃ d', exec (performAll calls) d = .ok (rs, d') ∧ Keeps d' m' := by
  induction calls generalizing d m rs with
  | nil =>
    obtain ⟨rfl, rfl⟩ := Prod.mk.inj (Option.some_inj.1 hs)
    exact ⟨d, rfl, h⟩
  | cons c calls ih =>
    obtain ⟨env, c⟩ := c
    obtain ⟨r, m₁, rs', hstep, hrun, rfl⟩ := Dated.of_run_cons hs
    obtain ⟨d₁, hx₁, h₁⟩ := h.perform hstep
    obtain ⟨d₂, hx₂, h₂⟩ := ih h₁ hrun
    refine ⟨d₂, ?_, h₂⟩
    rw [Extent.performAll, exec_bind hx₁, exec_bind hx₂, exec_pure]

/-- Formatting is making the root directory on a disk without files. -/
theorem keeps_inodeManager (env : Env) :
    ∃ d, exec (inodeManager env) blank = .ok ((), d) ∧ Keeps d (.init env) := by
  obtain ⟨d, he, hsame, hused⟩ := exec_blockManager
  have hempty : Keeps d ⟨fun _ ↦ none, fun _ ↦ {}⟩ := by
    refine ⟨rep_empty hsame hused, fun i h₁ h₂ ↦ ?_, fun _ _ ↦ rfl⟩
    rw [Inode.stamps, Disk.inode, hsame _ (Or.inr (by rw [iblock_eq]; omega))]
    simp [blank, Inode.read, Block.word, Block.short, Block.zero]
  have hroot : Dated.step ⟨fun _ ↦ none, fun _ ↦ {}⟩ env (.allocInode tDir)
      = some (.inum 1, .init env) := rfl
  obtain ⟨d', hx, hkeeps⟩ := hempty.perform hroot
  obtain ⟨root, hx, hone⟩ := exec_map_eq_ok.1 hx
  obtain rfl := Ret.inum.inj hone
  exact ⟨d', by rw [inodeManager, exec_bind he, exec_bind hx]; rfl, hkeeps⟩

/-- **The extent server keeps time.**  For every sequence of requests for which the map says what
should happen, the replies of the server, started on a blank disk, are those of the map with time
stamps, whatever its clock shows. -/
theorem serve_dated (env : Env) (reqs : List (Env × Request)) {rs : List Ret}
    (hs : (Dated.init env).run (reqs.map fun q ↦ (q.1, q.2.call)) = some (rs, m)) :
    ∃ d, exec (do inodeManager env; serveAll reqs) blank = .ok (rs.map Ret.reply, d) ∧
      Keeps d m := by
  obtain ⟨d₀, hx₀, h₀⟩ := keeps_inodeManager env
  obtain ⟨d, hx, h⟩ := h₀.performAll _ hs
  exact ⟨d, by rw [exec_bind hx₀, exec_serveAll hx], h⟩

/-- A session in which the clock goes from 7 to 11: a file is made, looked at, written and read. -/
def sampleTimes : List (Env × Request) :=
  [(⟨8, .zero, fun _ ↦ 0⟩, .create tFile), (⟨9, .zero, fun _ ↦ 0⟩, .getattr 2),
    (⟨10, .zero, fun _ ↦ 0⟩, .put 2 [104, 105]), (⟨11, .zero, fun _ ↦ 0⟩, .get 2),
    (⟨11, .zero, fun _ ↦ 0⟩, .getattr 2), (⟨11, .zero, fun _ ↦ 0⟩, .getattr 1)]

theorem serve_dated_sample :
    ∃ d, exec (do inodeManager ⟨7, .zero, fun _ ↦ 0⟩; serveAll sampleTimes) blank
      = .ok ([.id 2, .attr { type := tFile, ctime := 8 }, .ok, .content [104, 105],
          .attr { type := tFile, atime := 11, mtime := 10, ctime := 11, size := 2 },
          .attr { type := tDir, ctime := 7 }], d) := by
  have hrun : ((Dated.init ⟨7, .zero, fun _ ↦ 0⟩).run
      (sampleTimes.map fun q ↦ (q.1, q.2.call))).map Prod.fst
      = some [.inum 2, .attr { type := tFile, ctime := 8 }, .done, .bytes (some [104, 105]),
          .attr { type := tFile, atime := 11, mtime := 10, ctime := 11, size := 2 },
          .attr { type := tDir, ctime := 7 }] := by decide +kernel
  obtain ⟨⟨rs, m⟩, hrun, hrs⟩ := Option.map_eq_some_iff.1 hrun
  obtain ⟨d, hx, -⟩ := serve_dated _ _ hrun
  exact ⟨d, by rw [hx, show rs = _ from hrs]; rfl⟩

/-! ## The time of the last write as a version

What is known of the time of the last write and of the contents of one file, as a relation `Q`
between the two, has to hold of a new file and of every write; everything else keeps it. -/

/-- The file with number `i`, if there is one, has a time of the last write and contents that `Q`
relates. -/
def Dated.Versions (m : Dated) (i : Nat) (Q : Nat → List UInt8 → Prop) : Prop :=
  ∀ f, m.files i = some f → Q (m.stamps i).mtime f.data

/-- When the file with number `i` is written. -/
def writeStamps (i : Nat) (calls : List (Env × Call)) : List Nat :=
  calls.filterMap fun
    | (env, .writeFile j _) => if j = i then some env.stamp else none
    | _ => none

section Versions

variable {Q : Nat → List UInt8 → Prop}

theorem mem_writeStamps {calls : List (Env × Call)} {buf : List UInt8}
    (h : (env, .writeFile i buf) ∈ calls) : env.stamp ∈ writeStamps i calls :=
  List.mem_filterMap.2 ⟨_, h, if_pos rfl⟩

theorem Dated.Versions.step (h : m.Versions i Q) (hnew : Q 0 []) {c : Call} {r : Ret}
    (hwrite : ∀ buf, c = .writeFile i buf → Q env.stamp buf)
    (hm : m.step env c = some (r, m')) : m'.Versions i Q := by
  obtain ⟨r₀, σ', hs, rfl, rfl⟩ := Dated.of_step hm
  intro f hf
  cases c with
  | allocInode type =>
    obtain ⟨-, j, -, rfl, rfl⟩ := Store.of_allocInode hs
    simp only [recordAt, Function.update_apply] at hf ⊢
    split at hf
    · rename_i hji
      obtain rfl := Option.some_inj.1 hf
      rw [if_pos hji]
      exact hnew
    · rename_i hji
      rw [if_neg hji]
      exact h f hf
  | writeFile j buf =>
    obtain ⟨g, -, -, -, rfl, rfl⟩ := Store.of_writeFile hs
    simp only [recordAt, Function.update_apply] at hf ⊢
    split at hf
    · rename_i hji
      obtain rfl := Option.some_inj.1 hf
      rw [if_pos hji]
      exact hwrite buf (by rw [hji])
    · rename_i hji
      rw [if_neg hji]
      exact h f hf
  | readFile j =>
    obtain ⟨g, -, he⟩ := Option.map_eq_some_iff.1 hs
    obtain ⟨rfl, rfl⟩ := Prod.mk.inj he
    have hsame : (recordAt env.stamp m.stamps (.readFile j) (.bytes (some g.data)) i).mtime
        = (m.stamps i).mtime := by
      simp only [recordAt, Function.update_apply]
      split
      · rename_i hji
        rw [hji]
      · rfl
    rw [hsame]
    exact h f hf
  | getattr j =>
    obtain ⟨g, -, he⟩ := Option.map_eq_some_iff.1 hs
    obtain ⟨rfl, rfl⟩ := Prod.mk.inj he
    exact h f hf
  | removeFile j =>
    obtain ⟨g, -, he⟩ := Option.map_eq_some_iff.1 hs
    obtain ⟨rfl, rfl⟩ := Prod.mk.inj he
    simp only [recordAt, Function.update_apply] at hf ⊢
    split at hf
    · exact absurd hf (by simp)
    · rename_i hji
      rw [if_neg hji]
      exact h f hf

theorem Dated.Versions.run (hnew : Q 0 []) (calls : List (Env × Call)) (h : m.Versions i Q)
    (hwrite : ∀ t ∈ writeStamps i calls, ∀ buf, Q t buf) {rs : List Ret}
    (hm : m.run calls = some (rs, m')) : m'.Versions i Q := by
  induction calls generalizing m rs with
  | nil =>
    obtain ⟨-, rfl⟩ := Prod.mk.inj (Option.some_inj.1 hm)
    exact h
  | cons c calls ih =>
    obtain ⟨env, c⟩ := c
    obtain ⟨r, m₁, rs', hstep, hrun, -⟩ := Dated.of_run_cons hm
    refine ih (h.step hnew (fun buf hc ↦ ?_) hstep) (fun t ht ↦ hwrite t ?_) hrun
    · subst hc
      exact hwrite _ (mem_writeStamps List.mem_cons_self) buf
    · obtain ⟨a, ha, hat⟩ := List.mem_filterMap.1 ht
      exact List.mem_filterMap.2 ⟨a, List.mem_cons_of_mem _ ha, hat⟩

end Versions

/-- A session is one with the dated map. -/
theorem Session.keeps {calls : List (Env × Call)} {σ : Store} (h : Session env calls d σ) :
    ∃ rs m, (Dated.init env).run calls = some (rs, m) ∧ m.files = σ ∧ Keeps d m := by
  obtain ⟨⟨rs, hs⟩, rets, hx⟩ := h
  obtain ⟨rs', m, hrun, hfiles⟩ := Dated.exists_run (m := .init env) calls hs
  obtain ⟨d₀, hx₀, h₀⟩ := keeps_inodeManager env
  obtain ⟨d', hx', h'⟩ := h₀.performAll calls hrun
  rw [exec_bind hx₀, hx'] at hx
  obtain ⟨-, rfl⟩ := Prod.mk.inj (Except.ok.inj hx)
  exact ⟨rs', m, hrun, hfiles, h'⟩

/-- What `getattr` says is what the dated map says. -/
theorem Keeps.mtime_of_getattr (h : Keeps d m) {f : File} (hf : m.files i = some f) {a : Attr}
    (hx : exec (getattr i) d = .ok (a, d')) : a.mtime = (m.stamps i).mtime := by
  rw [h.rep.getattr hf] at hx
  rw [← (Prod.mk.inj (Except.ok.inj hx)).1, ← (h.live hf).2]
  rfl

/-- **The time of the last write is a version number.**  If `getattr` gives the same time of the
last write now and at an earlier moment of the session, then the file has the same contents now and
then, even if it has been removed and its number given to a new file in between.  What it takes is
that no write of the file since then was in the same second as one before, and none in the second
0. -/
theorem contents_of_mtime {before after : List (Env × Call)} {d₁ d₂ : Disk} {σ₁ σ₂ : Store}
    (h₁ : Session env before d₁ σ₁) (h₂ : Session env (before ++ after) d₂ σ₂) {f₁ f₂ : File}
    (hf₁ : σ₁ i = some f₁) (hf₂ : σ₂ i = some f₂) {a₁ a₂ : Attr}
    (hx₁ : exec (getattr i) d₁ = .ok (a₁, d₁)) (hx₂ : exec (getattr i) d₂ = .ok (a₂, d₂))
    (hzero : 0 ∉ writeStamps i (before ++ after))
    (hsecond : (writeStamps i before).Disjoint (writeStamps i after))
    (hsame : a₁.mtime = a₂.mtime) : f₁.data = f₂.data := by
  obtain ⟨rs₁, m₁, hrun₁, rfl, hk₁⟩ := h₁.keeps
  obtain ⟨rs₂, m₂, hrun₂, rfl, hk₂⟩ := h₂.keeps
  rw [Dated.run_append, hrun₁, Option.bind_some] at hrun₂
  obtain ⟨⟨rs, m⟩, hrun, he⟩ := Option.map_eq_some_iff.1 hrun₂
  obtain ⟨-, rfl⟩ := Prod.mk.inj he
  rw [hk₁.mtime_of_getattr hf₁ hx₁, hk₂.mtime_of_getattr hf₂ hx₂] at hsame
  rw [writeStamps, List.filterMap_append, List.mem_append, not_or] at hzero
  -- Before, a file is new or has the time of one of the writes before.
  have hold : m₁.Versions i fun t b ↦ t = 0 ∧ b = [] ∨ t ∈ writeStamps i before := by
    refine Dated.Versions.run (Or.inl ⟨rfl, rfl⟩) before (fun f hf ↦ ?_)
      (fun t ht _ ↦ Or.inr ht) hrun₁
    simp only [Dated.init, Store.init, Function.update_apply] at hf ⊢
    split at hf
    · rename_i hi
      obtain rfl := Option.some_inj.1 hf
      rw [if_pos hi]
      exact Or.inl ⟨rfl, rfl⟩
    · exact absurd hf (by simp)
  -- Since then, it has not been written, or is new, or has the time of a write since then.
  have hnow : m.Versions i fun t b ↦ (t = (m₁.stamps i).mtime ∧ b = f₁.data) ∨
      (t = 0 ∧ b = []) ∨ t ∈ writeStamps i after := by
    refine Dated.Versions.run (Or.inr (Or.inl ⟨rfl, rfl⟩)) after (fun f hf ↦ ?_)
      (fun t ht _ ↦ Or.inr (Or.inr ht)) hrun
    obtain rfl := Option.some_inj.1 (hf₁.symm.trans hf)
    exact Or.inl ⟨rfl, rfl⟩
  rcases hnow f₂ hf₂ with ⟨-, hb⟩ | ⟨ht, hb⟩ | ht
  · exact hb.symm
  · rcases hold f₁ hf₁ with ⟨-, hb₁⟩ | ht₁
    · rw [hb₁, hb]
    · rw [hsame, ht] at ht₁
      exact absurd ht₁ hzero.1
  · rcases hold f₁ hf₁ with ⟨ht₁, -⟩ | ht₁
    · rw [← hsame, ht₁] at ht
      exact absurd ht hzero.2
    · exact absurd ht (hsecond (hsame ▸ ht₁))

/-- Calls made at some time of the clock. -/
def atTime (t : Nat) (c : Call) : Env × Call := (⟨t, .zero, fun _ ↦ 0⟩, c)

/-- A file is written at 10, and only read at 11. -/
theorem contents_of_mtime_read :
    ∃ d₁ d₂ σ₁ σ₂ f₁ f₂ a₁ a₂,
      Session default [atTime 9 (.allocInode tFile), atTime 10 (.writeFile 2 [1])] d₁ σ₁ ∧
      Session default ([atTime 9 (.allocInode tFile), atTime 10 (.writeFile 2 [1])] ++
        [atTime 11 (.readFile 2)]) d₂ σ₂ ∧
      σ₁ 2 = some f₁ ∧ σ₂ 2 = some f₂ ∧ exec (getattr 2) d₁ = .ok (a₁, d₁) ∧
      exec (getattr 2) d₂ = .ok (a₂, d₂) ∧ a₁.mtime = a₂.mtime ∧ f₁.data = f₂.data := by
  -- Both moments are sessions, with some dated maps.
  have hmoment : ∀ calls, ((Store.init.run (calls.map Prod.snd)).map fun p ↦ p.2 2)
        = some (some ⟨tFile, [1]⟩) →
      ((Dated.init default).run calls).map (fun p ↦ (p.2.stamps 2).mtime) = some 10 →
      ∃ d σ a, Session default calls d σ ∧ σ 2 = some ⟨tFile, [1]⟩ ∧
        exec (getattr 2) d = .ok (a, d) ∧ a.mtime = 10 := by
    intro calls hfile htime
    obtain ⟨⟨rs, σ⟩, hs, hf⟩ := Option.map_eq_some_iff.1 hfile
    obtain ⟨d, hsession, hrep⟩ := exists_session default calls hs
    obtain ⟨rs', m, hrun, rfl, hk⟩ := hsession.keeps
    rw [hrun] at htime
    have hx := hrep.getattr hf
    exact ⟨d, m.files, _, hsession, hf, hx,
      (hk.mtime_of_getattr hf hx).trans (Option.some_inj.1 htime)⟩
  obtain ⟨d₁, σ₁, a₁, h₁, hf₁, hx₁, ht₁⟩ := hmoment
    [atTime 9 (.allocInode tFile), atTime 10 (.writeFile 2 [1])] (by decide +kernel)
    (by decide +kernel)
  obtain ⟨d₂, σ₂, a₂, h₂, hf₂, hx₂, ht₂⟩ := hmoment
    ([atTime 9 (.allocInode tFile), atTime 10 (.writeFile 2 [1])] ++ [atTime 11 (.readFile 2)])
    (by decide +kernel) (by decide +kernel)
  have hsame := ht₁.trans ht₂.symm
  exact ⟨d₁, d₂, σ₁, σ₂, _, _, a₁, a₂, h₁, h₂, hf₁, hf₂, hx₁, hx₂, hsame,
    contents_of_mtime h₁ h₂ hf₁ hf₂ hx₁ hx₂ (by decide) (List.disjoint_nil_right _) hsame⟩

/-- Two writes in one second leave the same time. -/
example :
    ((Dated.init default).run [atTime 9 (.allocInode tFile), atTime 10 (.writeFile 2 [1])]).map
        (fun p ↦ ((p.2.files 2).map File.data, (p.2.stamps 2).mtime)) = some (some [1], 10) ∧
    ((Dated.init default).run [atTime 9 (.allocInode tFile), atTime 10 (.writeFile 2 [1]),
      atTime 10 (.writeFile 2 [2])]).map
        (fun p ↦ ((p.2.files 2).map File.data, (p.2.stamps 2).mtime)) = some (some [2], 10) := by
  decide +kernel

end Extent
end Yfs
