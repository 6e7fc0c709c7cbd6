import Yfs.Extent.Correct

/-!
# Where the promises of the extent server end

`Store.step` says what a call does as long as there is room for it: contents of at most 81920 bytes,
and enough free blocks.  The server does not look whether there is, and this file is about what it
does when there is not.

* **Contents that are too long.**  `write_file` fills the indirect table without an end.  With more
  than 32 + 128 blocks it leaves the 512 bytes that it has for the table.  As long as all contents
  have had room on the disk, that is the only way in which an index can go wrong, in this call or in
  a later one (`inBounds_iff`).
* **A disk that is too full.**  Block 0 is as good a block as any other for `write_file`, so the
  call comes to its end and the server replies `OK`.  The old contents are gone by then
  (`put_never_refused`).
-/

set_option autoImplicit false

namespace Yfs
namespace Extent

open Machine

variable {d d' : Disk} {σ σ' : Store} {env : Env} {i : Nat}

/-! ## Sizes -/

theorem cost_mono {m n : Nat} (h : m ≤ n) (hn : n ≤ Store.maxSize) : cost m ≤ cost n := by
  have hn' : n ≤ 81920 := hn
  rw [cost, cost, blocks_of_le (h.trans hn'), blocks_of_le hn']
  split <;> split <;> omega

/-- Files of these sizes have room on the disk: none is too long, and there are blocks for all. -/
def Fitting (size : Nat → Nat) : Prop :=
  (∀ i ∈ Finset.Icc 1 1022, size i ≤ Store.maxSize) ∧
    ∑ i ∈ Finset.Icc 1 1022, cost (size i) ≤ Store.capacity

instance (size : Nat → Nat) : Decidable (Fitting size) := inferInstanceAs (Decidable (_ ∧ _))

/-- Shorter files have room, too. -/
theorem Fitting.mono {size size' : Nat → Nat} (h : Fitting size')
    (hle : ∀ i ∈ Finset.Icc 1 1022, size i ≤ size' i) : Fitting size :=
  ⟨fun i hi ↦ (hle i hi).trans (h.1 i hi),
    (Finset.sum_le_sum fun i hi ↦ cost_mono (hle i hi) (h.1 i hi)).trans h.2⟩

namespace Store

/-- The length of the file with this number. -/
def sizeAt (σ : Store) (i : Nat) : Nat := ((σ i).map fun f ↦ f.data.length).getD 0

/-- There is room for all files. -/
def Fits (σ : Store) : Prop := Fitting σ.sizeAt

instance (σ : Store) : Decidable σ.Fits := inferInstanceAs (Decidable (Fitting _))

theorem cost_sizeAt (σ : Store) (i : Nat) : cost (σ.sizeAt i) = σ.costAt i := by
  rw [sizeAt, costAt]
  cases σ i <;> rfl

theorem Fits.load_le (h : σ.Fits) : σ.load ≤ capacity := by
  have hload := h.2
  simp only [cost_sizeAt] at hload
  exact hload

theorem Fits.length_le (h : σ.Fits) {f : File} (hi : 1 ≤ i ∧ i ≤ 1022) (hf : σ i = some f) :
    f.data.length ≤ maxSize := by
  have hsize := h.1 i (Finset.mem_Icc.2 hi)
  rwa [sizeAt, hf] at hsize

end Store

/-- A size that leaves the indirect table in its place. -/
theorem blocks_sub_le {n : Nat} (h : n ≤ Store.maxSize) : ¬ blocks n - ndirect > nindirect := by
  have h' : n ≤ 81920 := h
  rw [blocks_of_le h', nindirect_eq]
  simp only [ndirect]
  omega

/-- An `int` that does not. -/
theorem lt_blocks_sub {n : Nat} (h : Store.maxSize < n) (hint : n < 2 ^ 31) :
    blocks n - ndirect > nindirect := by
  have h' : 81920 < n := h
  rw [nindirect_eq]
  simp only [blocks, blockSize, ndirect]
  omega

theorem total_freeIndirect (env : Env) {ino : Inode} (h : ino.size ≤ Store.maxSize) :
    (freeIndirect env ino).Total := by
  rw [freeIndirect]
  split
  · refine (total_readBlock _ _).bind fun _ ↦ (total_freeBlocks _).bind fun _ ↦ ?_
    rw [if_neg (blocks_sub_le h)]
    exact total_freeBlock _
  · trivial

/-! ## Writing to any disk

Nothing is said here about what the disk holds, only that the inode is live and not too long.  So
these facts remain true of a disk that has been overfull. -/

theorem exec_allocContents_any (ino : Inode) {n : Nat} (hn : ¬ n - ndirect > nindirect) (d : Disk) :
    ∃ ino' d', exec (allocContents ino n) d = .ok (ino', d') ∧ ino'.type = ino.type := by
  obtain ⟨direct, d₁, he₁⟩ := exec_total (total_allocBlocks (min n ndirect)) d
  rw [allocContents, exec_bind he₁]
  dsimp only
  split
  · obtain ⟨ind, d₂, he₂⟩ := exec_total (total_allocScan _) d₁
    obtain ⟨table, d₃, he₃⟩ :=
      exec_total (total_allocBlocks (min (n - ndirect) (nindirect + 1))) d₂
    obtain ⟨⟨⟩, d₄, he₄⟩ := exec_total (total_writeBlock ind (.ofWords table)) d₃
    refine ⟨(ino.setDirect direct).setIndirect ind, d₄, ?_, ?_⟩
    · rw [allocBlock, exec_bind he₂, exec_bind he₃, exec_bind he₄, exec_pure]
    · rw [Inode.setIndirect_type, Inode.setDirect_type]
  · exact ⟨_, _, exec_pure, ino.setDirect_type direct⟩

/-- The table is filled beyond its end. -/
theorem exec_allocContents_long (ino : Inode) {n : Nat} (hn : n - ndirect > nindirect) (d : Disk) :
    exec (allocContents ino n) d = .error .indexOut := by
  obtain ⟨direct, d₁, he₁⟩ := exec_total (total_allocBlocks (min n ndirect)) d
  obtain ⟨ind, d₂, he₂⟩ := exec_total (total_allocScan _) d₁
  obtain ⟨table, d₃, he₃⟩ := exec_total (total_allocBlocks (min (n - ndirect) (nindirect + 1))) d₂
  have hbig : n > ndirect := by omega
  rw [allocContents, exec_bind he₁]
  dsimp only
  rw [if_pos hbig, allocBlock, exec_bind he₂, exec_bind he₃, if_pos hn, exec_throw]

/-- Everything before the allocation. -/
theorem exec_free_any (env : Env) (h : (d.inode i).size ≤ Store.maxSize) :
    ∃ d₁ d₂, exec (freeDirect (d.inode i)) d = .ok ((), d₁) ∧
      exec (freeIndirect env (d.inode i)) d₁ = .ok ((), d₂) := by
  obtain ⟨⟨⟩, d₁, he₁⟩ := exec_total (total_freeBlocks _) d
  obtain ⟨⟨⟩, d₂, he₂⟩ := exec_total (total_freeIndirect env h) d₁
  exact ⟨d₁, d₂, he₁, he₂⟩

/-- **`write_file` comes to its end** on any disk, and the inode then says what it has been
given. -/
theorem exec_writeFile_any (env : Env) (hi : i < 1024) (hlive : (d.inode i).type ≠ 0)
    (hold : (d.inode i).size ≤ Store.maxSize) {buf : List UInt8}
    (hlen : buf.length ≤ Store.maxSize) :
    ∃ d', exec (writeFile env i buf) d = .ok ((), d') ∧
      (d'.inode i).type = (d.inode i).type ∧ (d'.inode i).size = buf.length := by
  obtain ⟨d₁, d₂, he₁, he₂⟩ := exec_free_any env hold
  obtain ⟨ino, d₃, he₃, htype⟩ := exec_allocContents_any (d.inode i) (blocks_sub_le hlen) d₂
  obtain ⟨⟨⟩, d₄, he₄⟩ := exec_total (total_writeContents env ino buf) d₃
  let new : Inode := { ino with size := buf.length, mtime := env.now, ctime := env.now }
  refine ⟨d₄.setInode i new, ?_, ?_, ?_⟩
  · rw [writeFile, exec_bind (exec_getInode_live hi hlive)]
    dsimp only
    rw [exec_bind he₁, exec_bind he₂, exec_bind he₃, exec_bind he₄, exec_putInode hi]
  · rw [Disk.inode_setInode, Inode.read_write_type, htype]
    exact Nat.mod_eq_of_lt (Block.short_lt _ _)
  · have hlt : buf.length ≤ 81920 := hlen
    rw [Disk.inode_setInode, Inode.read_write_size]
    exact Nat.mod_eq_of_lt (show buf.length < 2 ^ 32 by omega)

/-- Contents that are too long are the end of the server. -/
theorem exec_writeFile_long (env : Env) (hi : i < 1024) (hlive : (d.inode i).type ≠ 0)
    (hold : (d.inode i).size ≤ Store.maxSize) {buf : List UInt8}
    (hlong : Store.maxSize < buf.length)
    (hint : buf.length < 2 ^ 31) : exec (writeFile env i buf) d = .error .indexOut := by
  obtain ⟨d₁, d₂, he₁, he₂⟩ := exec_free_any env hold
  rw [writeFile, exec_bind (exec_getInode_live hi hlive)]
  dsimp only
  rw [exec_bind he₁, exec_bind he₂, exec_bind_eq_error]
  exact Or.inl (exec_allocContents_long _ (lt_blocks_sub hlong hint) d₂)

/-- `remove_file` stops at the end of the table if the inode does not say otherwise. -/
theorem exec_removeFile_ne (env : Env) (hi : i < 1024) (hold : (d.inode i).size ≤ Store.maxSize) :
    exec (removeFile env i) d ≠ .error .indexOut := by
  intro he
  by_cases hlive : (d.inode i).type = 0
  · rw [removeFile, exec_bind (exec_getInode_none fun _ ↦ hlive)] at he
    exact absurd he (by simp)
  · rw [removeFile, exec_bind (exec_getInode_live hi hlive)] at he
    obtain ⟨⟨⟩, d₁, he₁⟩ := exec_total (total_freeIndirect env hold) d
    obtain ⟨⟨⟩, d₂, he₂⟩ := exec_total (total_freeBlocks _) d₁
    dsimp only at he
    rw [exec_bind he₁, freeDirect, exec_bind he₂, exec_freeInode hi] at he
    split at he <;> exact absurd he (by simp)

/-- On any disk, an inode that does not say it is too long is written to without leaving the
table. -/
theorem exec_writeFile_ne (env : Env) (hi : i < 1024) (hold : (d.inode i).size ≤ Store.maxSize)
    {buf : List UInt8} (hlen : buf.length ≤ Store.maxSize) :
    exec (writeFile env i buf) d ≠ .error .indexOut := by
  by_cases hlive : (d.inode i).type = 0
  · rw [writeFile, exec_bind (exec_getInode_none fun _ ↦ hlive), exec_throw]
    simp
  · obtain ⟨d', he, -⟩ := exec_writeFile_any env hi hlive hold hlen
    rw [he]
    simp

/-! ## Indices -/

/-- No call for inode `i` leaves the indirect table, as long as it does not bring contents that are
too long. -/
structure InTable (d : Disk) (i : Nat) : Prop where
  read : ∀ env, exec (readFile env i) d ≠ .error .indexOut
  remove : ∀ env, exec (removeFile env i) d ≠ .error .indexOut
  write : ∀ env buf, buf.length ≤ Store.maxSize →
    exec (writeFile env i buf) d ≠ .error .indexOut

theorem inTable_of_size (hi : i < 1024) (hold : (d.inode i).size ≤ Store.maxSize) :
    InTable d i := by
  refine ⟨fun env he ↦ ?_, fun env ↦ exec_removeFile_ne env hi hold,
    fun env buf hlen ↦ exec_writeFile_ne env hi hold hlen⟩
  obtain ⟨a, d', he'⟩ := exec_total (total_readFile env i) d
  rw [he'] at he
  exact absurd he (by simp)

/-- Whether the inode is in use or not. -/
theorem Rep.inTable (h : Rep d σ) (hi : 1 ≤ i ∧ i ≤ 1022) : InTable d i := by
  refine inTable_of_size (by omega) ?_
  cases hσ : σ i with
  | none =>
    rw [(h.free i hi.1 hi.2 hσ).2]
    exact Nat.zero_le _
  | some f => exact (h.live hσ).2.2

/-- The contents `buf` are written to the file `f`, which is inode `i`, and then there are more
calls, for this and for other inodes, of which the map says what should happen.  All of them come to
their end, and however far they have got: no call for the inode leaves the indirect table, and what
is read is what the map has. -/
def InBounds (env : Env) (d : Disk) (σ : Store) (i : Nat) (f : File) (buf : List UInt8) : Prop :=
  ∃ d', exec (writeFile env i buf) d = .ok ((), d') ∧
    ∀ later rs σ',
      Store.run (Function.update σ i (some { f with data := buf })) (later.map Prod.snd)
        = some (rs, σ') →
      ∃ rets d'', exec (performAll later) d' = .ok (rets, d'') ∧ InTable d'' i ∧
        ∀ g, σ' i = some g → ∀ env', ∃ d₃, exec (readFile env' i) d'' = .ok (some g.data, d₃)

/-- **Indices are in bounds if and only if the contents are not too long**, on a disk that has room
for them: if they are not, then this is so however the session goes on, and if they are, then it is
this call that leaves the table. -/
theorem inBounds_iff (env env₀ : Env) (calls : List (Env × Call)) (d : Disk) (σ : Store)
    (hs : Session env₀ calls d σ) (i : Nat) (f : File) (hf : σ i = some f) (buf : List UInt8)
    (hint : buf.length < 2 ^ 31)
    (hroom : buf.length ≤ Store.maxSize →
      Store.load (Function.update σ i (some { f with data := buf })) ≤ Store.capacity) :
    (InBounds env d σ i f buf ↔ buf.length ≤ Store.maxSize) ∧
    (Store.maxSize < buf.length → exec (writeFile env i buf) d = .error .indexOut) := by
  have hrep := hs.rep
  obtain ⟨hi, hlive, hold⟩ := hrep.live hf
  have hlong : Store.maxSize < buf.length → exec (writeFile env i buf) d = .error .indexOut :=
    fun hlong ↦ exec_writeFile_long env hi hlive hold hlong hint
  refine ⟨⟨fun ⟨d', he, _⟩ ↦ ?_, fun hlen ↦ ?_⟩, hlong⟩
  · by_contra hlen
    rw [hlong (Nat.not_le.1 hlen)] at he
    exact absurd he (by simp)
  · obtain ⟨d', he, hrep', -⟩ := hrep.writeFile env hf hlen (hroom hlen)
    refine ⟨d', he, fun later rs σ' hrun ↦ ?_⟩
    obtain ⟨rets, d'', hx, -, hrep''⟩ := hrep'.performAll later hrun
    exact ⟨rets, d'', hx, hrep''.inTable (hrep.inum i f hf), fun g hg env' ↦
      ⟨_, (hrep''.readFile env' hg).1⟩⟩

/-- One byte for the root directory of a new disk. -/
theorem inBounds_byte : ∃ d, Session default [] d .init ∧
    InBounds default d .init 1 ⟨tDir, []⟩ [7] := by
  obtain ⟨d, hs, -⟩ := exists_session default [] rfl
  exact ⟨d, hs, (inBounds_iff default default [] d .init hs 1 ⟨tDir, []⟩ (Function.update_self ..)
    [7] (by decide) (by decide +kernel)).1.2 (by decide)⟩

/-- One byte too many for it. -/
theorem table_overrun : ∃ d, Session default [] d .init ∧
    exec (writeFile default 1 (List.replicate 81921 0)) d = .error .indexOut := by
  obtain ⟨d, hs, hrep⟩ := exists_session default [] rfl
  obtain ⟨hi, hlive, hold⟩ := hrep.live (f := ⟨tDir, []⟩) (i := 1) (Function.update_self ..)
  refine ⟨d, hs, exec_writeFile_long default hi hlive hold ?_ ?_⟩
  · rw [List.length_replicate]
    decide
  · rw [List.length_replicate]
    decide

/-! ## A full disk -/

/-- `extent_protocol::OK`. -/
abbrev statusOk : Int := 0

/-- The status that comes with a reply: every method of `extent_server` ends with
`return extent_protocol::OK`. -/
def Reply.status (_ : Reply) : Int := statusOk

/-- The request is turned down: the reply says so, every file that could be read can be read as
before, and the bitmap is the same. -/
def Refuses (env : Env) (d : Disk) (q : Request) : Prop :=
  ∃ r d', exec (serve env q) d = .ok (r, d') ∧ r.status ≠ statusOk ∧
    (∀ j env' data d₁, exec (readFile env' j) d = .ok (some data, d₁) →
      ∃ d₂, exec (readFile env' j) d' = .ok (some data, d₂)) ∧
    ∀ b, b < blockNum → d'.used b = d.used b

/-- The loops of `read_file` do not read more than there is. -/
theorem length_readBlocks_le {size : Nat} {bs : List Nat} {res res' : List UInt8}
    (h : exec (readBlocks env size bs res) d = .ok (res', d')) (hres : res.length ≤ size) :
    res'.length ≤ size := by
  induction bs generalizing res d with
  | nil =>
    obtain ⟨rfl, -⟩ := Prod.mk.inj (Except.ok.inj h)
    exact hres
  | cons b bs ih =>
    rw [readBlocks] at h
    split at h
    · split at h
      · rename_i hmore
        obtain ⟨blk, d₁, -, h⟩ := exec_bind_eq_ok.1 h
        refine ih h ?_
        rw [List.length_append, Vector.length_toList]
        omega
      · obtain ⟨blk, d₁, -, h⟩ := exec_bind_eq_ok.1 h
        refine ih h ?_
        rw [List.length_append, List.length_take]
        omega
    · obtain ⟨rfl, -⟩ := Prod.mk.inj (Except.ok.inj h)
      exact hres

/-- **As many bytes are read as the inode says.** -/
theorem length_of_readFile {data : List UInt8} (hi : i < 1024)
    (h : exec (readFile env i) d = .ok (some data, d')) : data.length = (d.inode i).size := by
  by_cases hlive : (d.inode i).type = 0
  · rw [readFile, exec_bind (exec_getInode hi), if_pos hlive] at h
    exact absurd (Prod.mk.inj (Except.ok.inj h)).1 (by simp)
  · rw [readFile, exec_bind (exec_getInode_live hi hlive)] at h
    obtain ⟨res₁, d₁, h₁, h⟩ := exec_bind_eq_ok.1 h
    obtain ⟨res₂, d₂, h₂, h⟩ := exec_bind_eq_ok.1 h
    obtain ⟨-, d₃, -, h⟩ := exec_bind_eq_ok.1 h
    have hle₁ := length_readBlocks_le h₁ (Nat.zero_le _)
    have hle₂ : res₂.length ≤ (d.inode i).size := by
      rw [readIndirect] at h₂
      split at h₂
      · obtain ⟨indnum, d₄, -, h₂⟩ := exec_bind_eq_ok.1 h₂
        exact length_readBlocks_le h₂ hle₁
      · obtain ⟨rfl, -⟩ := Prod.mk.inj (Except.ok.inj h₂)
        exact hle₁
    have hdata := Option.some_inj.1 (Prod.mk.inj (Except.ok.inj h)).1
    rw [← hdata, List.length_append, List.length_map, List.length_range']
    omega

/-! ### A session that fills the disk -/

namespace Store

/-- The root directory, and `n` files with the same contents. -/
def filled (data : List UInt8) : Nat → Store
  | 0 => init
  | n + 1 => Function.update (filled data n) (n + 2) (some ⟨tFile, data⟩)

/-- The calls that make them. -/
def fillCalls (data : List UInt8) : Nat → List Call
  | 0 => []
  | n + 1 => fillCalls data n ++ [.allocInode tFile, .writeFile (n + 2) data]

variable {data : List UInt8} {n : Nat}

theorem isSome_filled : (filled data n i).isSome = true ↔ 1 ≤ i ∧ i ≤ n + 1 := by
  induction n with
  | zero =>
    rw [filled, init, Function.update_apply]
    split
    · simp_all
    · simp only [Option.isSome_none, Bool.false_eq_true, false_iff]
      omega
  | succ n ih =>
    rw [filled, Function.update_apply]
    split
    · simp only [Option.isSome_some, true_iff]
      omega
    · rw [ih]
      omega

theorem filled_root : filled data n 1 = some ⟨tDir, []⟩ := by
  induction n with
  | zero => rw [filled, init, Function.update_self]
  | succ n ih => rw [filled, Function.update_of_ne (by omega), ih]

theorem filled_eq_none (hi : n + 1 < i) : filled data n i = none := by
  rw [← Option.not_isSome_iff_eq_none, isSome_filled]
  omega

theorem firstFree_filled (hn : n ≤ 1020) : firstFree (filled data n) = some (n + 2) := by
  rw [firstFree, List.find?_range'_eq_some]
  refine ⟨by rw [filled_eq_none (by omega)]; rfl, by rw [List.mem_range'_1]; omega,
    fun j hj hlt ↦ ?_⟩
  rw [Bool.not_eq_true', Option.isNone_eq_false_iff, isSome_filled]
  omega

/-- The last inode that is in the table, 1022, is taken. -/
theorem firstFree_filled_last : firstFree (filled data 1021) = none := by
  rw [firstFree, List.find?_range'_eq_none]
  intro j hj hlt
  rw [Bool.not_eq_true', Option.isNone_eq_false_iff, isSome_filled]
  omega

theorem load_filled (hn : n ≤ 1021) : load (filled data n) = n * cost data.length := by
  induction n with
  | zero =>
    rw [Nat.zero_mul]
    exact Finset.sum_eq_zero fun i _ ↦ by
      rw [costAt, filled, init, Function.update_apply]
      split <;> rfl
  | succ n ih =>
    have hbefore : (filled data n).costAt (n + 2) = 0 := by
      rw [costAt, filled_eq_none (by omega)]
      rfl
    have hrest := ih (by omega)
    rw [load, ← Finset.add_sum_erase _ _ (Finset.mem_Icc.2 (by omega : 1 ≤ n + 2 ∧ n + 2 ≤ 1022)),
      hbefore, Nat.zero_add] at hrest
    rw [filled, load_update (by omega), hrest, Nat.succ_mul, Nat.add_comm]

theorem run_append {σ₁ : Store} {cs cs' : List Call} {rs rs' : List Ret}
    (h : σ.run cs = some (rs, σ₁)) (h' : σ₁.run cs' = some (rs', σ')) :
    σ.run (cs ++ cs') = some (rs ++ rs', σ') := by
  induction cs generalizing σ rs with
  | nil =>
    obtain ⟨rfl, rfl⟩ := Prod.mk.inj (Option.some_inj.1 h)
    exact h'
  | cons c cs ih =>
    simp only [run, Option.bind_eq_bind, Option.bind_eq_some_iff] at h
    obtain ⟨⟨r, σ₂⟩, hstep, ⟨rs₂, σ₃⟩, hrun, he⟩ := h
    obtain ⟨rfl, rfl⟩ := Prod.mk.inj (Option.some_inj.1 he)
    simp only [List.cons_append, run, hstep, Option.bind_eq_bind, Option.bind_some, ih hrun]
    rfl

/-- The files fit if their blocks do. -/
theorem run_fillCalls (hdata : data.length ≤ maxSize) (hn : n ≤ 1021)
    (hload : n * cost data.length ≤ capacity) :
    ∃ rs, init.run (fillCalls data n) = some (rs, filled data n) := by
  induction n with
  | zero => exact ⟨[], rfl⟩
  | succ n ih =>
    obtain ⟨rs, hrun⟩ := ih (by omega) (by rw [Nat.succ_mul] at hload; omega)
    have hmake : step (filled data n) (.allocInode tFile) =
        some (.inum (n + 2), Function.update (filled data n) (n + 2) (some ⟨tFile, []⟩)) := by
      rw [step, if_pos (by simp), firstFree_filled (by omega)]
      rfl
    have hput : step (Function.update (filled data n) (n + 2) (some ⟨tFile, []⟩))
        (.writeFile (n + 2) data) = some (.done, filled data (n + 1)) := by
      rw [step, Function.update_self, Option.bind_some, Function.update_idem]
      exact if_pos ⟨hdata, (load_filled hn).trans_le hload⟩
    have hboth : run (filled data n) [.allocInode tFile, .writeFile (n + 2) data]
        = some ([.inum (n + 2), .done], filled data (n + 1)) := by
      simp only [run, hmake, hput, Option.bind_eq_bind, Option.bind_some]
      rfl
    exact ⟨_, run_append hrun hboth⟩

end Store

/-- There is a session that makes them. -/
theorem exists_session_filled (data : List UInt8) (n : Nat) (hdata : data.length ≤ Store.maxSize)
    (hn : n ≤ 1021) (hload : n * cost data.length ≤ Store.capacity) :
    ∃ calls d, Session default calls d (Store.filled data n) := by
  obtain ⟨rs, hrun⟩ := Store.run_fillCalls hdata hn hload
  have hcalls : ((Store.fillCalls data n).map fun c ↦ ((default : Env), c)).map Prod.snd
      = Store.fillCalls data n := by
    rw [List.map_map]
    exact List.map_id _
  obtain ⟨d, hs, -⟩ := exists_session default _ (by rw [hcalls]; exact hrun)
  exact ⟨_, d, hs⟩

/-- The free blocks are those that no file takes. -/
theorem Rep.card_freeSet (h : Rep d σ) : d.freeSet.card + σ.load = Store.capacity := by
  -- no file has the number 0
  have hused : ∀ b, b < blockNum → (d.used b = true ↔ b < 1034 ∨
      ∃ j g, j ≠ 0 ∧ σ j = some g ∧ b ∈ (d.inode j).owned d) := by
    intro b hb
    rw [h.used b hb]
    refine or_congr_right (exists_congr fun j ↦ exists_congr fun g ↦ ?_)
    exact ⟨fun ⟨hg, hm⟩ ↦ ⟨Nat.ne_of_gt (h.inum j g hg).1, hg, hm⟩, And.right⟩
  have hroom := h.room hused
  rwa [Finset.erase_eq_of_notMem (by simp)] at hroom

/-- What is on a disk has room there. -/
theorem Rep.fits (h : Rep d σ) : σ.Fits := by
  refine ⟨fun i _ ↦ ?_, ?_⟩
  · rw [Store.sizeAt]
    cases hσ : σ i with
    | none => exact Nat.zero_le _
    | some f => exact (h.file i f hσ).small
  · simp only [Store.cost_sizeAt]
    exact le_of_add_le_right h.card_freeSet.le

/-- New contents fit if the blocks that are free and those that the file has are enough for them. -/
theorem Rep.load_le_iff (h : Rep d σ) {f : File} (hf : σ i = some f) {buf : List UInt8} :
    Store.load (Function.update σ i (some { f with data := buf })) ≤ Store.capacity ↔
      cost buf.length ≤ d.freeSet.card + ((d.inode i).owned d).length := by
  have hi := h.inum i f hf
  have hok := h.file i f hf
  have hcard := h.card_freeSet
  have hcost : σ.costAt i = cost f.data.length := by
    rw [Store.costAt, hf]
    rfl
  rw [Store.load, ← Finset.add_sum_erase _ _ (Finset.mem_Icc.2 hi), hcost] at hcard
  rw [Inode.length_owned (hok.size ▸ hok.small), hok.size, Store.load_update hi]
  dsimp only
  omega

/-- A session with 197 files as long as they can be.  17 blocks are left. -/
theorem exists_full : ∃ calls d σ, Session default calls d σ ∧ σ 1 = some ⟨tDir, []⟩ ∧
    d.freeSet.card + ((d.inode 1).owned d).length < cost 9216 := by
  have hlong : (List.replicate 81920 (0 : UInt8)).length = 81920 := List.length_replicate
  obtain ⟨calls, d, hs⟩ := exists_session_filled (List.replicate 81920 0) 197
    (by rw [hlong]; decide) (by decide) (by rw [hlong]; decide)
  refine ⟨calls, d, _, hs, Store.filled_root, ?_⟩
  have hok := hs.rep.file 1 _ Store.filled_root
  have hcard := hs.rep.card_freeSet
  rw [Store.load_filled (by decide), hlong] at hcard
  have hdisk : 197 * cost 81920 + 17 = Store.capacity := by decide
  have hleft : 17 + cost 0 < cost 9216 := by decide
  rw [Inode.length_owned (hok.size ▸ hok.small), hok.size, List.length_nil]
  omega

/-- **A put is never turned down**, on whatever disk.  If the free blocks and those that the file
has are fewer than it needs, the server replies `OK`, and what was in the file is not in it any
more. -/
theorem put_never_refused (env : Env) (d : Disk) (id : Nat) (buf : List UInt8) :
    ¬ Refuses env d (.put id buf) ∧
    ∀ env₀ calls σ f, Session env₀ calls d σ → σ (inumOf id) = some f →
      buf.length ≤ Store.maxSize →
      d.freeSet.card + ((d.inode (inumOf id)).owned d).length < cost buf.length →
      ∃ d', exec (serve env (.put id buf)) d = .ok (.ok, d') ∧
        ∀ env' d'', exec (readFile env' (inumOf id)) d' ≠ .ok (some f.data, d'') := by
  refine ⟨?_, fun env₀ calls σ f hs hf hlen hfull ↦ ?_⟩
  · rintro ⟨r, d', -, hstatus, -⟩
    exact hstatus rfl
  · have hrep := hs.rep
    obtain ⟨hi, hlive, hold⟩ := hrep.live hf
    obtain ⟨d', he, -, hsize⟩ := exec_writeFile_any env hi hlive hold hlen
    refine ⟨d', exec_map Ret.reply (exec_map (fun _ ↦ Ret.done) he), fun env' d'' hread ↦ ?_⟩
    -- the new contents have another length
    have hok := hrep.file _ f hf
    rw [Inode.length_owned hold, hok.size] at hfull
    have hsame : f.data.length = buf.length := (length_of_readFile hi hread).trans hsize
    rw [hsame] at hfull
    omega

/-- On the full disk, the root directory is given 18 blocks of contents, and has them then. -/
theorem put_full_disk : ∃ d d',
    exec (serve default (.put 1 (List.replicate 9216 0))) d = .ok (.ok, d') ∧
    ∀ env' d'', exec (readFile env' 1) d' ≠ .ok (some [], d'') := by
  obtain ⟨calls, d, σ, hs, hroot, hfull⟩ := exists_full
  obtain ⟨d', he, hgone⟩ := (put_never_refused default d 1 (List.replicate 9216 0)).2
    default calls σ
    ⟨tDir, []⟩ hs hroot (by rw [List.length_replicate]; decide)
    (by rw [List.length_replicate]; exact hfull)
  exact ⟨d, d', he, hgone⟩

/-- The server replies `OK` although there is no room. -/
theorem full_disk_accepts : ∃ calls d σ, Session default calls d σ ∧ (σ (inumOf 1)).isSome = true ∧
    d.freeSet.card + ((d.inode (inumOf 1)).owned d).length
      < cost (List.replicate 9216 (0 : UInt8)).length ∧
    ¬ Refuses default d (.put 1 (List.replicate 9216 0)) := by
  obtain ⟨calls, d, σ, hs, hroot, hfull⟩ := exists_full
  refine ⟨calls, d, σ, hs, ?_, ?_, ?_⟩
  · exact Option.isSome_iff_exists.2 ⟨_, hroot⟩
  · rw [List.length_replicate]
    exact hfull
  · rintro ⟨r, d', -, hstatus, -⟩
    exact hstatus rfl

end Extent
end Yfs
