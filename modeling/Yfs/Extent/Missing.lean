import Yfs.Extent.Limits

/-!
# Inodes that are not there

The table of inodes has room for the numbers 0 to 1022, of which 0 is never given away, and the code
goes on to 1023.  The block that it takes for inode 1023 is the first data block.  This file is
about what `alloc_inode` does at the end of the table, and about calls with the number of an inode
that has not been allocated.

* **Creating.**  As long as there is a free inode in the table, `create` turns it into a file and
  changes no other one.  Then it tries inode 1023; that goes well if the block happens to be unused
  and to have zeros in the right places (`create_fresh_iff`).  After that it returns 1, and the new
  name is one for the root directory (`create_returns_root`).
* **Using.**  `get_inode` returns null for an inode that is not there.  `read_file`, `getattr` and
  `remove_file` look at the result; `write_file` and `free_inode` do not, and the server dies.
  Inode 1023 is special again: the null comes only if the data block looks like a free inode
  (`harmless_iff`).
-/

set_option autoImplicit false

namespace Yfs
namespace Extent

open Machine

variable {d d' : Disk} {σ σ' : Store} {env : Env} {i : Nat}

/-! ## The end of the table -/

/-- No inode of a list is free: the scan of `alloc_inode` ends with 1. -/
theorem exec_allocInodeScan_none {type : Nat} {is : List Nat}
    (his : ∀ i ∈ is, i < 1024 ∧ (d.inode i).type ≠ 0) :
    exec (allocInodeScan env type is) d = .ok (1, d) := by
  induction is with
  | nil => rfl
  | cons j is ih =>
    obtain ⟨hj, hlive⟩ := his j List.mem_cons_self
    rw [allocInodeScan, exec_bind (exec_readBlock (iblock_lt_blockNum hj) _)]
    exact (congrArg (exec · d) (if_neg hlive)).trans
      (ih fun k hk ↦ his k (List.mem_cons_of_mem _ hk))

/-- **The inodes of the table are all in use**: what is left is inode 1023. -/
theorem exec_allocInode_full (hfull : ∀ i, 1 ≤ i → i ≤ 1022 → (d.inode i).type ≠ 0) (env : Env)
    (type : Nat) :
    exec (allocInode env type) d = .ok (if (d.inode 1023).type = 0 then
      (1023, d.setInode 1023 { d.inode 1023 with type := type, ctime := env.now })
      else (1, d)) := by
  rw [allocInode]
  split
  · rename_i hfree
    refine exec_allocInodeScan env (fun j hj ↦ ?_) ?_
    · rw [List.mem_range'_1] at hj
      simp only [inodeNum] at hj
      omega
    · rw [List.find?_range'_eq_some]
      refine ⟨by simpa using hfree, by decide +kernel, fun j hj hlt ↦ ?_⟩
      simpa using hfull j hj (by omega)
  · rename_i hlive
    refine exec_allocInodeScan_none fun j hj ↦ ?_
    rw [List.mem_range'_1] at hj
    simp only [inodeNum] at hj
    refine ⟨by omega, ?_⟩
    rcases Nat.lt_or_ge j 1023 with hlt | hge
    · exact hfull j hj.1 (by omega)
    · rwa [show j = 1023 by omega]

theorem Rep.type_ne_zero (h : Rep d σ) (hfull : σ.firstFree = none) (h₁ : 1 ≤ i) (h₂ : i ≤ 1022) :
    (d.inode i).type ≠ 0 := by
  rw [Store.firstFree, List.find?_range'_eq_none] at hfull
  rw [ne_eq, h.type_eq_zero_iff ⟨h₁, h₂⟩, Bool.not_eq_true, ← Bool.not_eq_true']
  exact hfull i h₁ (by omega)

/-! ## The first data block -/

/-- A block that is not in use can be written to. -/
theorem Rep.unused (h : Rep d σ) {b : Nat} (hb : 1034 ≤ b ∧ b < blockNum) (hfree : d.used b = false)
    (hsame : ∀ x, x ≠ b → d' x = d x) : Rep d' σ := by
  have hinode : ∀ j, j ≤ 1022 → d' (iblock j) = d (iblock j) := fun j hj ↦
    hsame _ (by rw [iblock_eq]; omega)
  have hown : ∀ j f, σ j = some f → FileOk d' j f ∧
      (d'.inode j).owned d' = (d.inode j).owned d := by
    intro j f hf
    refine (h.file j f hf).congr (hinode j (h.inum j f hf).2) fun x hx ↦ hsame x ?_
    rintro rfl
    rw [(h.used x hb.2).2 (Or.inr ⟨j, f, hf, hx⟩)] at hfree
    exact absurd hfree (by simp)
  refine ⟨h.inum, fun j h₁ h₂ hj ↦ ?_, fun j f hf ↦ (hown j f hf).1, ?_, fun x hx ↦ ?_⟩
  · rw [Disk.inode, hinode j h₂]
    exact h.free j h₁ h₂ hj
  · intro j k f g hf hg hne
    rw [(hown j f hf).2, (hown k g hg).2]
    exact h.disjoint j k f g hf hg hne
  · have hbits : d'.used x = d.used x := by
      rw [Disk.used, Disk.used, hsame _ (by have := Disk.bblock_lt hx; omega)]
    rw [hbits, h.used x hx]
    refine or_congr_right (exists_congr fun j ↦ exists_congr fun f ↦ ?_)
    exact and_congr_right fun hf ↦ by rw [(hown j f hf).2]

/-- An indirect block does not look like a free inode: the first number in it is that of a data
block. -/
theorem FileOk.short_indirect {f : File} (h : FileOk d i f)
    (hn : blocks (d.inode i).size > ndirect) : (d ((d.inode i).block ndirect)).short 0 ≠ 0 := by
  intro hzero
  have hfirst : (d ((d.inode i).block ndirect)).word 0 ∈ (d.inode i).table d := by
    rw [Inode.table, if_pos hn, List.mem_take_iff_getElem]
    refine ⟨0, ?_, ?_⟩
    · rw [Block.length_words]
      omega
    · simp [Block.words]
  have hbounds := h.data _ (Inode.mem_owned_of_mem (List.mem_append_right _ hfirst))
  rw [Block.word, hzero, blockNum_eq] at hbounds
  omega

/-- **Inode 1023 in the middle of a file.**  If the first data block is in use, then storing an
inode in it changes what is read from some file. -/
theorem Rep.exists_spoilt (h : Rep d σ) (hused : d.used 1034 = true)
    (hfree : (d.inode 1023).type = 0) (ino : Inode) (htype : 1 ≤ ino.type ∧ ino.type ≤ 3) :
    ∃ j f, σ j = some f ∧ ∀ env' d'',
      exec (Extent.readFile env' j) (d.setInode 1023 ino) ≠ .ok (some f.data, d'') := by
  obtain hlt | ⟨j, f, hf, hmem⟩ := (h.used 1034 (by decide)).1 hused
  · omega
  refine ⟨j, f, hf, fun env' d'' hread ↦ ?_⟩
  obtain ⟨hj, hlive, hsmall⟩ := h.live hf
  have hok := h.file j f hf
  have hj' := (h.inum j f hf).2
  have hshort : (d 1034).short 0 = 0 := hfree
  have hind : blocks (d.inode j).size > ndirect → (d.inode j).block ndirect ≠ 1034 := by
    intro hn he
    exact hok.short_indirect hn (he ▸ hshort)
  have hother : ∀ x, x ≠ 1034 → d.setInode 1023 ino x = d x := fun x hx ↦
    Disk.setInode_of_ne ino hx
  have hinode : (d.setInode 1023 ino).inode j = d.inode j :=
    Disk.inode_setInode_of_ne ino (by omega)
  have htable : (d.inode j).table (d.setInode 1023 ino) = (d.inode j).table d := by
    simp only [Inode.table]
    split
    · rename_i hn
      rw [hother _ (hind hn)]
    · rfl
  have howned : (d.inode j).owned (d.setInode 1023 ino) = (d.inode j).owned d := by
    simp only [Inode.owned, Inode.indirect, htable]
  -- so it is a block with contents, and its first byte is read
  have hdata : 1034 ∈ (d.inode j).direct ++ (d.inode j).table d := by
    rw [Inode.owned, Inode.indirect, List.mem_append] at hmem
    rw [List.mem_append]
    refine hmem.imp_right fun hmem ↦ ?_
    split at hmem
    · rename_i hn
      exact (List.mem_cons.1 hmem).resolve_left (hind hn).symm
    · exact absurd hmem (by simp)
  have hcontents : (d.inode j).contents (d.setInode 1023 ino) = (d.inode j).contents d := by
    rw [exec_readFile env' hj (by rwa [hinode]) (by rwa [hinode])
      (by rw [hinode, howned]; exact fun b hb ↦ (hok.data b hb).2), hinode] at hread
    rw [hok.contents]
    exact Option.some_inj.1 (Prod.mk.inj (Except.ok.inj hread)).1
  obtain ⟨k, hk, hget⟩ := List.mem_iff_getElem.1 hdata
  have hbyte := fun d₁ : Disk ↦ d₁.getElem?_flat (List.getElem?_eq_some_iff.2 ⟨hk, hget⟩)
  rw [Inode.length_direct_append_table hsmall] at hk
  rw [Inode.contents, Inode.contents, htable] at hcontents
  have hsame := congrArg (·[512 * k]?) hcontents
  simp only [List.getElem?_take_of_lt (show 512 * k < (d.inode j).size by omega), hbyte] at hsame
  have hnew : (d.setInode 1023 ino 1034).byte 0 = Block.byteOf ino.type 0 := by
    rw [Disk.setInode, show iblock 1023 = 1034 from rfl, Function.update_self, Inode.write,
      Block.byte_gen _ (by decide), if_pos (by decide)]
  have hzero := congrArg UInt8.toNat (hnew.symm.trans (Option.some_inj.1 hsame))
  rw [Block.toNat_byteOf] at hzero
  rw [Block.short] at hshort
  omega

/-! ## Creating -/

/-- A new file has been made, or there is a message that says that it has not. -/
def Creates (env : Env) (d : Disk) (σ : Store) (type : Nat) : Prop :=
  ∃ r d', exec (serve env (.create type)) d = .ok (r, d') ∧ (r.status ≠ statusOk ∨
    ∃ i, r = .id i ∧ (1 ≤ i ∧ i < inodeNum) ∧ σ i = none ∧
      (∃ a, exec (getattr i) d' = .ok (a, d') ∧ a.type = type ∧ a.size = 0) ∧
      (∀ env', ∃ d'', exec (readFile env' i) d' = .ok (some [], d'')) ∧
      ∀ j f, σ j = some f → ∀ env', ∃ d'', exec (readFile env' j) d' = .ok (some f.data, d''))

/-- The first data block is not in use, and is an empty free inode if one takes it for an inode. -/
def Spare (d : Disk) : Prop :=
  d.used 1034 = false ∧ (d.inode 1023).type = 0 ∧ (d.inode 1023).size = 0

/-- A reply to `create` that creates something is a success. -/
theorem serve_create (env : Env) (type : Nat) {i : Nat}
    (h : exec (allocInode env type) d = .ok (i, d')) :
    exec (serve env (.create type)) d = .ok (.id i, d') :=
  exec_map Ret.reply (exec_map Ret.inum h)

theorem creates_of_firstFree (h : Rep d σ) (env : Env) {type : Nat}
    (htype : type ∈ [tDir, tFile, tSymlink]) (hfree : σ.firstFree = some i) :
    Creates env d σ type := by
  obtain ⟨hx, hrep⟩ := h.allocInode env htype hfree
  obtain ⟨hi, hi'⟩ := Store.firstFree_bounds hfree
  have hnew : Function.update σ i (some (⟨type, []⟩ : File)) i = some ⟨type, []⟩ :=
    Function.update_self ..
  refine ⟨_, _, serve_create env type hx, Or.inr ⟨i, rfl, ⟨hi.1, by simp only [inodeNum]; omega⟩,
    hi', ⟨_, hrep.getattr hnew, rfl, rfl⟩, fun env' ↦ ⟨_, (hrep.readFile env' hnew).1⟩,
    fun j f hf env' ↦ ⟨_, (hrep.readFile env' ?_).1⟩⟩⟩
  rw [Function.update_of_ne, hf]
  rintro rfl
  exact absurd (hf.symm.trans hi') (by simp)

theorem creates_of_spare (h : Rep d σ) (env : Env) {type : Nat}
    (htype : type ∈ [tDir, tFile, tSymlink]) (hfull : σ.firstFree = none) (hspare : Spare d) :
    Creates env d σ type := by
  obtain ⟨hunused, hfree, hsize⟩ := hspare
  have hx := exec_allocInode_full (fun i ↦ h.type_ne_zero hfull) env type
  rw [if_pos hfree] at hx
  have hbounds := type_bounds htype
  have hrep := h.unused (b := 1034) ⟨le_rfl, by decide⟩ hunused fun x hx ↦
    Disk.setInode_of_ne (d := d) (i := 1023)
      { d.inode 1023 with type := type, ctime := env.now } hx
  obtain ⟨htype', hsize'⟩ := Disk.inode_made (d := d) 1023 env.now hbounds.2
  rw [hsize] at hsize'
  generalize d.setInode 1023 { d.inode 1023 with type := type, ctime := env.now } = d' at *
  have hlive : (d'.inode 1023).type ≠ 0 := by omega
  obtain ⟨howned, hcontents⟩ := Inode.owned_of_size_zero (d := d') hsize'
  refine ⟨_, _, serve_create env type hx, Or.inr ⟨1023, rfl, by decide, ?_, ?_, fun env' ↦ ?_,
    fun j f hf env' ↦ ⟨_, (hrep.readFile env' hf).1⟩⟩⟩
  · cases hσ : σ 1023 with
    | none => rfl
    | some f => exact absurd (h.inum 1023 f hσ).2 (by decide)
  · refine ⟨_, exec_getattr_live (by decide) hlive, ?_, hsize'⟩
    simp only
    rw [htype', uintOfShort, if_pos (by omega)]
  · rw [← hcontents]
    exact ⟨_, exec_readFile env' (by decide) hlive (by omega) (by rw [howned]; simp)⟩

/-- **When an inode is new.**  In a session, where all contents have fitted, a `create` makes a new
file and spoils none if and only if there is a free inode in the table, or the first data block can
pass for one. -/
theorem create_fresh_iff (env env₀ : Env) (calls : List (Env × Call)) (d : Disk) (σ : Store)
    (hs : Session env₀ calls d σ) (type : Nat) (htype : type ∈ [tDir, tFile, tSymlink]) :
    Creates env d σ type ↔ σ.firstFree.isSome = true ∨ Spare d := by
  have hrep := hs.rep
  cases hfirst : σ.firstFree with
  | some i =>
    simp only [Option.isSome_some, true_or, iff_true]
    exact creates_of_firstFree hrep env htype hfirst
  | none =>
    simp only [Option.isSome_none, Bool.false_eq_true, false_or]
    refine ⟨fun hcreates ↦ ?_, creates_of_spare hrep env htype hfirst⟩
    have hlive : ∀ i, 1 ≤ i → i ≤ 1022 → (d.inode i).type ≠ 0 := fun i ↦ hrep.type_ne_zero hfirst
    have hx := exec_allocInode_full hlive env type
    obtain ⟨r, d', hserve, hstatus | ⟨i, rfl, -, hnew, ⟨a, hattr, -, hsize⟩, -, hkeep⟩⟩ := hcreates
    · exact absurd rfl hstatus
    split at hx
    · rename_i hfree
      obtain ⟨hi, rfl⟩ := Prod.mk.inj (Except.ok.inj ((serve_create env type hx).symm.trans hserve))
      obtain rfl : 1023 = i := Reply.id.inj hi
      have hbounds := type_bounds htype
      obtain ⟨htype', hsize'⟩ := Disk.inode_made (d := d) 1023 env.now hbounds.2
      refine ⟨?_, hfree, ?_⟩
      · by_contra hused
        obtain ⟨j, f, hf, hspoilt⟩ := hrep.exists_spoilt (Bool.not_eq_false _ ▸ hused) hfree
          { d.inode 1023 with type := type, ctime := env.now } hbounds
        obtain ⟨d'', hread⟩ := hkeep j f hf default
        exact hspoilt default d'' hread
      · rw [exec_getattr_live (by decide) (by omega)] at hattr
        obtain ⟨rfl, -⟩ := Prod.mk.inj (Except.ok.inj hattr)
        exact hsize'.symm.trans hsize
    · obtain ⟨hi, rfl⟩ := Prod.mk.inj (Except.ok.inj ((serve_create env type hx).symm.trans hserve))
      obtain rfl : 1 = i := Reply.id.inj hi
      have hzero := (hrep.type_eq_zero_iff (i := 1) (by decide)).2 (by simp [hnew])
      exact absurd hzero (hlive 1 le_rfl (by decide))

/-- The first file on a new disk. -/
theorem create_fresh_init : ∃ d, Session default [] d .init ∧ Creates default d .init tFile := by
  obtain ⟨d, hs, -⟩ := exists_session default [] rfl
  exact ⟨d, hs, (create_fresh_iff default default [] d .init hs tFile (by decide)).2
    (Or.inl (by decide))⟩

/-- **The root directory once more.**  1021 files have been made, and the table is full.  After one
more `create`, whatever it returns, the next one returns 1. -/
theorem create_returns_root : ∃ calls d σ r d₁, Session default calls d σ ∧
    exec (serve default (.create tFile)) d = .ok (r, d₁) ∧
    exec (serve default (.create tFile)) d₁ = .ok (.id 1, d₁) ∧ σ 1 = some ⟨tDir, []⟩ := by
  obtain ⟨calls, d, hs⟩ := exists_session_filled [] 1021 (by decide) le_rfl (by decide)
  have hlive : ∀ i, 1 ≤ i → i ≤ 1022 → (d.inode i).type ≠ 0 := fun i ↦
    hs.rep.type_ne_zero Store.firstFree_filled_last
  have hx := exec_allocInode_full hlive default tFile
  by_cases hfree : (d.inode 1023).type = 0
  · rw [if_pos hfree] at hx
    refine ⟨_, d, _, _, _, hs, serve_create default tFile hx, ?_, Store.filled_root⟩
    refine serve_create default tFile ?_
    rw [exec_allocInode_full, if_neg]
    · rw [(Disk.inode_made (d := d) 1023 _ (by decide)).1]
      decide
    · intro i h₁ h₂
      rw [Disk.inode_setInode_of_ne (d := d) _ (by omega)]
      exact hlive i h₁ h₂
  · rw [if_neg hfree] at hx
    exact ⟨_, d, _, _, d, hs, serve_create default tFile hx, serve_create default tFile hx,
      Store.filled_root⟩

/-! ## Using

The calls that the server makes with a number that a client has sent. -/

/-- What one can do with an inode. -/
inductive Access where
  | get
  | put (buf : List UInt8)
  | getattr
  | remove
  | freeInode
  deriving DecidableEq

namespace Access

/-- The request, or the call of `free_inode`. -/
def run (env : Env) (id : Nat) : Access → DiskM Unit
  | get => (fun _ ↦ ()) <$> serve env (.get id)
  | put buf => (fun _ ↦ ()) <$> serve env (.put id buf)
  | getattr => (fun _ ↦ ()) <$> serve env (.getattr id)
  | remove => (fun _ ↦ ()) <$> serve env (.remove id)
  | freeInode => Extent.freeInode (inumOf id)

/-- Does the code look whether `get_inode` has returned null? -/
def checked : Access → Bool
  | get | getattr | remove => true
  | put _ | freeInode => false

end Access

/-- The call comes to its end, and the disk is the same. -/
def Harmless (d : Disk) (id : Nat) (a : Access) : Prop :=
  ∀ env, exec (a.run env id) d = .ok ((), d)

theorem harmless_of_none {id : Nat} (h : inumOf id < 1024 → (d.inode (inumOf id)).type = 0)
    (a : Access) : Harmless d id a ↔ a.checked = true := by
  have hnull := exec_getInode_none h
  cases a with
  | get =>
    have hread : ∀ env, exec (readFile env (inumOf id)) d = .ok (none, d) := fun env ↦ by
      rw [readFile, exec_bind hnull, exec_pure]
    exact iff_of_true
      (fun env ↦ exec_map _ (exec_map Ret.reply (exec_map Ret.bytes (hread env)))) rfl
  | put buf =>
    refine iff_of_false (fun hharmless ↦ ?_) (by simp [Access.checked])
    have hx := hharmless default
    simp only [Access.run, serve, perform, Request.call, exec_map_eq_ok] at hx
    obtain ⟨_, ⟨_, ⟨⟨⟩, hx, -⟩, -⟩, -⟩ := hx
    rw [writeFile, exec_bind hnull] at hx
    exact absurd hx (by simp)
  | getattr =>
    have hget : exec (getattr (inumOf id)) d = .ok ({}, d) := by
      rw [getattr, exec_bind hnull, exec_pure]
    exact iff_of_true (fun env ↦ exec_map _ (exec_map Ret.reply (exec_map Ret.attr hget))) rfl
  | remove =>
    have hremove : ∀ env, exec (removeFile env (inumOf id)) d = .ok ((), d) := fun env ↦ by
      rw [removeFile, exec_bind hnull, exec_pure]
    exact iff_of_true
      (fun env ↦ exec_map _ (exec_map Ret.reply (exec_map (fun _ ↦ Ret.done) (hremove env)))) rfl
  | freeInode =>
    refine iff_of_false (fun hharmless ↦ ?_) (by simp [Access.checked])
    have hx := hharmless default
    rw [Access.run, freeInode, exec_bind hnull] at hx
    exact absurd hx (by simp)

/-! An inode that is in use, or looks as if it were, is different after all the calls that change
something. -/

theorem type_of_freeInode (hi : i < 1024) (h : exec (freeInode i) d = .ok ((), d')) :
    (d'.inode i).type = 0 := by
  rw [exec_freeInode hi] at h
  split at h
  · exact absurd h (by simp)
  · obtain ⟨-, rfl⟩ := Prod.mk.inj (Except.ok.inj h)
    rw [Disk.inode_setInode, Inode.read_write_type]
    rfl

theorem type_of_removeFile (hi : i < 1024) (hlive : (d.inode i).type ≠ 0)
    (h : exec (removeFile env i) d = .ok ((), d')) : (d'.inode i).type = 0 := by
  rw [removeFile, exec_bind (exec_getInode_live hi hlive)] at h
  obtain ⟨⟨⟩, d₁, -, h⟩ := exec_bind_eq_ok.1 h
  obtain ⟨⟨⟩, d₂, -, h⟩ := exec_bind_eq_ok.1 h
  exact type_of_freeInode hi h

theorem atime_of_readFile (hi : i < 1024) (hlive : (d.inode i).type ≠ 0) {r : Option (List UInt8)}
    (h : exec (readFile env i) d = .ok (r, d')) : (d'.inode i).atime = env.now % 2 ^ 32 := by
  rw [readFile, exec_bind (exec_getInode_live hi hlive)] at h
  obtain ⟨_, d₁, -, h⟩ := exec_bind_eq_ok.1 h
  obtain ⟨_, d₂, -, h⟩ := exec_bind_eq_ok.1 h
  rw [exec_bind (exec_putInode hi _), exec_pure] at h
  obtain ⟨-, rfl⟩ := Prod.mk.inj (Except.ok.inj h)
  rw [Disk.inode_setInode, Inode.read_write_atime]

theorem mtime_of_writeFile (hi : i < 1024) (hlive : (d.inode i).type ≠ 0) {buf : List UInt8}
    (h : exec (writeFile env i buf) d = .ok ((), d')) : (d'.inode i).mtime = env.now % 2 ^ 32 := by
  rw [writeFile, exec_bind (exec_getInode_live hi hlive)] at h
  obtain ⟨⟨⟩, d₁, -, h⟩ := exec_bind_eq_ok.1 h
  obtain ⟨⟨⟩, d₂, -, h⟩ := exec_bind_eq_ok.1 h
  obtain ⟨ino, d₃, -, h⟩ := exec_bind_eq_ok.1 h
  obtain ⟨⟨⟩, d₄, -, h⟩ := exec_bind_eq_ok.1 h
  rw [exec_putInode hi] at h
  obtain ⟨-, rfl⟩ := Prod.mk.inj (Except.ok.inj h)
  rw [Disk.inode_setInode, Inode.read_write_mtime]

/-- A time at which it is not the time that a clock of 32 bits shows. -/
theorem exists_now (t : Nat) : ∃ env : Env, env.now % 2 ^ 32 ≠ t :=
  ⟨⟨t + 1, .zero, fun _ ↦ 0⟩, by simp only; omega⟩

theorem harmless_of_live {id : Nat} (hi : inumOf id < 1024) (hlive : (d.inode (inumOf id)).type ≠ 0)
    (a : Access) : Harmless d id a ↔ a = .getattr := by
  cases a with
  | get =>
    refine iff_of_false (fun hharmless ↦ ?_) (by simp)
    obtain ⟨env, henv⟩ := exists_now (d.inode (inumOf id)).atime
    have hx := hharmless env
    simp only [Access.run, serve, perform, Request.call, exec_map_eq_ok] at hx
    obtain ⟨_, ⟨_, ⟨r, hx, -⟩, -⟩, -⟩ := hx
    exact henv (atime_of_readFile hi hlive hx).symm
  | put buf =>
    refine iff_of_false (fun hharmless ↦ ?_) (by simp)
    obtain ⟨env, henv⟩ := exists_now (d.inode (inumOf id)).mtime
    have hx := hharmless env
    simp only [Access.run, serve, perform, Request.call, exec_map_eq_ok] at hx
    obtain ⟨_, ⟨_, ⟨⟨⟩, hx, -⟩, -⟩, -⟩ := hx
    exact henv (mtime_of_writeFile hi hlive hx).symm
  | getattr =>
    refine iff_of_true (fun env ↦ ?_) rfl
    exact exec_map _ (exec_map Ret.reply (exec_map Ret.attr (exec_getattr_live hi hlive)))
  | remove =>
    refine iff_of_false (fun hharmless ↦ ?_) (by simp)
    have hx := hharmless default
    simp only [Access.run, serve, perform, Request.call, exec_map_eq_ok] at hx
    obtain ⟨_, ⟨_, ⟨⟨⟩, hx, -⟩, -⟩, -⟩ := hx
    exact hlive (type_of_removeFile hi hlive hx)
  | freeInode =>
    refine iff_of_false (fun hharmless ↦ ?_) (by simp)
    exact hlive (type_of_freeInode hi (hharmless default))

/-! ### Inode 0 -/

/-- No call on a file writes to the block with inode 0. -/
theorem Rep.perform_inode_zero (h : Rep d σ) {c : Call} {r : Ret} (hs : σ.step c = some (r, σ')) :
    ∃ r' d', exec (Extent.perform env c) d = .ok (r', d') ∧ r'.untimed = r ∧ Rep d' σ' ∧
      d' (iblock 0) = d (iblock 0) := by
  obtain ⟨r', d', hx, hr, hrep⟩ := h.perform env hs
  refine ⟨r', d', hx, hr, hrep, ?_⟩
  have hne : ∀ {j}, 1 ≤ j → iblock 0 ≠ iblock j := by
    intro j hj
    rw [iblock_eq, iblock_eq]
    omega
  cases c with
  | allocInode type =>
    obtain ⟨htype, i, hi, -, -⟩ := Store.of_allocInode hs
    obtain ⟨a, hx, -⟩ := exec_map_eq_ok.1 hx
    obtain ⟨-, rfl⟩ := Prod.mk.inj (Except.ok.inj ((h.allocInode env htype hi).1.symm.trans hx))
    exact Disk.setInode_of_ne _ (hne (Store.firstFree_bounds hi).1.1)
  | writeFile i buf =>
    obtain ⟨f, hf, hlen, hload, -, rfl⟩ := Store.of_writeFile hs
    obtain ⟨⟨⟩, hx, -⟩ := exec_map_eq_ok.1 hx
    obtain ⟨d'', hx', -, hframe⟩ := h.writeFile env hf hlen hload
    obtain ⟨-, rfl⟩ := Prod.mk.inj (Except.ok.inj (hx'.symm.trans hx))
    exact hframe _ (by decide) (by decide) (hne (h.inum i f hf).1)
  | readFile i =>
    obtain ⟨f, hf, -⟩ := Option.map_eq_some_iff.1 hs
    obtain ⟨a, hx, -⟩ := exec_map_eq_ok.1 hx
    obtain ⟨-, rfl⟩ := Prod.mk.inj (Except.ok.inj ((h.readFile env hf).1.symm.trans hx))
    exact Disk.setInode_of_ne _ (hne (h.inum i f hf).1)
  | getattr i =>
    obtain ⟨f, hf, -⟩ := Option.map_eq_some_iff.1 hs
    obtain ⟨a, hx, -⟩ := exec_map_eq_ok.1 hx
    obtain ⟨-, rfl⟩ := Prod.mk.inj (Except.ok.inj ((h.getattr hf).symm.trans hx))
    rfl
  | removeFile i =>
    obtain ⟨f, hf, -⟩ := Option.map_eq_some_iff.1 hs
    obtain ⟨⟨⟩, hx, -⟩ := exec_map_eq_ok.1 hx
    obtain ⟨d'', hx', -, hframe⟩ := h.removeFile env hf
    obtain ⟨-, rfl⟩ := Prod.mk.inj (Except.ok.inj (hx'.symm.trans hx))
    exact hframe _ (by decide) (by decide) (hne (h.inum i f hf).1)

theorem Session.inode_zero {calls : List (Env × Call)} (h : Session env calls d σ) :
    (d.inode 0).type = 0 := by
  obtain ⟨⟨rs, hs⟩, rets, hx⟩ := h
  obtain ⟨d₀, hx₀, hrep₀, hzero⟩ := exec_inodeManager env
  obtain ⟨rets', d', hx', -, -, hd'⟩ := performAll_induction
    (P := fun d σ ↦ Rep d σ ∧ d (iblock 0) = .zero)
    (fun hP hstep ↦ by
      obtain ⟨r', d', hx, hr, hrep, hsame⟩ := hP.1.perform_inode_zero hstep
      exact ⟨r', d', hx, hr, hrep, hsame.trans hP.2⟩)
    calls ⟨hrep₀, hzero _ (by decide) (by decide)⟩ hs
  rw [exec_bind hx₀, hx'] at hx
  obtain ⟨-, rfl⟩ := Prod.mk.inj (Except.ok.inj hx)
  rw [Disk.inode, hd']
  decide +kernel

/-- **A missing inode.**  In a session, where all contents have fitted, a call with the number of an
inode that is not in use does nothing if and only if it is one of those that look at the result of
`get_inode`, and, if the number is 1023, the first data block looks like a free inode (`getattr`
does not change anything in any case). -/
theorem harmless_iff (env₀ : Env) (calls : List (Env × Call)) (d : Disk) (σ : Store)
    (hs : Session env₀ calls d σ) (id : Nat) (hmissing : σ (inumOf id) = none) (a : Access) :
    Harmless d id a ↔ a.checked = true ∧
      (a = .getattr ∨ inumOf id ≠ 1023 ∨ (d.inode 1023).type = 0) := by
  by_cases hlive : inumOf id = 1023 ∧ (d.inode 1023).type ≠ 0
  · rw [harmless_of_live (by omega) (by rw [hlive.1]; exact hlive.2)]
    constructor
    · rintro rfl
      exact ⟨rfl, Or.inl rfl⟩
    · rintro ⟨-, ha | hne | hfree⟩
      · exact ha
      · exact absurd hlive.1 hne
      · exact absurd hfree hlive.2
  · rw [harmless_of_none]
    · refine (and_iff_left (Or.inr ?_)).symm
      rwa [not_and_or, not_not] at hlive
    · intro hlt
      rcases Nat.eq_zero_or_pos (inumOf id) with hz | hpos
      · rw [hz]
        exact hs.inode_zero
      · by_cases hlast : inumOf id = 1023
        · rw [hlast]
          by_contra htype
          exact hlive ⟨hlast, htype⟩
        · exact (hs.rep.free _ hpos (by omega) hmissing).1

/-- A file that does not exist is removed. -/
theorem harmless_remove : ∃ d, Session default [] d .init ∧ Harmless d 2 .remove := by
  obtain ⟨d, hs, -⟩ := exists_session default [] rfl
  refine ⟨d, hs, (harmless_iff default [] d .init hs 2 rfl .remove).2 ⟨rfl, Or.inr (Or.inl ?_)⟩⟩
  decide

/-- A file that does not exist is written to: the result of `get_inode` is dereferenced. -/
theorem put_missing : ∃ d, Session default [] d .init ∧ Store.init (inumOf 2) = none ∧
    exec (serve default (.put 2 [7])) d = .error .nullInode := by
  obtain ⟨d, hs, hrep⟩ := exists_session default [] rfl
  refine ⟨d, hs, rfl, ?_⟩
  have hnull : exec (getInode 2) d = .ok (none, d) :=
    exec_getInode_none fun _ ↦ (hrep.free 2 (by decide) (by decide) rfl).1
  have hthrow : exec (writeFile default 2 [7]) d = .error .nullInode := by
    rw [writeFile, exec_bind hnull, exec_throw]
  exact exec_map_eq_error.2 (exec_map_eq_error.2 hthrow)

end Extent
end Yfs
