import Yfs.Extent.Write

/-!
# The extent server is a map of files

Formatting makes a disk that holds the root directory (`exec_inodeManager`), and every call takes a
disk that holds some files to one that holds the files it should (`Rep.perform`).  So a whole
session returns what the map says (`serve_refines`), and its bitmap is exact at every moment
(`blocks_accounted`).

The inode table is not as safe as it should be.  Formatting reserves the blocks 0 to 1033, but inode
1023 is in block 1034: the first file that is given contents gets that block.
-/

set_option autoImplicit false

namespace Yfs
namespace Extent

open Machine

variable {d d' : Disk} {σ σ' : Store} {env : Env}

/-! ## Formatting -/

theorem used_blank (b : Nat) : blank.used b = false := by
  rw [Disk.used, Block.bit_eq]
  simp only [blank, Block.zero]
  rw [Block.byte_gen _ (by have := Disk.mod_lt_bpb b; omega)]
  exact Nat.zero_testBit _

theorem exec_blockManager :
    ∃ d, exec blockManager blank = .ok ((), d) ∧ Disk.SameData blank d ∧
      ∀ b, b < blockNum → (d.used b = true ↔ b < 1034) := by
  have h := exec_allocTimes 1034 0 (by decide) blank (by simp [used_blank])
  simp only [Nat.zero_add] at h
  exact h

/-- A disk that has just been formatted holds no files. -/
theorem rep_empty (hsame : Disk.SameData blank d)
    (hused : ∀ b, b < blockNum → (d.used b = true ↔ b < 1034)) : Rep d (fun _ ↦ none) := by
  refine ⟨by simp, fun i h₁ h₂ _ ↦ ?_, by simp, by simp, fun b hb ↦ by simp [hused b hb]⟩
  rw [Disk.inode, hsame _ (Or.inr (by rw [iblock_eq]; omega))]
  simp [blank, Inode.read, Block.word, Block.short, Block.zero]

/-- **Formatting** makes a disk that holds the root directory, and writes to no other inode and to
no data block. -/
theorem exec_inodeManager (env : Env) :
    ∃ d, exec (inodeManager env) blank = .ok ((), d) ∧ Rep d .init ∧
      ∀ x, 10 ≤ x → x ≠ iblock 1 → d x = .zero := by
  obtain ⟨d, he, hsame, hused⟩ := exec_blockManager
  obtain ⟨hroot, hrep⟩ := (rep_empty hsame hused).allocInode env
    (show tDir ∈ [tDir, tFile, tSymlink] by simp) (show Store.firstFree _ = some 1 by decide)
  refine ⟨_, ?_, hrep, fun x hx hne ↦ ?_⟩
  · rw [inodeManager, exec_bind he, exec_bind hroot]
    rfl
  · rw [Disk.setInode_of_ne _ hne, hsame x (Or.inr hx), blank]

/-! ## Calls -/

/-- **Every call does what it does to the map.** -/
theorem Rep.perform (h : Rep d σ) (env : Env) {c : Call} {r : Ret} (hs : σ.step c = some (r, σ')) :
    ∃ r' d', exec (perform env c) d = .ok (r', d') ∧ r'.untimed = r ∧ Rep d' σ' := by
  cases c with
  | allocInode type =>
    obtain ⟨htype, i, hi, rfl, rfl⟩ := Store.of_allocInode hs
    obtain ⟨hx, hrep⟩ := h.allocInode env htype hi
    exact ⟨_, _, exec_map Ret.inum hx, rfl, hrep⟩
  | writeFile i buf =>
    obtain ⟨f, hf, hlen, hload, rfl, rfl⟩ := Store.of_writeFile hs
    obtain ⟨d', hx, hrep, -⟩ := h.writeFile env hf hlen hload
    exact ⟨_, d', exec_map (fun _ ↦ Ret.done) hx, rfl, hrep⟩
  | readFile i =>
    simp only [Store.step, Option.map_eq_some_iff] at hs
    obtain ⟨f, hf, he⟩ := hs
    obtain ⟨rfl, rfl⟩ := Prod.mk.inj he
    obtain ⟨hx, hrep⟩ := h.readFile env hf
    exact ⟨_, _, exec_map Ret.bytes hx, rfl, hrep⟩
  | getattr i =>
    simp only [Store.step, Option.map_eq_some_iff] at hs
    obtain ⟨f, hf, he⟩ := hs
    obtain ⟨rfl, rfl⟩ := Prod.mk.inj he
    exact ⟨_, _, exec_map Ret.attr (h.getattr hf), rfl, h⟩
  | removeFile i =>
    simp only [Store.step, Option.map_eq_some_iff] at hs
    obtain ⟨f, hf, he⟩ := hs
    obtain ⟨rfl, rfl⟩ := Prod.mk.inj he
    obtain ⟨d', hx, hrep, -⟩ := h.removeFile env hf
    exact ⟨_, d', exec_map (fun _ ↦ Ret.done) hx, rfl, hrep⟩

/-- **What every call keeps, a sequence of calls keeps.** -/
theorem performAll_induction {P : Disk → Store → Prop}
    (hstep : ∀ {env c d σ r σ'}, P d σ → σ.step c = some (r, σ') →
      ∃ r' d', exec (perform env c) d = .ok (r', d') ∧ r'.untimed = r ∧ P d' σ')
    (calls : List (Env × Call)) (h : P d σ) {rs : List Ret}
    (hs : σ.run (calls.map Prod.snd) = some (rs, σ')) :
    ∃ rets d', exec (performAll calls) d = .ok (rets, d') ∧
      rets.map Ret.untimed = rs ∧ P d' σ' := by
  induction calls generalizing d σ rs with
  | nil =>
    obtain ⟨rfl, rfl⟩ := Prod.mk.inj (Option.some_inj.1 hs)
    exact ⟨[], d, rfl, rfl, h⟩
  | cons c calls ih =>
    obtain ⟨env, c⟩ := c
    simp only [List.map_cons, Store.run, Option.bind_eq_bind, Option.bind_eq_some_iff] at hs
    obtain ⟨⟨r, σ₁⟩, hstep₁, ⟨rs', σ₂⟩, hrun, he⟩ := hs
    obtain ⟨rfl, rfl⟩ := Prod.mk.inj (Option.some_inj.1 he)
    obtain ⟨ret, d₁, hx₁, hret, hrep₁⟩ := hstep h hstep₁
    obtain ⟨rets, d₂, hx₂, hrets, hrep₂⟩ := ih hrep₁ hrun
    refine ⟨ret :: rets, d₂, ?_, by rw [List.map_cons, hret, hrets], hrep₂⟩
    rw [Extent.performAll, exec_bind hx₁, exec_bind hx₂, exec_pure]

theorem Rep.performAll (calls : List (Env × Call)) (h : Rep d σ) {rs : List Ret}
    (hs : σ.run (calls.map Prod.snd) = some (rs, σ')) :
    ∃ rets d', exec (performAll calls) d = .ok (rets, d') ∧ rets.map Ret.untimed = rs ∧
      Rep d' σ' :=
  performAll_induction (fun hrep hstep ↦ hrep.perform _ hstep) calls h hs

/-- Serving requests is executing their calls. -/
theorem exec_serveAll {reqs : List (Env × Request)} {rets : List Ret}
    (h : exec (performAll (reqs.map fun q ↦ (q.1, q.2.call))) d = .ok (rets, d')) :
    exec (serveAll reqs) d = .ok (rets.map Ret.reply, d') := by
  induction reqs generalizing d rets with
  | nil =>
    obtain ⟨rfl, rfl⟩ := Prod.mk.inj (Except.ok.inj h)
    rfl
  | cons q reqs ih =>
    obtain ⟨env, q⟩ := q
    rw [List.map_cons, performAll, exec_bind_eq_ok] at h
    obtain ⟨ret, d₁, hx₁, h⟩ := h
    rw [exec_bind_eq_ok] at h
    obtain ⟨rets', d₂, hx₂, h⟩ := h
    obtain ⟨rfl, rfl⟩ := Prod.mk.inj (Except.ok.inj h)
    have hx₁' : exec (serve env q) d = .ok (ret.reply, d₁) := exec_map Ret.reply hx₁
    rw [serveAll, exec_bind hx₁', exec_bind (ih hx₂), exec_pure, List.map_cons]

/-- A reply without the time stamps in it. -/
def Reply.untimed : Reply → Reply
  | .attr a => .attr { type := a.type, size := a.size }
  | r => r

theorem Ret.untimed_reply (r : Ret) : r.reply.untimed = r.untimed.reply := by
  cases r <;> rfl

/-- A sequence of requests does to the files what it does to the map. -/
theorem Rep.serveAll (reqs : List (Env × Request)) (h : Rep d σ) {rs : List Ret}
    (hs : σ.run (reqs.map fun q ↦ q.2.call) = some (rs, σ')) :
    ∃ replies d', exec (serveAll reqs) d = .ok (replies, d') ∧
      replies.map Reply.untimed = rs.map Ret.reply ∧ Rep d' σ' := by
  obtain ⟨rets, d', hx, hrets, hrep⟩ := h.performAll
    (reqs.map fun q ↦ (q.1, q.2.call)) (by rw [List.map_map]; exact hs)
  refine ⟨rets.map Ret.reply, d', exec_serveAll hx, ?_, hrep⟩
  rw [← hrets, List.map_map, List.map_map]
  exact List.map_congr_left fun r _ ↦ r.untimed_reply

/-- **The extent server is a map of files.**  For every sequence of requests for which the map says
what should happen, the server, started on a blank disk, replies what the map says, and in the end
the disk holds the files of the map. -/
theorem serve_refines (env : Env) (reqs : List (Env × Request)) {rs : List Ret}
    (hs : Store.init.run (reqs.map fun q ↦ q.2.call) = some (rs, σ)) :
    ∃ replies d, exec (do inodeManager env; serveAll reqs) blank = .ok (replies, d) ∧
      replies.map Reply.untimed = rs.map Ret.reply ∧ Rep d σ := by
  obtain ⟨d₀, hx₀, hrep₀, -⟩ := exec_inodeManager env
  obtain ⟨replies, d, hx, hreplies, hrep⟩ := hrep₀.serveAll reqs hs
  exact ⟨replies, d, by rw [exec_bind hx₀, hx], hreplies, hrep⟩

/-- A session: a file is made, written, read and looked at. -/
def sampleRequests : List Request :=
  [.create tFile, .put 2 [104, 105], .get (2 ^ 31 + 2), .getattr 2, .remove 2, .create tSymlink]

/-- What the map says about it. -/
theorem run_sampleRequests :
    (Store.init.run (sampleRequests.map Request.call)).map Prod.fst
      = some [.inum 2, .done, .bytes (some [104, 105]), .attr { type := tFile, size := 2 }, .done,
        .inum 2] := by
  decide +kernel

theorem serve_refines_sample :
    ∃ replies d,
      exec (do inodeManager default; serveAll (sampleRequests.map (Prod.mk default))) blank
        = .ok (replies, d) ∧
      replies.map Reply.untimed = [.id 2, .ok, .content [104, 105],
        .attr { type := tFile, size := 2 }, .ok, .id 2] := by
  obtain ⟨⟨rs, σ⟩, hrun, hrs⟩ := Option.map_eq_some_iff.1 run_sampleRequests
  obtain ⟨replies, d, hx, hr, -⟩ := serve_refines default (sampleRequests.map (Prod.mk default))
    (by rw [List.map_map]; exact hrun)
  refine ⟨replies, d, hx, ?_⟩
  rw [hr, show rs = _ from hrs]
  rfl

/-! ## Accounting -/

/-- A session with the inode manager: calls for which the map says what should happen, executed on a
blank disk one at a time, have led to the disk `d` and the files `σ`. -/
def Session (env : Env) (calls : List (Env × Call)) (d : Disk) (σ : Store) : Prop :=
  (∃ rs, Store.init.run (calls.map Prod.snd) = some (rs, σ)) ∧
    ∃ rets, exec (do inodeManager env; performAll calls) blank = .ok (rets, d)

theorem exists_session (env : Env) (calls : List (Env × Call)) {rs : List Ret}
    (hs : Store.init.run (calls.map Prod.snd) = some (rs, σ)) :
    ∃ d, Session env calls d σ ∧ Rep d σ := by
  obtain ⟨d₀, hx₀, hrep₀, -⟩ := exec_inodeManager env
  obtain ⟨rets, d, hx, -, hrep⟩ := hrep₀.performAll calls hs
  exact ⟨d, ⟨⟨rs, hs⟩, rets, by rw [exec_bind hx₀, hx]⟩, hrep⟩

theorem Session.rep {calls : List (Env × Call)} (h : Session env calls d σ) : Rep d σ := by
  obtain ⟨⟨rs, hs⟩, rets, hx⟩ := h
  obtain ⟨d', ⟨-, rets', hx'⟩, hrep⟩ := exists_session env _ hs
  obtain ⟨-, rfl⟩ := Prod.mk.inj (Except.ok.inj (hx.symm.trans hx'))
  exact hrep

/-- **Every block is accounted for.**  However far a session has got, the bitmap marks the blocks 0
to 1033 and the blocks that the live inodes own, and no others; no block is owned twice; and every
block that is owned is a data block. -/
theorem blocks_accounted (env : Env) (calls : List (Env × Call)) {rs : List Ret}
    (hs : Store.init.run (calls.map Prod.snd) = some (rs, σ)) :
    ∃ rets d, exec (do inodeManager env; performAll calls) blank = .ok (rets, d) ∧
      (∀ i, 1 ≤ i → i ≤ 1022 → ((d.inode i).type ≠ 0 ↔ (σ i).isSome = true)) ∧
      (∀ b, b < blockNum → (d.used b = true ↔
        b < 1034 ∨ ∃ i, (σ i).isSome = true ∧ b ∈ (d.inode i).owned d)) ∧
      (∀ i, (σ i).isSome = true → ((d.inode i).owned d).Nodup ∧
        ∀ b ∈ (d.inode i).owned d, 1034 ≤ b ∧ b < blockNum) ∧
      ∀ i j, (σ i).isSome = true → (σ j).isSome = true → i ≠ j →
        ((d.inode i).owned d).Disjoint ((d.inode j).owned d) := by
  obtain ⟨d, ⟨-, rets, hx⟩, hrep⟩ := exists_session env _ hs
  refine ⟨rets, d, hx, fun i h₁ h₂ ↦ ?_, fun b hb ↦ ?_, fun i hi ↦ ?_, fun i j hi hj hne ↦ ?_⟩
  · rw [ne_eq, hrep.type_eq_zero_iff ⟨h₁, h₂⟩]
    cases σ i <;> simp
  · rw [hrep.used b hb]
    simp only [Option.isSome_iff_exists, exists_and_right]
  · obtain ⟨f, hf⟩ := Option.isSome_iff_exists.1 hi
    exact ⟨(hrep.file i f hf).nodup, (hrep.file i f hf).data⟩
  · obtain ⟨f, hf⟩ := Option.isSome_iff_exists.1 hi
    obtain ⟨g, hg⟩ := Option.isSome_iff_exists.1 hj
    exact hrep.disjoint i j f g hf hg hne

theorem blocks_accounted_sample :
    ∃ rets d, exec (do
        inodeManager default
        performAll (sampleRequests.map fun q ↦ (default, q.call))) blank = .ok (rets, d) ∧
      ∀ i j, 1 ≤ i ∧ i ≤ 1022 → 1 ≤ j ∧ j ≤ 1022 → (d.inode i).type ≠ 0 → (d.inode j).type ≠ 0 →
        i ≠ j → ((d.inode i).owned d).Disjoint ((d.inode j).owned d) := by
  obtain ⟨⟨rs, σ⟩, hrun, -⟩ := Option.map_eq_some_iff.1 run_sampleRequests
  obtain ⟨rets, d, hx, hlive, -, -, hdisj⟩ := blocks_accounted default
    (sampleRequests.map fun q ↦ (default, q.call)) (by rw [List.map_map]; exact hrun)
  exact ⟨rets, d, hx, fun i j hi hj ti tj ↦
    hdisj i j ((hlive i hi.1 hi.2).1 ti) ((hlive j hj.1 hj.2).1 tj)⟩

/-! ## The end of the inode table -/

/-- On a new disk the first block to be allocated is the one that contains inode 1023. -/
theorem exec_allocBlock_init (h : Rep d .init) :
    exec allocBlock d = .ok (iblock 1023, d.setUsed (iblock 1023)) := by
  have hused : ∀ b, b < blockNum → (d.used b = true ↔ b < 1034) := by
    intro b hb
    rw [h.used b hb]
    refine or_iff_left ?_
    rintro ⟨i, f, hf, hm⟩
    have hempty : f.data = [] := by
      rw [Store.init, Function.update_apply] at hf
      split at hf
      · exact (Option.some_inj.1 hf) ▸ rfl
      · exact absurd hf (by simp)
    have hsize : (d.inode i).size = 0 := by rw [(h.file i f hf).size, hempty]; rfl
    rw [(Inode.owned_of_size_zero hsize).1] at hm
    exact absurd hm (by simp)
  rcases alloc_cases d with ⟨b, hb, hfree, hlow, hx⟩ | ⟨hall, -⟩
  · have h₁ : ¬ b < 1034 := fun hlt ↦ by simp [(hused b hb).2 hlt] at hfree
    have h₂ : ¬ 1034 < b := fun hlt ↦ by
      have := (hused 1034 (by decide)).1 (hlow 1034 hlt)
      omega
    obtain rfl : b = iblock 1023 := by rw [iblock_eq]; omega
    exact hx
  · have := (hused 1034 (by decide)).1 (hall 1034 (by decide))
    omega

/-- A few bytes written to the root directory of a new disk go where inode 1023 is. -/
theorem exec_writeFile_init (h : Rep d .init) (env : Env) (buf : List UInt8)
    (hpos : 0 < buf.length) (hlen : buf.length ≤ 512) :
    ∃ d', exec (writeFile env 1 buf) d = .ok ((), d') ∧
      d' (iblock 1023) = env.stack.patch buf := by
  have hroot : Store.init 1 = some ⟨tDir, []⟩ := Function.update_self ..
  have hsize : blocks (d.inode 1).size = 0 := by rw [(h.file 1 _ hroot).size]; rfl
  have hblocks : blocks buf.length = 1 := by rw [blocks_of_le (by omega)]; omega
  let d₁ := d.setUsed (iblock 1023)
  let ino := (d.inode 1).setDirect [iblock 1023]
  let d₂ : Disk := Function.update d₁ (iblock 1023) (env.stack.patch buf)
  have hdirect : exec (freeDirect (d.inode 1)) d = .ok ((), d) := by
    rw [freeDirect, hsize]
    rfl
  have hindirect : exec (freeIndirect env (d.inode 1)) d = .ok ((), d) := by
    rw [freeIndirect, hsize]
    rfl
  have halloc : exec (allocContents (d.inode 1) 1) d = .ok (ino, d₁) := by
    have hone : exec (allocBlocks 1) d = .ok ([iblock 1023], d₁) := by
      rw [allocBlocks, exec_bind (exec_allocBlock_init h)]
      rfl
    rw [allocContents, show min 1 ndirect = 1 from rfl, exec_bind hone]
    rfl
  have hwrite : exec (writeContents env ino buf) d₁ = .ok ((), d₂) := by
    obtain ⟨bs, hbs⟩ : ∃ bs, ino.blocks.toList.take ndirect = iblock 1023 :: bs := by
      have hhead : (ino.blocks.toList.take ndirect).take 1 = [iblock 1023] := by
        rw [List.take_take]
        exact (d.inode 1).take_setDirect [iblock 1023] (by decide)
      exact ⟨_, by rw [← List.take_append_drop 1 (ino.blocks.toList.take ndirect), hhead]; rfl⟩
    have hchunk : exec (writeChunk env.stack (iblock 1023) buf) d₁ = .ok ((), d₂) := by
      rw [writeChunk, if_neg (by simp only [blockSize]; omega)]
      exact exec_writeBlock (by decide) _
    have hrest : exec (writeBlocks env.stack bs []) d₂ = .ok ([], d₂) := by
      cases bs <;> rfl
    have hall : exec (writeBlocks env.stack (iblock 1023 :: bs) buf) d₁ = .ok ([], d₂) := by
      rw [writeBlocks, if_pos hpos, exec_bind hchunk,
        List.drop_eq_nil_of_le (show buf.length ≤ blockSize from hlen), hrest]
    rw [writeContents, hbs, exec_bind hall]
    rfl
  let new : Inode := { ino with size := buf.length, mtime := env.now, ctime := env.now }
  refine ⟨d₂.setInode 1 new, ?_, ?_⟩
  · rw [writeFile, exec_bind (h.exec_getInode hroot)]
    simp only
    rw [exec_bind hdirect, exec_bind hindirect, hblocks, exec_bind halloc, exec_bind hwrite]
    exact exec_putInode (by decide) new
  · rw [Disk.setInode_of_ne _ (by decide)]
    exact Function.update_self ..

/-- **The inode table is safe up to inode 1022.**  For those inodes, and for those only, it holds of
every session that `alloc_block` does not hand out the block with the inode and that writing or
removing another file leaves that block as it is. -/
theorem iblock_safe_iff {i : Nat} (hi : 1 ≤ i ∧ i < inodeNum) :
    (∀ env calls d σ, Session env calls d σ →
      (∀ b d', exec allocBlock d = .ok (b, d') → b ≠ iblock i) ∧
      (∀ env' j buf r σ' d', j ≠ i → σ.step (.writeFile j buf) = some (r, σ') →
        exec (writeFile env' j buf) d = .ok ((), d') → d' (iblock i) = d (iblock i)) ∧
      (∀ env' j r σ' d', j ≠ i → σ.step (.removeFile j) = some (r, σ') →
        exec (removeFile env' j) d = .ok ((), d') → d' (iblock i) = d (iblock i))) ↔
    i ≠ 1023 := by
  have hi' : 1 ≤ i ∧ i < 1024 := hi
  constructor
  · rintro h rfl
    obtain ⟨d, hx, hrep, -⟩ := exec_inodeManager default
    have hs : Session default [] d .init := ⟨⟨[], rfl⟩, [], by rw [exec_bind hx]; rfl⟩
    exact (h default [] d .init hs).1 _ _ (exec_allocBlock_init hrep) rfl
  · intro hne env calls d σ hs
    have hrep := hs.rep
    have hlt : 10 ≤ iblock i ∧ iblock i < 1034 := by rw [iblock_eq]; omega
    refine ⟨fun b d' hx ↦ ?_, fun env' j buf r σ' d' hj hstep hx ↦ ?_,
      fun env' j r σ' d' hj hstep hx ↦ ?_⟩
    · rcases alloc_cases d with ⟨b', hb', hfree, -, he⟩ | ⟨-, he⟩
      · obtain ⟨rfl, -⟩ := Prod.mk.inj (Except.ok.inj (he.symm.trans hx))
        rintro rfl
        rw [(hrep.used _ hb').2 (Or.inl hlt.2)] at hfree
        exact absurd hfree (by simp)
      · obtain ⟨rfl, -⟩ := Prod.mk.inj (Except.ok.inj (he.symm.trans hx))
        omega
    · obtain ⟨f, hf, hlen, hload, -, rfl⟩ := Store.of_writeFile hstep
      obtain ⟨d'', he, -, hframe⟩ := hrep.writeFile env' hf hlen hload
      obtain ⟨-, rfl⟩ := Prod.mk.inj (Except.ok.inj (he.symm.trans hx))
      exact hframe _ hlt.1 hlt.2 (by rw [iblock_eq, iblock_eq]; omega)
    · rw [Store.step, Option.map_eq_some_iff] at hstep
      obtain ⟨f, hf, -⟩ := hstep
      obtain ⟨d'', he, -, hframe⟩ := hrep.removeFile env' hf
      obtain ⟨-, rfl⟩ := Prod.mk.inj (Except.ok.inj (he.symm.trans hx))
      exact hframe _ hlt.1 hlt.2 (by rw [iblock_eq, iblock_eq]; omega)

theorem iblock_safe_iff_root :
    ∃ d, Session default [] d .init ∧
      ∀ b d', exec allocBlock d = .ok (b, d') → b ≠ iblock 1 := by
  obtain ⟨d, hs, -⟩ := exists_session default [] rfl
  exact ⟨d, hs, ((iblock_safe_iff (i := 1) (by decide)).2 (by decide) default [] d .init hs).1⟩

/-- **Inode 1023 is overwritten.**  On a new disk the inode is free.  One byte is written to the
root directory: the block that `alloc_block` returns is the one with inode 1023, and the byte ends
up in its `type`. -/
theorem iblock_1023_overwritten :
    ∃ d d', exec (inodeManager default) blank = .ok ((), d) ∧
      exec allocBlock d = .ok (iblock 1023, d.setUsed (iblock 1023)) ∧
      (Store.init.step (.writeFile 1 [7])).isSome = true ∧
      exec (writeFile default 1 [7]) d = .ok ((), d') ∧
      (d.inode 1023).type = 0 ∧ (d'.inode 1023).type = 7 := by
  obtain ⟨d, hx, hrep, hzero⟩ := exec_inodeManager default
  obtain ⟨d', hx', hblock⟩ := exec_writeFile_init hrep default [7] (by decide) (by decide)
  refine ⟨d, d', hx, exec_allocBlock_init hrep, by decide +kernel, hx', ?_, ?_⟩
  · rw [Disk.inode, hzero _ (by decide) (by decide)]
    decide +kernel
  · rw [Disk.inode, hblock]
    decide +kernel

/-- The files that a disk holds, if it holds any files at all. -/
def Disk.files (d : Disk) : Store := fun i ↦
  if 1 ≤ i ∧ i ≤ 1022 ∧ (d.inode i).type ≠ 0 then
    some ⟨(d.inode i).type, (d.inode i).contents d⟩
  else none

/-- A disk holds the files of one store only. -/
theorem Rep.eq_files {d : Disk} {σ : Store} (h : Rep d σ) : σ = d.files := by
  funext i
  rw [Disk.files]
  cases hσ : σ i with
  | none =>
    rw [if_neg]
    rintro ⟨h₁, h₂, htype⟩
    exact htype (h.free i h₁ h₂ hσ).1
  | some f =>
    have hok := h.file i f hσ
    have hi := h.inum i f hσ
    rw [if_pos ⟨hi.1, hi.2, (h.live hσ).2.1⟩, hok.type, hok.contents]

end Extent
end Yfs
