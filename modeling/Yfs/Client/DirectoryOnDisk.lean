import Yfs.Client.Promise

/-!
# A directory on the disk is a map

What `Client/Directory` says about the operations on a directory and the map of files is true of the
disk of the extent server as well, as long as there is room for what is written (`directory_map`).
The last request of a `create`, `mkdir` or `symlink` writes the whole directory, with one more
entry.  If that is longer than a file can be, then the extent server leaves its table of indirect
blocks and goes down.  This takes no more than 316 files with long names in one directory
(`create_overruns`).
-/

set_option autoImplicit false

namespace Yfs
namespace Client

open Machine
open Extent (Disk Env File Rep Store inumOf tDir tFile tSymlink)
open Status

/-- Executed alone on the node, the operation returns this, and then the node has these files, and
the locks as they were. -/
def Node.Returns (envs : Nat → Env) (n : Node) (op : Op) (r : Result) (σ : Store) : Prop :=
  ∃ n', op.prog.eval (Node.step envs) n = some (.ok r, n') ∧ n'.Holds ⟨σ, n.held⟩

variable {envs : Nat → Env} {n : Node} {σ σ' : Store} {op : Op} {dir i : Nat} {f : File}
  {ents : List Dirent} {name : Bytes} {e : Dirent} {held : Nat → Bool}

/-- What the operation does on the map, it does on the disk. -/
theorem Runs.returns (envs : Nat → Env) {r : Result} (hrun : Runs op.body σ (.ok r) σ')
    (hprom : ∀ held', op.body.Always handler Promised ⟨σ, held'⟩) (hn : n.Holds ⟨σ, held⟩)
    (hfree : held op.target = false) : n.Returns envs op r σ' := by
  obtain ⟨n', he, hn'⟩ := Op.eval_node envs (Op.always_prog hprom) hn (hrun.prog hfree)
  exact ⟨n', he, hn'.files, hn'.locks.trans hn.locks.symm⟩

/-! ## Looking -/

section

variable (h : Encodes f ents) (hf : σ (inumOf dir) = some f) (hn : n.Holds ⟨σ, held⟩)
  (hfree : held dir = false)
include h hf hn hfree

theorem Encodes.returns_readdir (envs : Nat → Env) :
    n.Returns envs (.readdir dir) (.list OK ents) σ :=
  (Op.runs_readdir (h.parseDir_eq hf)).returns envs
    (fun _ ↦ (Held.always_readdir (fun h ↦ h) hf).map _) hn hfree

theorem Encodes.returns_lookup (envs : Nat → Env) (name : Bytes) (ino : Nat) :
    n.Returns envs (.lookup dir name ino) (.found (Held.lookupIn ents name ino).1
      (Held.lookupIn ents name ino).2.1 (Held.lookupIn ents name ino).2.2) σ :=
  (Op.runs_lookup (h.runs_lookup hf name ino)).returns envs
    (fun _ ↦ (Held.always_lookup (fun h ↦ h) hf).map _) hn hfree

end

/-! ## A directory that is too long -/

/-- An operation that makes an entry comes to write the directory. -/
theorem Encodes.issues_makes (h : Encodes f ents) (hf : σ (inumOf dir) = some f)
    (hop : op.Makes dir name) (hname : name ∉ ents.map Dirent.name) (hi : σ.firstFree = some i) :
    ∃ m k, Prog.Issues handler m op.body ⟨σ, held⟩ (.put dir (f.data ++ (Dirent.mk name i).text)) k
      ⟨Function.update σ i (some op.newFile), held⟩ := by
  obtain ⟨ino, hop⟩ := hop
  have hl := h.runs_lookup hf name ino
  rw [lookupIn_of_notMem hname] at hl
  have hadd : ∀ new, ∃ m k, Prog.Issues handler m (Held.addEntry dir name i >>= fun r ↦ pure (r, i))
      ⟨Function.update σ i (some new), held⟩ (.put dir (f.data ++ (Dirent.mk name i).text)) k
      ⟨Function.update σ i (some new), held⟩ := by
    intro new
    have hf' : Function.update σ i (some new) (inumOf dir) = some f := by
      rw [Function.update_of_ne (Held.ne_of_firstFree hi hf), hf]
    exact ⟨1, _, .later (handler_get hf') (.here _ _ _)⟩
  have hmake : ∀ type, ∃ m k, Prog.Issues handler m (Held.make type dir name ino) ⟨σ, held⟩
      (.put dir (f.data ++ (Dirent.mk name i).text)) k
      ⟨Function.update σ i (some ⟨type, []⟩), held⟩ :=
    fun type ↦ hl.issues_bind ((Held.runs_newInode hi).issues_bind (hadd ⟨type, []⟩))
  obtain rfl | rfl | ⟨link, rfl⟩ := hop
  · obtain ⟨m, k, hk⟩ := hmake tFile
    exact ⟨m, _, hk.bind _⟩
  · obtain ⟨m, k, hk⟩ := hmake tDir
    exact ⟨m, _, hk.bind _⟩
  · have hnew : Function.update σ i (some ⟨tSymlink, []⟩) (inumOf i) = some ⟨tSymlink, []⟩ := by
      rw [inumOf_of_firstFree hi, Function.update_self]
    have hput := runs_put link hnew
    rw [inumOf_of_firstFree hi, Function.update_idem] at hput
    have hlink : ∃ m k, Prog.Issues handler m (Held.symlink dir name link ino) ⟨σ, held⟩
        (.put dir (f.data ++ (Dirent.mk name i).text)) k
        ⟨Function.update σ i (some ⟨tSymlink, link⟩), held⟩ :=
      hl.issues_bind ((Held.runs_newInode hi).issues_bind
        (hput.issues_bind (hadd ⟨tSymlink, link⟩)))
    obtain ⟨m, k, hk⟩ := hlink
    exact ⟨m, _, hk.bind _⟩

/-- **A directory that gets too long** brings the server down. -/
theorem Encodes.eval_makes_long (h : Encodes f ents) (hf : σ (inumOf dir) = some f)
    (hn : n.Holds ⟨σ, held⟩) (hfree : held dir = false) (hop : op.Makes dir name)
    (hname : name ∉ ents.map Dirent.name) (hi : σ.firstFree = some i)
    (hfits : Store.Fits (Function.update σ i (some op.newFile)))
    (hlong : Store.maxSize < (f.data ++ (Dirent.mk name i).text).length)
    (hint : (f.data ++ (Dirent.mk name i).text).length < 2 ^ 31) :
    op.prog.eval (Node.step envs) n = none := by
  have hfatal : ∀ held', Fatal (.put dir (f.data ++ (Dirent.mk name i).text))
      ⟨Function.update σ i (some op.newFile), held'⟩ := fun held' ↦
    ⟨dir, _, f, rfl, (Function.update_of_ne (Held.ne_of_firstFree hi hf) ..).trans hf, hlong, hint⟩
  exact Op.eval_of_fatal envs hn (by rw [hop.target_eq, hfree])
    (fun held' ↦ h.always_makes Or.inl hf hop hname hi hfits (Or.inr (hfatal held')))
    (h.issues_makes hf hop hname hi) (hfatal _)

/-! ## The map -/

/-- **A directory is a finite map with an order**, on any disk that holds some files and with its
lock free.  `readdir` returns its entries.  `lookup` finds the number of a name that is there, and
nothing for another one.  Making an entry with a name that is there changes nothing.  Otherwise, if
there is room for the new file and the longer directory, the entry comes last, with the number of a
new inode, and all other names are looked up as before, and all other files are what they were; but
if the directory gets too long, the server goes down. -/
theorem directory_map (envs : Nat → Env) (n : Node) (σ : Store) (hrep : Rep n.disk σ) (dir : Nat)
    (f : File) (ents : List Dirent) (hf : σ (inumOf dir) = some f) (h : Encodes f ents)
    (hfree : n.held dir = false) :
    n.Returns envs (.readdir dir) (.list OK ents) σ ∧
    (∀ e ∈ ents, ∀ ino, n.Returns envs (.lookup dir e.name ino) (.found EXIST true e.inum) σ) ∧
    (∀ name ∉ ents.map Dirent.name, ∀ ino,
      n.Returns envs (.lookup dir name ino) (.found OK false ino) σ) ∧
    ∀ name, slash ∉ name → ∀ op : Op, op.Makes dir name →
      (∀ e ∈ ents, e.name = name → n.Returns envs op (.ino EXIST e.inum) σ) ∧
      ∀ i, name ∉ ents.map Dirent.name → σ.firstFree = some i →
        ((Held.entered σ (inumOf dir) f ⟨name, i⟩ op.newFile).Fits →
          ∃ n' σ', op.prog.eval (Node.step envs) n = some (.ok (.ino OK i), n') ∧
            n'.Holds ⟨σ', n.held⟩ ∧ σ' i = some op.newFile ∧
            (∀ j, j ≠ i → j ≠ inumOf dir → σ' j = σ j) ∧
            n'.Returns envs (.readdir dir) (.list OK (ents ++ [⟨name, i⟩])) σ' ∧
            (∀ ino, n'.Returns envs (.lookup dir name ino) (.found EXIST true i) σ') ∧
            ∀ name' ≠ name, ∀ ino, ∃ r, n.Returns envs (.lookup dir name' ino) r σ ∧
              n'.Returns envs (.lookup dir name' ino) r σ') ∧
        (Store.Fits (Function.update σ i (some op.newFile)) →
          81920 < (f.data ++ (Dirent.mk name i).text).length →
          (f.data ++ (Dirent.mk name i).text).length < 2 ^ 31 →
          op.prog.eval (Node.step envs) n = none) := by
  have hn : n.Holds ⟨σ, n.held⟩ := ⟨hrep, rfl⟩
  refine ⟨h.returns_readdir hf hn hfree envs, fun e he ino ↦ ?_, fun name hname ino ↦ ?_,
    fun name hslash op hop ↦ ⟨?_, fun i hname hi ↦ ⟨fun hfits ↦ ?_, fun hfits hlong hint ↦ ?_⟩⟩⟩
  · have hl := h.returns_lookup hf hn hfree envs e.name ino
    rwa [h.lookupIn_of_mem he] at hl
  · have hl := h.returns_lookup hf hn hfree envs name ino
    rwa [lookupIn_of_notMem hname] at hl
  · rintro e he rfl
    exact (h.runs_makes_of_mem hf he hop).returns envs
      (fun _ ↦ h.always_makes_of_mem (fun h ↦ h) hf he hop) hn (by rw [hop.target_eq, hfree])
  · have hne : inumOf dir ≠ i := Held.ne_of_firstFree hi hf
    have hlt : i < 2 ^ 64 := by
      have := (Store.firstFree_bounds hi).1
      omega
    obtain ⟨n', he, hn'⟩ := (h.runs_makes hf hop hname hi).returns envs
      (fun _ ↦ h.promised_makes hf (hrep.inum _ f hf) hop hname hi hfits) hn
      (by rw [hop.target_eq, hfree])
    have hfree' : n'.held dir = false := (congrFun hn'.locks dir).trans hfree
    have hn'' : n'.Holds ⟨Held.entered σ (inumOf dir) f ⟨name, i⟩ op.newFile, n'.held⟩ :=
      ⟨hn'.files, rfl⟩
    have hf' : Held.entered σ (inumOf dir) f ⟨name, i⟩ op.newFile (inumOf dir)
        = some { f with data := f.data ++ (Dirent.mk name i).text } := Function.update_self ..
    have h' := h.entered hslash hname hlt
    refine ⟨n', _, he, hn', ?_, fun j hj hj' ↦ ?_, h'.returns_readdir hf' hn'' hfree' envs,
      fun ino ↦ ?_, fun name' hne' ino ↦ ⟨_, h.returns_lookup hf hn hfree envs name' ino, ?_⟩⟩
    · simp only [Held.entered, Function.update_of_ne (Ne.symm hne), Function.update_self]
    · simp only [Held.entered, Function.update_of_ne hj', Function.update_of_ne hj]
    · have hl := h'.returns_lookup hf' hn'' hfree' envs name ino
      rwa [h'.lookupIn_of_mem (e := ⟨name, i⟩) (by simp)] at hl
    · have hl := h'.returns_lookup hf' hn'' hfree' envs name' ino
      rwa [lookupIn_append_of_ne hne'] at hl
  · exact h.eval_makes_long hf hn hfree hop hname hi hfits hlong hint

/-- A file is made in the root directory of a new disk. -/
theorem directory_map_new : ∃ d n' σ', Rep d .init ∧
    (Op.create 1 [97] 0).prog.eval (Node.step fun _ ↦ default) ⟨d, fun _ ↦ false, 0⟩
      = some (.ok (.ino OK 2), n') ∧
    σ' 2 = some ⟨tFile, []⟩ ∧
    n'.Returns (fun _ ↦ default) (.readdir 1) (.list OK [⟨[97], 2⟩]) σ' := by
  obtain ⟨d, -, hrep⟩ := Extent.exists_session default [] rfl
  have henc : Encodes ⟨tDir, []⟩ [] := ⟨rfl, rfl, by simp, by simp⟩
  obtain ⟨-, -, -, hmakes⟩ := directory_map (fun _ ↦ default) ⟨d, fun _ ↦ false, 0⟩ .init hrep 1
    ⟨tDir, []⟩ [] rfl henc rfl
  obtain ⟨-, hmake⟩ := hmakes [97] (by decide) (.create 1 [97] 0) ⟨0, Or.inl rfl⟩
  obtain ⟨n', σ', he, -, hnew, -, hlist, -⟩ := (hmake 2 (by simp) (by decide)).1 (by decide +kernel)
  exact ⟨d, n', σ', hrep, he, hnew, hlist⟩

/-! ### A directory with long names -/

/-- A name of 255 bytes. -/
def longName (j : Nat) : Bytes :=
  List.replicate 253 97 ++ [UInt8.ofNat (128 + j / 64), UInt8.ofNat (128 + j % 64)]

/-- Entries with such names, for the inodes from 2 on. -/
def longEntries (m : Nat) : List Dirent := (List.range m).map fun j ↦ ⟨longName j, j + 2⟩

/-- The length of their text. -/
def longSize : Nat → Nat
  | 0 => 0
  | m + 1 => longSize m + (257 + (filename (m + 2)).length)

theorem slash_notMem_longName {j : Nat} (hj : j < 4096) : slash ∉ longName j := by
  have hbyte : ∀ k, k < 64 → (47 : UInt8) ≠ UInt8.ofNat (128 + k) := by decide
  simp only [longName, slash, List.mem_append, List.mem_replicate, List.mem_cons, List.not_mem_nil,
    or_false, not_or]
  exact ⟨by decide, hbyte _ (by omega), hbyte _ (by omega)⟩

theorem longName_inj {j k : Nat} (hj : j < 4096) (hk : k < 4096) (h : longName j = longName k) :
    j = k := by
  have hbyte : ∀ a, a < 64 → ∀ b, b < 64 →
      UInt8.ofNat (128 + a) = UInt8.ofNat (128 + b) → a = b := by decide
  have hlast := List.append_cancel_left h
  simp only [List.cons.injEq, and_true] at hlast
  have hdiv := hbyte _ (by omega) _ (by omega) hlast.1
  have hmod := hbyte _ (by omega) _ (by omega) hlast.2
  omega

theorem longEntries_succ (m : Nat) :
    longEntries (m + 1) = longEntries m ++ [⟨longName m, m + 2⟩] := by
  rw [longEntries, List.range_succ, List.map_append]
  rfl

theorem longName_notMem {m : Nat} (hm : m < 4096) :
    longName m ∉ (longEntries m).map Dirent.name := by
  simp only [longEntries, List.map_map, List.mem_map, List.mem_range,
    Function.comp_apply, not_exists, not_and]
  intro j hj heq
  have := longName_inj (by omega) hm heq
  omega

theorem length_longName (j : Nat) : (longName j).length = 255 := by
  rw [longName, List.length_append, List.length_replicate]
  rfl

theorem length_text_long (m : Nat) :
    (Dirent.mk (longName m) (m + 2)).text.length = 257 + (filename (m + 2)).length := by
  simp only [Dirent.text, length_longName, List.length_append, List.length_cons, List.length_nil]
  omega

theorem length_longEntries (m : Nat) : (textAll (longEntries m)).length = longSize m := by
  induction m with
  | zero => rfl
  | succ m ih =>
    rw [longEntries_succ, textAll_append, List.length_append, ih, textAll_singleton,
      length_text_long, longSize]

theorem encodes_longEntries {m : Nat} (hm : m ≤ 4096) :
    Encodes ⟨tDir, textAll (longEntries m)⟩ (longEntries m) := by
  induction m with
  | zero => exact ⟨rfl, rfl, by simp [longEntries], by simp [longEntries]⟩
  | succ m ih =>
    have henc := (ih (by omega)).entered (i := m + 2) (slash_notMem_longName (by omega))
      (longName_notMem (by omega)) (by omega)
    rw [longEntries_succ, textAll_append, textAll_singleton]
    exact henc

theorem longSize_mono : Monotone longSize :=
  monotone_nat_of_le_succ fun _ ↦ Nat.le_add_right ..

theorem longSize_eq : longSize 315 = 81794 := by decide +kernel

/-- A root directory with files in it that have such names. -/
def longRoot (m : Nat) : Store :=
  Function.update (Store.filled [] m) 1 (some ⟨tDir, textAll (longEntries m)⟩)

theorem longRoot_one (m : Nat) : longRoot m (inumOf 1) = some ⟨tDir, textAll (longEntries m)⟩ :=
  Function.update_self ..

theorem longRoot_zero : longRoot 0 = .init := Function.update_idem ..

theorem entered_longRoot (m : Nat) : Held.entered (longRoot m) 1 ⟨tDir, textAll (longEntries m)⟩
    ⟨longName m, m + 2⟩ ⟨tFile, []⟩ = longRoot (m + 1) := by
  have hne : m + 2 ≠ 1 := by omega
  rw [longRoot, longRoot, longEntries_succ, textAll_append, textAll_singleton, Store.filled,
    Held.entered, Function.update_comm hne, Function.update_idem, Function.update_comm hne]

theorem firstFree_longRoot {m : Nat} (hm : m ≤ 1020) : (longRoot m).firstFree = some (m + 2) := by
  have hfilled : Store.firstFree (Store.filled [] m) = some (m + 2) := Store.firstFree_filled hm
  rw [← hfilled, Store.firstFree, Store.firstFree]
  congr 1
  funext k
  rw [longRoot, Function.update_apply]
  split
  · next hk =>
    rw [hk, Store.filled_root]
    rfl
  · rfl

theorem sizeAt_filled_nil (m i : Nat) : (Store.filled [] m).sizeAt i = 0 := by
  induction m with
  | zero =>
    rw [Store.filled, Store.sizeAt, Store.init, Function.update_apply]
    split <;> rfl
  | succ m ih =>
    rw [Store.filled, Store.sizeAt, Function.update_apply]
    split
    · rfl
    · exact ih

theorem fits_longRoot {m : Nat} (hm : m ≤ 315) : (longRoot m).Fits := by
  have hbound : Extent.Fitting fun i ↦ if i = 1 then 81794 else 0 := by decide +kernel
  refine hbound.mono fun i _ ↦ ?_
  by_cases hi : i = 1
  · rw [if_pos hi, hi, Store.sizeAt, show longRoot m 1 = _ from longRoot_one m]
    exact (length_longEntries m).trans_le ((longSize_mono hm).trans longSize_eq.le)
  · rw [if_neg hi, Store.sizeAt, longRoot, Function.update_of_ne hi]
    exact (sizeAt_filled_nil m i).le

/-- `create` with such a name. -/
def createLong (j : Nat) : ClientM Result := (Op.create 1 (longName j) 0).prog

/-- They can be made up to the 315th. -/
theorem eval_createLong (envs : Nat → Env) (hn : n.Holds ⟨.init, fun _ ↦ false⟩) {m : Nat}
    (hm : m ≤ 315) :
    ∃ n', Prog.evalAll (Node.step envs) ((List.range m).map createLong) n
        = some ((List.range m).map fun j ↦ .ok (.ino OK (j + 2)), n') ∧
      n'.Holds ⟨longRoot m, fun _ ↦ false⟩ := by
  induction m with
  | zero => exact ⟨n, rfl, by rwa [longRoot_zero]⟩
  | succ m ih =>
    obtain ⟨n₁, hall, hn₁⟩ := ih (by omega)
    have henc := encodes_longEntries (m := m) (by omega)
    have hname := longName_notMem (m := m) (by omega)
    have hi := firstFree_longRoot (m := m) (by omega)
    have hop : (Op.create 1 (longName m) 0).Makes 1 (longName m) := ⟨0, Or.inl rfl⟩
    have hfits : (Held.entered (longRoot m) 1 ⟨tDir, textAll (longEntries m)⟩ ⟨longName m, m + 2⟩
        (Op.create 1 (longName m) 0).newFile).Fits := by
      rw [show (Op.create 1 (longName m) 0).newFile = ⟨tFile, []⟩ from rfl, entered_longRoot]
      exact fits_longRoot hm
    obtain ⟨n', he, hn'⟩ := (henc.runs_makes (longRoot_one m) hop hname hi).returns envs
      (fun _ ↦ henc.promised_makes (longRoot_one m) (by decide) hop hname hi hfits) hn₁ rfl
    refine ⟨n', ?_, ?_⟩
    · rw [List.range_succ, List.map_append, List.map_append]
      exact Prog.evalAll_append hall (Prog.evalAll_cons.2 ⟨_, [], n', he, rfl, rfl⟩)
    · rw [← entered_longRoot]
      exact ⟨hn'.files, hn'.locks.trans hn₁.locks⟩

/-- **The 316th file.**  315 files with names of 255 bytes are made in the root directory of a new
disk, which is then 81794 bytes long.  Another one with such a name would make it 82054, and the
server goes down. -/
theorem create_overruns : ∃ d n, Rep d .init ∧
    Prog.evalAll (Node.step fun _ ↦ default)
        ((List.range 315).map fun j ↦ (Op.create 1 (longName j) 0).prog) ⟨d, fun _ ↦ false, 0⟩
      = some ((List.range 315).map fun j ↦ .ok (.ino OK (j + 2)), n) ∧
    (∀ j, (longName j).length = 255) ∧ slash ∉ longName 315 ∧
    n.Returns (fun _ ↦ default) (.lookup 1 (longName 315) 0) (.found OK false 0) (longRoot 315) ∧
    (longRoot 315).firstFree = some 317 ∧
    (Op.create 1 (longName 315) 0).prog.eval (Node.step fun _ ↦ default) n = none := by
  obtain ⟨d, -, hrep⟩ := Extent.exists_session default [] rfl
  obtain ⟨n, hall, hn⟩ := eval_createLong (fun _ ↦ default) (n := ⟨d, fun _ ↦ false, 0⟩)
    ⟨hrep, rfl⟩ (m := 315) le_rfl
  have henc := encodes_longEntries (m := 315) (by decide)
  have hname := longName_notMem (m := 315) (by decide)
  have hi := firstFree_longRoot (m := 315) (by decide)
  have hlookup := henc.returns_lookup (longRoot_one 315) hn rfl (fun _ ↦ default)
    (longName 315) 0
  rw [lookupIn_of_notMem hname] at hlookup
  have hlen : (textAll (longEntries 315) ++ (Dirent.mk (longName 315) 317).text).length =
      82054 := by
    rw [List.length_append, length_longEntries, longSize_eq, length_text_long]
    rfl
  have hfits : Store.Fits (Function.update (longRoot 315) 317 (some ⟨tFile, []⟩)) := by
    refine (fits_longRoot le_rfl).mono fun k _ ↦ ?_
    rw [Store.sizeAt, Store.sizeAt, Function.update_apply]
    split
    · exact Nat.zero_le _
    · exact le_rfl
  refine ⟨d, n, hrep, hall, length_longName, slash_notMem_longName (by decide), hlookup, hi, ?_⟩
  refine henc.eval_makes_long (longRoot_one 315) hn rfl ⟨0, Or.inl rfl⟩ hname hi hfits ?_ ?_
  · rw [hlen]
    decide
  · rw [hlen]
    decide

end Client
end Yfs
