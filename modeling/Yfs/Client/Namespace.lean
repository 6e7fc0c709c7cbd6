import Yfs.Machine.Run
import Yfs.Machine.Tree
import Yfs.Client.Directory

/-!
# The namespace is a tree

Operations are executed one at a time, and clients are started in between.  The names should then
always be a tree (`NameTree`): an entry of a directory names a live inode, and every live inode but
the root is named once, in a directory that can be reached from the root.

This is not so.  There are three ways to lose a file (`names_lost`).

* The constructor of `yfs_client` empties the root directory, and so a second client that is started
  cuts off everything that the first one has made.
* `_lookup` finds nothing in a file that is not a directory, and reports that as success.  A
  `create` with such a parent makes an inode, and appends the entry to the contents of the file.
* `_unlink` may find the text of an entry in the wrong place if an entry is named by a number.

Apart from these (`Careful`), the namespace stays a tree (`nameTree_of_careful`).
-/

set_option autoImplicit false

namespace Yfs
namespace Client

open Machine
open Extent (File Store inumOf tDir tFile tSymlink)
open Status

/-! ## The namespace -/

/-- The entries of a file: a file that is not a directory has none. -/
def entries (f : File) : List Dirent := if f.type = tDir then (parseDir f.data).getD [] else []

/-- The entries of the file with this number. -/
def entriesOf (σ : Store) (d : Nat) : List Dirent := ((σ d).map entries).getD []

/-- The entries name live inodes, and every live inode but the root is named by one entry of one
directory that can be reached from the root. -/
structure NameTree (σ : Store) : Prop where
  live : ∀ d, ∀ e ∈ entriesOf σ d, σ e.inum ≠ none
  once : ∀ i, i ≠ 1 → σ i ≠ none →
    ∃ d, Reachable Dirent.inum 1 (entriesOf σ) d ∧
      ((entriesOf σ d).filter (·.inum = i)).length = 1 ∧
      ∀ d', Reachable Dirent.inum 1 (entriesOf σ) d' → (∃ e ∈ entriesOf σ d', e.inum = i) → d' = d

/-- The constructor of `yfs_client`. -/
def startClient : ClientM Unit := do
  let _ ← Prog.ask (Cmd.put 1 [])
  pure ()

/-- A client is started, or an operation is called. -/
inductive Event where
  | start
  | op (op : Op)

/-- Execute an event; `none` if it does not come to an end, because the lock is not free or the
extent server cannot do what it is asked. -/
def perform (s : State) : Event → Option State
  | .start => (startClient.eval handler s).map Prod.snd
  | .op op => (op.prog.eval handler s).map Prod.snd

/-- What is asked for: names have no slash in them, only regular files are written, and only what is
not a directory is unlinked. -/
def Regular (σ : Store) : Event → Prop
  | .op (.create _ name _) | .op (.mkdir _ name _) | .op (.symlink _ name _ _) => slash ∉ name
  | .op (.unlink parent name) =>
    slash ∉ name ∧ ∀ e ∈ entriesOf σ (inumOf parent), e.name = name → isDir σ e.inum = false
  | .op (.write ino _ _) | .op (.setattr ino _) => (σ (inumOf ino)).map File.type = some tFile
  | _ => True

/-- A client is started while the root directory is empty, new files are made in directories, and no
entry is named by the number of the inode that is unlinked. -/
def Careful (σ : Store) : Event → Prop
  | .start => dataAt σ 1 = []
  | .op (.create parent _ _) | .op (.mkdir parent _ _) | .op (.symlink parent _ _ _) =>
    isDir σ parent = true
  | .op (.unlink parent name) => ∀ e ∈ entriesOf σ (inumOf parent), e.name = name →
    ∀ d ∈ entriesOf σ (inumOf parent), d.name ≠ filename e.inum
  | _ => True

/-! ## What is kept -/

/-- A tree, the directories of which can be read. -/
structure Tidy (σ : Store) : Prop where
  encodes : ∀ d f, σ d = some f → f.type = tDir → Encodes f (entries f)
  bound : ∀ i, σ i ≠ none → 1 ≤ i ∧ i ≤ 1022
  tree : IsTree Dirent.inum 1 (fun i ↦ σ i ≠ none) (entriesOf σ)

variable {σ σ' : Store} {d i dir ino : Nat} {f new : File} {name link data : Bytes} {e : Dirent}
  {ents l₁ l₂ : List Dirent}

theorem Encodes.entries_eq (h : Encodes f ents) : entries f = ents := by
  rw [entries, if_pos h.type, h.data, parseDir_textAll h.proper, Option.getD_some]

theorem entries_of_ne (h : f.type ≠ tDir) : entries f = [] := if_neg h

theorem entriesOf_eq (hf : σ d = some f) : entriesOf σ d = entries f := by
  rw [entriesOf, hf]
  rfl

theorem entriesOf_of_none (hf : σ d = none) : entriesOf σ d = [] := by
  rw [entriesOf, hf]
  rfl

theorem entriesOf_update (j : Nat) (o : Option File) :
    entriesOf (Function.update σ j o) d =
      if d = j then (o.map entries).getD [] else entriesOf σ d := by
  rw [entriesOf, Function.update_apply]
  split <;> rfl

theorem tidy_init : Tidy Store.init where
  encodes d f hf _ := by
    obtain ⟨rfl, rfl⟩ : d = 1 ∧ f = ⟨tDir, []⟩ := by
      rw [Store.init, Function.update_apply] at hf
      split at hf
      · exact ⟨‹_›, (Option.some_inj.1 hf).symm⟩
      · exact absurd hf (by simp)
    exact ⟨rfl, rfl, by simp [entries, parseDir, readdirLoop],
      by simp [entries, parseDir, readdirLoop]⟩
  bound i hi := by
    rw [Store.init, Function.update_apply] at hi
    split at hi
    · omega
    · exact absurd rfl hi
  tree := by
    have hnone : ∀ d, entriesOf Store.init d = [] := by
      intro d
      rw [Store.init, entriesOf_update]
      split <;> rfl
    refine ⟨by simp [Store.init], ?_, ?_, ?_, ?_, ?_, fun v hv ↦ ?_⟩
    · simp [hnone]
    · simp [hnone]
    · simp [hnone]
    · simp [hnone]
    · simp [hnone]
    · obtain rfl : v = 1 := by
        by_contra hne
        exact hv (Function.update_of_ne hne _ _)
      exact .refl

namespace Tidy

variable (h : Tidy σ)
include h

theorem nameTree : NameTree σ := by
  refine ⟨h.tree.live_tgt, fun i hne hi ↦ ?_⟩
  obtain ⟨d, hd, e, he, rfl⟩ := h.tree.exists_edge hi hne
  refine ⟨d, hd, ?_, fun d' _ ⟨e', he', heq⟩ ↦ (h.tree.unique d' d e' he' e he heq).1⟩
  have hfilter : (entriesOf σ d).filter (·.inum = e.inum) = [e] := by
    have hiff : ∀ e' ∈ entriesOf σ d, (decide (e'.inum = e.inum)) = (e' == e) := by
      intro e' he'
      rw [Bool.eq_iff_iff, decide_eq_true_eq, beq_iff_eq]
      exact ⟨fun heq ↦ (h.tree.unique d d e' he' e he heq).2, fun heq ↦ by rw [heq]⟩
    rw [List.filter_congr hiff, List.filter_beq, List.count_eq_one_of_mem (h.tree.nodup d) he]
    rfl
  rw [hfilter]
  rfl

theorem inumOf_eq (hi : σ i ≠ none) : inumOf i = i := by
  have := h.bound i hi
  exact Nat.mod_eq_of_lt (by omega)

/-- A file that is not a directory is written. -/
theorem written (hf : σ i = some f) (htype : f.type ≠ tDir) (data : Bytes) :
    Tidy (Function.update σ i (some { f with data := data })) := by
  have hlive : ∀ j, Function.update σ i (some { f with data := data }) j ≠ none ↔ σ j ≠ none := by
    intro j
    rw [Function.update_apply]
    split
    · rename_i heq
      simp [heq, hf]
    · rfl
  have hsame : entriesOf (Function.update σ i (some { f with data := data })) = entriesOf σ := by
    funext d
    rw [entriesOf_update]
    split
    · rename_i heq
      rw [heq, entriesOf_eq hf, entries_of_ne htype]
      exact entries_of_ne htype
    · rfl
  refine ⟨fun d g hg hdir ↦ ?_, fun j hj ↦ h.bound j ((hlive j).1 hj), ?_⟩
  · rw [Function.update_apply] at hg
    split at hg
    · rw [← Option.some_inj.1 hg] at hdir
      exact absurd hdir htype
    · exact h.encodes d g hg hdir
  · simp only [hlive, hsame]
    exact h.tree

/-- A new file is entered in a directory. -/
theorem entered (hf : σ d = some f) (hdir : f.type = tDir) (hi : σ.firstFree = some i)
    (hslash : slash ∉ name) (hname : name ∉ (entries f).map Dirent.name)
    (hnew : new.type = tDir → new.data = []) :
    Tidy (Held.entered σ d f ⟨name, i⟩ new) := by
  obtain ⟨hbounds, hfree⟩ := Store.firstFree_bounds hi
  have hne : d ≠ i := Held.ne_of_firstFree hi hf
  have hnil : new.type = tDir → Encodes new [] :=
    fun ht ↦ ⟨ht, hnew ht, by simp, by simp⟩
  have hentries : entries new = [] := by
    by_cases ht : new.type = tDir
    · exact (hnil ht).entries_eq
    · exact entries_of_ne ht
  have henc := (h.encodes d f hf hdir).entered hslash hname (i := i) (by omega)
  refine ⟨fun j g hg ht ↦ ?_, fun j hj ↦ ?_, ?_⟩
  · rw [Held.entered, Function.update_apply, Function.update_apply] at hg
    split at hg
    · rw [← Option.some_inj.1 hg, henc.entries_eq]
      exact henc
    · split at hg
      · rw [← Option.some_inj.1 hg] at ht ⊢
        rw [hentries]
        exact hnil ht
      · exact h.encodes j g hg ht
  · by_contra hlt
    rw [Held.entered, Function.update_apply, Function.update_apply] at hj
    split at hj
    · rename_i heq
      have := h.bound d (by rw [hf]; simp)
      omega
    · split at hj
      · rename_i heq
        simp only at heq
        omega
      · exact hlt (h.bound j hj)
  · refine h.tree.addLeaf (v := d) (e := ⟨name, i⟩) (by rw [hf]; simp) (by simp [hfree])
      (fun j ↦ ?_) (fun j ↦ ?_)
    · rw [Held.entered, Function.update_apply, Function.update_apply]
      split
      · rename_i heq
        simp [heq, hf]
      · split
        · rename_i heq
          simp [heq]
        · rename_i hj
          simp only [or_iff_left hj]
    · rw [Held.entered, entriesOf_update, entriesOf_update, entriesOf_eq hf]
      split
      · exact henc.entries_eq
      · split
        · rename_i heq
          rw [heq, entriesOf_of_none hfree]
          exact hentries
        · rfl

/-- An inode that is not a directory is removed together with its entry. -/
theorem erased (hf : σ d = some f) (hdir : f.type = tDir) (hsplit : entries f = l₁ ++ e :: l₂)
    (hleaf : entriesOf σ e.inum = []) :
    Tidy (Function.update (Function.update σ e.inum none) d
      (some { f with data := textAll (l₁ ++ l₂) })) := by
  have henc : Encodes f (l₁ ++ e :: l₂) := hsplit ▸ h.encodes d f hf hdir
  have hne : d ≠ e.inum := by
    rintro rfl
    rw [entriesOf_eq hf, hsplit] at hleaf
    exact absurd hleaf (by simp)
  refine ⟨fun j g hg ht ↦ ?_, fun j hj ↦ h.bound j ?_, ?_⟩
  · rw [Function.update_apply, Function.update_apply] at hg
    split at hg
    · rw [← Option.some_inj.1 hg, henc.erased.entries_eq]
      exact henc.erased
    · split at hg
      · exact absurd hg (by simp)
      · exact h.encodes j g hg ht
  · rw [Function.update_apply, Function.update_apply] at hj
    split at hj
    · rename_i heq
      simp [heq, hf]
    · split at hj
      · exact absurd rfl hj
      · exact hj
  · refine h.tree.removeLeaf (v := d) (e := e) (by rw [entriesOf_eq hf, hsplit]) hleaf
      (fun j ↦ ?_) (fun j ↦ ?_)
    · rw [Function.update_apply, Function.update_apply]
      split
      · rename_i heq
        simp [heq, hf, hne]
      · split
        · rename_i heq
          simp [heq]
        · rename_i hj
          simp [hj]
    · rw [entriesOf_update, entriesOf_update]
      split
      · exact henc.erased.entries_eq
      · split
        · rename_i heq
          rw [heq, hleaf]
          rfl
        · rfl

/-! ## One event -/

theorem exists_dir (hdir : isDir σ dir = true) :
    ∃ f, σ (inumOf dir) = some f ∧ f.type = tDir ∧ Encodes f (entries f) := by
  rw [isDir, decide_eq_true_eq, Option.map_eq_some_iff] at hdir
  obtain ⟨f, hf, htype⟩ := hdir
  exact ⟨f, hf, htype, h.encodes _ f hf htype⟩

theorem start (hempty : dataAt σ 1 = []) : Runs startClient σ (.ok ()) σ := by
  obtain ⟨f, hf⟩ := Option.ne_none_iff_exists'.1 h.tree.live_root
  have hdata : f.data = [] := by
    rw [dataAt, show inumOf 1 = 1 from rfl, hf] at hempty
    exact hempty
  have hput : Runs (Prog.ask (Cmd.put 1 f.data)) σ _ _ := runs_put f.data hf
  rw [show inumOf 1 = 1 from rfl, ← hf, Function.update_eq_self, hdata] at hput
  exact hput.bind (.pure _)

theorem makes {op : Op} {s s' : State} {o : Except Fault Result} (hs : s.files = σ)
    (hop : op.Makes dir name) (hslash : slash ∉ name) (hdir : isDir σ dir = true)
    (he : op.prog.eval handler s = some (o, s')) : Tidy s'.files := by
  subst hs
  obtain ⟨f, hf, htype, henc⟩ := h.exists_dir hdir
  by_cases hname : name ∈ (entries f).map Dirent.name
  · obtain ⟨e, hmem, rfl⟩ := List.mem_map.1 hname
    rw [(henc.runs_makes_of_mem hf hmem hop).files_eq he]
    exact h
  · cases hi : s.files.firstFree with
    | none => exact absurd he (by simp [(henc.stuck_makes hf hop hname hi).prog])
    | some i =>
      rw [(henc.runs_makes hf hop hname hi).files_eq he]
      refine h.entered hf htype hi hslash hname ?_
      obtain ⟨ino, rfl | rfl | ⟨link, rfl⟩⟩ := hop
      · exact fun _ ↦ rfl
      · exact fun _ ↦ rfl
      · exact fun ht ↦ absurd ht (by simp [Op.newFile])

/-- An entry of something that is not a directory is removed, and the inode with it. -/
theorem exists_unlink (hf : σ (inumOf dir) = some f) (htype : f.type = tDir) (hmem : e ∈ entries f)
    (hreg : isDir σ e.inum = false) (hcareful : ∀ d ∈ entries f, d.name ≠ filename e.inum) :
    ∃ l₁ l₂, entries f = l₁ ++ e :: l₂ ∧ entriesOf σ e.inum = [] ∧
      inumOf dir ≠ inumOf e.inum ∧ findText e.text f.data = some (textAll l₁).length ∧
      Runs (Op.unlink dir e.name).body σ (.ok (.status OK))
        (Function.update (Function.update σ e.inum none) (inumOf dir)
          (some { f with data := textAll (l₁ ++ l₂) })) := by
  have hmem' : e ∈ entriesOf σ (inumOf dir) := by rw [entriesOf_eq hf]; exact hmem
  have hinum : inumOf e.inum = e.inum := h.inumOf_eq (h.tree.live_tgt _ e hmem')
  obtain ⟨l₁, l₂, hsplit⟩ := List.append_of_mem hmem
  have hleaf : entriesOf σ e.inum = [] := by
    obtain ⟨g, hg⟩ := Option.ne_none_iff_exists'.1 (h.tree.live_tgt _ e hmem')
    rw [isDir, hinum, hg, Option.map_some, decide_eq_false_iff_not, Option.some_inj] at hreg
    rw [entriesOf_eq hg, entries_of_ne hreg]
  have hne : inumOf dir ≠ inumOf e.inum := by
    rw [hinum]
    intro heq
    rw [heq] at hmem'
    rw [hleaf] at hmem'
    exact absurd hmem' (by simp)
  have hbefore : ∀ d ∈ l₁, d.inum ≠ e.inum := by
    intro d hd heq
    have hd' : d ∈ entriesOf σ (inumOf dir) := by
      rw [entriesOf_eq hf, hsplit]
      exact List.mem_append_left _ hd
    have hnd := h.tree.nodup (inumOf dir)
    rw [entriesOf_eq hf, hsplit, List.nodup_middle] at hnd
    refine hnd.notMem (List.mem_append_left _ ?_)
    rw [← (h.tree.unique _ _ d hd' e hmem' heq).2]
    exact hd
  have hnames : ∀ d ∈ l₁ ++ [e], d.name ≠ filename e.inum := by
    intro d hd
    refine hcareful d ?_
    rw [hsplit, List.append_cons]
    exact List.mem_append_left _ hd
  have henc : Encodes f (l₁ ++ e :: l₂) := hsplit ▸ h.encodes _ f hf htype
  have hpos := henc.findText_eq hbefore hnames
  have hrun := henc.runs_unlink hf hne hpos
  rw [hinum] at hrun
  exact ⟨l₁, l₂, hsplit, hleaf, hne, hpos, hrun⟩

theorem unlink {s s' : State} {o : Except Fault Result} (hs : s.files = σ)
    (hreg : ∀ e ∈ entriesOf σ (inumOf dir), e.name = name → isDir σ e.inum = false)
    (hcareful : ∀ e ∈ entriesOf σ (inumOf dir), e.name = name →
      ∀ d ∈ entriesOf σ (inumOf dir), d.name ≠ filename e.inum)
    (he : (Op.unlink dir name).prog.eval handler s = some (o, s')) : Tidy s'.files := by
  subst hs
  cases hdir : isDir s.files dir with
  | false =>
    rw [(Op.runs_unlink_of_not_isDir hdir).files_eq he]
    exact h
  | true =>
    obtain ⟨f, hf, htype, henc⟩ := h.exists_dir hdir
    rw [entriesOf_eq hf] at hreg hcareful
    by_cases hname : name ∈ (entries f).map Dirent.name
    · obtain ⟨e, hmem, rfl⟩ := List.mem_map.1 hname
      obtain ⟨l₁, l₂, hsplit, hleaf, -, -, hrun⟩ :=
        h.exists_unlink hf htype hmem (hreg e hmem rfl) (hcareful e hmem rfl)
      rw [hrun.files_eq he]
      exact h.erased hf htype hsplit hleaf
    · rw [(henc.runs_unlink_of_notMem hf hname).files_eq he]
      exact h

end Tidy

/-- **A careful event leaves the namespace a tree.** -/
theorem Tidy.step {s s' : State} {ev : Event} (h : Tidy s.files) (hreg : Regular s.files ev)
    (hc : Careful s.files ev) (hp : perform s ev = some s') : Tidy s'.files := by
  cases ev with
  | start =>
    rw [perform, h.start hc s.held, Option.map_some] at hp
    rw [← Option.some_inj.1 hp]
    exact h
  | op op =>
    obtain ⟨⟨o, s₁⟩, he, rfl⟩ := Option.map_eq_some_iff.1 hp
    have hreads : op.Reads → Tidy s₁.files := by
      intro hop
      obtain ⟨o', hrun⟩ := hop.exists_runs s.files
      rw [hrun.files_eq he]
      exact h
    cases op with
    | read ino size off => exact hreads trivial
    | lookup parent name ino => exact hreads trivial
    | readdir dir => exact hreads trivial
    | readlink ino => exact hreads trivial
    | write ino off data =>
      obtain ⟨f, hf, htype⟩ := Option.map_eq_some_iff.1 hreg
      by_cases hoff : 0 ≤ off
      · rw [(Op.runs_write hf hoff).files_eq he]
        exact h.written hf (by rw [htype]; decide) _
      · rw [(Op.runs_write_of_neg (not_le.1 hoff)).files_eq he]
        exact h
    | setattr ino size =>
      obtain ⟨f, hf, htype⟩ := Option.map_eq_some_iff.1 hreg
      rcases Nat.lt_or_ge size (2 ^ 63) with hsize | hsize
      · rw [(Op.runs_setattr hf hsize).files_eq he]
        exact h.written hf (by rw [htype]; decide) _
      · rw [(Op.runs_setattr_of_long hsize).files_eq he]
        exact h
    | create parent name ino => exact h.makes rfl ⟨ino, Or.inl rfl⟩ hreg hc he
    | mkdir parent name ino => exact h.makes rfl ⟨ino, Or.inr (Or.inl rfl)⟩ hreg hc he
    | symlink parent name link ino =>
      exact h.makes rfl ⟨ino, Or.inr (Or.inr ⟨link, rfl⟩)⟩ hreg hc he
    | unlink parent name => exact h.unlink rfl hreg.2 hc he

/-- The file system of a new disk. -/
def newDisk : State := ⟨Store.init, fun _ ↦ false⟩

/-- **The namespace stays a tree**, whatever operations are executed and however many clients are
started, if every one of these is careful. -/
theorem nameTree_of_careful {run : List Event} {s : State}
    (hrun : run.foldlM perform newDisk = some s)
    (hok : Along perform (fun s ev ↦ Regular s.files ev ∧ Careful s.files ev) newDisk run) :
    NameTree s.files :=
  (along_induction (P := fun s ↦ Tidy s.files) (fun _ _ _ h hok hp ↦ h.step hok.1 hok.2 hp)
    run newDisk s hok tidy_init hrun).nameTree

/-! ## Runs -/

instance decidableRegular : (ev : Event) → Decidable (Regular σ ev)
  | .start => isTrue trivial
  | .op (.create _ name _) | .op (.mkdir _ name _) | .op (.symlink _ name _ _) =>
    inferInstanceAs (Decidable (slash ∉ name))
  | .op (.unlink parent name) => inferInstanceAs (Decidable (slash ∉ name ∧
      ∀ e ∈ entriesOf σ (inumOf parent), e.name = name → isDir σ e.inum = false))
  | .op (.write ino _ _) | .op (.setattr ino _) =>
    inferInstanceAs (Decidable ((σ (inumOf ino)).map File.type = some tFile))
  | .op (.read _ _ _) | .op (.lookup _ _ _) | .op (.readdir _) | .op (.readlink _) => isTrue trivial

instance decidableCareful : (ev : Event) → Decidable (Careful σ ev)
  | .start => inferInstanceAs (Decidable (dataAt σ 1 = []))
  | .op (.create parent _ _) | .op (.mkdir parent _ _) | .op (.symlink parent _ _ _) =>
    inferInstanceAs (Decidable (isDir σ parent = true))
  | .op (.unlink parent name) => inferInstanceAs (Decidable (∀ e ∈ entriesOf σ (inumOf parent),
      e.name = name → ∀ d ∈ entriesOf σ (inumOf parent), d.name ≠ filename e.inum))
  | .op (.read _ _ _) | .op (.write _ _ _) | .op (.setattr _ _) | .op (.lookup _ _ _)
  | .op (.readdir _) | .op (.readlink _) => isTrue trivial

/-- A live inode that no directory within reach names. -/
theorem not_nameTree (S : List Nat) (hroot : 1 ∈ S)
    (hclosed : ∀ d ∈ S, ∀ e ∈ entriesOf σ d, e.inum ∈ S ∧ e.inum ≠ i) (hne : i ≠ 1)
    (hi : σ i ≠ none) : ¬ NameTree σ := by
  intro h
  obtain ⟨d, hd, hone, -⟩ := h.once i hne hi
  have hmem : d ∈ S := hd.of_closed (S := (· ∈ S)) hroot fun v hv e he ↦ (hclosed v hv e he).1
  have hnil : (entriesOf σ d).filter (·.inum = i) = [] := by
    refine List.filter_eq_nil_iff.2 fun e he ↦ ?_
    simpa using (hclosed d hmem e he).2
  rw [hnil] at hone
  exact absurd hone (by simp)

/-- A file is made, and another client is started. -/
def startTwice : List Event := [.start, .op (.create 1 [97] 0), .start]

/-- A file is made in a file. -/
def createInFile : List Event := [.start, .op (.create 1 [97] 0), .op (.create 2 [98] 0)]

/-- Files with the names `x`, `4` and `2` are made, and the last one is removed.  The text that is
looked for is `2/4/`, and it is found in the middle of `x/2/4/3/2/4/`. -/
def unlinkNumber : List Event :=
  [.start, .op (.create 1 [120] 0), .op (.create 1 [52] 0), .op (.create 1 [50] 0),
    .op (.unlink 1 [50])]

theorem run_startTwice : ∃ s, startTwice.foldlM perform newDisk = some s ∧
    s.files 2 = some ⟨tFile, []⟩ ∧ entriesOf s.files 1 = [] :=
  ⟨_, rfl, rfl, rfl⟩

theorem run_createInFile : ∃ s, createInFile.foldlM perform newDisk = some s ∧
    s.files 3 = some ⟨tFile, []⟩ ∧ entriesOf s.files 1 = [⟨[97], 2⟩] ∧ entriesOf s.files 2 = [] :=
  ⟨_, rfl, rfl, rfl, rfl⟩

theorem run_unlinkNumber : ∃ s, unlinkNumber.foldlM perform newDisk = some s ∧
    entriesOf s.files 1 = [⟨[120], 3⟩, ⟨[50], 4⟩] ∧ s.files 4 = none :=
  ⟨_, rfl, rfl, rfl⟩

/-- **Names are lost** when a second client is started, when a file is made in a file, and when a
file with a number for its name is removed. -/
theorem names_lost :
    (Along perform (fun s ev ↦ Regular s.files ev) newDisk startTwice ∧
      ∃ s, startTwice.foldlM perform newDisk = some s ∧ ¬ NameTree s.files) ∧
    (Along perform (fun s ev ↦ Regular s.files ev) newDisk createInFile ∧
      ∃ s, createInFile.foldlM perform newDisk = some s ∧ ¬ NameTree s.files) ∧
    Along perform (fun s ev ↦ Regular s.files ev) newDisk unlinkNumber ∧
      ∃ s, unlinkNumber.foldlM perform newDisk = some s ∧ ¬ NameTree s.files := by
  refine ⟨⟨by decide, ?_⟩, ⟨by decide, ?_⟩, by decide, ?_⟩
  · obtain ⟨s, hrun, hfile, hroot⟩ := run_startTwice
    refine ⟨s, hrun, not_nameTree (i := 2) [1] (by simp) ?_ (by simp) (by simp [hfile])⟩
    simp [hroot]
  · obtain ⟨s, hrun, hfile, hroot, hnone⟩ := run_createInFile
    refine ⟨s, hrun, not_nameTree (i := 3) [1, 2] (by simp) ?_ (by simp) (by simp [hfile])⟩
    simp [hroot, hnone]
  · obtain ⟨s, hrun, hroot, hnone⟩ := run_unlinkNumber
    exact ⟨s, hrun, fun h ↦ h.live 1 ⟨[50], 4⟩ (by simp [hroot]) hnone⟩

/-- A directory and a file in it are made, written, and the file removed. -/
def carefulRun : List Event :=
  [.start, .start, .op (.mkdir 1 [100] 0), .op (.create 2 [102] 0), .op (.write 3 0 [120]),
    .op (.unlink 2 [102])]

theorem run_carefulRun : ∃ s, carefulRun.foldlM perform newDisk = some s ∧
    s.files 2 = some ⟨tDir, []⟩ ∧ s.files 3 = none ∧
    Along perform (fun s ev ↦ Regular s.files ev ∧ Careful s.files ev) newDisk carefulRun :=
  ⟨_, rfl, rfl, rfl, by decide⟩

theorem nameTree_carefulRun : ∃ s, carefulRun.foldlM perform newDisk = some s ∧
    s.files 2 = some ⟨tDir, []⟩ ∧ NameTree s.files := by
  obtain ⟨s, hrun, hdir, -, hok⟩ := run_carefulRun
  exact ⟨s, hrun, hdir, nameTree_of_careful hrun hok⟩

end Client
end Yfs
