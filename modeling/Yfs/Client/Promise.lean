import Yfs.Client.Directory
import Yfs.Client.EndToEnd

/-!
# Requests within the promise

The extent server makes promises about inodes that exist, types that it knows, and contents that
have room on the disk (`Promised`).  This file is about the requests of an operation.  If the inode
that it is called for exists, then all its requests are about inodes that exist, and all inodes that
it makes are files, directories or symbolic links.  Whether the contents that it writes have room is
another matter, and not one that the operation looks at; it is asked about those requests alone.
Contents that are longer than a file can be are too much for the extent server, and the operation
does not end (`Op.eval_of_fatal`).

The rules are for any predicate that holds of the requests within the promise, so that they can also
be used where a request is not.
-/

set_option autoImplicit false

namespace Yfs
namespace Client

open Machine
open Extent (Env File Store inumOf tDir tFile tSymlink)
open Status

variable {α : Type} {σ : Store} {held : Nat → Bool} {id i j parent ino : Nat} {f : File}
  {name link : Bytes} {ents : List Dirent} {e : Dirent} {op : Op}

/-! ## Requests -/

theorem promised_getattr (hf : σ (inumOf id) = some f) : Promised (.getattr id) ⟨σ, held⟩ := by
  intro q hq
  obtain rfl := Option.some_inj.1 hq
  simp [Extent.Request.call, Store.step, hf]

theorem promised_remove (hf : σ (inumOf id) = some f) : Promised (.remove id) ⟨σ, held⟩ := by
  intro q hq
  obtain rfl := Option.some_inj.1 hq
  simp [Extent.Request.call, Store.step, hf]

theorem promised_create {type : Nat} (htype : type ∈ [tDir, tFile, tSymlink])
    (hi : σ.firstFree = some i) : Promised (.create type) ⟨σ, held⟩ := by
  intro q hq
  obtain rfl := Option.some_inj.1 hq
  rw [Extent.Request.call, Store.step, if_pos htype, hi]
  rfl

/-- Contents are written, and there is room for all files as they are then. -/
theorem promised_put_of_fits {buf : Bytes} (hf : σ (inumOf id) = some f)
    (hid : 1 ≤ inumOf id ∧ inumOf id ≤ 1022)
    (hfits : Store.Fits (Function.update σ (inumOf id) (some { f with data := buf }))) :
    Promised (.put id buf) ⟨σ, held⟩ :=
  promised_put hf (hfits.length_le hid (Function.update_self ..)) hfits.load_le

/-! ## Operations, with the lock held -/

namespace Held

section

variable {P : Cmd → State → Prop} (hP : ∀ {c s}, Promised c s → P c s)
include hP

theorem always_isdir (hf : σ (inumOf parent) = some f) :
    (isdir parent).Always handler P ⟨σ, held⟩ := by
  refine Prog.always_ask_bind (hP (promised_getattr hf)) fun a s _ ↦ ?_
  rcases a with e | a <;> trivial

theorem always_readdir (hf : σ (inumOf parent) = some f) :
    (readdir parent).Always handler P ⟨σ, held⟩ := by
  refine always_get hP hf ?_
  simp only
  split <;> trivial

theorem always_lookup (hf : σ (inumOf parent) = some f) :
    (lookup parent name ino).Always handler P ⟨σ, held⟩ := by
  refine runs_isdir.always_bind (always_isdir hP hf) fun b _ ↦ ?_
  split
  · obtain ⟨o, hrun⟩ := exists_runs_readdir σ parent
    refine hrun.always_bind (always_readdir hP hf) fun r _ ↦ ?_
    simp only
    split
    · trivial
    · split <;> trivial
  · trivial

theorem always_readlink (hf : σ (inumOf ino) = some f) :
    (readlink ino).Always handler P ⟨σ, held⟩ :=
  always_get hP hf trivial

theorem always_newInode {type : Nat} (htype : type ∈ [tDir, tFile, tSymlink])
    (hi : σ.firstFree = some i) : (newInode type ino).Always handler P ⟨σ, held⟩ := by
  refine Prog.always_ask_bind (hP (promised_create htype hi)) fun a s _ ↦ ?_
  rcases a with e | i <;> trivial

theorem always_addEntry (hf : σ (inumOf parent) = some f)
    (hput : P (.put parent (f.data ++ (Dirent.mk name i).text)) ⟨σ, held⟩) :
    (addEntry parent name i).Always handler P ⟨σ, held⟩ := by
  refine always_get hP hf (Prog.always_ask_bind hput fun a s _ ↦ ?_)
  rcases a with e | ⟨⟩ <;> trivial

/-- A name that is there, or seems to be. -/
theorem always_make_of_found {type : Nat} {r : Int} (hf : σ (inumOf parent) = some f)
    (hl : Runs (lookup parent name ino) σ (.ok (r, true, j)) σ) :
    (make type parent name ino).Always handler P ⟨σ, held⟩ := by
  refine hl.always_bind (always_lookup hP hf) fun x hx ↦ ?_
  obtain rfl := Except.ok.inj hx
  trivial

theorem always_symlink_of_found {r : Int} (hf : σ (inumOf parent) = some f)
    (hl : Runs (lookup parent name ino) σ (.ok (r, true, j)) σ) :
    (symlink parent name link ino).Always handler P ⟨σ, held⟩ := by
  refine hl.always_bind (always_lookup hP hf) fun x hx ↦ ?_
  obtain rfl := Except.ok.inj hx
  trivial

theorem always_make {type : Nat} {r : Int} (hf : σ (inumOf parent) = some f)
    (htype : type ∈ [tDir, tFile, tSymlink])
    (hl : Runs (lookup parent name ino) σ (.ok (r, false, j)) σ) (hi : σ.firstFree = some i)
    (hput : P (.put parent (f.data ++ (Dirent.mk name i).text))
      ⟨Function.update σ i (some ⟨type, []⟩), held⟩) :
    (make type parent name ino).Always handler P ⟨σ, held⟩ := by
  refine hl.always_bind (always_lookup hP hf) fun x hx ↦ ?_
  obtain rfl := Except.ok.inj hx
  refine (runs_newInode hi).always_bind (always_newInode hP htype hi) fun i' hi' ↦ ?_
  obtain rfl := Except.ok.inj hi'
  have hf' : Function.update σ i (some ⟨type, []⟩) (inumOf parent) = some f := by
    rw [Function.update_of_ne (ne_of_firstFree hi hf), hf]
  exact (always_addEntry hP hf' hput).bind fun _ _ _ ↦ trivial

theorem always_symlink {r : Int} (hf : σ (inumOf parent) = some f)
    (hl : Runs (lookup parent name ino) σ (.ok (r, false, j)) σ) (hi : σ.firstFree = some i)
    (hlink : P (.put i link) ⟨Function.update σ i (some ⟨tSymlink, []⟩), held⟩)
    (hput : P (.put parent (f.data ++ (Dirent.mk name i).text))
      ⟨Function.update σ i (some ⟨tSymlink, link⟩), held⟩) :
    (symlink parent name link ino).Always handler P ⟨σ, held⟩ := by
  refine hl.always_bind (always_lookup hP hf) fun x hx ↦ ?_
  obtain rfl := Except.ok.inj hx
  refine (runs_newInode hi).always_bind (always_newInode hP (by simp) hi) fun i' hi' ↦ ?_
  obtain rfl := Except.ok.inj hi'
  have hnew : Function.update σ i (some ⟨tSymlink, []⟩) (inumOf i) = some ⟨tSymlink, []⟩ := by
    rw [inumOf_of_firstFree hi, Function.update_self]
  have hrun := runs_put link hnew
  rw [inumOf_of_firstFree hi, Function.update_idem] at hrun
  refine hrun.always_bind ⟨hlink, fun _ _ _ ↦ trivial⟩ fun _ _ ↦ ?_
  have hf' : Function.update σ i (some ⟨tSymlink, link⟩) (inumOf parent) = some f := by
    rw [Function.update_of_ne (ne_of_firstFree hi hf), hf]
  exact (always_addEntry hP hf' hput).bind fun _ _ _ ↦ trivial

end

theorem always_unlink_of_not_found {r : Int} (hf : σ (inumOf parent) = some f)
    (hl : Runs (lookup parent name 0) σ (.ok (r, false, j)) σ) :
    (unlink parent name).Always handler Promised ⟨σ, held⟩ := by
  refine hl.always_bind (always_lookup (fun h ↦ h) hf) fun x hx ↦ ?_
  obtain rfl := Except.ok.inj hx
  trivial

/-- The entry is found in the contents of the directory, and there is room for these without it. -/
theorem always_unlink {r : Int} {g : File} {pos : Nat} (hf : σ (inumOf parent) = some f)
    (hl : Runs (lookup parent name 0) σ (.ok (r, true, j)) σ) (hg : σ (inumOf j) = some g)
    (hne : inumOf parent ≠ inumOf j) (hpos : findText (Dirent.mk name j).text f.data = some pos)
    (hput : Promised (.put parent
        (f.data.take pos ++ f.data.drop (pos + (Dirent.mk name j).text.length)))
      ⟨Function.update σ (inumOf j) none, held⟩) :
    (unlink parent name).Always handler Promised ⟨σ, held⟩ := by
  refine hl.always_bind (always_lookup (fun h ↦ h) hf) fun x hx ↦ ?_
  obtain rfl := Except.ok.inj hx
  refine runs_remove.always_bind ⟨promised_remove hg, fun _ _ _ ↦ trivial⟩ fun _ _ ↦ ?_
  have hf' : Function.update σ (inumOf j) none (inumOf parent) = some f := by
    rw [Function.update_of_ne hne, hf]
  refine always_get (fun h ↦ h) hf' ?_
  simp only [hpos]
  refine Prog.always_ask_bind hput fun a s _ ↦ ?_
  rcases a with e | ⟨⟩ <;> trivial

end Held

/-! ## Making an entry -/

/-- There is room for a directory without its last entry if there is room for it with the entry. -/
theorem Held.fits_of_entered {dir : Nat} {new : File} (hf : σ dir = some f) (hne : dir ≠ e.inum)
    (h : (Held.entered σ dir f e new).Fits) : Store.Fits (Function.update σ e.inum (some new)) := by
  refine h.mono fun k _ ↦ ?_
  rw [Store.sizeAt, Store.sizeAt, Held.entered]
  rcases eq_or_ne k dir with rfl | hk
  · rw [Function.update_of_ne hne, Function.update_self, hf]
    simp
  · rw [Function.update_of_ne hk]

namespace Encodes

variable {dir : Nat} {P : Cmd → State → Prop} (hP : ∀ {c s}, Promised c s → P c s)
  (h : Encodes f ents) (hf : σ (inumOf dir) = some f)
include hP h hf

/-- The name is in the directory already. -/
theorem always_makes_of_mem (he : e ∈ ents) (hop : op.Makes dir e.name) :
    op.body.Always handler P ⟨σ, held⟩ := by
  obtain ⟨ino, hop⟩ := hop
  have hl := h.runs_lookup hf e.name ino
  rw [h.lookupIn_of_mem he] at hl
  obtain rfl | rfl | ⟨link, rfl⟩ := hop
  · exact (Held.always_make_of_found hP hf hl).map _
  · exact (Held.always_make_of_found hP hf hl).map _
  · exact (Held.always_symlink_of_found hP hf hl).map _

/-- The name is not in the directory.  What is asked for last is to write the directory. -/
theorem always_makes (hop : op.Makes dir name) (hname : name ∉ ents.map Dirent.name)
    (hi : σ.firstFree = some i) (hfits : Store.Fits (Function.update σ i (some op.newFile)))
    (hput : P (.put dir (f.data ++ (Dirent.mk name i).text))
      ⟨Function.update σ i (some op.newFile), held⟩) :
    op.body.Always handler P ⟨σ, held⟩ := by
  obtain ⟨ino, hop⟩ := hop
  have hl := h.runs_lookup hf name ino
  rw [lookupIn_of_notMem hname] at hl
  obtain rfl | rfl | ⟨link, rfl⟩ := hop
  · exact (Held.always_make hP hf (by simp) hl hi hput).map _
  · exact (Held.always_make hP hf (by simp) hl hi hput).map _
  · refine (Held.always_symlink hP hf hl hi (hP ?_) hput).map _
    have hin := inumOf_of_firstFree hi
    refine promised_put_of_fits (by rw [hin, Function.update_self]) ?_ ?_
    · rw [hin]
      exact (Store.firstFree_bounds hi).1
    · rw [hin, Function.update_idem]
      exact hfits

end Encodes

/-- **Making an entry is within the promise** if there is room for all files as they are then. -/
theorem Encodes.promised_makes {dir : Nat} (h : Encodes f ents) (hf : σ (inumOf dir) = some f)
    (hdir : 1 ≤ inumOf dir ∧ inumOf dir ≤ 1022) (hop : op.Makes dir name)
    (hname : name ∉ ents.map Dirent.name) (hi : σ.firstFree = some i)
    (hfits : (Held.entered σ (inumOf dir) f ⟨name, i⟩ op.newFile).Fits) :
    op.body.Always handler Promised ⟨σ, held⟩ := by
  have hne := Held.ne_of_firstFree hi hf
  refine h.always_makes (fun h ↦ h) hf hop hname hi (Held.fits_of_entered hf hne hfits) ?_
  exact promised_put_of_fits (by rw [Function.update_of_ne hne, hf]) hdir hfits

/-- **Removing an entry is within the promise** as well. -/
theorem Encodes.promised_unlink {dir : Nat} {l₁ l₂ : List Dirent} {g : File}
    (h : Encodes f (l₁ ++ e :: l₂)) (hf : σ (inumOf dir) = some f)
    (hdir : 1 ≤ inumOf dir ∧ inumOf dir ≤ 1022) (hg : σ (inumOf e.inum) = some g)
    (hne : inumOf dir ≠ inumOf e.inum)
    (hpos : findText e.text f.data = some (textAll l₁).length)
    (hfits : Store.Fits (Function.update (Function.update σ (inumOf e.inum) none) (inumOf dir)
      (some { f with data := textAll (l₁ ++ l₂) }))) :
    (Op.unlink dir e.name).body.Always handler Promised ⟨σ, held⟩ := by
  have hl := h.runs_lookup hf e.name 0
  rw [h.lookupIn_of_mem (by simp)] at hl
  refine (Held.always_unlink hf hl hg hne hpos ?_).map _
  have hcut : f.data.take (textAll l₁).length
      ++ f.data.drop ((textAll l₁).length + e.text.length) = textAll (l₁ ++ l₂) := by
    rw [h.data_eq, List.take_left, ← List.drop_drop, List.drop_left, List.drop_left,
      textAll_append]
  rw [show (Dirent.mk e.name e.inum).text = e.text from rfl, hcut]
  exact promised_put_of_fits (by rw [Function.update_of_ne hne, hf]) hdir hfits

/-! ## Contents that are too long -/

/-- A request that the extent server does not survive: what is to be written to a file is longer
than a file can be. -/
def Fatal (c : Cmd) (s : State) : Prop :=
  ∃ id buf f, c = .put id buf ∧ s.files (inumOf id) = some f ∧ Store.maxSize < buf.length ∧
    buf.length < 2 ^ 31

theorem Node.step_of_fatal (envs : Nat → Env) {c : Cmd} {s : State} {n : Node} (hc : Fatal c s)
    (hn : n.Holds s) :
    n.step envs c = none := by
  obtain ⟨id, buf, f, rfl, hf, hlong, hint⟩ := hc
  obtain ⟨hi, hlive, hold⟩ := hn.files.live hf
  have hserve : Extent.exec (Extent.serve (envs n.served) (.put id buf)) n.disk =
      .error .indexOut :=
    Extent.exec_map_eq_error.2 (Extent.exec_map_eq_error.2
      (Extent.exec_writeFile_long _ hi hlive hold hlong hint))
  rw [Node.step, Node.serve, Node.respond, hserve]
  rfl

theorem Runs.issues_bind {β : Type} {p : ClientM α} {g : α → ClientM β} {a : α} {c : Cmd}
    {s : State} {σ' : Store} (hp : Runs p σ (.ok a) σ')
    (hg : ∃ m k, Prog.Issues handler m (g a) ⟨σ', held⟩ c k s) :
    ∃ m k, Prog.Issues handler m (p >>= g) ⟨σ, held⟩ c k s := by
  obtain ⟨m, k, hk⟩ := hg
  exact ⟨_, k, hk.after (hp held)⟩

/-- **An operation that comes to make a fatal request** does not end. -/
theorem Op.eval_of_fatal (envs : Nat → Env) {n : Node} {c : Cmd} {s : State}
    (hn : n.Holds ⟨σ, held⟩) (hfree : held op.target = false)
    (halways : ∀ held', op.body.Always handler (fun c s ↦ Promised c s ∨ Fatal c s) ⟨σ, held'⟩)
    (hissues : ∃ m k, Prog.Issues handler m op.body ⟨σ, Function.update held op.target true⟩ c k s)
    (hfatal : Fatal c s) : op.prog.eval (Node.step envs) n = none := by
  have hprog : op.prog.Always handler (fun c s ↦ Promised c s ∨ Fatal c s) ⟨σ, held⟩ :=
    always_locked (fun _ _ ↦ Or.inl fun q hq ↦ absurd hq (by simp [Cmd.request]))
      (fun _ _ ↦ Or.inl fun q hq ↦ absurd hq (by simp [Cmd.request])) halways
  have hacquire : handler (.acquire op.target) ⟨σ, held⟩
      = some ((), ⟨σ, Function.update held op.target true⟩) := by
    rw [handler, if_neg]
    simp only [hfree, Bool.false_eq_true, not_false_eq_true]
  obtain ⟨m, k, hk⟩ := hissues
  have hcomes : Prog.Issues handler (m + 1) op.prog ⟨σ, held⟩ _ _ _ := .later hacquire (hk.bind _)
  exact Prog.eval_eq_none_of_issues (h := handler) (P := Promised) (F := Fatal)
    (Q := fun s n ↦ n.Holds s) (fun hP hn hc ↦ Node.step_of_handler envs hP hn hc)
    (fun hF hn ↦ Node.step_of_fatal envs hF hn) op.respects hprog hn hcomes hfatal

end Client
end Yfs
