import Yfs.Client.Alone

/-!
# A directory is a map

The entries of a directory are a list of pairs of a name and an inode number, with distinct names,
and its contents are the text of that list (`Encodes`).  `lookup` finds the number that is paired
with a name, `create`, `mkdir` and `symlink` add a pair at the end unless the name is there already,
and `unlink` takes one out.  Here the files are a map, and contents can be of any length.
-/

set_option autoImplicit false

namespace Yfs
namespace Client

open Machine
open Extent (File Store inumOf tDir tFile tSymlink)
open Status

/-- The file is a directory with these entries. -/
structure Encodes (f : File) (ents : List Dirent) : Prop where
  type : f.type = tDir
  data : f.data = textAll ents
  proper : ∀ e ∈ ents, e.Proper
  nodup : (ents.map Dirent.name).Nodup

variable {σ : Store} {dir i ino : Nat} {f : File} {ents : List Dirent} {name : Bytes}
  {e : Dirent}

/-! ## Lookup -/

namespace Encodes

theorem parseDir_eq (h : Encodes f ents) (hf : σ (inumOf dir) = some f) :
    parseDir (dataAt σ dir) = some ents := by
  rw [dataAt_eq hf, h.data]
  exact parseDir_textAll h.proper

theorem isDir_eq (h : Encodes f ents) (hf : σ (inumOf dir) = some f) : isDir σ dir = true :=
  isDir_of_type hf h.type

theorem runs_lookup (h : Encodes f ents) (hf : σ (inumOf dir) = some f) (name : Bytes) (ino : Nat) :
    Runs (Held.lookup dir name ino) σ (.ok (Held.lookupIn ents name ino)) σ :=
  Held.runs_lookup (h.isDir_eq hf) (h.parseDir_eq hf)

theorem lookupIn_of_mem (h : Encodes f ents) (he : e ∈ ents) (ino : Nat) :
    Held.lookupIn ents e.name ino = (EXIST, true, e.inum) := by
  have hfind : ents.find? (·.name = e.name) = some e := by
    cases hx : ents.find? (·.name = e.name) with
    | none => exact absurd (List.find?_eq_none.1 hx e he) (by simp)
    | some e' =>
      have hname : e'.name = e.name := by simpa using List.find?_some hx
      rw [List.inj_on_of_nodup_map h.nodup (List.mem_of_find?_eq_some hx) he hname]
  rw [Held.lookupIn, hfind]

end Encodes

theorem lookupIn_of_notMem (hname : name ∉ ents.map Dirent.name) (ino : Nat) :
    Held.lookupIn ents name ino = (OK, false, ino) := by
  have hfind : ents.find? (·.name = name) = none := by
    refine List.find?_eq_none.2 fun e he heq ↦ hname ?_
    rw [← of_decide_eq_true heq]
    exact List.mem_map_of_mem he
  rw [Held.lookupIn, hfind]

/-- Another name is looked up with the same result. -/
theorem lookupIn_append_of_ne {name' : Bytes} (hne : name' ≠ name) (ino : Nat) :
    Held.lookupIn (ents ++ [⟨name, i⟩]) name' ino = Held.lookupIn ents name' ino := by
  have hlast : [Dirent.mk name i].find? (·.name = name') = none := by
    simp [Ne.symm hne]
  rw [Held.lookupIn, List.find?_append, hlast, Option.or_none]
  rfl

/-! ## Making an entry -/

/-- The operations that make an entry. -/
def Op.Makes (op : Op) (dir : Nat) (name : Bytes) : Prop :=
  ∃ ino, op = .create dir name ino ∨ op = .mkdir dir name ino ∨
    ∃ link, op = .symlink dir name link ino

/-- The file that such an operation makes. -/
def Op.newFile : Op → File
  | .mkdir _ _ _ => ⟨tDir, []⟩
  | .symlink _ _ link _ => ⟨tSymlink, link⟩
  | _ => ⟨tFile, []⟩

theorem Op.Makes.target_eq {op : Op} (hop : op.Makes dir name) : op.target = dir := by
  obtain ⟨ino, rfl | rfl | ⟨link, rfl⟩⟩ := hop <;> rfl

namespace Encodes

/-- The directory with one more entry. -/
theorem entered (h : Encodes f ents) (hslash : slash ∉ name) (hname : name ∉ ents.map Dirent.name)
    (hi : i < 2 ^ 64) :
    Encodes { f with data := f.data ++ (Dirent.mk name i).text } (ents ++ [⟨name, i⟩]) where
  type := h.type
  data := by
    simp only [h.data, textAll_append, textAll_singleton]
  proper e he := by
    rcases List.mem_append.1 he with he | he
    · exact h.proper e he
    · rw [List.mem_singleton.1 he]
      exact ⟨hslash, hi⟩
  nodup := by
    rw [List.map_append, List.map_singleton, ← List.concat_eq_append, List.nodup_concat]
    exact ⟨hname, h.nodup⟩

/-- The name is in the directory already. -/
theorem runs_makes_of_mem (h : Encodes f ents) (hf : σ (inumOf dir) = some f) {op : Op}
    (he : e ∈ ents) (hop : op.Makes dir e.name) : Runs op.body σ (.ok (.ino EXIST e.inum)) σ := by
  obtain ⟨ino, hop⟩ := hop
  have hl := h.runs_lookup hf e.name ino
  rw [h.lookupIn_of_mem he] at hl
  obtain rfl | rfl | ⟨link, rfl⟩ := hop
  · exact (Held.runs_make_of_found hl).map _
  · exact (Held.runs_make_of_found hl).map _
  · exact (Held.runs_symlink_of_found hl).map _

/-- The name is not in the directory. -/
theorem runs_makes (h : Encodes f ents) (hf : σ (inumOf dir) = some f) {op : Op}
    (hop : op.Makes dir name) (hname : name ∉ ents.map Dirent.name) (hi : σ.firstFree = some i) :
    Runs op.body σ (.ok (.ino OK i)) (Held.entered σ (inumOf dir) f ⟨name, i⟩ op.newFile) := by
  obtain ⟨ino, hop⟩ := hop
  have hl := h.runs_lookup hf name ino
  rw [lookupIn_of_notMem hname] at hl
  obtain rfl | rfl | ⟨link, rfl⟩ := hop
  · exact (Held.runs_make hl hi hf).map _
  · exact (Held.runs_make hl hi hf).map _
  · exact (Held.runs_symlink hl hi hf).map _

/-- There is no free inode for it. -/
theorem stuck_makes (h : Encodes f ents) (hf : σ (inumOf dir) = some f) {op : Op}
    (hop : op.Makes dir name) (hname : name ∉ ents.map Dirent.name) (hi : σ.firstFree = none) :
    Stuck op.body σ := by
  obtain ⟨ino, hop⟩ := hop
  have hl := h.runs_lookup hf name ino
  rw [lookupIn_of_notMem hname] at hl
  obtain rfl | rfl | ⟨link, rfl⟩ := hop
  · exact (Held.stuck_make hl hi).bind
  · exact (Held.stuck_make hl hi).bind
  · exact (Held.stuck_symlink hl hi).bind

end Encodes

/-! ## Removing an entry -/

namespace Encodes

variable {l₁ l₂ : List Dirent}

theorem erased (h : Encodes f (l₁ ++ e :: l₂)) :
    Encodes { f with data := textAll (l₁ ++ l₂) } (l₁ ++ l₂) := by
  have hsub := (List.sublist_cons_self e l₂).append_left l₁
  exact ⟨h.type, rfl, fun d hd ↦ h.proper d (hsub.subset hd), h.nodup.sublist (hsub.map _)⟩

/-- An entry is removed from the contents where its text is found. -/
theorem runs_unlink_found (h : Encodes f ents) (hf : σ (inumOf dir) = some f) (he : e ∈ ents)
    (hne : inumOf dir ≠ inumOf e.inum) {u v : Bytes} (hdata : f.data = u ++ (e.text ++ v))
    (hpos : findText e.text f.data = some u.length) :
    Runs (Op.unlink dir e.name).body σ (.ok (.status OK))
      (Function.update (Function.update σ (inumOf e.inum) none) (inumOf dir)
        (some { f with data := u ++ v })) := by
  have hl := h.runs_lookup hf e.name 0
  rw [h.lookupIn_of_mem he] at hl
  have hrun := Held.runs_unlink hl hf hne hpos
  have hcut : f.data.take u.length ++ f.data.drop (u.length + e.text.length) = u ++ v := by
    rw [hdata, List.take_left, ← List.drop_drop, List.drop_left, List.drop_left]
  rw [hcut] at hrun
  exact hrun.map _

/-- Where the text of an entry is found. -/
theorem findText_eq (h : Encodes f (l₁ ++ e :: l₂)) (hinum : ∀ d ∈ l₁, d.inum ≠ e.inum)
    (hname : ∀ d ∈ l₁ ++ [e], d.name ≠ filename e.inum) :
    findText e.text f.data = some (textAll l₁).length := by
  rw [h.data]
  refine findText_textAll (fun d hd ↦ (h.proper d ?_).1) hinum hname
  rw [List.append_cons]
  exact List.mem_append_left _ hd

theorem data_eq (h : Encodes f (l₁ ++ e :: l₂)) :
    f.data = textAll l₁ ++ (e.text ++ textAll l₂) := by
  rw [h.data, textAll_append]
  rfl

/-- An entry is removed whose text is found where the entry is. -/
theorem runs_unlink (h : Encodes f (l₁ ++ e :: l₂)) (hf : σ (inumOf dir) = some f)
    (hne : inumOf dir ≠ inumOf e.inum)
    (hpos : findText e.text f.data = some (textAll l₁).length) :
    Runs (Op.unlink dir e.name).body σ (.ok (.status OK))
      (Function.update (Function.update σ (inumOf e.inum) none) (inumOf dir)
        (some { f with data := textAll (l₁ ++ l₂) })) := by
  rw [textAll_append]
  exact h.runs_unlink_found hf (by simp) hne h.data_eq hpos

/-- The name is not in the directory. -/
theorem runs_unlink_of_notMem (h : Encodes f ents) (hf : σ (inumOf dir) = some f)
    (hname : name ∉ ents.map Dirent.name) :
    Runs (Op.unlink dir name).body σ (.ok (.status NOENT)) σ := by
  have hl := h.runs_lookup hf name 0
  rw [lookupIn_of_notMem hname] at hl
  exact (Held.runs_unlink_of_not_found hl).map _

end Encodes

end Client
end Yfs
