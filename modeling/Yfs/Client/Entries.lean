import Yfs.Client.Directory

/-!
# Directories as they are stored

The contents of a directory are bytes like those of any other file, and two loops of `yfs_client` go
through them.

The loop of `_readdir` takes a name and a number off the front, round after round.  It relies on the
slashes: `setattr` can cut a directory off in the middle of an entry, or pad it with zeros, and then
there comes a round that leaves everything as it was.  It ends for contents that are empty or end
with a slash, and for no others (`ends_iff`).  All operations on a directory but the ones on its
bytes begin with this loop.

`_unlink` does not go through entries at all.  It looks for the text of one of them, and the text
can be somewhere else as well: the end of the number of one entry, and the name of the next one,
read like an entry themselves if the names are numbers (`misread`).  What is removed then is half of
each of the two, and the entry itself remains (`exists_findText`).  Other than that `unlink` removes
the entry it is asked to (`unlinks_iff`).
-/

set_option autoImplicit false

namespace Yfs
namespace Client

open Machine
open Extent (File Store inumOf tDir tFile tSymlink)
open Status

/-! ## The loop of `_readdir` -/

/-- From this state the program does not end up in the loop of `_readdir` for ever. -/
def Halts {α : Type} (p : ClientM α) (s : State) : Prop :=
  ∀ s', p.eval handler s ≠ some (.error .endless, s')

namespace Halts

variable {α β : Type} {s : State}

theorem pure (a : α) : Halts (.pure a) s := fun _ h ↦ absurd h (by simp [Prog.eval])

theorem throw_outOfRange : Halts (.throw .outOfRange : ClientM α) s := fun _ h ↦
  absurd h (by simp [Prog.eval])

theorem ask (c : Cmd) : Halts (Prog.ask c) s := by
  intro s' h
  rw [Prog.ask, Prog.eval, Option.bind_eq_some_iff] at h
  obtain ⟨r, -, hr⟩ := h
  exact absurd hr (by simp [Prog.eval])

theorem bind {p : ClientM α} {f : α → ClientM β} (hp : Halts p s) (hf : ∀ a s₁, Halts (f a) s₁) :
    Halts (p >>= f) s := by
  intro s' h
  rcases Prog.eval_bind_eq_error.1 h with h | ⟨a, s₁, -, h⟩
  · exact hp s' h
  · exact hf a s₁ s' h

theorem map {p : ClientM α} (f : α → β) (hp : Halts p s) : Halts (f <$> p) s :=
  hp.bind fun a _ ↦ pure (f a)

end Halts

namespace Held

variable {s : State} {parent ino : Nat} {name : Bytes}

theorem halts_newInode {type : Nat} : Halts (newInode type ino) s := by
  refine (Halts.ask _).bind fun r s₁ ↦ ?_
  cases r <;> exact .pure _

theorem halts_addEntry : Halts (addEntry parent name ino) s := by
  refine (Halts.ask _).bind fun r s₁ ↦ ?_
  cases r with
  | error r => exact .pure _
  | ok buf =>
    refine (Halts.ask _).bind fun r s₂ ↦ ?_
    cases r <;> exact .pure _

theorem halts_make {type : Nat} (hl : Halts (lookup parent name ino) s) :
    Halts (make type parent name ino) s := by
  refine hl.bind fun x s₁ ↦ ?_
  obtain ⟨r, found, j⟩ := x
  cases found with
  | true => exact .pure _
  | false => exact halts_newInode.bind fun i s₂ ↦ halts_addEntry.bind fun r s₃ ↦ .pure _

theorem halts_symlink {link : Bytes} (hl : Halts (lookup parent name ino) s) :
    Halts (symlink parent name link ino) s := by
  refine hl.bind fun x s₁ ↦ ?_
  obtain ⟨r, found, j⟩ := x
  cases found with
  | true => exact .pure _
  | false =>
    exact halts_newInode.bind fun i s₂ ↦ (Halts.ask _).bind fun r s₃ ↦
      halts_addEntry.bind fun r s₄ ↦ .pure _

theorem halts_unlink (hl : Halts (lookup parent name 0) s) : Halts (unlink parent name) s := by
  refine hl.bind fun x s₁ ↦ ?_
  obtain ⟨r, found, j⟩ := x
  cases found with
  | false => exact .pure _
  | true =>
    refine (Halts.ask _).bind fun _ s₂ ↦ (Halts.ask _).bind fun r s₃ ↦ ?_
    cases r with
    | error r => exact .pure _
    | ok buf =>
      dsimp only
      split
      · exact .throw_outOfRange
      · refine (Halts.ask _).bind fun r s₄ ↦ ?_
        cases r <;> exact .pure _

end Held

/-- The operations that go through the entries of a directory. -/
def Op.Lists : Op → Bool
  | .lookup _ _ _ | .readdir _ | .create _ _ _ | .mkdir _ _ _ | .symlink _ _ _ _ | .unlink _ _ =>
    true
  | _ => false

/-- **They are caught in the loop only at its beginning.** -/
theorem Op.Lists.halts {op : Op} (h : op.Lists = true) {s : State}
    (hr : Halts (Held.readdir op.target) s)
    (hl : ∀ name ino, Halts (Held.lookup op.target name ino) s) : Halts op.body s := by
  cases op with
  | lookup parent name ino => exact (hl name ino).map _
  | readdir dir => exact hr.map _
  | create parent name ino => exact (Held.halts_make (hl name ino)).map _
  | mkdir parent name ino => exact (Held.halts_make (hl name ino)).map _
  | symlink parent name link ino => exact (Held.halts_symlink (hl name ino)).map _
  | unlink parent name => exact (Held.halts_unlink (hl name 0)).map _
  | _ => exact absurd h (by simp [Op.Lists])

/-- The loop over these contents of the directory ends with a list that is not longer than they are,
the list is what `readdir` returns, and every operation that goes through the entries gets to the
end of them. -/
def Ends (s : State) (dir : Nat) (buf : Bytes) : Prop :=
  (∃ fuel ents, readdirLoop fuel buf = some ents ∧ ents.length ≤ buf.length ∧
    (Op.readdir dir).prog.eval handler s = some (.ok (.list OK ents), s)) ∧
  ∀ op : Op, op.Lists = true → op.target = dir → Halts op.prog s

/-- **The loop ends if and only if the contents are empty or end with a slash.** -/
theorem ends_iff (s : State) (dir : Nat) (f : File) (hf : s.files (inumOf dir) = some f)
    (hdir : f.type = tDir) (hfree : s.held dir = false) :
    Ends s dir f.data ↔ f.data = [] ∨ f.data.getLast? = some slash := by
  obtain ⟨σ, held⟩ := s
  rw [← isSome_parseDir_iff, Option.isSome_iff_exists]
  constructor
  · rintro ⟨⟨fuel, ents, hloop, -, -⟩, -⟩
    refine ⟨ents, ?_⟩
    rw [← readdirLoop_eq_parseDir f.data (Nat.le_add_left _ fuel)]
    exact readdirLoop_mono hloop (Nat.le_add_right _ _)
  · rintro ⟨ents, hents⟩
    have hparse : parseDir (dataAt σ dir) = some ents := by
      rw [dataAt_eq hf, hents]
    refine ⟨⟨_, ents, hents, length_le_of_readdirLoop hents,
      Op.eval_readdir hf hfree hents⟩, ?_⟩
    rintro op hop rfl s' he
    rw [Op.prog_eq_locked, eval_locked _ hfree, Option.map_eq_some_iff] at he
    obtain ⟨⟨o, s₁⟩, hbody, he⟩ := he
    cases o with
    | ok r => exact absurd (Prod.mk.inj he).1 (by simp)
    | error e =>
      obtain rfl := Except.error.inj (Prod.mk.inj he).1
      refine Op.Lists.halts hop (fun s' h ↦ ?_) (fun name ino s' h ↦ ?_) s₁ hbody
      · rw [Held.runs_readdir hparse] at h
        exact absurd (Prod.mk.inj (Option.some_inj.1 h)).1 (by simp)
      · rw [Held.runs_lookup (isDir_of_type hf hdir) hparse] at h
        exact absurd (Prod.mk.inj (Option.some_inj.1 h)).1 (by simp)

/-- The files of a file system that has only a root directory. -/
def onlyRoot (buf : Bytes) : Store := fun i ↦ if i = 1 then some ⟨tDir, buf⟩ else none

theorem ends_entry : Ends ⟨onlyRoot [97, 47, 50, 47], fun _ ↦ false⟩ 1 [97, 47, 50, 47] :=
  (ends_iff ⟨onlyRoot [97, 47, 50, 47], fun _ ↦ false⟩ 1 ⟨tDir, [97, 47, 50, 47]⟩ rfl rfl rfl).2
    (by decide)

/-- A directory of which one byte is left. -/
theorem endless_of_cut : ¬ Ends ⟨onlyRoot [97], fun _ ↦ false⟩ 1 [97] := by
  rintro ⟨⟨fuel, ents, h, -⟩, -⟩
  rw [readdirLoop_of_notMem (by simp) (by decide)] at h
  exact absurd h (by simp)

/-! ## The search of `_unlink` -/

/-- Two entries next to each other in which the text of `e` can be read: the number of the first
ends with its name, and the name of the second is its number. -/
def misread (e : Dirent) : List Dirent → Bool
  | d :: d' :: l => (e.name <:+ filename d.inum ∧ d'.name = filename e.inum) || misread e (d' :: l)
  | _ => false

theorem misread_cons_cons {e d d' : Dirent} {l : List Dirent} :
    misread e (d :: d' :: l) = true ↔
      (e.name <:+ filename d.inum ∧ d'.name = filename e.inum) ∨ misread e (d' :: l) = true := by
  rw [misread, Bool.or_eq_true, decide_eq_true_eq]

/-- The first entry has no part in it if the text cannot be read there. -/
theorem misread_cons {e d : Dirent} {l₁ l₂ : List Dirent}
    (h : ∀ v w, d.text = v ++ w → w ≠ [] → ¬ e.text <+: w ++ textAll (l₁ ++ l₂)) :
    misread e (d :: l₁) = misread e l₁ := by
  cases l₁ with
  | nil => rfl
  | cons d' l =>
    rw [Bool.eq_iff_iff, misread_cons_cons]
    refine or_iff_right ?_
    rintro ⟨⟨y, hy⟩, hd'⟩
    refine h (d.name ++ slash :: y) (e.name ++ [slash]) ?_ (by simp) ?_
    · simp [Dirent.text, ← hy]
    · rw [List.cons_append, textAll_cons, hd']
      exact ⟨filename d'.inum ++ slash :: textAll (l ++ l₂), by simp [Dirent.text]⟩

/-- A text is found where it begins, if it does not begin before. -/
theorem findText_eq_length {text u s : Bytes} (hne : text ≠ [])
    (h : ∀ v w, u = v ++ w → w ≠ [] → ¬ text <+: w ++ (text ++ s)) :
    findText text (u ++ (text ++ s)) = some u.length := by
  rw [findText_append h, findText_self hne, Option.map_some, Nat.zero_add]

/-- If the text begins in the entry of another inode, it is found there, and the name that comes
next is the number that is looked for. -/
theorem findText_of_begins {d e : Dirent} {s : Bytes} (hd : slash ∉ d.name) (he : slash ∉ e.name)
    (hne : d.inum ≠ e.inum) (hin : ∃ v w, d.text = v ++ w ∧ w ≠ [] ∧ e.text <+: w ++ s) :
    ∃ y v, filename d.inum = y ++ e.name ∧ s = filename e.inum ++ slash :: v ∧
      d.text ++ s = d.name ++ slash :: y ++ (e.text ++ v) ∧
      findText e.text (d.text ++ s) = some (d.name ++ slash :: y).length := by
  obtain ⟨u, w, huw, hw, hpre⟩ := hin
  obtain ⟨⟨y, hy⟩, -, ⟨v, hv⟩⟩ := suffix_of_prefix_text hd he hne huw hw hpre
  have hcut : d.text = d.name ++ slash :: y ++ (e.name ++ [slash]) := by
    simp [Dirent.text, ← hy]
  have hrest : e.name ++ [slash] ++ s = e.text ++ v := by
    rw [← hv]
    simp [Dirent.text]
  have hsplit : d.text ++ s = d.name ++ slash :: y ++ (e.text ++ v) := by
    rw [hcut, List.append_assoc, hrest]
  refine ⟨y, v, hy.symm, by rw [← hv]; simp, hsplit, ?_⟩
  -- there is only one place in the entry where it can begin
  rw [hsplit]
  refine findText_eq_length (by simp [Dirent.text]) fun v' w' hvw' hw' hpre' ↦ hw' ?_
  have hagain : d.text = v' ++ (w' ++ (e.name ++ [slash])) := by
    rw [hcut, hvw', List.append_assoc]
  rw [← hrest, ← List.append_assoc] at hpre'
  obtain ⟨-, heq, -⟩ := suffix_of_prefix_text hd he hne hagain (by simp) hpre'
  exact List.append_left_eq_self.1 heq

/-- **Where the text of an entry is found**, and what is left without it: the other entries, unless
the text can be read in two entries before.  Then the entry itself is still among those that are
left. -/
theorem exists_findText {l₁ l₂ : List Dirent} {e : Dirent} (hproper : ∀ d ∈ l₁ ++ e :: l₂, d.Proper)
    (hinum : ∀ d ∈ l₁, d.inum ≠ e.inum) :
    ∃ u v, textAll (l₁ ++ e :: l₂) = u ++ (e.text ++ v) ∧
      findText e.text (textAll (l₁ ++ e :: l₂)) = some u.length ∧
      (misread e l₁ = false → u ++ v = textAll (l₁ ++ l₂)) ∧
      (misread e l₁ = true → ∃ ents, parseDir (u ++ v) = some ents ∧ e ∈ ents) := by
  have he : slash ∉ e.name := (hproper e (by simp)).1
  induction l₁ with
  | nil =>
    refine ⟨[], textAll l₂, rfl, findText_self (by simp [Dirent.text]) _, fun _ ↦ rfl, fun h ↦ ?_⟩
    exact absurd h (by simp [misread])
  | cons d l₁ ih =>
    have hd : d.Proper := hproper d (by simp)
    have hproper' : ∀ d' ∈ l₁ ++ e :: l₂, d'.Proper := fun d' hd' ↦
      hproper d' (List.mem_cons_of_mem _ hd')
    have hsplit : textAll (d :: l₁ ++ e :: l₂) = d.text ++ textAll (l₁ ++ e :: l₂) := rfl
    rw [hsplit]
    by_cases hin : ∃ v w, d.text = v ++ w ∧ w ≠ [] ∧ e.text <+: w ++ textAll (l₁ ++ e :: l₂)
    · obtain ⟨y, v, hy, hv, hbuf, hpos⟩ := findText_of_begins hd.1 he (hinum d (by simp)) hin
      refine ⟨_, v, hbuf, hpos, ?_⟩
      cases l₁ with
      | nil =>
        -- it is the entry itself that comes next, and it does not matter which half is removed
        rw [List.nil_append, textAll_cons] at hv
        obtain ⟨hname, rfl⟩ := field_eq he (slash_notMem_filename _) hv
        refine ⟨fun _ ↦ ?_, fun h ↦ absurd h (by simp [misread])⟩
        rw [List.cons_append, List.nil_append, textAll_cons, hy, hname]
        simp
      | cons d' l =>
        rw [List.cons_append, textAll_cons] at hv
        obtain ⟨hname, rfl⟩ := field_eq (hproper' d' (by simp)).1 (slash_notMem_filename _) hv
        have hmis : misread e (d :: d' :: l) = true :=
          misread_cons_cons.2 (Or.inl ⟨⟨y, hy.symm⟩, hname⟩)
        refine ⟨fun h ↦ absurd h (by simp [hmis]), fun _ ↦ ?_⟩
        have hparse : parseDir (textAll (l ++ e :: l₂)) = some (l ++ e :: l₂) :=
          parseDir_textAll fun d'' hd'' ↦ hproper' d'' (List.mem_cons_of_mem _ hd'')
        have hnum : slash ∉ y ++ filename d'.inum := by
          rw [List.mem_append, not_or]
          exact ⟨fun h ↦ slash_notMem_filename d.inum (by rw [hy]; exact List.mem_append_left _ h),
            slash_notMem_filename _⟩
        have hfields : d.name ++ slash :: y ++ (filename d'.inum ++ slash :: textAll (l ++ e :: l₂))
            = d.name ++ slash :: (y ++ filename d'.inum ++ slash :: textAll (l ++ e :: l₂)) := by
          simp
        refine ⟨⟨d.name, n2i (y ++ filename d'.inum)⟩ :: (l ++ e :: l₂), ?_, by simp⟩
        rw [hfields, parseDir_fields hd.1 hnum, hparse]
        rfl
    · have hskip : ∀ v w, d.text = v ++ w → w ≠ [] →
          ¬ e.text <+: w ++ textAll (l₁ ++ e :: l₂) := fun v w hvw hw hpre ↦
        hin ⟨v, w, hvw, hw, hpre⟩
      obtain ⟨u, v, hbuf, hpos, hclean, hmis⟩ :=
        ih hproper' fun d' hd' ↦ hinum d' (List.mem_cons_of_mem _ hd')
      rw [misread_cons hskip, findText_append hskip, hpos]
      refine ⟨d.text ++ u, v, by rw [hbuf, List.append_assoc], ?_, fun h ↦ ?_, fun h ↦ ?_⟩
      · simp [Nat.add_comm]
      · rw [List.append_assoc, hclean h]
        rfl
      · obtain ⟨ents, hents, hmem⟩ := hmis h
        refine ⟨d :: ents, ?_, List.mem_cons_of_mem _ hmem⟩
        rw [List.append_assoc, parseDir_text_append hd, hents]
        rfl

/-! ## Removing one entry -/

/-- `unlink` does what it is for.  If the name is in the directory, its entry is removed from the
list and its inode from the files, and nothing else changes: the directory stays there, with its
type.  If the name is not in it, nothing changes. -/
def Unlinks (s : State) (dir : Nat) (ents : List Dirent) (name : Bytes) : Prop :=
  (∀ e ∈ ents, e.name = name → ∃ s',
    (Op.unlink dir name).prog.eval handler s = some (.ok (.status OK), s') ∧
    (Op.readdir dir).prog.eval handler s' = some (.ok (.list OK (ents.erase e)), s') ∧
    (s'.files (inumOf dir)).map File.type = (s.files (inumOf dir)).map File.type ∧
    ∀ j, j ≠ inumOf dir → s'.files j = if j = e.inum then none else s.files j) ∧
  (name ∉ ents.map Dirent.name →
    (Op.unlink dir name).prog.eval handler s = some (.ok (.status NOENT), s))

/-- The entries before the one with this name. -/
def before (name : Bytes) (ents : List Dirent) : List Dirent := ents.takeWhile (·.name ≠ name)

/-- An entry, and those before and after it. -/
theorem exists_before {ents : List Dirent} {e : Dirent} (h : (ents.map Dirent.name).Nodup)
    (he : e ∈ ents) :
    ∃ l, ents = before e.name ents ++ e :: l ∧ ents.erase e = before e.name ents ++ l := by
  obtain ⟨l₁, l₂, rfl⟩ := List.append_of_mem he
  rw [List.map_append, List.map_cons, List.nodup_append'] at h
  have hname : ∀ d ∈ l₁, d.name ≠ e.name := fun d hd heq ↦
    h.2.2 (List.mem_map_of_mem hd) (by rw [heq]; exact List.mem_cons_self)
  have hbefore : before e.name (l₁ ++ e :: l₂) = l₁ := by
    rw [before, List.takeWhile_append_of_pos (by simpa using hname), List.takeWhile_cons_of_neg
      (by simp), List.append_nil]
  rw [hbefore, List.erase_append_right _ fun hmem ↦ hname e hmem rfl, List.erase_cons_head]
  exact ⟨l₂, rfl, rfl⟩

namespace Encodes

variable {σ : Store} {dir : Nat} {f : File} {ents : List Dirent} {e : Dirent}

/-- An entry for the directory itself cannot be removed: the directory is gone before its contents
are read again. -/
theorem runs_unlink_self (h : Encodes f ents) (hf : σ (inumOf dir) = some f) (he : e ∈ ents)
    (hself : inumOf e.inum = inumOf dir) : Runs (Op.unlink dir e.name).body σ
      (.error .outOfRange) (Function.update σ (inumOf dir) none) := by
  have hl := h.runs_lookup hf e.name 0
  rw [h.lookupIn_of_mem he] at hl
  have hempty : dataAt (Function.update σ (inumOf dir) none) dir = [] := by
    rw [dataAt, Function.update_self]
    rfl
  have hnone : findText (Dirent.mk e.name e.inum).text [] = none := by
    simp [findText, Dirent.text]
  have hremove : Runs (Prog.ask (Cmd.remove e.inum)) σ (.ok (.ok ()))
      (Function.update σ (inumOf dir) none) := hself ▸ runs_remove
  refine Runs.map_error _ (hl.bind (hremove.bind (runs_get.bind ?_)))
  rw [hempty]
  simp only [hnone]
  exact .throw _

/-- Something is removed from the contents, and it is the entry if its text cannot be read
before. -/
theorem exists_runs_unlink (h : Encodes f ents) (hf : σ (inumOf dir) = some f)
    (hinum : (ents.map Dirent.inum).Nodup) (he : e ∈ ents) (hne : inumOf dir ≠ inumOf e.inum) :
    ∃ buf, Runs (Op.unlink dir e.name).body σ (.ok (.status OK))
        (Function.update (Function.update σ (inumOf e.inum) none) (inumOf dir)
          (some { f with data := buf })) ∧
      (misread e (before e.name ents) = false → parseDir buf = some (ents.erase e)) ∧
      (misread e (before e.name ents) = true → ∃ ents', parseDir buf = some ents' ∧ e ∈ ents') := by
  obtain ⟨l₂, hsplit, herase⟩ := exists_before h.nodup he
  generalize before e.name ents = l₁ at hsplit herase ⊢
  have hother : ∀ d ∈ l₁, d.inum ≠ e.inum := by
    rw [hsplit, List.map_append, List.map_cons, List.nodup_append'] at hinum
    exact fun d hd heq ↦ hinum.2.2 (List.mem_map_of_mem hd) (by rw [heq]; exact List.mem_cons_self)
  have hdata := h.data
  have hproper := h.proper
  rw [hsplit] at hdata hproper
  obtain ⟨u, v, hbuf, hpos, hclean, hmis⟩ := exists_findText hproper hother
  rw [← hdata] at hbuf hpos
  refine ⟨u ++ v, h.runs_unlink_found hf he hne hbuf hpos, fun hm ↦ ?_, hmis⟩
  rw [hclean hm, herase]
  exact parseDir_textAll fun d hd ↦ h.proper d (List.mem_of_mem_erase (herase ▸ hd))

end Encodes

/-- **`unlink` removes exactly the entry it is asked to**, unless this is the entry of the directory
itself, or its text can be read in two entries before it. -/
theorem unlinks_iff (s : State) (dir : Nat) (f : File) (ents : List Dirent) (name : Bytes)
    (hf : s.files (inumOf dir) = some f) (h : Encodes f ents)
    (hinum : (ents.map Dirent.inum).Nodup) (hlive : ∀ e ∈ ents, e.inum < 2 ^ 31)
    (hfree : s.held dir = false) :
    Unlinks s dir ents name ↔ ∀ e ∈ ents, e.name = name →
      e.inum ≠ inumOf dir ∧ misread e (before name ents) = false := by
  obtain ⟨σ, held⟩ := s
  have hid : ∀ e ∈ ents, inumOf e.inum = e.inum := fun e he ↦ Nat.mod_eq_of_lt (hlive e he)
  constructor
  · rintro ⟨hmem, -⟩ e he rfl
    obtain ⟨s', hunlink, hlist, -⟩ := hmem e he rfl
    have hne : e.inum ≠ inumOf dir := by
      intro heq
      rw [(h.runs_unlink_self hf he ((hid e he).trans heq)).prog_error hfree] at hunlink
      exact absurd (Prod.mk.inj (Option.some_inj.1 hunlink)).1 (by simp)
    refine ⟨hne, Bool.eq_false_iff.2 fun hm ↦ ?_⟩
    -- the entry is still there, but it should not be
    obtain ⟨buf, hrun, -, hmis⟩ :=
      h.exists_runs_unlink hf hinum he (by rw [hid e he]; exact hne.symm)
    obtain ⟨ents', hparse, hin⟩ := hmis hm
    rw [hrun.prog hfree] at hunlink
    obtain rfl := (Prod.mk.inj (Option.some_inj.1 hunlink)).2
    have heq := (Prod.mk.inj (Option.some_inj.1 (hlist.symm.trans
      (Op.eval_readdir (f := { f with data := buf }) (Function.update_self ..) hfree hparse)))).1
    rw [Except.ok.injEq, Result.list.injEq] at heq
    rw [← heq.2] at hin
    exact absurd hin (List.Nodup.not_mem_erase (List.Nodup.of_map _ hinum))
  · intro hcond
    refine ⟨?_, fun hname ↦ (h.runs_unlink_of_notMem hf hname).prog hfree⟩
    rintro e he rfl
    obtain ⟨hne, hm⟩ := hcond e he rfl
    obtain ⟨buf, hrun, hclean, -⟩ :=
      h.exists_runs_unlink hf hinum he (by rw [hid e he]; exact hne.symm)
    refine ⟨_, hrun.prog hfree, Op.eval_readdir (Function.update_self ..) hfree (hclean hm),
      ?_, fun j hj ↦ ?_⟩
    · rw [hf, show (State.files _ : Store) _ = some _ from Function.update_self ..]
      rfl
    · rw [hid e he]
      simp only [Function.update_of_ne hj, Function.update_apply]

/-- A directory in which an entry can be misread. -/
def numbered : List Dirent := [⟨[97], 12⟩, ⟨[53], 3⟩, ⟨[50], 5⟩]

theorem encodes_numbered : Encodes ⟨tDir, textAll numbered⟩ numbered :=
  ⟨rfl, rfl, by simp [numbered, Dirent.Proper, slash], by simp [numbered]⟩

/-- A file system with this directory and the files in it. -/
def numberedFiles : State where
  files i :=
    if i = 1 then some ⟨tDir, textAll numbered⟩
    else if i ∈ numbered.map Dirent.inum then some ⟨tFile, []⟩ else none

theorem unlinks_numbered : Unlinks numberedFiles 1 numbered [53] :=
  (unlinks_iff numberedFiles 1 ⟨tDir, textAll numbered⟩ numbered [53]
    rfl encodes_numbered (by decide) (by decide) rfl).2 (by decide)

/-- The number 12 ends with the name that is looked for, and the next name is its number.  The two
entries become one for a file that does not exist, and the one that should have been removed is left
without a file. -/
theorem unlink_misreads : ¬ Unlinks numberedFiles 1 numbered [50] := by
  have hrun : Runs (Op.unlink 1 [50]).body numberedFiles.files (.ok (.status OK))
      (Function.update (Function.update numberedFiles.files 5 none) 1
        (some ⟨tDir, textAll [⟨[97], 13⟩, ⟨[50], 5⟩]⟩)) :=
    encodes_numbered.runs_unlink_found (e := ⟨[50], 5⟩) (u := [97, 47, 49])
      (v := [51, 47, 50, 47, 53, 47]) rfl (by decide) (by decide) (by decide) (by decide)
  rintro ⟨h, -⟩
  obtain ⟨s', hunlink, hlist, -⟩ := h ⟨[50], 5⟩ (by decide) rfl
  have hprog := hunlink.symm.trans (hrun.prog rfl)
  obtain rfl := (Prod.mk.inj (Option.some_inj.1 hprog)).2
  have heq := (Prod.mk.inj (Option.some_inj.1 (hlist.symm.trans
    (Op.eval_readdir (f := ⟨tDir, textAll [⟨[97], 13⟩, ⟨[50], 5⟩]⟩) rfl rfl
      (parseDir_textAll (by simp [Dirent.Proper, slash])))))).1
  rw [Except.ok.injEq, Result.list.injEq] at heq
  exact absurd heq.2 (by decide)

end Client
end Yfs
