import Yfs.Machine.Discipline
import Yfs.Client.Ops

/-!
# What an operation may do

Every operation of `yfs_client` keeps to one rule about locks (`Op.obeys`).  It begins by acquiring
the lock of its inode, and ends by releasing it.  In between it reads and writes that inode.  It may
make one new inode, and write to that without a lock.  Only `unlink` removes inodes, and those are
inodes whose locks it does not hold.

This is read off the text of the operations, whatever the other clients do; it is the place where
the source of each operation is looked at, and what follows from it does not look there again.
-/

set_option autoImplicit false

namespace Yfs
namespace Client

open Machine

/-- How far an operation has got: it has not begun, or it holds the lock, or it has released it; and
the inode that it has made. -/
inductive Phase where
  | idle
  | holding (made : Option Nat)
  | done (made : Option Nat)

/-- The inode that the operation has made. -/
def Phase.made : Phase → Option Nat
  | .idle => none
  | .holding made | .done made => made

/-- With the lock of an inode, that inode may be used; one inode may be made, and then written.
Whether inodes may be removed is a matter of their own. -/
def discipline (target : Nat) (removes : Bool) : Discipline Cmd Cmd.Ans Phase where
  allowed
    | .idle, .acquire lid => lid = target
    | .holding _, .release lid => lid = target
    | .holding _, .get id | .holding _, .getattr id => id = target
    | .holding made, .put id _ => id = target ∨ made = some id
    | .holding made, .create _ => made = none
    | .holding _, .remove _ => removes = true
    | _, _ => False
  next
    | .idle, .acquire _, _ => some (.holding none)
    | .holding made, .release _, _ => some (.done made)
    | .holding made, .get _, .ok _ => some (.holding made)
    | .holding made, .getattr _, .ok _ => some (.holding made)
    | .holding made, .put _ _, .ok _ => some (.holding made)
    | .holding made, .remove _, .ok _ => some (.holding made)
    | .holding _, .create _, .ok i => some (.holding (some i))
    | _, _, _ => none

/-- The lock is held. -/
def Phase.Holds (g : Phase) : Prop := ∃ made, g = .holding made

/-- The lock has been released. -/
def Phase.Done (g : Phase) : Prop := ∃ made, g = .done made

namespace Held

variable {i ino size : Nat} {rm : Bool} {made : Option Nat} {name link data : Bytes} {off : Int}

theorem obeys_isdir :
    (isdir i).Obeys (discipline i rm) (fun g _ ↦ g = .holding made) Phase.Holds
    (.holding made) := by
  refine .ask_bind rfl fun a g' hg ↦ ?_
  cases a with
  | error r => exact absurd hg (by simp [discipline])
  | ok a => exact (Option.some_inj.1 hg).symm

theorem obeys_get {α : Type} {f : Cmd.Ans (.get i) → ClientM α} {Q : Phase → α → Prop}
    (h : ∀ buf, (f (.ok buf)).Obeys (discipline i rm) Q Phase.Holds (.holding made)) :
    (Prog.ask (Cmd.get i) >>= f).Obeys (discipline i rm) Q Phase.Holds (.holding made) := by
  refine .ask_bind rfl fun a g' hg ↦ ?_
  cases a with
  | error r => exact absurd hg (by simp [discipline])
  | ok buf =>
    obtain rfl := Option.some_inj.1 hg
    exact h buf

theorem obeys_readdir :
    (readdir i).Obeys (discipline i rm) (fun g _ ↦ g = .holding made) Phase.Holds
      (.holding made) := by
  refine obeys_get fun buf ↦ ?_
  simp only
  split
  · exact ⟨_, rfl⟩
  · rfl

theorem obeys_lookup :
    (lookup i name ino).Obeys (discipline i rm) (fun g _ ↦ g = .holding made) Phase.Holds
      (.holding made) := by
  refine .bind (obeys_isdir.mono ?_)
  rintro g dir rfl
  split
  · refine .bind (obeys_readdir.mono ?_)
    rintro g ⟨r, ents⟩ rfl
    simp only
    split
    · rfl
    · split <;> rfl
  · rfl

theorem obeys_put {α : Type} {buf : Bytes} {f : Cmd.Ans (.put i buf) → ClientM α}
    (hpure : ∀ a, ∃ b, f a = .pure b) :
    (Prog.ask (Cmd.put i buf) >>= f).Obeys (discipline i rm) (fun g _ ↦ g.Holds) Phase.Holds
      (.holding made) := by
  refine .ask_bind (Or.inl rfl) fun a g' hg ↦ ?_
  cases a with
  | error r => exact absurd hg (by simp [discipline])
  | ok a =>
    obtain rfl := Option.some_inj.1 hg
    obtain ⟨b, hb⟩ := hpure (.ok a)
    rw [hb]
    exact ⟨_, rfl⟩

theorem obeys_addEntry :
    (addEntry i name ino).Obeys (discipline i rm) (fun g _ ↦ g.Holds) Phase.Holds
      (.holding made) := by
  refine obeys_get fun buf ↦ ?_
  exact obeys_put fun a ↦ by cases a <;> exact ⟨_, rfl⟩

theorem obeys_newInode {type : Nat} :
    (newInode type ino).Obeys (discipline i rm) (fun g a ↦ g = .holding (some a)) Phase.Holds
      (.holding none) := by
  refine .ask_bind rfl fun a g' hg ↦ ?_
  cases a with
  | error r => exact absurd hg (by simp [discipline])
  | ok j => exact (Option.some_inj.1 hg).symm

theorem obeys_make {type : Nat} :
    (make type i name ino).Obeys (discipline i rm) (fun g _ ↦ g.Holds) Phase.Holds
      (.holding none) := by
  refine .bind (obeys_lookup.mono ?_)
  rintro g ⟨r, found, ino'⟩ rfl
  cases found with
  | true => exact ⟨_, rfl⟩
  | false =>
    refine .bind (obeys_newInode.mono ?_)
    rintro g j rfl
    exact .bind (obeys_addEntry.mono fun g _ hg ↦ hg)

theorem obeys_symlink :
    (symlink i name link ino).Obeys (discipline i rm) (fun g _ ↦ g.Holds) Phase.Holds
      (.holding none) := by
  refine .bind (obeys_lookup.mono ?_)
  rintro g ⟨r, found, ino'⟩ rfl
  cases found with
  | true => exact ⟨_, rfl⟩
  | false =>
    refine .bind (obeys_newInode.mono ?_)
    rintro g j rfl
    refine .ask_bind (Or.inr rfl) fun a g' hg ↦ ?_
    cases a with
    | error r => exact absurd hg (by simp [discipline])
    | ok a =>
      obtain rfl := Option.some_inj.1 hg
      exact .bind (obeys_addEntry.mono fun g _ hg ↦ hg)

theorem obeys_unlink :
    (unlink i name).Obeys (discipline i true) (fun g _ ↦ g.Holds) Phase.Holds (.holding none) := by
  refine .bind (obeys_lookup.mono ?_)
  rintro g ⟨r, found, j⟩ rfl
  cases found with
  | false => exact ⟨_, rfl⟩
  | true =>
    refine .ask_bind rfl fun a g' hg ↦ ?_
    cases a with
    | error r => exact absurd hg (by simp [discipline])
    | ok a =>
      obtain rfl := Option.some_inj.1 hg
      refine obeys_get fun buf ↦ ?_
      simp only
      split
      · exact ⟨_, rfl⟩
      · exact obeys_put fun a ↦ by cases a <;> exact ⟨_, rfl⟩

theorem obeys_setattr :
    (setattr i size).Obeys (discipline i rm) (fun g _ ↦ g.Holds) Phase.Holds (.holding made) := by
  refine obeys_get fun buf ↦ ?_
  simp only
  split
  · exact ⟨_, rfl⟩
  · exact obeys_put fun a ↦ by cases a <;> exact ⟨_, rfl⟩

theorem obeys_read :
    (read i size off).Obeys (discipline i rm) (fun g _ ↦ g.Holds) Phase.Holds (.holding made) := by
  refine obeys_get fun buf ↦ ?_
  simp only
  split
  · exact ⟨_, rfl⟩
  · split <;> exact ⟨_, rfl⟩

theorem obeys_write :
    (write i off data).Obeys (discipline i rm) (fun g _ ↦ g.Holds) Phase.Holds
      (.holding made) := by
  refine obeys_get fun buf ↦ ?_
  simp only
  split
  · exact ⟨_, rfl⟩
  · exact obeys_put fun a ↦ by cases a <;> exact ⟨_, rfl⟩

theorem obeys_readlink :
    (readlink i).Obeys (discipline i rm) (fun g _ ↦ g.Holds) Phase.Holds (.holding made) := by
  exact obeys_get fun buf ↦ ⟨_, rfl⟩

end Held

/-- Whether the operation removes inodes. -/
def Op.removes : Op → Bool
  | .unlink _ _ => true
  | _ => false

theorem Op.obeys_body (op : Op) :
    op.body.Obeys (discipline op.target op.removes) (fun g _ ↦ g.Holds) Phase.Holds
      (.holding none) := by
  cases op with
  | read ino size off => exact .map Held.obeys_read
  | write ino off data => exact .map Held.obeys_write
  | setattr ino size => exact .map Held.obeys_setattr
  | lookup parent name ino => exact .map (Held.obeys_lookup.mono fun g _ hg ↦ ⟨_, hg⟩)
  | readdir dir => exact .map (Held.obeys_readdir.mono fun g _ hg ↦ ⟨_, hg⟩)
  | create parent name ino => exact .map Held.obeys_make
  | mkdir parent name ino => exact .map Held.obeys_make
  | symlink parent name link ino => exact .map Held.obeys_symlink
  | readlink ino => exact .map Held.obeys_readlink
  | unlink parent name => exact .map Held.obeys_unlink

/-- **Every operation** acquires the lock of one inode and releases it in the end, and in between
uses that inode and the one that it makes. -/
theorem Op.obeys (op : Op) :
    op.prog.Obeys (discipline op.target op.removes) (fun g _ ↦ g.Done) Phase.Holds .idle := by
  refine .ask_bind rfl fun a g' hg ↦ ?_
  obtain rfl := Option.some_inj.1 hg
  refine .bind (op.obeys_body.mono ?_)
  rintro g r ⟨made, rfl⟩
  refine .ask_bind rfl fun a g' hg ↦ ?_
  obtain rfl := Option.some_inj.1 hg
  exact ⟨_, rfl⟩

end Client
end Yfs
