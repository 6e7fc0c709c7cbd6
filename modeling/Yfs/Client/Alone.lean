import Yfs.Machine.Refine
import Yfs.Client.Running

/-!
# Operations that are executed alone

What an operation does when nobody interferes, as a fact about the files before and after it
(`Runs`).  The locks do not matter then: an operation finds its lock free, and leaves it free
(`Runs.prog`).

Each operation has one or two lemmas, for the cases in which it does something and in which it does
not, and these follow its text step by step with one rule for each command.  What is in a directory
is given by the list that `_readdir` makes of its contents; how that list and the contents are
related is the subject of other files.
-/

set_option autoImplicit false

namespace Yfs
namespace Client

open Machine
open Extent (Attr File Store inumOf tDir tFile tSymlink)
open Status

/-- Executed alone, the program ends like this and leaves these files; the locks are not touched. -/
def Runs {α : Type} (p : ClientM α) (σ : Store) (o : Except Fault α) (σ' : Store) : Prop :=
  ∀ held, p.eval handler ⟨σ, held⟩ = some (o, ⟨σ', held⟩)

variable {α β : Type} {σ σ₁ σ' : Store}

namespace Runs

theorem pure (a : α) : Runs (.pure a) σ (.ok a) σ := fun _ ↦ rfl

theorem throw (e : Fault) : Runs (.throw e : ClientM α) σ (.error e) σ := fun _ ↦ rfl

theorem bind {p : ClientM α} {f : α → ClientM β} {a : α} {o : Except Fault β}
    (hp : Runs p σ (.ok a) σ₁) (hf : Runs (f a) σ₁ o σ') : Runs (p >>= f) σ o σ' := by
  intro held
  rw [Prog.eval_bind, hp held]
  exact hf held

theorem bind_error {p : ClientM α} {f : α → ClientM β} {e : Fault} (hp : Runs p σ (.error e) σ₁) :
    Runs (p >>= f) σ (.error e) σ₁ := by
  intro held
  rw [Prog.eval_bind, hp held]
  rfl

theorem map {p : ClientM α} {a : α} (f : α → β) (hp : Runs p σ (.ok a) σ') :
    Runs (f <$> p) σ (.ok (f a)) σ' :=
  hp.bind (pure (f a))

theorem map_error {p : ClientM α} {e : Fault} (f : α → β) (hp : Runs p σ (.error e) σ') :
    Runs (f <$> p) σ (.error e) σ' :=
  hp.bind_error

end Runs

/-- Executed alone, the program waits for ever, or brings the extent server down. -/
def Stuck {α : Type} (p : ClientM α) (σ : Store) : Prop :=
  ∀ held, p.eval handler ⟨σ, held⟩ = none

namespace Stuck

theorem bind {p : ClientM α} {f : α → ClientM β} (hp : Stuck p σ) : Stuck (p >>= f) σ := by
  intro held
  rw [Prog.eval_bind, hp held]
  rfl

end Stuck

theorem Runs.bind_stuck {p : ClientM α} {f : α → ClientM β} {a : α} (hp : Runs p σ (.ok a) σ₁)
    (hf : Stuck (f a) σ₁) : Stuck (p >>= f) σ := by
  intro held
  rw [Prog.eval_bind, hp held]
  exact hf held

/-! ## Commands -/

/-- What a request to read an inode answers. -/
def dataAt (σ : Store) (id : Nat) : Bytes := ((σ (inumOf id)).map File.data).getD []

/-- Whether an inode is a live directory. -/
def isDir (σ : Store) (id : Nat) : Bool := (σ (inumOf id)).map File.type = some tDir

variable {id i parent ino size : Nat} {f : File} {name link data : Bytes} {off : Int}
  {ents : List Dirent}

theorem dataAt_eq (hf : σ (inumOf id) = some f) : dataAt σ id = f.data := by
  rw [dataAt, hf]
  rfl

theorem isDir_of_type (hf : σ (inumOf id) = some f) (hdir : f.type = tDir) : isDir σ id = true := by
  rw [isDir, hf, Option.map_some, hdir]
  exact decide_eq_true rfl

theorem runs_get : Runs (Prog.ask (Cmd.get id)) σ (.ok (.ok (dataAt σ id))) σ := by
  intro held
  simp only [Prog.ask, Prog.eval, handler, handler.inodeAt, touch, Option.map_some,
    Function.update_eq_self, Option.bind_some]
  rfl

theorem runs_getattr :
    Runs (Prog.ask (Cmd.getattr id)) σ (.ok (.ok
      (((σ (inumOf id)).map fun f ↦ { type := f.type, size := f.data.length }).getD {}))) σ := by
  intro held
  simp only [Prog.ask, Prog.eval, handler, handler.inodeAt, touch, Option.map_some,
    Function.update_eq_self, Option.bind_some]

theorem runs_put (data : Bytes) (hf : σ (inumOf id) = some f) :
    Runs (Prog.ask (Cmd.put id data)) σ (.ok (.ok ()))
      (Function.update σ (inumOf id) (some { f with data := data })) := by
  intro held
  simp only [Prog.ask, Prog.eval, handler, handler.inodeAt, touch, hf, Option.map_some,
    Option.bind_some]

theorem runs_remove :
    Runs (Prog.ask (Cmd.remove id)) σ (.ok (.ok ())) (Function.update σ (inumOf id) none) :=
  fun _ ↦ rfl

theorem runs_create {type : Nat} (hi : σ.firstFree = some i) :
    Runs (Prog.ask (Cmd.create type)) σ (.ok (.ok i)) (Function.update σ i (some ⟨type, []⟩)) := by
  intro held
  simp only [Prog.ask, Prog.eval, handler, hi, Option.map_some, Option.bind_some]

/-! ## Operations, with the lock held -/

namespace Held

theorem runs_isdir : Runs (isdir id) σ (.ok (isDir σ id)) σ := by
  refine runs_getattr.bind ?_
  have htype : ∀ o : Option File, (decide (((o.map fun f ↦
      ({ type := f.type, size := f.data.length } : Attr)).getD {}).type = tDir))
        = decide (o.map File.type = some tDir) := by
    rintro (- | f)
    · rfl
    · simp
  rw [isDir, ← htype]
  exact .pure _

theorem runs_readdir (hents : parseDir (dataAt σ id) = some ents) :
    Runs (readdir id) σ (.ok (OK, ents)) σ := by
  refine runs_get.bind ?_
  simp only [hents]
  exact .pure _

/-- What `_lookup` returns for the entries of a directory. -/
def lookupIn (ents : List Dirent) (name : Bytes) (ino : Nat) : Int × Bool × Nat :=
  match ents.find? (·.name = name) with
  | some e => (EXIST, true, e.inum)
  | none => (OK, false, ino)

theorem runs_lookup (hdir : isDir σ parent = true)
    (hents : parseDir (dataAt σ parent) = some ents) :
    Runs (lookup parent name ino) σ (.ok (lookupIn ents name ino)) σ := by
  refine runs_isdir.bind ?_
  rw [if_pos hdir]
  refine (runs_readdir hents).bind ?_
  simp only [ne_eq, not_true_eq_false, if_false, lookupIn]
  cases ents.find? fun e ↦ decide (e.name = name) <;> exact .pure _

/-- The loop of `_readdir` does not come to its end. -/
theorem runs_lookup_of_endless (hdir : isDir σ parent = true)
    (hents : parseDir (dataAt σ parent) = none) :
    Runs (lookup parent name ino) σ (.error .endless) σ := by
  refine runs_isdir.bind ?_
  rw [if_pos hdir]
  refine Runs.bind_error (runs_get.bind ?_)
  simp only [hents]
  exact .throw _

theorem runs_lookup_of_not_isDir (hdir : isDir σ parent = false) :
    Runs (lookup parent name ino) σ (.ok (OK, false, ino)) σ := by
  refine runs_isdir.bind ?_
  rw [if_neg (by simp [hdir])]
  exact .pure _

theorem runs_addEntry (hf : σ (inumOf parent) = some f) :
    Runs (addEntry parent name ino) σ (.ok OK) (Function.update σ (inumOf parent)
      (some { f with data := f.data ++ (Dirent.mk name ino).text })) := by
  refine runs_get.bind ?_
  rw [dataAt_eq hf]
  exact (runs_put _ hf).bind (.pure _)

theorem runs_newInode {type : Nat} (hi : σ.firstFree = some i) :
    Runs (newInode type ino) σ (.ok i) (Function.update σ i (some ⟨type, []⟩)) :=
  (runs_create hi).bind (.pure _)

/-- There is no free inode. -/
theorem stuck_newInode {type : Nat} (hi : σ.firstFree = none) : Stuck (newInode type ino) σ := by
  refine Stuck.bind fun held ↦ ?_
  simp only [Prog.ask, Prog.eval, handler, hi, Option.map_none, Option.bind_none]

/-- The files after a new one has been entered in a directory. -/
def entered (σ : Store) (dir : Nat) (f : File) (e : Dirent) (new : File) : Store :=
  Function.update (Function.update σ e.inum (some new)) dir
    (some { f with data := f.data ++ e.text })

/-- The name is taken. -/
theorem runs_make_of_found {type : Nat} {r : Int} {j : Nat}
    (hl : Runs (lookup parent name ino) σ (.ok (r, true, j)) σ) :
    Runs (make type parent name ino) σ (.ok (r, j)) σ :=
  hl.bind (.pure _)

theorem ne_of_firstFree (hi : σ.firstFree = some i) (hf : σ id = some f) : id ≠ i := by
  rintro rfl
  have hnone := List.find?_some hi
  rw [hf] at hnone
  exact absurd hnone (by simp)

/-- The name is not taken, or was not found. -/
theorem runs_make {type : Nat} {r : Int} {j : Nat}
    (hl : Runs (lookup parent name ino) σ (.ok (r, false, j)) σ) (hi : σ.firstFree = some i)
    (hf : σ (inumOf parent) = some f) :
    Runs (make type parent name ino) σ (.ok (OK, i))
      (entered σ (inumOf parent) f ⟨name, i⟩ ⟨type, []⟩) := by
  refine hl.bind ((runs_newInode hi).bind ((runs_addEntry ?_).bind (.pure _)))
  rw [Function.update_of_ne (ne_of_firstFree hi hf), hf]

/-- A symbolic link is made like a file, and then its contents are written. -/
theorem runs_symlink_of_found {r : Int} {j : Nat}
    (hl : Runs (lookup parent name ino) σ (.ok (r, true, j)) σ) :
    Runs (symlink parent name link ino) σ (.ok (EXIST, j)) σ :=
  hl.bind (.pure _)

theorem runs_symlink {r : Int} {j : Nat}
    (hl : Runs (lookup parent name ino) σ (.ok (r, false, j)) σ) (hi : σ.firstFree = some i)
    (hf : σ (inumOf parent) = some f) :
    Runs (symlink parent name link ino) σ (.ok (OK, i))
      (entered σ (inumOf parent) f ⟨name, i⟩ ⟨tSymlink, link⟩) := by
  have hnew : Function.update σ i (some ⟨tSymlink, []⟩) (inumOf i) = some ⟨tSymlink, []⟩ := by
    rw [inumOf_of_firstFree hi, Function.update_self]
  have hput := runs_put link hnew
  rw [inumOf_of_firstFree hi, Function.update_idem] at hput
  refine hl.bind ((runs_newInode hi).bind (hput.bind ((runs_addEntry ?_).bind (.pure _))))
  rw [Function.update_of_ne (ne_of_firstFree hi hf), hf]

theorem stuck_make {type : Nat} {r : Int} {j : Nat}
    (hl : Runs (lookup parent name ino) σ (.ok (r, false, j)) σ) (hi : σ.firstFree = none) :
    Stuck (make type parent name ino) σ :=
  hl.bind_stuck (stuck_newInode hi).bind

theorem stuck_symlink {r : Int} {j : Nat}
    (hl : Runs (lookup parent name ino) σ (.ok (r, false, j)) σ) (hi : σ.firstFree = none) :
    Stuck (symlink parent name link ino) σ :=
  hl.bind_stuck (stuck_newInode hi).bind

theorem runs_unlink_of_not_found {r : Int} {j : Nat}
    (hl : Runs (lookup parent name 0) σ (.ok (r, false, j)) σ) :
    Runs (unlink parent name) σ (.ok NOENT) σ :=
  hl.bind (.pure _)

/-- The entry is removed where its text is found first. -/
theorem runs_unlink {r : Int} {j pos : Nat}
    (hl : Runs (lookup parent name 0) σ (.ok (r, true, j)) σ) (hf : σ (inumOf parent) = some f)
    (hne : inumOf parent ≠ inumOf j) (hpos : findText (Dirent.mk name j).text f.data = some pos) :
    Runs (unlink parent name) σ (.ok OK) (Function.update (Function.update σ (inumOf j) none)
      (inumOf parent) (some { f with
        data := f.data.take pos ++ f.data.drop (pos + (Dirent.mk name j).text.length) })) := by
  have hf' : Function.update σ (inumOf j) none (inumOf parent) = some f := by
    rw [Function.update_of_ne hne, hf]
  refine hl.bind (runs_remove.bind (runs_get.bind ?_))
  rw [dataAt_eq hf']
  simp only [hpos]
  exact (runs_put _ hf').bind (.pure _)

theorem runs_setattr (hf : σ (inumOf ino) = some f) (hsize : size < 2 ^ 63) :
    Runs (setattr ino size) σ (.ok OK)
      (Function.update σ (inumOf ino) (some { f with data := resize f.data size })) := by
  refine runs_get.bind ?_
  rw [dataAt_eq hf]
  simp only [if_neg (not_le.2 hsize)]
  exact (runs_put _ hf).bind (.pure _)

theorem runs_setattr_of_long (hsize : 2 ^ 63 ≤ size) :
    Runs (setattr ino size) σ (.error .lengthError) σ := by
  refine runs_get.bind ?_
  simp only [if_pos hsize]
  exact .throw _

/-- The contents after a write. -/
def written (buf : Bytes) (off : Int) (data : Bytes) : Bytes :=
  let buf := if off > buf.length then resize buf off.toNat else buf
  buf.take off.toNat ++ data ++ buf.drop (off.toNat + data.length)

theorem runs_write (hf : σ (inumOf ino) = some f) (hoff : 0 ≤ off) :
    Runs (write ino off data) σ (.ok (OK, data.length))
      (Function.update σ (inumOf ino) (some { f with data := written f.data off data })) := by
  refine runs_get.bind ?_
  rw [dataAt_eq hf]
  simp only [if_neg (not_lt.2 hoff)]
  exact (runs_put _ hf).bind (.pure _)

theorem runs_write_of_neg (hoff : off < 0) :
    Runs (write ino off data) σ (.error .outOfRange) σ := by
  refine runs_get.bind ?_
  simp only [if_pos hoff]
  exact .throw _

/-! ### Operations that only read -/

theorem exists_runs_readdir (σ : Store) (id : Nat) : ∃ o, Runs (readdir id) σ o σ := by
  cases hents : parseDir (dataAt σ id) with
  | some ents => exact ⟨_, runs_readdir hents⟩
  | none =>
    refine ⟨.error .endless, runs_get.bind ?_⟩
    simp only [hents]
    exact .throw _

theorem exists_runs_lookup (σ : Store) (parent : Nat) (name : Bytes) (ino : Nat) :
    ∃ o, Runs (lookup parent name ino) σ o σ := by
  cases hdir : isDir σ parent with
  | false => exact ⟨_, runs_lookup_of_not_isDir hdir⟩
  | true =>
    cases hents : parseDir (dataAt σ parent) with
    | some ents => exact ⟨_, runs_lookup hdir hents⟩
    | none => exact ⟨_, runs_lookup_of_endless hdir hents⟩

/-- A read returns a part of the contents, if their length is an `int`. -/
theorem runs_read (size : Nat) (hf : σ (inumOf ino) = some f) (hlen : f.data.length < 2 ^ 31)
    (hoff : 0 ≤ off) :
    Runs (read ino size off) σ (.ok (OK, (f.data.drop off.toNat).take size)) σ := by
  obtain ⟨n, rfl⟩ := Int.eq_ofNat_of_zero_le hoff
  have hint : Int.bmod f.data.length (2 ^ 32) = f.data.length :=
    Int.bmod_eq_of_le (by omega) (by omega)
  refine runs_get.bind ?_
  rw [dataAt_eq hf, Int.toNat_natCast]
  simp only [hint]
  by_cases hle : (f.data.length : Int) ≤ n
  · rw [if_pos hle, List.drop_eq_nil_of_le (by omega), List.take_nil]
    exact .pure _
  · have hpos : ((n : Int) % 2 ^ 32).toNat = n := by omega
    rw [if_neg hle, hpos, if_neg (by omega)]
    exact .pure _

theorem exists_runs_read (σ : Store) (ino size : Nat) (off : Int) :
    ∃ o, Runs (read ino size off) σ o σ := by
  by_cases hoff : Int.bmod (dataAt σ ino).length (2 ^ 32) ≤ off
  · refine ⟨.ok (OK, []), runs_get.bind ?_⟩
    simp only [if_pos hoff]
    exact .pure _
  · by_cases hpos : (off % 2 ^ 32).toNat > (dataAt σ ino).length
    · refine ⟨.error .outOfRange, runs_get.bind ?_⟩
      simp only [if_neg hoff, if_pos hpos]
      exact .throw _
    · refine ⟨.ok (OK, ((dataAt σ ino).drop (off % 2 ^ 32).toNat).take size), runs_get.bind ?_⟩
      simp only [if_neg hoff, if_neg hpos]
      exact .pure _

theorem runs_readlink : Runs (readlink ino) σ (.ok (OK, dataAt σ ino)) σ := runs_get.bind (.pure _)

end Held

/-! ## Operations -/

/-- The operations that only read. -/
def Op.Reads : Op → Prop
  | .read _ _ _ | .lookup _ _ _ | .readdir _ | .readlink _ => True
  | _ => False

/-- An operation that only reads leaves the files as they are. -/
theorem Op.Reads.exists_runs {op : Op} (hop : op.Reads) (σ : Store) : ∃ o, Runs op.body σ o σ := by
  have hmap : ∀ {α : Type} {p : ClientM α} (f : α → Result), (∃ o, Runs p σ o σ) →
      ∃ o, Runs (f <$> p) σ o σ := by
    rintro α p f ⟨o, h⟩
    cases o with
    | ok a => exact ⟨_, h.map f⟩
    | error e => exact ⟨_, h.map_error f⟩
  cases op with
  | read ino size off => exact hmap _ (Held.exists_runs_read σ ino size off)
  | lookup parent name ino => exact hmap _ (Held.exists_runs_lookup σ parent name ino)
  | readdir dir => exact hmap _ (Held.exists_runs_readdir σ dir)
  | readlink ino => exact hmap _ ⟨_, Held.runs_readlink⟩
  | _ => exact hop.elim

theorem Op.runs_readdir (hents : parseDir (dataAt σ id) = some ents) :
    Runs (Op.readdir id).body σ (.ok (.list OK ents)) σ :=
  (Held.runs_readdir hents).map _

theorem Op.runs_lookup {x : Int × Bool × Nat}
    (hl : Runs (Held.lookup parent name ino) σ (.ok x) σ) :
    Runs (Op.lookup parent name ino).body σ (.ok (.found x.1 x.2.1 x.2.2)) σ :=
  hl.map _

theorem Op.runs_write (hf : σ (inumOf ino) = some f) (hoff : 0 ≤ off) :
    Runs (Op.write ino off data).body σ (.ok (.written OK data.length))
      (Function.update σ (inumOf ino) (some { f with data := Held.written f.data off data })) :=
  (Held.runs_write hf hoff).map _

theorem Op.runs_write_of_neg (hoff : off < 0) :
    Runs (Op.write ino off data).body σ (.error .outOfRange) σ :=
  (Held.runs_write_of_neg hoff).map_error _

theorem Op.runs_setattr (hf : σ (inumOf ino) = some f) (hsize : size < 2 ^ 63) :
    Runs (Op.setattr ino size).body σ (.ok (.status OK))
      (Function.update σ (inumOf ino) (some { f with data := resize f.data size })) :=
  (Held.runs_setattr hf hsize).map _

theorem Op.runs_setattr_of_long (hsize : 2 ^ 63 ≤ size) :
    Runs (Op.setattr ino size).body σ (.error .lengthError) σ :=
  (Held.runs_setattr_of_long hsize).map_error _

theorem Op.runs_unlink_of_not_isDir (hdir : isDir σ parent = false) :
    Runs (Op.unlink parent name).body σ (.ok (.status NOENT)) σ :=
  (Held.runs_unlink_of_not_found (Held.runs_lookup_of_not_isDir hdir)).map _

theorem eval_locked {inum : Nat} (p : ClientM α) {held : Nat → Bool} (hfree : held inum = false) :
    (locked inum p).eval handler ⟨σ, held⟩ =
      (p.eval handler ⟨σ, Function.update held inum true⟩).map fun r ↦
        match r.1 with
        | .ok a => (.ok a, ⟨r.2.files, Function.update r.2.held inum false⟩)
        | .error e => (.error e, r.2) := by
  have hacquire : (Prog.ask (Cmd.acquire inum) : ClientM Unit).eval handler ⟨σ, held⟩
      = some (.ok (), ⟨σ, Function.update held inum true⟩) := by
    simp [Prog.ask, Prog.eval, handler, hfree]
  rw [locked, Prog.eval_bind, hacquire, Option.bind_some]
  simp only [Prog.eval_bind]
  cases p.eval handler ⟨σ, Function.update held inum true⟩ with
  | none => rfl
  | some r =>
    obtain ⟨o, s⟩ := r
    cases o <;> rfl

/-- **With the lock free, a program does what it does with the lock held**, and the lock is free
again afterwards. -/
theorem Runs.locked {inum : Nat} {p : ClientM α} {a : α} (h : Runs p σ (.ok a) σ')
    {held : Nat → Bool} (hfree : held inum = false) :
    (locked inum p).eval handler ⟨σ, held⟩ = some (.ok a, ⟨σ', held⟩) := by
  have hback : Function.update (Function.update held inum true) inum false = held := by
    rw [Function.update_idem, ← hfree, Function.update_eq_self]
  rw [eval_locked p hfree, h, Option.map_some]
  simp only [hback]

/-- What is said about every command of a program can be said about it under a lock, if it can be
said about the lock. -/
theorem always_locked {P : Cmd → State → Prop} {inum : Nat} {p : ClientM α} {held : Nat → Bool}
    (hacquire : ∀ lid s, P (.acquire lid) s) (hrelease : ∀ lid s, P (.release lid) s)
    (h : ∀ held', p.Always handler P ⟨σ, held'⟩) : (locked inum p).Always handler P ⟨σ, held⟩ := by
  refine Prog.always_ask_bind (hacquire _ _) fun _ s hs ↦ ?_
  have hfiles : s.files = σ := by
    rw [handler] at hs
    split at hs
    · exact absurd hs (by simp)
    · rw [← (Prod.mk.inj (Option.some_inj.1 hs)).2]
  subst hfiles
  exact (h s.held).bind fun _ _ _ ↦ Prog.always_ask_bind (hrelease _ _) fun _ _ _ ↦ trivial

/-- What comes after a program that is known to leave the files like this. -/
theorem Runs.always_bind {P : Cmd → State → Prop} {p : ClientM α} {g : α → ClientM β}
    {o : Except Fault α} {held : Nat → Bool} (hrun : Runs p σ o σ')
    (hp : p.Always handler P ⟨σ, held⟩)
    (hg : ∀ a, o = .ok a → (g a).Always handler P ⟨σ', held⟩) :
    (p >>= g).Always handler P ⟨σ, held⟩ := by
  refine hp.bind fun a s he ↦ ?_
  obtain ⟨ho, rfl⟩ := Prod.mk.inj (Option.some_inj.1 ((hrun held).symm.trans he))
  exact hg a ho

/-- An operation whose lock is not free has to wait. -/
theorem eval_prog_of_held {op : Op} {held : Nat → Bool} (hheld : held op.target = true) :
    op.prog.eval handler ⟨σ, held⟩ = none := by
  rw [Op.prog, Prog.eval_bind]
  simp [Prog.ask, Prog.eval, handler, hheld]

theorem Runs.prog {op : Op} {r : Result} (h : Runs op.body σ (.ok r) σ') {held : Nat → Bool}
    (hfree : held op.target = false) :
    op.prog.eval handler ⟨σ, held⟩ = some (.ok r, ⟨σ', held⟩) :=
  h.locked hfree

theorem Op.eval_readdir {s : State} (hf : s.files (inumOf id) = some f) (hfree : s.held id = false)
    (hents : parseDir f.data = some ents) :
    (Op.readdir id).prog.eval handler s = some (.ok (.list OK ents), s) :=
  (Op.runs_readdir (by rw [dataAt_eq hf, hents])).prog hfree

/-- An operation that does not return keeps its lock. -/
theorem Runs.prog_error {op : Op} {e : Fault} (h : Runs op.body σ (.error e) σ') {held : Nat → Bool}
    (hfree : held op.target = false) : op.prog.eval handler ⟨σ, held⟩
      = some (.error e, ⟨σ', Function.update held op.target true⟩) := by
  rw [Op.prog_eq_locked, eval_locked _ hfree, h, Option.map_some]

/-- An operation leaves the files as its body does, whatever becomes of the lock. -/
theorem Runs.files_eq {op : Op} {o o' : Except Fault Result} {s s' : State}
    (h : Runs op.body s.files o σ') (he : op.prog.eval handler s = some (o', s')) :
    s'.files = σ' := by
  obtain ⟨σ, held⟩ := s
  cases hfree : held op.target with
  | true => exact absurd he (by simp [eval_prog_of_held hfree])
  | false =>
    cases o with
    | ok r =>
      rw [h.prog hfree] at he
      rw [← (Prod.mk.inj (Option.some_inj.1 he)).2]
    | error e =>
      rw [h.prog_error hfree] at he
      rw [← (Prod.mk.inj (Option.some_inj.1 he)).2]

theorem Stuck.prog {op : Op} {s : State} (h : Stuck op.body s.files) :
    op.prog.eval handler s = none := by
  obtain ⟨σ, held⟩ := s
  cases hfree : held op.target with
  | true => exact eval_prog_of_held hfree
  | false => rw [Op.prog_eq_locked, eval_locked _ hfree, h, Option.map_none]

end Client
end Yfs
