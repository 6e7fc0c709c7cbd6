import Yfs.Client.Directory

/-!
# RPCs that fail

An RPC to the extent server can fail: it answers with a status other than `OK`, and has no effect.
When one RPC of an operation on the namespace fails and the others do not, then the operation should
fail, too, and leave everything as it was (`NoTrace`).

It hardly ever does (`noTrace_iff`).  `create`, `mkdir` and `symlink` never do.

* A failure within `_lookup` looks like a name that is not there, and the operation goes on.
* The status of the RPC that makes the inode is not looked at, nor is that of the one that writes
  the contents of a symbolic link.
* After that there is a new inode, and it is not removed again when the directory cannot be read or
  written.

An `unlink` acquires the lock and then issues, one after another, the `getattr` and the `get` of its
`_lookup`, a `remove`, another `get` and a `put`.  It fails without a trace if it is one of the
first two that fails.  It does not look at the status of the removal, and does not take the removal
back: if one of the last two fails, then there is a trace unless the entry was one for an inode that
did not exist.
-/

set_option autoImplicit false

namespace Yfs
namespace Client

open Machine
open Extent (File Store inumOf tDir tFile tSymlink)
open Status

/-- The answer of an RPC that has failed with this status. -/
def Cmd.refuse (r : Int) : (c : Cmd) → Option c.Ans
  | .acquire _ | .release _ => none
  | .create _ => some (.error r)
  | .get _ => some (.error r)
  | .getattr _ => some (.error r)
  | .put _ _ => some (.error r)
  | .remove _ => some (.error r)

/-- What is left of an operation that began with these files returns a status other than `OK`, and
leaves these files. -/
def NoTrace (σ : Store) (rest : ClientM Result) (s : State) : Prop :=
  ∃ res s', rest.eval handler s = some (.ok res, s') ∧ res.code ≠ OK ∧ s'.files = σ

/-- The inode that a directory has under a name, if it is a directory and has one. -/
def entryAt (σ : Store) (dir : Nat) (name : Bytes) : Option Nat :=
  if isDir σ dir then
    ((parseDir (dataAt σ dir)).bind fun ents ↦ ents.find? (·.name = name)).map Dirent.inum
  else none

variable {α β : Type} {s s' s₁ : State} {c : Cmd} {r : Int} {a : c.Ans} {n parent ino id : Nat}
  {name link data : Bytes} {σ : Store}

/-! ## Without a failure -/

theorem eq_of_get {b : Cmd.Ans (.get id)} (h : handler (.get id) s = some (b, s')) :
    s' = s ∧ ∃ buf, b = .ok buf := by
  simp only [handler, handler.inodeAt, touch, Option.map_some, Function.update_eq_self] at h
  obtain ⟨rfl, rfl⟩ := Prod.mk.inj (Option.some_inj.1 h)
  exact ⟨rfl, _, rfl⟩

theorem eq_of_put {b : Cmd.Ans (.put id data)} (h : handler (.put id data) s = some (b, s')) :
    b = .ok () := by
  simp only [handler, handler.inodeAt, touch, Option.map_map, Option.map_eq_some_iff] at h
  obtain ⟨f, -, he⟩ := h
  exact (Prod.mk.inj he).1.symm

namespace Held

theorem eq_of_lookup {x : Int × Bool × Nat}
    (h : (lookup parent name ino).eval handler s = some (.ok x, s')) : s' = s := by
  obtain ⟨o, hrun⟩ := exists_runs_lookup s.files parent name ino
  have heq := (hrun s.held).symm.trans h
  exact (Prod.mk.inj (Option.some_inj.1 heq)).2.symm

/-- An entry that has been appended has been appended well. -/
theorem eq_ok_of_addEntry (h : (addEntry parent name ino).eval handler s = some (.ok r, s')) :
    r = OK := by
  obtain ⟨b, s₁, hget, h⟩ := Prog.eval_ask_bind_eq_ok.1 h
  obtain ⟨-, buf, rfl⟩ := eq_of_get hget
  obtain ⟨b, s₂, hput, h⟩ := Prog.eval_ask_bind_eq_ok.1 h
  obtain rfl := eq_of_put hput
  exact (Except.ok.inj (Prod.mk.inj (Option.some_inj.1 h)).1).symm

/-- What is left after the inode has been made, or should have been, returns `OK`. -/
theorem eq_ok_of_enter {j : Nat} {x : Int × Nat}
    (h : (addEntry parent name j >>= fun r ↦ Pure.pure (r, j)).eval handler s = some (.ok x, s')) :
    x.1 = OK := by
  obtain ⟨r, s₁, hadd, h⟩ := Prog.eval_bind_eq_ok.1 h
  obtain rfl := Except.ok.inj (Prod.mk.inj (Option.some_inj.1 h)).1
  exact eq_ok_of_addEntry hadd

theorem newInode_cases {type i : Nat}
    (h : (newInode type ino).eval handler s = some (.ok i, s')) :
    s.files i = none ∧ s'.files i ≠ none := by
  cases hi : s.files.firstFree with
  | none => exact absurd h (by simp [stuck_newInode hi s.held])
  | some j =>
    have hrun : Runs (newInode type ino) s.files _ _ := runs_newInode hi
    have heq := (hrun s.held).symm.trans h
    obtain ⟨hj, rfl⟩ := Prod.mk.inj (Option.some_inj.1 heq)
    obtain rfl := Except.ok.inj hj
    exact ⟨(Store.firstFree_bounds hi).2, by simp⟩

/-! ## The RPC that fails -/

theorem steps_isdir : (isdir parent).steps handler s = 1 := rfl

theorem steps_readdir {ents : List Dirent} (hents : parseDir (dataAt s.files parent) = some ents) :
    (readdir parent).steps handler s = 1 := by
  rw [readdir, Prog.steps_bind (runs_get s.held)]
  simp only [hents]
  rfl

/-- `_lookup` issues two commands if it finds the name. -/
theorem of_lookup {j : Nat}
    (h : (lookup parent name ino).eval handler s = some (.ok (r, true, j), s')) :
    (lookup parent name ino).steps handler s = 2 ∧ entryAt s.files parent name = some j := by
  cases hdir : isDir s.files parent with
  | false =>
    have heq := ((runs_lookup_of_not_isDir hdir) s.held).symm.trans h
    exact absurd (Except.ok.inj (Prod.mk.inj (Option.some_inj.1 heq)).1) (by simp)
  | true =>
    cases hents : parseDir (dataAt s.files parent) with
    | none =>
      have heq := (runs_lookup_of_endless hdir hents s.held).symm.trans h
      exact absurd (Prod.mk.inj (Option.some_inj.1 heq)).1 (by simp)
    | some ents =>
      have heq := (runs_lookup hdir hents s.held).symm.trans h
      have hfound := Except.ok.inj (Prod.mk.inj (Option.some_inj.1 heq)).1
      rw [lookupIn] at hfound
      rw [lookup, Prog.steps_bind (runs_isdir s.held), steps_isdir, if_pos hdir,
        Prog.steps_bind (runs_readdir hents s.held), steps_readdir hents, entryAt,
        if_pos hdir, hents, Option.bind_some]
      split at hfound
      · rename_i e he
        refine ⟨by simp only [he]; rfl, ?_⟩
        rw [he]
        exact congrArg some (Prod.mk.inj (Prod.mk.inj hfound).2).2
      · exact absurd hfound (by simp)

theorem issues_lookup {k : c.Ans → ClientM (Int × Bool × Nat)}
    (hi : Prog.Issues handler n (lookup parent name ino) s c k s₁) (ha : c.refuse r = some a)
    (hr : r ≠ OK) :
    s₁ = s ∧ n ≤ 1 ∧ ∃ r', k a = .pure (r', false, ino) := by
  rcases hi.bind_cases with ⟨k', hk', rfl⟩ | ⟨b, s₂, m, hdir, rfl, hk⟩
  · cases hk' with
    | here =>
      obtain rfl := Option.some_inj.1 ha
      exact ⟨rfl, Nat.zero_le 1, OK, rfl⟩
    | @later _ _ _ _ _ _ _ _ b _ hk =>
      cases b <;> cases hk
  · have heq := (runs_isdir s.held).symm.trans hdir
    obtain ⟨-, rfl⟩ := Prod.mk.inj (Option.some_inj.1 heq)
    cases b with
    | false => cases hk
    | true =>
      rw [if_pos rfl] at hk
      rcases hk.bind_cases with ⟨k', hk', rfl⟩ | ⟨⟨r', ents⟩, s₃, m', -, -, hk⟩
      · cases hk' with
        | here =>
          obtain rfl := Option.some_inj.1 ha
          refine ⟨rfl, steps_isdir.le, r, ?_⟩
          change (if r ≠ OK then Pure.pure (r, false, ino) else _) = _
          rw [if_pos hr]
          rfl
        | @later _ _ _ _ _ _ _ _ b hget hk =>
          obtain ⟨-, buf, rfl⟩ := eq_of_get hget
          simp only [Prog.bind] at hk
          split at hk <;> cases hk
      · simp only at hk
        split at hk
        · cases hk
        · split at hk <;> cases hk

theorem issues_addEntry {k : c.Ans → ClientM Int}
    (hi : Prog.Issues handler n (addEntry parent name ino) s c k s₁) (ha : c.refuse r = some a) :
    s₁ = s ∧ k a = .pure r := by
  cases hi with
  | here =>
    obtain rfl := Option.some_inj.1 ha
    exact ⟨rfl, rfl⟩
  | @later _ _ _ _ _ _ _ _ b hget hk =>
    obtain ⟨rfl, buf, rfl⟩ := eq_of_get hget
    cases hk with
    | here =>
      obtain rfl := Option.some_inj.1 ha
      exact ⟨rfl, rfl⟩
    | @later _ _ _ _ _ _ _ _ b hput hk =>
      obtain rfl := eq_of_put hput
      cases hk

/-- When an RPC of the last part fails, the inode that has been made is still there. -/
theorem trace_of_enter {j : Nat} {k : c.Ans → ClientM (Int × Nat)} {x : Int × Nat}
    (hi : Prog.Issues handler n (addEntry parent name j >>= fun r ↦ Pure.pure (r, j)) s c k s₁)
    (ha : c.refuse r = some a) (he : (k a).eval handler s₁ = some (.ok x, s')) : s' = s := by
  rcases hi.bind_cases with ⟨k', hk', rfl⟩ | ⟨r', s₂, m, -, -, hk⟩
  · obtain ⟨rfl, hka⟩ := issues_addEntry hk' ha
    simp only [hka] at he
    exact (Prod.mk.inj (Option.some_inj.1 he)).2.symm
  · cases hk

theorem issues_newInode {type : Nat} {k : c.Ans → ClientM Nat}
    (hi : Prog.Issues handler n (newInode type ino) s c k s₁) (ha : c.refuse r = some a) :
    k a = .pure ino := by
  cases hi with
  | here =>
    obtain rfl := Option.some_inj.1 ha
    rfl
  | @later _ _ _ _ _ _ _ _ b hcreate hk => cases b <;> cases hk

/-- **A failure does not stop `_create` and `_mkdir`**, or there is a new inode. -/
theorem trace_of_make {type : Nat} {k : c.Ans → ClientM (Int × Nat)} {x : Int × Nat}
    (hi : Prog.Issues handler n (make type parent name ino) s c k s₁) (ha : c.refuse r = some a)
    (hr : r ≠ OK) (he : (k a).eval handler s₁ = some (.ok x, s')) :
    x.1 = OK ∨ s'.files ≠ s.files := by
  rcases hi.bind_cases with ⟨k', hk', rfl⟩ | ⟨⟨r', found, j⟩, s₂, m, hl, rfl, hk⟩
  · -- in `_lookup`: the name seems not to be there
    obtain ⟨rfl, -, r', hka⟩ := issues_lookup hk' ha hr
    simp only [hka] at he
    change (newInode type ino >>= fun i ↦ addEntry parent name i >>= fun r ↦
      Pure.pure (r, i)).eval handler _ = _ at he
    obtain ⟨i, s₂, -, he⟩ := Prog.eval_bind_eq_ok.1 he
    exact Or.inl (eq_ok_of_enter he)
  · obtain rfl := eq_of_lookup hl
    cases found with
    | true => cases hk
    | false =>
      rcases hk.bind_cases with ⟨k', hk', rfl⟩ | ⟨i, s₃, m', hnew, -, hk⟩
      · simp only [issues_newInode hk' ha] at he
        exact Or.inl (eq_ok_of_enter he)
      · obtain rfl := trace_of_enter hk ha he
        obtain ⟨hfree, hlive⟩ := newInode_cases hnew
        exact Or.inr fun heq ↦ hlive (by rw [heq, hfree])

/-- The contents of a symbolic link have been written, or not. -/
theorem put_cases {b : Cmd.Ans (.put id data)} {i : Nat}
    (h : handler (.put id data) s = some (b, s')) (hi : s.files i ≠ none) : s'.files i ≠ none := by
  simp only [handler, handler.inodeAt, touch, Option.map_map, Option.map_eq_some_iff] at h
  obtain ⟨f, -, he⟩ := h
  obtain ⟨-, rfl⟩ := Prod.mk.inj he
  simp only [Function.update_apply]
  split
  · simp
  · exact hi

/-- What is left of a `_symlink` after the inode has been made, or should have been. -/
theorem eq_ok_of_link {j : Nat} {x : Int × Nat}
    (h : (Prog.ask (Cmd.put j link) >>= fun _ ↦ addEntry parent name j >>= fun r ↦
      Pure.pure (r, j)).eval handler s = some (.ok x, s')) : x.1 = OK := by
  obtain ⟨b, s₁, -, h⟩ := Prog.eval_ask_bind_eq_ok.1 h
  exact eq_ok_of_enter h

/-- **A failure does not stop `_symlink`**, or there is a new inode. -/
theorem trace_of_symlink {k : c.Ans → ClientM (Int × Nat)} {x : Int × Nat}
    (hi : Prog.Issues handler n (symlink parent name link ino) s c k s₁) (ha : c.refuse r = some a)
    (hr : r ≠ OK) (he : (k a).eval handler s₁ = some (.ok x, s')) :
    x.1 = OK ∨ s'.files ≠ s.files := by
  rcases hi.bind_cases with ⟨k', hk', rfl⟩ | ⟨⟨r', found, j⟩, s₂, m, hl, rfl, hk⟩
  · obtain ⟨rfl, -, r', hka⟩ := issues_lookup hk' ha hr
    simp only [hka] at he
    change (newInode tSymlink ino >>= fun i ↦ Prog.ask (Cmd.put i link) >>= fun _ ↦
      addEntry parent name i >>= fun r ↦ Pure.pure (r, i)).eval handler _ = _ at he
    obtain ⟨i, s₂, -, he⟩ := Prog.eval_bind_eq_ok.1 he
    exact Or.inl (eq_ok_of_link he)
  · obtain rfl := eq_of_lookup hl
    cases found with
    | true => cases hk
    | false =>
      rcases hk.bind_cases with ⟨k', hk', rfl⟩ | ⟨i, s₃, m', hnew, -, hk⟩
      · simp only [issues_newInode hk' ha] at he
        exact Or.inl (eq_ok_of_link he)
      · obtain ⟨hfree, hlive⟩ := newInode_cases hnew
        cases hk with
        | here => exact Or.inl (eq_ok_of_enter he)
        | later hput hk =>
          obtain rfl := trace_of_enter hk ha he
          exact Or.inr fun heq ↦ put_cases hput hlive (by rw [heq, hfree])

/-- What is left of an `_unlink` after the inode has been removed, or should have been. -/
theorem eq_ok_of_cut {text : Bytes} {x : Int}
    (h : (Prog.ask (Cmd.get parent) >>= fun
      | .error r => Pure.pure r
      | .ok buf =>
        match findText text buf with
        | none => .throw .outOfRange
        | some pos => do
          match ← Prog.ask (Cmd.put parent (buf.take pos ++ buf.drop (pos + text.length))) with
          | .error r => Pure.pure r
          | .ok () => Pure.pure OK : ClientM Int).eval handler s = some (.ok x, s')) : x = OK := by
  obtain ⟨b, s₁, hget, h⟩ := Prog.eval_ask_bind_eq_ok.1 h
  obtain ⟨-, buf, rfl⟩ := eq_of_get hget
  simp only at h
  split at h
  · exact absurd h (by simp [Prog.eval])
  · obtain ⟨b, s₂, hput, h⟩ := Prog.eval_ask_bind_eq_ok.1 h
    obtain rfl := eq_of_put hput
    exact (Except.ok.inj (Prod.mk.inj (Option.some_inj.1 h)).1).symm

/-- **A failure stops `_unlink`**, unless it is that of the removal; and then nothing has changed
unless something has been removed. -/
theorem noTrace_unlink {k : c.Ans → ClientM Int}
    (hi : Prog.Issues handler n (unlink parent name) s c k s₁) (ha : c.refuse r = some a)
    (hr : r ≠ OK) :
    (∃ x s', (k a).eval handler s₁ = some (.ok x, s') ∧ x ≠ OK ∧ s'.files = s.files) ↔
      n ≤ 1 ∨ 3 ≤ n ∧ ∃ j, entryAt s.files parent name = some j ∧ s.files (inumOf j) = none := by
  rcases hi.bind_cases with ⟨k', hk', rfl⟩ | ⟨⟨r', found, j⟩, s₂, m, hl, rfl, hk⟩
  · obtain ⟨rfl, hn, r', hka⟩ := issues_lookup hk' ha hr
    simp only [hka]
    exact iff_of_true ⟨NOENT, s₁, rfl, by decide, rfl⟩ (Or.inl hn)
  · obtain rfl := eq_of_lookup hl
    cases found with
    | false => cases hk
    | true =>
      obtain ⟨hsteps, hentry⟩ := of_lookup hl
      rw [hsteps, hentry]
      -- after the removal, the operation stops with the files that there are then
      have hstop : ∀ {s₃ : State}, s₃.files = Function.update s₂.files (inumOf j) none →
          ∀ m, ((∃ x s', (Prog.pure r : ClientM Int).eval handler s₃ = some (.ok x, s') ∧ x ≠ OK ∧
            s'.files = s₂.files) ↔ 2 + (m + 1) ≤ 1 ∨ 3 ≤ 2 + (m + 1) ∧
              ∃ i, some j = some i ∧ s₂.files (inumOf i) = none) := by
        intro s₃ hs₃ m
        have hgone : s₃.files = s₂.files ↔ s₂.files (inumOf j) = none := by
          rw [hs₃, Function.update_eq_self_iff, eq_comm]
        constructor
        · rintro ⟨x, s', he, -, hfiles⟩
          rw [← (Prod.mk.inj (Option.some_inj.1 he)).2] at hfiles
          exact Or.inr ⟨by omega, j, rfl, hgone.1 hfiles⟩
        · rintro (h | ⟨-, i, hi, hnone⟩)
          · omega
          · obtain rfl := Option.some_inj.1 hi
            exact ⟨r, s₃, rfl, hr, hgone.2 hnone⟩
      cases hk with
      | here =>
        refine iff_of_false ?_ (by omega)
        rintro ⟨x, s', he, hx, -⟩
        exact absurd (eq_ok_of_cut he) hx
      | @later _ _ _ _ _ _ s₃ _ b hrm hk =>
        have hs₃ : s₃.files = Function.update s₂.files (inumOf j) none := by
          rw [← (Prod.mk.inj (Option.some_inj.1 hrm)).2]
        cases hk with
        | here =>
          obtain rfl := Option.some_inj.1 ha
          exact hstop hs₃ 0
        | @later _ _ _ _ _ _ _ _ b hget hk =>
          obtain ⟨rfl, buf, rfl⟩ := eq_of_get hget
          simp only [Prog.bind] at hk
          split at hk
          · cases hk
          · cases hk with
            | here =>
              obtain rfl := Option.some_inj.1 ha
              exact hstop hs₃ 1
            | @later _ _ _ _ _ _ _ _ b hput hk =>
              obtain rfl := eq_of_put hput
              cases hk

end Held

/-! ## Operations -/

theorem noTrace_map {p : ClientM α} {f : α → Result} :
    NoTrace σ (p >>= fun x ↦ Pure.pure (f x)) s ↔
      ∃ x s', p.eval handler s = some (.ok x, s') ∧ (f x).code ≠ OK ∧ s'.files = σ := by
  constructor
  · rintro ⟨res, s', he, hcode, hfiles⟩
    obtain ⟨x, s₁, hp, he⟩ := Prog.eval_bind_eq_ok.1 he
    obtain ⟨hres, rfl⟩ := Prod.mk.inj (Option.some_inj.1 he)
    obtain rfl := Except.ok.inj hres
    exact ⟨x, s₁, hp, hcode, hfiles⟩
  · rintro ⟨x, s', hp, hcode, hfiles⟩
    exact ⟨f x, s', Prog.eval_bind_eq_ok.2 ⟨x, s', hp, rfl⟩, hcode, hfiles⟩

/-- Whatever the first part does leaves a trace. -/
theorem not_noTrace_map {p : ClientM α} {f : α → Result}
    (h : ∀ {x s'}, p.eval handler s = some (.ok x, s') → (f x).code = OK ∨ s'.files ≠ σ) :
    ¬ NoTrace σ (p >>= fun x ↦ Pure.pure (f x)) s := by
  rw [noTrace_map]
  rintro ⟨x, s', he, hcode, hfiles⟩
  exact (h he).elim hcode (absurd hfiles)

theorem issues_map {p : ClientM α} {f : α → Result} {k : c.Ans → ClientM Result}
    (hi : Prog.Issues handler n (f <$> p) s c k s₁) :
    ∃ k', Prog.Issues handler n p s c k' s₁ ∧ k = fun a ↦ k' a >>= fun x ↦ Pure.pure (f x) := by
  rcases Prog.Issues.bind_cases (f := fun x ↦ Pure.pure (f x)) hi with h | ⟨x, s', m, -, -, h⟩
  · exact h
  · cases h

/-- The lock comes first, and makes no other difference. -/
theorem issues_prog {op : Op} {k : c.Ans → ClientM Result}
    (hi : Prog.Issues handler n op.prog s c k s₁) (ha : c.refuse r = some a) :
    ∃ m held k', n = m + 1 ∧ Prog.Issues handler m op.body ⟨s.files, held⟩ c k' s₁ ∧
      ∀ σ, NoTrace σ (k a) s₁ ↔ NoTrace σ (k' a) s₁ := by
  cases hi with
  | here => exact absurd ha (by simp [Cmd.refuse])
  | @later m _ _ _ _ _ s₂ _ b hacquire hk =>
    have hs₂ : s₂ = ⟨s.files, Function.update s.held op.target true⟩ := by
      rw [handler] at hacquire
      split at hacquire
      · exact absurd hacquire (by simp)
      · exact (Prod.mk.inj (Option.some_inj.1 hacquire)).2.symm
    subst hs₂
    change Prog.Issues handler m (op.body >>= fun res ↦ Prog.ask (Cmd.release op.target) >>= fun _ ↦
      Pure.pure res) _ _ _ _ at hk
    rcases hk.bind_cases with ⟨k', hk', rfl⟩ | ⟨res, s₃, m', -, -, hk⟩
    · refine ⟨m, _, k', rfl, hk', fun σ ↦ ⟨?_, ?_⟩⟩
      · rintro ⟨res, s', he, hcode, hfiles⟩
        obtain ⟨res', s₃, hbody, he⟩ := Prog.eval_bind_eq_ok.1 he
        obtain ⟨hres, rfl⟩ := Prod.mk.inj (Option.some_inj.1 he)
        obtain rfl := Except.ok.inj hres
        exact ⟨res', s₃, hbody, hcode, hfiles⟩
      · rintro ⟨res, s', he, hcode, hfiles⟩
        exact ⟨res, _, Prog.eval_bind_eq_ok.2 ⟨res, s', he, rfl⟩, hcode, hfiles⟩
    · cases hk with
      | here => exact absurd ha (by simp [Cmd.refuse])
      | later _ hk => cases hk

/-- The operations on the namespace. -/
def Op.Renames (op : Op) : Prop := ∃ dir name, op.Makes dir name ∨ op = .unlink dir name

theorem Op.Makes.ne_unlink {op : Op} {dir dir' : Nat} {name' : Bytes} (hop : op.Makes dir name) :
    op ≠ .unlink dir' name' := by
  obtain ⟨ino, rfl | rfl | ⟨link, rfl⟩⟩ := hop <;> simp

/-- **One RPC of an operation on the namespace fails**, after `n` commands, the first of which
acquires the lock.  The operation fails and leaves no trace just if it is an `unlink`, and the RPC
is one of the two of its `_lookup`, or comes after the removal and the entry was one for an inode
that did not exist. -/
theorem noTrace_iff {op : Op} (hop : op.Renames) {k : c.Ans → ClientM Result}
    (hi : Prog.Issues handler n op.prog s c k s₁) (ha : c.refuse r = some a) (hr : r ≠ OK) :
    NoTrace s.files (k a) s₁ ↔ ∃ dir name, op = .unlink dir name ∧
      (n ≤ 2 ∨ 4 ≤ n ∧ ∃ i, entryAt s.files dir name = some i ∧ s.files (inumOf i) = none) := by
  obtain ⟨m, held, k', rfl, hi', hiff⟩ := issues_prog hi ha
  rw [hiff]
  obtain ⟨dir, name, hmakes | rfl⟩ := hop
  · refine iff_of_false ?_ fun ⟨_, _, h, _⟩ ↦ hmakes.ne_unlink h
    obtain ⟨ino, rfl | rfl | ⟨link, rfl⟩⟩ := hmakes <;> obtain ⟨k₁, hk₁, rfl⟩ := issues_map hi'
    · exact not_noTrace_map (Held.trace_of_make (s := ⟨s.files, held⟩) hk₁ ha hr)
    · exact not_noTrace_map (Held.trace_of_make (s := ⟨s.files, held⟩) hk₁ ha hr)
    · exact not_noTrace_map (Held.trace_of_symlink (s := ⟨s.files, held⟩) hk₁ ha hr)
  · obtain ⟨k₁, hk₁, rfl⟩ := issues_map hi'
    rw [noTrace_map]
    refine (Held.noTrace_unlink hk₁ ha hr).trans ⟨fun h ↦ ⟨dir, name, rfl, ?_⟩, ?_⟩
    · rwa [Nat.succ_le_succ_iff, Nat.succ_le_succ_iff]
    · rintro ⟨_, _, h, hcond⟩
      obtain ⟨rfl, rfl⟩ := Op.unlink.inj h
      rwa [Nat.succ_le_succ_iff, Nat.succ_le_succ_iff] at hcond

/-- A root directory with a file in it. -/
def oneFile : Store
  | 1 => some ⟨tDir, [102, 47, 50, 47]⟩
  | 2 => some ⟨tFile, [120]⟩
  | _ => none

theorem issues_unlink_oneFile : ∃ k s₁,
    Prog.Issues handler 1 (Op.unlink 1 [102]).prog ⟨oneFile, fun _ ↦ false⟩ (.getattr 1) k s₁ :=
  ⟨_, _, .later rfl (.here _ _ _)⟩

theorem noTrace_unlink_oneFile : ∃ k s₁,
    Prog.Issues handler 1 (Op.unlink 1 [102]).prog ⟨oneFile, fun _ ↦ false⟩ (.getattr 1) k s₁ ∧
      NoTrace oneFile (k (.error 3)) s₁ := by
  obtain ⟨k, s₁, hi⟩ := issues_unlink_oneFile
  exact ⟨k, s₁, hi, (noTrace_iff ⟨1, [102], Or.inr rfl⟩ hi rfl (by decide)).2
    ⟨1, [102], rfl, Or.inl (by decide)⟩⟩

theorem not_noTrace {rest : ClientM Result} {res : Result}
    (he : rest.eval handler s = some (.ok res, s')) (h : res.code = OK ∨ s'.files ≠ σ) :
    ¬ NoTrace σ rest s := by
  rintro ⟨res', s'', he', hcode, hfiles⟩
  obtain ⟨hres, rfl⟩ := Prod.mk.inj (Option.some_inj.1 (he.symm.trans he'))
  obtain rfl := Except.ok.inj hres
  exact h.elim hcode (absurd hfiles)

/-- **A `create` in the root directory goes wrong.**  When its first RPC fails, it returns `OK`
although the name `f` is there already, and when its last RPC fails, inode 3 remains. -/
theorem create_leaves_trace :
    (∃ k s₁ s', Prog.Issues handler 1 (Op.create 1 [102] 0).prog ⟨oneFile, fun _ ↦ false⟩
        (.getattr 1) k s₁ ∧
      (k (.error 3)).eval handler s₁ = some (.ok (.ino OK 3), s') ∧
      s'.files 1 = some ⟨tDir, [102, 47, 50, 47, 102, 47, 51, 47]⟩ ∧
      ¬ NoTrace oneFile (k (.error 3)) s₁) ∧
    ∃ k s₁ s', Prog.Issues handler 5 (Op.create 1 [103] 0).prog ⟨oneFile, fun _ ↦ false⟩
        (.put 1 [102, 47, 50, 47, 103, 47, 51, 47]) k s₁ ∧
      (k (.error 3)).eval handler s₁ = some (.ok (.ino 3 3), s') ∧ s'.files 3 = some ⟨tFile, []⟩ ∧
      ¬ NoTrace oneFile (k (.error 3)) s₁ := by
  constructor
  · refine ⟨_, _, _, .later rfl (.here _ _ _), rfl, rfl, ?_⟩
    exact not_noTrace rfl (Or.inl rfl)
  · refine ⟨_, _, _, .later rfl (.later rfl (.later rfl (.later rfl (.later rfl (.here _ _ _))))),
      rfl, rfl, ?_⟩
    refine not_noTrace rfl (Or.inr fun h ↦ ?_)
    exact absurd (congrFun h 3) (by decide)

end Client
end Yfs
