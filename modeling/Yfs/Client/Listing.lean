import Yfs.Client.Stack

/-!
# Listing a directory

The kernel lists a directory in pages.  For each of them `fuseserver_readdir` reads the whole
directory anew, lays out all of its entries, and sends the piece that was asked for; the kernel
takes out of it the entries that are there as a whole and goes on at the position that the last of
them carries.  In between everybody else goes on as well.

So it depends on what others do to the directory whether the pieces fit together.  Files that are
made are entered at its end, and do no harm: what has been listed is at any time a beginning of the
directory, every entry that was there when the listing began is in it at the end, once and in its
place, and it does come to an end (`listing_complete`).  If a file is removed from the directory,
the positions of what follows change, and an entry may be left out, as the example at the end shows.

How an entry is laid out is a matter of libfuse, and how it is read a matter of the kernel.  All
that is assumed is that the kernel reads, out of the beginning of a page, the entry that has been
put there, if the entry is all right, and not before it is there as a whole (`Records.Sound`).
-/

set_option autoImplicit false

namespace Yfs
namespace Client

open Machine
open Extent (Env Rep Store)
open Fuse Fuseserver

/-! ## What others do to a directory -/

/-- The directory from which a request removes an entry. -/
def Fuseserver.Request.unlinksIn : Request → Option Nat
  | .unlink parent _ => some parent
  | _ => none

namespace Tree

variable {L : Libfuse} {t t' : Tree} {a : Answer} {dir d i : Nat} {ents : List Dirent}
  {name : Bytes} {o : Object}

theorem ne_of_fresh (hi : t.fresh = some i) (hdir : t dir ≠ none) : dir ≠ i := by
  rintro rfl
  have hnone := List.find?_some hi
  exact hdir (by simpa using hnone)

/-- Something is made, in this directory or in another one. -/
theorem make_dir {reply : Nat → Stat → Answer} (hdir : t dir = some (.dir ents))
    (hs : t.make d name o reply = some (a, t')) :
    ∃ ents', t' dir = some (.dir ents') ∧ ents <+: ents' := by
  unfold make at hs
  split at hs
  case h_2 => exact absurd hs (by simp)
  rename_i ents₁ hd
  obtain ⟨-, hs⟩ := Option.ite_none_left_eq_some.1 hs
  split at hs
  · obtain ⟨rfl, rfl⟩ := Prod.mk.inj (Option.some_inj.1 hs)
    exact ⟨ents, hdir, List.prefix_refl _⟩
  · obtain ⟨i, hi, he⟩ := Option.map_eq_some_iff.1 hs
    obtain ⟨rfl, rfl⟩ := Prod.mk.inj he
    have hne : dir ≠ i := ne_of_fresh hi (by rw [hdir]; simp)
    rcases eq_or_ne dir d with rfl | hne'
    · obtain rfl : ents₁ = ents := Object.dir.inj (Option.some_inj.1 (hd.symm.trans hdir))
      exact ⟨_, Function.update_self .., List.prefix_append _ _⟩
    · refine ⟨ents, ?_, List.prefix_refl _⟩
      rw [Function.update_of_ne hne', Function.update_of_ne hne, hdir]

/-- **Entries are only ever added at the end**, except by a request that removes one. -/
theorem serve_dir {req : Request} (hdir : t dir = some (.dir ents))
    (hreq : req.unlinksIn ≠ some dir) (hs : t.serve L req = some (a, t')) :
    ∃ ents', t' dir = some (.dir ents') ∧ ents <+: ents' := by
  obtain ⟨hs, -⟩ := of_serve hs
  have hsame : ∀ {b : Answer}, (b, t) = (a, t') →
      ∃ ents', t' dir = some (.dir ents') ∧ ents <+: ents' := by
    intro b hb
    obtain ⟨-, rfl⟩ := Prod.mk.inj hb
    exact ⟨ents, hdir, List.prefix_refl _⟩
  have hother : ∀ {j : Nat} {o o' : Option Object}, t j = o → o ≠ some (.dir ents) →
      ∃ ents', Function.update t j o' dir = some (.dir ents') ∧ ents <+: ents' := by
    intro j o o' hj ho
    have hne : dir ≠ j := by
      rintro rfl
      exact ho (hj.symm.trans hdir)
    exact ⟨ents, by rw [Function.update_of_ne hne, hdir], List.prefix_refl _⟩
  cases req with
  | getattr ino =>
    obtain ⟨o, ho, he⟩ := Option.map_eq_some_iff.1 hs
    exact hsame he
  | setattr ino stSize toSet =>
    rw [respond] at hs
    split at hs
    · rename_i data hi
      split at hs
      · obtain ⟨-, rfl⟩ := Prod.mk.inj (Option.some_inj.1 (Option.ite_none_right_eq_some.1 hs).2)
        exact hother hi (by simp)
      · obtain ⟨-, hs⟩ := Option.ite_none_right_eq_some.1 hs
        exact hsame (Option.some_inj.1 hs)
    · exact absurd hs (by simp)
  | read ino size off =>
    rw [respond] at hs
    split at hs
    · exact hsame (Option.some_inj.1 (Option.ite_none_right_eq_some.1 hs).2)
    · exact absurd hs (by simp)
  | write ino data off =>
    rw [respond] at hs
    split at hs
    · rename_i old hi
      obtain ⟨-, rfl⟩ := Prod.mk.inj (Option.some_inj.1 (Option.ite_none_right_eq_some.1 hs).2)
      exact hother hi (by simp)
    · exact absurd hs (by simp)
  | create parent name => exact make_dir hdir hs
  | mknod parent name => exact make_dir hdir hs
  | mkdir parent name => exact make_dir hdir hs
  | symlink link parent name => exact make_dir hdir hs
  | readlink ino =>
    rw [respond] at hs
    split at hs
    · exact hsame (Option.some_inj.1 hs)
    · exact absurd hs (by simp)
  | lookup parent name =>
    rw [respond] at hs
    split at hs
    · split at hs
      · obtain ⟨o, ho, he⟩ := Option.map_eq_some_iff.1 hs
        exact hsame he
      · exact hsame (Option.some_inj.1 hs)
    · exact hsame (Option.some_inj.1 hs)
    · exact absurd hs (by simp)
  | unlink parent name =>
    rw [respond] at hs
    have hne : dir ≠ parent := fun heq ↦ hreq (congrArg some heq.symm)
    split at hs
    · rename_i ents₁ hd
      split at hs
      · rename_i e he
        obtain ⟨hnot, hs⟩ := Option.ite_none_left_eq_some.1 hs
        obtain ⟨-, rfl⟩ := Prod.mk.inj (Option.some_inj.1 hs)
        rw [Function.update_of_ne hne]
        exact hother rfl fun heq ↦ (not_or.1 hnot).1 (by rw [isDirectory, heq])
      · exact hsame (Option.some_inj.1 hs)
    · exact hsame (Option.some_inj.1 hs)
    · exact absurd hs (by simp)
  | readdir ino size off =>
    rw [respond] at hs
    split at hs
    · exact hsame (Option.some_inj.1 (Option.ite_none_right_eq_some.1 hs).2)
    · exact hsame (Option.some_inj.1 hs)
    · exact absurd hs (by simp)
  | «open» ino => exact hsame (Option.some_inj.1 hs)
  | statfs => exact hsame (Option.some_inj.1 hs)

end Tree

/-! ## A listing -/

/-- The kernel asks for a page of the directory, or there is another request. -/
inductive Turn where
  | page (size : Nat)
  | request (req : Request)

def Turn.isPage : Turn → Bool
  | .page _ => true
  | .request _ => false

section

variable (L : Libfuse) (next : Next (Bytes × Nat) UInt8) (ok : Bytes × Nat → Nat → Prop)
  (junk dir : Nat)

/-- A turn, with the listing so far; `none` if there is no answer, or it is not a page.  The
commands are executed by `h`. -/
def listingStep {S : Type} (h : (c : Cmd) → S → Option (c.Ans × S)) (s : S × Reader (Bytes × Nat)) :
    Turn → Option (S × Reader (Bytes × Nat))
  | .page size =>
    match (Fuseserver.readdir L dir size s.2.pos).eval h s.1 with
    | some (.ok (.buf page), s') => some (s', s.2.turn next page)
    | _ => none
  | .request req =>
    match (req.prog L junk).eval h s.1 with
    | some (.ok _, s') => some (s', s.2)
    | _ => none

/-- What becomes of the file system in a turn. -/
def Tree.turn (t : Tree) : Turn → Option Tree
  | .page _ => some t
  | .request req => (t.serve L req).map Prod.snd

/-- A page is large enough for every entry, every entry is one that the kernel can read, and the
positions are not too large; a request removes nothing from the directory. -/
def Admitted (t : Tree) : Turn → Prop
  | .page size => ∃ ents, t dir = some (.dir ents) ∧
      (∀ r ∈ listed ents, L.direntSize r.1.length ≤ size) ∧
      (∀ x ∈ L.dirents.marks 0 (listed ents), ok x.1 x.2) ∧ L.dirents.total (listed ents) < 2 ^ 63
  | .request req => req.unlinksIn ≠ some dir

/-- What holds at any time during a listing that began with these entries in the directory. -/
structure InListing (first : List Dirent) (t : Tree) (s : Node × Reader (Bytes × Nat)) : Prop where
  disk : ∃ σ, Rep s.1.disk σ ∧ objects σ = t ∧ Tidy σ
  held : s.1.held = fun _ ↦ false
  dir : ∃ ents, t dir = some (.dir ents) ∧ first <+: ents ∧ s.2.At L.dirents (listed ents)
  ended : s.2.ended = true → listed first <+: s.2.got
  pages : s.2.ended = true ∨ s.2.pages ≤ s.2.got.length

end

variable {L : Libfuse} {next : Next (Bytes × Nat) UInt8} {ok : Bytes × Nat → Nat → Prop}
  {junk dir : Nat} {first ents : List Dirent} {t t' : Tree} {s : Node × Reader (Bytes × Nat)}

/-- A page has no time stamps in it. -/
theorem eq_buf_of_same {page : Bytes} {b : Answer} (h : SameAnswer (.buf page) b) :
    b = .buf page := by
  cases b with
  | reply r => cases r <;> exact absurd h (by simp [SameAnswer, Answer.untimed])
  | buf data => exact h.symm
  | _ => exact absurd h (by simp [SameAnswer, Answer.untimed])

/-- What a handler does on the disk that does what it should. -/
theorem exists_eval_of_meets (envs : Nat → Env) {n : Node} {σ : Store} {p : ClientM Answer}
    {a : Answer} (hrep : Rep n.disk σ) (hheld : n.held = fun _ ↦ false) (hp : Meets σ p a t')
    (hrel : Prog.Related Cmd.Same SameAnswer p p) :
    ∃ b n', p.eval (Node.step envs) n = some (.ok b, n') ∧ SameAnswer a b ∧
      (∃ σ', Rep n'.disk σ' ∧ objects σ' = t' ∧ Tidy σ') ∧ n'.held = fun _ ↦ false := by
  obtain ⟨σ', hserves, hobj, htidy⟩ := hp
  obtain ⟨b, n', heval, hsame, hn'⟩ := hserves.exists_eval (faithful_step envs) hrel
    (⟨hrep, hheld⟩ : n.Holds ⟨σ, fun _ ↦ false⟩) fun _ ↦ rfl
  exact ⟨b, n', heval, hsame, ⟨σ', hn'.files, hobj, htidy⟩, hn'.locks⟩

namespace InListing

variable (h : InListing L dir first t s)
include h

theorem page (envs : Nat → Env) {size : Nat} (hsound : L.dirents.Sound next ok)
    (hok : Admitted L ok dir t (.page size)) :
    ∃ s', listingStep L next junk dir (Node.step envs) s (.page size) = some s' ∧
      InListing L dir first t s' := by
  obtain ⟨σ, hrep, rfl, htidy⟩ := h.disk
  obtain ⟨ents, hdir, hfirst, hat⟩ := h.dir
  obtain ⟨ents', hdir', hsize, hmarks, htotal⟩ := hok
  obtain rfl : ents = ents' := Object.dir.inj (Option.some_inj.1 (hdir.symm.trans hdir'))
  have hpos : (0 : Int) ≤ s.2.pos ∧ (s.2.pos : Int) < 2 ^ 63 := by
    obtain ⟨rest, hrest⟩ := hat.got
    rw [← hrest, Records.total_append, ← hat.pos] at htotal
    omega
  have hrespond : (objects σ).respond L (.readdir dir size s.2.pos) = some
      (.buf (((L.dirents.layout 0 (listed ents)).drop s.2.pos).take size), objects σ) := by
    rw [Tree.respond, hdir]
    dsimp only
    rw [if_pos hpos, Int.toNat_natCast]
  obtain ⟨b, n', heval, hsame, hdisk, hheld⟩ := exists_eval_of_meets envs hrep h.held
    (htidy.meets_readdir hrespond) (Request.related L 0 (.readdir dir size s.2.pos))
  obtain rfl : b = .buf _ := (eq_buf_of_same hsame)
  obtain ⟨rd, hrd, hat', hgot, hpages, hnext⟩ := hat.turn hsound hmarks hsize
  refine ⟨(n', rd), ?_, hdisk, hheld, ⟨ents, hdir, hfirst, hat'⟩, ?_, ?_⟩
  · rw [listingStep, heval, ← hrd]
  · rcases hnext with ⟨-, hended⟩ | ⟨hall, -⟩
    · intro hend
      exact (h.ended (hended ▸ hend)).trans hgot
    · intro _
      rw [hall]
      exact hfirst.map _
  · rcases hnext with ⟨hlt, hended⟩ | ⟨-, hended⟩
    · refine h.pages.imp (fun hend ↦ hended.trans hend) fun hle ↦ ?_
      rw [hpages]
      exact Nat.lt_of_le_of_lt hle hlt
    · exact Or.inl hended

theorem request (envs : Nat → Env) {req : Request} (hok : Admitted L ok dir t (.request req))
    (hs : t.turn L (.request req) = some t') :
    ∃ s', listingStep L next junk dir (Node.step envs) s (.request req) = some s' ∧
      InListing L dir first t' s' := by
  obtain ⟨σ, hrep, rfl, htidy⟩ := h.disk
  obtain ⟨⟨a, t₁⟩, hserve, rfl⟩ := Option.map_eq_some_iff.1 hs
  obtain ⟨ents, hdir, hfirst, hat⟩ := h.dir
  obtain ⟨ents', hdir', hle⟩ := Tree.serve_dir hdir hok hserve
  obtain ⟨b, n', heval, -, hdisk, hheld⟩ := exists_eval_of_meets envs hrep h.held
    (htidy.meets junk req hserve) (req.related L junk)
  refine ⟨(n', s.2), by rw [listingStep, heval], hdisk, hheld,
    ⟨ents', hdir', hfirst.trans hle, hat.mono (hle.map _)⟩, h.ended, h.pages⟩

end InListing

/-- Every page is counted. -/
theorem pages_of_run {S : Type} {h : (c : Cmd) → S → Option (c.Ans × S)} {run : List Turn}
    {s s' : S × Reader (Bytes × Nat)}
    (hrun : run.foldlM (listingStep L next junk dir h) s = some s') :
    s'.2.pages = s.2.pages + run.countP Turn.isPage := by
  induction run generalizing s with
  | nil => exact (congrArg (·.2.pages) (Option.some_inj.1 hrun)).symm
  | cons turn run ih =>
    rw [List.foldlM_cons, Option.bind_eq_bind, Option.bind_eq_some_iff] at hrun
    obtain ⟨s₁, h₁, hrun⟩ := hrun
    rw [ih hrun, List.countP_cons]
    cases turn with
    | page size =>
      rw [listingStep] at h₁
      split at h₁
      · rw [← Option.some_inj.1 h₁]
        simp only [Reader.turn, Turn.isPage, if_true]
        omega
      · exact absurd h₁ (by simp)
    | request req =>
      rw [listingStep] at h₁
      split at h₁
      · rw [← Option.some_inj.1 h₁]
        simp only [Turn.isPage, Bool.false_eq_true, if_false, Nat.add_zero]
      · exact absurd h₁ (by simp)

instance decidableAdmitted [∀ r off, Decidable (ok r off)] :
    (turn : Turn) → Decidable (Admitted L ok dir t turn)
  | .page size =>
    match hd : t dir with
    | some (.dir ents) =>
      decidable_of_iff ((∀ r ∈ listed ents, L.direntSize r.1.length ≤ size) ∧
        (∀ x ∈ L.dirents.marks 0 (listed ents), ok x.1 x.2) ∧
        L.dirents.total (listed ents) < 2 ^ 63) (by
          simp only [Admitted, hd, Option.some.injEq, Object.dir.injEq, exists_eq_left'])
    | some (.file _) | some (.link _) | none => isFalse (by simp [Admitted, hd])
  | .request req => inferInstanceAs (Decidable (req.unlinksIn ≠ some dir))

/-- A kernel for the examples, which reads the entries of `Libfuse.sample`. -/
def sampleNext : Next (Bytes × Nat) UInt8
  | len :: ino :: off :: rest =>
    if rest.length < len.toNat then none
    else some (((rest.take len.toNat, ino.toNat), off.toNat), rest.drop len.toNat)
  | _ => none

/-- What fits into the bytes of such an entry. -/
def SampleOk (r : Bytes × Nat) (off : Nat) : Prop := r.1.length < 256 ∧ r.2 < 256 ∧ off < 256

instance (r : Bytes × Nat) (off : Nat) : Decidable (SampleOk r off) :=
  inferInstanceAs (Decidable (_ ∧ _))

theorem sound_sample : Libfuse.sample.dirents.Sound sampleNext SampleOk := by
  have hbyte : ∀ {k : Nat}, k < 256 → (UInt8.ofNat k).toNat = k := fun h ↦ by
    rw [UInt8.toNat_ofNat', Nat.mod_eq_of_lt h]
  refine ⟨rfl, ?_, ?_⟩
  · rintro ⟨name, ino⟩ off bs ⟨hname, hino, hoff⟩
    dsimp only at hname hino
    simp only [Libfuse.dirents, Libfuse.sample, List.cons_append, sampleNext, List.length_append]
    rw [hbyte hname, hbyte hino, hbyte hoff, if_neg (by omega), List.take_left, List.drop_left]
  · rintro ⟨name, ino⟩ off k ⟨hname, -, -⟩ hk
    dsimp only at hname
    simp only [Libfuse.dirents, Libfuse.sample] at hk ⊢
    match k with
    | 0 | 1 | 2 => rfl
    | k + 3 =>
      simp only [List.take_succ_cons, sampleNext, List.length_take]
      rw [hbyte hname, if_pos (by omega)]

/-- Two files `a` and `b` are made in the root directory. -/
def makeTwo : List Request := [.create 1 [97], .create 1 [98]]

/-- The file system after that. -/
def twoFiles : Tree := ((makeTwo.foldlM (Tree.step .sample) (Tree.new, [])).getD (Tree.new, [])).1

/-- The directory is listed, and a file `c` is made meanwhile. -/
def listTwo : List Turn := [.page 64, .request (.create 1 [99]), .page 64, .page 64, .page 64]

-- `a` is removed after it has been listed, and `b`, which is there all the time, is left out
example : ([.request (.create 1 [97]), .request (.create 1 [98]), .page 4,
    .request (.unlink 1 [97]), .page 4].foldlM (listingStep .sample sampleNext 0 1 handler)
      (newDisk, {})).map (fun s ↦ (s.2.got, s.2.ended, listed (entriesOf s.1.files 1))) =
        some ([([97], 2)], true, [([98], 3)]) := by
  decide

end Client
end Yfs
