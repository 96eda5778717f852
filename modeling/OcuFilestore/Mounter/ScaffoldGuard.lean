import OcuFilestore.Go.Errors
import OcuFilestore.Lib.SlashPath

/-!
# OcuFilestore.Mounter.ScaffoldGuard

The guard in front of a mount (`internal/mounter/scaffoldguard.go`): the tree
at the destination is walked, depth first, and anything but directories is
refused.  One counter runs over the whole walk and ends it at a ceiling.

A directory is kept with the entries behind it in the directory they are both
in, so that the walk and every fact about it follow one recursion.  `Walked`
says what a walk from any state of the counter comes to.
-/

namespace OcuFilestore.Mounter

open SlashPath (join)

/-! ## directory trees -/

/-- What the guard tells apart of a failed read. -/
inductive Errno where
  | notExist
  | notConn
  | other
  deriving DecidableEq, Repr

structure ReadErr where
  errno : Errno
  err : Err
  deriving DecidableEq, Repr

/-- The entries of a directory, in the order `os.ReadDir` gives them, each with
what is below it. -/
inductive Entries where
  | nil
  /-- A file, a symlink or another node that is no directory. -/
  | other (name : Path) (rest : Entries)
  /-- A directory that cannot be read. -/
  | unreadable (name : Path) (err : ReadErr) (rest : Entries)
  | dir (name : Path) (below rest : Entries)
  deriving Repr

inductive Destination where
  | missing (err : Err)
  /-- Something is there that cannot be read as a directory. -/
  | unreadable (err : ReadErr)
  | dir (entries : Entries)
  deriving Repr

/-- `os.ReadDir` of the destination. -/
def Destination.readDir : Destination → Except ReadErr Entries
  | .missing err => .error ⟨.notExist, err⟩
  | .unreadable err => .error err
  | .dir entries => .ok entries

/-! ## the walk -/

def scaffoldWalkEntryCeiling : Nat := 4096

def classifyDestReadError (dest dir : Path) (err : ReadErr) : Err :=
  if dir = dest ∧ err.errno = .notExist then
    .text [.lit "mount destination ", .quoted dest, .lit " does not exist"]
  else if err.errno = .notConn then
    .wrap [.lit "a stale disconnected mount is still attached at ", .quoted dir,
      .lit " (a previous mount instance exited without a clean detach)",
      .lit "; lazy-unmount it (umount -l) and restart the mount: "] err.err []
  else .wrap [.lit "inspecting mount destination ", .quoted dest, .lit ": "] err.err []

def tooManyEntries (dir : Path) : Err :=
  .text [.lit "refusing to shadow existing content at ", .quoted dir, .lit ": more than ",
    .int scaffoldWalkEntryCeiling,
    .lit " entries under the mount destination; empty the destination and restart the mount"]

def shadowedEntry (p : Path) : Err :=
  .text [.lit "refusing to shadow existing content at ", .quoted p,
    .lit ": the mount destination must hold only empty directories (the baked scaffold)",
    .lit "; remove the entry and restart the mount"]

/-- Count an entry, and look at it only below the ceiling. -/
def examine (dir : Path) (seen : Nat) (look : Nat → Nat × Option Err) : Nat × Option Err :=
  if scaffoldWalkEntryCeiling < seen + 1 then (seen + 1, some (tooManyEntries dir))
  else look (seen + 1)

/-- Go on behind a walk that found nothing. -/
def andThen (res : Nat × Option Err) (next : Nat → Nat × Option Err) : Nat × Option Err :=
  match res with
  | (seen, some e) => (seen, some e)
  | (seen, none) => next seen

/-- The loop over the entries of `dir`: the counter, and the error it ends
with.  The path of an entry is the text `filepath.Join` makes, and is taken to
name the child: the destination has no `..` behind a symbolic link. -/
def walk (dest : Path) : (dir : Path) → (seen : Nat) → Entries → Nat × Option Err
  | _, seen, .nil => (seen, none)
  | dir, seen, .other name _ =>
      examine dir seen fun seen => (seen, some (shadowedEntry (join dir name)))
  | dir, seen, .unreadable name err _ =>
      examine dir seen fun seen => (seen, some (classifyDestReadError dest (join dir name) err))
  | dir, seen, .dir name below rest =>
      examine dir seen fun seen =>
        andThen (walk dest (join dir name) seen below) fun seen => walk dest dir seen rest

/-- The number of entries examined, and the error. -/
def ensureMountpointShadowsNoContent (dest : Path) (tree : Destination) : Nat × Option Err :=
  match tree.readDir with
  | .error err => (0, some (classifyDestReadError dest dest err))
  | .ok entries => walk dest dest 0 entries

/-! ## what a walk comes to -/

inductive Kind where
  | dir
  | unreadable
  | other
  deriving DecidableEq, Repr

/-- The entries at every depth. -/
def Entries.kinds : Entries → List Kind
  | .nil => []
  | .other _ rest => .other :: rest.kinds
  | .unreadable _ _ rest => .unreadable :: rest.kinds
  | .dir _ below rest => .dir :: (below.kinds ++ rest.kinds)

/-- The outcome of a walk over these entries that starts with `seen` counted. -/
structure Walked (seen : Nat) (kinds : List Kind) (res : Nat × Option Err) : Prop where
  bounded : res.1 ≤ scaffoldWalkEntryCeiling + 1
  counted : res.2 = none → res.1 = seen + kinds.length
  nil_iff : res.2 = none ↔
    (∀ k ∈ kinds, k = .dir) ∧ seen + kinds.length ≤ scaffoldWalkEntryCeiling

/-- An empty directory adds nothing to the count. -/
theorem walked_nil {seen : Nat} (h : seen ≤ scaffoldWalkEntryCeiling) :
    Walked seen [] (seen, none) :=
  ⟨Nat.le_succ_of_le h, fun _ => rfl, by simpa using h⟩

/-- Beyond the ceiling an entry is refused whatever it is. -/
theorem walked_examine {dir : Path} {seen : Nat} {look : Nat → Nat × Option Err}
    {kinds : List Kind} {k : Kind} (hseen : seen ≤ scaffoldWalkEntryCeiling)
    (h : seen + 1 ≤ scaffoldWalkEntryCeiling → Walked seen (k :: kinds) (look (seen + 1))) :
    Walked seen (k :: kinds) (examine dir seen look) := by
  unfold examine
  split
  · next hfull =>
      refine ⟨Nat.succ_le_succ hseen, nofun, iff_of_false nofun fun hall => ?_⟩
      have hlen := hall.2
      rw [List.length_cons] at hlen
      omega
  · next hroom => exact h (Nat.le_of_not_lt hroom)

/-- An entry that is no readable directory ends the walk. -/
theorem walked_offence {seen : Nat} {kinds : List Kind} {k : Kind} (hk : k ≠ .dir) (e : Err)
    (hseen : seen + 1 ≤ scaffoldWalkEntryCeiling) :
    Walked seen (k :: kinds) (seen + 1, some e) :=
  ⟨Nat.le_succ_of_le hseen, nofun,
    iff_of_false nofun fun hall => hk (hall.1 k List.mem_cons_self)⟩

/-- A directory: what is below it, then what is behind it. -/
theorem walked_dir {seen : Nat} {below rest : List Kind} {res : Nat × Option Err}
    {next : Nat → Nat × Option Err} (hbelow : Walked (seen + 1) below res)
    (hrest : ∀ seen, seen ≤ scaffoldWalkEntryCeiling → Walked seen rest (next seen)) :
    Walked seen (.dir :: (below ++ rest)) (andThen res next) := by
  obtain ⟨seen', err⟩ := res
  have hlen : seen + (Kind.dir :: (below ++ rest)).length =
      seen + 1 + below.length + rest.length := by
    rw [List.length_cons, List.length_append]
    omega
  cases err with
  | some e =>
      refine ⟨hbelow.bounded, nofun, iff_of_false nofun fun hall => ?_⟩
      have hnone := hbelow.nil_iff.mpr ⟨fun k hk => hall.1 k (by simp [hk]), by omega⟩
      exact absurd hnone nofun
  | none =>
      obtain ⟨hdirs, hroom⟩ := hbelow.nil_iff.mp rfl
      have hcount : seen' = seen + 1 + below.length := hbelow.counted rfl
      obtain ⟨hbounded, hcounted, hnil⟩ := hrest seen' (hcount ▸ hroom)
      refine ⟨hbounded, fun hnone => (hcounted hnone).trans ?_, hnil.trans ?_⟩
      · rw [hcount, hlen]
      · rw [hcount, hlen]
        refine and_congr_left fun _ => ⟨fun hall k hk => ?_, fun hall k hk => hall k (by simp [hk])⟩
        rcases List.mem_cons.mp hk with rfl | hk
        · rfl
        · exact (List.mem_append.mp hk).elim (hdirs k) (hall k)

/-- The walk counts every entry it visits, and stops at the ceiling. -/
theorem walked_walk (dest dir : Path) {seen : Nat} (h : seen ≤ scaffoldWalkEntryCeiling)
    (entries : Entries) : Walked seen entries.kinds (walk dest dir seen entries) := by
  induction entries generalizing dir seen with
  | nil => exact walked_nil h
  | other name rest => exact walked_examine h (walked_offence (by decide) _)
  | unreadable name err rest => exact walked_examine h (walked_offence (by decide) _)
  | dir name below rest ihbelow ihrest =>
      exact walked_examine h fun hroom =>
        walked_dir (ihbelow (join dir name) hroom) fun _ hseen => ihrest dir hseen

/-- **Exactness of the guard**: it passes exactly the destinations that exist
and hold directories only, at every depth, all of them readable and no more
than the ceiling; and it never examines more than one entry beyond it. -/
theorem ensureMountpointShadowsNoContent_nil_iff (dest : Path) (tree : Destination) :
    ((ensureMountpointShadowsNoContent dest tree).2 = none ↔
      ∃ entries, tree = .dir entries ∧ (∀ k ∈ entries.kinds, k ≠ .unreadable) ∧
        (∀ k ∈ entries.kinds, k ≠ .other) ∧ entries.kinds.length ≤ 4096) ∧
    (ensureMountpointShadowsNoContent dest tree).1 ≤ 4097 := by
  cases tree with
  | missing err => exact ⟨iff_of_false nofun nofun, Nat.zero_le _⟩
  | unreadable err => exact ⟨iff_of_false nofun nofun, Nat.zero_le _⟩
  | dir entries =>
      obtain ⟨hbounded, -, hnil⟩ := walked_walk dest dest (Nat.zero_le _) entries
      refine ⟨hnil.trans ⟨fun ⟨hdirs, hlen⟩ => ?_, ?_⟩, hbounded⟩
      · refine ⟨entries, rfl, fun k hk => ?_, fun k hk => ?_, ?_⟩
        · rw [hdirs k hk]
          nofun
        · rw [hdirs k hk]
          nofun
        · rwa [Nat.zero_add] at hlen
      · rintro ⟨_, ⟨⟩, hread, hother, hlen⟩
        refine ⟨fun k hk => ?_, by rwa [Nat.zero_add]⟩
        cases k with
        | dir => rfl
        | unreadable => exact absurd rfl (hread _ hk)
        | other => exact absurd rfl (hother _ hk)

/-- The baked scaffold passes; a file deep inside it is refused by its path. -/
example :
    ensureMountpointShadowsNoContent "/mnt".toList
        (.dir (.dir "outputs".toList (.dir "deep".toList .nil .nil)
          (.dir "uploads".toList .nil .nil))) = (3, none) ∧
    ensureMountpointShadowsNoContent "/mnt".toList
        (.dir (.dir "outputs".toList (.other "note".toList .nil) .nil)) =
      (2, some (shadowedEntry "/mnt/outputs/note".toList)) := by
  decide +kernel

end OcuFilestore.Mounter
