import Mathlib.Tactic.Abel
import OsAudio.Fs.Footprint
import OsAudio.Lib.Count

/-!
# Reference counts

Who refers to a file table entry (the descriptors of all processes) and to an entry of the
inode cache (open files and current directories), and that the counts in the entries are
exact whenever no call is running.  The references a call holds while it runs are followed
through every exit of every function.
-/
namespace OsAudio.Fs
open OsAudio.Lib
open Function (update update_idem update_self update_of_ne update_eq_self)

/-! ## Directories and paths -/

/-- Running `p` from `s` ends with `Q`, if it ends. -/
abbrev Yields {α : Type} (p : FsProg α) (s : Refs) (Q : α → Refs → Prop) : Prop :=
  p.Ensures inodeRefs s Q fun _ => True

/-- `p` changes no reference count and no memory above the inode layer. -/
abbrev Neutral {α : Type} (p : FsProg α) : Prop := p.Preserves inodeRefs id

theorem Neutral.seq {α β : Type} {p : FsProg β} {f : β → FsProg α} {s : Refs}
    {Q : α → Refs → Prop} (first : Neutral p) (rest : ∀ b, Yields (f b) s Q) :
    Yields (p >>= f) s Q :=
  first.then fun b t same => by
    obtain rfl : t = s := same
    exact rest b

/-- A panic under a condition, before the rest of a program. -/
theorem yields_panicIf {α : Type} {c : Prop} [Decidable c] {w : Stop} {k : Unit → FsProg α} {s : Refs}
    {Q : α → Refs → Prop} (rest : Yields (k ()) s Q) :
    Yields (if c then Prog.stop w >>= k else k ()) s Q := by
  split
  · exact .bind (P := fun _ _ => False) (.stop trivial) nofun
  · exact rest

/-- The outcome of a search: nothing, or an inode with a reference for the caller. -/
def Found {β : Type} (s : Refs) : Option (Nat × β) → Refs → Prop
  | none, t => t = s
  | some (ip, _), t => t = s.add ip 1

theorem Found.bind {α β : Type} {p : FsProg (Option (Nat × β))} {f : Option (Nat × β) → FsProg α}
    {s : Refs} {Q : α → Refs → Prop} (search : Yields p s (Found s)) (missing : Yields (f none) s Q)
    (present : ∀ ip b, Yields (f (some (ip, b))) (s.add ip 1) Q) : Yields (p >>= f) s Q := by
  refine Prog.Ensures.bind search fun found t held => ?_
  cases found with
  | none => exact (show t = s from held) ▸ missing
  | some hit => exact (show t = s.add hit.1 1 from held) ▸ present hit.1 hit.2

theorem Refs.add_drop (s : Refs) (ip : Nat) : (s.add ip 1).add ip (-1) = s := by
  simp only [Refs.add, Pi.single_neg, add_neg_cancel_right]

theorem Refs.drop_first (s : Refs) (dp ip : Nat) :
    ((s.add dp 1).add ip 1).add dp (-1) = s.add ip 1 := by
  simp only [Refs.add, Pi.single_neg, Refs.mk.injEq, and_true]
  abel

section Paths
variable {s : Refs}

theorem yields_iget (inum : Nat) : Yields (iget inum) s fun ip t => t = s.add ip 1 :=
  .op (fun _ _ step => step) fun _ _ _ => trivial

theorem yields_idup (ip : Nat) : Yields (idup ip) s fun r t => r = ip ∧ t = s.add ip 1 :=
  .op (fun _ _ step => step) fun _ _ _ => trivial

theorem yields_iput (ip : Nat) : Yields (iput ip) s fun _ t => t = s.add ip (-1) :=
  .op (fun _ _ step => step) fun _ _ _ => trivial

theorem yields_ialloc (type : Nat) : Yields (ialloc type) s fun ip t => t = s.add ip 1 :=
  .op (fun _ _ step => step) fun _ _ _ => trivial

theorem yields_getFs {α : Type} {k : FsMem → FsProg α} {Q : α → Refs → Prop} (rest : Yields (k s.fs) s Q) :
    Yields (getFs >>= k) s Q := by
  refine ⟨fun r t same => ?_, fun _ _ _ => trivial⟩
  obtain ⟨rfl, rfl⟩ := same
  exact rest

theorem yields_setFs (mem : FsMem) : Yields (setFs mem) s fun _ t => t = { s with fs := mem } :=
  .op (fun _ _ step => step) fun _ _ _ => trivial

theorem neutral_getFs : Neutral getFs :=
  fun _ => .op (fun _ _ step => step.2) fun _ _ _ => trivial

theorem yields_iunlockput (ip : Nat) : Yields (iunlockput ip) s fun _ t => t = s.add ip (-1) :=
  .skip idle fun _ => yields_iput ip

theorem yields_drop (ip : Nat) : Yields (iunlockput ip) (s.add ip 1) fun _ t => t = s :=
  (yields_iunlockput ip).mono fun _ t dropped => by rw [dropped, Refs.add_drop]

theorem yields_drop_first (dp ip : Nat) :
    Yields (iunlockput dp) ((s.add dp 1).add ip 1) fun _ t => t = s.add ip 1 :=
  (yields_iunlockput dp).mono fun _ t dropped => by rw [dropped, Refs.drop_first]

theorem yields_dirLookupFrom (dp : Nat) (name : List Byte) (count off : Nat) :
    Yields (dirLookupFrom dp name count off) s (Found s) := by
  induction count generalizing off with
  | zero => exact .ret rfl
  | succ count ih =>
    refine .skip idle fun bytes => ?_
    split
    · exact .stop trivial
    · split
      · exact .stop trivial
      · dsimp only
        split
        · exact (yields_iget _).bind fun ip u added => .ret added
        · exact ih _

theorem yields_dirLookup (dp : Nat) (name : List Byte) : Yields (dirLookup dp name) s (Found s) := by
  refine .skip idle fun view => ?_
  split
  · exact .stop trivial
  · exact yields_dirLookupFrom _ _ _ _

theorem neutral_emptyDirent (dp count off : Nat) : Neutral (emptyDirent dp count off) := by
  induction count generalizing off with
  | zero => exact .ret _
  | succ count ih =>
    refine .skip idle fun bytes => ?_
    split
    · exact .stop _
    · exact .ite (.stop _) (.ite (.ret _) (ih _))

theorem neutral_dirLink (dp : Nat) (name : List Byte) (inum : Nat) : Neutral (dirLink dp name inum) := by
  intro s
  have rest : Neutral (look dp >>= fun view => emptyDirent dp (entries view.size) 0 >>= fun off =>
      iwrite dp off (direntBytes inum name) >>= fun written =>
      if written ≠ direntSize then .stop (.panic .dirLink) else pure true) :=
    .skip idle fun _ => .bind (neutral_emptyDirent _ _ _) fun _ => .skip idle fun (_ : Int) => .ite (.stop _) (.ret _)
  refine Found.bind (yields_dirLookup dp name) (rest s) fun ip _ => (yields_iput ip).to fun _ => .ret ?_
  rw [Refs.add_drop]

theorem skipelem_shorter {path name rest : List Byte} (found : skipelem path = some (name, rest)) :
    rest.length < path.length := by
  unfold skipelem at found
  dsimp only at found
  split_ifs at found with empty
  simp only [Option.some.injEq, Prod.mk.injEq] at found
  obtain ⟨-, rfl⟩ := found
  have front := (List.dropWhile_suffix (l := path) (· == slash)).length_le
  -- The first character that is left is not a slash, so the element is not empty.
  obtain ⟨head, tail, split⟩ : ∃ head tail, path.dropWhile (· == slash) = head :: tail :=
    List.exists_cons_of_ne_nil fun nil => empty (by rw [nil]; rfl)
  have letter : (head != slash) = true := by
    have first := List.head?_dropWhile_not (· == slash) path
    rw [split] at first
    simpa using first
  rw [split, List.dropWhile_cons_of_pos (p := (· != slash)) letter]
  have elem := (List.dropWhile_suffix (l := tail) (· != slash)).length_le
  have last := (List.dropWhile_suffix (l := tail.dropWhile (· != slash)) (· == slash)).length_le
  rw [split, List.length_cons] at front
  omega

/-- `namex` passes the reference on from one directory to the next. -/
theorem yields_namexFrom (parent : Bool) {fuel ip : Nat} {path : List Byte} (name : List Byte)
    (enough : path.length < fuel) :
    Yields (namexFrom parent fuel ip path name) (s.add ip 1) (Found s) := by
  induction fuel generalizing s ip path name with
  | zero => omega
  | succ fuel ih =>
    unfold namexFrom
    split
    · split
      · refine (yields_iput ip).bind fun _ t dropped => .ret ?_
        rw [dropped, Refs.add_drop]
        rfl
      · exact .ret rfl
    · rename_i elem rest found
      have drop : Yields (iunlockput ip >>= fun _ => pure none) (s.add ip 1) (Found (β := List Byte) s) :=
        (yields_drop ip).to fun _ => .ret rfl
      refine .skip idle fun _ => .skip idle fun view => ?_
      split
      · exact drop
      · split
        · exact .skip idle fun _ => .ret rfl
        · exact Found.bind (yields_dirLookup ip elem) drop fun next _ =>
            (yields_drop_first ip next).to fun _ => ih _ (by have shorter := skipelem_shorter found; omega)

theorem yields_namex (path : List Byte) (parent : Bool) : Yields (namex path parent) s (Found s) := by
  unfold namex
  split
  · refine (yields_iget rootIno).bind fun ip t added => ?_
    rw [added]
    exact yields_namexFrom parent _ (Nat.lt_succ_self _)
  · refine neutral_getFs.seq fun mem => ?_
    refine (yields_idup _).bind fun ip u duplicated => ?_
    obtain ⟨rfl, rfl⟩ := duplicated
    exact yields_namexFrom parent _ (Nat.lt_succ_self _)

/-- The outcome of `namei` and `create`. -/
def FoundInode (s : Refs) : Option Nat → Refs → Prop
  | none, t => t = s
  | some ip, t => t = s.add ip 1

theorem FoundInode.bind {α : Type} {p : FsProg (Option Nat)} {f : Option Nat → FsProg α}
    {Q : α → Refs → Prop} (search : Yields p s (FoundInode s)) (missing : Yields (f none) s Q)
    (present : ∀ ip, Yields (f (some ip)) (s.add ip 1) Q) : Yields (p >>= f) s Q := by
  refine Prog.Ensures.bind search fun found t held => ?_
  cases found with
  | none => exact (show t = s from held) ▸ missing
  | some ip => exact (show t = s.add ip 1 from held) ▸ present ip

theorem yields_namei (path : List Byte) : Yields (namei path) s (FoundInode s) :=
  Found.bind (yields_namex path false) (.ret rfl) fun _ _ => .ret rfl

/-! ## Calls on names -/

theorem yields_create (path : List Byte) (type major minor : Nat) :
    Yields (create path type major minor) s (FoundInode s) := by
  refine Found.bind (yields_namex path true) (.ret rfl) fun dp name => .skip idle fun _ => ?_
  refine Found.bind (yields_dirLookup dp name) ((yields_ialloc type).to fun ip => ?_) fun ip _ => ?_
  · have last : ∀ inum : Nat, Yields (dirLink dp name inum >>= fun added =>
        if (!added) = true then Prog.stop (.panic .createDirLink) >>= fun (_ : Unit) =>
          iunlockput dp >>= fun _ => pure (some ip)
        else iunlockput dp >>= fun _ => pure (some ip)) ((s.add dp 1).add ip 1) (FoundInode s) := fun inum =>
      (neutral_dirLink dp name inum).seq fun _ => yields_panicIf <|
        (yields_drop_first dp ip).to fun _ => .ret rfl
    refine .skip idle fun _ => .skip idle fun _ => .skip idle fun _ => .skip idle fun _ => .skip idle fun (view : InodeView) => ?_
    dsimp only
    split
    · refine .skip idle fun _ => .skip idle fun _ => .skip idle fun _ => .skip idle fun _ => (neutral_dirLink _ _ _).seq fun _ => ?_
      split
      · exact (neutral_dirLink _ _ _).seq fun _ => yields_panicIf (last view.inum)
      · exact Neutral.seq (.ret false) fun _ => yields_panicIf (last view.inum)
    · exact last view.inum
  · refine (yields_drop_first dp ip).to fun _ => .skip idle fun _ => .skip idle fun view => ?_
    split
    · exact .ret rfl
    · exact (yields_drop ip).to fun _ => .ret rfl

theorem yields_sysLinkBad (ip : Nat) : Yields (sysLinkBad ip) (s.add ip 1) fun _ t => t = s := by
  refine .skip idle fun _ => .skip idle fun view =>
    .skip idle fun _ => .skip idle fun _ => ?_
  refine (yields_drop ip).to fun _ => ?_
  exact .skip idle fun _ => .ret rfl

theorem neutral_sysLink (old new : List Byte) : Neutral (sysLink old new) := by
  intro s
  refine FoundInode.bind (yields_namei old) (.ret rfl) fun ip =>
    .skip idle fun _ => .skip idle fun _ => .skip idle fun view => ?_
  split
  · exact (yields_drop ip).to fun _ => .skip idle fun _ => .ret rfl
  refine .skip idle fun _ => .skip idle fun _ => .skip idle fun _ => .skip idle fun _ => ?_
  refine Found.bind (yields_namex new true) (yields_sysLinkBad ip) fun dp name =>
    .skip idle fun _ => (neutral_dirLink _ _ _).seq fun added => ?_
  split
  · refine (yields_drop dp).to fun _ => (yields_iput ip).to fun _ => .skip idle fun _ => .ret ?_
    rw [Refs.add_drop]
  · exact (yields_drop dp).to fun _ => yields_sysLinkBad ip

theorem neutral_isdiremptyFrom (dp count off : Nat) : Neutral (isdiremptyFrom dp count off) := by
  induction count generalizing off with
  | zero => exact .ret _
  | succ count ih =>
    refine .skip idle fun bytes => ?_
    split
    · exact .stop _
    · exact .ite (.stop _) (.ite (.ret _) (ih _))

theorem neutral_isdirempty (dp : Nat) : Neutral (isdirempty dp) :=
  .skip idle fun _ => neutral_isdiremptyFrom _ _ _

theorem yields_sysUnlinkBad (dp : Nat) : Yields (sysUnlinkBad dp) (s.add dp 1) fun _ t => t = s := by
  refine (yields_drop dp).to fun _ => ?_
  exact .skip idle fun _ => .ret rfl

theorem neutral_sysUnlink (path : List Byte) : Neutral (sysUnlink path) := by
  intro s
  refine Found.bind (yields_namex path true) (.ret rfl) fun dp name => .skip idle fun _ => .skip idle fun _ => ?_
  split
  · exact yields_sysUnlinkBad dp
  refine Found.bind (yields_dirLookup dp name) (yields_sysUnlinkBad dp) fun ip off =>
    .skip idle fun _ => .skip idle fun view => ?_
  split
  · exact .stop trivial
  have refused : Yields (iunlockput ip >>= fun _ => sysUnlinkBad dp) ((s.add dp 1).add ip 1)
      fun _ t => t = s :=
    (yields_drop ip).to fun _ => yields_sysUnlinkBad dp
  have removed : Yields (iunlockput dp >>= fun _ => look ip >>= fun view =>
      setNlink ip (dec16 view.nlink) >>= fun _ => iupdate ip >>= fun _ => iunlockput ip >>= fun _ =>
      commit >>= fun _ => pure (⟨.succ, none⟩ : Reply)) ((s.add dp 1).add ip 1) fun _ t => t = s :=
    (yields_drop_first dp ip).to fun _ => .skip idle fun _ => .skip idle fun _ => .skip idle fun _ =>
      (yields_drop ip).to fun _ => .skip idle fun _ => .ret rfl
  dsimp only
  split
  · refine (neutral_isdirempty ip).seq fun empty => ?_
    split
    · exact refused
    refine neutral_getFs.seq fun mem => .skip idle fun _ => .skip idle fun written => ?_
    split
    · exact .stop trivial
    · exact .skip idle fun _ => .skip idle fun _ => .skip idle fun _ => removed
  · refine Neutral.seq (.ret true) fun empty => ?_
    split
    · exact refused
    refine neutral_getFs.seq fun mem => .skip idle fun _ => .skip idle fun written => ?_
    split
    · exact .stop trivial
    · exact removed

theorem neutral_sysMkdir (path : List Byte) : Neutral (sysMkdir path) := fun _ =>
  .skip idle fun _ => FoundInode.bind (yields_create path tDir 0 0) (.skip idle fun _ => .ret rfl) fun ip =>
    (yields_drop ip).to fun _ => .skip idle fun _ => .ret rfl

end Paths

/-! ## Who refers to what -/

/-- The descriptors of all processes that point to file `f`. -/
def descriptors (proc : Nat → Proc) (f : Nat) : Nat :=
  ((Finset.range numProcs ×ˢ Finset.range noFile).filter fun p =>
    (proc p.1).openfiles p.2 = some f).card

/-- The file table entries in use that refer to entry `ip` of the inode cache. -/
def openFiles (file : Nat → File) (ip : Nat) : Nat :=
  ((Finset.range nFile).filter fun f =>
    0 < (file f).ref ∧ (file f).type = .inode ∧ (file f).ip = ip).card

/-- The processes whose current directory is entry `ip`. -/
def directories (proc : Nat → Proc) (ip : Nat) : Nat :=
  ((Finset.range numProcs).filter fun pid => (proc pid).cwd = ip).card

/-- No call is running: every count is the number of those who refer to the entry. -/
structure Balanced (s : Refs) : Prop where
  files : ∀ f, f < nFile → (s.fs.file f).ref = descriptors s.fs.proc f
  inodes : ∀ ip, s.ref ip = openFiles s.fs.file ip + directories s.fs.proc ip
  idle : ∀ f, f < nFile → (s.fs.file f).ref = 0 → (s.fs.file f).type = .none
  valid : ∀ pid fd f, pid < numProcs → fd < noFile → (s.fs.proc pid).openfiles fd = some f → f < nFile
  current : s.fs.curid < numProcs

section Balance
variable {s : Refs}

/-- One descriptor changes. -/
theorem descriptors_update (proc : Nat → Proc) {pid fd : Nat} (below : pid < numProcs)
    (slot : fd < noFile) (new : Option Nat) (f : Nat) :
    descriptors (update proc pid
        ⟨update (proc pid).openfiles fd new, (proc pid).cwd⟩) f +
      (if (proc pid).openfiles fd = some f then 1 else 0) =
      descriptors proc f + if new = some f then 1 else 0 := by
  have changed := card_filter_update_pair (Finset.mem_range.mpr below) (Finset.mem_range.mpr slot)
    (fun q => (proc q).openfiles) new (· = some f)
  have table : ∀ q, (update proc pid
        ⟨update (proc pid).openfiles fd new, (proc pid).cwd⟩ q).openfiles =
      update (fun q => (proc q).openfiles) pid
        (update (proc pid).openfiles fd new) q :=
    Function.apply_update (fun _ => Proc.openfiles) proc pid _
  unfold descriptors
  simp only [table]
  exact changed

variable {f : Nat}

/-- One file table entry changes. -/
theorem openFiles_update (table : Nat → File) (below : f < nFile) (file : File) (ip : Nat) :
    openFiles (update table f file) ip +
      (if 0 < (table f).ref ∧ (table f).type = .inode ∧ (table f).ip = ip then 1 else 0) =
      openFiles table ip + if 0 < file.ref ∧ file.type = .inode ∧ file.ip = ip then 1 else 0 :=
  card_filter_update (Finset.mem_range.mpr below) table file
    fun file => 0 < file.ref ∧ file.type = .inode ∧ file.ip = ip

/-- One current directory changes. -/
theorem directories_update (proc : Nat → Proc) {pid : Nat} (below : pid < numProcs) (new : Proc)
    (ip : Nat) :
    directories (update proc pid new) ip + (if (proc pid).cwd = ip then 1 else 0) =
      directories proc ip + if new.cwd = ip then 1 else 0 :=
  card_filter_update (Finset.mem_range.mpr below) proc new fun proc => proc.cwd = ip

section
variable (balanced : Balanced s)
include balanced

theorem Balanced.setCurid {pid : Nat} (proc : pid < numProcs) :
    Balanced { s with fs := { s.fs with curid := pid } } :=
  { balanced with current := proc }

theorem Balanced.setFirst (first : Bool) : Balanced { s with fs := { s.fs with first := first } } :=
  { balanced with }

/-- A file table entry changes, but not in what it refers to. -/
theorem Balanced.setFile {file : File} (ref : file.ref = (s.fs.file f).ref)
    (type : file.type = (s.fs.file f).type) (ip : file.ip = (s.fs.file f).ip) :
    Balanced { s with fs := { s.fs with file := update s.fs.file f file } } := by
  have same : ∀ g, (update s.fs.file f file g).ref = (s.fs.file g).ref ∧
      (update s.fs.file f file g).type = (s.fs.file g).type ∧
      (update s.fs.file f file g).ip = (s.fs.file g).ip :=
    (Function.forall_update_iff s.fs.file fun g file => file.ref = (s.fs.file g).ref ∧
      file.type = (s.fs.file g).type ∧ file.ip = (s.fs.file g).ip).mpr
      ⟨⟨ref, type, ip⟩, fun _ _ => ⟨rfl, rfl, rfl⟩⟩
  refine { balanced with files := ?_, inodes := ?_, idle := ?_ }
  · intro g below
    rw [(same g).1]
    exact balanced.files g below
  · intro i
    have count : openFiles (update s.fs.file f file) i = openFiles s.fs.file i := by
      unfold openFiles
      congr 1
      refine Finset.filter_congr fun g _ => ?_
      rw [(same g).1, (same g).2.1, (same g).2.2]
    rw [count]
    exact balanced.inodes i
  · intro g below
    rw [(same g).1, (same g).2.1]
    exact balanced.idle g below

/-- A descriptor of the current process changes with the file it points to, before or after. -/
theorem Balanced.setDescriptor {fd : Nat} (new : Option Nat) {file : File} {ref : Nat → Int}
    (slot : fd < noFile) (below : f < nFile)
    (only : ∀ g, g ≠ f → (s.fs.proc s.fs.curid).openfiles fd ≠ some g ∧ new ≠ some g)
    (count : file.ref + (if (s.fs.proc s.fs.curid).openfiles fd = some f then 1 else 0) =
      (s.fs.file f).ref + if new = some f then 1 else 0) (idle : file.ref = 0 → file.type = .none)
    (refs : ∀ ip, ref ip + (if 0 < (s.fs.file f).ref ∧ (s.fs.file f).type = .inode ∧
        (s.fs.file f).ip = ip then 1 else 0) =
      s.ref ip + if 0 < file.ref ∧ file.type = .inode ∧ file.ip = ip then 1 else 0) :
    Balanced ⟨ref, { s.fs with
      file := update s.fs.file f file
      proc := update s.fs.proc s.fs.curid
        ⟨update (s.fs.proc s.fs.curid).openfiles fd new, (s.fs.proc s.fs.curid).cwd⟩ }⟩ := by
  refine ⟨?_, ?_, ?_, ?_, balanced.current⟩
  · intro g inside
    have changed := descriptors_update s.fs.proc balanced.current slot new g
    have before := balanced.files g inside
    by_cases same : g = f
    · subst same
      simp only [update_self]
      split_ifs at changed count <;> omega
    · rw [if_neg (only g same).1, if_neg (only g same).2] at changed
      simp only [update_of_ne same]
      omega
  · intro ip
    have changed := openFiles_update s.fs.file below file ip
    have before := balanced.inodes ip
    have turned := refs ip
    have stay := directories_update s.fs.proc balanced.current
      ⟨update (s.fs.proc s.fs.curid).openfiles fd new, (s.fs.proc s.fs.curid).cwd⟩ ip
    dsimp only
    split_ifs at changed turned stay <;> omega
  · intro g inside unused
    by_cases same : g = f
    · subst same
      simp only [update_self] at unused ⊢
      exact idle unused
    · simp only [update_of_ne same] at unused ⊢
      exact balanced.idle g inside unused
  · intro pid fd' g proc inside points
    by_cases owner : pid = s.fs.curid
    · subst owner
      simp only [update_self] at points
      by_cases here : fd' = fd
      · rw [here, update_self] at points
        by_cases same : g = f
        · rwa [same]
        · exact absurd points (only g same).2
      · rw [update_of_ne here] at points
        exact balanced.valid _ _ _ proc inside points
    · simp only [update_of_ne owner] at points
      exact balanced.valid _ _ _ proc inside points

theorem Balanced.chdir (ip : Nat) :
    Balanced ⟨((s.add ip 1).add (s.fs.proc s.fs.curid).cwd (-1)).ref, { s.fs with
      proc := update s.fs.proc s.fs.curid ⟨(s.fs.proc s.fs.curid).openfiles, ip⟩ }⟩ := by
  have table : ∀ pid, (update s.fs.proc s.fs.curid
      ⟨(s.fs.proc s.fs.curid).openfiles, ip⟩ pid).openfiles = (s.fs.proc pid).openfiles :=
    (Function.forall_update_iff s.fs.proc fun pid proc =>
      proc.openfiles = (s.fs.proc pid).openfiles).mpr ⟨rfl, fun _ _ => rfl⟩
  refine ⟨?_, ?_, balanced.idle, ?_, balanced.current⟩
  · intro f below
    have before := balanced.files f below
    unfold descriptors at before ⊢
    simp only [table]
    exact before
  · intro i
    have changed := directories_update s.fs.proc balanced.current
      ⟨(s.fs.proc s.fs.curid).openfiles, ip⟩ i
    have before := balanced.inodes i
    simp only [Refs.add, Pi.add_apply, Pi.single_apply, eq_comm (a := i)]
    split_ifs at changed ⊢ <;> omega
  · intro pid fd f proc inside points
    simp only [table] at points
    exact balanced.valid _ _ _ proc inside points

end

/-! ## Calls on descriptors -/

theorem yields_setFile (f : Nat) (file : File) : Yields (setFile f file) s fun _ t =>
    t = { s with fs := { s.fs with file := update s.fs.file f file } } :=
  yields_getFs (yields_setFs _)

theorem yields_setProc (pid : Nat) (proc : Proc) : Yields (setProc pid proc) s fun _ t =>
    t = { s with fs := { s.fs with proc := update s.fs.proc pid proc } } :=
  yields_getFs (yields_setFs _)

theorem yields_openFile {α : Type} {fd : Nat} {k : Nat → FsProg α} {Q : α → Refs → Prop}
    (rest : ∀ f, fd < noFile → (s.fs.proc s.fs.curid).openfiles fd = some f → Yields (k f) s Q) :
    Yields (openFile fd >>= k) s Q := by
  refine Prog.Ensures.bind (P := fun f t => t = s ∧ fd < noFile ∧
    (s.fs.proc s.fs.curid).openfiles fd = some f) (yields_getFs ?_) fun f t opened => ?_
  · split
    · exact .stop trivial
    split
    · next points => exact .ret ⟨rfl, by omega, points⟩
    · exact .stop trivial
  · obtain ⟨rfl, small, points⟩ := opened
    exact rest f small points

/-- The result of a program does not matter when it is only passed on. -/
theorem yields_result {α β : Type} {p : FsProg α} {g : α → β} {P : Refs → Prop} (done : Yields p s fun _ => P) :
    Yields (p >>= fun a => pure (g a)) s fun _ => P :=
  done.bind fun _ _ kept => .ret kept

theorem yields_sysClose (balanced : Balanced s) (fd : Nat) :
    Yields (sysClose fd) s fun _ t => Balanced t := by
  refine yields_openFile fun f slot points => yields_getFs ((yields_setProc _ _).to fun _ => ?_)
  have below := balanced.valid _ _ _ balanced.current slot points
  have only : ∀ g, g ≠ f → (s.fs.proc s.fs.curid).openfiles fd ≠ some g ∧ none ≠ some g := by
    intro g other
    refine ⟨fun same => other ?_, nofun⟩
    rw [points] at same
    exact (Option.some.inj same).symm
  refine yields_result (yields_getFs ?_)
  dsimp only
  split
  · exact .stop trivial
  rename_i used
  split
  · refine (yields_setFile _ _).mono ?_
    rintro - t rfl
    refine balanced.setDescriptor none slot below only ?_ ?_ ?_
    · rw [if_pos points]
      simp
    · intro zero
      dsimp only at zero
      omega
    · intro ip
      have several : 1 < (s.fs.file f).ref := by omega
      simp [several, Int.lt_trans Int.zero_lt_one several]
  · refine (yields_setFile _ _).to fun _ => ?_
    have one : (s.fs.file f).ref = 1 := by omega
    split
    · rename_i type
      refine .skip idle fun _ => (yields_iput _).to fun _ => .op (fun _ t same => ?_) fun _ _ _ => trivial
      obtain rfl : t = _ := same
      refine balanced.setDescriptor none slot below only ?_ ?_ ?_
      · rw [if_pos points, one]
        rfl
      · exact fun _ => rfl
      · intro ip
        simp only [Pi.add_apply, Pi.single_apply, one, type, eq_comm (a := ip)]
        split_ifs <;> simp_all
    · rename_i type
      refine .ret (balanced.setDescriptor none slot below only ?_ ?_ ?_)
      · rw [if_pos points, one]
        rfl
      · exact fun _ => rfl
      · intro ip
        simp [type]

theorem yields_fileAlloc : Yields fileAlloc s fun r t =>
    match r with
    | some f => f < nFile ∧ (s.fs.file f).ref = 0 ∧ t = { s with fs := { s.fs with
        file := update s.fs.file f { s.fs.file f with ref := 1 } } }
    | none => t = s := by
  refine yields_getFs ?_
  split
  · rename_i f found
    have free := List.find?_some found
    have below := List.mem_of_find?_eq_some found
    simp only [decide_eq_true_eq, List.mem_range] at free below
    exact (yields_setFile _ _).bind fun _ t stored => .ret ⟨below, free, stored⟩
  · exact .ret rfl

theorem yields_fdalloc (f : Nat) : Yields (fdalloc f) s fun r t =>
    match r with
    | some fd => fd < noFile ∧ (s.fs.proc s.fs.curid).openfiles fd = none ∧
        t = { s with fs := { s.fs with proc := (update s.fs.proc s.fs.curid
          ⟨update (s.fs.proc s.fs.curid).openfiles fd (some f),
            (s.fs.proc s.fs.curid).cwd⟩) } }
    | none => t = s := by
  refine yields_getFs ?_
  dsimp only
  split
  · rename_i fd found
    have free := List.find?_some found
    have below := List.mem_of_find?_eq_some found
    simp only [Option.isNone_iff_eq_none, List.mem_range] at free below
    exact (yields_setProc _ _).bind fun _ t stored => .ret ⟨below, free, stored⟩
  · exact .ret rfl

section
variable (balanced : Balanced s)
include balanced

theorem yields_openFinish (ip omode : Nat) :
    Yields (openFinish ip omode) (s.add ip 1) fun _ t => Balanced t := by
  refine yields_fileAlloc.bind fun r t => ?_
  cases r with
  | none =>
    rintro rfl
    exact (yields_drop ip).to fun _ => .ret balanced
  | some f =>
    rintro ⟨below, free, rfl⟩
    have unused : (s.fs.file f).ref = 0 := free
    refine (yields_fdalloc f).bind fun r t => ?_
    cases r with
    | none =>
      rintro rfl
      -- The new entry has type `FD_NONE`, so closing it only takes back the count.
      have type := balanced.idle f below unused
      have restored : update s.fs.file f { s.fs.file f with ref := 0, type := .none } =
          s.fs.file := by
        have same : { s.fs.file f with ref := 0, type := .none } = s.fs.file f := by
          rw [← unused, ← type]
        rw [same, update_eq_self]
      refine Prog.Ensures.to (g := fun _ => s.add ip 1) (yields_getFs ?_) fun _ =>
        (yields_drop ip).to fun _ => .ret balanced
      simp only [Refs.add, update_self]
      rw [if_neg (by decide), if_neg (by decide)]
      refine (yields_setFile _ _).to fun _ => ?_
      rw [if_neg (by rw [type]; simp)]
      refine .ret ?_
      simp only [update_idem, restored]
    | some fd =>
      rintro ⟨slot, empty, rfl⟩
      have empty : (s.fs.proc s.fs.curid).openfiles fd = none := empty
      refine .skip idle fun _ => yields_getFs ((yields_setFile _ _).to fun _ => .ret ?_)
      simp only [update_idem, update_self]
      refine balanced.setDescriptor (some f) slot below ?_ ?_ ?_ ?_
      · intro g other
        rw [empty]
        exact ⟨by simp, fun same => other (Option.some.inj same).symm⟩
      · rw [empty, unused]
        simp
      · simp
      · intro i
        simp only [Refs.add, Pi.add_apply, Pi.single_apply, unused, eq_comm (a := i)]
        simp

theorem yields_sysOpen (path : List Byte) (omode : Nat) :
    Yields (sysOpen path omode) s fun _ t => Balanced t := by
  refine yields_getFs ?_
  dsimp only
  split
  on_goal 1 =>
    refine (yields_setFs _).to fun _ => .skip idle fun _ => ?_
    replace balanced := balanced.setFirst false
  -- What is left is the same whether or not this is the first call.
  all_goals
    split
    · exact .skip idle fun _ => FoundInode.bind (yields_create path tFile 0 0) (.skip idle fun _ => .ret balanced)
        fun ip => .skip idle fun _ => yields_openFinish balanced ip omode
    · refine FoundInode.bind (yields_namei path) (.ret balanced) fun ip => .skip idle fun _ => .skip idle fun view => ?_
      split
      · exact (yields_drop ip).to fun _ => .ret balanced
      · exact yields_openFinish balanced ip omode

theorem yields_sysChdir (path : List Byte) : Yields (sysChdir path) s fun _ t => Balanced t := by
  refine yields_getFs (.skip idle fun cwd => .skip idle fun _ => ?_)
  refine FoundInode.bind (yields_namei path) (.ret balanced) fun ip => .skip idle fun _ => .skip idle fun view => ?_
  split
  · exact (yields_drop ip).to fun _ => .ret balanced
  · exact .skip idle fun _ => yields_getFs <| (yields_iput _).to fun _ => yields_getFs <|
      (yields_setProc _ _).to fun _ => .ret (balanced.chdir ip)

theorem yields_sysRead (fd n : Nat) : Yields (sysRead fd n) s fun _ t => Balanced t := by
  refine yields_openFile fun f _ _ => ?_
  suffices read : Yields (fileRead f n) s fun _ u => Balanced u by
    refine read.bind fun r u kept => ?_
    split
    · exact .ret kept
    · exact .ret kept
  refine yields_getFs ?_
  dsimp only
  split
  · exact .ret balanced
  split
  · refine .skip idle fun _ => .skip idle fun r => ?_
    split
    · exact (yields_setFile _ _).to fun _ => .skip idle fun _ => .ret (balanced.setFile rfl rfl rfl)
    · exact .skip idle fun _ => .ret balanced
  · exact .stop trivial

theorem yields_fileWriteFrom (f fuel : Nat) (src : List Byte) :
    Yields (fileWriteFrom f fuel src) s fun _ t => Balanced t := by
  induction fuel generalizing s src with
  | zero => exact .ret balanced
  | succ fuel ih =>
    unfold fileWriteFrom
    split
    · exact .ret balanced
    refine .skip idle fun _ => yields_getFs (.skip idle fun _ => .skip idle fun (r : Int) => ?_)
    have last : ∀ u, Balanced u → Yields (iunlock (s.fs.file f).ip >>= fun _ => commit >>= fun _ =>
        if r < 0 then pure false
        else if r ≠ (src.take maxWrite).length then .stop (.panic .shortFileWrite)
        else fileWriteFrom f fuel (src.drop maxWrite)) u fun _ v => Balanced v := by
      intro u balanced
      refine .skip idle fun _ => .skip idle fun _ => ?_
      split
      · exact .ret balanced
      split
      · exact .stop trivial
      · exact ih balanced _
    dsimp only
    split
    · exact (yields_setFile _ _).to fun _ => last _ (balanced.setFile rfl rfl rfl)
    · exact last _ balanced

theorem yields_sysWrite (fd : Nat) (src : List Byte) :
    Yields (sysWrite fd src) s fun _ t => Balanced t := by
  refine yields_openFile fun f _ _ => ?_
  suffices written : Yields (fileWrite f src) s fun _ u => Balanced u by
    refine written.bind fun r u kept => ?_
    split
    · exact .ret kept
    · exact .ret kept
  refine yields_getFs ?_
  dsimp only
  split
  · exact .ret balanced
  split
  · exact yields_result (yields_fileWriteFrom balanced f _ src)
  · exact .stop trivial

end

theorem neutral_sysFstat (fd : Nat) : Neutral (sysFstat fd) := by
  have stat : ∀ f, Neutral (fileStat f) := fun f =>
    .bind neutral_getFs fun _ => .ite (.skip idle fun _ => .skip idle fun _ =>
      .skip idle fun _ => .ret _) (.ret _)
  exact fun _ => yields_openFile fun f _ _ => (stat f).bind (fun _ => .ite (.ret _) (.ret _)) _

/-! ## Whole runs -/

theorem yields_body (balanced : Balanced s) (call : Syscall) :
    Yields call.body s fun _ t => Balanced t := by
  cases call with
  | sysOpen path omode => exact yields_result (yields_sysOpen balanced path omode)
  | sysClose fd => exact yields_result (yields_sysClose balanced fd)
  | sysRead fd n => exact yields_result (yields_sysRead balanced fd n)
  | sysWrite fd src => exact yields_result (yields_sysWrite balanced fd src)
  | sysMkdir path => exact (neutral_sysMkdir path).seq fun _ => .ret balanced
  | sysChdir path => exact yields_result (yields_sysChdir balanced path)
  | sysLink old new => exact (neutral_sysLink old new).seq fun _ => .ret balanced
  | sysUnlink path => exact (neutral_sysUnlink path).seq fun _ => .ret balanced
  | sysFstat fd => exact (neutral_sysFstat fd).seq fun _ => .ret balanced

theorem yields_session (balanced : Balanced s) {calls : List (Nat × Syscall)}
    (pids : ∀ c ∈ calls, c.1 < numProcs) : Yields (session calls) s fun _ t => Balanced t := by
  induction calls generalizing s with
  | nil => exact .ret balanced
  | cons c calls ih =>
    refine Prog.Ensures.bind (P := fun _ t => Balanced t) ?_ fun _ t switched => ?_
    · refine yields_getFs ((yields_setFs _).mono ?_)
      rintro - u rfl
      exact balanced.setCurid (pids c List.mem_cons_self)
    · refine (yields_body switched c.2).bind fun _ u kept => ?_
      exact ih kept fun c member => pids c (.tail _ member)

end Balance

theorem booted_balanced (disk : Nat → Bytes) : Balanced (refsOf (booted disk).upper) := by
  refine ⟨?_, ?_, fun _ _ _ => rfl, nofun, show 0 < numProcs by decide⟩
  · intro f below
    have none : descriptors (fun _ => ⟨fun _ => none, 0⟩) f = 0 := by simp [descriptors]
    exact (congrArg Int.ofNat none).symm
  · intro ip
    have files : openFiles (fun _ => zeroFile) ip = 0 := by simp [openFiles, zeroFile]
    have roots : directories (fun _ => ⟨fun _ => none, 0⟩) ip = if 0 = ip then numProcs else 0 := by
      unfold directories
      split <;> simp_all
    change ((bootMem numProcs).icache ip).ref = (openFiles (fun _ => zeroFile) ip : Nat) +
      (directories (fun _ => ⟨fun _ => none, 0⟩) ip : Nat)
    rw [files, roots]
    by_cases root : 0 = ip
    · subst root
      rfl
    · simp only [if_neg root, bootMem, update_of_ne (Ne.symm root)]
      rfl

/-- After any calls that processes made since boot, on any disk, every file table entry counts the
descriptors that point to it, and every entry of the inode cache the open files and the current
directories that refer to it. -/
theorem references_balanced (forbidden : Mark → Bool) (disk : Nat → Bytes) (s t : FsState)
    (calls : List (Nat × Syscall))
    (boot : (fsMachine forbidden).run (tcbInit numProcs) (powerOn zeroMem disk) = .ok () s)
    (pids : ∀ c ∈ calls, c.1 < numProcs)
    (done : (fsMachine forbidden).run (session calls) s = .ok () t) :
    (∀ f, f < nFile → (t.upper.rest.file f).ref = descriptors t.upper.rest.proc f) ∧
    (∀ ip, ip < nInode → (t.upper.icache ip).ref =
      openFiles t.upper.rest.file ip + directories t.upper.rest.proc ip) := by
  rw [run_boot_booted] at boot
  obtain rfl : booted disk = s := by injection boot
  have balanced : Balanced (refsOf t.upper) :=
    ((fsMachine_keeps forbidden).run (yields_session (booted_balanced disk) pids)).of_ok done
  exact ⟨balanced.files, fun ip _ => balanced.inodes ip⟩

/-- One process opens the root directory, another makes a directory and changes to it. -/
def smallSession : List (Nat × Syscall) :=
  [(1, .sysOpen [slash] oRdonly), (2, .sysMkdir [slash, 0x64]), (2, .sysChdir [0x64]), (1, .sysClose 0)]

theorem references_balanced_small :
    ((fsMachine fun _ => false).run (session smallSession) (booted smallDisk)).result = some () ∧
    ∀ ip, ip < nInode →
      let t := ((fsMachine fun _ => false).run (session smallSession) (booted smallDisk)).state
      (t.upper.icache ip).ref = openFiles t.upper.rest.file ip + directories t.upper.rest.proc ip := by
  have returned : ((fsMachine fun _ => false).run (session smallSession) (booted smallDisk)).result =
      some () := by decide +kernel
  exact ⟨returned, (references_balanced (fun _ => false) smallDisk _ _ smallSession
    (run_boot_booted _ _) (by decide) (Outcome.eq_ok_of_result returned)).2⟩

end OsAudio.Fs
