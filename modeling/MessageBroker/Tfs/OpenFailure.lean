import MessageBroker.Tfs.Reference

/-!
# Failing calls of `tfs_open`

`tfs_open` adds the handle last. When the open file table is full it returns `-1` after
it has created the file, which its documentation allows, or after it has truncated
the file, which destroys its contents. Every other failure leaves the files, the
handles and the blocks as they were.
-/

namespace MessageBroker.Tfs

open Bytes Table Transition

namespace Fs

variable {fs fs' : Fs} {i k : Nat} {n : CString} {name : Option CString} {mode : FileMode}

/-- The files are there with their sizes and bytes, and the open file table and the set of blocks
in use are what they were. -/
structure KeepsFiles (fs fs' : Fs) : Prop where
  entry : ∀ {i n k}, fs.EntryAt i n k → fs'.EntryAt i n k
  size : ∀ {i n k}, fs.EntryAt i n k → (fs'.inodeTable k).iSize = (fs.inodeTable k).iSize
  bytes : ∀ {i n k}, fs.EntryAt i n k → fs'.fileOf k = fs.fileOf k
  openFileTable : fs'.openFileTable = fs.openFileTable
  freeOpenFileEntries : fs'.freeOpenFileEntries = fs.freeOpenFileEntries
  freeBlocks : fs'.freeBlocks = fs.freeBlocks

/-- All entries of the open file table are in use. -/
def HandlesFull (fs : Fs) : Prop := ∀ h < fs.maxOpenFiles, fs.freeOpenFileEntries h = .taken

/-- The documented exception: the open file table was full, and a new file remains, empty. -/
def RemainsCreated (fs : Fs) (name : Option CString) (mode : FileMode) (fs' : Fs) : Prop :=
  mode.creat = true ∧ fs.HandlesFull ∧ ∃ n i k, name = some n ∧
    (∀ i k, ¬ fs.EntryAt i n.tail k) ∧ fs'.EntryAt i n.tail k ∧ fs'.fileOf k = [] ∧
      fs'.freeinodeTs = Function.update fs.freeinodeTs k .taken

/-- A call that returns `-1` keeps the files, and the set of inodes in use but for the exception. -/
def DestroysNothing (fs : Fs) (name : Option CString) (mode : FileMode) : Prop :=
  ∀ fs', fs.tfsOpen name mode = .ok (-1, fs') → KeepsFiles fs fs' ∧
    (fs'.freeinodeTs = fs.freeinodeTs ∨ fs.RemainsCreated name mode fs')

/-- The call is to truncate a file that is not empty, and no handle is left for it. -/
def TruncatesUnopened (fs : Fs) (name : Option CString) (mode : FileMode) : Prop :=
  mode.trunc = true ∧ fs.HandlesFull ∧ ∃ n i k, name = some n ∧ validPathname name = true ∧
    fs.EntryAt i n.tail k ∧ 0 < (fs.inodeTable k).iSize

theorem KeepsFiles.refl (fs : Fs) : KeepsFiles fs fs :=
  ⟨fun he => he, fun _ => rfl, fun _ => rfl, rfl, rfl, rfl⟩

/-- The contents of a free inode belong to no file. -/
theorem WellFormed.keepsFiles_resetInode (wf : fs.WellFormed) (hfree : fs.freeinodeTs k = .free) :
    KeepsFiles fs (fs.resetInode k) := by
  have hne : ∀ {i n j}, fs.EntryAt i n j → j ≠ k := fun he =>
    (wf.directory.isFile he).ne_of_free hfree
  refine ⟨fun he => he.congr rfl fun _ _ _ => rfl, ?_, ?_, rfl, rfl, rfl⟩
  · exact fun he => congrArg Inode.iSize (Function.update_of_ne (hne he) _ _)
  · exact fun he => resetInode_fileOf (hne he)

theorem CanCreate.keepsFiles (hc : fs.CanCreate k i n) (wf : fs.WellFormed) :
    KeepsFiles fs (fs.createdFile k i n) := by
  refine ⟨fun he => ?_, fun he => ?_, fun he => ?_, rfl, rfl, rfl⟩
  · refine (hc.entryAt_of_ne ?_).mpr he
    rintro rfl
    exact he.inumber_ne hc.entry_free
  · have hne := (wf.directory.isFile he).ne_of_free hc.inode_free
    exact congrArg Inode.iSize (Function.update_of_ne hne _ _)
  · exact hc.fileOf wf.files (wf.directory.isFile he)

/-- A failure to add a handle is that of a full table, which leaves the state. -/
theorem AddsHandle.failed {offset : Nat} (ha : AddsHandle fs k offset (-1) fs') :
    fs' = fs ∧ fs.HandlesFull := by
  generalize hr : (-1 : Int) = r at ha
  cases ha with
  | full hfull => exact ⟨rfl, hfull⟩
  | slot h _ _ _ =>
    exfalso
    omega

theorem handlesFull_afterTrunc : (fs.afterTrunc mode k).HandlesFull ↔ fs.HandlesFull := by
  have hentries : (fs.afterTrunc mode k).freeOpenFileEntries = fs.freeOpenFileEntries := by
    rw [afterTrunc]
    split
    · exact truncated_freeOpenFileEntries
    · rfl
  rw [HandlesFull, HandlesFull, maxOpenFiles, maxOpenFiles, afterTrunc_fsParams, hentries]

/-- Truncation changes only a file that is not empty. -/
theorem truncates_of_ne (hne : fs.afterTrunc mode k ≠ fs) :
    mode.trunc = true ∧ 0 < (fs.inodeTable k).iSize := by
  rw [afterTrunc, truncated] at hne
  constructor
  · by_contra ht
    exact hne (if_neg ht)
  · by_contra hpos
    rw [if_neg hpos, ite_self] at hne
    exact hne rfl

/-- With handles left, or nothing to truncate, a failing call destroys nothing. -/
theorem WellFormed.destroysNothing (wf : fs.WellFormed) (hno : ¬ fs.TruncatesUnopened name mode) :
    fs.DestroysNothing name mode := by
  intro fs' hrun
  obtain ⟨r, fs₁, heq, ho⟩ := wf.tfsOpen name mode
  rw [hrun] at heq
  cases heq
  generalize hr : (-1 : Int) = r at ho
  cases ho with
  | invalid _ => exact ⟨.refl fs, Or.inl rfl⟩
  | absent _ _ _ _ => exact ⟨.refl fs, Or.inl rfl⟩
  | noInode _ _ _ _ _ => exact ⟨.refl fs, Or.inl rfl⟩
  | noEntry k _ _ _ _ _ hfree _ => exact ⟨wf.keepsFiles_resetInode hfree, Or.inl rfl⟩
  | @existing n i k _ _ hn hv he ha =>
    subst hr
    obtain ⟨rfl, hfull⟩ := AddsHandle.failed ha
    have hsame : fs.afterTrunc mode k = fs := by
      by_contra hne
      obtain ⟨ht, hpos⟩ := truncates_of_ne hne
      exact hno ⟨ht, handlesFull_afterTrunc.mp hfull, n, i, k, hn, hv, he, hpos⟩
    rw [hsame]
    exact ⟨.refl fs, Or.inl rfl⟩
  | @created n _ _ k i hn hv hc hcan ha =>
    subst hr
    obtain ⟨rfl, hfull⟩ := AddsHandle.failed ha
    refine ⟨hcan.keepsFiles wf,
      Or.inr ⟨hc, hfull, n, i, k, hn, fun _ _ => hcan.absent, ?_, ?_, rfl⟩⟩
    · exact hcan.entryAt_self wf.geometry
    · exact fileOf_of_empty (by simp [Fs.createdFile])

/-- Without handles the file is truncated, and the call fails. -/
theorem WellFormed.not_destroysNothing (wf : fs.WellFormed) (h : fs.TruncatesUnopened name mode) :
    ¬ fs.DestroysNothing name mode := by
  obtain ⟨ht, hfull, n, i, k, rfl, hv, he, hpos⟩ := h
  intro hkeeps
  obtain ⟨r, fs', heq, ho⟩ := wf.tfsOpen (some n) mode
  cases ho with
  | invalid hinvalid =>
    rw [hv] at hinvalid
    cases hinvalid
  | absent hn _ hno _ =>
    cases hn
    exact hno he
  | noInode hn _ hno _ _ =>
    cases hn
    exact hno he
  | noEntry _ hn _ hno _ _ _ _ =>
    cases hn
    exact hno he
  | created _ _ hn _ _ hcan _ =>
    cases hn
    exact hcan.absent he
  | @existing _ i' k' _ _ hn _ he' ha =>
    cases hn
    obtain rfl := wf.directory.name_inj he he'
    obtain rfl := he.inumber_unique he'
    cases ha with
    | full _ =>
      have hsize := (hkeeps _ heq).1.size he
      have hafter : fs.afterTrunc mode k = fs.truncated k := if_pos ht
      rw [hafter, truncated_inode_self] at hsize
      omega
    | slot h' hlt hfree _ =>
      have htaken := handlesFull_afterTrunc.mpr hfull h' hlt
      rw [hfree] at htaken
      cases htaken

end Fs

open Fs

/-- In every state reached a failing `tfs_open` destroys nothing, if and only if it does not
truncate a file for which no handle is left. -/
theorem destroysNothing_iff {params : TfsParams} {malloc : Malloc} {fs₀ fs₁ fs : Fs}
    (hp : Bounded params) (hinit : fs₀.tfsInit params malloc = .ok (0, fs₁))
    (hr : Reaches (stateStep exec) anyStep fs₁ fs) (name : Option CString) (mode : FileMode) :
    fs.DestroysNothing name mode ↔ ¬ fs.TruncatesUnopened name mode := by
  have wf := wellFormed_of_reaches hp hinit hr
  constructor
  · intro hkeeps htrunc
    exact wf.not_destroysNothing htrunc hkeeps
  · exact wf.destroysNothing

/-- Create a file, write to it and open it again: both handles are in use. -/
def takeHandles : List Call :=
  [.open (some pathA) { creat := true }, .write 0 (fun _ => 104) 2, .open (some pathA) {}]

/-- The inode and the size of the file, the two handles, and what the next open returns. -/
theorem run_takeHandles :
    (runLabels (stateStep exec) smallFs takeHandles).map (fun fs =>
      ((fs.findInDir 0 pathA.tail).toOption, (fs.inodeTable 1).iSize, fs.maxOpenFiles,
        fs.freeOpenFileEntries 0, fs.freeOpenFileEntries 1,
        ((fs.tfsOpen (some pathA) {}).map Prod.fst).toOption)) =
      some (some 1, 2, 2, .taken, .taken, some (-1)) := by
  decide +kernel

theorem takeHandles_destroysNothing :
    ∃ fs, runLabels (stateStep exec) smallFs takeHandles = some fs ∧
      ((fs.tfsOpen (some pathA) {}).map Prod.fst).toOption = some (-1) ∧
      (fs.inodeTable 1).iSize = 2 ∧ fs.DestroysNothing (some pathA) {} := by
  obtain ⟨fs, hs, hval⟩ := Option.map_eq_some_iff.mp run_takeHandles
  simp only [Prod.mk.injEq] at hval
  obtain ⟨_, hsize, _, _, _, hopen⟩ := hval
  refine ⟨fs, hs, hopen, hsize, ?_⟩
  refine (destroysNothing_iff bounded_small tfsInit_small (reaches_of_runLabels hs) _ _).mpr ?_
  -- the call has no `TFS_O_TRUNC`
  intro htrunc
  exact Bool.false_ne_true htrunc.1

/-- The next open with `TFS_O_TRUNC` returns `-1` and empties the file. -/
theorem takeHandles_not_destroysNothing :
    ∃ fs, runLabels (stateStep exec) smallFs takeHandles = some fs ∧
      ¬ fs.DestroysNothing (some pathA) { trunc := true } := by
  obtain ⟨fs, hs, hval⟩ := Option.map_eq_some_iff.mp run_takeHandles
  simp only [Prod.mk.injEq] at hval
  obtain ⟨hfind, hsize, hmax, h0, h1, _⟩ := hval
  have wf := wellFormed_of_reaches bounded_small tfsInit_small (reaches_of_runLabels hs)
  refine ⟨fs, hs, wf.not_destroysNothing ⟨rfl, ?_, ?_⟩⟩
  · intro h hlt
    rw [hmax] at hlt
    obtain rfl | rfl : h = 0 ∨ h = 1 := by omega
    · exact h0
    · exact h1
  · rcases wf.findInDir pathA.tail with ⟨i, k, he, heq⟩ | ⟨_, heq⟩
    · rw [heq] at hfind
      obtain rfl : k = 1 := Int.ofNat_inj.mp (Option.some.inj hfind)
      exact ⟨pathA, i, 1, rfl, by decide, he, by rw [hsize]; decide⟩
    · rw [heq] at hfind
      cases hfind

end MessageBroker.Tfs
