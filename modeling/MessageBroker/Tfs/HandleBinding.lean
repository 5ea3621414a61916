import MessageBroker.Tfs.Separation
import MessageBroker.Tfs.Structure

/-!
# Handles and the files they were opened on

A session records for every open handle the name and the inode it was opened on.
`tfs_unlink` does not look at the open file table, and a truncating `tfs_open` leaves
the offsets of the other handles, so a handle only keeps designating its file in runs
that spare files with open handles. `inode_get` never returns a null pointer, so the
assertions about deleted inodes of open files do not fire.
-/

namespace MessageBroker.Tfs

open Bytes Table Transition Fs

structure Session where
  fs : Fs
  openedOn : Nat → Option (CString × Nat)

/-- The record after a call: an opened handle is added with the name of the path and
the inode in its entry, a closed one is removed. -/
def recordHandles (openedOn : Nat → Option (CString × Nat)) (call : Call) (ret : Int) (fs : Fs) :
    Nat → Option (CString × Nat) :=
  match call with
  | .open (some path) _ =>
    if 0 ≤ ret then
      Function.update openedOn ret.toNat
        (some (path.tail, (fs.openFileTable ret.toNat).ofInumber.toNat))
    else openedOn
  | .close fhandle => if ret = 0 then Function.update openedOn fhandle.toNat none else openedOn
  | _ => openedOn

def sessionStep (s : Session) (call : Call) : Option Session :=
  match exec s.fs call with
  | .error _ => none
  | .ok (reply, fs) => some ⟨fs, recordHandles s.openedOn call reply.ret fs⟩

/-- Every handle designates the file it was opened on: the inode is in use and still
has the name in the directory, a write leaves the bytes and the size of every other
file, and a read returns bytes of the file. -/
structure BoundToFile (s : Session) : Prop where
  taken : ∀ {h n k}, s.openedOn h = some (n, k) →
    s.fs.OpenOn h k ∧ s.fs.Taken k ∧ ∃ i, s.fs.EntryAt i n k
  write : ∀ {h n k j} {buffer : Memory} {len : Nat} {reply : Reply} {fs' : Fs},
    s.openedOn h = some (n, k) → exec s.fs (.write h buffer len) = .ok (reply, fs') →
    s.fs.IsFile j → j ≠ k → fs'.fileOf j = s.fs.fileOf j
  read : ∀ {h n k} {len : Nat} {reply : Reply} {fs' : Fs}, s.openedOn h = some (n, k) →
    exec s.fs (.read h len) = .ok (reply, fs') → reply.bytes <:+: s.fs.fileOf k

/-- The call does not unlink a file that has an open handle, and does not truncate a
file that has a handle behind its start. -/
def SparesOpenFiles (s : Session) : Call → Prop
  | .unlink path => ∀ p, path = some p → validPathname path = true →
      ∀ h k, s.openedOn h ≠ some (p.tail, k)
  | .open path mode => mode.trunc = true → ∀ p, path = some p → validPathname path = true →
      ∀ h k, s.openedOn h = some (p.tail, k) → (s.fs.openFileTable h).ofOffset = 0
  | _ => True

/-- The invariant of these runs: the handles stay inside their files. -/
structure Attached (s : Session) : Prop where
  wf : s.fs.WellFormed
  openOn : ∀ {h n k}, s.openedOn h = some (n, k) → s.fs.OpenOn h k
  entry : ∀ {h n k}, s.openedOn h = some (n, k) → ∃ i, s.fs.EntryAt i n k
  offset_le : ∀ {h n k}, s.openedOn h = some (n, k) →
    (s.fs.openFileTable h).ofOffset ≤ (s.fs.inodeTable k).iSize

variable {s s' : Session} {fs fs' : Fs} {h i j k b : Nat} {n : CString} {call : Call} {r : Int}

/-! ### What the invariant gives -/

theorem reads_own_file {len : Nat} {p : Int × List UInt8} (hr : Reads fs h len p fs')
    (ho : fs.OpenOn h k) (hoff : (fs.openFileTable h).ofOffset ≤ (fs.inodeTable k).iSize)
    (hsize : (fs.inodeTable k).iSize < sizeRange) : p.2 <:+: fs.fileOf k := by
  cases hr with
  | invalid _ => exact List.nil_infix
  | nothing _ _ _ _ _ => exact List.nil_infix
  | loaded h' k' b m heq ho' _ hcount _ _ _ =>
    obtain rfl : h = h' := by exact_mod_cast heq
    obtain rfl := ho.inode_unique ho'
    rw [readCount_eq hoff hsize] at hcount
    have hle : (fs.openFileTable h).ofOffset + m ≤ (fs.inodeTable k).iSize := by omega
    change load fs.fsData (fs.handleAddr h k) m <:+: _
    rw [handleAddr, ← take_drop_load hle]
    exact (List.take_prefix _ _).isInfix.trans (List.drop_suffix _ _).isInfix

theorem Attached.boundToFile (ha : Attached s) : BoundToFile s where
  taken := by
    intro h n k hopen
    obtain ⟨i, he⟩ := ha.entry hopen
    exact ⟨ha.openOn hopen, (ha.wf.directory.isFile he).takenInode, i, he⟩
  write := by
    intro h n k j buffer len reply fs' hopen hrun hj hjk
    obtain ⟨i, he⟩ := ha.entry hopen
    obtain ⟨⟨r, fs₁⟩, heq, hrun⟩ := bind_eq_ok.mp hrun
    cases hrun
    refine (ha.wf.tfsWrite heq).fileOf_of_block_ne ha.wf (ha.openOn hopen) hj hjk ?_
    intro hpos hkpos hblock
    exact hjk (ha.wf.files.block_inj hj (ha.wf.directory.isFile he) hpos hkpos hblock)
  read := by
    intro h n k len reply fs' hopen hrun
    obtain ⟨i, he⟩ := ha.entry hopen
    obtain ⟨⟨⟨r, bytes⟩, fs₁⟩, heq, hrun⟩ := bind_eq_ok.mp hrun
    cases hrun
    have hsize := ha.wf.files.size_le (ha.wf.directory.isFile he)
    exact reads_own_file (ha.wf.tfsRead heq) (ha.openOn hopen) (ha.offset_le hopen)
      (hsize.trans_lt (Geometry.blockSize_lt s.fs))

/-! ### The invariant is preserved -/

/-- The invariant after a call that records no handle. -/
theorem Attached.of_kept (ha : Attached s) (wf' : fs'.WellFormed)
    (hkeep : ∀ {h n i k}, s.openedOn h = some (n, k) → s.fs.OpenOn h k → s.fs.EntryAt i n k →
      (s.fs.openFileTable h).ofOffset ≤ (s.fs.inodeTable k).iSize →
      fs'.OpenOn h k ∧ fs'.EntryAt i n k ∧
        (fs'.openFileTable h).ofOffset ≤ (fs'.inodeTable k).iSize) :
    Attached ⟨fs', s.openedOn⟩ := by
  have hall : ∀ {h n k}, s.openedOn h = some (n, k) → ∃ i, fs'.OpenOn h k ∧ fs'.EntryAt i n k ∧
      (fs'.openFileTable h).ofOffset ≤ (fs'.inodeTable k).iSize := by
    intro h n k hopen
    obtain ⟨i, he⟩ := ha.entry hopen
    exact ⟨i, hkeep hopen (ha.openOn hopen) he (ha.offset_le hopen)⟩
  constructor
  · exact wf'
  · intro h n k hopen
    obtain ⟨i, ho, _, _⟩ := hall hopen
    exact ho
  · intro h n k hopen
    obtain ⟨i, _, he, _⟩ := hall hopen
    exact ⟨i, he⟩
  · intro h n k hopen
    obtain ⟨i, _, _, hle⟩ := hall hopen
    exact hle

/-- The invariant when the lowest free handle is opened on a file. -/
theorem Attached.addsHandle {offset : Nat} {p : CString} {mode : FileMode} (ha : Attached s)
    (he : s.fs.EntryAt i p.tail k) (hoff : offset ≤ (s.fs.inodeTable k).iSize)
    (hadd : AddsHandle s.fs k offset r fs') :
    Attached ⟨fs', recordHandles s.openedOn (.open (some p) mode) r fs'⟩ := by
  have hk := ha.wf.directory.isFile he
  cases hadd with
  | full _ => exact ha
  | slot h hlt hfree _ =>
    have hrec : recordHandles s.openedOn (.open (some p) mode) h (s.fs.opened h k offset) =
        Function.update s.openedOn h (some (p.tail, k)) := by
      simp [recordHandles, Fs.opened]
    have hself : (s.fs.opened h k offset).OpenOn h k :=
      ⟨hlt, by simp [Fs.opened], by simp [Fs.opened]⟩
    have hold : ∀ {h' n k'}, Function.update s.openedOn h (some (p.tail, k)) h' = some (n, k') →
        (h' = h ∧ n = p.tail ∧ k' = k) ∨ (h' ≠ h ∧ s.openedOn h' = some (n, k')) := by
      intro h' n k' hopen
      obtain ⟨hh, ⟨⟩⟩ | hold := update_apply_eq_iff.mp hopen
      · exact Or.inl ⟨hh, rfl, rfl⟩
      · exact Or.inr hold
    rw [hrec]
    constructor
    · exact ha.wf.opened hk
    · intro h' n k' hopen
      rcases hold hopen with ⟨rfl, rfl, rfl⟩ | ⟨hh, hopen⟩
      · exact hself
      · exact opened_openOn_of_ne hh (ha.openOn hopen)
    · intro h' n k' hopen
      rcases hold hopen with ⟨rfl, rfl, rfl⟩ | ⟨hh, hopen⟩
      · exact ⟨i, he.keep rfl rfl⟩
      · obtain ⟨i', he'⟩ := ha.entry hopen
        exact ⟨i', he'.keep rfl rfl⟩
    · intro h' n k' hopen
      rcases hold hopen with ⟨rfl, rfl, rfl⟩ | ⟨hh, hopen⟩
      · simpa [Fs.opened] using hoff
      · simpa [Fs.opened, Function.update_of_ne hh] using ha.offset_le hopen

theorem Attached.afterTrunc {p : CString} {mode : FileMode} (ha : Attached s)
    (he : s.fs.EntryAt i p.tail k)
    (hzero : mode.trunc = true → ∀ h k, s.openedOn h = some (p.tail, k) →
      (s.fs.openFileTable h).ofOffset = 0) :
    Attached ⟨s.fs.afterTrunc mode k, s.openedOn⟩ := by
  have hk := ha.wf.directory.isFile he
  cases ht : mode.trunc with
  | false =>
    have heq : s.fs.afterTrunc mode k = s.fs := by simp [Fs.afterTrunc, ht]
    rwa [heq]
  | true =>
    have heq : s.fs.afterTrunc mode k = s.fs.truncated k := by simp [Fs.afterTrunc, ht]
    rw [heq]
    apply ha.of_kept (ha.wf.truncated hk)
    intro h n i' k' hopen ho he' hle
    refine ⟨?_, he'.keep truncated_fsParams truncated_fsData, ?_⟩
    · exact (openOn_iff_of_same truncated_fsParams truncated_freeOpenFileEntries
        truncated_openFileTable).mpr ho
    · rw [truncated_openFileTable]
      by_cases hkk : k' = k
      · subst hkk
        rw [ha.wf.directory.name_eq he he'] at hopen
        rw [hzero ht h k' hopen]
        exact Nat.zero_le _
      · rwa [truncated_inode_of_ne hkk]

theorem Attached.createdFile (ha : Attached s) (hc : s.fs.CanCreate k i n) :
    Attached ⟨s.fs.createdFile k i n, s.openedOn⟩ := by
  apply ha.of_kept (ha.wf.createdFile hc)
  intro h n' i' k' _ ho he hle
  have hi : i' ≠ i := by
    rintro rfl
    exact he.inumber_ne hc.entry_free
  have hinode : (s.fs.createdFile k i n).inodeTable k' = s.fs.inodeTable k' :=
    Function.update_of_ne (hc.inumber_ne ha.wf.directory he) _ _
  refine ⟨ho.congr rfl rfl rfl, (hc.entryAt_of_ne hi).mpr he, ?_⟩
  rwa [hinode]

theorem Attached.resetInode (ha : Attached s) (hfree : s.fs.freeinodeTs k = .free) :
    Attached ⟨s.fs.resetInode k, s.openedOn⟩ := by
  apply ha.of_kept (ha.wf.resetInode hfree)
  intro h n' i' k' _ ho he hle
  have hinode : (s.fs.resetInode k).inodeTable k' = s.fs.inodeTable k' :=
    Function.update_of_ne ((ha.wf.directory.isFile he).ne_of_free hfree) _ _
  refine ⟨ho.congr rfl rfl rfl, he.keep rfl rfl, ?_⟩
  rwa [hinode]

theorem Attached.opens {path : Option CString} {mode : FileMode} (ha : Attached s)
    (hok : SparesOpenFiles s (.open path mode)) (ho : Opens s.fs path mode r fs') :
    Attached ⟨fs', recordHandles s.openedOn (.open path mode) r fs'⟩ := by
  have hfail : ∀ fs, recordHandles s.openedOn (.open path mode) (-1) fs = s.openedOn := by
    intro fs
    cases path <;> rfl
  cases ho with
  | invalid _ => rwa [hfail]
  | @existing p i k r fs' hp hv he hadd =>
    subst hp
    have ha' := ha.afterTrunc he fun ht => hok ht p rfl hv
    refine ha'.addsHandle (he.keep afterTrunc_fsParams afterTrunc_fsData) ?_ hadd
    unfold startOffset
    split
    · exact le_refl _
    · exact Nat.zero_le _
  | absent _ _ _ _ => rwa [hfail]
  | noInode _ _ _ _ _ => rwa [hfail]
  | noEntry k _ _ _ _ _ hfree _ =>
    rw [hfail]
    exact ha.resetInode hfree
  | @created p r fs' k i hp _ _ hc hadd =>
    subst hp
    exact (ha.createdFile hc).addsHandle (hc.entryAt_self ha.wf.geometry) (Nat.zero_le _) hadd

theorem Attached.closes {fhandle : Int} (ha : Attached s) (hc : Closes s.fs fhandle r fs') :
    Attached ⟨fs', recordHandles s.openedOn (.close fhandle) r fs'⟩ := by
  cases hc with
  | invalid _ => exact ha
  | closed h k heq _ =>
    subst heq
    have hrec : recordHandles s.openedOn (.close (h : Nat)) 0 (s.fs.closed h) =
        Function.update s.openedOn h none := by
      simp [recordHandles]
    have hold : ∀ {h' n k'}, Function.update s.openedOn h none h' = some (n, k') →
        h' ≠ h ∧ s.openedOn h' = some (n, k') := by
      intro h' n k' hopen
      obtain ⟨_, ⟨⟩⟩ | hold := update_apply_eq_iff.mp hopen
      exact hold
    rw [hrec]
    constructor
    · exact ha.wf.closed
    · intro h' n k' hopen
      obtain ⟨hh, hopen⟩ := hold hopen
      exact closed_openOn_iff.mpr ⟨hh, ha.openOn hopen⟩
    · intro h' n k' hopen
      obtain ⟨i, he⟩ := ha.entry (hold hopen).2
      exact ⟨i, he.keep rfl rfl⟩
    · exact fun hopen => ha.offset_le (hold hopen).2

theorem Attached.written {bs : List UInt8} (ha : Attached s) (hw : s.fs.CanWrite h k bs) :
    Attached ⟨s.fs.written h k bs, s.openedOn⟩ := by
  apply ha.of_kept (ha.wf.written hw)
  intro h' n i k' _ ho he hle
  refine ⟨written_openOn_iff.mpr ho, he.congr rfl (hw.sameEntry he.index), ?_⟩
  by_cases hh : h' = h
  · subst hh
    obtain rfl := hw.openOn.inode_unique ho
    rw [written_inode_self]
    simp [Fs.written]
  · have htable : (s.fs.written h k bs).openFileTable h' = s.fs.openFileTable h' :=
      Function.update_of_ne hh _ _
    rw [htable]
    exact hle.trans written_iSize_ge

theorem Attached.allocated (ha : Attached s) (hk : 0 < k) (hempty : (s.fs.inodeTable k).iSize = 0)
    (hfree : s.fs.freeBlocks b = .free) : Attached ⟨s.fs.allocated k b, s.openedOn⟩ := by
  apply ha.of_kept (ha.wf.allocated hk hempty hfree)
  intro h n i k' _ ho he hle
  refine ⟨ho.congr rfl rfl rfl, he.keep rfl rfl, ?_⟩
  rw [allocated_inode_iSize]
  exact hle

theorem Attached.writes {fhandle : Int} {buffer : Memory} {len : Nat} (ha : Attached s)
    (hw : Writes s.fs fhandle buffer len r fs') : Attached ⟨fs', s.openedOn⟩ := by
  cases hw with
  | invalid _ => exact ha
  | nothing _ _ _ _ _ => exact ha
  | full _ _ _ _ _ _ _ => exact ha
  | fresh h k b m _ hempty _ hfree _ hcan =>
    have hk := (ha.wf.handles.valid (hcan.openOn.congr rfl rfl rfl : s.fs.OpenOn h k)).1
    exact (ha.allocated hk hempty hfree).written hcan
  | stored h k m _ _ _ hcan => exact ha.written hcan

theorem Attached.reads {fhandle : Int} {len : Nat} {p : Int × List UInt8} (ha : Attached s)
    (hr : Reads s.fs fhandle len p fs') : Attached ⟨fs', s.openedOn⟩ := by
  cases hr with
  | invalid _ => exact ha
  | nothing _ _ _ _ _ => exact ha
  | loaded h k b m _ ho _ hcount _ _ _ =>
    apply ha.of_kept ha.wf.setOffset
    intro h' n i k' _ ho' he hle
    refine ⟨setOffset_openOn_iff.mpr ho', he.keep rfl rfl, ?_⟩
    by_cases hh : h' = h
    · subst hh
      obtain rfl := ho.inode_unique ho'
      have hsize := ha.wf.files.size_le (ha.wf.directory.isFile he)
      rw [readCount_eq hle (hsize.trans_lt (Geometry.blockSize_lt s.fs))] at hcount
      have hmoved : (s.fs.openFileTable h').ofOffset + m ≤ (s.fs.inodeTable k).iSize := by omega
      simpa [Fs.setOffset] using hmoved
    · simpa [Fs.setOffset, Function.update_of_ne hh] using hle

theorem Attached.unlinks {path : Option CString} (ha : Attached s)
    (hok : SparesOpenFiles s (.unlink path)) (hu : Unlinks s.fs path r fs') :
    Attached ⟨fs', s.openedOn⟩ := by
  cases hu with
  | invalid _ => exact ha
  | absent _ _ _ => exact ha
  | @removed p i k hp hv he =>
    subst hp
    apply ha.of_kept (ha.wf.removedFile he)
    intro h n i' k' hopen ho he' hle
    refine ⟨ho.congr rfl rfl rfl, removedFile_entryAt_iff.mpr ⟨?_, he'⟩, hle⟩
    rintro rfl
    rw [he'.name_unique he] at hopen
    exact hok p rfl hv h k' hopen

/-- One call that spares the files with open handles keeps every handle bound. -/
theorem Attached.step (ha : Attached s) (hok : SparesOpenFiles s call)
    (hs : sessionStep s call = some s') : Attached s' := by
  unfold sessionStep at hs
  cases hrun : exec s.fs call with
  | error fault =>
    rw [hrun] at hs
    cases hs
  | ok p =>
    obtain ⟨reply, fs'⟩ := p
    rw [hrun] at hs
    cases hs
    cases performs_of_exec ha.wf hrun with
    | opens ho => exact ha.opens hok ho
    | closes hc => exact ha.closes hc
    | writes hw => exact ha.writes hw
    | reads hr => exact ha.reads hr
    | unlinks hu => exact ha.unlinks hok hu

/-- The session after a successful `tfs_init`: no handle is open. -/
def Session.start (fs : Fs) : Session := ⟨fs, fun _ => none⟩

/-- In every run from a successful `tfs_init` whose calls spare the files with open
handles, every handle stays bound to the file it was opened on. -/
theorem bound_of_spared {params : TfsParams} {malloc : Malloc} {fs₀ fs : Fs} {s : Session}
    (hp : Bounded params) (hinit : fs₀.tfsInit params malloc = .ok (0, fs))
    (hr : Reaches sessionStep SparesOpenFiles (Session.start fs) s) : BoundToFile s := by
  have hstart : Attached (Session.start fs) :=
    ⟨(initial_of_tfsInit hinit).wellFormed hp, nofun, nofun, nofun⟩
  have ha : Attached s := hr.invariant hstart fun _ _ _ ha hok hs => ha.step hok hs
  exact ha.boundToFile

/-- A run with two handles on one file. -/
def twoHandles : List Call :=
  [.open (some pathA) { creat := true }, .write 0 (fun _ => 7) 2,
    .open (some pathA) { append := true }, .write 1 (fun _ => 8) 1, .read 0 4]

theorem twoHandles_bound :
    ∃ s, runLabels sessionStep (Session.start smallFs) twoHandles = some s ∧
      s.openedOn 1 = some (pathA.tail, 1) ∧ BoundToFile s := by
  have hrun : (runLabels sessionStep (Session.start smallFs) twoHandles).map
      (fun s => s.openedOn 1) = some (some (pathA.tail, 1)) := by
    decide +kernel
  obtain ⟨s, hs, hval⟩ := Option.map_eq_some_iff.mp hrun
  refine ⟨s, hs, hval, bound_of_spared bounded_small tfsInit_small (reaches_of_admitted hs ?_)⟩
  have hopen : ∀ mode : FileMode, mode.trunc = false → ∀ u,
      SparesOpenFiles u (.open (some pathA) mode) := by
    intro mode hmode u htrunc
    rw [hmode] at htrunc
    cases htrunc
  intro a ha u
  simp only [twoHandles, List.mem_cons, List.not_mem_nil, or_false] at ha
  rcases ha with rfl | rfl | rfl | rfl | rfl
  · exact hopen _ rfl u
  · trivial
  · exact hopen _ rfl u
  · trivial
  · trivial

/-- A run in which an open file is unlinked. -/
def unlinkOpen : List Call :=
  [.open (some pathA) { creat := true }, .write 0 (fun _ => 7) 2, .unlink (some pathA)]

theorem unlinkOpen_not_bound :
    ¬ ∀ s, Reaches sessionStep anyStep (Session.start smallFs) s → BoundToFile s := by
  intro hall
  have hrun : (runLabels sessionStep (Session.start smallFs) unlinkOpen).map
      (fun s => (s.openedOn 0, s.fs.freeinodeTs 1)) = some (some (pathA.tail, 1), .free) := by
    decide +kernel
  obtain ⟨s, hs, hval⟩ := Option.map_eq_some_iff.mp hrun
  have hopen : s.openedOn 0 = some (pathA.tail, 1) := congrArg Prod.fst hval
  have hfree : s.fs.freeinodeTs 1 = .free := congrArg Prod.snd hval
  have htaken := ((hall s (reaches_of_runLabels hs)).taken hopen).2.1.2
  rw [hfree] at htaken
  cases htaken

end MessageBroker.Tfs
