import MessageBroker.Tfs.Runs

/-!
# Looking up and removing a name

`find_in_dir` skips the entries that are free and compares at most `MAX_FILE_NAME`
bytes, `clear_dir_entry` compares every entry to its end. What the heap held where
the directory came to lie is still there as the names of the entries that have never
been used. First-fit insertion keeps these behind the used ones, and the entries
that were cleared hold the empty name, so the two functions stop at the same entry.
-/

namespace MessageBroker.Tfs

open Bytes Table Transition

namespace Fs

variable {fs fs' : Fs} {i j k : Nat} {name : CString} {m : Memory}

/-- Entry `k` of the root directory has been cleared, and nothing else has changed. -/
structure ClearsEntry (fs : Fs) (k : Nat) (fs' : Fs) : Prop where
  inumber : fs'.dInumber 0 k = -1
  name : load fs'.fsData (dirEntry 0 k) maxFileName = List.replicate maxFileName 0
  elsewhere : ∀ a, a < dirEntry 0 k ∨ dirEntry 0 (k + 1) ≤ a → fs'.fsData a = fs.fsData a
  tables : fs' = { fs with fsData := fs'.fsData }

/-- Looking up a name in the root directory and removing it pick the same entry. -/
structure PicksSame (fs : Fs) : Prop where
  /-- An inode number that is found is that of the entry at which the search stops. -/
  found : ∀ {name inum}, fs.findInDir 0 name = .ok inum → inum ≠ -1 →
    ∃ k, fs.foundEntry 0 name = some k ∧ fs.dInumber 0 k = inum
  cleared : ∀ {name k}, fs.foundEntry 0 name = some k →
    ∃ fs', fs.clearDirEntry 0 name = .ok (0, fs') ∧ fs.ClearsEntry k fs'
  /-- A removal that frees an inode succeeds, and no entry has its number any more. -/
  unlinked : ∀ target, ∃ r fs', fs.tfsUnlink target = .ok (r, fs') ∧
    ∀ i : Nat, fs.freeinodeTs i = .taken → fs'.freeinodeTs i = .free →
      r = 0 ∧ ∀ j < fs'.maxDirEntries, fs'.dInumber 0 j ≠ i

theorem clearEntry_apply {a : Nat} (h : a < dirEntry 0 k ∨ dirEntry 0 (k + 1) ≤ a) :
    clearEntry m k a = m a := by
  simp only [dirEntry, Nat.zero_add] at h
  obtain h | h := h
  · have hnum : a < dInumberAddr 0 k := by
      rw [dInumberAddr, dirEntry]
      omega
    have hname : a < dirEntry 0 k := by
      rw [dirEntry]
      omega
    exact (store_of_lt hname).trans (store_of_lt hnum)
  · exact rewrite_apply_of_ge length_zeroField h

theorem clearsEntry_clearEntry (fs : Fs) (k : Nat) :
    fs.ClearsEntry k { fs with fsData := clearEntry fs.fsData k } where
  inumber := loadInt_clearEntry
  name := load_store_self _ _ _
  elsewhere _ ha := clearEntry_apply ha
  tables := rfl

theorem WellFormed.found (wf : fs.WellFormed) {inum : Int} (hfind : fs.findInDir 0 name = .ok inum)
    (hne : inum ≠ -1) : ∃ k, fs.foundEntry 0 name = some k ∧ fs.dInumber 0 k = inum := by
  rw [wf.root.findInDir] at hfind
  cases hf : fs.foundEntry 0 name with
  | some k =>
    rw [hf] at hfind
    exact ⟨k, rfl, Except.ok.inj hfind⟩
  | none =>
    rw [hf] at hfind
    exact absurd (Except.ok.inj hfind).symm hne

/-- An entry other than the one of an unlinked file names another inode. -/
theorem WellFormed.inumber_ne_of_removed (wf : fs.WellFormed) (he : fs.EntryAt i name k)
    (hj : j < fs.maxDirEntries) : (fs.removedFile k i).dInumber 0 j ≠ k := by
  by_cases hji : j = i
  · subst hji
    have hcleared : (fs.removedFile k j).dInumber 0 j = -1 := loadInt_clearEntry
    omega
  · have hsame : (fs.removedFile k i).dInumber 0 j = fs.dInumber 0 j :=
      (sameEntry_clearEntry hji).loadInt_eq
    rw [hsame]
    intro hk
    have hlive : fs.dInumber 0 j ≠ -1 := by omega
    obtain ⟨name', k', he'⟩ := wf.directory.named j hj hlive
    have hkk : k' = k := by exact_mod_cast he'.inumber.symm.trans hk
    subst hkk
    exact hji (wf.directory.inumber_inj he' he)

/-- What unlinking frees is named by no entry any more. -/
theorem WellFormed.unlinked (wf : fs.WellFormed) (target : Option CString) :
    ∃ r fs', fs.tfsUnlink target = .ok (r, fs') ∧
      ∀ i : Nat, fs.freeinodeTs i = .taken → fs'.freeinodeTs i = .free →
        r = 0 ∧ ∀ j < fs'.maxDirEntries, fs'.dInumber 0 j ≠ i := by
  obtain ⟨r, fs', hrun, hu⟩ := wf.tfsUnlink target
  refine ⟨r, fs', hrun, ?_⟩
  intro k htaken hfree
  cases hu with
  | invalid _ => cases htaken.symm.trans hfree
  | absent _ _ _ => cases htaken.symm.trans hfree
  | removed _ _ he =>
    obtain ⟨rfl, _⟩ | ⟨_, hkept⟩ := update_apply_eq_iff.mp hfree
    · exact ⟨rfl, fun j hj => wf.inumber_ne_of_removed he hj⟩
    · cases htaken.symm.trans hkept

theorem WellFormed.picksSame (wf : fs.WellFormed) : fs.PicksSame where
  found := wf.found
  cleared := by
    intro name k hf
    obtain ⟨_, he⟩ := wf.entryAt_of_found hf
    exact ⟨_, wf.clearDirEntry he rfl rfl rfl, fs.clearsEntry_clearEntry k⟩
  unlinked := wf.unlinked

end Fs

open Fs

/-- Whatever the heap held where the root directory came to lie, in every state reached from a
successful `tfs_init` a removal clears the entry that a lookup of the same name finds. -/
theorem picksSame_of_reaches {params : TfsParams} {malloc : Malloc} {fs₀ fs₁ fs : Fs}
    (hp : Bounded params) (hinit : fs₀.tfsInit params malloc = .ok (0, fs₁))
    (hr : Reaches (stateStep exec) anyStep fs₁ fs) : fs.PicksSame :=
  (wellFormed_of_reaches hp hinit hr).picksSame

/-- A heap in which the memory of every directory entry begins with the name `a`. -/
def namedHeap : Heap where
  inodeTable := fun _ => ⟨.file, 0, 0⟩
  fsData := fun a => if a % sizeofDirEntry = 0 then 'a'.toUInt8 else 0
  openFileTable := fun _ => ⟨0, 0⟩

def namedFs : Fs := uninitialized.rootCreated smallParams namedHeap

theorem tfsInit_named :
    uninitialized.tfsInit smallParams (.granted namedHeap) = .ok (0, namedFs) := rfl

/-- Entry `0` gets the name that entry `1` has without ever having been used. -/
theorem picksSame_named :
    ∃ fs, runLabels (stateStep exec) namedFs [.open (some pathA) { creat := true }] = some fs ∧
      fs.foundEntry 0 pathA.tail = some 0 ∧
      strcmpEq fs.fsData (dirEntry 0 1) pathA.tail.bytes = true ∧ fs.PicksSame := by
  have hrun : (runLabels (stateStep exec) namedFs [.open (some pathA) { creat := true }]).map
      (fun fs => (fs.foundEntry 0 pathA.tail,
        strcmpEq fs.fsData (dirEntry 0 1) pathA.tail.bytes)) = some (some 0, true) := by
    decide +kernel
  obtain ⟨fs, hfs, hview⟩ := Option.map_eq_some_iff.mp hrun
  simp only [Prod.mk.injEq] at hview
  exact ⟨fs, hfs, hview.1, hview.2,
    picksSame_of_reaches bounded_small tfsInit_named (reaches_of_runLabels hfs)⟩

end MessageBroker.Tfs
