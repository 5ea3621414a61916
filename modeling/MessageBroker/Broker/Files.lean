import MessageBroker.Tfs.Refinement

/-!
# The broker's calls of the file system

Between two requests that are handled to completion no handle of TecnicoFS is
open. The lemmas give the outcome of the calls that the broker makes from such a
state, in terms of the store that the file system refines.
-/

namespace MessageBroker.Broker

open Bytes Table Transition Tfs Tfs.Fs

/-- The file system refines the store and no handle is open. -/
structure Idle (fs : Fs) (st : FileStore CString) : Prop where
  refines : Refines tfsDefaultParams fs st
  handles : st.handles = fun _ => none

/-- The path names an entry of the root directory. -/
def HasPath (fs : Fs) (path : CString) : Prop :=
  validPathname (some path) = true ∧ ∃ i k, fs.EntryAt i path.tail k

/-- Another entry can be added to the store. -/
def HasRoom (st : FileStore CString) (path : CString) : Prop :=
  path.tail.length < maxFileName ∧ st.names.card < (limits tfsDefaultParams).files

variable {fs fs' : Fs} {st st' : FileStore CString} {path : CString} {mode : FileMode}
  {entry : CString × Nat}

theorem hasPath_iff (hr : Refines tfsDefaultParams fs st) :
    HasPath fs path ↔ validPathname (some path) = true ∧ path.tail ∈ st.names :=
  and_congr_right fun _ => hr.files.names.symm

/-- File systems of stores with the same files have the same paths. -/
theorem Idle.hasPath_congr (h : Idle fs st) (h' : Idle fs' st') (hnames : st'.names = st.names) :
    HasPath fs' path ↔ HasPath fs path := by
  rw [hasPath_iff h'.refines, hasPath_iff h.refines, hnames]

/-- The store with one handle open. -/
theorem openHandle_zero (hq : st.handles = fun _ => none) (n : CString) (offset : Nat) :
    st.openHandle (limits tfsDefaultParams) n offset = (0, st.setHandle 0 (some (n, offset))) :=
  FileStore.openHandle_slot (by decide) (congrFun hq 0) (by simp)

theorem setHandle_zero_none (hq : st.handles = fun _ => none) :
    (st.setHandle 0 (some entry)).setHandle 0 none = st := by
  cases st
  subst hq
  simp only [FileStore.setHandle, Function.update_idem, Function.update_eq_self]

theorem AddsHandle.fsData_eq {k offset : Nat} {r : Int} (ha : AddsHandle fs k offset r fs') :
    fs'.fsData = fs.fsData := by
  cases ha <;> rfl

/-- `tfs_open` writes to the blocks only when it creates a file. -/
theorem Opens.fsData_eq {r : Int} (ho : Opens fs (some path) mode r fs')
    (hno : validPathname (some path) = true → mode.creat = true →
      ∀ {k i}, ¬ fs.CanCreate k i path.tail) :
    fs'.fsData = fs.fsData := by
  cases ho with
  | existing hn _ _ ha =>
    apply (AddsHandle.fsData_eq ha).trans
    unfold afterTrunc
    split
    · exact truncated_fsData
    · rfl
  | created k i hn hv hc hcan _ =>
    cases hn
    exact absurd hcan (hno hv hc)
  | _ => rfl

/-- What `tfs_open` returns is what the store says. -/
theorem Idle.opens (h : Idle fs st) (path : CString) (mode : FileMode)
    (ht : mode.trunc = false) :
    ∃ r fs' st', fs.tfsOpen (some path) mode = .ok (r, fs') ∧ Opens fs (some path) mode r fs' ∧
      refOpen tfsDefaultParams st (some path) mode = (r, st') ∧
      Refines tfsDefaultParams fs' st' := by
  obtain ⟨r, fs', heq, ho⟩ := h.refines.wf.tfsOpen (some path) mode
  have hok : Admitted st (.open (some path) mode) := by
    intro ht'
    rw [ht] at ht'
    cases ht'
  obtain ⟨st', hst, hr⟩ := h.refines.opens hok ho
  exact ⟨r, fs', st', heq, ho, hst, hr⟩

theorem handle_zero (st : FileStore CString) (entry : CString × Nat) :
    (st.setHandle 0 (some entry)).handle (limits tfsDefaultParams) 0 = some (0, entry) :=
  FileStore.handle_eq_some (h := 0) (by decide) (by simp [FileStore.setHandle])

/-- `tfs_open` of a path that exists. -/
theorem Idle.open_existing (h : Idle fs st) (hp : HasPath fs path) (mode : FileMode)
    (ht : mode.trunc = false) :
    ∃ fs', fs.tfsOpen (some path) mode = .ok (0, fs') ∧
      Refines tfsDefaultParams fs' (st.setHandle 0
        (some (path.tail, if mode.append then (st.contents path.tail).length else 0))) ∧
      fs'.fsData = fs.fsData := by
  obtain ⟨r, fs', st', heq, ho, hst, hr⟩ := h.opens path mode ht
  obtain ⟨hv, hmem⟩ := (hasPath_iff h.refines).mp hp
  simp only [refOpen, hv, not_true_eq_false, if_false, hmem, if_true, ht, Bool.false_eq_true,
    openHandle_zero h.handles] at hst
  cases hst
  obtain ⟨i, k, he⟩ := hp.2
  exact ⟨fs', heq, hr, Opens.fsData_eq ho fun _ _ _ _ hcan => hcan.absent he⟩

/-- `tfs_open` of a path that does not exist, without creating it. -/
theorem Idle.open_absent (h : Idle fs st) (hp : ¬ HasPath fs path) (mode : FileMode)
    (ht : mode.trunc = false) (hc : mode.creat = false) :
    ∃ fs', fs.tfsOpen (some path) mode = .ok (-1, fs') ∧ Idle fs' st ∧
      fs'.fsData = fs.fsData := by
  obtain ⟨r, fs', st', heq, ho, hst, hr⟩ := h.opens path mode ht
  have hdata := Opens.fsData_eq ho fun _ hc' => absurd hc' (by simp [hc])
  rw [hasPath_iff h.refines, not_and] at hp
  by_cases hv : validPathname (some path) = true
  · simp only [refOpen, hv, not_true_eq_false, if_false, hp hv, hc, Bool.false_eq_true,
      false_and] at hst
    cases hst
    exact ⟨fs', heq, ⟨hr, h.handles⟩, hdata⟩
  · simp only [refOpen, hv] at hst
    cases hst
    exact ⟨fs', heq, ⟨hr, h.handles⟩, hdata⟩

/-- `tfs_open` with `TFS_O_CREAT` of a new path. -/
theorem Idle.open_creat (h : Idle fs st) (hp : ¬ HasPath fs path)
    (hv : validPathname (some path) = true) (hroom : HasRoom st path) :
    ∃ fs', fs.tfsOpen (some path) { creat := true } = .ok (0, fs') ∧
      Refines tfsDefaultParams fs' ((st.create path.tail).setHandle 0 (some (path.tail, 0))) := by
  obtain ⟨r, fs', st', heq, ho, hst, hr⟩ := h.opens path { creat := true } rfl
  rw [hasPath_iff h.refines, not_and] at hp
  have hq : (st.create path.tail).handles = fun _ => none := h.handles
  simp only [refOpen, hv, not_true_eq_false, if_false, hp hv, hroom.1, hroom.2, and_true, if_true,
    openHandle_zero hq] at hst
  cases hst
  exact ⟨fs', heq, hr⟩

/-- `tfs_open` with `TFS_O_CREAT` where no file can be created. -/
theorem Idle.open_creat_fails (h : Idle fs st) (hp : ¬ HasPath fs path)
    (hno : ¬ (validPathname (some path) = true ∧ HasRoom st path)) :
    ∃ fs', fs.tfsOpen (some path) { creat := true } = .ok (-1, fs') ∧ Idle fs' st ∧
      fs'.fsData = fs.fsData := by
  obtain ⟨r, fs', st', heq, ho, hst, hr⟩ := h.opens path { creat := true } rfl
  have hdata := Opens.fsData_eq ho fun hv _ _ _ hcan =>
    hno ⟨hv, hcan.short, h.refines.card_lt_of_canCreate hcan⟩
  rw [hasPath_iff h.refines, not_and] at hp
  by_cases hv : validPathname (some path) = true
  · have hroom : ¬ (path.tail.length < maxFileName ∧
        st.names.card < (limits tfsDefaultParams).files) := fun hroom => hno ⟨hv, hroom⟩
    simp only [refOpen, hv, not_true_eq_false, if_false, hp hv, true_and, hroom] at hst
    cases hst
    exact ⟨fs', heq, ⟨hr, h.handles⟩, hdata⟩
  · simp only [refOpen, hv] at hst
    cases hst
    exact ⟨fs', heq, ⟨hr, h.handles⟩, hdata⟩

theorem Closes.fsData_eq {fhandle r : Int} (hc : Closes fs fhandle r fs') :
    fs'.fsData = fs.fsData := by
  cases hc <;> rfl

/-- `tfs_close` of the only handle. -/
theorem idle_of_close (hr : Refines tfsDefaultParams fs (st.setHandle 0 (some entry)))
    (hq : st.handles = fun _ => none) :
    ∃ fs', fs.tfsClose 0 = .ok (0, fs') ∧ Idle fs' st ∧ fs'.fsData = fs.fsData := by
  obtain ⟨r, fs', heq, hc⟩ := hr.wf.tfsClose 0
  obtain ⟨st', hst, hr'⟩ := hr.closes hc
  simp only [FileStore.close, handle_zero, setHandle_zero_none hq] at hst
  cases hst
  exact ⟨fs', heq, ⟨hr', hq⟩, Closes.fsData_eq hc⟩

/-- Opening an existing path and closing it again. -/
theorem Idle.open_close (h : Idle fs st) (hp : HasPath fs path) (mode : FileMode)
    (ht : mode.trunc = false) :
    ∃ fs₁ fs₂, fs.tfsOpen (some path) mode = .ok (0, fs₁) ∧ fs₁.tfsClose 0 = .ok (0, fs₂) ∧
      Idle fs₂ st ∧ fs₂.fsData = fs.fsData := by
  obtain ⟨fs₁, hopen, hr, hdata⟩ := h.open_existing hp mode ht
  obtain ⟨fs₂, hclose, hidle, hdata'⟩ := idle_of_close hr h.handles
  exact ⟨fs₁, fs₂, hopen, hclose, hidle, hdata'.trans hdata⟩

/-- Creating a path and closing it again. -/
theorem Idle.creat_close (h : Idle fs st) (hp : ¬ HasPath fs path)
    (hv : validPathname (some path) = true) (hroom : HasRoom st path) :
    ∃ fs₁ fs₂, fs.tfsOpen (some path) { creat := true } = .ok (0, fs₁) ∧
      fs₁.tfsClose 0 = .ok (0, fs₂) ∧ Idle fs₂ (st.create path.tail) := by
  obtain ⟨fs₁, hopen, hr⟩ := h.open_creat hp hv hroom
  obtain ⟨fs₂, hclose, hidle, _⟩ := idle_of_close hr h.handles
  exact ⟨fs₁, fs₂, hopen, hclose, hidle⟩

/-- `tfs_unlink` of a path that exists. -/
theorem Idle.unlink (h : Idle fs st) (hp : HasPath fs path) :
    ∃ fs', fs.tfsUnlink (some path) = .ok (0, fs') ∧ Idle fs' (st.remove path.tail) := by
  obtain ⟨r, fs', heq, hu⟩ := h.refines.wf.tfsUnlink (some path)
  have hok : Admitted st (.unlink (some path)) := by
    rintro p _ _ ⟨i, offset, hin⟩
    rw [h.handles] at hin
    cases hin
  obtain ⟨st', hst, hr'⟩ := h.refines.unlinks hok hu
  obtain ⟨hv, hmem⟩ := (hasPath_iff h.refines).mp hp
  simp only [refUnlink, hv, not_true_eq_false, if_false, hmem, if_true] at hst
  cases hst
  exact ⟨fs', heq, ⟨hr', h.handles⟩⟩

/-! ### Writing and reading through the only handle -/

@[simp] theorem setHandle_setHandle (st : FileStore CString) (h : Nat)
    (e e' : Option (CString × Nat)) : (st.setHandle h e).setHandle h e' = st.setHandle h e' := by
  simp only [FileStore.setHandle, Function.update_idem]

/-- There are always fewer files than blocks for them. -/
theorem nonempty_card_lt (hr : Refines tfsDefaultParams fs st) :
    st.nonempty.card < (limits tfsDefaultParams).nonempty := by
  have hcard := card_entries hr.wf hr.files
  have hle := card_indices_le (fun i => fs.dInumber 0 i != -1) fs.maxDirEntries
  have hmax : fs.maxDirEntries = 23 := by
    rw [maxDirEntries, blockSize, hr.fsParams]
    rfl
  have hsub : st.nonempty.card ≤ st.names.card := Finset.card_filter_le _ _
  have hlim : (limits tfsDefaultParams).nonempty = 1023 := rfl
  omega

/-- Appending: as many bytes are written as fit in the block. -/
theorem write_append (bs : List UInt8) {n : CString}
    (hr : Refines tfsDefaultParams fs (st.setHandle 0 (some (n, (st.contents n).length))))
    (hlen : bs.length ≤ ssizeMax) :
    ∃ fs' offset, fs.tfsWrite 0 (store (fun _ => 0) 0 bs) bs.length =
        .ok (((bs.take (tfsDefaultParams.blockSize - (st.contents n).length)).length : Nat), fs') ∧
      Refines tfsDefaultParams fs' ((st.setContents n (st.contents n ++
        bs.take (tfsDefaultParams.blockSize - (st.contents n).length))).setHandle 0
          (some (n, offset))) := by
  obtain ⟨r, fs', heq⟩ := hr.tfsWrite_ok 0 (store (fun _ => 0) 0 bs) hlen
  obtain ⟨st', hst, hr'⟩ := hr.writes hlen (hr.wf.tfsWrite heq)
  have hroom := nonempty_card_lt hr
  rw [load_store_self] at hst
  have hcontents : (st.setHandle 0 (some (n, (st.contents n).length))).contents = st.contents := rfl
  have hlim : (limits tfsDefaultParams).size = tfsDefaultParams.blockSize := rfl
  generalize hdata : bs.take (tfsDefaultParams.blockSize - (st.contents n).length) = data
  simp only [FileStore.write, handle_zero, hlim, hdata, hcontents] at hst
  by_cases hnil : data.length = 0
  · rw [if_pos hnil] at hst
    cases hst
    refine ⟨fs', (st.contents n).length, ?_, ?_⟩
    · rw [heq, hnil]
      rfl
    · rw [List.eq_nil_of_length_eq_zero hnil, List.append_nil]
      have hsame : st.setContents n (st.contents n) = st := by
        simp only [FileStore.setContents, Function.update_eq_self]
      rwa [hsame]
  · rw [if_neg hnil, if_neg (fun hfull => absurd hfull.2 (not_le.mpr hroom)),
      splice_length] at hst
    cases hst
    refine ⟨fs', (st.contents n).length + data.length, heq, ?_⟩
    have hmove : ((st.setHandle 0 (some (n, (st.contents n).length))).setContents n
        (st.contents n ++ data)).setHandle 0 (some (n, (st.contents n).length + data.length)) =
          (st.setContents n (st.contents n ++ data)).setHandle 0
            (some (n, (st.contents n).length + data.length)) := by
      simp only [FileStore.setHandle, FileStore.setContents, Function.update_idem]
    rwa [← hmove]

/-- Reading one byte. -/
theorem read_byte {n : CString} {offset : Nat}
    (hr : Refines tfsDefaultParams fs (st.setHandle 0 (some (n, offset)))) :
    ∃ fs', fs.tfsRead 0 1 =
        .ok (((((st.contents n).drop offset).take 1).length,
          ((st.contents n).drop offset).take 1), fs') ∧
      Refines tfsDefaultParams fs' (st.setHandle 0
        (some (n, offset + (((st.contents n).drop offset).take 1).length))) := by
  obtain ⟨p, fs', heq⟩ := hr.tfsRead_ok 0 1
  obtain ⟨st', hst, hr'⟩ := hr.reads (hr.wf.tfsRead heq)
  simp only [FileStore.read, handle_zero, setHandle_setHandle] at hst
  cases hst
  exact ⟨fs', heq, hr'⟩

end MessageBroker.Broker
