import MessageBroker.Tfs.Initialisation
import MessageBroker.Tfs.Refinement

/-!
# From `tfs_init` to `tfs_destroy` and back

A program that initialises the file system, uses it, destroys it and initialises it again,
with other parameters, has a new store each time, whatever the memory that it is given
holds. This is `run_refines_reference` for all calls of the library.
-/

namespace MessageBroker.Tfs

open Bytes Table Transition Fs

/-- What stands between a `tfs_init` and the next `tfs_destroy`. -/
structure Volume where
  params : TfsParams
  store : FileStore CString

/-- The meaning of a call of the library; there is no volume before `tfs_init` and behind
`tfs_destroy`. -/
def lifetime : Option Volume → LibraryCall → Reply × Option Volume
  | none, .init params _ (.granted _) => (⟨0, []⟩, some ⟨params, .empty⟩)
  | none, .init _ _ (.failed _) => (⟨-1, []⟩, none)
  | some v, .init _ _ _ => (⟨-1, []⟩, some v)
  | _, .destroy => (⟨0, []⟩, none)
  | none, .call _ => (⟨-1, []⟩, none)
  | some v, .call c =>
    let r := reference v.params v.store c
    (r.1, some { v with store := r.2 })

/-- The path or the handle is turned down before anything else is looked at. -/
def TurnedDown : Call → Prop
  | .open path _ | .unlink path => validPathname path = false
  | .close fhandle | .write fhandle _ _ | .read fhandle _ => fhandle < 0

/-- The parameters have room for the root directory. -/
structure Usable (params : TfsParams) : Prop where
  bounded : Bounded params
  small : params.blockSize ≤ intMax
  inodes : 0 < params.maxInodeCount
  blocks : 0 < params.maxBlockCount

/-- Calls that do what they should: a second `tfs_init` has the parameters of the first one, a
failed one has allocated nothing that is kept, and without a volume there are only calls that are
turned down. On a volume the calls are those of `Admitted`. -/
def LifeAdmitted : Option Volume → LibraryCall → Prop
  | none, .init params _ (.granted _) => Usable params
  | none, .init _ _ (.failed inodeTableSet) => inodeTableSet = false
  | some v, .init params _ _ => params = v.params
  | _, .destroy => True
  | none, .call c => TurnedDown c
  | some v, .call c => Admitted v.store c

/-- The library has the volume. -/
def Serves (lib : Library) : Option Volume → Prop
  | none => lib.ready = false ∧ lib.fs.tables = none
  | some v => lib.ready = true ∧ lib.fs.tables = some v.params ∧ Refines v.params lib.fs v.store

variable {lib : Library} {volume : Option Volume} {params : TfsParams} {fs : Fs} {heap : Heap}

/-- Whatever the memory holds, the root directory is created in it. -/
theorem inodeCreate_eq (h : Usable params) :
    (fs.allocatedTables params heap).inodeCreate .directory =
      .ok (some rootDirInum, fs.rootCreated params heap) := by
  -- the size of the blocks does not wrap
  have hsize : params.maxBlockCount * params.blockSize < sizeRange :=
    (Nat.mul_le_mul h.bounded.blocks_le h.small).trans_lt (by decide)
  have hentries : params.blockSize / sizeofDirEntry * sizeofDirEntry ≤
      params.maxBlockCount * params.blockSize % sizeRange := by
    rw [Nat.mod_eq_of_lt hsize]
    exact (Nat.div_mul_le_self ..).trans (Nat.le_mul_of_pos_left _ h.blocks)
  rw [inodeCreate, inodeAlloc]
  simp only [allocatedTables, inodeTableSize, dataBlockAlloc, dataBlocks,
    Library.firstIndex_free_eq h.inodes, Library.firstIndex_free_eq h.blocks]
  have hget : ∀ fs' : Fs, fs'.fsParams = params → fs'.dataBlockGet (0 : Nat) = .ok 0 := by
    intro fs' hparams
    have hvalid : fs'.validBlockNumber (0 : Nat) := by
      refine ⟨le_rfl, ?_⟩
      rw [dataBlocks, hparams]
      exact Int.natCast_pos.mpr h.blocks
    rw [dataBlockGet, if_pos hvalid]
    exact congrArg Except.ok (Nat.zero_mul _)
  rw [hget _ rfl, ok_bind, if_neg]
  · rfl
  · rw [Nat.zero_add]
    exact Nat.not_lt.mpr hentries

theorem tfsInit_usable (h : Usable params) (ht : fs.tables = none) :
    fs.tfsInit params (.granted heap) = .ok (0, fs.rootCreated params heap) := by
  rw [Library.tfsInit_granted ht, inodeCreate_eq h]
  rfl

theorem serves_initial : Serves Library.initial none := ⟨rfl, rfl⟩

/-! ### The calls -/

theorem Serves.init {malloc : Malloc} (h : Serves lib volume) (positive : 0 < params.blockSize)
    (hok : LifeAdmitted volume (.init params positive malloc)) :
    ∃ lib', lib.perform (.init params positive malloc) =
        some ((lifetime volume (.init params positive malloc)).1, lib') ∧
      Serves lib' (lifetime volume (.init params positive malloc)).2 := by
  cases volume with
  | none =>
    obtain ⟨hready, htables⟩ := h
    cases malloc with
    | granted heap =>
      have htfs : lib.fs.tfsInit params (.granted heap) =
          .ok (0, lib.fs.rootCreated params heap) := tfsInit_usable hok htables
      refine ⟨_, Library.perform_init htfs, ?_, rfl, ?_⟩
      · rw [htables]
        exact Bool.or_true _
      · exact (initial_of_tfsInit htfs).refines hok.bounded hok.small
    | failed inodeTableSet =>
      cases hok
      refine ⟨_, Library.perform_init (Library.tfsInit_failed htables), ?_, rfl⟩
      rw [hready]
      exact Bool.and_false _
  | some v =>
    obtain ⟨hready, htables, hrefines⟩ := h
    cases hok
    have hsame : { lib.fs with fsParams := v.params } = lib.fs := by
      rw [← hrefines.fsParams]
    refine ⟨_, Library.perform_init (Library.tfsInit_of_some htables), ?_⟩
    rw [hsame]
    refine ⟨?_, htables, hrefines⟩
    rw [hready]
    rfl

theorem blind_of_turnedDown {c : Call} (h : TurnedDown c) : blind fs c = some ⟨-1, []⟩ := by
  cases c with
  | «open» path mode | unlink path =>
    rw [blind, if_neg]
    exact Bool.eq_false_iff.mp h
  | close fhandle | write fhandle _ _ | read fhandle _ =>
    rw [blind, if_neg]
    exact fun hvalid => absurd hvalid.1 (not_le.mpr h)

theorem Serves.call {c : Call} (h : Serves lib volume) (hok : LifeAdmitted volume (.call c)) :
    ∃ lib', lib.perform (.call c) = some ((lifetime volume (.call c)).1, lib') ∧
      Serves lib' (lifetime volume (.call c)).2 := by
  cases volume with
  | none =>
    obtain ⟨hready, htables⟩ := h
    have hnot : ¬ lib.ready = true := by
      rw [hready]
      exact Bool.false_ne_true
    refine ⟨lib, ?_, hready, htables⟩
    rw [Library.perform, if_neg hnot, blind_of_turnedDown hok]
    rfl
  | some v =>
    obtain ⟨hready, htables, hrefines⟩ := h
    obtain ⟨fs', heq, hrefines'⟩ := hrefines.exec hok
    have hsame := exec_sameSetup lib.fs c _ heq
    refine ⟨⟨fs', true⟩, ?_, rfl, hsame.tables.trans htables, hrefines'⟩
    rw [Library.perform, if_pos hready]
    simp only [heq]
    rfl

theorem Serves.perform {c : LibraryCall} (h : Serves lib volume) (hok : LifeAdmitted volume c) :
    ∃ lib', lib.perform c = some ((lifetime volume c).1, lib') ∧
      Serves lib' (lifetime volume c).2 := by
  cases c with
  | init params positive malloc => exact h.init positive hok
  | destroy =>
    cases volume <;> exact ⟨⟨lib.fs.tfsDestroy.2, false⟩, rfl, rfl, rfl⟩
  | call c => exact h.call hok

/-! ### Whole lives -/

theorem Serves.replies {calls : List LibraryCall} (h : Serves lib volume)
    (hok : AllAdmitted lifetime LifeAdmitted volume calls) :
    lib.replies calls = (totalOutputs lifetime volume calls).1 := by
  induction calls generalizing lib volume with
  | nil => rfl
  | cons c calls ih =>
    obtain ⟨hc, hrest⟩ := hok
    obtain ⟨lib', heq, h'⟩ := h.perform hc
    rw [Library.replies_cons heq, ih h' hrest]
    rfl

/-- **The library refines its lifetimes**: from the start of a program on, every sequence of calls
of the library returns what the volumes return, and none of them faults. -/
theorem life_refines_lifetime {calls : List LibraryCall}
    (hok : AllAdmitted lifetime LifeAdmitted none calls) :
    Library.initial.replies calls = (totalOutputs lifetime none calls).1 :=
  serves_initial.replies hok

theorem usable_small : Usable smallParams :=
  ⟨bounded_small, by decide, by decide, by decide⟩

/-- A file that was created is gone behind a `tfs_destroy`, though its memory is used again. -/
def twoLives : List LibraryCall :=
  [.init smallParams Library.smallParams_blockSize (.granted zeroHeap),
    .call (.open (some pathA) { creat := true }), .call (.close 0), .destroy,
    .init smallParams Library.smallParams_blockSize
      (.granted { zeroHeap with fsData := smallFs.fsData }),
    .call (.open (some pathA) {})]

theorem twoLives_refines_lifetime :
    Library.initial.replies twoLives =
      [⟨0, []⟩, ⟨0, []⟩, ⟨0, []⟩, ⟨0, []⟩, ⟨0, []⟩, ⟨-1, []⟩] := by
  apply life_refines_lifetime
  exact ⟨usable_small, nofun, trivial, trivial, usable_small, nofun, trivial⟩

end MessageBroker.Tfs
