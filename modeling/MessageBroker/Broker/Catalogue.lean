import MessageBroker.Broker.Listing
import MessageBroker.Broker.Figures
import MessageBroker.Lib.Catalogue

/-!
# What managers see of the boxes

The answers to managers and the names in the listings of a broker are those of a
catalogue with a slot for each session, in which only requests of managers count: what
the sessions of publishers and subscribers do in between is not seen in it. The figures of
the rows are not part of it. A request, a message and a pass are one step each; two
requests whose calls are interleaved can both be answered that they created the box. A
box that is refused because all slots are taken remains in the catalogue without a slot.
-/

namespace MessageBroker.Broker

open Bytes Table Transition Tfs Tfs.Fs
open Clients.Manager (Listing Row Vars listLoop)

/-- A path that fits in the name of a box. -/
def IsBoxPath (p : CString) : Prop := validPathname (some p) = true ∧ p.length < boxNameSize

instance : DecidablePred IsBoxPath := fun _ => inferInstanceAs (Decidable (_ ∧ _))

/-- The boxes of a broker: those with a file, of which some have a slot. -/
abbrev BoxCatalogue (maxSessions : Nat) :=
  Catalogue CString IsBoxPath (limits tfsDefaultParams).files maxSessions

/-- The answer to the manager with the given pipe. -/
def outcomeAnswer (pipe : PipePath) : Catalogue.Outcome → Answer
  | .present => ⟨-1, [⟨pipe.name, opCodeBoxCreateR, -1, "create_box: Box already exist"⟩]⟩
  | .invalid => ⟨-1, [⟨pipe.name, opCodeBoxCreateR, -1, "create_box: Failed create file"⟩]⟩
  | .unlisted => ⟨-1, [⟨pipe.name, opCodeBoxCreateR, -1, "create_box: No space left"⟩]⟩
  | .added => ⟨0, [⟨pipe.name, opCodeBoxCreateR, 0, ""⟩]⟩
  | .absent => ⟨-1, [⟨pipe.name, opCodeBoxRemoveR, -1, "remove_box: Box does not exist"⟩]⟩
  | .removed => ⟨0, [⟨pipe.name, opCodeBoxRemoveR, 0, ""⟩]⟩

namespace BoxRequest

def pipe : BoxRequest → PipePath
  | create pipe _ | remove pipe _ => pipe

def change : BoxRequest → Catalogue.Change CString
  | create _ box => .add box.name
  | remove _ box => .remove box.name

end BoxRequest

/-- The changes that the requests of managers in a run ask for. -/
def changes (as : List BrokerLabel) : List (Catalogue.Change CString) :=
  as.filterMap fun
    | .request req => some req.change
    | _ => none

/-- The listing has exactly the given names, each once and in the strict order of `strcmp`. -/
def Shows (listed : Finset CString) : Listing → Prop
  | .noBoxesFound => listed = ∅
  | .printed rows => listed ≠ ∅ ∧ (∀ p, p ∈ rows.map Row.name ↔ p ∈ listed) ∧
      rows.Pairwise fun a b => a.name.strcmp b.name = .lt

/-- The broker and its file system have the boxes of the catalogue. -/
structure Catalogued {maxSessions : Nat} (srv : Server) (st : FileStore CString)
    (c : BoxCatalogue maxSessions) : Prop where
  slots : srv.maxSessions = maxSessions
  idle : Idle srv.fs st
  files : st.names = c.names.image CString.tail
  names : HoldsOnce CString.empty srv.names maxSessions fun p => p ∈ c.listed
  count : srv.nBoxes = c.listed.card

variable {maxSessions : Nat} {srv srv' : Server} {st st' : FileStore CString}
  {c c' : BoxCatalogue maxSessions} {fs fs₀ : Fs} {p : CString} {box : BoxName} {pipe : PipePath}

namespace Catalogued

/-! ### The files -/

theorem present_iff (h : Catalogued srv st c) (hv : validPathname (some p) = true) :
    Present st p ↔ p ∈ c.names := by
  rw [Present, h.files, Finset.mem_image]
  constructor
  · rintro ⟨_, q, hq, htail⟩
    exact path_eq_of_tail_eq (c.valid_of_mem q hq).1 hv htail ▸ hq
  · exact fun hp => ⟨hv, p, hp, rfl⟩

theorem hasPath_iff (h : Catalogued srv st c) : HasPath srv.fs p ↔ p ∈ c.names := by
  rw [Broker.hasPath_iff h.idle.refines]
  constructor
  · exact fun hp => (h.present_iff hp.1).mp hp
  · exact fun hp => (h.present_iff (c.valid_of_mem p hp).1).mpr hp

theorem card_files (h : Catalogued srv st c) : st.names.card = c.names.card := by
  rw [h.files]
  apply Finset.card_image_of_injOn
  intro q hq q' hq' htail
  exact path_eq_of_tail_eq (c.valid_of_mem q hq).1 (c.valid_of_mem q' hq').1 htail

/-- A file can be created just if the catalogue takes its name. -/
theorem hasRoom_iff (h : Catalogued srv st c) (box : BoxName) :
    (validPathname (some box.name) = true ∧ HasRoom st box.name) ↔
      IsBoxPath box.name ∧ c.names.card < (limits tfsDefaultParams).files := by
  rw [HasRoom, h.card_files, IsBoxPath]
  constructor
  · exact fun ⟨hv, _, hlt⟩ => ⟨⟨hv, box.fits⟩, hlt⟩
  · exact fun ⟨⟨hv, _⟩, hlt⟩ => ⟨hv, length_tail_lt box, hlt⟩

theorem files_create (h : Catalogued srv st c) (p : CString) :
    (st.create p.tail).names = (insert p c.names).image CString.tail := by
  rw [Finset.image_insert, ← h.files]
  rfl

theorem files_remove (h : Catalogued srv st c) (hp : p ∈ c.names) :
    (st.remove p.tail).names = (c.names.erase p).image CString.tail := by
  have hvalid := fun q hq => (c.valid_of_mem q hq).1
  show st.names.erase p.tail = _
  rw [h.files]
  ext n
  simp only [Finset.mem_erase, Finset.mem_image]
  constructor
  · rintro ⟨hne, q, hq, rfl⟩
    exact ⟨q, ⟨fun heq => hne (heq ▸ rfl), hq⟩, rfl⟩
  · rintro ⟨q, ⟨hne, hq⟩, rfl⟩
    exact ⟨fun htail => hne (path_eq_of_tail_eq (hvalid q hq) (hvalid p hp) htail), q, hq, rfl⟩

/-! ### The slots -/

theorem card_usedSlots (h : Catalogued srv st c) : srv.usedSlots.card = c.listed.card := by
  rw [Server.usedSlots, h.slots]
  exact h.names.card_indices

theorem count_eq_iff (h : Catalogued srv st c) :
    srv.nBoxes = srv.maxSessions ↔ ¬ c.listed.card < maxSessions := by
  have hle := c.card_listed
  rw [h.count, h.slots]
  omega

theorem findBox_of_listed (h : Catalogued srv st c) (hp : p ∈ c.listed) :
    ∃ i < maxSessions, srv.findBox p = some i ∧ srv.names i = p := by
  obtain ⟨_, j, hj, hname⟩ := (h.names.mem_iff p).mpr hp
  cases hf : srv.findBox p with
  | none => exact absurd hname (Server.findBox_eq_none hf j (h.slots ▸ hj))
  | some i =>
    obtain ⟨hi, hname⟩ := Server.findBox_eq_some hf
    exact ⟨i, h.slots ▸ hi, rfl, hname⟩

theorem findBox_of_unlisted (h : Catalogued srv st c) (hne : p ≠ .empty) (hp : p ∉ c.listed) :
    srv.findBox p = none := by
  cases hf : srv.findBox p with
  | none => rfl
  | some i =>
    obtain ⟨hi, hname⟩ := Server.findBox_eq_some hf
    exact absurd ((h.names.mem_iff p).mp ⟨hne, i, h.slots ▸ hi, hname⟩) hp

/-- With fewer names than slots there is a free one. -/
theorem exists_free (h : Catalogued srv st c) (hslot : c.listed.card < maxSessions) :
    ∃ i < maxSessions, srv.findBox .empty = some i ∧ srv.names i = .empty := by
  cases hf : srv.findBox .empty with
  | some i =>
    obtain ⟨hi, hname⟩ := Server.findBox_eq_some hf
    exact ⟨i, h.slots ▸ hi, rfl, hname⟩
  | none =>
    have hall := card_indices_of_forall (p := fun i => decide ((srv.boxes i).name ≠ .empty))
      fun i hi => decide_eq_true (Server.findBox_eq_none hf i hi)
    have hcard : srv.usedSlots.card = srv.maxSessions := hall
    rw [h.card_usedSlots, h.slots] at hcard
    omega

theorem takeSlot (h : Catalogued srv st c) (hv : validPathname (some p) = true) (hno : p ∉ c.names)
    (hslot : c.listed.card < maxSessions) (hidle : Idle fs (st.create p.tail))
    (hnames : c'.names = insert p c.names) (hlisted : c'.listed = insert p c.listed) :
    Catalogued ((srv.setFs fs).takeSlot p) (st.create p.tail) c' := by
  obtain ⟨i, hi, hf, hempty⟩ := h.exists_free hslot
  have hout : p ∉ c.listed := fun hp => hno (c.listed_subset hp)
  have hfind : (srv.setFs fs).findBox .empty = some i := hf
  simp only [Server.takeSlot, hfind]
  refine ⟨h.slots, hidle, ?_, ?_, ?_⟩
  · rw [hnames]
    exact h.files_create p
  · have hupdate := h.names.update hi (ne_empty_of_valid hv) hout hempty
    rw [← names_setBox] at hupdate
    refine hupdate.congr fun q => ?_
    rw [hlisted, Finset.mem_insert]
  · rw [hlisted, Finset.card_insert_of_notMem hout]
    exact congrArg (· + 1) h.count

/-- The file is created without a slot. -/
theorem setFs (h : Catalogued srv st c) (hidle : Idle fs st')
    (hfiles : st'.names = c'.names.image CString.tail) (hlisted : c'.listed = c.listed) :
    Catalogued (srv.setFs fs) st' c' := by
  refine ⟨h.slots, hidle, hfiles, ?_, ?_⟩
  · rw [hlisted]
    exact h.names
  · rw [hlisted]
    exact h.count

theorem freeSlot (h : Catalogued srv st c) (hp : p ∈ c.names) (hidle : Idle fs (st.remove p.tail))
    (hnames : c'.names = c.names.erase p) (hlisted : c'.listed = c.listed.erase p) :
    Catalogued ((srv.setFs fs).freeSlot p) (st.remove p.tail) c' := by
  have hne := ne_empty_of_valid (c.valid_of_mem p hp).1
  have hfiles : (st.remove p.tail).names = c'.names.image CString.tail := by
    rw [hnames]
    exact h.files_remove hp
  by_cases hlist : p ∈ c.listed
  · obtain ⟨i, hi, hf, hname⟩ := h.findBox_of_listed hlist
    have hfind : (srv.setFs fs).findBox p = some i := hf
    simp only [Server.freeSlot, hfind]
    refine ⟨h.slots, hidle, hfiles, ?_, ?_⟩
    · have hclear := h.names.clear hi (by rwa [hname])
      rw [← names_setBox] at hclear
      refine hclear.congr fun q => ?_
      rw [hlisted, hname, Finset.mem_erase]
    · have hpos := Finset.card_pos.mpr ⟨p, hlist⟩
      have hcount := h.count
      rw [hlisted, Finset.card_erase_of_mem hlist]
      simp only [Server.setFs_nBoxes]
      omega
  · -- the file has no slot
    have hfind : (srv.setFs fs).findBox p = none := h.findBox_of_unlisted hne hlist
    simp only [Server.freeSlot, hfind]
    exact h.setFs hidle hfiles (hlisted.trans (Finset.erase_eq_of_notMem hlist))

/-! ### The steps -/

/-- A request is answered as the catalogue says. -/
theorem handle (h : Catalogued srv st c) (req : BoxRequest) :
    ∃ srv' st', Broker.handle srv req =
        .ok (outcomeAnswer req.pipe (c.change req.change).1, srv') ∧
      Catalogued srv' st' (c.change req.change).2 := by
  cases req with
  | create pipe box =>
    show ∃ srv' st', createBox srv pipe box = .ok (outcomeAnswer pipe (c.add box.name).1, srv') ∧
      Catalogued srv' st' (c.add box.name).2
    by_cases hp : box.name ∈ c.names
    · obtain ⟨fs', heq, hidle, _⟩ := createBox_existing pipe h.idle (h.hasPath_iff.mpr hp)
      rw [Catalogue.add_present hp]
      exact ⟨_, _, heq, h.setFs hidle h.files rfl⟩
    have hpath : ¬ HasPath srv.fs box.name := mt h.hasPath_iff.mp hp
    by_cases hroom : IsBoxPath box.name ∧ c.names.card < (limits tfsDefaultParams).files
    · obtain ⟨hv, hstore⟩ := (h.hasRoom_iff box).mpr hroom
      by_cases hslot : c.listed.card < maxSessions
      · obtain ⟨hout, hnames, hlisted⟩ := Catalogue.add_added hp hroom hslot
        obtain ⟨fs', heq, hidle⟩ := createBox_created pipe h.idle hpath hv hstore
          fun heq => h.count_eq_iff.mp heq hslot
        rw [hout]
        exact ⟨_, _, heq, h.takeSlot hv hp hslot hidle hnames hlisted⟩
      · obtain ⟨hout, hnames, hlisted⟩ := Catalogue.add_unlisted hp hroom hslot
        obtain ⟨fs', heq, hidle⟩ :=
          createBox_noSpace pipe h.idle hpath hv hstore (h.count_eq_iff.mpr hslot)
        rw [hout]
        exact ⟨_, _, heq, h.setFs hidle (hnames ▸ h.files_create box.name) hlisted⟩
    · obtain ⟨fs', heq, hidle, _⟩ :=
        createBox_fails pipe h.idle hpath (mt (h.hasRoom_iff box).mp hroom)
      rw [Catalogue.add_invalid hp hroom]
      exact ⟨_, _, heq, h.setFs hidle h.files rfl⟩
  | remove pipe box =>
    show ∃ srv' st', removeBox srv pipe box =
        .ok (outcomeAnswer pipe (c.remove box.name).1, srv') ∧
      Catalogued srv' st' (c.remove box.name).2
    by_cases hp : box.name ∈ c.names
    · obtain ⟨hout, hnames, hlisted⟩ := Catalogue.remove_removed hp
      obtain ⟨fs', heq, hidle⟩ := removeBox_removed pipe h.idle (h.hasPath_iff.mpr hp)
      rw [hout]
      exact ⟨_, _, heq, h.freeSlot hp hidle hnames hlisted⟩
    · obtain ⟨fs', heq, hidle, _⟩ := removeBox_absent pipe h.idle (mt h.hasPath_iff.mp hp)
      rw [Catalogue.remove_absent hp]
      exact ⟨_, _, heq, h.setFs hidle h.files rfl⟩

/-- What keeps the names, their number and the files is not seen by managers. -/
theorem keep (h : Catalogued srv st c) (hnames : srv'.names = srv.names)
    (hmax : srv'.maxSessions = srv.maxSessions) (hcount : srv'.nBoxes = srv.nBoxes)
    (hidle : Idle srv'.fs st') (hfiles : st'.names = st.names) : Catalogued srv' st' c :=
  ⟨hmax.trans h.slots, hidle, hfiles.trans h.files, hnames ▸ h.names, hcount.trans h.count⟩

/-- A step of one worker. -/
theorem update {s : BrokerState} {new : Option Session} {t : Nat} (h : Catalogued s.server st c)
    (hnames : srv.names = s.server.names) (hmax : srv.maxSessions = s.server.maxSessions)
    (hcount : srv.nBoxes = s.server.nBoxes) (hidle : Idle srv.fs st')
    (hfiles : st'.names = st.names) : Catalogued ((s.setServer srv).setWorker t new).server st' c :=
  h.keep hnames hmax hcount hidle hfiles

theorem iterates {s s' : BrokerState} {l : BrokerLabel} (h : Catalogued s.server st c)
    (hi : BrokerState.Iterates s st l s') : ∃ st', Catalogued s'.server st' c := by
  cases hi with
  | refused role t box fs hidle => exact ⟨st, h.keep rfl rfl rfl hidle rfl⟩
  | starts role t i box fs _ _ _ _ hidle =>
    exact ⟨st, h.update (names_modifyBox _ name_bump) rfl rfl hidle rfl⟩
  | writes t text ses fs _ _ hidle =>
    exact ⟨_, h.update (names_modifyBox _ rfl) rfl rfl hidle rfl⟩
  | fails t text ses fs _ _ _ hidle => exact ⟨st, h.update rfl rfl rfl hidle rfl⟩
  | scans t stale ses bytesProcessed fs _ hidle => exact ⟨st, h.update rfl rfl rfl hidle rfl⟩
  | ends l t ses fs _ hidle =>
    exact ⟨st, h.update (names_modifyBox _ name_bump) rfl rfl hidle rfl⟩

theorem step {s s' : BrokerState} {a : BrokerLabel} (h : Catalogued s.server st c)
    (hs : s.step a = some s') : ∃ st', Catalogued s'.server st' (c.after (changes [a])) := by
  cases a with
  | request req =>
    obtain ⟨srv', st', heq, h'⟩ := h.handle req
    simp only [BrokerState.step, heq, Option.some.injEq] at hs
    subst hs
    exact ⟨st', h'⟩
  | _ => exact h.iterates (BrokerState.iterates_of_step h.idle (by simp) hs)

/-! ### The listing -/

theorem listing (h : Catalogued srv st c) (stale : Nat → Memory) (frames : Nat → Vars)
    (boxes : Nat → Row) :
    ∃ out, listLoop frames 0 (.initial boxes) (srv.sent stale) = .ok out ∧ Shows c.listed out := by
  have hcount : srv.nBoxes = srv.usedSlots.card := by
    rw [h.count, h.card_usedSlots]
  have hmem : ∀ i < srv.maxSessions, (srv.boxes i).name ≠ .empty →
      (srv.boxes i).name ∈ c.listed :=
    fun i hi hne => (h.names.mem_iff _).mp ⟨hne, i, h.slots ▸ hi, rfl⟩
  have hfits : ∀ i < srv.maxSessions, (srv.boxes i).name.length < boxNameSize := by
    intro i hi
    by_cases hempty : (srv.boxes i).name = .empty
    · rw [hempty]
      decide
    · exact (c.valid_of_mem _ (c.listed_subset (hmem i hi hempty))).2
  have hdistinct : ∀ i < srv.maxSessions, ∀ j < srv.maxSessions, (srv.boxes i).name ≠ .empty →
      (srv.boxes i).name = (srv.boxes j).name → i = j := by
    rw [h.slots]
    exact h.names.unique
  obtain ⟨out, hloop, _, hnone, hprinted⟩ :=
    listing_of_counted srv stale frames boxes hcount hdistinct hfits
  have hslots : (∀ i < srv.maxSessions, (srv.boxes i).name = .empty) ↔ c.listed = ∅ := by
    rw [Finset.eq_empty_iff_forall_notMem]
    constructor
    · intro hall p hp
      obtain ⟨hne, i, hi, hname⟩ := (h.names.mem_iff p).mpr hp
      exact hne (hname.symm.trans (hall i (h.slots.symm ▸ hi)))
    · intro hempty i hi
      by_contra hne
      exact hempty _ (hmem i hi hne)
  refine ⟨out, hloop, ?_⟩
  cases out with
  | noBoxesFound => exact hslots.mp (hnone.mp rfl)
  | printed rows =>
    obtain ⟨hperm, hsorted⟩ := hprinted rows rfl
    refine ⟨fun hempty => ?_, fun p => ?_, hsorted⟩
    · cases hnone.mpr (hslots.mpr hempty)
    · have hnames := (hperm.map Row.name).mem_iff (a := p)
      rw [List.map_map] at hnames
      rw [hnames, List.mem_map]
      constructor
      · rintro ⟨i, hi, rfl⟩
        obtain ⟨hlt, hne⟩ := Server.mem_named.mp hi
        exact hmem i hlt hne
      · intro hp
        obtain ⟨hne, i, hi, rfl⟩ := (h.names.mem_iff p).mpr hp
        exact ⟨i, Server.mem_named.mpr ⟨h.slots.symm ▸ hi, hne⟩, rfl⟩

end Catalogued

/-! ### Runs -/

variable {s s₁ : BrokerState} {as bs : List BrokerLabel} {malloc : Malloc} {srv₁ : Server}

/-- The catalogue behind a run. -/
def catalogue (maxSessions : Nat) (as : List BrokerLabel) : BoxCatalogue maxSessions :=
  Catalogue.empty.after (changes as)

theorem changes_cons (a : BrokerLabel) (as : List BrokerLabel) :
    changes (a :: as) = changes [a] ++ changes as := by
  rw [changes, ← List.singleton_append, List.filterMap_append]
  rfl

theorem Catalogued.run (h : Catalogued s₁.server st c)
    (hrun : runLabels BrokerState.step s₁ as = some s) :
    ∃ st', Catalogued s.server st' (c.after (changes as)) := by
  induction as generalizing s₁ st c with
  | nil =>
    cases hrun
    exact ⟨st, h⟩
  | cons a as ih =>
    obtain ⟨s₂, hs, hrest⟩ := Option.bind_eq_some_iff.mp hrun
    obtain ⟨st₂, h₂⟩ := h.step hs
    rw [changes_cons, Catalogue.after_append]
    exact ih h₂ hrest

theorem catalogued_initial (hinit : initServer fs₀ malloc maxSessions = .ok (0, srv)) :
    Catalogued srv FileStore.empty (Catalogue.empty : BoxCatalogue maxSessions) := by
  obtain ⟨hidle, hcount, hmax, _⟩ := initServer_ok hinit
  refine ⟨hmax, hidle, rfl, ?_, hcount⟩
  rw [← hmax]
  refine (synced_of_initServer hinit).names.congr fun p => ?_
  exact iff_of_false not_present_empty (Finset.notMem_empty p)

/-- **Managers are answered from a catalogue**: behind every run of managers, publishers and
subscribers, each request is answered, and a listing shows, what the catalogue of the requests of
the run says. -/
theorem answered_of_runLabels (hinit : initServer fs₀ malloc maxSessions = .ok (0, srv))
    (hrun : runLabels BrokerState.step (.initial srv) as = some s) :
    (∀ req, ∃ srv', handle s.server req =
      .ok (outcomeAnswer req.pipe ((catalogue maxSessions as).change req.change).1, srv')) ∧
    ∀ stale frames boxes, ∃ out,
      listLoop frames 0 (.initial boxes) (s.server.sent stale) = .ok out ∧
        Shows (catalogue maxSessions as).listed out := by
  obtain ⟨st, h⟩ := (catalogued_initial hinit).run hrun
  refine ⟨fun req => ?_, h.listing⟩
  obtain ⟨srv', _, heq, _⟩ := h.handle req
  exact ⟨srv', heq⟩

/-- A box gets a publisher and a message, another box is created, and the first one is removed. -/
def changeBoxes : List BrokerLabel :=
  [.request (.create pipeM boxA), .attach .publisher 0 boxA, .publish 0 Delivery.shortText,
    .request (.create pipeM boxB), .request (.remove pipeM boxA)]

/-- The publisher and the size of the file are left in slot 0, which is free. -/
theorem run_changeBoxes :
    (runLabels BrokerState.step (.initial (startedServer 2)) changeBoxes).map (fun s =>
      ((s.server.boxes 0).name, (s.server.boxes 0).size, (s.server.boxes 1).name,
        (s.workers 0).isSome)) = some (.empty, 2, boxB.name, true) := by
  decide +kernel

theorem changeBoxes_answered :
    ∃ s, runLabels BrokerState.step (.initial (startedServer 2)) changeBoxes = some s ∧
      (s.workers 0).isSome = true ∧
      (∃ srv', createBox s.server pipeM boxB = .ok (outcomeAnswer pipeM .present, srv')) ∧
      (∃ srv', createBox s.server pipeM boxA = .ok (outcomeAnswer pipeM .added, srv')) ∧
      ∀ stale frames boxes, ∃ out,
        listLoop frames 0 (.initial boxes) (s.server.sent stale) = .ok out ∧
          Shows {boxB.name} out := by
  obtain ⟨s, hrun, hval⟩ := Option.map_eq_some_iff.mp run_changeBoxes
  simp only [Prod.mk.injEq] at hval
  obtain ⟨_, _, _, hworker⟩ := hval
  obtain ⟨hanswers, hlisting⟩ := answered_of_runLabels (initServer_started 2) hrun
  have hlisted : (catalogue 2 changeBoxes).listed = {boxB.name} := by decide +kernel
  rw [hlisted] at hlisting
  exact ⟨s, hrun, hworker, hanswers (.create pipeM boxB), hanswers (.create pipeM boxA), hlisting⟩

/-! ### Boxes without a slot -/

theorem unlisted_of_answer {o : Catalogue.Outcome}
    (h : outcomeAnswer pipe o = outcomeAnswer pipe .unlisted) : o = .unlisted := by
  cases o with
  | unlisted => rfl
  | _ => simp [outcomeAnswer] at h

theorem remove_notMem_changes (h : ∀ pipe, .request (.remove pipe box) ∉ bs) :
    .remove box.name ∉ changes bs := by
  intro hmem
  obtain ⟨a, ha, heq⟩ := List.mem_filterMap.mp hmem
  cases a with
  | request req =>
    cases req with
    | create pipe box' => cases heq
    | remove pipe box' =>
      obtain ⟨name, hfits⟩ := box
      cases heq
      exact h pipe ha
  | _ => cases heq

/-- What is said of a box without a slot. -/
structure Orphan (srv : Server) (box : BoxName) : Prop where
  create : ∀ pipe, ∃ srv', createBox srv pipe box = .ok (outcomeAnswer pipe .present, srv')
  register : ∃ srv', registerEntry srv box = .ok (-1, srv')
  listing : ∀ stale frames boxes rows,
    listLoop frames 0 (.initial boxes) (srv.sent stale) = .ok (.printed rows) →
      box.name ∉ rows.map Row.name
  remove : ∀ pipe, ∃ srv', removeBox srv pipe box = .ok (outcomeAnswer pipe .removed, srv') ∧
    ¬ HasPath srv'.fs box.name

theorem Catalogued.orphan (h : Catalogued srv st c) (hunlisted : c.Unlisted box.name) :
    Orphan srv box := by
  obtain ⟨hmem, hlisted⟩ := hunlisted
  have hpath := h.hasPath_iff.mpr hmem
  refine ⟨fun pipe => ?_, ?_, ?_, fun pipe => ?_⟩
  · obtain ⟨fs', heq, _⟩ := createBox_existing pipe h.idle hpath
    exact ⟨_, heq⟩
  · obtain ⟨fs', heq, _⟩ := registerEntry_existing h.idle hpath
    rw [h.findBox_of_unlisted (ne_empty_of_valid hpath.1) hlisted] at heq
    exact ⟨_, heq⟩
  · intro stale frames boxes rows hloop hrow
    obtain ⟨out, hloop', hshows⟩ := h.listing stale frames boxes
    cases hloop.symm.trans hloop'
    exact hlisted ((hshows.2.1 _).mp hrow)
  · obtain ⟨srv', st', heq, hremoved⟩ := h.handle (.remove pipe box)
    obtain ⟨hout, hnames, _⟩ := Catalogue.remove_removed hmem
    have hgone : box.name ∉ (c.remove box.name).2.names := by
      rw [hnames]
      exact Finset.notMem_erase _ _
    refine ⟨srv', ?_, mt hremoved.hasPath_iff.mp hgone⟩
    rw [← hout]
    exact heq

/-- **A box without a slot**: once a box is refused because all slots are taken, then until a
manager removes it, it cannot be created, even if slots get free, no publisher and no subscriber
gets it and no listing has it. It can be removed. -/
theorem orphan_of_runLabels (hinit : initServer fs₀ malloc maxSessions = .ok (0, srv))
    (hrun : runLabels BrokerState.step (.initial srv) as = some s₁)
    (hrefused : createBox s₁.server pipe box = .ok (outcomeAnswer pipe .unlisted, srv₁))
    (hrest : runLabels BrokerState.step (s₁.setBoxes srv₁) bs = some s)
    (hkept : ∀ pipe', .request (.remove pipe' box) ∉ bs) : Orphan s.server box := by
  obtain ⟨st₁, h₁⟩ := (catalogued_initial hinit).run hrun
  -- the refused request is a change of the catalogue
  obtain ⟨srv', st', heq, h'⟩ := h₁.handle (.create pipe box)
  have hanswer := hrefused.symm.trans heq
  simp only [Except.ok.injEq, Prod.mk.injEq] at hanswer
  obtain ⟨hout, rfl⟩ := hanswer
  have hunlisted := (Catalogue.unlisted_of_add (unlisted_of_answer hout.symm)).after
    (remove_notMem_changes hkept)
  have hrefused' : Catalogued (s₁.setBoxes srv₁).server st' _ := h'
  obtain ⟨st, h⟩ := hrefused'.run hrest
  exact h.orphan hunlisted

/-- A broker with one slot has created its first box. -/
theorem createdA : ∃ s, runLabels BrokerState.step (.initial (startedServer 1))
    [.request (.create pipeM boxA)] = some s := by
  obtain ⟨srv, heq, _⟩ := createBox_started (show 1 ≠ 0 by decide)
  exact ⟨_, by simp only [runLabels, BrokerState.step, handle, BrokerState.initial, heq]; rfl⟩

/-- The box that has the only slot is removed, but not the one that was refused. -/
theorem refusedB_orphan : ∃ s₁ srv₁ s, runLabels BrokerState.step (.initial (startedServer 1))
    [.request (.create pipeM boxA)] = some s₁ ∧
      createBox s₁.server pipeM boxB = .ok (outcomeAnswer pipeM .unlisted, srv₁) ∧
      runLabels BrokerState.step (s₁.setBoxes srv₁) [.request (.remove pipeM boxA)] = some s ∧
      Orphan s.server boxB := by
  obtain ⟨s₁, hrun⟩ := createdA
  obtain ⟨_, h₁⟩ := (catalogued_initial (initServer_started 1)).run hrun
  obtain ⟨srv₁, _, hrefused, h'⟩ := h₁.handle (.create pipeM boxB)
  obtain ⟨srv, _, hremoved, _⟩ := h'.handle (.remove pipeM boxA)
  have hrest : runLabels BrokerState.step (s₁.setBoxes srv₁) [.request (.remove pipeM boxA)] =
      some ((s₁.setBoxes srv₁).setBoxes srv) := by
    have hserver : (s₁.setBoxes srv₁).server = srv₁ := rfl
    simp only [runLabels, BrokerState.step, hserver, hremoved]
    rfl
  refine ⟨s₁, srv₁, _, hrun, hrefused, hrest, ?_⟩
  apply orphan_of_runLabels (initServer_started 1) hrun hrefused hrest
  intro pipe hmem
  cases List.mem_singleton.mp hmem

end MessageBroker.Broker
