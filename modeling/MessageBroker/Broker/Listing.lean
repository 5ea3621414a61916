import MessageBroker.Broker.Boxes
import MessageBroker.Clients.Listing

/-!
# Listing boxes

`list_boxes` sends one record for each named slot, in the order of the slots, and
flags the one that brings its count to `n_boxes`. When the manager gets the bytes of
all records before the end of the file, it prints the row of each named slot once.
-/

namespace MessageBroker.Broker

open Bytes Table Clients.Manager

/-- The bytes of the array that holds a name; what stands behind the terminator is `stale`. -/
def nameArray (name : CString) (stale : Memory) : List UInt8 :=
  load (store stale 0 (name.bytes ++ [0])) 0 boxNameSize

/-- The successive writes of `send_box_manager`; a box comes with what its name array held. -/
def sendBoxManager (last : UInt8) (box : Option (Box × Memory)) : List (List UInt8) :=
  let bar := ['|'.toUInt8]
  let header := [opCodeBoxListR, '|'.toUInt8, last, '|'.toUInt8]
  match box with
  | none =>
    let aux := toLE 8 0
    [header, List.replicate boxNameSize 0, bar, aux, bar, aux, bar, aux]
  | some (box, stale) =>
    [header, nameArray box.name stale, bar, toLE 8 box.size.toNat, bar,
      toLE 8 box.nPublishers.toNat, bar, toLE 8 box.nSubscribers.toNat]

/-- The arguments of a call of `send_box_manager`. -/
structure Record where
  last : UInt8
  box : Option (Box × Memory)

def Record.writes (r : Record) : List (List UInt8) := sendBoxManager r.last r.box

def Record.bytes (r : Record) : List UInt8 := r.writes.flatten

/-- The loop of `list_boxes` over `slots` slots from slot `i` on. -/
def sendSlots (srv : Server) (stale : Nat → Memory) : Nat → Nat → Int → List Record
  | 0, _, _ => []
  | slots + 1, i, count =>
    if (srv.boxes i).name ≠ .empty then
      let count := count + 1
      if count = srv.nBoxes then [⟨'1'.toUInt8, some (srv.boxes i, stale i)⟩]
      else ⟨'0'.toUInt8, some (srv.boxes i, stale i)⟩ :: sendSlots srv stale slots (i + 1) count
    else sendSlots srv stale slots (i + 1) count

/-- The calls of `send_box_manager` in `list_boxes`. -/
def listBoxes (srv : Server) (stale : Nat → Memory) : List Record :=
  (if srv.nBoxes = 0 then [⟨'1'.toUInt8, none⟩] else []) ++ sendSlots srv stale srv.maxSessions 0 0

/-- The slots with a name among `slots` slots from slot `i` on. -/
def Server.namedFrom (srv : Server) (slots i : Nat) : List Nat :=
  (List.range' i slots).filter fun i => (srv.boxes i).name ≠ .empty

/-- The slots with a name, in their order. -/
def Server.named (srv : Server) : List Nat := srv.namedFrom srv.maxSessions 0

def Box.row (box : Box) : Row := ⟨box.name, box.size, box.nPublishers, box.nSubscribers⟩

variable {srv : Server} {stale : Nat → Memory} {frames : Nat → Vars} {turn : Nat} {s : State}
  {rows : List Row}

/-! ### What is sent -/

theorem Server.namedFrom_succ (srv : Server) (slots i : Nat) :
    srv.namedFrom (slots + 1) i =
      if (srv.boxes i).name ≠ .empty then i :: srv.namedFrom slots (i + 1)
      else srv.namedFrom slots (i + 1) := by
  rw [Server.namedFrom, List.range'_succ, List.filter_cons]
  simp only [decide_eq_true_eq, Server.namedFrom]

/-- With a count that reaches `n_boxes` at the last named slot, all of them are sent, and the
last one alone is flagged. -/
theorem sendSlots_spec (stale : Nat → Memory) (slots i : Nat) (count : Int)
    (h : srv.nBoxes = count + (srv.namedFrom slots i).length) :
    (sendSlots srv stale slots i count).map Record.box =
        (srv.namedFrom slots i).map (fun i => some (srv.boxes i, stale i)) ∧
      ∀ k r, (sendSlots srv stale slots i count)[k]? = some r →
        (r.last = '1'.toUInt8 ↔ k + 1 = (srv.namedFrom slots i).length) := by
  induction slots generalizing i count with
  | zero => exact ⟨rfl, nofun⟩
  | succ slots ih =>
    rw [Server.namedFrom_succ] at h ⊢
    rw [sendSlots]
    by_cases hname : (srv.boxes i).name ≠ .empty
    · simp only [if_pos hname, List.length_cons] at h ⊢
      by_cases hlast : count + 1 = srv.nBoxes
      · -- the count leaves no name for the slots behind this one
        have hnone : srv.namedFrom slots (i + 1) = [] := by
          apply List.eq_nil_of_length_eq_zero
          omega
        rw [if_pos hlast, hnone]
        refine ⟨rfl, fun k r hr => ?_⟩
        cases k with
        | zero =>
          cases hr
          exact ⟨fun _ => rfl, fun _ => rfl⟩
        | succ k => cases hr
      · rw [if_neg hlast]
        obtain ⟨hboxes, hflags⟩ := ih (i + 1) (count + 1) (by push_cast at h; omega)
        refine ⟨congrArg _ hboxes, fun k r hr => ?_⟩
        cases k with
        | zero =>
          cases hr
          have hflag : '0'.toUInt8 ≠ '1'.toUInt8 := by decide
          refine ⟨fun hc => absurd hc hflag, fun hk => absurd ?_ hlast⟩
          push_cast at h
          omega
        | succ k =>
          rw [hflags k r hr]
          omega
    · simp only [if_neg hname] at h ⊢
      exact ih (i + 1) count h

/-! ### What is decoded -/

theorem ofBuffer_nameArray {name : CString} (h : name.length < boxNameSize) (stale : Memory) :
    CString.ofBuffer (nameArray name stale) = name := by
  have hle : (name.bytes ++ [0]).length ≤ boxNameSize := by
    rw [List.length_append]
    exact h
  obtain ⟨k, hk⟩ := Nat.exists_eq_add_of_le hle
  rw [nameArray, hk, load_add, load_store_self, List.append_assoc]
  exact CString.ofBuffer_append_zero name _

theorem number_toLE (n : UInt64) : UInt64.ofNat (ofLE (toLE 8 n.toNat)) = n := by
  have hlt : n.toNat < 256 ^ 8 := n.toNat_lt
  rw [ofLE_toLE, Nat.mod_eq_of_lt hlt, UInt64.ofNat_toNat]

/-- The name array of a record. -/
def Record.nameBytes (r : Record) : List UInt8 :=
  match r.box with
  | none => List.replicate boxNameSize 0
  | some (box, stale) => nameArray box.name stale

/-- The row of a record; all fields are `0` when there is no box. -/
def Record.row (r : Record) : Row :=
  match r.box with
  | none => ⟨.empty, 0, 0, 0⟩
  | some (box, _) => box.row

/-- What the eleven reads return for a record. -/
def Record.chunks (r : Record) : List (List UInt8) :=
  let bar := ['|'.toUInt8]
  [[opCodeBoxListR], bar, [r.last], bar, r.nameBytes, bar, toLE 8 r.row.size.toNat, bar,
    toLE 8 r.row.nPublishers.toNat, bar, toLE 8 r.row.nSubscribers.toNat]

theorem Record.length_nameBytes (r : Record) : r.nameBytes.length = boxNameSize := by
  obtain ⟨last, _ | ⟨box, stale⟩⟩ := r
  · exact List.length_replicate
  · exact length_load _ _ _

theorem Record.ofBuffer_nameBytes {r : Record} (h : r.row.name.length < boxNameSize) :
    CString.ofBuffer r.nameBytes = r.row.name := by
  obtain ⟨last, _ | ⟨box, stale⟩⟩ := r
  · rfl
  · exact ofBuffer_nameArray h stale

theorem Record.flatten_chunks (r : Record) : r.chunks.flatten = r.bytes := by
  obtain ⟨last, _ | ⟨box, stale⟩⟩ := r
  · rfl
  · rfl

theorem Record.map_length_chunks (r : Record) : r.chunks.map List.length = recordReads := by
  simp only [Record.chunks, List.map_cons, List.map_nil, r.length_nameBytes, length_toLE]
  rfl

/-- The manager reads a record back. -/
theorem readVars_record {r : Record} (h : r.row.name.length < boxNameSize) (v₀ : Vars)
    (rest : List UInt8) :
    ∃ v, readVars recordReads 0 v₀ 0 (r.bytes ++ rest) = (v, 8, rest) ∧ v.last = r.last ∧
      v.row = r.row := by
  have hread := readVars_chunks r.chunks 0 v₀ 0 rest
  rw [r.flatten_chunks, r.map_length_chunks] at hread
  -- every variable holds what its read has returned
  have hvar : ∀ {i : Nat} (hi : i < r.chunks.length),
      v₀.fill 0 r.chunks i = store (v₀ i) 0 r.chunks[i] := by
    intro i hi
    simpa only [Nat.zero_add] using v₀.fill_apply 0 r.chunks hi
  have hnumber : ∀ {i : Nat} {n : UInt64} (hi : i < r.chunks.length),
      r.chunks[i] = toLE 8 n.toNat → (v₀.fill 0 r.chunks).number i = n := by
    intro i n hi hn
    have hload := load_store_self (v₀ i) 0 (toLE 8 n.toNat)
    rw [length_toLE] at hload
    rw [Vars.number, hvar hi, hn, hload, number_toLE]
  have hname : (v₀.fill 0 r.chunks).name = r.row.name := by
    have hload := load_store_self (v₀ 4) 0 r.nameBytes
    rw [r.length_nameBytes] at hload
    rw [Vars.name, hvar (show 4 < 11 by decide), ← Record.ofBuffer_nameBytes h]
    exact congrArg _ hload
  refine ⟨_, hread, ?_, ?_⟩
  · rw [Vars.last, hvar (show 2 < 11 by decide)]
    rfl
  · rw [Vars.row, hname, hnumber (show 6 < 11 by decide) rfl,
      hnumber (show 8 < 11 by decide) rfl,
      hnumber (show 10 < 11 by decide) rfl]

/-! ### The loop of the manager -/

/-- The record of a box adds its row. -/
theorem listLoop_record (frames : Nat → Vars) (turn : Nat) {r : Record} (hs : s.Holds rows)
    (hne : r.row.name ≠ .empty) (h : r.row.name.length < boxNameSize) (rest : List UInt8) :
    ∃ s', listLoop frames turn s (r.bytes ++ rest) = listLoop frames (turn + 1) s' rest ∧
      s'.Holds (rows ++ [r.row]) := by
  obtain ⟨v, hread, _, hrow⟩ := readVars_record h (frames turn) rest
  have hfirst : v 4 0 ≠ 0 := by
    intro hzero
    have hempty := v.name_eq_empty.mpr hzero
    exact hne ((congrArg Row.name hrow).symm.trans hempty)
  obtain ⟨s', hturn, hs'⟩ := hs.endRecord (show 0 < 8 by decide) hfirst
  rw [hrow] at hs'
  refine ⟨s', ?_, hs'⟩
  rw [listLoop_turn hread, hturn]

theorem listLoop_records (frames : Nat → Vars) (turn : Nat) (rs : List Record) (hs : s.Holds rows)
    (h : ∀ r ∈ rs, r.row.name ≠ .empty ∧ r.row.name.length < boxNameSize) :
    ∃ s' : State, listLoop frames turn s (rs.flatMap Record.bytes) = .ok (.printed s'.print) ∧
      s'.Holds (rows ++ rs.map Record.row) := by
  induction rs generalizing s turn rows with
  | nil =>
    refine ⟨s, listLoop_nil, ?_⟩
    rwa [List.map_nil, List.append_nil]
  | cons r rs ih =>
    obtain ⟨hne, hlt⟩ := h r List.mem_cons_self
    obtain ⟨s₁, hturn, hs₁⟩ := listLoop_record frames turn hs hne hlt (rs.flatMap Record.bytes)
    obtain ⟨s', hloop, hs'⟩ := ih (turn + 1) hs₁ fun r hr => h r (List.mem_cons_of_mem _ hr)
    refine ⟨s', ?_, ?_⟩
    · rw [List.flatMap_cons, hturn, hloop]
    · rwa [List.map_cons, ← List.singleton_append, ← List.append_assoc]

/-- The record without a box, when it is the last one, ends the listing. -/
theorem listLoop_none (rest : List UInt8) :
    listLoop frames turn s (Record.bytes ⟨'1'.toUInt8, none⟩ ++ rest) = .ok .noBoxesFound := by
  obtain ⟨v, hread, hlast, hrow⟩ :=
    @readVars_record ⟨'1'.toUInt8, none⟩ (by decide) (frames turn) rest
  have hfirst : v 4 0 = 0 := v.name_eq_empty.mp (congrArg Row.name hrow)
  rw [listLoop_turn hread, State.endRecord, if_pos (by decide), if_pos ⟨hlast, hfirst⟩]

/-! ### Whole listings -/

theorem Server.mem_named {i : Nat} :
    i ∈ srv.named ↔ i < srv.maxSessions ∧ (srv.boxes i).name ≠ .empty := by
  simp [Server.named, Server.namedFrom]

theorem Server.nodup_named (srv : Server) : srv.named.Nodup := (List.nodup_range' 1).filter _

theorem Server.length_named (srv : Server) : srv.named.length = srv.usedSlots.card := by
  rw [← List.toFinset_card_of_nodup srv.nodup_named]
  congr 1
  ext i
  simp [Server.mem_named, Server.usedSlots, mem_indices]

/-- The bytes that `list_boxes` writes to the pipe of the manager. -/
def Server.sent (srv : Server) (stale : Nat → Memory) : List UInt8 :=
  (listBoxes srv stale).flatMap Record.bytes

/-- The records of a table with a named slot. -/
theorem listBoxes_spec (stale : Nat → Memory) (hcount : srv.nBoxes = srv.usedSlots.card)
    (hne : srv.named ≠ []) :
    (listBoxes srv stale).map Record.box = srv.named.map (fun i => some (srv.boxes i, stale i)) ∧
      ∀ k r, (listBoxes srv stale)[k]? = some r →
        (r.last = '1'.toUInt8 ↔ k + 1 = srv.named.length) := by
  have hlen : srv.nBoxes = 0 + srv.named.length := by
    rw [hcount, srv.length_named, zero_add]
  have hpos : srv.nBoxes ≠ 0 := by
    have := List.length_pos_of_ne_nil hne
    omega
  rw [listBoxes, if_neg hpos, List.nil_append]
  exact sendSlots_spec stale srv.maxSessions 0 0 hlen

/-- The record of a table without a named slot. -/
theorem listBoxes_none (stale : Nat → Memory) (hcount : srv.nBoxes = srv.usedSlots.card)
    (hnone : srv.named = []) : listBoxes srv stale = [⟨'1'.toUInt8, none⟩] := by
  have hzero : srv.nBoxes = 0 := by
    rw [hcount, ← srv.length_named, hnone]
    rfl
  have hlen : srv.nBoxes = 0 + srv.named.length := by
    rw [hcount, srv.length_named, zero_add]
  have hslots := (sendSlots_spec stale srv.maxSessions 0 0 hlen).1
  have hnil : srv.namedFrom srv.maxSessions 0 = [] := hnone
  rw [hnil, List.map_nil, List.map_eq_nil_iff] at hslots
  rw [listBoxes, if_pos hzero, hslots]
  rfl

/-- Let `n_boxes` be the number of the named slots of a table, and their names distinct and of at
most 31 bytes. When the manager reads what `list_boxes` sends, no row is written outside `boxes`,
the last record alone is flagged, and the manager prints the row of every named slot once, in the
strict order of the names, or that there are no boxes, if no slot is named. -/
theorem listing_of_counted (srv : Server) (stale : Nat → Memory) (frames : Nat → Vars)
    (boxes : Nat → Row) (hcount : srv.nBoxes = srv.usedSlots.card)
    (hdistinct : ∀ i < srv.maxSessions, ∀ j < srv.maxSessions, (srv.boxes i).name ≠ .empty →
      (srv.boxes i).name = (srv.boxes j).name → i = j)
    (hfits : ∀ i < srv.maxSessions, (srv.boxes i).name.length < boxNameSize) :
    ∃ out, listLoop frames 0 (.initial boxes) (srv.sent stale) = .ok out ∧
      (∀ k r, (listBoxes srv stale)[k]? = some r →
        (r.last = '1'.toUInt8 ↔ k + 1 = (listBoxes srv stale).length)) ∧
      (out = .noBoxesFound ↔ ∀ i < srv.maxSessions, (srv.boxes i).name = .empty) ∧
      ∀ printed, out = .printed printed →
        printed.Perm (srv.named.map fun i => (srv.boxes i).row) ∧
        printed.Pairwise fun a b => a.name.strcmp b.name = .lt := by
  by_cases hnone : srv.named = []
  · have hempty : ∀ i < srv.maxSessions, (srv.boxes i).name = .empty := by
      intro i hi
      by_contra hne
      exact List.ne_nil_of_mem (Server.mem_named.mpr ⟨hi, hne⟩) hnone
    -- the broker sends one record without a name
    have hrecords := listBoxes_none stale hcount hnone
    refine ⟨.noBoxesFound, ?_, ?_, ⟨fun _ => hempty, fun _ => rfl⟩, nofun⟩
    · rw [Server.sent, hrecords, List.flatMap_cons]
      exact listLoop_none _
    · intro k r hr
      rw [hrecords] at hr ⊢
      cases k with
      | zero =>
        cases hr
        exact ⟨fun _ => rfl, fun _ => rfl⟩
      | succ k => cases hr
  · obtain ⟨hboxes, hflags⟩ := listBoxes_spec stale hcount hnone
    have hlen : (listBoxes srv stale).length = srv.named.length := by
      simpa only [List.length_map] using congrArg List.length hboxes
    have hrows : (listBoxes srv stale).map Record.row =
        srv.named.map fun i => (srv.boxes i).row := by
      have hmap := congrArg (List.map fun box => Record.row ⟨0, box⟩) hboxes
      rwa [List.map_map, List.map_map] at hmap
    -- every record has a name that fits its field, so the manager reads it back
    have hrow : ∀ r ∈ listBoxes srv stale,
        r.row.name ≠ .empty ∧ r.row.name.length < boxNameSize := by
      intro r hr
      obtain ⟨i, hi, heq⟩ := List.mem_map.mp (hrows ▸ List.mem_map_of_mem hr)
      obtain ⟨hlt, hne⟩ := Server.mem_named.mp hi
      rw [← heq]
      exact ⟨hne, hfits i hlt⟩
    obtain ⟨s, hloop, hs⟩ :=
      listLoop_records frames 0 (listBoxes srv stale) (State.holds_initial boxes) hrow
    rw [List.nil_append, hrows] at hs
    refine ⟨.printed s.print, hloop, ?_, ⟨nofun, fun hempty => ?_⟩, ?_⟩
    · intro k r hr
      rw [hlen, hflags k r hr]
    · obtain ⟨i, hi⟩ := List.exists_mem_of_ne_nil _ hnone
      obtain ⟨hlt, hne⟩ := Server.mem_named.mp hi
      exact absurd (hempty i hlt) hne
    · rintro _ ⟨⟩
      refine ⟨hs.print_perm, hs.print_sorted ?_⟩
      rw [List.map_map]
      apply srv.nodup_named.map_on
      intro i hi j hj heq
      obtain ⟨hlt, hne⟩ := Server.mem_named.mp hi
      exact hdistinct i hlt j (Server.mem_named.mp hj).1 hne heq

/-! ### A table with holes -/

/-- Two boxes in four slots, the later name first. -/
def holedServer : Server :=
  { maxSessions := 4
    nBoxes := 2
    boxes := fun i => ⟨if i = 1 then boxB.name else if i = 3 then boxA.name else .empty, 0, 0, 0⟩
    fs := defaultFs }

theorem holedServer_listing :
    ∃ out, listLoop (fun _ _ _ => 255) 0 (.initial fun _ => ⟨.empty, 0, 0, 0⟩)
        (holedServer.sent fun _ _ => 255) = .ok out ∧
      (∀ k r, (listBoxes holedServer fun _ _ => 255)[k]? = some r →
        (r.last = '1'.toUInt8 ↔ k + 1 = (listBoxes holedServer fun _ _ => 255).length)) ∧
      (out = .noBoxesFound ↔ ∀ i < 4, (holedServer.boxes i).name = .empty) ∧
      ∀ printed, out = .printed printed →
        printed.Perm [⟨boxB.name, 0, 0, 0⟩, ⟨boxA.name, 0, 0, 0⟩] ∧
        printed.Pairwise fun a b => a.name.strcmp b.name = .lt := by
  have hcount : holedServer.nBoxes = holedServer.usedSlots.card := by decide
  have hdistinct : ∀ i < 4, ∀ j < 4, (holedServer.boxes i).name ≠ .empty →
      (holedServer.boxes i).name = (holedServer.boxes j).name → i = j := by decide
  have hfits : ∀ i < 4, (holedServer.boxes i).name.length < boxNameSize := by decide
  exact listing_of_counted holedServer _ _ _ hcount hdistinct hfits

end MessageBroker.Broker
