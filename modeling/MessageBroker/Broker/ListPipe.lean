import MessageBroker.Broker.Listing
import MessageBroker.Lib.Transition

/-!
# The pipe of a listing

`list_boxes` opens the pipe of the manager once for each record and closes it behind
the record, while the manager reads. A read returns nothing exactly when the pipe is
empty and the broker does not have it open, and the manager takes such a last read of
a record for the end of the listing. So it can leave between two records; it reads all
of them in a run in which no read falls into such a gap.
-/

namespace MessageBroker.Broker

open Bytes Table Transition Clients.Manager

/-- The pipe with what the broker has still to write and what the manager has read. -/
structure ListPipe where
  bytes : List UInt8
  /-- The broker has the pipe open. -/
  writing : Bool
  /-- The broker has opened the pipe, so that the `open` of the manager has returned. -/
  begun : Bool
  /-- The writes left for the record that is being sent. -/
  writes : List (List UInt8)
  /-- The records that have not been begun. -/
  records : List Record
  /-- The sizes of the reads left in the turn of the manager. -/
  reads : List Nat
  k : Nat
  vars : Vars
  turn : Nat
  rows : State
  /-- What the manager has printed when it has left its loop. -/
  out : Option (Except Overrun Listing)

inductive PipeLabel
  | open
  | write
  | close
  | read

namespace ListPipe

def initial (frames : Nat → Vars) (boxes : Nat → Row) (records : List Record) : ListPipe :=
  { bytes := [], writing := false, begun := false, writes := [], records := records
    reads := recordReads, k := 0, vars := frames 0, turn := 0, rows := .initial boxes, out := none }

/-- The end of a turn, when the last read has returned `bytesRead` bytes. -/
def endTurn (frames : Nat → Vars) (s : ListPipe) (bytesRead : Nat) : ListPipe :=
  match s.rows.endRecord s.vars bytesRead with
  | .ok (.again rows) =>
    { s with
      reads := recordReads, k := 0, vars := frames (s.turn + 1), turn := s.turn + 1, rows := rows }
  | .ok (.left out) => { s with out := some (.ok out) }
  | .error e => { s with out := some (.error e) }

/-- A read has returned the bytes `got` and left `rest`. -/
def receive (s : ListPipe) (got rest : List UInt8) (reads : List Nat) : ListPipe :=
  { s with bytes := rest, reads := reads, k := s.k + 1, vars := s.vars.read s.k got }

/-- The turn ends behind its last read. -/
def next (frames : Nat → Vars) (s : ListPipe) (bytesRead : Nat) : ListPipe :=
  match s.reads with
  | [] => s.endTurn frames bytesRead
  | _ :: _ => s

def read (frames : Nat → Vars) (s : ListPipe) : Option ListPipe :=
  match s.reads with
  | [] => none
  | n :: reads =>
    if s.bytes = [] ∧ s.writing = true then none -- the read blocks
    else
      let got := s.bytes.take n
      some ((s.receive got (s.bytes.drop n) reads).next frames got.length)

/-- The steps of the broker, in the order of `send_box_manager`, and those of the manager, until
the manager leaves its loop. -/
def step (frames : Nat → Vars) (s : ListPipe) (a : PipeLabel) : Option ListPipe :=
  if s.out.isSome then none
  else
    match a with
    | .open =>
      match s.records with
      | [] => none
      | r :: records =>
        if s.writing then none
        else some { s with
          writing := true, begun := true, writes := r.writes, records := records }
    | .write =>
      match s.writes with
      | [] => none
      | w :: writes => some { s with bytes := s.bytes ++ w, writes := writes }
    | .close =>
      if s.writing = true ∧ s.writes = [] then some { s with writing := false } else none
    | .read => if s.begun then s.read frames else none

/-- The manager has read all bytes of all records. -/
structure Drained (s : ListPipe) : Prop where
  bytes : s.bytes = []
  writes : s.writes = []
  records : s.records = []

/-- No read is made in the gap between two records: with the pipe empty and closed before the last
record has been begun. -/
def Unbroken (s : ListPipe) : PipeLabel → Prop
  | .read => s.bytes = [] → s.writing = false → s.records = []
  | _ => True

end ListPipe

/-- The reads that each write of a record answers. -/
def Record.pieces (r : Record) : List (List (List UInt8)) :=
  let bar := ['|'.toUInt8]
  [[[opCodeBoxListR], bar, [r.last], bar], [r.nameBytes], [bar], [toLE 8 r.row.size.toNat], [bar],
    [toLE 8 r.row.nPublishers.toNat], [bar], [toLE 8 r.row.nSubscribers.toNat]]

variable {frames : Nat → Vars} {r : Record}

theorem Record.map_flatten_pieces (r : Record) : r.pieces.map List.flatten = r.writes := by
  obtain ⟨last, _ | ⟨box, stale⟩⟩ := r
  · simp [Record.pieces, Record.writes, sendBoxManager, Record.nameBytes, Record.row]
  · simp [Record.pieces, Record.writes, sendBoxManager, Record.nameBytes, Record.row, Box.row]

theorem Record.pieces_ne_nil : ∀ p ∈ r.pieces, p ≠ [] := by
  simp [Record.pieces]

theorem Record.chunk_ne_nil : ∀ c ∈ r.chunks, c ≠ [] := by
  intro c hc hnil
  have hmem := List.mem_map_of_mem (f := List.length) hc
  rw [r.map_length_chunks, hnil] at hmem
  exact absurd hmem (by decide)

/-- The first byte of the name array of a named box is not the terminator. -/
theorem nameArray_head {name : CString} (hne : name ≠ .empty) (stale : Memory) :
    ∃ b rest, nameArray name stale = b :: rest ∧ b ≠ 0 := by
  obtain ⟨_ | ⟨b, bytes⟩, hnul⟩ := name
  · exact absurd rfl hne
  · have hload : nameArray ⟨b :: bytes, hnul⟩ stale =
        store stale 0 (b :: bytes ++ [0]) 0 :: load (store stale 0 (b :: bytes ++ [0])) 1 31 :=
      load_succ _ _ _
    refine ⟨_, _, hload, ?_⟩
    have hb := @store_apply stale 0 (b :: bytes ++ [0]) 0 (by simp)
    rw [hb]
    exact hnul b List.mem_cons_self

/-- The reads of a record of a named box leave a name. -/
theorem Record.fill_name (hne : r.row.name ≠ .empty) (v : Vars) : v.fill 0 r.chunks 4 0 ≠ 0 := by
  obtain ⟨last, _ | ⟨box, stale⟩⟩ := r
  · exact absurd rfl hne
  · have hname : box.name ≠ .empty := hne
    obtain ⟨b, rest, hbytes, hb⟩ := nameArray_head hname stale
    -- the name is the fifth thing that is read
    have hvar := v.fill_apply 0 (Record.chunks ⟨last, some (box, stale)⟩) (show 4 < 11 by decide)
    have hstore := @store_apply (v 4) 0 (b :: rest) 0 (Nat.succ_pos _)
    rw [Nat.zero_add] at hvar
    rw [hvar]
    show store (v 4) 0 (nameArray box.name stale) 0 ≠ 0
    rw [hbytes]
    exact hstore ▸ hb

namespace ListPipe

variable {s s' : ListPipe} {queued chunks : List (List UInt8)}
  {pending : List (List (List UInt8))} {later : List Record} {rows : List Row}

/-- The manager is inside a record: its reads left are answered by `chunks` and by the records
behind, of which those in `queued` are in the pipe and `pending` belongs to the writes left. -/
structure Streams (s : ListPipe) (queued : List (List UInt8))
    (pending : List (List (List UInt8))) (chunks : List (List UInt8)) (later : List Record)
    (rows : List Row) : Prop where
  running : s.out = none
  bytes : s.bytes = queued.flatten
  writes : s.writes = pending.map List.flatten
  pieces : ∀ p ∈ pending, p ≠ []
  closed : s.writing = false → pending = []
  stream : queued ++ (pending.flatten ++ s.records.flatMap Record.chunks) =
    chunks ++ later.flatMap Record.chunks
  reads : s.reads = chunks.map List.length
  chunks_ne : chunks ≠ []
  chunk_ne : ∀ c ∈ chunks, c ≠ []
  name : s.vars.fill s.k chunks 4 0 ≠ 0
  rows : s.rows.Holds rows
  named : ∀ r ∈ later, r.row.name ≠ .empty

/-- The manager is inside a record or has read everything. -/
def Inv (s : ListPipe) : Prop :=
  s.Drained ∨ ∃ queued pending chunks later rows, s.Streams queued pending chunks later rows

theorem inv_initial (boxes : Nat → Row) {records : List Record}
    (hnamed : ∀ r ∈ records, r.row.name ≠ .empty) : (initial frames boxes records).Inv := by
  cases records with
  | nil => exact Or.inl ⟨rfl, rfl, rfl⟩
  | cons r later =>
    refine Or.inr ⟨[], [], r.chunks, later, [], rfl, rfl, rfl, nofun, fun _ => rfl, rfl, ?_, ?_,
      Record.chunk_ne_nil, ?_, State.holds_initial boxes, ?_⟩
    · exact r.map_length_chunks.symm
    · exact List.cons_ne_nil _ _
    · exact Record.fill_name (hnamed r List.mem_cons_self) _
    · exact fun r' hr => hnamed r' (List.mem_cons_of_mem _ hr)

/-! ### Steps of the broker -/

theorem Streams.open (h : s.Streams queued pending chunks later rows) {records : List Record}
    (hrecords : s.records = r :: records) (hclosed : s.writing = false) :
    ({ s with writing := true, begun := true, writes := r.writes, records := records } :
      ListPipe).Streams queued r.pieces chunks later rows := by
  have hstream := h.stream
  -- no write is left, so the next bytes are those of the record
  rw [h.closed hclosed, hrecords, List.flatMap_cons] at hstream
  exact { h with
    writes := r.map_flatten_pieces.symm
    pieces := Record.pieces_ne_nil
    closed := nofun
    stream := hstream }

theorem Streams.write (h : s.Streams queued pending chunks later rows) {w : List UInt8}
    {writes : List (List UInt8)} (hwrites : s.writes = w :: writes) :
    ∃ queued' pending', ({ s with bytes := s.bytes ++ w, writes := writes } :
      ListPipe).Streams queued' pending' chunks later rows := by
  have hpending := h.writes
  rw [hwrites] at hpending
  cases pending with
  | nil => cases hpending
  | cons p pending =>
    obtain ⟨rfl, rfl⟩ := List.cons_eq_cons.mp hpending
    -- the pieces of the write stand in the pipe now
    refine ⟨queued ++ p, pending, { h with
      bytes := ?_, writes := rfl, pieces := ?_, closed := ?_, stream := ?_ }⟩
    · rw [h.bytes, List.flatten_append]
    · exact fun q hq => h.pieces q (List.mem_cons_of_mem _ hq)
    · intro hclosed
      cases h.closed hclosed
    · rw [← h.stream, List.flatten_cons]
      simp only [List.append_assoc]

theorem Streams.close (h : s.Streams queued pending chunks later rows) (hwrites : s.writes = []) :
    ({ s with writing := false } : ListPipe).Streams queued pending chunks later rows := by
  refine { h with closed := fun _ => ?_ }
  exact List.map_eq_nil_iff.mp (h.writes.symm.trans hwrites)

/-! ### Steps of the manager -/

/-- A stream of which nothing is left has been sent and read. -/
theorem drained_of_stream (hbytes : s.bytes = queued.flatten)
    (hwrites : s.writes = pending.map List.flatten) (hpieces : ∀ p ∈ pending, p ≠ [])
    (hstream : queued ++ (pending.flatten ++ s.records.flatMap Record.chunks) = []) :
    s.Drained := by
  obtain ⟨hqueued, hrest⟩ := List.append_eq_nil_iff.mp hstream
  obtain ⟨hflat, hrecords⟩ := List.append_eq_nil_iff.mp hrest
  have hpending : pending = [] := by
    apply List.eq_nil_iff_forall_not_mem.mpr
    exact fun p hp => hpieces p hp (List.flatten_eq_nil_iff.mp hflat p hp)
  refine ⟨?_, ?_, ?_⟩
  · rw [hbytes, hqueued]
    rfl
  · rw [hwrites, hpending]
    rfl
  · apply List.eq_nil_iff_forall_not_mem.mpr
    exact fun r hr => List.cons_ne_nil _ _ (List.flatMap_eq_nil_iff.mp hrecords r hr)

/-- The last read of a record adds its row; the next turn starts with the next record. -/
theorem Streams.endTurn {c : List UInt8}
    (h : s.Streams (c :: queued) pending [c] later rows) :
    ((s.receive c queued.flatten []).endTurn frames c.length).Inv := by
  have hpos : 0 < c.length := List.length_pos_of_ne_nil (h.chunk_ne c List.mem_cons_self)
  obtain ⟨rows', hturn, hrows⟩ :=
    State.Holds.endRecord (v := s.vars.read s.k c) h.rows hpos h.name
  have hstream := (List.cons_eq_cons.mp h.stream).2
  simp only [ListPipe.endTurn, receive, hturn]
  -- the record was the last one, or the manager goes on with the next
  cases later with
  | nil => exact Or.inl (drained_of_stream rfl h.writes h.pieces hstream)
  | cons r later =>
    refine Or.inr ⟨queued, pending, r.chunks, later, _, { h with
      bytes := rfl, stream := hstream, reads := r.map_length_chunks.symm
      chunks_ne := List.cons_ne_nil _ _, chunk_ne := Record.chunk_ne_nil, rows := hrows
      name := Record.fill_name (h.named r List.mem_cons_self) _
      named := fun r' hr => h.named r' (List.mem_cons_of_mem _ hr) }⟩

/-- A read that finds the bytes that it asks for. -/
theorem read_chunk {c rest : List UInt8} {reads : List Nat} (hreads : s.reads = c.length :: reads)
    (hbytes : s.bytes = c ++ rest) (hne : c ≠ []) :
    s.read frames = some ((s.receive c rest reads).next frames c.length) := by
  have hready : ¬ (c ++ rest = [] ∧ s.writing = true) := by
    rintro ⟨hnil, _⟩
    exact hne (List.append_eq_nil_iff.mp hnil).1
  simp only [ListPipe.read, hreads, hbytes, if_neg hready, List.take_left, List.drop_left]

theorem next_of_cons {n : Nat} {reads : List Nat} (h : s.reads = n :: reads) (bytesRead : Nat) :
    s.next frames bytesRead = s := by
  rw [next, h]

/-- A read that is not made in a gap returns the bytes that it asks for. -/
theorem Streams.read (h : s.Streams queued pending chunks later rows)
    (hok : s.Unbroken .read) (hs : s.read frames = some s') : s'.Inv := by
  obtain _ | ⟨c, chunks⟩ := chunks
  · exact absurd rfl h.chunks_ne
  obtain _ | ⟨q, queued⟩ := queued
  · -- the pipe is empty: the read blocks, or nothing is left to be read
    exfalso
    have hbytes : s.bytes = [] := h.bytes
    by_cases hwriting : s.writing = true
    · simp only [ListPipe.read, h.reads, List.map_cons, hbytes, hwriting, and_self, if_true] at hs
      cases hs
    · have hclosed : s.writing = false := Bool.eq_false_iff.mpr hwriting
      have hstream := h.stream
      rw [h.closed hclosed, hok hbytes hclosed] at hstream
      cases hstream
  · -- the piece at the head of the pipe is the one that is asked for
    have hcq : q = c := (List.cons_eq_cons.mp h.stream).1
    subst hcq
    rw [read_chunk h.reads h.bytes (h.chunk_ne q List.mem_cons_self)] at hs
    cases chunks with
    | nil =>
      cases hs
      exact h.endTurn
    | cons d chunks =>
      cases hs
      refine Or.inr ⟨queued, pending, d :: chunks, later, rows, { h with
        bytes := rfl, stream := (List.cons_eq_cons.mp h.stream).2, reads := rfl
        chunks_ne := List.cons_ne_nil _ _
        chunk_ne := fun c hc => h.chunk_ne c (List.mem_cons_of_mem _ hc) }⟩

/-- What a read leaves alone. -/
theorem endTurn_same (frames : Nat → Vars) (s : ListPipe) (bytesRead : Nat) :
    (s.endTurn frames bytesRead).bytes = s.bytes ∧
      (s.endTurn frames bytesRead).writes = s.writes ∧
      (s.endTurn frames bytesRead).records = s.records ∧
      (s.endTurn frames bytesRead).begun = s.begun := by
  rw [ListPipe.endTurn]
  split
  · exact ⟨rfl, rfl, rfl, rfl⟩
  · exact ⟨rfl, rfl, rfl, rfl⟩
  · exact ⟨rfl, rfl, rfl, rfl⟩

theorem read_same (hs : s.read frames = some s') :
    (∃ n, s'.bytes = s.bytes.drop n) ∧ s'.writes = s.writes ∧ s'.records = s.records ∧
      s'.begun = s.begun := by
  rw [ListPipe.read] at hs
  split at hs
  · cases hs
  · next n reads _ =>
    obtain ⟨_, hs⟩ := Option.ite_none_left_eq_some.mp hs
    cases reads with
    | nil =>
      cases hs
      obtain ⟨hbytes, hrest⟩ := endTurn_same frames
        (s.receive (s.bytes.take n) (s.bytes.drop n) []) (s.bytes.take n).length
      exact ⟨⟨n, hbytes⟩, hrest⟩
    | cons _ _ =>
      cases hs
      exact ⟨⟨n, rfl⟩, rfl, rfl, rfl⟩

theorem Drained.read (h : s.Drained) (hs : s.read frames = some s') : s'.Drained := by
  obtain ⟨⟨n, hbytes⟩, hwrites, hrecords, _⟩ := read_same hs
  rw [h.bytes, List.drop_nil] at hbytes
  exact ⟨hbytes, hwrites.trans h.writes, hrecords.trans h.records⟩

/-! ### Runs -/

/-- What a step has found and what it does. -/
inductive Taken (frames : Nat → Vars) (s : ListPipe) : PipeLabel → ListPipe → Prop
  | opened (r : Record) (records : List Record) (hrecords : s.records = r :: records)
      (hclosed : s.writing = false) : Taken frames s .open
        { s with writing := true, begun := true, writes := r.writes, records := records }
  | written (w : List UInt8) (writes : List (List UInt8)) (hwrites : s.writes = w :: writes) :
      Taken frames s .write { s with bytes := s.bytes ++ w, writes := writes }
  | closed (hwrites : s.writes = []) : Taken frames s .close { s with writing := false }
  | received (s' : ListPipe) (hbegun : s.begun = true) (hread : s.read frames = some s') :
      Taken frames s .read s'

theorem taken_of_step {a : PipeLabel} (hs : s.step frames a = some s') : Taken frames s a s' := by
  obtain ⟨_, hs⟩ := Option.ite_none_left_eq_some.mp hs
  cases a with
  | «open» =>
    dsimp only at hs
    split at hs
    · cases hs
    · next r records hrecords =>
      obtain ⟨hclosed, ⟨⟩⟩ := Option.ite_none_left_eq_some.mp hs
      exact .opened r records hrecords (Bool.eq_false_iff.mpr hclosed)
  | write =>
    dsimp only at hs
    split at hs
    · cases hs
    · next w writes hwrites =>
      cases hs
      exact .written w writes hwrites
  | close =>
    obtain ⟨⟨_, hwrites⟩, ⟨⟩⟩ := Option.ite_none_right_eq_some.mp hs
    exact .closed hwrites
  | read =>
    obtain ⟨hbegun, hread⟩ := Option.ite_none_right_eq_some.mp hs
    exact .received s' hbegun hread

theorem Drained.step (h : s.Drained) (a : PipeLabel) (hs : s.step frames a = some s') :
    s'.Drained := by
  cases taken_of_step hs with
  | opened r records hrecords => cases hrecords.symm.trans h.records
  | written w writes hwrites => cases hwrites.symm.trans h.writes
  | closed => exact ⟨h.bytes, h.writes, h.records⟩
  | received s' hbegun hread => exact h.read hread

theorem Streams.step (h : s.Streams queued pending chunks later rows) (a : PipeLabel)
    (hok : s.Unbroken a) (hs : s.step frames a = some s') : s'.Inv := by
  cases taken_of_step hs with
  | opened r records hrecords hclosed =>
    exact Or.inr ⟨_, _, _, _, _, h.open hrecords hclosed⟩
  | written w writes hwrites =>
    obtain ⟨queued', pending', h'⟩ := h.write hwrites
    exact Or.inr ⟨_, _, _, _, _, h'⟩
  | closed hwrites => exact Or.inr ⟨_, _, _, _, _, h.close hwrites⟩
  | received s' hbegun hread => exact h.read hok hread

theorem Inv.step (h : s.Inv) (a : PipeLabel) (hok : s.Unbroken a)
    (hs : s.step frames a = some s') : s'.Inv := by
  rcases h with h | ⟨queued, pending, chunks, later, rows, h⟩
  · exact Or.inl (h.step a hs)
  · exact h.step a hok hs

theorem Inv.drained (h : s.Inv) (hout : s.out ≠ none) : s.Drained := by
  rcases h with h | ⟨_, _, _, _, _, h⟩
  · exact h
  · exact absurd h.running hout

/-! ### Gaps -/

/-- With at most one record there is no gap. -/
theorem unbroken_of_one {boxes : Nat → Row} {records : List Record} (hone : records.length ≤ 1)
    (h : Reaches (step frames) anyStep (initial frames boxes records) s) :
    Reaches (step frames) Unbroken (initial frames boxes records) s ∧
      s.records.length ≤ 1 ∧ (s.begun = true → s.records = []) := by
  induction h with
  | refl => exact ⟨Reaches.refl _, hone, nofun⟩
  | tail _ hs ih =>
    obtain ⟨a, _, hs⟩ := hs
    obtain ⟨hu, hlen, hrecords⟩ := ih
    cases taken_of_step hs with
    | opened r rest hrec =>
      have hnil : rest = [] := by
        rw [hrec, List.length_cons] at hlen
        exact List.length_eq_zero_iff.mp (by omega)
      subst hnil
      exact ⟨hu.snoc .open trivial hs, Nat.zero_le _, fun _ => rfl⟩
    | written => exact ⟨hu.snoc .write trivial hs, hlen, hrecords⟩
    | closed => exact ⟨hu.snoc .close trivial hs, hlen, hrecords⟩
    | received v hbegun hread =>
      obtain ⟨_, _, hrec, hbeg⟩ := read_same hread
      refine ⟨hu.snoc .read (fun _ _ => hrecords hbegun) hs, ?_, ?_⟩
      · rwa [hrec]
      · rwa [hrec, hbeg]

theorem step_read (hrun : s.out = none) (hbegun : s.begun = true) :
    s.step frames .read = s.read frames := by
  rw [step, hrun]
  exact if_pos hbegun

/-- A turn whose reads are answered by what is in the pipe. -/
theorem run_reads (frames : Nat → Vars) (cs : List (List UInt8)) (c rest : List UInt8)
    (hrun : s.out = none) (hbegun : s.begun = true) (hreads : s.reads = (cs ++ [c]).map List.length)
    (hbytes : s.bytes = (cs ++ [c]).flatten ++ rest) (hne : ∀ d ∈ cs ++ [c], d ≠ []) :
    ∃ k, runLabels (step frames) s (List.replicate (cs.length + 1) .read) =
      some (({ s with
        bytes := rest, reads := [], k := k, vars := s.vars.fill s.k (cs ++ [c]) } :
          ListPipe).endTurn frames c.length) := by
  induction cs generalizing s with
  | nil =>
    have hc : s.bytes = c ++ rest := by rwa [List.nil_append, List.flatten_singleton] at hbytes
    refine ⟨s.k + 1, ?_⟩
    show (s.step frames .read).bind _ = _
    rw [step_read hrun hbegun, read_chunk hreads hc (hne c List.mem_cons_self)]
    rfl
  | cons d cs ih =>
    have hd : s.bytes = d ++ ((cs ++ [c]).flatten ++ rest) := by
      rwa [List.cons_append, List.flatten_cons, List.append_assoc] at hbytes
    obtain ⟨n, reads, hcons⟩ : ∃ n reads, (cs ++ [c]).map List.length = n :: reads := by
      cases cs with
      | nil => exact ⟨_, _, rfl⟩
      | cons _ _ => exact ⟨_, _, rfl⟩
    obtain ⟨k, hk⟩ :=
      ih (s := s.receive d ((cs ++ [c]).flatten ++ rest) ((cs ++ [c]).map List.length)) hrun hbegun
        rfl rfl fun e he => hne e (List.mem_cons_of_mem _ he)
    refine ⟨k, ?_⟩
    show (s.step frames .read).bind _ = _
    rw [step_read hrun hbegun, read_chunk hreads hd (hne d List.mem_cons_self),
      next_of_cons (by exact hcons)]
    exact hk

/-- A read in a gap returns nothing. -/
theorem read_gap {n : Nat} {reads : List Nat} (hreads : s.reads = n :: reads)
    (hbytes : s.bytes = []) (hclosed : s.writing = false) :
    s.read frames = some ((s.receive [] [] reads).next frames 0) := by
  simp only [ListPipe.read, hreads, hbytes, hclosed, Bool.false_eq_true, and_false, if_false,
    List.take_nil, List.drop_nil, List.length_nil]

/-- The manager leaves when a whole rest of a turn falls into a gap. -/
theorem run_gap (frames : Nat → Vars) (n : Nat) (reads : List Nat) (hrun : s.out = none)
    (hbegun : s.begun = true) (hreads : s.reads = n :: reads) (hbytes : s.bytes = [])
    (hclosed : s.writing = false) :
    ∃ s', runLabels (step frames) s (List.replicate (reads.length + 1) .read) = some s' ∧
      s'.out ≠ none ∧ s'.records = s.records := by
  induction reads generalizing s n with
  | nil =>
    have hread := @read_gap frames s n [] hreads hbytes hclosed
    refine ⟨_, ?_, ?_, (read_same hread).2.2.1⟩
    · show (s.step frames .read).bind _ = _
      rw [step_read hrun hbegun, hread]
      rfl
    · nofun
  | cons m reads ih =>
    have hread := @read_gap frames s n (m :: reads) hreads hbytes hclosed
    obtain ⟨s', hs', hout, hrecords⟩ :=
      ih (s := s.receive [] [] (m :: reads)) m hrun hbegun rfl rfl hclosed
    refine ⟨s', ?_, hout, hrecords⟩
    show (s.step frames .read).bind _ = _
    rw [step_read hrun hbegun, hread]
    exact hs'

theorem run_writes (frames : Nat → Vars) (writes : List (List UInt8)) (hrun : s.out = none)
    (hwrites : s.writes = writes) :
    runLabels (step frames) s (List.replicate writes.length .write) =
      some { s with bytes := s.bytes ++ writes.flatten, writes := [] } := by
  induction writes generalizing s with
  | nil =>
    have hsame : { s with bytes := s.bytes ++ [], writes := [] } = s := by
      rw [List.append_nil, ← hwrites]
    exact congrArg some hsame.symm
  | cons w writes ih =>
    have hstep : s.step frames .write =
        some { s with bytes := s.bytes ++ w, writes := writes } := by
      rw [step, hrun, hwrites]
      rfl
    show (s.step frames .write).bind _ = _
    rw [hstep, List.flatten_cons, ← List.append_assoc]
    exact ih hrun rfl

/-- With two records the manager can leave behind the first one. -/
theorem leaves_early (frames : Nat → Vars) (boxes : Nat → Row) (r' : Record)
    (later : List Record) (hne : r.row.name ≠ .empty) :
    ∃ s, Reaches (step frames) anyStep (initial frames boxes (r :: r' :: later)) s ∧
      s.out ≠ none ∧ s.records = r' :: later := by
  let s₁ : ListPipe := { initial frames boxes (r' :: later) with
    writing := true, begun := true, writes := r.writes }
  let s₂ : ListPipe := { s₁ with bytes := s₁.bytes ++ r.writes.flatten, writes := [] }
  let size := toLE 8 r.row.nSubscribers.toNat
  have hchunks : r.chunks = r.chunks.dropLast ++ [size] := rfl
  have hbytes : s₂.bytes = (r.chunks.dropLast ++ [size]).flatten ++ [] := by
    rw [List.append_nil, ← hchunks, r.flatten_chunks]
    rfl
  -- the first record is sent and read
  have hopen : (initial frames boxes (r :: r' :: later)).step frames .open = some s₁ := rfl
  have hwrite := run_writes (s := s₁) frames r.writes rfl rfl
  obtain ⟨k, hread⟩ := run_reads (s := s₂) frames r.chunks.dropLast size [] rfl rfl
    r.map_length_chunks.symm hbytes (hchunks ▸ Record.chunk_ne_nil)
  obtain ⟨rows, hturn, _⟩ := (State.holds_initial boxes).endRecord
    (v := (frames 0).fill 0 r.chunks) (show 0 < size.length by rw [length_toLE]; decide)
    (Record.fill_name hne (frames 0))
  let s₃ : ListPipe := { s₂ with
    bytes := [], reads := recordReads, k := 0, vars := frames 1, turn := 1, rows := rows }
  have hturn' : ({ s₂ with
      bytes := [], reads := [], k := k, vars := (frames 0).fill 0 r.chunks } :
        ListPipe).endTurn frames size.length = s₃ := by
    rw [endTurn]
    simp only [show s₂.rows = State.initial boxes from rfl, hturn]
    rfl
  -- the second one has not been begun when the next turn is over
  have hclose : s₃.step frames .close = some { s₃ with writing := false } := rfl
  obtain ⟨s, hgap, hout, hrecords⟩ := run_gap (s := { s₃ with writing := false })
    frames 1 recordReads.tail rfl rfl rfl rfl rfl
  refine ⟨s, ?_, hout, hrecords⟩
  have h₂ := ((Reaches.refl _).snoc _ trivial hopen).trans (reaches_of_runLabels hwrite)
  have h₃ := h₂.trans (reaches_of_runLabels (hread.trans (congrArg some hturn')))
  exact (h₃.snoc _ trivial hclose).trans (reaches_of_runLabels hgap)

end ListPipe

/-- The calls for a table with a box are all for boxes with a name. -/
theorem listBoxes_named {srv : Server} (stale : Nat → Memory) (hbox : srv.nBoxes ≠ 0) :
    ∀ r ∈ listBoxes srv stale, r.row.name ≠ .empty := by
  have hslots : ∀ slots i count, ∀ r ∈ sendSlots srv stale slots i count, r.row.name ≠ .empty := by
    intro slots
    induction slots with
    | zero => nofun
    | succ slots ih =>
      intro i count r hr
      rw [sendSlots] at hr
      by_cases hname : (srv.boxes i).name ≠ .empty
      · simp only [if_pos hname] at hr
        split at hr
        · rw [List.mem_singleton.mp hr]
          exact hname
        · rcases List.mem_cons.mp hr with rfl | hr
          · exact hname
          · exact ih _ _ r hr
      · rw [if_neg hname] at hr
        exact ih _ _ r hr
  rw [listBoxes, if_neg hbox, List.nil_append]
  exact hslots _ _ _

section

variable {srv : Server} {stale : Nat → Memory} {boxes : Nat → Row} {s : ListPipe}

theorem inv_of_listing (hbox : srv.nBoxes ≠ 0)
    (h : Reaches (ListPipe.step frames) ListPipe.Unbroken
      (.initial frames boxes (listBoxes srv stale)) s) : s.Inv := by
  apply h.invariant (ListPipe.inv_initial boxes (listBoxes_named stale hbox))
  intro u a v hu hok hs
  exact hu.step a hok hs

/-- In a run in which no read is made in the gap between two records, the manager leaves its loop
only when it has read all records of the listing. -/
theorem drained_of_reaches (hbox : srv.nBoxes ≠ 0)
    (h : Reaches (ListPipe.step frames) ListPipe.Unbroken
      (.initial frames boxes (listBoxes srv stale)) s) (hout : s.out ≠ none) : s.Drained :=
  (inv_of_listing hbox h).drained hout

/-- The manager reads the whole listing in every run when no more than one record is sent, and only
then. -/
theorem drained_iff_one (hbox : srv.nBoxes ≠ 0) :
    (∀ s, Reaches (ListPipe.step frames) anyStep (.initial frames boxes (listBoxes srv stale)) s →
      s.out ≠ none → s.Drained) ↔ (listBoxes srv stale).length ≤ 1 := by
  constructor
  · intro hall
    have hnamed := listBoxes_named stale hbox
    match hrecords : listBoxes srv stale with
    | [] => exact Nat.zero_le 1
    | [r] => exact le_rfl
    | r :: r' :: later =>
      rw [hrecords] at hall hnamed
      obtain ⟨s, hs, hout, hleft⟩ :=
        ListPipe.leaves_early frames boxes r' later (hnamed r List.mem_cons_self)
      cases hleft.symm.trans (hall s hs hout).records
  · intro hone s hs hout
    have hinv := inv_of_listing hbox (ListPipe.unbroken_of_one hone hs).1
    exact hinv.drained hout

end

/-! ### Two boxes -/

instance (s : ListPipe) : (a : PipeLabel) → Decidable (s.Unbroken a)
  | .open => isTrue trivial
  | .write => isTrue trivial
  | .close => isTrue trivial
  | .read => inferInstanceAs (Decidable (s.bytes = [] → s.writing = false → s.records = []))

/-- The listing of two boxes, before the first record is sent. -/
def holedPipe : ListPipe :=
  .initial (fun _ _ _ => 255) (fun _ => ⟨.empty, 0, 0, 0⟩) (listBoxes holedServer fun _ _ => 255)

def sendRecord : List PipeLabel := .open :: List.replicate 8 .write ++ [.close]

set_option maxRecDepth 4000 in
theorem sentFirst_drained :
    ∃ s, runLabels (ListPipe.step fun _ _ _ => 255) holedPipe
        (sendRecord ++ sendRecord ++ List.replicate 33 .read) = some s ∧
      s.out = some (.ok (.printed [⟨boxA.name, 0, 0, 0⟩, ⟨boxB.name, 0, 0, 0⟩])) ∧ s.Drained := by
  let labels := sendRecord ++ sendRecord ++ List.replicate 33 .read
  have hrun : runLabels (guarded (ListPipe.step fun _ _ _ => 255) ListPipe.Unbroken) holedPipe
    labels = some _ := rfl
  have hplain : runLabels (ListPipe.step fun _ _ _ => 255) holedPipe labels = some _ := rfl
  exact ⟨_, hplain, rfl, drained_of_reaches (by decide) (reaches_of_guarded hrun) nofun⟩

set_option maxRecDepth 4000 in
/-- The manager reads on before the second record is begun, and prints the first box alone. -/
theorem readInGap_not_drained :
    ∃ s, runLabels (ListPipe.step fun _ _ _ => 255) holedPipe
        (sendRecord ++ List.replicate 22 .read) = some s ∧
      s.out = some (.ok (.printed [⟨boxB.name, 0, 0, 0⟩])) ∧ s.records.length = 1 ∧
      ¬ s.Drained := by
  have hrun : runLabels (ListPipe.step fun _ _ _ => 255) holedPipe
    (sendRecord ++ List.replicate 22 .read) = some _ := rfl
  refine ⟨_, hrun, rfl, rfl, ?_⟩
  intro h
  cases h.records

end MessageBroker.Broker
