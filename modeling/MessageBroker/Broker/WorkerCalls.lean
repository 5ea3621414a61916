import MessageBroker.Broker.Missing
import MessageBroker.Tfs.Separation

/-!
# The calls of TecnicoFS that the workers make

A step of a worker makes one call of TecnicoFS at most. Which call that is depends on where the
worker stands, and the file system after the step is the one after the call.
-/

namespace MessageBroker.Broker

open Bytes Transition Tfs Tfs.Fs

namespace Activity

/-- The call of TecnicoFS that the next step of a worker makes. -/
def tfsCall : Activity → Option Tfs.Call
  | creating _ box .test => some (.open (some box.name) { append := true })
  | creating _ _ (.closeExisting fhandle) => some (.close fhandle)
  | creating _ box .create => some (.open (some box.name) { creat := true })
  | creating _ _ (.close fhandle) => some (.close fhandle)
  | removing _ box .test => some (.open (some box.name) { append := true })
  | removing _ _ (.close fhandle) => some (.close fhandle)
  | removing _ box .unlink => some (.unlink (some box.name))
  | registering _ box .test => some (.open (some box.name) { append := true })
  | registering _ _ (.close fhandle) => some (.close fhandle)
  | publishing e _ .open => some (.open (some e.box.name) { append := true })
  | publishing _ text (.write fhandle) =>
    some (.write fhandle (store (fun _ => 0) 0 (payload text)) (payload text).length)
  | publishing _ _ (.close fhandle _) => some (.close fhandle)
  | polling e _ _ _ .open => some (.open (some e.box.name) {})
  | polling _ _ _ _ (.read fhandle _ _) => some (.read fhandle 1)
  | polling _ _ _ _ (.close fhandle _) => some (.close fhandle)
  | _ => none

end Activity

variable {srv srv' : Server} {fs fs' : Fs} {pipe : PipePath} {box : BoxName} {a : Activity}
  {a' : Option Activity} {e : Attachment} {p : CString}

/-- What a call of TecnicoFS, if there is one, leaves. -/
def Executes (fs : Fs) (call : Option Tfs.Call) (fs' : Fs) : Prop :=
  match call with
  | none => fs' = fs
  | some call => ∃ reply, exec fs call = .ok (reply, fs')

theorem executes_open {path : CString} {mode : FileMode} {r : Int}
    (h : fs.tfsOpen (some path) mode = .ok (r, fs')) :
    Executes fs (some (.open (some path) mode)) fs' :=
  ⟨⟨r, []⟩, by simp only [exec, h, ok_bind]⟩

theorem executes_close {fhandle r : Int} (h : fs.tfsClose fhandle = .ok (r, fs')) :
    Executes fs (some (.close fhandle)) fs' :=
  ⟨⟨r, []⟩, by simp only [exec, h, ok_bind]⟩

theorem createStep_executes (s : CreateStep) :
    Ensures (createStep pipe box srv s) fun r =>
      Executes srv.fs (Activity.creating pipe box s).tfsCall r.2.fs := by
  cases s with
  | test => exact .call fun _ hopen => .ok (executes_open hopen)
  | closeExisting fhandle => exact .call fun _ hclose => .ok (executes_close hclose)
  | create =>
    exact .call fun _ hopen =>
      .ite (fun _ => .ok (executes_open hopen)) fun _ => .ok (executes_open hopen)
  | close fhandle =>
    exact .call fun _ hclose =>
      .ite (fun _ => .ok (executes_close hclose)) fun _ => .ok (executes_close hclose)
  | takeSlot => exact .ite (fun _ => .ok rfl) fun _ => .ok (takeSlot_fs _ _)

theorem removeStep_executes (s : RemoveStep) :
    Ensures (removeStep pipe box srv s) fun r =>
      Executes srv.fs (Activity.removing pipe box s).tfsCall r.2.fs := by
  cases s with
  | test =>
    exact .call fun _ hopen =>
      .ite (fun _ => .ok (executes_open hopen)) fun _ => .ok (executes_open hopen)
  | close fhandle =>
    exact .call fun _ hclose =>
      .ite (fun _ => .ok (executes_close hclose)) fun _ => .ok (executes_close hclose)
  | unlink =>
    refine .call fun ⟨unlinked, fs⟩ hunlink => ?_
    have hexec : Executes srv.fs (some (.unlink (some box.name))) fs :=
      ⟨⟨unlinked, []⟩, by simp only [exec, hunlink, ok_bind]⟩
    exact .ite (fun _ => .ok hexec) fun _ => .ok hexec
  | freeSlot => exact .ok (freeSlot_fs _ _)

theorem registerStep_executes {role : Role} (s : RegisterStep) :
    Ensures (registerStep box srv s) fun r =>
      Executes srv.fs (Activity.registering role box s).tfsCall r.2.fs := by
  cases s with
  | test => exact .call fun _ hopen => .ok (executes_open hopen)
  | close fhandle => exact .call fun _ hclose => .ok (executes_close hclose)
  | scan =>
    dsimp only [registerStep]
    split <;> exact .ok rfl

theorem publishStep_executes {text : Text} (s : PublishStep) :
    Ensures (publishStep e.index e.box text srv s) fun r =>
      Executes srv.fs (Activity.publishing e text s).tfsCall r.2.fs := by
  cases s with
  | «open» =>
    exact .call fun _ hopen =>
      .ite (fun _ => .ok (executes_open hopen)) fun _ => .ok (executes_open hopen)
  | write fhandle =>
    refine .call fun ⟨written, fs⟩ hwrite => .ok ?_
    have hexec : Executes srv.fs (Activity.publishing e text (.write fhandle)).tfsCall fs :=
      ⟨⟨written, []⟩, by simp only [exec, hwrite, ok_bind]⟩
    dsimp only
    split <;> exact hexec
  | close fhandle written => exact .call fun _ hclose => .ok (executes_close hclose)

theorem pollStep_executes {bytesProcessed : Nat} {stale : List UInt8} {clientGone : Bool}
    (s : PollStep) : Ensures (pollStep e.index e.box bytesProcessed stale clientGone srv s) fun r =>
      Executes srv.fs (Activity.polling e bytesProcessed stale clientGone s).tfsCall r.2.fs := by
  cases s with
  | «open» =>
    exact .call fun _ hopen =>
      .ite (fun _ => .ok (executes_open hopen)) fun _ => .ok (executes_open hopen)
  | read fhandle count buffer =>
    refine .call fun ⟨⟨bytesRead, bytes⟩, fs⟩ hread => .ok ?_
    have hexec : Executes srv.fs (some (.read fhandle 1)) fs :=
      ⟨⟨bytesRead, bytes⟩, by simp only [exec, hread, ok_bind]⟩
    exact hexec
  | close fhandle result =>
    refine .call fun _ hclose => .ite (fun _ => .ok (executes_close hclose)) fun _ => ?_
    refine .ite (fun _ => .ok (executes_close hclose)) fun _ => ?_
    exact .ite (fun _ => .ok (executes_close hclose)) fun _ => .ok (executes_close hclose)

theorem behind_executes {σ ρ : Type} {r : Except Fault (Progress σ ρ × Server)}
    {next : σ → Activity} {done : ρ → Option Activity} {call : Option Tfs.Call}
    (hr : Ensures r fun p => Executes fs call p.2.fs)
    (h : Activity.behind r next done = some (a', srv')) : Executes fs call srv'.fs := by
  obtain e | ⟨s | r, srv₁⟩ := r
  · cases h
  · cases h
    exact hr _ rfl
  · cases h
    exact hr _ rfl

/-- The file system after a step of a worker. -/
theorem call_executes (h : a.call srv = some (a', srv')) : Executes srv.fs a.tfsCall srv'.fs := by
  cases a with
  | creating pipe box s => exact behind_executes (createStep_executes s) h
  | removing pipe box s => exact behind_executes (removeStep_executes s) h
  | registering role box s => exact behind_executes (registerStep_executes s) h
  | publishing e text s => exact behind_executes (publishStep_executes s) h
  | polling e bytesProcessed stale clientGone s => exact behind_executes (pollStep_executes s) h
  | registered role e => cases h
  | linking role e => cases h
  | attached role e bytesProcessed => cases h

theorem behind_cases {σ ρ : Type} {r : Except Fault (Progress σ ρ × Server)}
    {next : σ → Activity} {done : ρ → Option Activity}
    (h : Activity.behind r next done = some (a', srv')) :
    (∃ s, r = .ok (.next s, srv') ∧ a' = some (next s)) ∨
      ∃ x, r = .ok (.done x, srv') ∧ a' = done x := by
  obtain e | ⟨s | x, srv₁⟩ := r
  · cases h
  · cases h
    exact Or.inl ⟨s, rfl, rfl⟩
  · cases h
    exact Or.inr ⟨x, rfl, rfl⟩

namespace Activity

/-- What a worker does that makes a call: none truncates a file, only `create_box` creates one, only
a publisher writes and only `remove_box` unlinks. -/
def Makes (a : Activity) : Tfs.Call → Prop
  | .open path mode => mode.trunc = false ∧
      (mode.creat = true → ∃ pipe box, a = creating pipe box .create ∧ path = some box.name)
  | .close i => a.held = some i
  | .write i _ len => ∃ e text, a = publishing e text (.write i) ∧ len = (payload text).length
  | .read i _ => a.held = some i
  | .unlink path => ∃ pipe box, a = removing pipe box .unlink ∧ path = some box.name

theorem makes_of_tfsCall {c : Tfs.Call} (h : a.tfsCall = some c) : a.Makes c := by
  cases a with
  | creating pipe box s =>
    cases s with
    | test => cases h; exact ⟨rfl, nofun⟩
    | closeExisting fhandle => cases h; rfl
    | create => cases h; exact ⟨rfl, fun _ => ⟨pipe, box, rfl, rfl⟩⟩
    | close fhandle => cases h; rfl
    | takeSlot => cases h
  | removing pipe box s =>
    cases s with
    | test => cases h; exact ⟨rfl, nofun⟩
    | close fhandle => cases h; rfl
    | unlink => cases h; exact ⟨pipe, box, rfl, rfl⟩
    | freeSlot => cases h
  | registering role box s =>
    cases s with
    | test => cases h; exact ⟨rfl, nofun⟩
    | close fhandle => cases h; rfl
    | scan => cases h
  | publishing e text s =>
    cases s with
    | «open» => cases h; exact ⟨rfl, nofun⟩
    | write fhandle => cases h; exact ⟨e, text, rfl, rfl⟩
    | close fhandle written => cases h; rfl
  | polling e bytesProcessed stale clientGone s =>
    cases s with
    | «open» => cases h; exact ⟨rfl, nofun⟩
    | read fhandle count buffer => cases h; rfl
    | close fhandle result => cases h; rfl
  | _ => cases h

/-- Behind a `tfs_unlink` that succeeds, `remove_box` frees the slot. -/
theorem unlinked_of_call {pipe' : PipePath} {box' : BoxName}
    (h : (removing pipe box .unlink).call srv = some (some (removing pipe' box' .freeSlot), srv')) :
    srv.fs.tfsUnlink (some box.name) = .ok (0, srv'.fs) := by
  obtain ⟨_, hr, _⟩ | ⟨_, _, hdone⟩ := behind_cases h
  · obtain ⟨⟨unlinked, fs₁⟩, hunlink, hr⟩ := bind_eq_ok.mp hr
    dsimp only at hr
    split at hr
    · cases hr
    · next hzero =>
      cases hr
      obtain rfl := Decidable.not_not.mp hzero
      exact hunlink
  · cases hdone

end Activity

/-! ### Names -/

/-- A path that exists after a call and not before it is that of the file that it creates. -/
theorem hasPath_of_exec {call : Tfs.Call} {reply : Reply} (wf : fs.WellFormed)
    (hrun : exec fs call = .ok (reply, fs')) (hp : HasPath fs' p) :
    HasPath fs p ∨ ∃ mode k i, call = .open (some p) mode ∧ mode.creat = true ∧
      fs.CanCreate k i p.tail ∧ fs.inodeAlloc.1 = some k := by
  obtain ⟨hv, i, k, he⟩ := hp
  obtain hold | hfree := entryAt_of_exec wf hrun he
  · exact Or.inl ⟨hv, i, k, hold⟩
  have wf' := (performs_of_exec wf hrun).wellFormed wf
  obtain ⟨path, mode, j, hcall, hv', hc, hcan, halloc, _, he'⟩ :=
    taken_of_exec wf hrun hfree (wf'.directory.isFile he).taken
  -- the inode has one name
  obtain rfl := wf'.directory.inumber_inj he he'
  obtain rfl := path_eq_of_tail_eq hv hv' (he.name_unique he')
  exact Or.inr ⟨mode, k, i, hcall, hc, hcan, halloc⟩

/-- A file that `tfs_unlink` has removed is gone. -/
theorem not_hasPath_of_unlink (wf : fs.WellFormed) (h : fs.tfsUnlink (some p) = .ok (0, fs')) :
    ¬ HasPath fs' p := by
  obtain ⟨r, fs₁, heq, hu⟩ := wf.tfsUnlink (some p)
  rw [h] at heq
  cases heq
  cases hu with
  | removed hn _ he =>
    cases hn
    rintro ⟨_, j, k', hj⟩
    obtain ⟨hne, hold⟩ := removedFile_entryAt_iff.mp hj
    exact hne (wf.directory.name_inj hold he)

end MessageBroker.Broker
