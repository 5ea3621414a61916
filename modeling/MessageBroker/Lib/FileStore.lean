import MessageBroker.Lib.Bytes
import MessageBroker.Lib.Table

/-!
# A plain file store

The abstract component: a finite set of names, the contents of each name, and a
table of handles filled at the lowest free index. A store has limits on the number
of files, of non-empty files and of handles, and on the size of a file.
-/

namespace MessageBroker

open Bytes Table

structure Limits where
  files : Nat
  nonempty : Nat
  handles : Nat
  size : Nat

/-- The type of names is `ν`. A handle is a name and an offset. -/
structure FileStore (ν : Type*) where
  names : Finset ν
  contents : ν → List UInt8
  handles : Nat → Option (ν × Nat)

namespace FileStore

variable {ν : Type*}

def empty : FileStore ν := ⟨∅, fun _ => [], fun _ => none⟩

/-- The names of the files that are not empty. -/
def nonempty (st : FileStore ν) : Finset ν := st.names.filter fun n => 0 < (st.contents n).length

def setContents [DecidableEq ν] (st : FileStore ν) (n : ν) (bs : List UInt8) : FileStore ν :=
  { st with contents := Function.update st.contents n bs }

def setHandle (st : FileStore ν) (h : Nat) (entry : Option (ν × Nat)) : FileStore ν :=
  { st with handles := Function.update st.handles h entry }

def create [DecidableEq ν] (st : FileStore ν) (n : ν) : FileStore ν :=
  { st with names := insert n st.names, contents := Function.update st.contents n [] }

def remove [DecidableEq ν] (st : FileStore ν) (n : ν) : FileStore ν :=
  { st with names := st.names.erase n }

/-- Take the lowest free handle; the result is `-1` when there is none. -/
def openHandle (lim : Limits) (st : FileStore ν) (n : ν) (offset : Nat) : Int × FileStore ν :=
  match firstIndex (fun h => (st.handles h).isNone) lim.handles with
  | some h => (h, st.setHandle h (some (n, offset)))
  | none => (-1, st)

/-- The index and the entry of an open handle. -/
def handle (lim : Limits) (st : FileStore ν) (fhandle : Int) : Option (Nat × ν × Nat) :=
  if 0 ≤ fhandle ∧ fhandle < lim.handles then
    (st.handles fhandle.toNat).map fun entry => (fhandle.toNat, entry)
  else none

def close (lim : Limits) (st : FileStore ν) (fhandle : Int) : Int × FileStore ν :=
  match st.handle lim fhandle with
  | none => (-1, st)
  | some (h, _) => (0, st.setHandle h none)

/-- Splice the bytes, cut at the size limit, into the file at the offset. -/
def write [DecidableEq ν] (lim : Limits) (st : FileStore ν) (fhandle : Int) (bytes : List UInt8) :
    Int × FileStore ν :=
  match st.handle lim fhandle with
  | none => (-1, st)
  | some (h, n, offset) =>
    let data := bytes.take (lim.size - offset)
    if data.length = 0 then (0, st)
    else if (st.contents n).length = 0 ∧ lim.nonempty ≤ st.nonempty.card then (-1, st)
    else (data.length,
      (st.setContents n (splice (st.contents n) offset data)).setHandle h
        (some (n, offset + data.length)))

def read (lim : Limits) (st : FileStore ν) (fhandle : Int) (len : Nat) :
    (Int × List UInt8) × FileStore ν :=
  match st.handle lim fhandle with
  | none => ((-1, []), st)
  | some (h, n, offset) =>
    let data := ((st.contents n).drop offset).take len
    ((data.length, data), st.setHandle h (some (n, offset + data.length)))

/-- Some handle on the file is open. -/
def InUse (st : FileStore ν) (n : ν) : Prop := ∃ h offset, st.handles h = some (n, offset)

variable {st : FileStore ν} {n m : ν} {h : Nat} {entry : Option (ν × Nat)} {bs : List UInt8}

theorem mem_nonempty : n ∈ st.nonempty ↔ n ∈ st.names ∧ 0 < (st.contents n).length := by
  simp [nonempty]

theorem setHandle_self (hh : st.handles h = entry) : st.setHandle h entry = st := by
  cases st
  subst hh
  simp [setHandle]

theorem handle_eq_some {lim : Limits} {offset : Nat} (hlt : h < lim.handles)
    (hh : st.handles h = some (n, offset)) : st.handle lim h = some (h, n, offset) := by
  have hv : (0 : Int) ≤ h ∧ (h : Int) < lim.handles := ⟨by omega, by exact_mod_cast hlt⟩
  simp [handle, hv, hh]

theorem handle_eq_none {lim : Limits} {fhandle : Int}
    (hnone : ∀ h : Nat, fhandle = h → h < lim.handles → st.handles h = none) :
    st.handle lim fhandle = none := by
  unfold handle
  split
  · next hv =>
    have hlt : fhandle.toNat < lim.handles := by omega
    rw [hnone fhandle.toNat (by omega) hlt]
    rfl
  · rfl

theorem openHandle_slot {lim : Limits} {offset : Nat} (hlt : h < lim.handles)
    (hfree : st.handles h = none) (hlow : ∀ h' < h, st.handles h' ≠ none) :
    st.openHandle lim n offset = ((h : Int), st.setHandle h (some (n, offset))) := by
  have hfirst : firstIndex (fun h => (st.handles h).isNone) lim.handles = some h := by
    refine firstIndex_eq_some.mpr ⟨by rw [hfree]; rfl, hlt, ?_⟩
    intro h' hh
    simpa using Option.isSome_iff_ne_none.mpr (hlow h' hh)
  simp only [openHandle, hfirst]

theorem openHandle_full {lim : Limits} {offset : Nat}
    (hfull : ∀ h < lim.handles, st.handles h ≠ none) :
    st.openHandle lim n offset = (-1, st) := by
  have hfirst : firstIndex (fun h => (st.handles h).isNone) lim.handles = none := by
    apply firstIndex_eq_none.mpr
    intro h hlt
    simpa using Option.isSome_iff_ne_none.mpr (hfull h hlt)
  simp only [openHandle, hfirst]

end FileStore

end MessageBroker
