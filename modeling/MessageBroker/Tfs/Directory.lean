import MessageBroker.Tfs.Operations

/-!
# The root directory

The entries of the root directory are bytes of block `0`. `EntryAt` reads such an
entry back as a name and an inode number, and the lemmas say what filling and
clearing one entry does to it and to all the others.
-/

namespace MessageBroker.Tfs

open Bytes Table Transition

namespace Fs

/-- Entry `i` of the root directory is in use for the file `name` of inode `k`. -/
structure EntryAt (fs : Fs) (i : Nat) (name : CString) (k : Nat) : Prop where
  index : i < fs.maxDirEntries
  nonempty : 0 < name.length
  short : name.length < maxFileName
  inumber : fs.dInumber 0 i = k
  holds : HoldsString fs.fsData (dirEntry 0 i) name

/-- The memory after an entry of block `0` is filled. -/
def fillEntry (mem : Memory) (i : Nat) (name : CString) (k : Nat) : Memory :=
  store (storeInt mem (dInumberAddr 0 i) k) (dirEntry 0 i) (name.padTo (maxFileName - 1) ++ [0])

/-- The memory after an entry of block `0` is cleared. -/
def clearEntry (mem : Memory) (i : Nat) : Memory :=
  store (storeInt mem (dInumberAddr 0 i) (-1)) (dirEntry 0 i) (List.replicate maxFileName 0)

/-- Two memories hold the same bytes in entry `i` of block `0`. -/
def SameEntry (m m' : Memory) (i : Nat) : Prop :=
  ∀ a, i * sizeofDirEntry ≤ a → a < (i + 1) * sizeofDirEntry → m a = m' a

variable {fs fs' : Fs} {m m' : Memory} {i j k : Nat} {name : CString}

theorem SameEntry.symm (h : SameEntry m m' i) : SameEntry m' m i :=
  fun a ha ha' => (h a ha ha').symm

theorem SameEntry.loadInt_eq (h : SameEntry m m' i) :
    loadInt m (dInumberAddr 0 i) = loadInt m' (dInumberAddr 0 i) := by
  apply loadInt_congr
  intro j hj
  apply h <;> simp only [dInumberAddr, dirEntry, sizeofDirEntry, maxFileName] <;> omega

theorem SameEntry.holdsString (h : SameEntry m m' i) (hn : name.length < maxFileName)
    (hs : HoldsString m (dirEntry 0 i) name) : HoldsString m' (dirEntry 0 i) name := by
  apply hs.congr
  intro j hj
  simp only [maxFileName] at hn
  apply h <;> simp only [dirEntry, sizeofDirEntry, maxFileName] <;> omega

theorem EntryAt.congr (h : fs.EntryAt i name k) (hp : fs'.fsParams = fs.fsParams)
    (hm : SameEntry fs.fsData fs'.fsData i) : fs'.EntryAt i name k where
  index := by
    have := h.index
    simpa only [maxDirEntries, blockSize, hp] using this
  nonempty := h.nonempty
  short := h.short
  inumber := hm.loadInt_eq.symm.trans h.inumber
  holds := hm.holdsString h.short h.holds

theorem EntryAt.name_unique {name' : CString} {k' : Nat} (h : fs.EntryAt i name k)
    (h' : fs.EntryAt i name' k') : name = name' := h.holds.unique h'.holds

theorem EntryAt.inumber_unique {name' : CString} {k' : Nat} (h : fs.EntryAt i name k)
    (h' : fs.EntryAt i name' k') : k = k' := by
  have := h.inumber.symm.trans h'.inumber
  exact_mod_cast this

theorem EntryAt.inumber_ne (h : fs.EntryAt i name k) : fs.dInumber 0 i ≠ -1 := by
  rw [h.inumber]
  omega

/-- A block of bytes stored outside an entry leaves the entry alone. -/
theorem sameEntry_store {addr : Nat} {bs : List UInt8}
    (h : (i + 1) * sizeofDirEntry ≤ addr ∨ addr + bs.length ≤ i * sizeofDirEntry) :
    SameEntry (store m addr bs) m i := by
  intro a ha ha'
  rcases h with h | h
  · exact store_of_lt (by omega)
  · exact store_of_ge (by omega)

theorem length_nameField (h : name.length < maxFileName) :
    (name.padTo (maxFileName - 1) ++ [0]).length = maxFileName := by
  rw [List.length_append, CString.length_padTo (by omega)]
  rfl

theorem length_zeroField : (List.replicate maxFileName (0 : UInt8)).length = maxFileName :=
  List.length_replicate

/-- Rewriting one entry, its number and then its name field, leaves the others alone. -/
theorem sameEntry_rewrite {bs : List UInt8} (v : Int) (hbs : bs.length = maxFileName)
    (hij : i ≠ j) :
    SameEntry (store (storeInt m (dInumberAddr 0 j) v) (dirEntry 0 j) bs) m i := by
  have hsep : (i + 1) * sizeofDirEntry ≤ j * sizeofDirEntry ∨
      (j + 1) * sizeofDirEntry ≤ i * sizeofDirEntry := by
    rcases Nat.lt_or_gt_of_ne hij with h | h
    · exact Or.inl (Nat.mul_le_mul_right _ h)
    · exact Or.inr (Nat.mul_le_mul_right _ h)
  intro a ha ha'
  have hname : SameEntry (store (storeInt m (dInumberAddr 0 j) v) (dirEntry 0 j) bs)
      (storeInt m (dInumberAddr 0 j) v) i := by
    apply sameEntry_store
    rw [hbs]
    simp only [dirEntry, sizeofDirEntry, maxFileName] at hsep ⊢
    omega
  have hnum : SameEntry (storeInt m (dInumberAddr 0 j) v) m i := by
    apply sameEntry_store
    rw [length_int32Bytes]
    simp only [dInumberAddr, dirEntry, sizeofDirEntry, maxFileName] at hsep ⊢
    omega
  exact (hname a ha ha').trans (hnum a ha ha')

/-- The number written with a name field is the number read back. -/
theorem loadInt_rewrite {bs : List UInt8} {v : Int} (hbs : bs.length = maxFileName)
    (h : -2 ^ 31 ≤ v) (h' : v < 2 ^ 31) :
    loadInt (store (storeInt m (dInumberAddr 0 j) v) (dirEntry 0 j) bs) (dInumberAddr 0 j) = v := by
  have hkeep : ∀ i < 4, store (storeInt m (dInumberAddr 0 j) v) (dirEntry 0 j) bs
      (dInumberAddr 0 j + i) = storeInt m (dInumberAddr 0 j) v (dInumberAddr 0 j + i) := by
    intro i _
    apply store_of_ge
    rw [hbs, dInumberAddr]
    omega
  exact (loadInt_congr hkeep).trans (loadInt_storeInt m _ h h')

theorem holdsString_fillEntry :
    HoldsString (fillEntry m i name k) (dirEntry 0 i) name := by
  have hsplit : name.padTo (maxFileName - 1) ++ [0] =
      name.bytes ++ 0 :: List.replicate (maxFileName - 1 - name.length) 0 := by
    rw [CString.padTo, List.append_assoc, ← List.replicate_succ', List.replicate_succ]
  rw [fillEntry, hsplit]
  exact holdsString_store _ _ _ _

theorem holdsString_clearEntry : HoldsString (clearEntry m i) (dirEntry 0 i) CString.empty := by
  have hsplit : List.replicate maxFileName (0 : UInt8) =
      CString.empty.bytes ++ 0 :: List.replicate (maxFileName - 1) 0 := rfl
  rw [clearEntry, hsplit]
  exact holdsString_store _ _ _ _

theorem sameEntry_fillEntry (h : name.length < maxFileName) (hij : i ≠ j) :
    SameEntry (fillEntry m j name k) m i := sameEntry_rewrite _ (length_nameField h) hij

theorem sameEntry_clearEntry (hij : i ≠ j) : SameEntry (clearEntry m j) m i :=
  sameEntry_rewrite _ length_zeroField hij

theorem loadInt_fillEntry (h : name.length < maxFileName) (hk : k ≤ intMax) :
    loadInt (fillEntry m i name k) (dInumberAddr 0 i) = k := by
  simp only [intMax] at hk
  exact loadInt_rewrite (length_nameField h) (by omega) (by omega)

theorem loadInt_clearEntry : loadInt (clearEntry m i) (dInumberAddr 0 i) = -1 :=
  loadInt_rewrite length_zeroField (by omega) (by omega)

/-- Filling and clearing entries changes no byte outside them. -/
theorem rewrite_apply_of_ge {bs : List UInt8} {v : Int} {a : Nat} (hbs : bs.length = maxFileName)
    (h : (j + 1) * sizeofDirEntry ≤ a) :
    store (storeInt m (dInumberAddr 0 j) v) (dirEntry 0 j) bs a = m a := by
  simp only [sizeofDirEntry, maxFileName] at h hbs
  rw [store_of_ge (by rw [hbs, dirEntry, sizeofDirEntry, maxFileName]; omega), storeInt,
    store_of_ge (by
      rw [length_int32Bytes, dInumberAddr, dirEntry, sizeofDirEntry, maxFileName]; omega)]

/-- The end of the last directory entry is inside block `0`. -/
theorem entry_end_le (h : i < fs.maxDirEntries) : (i + 1) * sizeofDirEntry ≤ fs.blockSize :=
  (Nat.mul_le_mul_right _ h).trans (Nat.div_mul_le_self _ _)

end Fs

end MessageBroker.Tfs
