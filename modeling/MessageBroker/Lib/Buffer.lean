import MessageBroker.Lib.CString

/-!
# Buffers and loops over them

An object in memory is the list of its elements. An access outside of it is undefined
in C and has the result `none` here, as has every loop that makes one. The lemmas
give the state behind a loop as what was there before its first index, what the loop
has put there, and what it has left alone.
-/

namespace MessageBroker.Buffer

variable {α : Type*}

/-- The assignment `buf[i] = x`. -/
def put (buf : List α) (i : Nat) (x : α) : Option (List α) :=
  if i < buf.length then some (buf.set i x) else none

/-- `for (; i < bound && !stop(*src); i++) buf[i] = *src++`, with the index behind the loop. -/
def copyUntil (stop : α → Bool) (bound : Nat) : List α → Nat → List α → Option (Nat × List α)
  | [], i, buf => if i < bound then none else some (i, buf)
  | c :: src, i, buf =>
    if i < bound ∧ stop c = false then
      (put buf i c).bind fun buf => copyUntil stop bound src (i + 1) buf
    else some (i, buf)

/-- `n` iterations that set `buf[i]` and go on with `i + 1`. -/
def fill (x : α) : Nat → Nat → List α → Option (Nat × List α)
  | 0, i, buf => some (i, buf)
  | n + 1, i, buf => (put buf i x).bind fun buf => fill x n (i + 1) buf

/-- `for (; i < bound; i++) buf[i] = x`, with the index behind the loop. -/
def fillTo (x : α) (bound i : Nat) (buf : List α) : Option (Nat × List α) :=
  fill x (bound - i) i buf

/-- `n` iterations of `buf[i] = src[i + off]`, from `i` on. -/
def copyFrom (src : List α) (off : Nat) : Nat → Nat → List α → Option (List α)
  | 0, _, buf => some buf
  | n + 1, i, buf =>
    (src[i + off]?).bind fun c => (put buf i c).bind fun buf => copyFrom src off n (i + 1) buf

/-- `strlen`: the index of the first terminator in the object. -/
def strlen (buf : List UInt8) : Option Nat := buf.findIdx? (· == 0)

variable {stop : α → Bool} {bound i n off : Nat} {x : α} {text done rest : List α}

theorem put_append (hi : done.length = i) (x old : α) (rest : List α) :
    put (done ++ old :: rest) i x = some (done ++ x :: rest) := by
  subst hi
  have hlt : done.length < (done ++ old :: rest).length := by simp
  rw [put, if_pos hlt, List.set_append_right _ _ le_rfl, Nat.sub_self]
  rfl

/-- The assignment at the end of what is done. -/
theorem put_end (hi : done.length = i) (x : α) (hrest : 0 < rest.length) :
    put (done ++ rest) i x = some (done ++ [x] ++ rest.drop 1) := by
  obtain ⟨old, rest, rfl⟩ := List.exists_cons_of_length_pos hrest
  rw [put_append hi, List.append_assoc]
  rfl

theorem put_of_le {buf : List α} (h : buf.length ≤ i) : put buf i x = none :=
  if_neg (not_lt.mpr h)

/-- The loop copies the text up to its end or up to the bound. -/
theorem copyUntil_append {e : α} (behind : List α) (htext : ∀ c ∈ text, stop c = false)
    (hend : stop e = true) (hi : done.length = i) (hfits : bound ≤ i + rest.length) :
    copyUntil stop bound (text ++ e :: behind) i (done ++ rest) =
      some (i + (text.take (bound - i)).length,
        done ++ text.take (bound - i) ++ rest.drop (text.take (bound - i)).length) := by
  induction text generalizing i done rest with
  | nil =>
    have hstop : ¬ (i < bound ∧ stop e = false) := by
      rintro ⟨_, h⟩
      rw [hend] at h
      cases h
    simp only [List.nil_append, copyUntil, if_neg hstop, List.take_nil, List.length_nil,
      Nat.add_zero, List.append_nil, List.drop_zero]
  | cons c text ih =>
    by_cases hlt : i < bound
    · obtain ⟨old, rest, rfl⟩ : ∃ old rest', rest = old :: rest' :=
        List.exists_cons_of_ne_nil (by rintro rfl; simp at hfits; omega)
      rw [List.cons_append, copyUntil, if_pos ⟨hlt, htext c List.mem_cons_self⟩, put_append hi,
        Option.bind_some]
      -- one byte further, the copied byte belongs to what is there before the loop
      have hnext : done ++ c :: rest = (done ++ [c]) ++ rest := by simp
      rw [hnext, ih (fun b hb => htext b (List.mem_cons_of_mem c hb)) (by simp [hi])
        (by simp at hfits; omega)]
      obtain ⟨k, hk⟩ : ∃ k, bound - i = k + 1 := ⟨bound - i - 1, by omega⟩
      have hk' : bound - (i + 1) = k := by omega
      rw [hk, hk', List.take_succ_cons, List.length_cons, List.drop_succ_cons]
      simp only [List.append_assoc, List.cons_append, List.nil_append]
      congr 2
      omega
    · have hzero : bound - i = 0 := by omega
      rw [List.cons_append, copyUntil, if_neg (fun h => hlt h.1), hzero, List.take_zero]
      simp only [List.length_nil, Nat.add_zero, List.append_nil, List.drop_zero]

theorem fill_append (hi : done.length = i) (hfits : n ≤ rest.length) :
    fill x n i (done ++ rest) = some (i + n, done ++ List.replicate n x ++ rest.drop n) := by
  induction n generalizing i done rest with
  | zero => simp [fill]
  | succ n ih =>
    obtain ⟨old, rest, rfl⟩ : ∃ old rest', rest = old :: rest' :=
      List.exists_cons_of_ne_nil (by rintro rfl; simp at hfits)
    have hnext : done ++ x :: rest = (done ++ [x]) ++ rest := by simp
    rw [fill, put_append hi, Option.bind_some, hnext, ih (by simp [hi]) (by simpa using hfits),
      List.drop_succ_cons, List.replicate_succ]
    simp only [List.append_assoc, List.cons_append, List.nil_append]
    congr 2
    omega

/-- A text copied up to the index `limit`, and the rest of the field up to that index filled: the
two loops by which the programs write a field. -/
theorem copyUntil_fillTo {e : α} {limit : Nat} (behind : List α) (x : α)
    (htext : ∀ c ∈ text, stop c = false) (hend : stop e = true) (hi : done.length = i)
    (hle : i ≤ limit) (hfits : limit + 1 ≤ i + rest.length) :
    ((copyUntil stop limit (text ++ e :: behind) i (done ++ rest)).bind fun (i, buf) =>
        fillTo x (limit + 1) i buf) =
      some (limit + 1, done ++ (text.take (limit - i) ++
        List.replicate (limit + 1 - i - (text.take (limit - i)).length) x) ++
          rest.drop (limit + 1 - i)) := by
  have hcut : (text.take (limit - i)).length ≤ limit - i := List.length_take_le _ _
  rw [copyUntil_append behind htext hend hi (by omega), Option.bind_some]
  generalize text.take (limit - i) = copied at hcut ⊢
  show fill x (limit + 1 - (i + copied.length)) (i + copied.length)
    (done ++ copied ++ rest.drop copied.length) = _
  rw [fill_append (by rw [List.length_append, hi]) (by rw [List.length_drop]; omega)]
  have hcount : limit + 1 - (i + copied.length) = limit + 1 - i - copied.length := by omega
  have hdrop : copied.length + (limit + 1 - i - copied.length) = limit + 1 - i := by omega
  rw [hcount, List.drop_drop, hdrop, List.append_assoc done]
  congr 2
  omega

/-- A shifted copy of a part of another object. -/
theorem copyFrom_append {src : List α} (rest : List α) (hi : done.length = i)
    (hfits : n ≤ rest.length)
    (hsrc : i + off + n ≤ src.length) :
    copyFrom src off n i (done ++ rest) =
      some (done ++ (src.drop (i + off)).take n ++ rest.drop n) := by
  induction n generalizing i done rest with
  | zero => simp [copyFrom]
  | succ n ih =>
    obtain ⟨old, rest, rfl⟩ : ∃ old rest', rest = old :: rest' :=
      List.exists_cons_of_ne_nil (by rintro rfl; simp at hfits)
    have hlt : i + off < src.length := by omega
    rw [copyFrom, List.getElem?_eq_getElem hlt, Option.bind_some, put_append hi, Option.bind_some]
    have hnext : done ++ src[i + off] :: rest = (done ++ [src[i + off]]) ++ rest := by simp
    have hindex : i + 1 + off = i + off + 1 := by omega
    rw [hnext, ih rest (by simp [hi]) (by simpa using hfits) (by omega), hindex,
      List.drop_eq_getElem_cons hlt, List.take_succ_cons, List.drop_succ_cons]
    simp only [List.append_assoc, List.cons_append, List.nil_append]

/-- A copy that is longer than its destination leaves it. -/
theorem copyFrom_of_lt (src : List α) {buf : List α} (off : Nat) (hi : i ≤ buf.length)
    (h : buf.length < i + n) :
    copyFrom src off n i buf = none := by
  induction n generalizing i buf with
  | zero => omega
  | succ n ih =>
    rw [copyFrom]
    cases src[i + off]? with
    | none => rfl
    | some c =>
      rw [Option.bind_some]
      rcases Nat.eq_or_lt_of_le hi with heq | hlt
      · rw [put_of_le heq.ge]
        rfl
      · rw [put, if_pos hlt, Option.bind_some]
        exact ih (by rw [List.length_set]; omega) (by rw [List.length_set]; omega)

/-! ### Strings -/

/-- A string copied to a field and padded with terminators. -/
theorem copyString_fillTo {done : List UInt8} (s : CString) (behind rest : List UInt8)
    (limit : Nat) (hi : done.length = i) (hle : i ≤ limit) (hfits : limit + 1 ≤ i + rest.length) :
    ((copyUntil (· == 0) limit (s.bytes ++ 0 :: behind) i (done ++ rest)).bind fun (i, buf) =>
        fillTo 0 (limit + 1) i buf) =
      some (limit + 1,
        done ++ (s.cut (limit - i)).padTo (limit + 1 - i) ++ rest.drop (limit + 1 - i)) :=
  copyUntil_fillTo behind 0 (by simpa using s.nul_free) (beq_self_eq_true 0) hi hle hfits

/-- The first terminator stands behind the bytes that are not terminators. -/
theorem strlen_eq_some_iff {buf : List UInt8} {k : Nat} :
    strlen buf = some k ↔ ∃ (s : CString) (behind : List UInt8), s.length = k ∧
      buf = s.bytes ++ 0 :: behind := by
  constructor
  · intro h
    obtain ⟨hlt, hzero, hbefore⟩ := List.findIdx?_eq_some_iff_getElem.mp h
    refine ⟨⟨buf.take k, ?_⟩, buf.drop (k + 1), ?_, ?_⟩
    · intro b hb
      obtain ⟨j, hj, rfl⟩ := List.mem_iff_getElem.mp hb
      rw [List.length_take] at hj
      rw [List.getElem_take]
      simpa using hbefore j (by omega)
    · exact List.length_take_of_le hlt.le
    · have h0 : buf[k] = 0 := by simpa using hzero
      have hdrop : 0 :: buf.drop (k + 1) = buf.drop k := by
        rw [List.drop_eq_getElem_cons hlt, h0]
      show buf = buf.take k ++ 0 :: buf.drop (k + 1)
      rw [hdrop, List.take_append_drop]
  · rintro ⟨s, behind, rfl, rfl⟩
    refine List.findIdx?_eq_some_iff_getElem.mpr ⟨by simp [CString.length], ?_, ?_⟩
    · simp [CString.length]
    · intro j hj
      rw [List.getElem_append_left hj]
      simpa using s.nul_free _ (List.getElem_mem hj)

theorem strlen_append_zero (s : CString) (behind : List UInt8) :
    strlen (s.bytes ++ 0 :: behind) = some s.length :=
  strlen_eq_some_iff.mpr ⟨s, behind, rfl, rfl⟩

theorem strlen_eq_none_iff {buf : List UInt8} : strlen buf = none ↔ 0 ∉ buf := by
  rw [strlen, List.findIdx?_eq_none_iff]
  constructor
  · intro h h0
    simpa using h 0 h0
  · intro h b hb
    simp only [beq_eq_false_iff_ne]
    rintro rfl
    exact h hb

/-- Bytes behind a terminator do not matter. -/
theorem strlen_append {buf : List UInt8} {k : Nat} (h : strlen buf = some k)
    (behind : List UInt8) : strlen (buf ++ behind) = some k := by
  obtain ⟨s, rest, rfl, rfl⟩ := strlen_eq_some_iff.mp h
  rw [List.append_assoc, List.cons_append, strlen_append_zero]

/-- A terminator that is found in front of the bytes behind an object is one of the object. -/
theorem strlen_of_append {buf behind : List UInt8} {k : Nat}
    (h : strlen (buf ++ behind) = some k) (hlt : k < buf.length) : strlen buf = some k := by
  cases hbuf : strlen buf with
  | some j => exact (strlen_append hbuf behind).symm.trans h
  | none =>
    obtain ⟨s, rest, rfl, heq⟩ := strlen_eq_some_iff.mp h
    have hzero : buf[s.length]? = some 0 := by
      rw [← List.getElem?_append_left hlt, heq, CString.length,
        List.getElem?_append_right le_rfl, Nat.sub_self]
      rfl
    exact absurd (List.mem_of_getElem? hzero) (strlen_eq_none_iff.mp hbuf)

end MessageBroker.Buffer
