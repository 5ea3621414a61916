import MessageBroker.Clients.Message

/-!
# The input of a publisher

`fgets` takes the next line from the standard input, but not more of it than fits in
`buffer_input`, and `create_message` takes from that what stands before a newline or a
terminator. The messages of a publisher are therefore a function of the bytes of its
input, however they are read.
-/

namespace MessageBroker.Clients.Publisher

open Buffer

def newline : UInt8 := '\n'.toUInt8

/-- The loop of `fgets`: at most `n` bytes, up to a newline; the bytes and what is left. -/
def fgetsLoop : Nat → List UInt8 → List UInt8 × List UInt8
  | 0, stdin => ([], stdin)
  | _ + 1, [] => ([], [])
  | n + 1, c :: stdin =>
    if c = newline then ([c], stdin)
    else
      let (line, rest) := fgetsLoop n stdin
      (c :: line, rest)

/-- `fgets(buffer_input, size, stdin)`; `none` at the end of the input. -/
def fgets (size : Nat) (stdin : List UInt8) : Option (List UInt8 × List UInt8) :=
  if stdin = [] then none else some (fgetsLoop (size - 1) stdin)

/-- The lines that `fgets` returns one after the other, when `line` was read of the first one. -/
def linesFrom (limit : Nat) : List UInt8 → List UInt8 → List (List UInt8)
  | [], [] => []
  | line, [] => [line]
  | line, c :: stdin =>
    if c = newline ∨ line.length + 1 = limit then (line ++ [c]) :: linesFrom limit [] stdin
    else linesFrom limit (line ++ [c]) stdin

def inputLines (stdin : List UInt8) : List (List UInt8) := linesFrom (pSMessageSize - 1) [] stdin

/-- `create_message` of `pub.c` on the array `buffer_input`. -/
def createMessageFrom (bufferInput : List UInt8) : List UInt8 → Option (List UInt8) :=
  writeMessage '0'.toUInt8 '9'.toUInt8 (fun c => c == '\n'.toUInt8 || c == 0) (pSMessageSize + 1)
    bufferInput

/-- The text of the message that is made of a line. -/
def lineMessage (line : List UInt8) : CString :=
  ⟨lineBytes (.ofBuffer line), fun _ hc => lineBytes_ne_zero hc⟩

/-- The texts of the messages that a publisher sends. -/
def inputMessages (stdin : List UInt8) : List CString := (inputLines stdin).map lineMessage

variable {stdin rest line : List UInt8} {limit : Nat}

/-! ### Lines -/

theorem linesFrom_nil (limit : Nat) (h : line ≠ []) : linesFrom limit line [] = [line] := by
  cases line with
  | nil => exact absurd rfl h
  | cons c line => rfl

theorem linesFrom_cons (limit : Nat) (line : List UInt8) (c : UInt8) (stdin : List UInt8) :
    linesFrom limit line (c :: stdin) =
      if c = newline ∨ line.length + 1 = limit then (line ++ [c]) :: linesFrom limit [] stdin
      else linesFrom limit (line ++ [c]) stdin := by
  cases line <;> rfl

/-- One call completes the line that was begun. -/
theorem linesFrom_fgetsLoop (hlen : line.length < limit) (hne : line ≠ [] ∨ stdin ≠ []) :
    linesFrom limit line stdin =
      (line ++ (fgetsLoop (limit - line.length) stdin).1) ::
        linesFrom limit [] (fgetsLoop (limit - line.length) stdin).2 := by
  induction stdin generalizing line with
  | nil =>
    have hline : line ≠ [] := by simpa using hne
    obtain ⟨n, hn⟩ : ∃ n, limit - line.length = n + 1 := ⟨limit - line.length - 1, by omega⟩
    rw [linesFrom_nil limit hline, hn, fgetsLoop, List.append_nil]
    rfl
  | cons c stdin ih =>
    obtain ⟨n, hn⟩ : ∃ n, limit - line.length = n + 1 := ⟨limit - line.length - 1, by omega⟩
    rw [linesFrom_cons, hn, fgetsLoop]
    by_cases hc : c = newline
    · rw [if_pos (Or.inl hc), if_pos hc]
    · rw [if_neg hc]
      by_cases hlast : line.length + 1 = limit
      · -- the buffer is full behind `c`
        obtain rfl : n = 0 := by omega
        rw [if_pos (Or.inr hlast)]
        rfl
      · have hlen' : (line ++ [c]).length < limit := by
          rw [List.length_append, List.length_singleton]
          omega
        have hn' : limit - (line ++ [c]).length = n := by
          rw [List.length_append, List.length_singleton]
          omega
        have hrest := ih hlen' (Or.inl (List.concat_ne_nil _ _))
        rw [hn', List.append_assoc] at hrest
        rw [if_neg (not_or.mpr ⟨hc, hlast⟩), hrest]
        rfl

/-- Each call of `fgets` returns the next line of the input. -/
theorem inputLines_fgets (h : fgets pSMessageSize stdin = some (line, rest)) :
    inputLines stdin = line :: inputLines rest := by
  obtain ⟨hne, heq⟩ := Option.ite_none_left_eq_some.mp h
  have hlen : ([] : List UInt8).length < pSMessageSize - 1 := by decide
  have hstep := linesFrom_fgetsLoop hlen (Or.inr hne)
  rw [List.length_nil, Nat.sub_zero, Option.some.inj heq] at hstep
  exact hstep

theorem inputMessages_fgets (h : fgets pSMessageSize stdin = some (line, rest)) :
    inputMessages stdin = lineMessage line :: inputMessages rest := by
  rw [inputMessages, inputLines_fgets h]
  rfl

/-- Lines that fit are read one by one. -/
theorem inputLines_cons (hfree : ∀ c ∈ line, c ≠ newline) (hfits : line.length + 1 < pSMessageSize)
    (stdin : List UInt8) :
    inputLines (line ++ newline :: stdin) = (line ++ [newline]) :: inputLines stdin := by
  have hloop : ∀ n (line : List UInt8), (∀ c ∈ line, c ≠ newline) → line.length < n →
      fgetsLoop n (line ++ newline :: stdin) = (line ++ [newline], stdin) := by
    intro n line hfree hlt
    induction line generalizing n with
    | nil =>
      obtain ⟨n, rfl⟩ : ∃ k, n = k + 1 := ⟨n - 1, by omega⟩
      rw [List.nil_append, fgetsLoop, if_pos rfl]
      rfl
    | cons c line ih =>
      obtain ⟨n, rfl⟩ : ∃ k, n = k + 1 := ⟨n - 1, by omega⟩
      rw [List.cons_append, fgetsLoop, if_neg (hfree c List.mem_cons_self),
        ih n (fun b hb => hfree b (List.mem_cons_of_mem c hb)) (by simpa using hlt)]
      rfl
  have hne : line ++ newline :: stdin ≠ [] := by simp
  apply inputLines_fgets
  rw [fgets, if_neg hne, hloop _ _ hfree (by omega)]

/-! ### Messages -/

/-- A copy that has ended does not depend on what stands behind its source. -/
theorem copyUntil_append_right {α : Type*} {stop : α → Bool} {bound i : Nat} {src buf : List α}
    {r : Nat × List α} (h : copyUntil stop bound src i buf = some r) (more : List α) :
    copyUntil stop bound (src ++ more) i buf = some r := by
  induction src generalizing i buf with
  | nil =>
    obtain ⟨hle, heq⟩ := Option.ite_none_left_eq_some.mp h
    cases more with
    | nil => exact h
    | cons c more =>
      rw [List.nil_append, copyUntil, if_neg (fun hc => hle hc.1)]
      exact heq
  | cons c src ih =>
    rw [copyUntil] at h
    rw [List.cons_append, copyUntil]
    split
    · rename_i hc
      rw [if_pos hc] at h
      obtain ⟨buf', hput, hrest⟩ := Option.bind_eq_some_iff.mp h
      rw [hput, Option.bind_some]
      exact ih hrest
    · rename_i hc
      rwa [if_neg hc] at h

theorem writeMessage_append_right {a b : UInt8} {stop : UInt8 → Bool} {limit : Nat}
    {message buffer r : List UInt8} (h : writeMessage a b stop limit message buffer = some r)
    (more : List UInt8) : writeMessage a b stop limit (message ++ more) buffer = some r := by
  simp only [writeMessage, Option.bind_eq_bind, Option.bind_eq_some_iff] at h ⊢
  obtain ⟨buf₀, h₀, buf₁, h₁, buf₂, h₂, filled, ⟨copied, hcopy, hfill⟩, hr⟩ := h
  exact ⟨buf₀, h₀, buf₁, h₁, buf₂, h₂, filled,
    ⟨copied, copyUntil_append_right hcopy more, hfill⟩, hr⟩

/-- A buffer with a terminator begins with its string. -/
theorem exists_terminated (line behind : List UInt8) :
    ∃ more, line ++ 0 :: behind = (CString.ofBuffer line).terminated ++ more := by
  induction line with
  | nil => exact ⟨behind, rfl⟩
  | cons c line ih =>
    by_cases hc : c = 0
    · subst hc
      exact ⟨line ++ 0 :: behind, rfl⟩
    · obtain ⟨more, hmore⟩ := ih
      refine ⟨more, ?_⟩
      have hstring : (CString.ofBuffer (c :: line)).bytes = c :: (CString.ofBuffer line).bytes := by
        simp [CString.ofBuffer, hc]
      rw [List.cons_append, hmore, CString.terminated, CString.terminated, hstring]
      rfl

/-- `create_message` on `buffer_input`, whatever stands behind the line in it. -/
theorem createMessage_line (line behind : List UInt8) {buffer : List UInt8}
    (hlen : buffer.length = pSMessageSize + 3) :
    ∃ stale, createMessageFrom (line ++ 0 :: behind) buffer =
      some (createMessage (.ofBuffer line) stale) := by
  obtain ⟨stale, hmessage⟩ := createMessageIn_eq (.ofBuffer line) hlen
  obtain ⟨more, hmore⟩ := exists_terminated line behind
  refine ⟨stale, ?_⟩
  rw [hmore]
  exact writeMessage_append_right hmessage more

/-- A line without a terminator and with its newline is sent without the newline. -/
theorem lineMessage_eq {m : CString} (hfree : ∀ c ∈ m.bytes, c ≠ newline)
    (hfits : m.length + 1 < pSMessageSize) : lineMessage (m.bytes ++ [newline]) = m := by
  have hzero : newline ≠ 0 := by decide
  have hwhole : (m.bytes ++ [newline]).takeWhile (· ≠ (0 : UInt8)) = m.bytes ++ [newline] := by
    rw [List.takeWhile_eq_self_iff]
    intro c hc
    obtain hc | hc := List.mem_append.mp hc
    · exact decide_eq_true (m.nul_free c hc)
    · rw [List.mem_singleton.mp hc]
      exact decide_eq_true hzero
  have hline : (m.bytes ++ [newline]).takeWhile (· ≠ '\n'.toUInt8) = m.bytes := by
    have hpos : ∀ c ∈ m.bytes, decide (c ≠ '\n'.toUInt8) = true :=
      fun c hc => decide_eq_true (hfree c hc)
    rw [List.takeWhile_append_of_pos hpos]
    show m.bytes ++ List.takeWhile _ [newline] = _
    rw [List.takeWhile_cons_of_neg (by decide), List.append_nil]
  apply CString.ext
  show (((m.bytes ++ [newline]).takeWhile (· ≠ (0 : UInt8))).takeWhile (· ≠ '\n'.toUInt8)).take _ =
    m.bytes
  rw [hwhole, hline]
  apply List.take_of_length_le
  rw [CString.length, pSMessageSize] at *
  omega

end MessageBroker.Clients.Publisher
