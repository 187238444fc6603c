import ThriftModules.Script.Statement
import ThriftModules.Text.Utf8

/-!
# The scan by byte offsets

The top-level statements of a script, read from the bytes of its encoding: the scan steps from byte to byte, jumps over
literals and comments, and slices the script at byte offsets. Every byte that is read and every slice is checked.

* `Fault` : an access out of range, or a slice that does not stand on characters;
* `byteAt`, `bytesFrom`, `slice` : the three kinds of access;
* `lineCommentEnd`, `blockCommentEnd`, `literalEnd` : where the scan goes on behind a comment or a literal;
* `step`, `run` : the scan, from one offset to the next (`offset_lt_of_step`);
* `statements` : the trimmed statements, or the fault that stops the scan.
-/

namespace ThriftModules.Script.ByteScan

set_option autoImplicit false

/-! ## Checked access -/

/-- An access that stops the scan. -/
inductive Fault where
  /-- A byte behind the last one. -/
  | byte (offset : Nat)
  /-- The bytes from an offset behind the end. -/
  | bytesFrom (offset : Nat)
  /-- A slice whose ends are out of order, behind the end of the text, or inside a character. -/
  | slice (start stop : Nat)
deriving DecidableEq, Repr

def byteAt (bytes : List UInt8) (offset : Nat) : Except Fault UInt8 :=
  match bytes[offset]? with
  | some b => .ok b
  | none => .error (.byte offset)

def bytesFrom (bytes : List UInt8) (offset : Nat) : Except Fault (List UInt8) :=
  if offset ≤ bytes.length then .ok (bytes.drop offset) else .error (.bytesFrom offset)

/-- A text in front of a byte offset and behind it, if a character starts there or the text ends there. -/
def splitAt? : Text → Nat → Option (Text × Text)
  | t, 0 => some ([], t)
  | [], _ + 1 => none
  | c :: t, n + 1 =>
    if c.utf8Size ≤ n + 1 then (splitAt? t (n + 1 - c.utf8Size)).map fun s => (c :: s.1, s.2) else none

def slice (t : Text) (start stop : Nat) : Except Fault Text :=
  match (splitAt? t stop).bind fun s => splitAt? s.1 start with
  | some s => .ok s.2
  | none => .error (.slice start stop)

/-! ## Jumps -/

/-- The offset of the line feed behind a line comment, or the end. -/
def lineCommentEnd (bytes : List UInt8) (start : Nat) : Except Fault Nat := do
  let rest ← bytesFrom bytes start
  return match rest.findIdx? (· == '\n'.toUInt8) with
    | some k => start + k
    | none => bytes.length

/-- The first of the windows of two bytes that holds the marker which closes a comment. -/
def closing? (bytes : List UInt8) : Option Nat :=
  (bytes.zip bytes.tail).findIdx? (· == ('*'.toUInt8, '/'.toUInt8))

/-- The offset behind the marker that closes a comment, or the end. -/
def blockCommentEnd (bytes : List UInt8) (start : Nat) : Except Fault Nat := do
  let rest ← bytesFrom bytes (start + 2)
  return match closing? rest with
    | some k => start + 2 + k + 2
    | none => bytes.length

/-- The offset behind a literal that closes at `quote`, of which the bytes from `offset` on are left. A backslash skips
the byte behind it, which may be the first of several that encode a character. -/
def literalEndFrom (bytes : List UInt8) (quote : UInt8) (offset : Nat) : Except Fault Nat :=
  if _h : offset < bytes.length then do
    let b ← byteAt bytes offset
    if b = '\\'.toUInt8 then literalEndFrom bytes quote (offset + 2)
    else if b = quote then return offset + 1
    else if b = '\n'.toUInt8 ∧ quote ≠ Text.backtick.toUInt8 then return offset
    else literalEndFrom bytes quote (offset + 1)
  else return bytes.length
termination_by bytes.length - offset

/-- The offset behind the literal that starts at an offset. -/
def literalEnd (bytes : List UInt8) (start : Nat) : Except Fault Nat := do
  let quote ← byteAt bytes start
  literalEndFrom bytes quote (start + 1)

/-! ## The scan -/

/-- Whether a closing brace at depth zero ends its statement in front of the offset. -/
def endsBlockAt (script : Text) (after : Nat) : Except Fault Bool := do
  let behind ← slice script after (Text.byteLength script)
  let rest := Text.trimStart behind
  match rest with
  | [] => return true
  | c :: _ =>
    if isContinuation c then return false
    else
      let word ← slice rest 0 (Text.byteLength (rest.takeWhile Text.isIdentChar))
      return !continuationWords.contains word

structure State where
  /-- The offset of the next byte. -/
  offset : Nat
  depth : Nat
  /-- The offset of the statement being read, if one has started. -/
  start : Option Nat
  /-- The statements read so far. -/
  statements : List Text
deriving DecidableEq, Repr

namespace State

/-- The state with a statement open, from the offset on if none was. -/
def opened (s : State) : State := { s with start := some (s.start.getD s.offset) }

/-- The state with the open statement, if there is one, read up to an offset. -/
def push (s : State) (script : Text) (stop : Nat) : Except Fault State :=
  match s.start with
  | none => return s
  | some start => do
    let text ← slice script start stop
    let trimmed := Text.trim text
    return { s with start := none, statements := if trimmed = [] then s.statements else s.statements ++ [trimmed] }

end State

/-- One byte of code, without the step to the next one. -/
def stepCode (script : Text) (s : State) (c : Char) : Except Fault State := do
  if isOpening c then return { s.opened with depth := s.depth + 1 }
  else if isClosing c then
    let closed := { s with depth := s.depth - 1 }
    if c = '}' ∧ closed.depth = 0 then
      if ← endsBlockAt script (s.offset + 1) then closed.push script (s.offset + 1) else return closed
    else return closed
  else if c = ';' ∧ s.depth = 0 then s.push script s.offset
  else if Text.isAsciiBlank c then return s
  else return s.opened

/-- One step of the scan: a byte of code, a literal or a comment. -/
def step (script : Text) (bytes : List UInt8) (s : State) : Except Fault State := do
  let b ← byteAt bytes s.offset
  if b = '/'.toUInt8 ∧ bytes[s.offset + 1]? = some '/'.toUInt8 then
    let stop ← lineCommentEnd bytes s.offset
    return { s with offset := stop }
  else if b = '/'.toUInt8 ∧ bytes[s.offset + 1]? = some '*'.toUInt8 then
    let stop ← blockCommentEnd bytes s.offset
    return { s with offset := stop }
  else if Text.isQuote (Char.ofUInt8 b) then
    let stop ← literalEnd bytes s.offset
    return { s.opened with offset := stop }
  else
    let next ← stepCode script s (Char.ofUInt8 b)
    return { next with offset := s.offset + 1 }

/-! ### Progress -/

section
variable {script : Text} {bytes : List UInt8} {i j : Nat} {b : UInt8}

theorem byteAt_eq_ok : byteAt bytes i = .ok b ↔ bytes[i]? = some b := by
  cases h : bytes[i]? <;> simp [byteAt, h]

theorem bytesFrom_of_le (h : i ≤ bytes.length) : bytesFrom bytes i = .ok (bytes.drop i) := if_pos h

theorem lt_lineCommentEnd (hb : bytes[i]? = some '/'.toUInt8) (h : lineCommentEnd bytes i = .ok j) : i < j := by
  obtain ⟨hi, hslash⟩ := List.getElem?_eq_some_iff.1 hb
  rw [lineCommentEnd, bytesFrom_of_le (Nat.le_of_lt hi)] at h
  simp only [bind, Except.bind] at h
  split at h
  · next k hk =>
    cases h
    -- the line feed is not the slash at the start
    have hne : k ≠ 0 := by
      rintro rfl
      obtain ⟨_, hfeed, -⟩ := List.findIdx?_eq_some_iff_getElem.1 hk
      simp only [List.getElem_drop, Nat.add_zero, hslash] at hfeed
      exact absurd hfeed (by decide)
    omega
  · cases h
    exact hi

theorem lt_blockCommentEnd (hi : i < bytes.length) (h : blockCommentEnd bytes i = .ok j) : i < j := by
  rw [blockCommentEnd, bytesFrom] at h
  split at h
  · simp only [bind, Except.bind] at h
    split at h <;> cases h <;> omega
  · cases h

theorem le_literalEndFrom {quote : UInt8} (h : literalEndFrom bytes quote i = .ok j) : i ≤ j ∨ j = bytes.length := by
  fun_induction literalEndFrom bytes quote i with
  | case1 i hi ih2 ih1 =>
    rw [byteAt_eq_ok.2 (List.getElem?_eq_getElem hi)] at h
    simp only [bind, Except.bind] at h
    split at h
    · exact (ih2 h).imp_left fun hle => Nat.le_of_add_right_le hle
    split at h
    · cases h
      exact .inl (Nat.le_succ i)
    split at h
    · cases h
      exact .inl (Nat.le_refl _)
    · exact (ih1 h).imp_left fun hle => Nat.le_of_add_right_le hle
  | case2 i hi =>
    cases h
    exact .inr rfl

theorem lt_literalEnd (hi : i < bytes.length) (h : literalEnd bytes i = .ok j) : i < j := by
  rw [literalEnd, byteAt_eq_ok.2 (List.getElem?_eq_getElem hi)] at h
  rcases le_literalEndFrom h with hle | rfl
  · exact hle
  · exact hi

variable {s s' : State}

theorem offset_lt_of_step (hs : s.offset < bytes.length) (h : step script bytes s = .ok s') :
    s.offset < s'.offset := by
  have hbyte := List.getElem?_eq_getElem hs
  rw [step, byteAt_eq_ok.2 hbyte] at h
  simp only [bind, Except.bind] at h
  split at h
  · next hslash =>
    split at h
    · cases h
    · next j hj =>
      cases h
      exact lt_lineCommentEnd (hslash.1 ▸ hbyte) hj
  split at h
  · split at h
    · cases h
    · next j hj =>
      cases h
      exact lt_blockCommentEnd hs hj
  split at h
  · split at h
    · cases h
    · next j hj =>
      cases h
      exact lt_literalEnd hs hj
  · split at h
    · cases h
    · cases h
      exact Nat.lt_succ_self _

end

/-! ### The run -/

/-- The scan from a state to the end of the script. -/
def run (script : Text) (bytes : List UInt8) (s : State) : Except Fault State :=
  if _hs : s.offset < bytes.length then
    match _h : step script bytes s with
    | .ok next => run script bytes next
    | .error fault => .error fault
  else .ok s
termination_by bytes.length - s.offset
decreasing_by
  have := offset_lt_of_step _hs _h
  omega

def statements (script : Text) : Except Fault (List Text) := do
  let bytes := Text.Utf8.encode script
  let s ← run script bytes ⟨0, 0, none, []⟩
  let last ← s.push script bytes.length
  return last.statements

end ThriftModules.Script.ByteScan
