/-!
# UTF-8

Reading bytes as text. The first byte of a sequence says how many bytes follow it, and the range of
the byte behind it is narrowed so that each character has one sequence and surrogates have none.

A fault is either a run of bytes that starts a sequence and does not go on as one, or the end of the
bytes inside a sequence. `decode` stops at the first fault; `decodeLossy` puts U+FFFD in the place
of each.
-/

namespace Lox.Utf8

/-- A closed range of bytes. -/
structure ByteRange where
  /-- The least byte. -/
  low : UInt8
  /-- The greatest byte. -/
  high : UInt8
deriving DecidableEq, Repr

/-- Whether a byte lies in a range. -/
def ByteRange.contains (r : ByteRange) (b : UInt8) : Bool :=
  decide (r.low ≤ b) && decide (b ≤ r.high)

/-- The bytes that continue a sequence. -/
def continuation : ByteRange := ⟨0x80, 0xBF⟩

/-- What the first byte of a sequence says: the value that it contributes, and the range of each
byte behind it. `none` for a byte that starts no sequence. -/
def lead? (b : UInt8) : Option (Nat × List ByteRange) :=
  if b < 0x80 then some (b.toNat, [])
  else if b < 0xC2 then none
  else if b < 0xE0 then some (b.toNat - 0xC0, [continuation])
  else if b < 0xF0 then
    let second : ByteRange := if b = 0xE0 then ⟨0xA0, 0xBF⟩ else if b = 0xED then ⟨0x80, 0x9F⟩
      else continuation
    some (b.toNat - 0xE0, [second, continuation])
  else if b < 0xF5 then
    let second : ByteRange := if b = 0xF0 then ⟨0x90, 0xBF⟩ else if b = 0xF4 then ⟨0x80, 0x8F⟩
      else continuation
    some (b.toNat - 0xF0, [second, continuation, continuation])
  else none

/-- What stands at the start of some bytes. -/
inductive Reading where
  /-- A character, and the bytes behind its sequence. -/
  | character (c : Char) (rest : List UInt8)
  /-- Bytes that start a sequence and do not go on as one, and the bytes behind them. -/
  | broken (length : Nat) (rest : List UInt8)
  /-- The bytes end inside a sequence. -/
  | cut
deriving Repr

/-- Reads the further bytes of a sequence of which `length` bytes were read. -/
def follow (value length : Nat) : List ByteRange → List UInt8 → Reading
  | [], bytes => .character (Char.ofNat value) bytes
  | _ :: _, [] => .cut
  | r :: rs, b :: bytes =>
    if r.contains b then follow (0x40 * value + (b.toNat - 0x80)) (length + 1) rs bytes
    else .broken length (b :: bytes)

/-- Reads the sequence that starts with a byte. -/
def readSequence (first : UInt8) (bytes : List UInt8) : Reading :=
  match lead? first with
  | some (value, ranges) => follow value 1 ranges bytes
  | none => .broken 1 bytes

/-- The bytes that a reading leaves. -/
def Reading.rest : Reading → List UInt8
  | character _ rest => rest
  | broken _ rest => rest
  | cut => []

theorem rest_follow_length_le (value length : Nat) (ranges : List ByteRange)
    (bytes : List UInt8) : (follow value length ranges bytes).rest.length ≤ bytes.length := by
  fun_induction follow value length ranges bytes with
  | case1 => exact Nat.le_refl _
  | case2 => exact Nat.zero_le _
  | case3 _ _ _ _ _ _ _ ih => exact Nat.le_succ_of_le ih
  | case4 => exact Nat.le_refl _

/-- Reading a sequence leaves no more than the bytes behind its first one. -/
theorem rest_length_le {first : UInt8} {bytes : List UInt8} {r : Reading}
    (h : readSequence first bytes = r) : r.rest.length ≤ bytes.length := by
  subst h
  unfold readSequence
  split
  · exact rest_follow_length_le ..
  · exact Nat.le_refl _

/-- The first place at which bytes are not UTF-8. -/
inductive Fault where
  /-- So many bytes from an index on start a sequence and do not go on as one. -/
  | broken (length index : Nat)
  /-- The bytes end inside the sequence that starts at an index. -/
  | cut (index : Nat)
deriving DecidableEq, Repr

/-- A fault in words. -/
def Fault.message : Fault → String
  | broken length index =>
    "invalid utf-8 sequence of " ++ toString length ++ " bytes from index " ++ toString index
  | cut index => "incomplete utf-8 byte sequence from index " ++ toString index

/-- Reads the bytes behind a text up to the first fault. -/
def decodeFrom (text : String) : List UInt8 → Except Fault String
  | [] => .ok text
  | first :: bytes =>
    match h : readSequence first bytes with
    | .character c rest =>
      have : rest.length ≤ bytes.length := rest_length_le h
      decodeFrom (text.push c) rest
    | .broken length _ => .error (.broken length text.utf8ByteSize)
    | .cut => .error (.cut text.utf8ByteSize)
termination_by bytes => bytes.length

/-- The text of bytes, or the first fault in them. -/
def decode (bytes : List UInt8) : Except Fault String :=
  decodeFrom "" bytes

/-- Reads the bytes behind a text, with U+FFFD in the place of each fault. -/
def decodeLossyFrom (text : String) : List UInt8 → String
  | [] => text
  | first :: bytes =>
    match h : readSequence first bytes with
    | .character c rest =>
      have : rest.length ≤ bytes.length := rest_length_le h
      decodeLossyFrom (text.push c) rest
    | .broken _ rest =>
      have : rest.length ≤ bytes.length := rest_length_le h
      decodeLossyFrom (text.push '\uFFFD') rest
    | .cut => text.push '\uFFFD'
termination_by bytes => bytes.length

/-- The text of bytes, with U+FFFD in the place of each fault. -/
def decodeLossy (bytes : List UInt8) : String :=
  decodeLossyFrom "" bytes

end Lox.Utf8
