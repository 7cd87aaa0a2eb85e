/-!
# Output channels

A channel collects the bytes that are written. It may accept only so many bytes: a write that does
not fit delivers the part that fits, and then the channel is full.
-/

namespace Lox

/-- An output channel. -/
structure Channel where
  /-- The bytes delivered so far. -/
  delivered : ByteArray
  /-- How many bytes it still accepts; without a number it accepts all. -/
  room : Option Nat

namespace Channel

/-- The channel that accepts a number of bytes, or all. -/
def ofLimit (limit : Option Nat) : Channel :=
  ⟨.empty, limit⟩

/-- Whether bytes fit into what a channel still accepts. -/
def fits (c : Channel) (bytes : ByteArray) : Bool :=
  match c.room with
  | some room => decide (bytes.size ≤ room)
  | none => true

/-- The channel after a write. -/
def write (c : Channel) (bytes : ByteArray) : Channel :=
  match c with
  | ⟨delivered, none⟩ => ⟨delivered ++ bytes, none⟩
  | ⟨delivered, some room⟩ =>
    if bytes.size ≤ room then ⟨delivered ++ bytes, some (room - bytes.size)⟩
    else ⟨delivered ++ bytes.extract 0 room, some 0⟩

/-- The bytes delivered behind the first ones. -/
def deliveredFrom (c : Channel) (start : Nat) : ByteArray :=
  c.delivered.extract start c.delivered.size

end Channel

end Lox
