/-!
# Hosts

A program reads two things that are not in its text: the time, and random numbers. A host gives
them. `Host.ofSeed` is a host that is fixed by a time and a seed, so that a run can be repeated.
-/

namespace Lox

/-- The readings that the surroundings give to a program: each is taken from the number of readings
taken before it. -/
structure Host where
  /-- The time in seconds. -/
  clock : Nat → Float
  /-- A number from zero up to one. -/
  random : Nat → Float

/-- Spreads the bits of a word, so that neighbouring words have nothing visible in common. -/
def spread (x : UInt64) : UInt64 :=
  let y := (x ^^^ (x >>> 30)) * 0xBF58476D1CE4E5B9
  let z := (y ^^^ (y >>> 27)) * 0x94D049BB133111EB
  z ^^^ (z >>> 31)

/-- The host whose time is always `now`, and whose random numbers are the fractions of 53 bits that
are spread from a seed and the number of the reading. -/
def Host.ofSeed (now : Float) (seed : UInt64) : Host where
  clock := fun _ => now
  random := fun k =>
    ((spread (seed + (k.toUInt64 + 1) * 0x9E3779B97F4A7C15)) >>> 11).toFloat /
      (1 <<< 53 : Nat).toFloat

end Lox
