import Lox.Table

/-!
# Scope frames

A frame is one scope: a table of names and the frame around it. Frames are shared: several functions
may hold on to one, and two frames may lie in the same third one, so they live in a collection and
are named by their number. A frame lies only in an older one, and the collection carries the proof,
so the frames around a frame form a chain that ends.

Reading a name, giving it another value and asking for it are three walks, from a frame outwards:
`Frames.get?`, `Frames.assign` and `Frames.has`.
-/

namespace Lox

/-- The number of a frame. -/
abbrev FrameId := Nat

/-- One scope. -/
structure Frame (α : Type) where
  /-- The scope around it. -/
  parent : Option FrameId
  /-- The names it defines. -/
  table : Table α

/-- A collection of frames. -/
structure Frames (α : Type) where
  /-- The frames by number. -/
  cells : Array (Frame α)
  /-- A frame lies in an older one. -/
  parent_lt : ∀ f p, cells[f]?.bind Frame.parent = some p → p < f

namespace Frames

variable {α : Type}

/-- The collection without frames. -/
def empty : Frames α where
  cells := #[]
  parent_lt := by simp

/-- A new frame in another one, or in none; its number is the number of frames before. A number that
names no frame counts as none. -/
def alloc (fs : Frames α) (parent : Option FrameId) : Frames α where
  cells := fs.cells.push ⟨parent.filter (· < fs.cells.size), .empty⟩
  parent_lt := by
    intro f p h
    rw [Array.getElem?_push] at h
    split at h
    · rename_i hf
      simp only [Option.bind_some, Option.filter_eq_some_iff, decide_eq_true_eq] at h
      exact hf ▸ h.2
    · exact fs.parent_lt f p h

/-- Gives a name a value in a frame; the frames around it do not matter. -/
def define (fs : Frames α) (f : FrameId) (name : String) (value : α) : Frames α where
  cells := fs.cells.modify f fun frame => { frame with table := frame.table.insert name value }
  parent_lt := by
    intro g p h
    refine fs.parent_lt g p ?_
    rw [Array.getElem?_modify] at h
    split at h
    · cases hc : fs.cells[g]? with
      | none => rw [hc] at h; simp at h
      | some frame => rw [hc] at h; simpa using h
    · exact h

/-- The frame around a frame. -/
def parent? (fs : Frames α) (f : FrameId) : Option FrameId :=
  fs.cells[f]?.bind Frame.parent

theorem lt_of_parent? {fs : Frames α} {f p : FrameId} (h : fs.parent? f = some p) : p < f :=
  fs.parent_lt f p h

/-- The value of a name in a frame itself. -/
def own? (fs : Frames α) (f : FrameId) (name : String) : Option α :=
  fs.cells[f]?.bind fun frame => frame.table.get? name

/-- The value of a name, seen from a frame: the one in the frame itself, or else the one that is
seen from the frame around it. -/
def get? (fs : Frames α) (f : FrameId) (name : String) : Option α :=
  match fs.own? f name with
  | some value => some value
  | none =>
    match h : fs.parent? f with
    | some p =>
      have : p < f := lt_of_parent? h
      fs.get? p name
    | none => none
termination_by f

/-- Gives a name another value in the first frame that defines it, from a frame outwards, and tells
whether there is one; if not, nothing changes. -/
def assign (fs : Frames α) (f : FrameId) (name : String) (value : α) : Bool × Frames α :=
  if (fs.own? f name).isSome then (true, fs.define f name value)
  else
    match h : fs.parent? f with
    | some p =>
      have : p < f := lt_of_parent? h
      fs.assign p name value
    | none => (false, fs)
termination_by f

/-- Whether a name is defined, seen from a frame: in the frame itself, or seen from the frame around
it. -/
def has (fs : Frames α) (f : FrameId) (name : String) : Bool :=
  (fs.own? f name).isSome ||
    match h : fs.parent? f with
    | some p =>
      have : p < f := lt_of_parent? h
      fs.has p name
    | none => false
termination_by f

end Frames

end Lox
