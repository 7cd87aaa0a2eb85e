import Lox.Store.Value

/-!
# Stores

A store keeps what changes while a program runs: the scope frames and the objects. It also counts
the functions and classes that were made, for their serial numbers.
-/

namespace Lox

/-- An object. -/
structure Object where
  /-- The class it was made from. -/
  ofClass : Class
  /-- Its fields. -/
  fields : Table Value

/-- Frames, objects, and the next serial number. -/
structure Store where
  /-- The scope frames. -/
  frames : Frames Value
  /-- The objects by number. -/
  objects : Array Object
  /-- The serial number of the next function or class. -/
  serial : Nat

namespace Store

/-- The store in which nothing was made yet. -/
def empty : Store := ⟨.empty, #[], 0⟩

/-- The number that the next frame gets. -/
def nextFrame (s : Store) : FrameId :=
  s.frames.cells.size

/-- The number that the next object gets. -/
def nextObject (s : Store) : ObjectId :=
  s.objects.size

/-- The store with a new frame. -/
def allocFrame (s : Store) (parent : Option FrameId) : Store :=
  { s with frames := s.frames.alloc parent }

/-- The store with a new object without fields. -/
def allocObject (s : Store) (c : Class) : Store :=
  { s with objects := s.objects.push ⟨c, .empty⟩ }

/-- The store in which a serial number is taken. -/
def takeSerial (s : Store) : Store :=
  { s with serial := s.serial + 1 }

/-- Gives a name a value in a frame. -/
def define (s : Store) (f : FrameId) (name : String) (value : Value) : Store :=
  { s with frames := s.frames.define f name value }

/-- Gives a name another value where it is defined; if it is defined nowhere nothing changes. -/
def assign (s : Store) (f : FrameId) (name : String) (value : Value) : Store :=
  { s with frames := (s.frames.assign f name value).2 }

/-- Gives a field of an object a value. -/
def setField (s : Store) (id : ObjectId) (name : String) (value : Value) : Store :=
  { s with objects := s.objects.modify id fun o => { o with fields := o.fields.insert name value } }

/-- The text of a value as `print` writes it. -/
def display (s : Store) : Value → String
  | .nil => "nil"
  | .bool true => "true"
  | .bool false => "false"
  | .number value => Value.numberStyle.write value
  | .text value => value
  | .builtin _ => "<Lox Builtin>"
  | .function _ => "<function>"
  | .klass c => "<class " ++ c.name ++ ">"
  | .object id =>
    match s.objects[id]? with
    | some o => "<instance " ++ o.ofClass.name ++ ">"
    | none => "<instance>"

end Store

end Lox
