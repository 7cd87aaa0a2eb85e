import Lox.Json.Quoted

/-!
# JSON documents

The part of JSON that token dumps need, and its indented text: one element or field a line, two
spaces for each level.
-/

namespace Lox

/-- A JSON document. Numbers are kept as their text. -/
inductive Json where
  /-- The null value. -/
  | null
  /-- A string. -/
  | string (text : String)
  /-- A number, written with the given digits. -/
  | number (digits : String)
  /-- An array. -/
  | array (elements : List Json)
  /-- An object, its fields in order. -/
  | object (fields : List (String × Json))

namespace Json

/-- A newline and the indentation of a level. -/
def newline (level : Nat) : List Char :=
  '\n' :: List.replicate (2 * level) ' '

mutual

/-- The text of a document that starts at a level of indentation. -/
def layout (level : Nat) : Json → List Char
  | null => ['n', 'u', 'l', 'l']
  | string text => quote text.toList
  | number digits => digits.toList
  | array [] => ['[', ']']
  | array (e :: es) =>
    '[' :: newline (level + 1) ++ layout (level + 1) e ++ layoutElements (level + 1) es ++
      newline level ++ [']']
  | object [] => ['{', '}']
  | object ((key, value) :: fields) =>
    '{' :: newline (level + 1) ++ quote key.toList ++ ':' :: ' ' :: layout (level + 1) value ++
      layoutFields (level + 1) fields ++ newline level ++ ['}']

/-- The further elements of an array, each behind a comma and on its own line. -/
def layoutElements (level : Nat) : List Json → List Char
  | [] => []
  | e :: es => ',' :: newline level ++ layout level e ++ layoutElements level es

/-- The further fields of an object, each behind a comma and on its own line. -/
def layoutFields (level : Nat) : List (String × Json) → List Char
  | [] => []
  | (key, value) :: fields =>
    ',' :: newline level ++ quote key.toList ++ ':' :: ' ' :: layout level value ++
      layoutFields level fields

end

/-- The indented text of a document. -/
def pretty (document : Json) : String :=
  String.ofList (document.layout 0)

end Json

end Lox
