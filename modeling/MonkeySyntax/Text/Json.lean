import MonkeySyntax.Text.Quoted

namespace MonkeySyntax

inductive Json where
  | null
  | bool (b : Bool)
  | int (n : Int)
  | str (s : String)
  | arr (elements : List Json)
  | obj (members : List (String × Json))
deriving Repr

namespace Json

def escapedUnit (n : Nat) : List Char :=
  '\\' :: 'u' :: hexDigits 4 n

/-- One character inside a JSON string. What lies outside the printable ASCII range is written by
its UTF-16 code units, two of them above the basic plane. -/
def escapedChar (c : Char) : List Char :=
  if c = '"' ∨ c = '\\' then ['\\', c]
  else if c = '\n' then ['\\', 'n']
  else if c = '\r' then ['\\', 'r']
  else if c = '\t' then ['\\', 't']
  else if c = '\x08' then ['\\', 'b']
  else if c = '\x0c' then ['\\', 'f']
  else if 0x20 ≤ c.toNat ∧ c.toNat ≤ 0x7E then [c]
  else if c.toNat < 0x10000 then escapedUnit c.toNat
  else
    let n := c.toNat - 0x10000
    escapedUnit (0xD800 + n / 0x400) ++ escapedUnit (0xDC00 + n % 0x400)

def quotedString (s : String) : String :=
  String.ofList ('"' :: (s.toList.flatMap escapedChar ++ ['"']))

def newline (level : Nat) : String :=
  String.ofList ('\n' :: List.replicate (2 * level) ' ')

/-- What stands between two brackets on a line of `level` levels: one item a line, with a comma
behind each but the last. -/
def lines (level : Nat) (items : List String) : String :=
  newline (level + 1) ++ ("," ++ newline (level + 1)).intercalate items ++ newline level

mutual

def indented (level : Nat) : Json → String
  | .null => "null"
  | .bool b => if b then "true" else "false"
  | .int n => toString n
  | .str s => quotedString s
  | .arr [] => "[]"
  | .arr (e :: es) => "[" ++ lines level (indentedElements (level + 1) (e :: es)) ++ "]"
  | .obj [] => "\x7b\x7d"
  | .obj (m :: ms) => "\x7b" ++ lines level (indentedMembers (level + 1) (m :: ms)) ++ "\x7d"

def indentedElements (level : Nat) : List Json → List String
  | [] => []
  | e :: es => indented level e :: indentedElements level es

def indentedMembers (level : Nat) : List (String × Json) → List String
  | [] => []
  | (key, value) :: ms =>
    (quotedString key ++ ": " ++ indented level value) :: indentedMembers level ms

end

def pretty (j : Json) : String := indented 0 j

example : pretty (.arr [.int (-1), .str "é"]) = "[\n  -1,\n  \"\\u00e9\"\n]" := by decide +kernel

end Json

end MonkeySyntax
