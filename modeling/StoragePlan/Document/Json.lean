import StoragePlan.Document.Basic

/-!
Documents written as JSON, one field or list item on a line and two blanks for each level.
-/

namespace StoragePlan

namespace Document

/-- Control characters, the quote and the backslash are escaped; all else stands for itself. -/
def jsonChar (c : Char) : String :=
  if c == '"' then "\\\""
  else if c == '\\' then "\\\\"
  else if c == '\x08' then "\\b"
  else if c == '\x0c' then "\\f"
  else if c == '\n' then "\\n"
  else if c == '\r' then "\\r"
  else if c == '\t' then "\\t"
  else if c.toNat < 0x20 then "\\u" ++ hex4 c
  else String.singleton c

def jsonText (s : String) : String := "\"" ++ String.join (s.toList.map jsonChar) ++ "\""

mutual

/-- A document whose first line is already indented by `n`. -/
def json (n : Nat) : Document → String
  | null => "null"
  | int i => toString i
  | text s => jsonText s
  | list [] => "[]"
  | list (d :: rest) =>
    "[\n" ++ blanks (n + 2) ++ json (n + 2) d ++ jsonItems (n + 2) rest ++ "\n" ++ blanks n ++ "]"
  | record [] => "\x7b\x7d"
  | record ((key, d) :: rest) =>
    "\x7b\n" ++ blanks (n + 2) ++ jsonText key ++ ": " ++ json (n + 2) d ++ jsonFields (n + 2) rest
      ++ "\n" ++ blanks n ++ "\x7d"

def jsonItems (n : Nat) : List Document → String
  | [] => ""
  | d :: rest => ",\n" ++ blanks n ++ json n d ++ jsonItems n rest

def jsonFields (n : Nat) : List (String × Document) → String
  | [] => ""
  | (key, d) :: rest => ",\n" ++ blanks n ++ jsonText key ++ ": " ++ json n d ++ jsonFields n rest

end

def toJson (d : Document) : String := json 0 d

end Document

end StoragePlan
