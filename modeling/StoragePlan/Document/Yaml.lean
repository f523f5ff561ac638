import StoragePlan.Document.Basic

/-!
Documents written as YAML in block style, two blanks for each level. A text is written plain unless
a reader could take it for something else.
-/

namespace StoragePlan

namespace Document

/-! ### Plain and quoted text -/

def isDecimal (c : Char) : Bool := '0' ≤ c && c ≤ '9'

def dropSign : List Char → List Char
  | '+' :: rest => rest
  | '-' :: rest => rest
  | cs => cs

/-- What may follow the mantissa of a number. -/
def isExponent : List Char → Bool
  | [] => true
  | c :: rest =>
    let digits := dropSign rest
    (c == 'e' || c == 'E') && !digits.isEmpty && digits.all isDecimal

/-- Digits with an optional fraction and exponent. -/
def isUnsignedNumber (cs : List Char) : Bool :=
  let whole := cs.takeWhile isDecimal
  match cs.dropWhile isDecimal with
  | '.' :: rest =>
    (!whole.isEmpty || !(rest.takeWhile isDecimal).isEmpty) && isExponent (rest.dropWhile isDecimal)
  | rest => !whole.isEmpty && isExponent rest

/-- Whether a text reads as a number: signed, perhaps with fraction and exponent, or the words for
the infinities and for no number in any case of letters. -/
def isNumber (s : String) : Bool :=
  let cs := dropSign s.toList
  isUnsignedNumber cs ||
    ["inf", "infinity", "nan"].contains (String.ofList (cs.map (·.toLower)))

/-- Words that stand for truth values and for nothing. -/
def reservedWords : List String :=
  ["yes", "Yes", "YES", "no", "No", "NO", "True", "TRUE", "true", "False", "FALSE", "false",
   "on", "On", "ON", "off", "Off", "OFF", "null", "Null", "NULL", "~"]

/-- Characters that no plain text starts with. -/
def badStart : List Char := ['&', '*', '?', '|', '-', '<', '>', '=', '!', '%', '@', '.', ' ']

/-- Characters that no plain text has. -/
def isBadInside (c : Char) : Bool :=
  [':', '\x7b', '\x7d', '[', ']', ',', '#', '\x60', '"', '\x27', '\\', '\t', '\n', '\r'].contains c
    || c.toNat ≤ 0x06 || (0x0E ≤ c.toNat && c.toNat ≤ 0x1A) || (0x1C ≤ c.toNat && c.toNat ≤ 0x1F)

def needsQuotes (s : String) : Bool :=
  let cs := s.toList
  cs.isEmpty || cs.head?.any (badStart.contains ·) || cs.getLast? == some ' '
    || ['0', 'x'].isPrefixOf cs || cs.any isBadInside || reservedWords.contains s || isNumber s

def yamlChar (c : Char) : String :=
  if c == '"' then "\\\""
  else if c == '\\' then "\\\\"
  else if c == '\x08' then "\\b"
  else if c == '\t' then "\\t"
  else if c == '\n' then "\\n"
  else if c == '\x0c' then "\\f"
  else if c == '\r' then "\\r"
  else if c.toNat < 0x20 || c.toNat == 0x7F then "\\u" ++ hex4 c
  else String.singleton c

def yamlText (s : String) : String :=
  if needsQuotes s then "\"" ++ String.join (s.toList.map yamlChar) ++ "\"" else s

/-! ### Blocks -/

mutual

/-- What follows the colon after a key that is indented by `n`. -/
def yamlValue (n : Nat) : Document → String
  | null => " ~"
  | int i => " " ++ toString i
  | text s => " " ++ yamlText s
  | list [] => " []"
  | list (d :: rest) =>
    "\n" ++ blanks (n + 2) ++ "- " ++ yamlItem (n + 4) d ++ yamlItems (n + 2) rest
  | record [] => " \x7b\x7d"
  | record ((key, d) :: rest) =>
    "\n" ++ blanks (n + 2) ++ yamlText key ++ ":" ++ yamlValue (n + 2) d ++ yamlFields (n + 2) rest

/-- A document whose first line is already indented by `n`. -/
def yamlItem (n : Nat) : Document → String
  | null => "~"
  | int i => toString i
  | text s => yamlText s
  | list [] => "[]"
  | list (d :: rest) => "- " ++ yamlItem (n + 2) d ++ yamlItems n rest
  | record [] => "\x7b\x7d"
  | record ((key, d) :: rest) => yamlText key ++ ":" ++ yamlValue n d ++ yamlFields n rest

def yamlItems (n : Nat) : List Document → String
  | [] => ""
  | d :: rest => "\n" ++ blanks n ++ "- " ++ yamlItem (n + 2) d ++ yamlItems n rest

def yamlFields (n : Nat) : List (String × Document) → String
  | [] => ""
  | (key, d) :: rest =>
    "\n" ++ blanks n ++ yamlText key ++ ":" ++ yamlValue n d ++ yamlFields n rest

end

def toYaml (d : Document) : String := "---\n" ++ yamlItem 0 d ++ "\n"

end Document

end StoragePlan
