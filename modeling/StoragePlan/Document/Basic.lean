import StoragePlan.Storage.Layout

/-!
Documents: plain data with named fields in a fixed order, in which a layout is written out.
-/

namespace StoragePlan

inductive Document where
  | null
  | int (i : Int)
  | text (s : String)
  | list (items : List Document)
  | record (fields : List (String × Document))

namespace Document

def nat (n : Nat) : Document := int n

def text? : Option String → Document
  | some s => text s
  | none => null

/-- So many blanks. -/
def blanks (n : Nat) : String := String.ofList (List.replicate n ' ')

/-- The four hexadecimal digits of a small code point. -/
def hex4 (c : Char) : String :=
  let n := c.toNat
  "00" ++ String.ofList [Nat.digitChar (n / 16 % 16), Nat.digitChar (n % 16)]

/-! ### Layouts -/

def ofMember (m : Member) : Document := record [("id", text m.id), ("type_id", text m.typeId)]

def ofUdt (u : Udt) : Document :=
  record [("id", text u.id), ("fields", list (u.fields.map ofMember))]

def ofContent : Content → Document
  | .function s =>
    record [("kind", text "Function"), ("id", text s.id),
      ("parameters", list (s.params.map ofMember)), ("return_type_id", text? s.returns)]
  | .value id => record [("kind", text "Value"), ("id", text id)]

def ofElement (e : Element) : Document :=
  record [("id", text? e.id), ("ty", ofContent e.content), ("size", nat e.size),
    ("value", int e.value)]

def ofPlaced (p : Placed) : Document :=
  record [("element", ofElement p.element), ("offset", nat p.offset)]

def ofFrame (f : Frame) : Document :=
  record [("function", text f.function), ("elements", list (f.elements.map ofPlaced))]

def ofFile (f : FileLayout) : Document :=
  record [("file_id", text f.file), ("udts", list (f.udts.map ofUdt)),
    ("frames", list (f.frames.map ofFrame))]

def ofLayout (l : Layout) : Document :=
  record [("data_segment", list (l.dataSegment.map ofPlaced)),
    ("data_segment_size", nat l.dataSize), ("files", list (l.files.map ofFile))]

end Document

end StoragePlan
