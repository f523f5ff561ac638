/-!
Paths as texts with slashes, and the rules that lead from a source file's id to its path. Repeated
slashes, and dots that stand for the directory itself, do not count as parts of a path, except for a
dot at its very start.
-/

namespace StoragePlan

namespace Path

/-- Drops empty parts and dots from the end of a path whose parts are listed last first. The first
part of the path stays. -/
def trimEnd : List String → List String
  | [] => []
  | [part] => [part]
  | part :: rest => if part == "" || part == "." then trimEnd rest else part :: rest

/-- The parts of a path up to its last real one, last first. -/
def parts (path : String) : List String := trimEnd (path.splitOn "/").reverse

/-- The last part, unless it stands for a directory above or for the path's own start. -/
def fileName? (path : String) : Option String :=
  match parts path with
  | [] => none
  | name :: _ => if ["", ".", ".."].contains name then none else some name

/-- The path without its file name. -/
def directory (path : String) : String :=
  match trimEnd (parts path).tail with
  | [""] => "/"
  | ps => "/".intercalate ps.reverse

/-- What follows the last dot of the file name, unless the name starts with that dot. -/
def extension? (path : String) : Option String :=
  match fileName? path with
  | none => none
  | some name =>
    let reversed := name.toList.reverse
    match reversed.dropWhile (· != '.') with
    | _ :: _ :: _ => some (String.ofList (reversed.takeWhile (· != '.')).reverse)
    | _ => none

/-- Adds an extension to a file name without one; what follows the name is dropped. -/
def addExtension (path ext : String) : String :=
  match fileName? path with
  | none => path
  | some _ => "/".intercalate (parts path).reverse ++ "." ++ ext

/-- The path of `path` seen from a directory. -/
def join (directory path : String) : String :=
  if path.startsWith "/" then path
  else if directory.isEmpty || directory.endsWith "/" then directory ++ path
  else directory ++ "/" ++ path

end Path

/-! ### Source files -/

/-- The extension of source files. -/
def sourceExtension : String := "sprig"

/-- Splits the path of a source file into its directory and its id. -/
def splitSource (path : String) : Except String (String × String) :=
  match Path.fileName? path with
  | some name => .ok (Path.directory path, name)
  | none => .error (path ++ " is not a valid source file name")

/-- The path of a source file with an id; the extension may be left out of the id. -/
def sourcePath (root id : String) : Except String String :=
  let path := Path.join root id
  match Path.extension? path with
  | none => .ok (Path.addExtension path sourceExtension)
  | some ext =>
    if ext.map Char.toLower == sourceExtension then .ok path
    else
      .error ("Is not a Sprig language file, expected extension " ++ sourceExtension ++ " but got "
        ++ ext)

end StoragePlan
