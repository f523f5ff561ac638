import StoragePlan.Names.Symbol

/-!
The symbols of one file: those at its top level, which stay, and those of its open scopes, which go
when the scope closes.
-/

namespace StoragePlan

/-- Scopes are listed innermost first and their symbols newest first; the symbols at the top level
and the imported files are listed oldest first. -/
structure SymbolTable where
  file : String
  outer : List String
  scopes : List (List Symbol)
  symbols : List Symbol
  deriving DecidableEq, Repr

/-- Changes the first member of a list that passes a test. -/
def updateFirst {α : Type} (test : α → Bool) (f : α → α) : List α → List α
  | [] => []
  | a :: rest => if test a then f a :: rest else a :: updateFirst test f rest

/-- Changes the first member that passes a test in the first list that has one. -/
def updateFirstIn {α : Type} (test : α → Bool) (f : α → α) : List (List α) → List (List α)
  | [] => []
  | as :: rest =>
    if as.any test then updateFirst test f as :: rest else as :: updateFirstIn test f rest

namespace SymbolTable

def ofFile (file : String) : SymbolTable := ⟨file, [], [], []⟩

def depth (t : SymbolTable) : Nat := t.scopes.length

/-- Records an imported file, once. -/
def addOuter (file : String) (t : SymbolTable) : SymbolTable :=
  if t.outer.contains file then t else { t with outer := t.outer ++ [file] }

/-- Adds a symbol to the innermost scope, or to the top level if no scope is open. -/
def add (s : Symbol) (t : SymbolTable) : SymbolTable :=
  match t.scopes with
  | scope :: outer => { t with scopes := (s :: scope) :: outer }
  | [] => { t with symbols := t.symbols ++ [s] }

def openScope (t : SymbolTable) : SymbolTable := { t with scopes := [] :: t.scopes }

def closeScope (t : SymbolTable) : SymbolTable := { t with scopes := t.scopes.tail }

/-- The symbols of the innermost scope in the order of their declaration. -/
def innermost (t : SymbolTable) : List Symbol := (t.scopes.headD []).reverse

/-- Closes scopes until at most `depth` are open. -/
def closeTo (depth : Nat) (t : SymbolTable) : SymbolTable :=
  { t with scopes := t.scopes.drop (t.scopes.length - depth) }

/-- The file's own symbols in the order in which a name is looked up. -/
def visible (t : SymbolTable) : List Symbol := t.scopes.flatten ++ t.symbols

def local? (t : SymbolTable) (id : String) : Option Symbol := t.visible.find? (·.id == id)

def exported? (t : SymbolTable) (id : String) : Option Symbol :=
  t.symbols.find? fun s => s.exported && s.id == id

/-- A symbol declared directly in the innermost scope, or at the top level if none is open. -/
def current? (t : SymbolTable) (id : String) : Option Symbol :=
  match t.scopes with
  | scope :: _ => scope.reverse.find? (·.id == id)
  | [] => t.symbols.find? (·.id == id)

/-- Changes the symbol that `local?` finds. -/
def updateLocal (id : String) (f : Symbol → Symbol) (t : SymbolTable) : SymbolTable :=
  if t.scopes.any (·.any (·.id == id)) then
    { t with scopes := updateFirstIn (·.id == id) f t.scopes }
  else
    { t with symbols := updateFirst (·.id == id) f t.symbols }

/-- Changes the symbol that `exported?` finds. -/
def updateExported (id : String) (f : Symbol → Symbol) (t : SymbolTable) : SymbolTable :=
  { t with symbols := updateFirst (fun s => s.exported && s.id == id) f t.symbols }

/-! ### Text -/

def indented (tabs : Nat) (s : Symbol) : String :=
  String.ofList (List.replicate tabs '\t') ++ s.text ++ "\n"

/-- Scopes, outermost first, one step further in each. -/
def scopeLines : List (List Symbol) → String
  | [] => ""
  | scope :: outer =>
    scopeLines outer ++ String.join (scope.reverse.map (indented (outer.length + 2)))

def text (t : SymbolTable) : String :=
  t.file ++ ":\n" ++ String.join (t.symbols.map (indented 1)) ++ scopeLines t.scopes

end SymbolTable

end StoragePlan
