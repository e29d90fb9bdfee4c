import QueryAudit.Data.Keyed
import QueryAudit.Text.Blank
import QueryAudit.Text.Cut

/-!
# QueryAudit.Declaration

What a module declares: variables, functions with their parameters, and imports
that bind a qualifier to a namespace URI.

A name is known by its local part; the sigil of a variable and a qualifier are
not part of it.  Two declarations are of one symbol when their local names and
namespaces agree.

* `key_make` — a declaration made from a raw name has the key made from it.
-/

namespace QueryAudit

/-! ## names -/

/-- A name without the sigil of a variable. -/
def dropSigil : List Char → List Char
  | '$' :: rest => rest
  | cs => cs

/-- The part of a raw name behind its sigil and its qualifier. -/
def localName (name : String) : String :=
  match cut ':' (dropSigil name.toList) with
  | some (_, after) => String.ofList after
  | none => String.ofList (dropSigil name.toList)

/-- A namespace that is blank is no namespace. -/
def properUri (uri : Option String) : Option String :=
  uri.filter fun s => !isBlankText s

/-- The namespace that counts is missing exactly when none is given or a blank one. -/
theorem properUri_eq_none_iff {uri : Option String} :
    properUri uri = none ↔ ∀ text ∈ uri, isBlankText text = true := by
  simp [properUri, Option.filter_eq_none_iff]

/-- What tells symbols of one frame apart. -/
structure SymbolKey where
  name : String
  uri : Option String
deriving DecidableEq, Repr

/-- The key of a raw name in a namespace. -/
def SymbolKey.make (name : String) (uri : Option String) : SymbolKey :=
  ⟨localName name, properUri uri⟩

/-! ## declarations -/

/-- A declared name with its namespace, and its type when one is declared. -/
structure Declaration where
  name : String
  uri : Option String
  type : Option String
  line : UInt32
deriving DecidableEq, Repr

namespace Declaration

/-- The declaration of a raw name. -/
def make (name : String) (uri type : Option String) (line : UInt32) : Declaration :=
  ⟨localName name, properUri uri, type, line⟩

/-- The key under which a declaration is found. -/
def key (d : Declaration) : SymbolKey := ⟨d.name, d.uri⟩

/-- Whether a declaration states this type. -/
def hasType (d : Declaration) (type : String) : Bool := d.type == some type

/-- Whether two declarations are of one symbol. -/
def sameSymbol (d e : Declaration) : Bool := d.key == e.key

/-- The declaration as one line of text. -/
def render (d : Declaration) : String :=
  let space := match d.uri with
    | some uri => uri ++ ":"
    | none => ""
  let type := match d.type with
    | some type => "=" ++ type
    | none => ""
  "Declaration [" ++ space ++ d.name ++ type ++ s!" ({d.line.toNat})]"

/-- A declaration has the key that is made from its raw name and namespace. -/
theorem key_make (name : String) (uri type : Option String) (line : UInt32) :
    (make name uri type line).key = SymbolKey.make name uri := rfl

end Declaration

/-- The declarations among a list that are of different symbols, the first of each. -/
def distinctDeclarations (ds : List Declaration) : List Declaration :=
  ds.foldl (fun seen d => if seen.any (·.sameSymbol d) then seen else seen ++ [d]) []

/-! ## functions -/

/-- A function with its parameters in order, by their names. -/
structure Function where
  declaration : Declaration
  parameters : Keyed String Declaration
deriving DecidableEq, Repr

namespace Function

/-- A function without parameters. -/
def ofDeclaration (d : Declaration) : Function := ⟨d, .empty⟩

/-- Add a parameter, which has no namespace.  A repeated name keeps its place and
takes the new declaration. -/
def addParameter (f : Function) (d : Declaration) : Function :=
  { f with parameters := f.parameters.insert d.name { d with uri := none } }

/-- The parameter with a raw name. -/
def parameter? (f : Function) (name : String) : Option Declaration :=
  f.parameters.find? (localName name)

end Function

/-! ## imports -/

/-- An import of a module: its qualifier, its namespace, and where the module may
be found. -/
structure Import where
  qualifier : String
  uri : String
  line : UInt32
  locations : List String
deriving DecidableEq, Repr

namespace Import

/-- The location at an index, counted from zero. -/
def location? (i : Import) (index : Nat) : Option String := i.locations[index]?

/-- The first place where the module may be found. -/
def primaryLocation? (i : Import) : Option String := i.location? 0

end Import

end QueryAudit
