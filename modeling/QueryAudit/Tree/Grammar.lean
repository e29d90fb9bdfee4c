import QueryAudit.Text.Blank
import QueryAudit.Tree.Search

/-!
# QueryAudit.Tree.Grammar

The part of the XQuery grammar that the analysis knows: the kinds and the field
labels it asks for, and what it reads off a node of these shapes.
-/

namespace QueryAudit

/-! ## kinds of nodes -/

namespace Kind

@[match_pattern] abbrev moduleTransaction := "moduleTransaction"
@[match_pattern] abbrev mainModule := "mainModule"
@[match_pattern] abbrev versionDecl := "versionDecl"
@[match_pattern] abbrev moduleDecl := "moduleDecl"
@[match_pattern] abbrev moduleImport := "moduleImport"
@[match_pattern] abbrev optionDecl := "optionDecl"
@[match_pattern] abbrev varDecl := "varDecl"
@[match_pattern] abbrev functionDecl := "functionDecl"
@[match_pattern] abbrev paramList := "paramList"
@[match_pattern] abbrev param := "param"
@[match_pattern] abbrev functionBody := "functionBody"
@[match_pattern] abbrev functionCall := "functionCall"
@[match_pattern] abbrev functionName := "functionName"
@[match_pattern] abbrev flworExpr := "flworExpr"
@[match_pattern] abbrev forVar := "forVar"
@[match_pattern] abbrev letClause := "letClause"
@[match_pattern] abbrev letVar := "letVar"
@[match_pattern] abbrev orderSpec := "orderSpec"
@[match_pattern] abbrev ifExpr := "ifExpr"
@[match_pattern] abbrev comparison := "comparison"
@[match_pattern] abbrev castable := "castable"
@[match_pattern] abbrev treat := "treat"
@[match_pattern] abbrev instanceOf := "instanceOf"
@[match_pattern] abbrev add := "add"
@[match_pattern] abbrev mult := "mult"
@[match_pattern] abbrev varRef := "varRef"
@[match_pattern] abbrev qName := "qName"
@[match_pattern] abbrev relativePathExpr := "relativePathExpr"
@[match_pattern] abbrev stepExpr := "stepExpr"
@[match_pattern] abbrev predicate := "predicate"
@[match_pattern] abbrev nodeTest := "nodeTest"
@[match_pattern] abbrev kindTest := "kindTest"
@[match_pattern] abbrev textTest := "textTest"
@[match_pattern] abbrev itemType := "itemType"

end Kind

/-! ## field labels -/

namespace Field

abbrev name := "name"
abbrev type := "type"
abbrev qualifier := "prefix"
abbrev uri := "uri"
abbrev location := "at"
abbrev version := "version"
abbrev condition := "condition"

end Field

/-! ## what a node declares or names -/

namespace Node

/-- The text of the name field. -/
def nameText? (n : Node) : Option String :=
  (n.childByField? Field.name).map Element.text

/-- The name of a called or declared function: the text of the child that is a
function name, else the text of the name field.  A blank name is no name. -/
def functionName? (n : Node) : Option String :=
  let name := match n.childByKind? Kind.functionName with
    | some child => some child.text
    | none => n.nameText?
  name.filter fun s => !isBlankText s

/-- The declared type: the item type inside the type field, or the text of the
whole field when there is no item type in it. -/
def declaredType? (n : Node) : Option String :=
  match n.childByField? Field.type with
  | none => none
  | some (.node type) => some <| match type.find? Kind.itemType with
    | some item => item.text
    | none => type.text
  | some (.leaf type) => some type.text

/-- The text of a field without the quotes around it. -/
def unquotedField? (n : Node) (field : String) : Option String :=
  (n.childByField? field).map Element.unquotedText

/-- The parameters of a function declaration: those of its first parameter list,
or its own when it has no list. -/
def params (n : Node) : List Node :=
  match n.childByKind? Kind.paramList with
  | some list => list.childrenByKind Kind.param
  | none => n.childrenByKind Kind.param

end Node

end QueryAudit
