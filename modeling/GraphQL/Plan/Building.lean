import GraphQL.Document.Selections
import GraphQL.Plan.Appearance

/-!
# Plans of documents

The appearances of a field are merged into a node; its children are built from the selections of all
of them, for every object type that its value can have. Going from a node to a child goes deeper
into the selections of the document, and on one way no fragment is entered twice, so the nesting of
all definitions together bounds the depth of a plan.
-/

namespace GraphQL

/-- The arguments of a field by name; the last of a repeated name counts. -/
def FieldSelection.planArguments (field : FieldSelection) : OrderedMap PlanValue :=
  OrderedMap.ofPairs (field.arguments.map fun argument =>
    (argument.name.text, PlanValue.ofLiteral argument.value))

namespace Plan

/-- What plans are built from: the schema, the document and, if places are wanted, its lines. -/
structure Sources where
  schema : Schema
  document : Document
  lines? : Option LineIndex

namespace Sources

/-- The appearances in the selections of some appearances of a field. -/
def innerAppearances (sources : Sources) (object : SchemaType) (outer : List Appearance) :
    List Appearance :=
  outer.flatMap fun appearance =>
    match appearance.selections with
    | none => []
    | some selections =>
        appearances sources.schema sources.document object appearance.conditions
          appearance.fragments selections

/-- The object types that a value of a field can have: none unless it has selections. -/
def childTypes (sources : Sources) (definition : OutputField) : List SchemaType :=
  match sources.schema.type? definition.type.innermost with
  | none => []
  | some type =>
      if type.isComposite then
        (sources.schema.possibleTypes type.name).filterMap sources.schema.type?
      else []

/-- The node of a field on an object type, given a way to build children. -/
def node (sources : Sources) (children : SchemaType → List Appearance → PlanChildren)
    (object : SchemaType) (key : String) (first : Appearance) (others : List Appearance) :
    PlanNode :=
  let all := first :: others
  let spans := all.map (·.field.span)
  { responseKey := key
    name := first.definition.name
    ownerType := object.name
    returnType := first.definition.type
    arguments := first.field.planArguments
    spans
    locations := (sources.lines?.map fun lines => spans.map lines.spanStart).getD []
    conditions := all.map (·.conditions)
    typedChildren := OrderedMap.ofPairs ((sources.childTypes first.definition).map fun type =>
      (type.name, children type (sources.innerAppearances type all))) }

/-- The nodes of some appearances on an object type, with children nested at most so deep. -/
def nodesWithin (sources : Sources) : Nat → SchemaType → List Appearance → PlanChildren
  | 0, _, _ => []
  | depth + 1, object, found =>
      (groupAppearances found).filterMap fun (key, group) =>
        match group with
        | [] => none
        | first :: others =>
            some (key, sources.node (nodesWithin sources depth) object key first others)

/-- The nodes of a selection set on an object type, after some fragments have been entered. -/
def children (sources : Sources) (object : SchemaType) (fragments : List String)
    (selections : SelectionSet) : PlanChildren :=
  sources.nodesWithin sources.document.nesting object
    (appearances sources.schema sources.document object [] fragments selections)

def declaredVariable (definition : VariableDefinition) : PlanVariable :=
  { name := definition.name.text
    type := definition.type.toTypeRef
    default? := definition.default?.map fun value => (PlanValue.ofLiteral value).resolve [] }

/-- The plan of an operation, if there is an object type for it to start at. -/
def operation? (sources : Sources) (definition : OperationDefinition) : Option PlanOperation := do
  let root ← sources.schema.rootType? definition.kind
  return {
    name := definition.name.map Name.text
    kind := definition.kind
    rootType := root.name
    variableDefinitions := definition.variableDefinitions.map declaredVariable
    children := sources.children root [] definition.selections
    span := definition.span }

/-- The plan of a fragment, if its condition names a composite type. -/
def fragment? (sources : Sources) (definition : FragmentDefinition) : Option PlanFragment := do
  let condition ← sources.schema.type? definition.typeCondition.text
  if condition.isComposite then
    let types := (sources.schema.possibleTypes condition.name).filterMap sources.schema.type?
    return {
      name := definition.name.text
      typeCondition := condition.name
      typedChildren := OrderedMap.ofPairs (types.map fun type =>
        (type.name, sources.children type [definition.name.text] definition.selections)) }
  else none

/-- Adds the plan of a definition; the first one of a name stays. -/
def addDefinition (sources : Sources) (plan : Plan) : Definition → Plan
  | .operation definition =>
      match sources.operation? definition with
      | some operation =>
          { plan with
            operations := plan.operations.insertIfNew (operation.name.getD "") operation }
      | none => plan
  | .fragment definition =>
      match sources.fragment? definition with
      | some fragment =>
          { plan with fragments := plan.fragments.insertIfNew fragment.name fragment }
      | none => plan
  | _ => plan

end Sources

/-- The plan of a document. -/
def ofDocument (schema : Schema) (document : Document) (lines? : Option LineIndex) : Plan :=
  let sources : Sources := { schema, document, lines? }
  document.definitions.foldl sources.addDefinition {}

end Plan

end GraphQL
