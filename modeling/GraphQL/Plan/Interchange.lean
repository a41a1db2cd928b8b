import GraphQL.Plan
import GraphQL.Schema.Interchange

/-!
# Plans as JSON
-/

namespace GraphQL

def Span.toJson (span : Span) : Json :=
  .object [("start", .int span.start), ("end", .int span.stop)]

def Location.toJson (location : Location) : Json :=
  .object [("line", .int location.line), ("column", .int location.column)]

namespace PlanValue

/-- The name of a kind of value with the value itself. -/
def tagged (kind : String) (value : Json) : Json :=
  .object [("kind", .string kind), ("value", value)]

mutual

def toJson : PlanValue → Json
  | var name => tagged "variable" (.string name)
  | int value => tagged "int" (.int value)
  | float value => tagged "float" (if value.isFinite then .float value else .null)
  | string value => tagged "string" (.string value)
  | boolean value => tagged "boolean" (.bool value)
  | null => .object [("kind", .string "null")]
  | enum name => tagged "enum" (.string name)
  | list items => tagged "list" (.array (itemsToJson items))
  | object fields => tagged "object" (.object (fieldsToJson fields))

def itemsToJson : List PlanValue → List Json
  | [] => []
  | item :: rest => toJson item :: itemsToJson rest

def fieldsToJson : List (String × PlanValue) → List (String × Json)
  | [] => []
  | (name, value) :: rest => (name, toJson value) :: fieldsToJson rest

end

end PlanValue

def ConditionKind.text : ConditionKind → String
  | skip => "skip"
  | inclusion => "include"

def PlanCondition.toJson (condition : PlanCondition) : Json :=
  .object [("kind", .string condition.kind.text), ("value", condition.value.toJson)]

/-- A field of an object that is left out if it has nothing to say. -/
def optionalField (present : Bool) (name : String) (value : Json) : List (String × Json) :=
  if present then [(name, value)] else []

namespace PlanNode

mutual

def toJson (node : PlanNode) : Json :=
  match node with
  | ⟨responseKey, name, ownerType, returnType, arguments, spans, locations, conditions,
      typedChildren⟩ =>
      .object
        ([("response_key", .string responseKey), ("name", .string name),
            ("owner_type", .string ownerType), ("return_type", returnType.toJson),
            ("arguments", .object (PlanValue.fieldsToJson arguments)),
            ("spans", .array (spans.map Span.toJson))]
          ++ optionalField (!locations.isEmpty) "locations" (.array (locations.map Location.toJson))
          ++ [("conditions", .array (conditions.map fun all =>
              Json.array (all.map PlanCondition.toJson)))]
          ++ optionalField (!typedChildren.isEmpty) "typed_children"
            (.object (typedToJson typedChildren)))

def typedToJson : List (String × List (String × PlanNode)) → List (String × Json)
  | [] => []
  | (type, children) :: rest => (type, .object (childrenToJson children)) :: typedToJson rest

def childrenToJson : List (String × PlanNode) → List (String × Json)
  | [] => []
  | (key, node) :: rest => (key, toJson node) :: childrenToJson rest

end

end PlanNode

def PlanVariable.toJson (declared : PlanVariable) : Json :=
  .object
    ([("name", .string declared.name), ("ty", declared.type.toJson)]
      ++ optionalField declared.default?.isSome "default_value" (declared.default?.getD .null))

def PlanOperation.toJson (operation : PlanOperation) : Json :=
  .object
    [("name", Json.ofString? operation.name), ("kind", .string operation.kind.text),
      ("root_type", .string operation.rootType),
      ("variables", .array (operation.variableDefinitions.map PlanVariable.toJson)),
      ("children", .object (PlanNode.childrenToJson operation.children)),
      ("span", operation.span.toJson)]

def PlanFragment.toJson (fragment : PlanFragment) : Json :=
  .object
    [("name", .string fragment.name), ("type_condition", .string fragment.typeCondition),
      ("typed_children", .object (PlanNode.typedToJson fragment.typedChildren))]

def Plan.toJson (plan : Plan) : Json :=
  .object
    [("operations", .object (plan.operations.mapValues PlanOperation.toJson)),
      ("fragments", .object (plan.fragments.mapValues PlanFragment.toJson))]

end GraphQL
