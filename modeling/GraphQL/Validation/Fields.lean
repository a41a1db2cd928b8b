import GraphQL.Validation.Rule

/-!
# Rules on fields, arguments and directives
-/

namespace GraphQL
namespace Rule

/-- Selected fields exist on the type they are selected on, and operations start at a type. -/
def fieldsOnCorrectType : Rule := ofEvent fun _ event =>
  match event with
  | .operation definition none =>
      [finding .undefinedType ("Schema is not configured for " ++ definition.kind.text ++ "s")
        [definition.span]]
  | .field head _ (some parent) none _ =>
      match parent.form with
      | .union _ =>
          [finding .undefinedField
            ("Selections can't be made directly on unions (see selections on " ++ parent.name
              ++ ")")
            [head.span]]
      | .object .. | .interface .. =>
          [finding .undefinedField
            ("Field '" ++ head.name.text ++ "' doesn't exist on type '" ++ parent.name ++ "'")
            [head.span]]
      | _ => []
  | _ => []

/-- What messages call the types whose values have no fields. -/
def leafKind (type : SchemaType) : String :=
  match type.form with
  | .enum _ => "enums"
  | _ => "scalars"

/-- Fields of leaf types have no selections, and fields of composite types have some. -/
def leafFieldSelections : Rule := ofEvent fun _ event =>
  match event with
  | .field head (some selections) _ (some definition) (some type) =>
      if type.isLeaf then
        [finding .selectionMismatch
          ("Selections can't be made on " ++ leafKind type ++ " (field '" ++ head.name.text
            ++ "' returns " ++ definition.type.text ++ " but has selections)")
          [selections.span]]
      else []
  | .field head none _ (some definition) (some type) =>
      if type.isComposite then
        [finding .selectionMismatch
          ("Field '" ++ head.name.text ++ "' of type '" ++ definition.type.text
            ++ "' must have a selection of subfields")
          [head.span]]
      else []
  | _ => []

/-- What declares the arguments at an event: how messages call it, what it declares, what is given
and where. -/
def argumentsAt? (context : RuleContext) (event : Event) :
    Option (String × OrderedMap InputValue × List Argument × Span) :=
  match event with
  | .field head _ _ (some definition) _ =>
      some ("Field '" ++ definition.name ++ "'", definition.arguments, head.arguments, head.span)
  | .directive directive _ =>
      (context.schema.directive? directive.name.text).map fun definition =>
        ("Directive '@" ++ definition.name ++ "'", definition.arguments, directive.arguments,
          directive.span)
  | _ => none

/-- Every argument is declared by its field or directive. -/
def argumentsAreDefined : Rule := ofEvent fun context event =>
  match argumentsAt? context event with
  | none => []
  | some (subject, declared, given, _) =>
      (given.filter fun argument => !declared.contains argument.name.text).map fun argument =>
        finding .undefinedArgument
          (subject ++ " doesn't accept argument '" ++ argument.name.text ++ "'") [argument.span]

/-- The declared arguments that must be given but are not. -/
def missingArguments (declared : OrderedMap InputValue) (given : List Argument) : List String :=
  (declared.values.filter fun argument =>
    argument.type.isNonNull && argument.default?.isNone
      && !given.any (·.name.text == argument.name)).map (·.name)

/-- Arguments without null and without a default are given. -/
def requiredArgumentsPresent : Rule := ofEvent fun context event =>
  match argumentsAt? context event with
  | none => []
  | some (subject, declared, given, span) =>
      let missing := missingArguments declared given
      if missing.isEmpty then []
      else
        [finding .missingArgument
          (subject ++ " is missing required arguments: " ++ ", ".intercalate missing) [span]]

/-- Directives are defined, and used where their definition allows. -/
def directivesAreDefined : Rule := ofEvent fun context event =>
  match event with
  | .directive directive location =>
      let name := directive.name.text
      match context.schema.directive? name with
      | none =>
          [finding .undefinedDirective ("Directive @" ++ name ++ " is not defined")
            [directive.span]]
      | some definition =>
          if definition.locations.contains location then []
          else
            let allowed := ", ".intercalate (definition.locations.map DirectiveLocation.text)
            [finding .undefinedDirective
              ("'@" ++ name ++ "' can't be applied to " ++ location.text ++ " (allowed: " ++ allowed
                ++ ")")
              [directive.span]]
  | _ => []

end Rule
end GraphQL
