import GraphQL.Validation.Rule

/-!
# The rule on variables

The variables that an operation uses, in its own selections and in the fragments spread there, in
the order of a walk that follows every spread once.
-/

namespace GraphQL

def argumentVariables (arguments : List Argument) : List Name :=
  arguments.flatMap fun argument => argument.value.variableNames

def directiveVariables (directives : List Directive) : List Name :=
  directives.flatMap fun directive => argumentVariables directive.arguments

/-- The fragments followed so far and the variables met so far. -/
structure VariableUse where
  followed : List String := []
  names : List Name := []

namespace VariableUse

def add (use : VariableUse) (names : List Name) : VariableUse :=
  { use with names := use.names ++ names }

section

variable (follow : FragmentSpread → VariableUse → VariableUse)

mutual

/-- Adds the variables of a selection; `follow` does so for the fragment of a spread. -/
def selection (use : VariableUse) : Selection → VariableUse
  | .field head none =>
      use.add (directiveVariables head.directives ++ argumentVariables head.arguments)
  | .field head (some selections) =>
      selectionSet
        (use.add (directiveVariables head.directives ++ argumentVariables head.arguments))
        selections
  | .inlineFragment head selections =>
      selectionSet (use.add (directiveVariables head.directives)) selections
  | .spread head => follow head (use.add (directiveVariables head.directives))

def selectionSet (use : VariableUse) : SelectionSet → VariableUse
  | ⟨_, items, _⟩ => selections use items

def selections (use : VariableUse) : List Selection → VariableUse
  | [] => use
  | first :: rest => selections (selection use first) rest

end

end

/-- Adds the variables of a selection set when spreads are followed at most so often in a row. -/
def within (document : Document) : Nat → VariableUse → SelectionSet → VariableUse
  | 0, use, set => selectionSet (fun _ use => use) use set
  | bound + 1, use, set =>
      selectionSet
        (fun head use =>
          if use.followed.contains head.name.text then use
          else
            let entered := { use with followed := head.name.text :: use.followed }
            match document.fragment? head.name.text with
            | none => entered
            | some fragment =>
                within document bound (entered.add (directiveVariables fragment.directives))
                  fragment.selections)
        use set

/-- The variables that an operation uses. A spread is followed once, so the number of fragments
bounds how often spreads are followed in a row. -/
def ofOperation (document : Document) (operation : OperationDefinition) : List Name :=
  (within document document.fragments.length
    (VariableUse.add {} (directiveVariables operation.directives)) operation.selections).names

end VariableUse

/-- The names that are not declared, each once. -/
def undeclaredNames (declared : List String) : List String → List Name → List Name
  | _, [] => []
  | reported, name :: rest =>
      if declared.contains name.text || reported.contains name.text then
        undeclaredNames declared reported rest
      else name :: undeclaredNames declared (name.text :: reported) rest

/-- What messages call an operation. -/
def OperationDefinition.title (operation : OperationDefinition) : String :=
  match operation.name with
  | some name => name.text
  | none => "anonymous " ++ operation.kind.text

/-- Variables that an operation uses are declared by it. -/
def Rule.variablesAreDefined : Rule := ofEvent fun context event =>
  match event with
  | .operation definition _ =>
      let declared := definition.variableDefinitions.map (·.name.text)
      let used := VariableUse.ofOperation context.document definition
      (undeclaredNames declared [] used).map fun name =>
        finding .undefinedVariable
          ("Variable $" ++ name.text ++ " is used by " ++ definition.title ++ " but not declared")
          [name.span]
  | _ => []

end GraphQL
