import GraphQL.Document.Selections
import GraphQL.Validation.Rule

/-!
# Rules on fragments
-/

namespace GraphQL

/-- The names spread in the fragment with a name. -/
def Document.spreadsOf (document : Document) (name : String) : List String :=
  ((document.fragment? name).map fun fragment => fragment.selections.spreads).getD []

/-- Whether one of the pending names is the start or leads to it. Every step looks at one name and
adds the spreads of a fragment only when it is new, so the spreads of the document bound the steps.
Names are taken from the front of the list. A search that takes them from its end, as from a stack,
meets them in another order but gives the same answer: whether the start is among all names that can
be met. -/
def Document.reaches (document : Document) (start : String) :
    Nat → List String → List String → Bool
  | 0, _, _ => false
  | _ + 1, _, [] => false
  | bound + 1, seen, name :: pending =>
      if name = start then true
      else if seen.contains name then document.reaches start bound seen pending
      else document.reaches start bound (name :: seen) (document.spreadsOf name ++ pending)

/-- Following spreads from a fragment leads back to it. -/
def Document.spreadsItself (document : Document) (name : String) : Bool :=
  document.reaches name (2 * document.spreadCount + 1) [] (document.spreadsOf name)

namespace Rule

/-- Fragments that are spread are defined. -/
def fragmentsAreDefined : Rule := ofEvent fun context event =>
  match event with
  | .spread head =>
      if (context.fragment? head.name.text).isSome then []
      else
        [finding .undefinedFragment
          ("Fragment " ++ head.name.text ++ " was used, but not defined") [head.span]]
  | _ => []

/-- What is wrong with the condition of a fragment. -/
def conditionFindings (condition : Name) : Option SchemaType → List Diagnostic
  | none =>
      [finding .undefinedType
        ("No such type " ++ condition.text ++ ", so it can't be a fragment condition")
        [condition.span]]
  | some type =>
      if type.isComposite then []
      else
        [finding .selectionMismatch
          ("Invalid fragment on type " ++ condition.text ++ " (must be Union, Interface or Object)")
          [condition.span]]

/-- The conditions of fragments name composite types. -/
def fragmentTypesExist : Rule := ofEvent fun _ event =>
  match event with
  | .fragment definition type => conditionFindings definition.typeCondition type
  | .inlineFragment head type =>
      match head.typeCondition with
      | some condition => conditionFindings condition type
      | none => []
  | _ => []

/-- Every fragment is spread somewhere. The rule remembers the names that were spread. -/
def fragmentsAreUsed : Rule where
  Memory := List String
  initial := []
  watch context used event :=
    match event with
    | .spread head => (head.name.text :: used, [])
    | .endOfDocument =>
        (used,
          (context.document.fragments.filter fun fragment => !used.contains fragment.name.text).map
            fun fragment =>
              finding .unusedFragment
                ("Fragment " ++ fragment.name.text ++ " was defined, but not used") [fragment.span])
    | _ => (used, [])

/-- No fragment spreads itself, directly or through others. -/
def fragmentsAreFinite : Rule := ofEvent fun context event =>
  match event with
  | .endOfDocument =>
      (context.document.fragments.filter fun fragment =>
        context.document.spreadsItself fragment.name.text).map fun fragment =>
          finding .fragmentCycle
            ("Fragment " ++ fragment.name.text ++ " contains an infinite loop") [fragment.span]
  | _ => []

end Rule
end GraphQL
