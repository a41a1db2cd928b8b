import GraphQL.Document
import GraphQL.Proofs.Token.Pieces

/-!
# Outlines of documents

The outline of a part of a document is the tree of the places that it and its parts were read from,
in the order of the source. An outline is well placed in a source if everything lies in the source
and inside its parent, parts of one parent lie one behind the other, and every name is what the
source says at its place. The place of a variable starts at the dollar sign and ends with the name;
blanks may stand between the two.
-/

namespace GraphQL

/-- The places of a part of a document and of everything in it. -/
inductive Outline where
  | name (name : Name)
  | var (name : Name)
  | node (span : Span) (parts : List Outline)

namespace Outline

def span : Outline → Span
  | name word => word.span
  | var word => word.span
  | node span _ => span

/-- The parts lie between two offsets, one behind the other. -/
structure AreBetween (start stop : Nat) (parts : List Outline) : Prop where
  ordered : parts.Pairwise fun first second => first.span.stop ≤ second.span.start
  inside : ∀ part ∈ parts, start ≤ part.span.start ∧ part.span.start ≤ part.span.stop ∧
    part.span.stop ≤ stop

/-- The outline fits the source. -/
inductive IsPlacedIn (source : List Char) : Outline → Prop
  | name {name : Name} : name.span.IsPiece source name.text.toList → IsPlacedIn source (.name name)
  | var {name : Name} (gap : List Char) :
      name.span.IsPiece source ('$' :: (gap ++ name.text.toList)) → IsPlacedIn source (.var name)
  | node {span : Span} {parts : List Outline} : span.start ≤ span.stop →
      span.stop ≤ Token.byteSize source → AreBetween span.start span.stop parts →
      (∀ part ∈ parts, part.IsPlacedIn source) → IsPlacedIn source (.node span parts)

end Outline

/-! ## Parts of documents -/

namespace TypeExpression

def outline : TypeExpression → Outline
  | named name => .name name
  | list item span => .node span [item.outline]
  | nonNull inner span => .node span [inner.outline]

end TypeExpression

namespace Literal

mutual

def outline : Literal → Outline
  | var name => .var name
  | enum name => .name name
  | list items span => .node span (itemOutlines items)
  | object fields span => .node span (fieldOutlines fields)
  | int _ span => .node span []
  | float _ span => .node span []
  | string _ span => .node span []
  | boolean _ span => .node span []
  | null span => .node span []

def itemOutlines : List Literal → List Outline
  | [] => []
  | item :: rest => item.outline :: itemOutlines rest

/-- The names and the values of fields in turn. -/
def fieldOutlines : List (Name × Literal) → List Outline
  | [] => []
  | (name, value) :: rest => .name name :: value.outline :: fieldOutlines rest

end

theorem itemOutlines_eq (items : List Literal) : itemOutlines items = items.map outline := by
  induction items with
  | nil => rfl
  | cons item rest ih => rw [itemOutlines, ih, List.map_cons]

theorem fieldOutlines_eq (fields : List (Name × Literal)) :
    fieldOutlines fields = fields.flatMap fun field => [.name field.1, field.2.outline] := by
  induction fields with
  | nil => rfl
  | cons field rest ih => rw [fieldOutlines, ih, List.flatMap_cons]; rfl

end Literal

def Argument.outline (argument : Argument) : Outline :=
  .node argument.span [.name argument.name, argument.value.outline]

def Directive.outline (directive : Directive) : Outline :=
  .node directive.span (.name directive.name :: directive.arguments.map Argument.outline)

/-! ## Executable definitions -/

namespace Selection

mutual

def outline : Selection → Outline
  | field head selections =>
      .node head.span
        (head.responseAlias.toList.map .name ++ .name head.name ::
          (head.arguments.map Argument.outline ++ head.directives.map Directive.outline ++
            innerOutlines selections))
  | spread head => .node head.span (.name head.name :: head.directives.map Directive.outline)
  | inlineFragment head selections =>
      .node head.span
        (head.typeCondition.toList.map .name ++ head.directives.map Directive.outline ++
          [setOutline selections])

/-- The selections of a field, if it has any. -/
def innerOutlines : Option SelectionSet → List Outline
  | none => []
  | some selections => [setOutline selections]

def setOutline : SelectionSet → Outline
  | ⟨_, items, span⟩ => .node span (outlines items)

def outlines : List Selection → List Outline
  | [] => []
  | first :: rest => first.outline :: outlines rest

end

theorem outlines_eq (selections : List Selection) :
    outlines selections = selections.map outline := by
  induction selections with
  | nil => rfl
  | cons first rest ih => rw [outlines, ih, List.map_cons]

end Selection

def SelectionSet.outline (selections : SelectionSet) : Outline :=
  Selection.setOutline selections

def VariableDefinition.outline (definition : VariableDefinition) : Outline :=
  .node definition.span
    (.name definition.name :: definition.type.outline ::
      (definition.default?.toList.map Literal.outline ++
        definition.directives.map Directive.outline))

def OperationDefinition.outline (definition : OperationDefinition) : Outline :=
  .node definition.span
    (definition.name.toList.map .name ++
      definition.variableDefinitions.map VariableDefinition.outline ++
      definition.directives.map Directive.outline ++ [definition.selections.outline])

def FragmentDefinition.outline (definition : FragmentDefinition) : Outline :=
  .node definition.span
    (.name definition.name :: .name definition.typeCondition ::
      (definition.directives.map Directive.outline ++ [definition.selections.outline]))

/-! ## Type system definitions -/

def Description.outline (description : Description) : Outline :=
  .node description.span []

def InputValueDefinition.outline (definition : InputValueDefinition) : Outline :=
  .node definition.span
    (definition.description.toList.map Description.outline ++
      .name definition.name :: definition.type.outline ::
        (definition.default?.toList.map Literal.outline ++
          definition.directives.map Directive.outline))

def FieldDefinition.outline (definition : FieldDefinition) : Outline :=
  .node definition.span
    (definition.description.toList.map Description.outline ++
      .name definition.name ::
        (definition.arguments.map InputValueDefinition.outline ++ definition.type.outline ::
          definition.directives.map Directive.outline))

def EnumValueDefinition.outline (definition : EnumValueDefinition) : Outline :=
  .node definition.span
    (definition.description.toList.map Description.outline ++
      .name definition.name :: definition.directives.map Directive.outline)

namespace TypeBody

/-- What a type says before its directives. -/
def frontOutlines : TypeBody → List Outline
  | object implements _ => implements.map .name
  | interface implements _ => implements.map .name
  | _ => []

/-- What a type says after its directives. -/
def backOutlines : TypeBody → List Outline
  | object _ fields => fields.map FieldDefinition.outline
  | interface _ fields => fields.map FieldDefinition.outline
  | union members => members.map .name
  | enum values => values.map EnumValueDefinition.outline
  | input fields => fields.map InputValueDefinition.outline
  | scalar => []

end TypeBody

def TypeDefinition.outline (definition : TypeDefinition) : Outline :=
  .node definition.span
    (definition.description.toList.map Description.outline ++
      .name definition.name ::
        (definition.body.frontOutlines ++ definition.directives.map Directive.outline ++
          definition.body.backOutlines))

def RootOperation.outline (operation : RootOperation) : Outline :=
  .node operation.span [.name operation.type]

def SchemaDefinition.outline (definition : SchemaDefinition) : Outline :=
  .node definition.span
    (definition.directives.map Directive.outline ++
      definition.operations.map RootOperation.outline)

def DirectiveDefinition.outline (definition : DirectiveDefinition) : Outline :=
  .node definition.span
    (definition.description.toList.map Description.outline ++
      .name definition.name :: definition.arguments.map InputValueDefinition.outline)

/-! ## Documents -/

def Definition.outline : Definition → Outline
  | schema definition => definition.outline
  | type definition => definition.outline
  | directive definition => definition.outline
  | operation definition => definition.outline
  | fragment definition => definition.outline

def Document.outline (document : Document) : Outline :=
  .node document.span (document.definitions.map Definition.outline)

end GraphQL
