import GraphQL.Proofs.Parsing.Grammar
import GraphQL.Proofs.Schema.Content
import GraphQL.Schema.Definition

/-!
# The grammar of printed schemas

Tokens spell a type, a directive or a set of root types. The productions are those that a printed
schema uses: directives stand only where a deprecation can, and neither an ampersand nor a bar comes
before the first name of a list.
-/

namespace GraphQL

/-- Items under their names; the last item of a name wins. -/
def OrderedMap.byName {α : Type} (name : α → String) (items : List α) : OrderedMap α :=
  OrderedMap.ofPairs (items.map fun item => (name item, item))

/-- What a type system definition says. -/
inductive SchemaPart where
  | roots (operations : List (OperationKind × String))
  | type (type : SchemaType)
  | directive (directive : SchemaDirective)

def RootOperation.entry (operation : RootOperation) : OperationKind × String :=
  (operation.kind, operation.type.text)

/-- What a definition says; nothing for an executable one. -/
def Definition.part? : Definition → Option SchemaPart
  | .schema definition => some (.roots (definition.operations.map RootOperation.entry))
  | .type definition => some (.type definition.toSchemaType)
  | .directive definition => some (.directive definition.toSchemaDirective)
  | .operation _ => none
  | .fragment _ => none

namespace Grammar

/-- A string, as it is written between its quotes, or nothing. -/
inductive SpellsDescription : List Token → Option String → Prop where
  | absent : SpellsDescription [] none
  | quoted {token : Token} {text : String} (isString : token.kind = .string)
      (reads : token.text? = some text) :
      SpellsDescription [token] (some (String.ofList (Text.trim (Parser.bodyBetween 1 text))))
  | block {token : Token} {text : String} (isBlock : token.kind = .blockString)
      (reads : token.text? = some text) :
      SpellsDescription [token] (some (String.ofList (Text.trim (Parser.bodyBetween 3 text))))

/-- A single token for a name with this text. -/
def SpellsName (tokens : List Token) (text : String) : Prop :=
  IsOne (IsName · ⟨text, ⟨0, 0⟩⟩) tokens

inductive SpellsInputValue : List Token → InputValue → Prop where
  | mk {descriptionTokens typeTokens defaultTokens : List Token} {token colon : Token}
      {description : Option String} {name : Name} {type : TypeExpression}
      {default? : Option Literal} (described : SpellsDescription descriptionTokens description)
      (isName : IsName token name)
      (isColon : IsMark .colon colon) (typed : SpellsType typeTokens type)
      (defaulted : SpellsDefault defaultTokens default?) :
      SpellsInputValue (descriptionTokens ++ token :: colon :: (typeTokens ++ defaultTokens))
        { name := name.text
          description
          type := type.toTypeRef
          default? := default?.map Literal.toJson }

abbrev SpellsInputValues : List Token → List InputValue → Prop :=
  SpellsOptional .openParen .closeParen SpellsInputValue

inductive SpellsOutputField : List Token → OutputField → Prop where
  | mk {descriptionTokens argumentTokens typeTokens directiveTokens : List Token}
      {token colon : Token} {description : Option String} {name : Name}
      {arguments : List InputValue} {type : TypeExpression} {directives : List Directive}
      (described : SpellsDescription descriptionTokens description)
      (isName : IsName token name) (given : SpellsInputValues argumentTokens arguments)
      (isColon : IsMark .colon colon) (typed : SpellsType typeTokens type)
      (directed : SpellsDirectives directiveTokens directives) :
      SpellsOutputField
        (descriptionTokens ++ token :: (argumentTokens ++ colon :: (typeTokens ++ directiveTokens)))
        { name := name.text
          description
          type := type.toTypeRef
          arguments := OrderedMap.byName InputValue.name arguments
          deprecation := deprecationReason directives }

inductive SpellsEnumValue : List Token → EnumValue → Prop where
  | mk {descriptionTokens directiveTokens : List Token} {token : Token}
      {description : Option String} {name : Name} {directives : List Directive}
      (described : SpellsDescription descriptionTokens description)
      (isName : IsName token name) (directed : SpellsDirectives directiveTokens directives) :
      SpellsEnumValue (descriptionTokens ++ token :: directiveTokens)
        { name := name.text, description, deprecation := deprecationReason directives }

/-- The interfaces after their keyword, or nothing. -/
inductive SpellsInterfaces : List Token → List String → Prop where
  | absent : SpellsInterfaces [] []
  | present {word : Token} {used : List Token} {names : List String}
      (isWord : IsKeyword .implements word) (named : SpellsSeparated .ampersand SpellsName used names) :
      SpellsInterfaces (word :: used) names

/-- The keyword of a type and what follows its name. -/
inductive SpellsForm : Keyword → List Token → TypeForm → Prop where
  | scalar : SpellsForm .scalar [] .scalar
  | object {interfaceTokens fieldTokens : List Token} {interfaces : List String}
      {fields : List OutputField} (implemented : SpellsInterfaces interfaceTokens interfaces)
      (between : SpellsBetween .openBrace .closeBrace SpellsOutputField fieldTokens fields) :
      SpellsForm .typeDefinition (interfaceTokens ++ fieldTokens)
        (.object (OrderedMap.byName OutputField.name fields) interfaces)
  | interface {interfaceTokens fieldTokens : List Token} {interfaces : List String}
      {fields : List OutputField} (implemented : SpellsInterfaces interfaceTokens interfaces)
      (between : SpellsBetween .openBrace .closeBrace SpellsOutputField fieldTokens fields) :
      SpellsForm .interface (interfaceTokens ++ fieldTokens)
        (.interface (OrderedMap.byName OutputField.name fields) interfaces)
  | union {equals : Token} {used : List Token} {members : List String}
      (isEquals : IsMark .equals equals) (named : SpellsSeparated .pipe SpellsName used members) :
      SpellsForm .union (equals :: used) (.union members)
  | enum {used : List Token} {values : List EnumValue}
      (between : SpellsBetween .openBrace .closeBrace SpellsEnumValue used values) :
      SpellsForm .enum used (.enum values)
  | inputObject {used : List Token} {fields : List InputValue}
      (between : SpellsBetween .openBrace .closeBrace SpellsInputValue used fields) :
      SpellsForm .input used (.inputObject (OrderedMap.byName InputValue.name fields))

inductive SpellsSchemaType : List Token → SchemaType → Prop where
  | mk {descriptionTokens formTokens : List Token} {word token : Token} {keyword : Keyword}
      {description : Option String} {name : Name} {form : TypeForm}
      (described : SpellsDescription descriptionTokens description)
      (isWord : IsKeyword keyword word) (isName : IsName token name)
      (formed : SpellsForm keyword formTokens form) :
      SpellsSchemaType (descriptionTokens ++ word :: token :: formTokens)
        { name := name.text, description, form }

/-- The word `repeatable`, or nothing. -/
inductive SpellsRepeatable : List Token → Bool → Prop where
  | absent : SpellsRepeatable [] false
  | present {word : Token} (isWord : IsKeyword .repeatable word) : SpellsRepeatable [word] true

/-- A word for a place where directives are used. -/
def SpellsLocation (tokens : List Token) (location : DirectiveLocation) : Prop :=
  IsOne (fun token => token.kind.isName = true ∧ token.text? = some location.text) tokens

inductive SpellsSchemaDirective : List Token → SchemaDirective → Prop where
  | mk {descriptionTokens argumentTokens repeatableTokens locationTokens : List Token}
      {word atSign token preposition : Token} {description : Option String} {name : Name}
      {arguments : List InputValue} {repeatable : Bool} {locations : List DirectiveLocation}
      (described : SpellsDescription descriptionTokens description) (isWord : IsKeyword .directive word)
      (isAt : IsMark .atSign atSign) (isName : IsName token name)
      (given : SpellsInputValues argumentTokens arguments)
      (repeated : SpellsRepeatable repeatableTokens repeatable)
      (isOn : IsKeyword .onCondition preposition)
      (located : SpellsSeparated .pipe SpellsLocation locationTokens locations) :
      SpellsSchemaDirective
        (descriptionTokens ++ word :: atSign :: token ::
          (argumentTokens ++ repeatableTokens ++ preposition :: locationTokens))
        { name := name.text
          description
          arguments := OrderedMap.byName InputValue.name arguments
          locations
          repeatable }

inductive SpellsRoot : List Token → OperationKind × String → Prop where
  | mk {word colon token : Token} {kind : OperationKind} {name : Name}
      (opens : Parser.operationKind? word.kind = some kind) (isColon : IsMark .colon colon)
      (isName : IsName token name) : SpellsRoot [word, colon, token] (kind, name.text)

/-- A part of a schema. -/
inductive SpellsPart : List Token → SchemaPart → Prop where
  | roots {word : Token} {used : List Token} {operations : List (OperationKind × String)}
      (isWord : IsKeyword .schema word)
      (between : SpellsBetween .openBrace .closeBrace SpellsRoot used operations) :
      SpellsPart (word :: used) (.roots operations)
  | type {used : List Token} {type : SchemaType} (spelled : SpellsSchemaType used type) :
      SpellsPart used (.type type)
  | directive {used : List Token} {directive : SchemaDirective}
      (spelled : SpellsSchemaDirective used directive) : SpellsPart used (.directive directive)

end Grammar

end GraphQL
