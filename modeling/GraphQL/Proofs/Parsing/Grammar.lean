import GraphQL.Parsing.Document
import Mathlib.Data.List.Forall2

/-!
# The grammar of executable documents

Each relation is a nonterminal: it holds between some tokens and the part of a document that they
spell. Its constructors are the productions. Keywords are names wherever a name may stand, so the
productions ask for names by the kind and the text of a token. The spans of a part and the numbers
of selection sets are not fixed by the grammar; what two readings of the same tokens have in common
is what is left without them.
-/

namespace GraphQL

/-! ## Without places -/

def Name.unplaced (name : Name) : Name :=
  { name with span := ⟨0, 0⟩ }

def TypeExpression.unplaced : TypeExpression → TypeExpression
  | named name => named name.unplaced
  | list item _ => list item.unplaced ⟨0, 0⟩
  | nonNull inner _ => nonNull inner.unplaced ⟨0, 0⟩

namespace Literal

mutual

/-- The literal without its places. -/
def unplaced : Literal → Literal
  | var name => var name.unplaced
  | int value _ => int value ⟨0, 0⟩
  | float value _ => float value ⟨0, 0⟩
  | string value _ => string value ⟨0, 0⟩
  | boolean value _ => boolean value ⟨0, 0⟩
  | null _ => null ⟨0, 0⟩
  | enum name => enum name.unplaced
  | list items _ => list (itemsUnplaced items) ⟨0, 0⟩
  | object fields _ => object (fieldsUnplaced fields) ⟨0, 0⟩

def itemsUnplaced : List Literal → List Literal
  | [] => []
  | item :: rest => unplaced item :: itemsUnplaced rest

def fieldsUnplaced : List (Name × Literal) → List (Name × Literal)
  | [] => []
  | (name, value) :: rest => (name.unplaced, unplaced value) :: fieldsUnplaced rest

end

theorem itemsUnplaced_eq (items : List Literal) : itemsUnplaced items = items.map unplaced := by
  induction items with
  | nil => rfl
  | cons item items ih => rw [itemsUnplaced, ih, List.map_cons]

theorem fieldsUnplaced_eq (fields : List (Name × Literal)) :
    fieldsUnplaced fields = fields.map fun field => (field.1.unplaced, field.2.unplaced) := by
  induction fields with
  | nil => rfl
  | cons field fields ih => rw [fieldsUnplaced, ih, List.map_cons]

end Literal

def Argument.unplaced (argument : Argument) : Argument :=
  { name := argument.name.unplaced, value := argument.value.unplaced, span := ⟨0, 0⟩ }

def Directive.unplaced (directive : Directive) : Directive :=
  { name := directive.name.unplaced
    arguments := directive.arguments.map Argument.unplaced
    span := ⟨0, 0⟩ }

def FieldSelection.unplaced (field : FieldSelection) : FieldSelection :=
  { responseAlias := field.responseAlias.map Name.unplaced
    name := field.name.unplaced
    arguments := field.arguments.map Argument.unplaced
    directives := field.directives.map Directive.unplaced
    span := ⟨0, 0⟩ }

def FragmentSpread.unplaced (spread : FragmentSpread) : FragmentSpread :=
  { name := spread.name.unplaced
    directives := spread.directives.map Directive.unplaced
    span := ⟨0, 0⟩ }

def InlineFragment.unplaced (fragment : InlineFragment) : InlineFragment :=
  { typeCondition := fragment.typeCondition.map Name.unplaced
    directives := fragment.directives.map Directive.unplaced
    span := ⟨0, 0⟩ }

mutual

/-- The selection without its places and without the numbers of its selection sets. -/
def Selection.unplaced : Selection → Selection
  | .field head none => .field head.unplaced none
  | .field head (some selections) => .field head.unplaced (some selections.unplaced)
  | .spread head => .spread head.unplaced
  | .inlineFragment head selections => .inlineFragment head.unplaced selections.unplaced

def SelectionSet.unplaced : SelectionSet → SelectionSet
  | ⟨_, items, _⟩ => ⟨0, Selection.listUnplaced items, ⟨0, 0⟩⟩

def Selection.listUnplaced : List Selection → List Selection
  | [] => []
  | selection :: rest => selection.unplaced :: Selection.listUnplaced rest

end

theorem Selection.listUnplaced_eq (selections : List Selection) :
    listUnplaced selections = selections.map unplaced := by
  induction selections with
  | nil => rfl
  | cons selection selections ih => rw [listUnplaced, ih, List.map_cons]

def VariableDefinition.unplaced (definition : VariableDefinition) : VariableDefinition :=
  { name := definition.name.unplaced
    type := definition.type.unplaced
    default? := definition.default?.map Literal.unplaced
    directives := definition.directives.map Directive.unplaced
    span := ⟨0, 0⟩ }

def OperationDefinition.unplaced (definition : OperationDefinition) : OperationDefinition :=
  { kind := definition.kind
    name := definition.name.map Name.unplaced
    variableDefinitions := definition.variableDefinitions.map VariableDefinition.unplaced
    directives := definition.directives.map Directive.unplaced
    selections := definition.selections.unplaced
    span := ⟨0, 0⟩ }

def FragmentDefinition.unplaced (definition : FragmentDefinition) : FragmentDefinition :=
  { name := definition.name.unplaced
    typeCondition := definition.typeCondition.unplaced
    directives := definition.directives.map Directive.unplaced
    selections := definition.selections.unplaced
    span := ⟨0, 0⟩ }

namespace Definition

/-- Whether the definition is an operation or a fragment. -/
def isExecutable : Definition → Bool
  | operation _ => true
  | fragment _ => true
  | _ => false

/-- An executable definition without its places; others stay as they are. -/
def unplaced : Definition → Definition
  | operation definition => operation definition.unplaced
  | fragment definition => fragment definition.unplaced
  | other => other

end Definition

def Document.unplaced (document : Document) : Document :=
  { definitions := document.definitions.map Definition.unplaced, span := ⟨0, 0⟩ }

/-! ## Productions -/

/-- A name neither ends the input nor is it a punctuator. -/
theorem TokenKind.ne_of_isName {kind : TokenKind} (isName : kind.isName = true)
    (mark : Punctuator) : kind ≠ .endOfInput ∧ kind ≠ .punctuator mark := by
  refine ⟨fun isEnd => ?_, fun isMark => ?_⟩
  · cases isEnd ▸ isName
  · cases isMark ▸ isName

namespace Grammar

/-- The token spells a name. -/
def IsName (token : Token) (name : Name) : Prop :=
  token.kind.isName = true ∧ token.text? = some name.text

/-- The token is a punctuator. -/
def IsMark (mark : Punctuator) (token : Token) : Prop :=
  token.kind = .punctuator mark

/-- The token is a keyword. -/
def IsKeyword (word : Keyword) (token : Token) : Prop :=
  token.kind = .keyword word

/-- Exactly one token, of which something holds. -/
def IsOne (holds : Token → Prop) (tokens : List Token) : Prop :=
  ∃ token, tokens = [token] ∧ holds token

section

variable {α : Type}

/-- Items one after the other. -/
inductive SpellsEach (spells : List Token → α → Prop) : List Token → List α → Prop where
  | mk {parts : List (List Token)} {items : List α} (each : List.Forall₂ spells parts items) :
      SpellsEach spells parts.flatten items

section

variable {spells : List Token → α → Prop}

theorem SpellsEach.nil : SpellsEach spells [] [] :=
  .mk .nil

theorem SpellsEach.cons {used others : List Token} {item : α} {items : List α}
    (first : spells used item) (each : SpellsEach spells others items) :
    SpellsEach spells (used ++ others) (item :: items) := by
  rcases each with ⟨each⟩
  exact .mk (.cons first each)

/-- No item is longer than all of them. -/
theorem SpellsEach.bounded {used : List Token} {items : List α} {bound : Nat}
    (each : SpellsEach spells used items) (short : used.length ≤ bound) :
    SpellsEach (fun used item => spells used item ∧ used.length ≤ bound) used items := by
  rcases each with ⟨each⟩
  refine .mk ?_
  induction each with
  | nil => exact .nil
  | cons first _ ih =>
      simp only [List.flatten_cons, List.length_append] at short
      exact .cons ⟨first, by omega⟩ (ih (by omega))

end

/-- One or more items with a punctuator between them. -/
inductive SpellsSeparated (mark : Punctuator) (spells : List Token → α → Prop) :
    List Token → List α → Prop where
  | last {used : List Token} {item : α} (spelled : spells used item) :
      SpellsSeparated mark spells used [item]
  | cons {used others : List Token} {separator : Token} {item : α} {items : List α}
      (spelled : spells used item) (separates : IsMark mark separator)
      (each : SpellsSeparated mark spells others items) :
      SpellsSeparated mark spells (used ++ separator :: others) (item :: items)

/-- Items between two punctuators. -/
inductive SpellsBetween (opening closing : Punctuator) (spells : List Token → α → Prop) :
    List Token → List α → Prop where
  | mk {first last : Token} {used : List Token} {items : List α} (opens : IsMark opening first)
      (each : SpellsEach spells used items) (closes : IsMark closing last) :
      SpellsBetween opening closing spells (first :: (used ++ [last])) items

/-- Items between two punctuators, or nothing. -/
inductive SpellsOptional (opening closing : Punctuator) (spells : List Token → α → Prop) :
    List Token → List α → Prop where
  | absent : SpellsOptional opening closing spells [] []
  | present {used : List Token} {items : List α}
      (between : SpellsBetween opening closing spells used items) :
      SpellsOptional opening closing spells used items

end

mutual

/-- A type without an exclamation mark at its end. -/
inductive SpellsPlainType : List Token → TypeExpression → Prop where
  | named {token : Token} {name : Name} (isName : IsName token name) :
      SpellsPlainType [token] (.named name)
  | list {first last : Token} {used : List Token} {item : TypeExpression} {span : Span}
      (opens : IsMark .openBracket first) (inner : SpellsType used item)
      (closes : IsMark .closeBracket last) :
      SpellsPlainType (first :: (used ++ [last])) (.list item span)

inductive SpellsType : List Token → TypeExpression → Prop where
  | nullable {used : List Token} {type : TypeExpression} (plain : SpellsPlainType used type) :
      SpellsType used type
  | nonNull {used : List Token} {last : Token} {type : TypeExpression} {span : Span}
      (plain : SpellsPlainType used type) (isBang : IsMark .bang last) :
      SpellsType (used ++ [last]) (.nonNull type span)

end

mutual

/-- A literal; a constant one holds no variables. -/
inductive SpellsLiteral (constant : Bool) : List Token → Literal → Prop where
  | var {dollar token : Token} {name : Name} (allowed : constant = false)
      (isDollar : IsMark .dollar dollar) (isName : IsName token name) :
      SpellsLiteral constant [dollar, token] (.var name)
  | int {token : Token} {text : String} {span : Span} (isInt : token.kind = .int)
      (reads : token.text? = some text)
      (fits : Json.fitsInt64 (Parser.wholeNumber text) = true) :
      SpellsLiteral constant [token] (.int (Parser.wholeNumber text) span)
  | float {token : Token} {text : String} {span : Span} (isFloat : token.kind = .float)
      (reads : token.text? = some text) :
      SpellsLiteral constant [token] (.float (Decimal.readNearest text) span)
  | string {token : Token} {text : String} {span : Span} (isString : token.kind = .string)
      (reads : token.text? = some text) :
      SpellsLiteral constant [token]
        (.string (String.ofList (Text.unescape (Parser.bodyBetween 1 text))) span)
  | blockString {token : Token} {text value : String} {span : Span}
      (isString : token.kind = .blockString) (reads : token.text? = some text)
      (means : Text.blockValue (Parser.bodyBetween 3 text) = .ok value) :
      SpellsLiteral constant [token] (.string value span)
  | trueValue {token : Token} {span : Span} (isTrue : token.kind = .keyword .trueValue) :
      SpellsLiteral constant [token] (.boolean true span)
  | falseValue {token : Token} {span : Span} (isFalse : token.kind = .keyword .falseValue) :
      SpellsLiteral constant [token] (.boolean false span)
  | null {token : Token} {span : Span} (isNull : token.kind = .keyword .nullValue) :
      SpellsLiteral constant [token] (.null span)
  | enum {token : Token} {name : Name} (isName : IsName token name)
      (other : token.kind ≠ .keyword .trueValue ∧ token.kind ≠ .keyword .falseValue ∧
        token.kind ≠ .keyword .nullValue) :
      SpellsLiteral constant [token] (.enum name)
  | list {used : List Token} {items : List Literal} {span : Span}
      (between : SpellsBetween .openBracket .closeBracket (SpellsLiteral constant) used items) :
      SpellsLiteral constant used (.list items span)
  | object {used : List Token} {fields : List (Name × Literal)} {span : Span}
      (between : SpellsBetween .openBrace .closeBrace (SpellsField constant) used fields) :
      SpellsLiteral constant used (.object fields span)

/-- A field of an object literal. -/
inductive SpellsField (constant : Bool) : List Token → Name × Literal → Prop where
  | mk {token colon : Token} {used : List Token} {name : Name} {value : Literal}
      (isName : IsName token name) (isColon : IsMark .colon colon)
      (inner : SpellsLiteral constant used value) :
      SpellsField constant (token :: colon :: used) (name, value)

end

inductive SpellsArgument : List Token → Argument → Prop where
  | mk {token colon : Token} {used : List Token} {name : Name} {value : Literal} {span : Span}
      (isName : IsName token name) (isColon : IsMark .colon colon)
      (inner : SpellsLiteral false used value) :
      SpellsArgument (token :: colon :: used) { name, value, span }

abbrev SpellsArguments : List Token → List Argument → Prop :=
  SpellsOptional .openParen .closeParen SpellsArgument

inductive SpellsDirective : List Token → Directive → Prop where
  | mk {first token : Token} {used : List Token} {name : Name} {arguments : List Argument}
      {span : Span} (isAt : IsMark .atSign first) (isName : IsName token name)
      (given : SpellsArguments used arguments) :
      SpellsDirective (first :: token :: used) { name, arguments, span }

abbrev SpellsDirectives : List Token → List Directive → Prop :=
  SpellsEach SpellsDirective

/-- The name of a field, after its alias if it has one. -/
inductive SpellsKey : List Token → Option Name → Name → Prop where
  | plain {token : Token} {name : Name} (isName : IsName token name) : SpellsKey [token] none name
  | renamed {first colon token : Token} {responseAlias name : Name}
      (isAlias : IsName first responseAlias) (isColon : IsMark .colon colon)
      (isName : IsName token name) : SpellsKey [first, colon, token] (some responseAlias) name

/-- A field without its selections. -/
inductive SpellsFieldHead : List Token → FieldSelection → Prop where
  | mk {keyTokens argumentTokens directiveTokens : List Token} {responseAlias : Option Name}
      {name : Name} {arguments : List Argument} {directives : List Directive} {span : Span}
      (key : SpellsKey keyTokens responseAlias name)
      (given : SpellsArguments argumentTokens arguments)
      (directed : SpellsDirectives directiveTokens directives) :
      SpellsFieldHead (keyTokens ++ argumentTokens ++ directiveTokens)
        { responseAlias, name, arguments, directives, span }

mutual

inductive SpellsSelection : List Token → Selection → Prop where
  | leaf {used : List Token} {head : FieldSelection} (field : SpellsFieldHead used head) :
      SpellsSelection used (.field head none)
  | field {headTokens used : List Token} {head : FieldSelection} {selections : SelectionSet}
      (field : SpellsFieldHead headTokens head) (inner : SpellsSelectionSet used selections) :
      SpellsSelection (headTokens ++ used) (.field head (some selections))
  | conditioned {dots word token : Token} {directiveTokens used : List Token}
      {typeCondition : Name} {directives : List Directive} {selections : SelectionSet} {span : Span}
      (isSpread : IsMark .spread dots) (isOn : word.kind = .keyword .onCondition)
      (isName : IsName token typeCondition)
      (directed : SpellsDirectives directiveTokens directives)
      (inner : SpellsSelectionSet used selections) :
      SpellsSelection (dots :: word :: token :: (directiveTokens ++ used))
        (.inlineFragment { typeCondition := some typeCondition, directives, span } selections)
  | unconditioned {dots : Token} {directiveTokens used : List Token} {directives : List Directive}
      {selections : SelectionSet} {span : Span} (isSpread : IsMark .spread dots)
      (directed : SpellsDirectives directiveTokens directives)
      (inner : SpellsSelectionSet used selections) :
      SpellsSelection (dots :: (directiveTokens ++ used))
        (.inlineFragment { typeCondition := none, directives, span } selections)
  | spread {dots token : Token} {directiveTokens : List Token} {name : Name}
      {directives : List Directive} {span : Span} (isSpread : IsMark .spread dots)
      (isName : IsName token name) (other : token.kind ≠ .keyword .onCondition)
      (directed : SpellsDirectives directiveTokens directives) :
      SpellsSelection (dots :: token :: directiveTokens) (.spread { name, directives, span })

inductive SpellsSelectionSet : List Token → SelectionSet → Prop where
  | mk {used : List Token} {items : List Selection} {id : Nat} {span : Span}
      (between : SpellsBetween .openBrace .closeBrace SpellsSelection used items) :
      SpellsSelectionSet used { id, items, span }

end

/-- The default of a variable after an equals sign, or nothing. -/
inductive SpellsDefault : List Token → Option Literal → Prop where
  | absent : SpellsDefault [] none
  | present {equals : Token} {used : List Token} {value : Literal}
      (isEquals : IsMark .equals equals) (inner : SpellsLiteral true used value) :
      SpellsDefault (equals :: used) (some value)

inductive SpellsVariable : List Token → VariableDefinition → Prop where
  | mk {dollar token colon : Token} {typeTokens defaultTokens directiveTokens : List Token}
      {name : Name} {type : TypeExpression} {default? : Option Literal}
      {directives : List Directive} {span : Span} (isDollar : IsMark .dollar dollar)
      (isName : IsName token name) (isColon : IsMark .colon colon)
      (typed : SpellsType typeTokens type) (defaulted : SpellsDefault defaultTokens default?)
      (directed : SpellsDirectives directiveTokens directives) :
      SpellsVariable
        (dollar :: token :: colon :: (typeTokens ++ defaultTokens ++ directiveTokens))
        { name, type, default?, directives, span }

inductive SpellsOptionalName : List Token → Option Name → Prop where
  | absent : SpellsOptionalName [] none
  | present {token : Token} {name : Name} (isName : IsName token name) :
      SpellsOptionalName [token] (some name)

inductive SpellsOperation : List Token → OperationDefinition → Prop where
  | shorthand {used : List Token} {selections : SelectionSet} {span : Span}
      (inner : SpellsSelectionSet used selections) :
      SpellsOperation used
        { kind := .query, name := none, variableDefinitions := [], directives := [], selections
          span }
  | full {word : Token} {nameTokens variableTokens directiveTokens used : List Token}
      {kind : OperationKind} {name : Option Name} {variableDefinitions : List VariableDefinition}
      {directives : List Directive} {selections : SelectionSet} {span : Span}
      (opens : Parser.operationKind? word.kind = some kind)
      (named : SpellsOptionalName nameTokens name)
      (declared : SpellsOptional .openParen .closeParen SpellsVariable variableTokens
        variableDefinitions)
      (directed : SpellsDirectives directiveTokens directives)
      (inner : SpellsSelectionSet used selections) :
      SpellsOperation (word :: (nameTokens ++ variableTokens ++ directiveTokens ++ used))
        { kind, name, variableDefinitions, directives, selections, span }

inductive SpellsFragment : List Token → FragmentDefinition → Prop where
  | mk {word token preposition condition : Token} {directiveTokens used : List Token}
      {name typeCondition : Name} {directives : List Directive} {selections : SelectionSet}
      {span : Span} (opens : word.kind = .keyword .fragment) (isName : IsName token name)
      (isOn : preposition.kind = .keyword .onCondition) (isCondition : IsName condition typeCondition)
      (directed : SpellsDirectives directiveTokens directives)
      (inner : SpellsSelectionSet used selections) :
      SpellsFragment (word :: token :: preposition :: condition :: (directiveTokens ++ used))
        { name, typeCondition, directives, selections, span }

inductive SpellsExecutable : List Token → Definition → Prop where
  | operation {used : List Token} {definition : OperationDefinition}
      (spelled : SpellsOperation used definition) : SpellsExecutable used (.operation definition)
  | fragment {used : List Token} {definition : FragmentDefinition}
      (spelled : SpellsFragment used definition) : SpellsExecutable used (.fragment definition)

/-- A definition, after a description that is not kept. -/
inductive SpellsDefinition : List Token → Definition → Prop where
  | bare {used : List Token} {definition : Definition}
      (spelled : SpellsExecutable used definition) : SpellsDefinition used definition
  | described {token : Token} {used : List Token} {definition : Definition}
      (isString : token.kind = .string ∨ token.kind = .blockString)
      (spelled : SpellsExecutable used definition) : SpellsDefinition (token :: used) definition

inductive SpellsDocument : List Token → Document → Prop where
  | mk {used : List Token} {definitions : List Definition} {span : Span}
      (each : SpellsEach SpellsDefinition used definitions) :
      SpellsDocument used { definitions, span }

/-! ## Every part has a token -/

theorem SpellsBetween.ne_nil {α : Type} {opening closing : Punctuator}
    {spells : List Token → α → Prop} {used : List Token} {items : List α}
    (between : SpellsBetween opening closing spells used items) : used ≠ [] := by
  rcases between with ⟨_, _, _⟩
  simp

theorem SpellsLiteral.ne_nil {constant : Bool} {used : List Token} {literal : Literal}
    (spelled : SpellsLiteral constant used literal) : used ≠ [] := by
  cases spelled with
  | list between => exact between.ne_nil
  | object between => exact between.ne_nil
  | _ => simp

theorem SpellsField.ne_nil {constant : Bool} {used : List Token} {field : Name × Literal}
    (spelled : SpellsField constant used field) : used ≠ [] := by
  rcases spelled with ⟨_, _, _⟩
  simp

theorem SpellsArgument.ne_nil {used : List Token} {argument : Argument}
    (spelled : SpellsArgument used argument) : used ≠ [] := by
  rcases spelled with ⟨_, _, _⟩
  simp

theorem SpellsSelectionSet.ne_nil {used : List Token} {selections : SelectionSet}
    (spelled : SpellsSelectionSet used selections) : used ≠ [] := by
  rcases spelled with ⟨between⟩
  exact between.ne_nil

theorem SpellsFieldHead.ne_nil {used : List Token} {head : FieldSelection}
    (spelled : SpellsFieldHead used head) : used ≠ [] := by
  rcases spelled with ⟨key, _, _⟩
  cases key <;> simp

theorem SpellsSelection.ne_nil {used : List Token} {selection : Selection}
    (spelled : SpellsSelection used selection) : used ≠ [] := by
  cases spelled with
  | leaf field => exact field.ne_nil
  | field field _ => exact List.append_ne_nil_of_left_ne_nil field.ne_nil _
  | _ => simp

theorem SpellsVariable.ne_nil {used : List Token} {definition : VariableDefinition}
    (spelled : SpellsVariable used definition) : used ≠ [] := by
  rcases spelled with ⟨_, _, _, _, _, _⟩
  simp

theorem SpellsExecutable.ne_nil {used : List Token} {definition : Definition}
    (spelled : SpellsExecutable used definition) : used ≠ [] := by
  cases spelled with
  | operation spelled =>
      cases spelled with
      | shorthand inner => exact inner.ne_nil
      | full => simp
  | fragment spelled =>
      rcases spelled with ⟨_, _, _, _, _, _⟩
      simp

theorem SpellsDefinition.ne_nil {used : List Token} {definition : Definition}
    (spelled : SpellsDefinition used definition) : used ≠ [] := by
  cases spelled with
  | bare spelled => exact spelled.ne_nil
  | described => simp

end Grammar

end GraphQL
