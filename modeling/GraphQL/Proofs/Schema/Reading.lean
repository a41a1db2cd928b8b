import GraphQL.Proofs.Parsing.Correctness
import GraphQL.Proofs.Schema.Arrangement
import GraphQL.Proofs.Schema.Owning
import GraphQL.Proofs.Schema.Taking

/-!
# Reading the parts of a schema

Definitions that say the parts of a schema, each name once, make a schema that has the types and
directives of these parts beside the built-in ones. It is accepted if the schema that the parts come
from is well-formed, since it refers to the same names and its root types are the same.
-/

namespace GraphQL

open Grammar Token

/-! ## Sources of parts -/

/-- A source is read without errors where the parser takes all of its tokens. -/
theorem Document.exists_parse_of_takes {source : String} {shows : Document → Prop}
    {rest : List Token} (takes : Parser.Takes Parser.document (beforeEnd source) shows rest) :
    ∃ parsed, parse source = .ok parsed ∧ parsed.hasErrors = false ∧ shows parsed.document := by
  rcases takes _ (Parser.isAt_start source) with ⟨document, after, run, quiet, _, holds⟩
  have parses : parse source = .ok
      { document, interner := after.interner, diagnostics := after.diagnostics } := by
    rw [parse, ofTokens, run]
    rfl
  refine ⟨_, parses, ?_, holds⟩
  rw [ParsedDocument.hasErrors, quiet, diagnostics_start]
  rfl

/-! ## Adding definitions -/

theorem TypeDefinition.isKeyed_toSchemaType (definition : TypeDefinition) :
    definition.toSchemaType.form.IsKeyed := by
  rw [toSchemaType]
  cases definition.body with
  | input fields => exact OrderedMap.nodup_keys_ofPairs _
  | _ => trivial

namespace Schema

theorem IsKeyed.addType {schema : Schema} (keyed : schema.IsKeyed) {type : SchemaType}
    (formKeyed : type.form.IsKeyed) : (schema.addType type).IsKeyed where
  types := OrderedMap.nodup_keys_insert keyed.types _ _
  typesNamed entry member := by
    rcases OrderedMap.mem_insert member with rfl | member
    · rfl
    · exact keyed.typesNamed entry member
  forms entry member := by
    rcases OrderedMap.mem_insert member with rfl | member
    · exact formKeyed
    · exact keyed.forms entry member
  directives := keyed.directives
  directivesNamed := keyed.directivesNamed

theorem IsKeyed.addDirective {schema : Schema} (keyed : schema.IsKeyed)
    (directive : SchemaDirective) : (schema.addDirective directive).IsKeyed where
  types := keyed.types
  typesNamed := keyed.typesNamed
  forms := keyed.forms
  directives := OrderedMap.nodup_keys_insert keyed.directives _ _
  directivesNamed entry member := by
    rcases OrderedMap.mem_insert member with rfl | member
    · rfl
    · exact keyed.directivesNamed entry member

theorem isKeyed_initial : initial.IsKeyed where
  types := by decide
  typesNamed := by decide
  forms entry member := by
    rcases List.mem_map.mp member with ⟨name, _, rfl⟩
    trivial
  directives := by decide
  directivesNamed := by decide

theorem addDefinitions_isKeyed {definitions : List Definition} {schema defined : Schema}
    (keyed : schema.IsKeyed) (added : addDefinitions schema definitions = .ok defined) :
    defined.IsKeyed :=
  addDefinitions_preserves IsKeyed
    (fun _ definition _ keyed => keyed.addType definition.isKeyed_toSchemaType)
    (fun _ definition _ keyed => keyed.addDirective definition.toSchemaDirective) added keyed

/-- Every schema that is read has each name once. -/
theorem ofSource_isKeyed {source : String} {schema : Schema}
    (accepted : ofSource source = .ok schema) : schema.IsKeyed := by
  rcases ofSource_eq_ok.mp accepted with ⟨parsed, _, _, defines⟩
  rcases ofDefinitions_eq_ok.mp defines with ⟨defined, added, rfl, _, _⟩
  have keyed := addDefinitions_isKeyed isKeyed_initial added
  have types := withConventionalRoots_setRoots_types defined
    (rootOperations parsed.document.definitions)
  have directives := setRoots_directives defined (rootOperations parsed.document.definitions)
  exact ⟨types ▸ keyed.types, types ▸ keyed.typesNamed, types ▸ keyed.forms,
    directives ▸ keyed.directives, directives ▸ keyed.directivesNamed⟩

/-! ### Parts -/

end Schema

namespace SchemaPart

/-- The names of the types that a part defines. -/
def typeNames : SchemaPart → List String
  | .type definition => [definition.name]
  | _ => []

/-- The root types that a part names. -/
def rootEntries : SchemaPart → List (OperationKind × String)
  | .roots operations => operations
  | _ => []

end SchemaPart

namespace Schema

/-- Adds what a part defines. -/
def addPart (schema : Schema) : SchemaPart → Schema
  | .roots _ => schema
  | .type type => schema.addType type
  | .directive directive => schema.addDirective directive

/-- Definitions of types with new names are added part by part. -/
theorem addDefinitions_of_parts {definitions : List Definition} {parts : List SchemaPart}
    {schema : Schema} (same : definitions.map Definition.part? = parts.map some)
    (distinct : (OrderedMap.keys schema.types ++ parts.flatMap SchemaPart.typeNames).Nodup) :
    addDefinitions schema definitions = .ok (parts.foldl addPart schema) := by
  induction definitions generalizing parts schema with
  | nil =>
      obtain rfl : parts = [] := List.map_eq_nil_iff.mp same.symm
      rfl
  | cons definition rest ih =>
      cases parts with
      | nil => cases same
      | cons part parts =>
          rw [List.map_cons, List.map_cons, List.cons.injEq] at same
          rcases same with ⟨first, same⟩
          rw [List.flatMap_cons] at distinct
          cases definition with
          | schema definition =>
              cases first
              exact @ih parts schema same distinct
          | type definition =>
              cases first
              have isNew : definition.toSchemaType.name ∉ OrderedMap.keys schema.types := by
                intro known
                exact (List.nodup_append.mp distinct).2.2 _ known _ List.mem_cons_self rfl
              have others : (OrderedMap.keys (schema.addType definition.toSchemaType).types ++
                  parts.flatMap SchemaPart.typeNames).Nodup := by
                rw [addType, OrderedMap.keys_insert, if_neg isNew, List.append_assoc]
                exact distinct
              have missing : schema.types.contains definition.toSchemaType.name = false := by
                rw [OrderedMap.contains, OrderedMap.find?_eq_none_iff.mpr isNew]
                rfl
              simp only [addDefinitions, missing]
              exact ih same others
          | directive definition =>
              cases first
              have others : (OrderedMap.keys (schema.addDirective
                  definition.toSchemaDirective).types ++
                  parts.flatMap SchemaPart.typeNames).Nodup := distinct
              exact ih same others
          | operation definition => cases first
          | fragment definition => cases first

theorem map_entry_rootOperations {definitions : List Definition} {parts : List SchemaPart}
    (same : definitions.map Definition.part? = parts.map some) :
    (rootOperations definitions).map RootOperation.entry =
      parts.flatMap SchemaPart.rootEntries := by
  induction definitions generalizing parts with
  | nil =>
      obtain rfl : parts = [] := List.map_eq_nil_iff.mp same.symm
      rfl
  | cons definition rest ih =>
      cases parts with
      | nil => cases same
      | cons part parts =>
          rw [List.map_cons, List.map_cons, List.cons.injEq] at same
          rcases same with ⟨first, same⟩
          have others := ih same
          rw [rootOperations] at others ⊢
          rw [List.flatMap_cons, List.map_append, others, List.flatMap_cons]
          cases definition <;> cases first <;> rfl

/-! ## The schema that the parts make -/

theorem foldl_addPart_types (schema : Schema) (types : List SchemaType) :
    (types.map SchemaPart.type).foldl addPart schema =
      { schema with
        types := (types.map fun type => (type.name, type)).foldl
          (fun map pair => OrderedMap.insert map pair.1 pair.2) schema.types } := by
  induction types generalizing schema with
  | nil => rfl
  | cons type rest ih => exact ih (schema.addType type)

theorem foldl_addPart_directives (schema : Schema) (directives : List SchemaDirective) :
    (directives.map SchemaPart.directive).foldl addPart schema =
      { schema with
        directives := (directives.map fun directive => (directive.name, directive)).foldl
          (fun map pair => OrderedMap.insert map pair.1 pair.2) schema.directives } := by
  induction directives generalizing schema with
  | nil => rfl
  | cons directive rest ih => exact ih (schema.addDirective directive)

section

variable (schema : Schema) (read : TypeRef → Json → Json)

/-- What is read of the own types, under their names. -/
def typeEntries : OrderedMap SchemaType :=
  schema.ownTypes.map fun type => (type.name, type.reread read)

/-- What is read of the own directives, under their names. -/
def directiveEntries : OrderedMap SchemaDirective :=
  schema.ownDirectives.map fun directive => (directive.name, directive.reread read)

theorem typeNames_partsReread : (schema.partsReread read).flatMap SchemaPart.typeNames =
    OrderedMap.keys (schema.typeEntries read) := by
  have roots : (if schema.hasConventionalRoots then [] else
      [SchemaPart.roots schema.rootEntries]).flatMap SchemaPart.typeNames = [] := by
    split <;> rfl
  have directives : (schema.ownDirectives.map fun directive =>
      SchemaPart.directive (directive.reread read)).flatMap SchemaPart.typeNames = [] := by
    rw [List.flatMap_map]
    exact List.flatMap_eq_nil_iff.mpr fun _ _ => rfl
  rw [partsReread, List.flatMap_append, List.flatMap_append, roots, directives, List.flatMap_map,
    typeEntries, OrderedMap.keys, List.map_map]
  exact List.map_eq_flatMap.symm

theorem rootEntries_partsReread : (schema.partsReread read).flatMap SchemaPart.rootEntries =
    if schema.hasConventionalRoots then [] else schema.rootEntries := by
  have directives : (schema.ownDirectives.map fun directive =>
      SchemaPart.directive (directive.reread read)).flatMap SchemaPart.rootEntries = [] := by
    rw [List.flatMap_map]
    exact List.flatMap_eq_nil_iff.mpr fun _ _ => rfl
  have types : (schema.ownTypes.map fun type =>
      SchemaPart.type (type.reread read)).flatMap SchemaPart.rootEntries = [] := by
    rw [List.flatMap_map]
    exact List.flatMap_eq_nil_iff.mpr fun _ _ => rfl
  rw [partsReread, List.flatMap_append, List.flatMap_append, directives, types, List.append_nil,
    List.append_nil]
  split
  · rfl
  · exact List.append_nil _

theorem foldl_addPart_partsReread {base : Schema}
    (types : (OrderedMap.keys (base.types ++ schema.typeEntries read)).Nodup)
    (directives : (OrderedMap.keys (base.directives ++ schema.directiveEntries read)).Nodup) :
    (schema.partsReread read).foldl addPart base =
      { base with
        types := base.types ++ schema.typeEntries read
        directives := base.directives ++ schema.directiveEntries read } := by
  have roots : (if schema.hasConventionalRoots then [] else
      [SchemaPart.roots schema.rootEntries]).foldl addPart base = base := by
    split <;> rfl
  have ofTypes : schema.ownTypes.map (fun type => SchemaPart.type (type.reread read)) =
      (schema.ownTypes.map (SchemaType.reread read)).map SchemaPart.type := by
    rw [List.map_map]
    rfl
  have ofDirectives : schema.ownDirectives.map (fun directive =>
      SchemaPart.directive (directive.reread read)) =
      (schema.ownDirectives.map (SchemaDirective.reread read)).map SchemaPart.directive := by
    rw [List.map_map]
    rfl
  rw [partsReread, List.foldl_append, List.foldl_append, roots, ofTypes, ofDirectives,
    foldl_addPart_directives, foldl_addPart_types, List.map_map, List.map_map]
  have added := OrderedMap.foldl_insert_of_nodup types
  have addedDirectives := OrderedMap.foldl_insert_of_nodup directives
  rw [typeEntries] at added
  rw [directiveEntries] at addedDirectives
  rw [typeEntries, directiveEntries, ← added, ← addedDirectives]
  rfl

end

/-! ## Contents -/

theorem inputContent_singleton (forms : String → Option InputForm) (name : String)
    (value : InputValue) :
    inputContent forms [(name, value)] = [(name, value.content forms)] := by
  rw [inputContent, OrderedMap.sortedByKey, List.mergeSort_singleton]
  rfl

/-- Built-in types and directives lose their descriptions only. -/
theorem mapValues_content_initial_types (forms : String → Option InputForm) :
    OrderedMap.mapValues initial.types (SchemaType.content forms) = initial.undescribed.types :=
  rfl

theorem mapValues_content_initial_directives (forms : String → Option InputForm) :
    OrderedMap.mapValues initial.directives (SchemaDirective.content forms) =
      initial.undescribed.directives := by
  have reason : Json.floated forms (.string defaultDeprecation) (.named "String") =
      .string defaultDeprecation := Json.floated_named forms (by simp) (by simp) _
  simp only [initial, conditionDirective, deprecatedDirective, OrderedMap.mapValues, List.map_cons,
    List.map_nil, SchemaDirective.content, inputContent_singleton, InputValue.content,
    Option.map_some, Option.map_none, reason]
  rfl

/-- Own values under their names, in whatever order. -/
theorem perm_of_extends {α : Type} {map front own : OrderedMap α} {name : α → String}
    (extends_ : map.Extends front name own) {listed : List α}
    (perm : listed.Perm own.values) (change : α → α) :
    ((OrderedMap.sortedByKey map).mapValues change).Perm
      (OrderedMap.mapValues front change ++
        listed.map fun value => (name value, change value)) := by
  have sorted : ((OrderedMap.sortedByKey map).mapValues change).Perm
      (OrderedMap.mapValues map change) := (OrderedMap.sortedByKey_perm map).map _
  have entries : OrderedMap.mapValues own change =
      own.values.map fun value => (name value, change value) := by
    rw [OrderedMap.mapValues, OrderedMap.values, List.map_map]
    exact List.map_congr_left fun entry member => by
      rw [Function.comp_apply, extends_.named entry member]
  have split : OrderedMap.mapValues map change =
      OrderedMap.mapValues front change ++ OrderedMap.mapValues own change := by
    rw [extends_.same]
    exact List.map_append
  rw [split, entries] at sorted
  exact sorted.trans (List.Perm.append_left _ (perm.map _).symm)

section

variable {schema : Schema} {types : OrderedMap SchemaType}
  {directives : OrderedMap SchemaDirective} (owns : schema.Owns types directives)

include owns

theorem Owns.content_types_perm : schema.content.types.Perm (initial.undescribed.types ++
    OrderedMap.mapValues (schema.typeEntries (readFloated schema.inputForm?))
      SchemaType.undescribed) := by
  have perm := perm_of_extends owns.types owns.ownTypes_perm (SchemaType.content schema.inputForm?)
  have entries : OrderedMap.mapValues (schema.typeEntries (readFloated schema.inputForm?))
      SchemaType.undescribed =
      schema.ownTypes.map fun type => (type.name, type.content schema.inputForm?) := by
    simp only [typeEntries, OrderedMap.mapValues, List.map_map, Function.comp_def,
      SchemaType.undescribed_reread]
  rw [entries]
  exact mapValues_content_initial_types schema.inputForm? ▸ perm

theorem Owns.content_directives_perm : schema.content.directives.Perm
    (initial.undescribed.directives ++
      OrderedMap.mapValues (schema.directiveEntries (readFloated schema.inputForm?))
        SchemaDirective.undescribed) := by
  have perm := perm_of_extends owns.directives owns.ownDirectives_perm
    (SchemaDirective.content schema.inputForm?)
  have entries : OrderedMap.mapValues (schema.directiveEntries (readFloated schema.inputForm?))
      SchemaDirective.undescribed = schema.ownDirectives.map fun directive =>
        (directive.name, directive.content schema.inputForm?) := by
    simp only [directiveEntries, OrderedMap.mapValues, List.map_map, Function.comp_def,
      SchemaDirective.undescribed_reread]
  rw [entries]
  exact mapValues_content_initial_directives schema.inputForm? ▸ perm

/-- Definitions that say the parts of a schema make the same types and directives. -/
theorem Owns.addDefinitions_of_parts (keyed : schema.IsKeyed) {definitions : List Definition}
    (same : definitions.map Definition.part? =
      (schema.partsReread (readFloated schema.inputForm?)).map some) :
    ∃ defined, addDefinitions initial definitions = .ok defined ∧
      schema.content.Rearranges defined.undescribed := by
  have contentKeyed := isKeyed_content keyed
  have distinct : (OrderedMap.keys (initial.types ++
      schema.typeEntries (readFloated schema.inputForm?))).Nodup := by
    rw [← OrderedMap.keys_mapValues SchemaType.undescribed, OrderedMap.mapValues_append]
    exact (owns.content_types_perm.map Prod.fst).nodup_iff.mp contentKeyed.types
  have directivesDistinct : (OrderedMap.keys (initial.directives ++
      schema.directiveEntries (readFloated schema.inputForm?))).Nodup := by
    rw [← OrderedMap.keys_mapValues SchemaDirective.undescribed, OrderedMap.mapValues_append]
    exact (owns.content_directives_perm.map Prod.fst).nodup_iff.mp contentKeyed.directives
  have added := @Schema.addDefinitions_of_parts _ _ initial same (by
    rwa [schema.typeNames_partsReread, ← OrderedMap.keys_append])
  rw [schema.foldl_addPart_partsReread _ distinct directivesDistinct] at added
  refine ⟨_, added, ?_, ?_⟩
  · rw [undescribed, OrderedMap.mapValues_append]
    exact owns.content_types_perm
  · rw [undescribed, OrderedMap.mapValues_append]
    exact owns.content_directives_perm

end

/-! ## References and root types -/

theorem references_undescribed (name : String) (type : SchemaType) :
    references name type.undescribed = references name type := by
  rcases type with ⟨_, _, form⟩
  cases form with
  | object fields interfaces =>
      simp only [references, SchemaType.undescribed, TypeForm.undescribed,
        OrderedMap.values_mapValues, List.flatMap_map, OutputField.undescribed, List.map_map]
      rfl
  | interface fields interfaces =>
      simp only [references, SchemaType.undescribed, TypeForm.undescribed,
        OrderedMap.values_mapValues, List.flatMap_map, OutputField.undescribed, List.map_map]
      rfl
  | inputObject fields =>
      simp only [references, SchemaType.undescribed, TypeForm.undescribed,
        OrderedMap.values_mapValues, List.map_map]
      rfl
  | _ => rfl

/-- A content refers to the same names, in another order. -/
theorem references_content_perm (forms : String → Option InputForm) (name : String)
    (type : SchemaType) : (references name (type.content forms)).Perm (references name type) := by
  have ofInputs (values : OrderedMap InputValue) (owner : String) :
      ((inputContent forms values).values.map fun value => (value.type.innermost, owner)).Perm
        (values.values.map fun value => (value.type.innermost, owner)) := by
    rw [inputContent, OrderedMap.values_mapValues, List.map_map]
    exact (OrderedMap.values_sortedByKey_perm values).map _
  have ofFields (fields : OrderedMap OutputField) :
      ((outputContent forms fields).values.flatMap fun field =>
        (field.type.innermost, name ++ "." ++ field.name) ::
          field.arguments.values.map fun argument =>
            (argument.type.innermost, name ++ "." ++ field.name)).Perm
      (fields.values.flatMap fun field =>
        (field.type.innermost, name ++ "." ++ field.name) ::
          field.arguments.values.map fun argument =>
            (argument.type.innermost, name ++ "." ++ field.name)) := by
    rw [outputContent, OrderedMap.values_mapValues, List.flatMap_map]
    refine .trans (List.Perm.flatMap_left _ fun field _ => ?_)
      ((OrderedMap.values_sortedByKey_perm fields).flatMap_right _)
    exact (ofInputs field.arguments _).cons _
  rcases type with ⟨_, _, form⟩
  cases form with
  | object fields interfaces =>
      exact ((List.mergeSort_perm interfaces _).map _).append (ofFields fields)
  | interface fields interfaces =>
      exact ((List.mergeSort_perm interfaces _).map _).append (ofFields fields)
  | union members => exact (List.mergeSort_perm members _).map _
  | inputObject fields => exact ofInputs fields name
  | enum values => exact .nil
  | scalar => exact .nil

theorem setRoots_eq_foldl (schema : Schema) (operations : List RootOperation) :
    setRoots schema operations = (operations.map RootOperation.entry).foldl
      (fun schema entry => schema.withRoot entry.1 entry.2) schema := by
  rw [List.foldl_map]
  rfl

/-- Root types that are named are set, and the others stay. -/
theorem rootTypeName?_foldl_rootEntries (schema base : Schema) (kind : OperationKind) :
    (schema.rootEntries.foldl (fun schema entry => schema.withRoot entry.1 entry.2)
        base).rootTypeName? kind =
      (schema.rootTypeName? kind).or (base.rootTypeName? kind) := by
  rcases schema with ⟨query, mutation, subscription, _, _⟩
  cases query <;> cases mutation <;> cases subscription <;> cases kind <;> rfl

theorem eq_of_hasConventionalRoots {schema : Schema}
    (conventional : schema.hasConventionalRoots = true) {kind : OperationKind} {name : String}
    (root : schema.rootTypeName? kind = some name) :
    name = kind.conventionalName := by
  simp only [hasConventionalRoots, Bool.and_eq_true] at conventional
  rcases conventional with ⟨⟨query, mutation⟩, subscription⟩
  cases kind with
  | query =>
      rw [rootTypeName?] at root
      simpa [root, OperationKind.conventionalName] using query
  | mutation =>
      rw [rootTypeName?] at root
      simpa [root, OperationKind.conventionalName] using mutation
  | subscription =>
      rw [rootTypeName?] at root
      simpa [root, OperationKind.conventionalName] using subscription

/-- The root types of a schema, whether they are named or found by convention. -/
theorem rootTypeName?_of_rootEntries {schema base : Schema} {operations : List RootOperation}
    (read : schema.IsRead) (wellFormed : schema.IsWellFormed)
    (rootless : ∀ kind, base.rootTypeName? kind = none)
    (objects : ∀ name, base.isObjectType name = schema.isObjectType name)
    (entries : operations.map RootOperation.entry =
      if schema.hasConventionalRoots then [] else schema.rootEntries) (kind : OperationKind) :
    (setRoots base operations).withConventionalRoots.rootTypeName? kind =
      schema.rootTypeName? kind := by
  have isObject : (setRoots base operations).isObjectType kind.conventionalName =
      schema.isObjectType kind.conventionalName := by
    rw [← objects, isObjectType, type?, setRoots_types]
    rfl
  rw [rootTypeName?_withConventionalRoots, objectNamed?, isObject, setRoots_eq_foldl, entries]
  cases root : schema.rootTypeName? kind with
  | none =>
      rw [read.rootless kind root, if_neg Bool.false_ne_true, Option.or_none]
      split
      · exact rootless kind
      · rw [rootTypeName?_foldl_rootEntries, root, rootless]
        rfl
  | some name =>
      split
      · rename_i conventional
        obtain rfl := eq_of_hasConventionalRoots conventional root
        rw [List.foldl_nil, rootless, if_pos (wellFormed.rootsAreObjects kind _ root)]
        rfl
      · rw [rootTypeName?_foldl_rootEntries, root]
        rfl

/-! ## Accepting what the parts make -/

/-- Definitions that say the parts of a schema that was read make a schema that says the same. -/
theorem ofDefinitions_of_parts {schema : Schema} (read : schema.IsRead)
    (wellFormed : schema.IsWellFormed) (keyed : schema.IsKeyed) {definitions : List Definition}
    (same : definitions.map Definition.part? =
      (schema.partsReread (readFloated schema.inputForm?)).map some) :
    ∃ again, ofDefinitions definitions = .ok again ∧ again.content = schema.content := by
  rcases read.owns with ⟨types, directives, owns⟩
  rcases owns.addDefinitions_of_parts keyed same with ⟨defined, added, rearranges⟩
  have contentKeyed := isKeyed_content keyed
  have found (name : String) : (defined.type? name).map SchemaType.undescribed =
      (schema.type? name).map (SchemaType.content schema.inputForm?) := by
    rw [← type?_undescribed, ← rearranges.type?_eq contentKeyed, type?_content keyed]
  have objects (name : String) : defined.isObjectType name = schema.isObjectType name := by
    rw [← isObjectType_undescribed, isObjectType, ← rearranges.type?_eq contentKeyed]
    exact isObjectType_content keyed name
  have rootless (kind : OperationKind) : defined.rootTypeName? kind = none := by
    rw [rootTypeName?_addDefinitions added]
    cases kind <;> rfl
  have roots := rootTypeName?_of_rootEntries read wellFormed rootless objects
    ((map_entry_rootOperations same).trans (schema.rootEntries_partsReread _))
  generalize isAgain :
    (setRoots defined (rootOperations definitions)).withConventionalRoots = again at roots
  have againTypes : again.types = defined.types := by
    rw [← isAgain, withConventionalRoots_setRoots_types]
  have againDirectives : again.directives = defined.directives := by
    rw [← isAgain]
    exact setRoots_directives defined _
  have references : again.checkReferences = .ok () := by
    refine checkReferences_eq_ok.mpr fun entry member reference refers => ?_
    rw [againTypes] at member
    have contained : (entry.1, entry.2.undescribed) ∈ schema.content.types :=
      rearranges.types.mem_iff.mpr (List.mem_map_of_mem member)
    rcases List.mem_map.mp contained with ⟨⟨name, type⟩, listed, isEntry⟩
    obtain ⟨rfl, isContent⟩ := Prod.mk.inj isEntry
    rw [← references_undescribed, ← isContent] at refers
    have known := wellFormed.referencesKnown (entry.1, type)
      ((OrderedMap.sortedByKey_perm _).mem_iff.mp listed) reference
      ((references_content_perm _ _ _).mem_iff.mp refers)
    rw [← Option.isSome_map (f := SchemaType.content schema.inputForm?), ← found,
      Option.isSome_map] at known
    rw [type?, againTypes]
    exact known
  have checked : again.checkRoots = .ok () := by
    refine checkRoots_eq_ok.mpr fun kind name root => ?_
    rw [roots] at root
    rw [isObjectType, type?, againTypes]
    exact (objects name).trans (wellFormed.rootsAreObjects kind name root)
  refine ⟨again, ofDefinitions_eq_ok.mpr ⟨defined, added, isAgain.symm, references, checked⟩, ?_⟩
  have same : schema.content.Rearranges again.undescribed :=
    ⟨by rw [undescribed, againTypes]; exact rearranges.types,
      by rw [undescribed, againDirectives]; exact rearranges.directives⟩
  rw [← content_undescribed, ← same.content_eq contentKeyed fun kind => (roots kind).symm,
    content_content keyed]

end Schema

end GraphQL
