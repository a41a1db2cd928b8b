import GraphQL.Proofs.Schema.Reading
import GraphQL.Proofs.Schema.Reprinting

/-!
# Schemas that are printed and read

What is printed of a schema is read as a schema that says the same, and printing that one again
gives the same text apart from descriptions.
-/

namespace GraphQL

open Grammar Token

namespace Schema

/-- What is printed of a schema that was read is read as a schema that says the same. Printing that
one again gives the same text apart from descriptions. -/
theorem print_reads_back {source text : String} {schema : Schema}
    (accepted : ofSource source = .ok schema)
    (respects : ∀ parsed, Document.parse source = .ok parsed →
      ∀ definition ∈ parsed.document.definitions, definition.redefines = false)
    (plain : schema.IsPlain) (printed : schema.print = .ok text) :
    ∃ again, ofSource text = .ok again ∧ again.content = schema.content ∧
      ∃ bare next, schema.undescribed.print = .ok bare ∧ again.undescribed.print = .ok bare ∧
        again.print = .ok next ∧ DescribesText text bare ∧ DescribesText next bare := by
  have read := isRead_of_ofSource accepted respects
  have keyed := ofSource_isKeyed accepted
  rcases read.owns with ⟨types, directives, owns⟩
  have writable := ofSource_isWritable accepted fun type own => plain.ne_union own
  have reads : ∀ value ∈ schema.ownInputs,
      schema.ReadsDefault (readFloated schema.inputForm?) value := fun value own =>
    readsDefault_floated (owns.enumsWritable writable plain) (writable.of_mem_ownInputs own)
  have spelled := Token.beforeEnd_of_lexes (lexes_print writable reads printed) trivial
  rcases Document.exists_parse_of_takes (Parser.takes_document_of_spellsPart spelled) with
    ⟨parsed, parses, quiet, same⟩
  rcases ofDefinitions_of_parts read (ofSource_isWellFormed accepted) keyed same with
    ⟨again, defines, content⟩
  have acceptedAgain : ofSource text = .ok again :=
    ofSource_eq_ok.mpr ⟨parsed, parses, quiet, defines⟩
  exact ⟨again, acceptedAgain, content,
    print_of_content_eq keyed (ofSource_isKeyed acceptedAgain) content printed⟩

namespace PetShop

/-- A root type of another name, a description, an enum and whole numbers of type `Float`. -/
def source : String :=
  "schema \x7b query: Shop \x7d
  \"Sells.\" type Shop \x7b pets(filter: Filter, age: Float! = 3): Kind @deprecated \x7d
  input Filter \x7b weights: [Float] = 2, kind: Kind \x7d
  enum Kind \x7b DOG CAT \x7d"

/-- A default is left out, or it is a whole number of type `Float`. -/
def hasWholeDefault (value : InputValue) : Bool :=
  match value.default? with
  | none => true
  | some (.int _) => value.type.innermost == "Float"
  | some _ => false

/-- The schema is plain and has such defaults only. -/
def isSimple (schema : Schema) : Bool :=
  schema.types.values.all (fun type => type.form.isPlain && type.form.inputs.all hasWholeDefault) &&
    schema.directives.values.all (fun directive => builtInDirectives.contains directive.name) &&
    schema.inputForm? "Float" matches some .scalar

theorem prints_of_hasWholeDefault {schema : Schema} {value : InputValue}
    (isScalar : schema.inputForm? "Float" = some .scalar) (whole : hasWholeDefault value = true) :
    schema.Prints value := by
  cases given : value.default? with
  | none => exact ⟨_, inputValueText_eq_ok.mpr (.inl ⟨given, rfl⟩)⟩
  | some default =>
      simp only [hasWholeDefault, given] at whole
      cases default with
      | int number =>
          exact ⟨_, inputValueText_eq_ok.mpr (.inr ⟨_, _, given,
            schema.defaultLiteral_whole isScalar number (eq_of_beq whole), rfl⟩)⟩
      | _ => cases whole

theorem evaluation : (Document.parse source).toOption.all (fun parsed =>
      parsed.document.definitions.all fun definition => !definition.redefines) = true ∧
    (ofSource source).toOption.any isSimple = true := by
  decide +kernel

/-- The defaults are `2.0` and `3.0` in what is printed, which is read as the same schema. -/
theorem shop_reads_back : ∃ schema text, ofSource source = .ok schema ∧
    schema.print = .ok text ∧ ∃ again, ofSource text = .ok again ∧
      again.content = schema.content ∧ ∃ bare next, schema.undescribed.print = .ok bare ∧
        again.undescribed.print = .ok bare ∧ again.print = .ok next ∧ DescribesText text bare ∧
          DescribesText next bare := by
  rcases evaluation with ⟨respects, simple⟩
  rcases exists_ok_of_any simple with ⟨schema, accepted, simple⟩
  simp only [isSimple, Bool.and_eq_true, List.all_eq_true] at simple
  rcases simple with ⟨⟨types, directives⟩, isFloat⟩
  have isScalar : schema.inputForm? "Float" = some .scalar := by
    split at isFloat
    · assumption
    · cases isFloat
  have whole : ∀ value ∈ schema.ownInputs, hasWholeDefault value = true := by
    intro value member
    rcases List.mem_append.mp member with member | member
    · rcases List.mem_flatMap.mp member with ⟨directive, own, _⟩
      have isOwn := mem_ownDirectives.mp own
      rw [directives directive isOwn.1] at isOwn
      cases isOwn.2
    · rcases List.mem_flatMap.mp member with ⟨type, own, declared⟩
      exact (types type (mem_ownTypes.mp own).1).2 value declared
  have plain : schema.IsPlain := fun type own =>
    (types type (mem_ownTypes.mp own).1).1
  rcases exists_print.mpr fun value member =>
    prints_of_hasWholeDefault isScalar (whole value member) with ⟨text, printed⟩
  refine ⟨schema, text, accepted, printed, print_reads_back accepted ?_ plain printed⟩
  intro parsed parses definition member
  rw [parses] at respects
  simpa using List.all_eq_true.mp respects definition member

end PetShop

end Schema
end GraphQL
