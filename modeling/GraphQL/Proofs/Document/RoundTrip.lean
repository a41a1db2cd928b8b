import GraphQL.Proofs.Document.Spelling
import GraphQL.Proofs.Parsing.Correctness

/-!
# Literals and types that are printed and read

The text of a literal is read as the literal again, apart from places: nothing is reported and all
tokens are consumed. The same holds of types, and of strings between their quotes.

It is asked that names are words, that whole numbers fit in 64 bits and that other numbers are
finite.
-/

namespace GraphQL

open Grammar Token

/-! ## Literals that can be printed -/

namespace Literal

/-- The names are words, no enum value is a keyword for a value, a whole number fits in 64 bits and
another number is finite. -/
def isPrintable : Literal → Bool
  | var name => decide (IsWordText name.text)
  | int value _ => Json.fitsInt64 value
  | float value _ => value.isFinite
  | enum name => decide (IsWordText name.text ∧ name.text ∉ ["true", "false", "null"])
  | object fields _ => fields.all fun field => decide (IsWordText field.1.text)
  | _ => true

/-! ### Single tokens -/

theorem lexes_var {name : Name} (isWord : IsWordText name.text) :
    Lexes Breaks (var name).print (SpellsLiteral false · (var name)) := by
  refine ((lexes_punctuator .dollar).followedBy (lexes_name isWord name.span)).weaken ?_
  rintro _ ⟨_, _, rfl, ⟨dollar, rfl, isDollar⟩, token, rfl, isName⟩
  exact .var rfl isDollar isName

theorem lexes_float {value : Float} (finite : value.isFinite = true) (span : Span) :
    Lexes Breaks (floatText value) (SpellsLiteral false · (float value span)) := by
  refine (Decimal.lexes_floatText finite).weaken ?_
  rintro _ ⟨token, rfl, isFloat, texted⟩
  have spelled : SpellsLiteral false [token]
      (.float (Decimal.readNearest (floatText value)) span) := .float isFloat texted
  rwa [Decimal.readNearest_floatText finite] at spelled

/-! ### Lists and objects -/

theorem lexes_list {items : List Literal} (span : Span)
    (each : List.Forall₂ (fun text item => Lexes Breaks text (SpellsLiteral false · item))
      (printItems items) items) :
    Lexes Breaks (list items span).print (SpellsLiteral false · (list items span)) :=
  ((lexes_between .openBracket .closeBracket (breaks_text rfl) each).mono fun _ _ =>
    trivial).weaken fun _ between => .list between

theorem lexes_object {fields : List (Name × Literal)} (span : Span)
    (each : List.Forall₂ (fun text field => Lexes Breaks text (SpellsField false · field))
      (printFields fields) fields) :
    Lexes Breaks (object fields span).print (SpellsLiteral false · (object fields span)) :=
  ((lexes_between .openBrace .closeBrace (breaks_text rfl) each).mono fun _ _ =>
    trivial).weaken fun _ between => .object between

theorem lexes_field {name : Name} {text : String} {value : Literal} (isWord : IsWordText name.text)
    (lexes : Lexes Breaks text (SpellsLiteral false · value)) :
    Lexes Breaks (name.text ++ ": " ++ text) (SpellsField false · (name, value)) := by
  refine ((lexes_label isWord name.span).followedBy lexes).weaken ?_
  rintro _ ⟨_, used, rfl, ⟨token, colon, rfl, isName, isColon⟩, spelled⟩
  exact .mk isName isColon spelled

mutual

/-- The text of a literal is scanned into tokens that spell the literal. -/
theorem lexes_print {literal : Literal} (printable : literal.everywhere isPrintable = true) :
    Lexes Breaks literal.print (SpellsLiteral false · literal) := by
  cases literal with
  | var name => exact lexes_var (of_decide_eq_true printable)
  | int value span => exact lexes_int printable span
  | float value span => exact lexes_float printable span
  | string value span => exact lexes_string value span
  | boolean value span => exact lexes_boolean value span
  | null span => exact lexes_null span
  | enum name =>
      have isName := of_decide_eq_true printable
      exact lexes_enum isName.1 isName.2
  | list items span =>
      rw [everywhere, Bool.and_eq_true] at printable
      exact lexes_list span (lexes_printItems printable.2)
  | object fields span =>
      rw [everywhere, Bool.and_eq_true] at printable
      exact lexes_object span (lexes_printFields (List.all_eq_true.mp printable.1) printable.2)

theorem lexes_printItems {items : List Literal}
    (printable : itemsEverywhere isPrintable items = true) :
    List.Forall₂ (fun text item => Lexes Breaks text (SpellsLiteral false · item))
      (printItems items) items := by
  cases items with
  | nil => exact .nil
  | cons item rest =>
      rw [itemsEverywhere, Bool.and_eq_true] at printable
      exact .cons (lexes_print printable.1) (lexes_printItems printable.2)

theorem lexes_printFields {fields : List (Name × Literal)}
    (words : ∀ field ∈ fields, decide (IsWordText field.1.text) = true)
    (printable : fieldsEverywhere isPrintable fields = true) :
    List.Forall₂ (fun text field => Lexes Breaks text (SpellsField false · field))
      (printFields fields) fields := by
  cases fields with
  | nil => exact .nil
  | cons field rest =>
      rcases field with ⟨name, value⟩
      rw [fieldsEverywhere, Bool.and_eq_true] at printable
      rw [List.forall_mem_cons] at words
      exact .cons (lexes_field (of_decide_eq_true words.1) (lexes_print printable.1))
        (lexes_printFields words.2 printable.2)

end

end Literal

/-! ## Types -/

namespace TypeExpression

theorem print_eq_text (type : TypeExpression) : type.print = type.toTypeRef.text := by
  induction type with
  | named name => rfl
  | list item span ih => rw [print, ih]; rfl
  | nonNull inner span ih => rw [print, ih]; rfl

/-- An expression is the type it spells and the places where it spells it. -/
theorem unplaced_eq_of_toTypeRef_eq {type other : TypeExpression}
    (same : type.toTypeRef = other.toTypeRef) : type.unplaced = other.unplaced := by
  induction type generalizing other with
  | named name =>
      cases other with
      | named other => rw [unplaced, unplaced, Name.unplaced, Name.unplaced, TypeRef.named.inj same]
      | _ => cases same
  | list item span ih =>
      cases other with
      | list other span => rw [unplaced, unplaced, ih (TypeRef.list.inj same)]
      | _ => cases same
  | nonNull inner span ih =>
      cases other with
      | nonNull other span => rw [unplaced, unplaced, ih (TypeRef.nonNull.inj same)]
      | _ => cases same

theorem lexes_print {type : TypeExpression} (writable : type.toTypeRef.IsWritable) :
    Lexes Breaks type.print fun tokens => ∃ expression : TypeExpression,
      expression.unplaced = type.unplaced ∧ SpellsType tokens expression := by
  rw [print_eq_text]
  refine (TypeRef.lexes_text writable).weaken ?_
  rintro tokens ⟨expression, same, spelled, _⟩
  exact ⟨expression, unplaced_eq_of_toTypeRef_eq same, spelled⟩

end TypeExpression

/-! ## Reading what is printed -/

/-- A parser that takes all tokens of a text reports nothing and comes to the end. -/
theorem Parser.exists_run_of_lexes {α : Type} {parser : Parser α} {text : String}
    {spells : List Token → Prop} {shows : α → Prop} (lexes : Lexes Breaks text spells)
    (takes : ∀ used, spells used → Takes parser (used ++ []) shows []) :
    ∃ result after, parser (start (scan text)) = .ok (result, after) ∧
      after.diagnostics = [] ∧ after.IsAt [] ∧ shows result := by
  have spelled := beforeEnd_of_lexes lexes (by simp [Breaks])
  have taken := takes _ spelled
  rw [List.append_nil] at taken
  rcases taken _ (isAt_start text) with ⟨result, after, run, quiet, isEnd, holds⟩
  exact ⟨result, after, run, quiet.trans (Document.diagnostics_start _), isEnd, holds⟩

/-- What is printed of a literal is read as the literal, and what is printed of a type as the type:
nothing is reported, all tokens are consumed, and only the places differ. What stands between the
quotes of a string stands for the string. -/
theorem Literal.read_print :
    (∀ literal : Literal, literal.everywhere isPrintable = true →
      ∃ result after,
        Parser.literal false (Parser.start (scan literal.print)) = .ok (result, after) ∧
        after.diagnostics = [] ∧ after.IsAt [] ∧ result.unplaced = literal.unplaced) ∧
    (∀ type : TypeExpression, type.toTypeRef.IsWritable →
      ∃ result after,
        Parser.typeExpression (Parser.start (scan type.print)) = .ok (result, after) ∧
        after.diagnostics = [] ∧ after.IsAt [] ∧ result.unplaced = type.unplaced) ∧
    ∀ text : String,
      String.ofList (Text.unescape (Parser.bodyBetween 1 (Text.quote text))) = text := by
  refine ⟨fun literal printable => ?_, fun type writable => ?_,
    Parser.unescape_bodyBetween_quote⟩
  · exact Parser.exists_run_of_lexes (lexes_print printable) fun _ spelled =>
      Parser.takes_literal spelled
  · refine Parser.exists_run_of_lexes (TypeExpression.lexes_print writable) ?_
    rintro used ⟨expression, same, spelled⟩
    have follows : Parser.Avoids [.bang] [] := fun _ _ isHead => by cases isHead
    exact (Parser.takes_typeExpression spelled follows).weaken fun _ read => read.trans same

namespace Specimen

def place : Span :=
  ⟨0, 0⟩

/-- Names, numbers with and without a point, a string with escapes, an empty one, and both kinds of
brackets in each other. -/
def literal : Literal :=
  .object
    [(⟨"given", place⟩, .list
      [.int (-7) place, .float 2.5 place, .float 1e21 place, .string "say \"hi\"\n" place,
        .string "" place, .enum ⟨"RED", place⟩, .boolean true place, .null place] place),
      (⟨"_rest", place⟩, .list [.object [] place, .var ⟨"id", place⟩] place)] place

/-- A list without null of names without null. -/
def type : TypeExpression :=
  .nonNull (.list (.nonNull (.named ⟨"ID", place⟩) place) place) place

example : literal.print = "\x7bgiven: [-7, 2.5, 1000000000000000000000.0, " ++
    "\"say \\\"hi\\\"\\n\", \"\", RED, true, null], _rest: [\x7b\x7d, $id]\x7d" := by
  decide +kernel

/-- They are read as they were before. -/
theorem read_specimen :
    (∃ result after,
      Parser.literal false (Parser.start (scan literal.print)) = .ok (result, after) ∧
      after.diagnostics = [] ∧ after.IsAt [] ∧ result.unplaced = literal.unplaced) ∧
    ∃ result after,
      Parser.typeExpression (Parser.start (scan type.print)) = .ok (result, after) ∧
      after.diagnostics = [] ∧ after.IsAt [] ∧ result.unplaced = type.unplaced :=
  ⟨Literal.read_print.1 literal (by decide +kernel),
    Literal.read_print.2.1 type
      ⟨rfl, rfl, (by decide : IsWordText "ID")⟩⟩

end Specimen

end GraphQL
