import GraphQL.Proofs.Parsing.Layout
import GraphQL.Proofs.Parsing.Soundness

/-!
# Items that consume nothing report an error

Each item of a list asks for a token: a name, a mark or the word that opens a definition. If it is
there it is consumed, and if not an error is reported. So an item either consumes a token or reports
an error, whatever else it consists of.
-/

namespace GraphQL
namespace Parser

variable {α β : Type}

/-- A run that reports nothing consumes a token. -/
def Advances (parser : Parser α) : Prop :=
  Reads parser fun tokens _ rest => rest.length < tokens.length

/-- Tokens are never put back, and what has been reported stays. -/
def Settles (state : ParserState) (outcome : Except SliceFault ParserState) : Prop :=
  Shortens state outcome ∧ GoesOn state outcome

instance : IsKeptByAll Settles where
  refl state := ⟨IsKept.refl state, IsKept.refl state⟩
  trans first second := ⟨IsKept.trans first.1 second.1, IsKept.trans first.2 second.2⟩
  advance state := ⟨IsKept.advance state, IsKept.advance state⟩
  report state diagnostic isError :=
    ⟨IsKept.report state diagnostic isError, IsKept.report state diagnostic isError⟩
  intern state name := ⟨IsKept.intern state name, IsKept.intern state name⟩
  fault state fault causes := ⟨IsKept.fault state fault causes, IsKept.fault state fault causes⟩
  number state := ⟨IsKeptByAll.number state, [], by simp, by simp,
    fun _ tokens isAt => ⟨tokens, isAt.congr rfl rfl⟩⟩

theorem Reads.of_settles {parser : Parser α} (keeps : Keeps Settles parser) :
    Reads parser fun tokens _ rest => rest.length ≤ tokens.length := by
  intro state result after run
  rcases keeps.of_ok run with ⟨shortens, found, reported, errors, quiet⟩
  refine ⟨found, reported, errors, fun nothing tokens isAt => ?_⟩
  rcases quiet nothing tokens isAt with ⟨rest, isAtRest⟩
  have shorter := List.IsSuffix.length_le shortens
  simp only [List.length_cons, isAt.length_upcoming, isAtRest.length_upcoming] at shorter
  exact ⟨rest, isAtRest, by omega⟩

/-- What is spelled by tokens takes at least one of them. -/
theorem Spelled.length_lt {spells : List Token → α → Prop}
    (nonempty : ∀ used result, spells used result → used ≠ []) {tokens rest : List Token} {result : α}
    (spelled : Spelled spells tokens result rest) : rest.length < tokens.length := by
  rcases spelled with ⟨used, rfl, holds⟩
  have positive := List.length_pos_iff.mpr (nonempty used result holds)
  rw [List.length_append]
  omega

namespace Advances

variable {parser : Parser α} {next : α → Parser β}

theorem bind (advances : Advances parser) (keeps : ∀ value, Keeps Settles (next value)) :
    Advances (parser >>= next) := by
  refine Reads.bind advances fun value => (Reads.of_settles (keeps value)).weaken ?_
  intro tokens result rest shorter before shortened
  exact Nat.lt_of_le_of_lt shorter shortened

theorem after (keeps : Keeps Settles parser) (advances : ∀ value, Advances (next value)) :
    Advances (parser >>= next) := by
  refine Reads.bind (.of_settles keeps) fun value => (advances value).weaken ?_
  intro tokens result rest shortened before shorter
  exact Nat.lt_of_lt_of_le shortened shorter

theorem of_spelled {spells : List Token → α → Prop} (reads : Reads parser (Spelled spells))
    (nonempty : ∀ used result, spells used result → used ≠ []) : Advances parser :=
  reads.weaken fun _ _ _ spelled => spelled.length_lt nonempty

/-- Where an item has consumed nothing, an error has been reported. -/
theorem anyError (advances : Advances parser) {state after : ParserState} {value : α}
    {tokens rest : List Token} (ran : parser state = .ok (value, after)) (isAt : state.IsAt tokens)
    (isAtAfter : after.IsAt rest) (same : rest.length = tokens.length) :
    Diagnostic.anyError after.diagnostics = true := by
  rcases advances state value after ran with ⟨found, reported, errors, quiet⟩
  cases found with
  | nil =>
      rcases quiet rfl tokens isAt with ⟨others, isAtOthers, shorter⟩
      rw [isAtOthers.unique isAtAfter, same] at shorter
      exact absurd shorter (Nat.lt_irrefl _)
  | cons first others =>
      have isError := errors first List.mem_cons_self
      simp [Diagnostic.anyError, reported, isError]

end Advances

/-! ## Items -/

theorem advances_name : Advances name := by
  refine reads_name.weaken ?_
  rintro tokens name rest ⟨token, rfl, -⟩
  simp

theorem advances_argument : Advances argument :=
  .of_spelled reads_argument fun _ _ spelled => spelled.ne_nil

theorem advances_literalWithin (constant : Bool) (depth : Nat) :
    Advances (literalWithin constant depth) :=
  .of_spelled (reads_literalWithin depth) fun _ _ spelled => spelled.ne_nil

theorem advances_literalField {inner : Parser Literal} (keeps : Keeps Settles inner) :
    Advances (do
      let name ← name
      expectMark .colon
      return (name, ← inner)) := by
  refine .bind advances_name fun name => .bind (keeps_expectMark _) fun _ => ?_
  exact .bind keeps fun value => .pure _

theorem advances_variableDefinition : Advances variableDefinition :=
  .of_spelled reads_variableDefinition fun _ _ spelled => spelled.ne_nil

theorem advances_fieldSelection {inner : Parser SelectionSet} (keeps : Keeps Settles inner) :
    Advances (fieldSelection inner) :=
  .after keeps_position fun start => .bind advances_name fun first =>
    keeps_fieldAfter keeps start first

theorem advances_selection {inner : Parser SelectionSet} (keeps : Keeps Settles inner) :
    Advances (selection inner) := by
  refine .look looks_position fun start => .bind (reads_eatMark _) fun eaten => ?_
  refine .ite (fun isEaten => ?_) fun notEaten => ?_
  · refine (Reads.of_settles (keeps_spreadSelection keeps start)).weaken ?_
    intro tokens result rest shorter before ate _
    rw [if_pos isEaten] at ate
    rcases ate with ⟨dots, rfl, -⟩
    exact Nat.lt_succ_of_le shorter
  · refine (advances_fieldSelection keeps).weaken ?_
    intro tokens result rest shortened before ate _
    rw [if_neg notEaten] at ate
    rwa [← ate.1]

theorem advances_inputValueDefinition : Advances inputValueDefinition := by
  refine .after keeps_position fun start => .after keeps_description? fun description => ?_
  refine .bind advances_name fun name => .bind (keeps_expectMark _) fun _ => ?_
  refine .bind keeps_typeExpression fun type => .bind keeps_defaultValue fun default? => ?_
  exact .bind keeps_directives fun directives => keeps_spanned start _

theorem advances_fieldDefinition : Advances fieldDefinition := by
  refine .after keeps_position fun start => .after keeps_description? fun description => ?_
  refine .bind advances_name fun name => .bind keeps_argumentDefinitions fun arguments => ?_
  refine .bind (keeps_expectMark _) fun _ => .bind keeps_typeExpression fun type => ?_
  exact .bind keeps_directives fun directives => keeps_spanned start _

theorem advances_enumValueDefinition : Advances enumValueDefinition := by
  refine .after keeps_position fun start => .after keeps_description? fun description => ?_
  refine .bind advances_name fun name => .bind keeps_directives fun directives => ?_
  exact keeps_spanned start _

/-! ## Definitions -/

/-- A parser that consumes the current token before it goes on. -/
theorem reads_afterWord {first : Parser Nat} {sees : List Token → Nat → Prop}
    {next : Nat → Parser α} (looks : Looks first sees) (keeps : ∀ start, Keeps Settles (next start)) :
    Reads (do let start ← first; advance; next start) fun tokens _ rest =>
      Token.headKind tokens ≠ .endOfInput → rest.length < tokens.length := by
  refine .look looks fun start => .bind reads_advance fun _ =>
    (Reads.of_settles (keeps start)).weaken ?_
  rintro middle result rest shorter tokens rfl _ inside
  obtain ⟨token, others, rfl, -⟩ := Token.exists_cons_of_headKind rfl inside
  exact Nat.lt_succ_of_le shorter

theorem looks_startWith (description : Option Description) :
    Looks (startWith description) fun _ _ => True := by
  cases description with
  | none => exact looks_position
  | some description => exact fun state => ⟨description.span.start, rfl, fun _ _ => trivial⟩

theorem reads_schemaDefinition : Reads schemaDefinition fun tokens _ rest =>
    Token.headKind tokens ≠ .endOfInput → rest.length < tokens.length := by
  refine reads_afterWord looks_position fun start => ?_
  refine .bind keeps_directives fun directives => .bind (keeps_expectMark _) fun _ => ?_
  refine .bind (keeps_rootOperation?.itemsThrough _) fun operations => ?_
  exact keeps_spanned start _

theorem reads_typeDefinition (keyword : Keyword) (description : Option Description) :
    Reads (typeDefinition keyword description) fun tokens _ rest =>
      Token.headKind tokens ≠ .endOfInput → rest.length < tokens.length := by
  refine reads_afterWord (looks_startWith description) fun start => ?_
  refine .bind keeps_name fun name => .bind (keeps_typeBody keyword) fun body => ?_
  exact keeps_spanned start _

theorem reads_directiveDefinition (description : Option Description) :
    Reads (directiveDefinition description) fun tokens _ rest =>
      Token.headKind tokens ≠ .endOfInput → rest.length < tokens.length := by
  refine reads_afterWord (looks_startWith description) fun start => ?_
  refine .bind (keeps_expectMark _) fun _ => .bind keeps_name fun name => ?_
  refine .bind keeps_argumentDefinitions fun arguments => .bind (keeps_eat _) fun repeatable => ?_
  refine .bind (keeps_expect _) fun _ => .bind (keeps_eatMark _) fun _ => ?_
  refine .bind keeps_depthBound fun fuel => ?_
  refine .bind (keeps_directiveLocationsWithin fuel) fun locations => ?_
  exact keeps_spanned start _

theorem advances_definitionAfter (description : Option Description) :
    Advances (definitionAfter description) := by
  have found {γ : Type} {parser : Parser γ} {kind : TokenKind} (definition : γ → Definition)
      (reads : Reads parser fun tokens _ rest =>
        Token.headKind tokens = kind → rest.length < tokens.length) :
      Reads (do return some (definition (← parser))) fun tokens _ rest =>
        kind = Token.headKind tokens → rest.length < tokens.length :=
    .bind reads fun value => .pure fun _ _ shortens isHead => shortens isHead.symm
  have worded {γ : Type} {parser : Parser γ} {word : Keyword} (definition : γ → Definition)
      (reads : Reads parser fun tokens _ rest =>
        Token.headKind tokens ≠ .endOfInput → rest.length < tokens.length) :
      Reads (do return some (definition (← parser))) fun tokens _ rest =>
        TokenKind.keyword word = Token.headKind tokens → rest.length < tokens.length :=
    found definition (reads.weaken fun _ _ _ shortens isHead => shortens (by rw [isHead]; simp))
  have executed {kind : TokenKind}
      (opens : kind = .punctuator .openBrace ∨ ∃ operation, operationKind? kind = some operation) :
      Reads (do return some (Definition.operation (← operation))) fun tokens _ rest =>
        kind = Token.headKind tokens → rest.length < tokens.length := by
    refine found _ (reads_operation.weaken ?_)
    rintro tokens definition rest spelled rfl
    refine (spelled opens).length_lt fun used operation isOperation => ?_
    exact (Grammar.SpellsExecutable.operation isOperation).ne_nil
  have nothing (title : String) : Reads (do reportCurrent title; return (none : Option Definition))
      fun tokens _ rest => rest.length < tokens.length :=
    .after_error (reads_reportCurrent title) (.pure fun _ => trivial)
  refine .look looks_kind fun kind => ?_
  split
  · exact worded _ reads_schemaDefinition
  · exact worded _ (reads_directiveDefinition description)
  · refine found _ (reads_fragment.weaken fun tokens definition rest spelled isHead => ?_)
    refine (spelled isHead).length_lt fun used fragment isFragment => ?_
    exact (Grammar.SpellsExecutable.fragment isFragment).ne_nil
  · exact executed (.inr ⟨_, rfl⟩)
  · exact executed (.inr ⟨_, rfl⟩)
  · exact executed (.inr ⟨_, rfl⟩)
  · exact executed (.inl rfl)
  · exact worded _ (reads_typeDefinition _ description)
  · exact worded _ (reads_typeDefinition _ description)
  · exact worded _ (reads_typeDefinition _ description)
  · exact worded _ (reads_typeDefinition _ description)
  · exact worded _ (reads_typeDefinition _ description)
  · exact worded _ (reads_typeDefinition _ description)
  · exact (nothing _).weaken fun _ _ _ holds _ => holds
  · exact (nothing _).weaken fun _ _ _ holds _ => holds

theorem advances_definition? : Advances definition? :=
  .after keeps_description? advances_definitionAfter

end Parser
end GraphQL
