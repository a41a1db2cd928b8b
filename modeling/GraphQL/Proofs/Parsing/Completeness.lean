import GraphQL.Proofs.Parsing.Taking

/-!
# What the parsers of executable documents take

One lemma a production: the parser takes any tokens that spell a part and gives that part, apart from
its places. The tokens that follow must not continue the part, so each production says which
punctuators may not stand there.
-/

namespace GraphQL

open Grammar

namespace Parser

variable {α γ : Type}

/-! ## What follows -/

/-- None of the punctuators is next. -/
def Avoids (marks : List Punctuator) (rest : List Token) : Prop :=
  ∀ mark ∈ marks, Token.headKind rest ≠ .punctuator mark

section

variable {marks : List Punctuator} {rest : List Token}

theorem Avoids.mono {others : List Punctuator} (avoids : Avoids marks rest)
    (subset : others ⊆ marks) : Avoids others rest :=
  fun mark member => avoids mark (subset member)

theorem Avoids.of_mark {mark : Punctuator} (isNext : Token.headKind rest = .punctuator mark)
    (other : mark ∉ marks) : Avoids marks rest := by
  intro avoided member isHead
  rw [isNext] at isHead
  cases isHead
  exact other member

theorem Avoids.of_isName (isName : (Token.headKind rest).isName = true) : Avoids marks rest := by
  intro mark _ isHead
  rw [isHead] at isName
  cases isName

theorem Avoids.optional {opening closing : Punctuator} {spells : List Token → α → Prop}
    {used : List Token} {items : List α} (avoids : Avoids marks rest)
    (spelled : SpellsOptional opening closing spells used items) (other : opening ∉ marks) :
    Avoids marks (used ++ rest) := by
  cases spelled with
  | absent => exact avoids
  | present between =>
      rcases between with ⟨opens, _, _⟩
      exact .of_mark opens other

theorem Avoids.directives {used : List Token} {directives : List Directive}
    (avoids : Avoids marks rest) (directed : SpellsDirectives used directives)
    (other : .atSign ∉ marks) : Avoids marks (used ++ rest) := by
  rcases directed with ⟨each⟩
  cases each with
  | nil => exact avoids
  | cons first _ =>
      rcases first with ⟨isAt, _, _⟩
      exact .of_mark isAt other

end

/-! ## Types -/

theorem takes_typeExpressionWithin {used rest : List Token} {type : TypeExpression} {depth : Nat}
    (spelled : SpellsType used type) (short : used.length ≤ depth)
    (follows : Avoids [.bang] rest) :
    Takes (typeExpressionWithin depth) (used ++ rest) (·.unplaced = type.unplaced) rest := by
  induction depth generalizing used rest type with
  | zero =>
      cases spelled with
      | nullable plain => cases plain <;> simp at short
      | nonNull => simp at short
  | succ depth ih =>
      -- the tokens of the plain type, and what follows them
      have marked : ∃ plainTokens plain marks, used = plainTokens ++ marks ∧
          SpellsPlainType plainTokens plain ∧
          ∀ (start : Nat) (result : TypeExpression), result.unplaced = plain.unplaced →
            Takes (do
              if ← eatMark .bang then return .nonNull result (← spanFrom start) else return result)
              (marks ++ rest) (·.unplaced = type.unplaced) rest := by
        cases spelled with
        | nullable plain =>
            refine ⟨_, _, [], (List.append_nil _).symm, plain, fun start result same => ?_⟩
            exact .bind (takes_eatMark_other (follows _ (by simp))) fun _ isEaten =>
              .ite_neg (by simp [isEaten]) (.pure same)
        | nonNull plain isBang =>
            refine ⟨_, _, _, rfl, plain, fun start result same => ?_⟩
            refine .bind (takes_eatMark isBang) fun _ isEaten => .ite_pos isEaten ?_
            exact takes_spanned start fun span => by rw [TypeExpression.unplaced, same]; rfl
      rcases marked with ⟨_, _, marks, rfl, plain, ending⟩
      refine .look looks_position fun start _ => ?_
      cases plain with
      | @named token name isName =>
          refine .bind (takes_eatMark_other ?_) fun _ isEaten => .ite_neg (by simp [isEaten]) ?_
          · have avoids : Avoids [.openBracket] (token :: (marks ++ rest)) := .of_isName isName.1
            exact avoids _ (by simp)
          · exact .bind (takes_name isName) fun _ same =>
              ending start _ (congrArg TypeExpression.named same)
      | @list first last inside item span opens inner closes =>
          simp only [List.cons_append, List.append_assoc, List.length_cons, List.length_append]
            at short ⊢
          refine .bind (takes_eatMark opens) fun _ isEaten => .ite_pos isEaten ?_
          refine .bind (ih inner (by omega) ?_) fun result same => ?_
          · exact .of_mark closes (by simp)
          · refine .bind (takes_expectMark closes) fun _ _ => ?_
            refine .look (looks_spanFrom start) fun span _ => ending start _ ?_
            rw [TypeExpression.unplaced, same]
            rfl

theorem takes_typeExpression {used rest : List Token} {type : TypeExpression}
    (spelled : SpellsType used type) (follows : Avoids [.bang] rest) :
    Takes typeExpression (used ++ rest) (·.unplaced = type.unplaced) rest := by
  refine .look looks_depthBound fun depth isBound => takes_typeExpressionWithin spelled ?_ follows
  rw [isBound, List.length_append]
  omega

/-! ## Literals -/

section

variable {constant : Bool}

theorem takes_word {token : Token} {rest : List Token} {literal given : Literal}
    (same : given.unplaced = literal.unplaced) :
    Takes (do advance; return given) (token :: rest) (·.unplaced = literal.unplaced) rest :=
  .bind takes_advance fun _ _ => .pure same

/-- A literal that takes one token and holds what its text means. -/
theorem takes_texted {token : Token} {rest : List Token} {text : String} {literal : Literal}
    (next : String → Parser Literal) (reads : token.text? = some text)
    (takes : Takes (next text) rest (·.unplaced = literal.unplaced) rest) :
    Takes (do let text ← currentText; advance; next text) (token :: rest)
      (·.unplaced = literal.unplaced) rest :=
  .bind (takes_currentText reads) fun _ same => .bind takes_advance fun _ _ => by rwa [same]

theorem takes_simpleLiteral {token : Token} {rest : List Token} {literal : Literal}
    (spelled : SpellsLiteral constant [token] literal) :
    Takes simpleLiteral (token :: rest) (·.unplaced = literal.unplaced) rest := by
  refine .look looks_currentSpan fun span _ => .look looks_kind fun kind isKind => ?_
  have isKind : kind = token.kind := isKind
  generalize single : [token] = used at spelled
  cases spelled with
  | var => cases single
  | int isInt reads fits =>
      cases single
      obtain rfl := isKind.trans isInt
      refine .bind (takes_currentText reads) fun _ same => .look looks_currentSpan fun span _ => ?_
      exact .bind takes_advance fun _ _ => .ite_pos (by rwa [same]) (.pure (by rw [same]; rfl))
  | float isFloat reads =>
      cases single
      obtain rfl := isKind.trans isFloat
      exact takes_texted _ reads (.pure rfl)
  | string isString reads =>
      cases single
      obtain rfl := isKind.trans isString
      exact takes_texted _ reads (.pure rfl)
  | @blockString _ text value _ isString reads means =>
      cases single
      obtain rfl := isKind.trans isString
      refine takes_texted (fun text => do
        let value ← (Text.blockValue (bodyBetween 3 text) : Except SliceFault String)
        return .string value span) reads ?_
      rw [means]
      exact .pure rfl
  | trueValue isTrue =>
      cases single
      obtain rfl := isKind.trans isTrue
      exact takes_word rfl
  | falseValue isFalse =>
      cases single
      obtain rfl := isKind.trans isFalse
      exact takes_word rfl
  | null isNull =>
      cases single
      obtain rfl := isKind.trans isNull
      exact takes_word rfl
  | @enum token name isName other =>
      cases single
      have named := isName.1
      subst isKind
      rcases other with ⟨notTrue, notFalse, notNull⟩
      have unnamed {other : TokenKind} (same : token.kind = other) : other.isName = true :=
        same ▸ named
      split
      · cases unnamed ‹_›
      · cases unnamed ‹_›
      · cases unnamed ‹_›
      · cases unnamed ‹_›
      · exact absurd ‹_› notTrue
      · exact absurd ‹_› notFalse
      · exact absurd ‹_› notNull
      · exact .ite_pos named (.bind (takes_name isName) fun _ same =>
          .pure (congrArg Literal.enum same))
  | list between => rcases between with ⟨_, _, _⟩; simp at single
  | object between => rcases between with ⟨_, _, _⟩; simp at single

theorem headKind_of_spellsLiteral {used : List Token} {literal : Literal}
    (spelled : SpellsLiteral constant used literal) : Token.headKind used ≠ .endOfInput ∧
      Token.headKind used ≠ .punctuator .closeBracket := by
  cases spelled with
  | enum isName => exact TokenKind.ne_of_isName isName.1 _
  | list between => rcases between with ⟨opens, _, _⟩; simp [Token.headKind, show _ = _ from opens]
  | object between => rcases between with ⟨opens, _, _⟩; simp [Token.headKind, show _ = _ from opens]
  | var _ isDollar => simp [Token.headKind, show _ = _ from isDollar]
  | _ => simp [Token.headKind, *]

theorem takes_literalWithin_of_single {token : Token} {rest : List Token} {literal : Literal}
    (depth : Nat) (unmarked : ∀ mark, token.kind ≠ .punctuator mark)
    (spelled : SpellsLiteral constant [token] literal) :
    Takes (literalWithin constant (depth + 1)) (token :: rest) (·.unplaced = literal.unplaced)
      rest := by
  refine .look looks_position fun start _ => .look looks_kind fun kind isKind => ?_
  split
  · exact absurd isKind.symm (unmarked _)
  · exact absurd isKind.symm (unmarked _)
  · exact absurd isKind.symm (unmarked _)
  · exact takes_simpleLiteral spelled

/-- The parser of the literals inside another one takes those that are short enough. -/
def TakesLiterals (constant : Bool) (depth : Nat) : Prop :=
  ∀ {used rest : List Token} {literal : Literal}, SpellsLiteral constant used literal →
    used.length ≤ depth →
      Takes (literalWithin constant depth) (used ++ rest) (·.unplaced = literal.unplaced) rest

theorem TakesLiterals.items {depth : Nat} (takes : TakesLiterals constant depth) :
    TakesEach (literalWithin constant depth) .closeBracket
      (fun used literal => SpellsLiteral constant used literal ∧ used.length ≤ depth)
      Literal.unplaced Literal.unplaced (fun _ => True) where
  takes := fun spelled _ => takes spelled.1 spelled.2
  starts := fun spelled => headKind_of_spellsLiteral spelled.1
  continues := fun _ => trivial
  ends := fun _ => trivial

theorem TakesLiterals.fields {depth : Nat} (takes : TakesLiterals constant depth) :
    TakesEach (do
        let name ← name
        expectMark .colon
        return (name, ← literalWithin constant depth)) .closeBrace
      (fun used field => SpellsField constant used field ∧ used.length ≤ depth)
      (fun field => (field.1.unplaced, field.2.unplaced))
      (fun field => (field.1.unplaced, field.2.unplaced)) (fun _ => True) := by
  refine ⟨?_, ?_, fun _ => trivial, fun _ => trivial⟩
  · rintro used field rest ⟨⟨isName, isColon, inner⟩, short⟩ _
    simp only [List.length_cons] at short
    refine .bind (takes_name isName) fun name same => .bind (takes_expectMark isColon)
      fun _ _ => .bind (takes inner (by omega)) fun value sameValue => .pure ?_
    rw [same, sameValue]
  · rintro used field ⟨⟨isName, _, _⟩, _⟩
    exact TokenKind.ne_of_isName isName.1 _

theorem takesLiterals (depth : Nat) : TakesLiterals constant depth := by
  induction depth with
  | zero =>
      intro used rest literal spelled short
      exact absurd (List.eq_nil_of_length_eq_zero (Nat.le_zero.mp short)) spelled.ne_nil
  | succ depth ih =>
      intro used rest literal spelled short
      have single {token : Token} {literal : Literal}
          (unmarked : ∀ mark, token.kind ≠ .punctuator mark)
          (spelled : SpellsLiteral constant [token] literal) :
          Takes (literalWithin constant (depth + 1)) (token :: rest)
            (·.unplaced = literal.unplaced) rest :=
        takes_literalWithin_of_single depth unmarked spelled
      cases spelled with
      | int isInt reads fits => exact single (by simp [isInt]) (.int isInt reads fits)
      | float isFloat reads => exact single (by simp [isFloat]) (.float isFloat reads)
      | string isString reads => exact single (by simp [isString]) (.string isString reads)
      | blockString isString reads means =>
          exact single (by simp [isString]) (.blockString isString reads means)
      | trueValue isTrue => exact single (by simp [isTrue]) (.trueValue isTrue)
      | falseValue isFalse => exact single (by simp [isFalse]) (.falseValue isFalse)
      | null isNull => exact single (by simp [isNull]) (.null isNull)
      | enum isName other =>
          exact single (fun mark => (TokenKind.ne_of_isName isName.1 mark).2) (.enum isName other)
      | var allowed isDollar isName =>
          refine .look looks_position fun start _ => .look looks_kind fun kind isKind => ?_
          obtain rfl : kind = .punctuator .dollar := isKind.trans isDollar
          refine .look looks_position fun start _ => .bind takes_advance fun _ _ => ?_
          refine .bind (takes_name isName) fun name same => ?_
          refine .look (looks_spanFrom start) fun span _ => .ite_neg (by simp [allowed]) (.pure ?_)
          exact congrArg Literal.var same
      | list between =>
          rcases between with @⟨first, last, inside, items, opens, each, closes⟩
          refine .look looks_position fun start _ => .look looks_kind fun kind isKind => ?_
          obtain rfl : kind = .punctuator .openBracket := isKind.trans opens
          simp only [List.cons_append, List.append_assoc, List.length_cons, List.length_append]
            at short ⊢
          refine .bind takes_advance fun _ _ => ?_
          refine .bind (ih.items.itemsThrough (each.bounded (by omega)) closes) fun results same => ?_
          refine takes_spanned start fun span => ?_
          rw [Literal.unplaced, Literal.unplaced, Literal.itemsUnplaced_eq, Literal.itemsUnplaced_eq,
            same]
      | object between =>
          rcases between with @⟨first, last, inside, fields, opens, each, closes⟩
          refine .look looks_position fun start _ => .look looks_kind fun kind isKind => ?_
          obtain rfl : kind = .punctuator .openBrace := isKind.trans opens
          simp only [List.cons_append, List.append_assoc, List.length_cons, List.length_append]
            at short ⊢
          refine .bind takes_advance fun _ _ => ?_
          refine .bind (ih.fields.itemsThrough (each.bounded (by omega)) closes)
            fun results same => ?_
          refine takes_spanned start fun span => ?_
          rw [Literal.unplaced, Literal.unplaced, Literal.fieldsUnplaced_eq,
            Literal.fieldsUnplaced_eq, same]

theorem takes_literal {used rest : List Token} {literal : Literal}
    (spelled : SpellsLiteral constant used literal) :
    Takes (Parser.literal constant) (used ++ rest) (·.unplaced = literal.unplaced) rest := by
  refine .look looks_depthBound fun depth isBound => takesLiterals depth spelled ?_
  rw [isBound, List.length_append]
  omega

end

/-! ## Arguments and directives -/

theorem takesEach_argument {closing : Punctuator} :
    TakesEach argument closing SpellsArgument Argument.unplaced Argument.unplaced
      (fun _ => True) := by
  refine ⟨?_, ?_, fun _ => trivial, fun _ => trivial⟩
  · rintro used _ rest ⟨isName, isColon, inner⟩ _
    refine .look looks_position fun start _ => .bind (takes_name isName) fun name same => ?_
    refine .bind (takes_expectMark isColon) fun _ _ => .bind (takes_literal inner)
      fun value sameValue => takes_spanned start fun span => ?_
    simp only [Argument.unplaced, same, sameValue]
  · rintro used _ ⟨isName, _, _⟩
    exact TokenKind.ne_of_isName isName.1 _

theorem takes_arguments {used rest : List Token} {arguments : List Argument}
    (spelled : SpellsArguments used arguments) (follows : Avoids [.openParen] rest) :
    Takes Parser.arguments (used ++ rest)
      (·.map Argument.unplaced = arguments.map Argument.unplaced) rest :=
  takesEach_argument.optionalItems spelled (follows _ (by simp))

theorem takes_directive {used rest : List Token} {directive : Directive}
    (spelled : SpellsDirective used directive) (follows : Avoids [.openParen] rest) :
    Takes Parser.directive (used ++ rest) (·.unplaced = directive.unplaced) rest := by
  rcases spelled with ⟨isAt, isName, given⟩
  refine .look looks_position fun start _ => .bind takes_advance fun _ _ => ?_
  refine .bind (takes_name isName) fun name same => .bind (takes_arguments given follows)
    fun arguments sameArguments => takes_spanned start fun span => ?_
  simp only [Directive.unplaced, same, sameArguments]

theorem takes_directives {used rest : List Token} {directives : List Directive}
    (spelled : SpellsDirectives used directives) (follows : Avoids [.atSign, .openParen] rest) :
    Takes Parser.directives (used ++ rest)
      (·.map Directive.unplaced = directives.map Directive.unplaced) rest := by
  refine takes_repeatedItems spelled (Avoids [.openParen]) takes_directive ?_ ?_
    (follows.mono (by simp)) (follows _ (by simp))
  · rintro used directive ⟨isAt, _, _⟩
    exact isAt
  · rintro used directive rest ⟨isAt, _, _⟩
    exact .of_mark isAt (by simp)

theorem takes_defaultValue {used rest : List Token} {default? : Option Literal}
    (spelled : SpellsDefault used default?) (follows : Avoids [.equals] rest) :
    Takes defaultValue (used ++ rest)
      (·.map Literal.unplaced = default?.map Literal.unplaced) rest := by
  cases spelled with
  | absent =>
      exact .bind (takes_eatMark_other (follows _ (by simp))) fun _ isEaten =>
        .ite_neg (by simp [isEaten]) (.pure rfl)
  | present isEquals inner =>
      exact .bind (takes_eatMark isEquals) fun _ isEaten => .ite_pos isEaten
        (.bind (takes_literal inner) fun value same => .pure (congrArg some same))

/-! ## Selections -/

theorem takes_takeSetId {tokens : List Token} : Takes takeSetId tokens (fun _ => True) tokens :=
  fun state isAt => ⟨state.nextSetId, _, rfl, rfl, isAt.congr rfl rfl, trivial⟩

theorem headKind_of_spellsSelection {used : List Token} {selection : Selection}
    (spelled : SpellsSelection used selection) : (Token.headKind used).isName = true ∨
      Token.headKind used = .punctuator .spread := by
  have ofField {used rest : List Token} {head : FieldSelection}
      (field : SpellsFieldHead used head) : (Token.headKind (used ++ rest)).isName = true := by
    rcases field with ⟨key, _, _⟩
    cases key with
    | plain isName => exact isName.1
    | renamed isAlias _ _ => exact isAlias.1
  cases spelled with
  | leaf field => exact .inl (List.append_nil used ▸ ofField field)
  | field field _ => exact .inl (ofField field)
  | conditioned isSpread => exact .inr isSpread
  | unconditioned isSpread => exact .inr isSpread
  | spread isSpread => exact .inr isSpread

theorem headKind_of_spellsSelectionSet {used : List Token} {selections : SelectionSet}
    (spelled : SpellsSelectionSet used selections) (rest : List Token) :
    Token.headKind (used ++ rest) = .punctuator .openBrace := by
  rcases spelled with ⟨⟨opens, _, _⟩⟩
  exact opens

/-- What may not follow a selection. -/
def fieldMarks : List Punctuator :=
  [.colon, .openParen, .atSign, .openBrace]

section

variable {inner : Parser SelectionSet} {bound : Nat}
  (takes : ∀ {used rest : List Token} {selections : SelectionSet},
    SpellsSelectionSet used selections → used.length ≤ bound →
      Takes inner (used ++ rest) (·.unplaced = selections.unplaced) rest)

include takes

theorem takes_fieldSelection {headTokens used rest : List Token} {head : FieldSelection}
    {selections : Option SelectionSet} (field : SpellsFieldHead headTokens head)
    (selected : selections = none ∧ used = [] ∧ Avoids fieldMarks rest ∨
      ∃ given, selections = some given ∧ SpellsSelectionSet used given ∧ used.length ≤ bound) :
    Takes (fieldSelection inner) (headTokens ++ (used ++ rest))
      (·.unplaced = (Selection.field head selections).unplaced) rest := by
  have avoids : Avoids [.colon, .openParen, .atSign] (used ++ rest) := by
    rcases selected with ⟨_, rfl, avoids⟩ | ⟨given, _, spelled, _⟩
    · exact avoids.mono (by decide)
    · exact .of_mark (headKind_of_spellsSelectionSet spelled _) (by decide)
  rcases field with @⟨keyTokens, argumentTokens, directiveTokens, responseAlias, name, arguments,
    directives, span, key, given, directed⟩
  have ending (start : Nat) (aliasRead : Option Name) (nameRead : Name)
      (sameAlias : aliasRead.map Name.unplaced = responseAlias.map Name.unplaced)
      (sameName : nameRead.unplaced = name.unplaced) : Takes (do
        let arguments ← Parser.arguments
        let directives ← Parser.directives
        let selections ←
          if ← isAt (.punctuator .openBrace) then pure (some (← inner)) else pure none
        return Selection.field
          { responseAlias := aliasRead, name := nameRead, arguments, directives
            span := ← spanFrom start } selections)
      (argumentTokens ++ (directiveTokens ++ (used ++ rest)))
      (·.unplaced = (Selection.field ⟨responseAlias, name, arguments, directives, span⟩
        selections).unplaced) rest := by
    refine .bind (takes_arguments given ?_) fun argumentsRead sameArguments => ?_
    · exact (avoids.mono (by decide)).directives directed (by decide)
    refine .bind (takes_directives directed (avoids.mono (by decide)))
      fun directivesRead sameDirectives => .look (looks_isAt _) fun opens isOpen => ?_
    rcases selected with ⟨rfl, rfl, ends⟩ | ⟨given, rfl, spelled, short⟩
    · refine .ite_neg ?_ (.pure_bind (takes_spanned start fun span => ?_))
      · rw [isOpen, beq_iff_eq]
        exact ends _ (by decide)
      · simp only [Selection.unplaced, FieldSelection.unplaced, sameAlias, sameName, sameArguments,
          sameDirectives]
    · refine .ite_pos ?_ (.bind (takes spelled short) fun selectionsRead sameSelections =>
        .pure_bind (takes_spanned start fun span => ?_))
      · rw [isOpen, headKind_of_spellsSelectionSet spelled _, beq_self_eq_true]
      · simp only [Selection.unplaced, FieldSelection.unplaced, sameAlias, sameName, sameArguments,
          sameDirectives, sameSelections]
  rw [List.append_assoc, List.append_assoc]
  refine .look looks_position fun start _ => ?_
  cases key with
  | plain isName =>
      refine .bind (takes_name isName) fun first same => .bind (takes_eatMark_other ?_)
        fun _ isEaten => .ite_neg (by simp [isEaten]) (ending start none first rfl same)
      have avoidsColon : Avoids [.colon] (used ++ rest) := avoids.mono (by decide)
      exact (avoidsColon.directives directed (by decide)).optional given (by decide) _ (by simp)
  | renamed isAlias isColon isName =>
      refine .bind (takes_name isAlias) fun first sameAlias => .bind (takes_eatMark isColon)
        fun _ isEaten => .ite_pos isEaten (.bind (takes_name isName) fun second same => ?_)
      exact ending start (some first) second (congrArg some sameAlias) same

theorem takes_selection {used rest : List Token} {selection : Selection}
    (spelled : SpellsSelection used selection) (short : used.length ≤ bound)
    (follows : Avoids fieldMarks rest) :
    Takes (Parser.selection inner) (used ++ rest) (·.unplaced = selection.unplaced) rest := by
  have ofField {headTokens : List Token} {head : FieldSelection} {selections : Option SelectionSet}
      {used : List Token} (field : SpellsFieldHead headTokens head)
      (selected : selections = none ∧ used = [] ∧ Avoids fieldMarks rest ∨
        ∃ given, selections = some given ∧ SpellsSelectionSet used given ∧ used.length ≤ bound) :
      Takes (Parser.selection inner) (headTokens ++ (used ++ rest))
        (·.unplaced = (Selection.field head selections).unplaced) rest := by
    refine .look looks_position fun start _ => .bind (takes_eatMark_other ?_) fun _ isEaten =>
      .ite_neg (by simp [isEaten]) (takes_fieldSelection takes field selected)
    rcases field with ⟨key, _, _⟩
    cases key with
    | plain isName => exact (TokenKind.ne_of_isName isName.1 _).2
    | renamed isAlias _ _ => exact (TokenKind.ne_of_isName isAlias.1 _).2
  cases spelled with
  | leaf field => exact ofField field (.inl ⟨rfl, rfl, follows⟩)
  | field field spelled =>
      rw [List.append_assoc]
      rw [List.length_append] at short
      exact ofField field (.inr ⟨_, rfl, spelled, by omega⟩)
  | conditioned isSpread isOn isName directed spelled =>
      simp only [List.length_cons, List.length_append] at short
      simp only [List.cons_append, List.append_assoc]
      refine .look looks_position fun start _ => .bind (takes_eatMark isSpread) fun _ isEaten =>
        .ite_pos isEaten ?_
      refine .bind (takes_eat isOn) fun _ isEaten => .ite_pos isEaten ?_
      refine .bind (takes_name isName) fun condition same => .bind (takes_directives directed ?_)
        fun directives sameDirectives => .bind (takes spelled (by omega)) fun set sameSet =>
          takes_spanned start fun span => ?_
      · exact .of_mark (headKind_of_spellsSelectionSet spelled _) (by decide)
      · simp only [Selection.unplaced, InlineFragment.unplaced, sameDirectives, sameSet,
          Option.map_some, same]
  | @unconditioned dots directiveTokens inside directives selections _ isSpread directed spelled =>
      simp only [List.length_cons, List.length_append] at short
      simp only [List.cons_append, List.append_assoc]
      refine .look looks_position fun start _ => .bind (takes_eatMark isSpread) fun _ isEaten =>
        .ite_pos isEaten ?_
      have opens : Token.headKind (directiveTokens ++ (inside ++ rest)) = .punctuator .openBrace ∨
          Token.headKind (directiveTokens ++ (inside ++ rest)) = .punctuator .atSign := by
        rcases directed with ⟨each⟩
        cases each with
        | nil => exact .inl (headKind_of_spellsSelectionSet spelled rest)
        | cons first _ =>
            rcases first with ⟨isAt, _, _⟩
            exact .inr isAt
      refine .bind (takes_eat_other ?_) fun _ isEaten => .ite_neg (by simp [isEaten]) ?_
      · rcases opens with opens | opens <;> rw [opens] <;> simp
      refine .look (looks_isAt _) fun open_ isOpen => .look (looks_isAt _) fun directs isDirected =>
        .ite_pos ?_ ?_
      · rw [isOpen, isDirected]
        simpa using opens
      refine .bind (takes_directives directed ?_) fun directives sameDirectives =>
        .bind (takes spelled (by omega)) fun set sameSet => takes_spanned start fun span => ?_
      · exact .of_mark (headKind_of_spellsSelectionSet spelled _) (by decide)
      · simp only [Selection.unplaced, InlineFragment.unplaced, sameDirectives, sameSet]
  | spread isSpread isName other directed =>
      simp only [List.cons_append]
      refine .look looks_position fun start _ => .bind (takes_eatMark isSpread) fun _ isEaten =>
        .ite_pos isEaten ?_
      refine .bind (takes_eat_other other) fun _ isEaten => .ite_neg (by simp [isEaten]) ?_
      refine .look (looks_isAt _) fun opens isOpen => .look (looks_isAt _) fun directs isDirected =>
        .ite_neg ?_ ?_
      · simp [isOpen, isDirected, Token.headKind, (TokenKind.ne_of_isName isName.1 _).2]
      · refine .bind (takes_name isName) fun name same => .bind (takes_directives directed
          (follows.mono (by decide))) fun directives sameDirectives => takes_spanned start
            fun span => ?_
        simp only [Selection.unplaced, FragmentSpread.unplaced, same, sameDirectives]

end

theorem takes_selectionSetWithin {used rest : List Token} {selections : SelectionSet} {depth : Nat}
    (spelled : SpellsSelectionSet used selections) (short : used.length ≤ depth) :
    Takes (selectionSetWithin depth) (used ++ rest) (·.unplaced = selections.unplaced) rest := by
  induction depth generalizing used rest selections with
  | zero => exact absurd (List.eq_nil_of_length_eq_zero (Nat.le_zero.mp short)) spelled.ne_nil
  | succ depth ih =>
      rcases spelled with @⟨_, items, _, _, ⟨opens, each, closes⟩⟩
      simp only [List.cons_append, List.append_assoc, List.length_cons, List.length_append]
        at short ⊢
      have takesEach : TakesEach (selection (selectionSetWithin depth)) .closeBrace
          (fun used selection => SpellsSelection used selection ∧ used.length ≤ depth)
          Selection.unplaced Selection.unplaced (Avoids fieldMarks) :=
        { takes := fun spelled follows => takes_selection ih spelled.1 spelled.2 follows
          starts := fun spelled => (headKind_of_spellsSelection spelled.1).elim
            (TokenKind.ne_of_isName · _) (by rintro isSpread; simp [isSpread])
          continues := fun {used _ rest} spelled => by
            have same : Token.headKind (used ++ rest) = Token.headKind used := by
              cases used with
              | nil => exact absurd rfl spelled.1.ne_nil
              | cons _ _ => rfl
            rcases headKind_of_spellsSelection spelled.1 with isName | isSpread
            · exact .of_isName (by rwa [same])
            · exact .of_mark (same.trans isSpread) (by decide)
          ends := fun closes => .of_mark closes (by decide) }
      refine .look looks_position fun start _ => .bind takes_takeSetId fun id _ => ?_
      refine .bind (takes_expect opens) fun _ met => .ite_pos met ?_
      refine .bind (takesEach.itemsThrough (each.bounded (by omega)) closes) fun results same => ?_
      refine takes_spanned start fun span => ?_
      rw [SelectionSet.unplaced, SelectionSet.unplaced, Selection.listUnplaced_eq,
        Selection.listUnplaced_eq, same]

theorem takes_selectionSet {used rest : List Token} {selections : SelectionSet}
    (spelled : SpellsSelectionSet used selections) :
    Takes Parser.selectionSet (used ++ rest) (·.unplaced = selections.unplaced) rest := by
  refine .look looks_depthBound fun depth isBound => takes_selectionSetWithin spelled ?_
  rw [isBound, List.length_append]
  omega

/-! ## Definitions -/

/-- What may not follow a variable definition. -/
def variableMarks : List Punctuator :=
  [.bang, .equals, .atSign, .openParen]

theorem takes_variableDefinition {used rest : List Token} {definition : VariableDefinition}
    (spelled : SpellsVariable used definition) (follows : Avoids variableMarks rest) :
    Takes variableDefinition (used ++ rest) (·.unplaced = definition.unplaced) rest := by
  rcases spelled with ⟨isDollar, isName, isColon, typed, defaulted, directed⟩
  simp only [List.cons_append, List.append_assoc]
  have undirected : Avoids [.bang, .equals] (_ ++ rest) :=
    (follows.mono (by decide) : Avoids [.bang, .equals] rest).directives directed (by decide)
  refine .look looks_position fun start _ => .bind (takes_expectMark isDollar) fun _ _ => ?_
  refine .bind (takes_name isName) fun name same => .bind (takes_expectMark isColon) fun _ _ => ?_
  refine .bind (takes_typeExpression typed ?_) fun type sameType => ?_
  · cases defaulted with
    | absent => exact undirected.mono (by decide)
    | present isEquals _ => exact .of_mark isEquals (by decide)
  refine .bind (takes_defaultValue defaulted (undirected.mono (by decide)))
    fun default? sameDefault => ?_
  refine .bind (takes_directives directed (follows.mono (by decide)))
    fun directives sameDirectives => takes_spanned start fun span => ?_
  simp only [VariableDefinition.unplaced, same, sameType, sameDefault, sameDirectives]

theorem takesEach_variableDefinition :
    TakesEach variableDefinition .closeParen SpellsVariable VariableDefinition.unplaced
      VariableDefinition.unplaced (Avoids variableMarks) where
  takes := takes_variableDefinition
  starts := by
    rintro used definition ⟨isDollar, _, _, _, _, _⟩
    simp [Token.headKind, show _ = _ from isDollar]
  continues := by
    rintro used definition rest ⟨isDollar, _, _, _, _, _⟩
    exact .of_mark isDollar (by decide)
  ends := fun closes => .of_mark closes (by decide)

theorem takes_operationHead {word : Token} {nameTokens rest : List Token} {kind : OperationKind}
    {name : Option Name} (opens : operationKind? word.kind = some kind)
    (named : SpellsOptionalName nameTokens name)
    (other : (Token.headKind rest).isName = false) :
    Takes operationHead (word :: (nameTokens ++ rest))
      (fun head => head.1 = kind ∧ head.2.map Name.unplaced = name.map Name.unplaced) rest := by
  refine .look (looks_isAt _) fun _ isOpen => .ite_neg (fun isBrace => ?_) ?_
  · rw [isOpen, beq_iff_eq] at isBrace
    rw [show word.kind = _ from isBrace] at opens
    cases opens
  refine .look looks_kind fun kindSeen isSeen => .bind takes_advance fun _ _ => ?_
  have same : (operationKind? kindSeen).getD .query = kind := by
    rw [isSeen]
    exact congrArg (Option.getD · .query) opens
  refine .look looks_kind fun next isNext => ?_
  cases named with
  | absent =>
      refine .ite_neg ?_ (.pure ⟨same, rfl⟩)
      rw [isNext, List.nil_append, other]
      exact Bool.false_ne_true
  | present isName =>
      refine .ite_pos ?_ (.bind (takes_name isName) fun nameRead sameName =>
        .pure ⟨same, congrArg some sameName⟩)
      rw [isNext]
      exact isName.1

theorem takes_operation {used rest : List Token} {definition : OperationDefinition}
    (spelled : SpellsOperation used definition) :
    Takes operation (used ++ rest) (·.unplaced = definition.unplaced) rest := by
  have body (start : Nat) {kind : OperationKind} {name nameRead : Option Name}
      (sameName : nameRead.map Name.unplaced = name.map Name.unplaced)
      {variableTokens directiveTokens used : List Token} {variables_ : List VariableDefinition}
      {directives : List Directive} {selections : SelectionSet} {span : Span}
      (declared : SpellsOptional .openParen .closeParen SpellsVariable variableTokens variables_)
      (directed : SpellsDirectives directiveTokens directives)
      (inner : SpellsSelectionSet used selections) : Takes (do
        let variableDefinitions ← optionalItems .openParen .closeParen variableDefinition
        let directives ← Parser.directives
        let selections ← selectionSet
        return OperationDefinition.mk kind nameRead variableDefinitions directives selections
          (← spanFrom start))
      (variableTokens ++ (directiveTokens ++ (used ++ rest)))
      (·.unplaced = (OperationDefinition.mk kind name variables_ directives selections span).unplaced)
      rest := by
    have avoids {marks : List Punctuator} (other : .openBrace ∉ marks) :
        Avoids marks (used ++ rest) :=
      .of_mark (headKind_of_spellsSelectionSet inner _) other
    have avoidsParen : Avoids [.openParen] (directiveTokens ++ (used ++ rest)) :=
      (avoids (by decide)).directives directed (by decide)
    refine .bind (takesEach_variableDefinition.optionalItems declared (avoidsParen _ (by simp)))
      fun variablesRead sameVariables => .bind (takes_directives directed (avoids (by decide)))
        fun directivesRead sameDirectives => .bind (takes_selectionSet inner)
          fun selectionsRead sameSelections => takes_spanned start fun span => ?_
    simp only [OperationDefinition.unplaced, sameName, sameVariables, sameDirectives,
      sameSelections]
  refine .look looks_position fun start _ => ?_
  cases spelled with
  | shorthand inner =>
      have head : Takes operationHead (used ++ rest) (· = (.query, none)) (used ++ rest) :=
        .look (looks_isAt _) fun _ isOpen => .ite_pos
          (by rw [isOpen, headKind_of_spellsSelectionSet inner _, beq_self_eq_true]) (.pure rfl)
      refine .bind head fun _ isQuery => ?_
      subst isQuery
      exact body start rfl .absent .nil inner
  | @full word nameTokens variableTokens directiveTokens used kind name _ _ selections _ opens named
      declared directed inner =>
      have other : (Token.headKind
          (variableTokens ++ (directiveTokens ++ (used ++ rest)))).isName = false := by
        cases declared with
        | present between =>
            rcases between with ⟨isParen, _, _⟩
            exact congrArg TokenKind.isName isParen
        | absent =>
            rcases directed with ⟨each⟩
            cases each with
            | nil =>
                exact congrArg TokenKind.isName (headKind_of_spellsSelectionSet inner rest)
            | cons first _ =>
                rcases first with ⟨isAt, _, _⟩
                exact congrArg TokenKind.isName isAt
      simp only [List.cons_append, List.append_assoc]
      refine .bind (takes_operationHead opens named other) fun head same => ?_
      rcases head with ⟨kindRead, nameRead⟩
      rcases same with ⟨rfl, sameName⟩
      exact body start sameName declared directed inner

theorem takes_fragment {used rest : List Token} {definition : FragmentDefinition}
    (spelled : SpellsFragment used definition) :
    Takes fragment (used ++ rest) (·.unplaced = definition.unplaced) rest := by
  rcases spelled with ⟨_, isName, isOn, isCondition, directed, inner⟩
  simp only [List.cons_append, List.append_assoc]
  refine .look looks_position fun start _ => .bind takes_advance fun _ _ => ?_
  refine .bind (takes_name isName) fun name same => .bind (takes_expect isOn) fun _ _ => ?_
  refine .bind (takes_name isCondition) fun typeCondition sameCondition => ?_
  refine .bind (takes_directives directed ?_) fun directives sameDirectives => ?_
  · exact .of_mark (headKind_of_spellsSelectionSet inner _) (by decide)
  refine .bind (takes_selectionSet inner) fun selections sameSelections =>
    takes_spanned start fun span => ?_
  simp only [FragmentDefinition.unplaced, same, sameCondition, sameDirectives, sameSelections]

theorem operationKind?_eq_some {kind : TokenKind} {operation : OperationKind}
    (opens : operationKind? kind = some operation) : kind = .keyword .query ∨
      kind = .keyword .mutation ∨ kind = .keyword .subscription := by
  unfold operationKind? at opens
  split at opens
  · exact .inl rfl
  · exact .inr (.inl rfl)
  · exact .inr (.inr rfl)
  · cases opens

theorem takes_definitionAfter {used rest : List Token} {definition : Definition}
    {description : Option Description} (spelled : SpellsExecutable used definition) :
    Takes (definitionAfter description) (used ++ rest)
      (·.map Definition.unplaced = some definition.unplaced) rest := by
  refine .look looks_kind fun kind isKind => ?_
  cases spelled with
  | fragment spelled =>
      obtain rfl : kind = .keyword .fragment := by
        rcases spelled with ⟨opens, _, _, _, _, _⟩
        exact isKind.trans opens
      exact .bind (takes_fragment spelled) fun _ same =>
        .pure (congrArg (some ∘ Definition.fragment) same)
  | operation spelled =>
      have takes : Takes (do return some (Definition.operation (← operation))) (used ++ rest)
          (·.map Definition.unplaced = some (Definition.operation _).unplaced) rest :=
        .bind (takes_operation spelled) fun _ same =>
          .pure (congrArg (some ∘ Definition.operation) same)
      cases spelled with
      | shorthand inner =>
          obtain rfl := isKind.trans (headKind_of_spellsSelectionSet inner _)
          exact takes
      | full opens =>
          rcases operationKind?_eq_some opens with isQuery | isMutation | isSubscription
          · obtain rfl := isKind.trans isQuery
            exact takes
          · obtain rfl := isKind.trans isMutation
            exact takes
          · obtain rfl := isKind.trans isSubscription
            exact takes

/-- An executable definition does not start with a description. -/
theorem headKind_of_spellsExecutable {used : List Token} {definition : Definition}
    (spelled : SpellsExecutable used definition) (rest : List Token) : Token.headKind (used ++ rest) ≠ .string ∧
      Token.headKind (used ++ rest) ≠ .blockString := by
  cases spelled with
  | fragment spelled =>
      rcases spelled with ⟨opens, _, _, _, _, _⟩
      simp [Token.headKind, opens]
  | operation spelled =>
      cases spelled with
      | shorthand inner => simp [headKind_of_spellsSelectionSet inner _]
      | full opens =>
          rcases operationKind?_eq_some opens with isKind | isKind | isKind <;>
            simp [Token.headKind, isKind]

theorem takes_definition? {used : List Token} {definition : Definition}
    (spelled : SpellsDefinition used definition)
    (texted : ∀ token ∈ used, token.kind ≠ .invalid → token.text? ≠ none) (rest : List Token) :
    Takes definition? (used ++ rest) (·.map Definition.unplaced = some definition.unplaced)
      rest := by
  cases spelled with
  | bare spelled =>
      have none : Takes description? (used ++ rest) (fun _ => True) (used ++ rest) := by
        refine .look looks_currentSpan fun span _ => .look looks_kind fun kind isKind =>
          .ite_neg ?_ (.pure trivial)
        rcases headKind_of_spellsExecutable spelled rest with ⟨notString, notBlock⟩
        simp [isKind, notString, notBlock]
      exact .bind none fun _ _ => takes_definitionAfter spelled
  | @described token used _ isString spelled =>
      have some : Takes description? (token :: (used ++ rest)) (fun _ => True) (used ++ rest) := by
        have valid : token.kind ≠ .invalid := by
          rcases isString with isString | isString <;> rw [isString] <;> simp
        rcases Option.ne_none_iff_exists'.mp (texted token List.mem_cons_self valid) with
          ⟨text, reads⟩
        refine .look looks_currentSpan fun span _ => .look looks_kind fun kind isKind =>
          .ite_pos ?_ (.bind (takes_currentText reads) fun _ _ => .bind takes_advance fun _ _ =>
            .pure trivial)
        rw [isKind]
        simpa [Token.headKind] using isString
      exact .bind some fun _ _ => takes_definitionAfter spelled

theorem takes_definitionsWithin {parts : List (List Token)} {definitions : List Definition}
    (spelled : List.Forall₂ SpellsDefinition parts definitions)
    (texted : ∀ token ∈ parts.flatten, token.kind ≠ .invalid → token.text? ≠ none) {fuel : Nat}
    (enough : parts.flatten.length < fuel) :
    Takes (definitionsWithin fuel) parts.flatten
      (·.map Definition.unplaced = definitions.map Definition.unplaced) [] := by
  induction spelled generalizing fuel with
  | nil =>
      cases fuel with
      | zero => exact .pure rfl
      | succ fuel => exact .look looks_isAtEnd fun _ isEnd => .ite_pos (isEnd.mpr rfl) (.pure rfl)
  | @cons used definition parts definitions first others ih =>
      have positive := List.length_pos_iff.mpr first.ne_nil
      simp only [List.flatten_cons, List.length_append] at enough
      cases fuel with
      | zero => omega
      | succ fuel =>
          simp only [List.flatten_cons, List.mem_append] at texted ⊢
          refine .look looks_isAtEnd fun _ isEnd => .ite_neg ?_ ?_
          · rw [isEnd]
            exact List.append_ne_nil_of_left_ne_nil first.ne_nil _
          · have takes := takes_definition? first (fun token member => texted token (.inl member))
              parts.flatten
            refine .bind (takes.progressing first.ne_nil) fun found same => ?_
            refine .bind (ih (fun token member => texted token (.inr member)) (by omega))
              fun results sameAll => .pure ?_
            rcases Option.map_eq_some_iff.mp same with ⟨result, rfl, sameFirst⟩
            simp only [Option.toList_some, List.cons_append, List.nil_append, List.map_cons,
              sameFirst, sameAll]

theorem takes_document {tokens : List Token} {document : Document}
    (spelled : SpellsDocument tokens document)
    (texted : ∀ token ∈ tokens, token.kind ≠ .invalid → token.text? ≠ none) :
    Takes Parser.document tokens (·.unplaced = document.unplaced) [] := by
  rcases spelled with ⟨⟨each⟩⟩
  refine .look looks_position fun start _ => .look looks_depthBound fun fuel isBound => ?_
  refine .bind (takes_definitionsWithin each texted (by omega)) fun definitions same =>
    takes_spanned start fun span => ?_
  simp only [Document.unplaced, same]

end Parser

end GraphQL
