import GraphQL.Proofs.Parsing.Reading

/-!
# What the parsers of executable documents read

One lemma a parser: a quiet run consumes tokens that spell its result.
-/

namespace GraphQL

open Grammar

namespace Parser

variable {α : Type}

/-- A value with the span of what has been read. -/
theorem reads_spanned (start : Nat) {value : Span → α} {post : List Token → α → List Token → Prop}
    (holds : ∀ tokens span, post tokens (value span) tokens) :
    Reads (do return value (← spanFrom start)) post :=
  .look (looks_spanFrom start) fun span => .pure fun tokens _ => holds tokens span

/-! ## Types -/

theorem reads_typeExpressionWithin (depth : Nat) :
    Reads (typeExpressionWithin depth) (Spelled SpellsType) := by
  induction depth with
  | zero =>
      refine .bind reads_name fun name => .pure ?_
      rintro rest _ ⟨token, rfl, isName⟩
      exact ⟨[token], rfl, .nullable (.named isName)⟩
  | succ depth ih =>
      have marked (start : Nat) (type : TypeExpression) :
          Reads (do if ← eatMark .bang then return .nonNull type (← spanFrom start) else return type)
            fun tokens result rest => ∀ used before, before = used ++ tokens →
              SpellsPlainType used type → Spelled SpellsType before result rest := by
        refine .bind (reads_eatMark .bang) fun eaten => .ite (fun isEaten => ?_) fun notEaten => ?_
        · refine reads_spanned start ?_
          rintro rest span tokens ate used before rfl plain
          rw [if_pos isEaten] at ate
          rcases ate with ⟨last, rfl, isBang⟩
          exact ⟨used ++ [last], by simp, .nonNull plain isBang⟩
        · refine .pure ?_
          rintro rest tokens ate used before rfl plain
          rw [if_neg notEaten] at ate
          rcases ate with ⟨rfl, _⟩
          exact ⟨used, rfl, .nullable plain⟩
      refine .look looks_position fun start => .bind (reads_eatMark _) fun eaten =>
        .ite (fun isEaten => ?_) fun notEaten => ?_
      · refine .bind ih fun item => .bind (reads_expectMark _) fun _ => ?_
        refine .look (looks_spanFrom start) fun span => (marked start (.list item span)).weaken ?_
        rintro tokens result rest spelled _ _ ⟨last, rfl, closes⟩ _ ⟨used, rfl, inner⟩ before ate _
        rw [if_pos isEaten] at ate
        rcases ate with ⟨first, rfl, opens⟩
        exact spelled (first :: (used ++ [last])) _ (by simp) (.list opens inner closes)
      · refine .bind reads_name fun name => (marked start (.named name)).weaken ?_
        rintro tokens result rest spelled _ ⟨token, rfl, isName⟩ before ate _
        rw [if_neg notEaten] at ate
        rcases ate with ⟨rfl, _⟩
        exact spelled [token] _ rfl (.named isName)

theorem reads_typeExpression : Reads typeExpression (Spelled SpellsType) :=
  .look looks_depthBound fun depth =>
    (reads_typeExpressionWithin depth).weaken fun _ _ _ spelled _ => spelled

/-! ## Literals -/

section

variable {constant : Bool}

theorem reads_intLiteral : Reads intLiteral fun tokens literal rest =>
    Token.headKind tokens = .int → Spelled (SpellsLiteral constant) tokens literal rest := by
  refine .bind reads_currentText fun text => .look looks_currentSpan fun span => ?_
  refine .bind reads_advance fun _ => .ite (fun fits => .pure ?_) fun _ => ?_
  · rintro _ tokens rfl _ before ⟨rfl, reads⟩ isInt
    rcases Token.exists_cons_of_headKind isInt (by simp) with ⟨token, rest, rfl, isInt⟩
    exact ⟨[token], rfl, .int isInt (reads _ _ rfl) fits⟩
  · exact .after_error (reads_report rfl) (.pure fun _ => trivial)

theorem reads_variableLiteral : Reads (variableLiteral constant) fun tokens literal rest =>
    Token.headKind tokens = .punctuator .dollar →
      Spelled (SpellsLiteral constant) tokens literal rest := by
  refine .look looks_position fun start => .bind reads_advance fun _ => .bind reads_name fun name => ?_
  refine .look (looks_spanFrom start) fun span => .ite (fun _ => ?_) fun allowed => .pure ?_
  · exact .after_error (reads_report rfl) (.pure fun _ => trivial)
  · rintro rest _ _ ⟨token, rfl, isName⟩ tokens advanced _ isDollar
    rcases Token.exists_cons_of_headKind isDollar (by simp) with ⟨dollar, others, rfl, isDollar⟩
    simp only [List.tail_cons] at advanced
    subst advanced
    exact ⟨[dollar, token], rfl, .var (Bool.eq_false_iff.mpr allowed) isDollar isName⟩

theorem reads_simpleLiteral : Reads simpleLiteral (Spelled (SpellsLiteral constant)) := by
  have word {kind : TokenKind} (inside : kind ≠ .endOfInput) {literal : Literal}
      (spells : ∀ token, token.kind = kind → SpellsLiteral constant [token] literal) :
      Reads (do advance; return literal) fun tokens result rest =>
        kind = Token.headKind tokens → Spelled (SpellsLiteral constant) tokens result rest := by
    refine .bind reads_advance fun _ => .pure ?_
    rintro _ tokens rfl isHead
    rcases Token.exists_cons_of_headKind isHead.symm inside with ⟨token, rest, rfl, hasKind⟩
    exact ⟨[token], rfl, spells token hasKind⟩
  have texted {kind : TokenKind} (inside : kind ≠ .endOfInput) {literal : String → Literal}
      (spells : ∀ token text, token.kind = kind → token.text? = some text →
        SpellsLiteral constant [token] (literal text)) :
      Reads (do let text ← currentText; advance; return literal text) fun tokens result rest =>
        kind = Token.headKind tokens → Spelled (SpellsLiteral constant) tokens result rest := by
    refine .bind reads_currentText fun text => .bind reads_advance fun _ => .pure ?_
    rintro _ tokens rfl before ⟨rfl, reads⟩ isHead
    rcases Token.exists_cons_of_headKind isHead.symm inside with ⟨token, rest, rfl, hasKind⟩
    exact ⟨[token], rfl, spells token text hasKind (reads _ _ rfl)⟩
  refine .look looks_currentSpan fun span => .look looks_kind fun kind => ?_
  split
  · exact reads_intLiteral.weaken fun _ _ _ spelled isHead _ => spelled isHead.symm
  · exact (texted (by simp) fun _ _ isFloat reads => .float isFloat reads).weaken
      fun _ _ _ spelled isHead _ => spelled isHead
  · exact (texted (by simp) fun _ _ isString reads => .string isString reads).weaken
      fun _ _ _ spelled isHead _ => spelled isHead
  · refine .bind reads_currentText fun text => .bind reads_advance fun _ => ?_
    cases means : Text.blockValue (bodyBetween 3 text) with
    | error fault =>
        intro _ _ _ run
        cases run
    | ok value =>
        refine .pure ?_
        rintro _ tokens rfl before ⟨rfl, reads⟩ isHead _
        rcases Token.exists_cons_of_headKind isHead.symm (by simp) with
          ⟨token, rest, rfl, isString⟩
        exact ⟨[token], rfl, .blockString isString (reads _ _ rfl) means⟩
  · exact (word (by simp) fun _ isTrue => .trueValue isTrue).weaken
      fun _ _ _ spelled isHead _ => spelled isHead
  · exact (word (by simp) fun _ isFalse => .falseValue isFalse).weaken
      fun _ _ _ spelled isHead _ => spelled isHead
  · exact (word (by simp) fun _ isNull => .null isNull).weaken
      fun _ _ _ spelled isHead _ => spelled isHead
  · rename_i notTrue notFalse notNull
    refine .ite (fun _ => .bind reads_name fun name => .pure ?_) fun _ => ?_
    · rintro rest _ ⟨token, rfl, isName⟩ isHead _
      have isHead : kind = token.kind := isHead
      refine ⟨[token], rfl, .enum isName ⟨?_, ?_, ?_⟩⟩
      · exact fun isTrue => notTrue (isHead.trans isTrue)
      · exact fun isFalse => notFalse (isHead.trans isFalse)
      · exact fun isNull => notNull (isHead.trans isNull)
    · exact .after_error (reads_reportCurrent _) (.pure fun _ => trivial)

theorem reads_literalWithin (depth : Nat) :
    Reads (literalWithin constant depth) (Spelled (SpellsLiteral constant)) := by
  induction depth with
  | zero => exact reads_simpleLiteral
  | succ depth ih =>
      refine .look looks_position fun start => .look looks_kind fun kind => ?_
      split
      · exact reads_variableLiteral.weaken fun _ _ _ spelled isHead _ => spelled isHead.symm
      · refine .bind reads_advance fun _ =>
          .bind (ih.itemsAfter (fun _ _ spelled => spelled.ne_nil) _) fun items => reads_spanned start ?_
        rintro rest span _ ⟨used, last, rfl, each, closes⟩ tokens advanced isHead _
        rcases Token.exists_cons_of_headKind isHead.symm (by simp) with ⟨first, others, rfl, opens⟩
        simp only [List.tail_cons] at advanced
        subst advanced
        exact ⟨first :: (used ++ [last]), by simp, .list (.mk opens each closes)⟩
      · have reads : Reads (do
            let name ← name
            expectMark .colon
            return (name, ← literalWithin constant depth)) (Spelled (SpellsField constant)) := by
          refine .bind reads_name fun name => .bind (reads_expectMark _) fun _ => .bind ih fun value =>
            .pure ?_
          rintro rest _ ⟨used, rfl, inner⟩ _ ⟨colon, rfl, isColon⟩ _ ⟨token, rfl, isName⟩
          exact ⟨token :: colon :: used, rfl, .mk isName isColon inner⟩
        refine .bind reads_advance fun _ =>
          .bind (reads.itemsAfter (fun _ _ spelled => spelled.ne_nil) _) fun fields =>
            reads_spanned start ?_
        rintro rest span _ ⟨used, last, rfl, each, closes⟩ tokens advanced isHead _
        rcases Token.exists_cons_of_headKind isHead.symm (by simp) with ⟨first, others, rfl, opens⟩
        simp only [List.tail_cons] at advanced
        subst advanced
        exact ⟨first :: (used ++ [last]), by simp, .object (.mk opens each closes)⟩
      · exact reads_simpleLiteral.weaken fun _ _ _ spelled _ _ => spelled

theorem reads_literal : Reads (literal constant) (Spelled (SpellsLiteral constant)) :=
  .look looks_depthBound fun depth =>
    (reads_literalWithin depth).weaken fun _ _ _ spelled _ => spelled

end

/-! ## Arguments and directives -/

theorem reads_argument : Reads argument (Spelled SpellsArgument) := by
  refine .look looks_position fun start => .bind reads_name fun name => ?_
  refine .bind (reads_expectMark _) fun _ => .bind reads_literal fun value => reads_spanned start ?_
  rintro rest span _ ⟨used, rfl, inner⟩ _ ⟨colon, rfl, isColon⟩ _ ⟨token, rfl, isName⟩ _
  exact ⟨token :: colon :: used, rfl, .mk isName isColon inner⟩

theorem reads_arguments : Reads arguments (Spelled SpellsArguments) :=
  reads_argument.optionalItems (fun _ _ spelled => spelled.ne_nil) _ _

theorem reads_directive : Reads directive fun tokens directive rest =>
    Token.headKind tokens = .punctuator .atSign →
      Spelled SpellsDirective tokens directive rest := by
  refine .look looks_position fun start => .bind reads_advance fun _ => .bind reads_name fun name => ?_
  refine .bind reads_arguments fun arguments => reads_spanned start ?_
  rintro rest span _ ⟨used, rfl, given⟩ _ ⟨token, rfl, isName⟩ tokens advanced _ isAt
  rcases Token.exists_cons_of_headKind isAt (by simp) with ⟨first, others, rfl, isAt⟩
  simp only [List.tail_cons] at advanced
  subst advanced
  exact ⟨first :: token :: used, rfl, .mk isAt isName given⟩

theorem reads_directives : Reads directives (Spelled SpellsDirectives) :=
  reads_directive.repeatedItems

theorem reads_defaultValue : Reads defaultValue (Spelled SpellsDefault) := by
  refine .bind (reads_eatMark _) fun eaten => .ite (fun isEaten => ?_) fun notEaten => .pure ?_
  · refine .bind reads_literal fun value => .pure ?_
    rintro rest _ ⟨used, rfl, inner⟩ tokens ate
    rw [if_pos isEaten] at ate
    rcases ate with ⟨equals, rfl, isEquals⟩
    exact ⟨equals :: used, rfl, .present isEquals inner⟩
  · rintro rest tokens ate
    rw [if_neg notEaten] at ate
    exact ⟨[], ate.1.symm, .absent⟩

/-! ## Selections -/

theorem reads_takeSetId : Reads takeSetId fun tokens _ rest => rest = tokens := by
  intro state result after run
  cases run
  exact ⟨[], (List.append_nil _).symm, by simp, fun _ tokens isAt => ⟨tokens, isAt.congr rfl rfl, rfl⟩⟩

section

variable {inner : Parser SelectionSet} {bound : Nat}
  (reads : Reads inner fun tokens selections rest =>
    tokens.length < bound → Spelled SpellsSelectionSet tokens selections rest)

include reads

theorem reads_fieldSelection :
    Reads (fieldSelection inner) fun tokens selection rest =>
      tokens.length < bound → Spelled SpellsSelection tokens selection rest := by
  refine .look looks_position fun start => .bind reads_name fun first => ?_
  have ending (responseAlias : Option Name) (name : Name) : Reads (do
      let arguments ← arguments
      let directives ← directives
      let selections ←
        if ← isAt (.punctuator .openBrace) then pure (some (← inner)) else pure none
      return .field { responseAlias, name, arguments, directives, span := ← spanFrom start }
        selections) fun tokens selection rest => ∀ keyTokens before, before = keyTokens ++ tokens →
          SpellsKey keyTokens responseAlias name → before.length < bound →
            Spelled SpellsSelection before selection rest := by
    refine .bind reads_arguments fun arguments => .bind reads_directives fun directives => ?_
    refine .look (looks_isAt _) fun opens => .ite (fun _ => ?_) fun _ => ?_
    · refine .bind reads fun selections => .pure_bind (reads_spanned start ?_)
      rintro rest span tokens spelled _ _ ⟨directiveTokens, rfl, directed⟩ _
        ⟨argumentTokens, rfl, given⟩ keyTokens _ rfl key short
      simp only [List.length_append] at short
      rcases spelled (by omega) with ⟨used, rfl, inside⟩
      exact ⟨keyTokens ++ argumentTokens ++ directiveTokens ++ used, by simp,
        .field (.mk key given directed) inside⟩
    · refine .pure_bind (reads_spanned start ?_)
      rintro rest span _ _ ⟨directiveTokens, rfl, directed⟩ _ ⟨argumentTokens, rfl, given⟩ keyTokens
        _ rfl key _
      exact ⟨keyTokens ++ argumentTokens ++ directiveTokens, by simp, .leaf (.mk key given directed)⟩
  refine .bind (reads_eatMark _) fun eaten => .ite (fun isEaten => ?_) fun notEaten => ?_
  · refine .bind reads_name fun name => (ending (some first) name).weaken ?_
    rintro tokens selection rest spelled _ ⟨token, rfl, isName⟩ before ate _ ⟨aliasToken, rfl, isAlias⟩
      _ short
    rw [if_pos isEaten] at ate
    rcases ate with ⟨colon, rfl, isColon⟩
    exact spelled [aliasToken, colon, token] _ rfl (.renamed isAlias isColon isName) short
  · refine (ending none first).weaken ?_
    rintro tokens selection rest spelled before ate _ ⟨token, rfl, isName⟩ _ short
    rw [if_neg notEaten] at ate
    rcases ate with ⟨rfl, _⟩
    exact spelled [token] _ rfl (.plain isName) short

theorem reads_spreadSelection (start : Nat) :
    Reads (spreadSelection start inner) fun tokens selection rest => ∀ dots, IsMark .spread dots →
      tokens.length < bound → Spelled SpellsSelection (dots :: tokens) selection rest := by
  refine .bind (reads_eat (by simp)) fun eaten => .ite (fun isEaten => ?_) fun notEaten => ?_
  · refine .bind reads_name fun condition => .bind reads_directives fun directives => ?_
    refine .bind reads fun selections => reads_spanned start ?_
    rintro rest span tokens spelled _ ⟨directiveTokens, rfl, directed⟩ _ ⟨token, rfl, isName⟩ before ate
      dots isSpread short
    rw [if_pos isEaten] at ate
    rcases ate with ⟨word, rfl, isOn⟩
    simp only [List.length_cons, List.length_append] at short
    rcases spelled (by omega) with ⟨used, rfl, inside⟩
    exact ⟨dots :: word :: token :: (directiveTokens ++ used), by simp,
      .conditioned isSpread isOn isName directed inside⟩
  · refine .look (looks_isAt _) fun opens => .look (looks_isAt _) fun directs =>
      .ite (fun _ => ?_) fun _ => ?_
    · refine .bind reads_directives fun directives => .bind reads fun selections =>
        reads_spanned start ?_
      rintro rest span tokens spelled _ ⟨directiveTokens, rfl, directed⟩ _ _ before ate dots isSpread
        short
      rw [if_neg notEaten] at ate
      rcases ate with ⟨rfl, _⟩
      simp only [List.length_append] at short
      rcases spelled (by omega) with ⟨used, rfl, inside⟩
      exact ⟨dots :: (directiveTokens ++ used), by simp, .unconditioned isSpread directed inside⟩
    · refine .bind reads_name fun name => .bind reads_directives fun directives =>
        reads_spanned start ?_
      rintro rest span _ ⟨directiveTokens, rfl, directed⟩ _ ⟨token, rfl, isName⟩ _ _ before ate dots
        isSpread _
      rw [if_neg notEaten] at ate
      rcases ate with ⟨rfl, other⟩
      exact ⟨dots :: token :: directiveTokens, by simp, .spread isSpread isName other directed⟩

theorem reads_selection : Reads (selection inner) fun tokens selection rest =>
    tokens.length < bound → Spelled SpellsSelection tokens selection rest := by
  refine .look looks_position fun start => .bind (reads_eatMark _) fun eaten =>
    .ite (fun isEaten => ?_) fun notEaten => ?_
  · refine (reads_spreadSelection reads start).weaken ?_
    rintro tokens selection rest spelled before ate _ short
    rw [if_pos isEaten] at ate
    rcases ate with ⟨dots, rfl, isSpread⟩
    exact spelled dots isSpread (Nat.lt_of_succ_lt short)
  · refine (reads_fieldSelection reads).weaken ?_
    rintro tokens selection rest spelled before ate _ short
    rw [if_neg notEaten] at ate
    rcases ate with ⟨rfl, _⟩
    exact spelled short

end

/-- A bound on the depth that the tokens ahead cannot exceed cuts nothing off. -/
theorem reads_selectionSetWithin (depth : Nat) :
    Reads (selectionSetWithin depth) fun tokens selections rest =>
      tokens.length < depth → Spelled SpellsSelectionSet tokens selections rest := by
  induction depth with
  | zero =>
      refine .look looks_position fun start => .bind reads_takeSetId fun id => reads_spanned start ?_
      exact fun _ _ _ _ _ short => absurd short (Nat.not_lt_zero _)
  | succ depth ih =>
      refine .look looks_position fun start => .bind reads_takeSetId fun id => ?_
      refine .bind (reads_expect (by simp)) fun met => .ite (fun _ => ?_) fun isMissing => ?_
      · have items := (reads_selection ih).itemsThrough (fun _ _ spelled => spelled.ne_nil)
          (fun used rest short => by simp only [List.length_append] at short; omega) .closeBrace
        refine .bind items fun items => reads_spanned start ?_
        rintro rest span tokens spelled _ ⟨_, first, rfl, opens⟩ _ rfl _ short
        rcases spelled (Nat.lt_of_succ_lt_succ short) with ⟨used, last, rfl, each, closes⟩
        exact ⟨first :: (used ++ [last]), by simp, .mk (.mk opens each closes)⟩
      · refine reads_spanned start ?_
        rintro rest span tokens ⟨isMet, _⟩
        exact absurd isMet isMissing

theorem reads_selectionSet : Reads selectionSet (Spelled SpellsSelectionSet) := by
  refine .look looks_depthBound fun depth => (reads_selectionSetWithin depth).weaken ?_
  rintro tokens selections rest spelled rfl
  exact spelled (Nat.lt_succ_self _)

/-! ## Definitions -/

theorem reads_variableDefinition : Reads variableDefinition (Spelled SpellsVariable) := by
  refine .look looks_position fun start => .bind (reads_expectMark _) fun _ => ?_
  refine .bind reads_name fun name => .bind (reads_expectMark _) fun _ => ?_
  refine .bind reads_typeExpression fun type => .bind reads_defaultValue fun default? => ?_
  refine .bind reads_directives fun directives => reads_spanned start ?_
  rintro rest span _ ⟨directiveTokens, rfl, directed⟩ _ ⟨defaultTokens, rfl, defaulted⟩ _
    ⟨typeTokens, rfl, typed⟩ _ ⟨colon, rfl, isColon⟩ _ ⟨token, rfl, isName⟩ _
    ⟨dollar, rfl, isDollar⟩ _
  exact ⟨dollar :: token :: colon :: (typeTokens ++ defaultTokens ++ directiveTokens), by simp,
    .mk isDollar isName isColon typed defaulted directed⟩

/-- Without its opening token an optional list is not there. -/
theorem absent_of_headKind {opening closing : Punctuator} {spells : List Token → α → Prop}
    {used rest : List Token} {items : List α}
    (spelled : SpellsOptional opening closing spells used items)
    (other : Token.headKind (used ++ rest) ≠ .punctuator opening) : used = [] ∧ items = [] := by
  cases spelled with
  | absent => exact ⟨rfl, rfl⟩
  | present between =>
      rcases between with ⟨opens, _, _⟩
      exact absurd opens other

theorem undirected_of_headKind {used rest : List Token} {directives : List Directive}
    (spelled : SpellsDirectives used directives)
    (other : Token.headKind (used ++ rest) ≠ .punctuator .atSign) : used = [] ∧ directives = [] := by
  rcases spelled with ⟨each⟩
  cases each with
  | nil => exact ⟨rfl, rfl⟩
  | cons first _ =>
      rcases first with ⟨isAt, _, _⟩
      exact absurd isAt other

theorem reads_operationHead : Reads operationHead fun tokens head rest =>
    if Token.headKind tokens = .punctuator .openBrace then rest = tokens ∧ head = (.query, none)
    else ∀ kind, operationKind? (Token.headKind tokens) = some kind →
      ∃ word nameTokens, tokens = word :: (nameTokens ++ rest) ∧
        operationKind? word.kind = some kind ∧ head.1 = kind ∧
        SpellsOptionalName nameTokens head.2 := by
  refine .look (looks_isAt _) fun opens => .ite (fun isOpen => .pure ?_) fun notOpen => ?_
  · rintro tokens opens
    rw [isOpen] at opens
    rw [if_pos (eq_of_beq opens.symm)]
    exact ⟨rfl, rfl⟩
  · have consumed {tokens : List Token} {kind seen : OperationKind} {kindSeen : TokenKind}
        (isHead : kindSeen = Token.headKind tokens)
        (isKind : operationKind? (Token.headKind tokens) = some kind)
        (isSeen : seen = (operationKind? kindSeen).getD .query) :
        ∃ word, tokens = word :: tokens.tail ∧ operationKind? word.kind = some kind ∧
          seen = kind := by
      cases tokens with
      | nil => cases isKind
      | cons word others =>
          refine ⟨word, rfl, isKind, ?_⟩
          rw [isSeen, isHead, isKind]
          rfl
    have closed {tokens : List Token} (sees : opens = (Token.headKind tokens ==
        .punctuator .openBrace)) : Token.headKind tokens ≠ .punctuator .openBrace := by
      intro isOpen
      rw [isOpen] at sees
      exact notOpen sees
    refine .look looks_kind fun kindSeen => .bind reads_advance fun _ => .look looks_kind fun next =>
      .ite (fun _ => ?_) fun _ => ?_
    · refine .bind reads_name fun name => .pure ?_
      rintro rest _ ⟨token, rfl, isName⟩ _ tokens advanced isHead sees
      rw [if_neg (closed sees)]
      intro kind isKind
      rcases consumed isHead isKind rfl with ⟨word, same, isWord, isSame⟩
      exact ⟨word, [token], by rw [same, ← advanced]; rfl, isWord, isSame, .present isName⟩
    · refine .pure ?_
      rintro rest _ tokens advanced isHead sees
      rw [if_neg (closed sees)]
      intro kind isKind
      rcases consumed isHead isKind rfl with ⟨word, same, isWord, isSame⟩
      exact ⟨word, [], by rw [same, ← advanced]; rfl, isWord, isSame, .absent⟩

theorem reads_operation : Reads operation fun tokens definition rest =>
    Token.headKind tokens = .punctuator .openBrace ∨
        (∃ kind, operationKind? (Token.headKind tokens) = some kind) →
      Spelled SpellsOperation tokens definition rest := by
  refine .look looks_position fun start => .bind reads_operationHead fun head => ?_
  rcases head with ⟨kind, name⟩
  refine .bind (reads_variableDefinition.optionalItems (fun _ _ spelled => spelled.ne_nil) _ _)
    fun variableDefinitions => .bind reads_directives fun directives => ?_
  refine .bind reads_selectionSet fun selections => reads_spanned start ?_
  rintro rest span _ ⟨used, rfl, inner⟩ _ ⟨directiveTokens, rfl, directed⟩ _
    ⟨variableTokens, rfl, declared⟩ tokens headed _ opens
  split at headed
  · rename_i isOpen
    rcases headed with ⟨rfl, sameHead⟩
    simp only [Prod.mk.injEq] at sameHead
    rcases sameHead with ⟨rfl, rfl⟩
    rcases absent_of_headKind declared (by rw [isOpen]; simp) with ⟨rfl, rfl⟩
    rw [List.nil_append] at isOpen
    rcases undirected_of_headKind directed (by rw [isOpen]; simp) with ⟨rfl, rfl⟩
    exact ⟨used, rfl, .shorthand inner⟩
  · rename_i notOpen
    rcases opens.resolve_left notOpen with ⟨kind, isKind⟩
    rcases headed kind isKind with ⟨word, nameTokens, rfl, isWord, rfl, named⟩
    exact ⟨word :: (nameTokens ++ variableTokens ++ directiveTokens ++ used), by simp,
      .full isWord named declared directed inner⟩

theorem reads_fragment : Reads fragment fun tokens definition rest =>
    Token.headKind tokens = .keyword .fragment →
      Spelled SpellsFragment tokens definition rest := by
  refine .look looks_position fun start => .bind reads_advance fun _ => .bind reads_name fun name => ?_
  refine .bind (reads_expect (by simp)) fun _ => .bind reads_name fun typeCondition => ?_
  refine .bind reads_directives fun directives => .bind reads_selectionSet fun selections =>
    reads_spanned start ?_
  rintro rest span _ ⟨used, rfl, inner⟩ _ ⟨directiveTokens, rfl, directed⟩ _
    ⟨condition, rfl, isCondition⟩ _ ⟨_, preposition, rfl, isOn⟩ _ ⟨token, rfl, isName⟩ tokens advanced _
    opens
  rcases Token.exists_cons_of_headKind opens (by simp) with ⟨word, others, rfl, opens⟩
  simp only [List.tail_cons] at advanced
  subst advanced
  exact ⟨word :: token :: preposition :: condition :: (directiveTokens ++ used), by simp,
    .mk opens isName isOn isCondition directed inner⟩

theorem reads_description? : Reads description? fun tokens _ rest =>
    rest = tokens ∨ ∃ token, tokens = token :: rest ∧
      (token.kind = .string ∨ token.kind = .blockString) := by
  refine .look looks_currentSpan fun span => .look looks_kind fun kind => .ite (fun isString => ?_)
    fun _ => .pure fun _ _ _ => .inl rfl
  refine .bind reads_currentText fun text => .bind reads_advance fun _ => .pure ?_
  rintro _ tokens rfl _ ⟨rfl, _⟩ isHead _
  right
  simp only [Bool.or_eq_true, beq_iff_eq] at isString
  cases tokens with
  | nil => rcases isString with isString | isString <;> rw [isString] at isHead <;> cases isHead
  | cons token rest => exact ⟨token, rfl, by rwa [isHead] at isString⟩

theorem reads_definitionAfter (description : Option Description) :
    Reads (definitionAfter description) fun tokens result rest =>
      ∃ definition, result = some definition ∧ (definition.isExecutable = true →
        Spelled SpellsExecutable tokens definition rest) := by
  have typeSystem {γ : Type} {parser : Parser γ} {definition : γ → Definition}
      (keeps : Keeps GoesOn parser) (other : ∀ value, (definition value).isExecutable = false) :
      Reads (do return some (definition (← parser))) fun tokens result rest =>
        ∃ definition, result = some definition ∧ (definition.isExecutable = true →
          Spelled SpellsExecutable tokens definition rest) := by
    refine .bind (.of_keeps keeps) fun value => .pure fun _ _ _ => ⟨_, rfl, fun executable => ?_⟩
    rw [other] at executable
    cases executable
  have ofOperation {kind : TokenKind}
      (opens : kind = .punctuator .openBrace ∨ ∃ operation, operationKind? kind = some operation) :
      Reads (do return some (.operation (← operation))) fun tokens result rest =>
        kind = Token.headKind tokens → ∃ definition, result = some definition ∧
          (definition.isExecutable = true → Spelled SpellsExecutable tokens definition rest) := by
    refine .bind reads_operation fun definition => .pure ?_
    rintro rest tokens spelled rfl
    rcases spelled opens with ⟨used, rfl, isOperation⟩
    exact ⟨_, rfl, fun _ => ⟨used, rfl, .operation isOperation⟩⟩
  have nothing (title : String) : Reads (do reportCurrent title; return none) fun tokens result rest =>
      ∃ definition, result = some definition ∧ (definition.isExecutable = true →
        Spelled SpellsExecutable tokens definition rest) :=
    .after_error (reads_reportCurrent title) (.pure fun _ => trivial)
  refine .look looks_kind fun kind => ?_
  split
  · exact (typeSystem keeps_schemaDefinition fun _ => rfl).weaken fun _ _ _ holds _ => holds
  · exact (typeSystem (keeps_directiveDefinition _) fun _ => rfl).weaken fun _ _ _ holds _ => holds
  · refine .bind reads_fragment fun definition => .pure ?_
    rintro rest tokens spelled isHead
    rcases spelled isHead.symm with ⟨used, rfl, isFragment⟩
    exact ⟨_, rfl, fun _ => ⟨used, rfl, .fragment isFragment⟩⟩
  · exact ofOperation (.inr ⟨_, rfl⟩)
  · exact ofOperation (.inr ⟨_, rfl⟩)
  · exact ofOperation (.inr ⟨_, rfl⟩)
  · exact ofOperation (.inl rfl)
  · exact (typeSystem (keeps_typeDefinition _ _) fun _ => rfl).weaken fun _ _ _ holds _ => holds
  · exact (typeSystem (keeps_typeDefinition _ _) fun _ => rfl).weaken fun _ _ _ holds _ => holds
  · exact (typeSystem (keeps_typeDefinition _ _) fun _ => rfl).weaken fun _ _ _ holds _ => holds
  · exact (typeSystem (keeps_typeDefinition _ _) fun _ => rfl).weaken fun _ _ _ holds _ => holds
  · exact (typeSystem (keeps_typeDefinition _ _) fun _ => rfl).weaken fun _ _ _ holds _ => holds
  · exact (typeSystem (keeps_typeDefinition _ _) fun _ => rfl).weaken fun _ _ _ holds _ => holds
  · exact (nothing _).weaken fun _ _ _ holds _ => holds
  · exact (nothing _).weaken fun _ _ _ holds _ => holds

theorem reads_definition? : Reads definition? fun tokens result rest =>
    ∃ definition, result = some definition ∧ (definition.isExecutable = true →
      Spelled SpellsDefinition tokens definition rest) := by
  refine .bind reads_description? fun description => (reads_definitionAfter description).weaken ?_
  rintro tokens result rest ⟨definition, rfl, spelled⟩ before described
  refine ⟨definition, rfl, fun executable => ?_⟩
  rcases spelled executable with ⟨used, rfl, spells⟩
  rcases described with rfl | ⟨token, rfl, isString⟩
  · exact ⟨used, rfl, .bare spells⟩
  · exact ⟨token :: used, rfl, .described isString spells⟩

/-- A bound that the tokens ahead cannot exceed leaves none of them. -/
theorem reads_definitionsWithin (fuel : Nat) :
    Reads (definitionsWithin fuel) fun tokens definitions rest => tokens.length < fuel →
      (∀ definition ∈ definitions, definition.isExecutable = true) →
        rest = [] ∧ SpellsEach SpellsDefinition tokens definitions := by
  induction fuel with
  | zero => exact .pure fun _ short => absurd short (Nat.not_lt_zero _)
  | succ fuel ih =>
      refine .look looks_isAtEnd fun isEnd => .ite (fun isAtEnd => .pure ?_) fun _ => ?_
      · rintro tokens sees _ _
        cases sees.mp isAtEnd
        exact ⟨rfl, .nil⟩
      · have progresses := reads_definition?.progressing (by
          rintro tokens result rest ⟨definition, rfl, spelled⟩ same
          refine ⟨definition, rfl, fun executable => ?_⟩
          exact absurd same ((spelled executable).not_stuck fun _ _ spelled => spelled.ne_nil))
        refine .bind progresses fun first => .bind ih fun others => .pure ?_
        rintro rest middle holds tokens ⟨definition, rfl, spelled⟩ _ short executable
        rcases spelled (executable definition (by simp)) with ⟨used, rfl, spells⟩
        have positive := List.length_pos_iff.mpr spells.ne_nil
        rw [List.length_append] at short
        rcases holds (by omega) fun other member => executable other (by simp [member]) with
          ⟨rfl, each⟩
        exact ⟨rfl, .cons spells each⟩

theorem reads_document : Reads document fun tokens document _ =>
    (∀ definition ∈ document.definitions, definition.isExecutable = true) →
      SpellsDocument tokens document := by
  refine .look looks_position fun start => .look looks_depthBound fun fuel => ?_
  refine .bind (reads_definitionsWithin fuel) fun definitions => reads_spanned start ?_
  rintro rest span tokens holds rfl _ executable
  rcases holds (Nat.lt_succ_self _) executable with ⟨_, each⟩
  exact .mk each

end Parser

end GraphQL
