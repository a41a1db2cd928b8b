import GraphQL.Proofs.Parsing.Grammar
import GraphQL.Proofs.Parsing.Keeping

/-!
# What a parser reads

A run that reports nothing has read what the grammar derives. A run can report something in the
middle and go on, but what is reported stays, so the end tells whether all of it was quiet. Only then
is it known which tokens were consumed and what they spell.

The postcondition of a parser relates the tokens ahead of a quiet run to its result and to the tokens
that remain. In a sequence the postcondition of a step becomes a hypothesis for what follows it.
-/

namespace GraphQL

open Grammar

namespace Parser

variable {α β : Type}

/-- What a run reports are errors, and a run that reports nothing satisfies the postcondition. -/
def Reads (parser : Parser α) (post : List Token → α → List Token → Prop) : Prop :=
  ∀ state result after, parser state = .ok (result, after) →
    ∃ found, after.diagnostics = state.diagnostics ++ found ∧
      (∀ diagnostic ∈ found, diagnostic.isError = true) ∧
      (found = [] → ∀ tokens, state.IsAt tokens →
        ∃ rest, after.IsAt rest ∧ post tokens result rest)

/-- The first tokens are consumed and spell the result. -/
def Spelled (spells : List Token → α → Prop) (tokens : List Token) (result : α)
    (rest : List Token) : Prop :=
  ∃ used, tokens = used ++ rest ∧ spells used result

namespace Reads

variable {parser : Parser α} {next : α → Parser β} {post : List Token → α → List Token → Prop}
  {goal : List Token → β → List Token → Prop}

theorem weaken {other : List Token → α → List Token → Prop} (reads : Reads parser post)
    (implies : ∀ tokens result rest, post tokens result rest → other tokens result rest) :
    Reads parser other := by
  intro state result after run
  rcases reads state result after run with ⟨found, reported, errors, quiet⟩
  refine ⟨found, reported, errors, fun nothing tokens isAt => ?_⟩
  rcases quiet nothing tokens isAt with ⟨rest, isAtRest, holds⟩
  exact ⟨rest, isAtRest, implies _ _ _ holds⟩

theorem pure {value : α} (holds : ∀ tokens, post tokens value tokens) :
    Reads (Pure.pure value) post := by
  intro state result after run
  cases run
  exact ⟨[], (List.append_nil _).symm, by simp, fun _ tokens isAt => ⟨tokens, isAt, holds tokens⟩⟩

theorem bind (reads : Reads parser post)
    (follows : ∀ value, Reads (next value)
      fun tokens result rest => ∀ before, post before value tokens → goal before result rest) :
    Reads (parser >>= next) goal := by
  intro state result after run
  rcases exists_of_bind run with ⟨value, between, begun, continued⟩
  rcases reads state value between begun with ⟨found, reported, errors, quiet⟩
  rcases follows value between result after continued with
    ⟨others, othersReported, othersErrors, othersQuiet⟩
  refine ⟨found ++ others, by rw [othersReported, reported, List.append_assoc], ?_, ?_⟩
  · intro diagnostic member
    exact (List.mem_append.mp member).elim (errors diagnostic) (othersErrors diagnostic)
  · intro nothing tokens isAt
    rcases List.append_eq_nil_iff.mp nothing with ⟨nothingFirst, nothingAfter⟩
    rcases quiet nothingFirst tokens isAt with ⟨middle, isAtMiddle, holds⟩
    rcases othersQuiet nothingAfter middle isAtMiddle with ⟨rest, isAtRest, follows⟩
    exact ⟨rest, isAtRest, follows tokens holds⟩

theorem pure_bind {value : α} (reads : Reads (next value) goal) :
    Reads (Pure.pure value >>= next) goal :=
  reads

/-- A step that only looks ahead. -/
theorem look {sees : List Token → α → Prop} (looks : Looks parser sees)
    (follows : ∀ value, Reads (next value)
      fun tokens result rest => sees tokens value → goal tokens result rest) :
    Reads (parser >>= next) goal := by
  have reads : Reads parser fun tokens value rest => rest = tokens ∧ sees tokens value := by
    intro state result after run
    rcases looks state with ⟨seen, ran, sees⟩
    rw [ran] at run
    cases run
    exact ⟨[], (List.append_nil _).symm, by simp,
      fun _ tokens isAt => ⟨tokens, isAt, rfl, sees tokens isAt⟩⟩
  refine reads.bind fun value => (follows value).weaken ?_
  rintro tokens result rest holds before ⟨rfl, sees⟩
  exact holds sees

theorem ite {condition : Prop} [Decidable condition] {other : Parser α}
    (reads : condition → Reads parser post) (otherReads : ¬condition → Reads other post) :
    Reads (if condition then parser else other) post := by
  split
  · exact reads ‹_›
  · exact otherReads ‹_›

/-- A step that changes neither the tokens ahead nor what has been reported. -/
theorem modify {change : ParserState → ParserState}
    (current : ∀ state, (change state).current = state.current)
    (upcoming : ∀ state, (change state).upcoming = state.upcoming)
    (diagnostics : ∀ state, (change state).diagnostics = state.diagnostics) :
    Reads (modify change : Parser PUnit) fun tokens _ rest => rest = tokens := by
  intro state result after run
  cases run
  exact ⟨[], by rw [List.append_nil]; exact diagnostics state, by simp,
    fun _ tokens isAt => ⟨tokens, isAt.congr (current state) (upcoming state), rfl⟩⟩

end Reads

/-- A run reports errors only, and a quiet run comes to tokens ahead again. -/
def GoesOn (state : ParserState) : Except SliceFault ParserState → Prop
  | .ok after => ∃ found, after.diagnostics = state.diagnostics ++ found ∧
      (∀ diagnostic ∈ found, diagnostic.isError = true) ∧
      (found = [] → ∀ tokens, state.IsAt tokens → ∃ rest, after.IsAt rest)
  | .error _ => True

instance : IsKept GoesOn where
  refl state := ⟨[], (List.append_nil _).symm, by simp, fun _ tokens isAt => ⟨tokens, isAt⟩⟩
  trans := by
    rintro state between (fault | after) ⟨found, reported, errors, quiet⟩ goesOn
    · trivial
    rcases goesOn with ⟨others, othersReported, othersErrors, othersQuiet⟩
    refine ⟨found ++ others, by rw [othersReported, reported, List.append_assoc], ?_, ?_⟩
    · intro diagnostic member
      exact (List.mem_append.mp member).elim (errors diagnostic) (othersErrors diagnostic)
    · intro nothing tokens isAt
      rcases List.append_eq_nil_iff.mp nothing with ⟨nothingFirst, nothingAfter⟩
      rcases quiet nothingFirst tokens isAt with ⟨middle, isAtMiddle⟩
      exact othersQuiet nothingAfter middle isAtMiddle
  advance state :=
    ⟨[], by simp, by simp, fun _ tokens isAt => ⟨tokens.tail, isAt.advanced⟩⟩
  report state diagnostic isError :=
    ⟨[diagnostic], rfl, by simpa using isError, fun nothing => by cases nothing⟩
  intern state name := ⟨[], by simp, by simp, fun _ tokens isAt => ⟨tokens, isAt.congr rfl rfl⟩⟩
  fault _ _ _ := trivial

theorem Reads.of_keeps {parser : Parser α} (keeps : Keeps GoesOn parser) :
    Reads parser fun _ _ _ => True := by
  intro state result after run
  rcases keeps.of_ok run with ⟨found, reported, errors, quiet⟩
  refine ⟨found, reported, errors, fun nothing tokens isAt => ?_⟩
  rcases quiet nothing tokens isAt with ⟨rest, isAtRest⟩
  exact ⟨rest, isAtRest, trivial⟩

/-! ## Steps -/

theorem reads_advance : Reads advance fun tokens _ rest => rest = tokens.tail := by
  intro state result after run
  cases run
  refine ⟨[], ?_, by simp, fun _ tokens isAt => ⟨_, isAt.advanced, rfl⟩⟩
  rw [List.append_nil]
  exact state.diagnostics_advanced

theorem reads_intern (name : String) : Reads (intern name) fun tokens _ rest => rest = tokens :=
  .modify (fun _ => rfl) (fun _ => rfl) fun _ => rfl

theorem reads_report {diagnostic : Diagnostic} (isError : diagnostic.isError = true)
    {post : List Token → PUnit → List Token → Prop} : Reads (report diagnostic) post := by
  intro state result after run
  cases run
  exact ⟨[diagnostic], rfl, by simpa using isError, fun nothing => by cases nothing⟩

theorem reads_reportCurrent (title : String) {post : List Token → PUnit → List Token → Prop} :
    Reads (reportCurrent title) post :=
  .look looks_get fun _ => reads_report rfl

theorem reads_reportExpected (expected : TokenKind) {post : List Token → PUnit → List Token → Prop} :
    Reads (reportExpected expected) post :=
  .look looks_get fun _ => reads_report rfl

/-- After an error has been reported anything may follow. -/
theorem Reads.after_error {report : Parser PUnit} {parser : Parser α}
    (reports : Reads report fun _ _ _ => False) (runs : Reads parser fun _ _ _ => True)
    {post : List Token → α → List Token → Prop} : Reads (do report; parser) post :=
  .bind reports fun _ => runs.weaken fun _ _ _ _ _ never => never.elim

theorem reads_currentText : Reads currentText fun tokens text rest => rest = tokens ∧
    ∀ token tail, tokens = token :: tail → token.text? = some text := by
  refine .look looks_get fun state => ?_
  cases found : state.current.text? with
  | none =>
      intro _ _ _ run
      cases run
  | some text =>
      refine .pure fun tokens isAt => ⟨rfl, ?_⟩
      rintro token tail rfl
      rwa [isAt.current_eq] at found

theorem reads_eat {expected : TokenKind} (inside : expected ≠ .endOfInput) :
    Reads (eat expected) fun tokens eaten rest =>
      if eaten then ∃ token, tokens = token :: rest ∧ token.kind = expected
      else rest = tokens ∧ Token.headKind tokens ≠ expected := by
  refine .look (looks_isAt expected) fun seen => .ite (fun isSeen => ?_) fun notSeen => ?_
  · refine .bind reads_advance fun _ => .pure ?_
    rintro _ tokens rfl isHere
    rw [isSeen] at isHere
    have isHead := eq_of_beq isHere.symm
    cases tokens with
    | nil => exact absurd isHead.symm inside
    | cons token rest => exact ⟨token, rfl, isHead⟩
  · refine .pure fun tokens isHere => ⟨rfl, fun isHead => notSeen ?_⟩
    rw [isHere, isHead]
    exact beq_self_eq_true _

theorem reads_eatMark (mark : Punctuator) :
    Reads (eatMark mark) fun tokens eaten rest =>
      if eaten then ∃ token, tokens = token :: rest ∧ IsMark mark token
      else rest = tokens ∧ Token.headKind tokens ≠ .punctuator mark :=
  reads_eat (by simp)

theorem reads_expect {expected : TokenKind} (inside : expected ≠ .endOfInput) :
    Reads (expect expected) fun tokens met rest =>
      met = true ∧ ∃ token, tokens = token :: rest ∧ token.kind = expected := by
  refine .bind (reads_eat inside) fun eaten => .ite (fun isEaten => .pure ?_) fun _ => ?_
  · rintro rest tokens ate
    rw [if_pos isEaten] at ate
    exact ⟨rfl, ate⟩
  · exact .after_error (reads_reportExpected expected) (.pure fun _ => trivial)

theorem reads_expectMark (mark : Punctuator) :
    Reads (expectMark mark) fun tokens _ rest =>
      ∃ token, tokens = token :: rest ∧ IsMark mark token :=
  .bind (reads_expect (by simp)) fun _ => .pure fun _ _ met => met.2

theorem reads_name : Reads name fun tokens name rest =>
    ∃ token, tokens = token :: rest ∧ IsName token name := by
  refine .look looks_get fun state => .ite (fun isName => ?_) fun _ => ?_
  · refine .bind reads_currentText fun text => .bind (reads_intern text) fun _ => ?_
    refine .bind reads_advance fun _ => .pure ?_
    rintro _ tokens rfl _ rfl _ ⟨rfl, reads⟩ isAt
    have inside : state.current.kind ≠ .endOfInput := by
      intro isEnd
      rw [isEnd] at isName
      cases isName
    rcases isAt.exists_cons inside with ⟨rest, rfl⟩
    exact ⟨state.current, rfl, isName, reads _ _ rfl⟩
  · have missing : Reads (do intern ""; return Name.mk "" state.current.span)
        fun _ _ _ => True := .bind (reads_intern "") fun _ => .pure fun _ _ _ => trivial
    refine .after_error (reads_reportCurrent _) (.ite (fun _ => ?_) fun _ => missing)
    exact .bind reads_currentText fun _ => missing.weaken fun _ _ _ _ _ _ => trivial

/-! ## Lists -/

section Lists

variable {item : Parser α} {good : List Token → Prop} {spells : List Token → α → Prop}

/-- A token is skipped only where an item has consumed none. -/
theorem Reads.progressing {post : List Token → α → List Token → Prop} (reads : Reads item post)
    (stuck : ∀ tokens result rest, post tokens result rest → rest.length = tokens.length →
      post tokens result rest.tail) : Reads (progressing item) post := by
  refine .look looks_get fun before => .bind reads fun result => .look looks_get fun after => ?_
  refine .ite (fun isStuck => ?_) fun _ => .pure fun _ _ _ holds _ => holds
  refine .bind reads_advance fun _ => .pure ?_
  rintro _ middle rfl isAtMiddle tokens holds isAtTokens
  have same := of_decide_eq_true (Bool.and_eq_true_iff.mp isStuck).1
  rw [isAtMiddle.length_upcoming, isAtTokens.length_upcoming] at same
  exact stuck tokens result middle holds same

/-- What spells something is not stuck. -/
theorem Spelled.not_stuck (nonempty : ∀ used result, spells used result → used ≠ [])
    {tokens rest : List Token} {result : α} (spelled : Spelled spells tokens result rest) :
    rest.length ≠ tokens.length := by
  rcases spelled with ⟨used, rfl, holds⟩
  have positive := List.length_pos_iff.mpr (nonempty used result holds)
  rw [List.length_append]
  omega

theorem Reads.itemsWithin
    (reads : Reads item fun tokens result rest => good tokens → Spelled spells tokens result rest)
    (nonempty : ∀ used result, spells used result → used ≠ [])
    (suffix : ∀ used rest, good (used ++ rest) → good rest) (closing : Punctuator) (fuel : Nat) :
    Reads (itemsWithin closing item fuel) fun tokens items rest =>
      good tokens → Spelled (SpellsEach spells) tokens items rest := by
  have none : Reads (Pure.pure [] : Parser (List α)) fun tokens items rest =>
      good tokens → Spelled (SpellsEach spells) tokens items rest :=
    .pure fun tokens _ => ⟨[], rfl, .nil⟩
  induction fuel with
  | zero => exact none
  | succ fuel ih =>
      refine .look (looks_isAtEndOf closing) fun _ => .ite (fun _ => ?_) fun _ => ?_
      · exact none.weaken fun _ _ _ holds _ => holds
      · have progresses := reads.progressing fun _ _ _ holds same isGood =>
          absurd same ((holds isGood).not_stuck nonempty)
        refine .bind progresses fun first => .bind ih fun others => .pure ?_
        intro rest middle othersSpelled tokens firstSpelled _ isGood
        rcases firstSpelled isGood with ⟨used, rfl, first⟩
        rcases othersSpelled (suffix _ _ isGood) with ⟨more, rfl, each⟩
        exact ⟨used ++ more, by rw [List.append_assoc], .cons first each⟩

theorem Reads.itemsThrough
    (reads : Reads item fun tokens result rest => good tokens → Spelled spells tokens result rest)
    (nonempty : ∀ used result, spells used result → used ≠ [])
    (suffix : ∀ used rest, good (used ++ rest) → good rest) (closing : Punctuator) :
    Reads (itemsThrough closing item) fun tokens items rest => good tokens →
      ∃ used last, tokens = used ++ last :: rest ∧ SpellsEach spells used items ∧
        IsMark closing last := by
  have untilClosing : Reads (itemsUntil closing item) fun tokens items rest =>
      good tokens → Spelled (SpellsEach spells) tokens items rest :=
    .look looks_get fun _ =>
      (reads.itemsWithin nonempty suffix closing _).weaken fun _ _ _ holds _ => holds
  refine .bind untilClosing fun items => .bind (reads_expectMark closing) fun _ => .pure ?_
  rintro rest _ ⟨last, rfl, closes⟩ tokens spelled isGood
  rcases spelled isGood with ⟨used, rfl, each⟩
  exact ⟨used, last, rfl, each, closes⟩

section

variable (reads : Reads item (Spelled spells))
  (nonempty : ∀ used result, spells used result → used ≠ [])

include reads nonempty

/-- Items between two tokens, once the first is consumed. -/
theorem Reads.itemsAfter (closing : Punctuator) :
    Reads (Parser.itemsThrough closing item) fun tokens items rest =>
      ∃ used last, tokens = used ++ last :: rest ∧ SpellsEach spells used items ∧
        IsMark closing last := by
  have always : Reads item fun tokens result rest => True → Spelled spells tokens result rest :=
    reads.weaken fun _ _ _ spelled _ => spelled
  exact (always.itemsThrough nonempty (fun _ _ _ => trivial) closing).weaken
    fun _ _ _ holds => holds trivial

theorem Reads.optionalItems (opening closing : Punctuator) :
    Reads (Parser.optionalItems opening closing item)
      (Spelled (SpellsOptional opening closing spells)) := by
  refine .bind (reads_eatMark opening) fun eaten => .ite (fun isEaten => ?_) fun notEaten => ?_
  · refine (reads.itemsAfter nonempty closing).weaken ?_
    rintro _ items rest ⟨used, last, rfl, each, closes⟩ tokens ate
    rw [if_pos isEaten] at ate
    rcases ate with ⟨first, rfl, opens⟩
    exact ⟨first :: (used ++ [last]), by simp, .present (.mk opens each closes)⟩
  · refine .pure ?_
    rintro rest tokens ate
    rw [if_neg notEaten] at ate
    exact ⟨[], ate.1.symm, .absent⟩

end

/-- Items that each start with the same token. -/
theorem Reads.repeatedItems {leading : Punctuator}
    (reads : Reads item fun tokens result rest =>
      Token.headKind tokens = .punctuator leading → Spelled spells tokens result rest) :
    Reads (repeatedItems leading item) (Spelled (SpellsEach spells)) := by
  have within (fuel : Nat) :
      Reads (leadItems leading item fuel) (Spelled (SpellsEach spells)) := by
    induction fuel with
    | zero => exact .pure fun tokens => ⟨[], rfl, .nil⟩
    | succ fuel ih =>
        refine .look (looks_isAt _) fun seen => .ite (fun isSeen => ?_) fun _ => ?_
        · refine .bind reads fun first => .bind ih fun others => .pure ?_
          rintro rest _ ⟨more, rfl, each⟩ tokens firstSpelled sees
          rw [isSeen] at sees
          rcases firstSpelled (eq_of_beq sees.symm) with ⟨used, rfl, first⟩
          exact ⟨used ++ more, by rw [List.append_assoc], .cons first each⟩
        · exact .pure fun tokens _ => ⟨[], rfl, .nil⟩
  exact .look looks_get fun _ => (within _).weaken fun _ _ _ spelled _ => spelled

end Lists

end Parser

end GraphQL
