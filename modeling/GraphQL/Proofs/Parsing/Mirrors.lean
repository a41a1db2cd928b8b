import GraphQL.Proofs.Parsing.Advancing
import GraphQL.Proofs.Parsing.Unbounded

/-!
# Runs without bounds

A run of the parser without bounds mirrors a run of the parser that reads documents if it ends with
the same result in the same state and its deeds account for the tokens: what has been consumed, in
order, is what is no longer ahead, no loop and no nesting goes on without a token, and no token is
skipped without an error. This passes on from the steps of parsers to sequences and to loops. In a
loop each turn leaves fewer tokens ahead, which is why the loop ends and why the bound is never met.
-/

namespace GraphQL

/-- The tokens ahead, which start one after the other. -/
structure ParserState.IsOrderedAt (state : ParserState) (tokens : List Token) : Prop
    extends state.IsAt tokens where
  inOrder : Token.AreInOrder (state.current :: state.upcoming)

namespace ParserState.IsOrderedAt

variable {state other : ParserState} {tokens : List Token}

theorem advanced (isAt : state.IsOrderedAt tokens) : state.advanced.IsOrderedAt tokens.tail := by
  refine ⟨isAt.toIsAt.advanced, ?_⟩
  have inOrder := isAt.inOrder
  rcases state with ⟨current, _ | ⟨next, others⟩, previousEnd, nextSetId, interner, diagnostics⟩
  · exact inOrder
  · exact (List.pairwise_cons.mp inOrder).2

theorem congr (isAt : state.IsOrderedAt tokens) (current : other.current = state.current)
    (upcoming : other.upcoming = state.upcoming) : other.IsOrderedAt tokens :=
  ⟨isAt.toIsAt.congr current upcoming, by rw [current, upcoming]; exact isAt.inOrder⟩

end ParserState.IsOrderedAt

namespace Parser

open Unbounded (Deed FreeRun Ledger note)

variable {α β : Type}

/-- The deeds account for what has changed between two states, where the tokens that remain are
ahead. -/
structure Accounts (state : ParserState) (deeds : List Deed) (after : ParserState)
    (rest : List Token) : Prop where
  isAt : after.IsOrderedAt rest
  /-- What has been consumed, in order, is what is no longer ahead. -/
  consumed : state.current :: state.upcoming =
    deeds.filterMap Deed.token? ++ after.current :: after.upcoming
  progresses : ∀ deed ∈ deeds, deed.Progresses
  /-- No error is forgotten. -/
  reports : Diagnostic.anyError state.diagnostics = true →
    Diagnostic.anyError after.diagnostics = true
  discards : ∀ token, Deed.discard token ∈ deeds → Diagnostic.anyError after.diagnostics = true

namespace Accounts

variable {state between after : ParserState} {tokens middle rest : List Token}
  {deeds others : List Deed}

/-- Where no token is consumed, nothing is done. -/
theorem nothing (isAt : state.IsOrderedAt tokens) (current : after.current = state.current)
    (upcoming : after.upcoming = state.upcoming)
    (reports : Diagnostic.anyError state.diagnostics = true →
      Diagnostic.anyError after.diagnostics = true) :
    Accounts state [] after tokens := by
  constructor
  · exact isAt.congr current upcoming
  · rw [current, upcoming]
    rfl
  · simp
  · exact reports
  · simp

theorem length_le (accounts : Accounts state deeds after rest) (isAt : state.IsAt tokens) :
    rest.length ≤ tokens.length := by
  have lengths := congrArg List.length accounts.consumed
  simp only [List.length_append, List.length_cons, isAt.length_upcoming,
    accounts.isAt.length_upcoming] at lengths
  omega

theorem append (first : Accounts state deeds between middle)
    (second : Accounts between others after rest) :
    Accounts state (deeds ++ others) after rest := by
  constructor
  · exact second.isAt
  · rw [first.consumed, second.consumed, List.filterMap_append, List.append_assoc]
  · intro deed member
    exact (List.mem_append.mp member).elim (first.progresses deed) (second.progresses deed)
  · exact fun reported => second.reports (first.reports reported)
  · intro token member
    rcases List.mem_append.mp member with member | member
    · exact second.reports (first.discards token member)
    · exact second.discards token member

theorem note (isAt : state.IsOrderedAt tokens) {deed : Deed} (noToken : deed.token? = none)
    (progresses : deed.Progresses) : Accounts state [deed] state tokens := by
  constructor
  · exact isAt
  · simp [noToken]
  · simpa using progresses
  · exact id
  · rintro token member
    rw [← List.mem_singleton.mp member] at noToken
    cases noToken

theorem advance {token : Token} (isAt : state.IsOrderedAt (token :: rest)) {deed : Deed}
    (takes : deed = .consume token ∨
      deed = .discard token ∧ Diagnostic.anyError state.diagnostics = true) :
    Accounts state [deed] state.advanced rest := by
  have ahead : state.current :: state.upcoming =
      token :: state.advanced.current :: state.advanced.upcoming := by
    rcases isAt.ends with ⟨last, same, -⟩
    rcases state with ⟨current, _ | ⟨next, others⟩, previousEnd, nextSetId, interner, diagnostics⟩
    · simp at same
    · rw [show current = token from isAt.current_eq]
      rfl
  constructor
  · exact isAt.advanced
  · rw [ahead]
    rcases takes with rfl | ⟨rfl, -⟩ <;> rfl
  · rcases takes with rfl | ⟨rfl, -⟩ <;> simp [Deed.Progresses]
  · rw [ParserState.diagnostics_advanced]
    exact id
  · rw [ParserState.diagnostics_advanced]
    rcases takes with rfl | ⟨rfl, reported⟩
    · simp
    · exact fun _ _ => reported

end Accounts

/-- A run without bounds does what the parser does, wherever the precondition holds of the tokens
ahead, and its deeds account for what changes. Calls need not go deeper than there are tokens. The
postcondition relates the result to the tokens that remain. -/
def Mirrors (pre : List Token → Prop) (run : FreeRun α) (parser : Parser α)
    (post : α → List Token → Prop) : Prop :=
  ∀ limit state tokens deeds, tokens.length < limit → state.IsOrderedAt tokens → pre tokens →
    match parser state with
    | .ok (value, after) => ∃ further rest,
        run.outcome? limit ⟨state, deeds⟩ = some (.ok (value, ⟨after, deeds ++ further⟩)) ∧
        Accounts state further after rest ∧ post value rest
    | .error fault => run.outcome? limit ⟨state, deeds⟩ = some (.error fault)

theorem outcome?_bind (run : FreeRun α) (next : α → FreeRun β) (limit : Nat) (ledger : Ledger) :
    (run >>= next).outcome? limit ledger = match run.outcome? limit ledger with
      | some (.ok (value, between)) => (next value).outcome? limit between
      | some (.error fault) => some (.error fault)
      | none => none := by
  simp only [FreeRun.outcome?, bind, ReaderT.bind, StateT.bind, ExceptT.bind, ExceptT.mk,
    Option.bind]
  cases run limit ledger with
  | none => rfl
  | some result => cases result <;> rfl

theorem outcome?_lift (parser : Parser α) (limit : Nat) (ledger : Ledger) :
    FreeRun.outcome? (liftM parser) limit ledger = match parser ledger.state with
      | .ok (value, after) => some (.ok (value, ⟨after, ledger.deeds⟩))
      | .error fault => some (.error fault) :=
  rfl

theorem bind_eq_ok {parser : Parser α} {next : α → Parser β} {state between : ParserState}
    {value : α} (run : parser state = .ok (value, between)) :
    (parser >>= next) state = next value between := by
  simp only [bind, StateT.bind, run, Except.bind]

theorem bind_eq_error {parser : Parser α} {next : α → Parser β} {state : ParserState}
    {fault : SliceFault} (run : parser state = .error fault) :
    (parser >>= next) state = .error fault := by
  simp only [bind, StateT.bind, run, Except.bind]

namespace Mirrors

variable {pre other : List Token → Prop} {run : FreeRun α} {parser : Parser α}
  {nextRun : α → FreeRun β} {next : α → Parser β} {middle : α → List Token → Prop}
  {post : β → List Token → Prop}

/-- A run leaves no more tokens ahead than there were. -/
theorem consequence {post otherPost : α → List Token → Prop} (mirrors : Mirrors pre run parser post)
    (implies : ∀ tokens, other tokens → pre tokens)
    (follows : ∀ tokens value rest, other tokens → rest.length ≤ tokens.length → post value rest →
      otherPost value rest) : Mirrors other run parser otherPost := by
  intro limit state tokens deeds deep isAt holds
  have mirrored := mirrors limit state tokens deeds deep isAt (implies tokens holds)
  cases ran : parser state with
  | error fault =>
      rw [ran] at mirrored
      exact mirrored
  | ok step =>
      rcases step with ⟨value, after⟩
      rw [ran] at mirrored
      rcases mirrored with ⟨further, rest, outcome, accounts, holdsAfter⟩
      have shorter := accounts.length_le isAt.toIsAt
      exact ⟨further, rest, outcome, accounts, follows tokens value rest holds shorter holdsAfter⟩

theorem weaken {post : α → List Token → Prop} (mirrors : Mirrors pre run parser post)
    (implies : ∀ tokens, other tokens → pre tokens) : Mirrors other run parser post :=
  mirrors.consequence implies fun _ _ _ _ _ holds => holds

theorem imp {post otherPost : α → List Token → Prop} (mirrors : Mirrors pre run parser post)
    (implies : ∀ value tokens, post value tokens → otherPost value tokens) :
    Mirrors pre run parser otherPost :=
  mirrors.consequence (fun _ holds => holds) fun _ value rest _ _ => implies value rest

theorem pure {value : α} {post : α → List Token → Prop}
    (holds : ∀ tokens, pre tokens → post value tokens) :
    Mirrors pre (Pure.pure value) (Pure.pure value) post := by
  intro limit state tokens deeds deep isAt holdsHere
  exact ⟨[], tokens, by rw [List.append_nil]; rfl, .nothing isAt rfl rfl id, holds tokens holdsHere⟩

theorem bind (mirrors : Mirrors pre run parser middle)
    (continues : ∀ value, Mirrors (middle value) (nextRun value) (next value) post) :
    Mirrors pre (run >>= nextRun) (parser >>= next) post := by
  intro limit state tokens deeds deep isAt holds
  have first := mirrors limit state tokens deeds deep isAt holds
  rw [outcome?_bind]
  cases ran : parser state with
  | error fault =>
      rw [ran] at first
      rw [bind_eq_error ran]
      dsimp only at first ⊢
      rw [first]
  | ok step =>
      rcases step with ⟨value, between⟩
      rw [ran] at first
      rw [bind_eq_ok ran]
      rcases first with ⟨further, rest, outcome, accounts, holdsBetween⟩
      have shallow : rest.length < limit :=
        Nat.lt_of_le_of_lt (accounts.length_le isAt.toIsAt) deep
      have second := continues value limit between rest (deeds ++ further) shallow accounts.isAt
        holdsBetween
      rw [outcome]
      dsimp only
      cases ranOn : next value between with
      | error fault =>
          rw [ranOn] at second
          exact second
      | ok step =>
          rcases step with ⟨result, after⟩
          rw [ranOn] at second
          rcases second with ⟨others, remaining, outcomeAfter, accountsAfter, holdsAfter⟩
          refine ⟨further ++ others, remaining, ?_, accounts.append accountsAfter, holdsAfter⟩
          rw [outcomeAfter, List.append_assoc]

theorem ite {condition : Prop} [Decidable condition] {run otherRun : FreeRun α}
    {parser otherParser : Parser α} {post : α → List Token → Prop}
    (mirrors : condition → Mirrors pre run parser post)
    (otherMirrors : ¬condition → Mirrors pre otherRun otherParser post) :
    Mirrors pre (if condition then run else otherRun) (if condition then parser else otherParser)
      post := by
  split
  · exact mirrors ‹_›
  · exact otherMirrors ‹_›

end Mirrors

/-! ## Steps -/

/-- So many tokens are ahead at most. -/
def Within (most : Nat) (tokens : List Token) : Prop :=
  tokens.length ≤ most

theorem Within.mono {fewer most : Nat} (less : fewer ≤ most) {tokens : List Token}
    (within : Within fewer tokens) : Within most tokens :=
  Nat.le_trans within less

/-- Fewer tokens are ahead. -/
def Below (most : Nat) (tokens : List Token) : Prop :=
  tokens.length < most

/-- So many tokens are ahead at most, but not none. -/
def Inside (most : Nat) (tokens : List Token) : Prop :=
  tokens ≠ [] ∧ tokens.length ≤ most

/-- A token has been consumed, if the answer is that it has. -/
def Eaten (most : Nat) : Bool → List Token → Prop
  | true => Below most
  | false => Within most

theorem inside_of_headKind {most : Nat} {tokens : List Token} (within : Within most tokens)
    (inside : Token.headKind tokens ≠ .endOfInput) : Inside most tokens := by
  refine ⟨?_, within⟩
  rintro rfl
  exact inside rfl

theorem Eaten.within {most : Nat} {eaten : Bool} {tokens : List Token}
    (holds : Eaten most eaten tokens) : Within most tokens := by
  cases eaten with
  | true => exact Nat.le_of_lt holds
  | false => exact holds

section Steps

variable {pre : List Token → Prop} {most : Nat}

/-- The parser consumes nothing and forgets no error. -/
def IsQuiet (parser : Parser α) : Prop :=
  ∀ state value after, parser state = .ok (value, after) →
    after.current = state.current ∧ after.upcoming = state.upcoming ∧
      (Diagnostic.anyError state.diagnostics = true →
        Diagnostic.anyError after.diagnostics = true)

theorem mirrors_quiet {parser : Parser α} (quiet : IsQuiet parser) :
    Mirrors pre (liftM parser) parser fun _ => pre := by
  intro limit state tokens deeds deep isAt holds
  rw [outcome?_lift]
  dsimp only
  cases ran : parser state with
  | error fault => rfl
  | ok step =>
      rcases step with ⟨value, after⟩
      rcases quiet state value after ran with ⟨current, upcoming, reports⟩
      exact ⟨[], tokens, by rw [List.append_nil], .nothing isAt current upcoming reports, holds⟩

theorem isQuiet_looks {parser : Parser α} {sees : List Token → α → Prop}
    (looks : Looks parser sees) : IsQuiet parser := by
  intro state value after ran
  rcases looks state with ⟨result, looked, -⟩
  cases looked.symm.trans ran
  exact ⟨rfl, rfl, id⟩

theorem Mirrors.look {parser : Parser α} {sees : List Token → α → Prop} {nextRun : α → FreeRun β}
    {next : α → Parser β} {post : β → List Token → Prop} (looks : Looks parser sees)
    (continues : ∀ value, Mirrors (fun tokens => pre tokens ∧ sees tokens value) (nextRun value)
      (next value) post) : Mirrors pre (liftM parser >>= nextRun) (parser >>= next) post := by
  have mirrors : Mirrors pre (liftM parser) parser fun value tokens =>
      pre tokens ∧ sees tokens value := by
    intro limit state tokens deeds deep isAt holds
    rcases looks state with ⟨value, looked, seen⟩
    rw [outcome?_lift]
    dsimp only
    rw [looked]
    exact ⟨[], tokens, by rw [List.append_nil], .nothing isAt rfl rfl id, holds,
      seen tokens isAt.toIsAt⟩
  exact mirrors.bind continues

/-- What has been seen does not matter for what follows. -/
theorem Mirrors.pass {parser : Parser α} {sees : List Token → α → Prop} {nextRun : α → FreeRun β}
    {next : α → Parser β} {post : β → List Token → Prop} (looks : Looks parser sees)
    (continues : ∀ value, Mirrors pre (nextRun value) (next value) post) :
    Mirrors pre (liftM parser >>= nextRun) (parser >>= next) post :=
  .look looks fun value => (continues value).weaken fun _ holds => holds.1

/-- Something else holds of the tokens ahead however many there are, as long as there are fewer. -/
theorem Mirrors.below {run : FreeRun α} {parser : Parser α} {post : α → List Token → Prop}
    (mirrors : ∀ fewer < most, Mirrors (Within fewer) run parser post) :
    Mirrors (Below most) run parser post :=
  fun limit state tokens deeds deep isAt below =>
    mirrors tokens.length below limit state tokens deeds deep isAt (Nat.le_refl _)

theorem Mirrors.below_within {run : FreeRun α} {parser : Parser α}
    (mirrors : ∀ fewer < most, Mirrors (Within fewer) run parser fun _ => Within fewer) :
    Mirrors (Below most) run parser fun _ => Within most :=
  .below fun fewer less => (mirrors fewer less).imp fun _ _ => Within.mono (Nat.le_of_lt less)

theorem Mirrors.ite_eaten {eaten : Bool} {run otherRun : FreeRun α} {parser otherParser : Parser α}
    {post : α → List Token → Prop} (mirrors : Mirrors (Below most) run parser post)
    (otherMirrors : Mirrors (Within most) otherRun otherParser post) :
    Mirrors (Eaten most eaten) (if eaten = true then run else otherRun)
      (if eaten = true then parser else otherParser) post := by
  cases eaten with
  | true => exact mirrors
  | false => exact otherMirrors

theorem mirrors_advance : Mirrors (Inside most) Unbounded.advance advance fun _ => Below most := by
  intro limit state tokens deeds _ isAt inside
  obtain ⟨token, rest, rfl⟩ := List.exists_cons_of_ne_nil inside.1
  rw [advance_run]
  refine ⟨[.consume token], rest, ?_, .advance isAt (.inl rfl), inside.2⟩
  rw [← isAt.current_eq]
  rfl

theorem mirrors_eat {expected : TokenKind} (inside : expected ≠ .endOfInput) :
    Mirrors (Within most) (Unbounded.eat expected) (eat expected) (Eaten most) := by
  refine .look (looks_isAt expected) fun seen => .ite (fun isThere => ?_) fun _ => .pure ?_
  · refine .bind (mirrors_advance.weaken fun tokens holds => ?_) fun _ => .pure fun _ below => below
    refine inside_of_headKind holds.1 ?_
    rw [eq_of_beq (holds.2.symm.trans isThere)]
    exact inside
  · exact fun _ holds => holds.1

theorem mirrors_eatMark (mark : Punctuator) :
    Mirrors (Within most) (Unbounded.eatMark mark) (eatMark mark) (Eaten most) :=
  mirrors_eat (by simp)

theorem anyError_append_error {diagnostics : List Diagnostic} {diagnostic : Diagnostic}
    (isError : diagnostic.isError = true) :
    Diagnostic.anyError (diagnostics ++ [diagnostic]) = true := by
  simp [Diagnostic.anyError, isError]

theorem isQuiet_report {diagnostic : Diagnostic} (isError : diagnostic.isError = true) :
    IsQuiet (report diagnostic) := by
  intro state value after ran
  cases ran
  exact ⟨rfl, rfl, fun _ => anyError_append_error isError⟩

theorem isQuiet_reportCurrent (title : String) : IsQuiet (reportCurrent title) := by
  intro state value after ran
  cases ran
  exact ⟨rfl, rfl, fun _ => anyError_append_error rfl⟩

theorem isQuiet_reportExpected (expected : TokenKind) : IsQuiet (reportExpected expected) := by
  intro state value after ran
  cases ran
  exact ⟨rfl, rfl, fun _ => anyError_append_error rfl⟩

theorem isQuiet_intern (name : String) : IsQuiet (intern name) := by
  intro state value after ran
  cases ran
  exact ⟨rfl, rfl, id⟩

theorem isQuiet_takeSetId : IsQuiet takeSetId := by
  intro state value after ran
  cases ran
  exact ⟨rfl, rfl, id⟩

theorem isQuiet_currentText : IsQuiet currentText := by
  intro state value after ran
  rw [currentText_eq] at ran
  split at ran <;> cases ran
  exact ⟨rfl, rfl, id⟩

theorem isQuiet_liftM (result : Except SliceFault α) : IsQuiet (liftM result : Parser α) := by
  intro state value after ran
  cases result with
  | error fault => cases ran
  | ok value =>
      cases ran
      exact ⟨rfl, rfl, id⟩

theorem mirrors_expect {expected : TokenKind} (inside : expected ≠ .endOfInput) :
    Mirrors (Within most) (Unbounded.expect expected) (expect expected) (Eaten most) := by
  refine .bind (mirrors_eat inside) fun eaten => .ite_eaten (.pure fun _ below => below) ?_
  refine .bind (mirrors_quiet (isQuiet_reportExpected expected)) fun _ => ?_
  exact .pure fun _ within => within

theorem mirrors_expectMark (mark : Punctuator) : Mirrors (Within most) (Unbounded.expectMark mark)
    (expectMark mark) fun _ => Within most :=
  .bind (mirrors_expect (by simp)) fun _ => .pure fun _ eaten => eaten.within

theorem mirrors_name : Mirrors (Within most) Unbounded.name name fun _ => Within most := by
  have missing (span : Span) : Mirrors (Within most)
      (do Parser.intern ""; return Name.mk "" span : FreeRun Name)
      (do intern ""; return Name.mk "" span) fun _ => Within most :=
    .bind (mirrors_quiet (isQuiet_intern "")) fun _ => .pure fun _ within => within
  refine .look looks_get fun state => .ite (fun isName => ?_) fun _ => ?_
  · refine .bind (mirrors_quiet isQuiet_currentText) fun text => ?_
    refine .bind (mirrors_quiet (isQuiet_intern text)) fun _ => ?_
    refine .bind (mirrors_advance.weaken ?_) fun _ => .pure fun _ below => Nat.le_of_lt below
    rintro tokens ⟨within, isAt⟩
    refine inside_of_headKind within ?_
    rw [← isAt.kind_eq]
    intro isEnd
    rw [isEnd] at isName
    cases isName
  · refine .bind (mirrors_quiet (isQuiet_reportCurrent _)) fun _ => ?_
    refine .weaken (.ite (fun _ => ?_) fun _ => missing _) fun _ holds => holds.1
    exact .bind (mirrors_quiet isQuiet_currentText) fun _ => missing _

end Steps

/-! ## Turns -/

section Turns

variable {most before : Nat}

theorem Mirrors.ahead {pre : List Token → Prop} {nextRun : Nat → FreeRun α} {parser : Parser α}
    {post : α → List Token → Prop}
    (continues : ∀ before, Mirrors (fun tokens => pre tokens ∧ tokens.length = before)
      (nextRun before) parser post) :
    Mirrors pre (liftM Unbounded.ahead >>= nextRun) parser post := by
  intro limit state tokens deeds deep isAt holds
  have counts : FreeRun.outcome? (liftM Unbounded.ahead >>= nextRun) limit ⟨state, deeds⟩ =
      (nextRun tokens.length).outcome? limit ⟨state, deeds⟩ := by
    rw [← isAt.length_upcoming, outcome?_bind]
    rfl
  rw [counts]
  exact continues tokens.length limit state tokens deeds deep isAt ⟨holds, rfl⟩

theorem Mirrors.ahead_within {nextRun : Nat → FreeRun α} {parser : Parser α}
    (continues : ∀ before ≤ most,
      Mirrors (Within before) (nextRun before) parser fun _ => Within before) :
    Mirrors (Within most) (liftM Unbounded.ahead >>= nextRun) parser fun _ => Within most := by
  refine .ahead fun before limit state tokens deeds deep isAt ⟨within, same⟩ => ?_
  have atMost : before ≤ most := same ▸ within
  have mirrors := (continues before atMost).imp fun _ _ => Within.mono atMost
  exact mirrors limit state tokens deeds deep isAt (Nat.le_of_eq same)

theorem Mirrors.ahead_inside {nextRun : Nat → FreeRun α} {parser : Parser α}
    {post : α → List Token → Prop}
    (continues : ∀ before ≤ most, Mirrors (Inside before) (nextRun before) parser post) :
    Mirrors (Inside most) (liftM Unbounded.ahead >>= nextRun) parser post := by
  refine .ahead fun before limit state tokens deeds deep isAt ⟨inside, same⟩ => ?_
  have mirrors := continues before (same ▸ inside.2)
  exact mirrors limit state tokens deeds deep isAt ⟨inside.1, Nat.le_of_eq same⟩

/-- A deed that consumes nothing and progresses is noted. -/
theorem Mirrors.noting {pre : List Token → Prop} {deed : Nat → Deed} {run : FreeRun α}
    {parser : Parser α} {post : α → List Token → Prop} (noToken : ∀ count, (deed count).token? = none)
    (progresses : ∀ tokens, pre tokens → (deed tokens.length).Progresses)
    (continues : Mirrors pre run parser post) :
    Mirrors pre ((do note (deed (← Unbounded.ahead))) >>= fun _ => run) parser post := by
  intro limit state tokens deeds deep isAt holds
  have noted : FreeRun.outcome? ((do note (deed (← Unbounded.ahead))) >>= fun _ => run) limit
      ⟨state, deeds⟩ = run.outcome? limit ⟨state, deeds ++ [deed tokens.length]⟩ := by
    rw [← isAt.length_upcoming, outcome?_bind]
    rfl
  have rest := continues limit state tokens (deeds ++ [deed tokens.length]) deep isAt holds
  rw [noted]
  cases ran : parser state with
  | error fault =>
      rw [ran] at rest
      exact rest
  | ok step =>
      rcases step with ⟨value, after⟩
      rw [ran] at rest
      rcases rest with ⟨further, remaining, outcome, accounts, holdsAfter⟩
      have first := Accounts.note isAt (noToken tokens.length) (progresses tokens holds)
      refine ⟨[deed tokens.length] ++ further, remaining, ?_, first.append accounts, holdsAfter⟩
      rw [outcome, List.append_assoc]

theorem Mirrors.endTurn {fewer : Nat} {run : FreeRun α} {parser : Parser α}
    {post : α → List Token → Prop} (less : fewer < before)
    (continues : Mirrors (Within fewer) run parser post) :
    Mirrors (Within fewer) (Unbounded.endTurn before >>= fun _ => run) parser post :=
  .noting (fun _ => rfl) (fun _ within => Nat.lt_of_le_of_lt within less) continues

theorem Mirrors.descend {fewer : Nat} {run : FreeRun α} {parser : Parser α}
    {post : α → List Token → Prop} (less : fewer < before)
    (continues : Mirrors (Within fewer) run parser post) :
    Mirrors (Within fewer) (Unbounded.descend before >>= fun _ => run) parser post :=
  .noting (fun _ => rfl) (fun _ within => Nat.lt_of_le_of_lt within less) continues

theorem get_run (state : ParserState) : (get : Parser ParserState) state = .ok (state, state) :=
  rfl

theorem progressing_of_error {item : Parser α} {state : ParserState} {fault : SliceFault}
    (ran : item state = .error fault) : progressing item state = .error fault := by
  rw [progressing, bind_eq_ok (get_run state), bind_eq_error ran]

theorem progressing_of_ok {item : Parser α} {state after : ParserState} {value : α}
    (ran : item state = .ok (value, after)) : progressing item state = .ok (value,
      if after.upcoming.length = state.upcoming.length && after.current.kind != .endOfInput then
        after.advanced
      else after) := by
  rw [progressing, bind_eq_ok (get_run state), bind_eq_ok ran, bind_eq_ok (get_run after)]
  split <;> rfl

/-- An item of a list, after which the token that it stopped at is skipped if the item started
there. -/
def recovered (run : FreeRun α) : FreeRun α := do
  let start ← position
  let value ← run
  Unbounded.recoverFrom start
  return value

theorem outcome?_recovered (run : FreeRun α) (limit : Nat) (state : ParserState)
    (deeds : List Deed) :
    (recovered run).outcome? limit ⟨state, deeds⟩ = match run.outcome? limit ⟨state, deeds⟩ with
      | some (.ok (value, between)) => some (.ok (value,
          if Unbounded.isStuckAt state.current.span.start between.state then
            ⟨between.state.advanced, between.deeds ++ [.discard between.state.current]⟩
          else between))
      | some (.error fault) => some (.error fault)
      | none => none := by
  rw [recovered, outcome?_bind, outcome?_lift]
  dsimp only [position_eq]
  rw [outcome?_bind]
  rcases run.outcome? limit ⟨state, deeds⟩ with _ | fault | ⟨value, between⟩
  · rfl
  · rfl
  · dsimp only
    rw [Unbounded.recoverFrom, outcome?_bind, outcome?_bind, outcome?_lift]
    dsimp only [Unbounded.here, get_run]
    cases Unbounded.isStuckAt state.current.span.start between.state <;> rfl

/-- Tokens start one after the other, so an item has consumed nothing exactly if it has ended where
it started. -/
theorem isStuckAt_iff {state after : ParserState} {tokens rest : List Token} {deeds : List Deed}
    (isAt : state.IsOrderedAt tokens) (accounts : Accounts state deeds after rest)
    (nonempty : tokens ≠ []) :
    Unbounded.isStuckAt state.current.span.start after = true ↔ rest.length = tokens.length := by
  have places := length_upcoming_eq_iff isAt.inOrder ⟨_, accounts.consumed.symm⟩
  rw [isAt.length_upcoming, accounts.isAt.length_upcoming] at places
  simp only [Unbounded.isStuckAt, Bool.and_eq_true, decide_eq_true_eq, bne_iff_ne, ← places]
  refine ⟨fun stuck => stuck.1, fun same => ⟨same, ?_⟩⟩
  rw [accounts.isAt.kind_eq]
  cases rest with
  | nil => exact absurd (List.length_eq_zero_iff.mp same.symm) nonempty
  | cons token rest => exact accounts.isAt.inside token List.mem_cons_self

/-- The token that an item stopped at is skipped exactly if the item has consumed nothing, and then
it has reported why. -/
theorem mirrors_recovered {run : FreeRun α} {item : Parser α} {middle : α → List Token → Prop}
    (mirrors : Mirrors (Within most) run item middle) (advances : Advances item) :
    Mirrors (Inside most) (recovered run) (progressing item) fun _ => Below most := by
  rintro limit state tokens deeds deep isAt ⟨nonempty, within : tokens.length ≤ most⟩
  have first := mirrors limit state tokens deeds deep isAt within
  rw [outcome?_recovered]
  cases ran : item state with
  | error fault =>
      rw [ran] at first
      rw [progressing_of_error ran]
      dsimp only at first ⊢
      rw [first]
  | ok step =>
      rcases step with ⟨value, after⟩
      rw [ran] at first
      rcases first with ⟨further, rest, outcome, accounts, -⟩
      have counts : (after.upcoming.length = state.upcoming.length &&
          after.current.kind != .endOfInput) =
          Unbounded.isStuckAt state.current.span.start after := by
        rw [Unbounded.isStuckAt, decide_eq_decide.mpr
          (length_upcoming_eq_iff isAt.inOrder ⟨_, accounts.consumed.symm⟩)]
      have stuckIff := isStuckAt_iff isAt accounts nonempty
      rw [progressing_of_ok ran, counts, outcome]
      dsimp only
      cases stuck : Unbounded.isStuckAt state.current.span.start after with
      | false =>
          rw [stuck, Bool.false_eq_true, false_iff] at stuckIff
          refine ⟨further, rest, rfl, accounts, ?_⟩
          have fewer := accounts.length_le isAt.toIsAt
          show rest.length < most
          omega
      | true =>
          have same := stuckIff.mp stuck
          have reported := advances.anyError ran isAt.toIsAt accounts.isAt.toIsAt same
          cases rest with
          | nil => exact absurd (List.length_eq_zero_iff.mp same.symm) nonempty
          | cons token rest =>
              have skips := Accounts.advance accounts.isAt (.inr ⟨rfl, reported⟩)
              refine ⟨further ++ [.discard token], rest, ?_, accounts.append skips, ?_⟩
              · rw [← accounts.isAt.current_eq, ← List.append_assoc]
                rfl
              · simp only [List.length_cons] at same
                show rest.length < most
                omega

/-- A turn of a list, and what comes after it. -/
theorem Mirrors.turn {run : FreeRun α} {item : Parser α} {nextRun : α → FreeRun β}
    {next : α → Parser β} {middle : α → List Token → Prop} {post : β → List Token → Prop}
    (mirrors : Mirrors (Within most) run item middle) (advances : Advances item)
    (continues : ∀ value, ∀ fewer < most,
      Mirrors (Within fewer) (nextRun value) (next value) post) :
    Mirrors (Inside most) (do
        let before ← Unbounded.ahead
        let start ← position
        let value ← run
        Unbounded.recoverFrom start
        Unbounded.endTurn before
        nextRun value)
      (progressing item >>= next) post := by
  refine .ahead_inside fun before atMost => ?_
  have parts : (do
        let start ← position
        let value ← run
        Unbounded.recoverFrom start
        Unbounded.endTurn before
        nextRun value) = (do
        let value ← recovered run
        Unbounded.endTurn before
        nextRun value) := by
    simp only [recovered, bind_assoc, pure_bind]
  rw [parts]
  have turns := mirrors_recovered (mirrors.weaken fun _ => Within.mono atMost) advances
  refine .bind turns fun value => .below fun fewer less => ?_
  exact .endTurn less (continues value fewer (Nat.lt_of_lt_of_le less atMost))

/-- An item that consumes a token in any case needs no recovery. -/
theorem Mirrors.progressing {run : FreeRun α} {item : Parser α}
    (mirrors : ∀ most, Mirrors (Inside most) run item fun _ => Below most) :
    Mirrors (Inside most) run (progressing item) fun _ => Below most := by
  intro limit state tokens deeds deep isAt inside
  have mirrored := mirrors tokens.length limit state tokens deeds deep isAt
    ⟨inside.1, Nat.le_refl _⟩
  cases ran : item state with
  | error fault =>
      rw [ran] at mirrored
      rwa [progressing_of_error ran]
  | ok step =>
      rcases step with ⟨value, after⟩
      rw [ran] at mirrored
      rcases mirrored with ⟨further, rest, outcome, accounts, shorter⟩
      have moved : ¬(after.upcoming.length = state.upcoming.length &&
          after.current.kind != .endOfInput) = true := by
        rw [accounts.isAt.length_upcoming, isAt.length_upcoming]
        simp [Nat.ne_of_lt shorter]
      rw [progressing_of_ok ran, if_neg moved]
      exact ⟨further, rest, outcome, accounts, Nat.lt_of_lt_of_le shorter inside.2⟩

/-! ## Lists -/

theorem looks_inside {most : Nat} {tokens : List Token} {closing : Punctuator} {seen : Bool}
    (within : Within most tokens)
    (sees : seen = (Token.headKind tokens == .punctuator closing
      || Token.headKind tokens == .endOfInput))
    (notAtEnd : ¬seen = true) : Inside most tokens := by
  refine inside_of_headKind within fun isEnd => notAtEnd ?_
  rw [sees, isEnd]
  simp

variable {run : FreeRun α} {item : Parser α} {middle : α → List Token → Prop}

/-- No parser puts tokens back. -/
theorem Mirrors.keeps_within (mirrors : Mirrors (Within most) run item middle) {fewer : Nat}
    (less : fewer ≤ most) : Mirrors (Within fewer) run item fun _ => Within fewer :=
  mirrors.consequence (fun _ => Within.mono less) fun _ _ _ within shorter _ =>
    Nat.le_trans shorter within

/-- What holds for every bound above the number of tokens ahead holds for the bound that is read off
the state. -/
theorem Mirrors.of_bounded {bounded : Nat → Parser α}
    (mirrors : ∀ fewer ≤ most, ∀ bound, fewer < bound →
      Mirrors (Within fewer) run (bounded bound) middle) :
    Mirrors (Within most) run (get >>= fun state => bounded (state.upcoming.length + 1))
      middle := by
  intro limit state tokens deeds deep isAt within
  have bounds : (get >>= fun state => bounded (state.upcoming.length + 1)) state =
      bounded (tokens.length + 1) state := by
    rw [bind_eq_ok (get_run state), isAt.length_upcoming]
  rw [bounds]
  have bounded := mirrors tokens.length within _ (Nat.lt_succ_self _)
  exact bounded limit state tokens deeds deep isAt (Nat.le_refl _)

theorem Mirrors.of_depthBound {bounded : Nat → Parser α}
    (mirrors : ∀ fewer ≤ most, ∀ bound, fewer < bound →
      Mirrors (Within fewer) run (bounded bound) middle) :
    Mirrors (Within most) run (depthBound >>= bounded) middle :=
  .of_bounded mirrors

/-- A run that calls itself mirrors a parser with a bound, if each of its calls does where fewer
tokens are ahead. -/
theorem Mirrors.recursive {body : FreeRun α → FreeRun α} {bounded : Nat → Parser α}
    (calls : ∀ fewer ≤ most, ∀ depth inner,
      (∀ fewest < fewer, Mirrors (Within fewest) inner (bounded depth) middle) →
      Mirrors (Within fewer) (body inner) (bounded (depth + 1)) middle)
    {depth : Nat} (enough : most < depth) :
    Mirrors (Within most) (.recursive body) (bounded depth) middle := by
  induction depth generalizing most with
  | zero => exact absurd enough (Nat.not_lt_zero _)
  | succ depth ih =>
      rintro limit state tokens deeds deep isAt (within : tokens.length ≤ most)
      cases limit with
      | zero => exact absurd deep (Nat.not_lt_zero _)
      | succ limit =>
          -- The calls have one level less, and so much less is ahead of them.
          have inner : ∀ fewest < tokens.length, Mirrors (Within fewest)
              (fun _ => FreeRun.recursive body limit) (bounded depth) middle := by
            intro fewest less _ state others deeds _ isAt (shorter : others.length ≤ fewest)
            have recurses := ih (fun fewer atMost => calls fewer (by omega))
              (show fewest < depth by omega)
            exact recurses limit state others deeds (by omega) isAt shorter
          exact calls tokens.length within depth _ inner (limit + 1) state tokens deeds deep isAt
            (Nat.le_refl _)

theorem Mirrors.recursive_within {body : FreeRun α → FreeRun α} {bounded : Nat → Parser α}
    (calls : ∀ fewer ≤ most, ∀ depth inner,
      (∀ fewest < fewer, Mirrors (Within fewest) inner (bounded depth) fun _ => Within fewest) →
      Mirrors (Within fewer) (body inner) (bounded (depth + 1)) fun _ => Within fewer)
    {depth : Nat} (enough : most < depth) :
    Mirrors (Within most) (.recursive body) (bounded depth) fun _ => Within most := by
  have recursive : Mirrors (Within most) (.recursive body) (bounded depth) fun _ _ => True := by
    refine .recursive (fun fewer atMost depth inner mirrors => ?_) enough
    refine (calls fewer atMost depth inner fun fewest less => ?_).imp fun _ _ _ => trivial
    exact (mirrors fewest less).keeps_within (Nat.le_refl _)
  exact recursive.keeps_within (Nat.le_refl _)

theorem Mirrors.itemsUntil (mirrors : Mirrors (Within most) run item middle)
    (advances : Advances item) (closing : Punctuator) :
    Mirrors (Within most) (Unbounded.itemsUntil closing run) (itemsUntil closing item)
      fun _ => Within most := by
  refine .of_bounded fun fewer less fuel enough => .imp ?_ fun _ _ => Within.mono less
  refine .recursive_within (fun fewest atMost fuel others continues => ?_) enough
  refine .look (looks_isAtEndOf closing) fun seen => .ite (fun _ => .pure ?_) fun notAtEnd => ?_
  · exact fun _ holds => holds.1
  · have turns := mirrors.keeps_within (Nat.le_trans atMost less)
    refine .weaken (.turn turns advances fun first count below => ?_) fun tokens holds =>
      looks_inside holds.1 holds.2 notAtEnd
    exact .bind (continues count below) fun others => .pure fun _ => Within.mono (Nat.le_of_lt below)

theorem Mirrors.itemsThrough (mirrors : Mirrors (Within most) run item middle)
    (advances : Advances item) (closing : Punctuator) :
    Mirrors (Within most) (Unbounded.itemsThrough closing run) (itemsThrough closing item)
      fun _ => Within most := by
  refine .bind (mirrors.itemsUntil advances closing) fun items => ?_
  exact .bind (mirrors_expectMark closing) fun _ => .pure fun _ within => within

theorem Mirrors.optionalItems (mirrors : Mirrors (Within most) run item middle)
    (advances : Advances item) (opening closing : Punctuator) :
    Mirrors (Within most) (Unbounded.optionalItems opening closing run)
      (optionalItems opening closing item) fun _ => Within most := by
  refine .bind (mirrors_eatMark opening) fun eaten => .ite_eaten ?_ (.pure fun _ within => within)
  exact (mirrors.itemsThrough advances closing).weaken fun _ below => Nat.le_of_lt below

theorem Mirrors.furtherItems (mirrors : Mirrors (Within most) run item middle)
    (separator : Punctuator) {fuel : Nat} (enough : most < fuel) :
    Mirrors (Within most) (Unbounded.furtherItems separator run)
      (furtherItems separator item fuel) fun _ => Within most := by
  refine .recursive_within (fun fewer atMost fuel others continues => ?_) enough
  refine .ahead_within fun before atMostBefore => .bind (mirrors_eatMark separator) fun eaten => ?_
  refine .ite_eaten (.below_within fun fewest less => ?_) (.pure fun _ within => within)
  refine .bind (mirrors.keeps_within (by omega)) fun first => .endTurn less ?_
  exact .bind (continues fewest (by omega)) fun others => .pure fun _ within => within

theorem Mirrors.separatedItems (mirrors : Mirrors (Within most) run item middle)
    (separator : Punctuator) : Mirrors (Within most) (Unbounded.separatedItems separator run)
      (separatedItems separator item) fun _ => Within most := by
  refine .bind (mirrors.keeps_within (Nat.le_refl _)) fun first => ?_
  refine @Mirrors.of_bounded _ most _ _
    (fun bound => do return first :: (← Parser.furtherItems separator item bound)) ?_
  intro fewer less bound enough
  have further := (mirrors.keeps_within less).furtherItems separator enough
  exact .bind further fun others => .pure fun _ => Within.mono less

/-- Items are only read where the token that leads them is ahead. -/
theorem mirrors_repeatedItems {leading : Punctuator}
    (mirrors : ∀ most, Mirrors (Inside most) run item fun _ => Below most) :
    Mirrors (Within most) (Unbounded.repeatedItems leading run) (repeatedItems leading item)
      fun _ => Within most := by
  refine .of_bounded fun fewer less fuel enough => .imp ?_ fun _ _ => Within.mono less
  refine .recursive_within (fun fewest _ fuel others continues => ?_) enough
  refine .ahead_within fun before atMost => .look (looks_isAt _) fun seen => ?_
  refine .ite (fun isSeen => ?_) fun _ => .pure fun _ holds => holds.1
  refine .bind ((mirrors before).weaken ?_) fun first => .below_within fun count below => ?_
  · rintro tokens ⟨within, sees⟩
    refine inside_of_headKind within ?_
    rw [eq_of_beq (sees.symm.trans isSeen)]
    simp
  · refine .endTurn below (.bind (continues count (by omega)) fun others => ?_)
    exact .pure fun _ within => within

end Turns

end Parser
end GraphQL
