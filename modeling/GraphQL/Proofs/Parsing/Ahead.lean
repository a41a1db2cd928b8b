import GraphQL.Parsing.Document

/-!
# The tokens ahead

While a parser runs, the tokens ahead are some tokens and the mark of the end of the input after
them. Consuming a token takes the first of them; at the end nothing is taken.
-/

namespace GraphQL

/-- The kind of the first token, or of the mark after all tokens. -/
def Token.headKind : List Token → TokenKind
  | [] => .endOfInput
  | token :: _ => token.kind

theorem Token.exists_cons_of_headKind {tokens : List Token} {kind : TokenKind}
    (isHead : headKind tokens = kind) (inside : kind ≠ .endOfInput) :
    ∃ token rest, tokens = token :: rest ∧ token.kind = kind := by
  cases tokens with
  | nil => exact absurd isHead.symm inside
  | cons token rest => exact ⟨token, rest, rfl, isHead⟩

namespace ParserState

/-- The tokens ahead up to the end of the input. -/
structure IsAt (state : ParserState) (tokens : List Token) : Prop where
  ends : ∃ last, state.current :: state.upcoming = tokens ++ [last] ∧ last.kind = .endOfInput
  inside : ∀ token ∈ tokens, token.kind ≠ .endOfInput

/-- The state after the current token has been consumed. -/
def advanced (state : ParserState) : ParserState :=
  match state.upcoming with
  | [] => { state with previousEnd := state.current.span.stop }
  | next :: others =>
      { state with current := next, upcoming := others, previousEnd := state.current.span.stop }

@[simp]
theorem diagnostics_advanced (state : ParserState) :
    state.advanced.diagnostics = state.diagnostics := by
  unfold advanced
  cases state.upcoming <;> rfl

namespace IsAt

variable {state other : ParserState} {tokens : List Token} {token : Token}

theorem kind_eq (isAt : state.IsAt tokens) : state.current.kind = Token.headKind tokens := by
  rcases isAt.ends with ⟨last, same, isEnd⟩
  cases tokens with
  | nil =>
      simp only [List.nil_append, List.cons.injEq] at same
      rw [same.1, isEnd]
      rfl
  | cons token tokens =>
      simp only [List.cons_append, List.cons.injEq] at same
      rw [same.1]
      rfl

theorem length_upcoming (isAt : state.IsAt tokens) : state.upcoming.length = tokens.length := by
  rcases isAt.ends with ⟨last, same, _⟩
  have lengths := congrArg List.length same
  simpa using lengths

theorem current_eq (isAt : state.IsAt (token :: tokens)) : state.current = token := by
  rcases isAt.ends with ⟨last, same, _⟩
  simp only [List.cons_append, List.cons.injEq] at same
  exact same.1

/-- Where the current token is not the end, it is the first one. -/
theorem exists_cons (isAt : state.IsAt tokens) (inside : state.current.kind ≠ .endOfInput) :
    ∃ rest, tokens = state.current :: rest := by
  cases tokens with
  | nil => exact absurd isAt.kind_eq inside
  | cons token rest => exact ⟨rest, by rw [isAt.current_eq]⟩

/-- Only the tokens of a state matter. -/
theorem congr (isAt : state.IsAt tokens) (current : other.current = state.current)
    (upcoming : other.upcoming = state.upcoming) : other.IsAt tokens := by
  refine ⟨?_, isAt.inside⟩
  rw [current, upcoming]
  exact isAt.ends

theorem advanced (isAt : state.IsAt tokens) : state.advanced.IsAt tokens.tail := by
  rcases isAt with ⟨⟨last, same, isEnd⟩, inside⟩
  rcases state with ⟨current, upcoming, previousEnd, nextSetId, interner, diagnostics⟩
  cases tokens with
  | nil =>
      simp only [List.nil_append, List.cons.injEq] at same
      rcases same with ⟨rfl, rfl⟩
      exact ⟨⟨_, rfl, isEnd⟩, inside⟩
  | cons token tokens =>
      simp only [List.cons_append, List.cons.injEq] at same
      rcases same with ⟨rfl, rfl⟩
      refine ⟨⟨last, ?_, isEnd⟩, fun token member => inside token (List.mem_cons_of_mem _ member)⟩
      cases tokens <;> rfl

/-- The tokens ahead are determined by the state. -/
theorem unique (isAt : state.IsAt tokens) {others : List Token} (isAtOthers : state.IsAt others) :
    tokens = others := by
  rcases isAt.ends with ⟨last, same, _⟩
  rcases isAtOthers.ends with ⟨otherLast, otherSame, _⟩
  exact (List.append_inj' (same.symm.trans otherSame) rfl).1

end IsAt

end ParserState

namespace Parser

variable {α β : Type}

theorem exists_of_bind {parser : Parser α} {next : α → Parser β} {state after : ParserState}
    {result : β} (run : (parser >>= next) state = .ok (result, after)) :
    ∃ value between, parser state = .ok (value, between) ∧
      next value between = .ok (result, after) := by
  cases begun : parser state with
  | error fault =>
      simp only [bind, StateT.bind, begun, Except.bind] at run
      cases run
  | ok step =>
      simp only [bind, StateT.bind, begun, Except.bind] at run
      exact ⟨step.1, step.2, rfl, run⟩

theorem advance_run (state : ParserState) : advance state = .ok ((), state.advanced) :=
  rfl

/-- The parser does not change the state, and what it sees fits the tokens ahead. -/
def Looks (parser : Parser α) (sees : List Token → α → Prop) : Prop :=
  ∀ state, ∃ result, parser state = .ok (result, state) ∧
    ∀ tokens, state.IsAt tokens → sees tokens result

theorem looks_get : Looks get fun tokens state => state.IsAt tokens :=
  fun state => ⟨state, rfl, fun _ isAt => isAt⟩

theorem looks_kind : Looks kind fun tokens seen => seen = Token.headKind tokens :=
  fun state => ⟨state.current.kind, rfl, fun _ isAt => isAt.kind_eq⟩

theorem looks_position : Looks position fun _ _ => True :=
  fun state => ⟨state.current.span.start, rfl, fun _ _ => trivial⟩

theorem looks_currentSpan : Looks currentSpan fun _ _ => True :=
  fun state => ⟨state.current.span, rfl, fun _ _ => trivial⟩

theorem looks_spanFrom (start : Nat) : Looks (spanFrom start) fun _ _ => True :=
  fun state => ⟨⟨start, max state.previousEnd start⟩, rfl, fun _ _ => trivial⟩

theorem looks_depthBound : Looks depthBound fun tokens bound => bound = tokens.length + 1 :=
  fun state => ⟨state.upcoming.length + 1, rfl, fun _ isAt => by rw [isAt.length_upcoming]⟩

theorem looks_isAt (expected : TokenKind) :
    Looks (isAt expected) fun tokens seen => seen = (Token.headKind tokens == expected) :=
  fun state => ⟨state.current.kind == expected, rfl, fun _ isAt => by rw [isAt.kind_eq]⟩

/-- Only after all tokens the input ends. -/
theorem looks_isAtEnd :
    Looks (isAt .endOfInput) fun tokens seen => seen = true ↔ tokens = [] := by
  refine fun state => ⟨state.current.kind == .endOfInput, rfl, fun tokens isAt => ?_⟩
  simp only [isAt.kind_eq, beq_iff_eq]
  cases tokens with
  | nil => exact ⟨fun _ => rfl, fun _ => rfl⟩
  | cons token rest =>
      refine ⟨fun isEnd => absurd isEnd (isAt.inside token List.mem_cons_self), fun isEmpty => ?_⟩
      cases isEmpty

theorem looks_isAtEndOf (closing : Punctuator) :
    Looks (isAtEndOf closing) fun tokens seen =>
      seen = (Token.headKind tokens == .punctuator closing
        || Token.headKind tokens == .endOfInput) :=
  fun state => ⟨state.current.kind == .punctuator closing || state.current.kind == .endOfInput, rfl,
    fun _ isAt => by rw [isAt.kind_eq]⟩

end Parser

end GraphQL
