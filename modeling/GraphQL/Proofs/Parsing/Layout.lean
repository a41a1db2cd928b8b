import GraphQL.Proofs.Parsing.Places
import GraphQL.Proofs.Token.Tiling

/-!
# Layout never matters

However a source without unfinished tokens is laid out, it has the same document with the same
numbers of selection sets and the same findings, up to places; this holds of malformed sources too.
Recovering from errors is the one thing that could ask where tokens are: an item of a list that ends
where it started has consumed nothing. As tokens start one after the other, that says as much as
counting the tokens ahead.
-/

namespace GraphQL

/-! ## Recovering -/

/-- Each token starts after those before it. -/
def Token.AreInOrder (tokens : List Token) : Prop :=
  tokens.Pairwise fun first second => first.span.start < second.span.start

theorem Token.areInOrder_scanFrom (offset : Nat) (chars : List Char) :
    AreInOrder (scanFrom offset chars) := by
  fun_induction scanFrom offset chars with
  | case1 => exact List.pairwise_singleton _ _
  | case2 => exact List.pairwise_pair.mpr (by dsimp only; omega)
  | case3 offset chars ignored c rest parts start lexeme size pastEnd ih =>
      have positive : 0 < size := byteSize_chars_pos c rest
      refine List.pairwise_cons.mpr ⟨fun token member => ?_, ih⟩
      have later := le_start_of_mem_scanFrom member
      exact Nat.lt_of_lt_of_le (Nat.lt_add_of_pos_right positive) later

namespace Parser

variable {α : Type}

/-- The tokens that are ahead in the end were ahead before. -/
def Shortens (state : ParserState) : Except SliceFault ParserState → Prop
  | .ok after => after.current :: after.upcoming <:+ state.current :: state.upcoming
  | .error _ => True

instance : IsKeptByAll Shortens where
  refl _ := List.suffix_refl _
  trans := by
    rintro state between (fault | after) shortens further
    · trivial
    · exact further.trans shortens
  advance state := by
    rcases state with ⟨current, _ | ⟨next, others⟩, previousEnd, nextSetId, interner, diagnostics⟩
    · exact List.suffix_refl _
    · exact List.suffix_cons _ _
  report _ _ _ := List.suffix_refl _
  intern _ _ := List.suffix_refl _
  fault _ _ _ := trivial
  number _ := List.suffix_refl _

/-- Runs an item of a list. If it ends where it started, the token there is skipped. -/
def recovering (item : Parser α) : Parser α := do
  let start ← position
  let result ← item
  let after ← get
  if after.current.span.start = start && after.current.kind != .endOfInput then
    advance
  return result

/-- No token is consumed exactly if the current token starts where the current token started. -/
theorem length_upcoming_eq_iff {state after : ParserState}
    (inOrder : Token.AreInOrder (state.current :: state.upcoming))
    (shortens : Shortens state (.ok after)) :
    after.upcoming.length = state.upcoming.length ↔
      after.current.span.start = state.current.span.start := by
  rcases shortens with ⟨consumed, same⟩
  cases consumed with
  | nil =>
      obtain ⟨current, upcoming⟩ := List.cons.inj same
      simp [current, upcoming]
  | cons first consumed =>
      rw [← same] at inOrder
      obtain ⟨rfl, others⟩ := List.cons.inj same
      have later := List.rel_of_pairwise_cons inOrder
        (show after.current ∈ consumed ++ after.current :: after.upcoming by simp)
      have lengths : (consumed ++ after.current :: after.upcoming).length = state.upcoming.length :=
        congrArg List.length others
      rw [List.length_append, List.length_cons] at lengths
      omega

theorem areInOrder_start (source : String) :
    Token.AreInOrder ((start (Token.scan source)).current ::
      (start (Token.scan source)).upcoming) := by
  have inOrder := Token.areInOrder_scanFrom 0 source.toList
  cases tokens : Token.scan source with
  | nil => exact List.pairwise_singleton _ _
  | cons first others => exact (show Token.scanFrom 0 source.toList = _ from tokens) ▸ inOrder

theorem position_eq (state : ParserState) :
    position state = .ok (state.current.span.start, state) := rfl

/-- At every state of a run over the tokens of a source, places tell what counting tells. -/
theorem progressing_eq_recovering {item : Parser α} (keeps : Keeps Shortens item) {source : String}
    {state : ParserState} (reached : Shortens (start (Token.scan source)) (.ok state)) :
    progressing item state = recovering item state := by
  have inOrder : Token.AreInOrder (state.current :: state.upcoming) :=
    (areInOrder_start source).sublist reached.sublist
  simp only [progressing, recovering, position_eq, bind, StateT.bind, Except.bind, get, getThe,
    MonadStateOf.get, StateT.get, pure, Except.pure]
  cases run : item state with
  | error fault => rfl
  | ok step =>
      rcases step with ⟨result, after⟩
      dsimp only
      rw [decide_eq_decide.mpr (length_upcoming_eq_iff inOrder (keeps.of_ok run))]

end Parser

/-! ## Documents -/

namespace Document

theorem parse_of_isRelaid {source other : String}
    (valid : ∀ token ∈ Token.scan source, token.kind ≠ .invalid)
    (relaid : Token.IsRelaidSource source other) :
    ((Token.scan other).map fun token => (token.kind, token.text?)) =
        ((Token.scan source).map fun token => (token.kind, token.text?)) ∧
      (parse other).map ParsedDocument.spanless = (parse source).map ParsedDocument.spanless := by
  have same := Token.scan_of_isRelaid relaid valid
  constructor
  · have seen := congrArg (List.map fun token : Token => (token.kind, token.text?)) same
    rwa [List.map_map, List.map_map] at seen
  · rw [parse, parse, ← ofTokens_spanless, ← ofTokens_spanless, same]

namespace StrayBrace

/-- Not a document: nothing opens the brace. -/
def source : String :=
  "\x7da \x7bb"

/-- The same tokens after a byte order mark, with a comment that looks like one of them. -/
def relaid : String :=
  "\ufeff\x7d#\x7d\na\t,\x7bb\n"

theorem isRelaid : Token.IsRelaidSource source relaid := by
  have tokens : Token.scan source =
      [⟨.punctuator .closeBrace, ⟨0, 1⟩, some "\x7d"⟩, ⟨.identifier, ⟨1, 2⟩, some "a"⟩,
        ⟨.punctuator .openBrace, ⟨3, 4⟩, some "\x7b"⟩, ⟨.identifier, ⟨4, 5⟩, some "b"⟩,
        ⟨.endOfInput, ⟨5, 5⟩, some ""⟩] := by
    decide +kernel
  have hash : Token.IsIgnorable "#\x7d\n".toList :=
    @Token.IsIgnorable.comment ['\x7d'] [] (by decide) .nil
  have blank (c : Char) {rest : List Char} (ignored : Token.isIgnored c = true)
      (ignorable : Token.IsIgnorable rest) : Token.Replaces (c :: rest) [] :=
    .inr ⟨by simp, .blank ignored ignorable⟩
  rw [Token.IsRelaidSource, tokens]
  refine @Token.IsRelaid.token _ _ _ [] ['\ufeff'] ['\x7d'] _ _ (blank _ rfl .nil) rfl ?_
  refine @Token.IsRelaid.token _ _ _ [] "#\x7d\n".toList ['a'] _ _ (.inr ⟨by decide, hash⟩) rfl ?_
  refine @Token.IsRelaid.token _ _ _ [' '] ['\t', ','] ['\x7b'] _ _ (.inr ?_) rfl ?_
  · exact ⟨by decide, .blank rfl (.blank rfl .nil)⟩
  refine @Token.IsRelaid.token _ _ _ [] [] ['b'] _ _ (.inl rfl) rfl ?_
  exact .last (blank _ rfl .nil)

theorem parse_relaid :
    (∀ token ∈ Token.scan source, token.kind ≠ .invalid) ∧ Token.IsRelaidSource source relaid ∧
      (parse source).isOk = true ∧
      (parse relaid).map ParsedDocument.spanless = (parse source).map ParsedDocument.spanless := by
  have valid : ∀ token ∈ Token.scan source, token.kind ≠ .invalid := by
    decide +kernel
  exact ⟨valid, isRelaid, by decide +kernel, (parse_of_isRelaid valid isRelaid).2⟩

end StrayBrace

end Document

end GraphQL
