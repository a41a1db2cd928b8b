import GraphQL.Proofs.Parsing.Ahead
import GraphQL.Proofs.Parsing.Grammar

/-!
# What a parser takes

A parser takes some of the tokens ahead if it runs over them quietly: it reports nothing, it does
not fail, and it comes to the tokens that follow. The token that follows decides whether an optional
part is there, so most parsers take a part only in front of tokens that cannot continue it.
-/

namespace GraphQL

open Grammar

namespace Parser

variable {α β γ : Type}

/-- Ahead of some tokens the parser runs quietly, gives a result of some kind and leaves the rest. -/
def Takes (parser : Parser α) (tokens : List Token) (shows : α → Prop) (rest : List Token) : Prop :=
  ∀ state, state.IsAt tokens → ∃ result after, parser state = .ok (result, after) ∧
    after.diagnostics = state.diagnostics ∧ after.IsAt rest ∧ shows result

namespace Takes

variable {parser : Parser α} {next : α → Parser β} {tokens middle rest : List Token}
  {shows : α → Prop} {goal : β → Prop}

theorem weaken {other : α → Prop} (takes : Takes parser tokens shows rest)
    (implies : ∀ value, shows value → other value) : Takes parser tokens other rest := by
  intro state isAt
  rcases takes state isAt with ⟨result, after, run, quiet, isAtRest, holds⟩
  exact ⟨result, after, run, quiet, isAtRest, implies result holds⟩

theorem pure {value : α} (holds : shows value) : Takes (Pure.pure value) tokens shows tokens :=
  fun state isAt => ⟨value, state, rfl, rfl, isAt, holds⟩

theorem bind (takes : Takes parser tokens shows middle)
    (follows : ∀ value, shows value → Takes (next value) middle goal rest) :
    Takes (parser >>= next) tokens goal rest := by
  intro state isAt
  rcases takes state isAt with ⟨value, between, run, quiet, isAtMiddle, holds⟩
  rcases follows value holds between isAtMiddle with
    ⟨result, after, continued, stillQuiet, isAtRest, reached⟩
  refine ⟨result, after, ?_, stillQuiet.trans quiet, isAtRest, reached⟩
  simp only [Bind.bind, StateT.bind, run, Except.bind]
  exact continued

theorem pure_bind {value : α} (takes : Takes (next value) tokens goal rest) :
    Takes (Pure.pure value >>= next) tokens goal rest :=
  takes

theorem look {sees : List Token → α → Prop} (looks : Looks parser sees)
    (follows : ∀ value, sees tokens value → Takes (next value) tokens goal rest) :
    Takes (parser >>= next) tokens goal rest := by
  have takes : Takes parser tokens (sees tokens) tokens := by
    intro state isAt
    rcases looks state with ⟨value, run, sees⟩
    exact ⟨value, state, run, rfl, isAt, sees tokens isAt⟩
  exact takes.bind follows

theorem ite_pos {condition : Prop} [Decidable condition] {other : Parser α} (holds : condition)
    (takes : Takes parser tokens shows rest) :
    Takes (if condition then parser else other) tokens shows rest := by
  rwa [if_pos holds]

theorem ite_neg {condition : Prop} [Decidable condition] {other : Parser α} (fails : ¬condition)
    (takes : Takes parser tokens shows rest) :
    Takes (if condition then other else parser) tokens shows rest := by
  rwa [if_neg fails]

end Takes

/-! ## Steps -/

section

variable {token : Token} {rest : List Token}

theorem takes_advance : Takes advance (token :: rest) (fun _ => True) rest :=
  fun state isAt => ⟨(), state.advanced, rfl, state.diagnostics_advanced, isAt.advanced, trivial⟩

theorem takes_intern (name : String) {tokens : List Token} :
    Takes (intern name) tokens (fun _ => True) tokens :=
  fun _ isAt => ⟨(), _, rfl, rfl, isAt.congr rfl rfl, trivial⟩

theorem takes_currentText {text : String} (reads : token.text? = some text) :
    Takes currentText (token :: rest) (· = text) (token :: rest) := by
  intro state isAt
  refine ⟨text, state, ?_, rfl, isAt, rfl⟩
  rw [← isAt.current_eq] at reads
  simp only [currentText, bind, StateT.bind, get, getThe, MonadStateOf.get, StateT.get, pure,
    Except.pure, Except.bind, reads]
  rfl

theorem takes_eat {expected : TokenKind} (isHere : token.kind = expected) :
    Takes (eat expected) (token :: rest) (· = true) rest := by
  refine .look (looks_isAt expected) fun seen isSeen => .ite_pos ?_ ?_
  · rw [isSeen, Token.headKind, isHere]
    exact beq_self_eq_true _
  · exact .bind takes_advance fun _ _ => .pure rfl

theorem takes_eat_other {expected : TokenKind} {tokens : List Token}
    (other : Token.headKind tokens ≠ expected) : Takes (eat expected) tokens (· = false) tokens := by
  refine .look (looks_isAt expected) fun seen isSeen => .ite_neg ?_ (.pure rfl)
  rw [isSeen]
  exact fun isHere => other (eq_of_beq isHere)

theorem takes_eatMark {mark : Punctuator} (isMark : IsMark mark token) :
    Takes (eatMark mark) (token :: rest) (· = true) rest :=
  takes_eat isMark

theorem takes_eatMark_other {mark : Punctuator} {tokens : List Token}
    (other : Token.headKind tokens ≠ .punctuator mark) :
    Takes (eatMark mark) tokens (· = false) tokens :=
  takes_eat_other other

theorem takes_expect {expected : TokenKind} (isHere : token.kind = expected) :
    Takes (expect expected) (token :: rest) (· = true) rest :=
  .bind (takes_eat isHere) fun _ isEaten => .ite_pos isEaten (.pure rfl)

theorem takes_expectMark {mark : Punctuator} (isMark : IsMark mark token) :
    Takes (expectMark mark) (token :: rest) (fun _ => True) rest :=
  .bind (takes_expect isMark) fun _ _ => .pure trivial

theorem takes_name {name : Name} (isName : IsName token name) :
    Takes Parser.name (token :: rest) (·.unplaced = name.unplaced) rest := by
  refine .look looks_get fun state isAt => .ite_pos ?_ ?_
  · rw [isAt.current_eq]
    exact isName.1
  · refine .bind (takes_currentText isName.2) fun text isText => ?_
    refine .bind (takes_intern text) fun _ _ => .bind takes_advance fun _ _ => .pure ?_
    rw [isText]
    rfl

/-- A value with the span of what has been read. -/
theorem takes_spanned (start : Nat) {value : Span → α} {tokens : List Token} {shows : α → Prop}
    (holds : ∀ span, shows (value span)) :
    Takes (do return value (← spanFrom start)) tokens shows tokens :=
  .look (looks_spanFrom start) fun span _ => .pure (holds span)

end

/-! ## Lists -/

section Lists

variable {item : Parser α} {erase : α → γ} {target : β → γ} {spells : List Token → β → Prop}
  {follow : List Token → Prop}

theorem Takes.progressing {used rest : List Token} {shows : α → Prop}
    (takes : Takes item (used ++ rest) shows rest) (nonempty : used ≠ []) :
    Takes (progressing item) (used ++ rest) shows rest := by
  refine .look looks_get fun before isBefore => .bind takes fun value holds => ?_
  refine .look looks_get fun after isAfter => .ite_neg ?_ (.pure holds)
  intro stuck
  have same := of_decide_eq_true (Bool.and_eq_true_iff.mp stuck).1
  rw [isAfter.length_upcoming, isBefore.length_upcoming, List.length_append] at same
  have positive := List.length_pos_iff.mpr nonempty
  omega

/-- Each item is taken in front of the next one and in front of the closing token. -/
structure TakesEach (item : Parser α) (closing : Punctuator) (spells : List Token → β → Prop)
    (erase : α → γ) (target : β → γ) (follow : List Token → Prop) : Prop where
  takes : ∀ {used value rest}, spells used value → follow rest →
    Takes item (used ++ rest) (erase · = target value) rest
  starts : ∀ {used value}, spells used value → Token.headKind used ≠ .endOfInput ∧
    Token.headKind used ≠ .punctuator closing
  continues : ∀ {used value rest}, spells used value → follow (used ++ rest)
  ends : ∀ {last rest}, IsMark closing last → follow (last :: rest)

theorem headKind_append {used rest : List Token}
    (inside : Token.headKind used ≠ .endOfInput) :
    Token.headKind (used ++ rest) = Token.headKind used := by
  cases used with
  | nil => exact absurd rfl inside
  | cons token used => rfl

theorem ne_nil_of_headKind {used : List Token} (inside : Token.headKind used ≠ .endOfInput) :
    used ≠ [] := by
  rintro rfl
  exact inside rfl

/-- What follows an item is the next one or what follows all items. -/
theorem follow_flatten {parts : List (List Token)} {items : List β}
    (spelled : List.Forall₂ spells parts items)
    (continues : ∀ {used value rest}, spells used value → follow (used ++ rest)) {rest : List Token}
    (ends : follow rest) : follow (parts.flatten ++ rest) := by
  cases spelled with
  | nil => exact ends
  | cons first _ =>
      rw [List.flatten_cons, List.append_assoc]
      exact continues first

variable {closing : Punctuator}

theorem TakesEach.itemsWithin (each : TakesEach item closing spells erase target follow)
    {parts : List (List Token)} {items : List β} (spelled : List.Forall₂ spells parts items)
    {last : Token} (closes : IsMark closing last) {rest : List Token} {fuel : Nat}
    (enough : parts.flatten.length < fuel) :
    Takes (itemsWithin closing item fuel) (parts.flatten ++ last :: rest)
      (fun results => results.map erase = items.map target) (last :: rest) := by
  induction spelled generalizing fuel with
  | nil =>
      cases fuel with
      | zero => exact .pure rfl
      | succ fuel =>
          refine .look (looks_isAtEndOf closing) fun seen isSeen => .ite_pos ?_ (.pure rfl)
          rw [isSeen]
          exact Bool.or_eq_true_iff.mpr (.inl (beq_iff_eq.mpr closes))
  | @cons used value parts items first others ih =>
      rcases each.starts first with ⟨inside, open_⟩
      have nonempty := ne_nil_of_headKind inside
      have positive := List.length_pos_iff.mpr nonempty
      simp only [List.flatten_cons, List.length_append] at enough
      cases fuel with
      | zero => omega
      | succ fuel =>
          rw [List.flatten_cons, List.append_assoc]
          refine .look (looks_isAtEndOf closing) fun seen isSeen => .ite_neg ?_ ?_
          · rw [isSeen, headKind_append inside]
            simp [inside, open_]
          · have follows : follow (parts.flatten ++ last :: rest) :=
              follow_flatten others each.continues (each.ends closes)
            refine .bind ((each.takes first follows).progressing nonempty) fun result same => ?_
            refine .bind (ih (by omega)) fun results sameAll => .pure ?_
            rw [List.map_cons, List.map_cons, same, sameAll]

theorem TakesEach.itemsThrough (each : TakesEach item closing spells erase target follow)
    {used : List Token} {items : List β} (spelled : SpellsEach spells used items) {last : Token}
    (closes : IsMark closing last) {rest : List Token} :
    Takes (Parser.itemsThrough closing item) (used ++ last :: rest)
      (fun results => results.map erase = items.map target) rest := by
  rcases spelled with @⟨parts, _, spelled⟩
  have within : Takes (itemsUntil closing item) (parts.flatten ++ last :: rest)
      (fun results => results.map erase = items.map target) (last :: rest) := by
    refine .look looks_get fun state isAt => each.itemsWithin spelled closes ?_
    rw [isAt.length_upcoming, List.length_append]
    omega
  exact .bind within fun results same => .bind (takes_expectMark closes) fun _ _ => .pure same

theorem TakesEach.optionalItems (each : TakesEach item closing spells erase target follow)
    {opening : Punctuator} {used rest : List Token} {items : List β}
    (spelled : SpellsOptional opening closing spells used items)
    (other : Token.headKind rest ≠ .punctuator opening) :
    Takes (Parser.optionalItems opening closing item) (used ++ rest)
      (fun results => results.map erase = items.map target) rest := by
  cases spelled with
  | absent =>
      exact .bind (takes_eatMark_other other) fun _ isEaten =>
        .ite_neg (by simp [isEaten]) (.pure rfl)
  | present between =>
      rcases between with @⟨first, last, used, _, opens, spelled, closes⟩
      rw [List.cons_append, List.append_assoc]
      exact .bind (takes_eatMark opens) fun _ isEaten =>
        .ite_pos isEaten (each.itemsThrough spelled closes)

/-- Items that each start with the same token, in front of a token that starts no other one. -/
theorem takes_repeatedItems {leading : Punctuator} {used rest : List Token} {items : List β}
    (spelled : SpellsEach spells used items) (follow : List Token → Prop)
    (takes : ∀ {used value rest}, spells used value → follow rest →
      Takes item (used ++ rest) (erase · = target value) rest)
    (starts : ∀ {used value}, spells used value → Token.headKind used = .punctuator leading)
    (continues : ∀ {used value rest}, spells used value → follow (used ++ rest))
    (follows : follow rest) (other : Token.headKind rest ≠ .punctuator leading) :
    Takes (repeatedItems leading item) (used ++ rest)
      (fun results => results.map erase = items.map target) rest := by
  rcases spelled with @⟨parts, _, spelled⟩
  have within {fuel : Nat} (enough : parts.flatten.length < fuel) :
      Takes (leadItems leading item fuel) (parts.flatten ++ rest)
        (fun results => results.map erase = items.map target) rest := by
    induction spelled generalizing fuel with
    | nil =>
        cases fuel with
        | zero => exact .pure rfl
        | succ fuel =>
            refine .look (looks_isAt _) fun seen isSeen => .ite_neg ?_ (.pure rfl)
            rw [isSeen]
            exact fun isHere => other (eq_of_beq isHere)
    | @cons used value parts items first others ih =>
        have inside : Token.headKind used ≠ .endOfInput := by
          rw [starts first]
          simp
        have positive := List.length_pos_iff.mpr (ne_nil_of_headKind inside)
        simp only [List.flatten_cons, List.length_append] at enough
        cases fuel with
        | zero => omega
        | succ fuel =>
            rw [List.flatten_cons, List.append_assoc]
            refine .look (looks_isAt _) fun seen isSeen => .ite_pos ?_ ?_
            · rw [isSeen, headKind_append inside, starts first]
              exact beq_self_eq_true _
            · refine .bind (takes first (follow_flatten others continues follows))
                fun result same => ?_
              refine .bind (ih (by omega)) fun results sameAll => .pure ?_
              rw [List.map_cons, List.map_cons, same, sameAll]
  refine .look looks_get fun state isAt => within ?_
  rw [isAt.length_upcoming, List.length_append]
  omega

theorem takes_noFurtherItems {mark : Punctuator} {rest : List Token}
    (other : Token.headKind rest ≠ .punctuator mark) (fuel : Nat) :
    Takes (furtherItems mark item (fuel + 1)) rest (· = []) rest :=
  .bind (takes_eatMark_other other) fun _ isEaten => .ite_neg (by simp [isEaten]) (.pure rfl)

/-- The items after a separator, in front of a token that separates no other one. -/
theorem takes_furtherItems {mark : Punctuator} {used rest : List Token} {items : List β}
    (each : SpellsSeparated mark spells used items)
    (takes : ∀ {used value rest}, spells used value →
      Takes item (used ++ rest) (erase · = target value) rest)
    (other : Token.headKind rest ≠ .punctuator mark) {separator : Token}
    (separates : IsMark mark separator) {fuel : Nat} (enough : used.length + 1 < fuel) :
    Takes (furtherItems mark item fuel) (separator :: (used ++ rest))
      (fun results => results.map erase = items.map target) rest := by
  induction each generalizing separator fuel with
  | last spelled =>
      obtain ⟨fuel, rfl⟩ : ∃ less, fuel = less + 2 := ⟨fuel - 2, by omega⟩
      refine .bind (takes_eatMark separates) fun _ isEaten => .ite_pos isEaten ?_
      refine .bind (takes spelled) fun result same => ?_
      exact .bind (takes_noFurtherItems other fuel) fun results isEmpty =>
        .pure (by simp [isEmpty, same])
  | cons spelled nextSeparates each ih =>
      simp only [List.length_append, List.length_cons] at enough
      obtain ⟨fuel, rfl⟩ : ∃ less, fuel = less + 1 := ⟨fuel - 1, by omega⟩
      simp only [List.append_assoc, List.cons_append]
      refine .bind (takes_eatMark separates) fun _ isEaten => .ite_pos isEaten ?_
      refine .bind (takes spelled) fun result same => ?_
      refine .bind (ih nextSeparates (by omega)) fun results sameAll => .pure ?_
      rw [List.map_cons, List.map_cons, same, sameAll]

theorem takes_separatedItems {mark : Punctuator} {used rest : List Token} {items : List β}
    (each : SpellsSeparated mark spells used items)
    (takes : ∀ {used value rest}, spells used value →
      Takes item (used ++ rest) (erase · = target value) rest)
    (other : Token.headKind rest ≠ .punctuator mark) :
    Takes (separatedItems mark item) (used ++ rest)
      (fun results => results.map erase = items.map target) rest := by
  cases each with
  | last spelled =>
      refine .bind (takes spelled) fun result same => .look looks_get fun state _ => ?_
      exact .bind (takes_noFurtherItems other _) fun results isEmpty =>
        .pure (by simp [isEmpty, same])
  | cons spelled separates each =>
      simp only [List.append_assoc, List.cons_append]
      refine .bind (takes spelled) fun result same => .look looks_get fun state isAt => ?_
      refine .bind (takes_furtherItems each takes other separates ?_)
        fun results sameAll => .pure ?_
      · rw [isAt.length_upcoming, List.length_cons, List.length_append]
        omega
      · rw [List.map_cons, List.map_cons, same, sameAll]

end Lists

end Parser

end GraphQL
