import GraphQL.Proofs.Document.Outline
import GraphQL.Proofs.Parsing.Reading
import GraphQL.Proofs.Token.Tiling

/-!
# Places while parsing

The tokens of a source lie one behind the other. A parser saves where it starts, consumes tokens and
closes its span at the end of the last one. What it and the parsers that it calls have placed so far
lies between the two, in order. This holds for runs that report nothing: where a token is missing, a
name is placed at a token that is not consumed.

A parser that places something consumes a token, so fewer tokens are left. Of a list this is what
keeps the next item behind the last one, and of a selection set that the bound on its depth is never
reached.
-/

namespace GraphQL

open Outline (AreBetween)

namespace ParserState

/-- The tokens ahead lie in the source behind what was consumed, one behind the other. -/
structure StandsIn (source : List Char) (state : ParserState) : Prop where
  ahead : ∃ tokens, state.IsAt tokens
  apart : (state.current :: state.upcoming).Pairwise fun first second =>
    first.span.stop ≤ second.span.start
  fits : ∀ token ∈ state.current :: state.upcoming, token.FitsIn source
  behind : state.previousEnd ≤ state.current.span.start
  inside : state.previousEnd ≤ Token.byteSize source

/-- So much was placed behind an offset, and everything in its place. Once a token was consumed
behind the offset, fewer tokens are ahead than at first. -/
structure Laid (source : List Char) (room origin : Nat) (moved : Bool) (parts : List Outline)
    (state : ParserState) : Prop where
  stands : state.StandsIn source
  within : state.upcoming.length ≤ room
  reached : origin ≤ state.current.span.start
  consumed : moved = true → origin ≤ state.previousEnd ∧ state.upcoming.length < room
  between : AreBetween origin state.previousEnd parts
  placed : ∀ part ∈ parts, part.IsPlacedIn source

end ParserState

namespace Outline.AreBetween

variable {start stop : Nat} {parts others : List Outline}

theorem nil (start stop : Nat) : AreBetween start stop [] :=
  ⟨.nil, by simp⟩

theorem append {middle next : Nat} (first : AreBetween start middle parts)
    (second : AreBetween next stop others) (behind : middle ≤ next) (startLe : start ≤ next)
    (middleLe : middle ≤ stop) : AreBetween start stop (parts ++ others) where
  ordered := by
    refine List.pairwise_append.mpr ⟨first.ordered, second.ordered, ?_⟩
    intro part isPart other isOther
    have isBefore := (first.inside part isPart).2.2
    have isAfter := (second.inside other isOther).1
    omega
  inside := by
    intro part isPart
    rcases List.mem_append.mp isPart with isFirst | isSecond
    · have inside := first.inside part isFirst
      omega
    · have inside := second.inside part isSecond
      omega

theorem mono {last : Nat} (between : AreBetween start stop parts) (further : stop ≤ last) :
    AreBetween start last parts where
  ordered := between.ordered
  inside part isPart := by
    have inside := between.inside part isPart
    omega

end Outline.AreBetween

/-- A token without anything inside it. -/
theorem Token.FitsIn.leaf {source : List Char} {token : Token} (fits : token.FitsIn source)
    (solid : token.kind.IsSolid) : (Outline.node token.span []).IsPlacedIn source := by
  rcases fits.piece solid with ⟨text, -, piece⟩
  exact .node fits.forward piece.stop_le.2 (.nil _ _) (by simp)

namespace ParserState

variable {source : List Char} {state after : ParserState} {room origin : Nat} {moved moves : Bool}
  {parts others : List Outline}

theorem previousEnd_advanced (state : ParserState) :
    state.advanced.previousEnd = state.current.span.stop := by
  unfold advanced
  cases state.upcoming <;> rfl

theorem advanced_of_upcoming {next : Token} {rest : List Token}
    (upcoming : state.upcoming = next :: rest) :
    state.advanced = { state with
      current := next, upcoming := rest, previousEnd := state.current.span.stop } := by
  rw [advanced, upcoming]

namespace StandsIn

theorem congr (stands : state.StandsIn source) {other : ParserState}
    (current : other.current = state.current) (upcoming : other.upcoming = state.upcoming)
    (previousEnd : other.previousEnd = state.previousEnd) : other.StandsIn source where
  ahead := stands.ahead.imp fun _ isAt => isAt.congr current upcoming
  apart := by rw [current, upcoming]; exact stands.apart
  fits := by rw [current, upcoming]; exact stands.fits
  behind := by rw [current, previousEnd]; exact stands.behind
  inside := by rw [previousEnd]; exact stands.inside

/-- In front of the end there is another token. -/
theorem exists_upcoming (stands : state.StandsIn source)
    (inside : state.current.kind ≠ .endOfInput) :
    ∃ next rest, state.upcoming = next :: rest := by
  rcases stands.ahead with ⟨tokens, isAt⟩
  rcases isAt.exists_cons inside with ⟨rest, rfl⟩
  have count := isAt.length_upcoming
  cases upcoming : state.upcoming with
  | nil => simp [upcoming] at count
  | cons next rest => exact ⟨next, rest, rfl⟩

theorem stop_le (stands : state.StandsIn source) (solid : state.current.kind.IsSolid) :
    state.current.span.stop ≤ Token.byteSize source := by
  rcases (stands.fits _ List.mem_cons_self).piece solid with ⟨text, -, piece⟩
  exact piece.stop_le.2

theorem advanced (stands : state.StandsIn source) (solid : state.current.kind.IsSolid) :
    state.advanced.StandsIn source := by
  have ahead := stands.ahead.imp' List.tail fun _ isAt => isAt.advanced
  have apart := stands.apart
  have fits := stands.fits
  rcases stands.exists_upcoming solid.2 with ⟨next, rest, upcoming⟩
  rw [upcoming] at apart fits
  rw [advanced_of_upcoming upcoming] at ahead ⊢
  refine ⟨ahead, apart.tail, ?_, ?_, stands.stop_le solid⟩
  · exact fun token member => fits token (List.mem_cons_of_mem _ member)
  · exact List.rel_of_pairwise_cons apart List.mem_cons_self

end StandsIn

namespace Laid

theorem congr (laid : state.Laid source room origin moved parts) {other : ParserState}
    (current : other.current = state.current) (upcoming : other.upcoming = state.upcoming)
    (previousEnd : other.previousEnd = state.previousEnd) :
    other.Laid source room origin moved parts where
  stands := laid.stands.congr current upcoming previousEnd
  within := by rw [upcoming]; exact laid.within
  reached := by rw [current]; exact laid.reached
  consumed := by rw [upcoming, previousEnd]; exact laid.consumed
  between := by rw [previousEnd]; exact laid.between
  placed := laid.placed

theorem weaken (laid : state.Laid source room origin moved parts)
    (implies : moves = true → moved = true) : state.Laid source room origin moves parts :=
  { laid with consumed := fun isMoved => laid.consumed (implies isMoved) }

/-- Whether a token was consumed may be forgotten. -/
theorem forget (laid : state.Laid source room origin true parts) (moved : Bool) :
    state.Laid source room origin moved parts :=
  laid.weaken fun _ => rfl

/-- What was consumed before stays consumed. -/
theorem kept {eaten : Bool} (laid : state.Laid source room origin (eaten || true) parts) :
    state.Laid source room origin true parts :=
  laid.weaken fun _ => Bool.or_true eaten

/-- A token is consumed, and it may be a part by itself. -/
theorem advanced (laid : state.Laid source room origin moved parts)
    (solid : state.current.kind.IsSolid) (own : List Outline)
    (places : ∀ part ∈ own, part.IsPlacedIn source)
    (between : AreBetween state.current.span.start state.current.span.stop own) :
    state.advanced.Laid source room origin true (parts ++ own) := by
  have forward := (laid.stands.fits _ List.mem_cons_self).forward
  have behind := laid.stands.behind
  have fewer := laid.within
  have stands := laid.stands.advanced solid
  have reached : origin ≤ state.current.span.stop := Nat.le_trans laid.reached forward
  rcases laid.stands.exists_upcoming solid.2 with ⟨next, rest, upcoming⟩
  rw [upcoming, List.length_cons] at fewer
  rw [advanced_of_upcoming upcoming] at stands ⊢
  refine ⟨stands, Nat.le_of_succ_le fewer, Nat.le_trans reached stands.behind,
    fun _ => ⟨reached, fewer⟩, ?_, ?_⟩
  · exact laid.between.append between behind laid.reached (Nat.le_trans behind forward)
  · exact fun part member => (List.mem_append.mp member).elim (laid.placed part) (places part)

/-- Some of the parts may be forgotten. -/
theorem sublist (laid : state.Laid source room origin moved parts) (sub : others.Sublist parts) :
    state.Laid source room origin moved others :=
  { laid with
    between := ⟨laid.between.ordered.sublist sub, fun part member =>
      laid.between.inside part (sub.mem member)⟩
    placed := fun part member => laid.placed part (sub.mem member) }

/-- What was placed becomes one part, which is closed at the end of the last token. -/
theorem closed (laid : state.Laid source room origin true parts) {part : Outline}
    (same : part.span = ⟨origin, max state.previousEnd origin⟩) (places : part.IsPlacedIn source) :
    state.Laid source room origin true [part] where
  stands := laid.stands
  within := laid.within
  reached := laid.reached
  consumed := laid.consumed
  between := by
    have stop := Nat.max_eq_left (laid.consumed rfl).1
    refine ⟨List.pairwise_singleton _ _, fun other member => ?_⟩
    rw [List.mem_singleton.mp member, same]
    exact ⟨Nat.le_refl _, Nat.le_max_right _ _, Nat.le_of_eq stop⟩
  placed := by simpa using places

/-- Where a new part may start. -/
theorem fresh (stands : state.StandsIn source) :
    state.Laid source state.upcoming.length state.current.span.start false [] :=
  ⟨stands, Nat.le_refl _, Nat.le_refl _, by simp, .nil _ _, by simp⟩

/-- What was placed from a state on comes behind what was placed before. -/
theorem append (laid : state.Laid source room origin moved parts)
    (further : after.Laid source state.upcoming.length state.current.span.start true others) :
    after.Laid source room origin true (parts ++ others) := by
  rcases further.consumed rfl with ⟨consumed, fewer⟩
  have start := laid.reached
  have behind := laid.stands.behind
  have most := laid.within
  have furtherStart := further.reached
  refine ⟨further.stands, by omega, by omega, fun _ => ⟨by omega, by omega⟩, ?_, ?_⟩
  · exact laid.between.append further.between behind start (by omega)
  · exact fun part member =>
      (List.mem_append.mp member).elim (laid.placed part) (further.placed part)

/-- Once a token was consumed, what follows needs less room. -/
theorem narrowed (laid : state.Laid source (room + 1) origin true parts) :
    state.Laid source room origin false parts :=
  { laid with within := Nat.le_of_lt_succ (laid.consumed rfl).2, consumed := by simp }

theorem widened (laid : state.Laid source room origin moved parts) :
    state.Laid source (room + 1) origin moved parts :=
  { laid with
    within := Nat.le_succ_of_le laid.within
    consumed := fun isMoved =>
      (laid.consumed isMoved).imp_right fun fewer => Nat.lt_succ_of_lt fewer }

end Laid

end ParserState

namespace Parser

variable {α β : Type}

/-! ## Quiet runs -/

instance : IsKeptByAll GoesOn where
  number state := ⟨[], by simp, by simp, fun _ tokens isAt => ⟨tokens, isAt.congr rfl rfl⟩⟩

/-- A run that reports nothing goes from states with one property to results and states with
another. -/
def Leads (pre : ParserState → Prop) (parser : Parser α) (post : α → ParserState → Prop) : Prop :=
  ∀ state result after, parser state = .ok (result, after) →
    ∃ found, after.diagnostics = state.diagnostics ++ found ∧
      (found = [] → pre state → post result after)

namespace Leads

variable {pre : ParserState → Prop} {parser : Parser α} {next : α → Parser β}
  {between post : α → ParserState → Prop} {goal : β → ParserState → Prop}

theorem weaken (leads : Leads pre parser between)
    (implies : ∀ result state, between result state → post result state) :
    Leads pre parser post := by
  intro state result after run
  rcases leads state result after run with ⟨found, reported, quiet⟩
  exact ⟨found, reported, fun nothing holds => implies _ _ (quiet nothing holds)⟩

theorem strengthen {other : ParserState → Prop} (leads : Leads pre parser post)
    (implies : ∀ state, other state → pre state) : Leads other parser post := by
  intro state result after run
  rcases leads state result after run with ⟨found, reported, quiet⟩
  exact ⟨found, reported, fun nothing holds => quiet nothing (implies _ holds)⟩

theorem pure {value : α} (holds : ∀ state, pre state → post value state) :
    Leads pre (Pure.pure value) post := by
  intro state result after run
  cases run
  exact ⟨[], (List.append_nil _).symm, fun _ => holds state⟩

theorem bind (leads : Leads pre parser between)
    (follows : ∀ value, Leads (between value) (next value) goal) :
    Leads pre (parser >>= next) goal := by
  intro state result after run
  rcases exists_of_bind run with ⟨value, middle, begun, continued⟩
  rcases leads state value middle begun with ⟨found, reported, quiet⟩
  rcases follows value middle result after continued with ⟨others, othersReported, othersQuiet⟩
  refine ⟨found ++ others, by rw [othersReported, reported, List.append_assoc], ?_⟩
  intro nothing holds
  rcases List.append_eq_nil_iff.mp nothing with ⟨nothingFirst, nothingAfter⟩
  exact othersQuiet nothingAfter (quiet nothingFirst holds)

theorem pure_bind {value : α} (leads : Leads pre (next value) goal) :
    Leads pre (Pure.pure value >>= next) goal :=
  leads

/-- A step that only looks ahead. -/
theorem look {sees : ParserState → α} (looks : ∀ state, parser state = .ok (sees state, state))
    (follows : ∀ value, Leads (fun state => pre state ∧ sees state = value) (next value) goal) :
    Leads pre (parser >>= next) goal := by
  refine .bind (fun state result after run => ?_) follows
  rw [looks] at run
  cases run
  exact ⟨[], (List.append_nil _).symm, fun _ holds => ⟨holds, rfl⟩⟩

/-- What is seen may not matter. -/
theorem peek {sees : ParserState → α} (looks : ∀ state, parser state = .ok (sees state, state))
    (follows : ∀ value, Leads pre (next value) goal) : Leads pre (parser >>= next) goal :=
  .look looks fun value => (follows value).strengthen fun _ holds => holds.1

/-- What does not depend on the state holds all the time. -/
theorem fact (leads : Leads pre parser post) (fact : Prop) :
    Leads (fun state => pre state ∧ fact) parser fun result state => post result state ∧ fact := by
  intro state result after run
  rcases leads state result after run with ⟨found, reported, quiet⟩
  exact ⟨found, reported, fun nothing holds => ⟨quiet nothing holds.1, holds.2⟩⟩

theorem ite {condition : Prop} [Decidable condition] {other : Parser α}
    (leads : condition → Leads pre parser post) (otherLeads : ¬condition → Leads pre other post) :
    Leads pre (if condition then parser else other) post := by
  split
  · exact leads ‹_›
  · exact otherLeads ‹_›

/-- From impossible states a run goes anywhere. -/
theorem never (keeps : Keeps GoesOn parser) (impossible : ∀ state, ¬pre state) :
    Leads pre parser post := by
  intro state result after run
  rcases keeps.of_ok run with ⟨found, reported, -, -⟩
  exact ⟨found, reported, fun _ holds => absurd holds (impossible state)⟩

/-- A run that reports something is not quiet, whatever follows. -/
theorem after_error {report : Parser PUnit} (reports : Leads pre report fun _ _ => False)
    (keeps : Keeps GoesOn parser) : Leads pre (do report; parser) post :=
  .bind reports fun _ => .never keeps fun _ => id

end Leads

section Steps

variable {pre : ParserState → Prop}

theorem leads_report (diagnostic : Diagnostic) :
    Leads pre (report diagnostic) fun _ _ => False := by
  intro state result after run
  cases run
  exact ⟨[diagnostic], rfl, fun nothing => by cases nothing⟩

theorem leads_reportCurrent (title : String) : Leads pre (reportCurrent title) fun _ _ => False :=
  .peek (fun _ => rfl) fun _ => leads_report _

theorem leads_reportExpected (expected : TokenKind) :
    Leads pre (reportExpected expected) fun _ _ => False :=
  .peek (fun _ => rfl) fun _ => leads_report _

theorem leads_advance {post : PUnit → ParserState → Prop}
    (holds : ∀ state, pre state → post ⟨⟩ state.advanced) : Leads pre advance post := by
  intro state result after run
  cases run
  refine ⟨[], ?_, fun _ => holds state⟩
  rw [List.append_nil]
  exact state.diagnostics_advanced

theorem leads_intern (name : String) {post : PUnit → ParserState → Prop}
    (holds : ∀ state : ParserState, pre state →
      post ⟨⟩ { state with interner := state.interner.intern name }) :
    Leads pre (intern name) post := by
  intro state result after run
  cases run
  exact ⟨[], (List.append_nil _).symm, fun _ => holds state⟩

theorem leads_currentText {next : String → Parser β} {goal : β → ParserState → Prop}
    (follows : ∀ text, Leads (fun state => pre state ∧ state.current.text? = some text)
      (next text) goal) : Leads pre (currentText >>= next) goal := by
  refine .bind (fun state result after run => ?_) follows
  rw [currentText_eq] at run
  cases found : state.current.text? with
  | none =>
      rw [found] at run
      cases run
  | some text =>
      rw [found] at run
      cases run
      exact ⟨[], (List.append_nil _).symm, fun _ holds => ⟨holds, found⟩⟩

end Steps

/-! ## Placing -/

/-- Where the current token is of one of these kinds, a quiet run puts the outlines of its result
behind what was placed before. -/
def AddsFrom (opens : TokenKind → Prop) (source : List Char) (limit : Nat) (moves : Bool)
    (parser : Parser α) (outlines : α → List Outline) : Prop :=
  ∀ room ≤ limit, ∀ origin moved before,
    Leads (fun state => state.Laid source room origin moved before ∧ opens state.current.kind)
      parser fun result state =>
        state.Laid source room origin (moves || moved) (before ++ outlines result)

/-- A quiet run puts the outlines of its result behind what was placed before. -/
def Adds (source : List Char) (limit : Nat) (moves : Bool) (parser : Parser α)
    (outlines : α → List Outline) : Prop :=
  ∀ room ≤ limit, ∀ origin moved before,
    Leads (·.Laid source room origin moved before) parser fun result state =>
      state.Laid source room origin (moves || moved) (before ++ outlines result)

section Placing

variable {source : List Char} {limit room origin : Nat} {moves moved : Bool} {before : List Outline}
  {parser : Parser α} {outlines : α → List Outline}

theorem Adds.leads (adds : Adds source limit moves parser outlines) (within : room ≤ limit) :
    Leads (·.Laid source room origin moved before) parser fun result state =>
      state.Laid source room origin (moves || moved) (before ++ outlines result) :=
  adds room within origin moved before

theorem AddsFrom.leads {opens : TokenKind → Prop}
    (adds : AddsFrom opens source limit moves parser outlines) (within : room ≤ limit) :
    Leads (fun state => state.Laid source room origin moved before ∧ opens state.current.kind)
      parser fun result state =>
        state.Laid source room origin (moves || moved) (before ++ outlines result) :=
  adds room within origin moved before

theorem Adds.congr (adds : Adds source limit moves parser outlines) {others : α → List Outline}
    (same : ∀ result, outlines result = others result) : Adds source limit moves parser others :=
  fun room within origin moved before =>
    (adds room within origin moved before).weaken fun result _ laid => by rwa [same] at laid

/-- What is placed behind the start of a parser comes behind all that was placed before. -/
theorem AddsFrom.of_fresh {opens : TokenKind → Prop}
    (leads : ∀ first : ParserState, ∀ room ≤ limit, room ≤ first.upcoming.length →
      Leads (fun state => state = first ∧
          state.Laid source room first.current.span.start false [] ∧ opens state.current.kind)
        parser fun result state =>
          state.Laid source room first.current.span.start true (outlines result)) :
    AddsFrom opens source limit true parser outlines := by
  intro room within origin moved before state result after run
  -- No state is known to be fit yet, so the tokens ahead are cut off at the limit.
  rcases leads state (min state.upcoming.length limit) (Nat.min_le_right _ _) (Nat.min_le_left _ _)
    state result after run with ⟨found, reported, quiet⟩
  refine ⟨found, reported, fun nothing ⟨laid, opened⟩ => ?_⟩
  rw [Nat.min_eq_left (Nat.le_trans laid.within within)] at quiet
  exact laid.append (quiet nothing ⟨rfl, .fresh laid.stands, opened⟩)

theorem AddsFrom.adds (addsFrom : AddsFrom (fun _ => True) source limit moves parser outlines) :
    Adds source limit moves parser outlines :=
  fun room within origin moved before =>
    (addsFrom room within origin moved before).strengthen fun _ laid => ⟨laid, trivial⟩

/-- A production saves where it starts. -/
theorem AddsFrom.production {opens : TokenKind → Prop} {body : Nat → Parser α}
    (leads : ∀ room ≤ limit, ∀ start,
      Leads (fun state => state.Laid source room start false [] ∧ opens state.current.kind)
        (body start) fun result state =>
          state.Laid source room start true (outlines result)) :
    AddsFrom opens source limit true (position >>= body) outlines := by
  refine .of_fresh fun first room within _ => .look (fun _ => rfl) fun start => ?_
  rintro state result after run
  rcases leads room within start state result after run with ⟨found, reported, quiet⟩
  refine ⟨found, reported, fun nothing ⟨⟨same, laid, opened⟩, isStart⟩ => ?_⟩
  subst same
  subst isStart
  exact quiet nothing ⟨laid, opened⟩

theorem Adds.production {body : Nat → Parser α}
    (leads : ∀ room ≤ limit, ∀ start,
      Leads (·.Laid source room start false []) (body start)
        fun result state => state.Laid source room start true (outlines result)) :
    Adds source limit true (position >>= body) outlines :=
  AddsFrom.adds (.production fun room within start =>
    (leads room within start).strengthen fun _ holds => holds.1)

/-- A part is closed at the end of the last token. -/
theorem leads_spanFrom {start : Nat} :
    Leads (·.Laid source room start true before) (spanFrom start) fun span state =>
      state.Laid source room start true [.node span before] := by
  intro state result after run
  cases run
  refine ⟨[], (List.append_nil _).symm, fun _ laid => laid.closed rfl ?_⟩
  refine .node (Nat.le_max_right _ _) ?_ (laid.between.mono (Nat.le_max_left _ _)) laid.placed
  exact Nat.max_le.mpr ⟨laid.stands.inside, Nat.le_trans (laid.consumed rfl).1 laid.stands.inside⟩

/-- The value of a production with the span of what has been read. -/
theorem leads_spanned {start : Nat} {value : Span → α} {outline : α → Outline}
    (same : ∀ span, outline (value span) = .node span before) :
    Leads (·.Laid source room start true before) (do return value (← spanFrom start))
      fun result state => state.Laid source room start true [outline result] :=
  .bind leads_spanFrom fun span => .pure fun state laid => by rwa [same]

/-! ### Tokens -/

/-- The current token is consumed and belongs to no part. -/
theorem leads_advance_mark :
    Leads (fun state => state.Laid source room origin moved before ∧ state.current.kind.IsSolid)
      advance fun _ state => state.Laid source room origin true before := by
  refine leads_advance fun state ⟨laid, solid⟩ => ?_
  have further := laid.advanced solid [] (by simp) (.nil _ _)
  rwa [List.append_nil] at further

/-- A production consumes the token that opens it. -/
theorem leads_advance_opening {opening : TokenKind} (solid : opening.IsSolid) :
    Leads (fun state => state.Laid source room origin moved before ∧ state.current.kind = opening)
      advance fun _ state => state.Laid source room origin true before :=
  leads_advance_mark.strengthen fun _ holds => ⟨holds.1, holds.2 ▸ solid⟩

/-- The current token is consumed and is a part by itself. -/
theorem leads_advance_part {part : Outline} :
    Leads (fun state => state.Laid source room origin moved before ∧ state.current.kind.IsSolid ∧
        part.span = state.current.span ∧
        (state.current.FitsIn source → part.IsPlacedIn source)) advance
      fun _ state => state.Laid source room origin true (before ++ [part]) ∧
        state.previousEnd = part.span.stop := by
  refine leads_advance fun state ⟨laid, solid, same, places⟩ => ?_
  have fits := laid.stands.fits _ List.mem_cons_self
  refine ⟨laid.advanced solid [part] (by simpa using places fits) ⟨List.pairwise_singleton _ _, ?_⟩,
    by rw [same]; exact state.previousEnd_advanced⟩
  intro other member
  rw [List.mem_singleton.mp member, same]
  exact ⟨Nat.le_refl _, fits.forward, Nat.le_refl _⟩

theorem leads_advance_leaf {span : Span} :
    Leads (fun state => (state.Laid source room origin moved before ∧ state.current.kind.IsSolid) ∧
        state.current.span = span) advance
      fun _ state => state.Laid source room origin true (before ++ [.node span []]) := by
  refine .weaken (.strengthen (@leads_advance_part source room origin moved before _) ?_)
    fun _ _ holds => holds.1
  rintro state ⟨⟨laid, solid⟩, rfl⟩
  exact ⟨laid, solid, rfl, fun fits => fits.leaf solid⟩

theorem leads_eat {expected : TokenKind} (solid : expected.IsSolid) :
    Leads (·.Laid source room origin moved before) (eat expected) fun eaten state =>
      state.Laid source room origin (eaten || moved) before := by
  refine .look (fun _ => rfl) fun seen => .ite (fun isSeen => ?_) fun notSeen => ?_
  · refine .bind (leads_advance_mark.strengthen fun state holds => ⟨holds.1, ?_⟩) fun _ =>
      .pure fun _ laid => laid
    have same : state.current.kind = expected := eq_of_beq (holds.2.trans isSeen)
    rwa [same]
  · exact .pure fun _ holds => holds.1

theorem leads_eatMark (mark : Punctuator) :
    Leads (·.Laid source room origin moved before) (eatMark mark) fun eaten state =>
      state.Laid source room origin (eaten || moved) before :=
  leads_eat (.punctuator mark)

theorem leads_expect {expected : TokenKind} (solid : expected.IsSolid) :
    Leads (·.Laid source room origin moved before) (expect expected) fun met state =>
      met = true ∧ state.Laid source room origin true before := by
  refine .bind (leads_eat solid) fun eaten => .ite (fun isEaten => ?_) fun _ => ?_
  · subst isEaten
    exact .pure fun _ laid => ⟨rfl, laid⟩
  · exact .after_error (leads_reportExpected expected) (.pure _)

theorem leads_expectWord (word : Keyword) :
    Leads (·.Laid source room origin moved before) (expect (.keyword word)) fun _ state =>
      state.Laid source room origin true before :=
  (leads_expect (.keyword word)).weaken fun _ _ holds => holds.2

theorem leads_expectMark (mark : Punctuator) :
    Leads (·.Laid source room origin moved before) (expectMark mark) fun _ state =>
      state.Laid source room origin true before :=
  .bind (leads_expect (.punctuator mark)) fun _ => .pure fun _ holds => holds.2

/-- The last token is that of the name. -/
theorem leads_name :
    Leads (·.Laid source room origin moved before) name fun name state =>
      state.Laid source room origin true (before ++ [.name name]) ∧
        state.previousEnd = name.span.stop := by
  refine .look (fun _ => rfl) fun seen => .ite (fun isName => ?_) fun _ => ?_
  · have solid := TokenKind.IsSolid.of_isName isName
    have interned (text : String) :
        Leads (fun state => (state.Laid source room origin moved before ∧ state = seen) ∧
            state.current.text? = some text) (intern text)
          fun _ state => state.Laid source room origin moved before ∧ state.current.kind.IsSolid ∧
            (Outline.name ⟨text, seen.current.span⟩).span = state.current.span ∧
            (state.current.FitsIn source →
              (Outline.name ⟨text, seen.current.span⟩).IsPlacedIn source) := by
      refine leads_intern text fun state ⟨⟨laid, same⟩, found⟩ => ?_
      subst same
      refine ⟨laid.congr rfl rfl rfl, solid, rfl, fun fits => ?_⟩
      rcases fits.piece solid with ⟨piece, isText, isPiece⟩
      cases found.symm.trans isText
      exact .name isPiece
    exact leads_currentText fun text => .bind (interned text) fun _ =>
      .bind leads_advance_part fun _ => .pure fun _ holds => holds
  · have missing : Keeps GoesOn (do intern ""; return Name.mk "" seen.current.span) :=
      .bind (keeps_intern _) fun _ => .pure _
    exact .after_error (leads_reportCurrent _)
      (.ite (.bind keeps_currentText fun _ => missing) missing)

theorem adds_name : Adds source limit true name fun name => [.name name] :=
  fun _ _ _ _ _ => leads_name.weaken fun _ _ holds => holds.1

/-! ### Lists -/

section Lists

variable {item : Parser α}

/-- After an item that consumes a token none is skipped. -/
theorem Adds.progressing (adds : Adds source limit true item outlines) :
    Adds source limit true (progressing item) outlines := by
  refine AddsFrom.adds (.of_fresh fun first room within fewer => ?_)
  refine .look (fun _ => rfl) fun begun => ?_
  have runs := (adds room within first.current.span.start false []).fact (begun = first)
  refine .bind (runs.strengthen fun state holds => ⟨holds.1.2.1, holds.2.symm.trans holds.1.1⟩) ?_
  refine fun result => .look (fun _ => rfl) fun ended => .ite (fun isStuck => ?_) fun _ => ?_
  · refine .bind (leads_advance fun state ⟨⟨laid, isFirst⟩, isEnded⟩ => ?_) fun _ =>
      .pure fun _ laid => laid
    have consumed := (laid.consumed rfl).2
    have same := of_decide_eq_true (Bool.and_eq_true_iff.mp isStuck).1
    subst isFirst isEnded
    omega
  · exact .pure fun _ holds => holds.1.1

theorem Adds.itemsWithin (adds : Adds source limit true item outlines) (closing : Punctuator)
    (fuel : Nat) :
    Adds source limit false (itemsWithin closing item fuel)
      fun items => items.flatMap outlines := by
  induction fuel with
  | zero =>
      intro room within origin moved before
      exact .pure fun _ laid => by simpa using laid
  | succ fuel ih =>
      intro room within origin moved before
      refine .peek (fun _ => rfl) fun isAtEnd => .ite (fun _ => ?_) fun _ => ?_
      · exact .pure fun _ laid => by simpa using laid
      · refine .bind (adds.progressing.leads within) fun first => ?_
        refine .bind (ih.leads within) fun others => .pure fun _ laid => ?_
        simpa using laid.forget moved

/-- Items up to a closing token, which is consumed as well. -/
theorem Adds.itemsThrough (adds : Adds source limit true item outlines) (closing : Punctuator) :
    Adds source limit true (itemsThrough closing item) fun items => items.flatMap outlines := by
  intro room within origin moved before
  have items : Leads (·.Laid source room origin moved before) (itemsUntil closing item) _ :=
    .peek (fun _ => rfl) fun seen => (adds.itemsWithin closing _).leads within
  exact .bind items fun items => .bind (leads_expectMark closing) fun _ => .pure fun _ laid => laid

theorem Adds.optionalItems (adds : Adds source limit true item outlines)
    (opening closing : Punctuator) :
    Adds source limit false (optionalItems opening closing item)
      fun items => items.flatMap outlines := by
  intro room within origin moved before
  refine .bind (leads_eatMark opening) fun eaten => .ite (fun _ => ?_) fun notEaten => ?_
  · refine ((adds.itemsThrough closing).leads within).weaken fun items state laid => ?_
    exact laid.forget moved
  · rw [Bool.eq_false_iff.mpr notEaten]
    exact .pure fun _ laid => by simpa using laid

theorem Adds.furtherItems (adds : Adds source limit true item outlines) (separator : Punctuator)
    (fuel : Nat) :
    Adds source limit false (furtherItems separator item fuel)
      fun items => items.flatMap outlines := by
  induction fuel with
  | zero =>
      intro room within origin moved before
      exact .pure fun _ laid => by simpa using laid
  | succ fuel ih =>
      intro room within origin moved before
      refine .bind (leads_eatMark separator) fun eaten => .ite (fun _ => ?_) fun notEaten => ?_
      · refine .bind (adds.leads within) fun first => .bind (ih.leads within) fun others =>
          .pure fun state laid => ?_
        simpa using laid.forget moved
      · rw [Bool.eq_false_iff.mpr notEaten]
        exact .pure fun _ laid => by simpa using laid

/-- One or more items with a separator between them. -/
theorem Adds.separatedItems (adds : Adds source limit true item outlines) (separator : Punctuator) :
    Adds source limit true (separatedItems separator item) fun items => items.flatMap outlines := by
  intro room within origin moved before
  refine .bind (adds.leads within) fun first => .peek (fun _ => rfl) fun seen => ?_
  refine .bind ((adds.furtherItems separator _).leads within) fun others => .pure fun _ laid => ?_
  simpa using laid

theorem AddsFrom.leadItems {leading : Punctuator}
    (adds : AddsFrom (· = .punctuator leading) source limit true item outlines) (fuel : Nat) :
    Adds source limit false (leadItems leading item fuel) fun items => items.flatMap outlines := by
  induction fuel with
  | zero =>
      intro room within origin moved before
      exact .pure fun _ laid => by simpa using laid
  | succ fuel ih =>
      intro room within origin moved before
      refine .look (fun _ => rfl) fun isThere => .ite (fun isSeen => ?_) fun _ => ?_
      · refine .bind ((adds.leads within).strengthen fun state holds => ⟨holds.1, ?_⟩) fun first =>
          .bind (ih.leads within) fun others => .pure fun state laid => ?_
        · exact eq_of_beq (holds.2.trans isSeen)
        · simpa using laid.forget moved
      · exact .pure fun _ holds => by simpa using holds.1

theorem AddsFrom.repeatedItems {leading : Punctuator}
    (adds : AddsFrom (· = .punctuator leading) source limit true item outlines) :
    Adds source limit false (repeatedItems leading item) fun items => items.flatMap outlines := by
  intro room within origin moved before
  exact .peek (fun _ => rfl) fun seen => (adds.leadItems _).leads within

end Lists

end Placing

end Parser
end GraphQL
