import Mathlib.Data.String.Basic
import GraphQL.Proofs.Token.Layout

/-!
# Tokens tile their source

Unless a source ends in a backslash, its tokens stand one after another between its first byte and its
last, each for a piece of the source that is not empty, and the mark of the end stands where the
source ends. Nothing is lost between them: a byte outside every token belongs to a blank, a comma, a
byte order mark or a comment. The text of a finished token is scanned into that token again.

Whatever the source ends in, its tokens are in order, and one that is neither unfinished nor the mark
of the end stands for a piece of it, a punctuator for its sign.
-/

namespace GraphQL

/-- The byte at an offset is one of those from the start of the span up to its end. -/
def Span.Covers (span : Span) (offset : Nat) : Prop :=
  span.start ≤ offset ∧ offset < span.stop

namespace Token

/-! ## Gaps -/

/-- The character after `before` is ignored itself, or a comment before it has not ended there. -/
def IsSeparating (before : List Char) (c : Char) : Prop :=
  isIgnored c = true ∨ ∃ front text, before ++ [c] = front ++ '#' :: text ∧ '\n' ∉ text

theorem IsSeparating.cons {before : List Char} {c : Char} (separating : IsSeparating before c)
    (d : Char) : IsSeparating (d :: before) c := by
  rcases separating with ignored | ⟨front, text, same, single⟩
  · exact .inl ignored
  · exact .inr ⟨d :: front, text, by rw [List.cons_append, same]; rfl, single⟩

/-- Each character of a gap separates tokens, or it belongs to the comment that the gap starts in. -/
theorem separating_of_splitIgnored {inComment : Bool} {chars gap rest before after : List Char}
    {c : Char} (parts : splitIgnored inComment chars = (gap, rest))
    (cut : gap = before ++ c :: after) :
    IsSeparating before c ∨ inComment = true ∧ '\n' ∉ before ++ [c] := by
  fun_induction splitIgnored inComment chars generalizing gap before with
  | case1 =>
      cases parts
      simp at cut
  | case2 d others ignored left split ih =>
      cases parts
      cases before with
      | nil =>
          obtain ⟨rfl, -⟩ := List.cons.inj cut
          by_cases ends : d = '\n'
          · exact .inl (.inl (by rw [ends]; rfl))
          · exact .inr ⟨rfl, by simpa using Ne.symm ends⟩
      | cons e before =>
          obtain ⟨rfl, inner⟩ := List.cons.inj cut
          rcases ih split inner with separating | ⟨goesOn, single⟩
          · exact .inl (separating.cons d)
          · refine .inr ⟨rfl, ?_⟩
            rw [List.cons_append, List.mem_cons, not_or]
            exact ⟨Ne.symm (bne_iff_ne.mp goesOn), single⟩
  | case3 inComment d others outside isBlank ignored left split ih =>
      cases parts
      left
      cases before with
      | nil =>
          obtain ⟨rfl, -⟩ := List.cons.inj cut
          exact .inl isBlank
      | cons e before =>
          obtain ⟨rfl, inner⟩ := List.cons.inj cut
          rcases ih split inner with separating | ⟨inside, -⟩
          · exact separating.cons d
          · cases inside
  | case4 inComment others outside ignored left split notBlank ih =>
      cases parts
      left
      cases before with
      | nil =>
          obtain ⟨rfl, -⟩ := List.cons.inj cut
          exact .inr ⟨[], [], rfl, by simp⟩
      | cons e before =>
          obtain ⟨rfl, inner⟩ := List.cons.inj cut
          rcases ih split inner with separating | ⟨-, single⟩
          · exact separating.cons '#'
          · exact .inr ⟨[], before ++ [c], rfl, single⟩
  | case5 =>
      cases parts
      simp at cut

/-- The byte at an offset of a text that starts at `start` belongs to a character that separates
tokens. A comment counts if it starts outside the tokens. -/
def IsSkipped (start : Nat) (chars : List Char) (tokens : List Token) (offset : Nat) : Prop :=
  ∃ before c after, chars = before ++ c :: after ∧
    start + byteSize before ≤ offset ∧ offset < start + byteSize before + c.utf8Size ∧
    (isIgnored c = true ∨
      ∃ front text, before ++ [c] = front ++ '#' :: text ∧ '\n' ∉ text ∧
        ∀ token ∈ tokens, ¬ token.span.Covers (start + byteSize front))

/-- Each byte of a text belongs to a character. -/
theorem exists_char_at {chars : List Char} {offset : Nat} (inside : offset < byteSize chars) :
    ∃ before c after, chars = before ++ c :: after ∧ byteSize before ≤ offset ∧
      offset < byteSize before + c.utf8Size := by
  induction chars generalizing offset with
  | nil => exact absurd inside (Nat.not_lt_zero _)
  | cons c chars ih =>
      rw [byteSize_cons] at inside
      by_cases first : offset < c.utf8Size
      · exact ⟨[], c, chars, rfl, Nat.zero_le _, by simpa [byteSize] using first⟩
      · have later : offset - c.utf8Size < byteSize chars := by omega
        rcases ih later with ⟨before, d, after, rfl, starts, stops⟩
        refine ⟨c :: before, d, after, rfl, ?_, ?_⟩
        · rw [byteSize_cons]
          omega
        · rw [byteSize_cons]
          omega

/-- The bytes of a gap before all tokens are skipped. -/
theorem isSkipped_of_gap {start offset : Nat} {chars gap rest : List Char} {tokens : List Token}
    (parts : splitIgnored false chars = (gap, rest)) (reached : start ≤ offset)
    (inside : offset < start + byteSize gap)
    (later : ∀ token ∈ tokens, start + byteSize gap ≤ token.span.start) :
    IsSkipped start (gap ++ rest) tokens offset := by
  have inGap : offset - start < byteSize gap := by omega
  rcases exists_char_at inGap with ⟨before, c, after, rfl, starts, stops⟩
  refine ⟨before, c, after ++ rest, by simp, by omega, by omega, ?_⟩
  rcases separating_of_splitIgnored parts rfl with (ignored | ⟨front, text, same, single⟩) | ⟨⟨⟩, -⟩
  · exact .inl ignored
  · refine .inr ⟨front, text, same, single, ?_⟩
    intro token member covers
    have starts := later token member
    have sizes := congrArg byteSize same
    have hash : 0 < '#'.utf8Size := Char.utf8Size_pos _
    have nothing : byteSize [] = 0 := rfl
    have covered := covers.1
    simp only [byteSize_append, byteSize_cons, nothing] at sizes starts
    omega

/-- What is skipped behind a token is skipped in the whole text. -/
theorem IsSkipped.behind {start offset : Nat} {front rest : List Char} {token : Token}
    {tokens : List Token} (skipped : IsSkipped (start + byteSize front) rest tokens offset)
    (stops : token.span.stop ≤ start + byteSize front) :
    IsSkipped start (front ++ rest) (token :: tokens) offset := by
  rcases skipped with ⟨before, c, after, rfl, reached, inside, separates⟩
  refine ⟨front ++ before, c, after, by simp, ?_, ?_, ?_⟩
  · rw [byteSize_append]
    omega
  · rw [byteSize_append]
    omega
  rcases separates with ignored | ⟨outer, text, comment, single, outside⟩
  · exact .inl ignored
  · refine .inr ⟨front ++ outer, text, by simp [comment], single, ?_⟩
    intro other member covers
    rw [byteSize_append, ← Nat.add_assoc] at covers
    rcases List.mem_cons.mp member with rfl | member
    · have before := covers.2
      omega
    · exact outside other member covers

/-! ## Tiles -/

/-- The token that a lexeme is, wherever it starts. -/
def ofLexeme (offset : Nat) (lexeme : Lexeme) : Token where
  kind := lexeme.kind
  span := ⟨offset, offset + byteSize lexeme.chars⟩
  text? := some (String.ofList lexeme.chars)

theorem stop_ofLexeme (offset : Nat) (gap : List Char) (lexeme : Lexeme) :
    (ofLexeme (offset + byteSize gap) lexeme).span.stop =
      offset + byteSize (gap ++ lexeme.chars) := by
  rw [byteSize_append, ← Nat.add_assoc]
  rfl

/-- The mark of the end at an offset. -/
def endAt (offset : Nat) : Token where
  kind := .endOfInput
  span := ⟨offset, offset⟩
  text? := some ""

/-- A text that starts at an offset and the tokens it consists of, with gaps before the tokens and
behind the last. -/
inductive Tiles : Nat → List Char → List Token → Prop
  | done {offset : Nat} {gap : List Char} : splitIgnored false gap = (gap, []) → Tiles offset gap []
  | token {offset : Nat} {gap rest : List Char} {c : Char} {tokens : List Token} :
      splitIgnored false (gap ++ c :: rest) = (gap, c :: rest) →
      (scanLexeme c rest).pastEnd = false →
      Tiles (offset + byteSize gap + byteSize (scanLexeme c rest).chars) (scanLexeme c rest).rest
        tokens →
      Tiles offset (gap ++ c :: rest) (ofLexeme (offset + byteSize gap) (scanLexeme c rest) :: tokens)

/-- Scanning tiles a text that does not end in a backslash. -/
theorem scanFrom_eq_tiles {offset : Nat} {chars : List Char} (closed : chars.getLast? ≠ some '\\') :
    ∃ tokens, scanFrom offset chars = tokens ++ [endAt (offset + byteSize chars)] ∧
      Tiles offset chars tokens := by
  fun_induction scanFrom offset chars with
  | case1 offset chars gap parts stop =>
      have whole := splitIgnored_append false chars
      rw [parts, List.append_nil] at whole
      subst whole
      exact ⟨[], rfl, .done parts⟩
  | case2 offset chars gap c rest parts start lexeme size pastEnd stop =>
      -- Such a string would have taken a backslash at the end of the text.
      have whole := splitIgnored_append false chars
      rw [parts] at whole
      rcases string_of_pastEnd pastEnd with ⟨-, pastEnd⟩
      rcases scanString_of_pastEnd pastEnd with ⟨-, isBackslash⟩
      refine absurd ?_ closed
      simp [← whole, List.getLast?_append, List.getLast?_cons, isBackslash]
  | case3 offset chars gap c rest parts start lexeme size finished ih =>
      have whole := splitIgnored_append false chars
      rw [parts] at whole
      subst whole
      have lexed : lexeme.chars ++ lexeme.rest = c :: rest := scanLexeme_append c rest
      have sizes := congrArg byteSize lexed
      rw [byteSize_append] at sizes
      have closedRest : lexeme.rest.getLast? ≠ some '\\' := by
        intro isBackslash
        apply closed
        simp [← lexed, List.getLast?_append, isBackslash]
      rcases ih closedRest with ⟨tokens, scanned, tiles⟩
      refine ⟨_, ?_, .token parts (Bool.eq_false_iff.mpr finished) tiles⟩
      rw [scanned, byteSize_append, ← sizes]
      simp only [start, size, Nat.add_assoc, ofLexeme, List.cons_append]
      rfl

variable {offset place : Nat} {chars : List Char} {tokens : List Token} {token : Token}

theorem byteSize_chars_pos (c : Char) (rest : List Char) :
    0 < byteSize (scanLexeme c rest).chars := by
  rcases exists_chars_scanLexeme c rest with ⟨tail, chars⟩
  have first := c.utf8Size_pos
  rw [chars, byteSize_cons]
  omega

namespace Tiles

theorem le_start (tiles : Tiles offset chars tokens) (member : token ∈ tokens) :
    offset ≤ token.span.start := by
  induction tiles with
  | done => cases member
  | token parts finished tiles ih =>
      rcases List.mem_cons.mp member with rfl | member
      · exact Nat.le_add_right _ _
      · have later := ih member
        omega

theorem inner (tiles : Tiles offset chars tokens) (member : token ∈ tokens) :
    token.kind ≠ .endOfInput := by
  induction tiles with
  | done => cases member
  | @token _ _ rest c _ parts finished tiles ih =>
      rcases List.mem_cons.mp member with rfl | member
      · exact kind_scanLexeme_ne c rest
      · exact ih member

theorem nonempty (tiles : Tiles offset chars tokens) (member : token ∈ tokens) :
    token.span.start < token.span.stop := by
  induction tiles with
  | done => cases member
  | @token _ _ rest c _ parts finished tiles ih =>
      rcases List.mem_cons.mp member with rfl | member
      · exact Nat.lt_add_of_pos_right (byteSize_chars_pos c rest)
      · exact ih member

theorem disjoint (tiles : Tiles offset chars tokens) :
    tokens.Pairwise fun first second => first.span.stop ≤ second.span.start := by
  induction tiles with
  | done => exact .nil
  | token parts finished tiles ih => exact .cons (fun _ member => tiles.le_start member) ih

theorem isPiece (tiles : Tiles offset chars tokens) (member : token ∈ tokens) (before : List Char)
    (starts : byteSize before = offset) :
    ∃ text, token.text? = some text ∧ token.span.IsPiece (before ++ chars) text.toList := by
  induction tiles generalizing before with
  | done => cases member
  | @token offset gap rest c tokens parts finished tiles ih =>
      have lexed := scanLexeme_append c rest
      rcases List.mem_cons.mp member with rfl | member
      · refine ⟨_, rfl, before ++ gap, (scanLexeme c rest).rest, ?_, ?_⟩
        · simp [← lexed]
        · simp [ofLexeme, ← starts, byteSize_append, Nat.add_assoc]
      · rcases ih member (before ++ gap ++ (scanLexeme c rest).chars)
          (by simp [← starts, byteSize_append, Nat.add_assoc]) with ⟨text, found, piece⟩
        exact ⟨text, found, by simpa [lexed] using piece⟩

/-- A byte outside the tokens is skipped. -/
theorem isSkipped (tiles : Tiles offset chars tokens) (reached : offset ≤ place)
    (inside : place < offset + byteSize chars)
    (uncovered : ∀ token ∈ tokens, ¬ token.span.Covers place) :
    IsSkipped offset chars tokens place := by
  induction tiles with
  | @done offset gap parts =>
      have skipped : IsSkipped offset (gap ++ []) [] place :=
        isSkipped_of_gap parts reached inside (by simp)
      rwa [List.append_nil] at skipped
  | @token offset gap rest c tokens parts finished tiles ih =>
      have lexed := scanLexeme_append c rest
      have sizes := congrArg byteSize lexed
      rw [byteSize_append] at sizes
      rw [byteSize_append] at inside
      by_cases inGap : place < offset + byteSize gap
      · refine isSkipped_of_gap parts reached inGap fun token member => ?_
        rcases List.mem_cons.mp member with rfl | member
        · exact Nat.le_refl _
        · have later := tiles.le_start member
          omega
      have behind : offset + byteSize gap + byteSize (scanLexeme c rest).chars ≤ place := by
        by_contra inLexeme
        exact uncovered _ List.mem_cons_self ⟨by simpa [ofLexeme] using inGap,
          by simpa [ofLexeme] using inLexeme⟩
      have later := ih behind (by omega) fun token member =>
        uncovered token (List.mem_cons_of_mem _ member)
      rw [Nat.add_assoc, ← byteSize_append] at later
      have whole := later.behind (Nat.le_of_eq (stop_ofLexeme offset gap (scanLexeme c rest)))
      rwa [List.append_assoc, lexed] at whole

end Tiles

/-! ## Scanning the text of a token -/

/-- A finished lexeme is all that its text is scanned into. -/
theorem scan_ofList_chars {c : Char} {rest gap whole : List Char}
    (parts : splitIgnored false whole = (gap, c :: rest))
    (finished : (scanLexeme c rest).pastEnd = false) (valid : (scanLexeme c rest).kind ≠ .invalid) :
    scan (String.ofList (scanLexeme c rest).chars) =
      [ofLexeme 0 (scanLexeme c rest), endAt (byteSize (scanLexeme c rest).chars)] := by
  have nothing : Breaks [] := fun c first => by cases first
  rcases scanLexeme_before valid (.inl nothing) with ⟨tail, chars, again⟩
  rw [List.append_nil] at again
  rcases kept_of_splitIgnored parts with ⟨kept, noComment⟩
  rw [scan, String.toList_ofList, chars,
    scanFrom_lexeme kept noComment (by rw [again]; exact finished), again, scanFrom_nil, chars,
    Nat.zero_add]
  simp [ofLexeme, endAt, chars]

theorem Tiles.rescans (tiles : Tiles offset chars tokens) (member : token ∈ tokens)
    (valid : token.kind ≠ .invalid) {text : String} (found : token.text? = some text) :
    scan text = [{ token with span := ⟨0, byteSize text.toList⟩ }, endAt (byteSize text.toList)] := by
  induction tiles with
  | done => cases member
  | @token offset gap rest c tokens parts finished tiles ih =>
      rcases List.mem_cons.mp member with rfl | member
      · cases found
        rw [scan_ofList_chars parts finished valid, String.toList_ofList]
        simp [ofLexeme]
      · exact ih member

/-! ## Sources -/

theorem byteSize_toList (source : String) : byteSize source.toList = source.utf8ByteSize := by
  have sizes (chars : List Char) : byteSize chars = String.utf8Len chars := by
    induction chars with
    | nil => rfl
    | cons c chars ih => rw [byteSize_cons, ih, String.utf8Len_cons, Nat.add_comm]
  rw [sizes, ← String.utf8ByteSize_ofList, String.ofList_toList]

/-- The tokens before the mark of the end tile a source. -/
structure Tiling (source : String) (tokens : List Token) : Prop where
  /-- The end is marked behind the tokens only. -/
  inner : ∀ token ∈ tokens, token.kind ≠ .endOfInput
  nonempty : ∀ token ∈ tokens, token.span.start < token.span.stop
  /-- Each token ends before the next one starts. -/
  disjoint : tokens.Pairwise fun first second => first.span.stop ≤ second.span.start
  /-- Tokens start and stop between characters of the source. -/
  pieces : ∀ token ∈ tokens, ∃ text, token.text? = some text ∧
    token.span.IsPiece source.toList text.toList
  /-- What is outside the tokens separates them. -/
  gaps : ∀ offset < source.utf8ByteSize, (∀ token ∈ tokens, ¬ token.span.Covers offset) →
    IsSkipped 0 source.toList tokens offset
  /-- The text of a finished token is scanned into that token. -/
  rescans : ∀ token ∈ tokens, token.kind ≠ .invalid → ∀ text, token.text? = some text →
    scan text =
      [{ token with span := ⟨0, text.utf8ByteSize⟩ }, endAt text.utf8ByteSize]

theorem scan_tiles {source : String} (closed : source.toList.getLast? ≠ some '\\') :
    ∃ tokens, scan source = tokens ++ [endAt source.utf8ByteSize] ∧ Tiling source tokens := by
  rcases @scanFrom_eq_tiles 0 _ closed with ⟨tokens, scanned, tiles⟩
  rw [Nat.zero_add, byteSize_toList] at scanned
  refine ⟨tokens, scanned, ?_⟩
  constructor
  · exact fun token member => tiles.inner member
  · exact fun token member => tiles.nonempty member
  · exact tiles.disjoint
  · exact fun token member => tiles.isPiece member [] rfl
  · intro offset inside uncovered
    rw [← byteSize_toList, ← Nat.zero_add (byteSize _)] at inside
    exact tiles.isSkipped (Nat.zero_le _) inside uncovered
  · intro token member valid text found
    rw [← byteSize_toList]
    exact tiles.rescans member valid found

namespace Remarks

/-- A mark, a comment with a backslash, a string with an escaped quote, and a stray character. -/
def source : String :=
  "\ufeff\x7ba(b:\"é\\\"\")# \\\n,…"

theorem tiled : source.toList.getLast? ≠ some '\\' ∧
    ∃ tokens, scan source = tokens ++ [endAt source.utf8ByteSize] ∧ Tiling source tokens := by
  have closed : source.toList.getLast? ≠ some '\\' := by decide +kernel
  exact ⟨closed, scan_tiles closed⟩

end Remarks

end Token

/-! ## Pieces behind each other -/

namespace Span.IsPiece

variable {span later : Span} {source text other : List Char}

theorem stop_le (piece : span.IsPiece source text) :
    span.start ≤ span.stop ∧ span.stop ≤ Token.byteSize source := by
  rcases piece with ⟨before, after, rfl, rfl⟩
  simp only [Token.byteSize_append]
  omega

/-- Two pieces, one behind the other, and what stands between them. -/
theorem through (piece : span.IsPiece source text) (isLater : later.IsPiece source other)
    (behind : span.stop ≤ later.start) :
    ∃ gap, Span.IsPiece ⟨span.start, later.stop⟩ source (text ++ (gap ++ other)) := by
  rcases piece with ⟨before, after, cut, rfl⟩
  rcases isLater with ⟨front, rest, otherCut, rfl⟩
  have split : ∃ gap, front = before ++ text ++ gap := by
    have same : before ++ text ++ after = front ++ (other ++ rest) := by
      rw [← cut, otherCut, List.append_assoc]
    rcases List.append_eq_append_iff.mp same with ⟨gap, isFront, -⟩ | ⟨overlap, isFront, -⟩
    · exact ⟨gap, isFront⟩
    · have size := congrArg Token.byteSize isFront
      rw [Token.byteSize_append front] at size
      have most : Token.byteSize (before ++ text) ≤ Token.byteSize front := behind
      refine ⟨[], (List.append_nil _).symm ▸ (Token.append_inj_of_byteSize same ?_).1.symm⟩
      omega
  rcases split with ⟨gap, rfl⟩
  refine ⟨gap, before, rest, ?_, ?_⟩
  · rw [otherCut]
    simp only [List.append_assoc]
  · simp only [List.append_assoc]

end Span.IsPiece

/-- The token is neither the end of the input nor a mistake. -/
def TokenKind.IsSolid (kind : TokenKind) : Prop :=
  kind ≠ .invalid ∧ kind ≠ .endOfInput

instance (kind : TokenKind) : Decidable kind.IsSolid :=
  inferInstanceAs (Decidable (_ ∧ _))

namespace TokenKind.IsSolid

theorem punctuator (mark : Punctuator) : (TokenKind.punctuator mark).IsSolid := by
  simp [IsSolid]

theorem keyword (word : Keyword) : (TokenKind.keyword word).IsSolid := by
  simp [IsSolid]

theorem of_isName {kind : TokenKind} (isName : kind.isName = true) : kind.IsSolid := by
  constructor <;> rintro rfl <;> cases isName

end TokenKind.IsSolid

namespace Token

/-- The token lies forward, and if it is solid, its text is a piece of the source. A punctuator has
its sign as a text. -/
structure FitsIn (source : List Char) (token : Token) : Prop where
  forward : token.span.start ≤ token.span.stop
  piece : token.kind.IsSolid →
    ∃ text, token.text? = some text ∧ token.span.IsPiece source text.toList
  sign : ∀ mark, token.kind = .punctuator mark → token.text? = some mark.text

/-! ## Signs -/

theorem eq_of_punctuator? {c : Char} {mark : Punctuator} (isMark : punctuator? c = some mark) :
    [c] = mark.text.toList := by
  unfold punctuator? at isMark
  split at isMark <;> cases isMark <;> rfl

theorem chars_of_mark {c : Char} {rest : List Char} {mark : Punctuator}
    (isMark : (scanLexeme c rest).kind = .punctuator mark) :
    (scanLexeme c rest).chars = mark.text.toList := by
  have contradicts {kind : TokenKind} (wordless : isWordless kind = true) :
      kind ≠ .punctuator mark := by
    rintro rfl
    cases wordless
  unfold scanLexeme at isMark ⊢
  split at isMark
  · rename_i single
    cases isMark
    exact eq_of_punctuator? single
  · split at isMark
    · rename_i isPoint
      rw [if_pos isPoint]
      split at isMark
      · cases isMark
        rfl
      · cases isMark
    · split at isMark
      · split at isMark
        · exact absurd isMark (contradicts (isWordless_scanBlockString _))
        · exact absurd isMark (contradicts (isWordless_scanString _))
      · split at isMark
        · exact absurd isMark (contradicts (isWordless_scanNumber _))
        · split at isMark
          · simp only [scanWord, wordKind] at isMark
            split at isMark <;> cases isMark
          · cases isMark

/-! ## The order of tokens -/

theorem le_start_of_mem_scanFrom {offset : Nat} {chars : List Char} {token : Token}
    (member : token ∈ scanFrom offset chars) : offset ≤ token.span.start := by
  fun_induction scanFrom offset chars with
  | case1 =>
      cases List.mem_singleton.mp member
      exact Nat.le_add_right _ _
  | case2 offset chars gap c rest parts start lexeme size pastEnd stop =>
      simp only [List.mem_cons, List.not_mem_nil, or_false] at member
      rcases member with rfl | rfl
      · exact Nat.le_add_right _ _
      · simp only [stop, start]
        omega
  | case3 offset chars gap c rest parts start lexeme size finished ih =>
      rcases List.mem_cons.mp member with rfl | member
      · exact Nat.le_add_right _ _
      · have later := ih member
        simp only [start] at later
        omega

theorem scanFrom_ordered (offset : Nat) (chars : List Char) :
    (scanFrom offset chars).Pairwise fun first second => first.span.stop ≤ second.span.start := by
  fun_induction scanFrom offset chars with
  | case1 => exact List.pairwise_singleton _ _
  | case2 => exact List.pairwise_pair.mpr (Nat.le_refl _)
  | case3 offset chars gap c rest parts start lexeme size finished ih =>
      exact .cons (fun _ member => le_start_of_mem_scanFrom member) ih

theorem fitsIn_of_mem_scan {source : String} {token : Token} (member : token ∈ scan source) :
    token.FitsIn source.toList := by
  have shape {offset : Nat} {chars : List Char} (member : token ∈ scanFrom offset chars) :
      token.span.start ≤ token.span.stop ∧
        ∀ mark, token.kind = .punctuator mark → token.text? = some mark.text := by
    fun_induction scanFrom offset chars with
    | case1 =>
        cases List.mem_singleton.mp member
        exact ⟨Nat.le_refl _, fun mark isMark => by cases isMark⟩
    | case2 offset chars gap c rest parts start lexeme size pastEnd stop =>
        simp only [List.mem_cons, List.not_mem_nil, or_false] at member
        rcases member with rfl | rfl
        · refine ⟨Nat.le_add_right_of_le (Nat.le_add_right _ _), fun mark isMark => ?_⟩
          cases (kind_of_pastEnd pastEnd).symm.trans isMark
        · exact ⟨Nat.le_refl _, fun mark isMark => by cases isMark⟩
    | case3 offset chars gap c rest parts start lexeme size finished ih =>
        rcases List.mem_cons.mp member with rfl | member
        · refine ⟨Nat.le_add_right _ _, fun mark isMark => ?_⟩
          rw [chars_of_mark isMark, String.ofList_toList]
        · exact ih member
  rcases shape member with ⟨forward, sign⟩
  refine ⟨forward, fun solid => ?_, sign⟩
  rcases isInside_of_mem_scan member with inside | ⟨noText, -, -⟩
  · exact inside
  · exact absurd noText (text?_of_mem_scanFrom member solid.2 solid.1)

theorem head_scanFrom_le {offset : Nat} {chars : List Char} {token : Token} {rest : List Token}
    (scanned : scanFrom offset chars = token :: rest) :
    token.span.start ≤ offset + byteSize chars := by
  have whole := congrArg byteSize (splitIgnored_append false chars)
  rw [byteSize_append] at whole
  have start : token.span.start = offset + byteSize (splitIgnored false chars).1 := by
    fun_induction scanFrom offset chars with
    | case1 offset chars gap parts stop =>
        cases scanned
        rw [parts]
    | case2 offset chars gap c others parts start lexeme size pastEnd stop =>
        cases scanned
        rw [parts]
    | case3 offset chars gap c others parts start lexeme size finished ih =>
        cases scanned
        rw [parts]
  omega

end Token

end GraphQL
