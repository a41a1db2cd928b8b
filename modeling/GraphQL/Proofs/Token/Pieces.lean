import GraphQL.Proofs.Token.Lexing

/-!
# Tokens as pieces of their source

Scanning loses no character, so the span of a token starts and stops between characters of the
source and the text of the token is what stands between. Only a string that is not finished and ends
in a backslash reaches past the end of the source, and so does the mark of the end after it.
-/

namespace GraphQL

/-- The span starts and stops between characters, and the text stands between them. -/
def Span.IsPiece (span : Span) (source text : List Char) : Prop :=
  ∃ before after, source = before ++ text ++ after ∧
    span = ⟨Token.byteSize before, Token.byteSize (before ++ text)⟩

namespace Token

/-! ## Scanning loses no character -/

theorem splitIgnored_append (inComment : Bool) (chars : List Char) :
    (splitIgnored inComment chars).1 ++ (splitIgnored inComment chars).2 = chars := by
  fun_induction splitIgnored inComment chars <;> simp_all

theorem scanString_append (chars : List Char) :
    (scanString chars).chars ++ (scanString chars).rest = chars := by
  fun_induction scanString chars <;> simp_all [Lexeme.push]

theorem scanBlockString_append (chars : List Char) :
    (scanBlockString chars).chars ++ (scanBlockString chars).rest = chars := by
  fun_induction scanBlockString chars <;> simp_all [Lexeme.push]

/-- A sign that may stand at the front. -/
theorem filter_take_append_drop (isSign : Char → Bool) (chars : List Char) :
    (chars.take 1).filter isSign ++ chars.drop ((chars.take 1).filter isSign).length = chars := by
  cases chars with
  | nil => rfl
  | cons c rest => cases signed : isSign c <;> simp [signed]

theorem scanExponent_append (kind : TokenKind) (chars : List Char) :
    (scanExponent kind chars).chars ++ (scanExponent kind chars).rest = chars := by
  unfold scanExponent
  split
  · rfl
  · split
    · simp only [List.cons_append, List.append_assoc, List.takeWhile_append_dropWhile,
        filter_take_append_drop]
    · rfl

theorem scanFraction_append (chars : List Char) :
    (scanFraction chars).chars ++ (scanFraction chars).rest = chars := by
  unfold scanFraction
  split
  · split
    · simp only [List.drop_succ_cons, List.drop_zero, List.cons_append, List.append_assoc,
        scanExponent_append, List.takeWhile_append_dropWhile]
    · exact scanExponent_append _ _
  · exact scanExponent_append _ _

theorem scanNumber_append_rest (chars : List Char) :
    (scanNumber chars).chars ++ (scanNumber chars).rest = chars := by
  unfold scanNumber
  dsimp only
  split
  · exact filter_take_append_drop _ _
  · simp only [List.append_assoc, scanFraction_append, List.takeWhile_append_dropWhile,
      filter_take_append_drop]

theorem scanLexeme_append (c : Char) (rest : List Char) :
    (scanLexeme c rest).chars ++ (scanLexeme c rest).rest = c :: rest := by
  unfold scanLexeme
  split
  · rfl
  · split
    · rename_i isPoint
      split
      · rw [isPoint]
        rfl
      · rfl
    · split
      · rename_i isQuote
        split
        · simp [Lexeme.push, scanBlockString_append]
        · simp [Lexeme.push, scanString_append]
      · split
        · exact scanNumber_append_rest _
        · split
          · exact List.takeWhile_append_dropWhile
          · rfl

/-! ## Reaching past the end -/

/-- A string that reaches past the end has taken the backslash there. -/
theorem scanString_of_pastEnd {chars : List Char} (pastEnd : (scanString chars).pastEnd = true) :
    (scanString chars).rest = [] ∧ chars.getLast? = some '\\' := by
  fun_induction scanString chars with
  | case1 => cases pastEnd
  | case2 => cases pastEnd
  | case3 => exact ⟨rfl, rfl⟩
  | case4 c rest ih =>
      rcases ih pastEnd with ⟨isEnd, isBackslash⟩
      exact ⟨isEnd, by simp [List.getLast?_cons, isBackslash]⟩
  | case5 => cases pastEnd
  | case6 c rest noQuote notLast notEscaping noFeed ih =>
      rcases ih pastEnd with ⟨isEnd, isBackslash⟩
      exact ⟨isEnd, by simp [List.getLast?_cons, isBackslash]⟩

/-! ## Tokens of a source -/

/-- A token stands for a piece of the source, or it reaches one byte past the end of a source that
ends in a backslash. -/
def IsInside (source : List Char) (token : Token) : Prop :=
  (∃ text, token.text? = some text ∧ token.span.IsPiece source text.toList) ∨
    token.text? = none ∧ token.span.stop = byteSize source + 1 ∧ source.getLast? = some '\\'

theorem isInside_of_mem_scanFrom {offset : Nat} {chars : List Char} {token : Token}
    (member : token ∈ scanFrom offset chars) :
    ∀ before, byteSize before = offset → token.IsInside (before ++ chars) := by
  fun_induction scanFrom offset chars with
  | case1 offset chars ignored parts stop =>
      intro before starts
      have same := splitIgnored_append false chars
      rw [parts, List.append_nil] at same
      cases List.mem_singleton.mp member
      refine .inl ⟨"", rfl, before ++ ignored, [], ?_, ?_⟩
      · simp [← same]
      · simp [stop, ← starts, byteSize_append]
  | case2 offset chars ignored c rest parts start lexeme size pastEnd stop =>
      intro before starts
      have same := splitIgnored_append false chars
      have whole : lexeme.chars ++ lexeme.rest = c :: rest := scanLexeme_append c rest
      rcases string_of_pastEnd pastEnd with ⟨isString, pastEnd⟩
      rcases scanString_of_pastEnd pastEnd with ⟨atEnd, isBackslash⟩
      have nothing : lexeme.rest = [] := by rw [show lexeme = _ from isString]; exact atEnd
      rw [parts, ← whole, nothing, List.append_nil] at same
      have ends : stop = byteSize (before ++ chars) + 1 := by
        simp only [stop, size, start, ← same, byteSize_append, ← starts]
        omega
      have last : (before ++ chars).getLast? = some '\\' := by
        have closing : (c :: rest).getLast? = some '\\' := by simp [List.getLast?_cons, isBackslash]
        rw [← whole, nothing, List.append_nil] at closing
        simp [← same, List.getLast?_append, closing]
      simp only [List.mem_cons, List.not_mem_nil, or_false] at member
      rcases member with rfl | rfl
      · exact .inr ⟨rfl, ends, last⟩
      · exact .inr ⟨rfl, ends, last⟩
  | case3 offset chars ignored c rest parts start lexeme size pastEnd ih =>
      intro before starts
      have same := splitIgnored_append false chars
      have whole : lexeme.chars ++ lexeme.rest = c :: rest := scanLexeme_append c rest
      rw [parts, ← whole] at same
      rcases List.mem_cons.mp member with rfl | member
      · refine .inl ⟨_, rfl, before ++ ignored, lexeme.rest, ?_, ?_⟩
        · simp [← same]
        · simp [size, start, ← starts, byteSize_append, Nat.add_assoc]
      · have inside := ih member (before ++ ignored ++ lexeme.chars)
          (by simp [size, start, ← starts, byteSize_append, Nat.add_assoc])
        simpa [← same] using inside

theorem isInside_of_mem_scan {source : String} {token : Token} (member : token ∈ scan source) :
    token.IsInside source.toList :=
  isInside_of_mem_scanFrom member [] rfl

end Token
end GraphQL
