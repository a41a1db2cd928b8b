import GraphQL.Token.Scanner

/-!
# Tokens for words

A token that can stand for a name has the text of a word: it starts like a name and goes on like
one, and its kind is that of the word. No other lexeme can stand for a name.
-/

namespace GraphQL
namespace Token

/-- A token that can stand for a name is a word of its kind. -/
def IsWord (token : Token) : Prop :=
  token.kind.isName = true → ∀ text, token.text? = some text →
    token.kind = wordKind text ∧ text.toList.all isNameContinue = true ∧
      text.toList.head?.any isNameStart = true

/-- A number or a string, or a lexeme that is neither finished nor known. -/
def isWordless : TokenKind → Bool
  | .invalid => true
  | .int => true
  | .float => true
  | .string => true
  | .blockString => true
  | _ => false

theorem isName_of_isWordless {kind : TokenKind} (wordless : isWordless kind = true) :
    kind.isName = false := by
  cases kind <;> first | rfl | cases wordless

theorem isWordless_scanString (chars : List Char) :
    isWordless (scanString chars).kind = true := by
  fun_induction scanString chars <;> simp_all [Lexeme.push, isWordless]

theorem isWordless_scanBlockString (chars : List Char) :
    isWordless (scanBlockString chars).kind = true := by
  fun_induction scanBlockString chars <;> simp_all [Lexeme.push, isWordless]

theorem isWordless_scanExponent {kind : TokenKind} (isNumber : isWordless kind = true)
    (chars : List Char) : isWordless (scanExponent kind chars).kind = true := by
  unfold scanExponent
  split
  · exact isNumber
  · split
    · simp only
      split <;> rfl
    · exact isNumber

theorem isWordless_scanFraction (chars : List Char) :
    isWordless (scanFraction chars).kind = true := by
  unfold scanFraction
  split
  · split
    · exact isWordless_scanExponent rfl _
    · exact isWordless_scanExponent rfl _
  · exact isWordless_scanExponent rfl _

theorem isWordless_scanNumber (chars : List Char) : isWordless (scanNumber chars).kind = true := by
  unfold scanNumber
  simp only
  split
  · rfl
  · exact isWordless_scanFraction _

theorem isNameContinue_of_isNameStart {c : Char} (starts : isNameStart c = true) :
    isNameContinue c = true := by
  rcases (Bool.or_eq_true _ _).mp starts with alpha | underscore
  · exact (Bool.or_eq_true _ _).mpr (.inl ((Bool.or_eq_true _ _).mpr (.inl alpha)))
  · exact (Bool.or_eq_true _ _).mpr (.inr underscore)

/-- A lexeme is a punctuator, a word, or neither of them. -/
theorem scanLexeme_cases (c : Char) (rest : List Char) :
    (∃ mark, (scanLexeme c rest).kind = .punctuator mark) ∨
      isWordless (scanLexeme c rest).kind = true ∨
      isNameStart c = true ∧ scanLexeme c rest = scanWord (c :: rest) := by
  unfold scanLexeme
  split
  · exact .inl ⟨_, rfl⟩
  · split
    · split
      · exact .inl ⟨_, rfl⟩
      · exact .inr (.inl rfl)
    · split
      · split
        · exact .inr (.inl (isWordless_scanBlockString _))
        · exact .inr (.inl (isWordless_scanString _))
      · split
        · exact .inr (.inl (isWordless_scanNumber _))
        · split
          · exact .inr (.inr ⟨‹_›, rfl⟩)
          · exact .inr (.inl rfl)

/-- A lexeme that can stand for a name is a word. -/
theorem word_of_scanLexeme {c : Char} {rest : List Char}
    (isName : (scanLexeme c rest).kind.isName = true) :
    isNameStart c = true ∧ scanLexeme c rest = scanWord (c :: rest) := by
  rcases scanLexeme_cases c rest with ⟨mark, isMark⟩ | wordless | word
  · cases isMark ▸ isName
  · cases (isName_of_isWordless wordless).symm.trans isName
  · exact word

/-- No lexeme ends the input. -/
theorem kind_scanLexeme_ne (c : Char) (rest : List Char) :
    (scanLexeme c rest).kind ≠ .endOfInput := by
  intro isEnd
  rcases scanLexeme_cases c rest with ⟨mark, isMark⟩ | wordless | ⟨_, word⟩
  · cases isMark.symm.trans isEnd
  · cases isEnd ▸ wordless
  · rw [word, scanWord, wordKind] at isEnd
    simp only at isEnd
    split at isEnd <;> cases isEnd

theorem isWord_of_mem_scanFrom {offset : Nat} {chars : List Char} {token : Token}
    (member : token ∈ scanFrom offset chars) : token.IsWord := by
  fun_induction scanFrom offset chars with
  | case1 offset chars ignored parts stop =>
      cases List.mem_singleton.mp member
      intro isName
      cases isName
  | case2 offset chars ignored c rest parts start lexeme size pastEnd stop =>
      simp only [List.mem_cons, List.not_mem_nil, or_false] at member
      rcases member with rfl | rfl <;> intro isName text found <;> cases found
  | case3 offset chars ignored c rest parts start lexeme size pastEnd ih =>
      rcases List.mem_cons.mp member with rfl | member
      · intro isName text found
        cases found
        rcases word_of_scanLexeme isName with ⟨starts, isWord⟩
        have same : lexeme = scanWord (c :: rest) := isWord
        have continues := isNameContinue_of_isNameStart starts
        simp only [same, scanWord, List.takeWhile_cons, continues, if_true, String.toList_ofList]
        refine ⟨trivial, ?_, starts⟩
        rw [List.all_cons, continues, Bool.true_and]
        exact List.all_takeWhile
      · exact ih member

/-- The last token marks the end of the input, and no token before it does. -/
theorem scanFrom_eq_append (offset : Nat) (chars : List Char) :
    ∃ tokens last, scanFrom offset chars = tokens ++ [last] ∧ last.kind = .endOfInput ∧
      ∀ token ∈ tokens, token.kind ≠ .endOfInput := by
  fun_induction scanFrom offset chars with
  | case1 => exact ⟨[], _, rfl, rfl, by simp⟩
  | case2 offset chars ignored c rest parts start lexeme size pastEnd stop =>
      refine ⟨[_], _, rfl, rfl, ?_⟩
      simpa using kind_scanLexeme_ne c rest
  | case3 offset chars ignored c rest parts start lexeme size pastEnd ih =>
      rcases ih with ⟨tokens, last, same, isEnd, inside⟩
      refine ⟨_ :: tokens, last, by rw [same]; rfl, isEnd, ?_⟩
      rintro token (_ | ⟨_, member⟩)
      · exact kind_scanLexeme_ne c rest
      · exact inside token member

/-- Only a string reaches past the end. -/
theorem string_of_pastEnd {c : Char} {rest : List Char}
    (pastEnd : (scanLexeme c rest).pastEnd = true) :
    scanLexeme c rest = (scanString rest).push c ∧ (scanString rest).pastEnd = true := by
  have ofBlockString (chars : List Char) : (scanBlockString chars).pastEnd = false := by
    fun_induction scanBlockString chars <;> simp_all [Lexeme.push]
  have ofExponent (kind : TokenKind) (chars : List Char) :
      (scanExponent kind chars).pastEnd = false := by
    unfold scanExponent
    split
    · rfl
    · split <;> rfl
  have ofNumber (chars : List Char) : (scanNumber chars).pastEnd = false := by
    simp only [scanNumber, scanFraction]
    split
    · rfl
    · split
      · split <;> exact ofExponent _ _
      · exact ofExponent _ _
  unfold scanLexeme at pastEnd ⊢
  split at pastEnd
  · cases pastEnd
  · split at pastEnd
    · split at pastEnd <;> cases pastEnd
    · split at pastEnd
      · split at pastEnd
        · rw [Lexeme.push, Lexeme.push, Lexeme.push] at pastEnd
          simp [ofBlockString] at pastEnd
        · rename_i noDot isQuote _ _
          rw [if_neg noDot, if_pos isQuote]
          exact ⟨rfl, pastEnd⟩
      · split at pastEnd
        · rw [ofNumber] at pastEnd
          cases pastEnd
        · split at pastEnd <;> cases pastEnd

/-- What reaches past the end is not finished. -/
theorem kind_of_pastEnd {c : Char} {rest : List Char}
    (pastEnd : (scanLexeme c rest).pastEnd = true) : (scanLexeme c rest).kind = .invalid := by
  have ofString (chars : List Char) :
      (scanString chars).pastEnd = true → (scanString chars).kind = .invalid := by
    fun_induction scanString chars <;> simp_all [Lexeme.push]
  rcases string_of_pastEnd pastEnd with ⟨same, pastEnd⟩
  rw [same]
  exact ofString rest pastEnd

/-- A finished lexeme has a text. -/
theorem text?_of_mem_scanFrom {offset : Nat} {chars : List Char} {token : Token}
    (member : token ∈ scanFrom offset chars) (inside : token.kind ≠ .endOfInput)
    (valid : token.kind ≠ .invalid) : token.text? ≠ none := by
  fun_induction scanFrom offset chars with
  | case1 =>
      cases List.mem_singleton.mp member
      exact absurd rfl inside
  | case2 offset chars ignored c rest parts start lexeme size pastEnd stop =>
      simp only [List.mem_cons, List.not_mem_nil, or_false] at member
      rcases member with rfl | rfl
      · exact absurd (kind_of_pastEnd pastEnd) valid
      · exact absurd rfl inside
  | case3 offset chars ignored c rest parts start lexeme size pastEnd ih =>
      rcases List.mem_cons.mp member with rfl | member
      · simp
      · exact ih member

theorem isWord_of_mem_scan {source : String} {token : Token} (member : token ∈ scan source) :
    token.IsWord :=
  isWord_of_mem_scanFrom member

end Token
end GraphQL
