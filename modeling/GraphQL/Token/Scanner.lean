import GraphQL.Token

/-!
# Scanning a source into tokens

A scanner splits the characters ahead into a lexeme and the rest. Blanks, commas, byte order marks
and comments between lexemes are skipped. Every lexeme but the last takes at least one character, so
scanning ends.

A backslash takes the character after it into its string, whatever it is. If none follows, the
string reaches one byte past the end of the source, and so does the end of the input.
-/

namespace GraphQL

/-- A lexeme at the front of some text. -/
structure Lexeme where
  kind : TokenKind
  chars : List Char
  rest : List Char
  pastEnd : Bool := false

namespace Lexeme

/-- Puts a character before a lexeme. -/
def push (c : Char) (lexeme : Lexeme) : Lexeme :=
  { lexeme with chars := c :: lexeme.chars }

end Lexeme

namespace Token

/-- The number of bytes of some text. -/
def byteSize (chars : List Char) : Nat :=
  chars.foldl (fun size c => size + c.utf8Size) 0

def isIgnored (c : Char) : Bool :=
  c == ' ' || c == '\t' || c == '\r' || c == '\n' || c == ',' || c == '\ufeff'

def isNameStart (c : Char) : Bool :=
  c.isAlpha || c == '_'

def isNameContinue (c : Char) : Bool :=
  c.isAlphanum || c == '_'

/-- Splits off what separates tokens; a comment lasts until the line feed after it. -/
def splitIgnored : Bool → List Char → List Char × List Char
  | _, [] => ([], [])
  | inComment, c :: rest =>
      if inComment then
        let (ignored, others) := splitIgnored (c != '\n') rest
        (c :: ignored, others)
      else if isIgnored c then
        let (ignored, others) := splitIgnored false rest
        (c :: ignored, others)
      else if c = '#' then
        let (ignored, others) := splitIgnored true rest
        (c :: ignored, others)
      else ([], c :: rest)

/-- The rest of a quoted string after its opening quote. A line feed ends it unfinished. -/
def scanString : List Char → Lexeme
  | [] => { kind := .invalid, chars := [], rest := [] }
  | '"' :: rest => { kind := .string, chars := ['"'], rest }
  | ['\\'] => { kind := .invalid, chars := ['\\'], rest := [], pastEnd := true }
  | '\\' :: c :: rest => ((scanString rest).push c).push '\\'
  | c :: rest =>
      if c = '\n' then { kind := .invalid, chars := [], rest := c :: rest }
      else (scanString rest).push c

/-- The rest of a block string after its opening quotes; three quotes after a backslash belong to
it. -/
def scanBlockString : List Char → Lexeme
  | [] => { kind := .invalid, chars := [], rest := [] }
  | '"' :: '"' :: '"' :: rest => { kind := .blockString, chars := ['"', '"', '"'], rest }
  | '\\' :: '"' :: '"' :: '"' :: rest =>
      ((((scanBlockString rest).push '"').push '"').push '"').push '\\'
  | c :: rest => (scanBlockString rest).push c

/-- The exponent of a number after the digits before it, or nothing. -/
def scanExponent (kind : TokenKind) : List Char → Lexeme
  | [] => { kind, chars := [], rest := [] }
  | c :: rest =>
      if c = 'e' ∨ c = 'E' then
        let sign := (rest.take 1).filter fun next => next == '+' || next == '-'
        let unsigned := rest.drop sign.length
        let digits := unsigned.takeWhile Char.isDigit
        { kind := if digits.isEmpty then .invalid else .float
          chars := c :: sign ++ digits
          rest := unsigned.dropWhile Char.isDigit }
      else { kind, chars := [], rest := c :: rest }

/-- The rest of a number after the digits before the point. A point needs a digit after it. -/
def scanFraction (chars : List Char) : Lexeme :=
  match chars with
  | '.' :: next :: _ =>
      if next.isDigit then
        let digits := (chars.drop 1).takeWhile Char.isDigit
        let exponent := scanExponent .float ((chars.drop 1).dropWhile Char.isDigit)
        { exponent with chars := '.' :: digits ++ exponent.chars }
      else scanExponent .int chars
  | _ => scanExponent .int chars

/-- A number, which may start with a sign. -/
def scanNumber (chars : List Char) : Lexeme :=
  let sign := (chars.take 1).filter (· == '-')
  let unsigned := chars.drop sign.length
  let digits := unsigned.takeWhile Char.isDigit
  if digits.isEmpty then { kind := .invalid, chars := sign, rest := unsigned }
  else
    let fraction := scanFraction (unsigned.dropWhile Char.isDigit)
    { fraction with chars := sign ++ digits ++ fraction.chars }

/-- The kind of a word: a keyword or some other identifier. -/
def wordKind (word : String) : TokenKind :=
  match Keyword.ofText? word with
  | some keyword => .keyword keyword
  | none => .identifier

def scanWord (chars : List Char) : Lexeme :=
  let word := chars.takeWhile isNameContinue
  { kind := wordKind (String.ofList word)
    chars := word
    rest := chars.dropWhile isNameContinue }

/-- The punctuator that a single character is. -/
def punctuator? (c : Char) : Option Punctuator :=
  match c with
  | '\x7b' => some .openBrace
  | '\x7d' => some .closeBrace
  | '(' => some .openParen
  | ')' => some .closeParen
  | '[' => some .openBracket
  | ']' => some .closeBracket
  | ':' => some .colon
  | '=' => some .equals
  | '|' => some .pipe
  | '&' => some .ampersand
  | '@' => some .atSign
  | '!' => some .bang
  | '$' => some .dollar
  | _ => none

/-- The lexeme that starts with a character. -/
def scanLexeme (c : Char) (rest : List Char) : Lexeme :=
  match punctuator? c with
  | some punctuator => { kind := .punctuator punctuator, chars := [c], rest }
  | none =>
      if c = '.' then
        match rest with
        | '.' :: '.' :: others =>
            { kind := .punctuator .spread, chars := ['.', '.', '.'], rest := others }
        | _ => { kind := .invalid, chars := [c], rest }
      else if c = '"' then
        match rest with
        | '"' :: '"' :: others =>
            (((scanBlockString others).push '"').push '"').push c
        | _ => (scanString rest).push c
      else if c = '-' ∨ c.isDigit then scanNumber (c :: rest)
      else if isNameStart c then scanWord (c :: rest)
      else { kind := .invalid, chars := [c], rest }

theorem length_dropWhile_le (test : Char → Bool) (chars : List Char) :
    (chars.dropWhile test).length ≤ chars.length :=
  (List.dropWhile_sublist test).length_le

theorem rest_scanString_le (chars : List Char) : (scanString chars).rest.length ≤ chars.length := by
  fun_induction scanString chars <;> simp_all [Lexeme.push] <;> omega

theorem rest_scanBlockString_le (chars : List Char) :
    (scanBlockString chars).rest.length ≤ chars.length := by
  fun_induction scanBlockString chars <;> simp_all [Lexeme.push] <;> omega

theorem rest_scanExponent_le (kind : TokenKind) (chars : List Char) :
    (scanExponent kind chars).rest.length ≤ chars.length := by
  unfold scanExponent
  split
  · simp
  · split
    · rename_i c rest _
      have shorter := length_dropWhile_le Char.isDigit
        (rest.drop ((rest.take 1).filter fun next => next == '+' || next == '-').length)
      simp only [List.length_drop, List.length_cons] at shorter ⊢
      omega
    · simp

theorem rest_scanFraction_le (chars : List Char) :
    (scanFraction chars).rest.length ≤ chars.length := by
  unfold scanFraction
  split
  · split
    · rename_i next tail _
      have first := rest_scanExponent_le .float
        ((('.' :: next :: tail).drop 1).dropWhile Char.isDigit)
      have second := length_dropWhile_le Char.isDigit (('.' :: next :: tail).drop 1)
      simp only [List.length_drop, List.length_cons] at first second ⊢
      omega
    · exact rest_scanExponent_le _ _
  · exact rest_scanExponent_le _ _

/-- A number takes at least its sign or its first digit. -/
theorem rest_scanNumber_le (c : Char) (rest : List Char) (starts : c = '-' ∨ c.isDigit = true) :
    (scanNumber (c :: rest)).rest.length ≤ rest.length := by
  have first := rest_scanFraction_le (rest.dropWhile Char.isDigit)
  have second := length_dropWhile_le Char.isDigit rest
  rcases starts with rfl | digit
  · simp only [scanNumber, List.take_succ_cons, List.take_zero, List.filter_cons, List.filter_nil,
      beq_self_eq_true, if_true, List.length_cons, List.length_nil, Nat.zero_add,
      List.drop_succ_cons, List.drop_zero]
    split
    · exact Nat.le_refl _
    · exact Nat.le_trans first second
  · have unsigned : (c == '-') = false := by
      rw [beq_eq_false_iff_ne]
      rintro rfl
      exact absurd digit (by decide)
    simp only [scanNumber, List.take_succ_cons, List.take_zero, List.filter_cons, List.filter_nil,
      unsigned, List.length_nil, List.drop_zero, List.takeWhile_cons, List.dropWhile_cons, digit,
      if_true, List.isEmpty_cons, Bool.false_eq_true, if_false]
    exact Nat.le_trans first second

theorem rest_scanWord_le (c : Char) (rest : List Char) (starts : isNameStart c = true) :
    (scanWord (c :: rest)).rest.length ≤ rest.length := by
  have continues : isNameContinue c = true := by
    simp only [isNameStart, isNameContinue, Char.isAlphanum, Bool.or_eq_true] at starts ⊢
    rcases starts with alpha | underscore
    · exact .inl (.inl alpha)
    · exact .inr underscore
  have shorter := length_dropWhile_le isNameContinue rest
  simp only [scanWord, List.dropWhile_cons, continues, if_true]
  exact shorter

/-- A lexeme takes at least the character it starts with. -/
theorem rest_scanLexeme_le (c : Char) (rest : List Char) :
    (scanLexeme c rest).rest.length ≤ rest.length := by
  unfold scanLexeme
  split
  · simp
  · split
    · split <;> simp
      omega
    · split
      · split
        · rename_i others
          have shorter := rest_scanBlockString_le others
          simp only [Lexeme.push, List.length_cons]
          omega
        · exact rest_scanString_le rest
      · split
        · rename_i starts
          exact rest_scanNumber_le c rest starts
        · split
          · rename_i starts
            exact rest_scanWord_le c rest starts
          · simp

theorem rest_splitIgnored_le (inComment : Bool) (chars : List Char) :
    (splitIgnored inComment chars).2.length ≤ chars.length := by
  fun_induction splitIgnored inComment chars <;> simp_all <;> omega

/-- The tokens of some text that starts at an offset; the last one marks the end of the input. -/
def scanFrom (offset : Nat) (chars : List Char) : List Token :=
  match _parts : splitIgnored false chars with
  | (ignored, []) =>
      let stop := offset + byteSize ignored
      [{ kind := .endOfInput, span := ⟨stop, stop⟩, text? := some "" }]
  | (ignored, c :: rest) =>
      let start := offset + byteSize ignored
      let lexeme := scanLexeme c rest
      let size := byteSize lexeme.chars
      if lexeme.pastEnd then
        let stop := start + size + 1
        [{ kind := lexeme.kind, span := ⟨start, stop⟩, text? := none },
          { kind := .endOfInput, span := ⟨stop, stop⟩, text? := none }]
      else
        { kind := lexeme.kind
          span := ⟨start, start + size⟩
          text? := some (String.ofList lexeme.chars) } :: scanFrom (start + size) lexeme.rest
termination_by chars.length
decreasing_by
  have whole := rest_splitIgnored_le false chars
  have shorter := rest_scanLexeme_le c rest
  simp only [_parts, List.length_cons] at whole
  omega

/-- The tokens of a source. -/
def scan (source : String) : List Token :=
  scanFrom 0 source.toList

end Token

end GraphQL
