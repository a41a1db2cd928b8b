import GraphQL.Proofs.Token.Pieces

/-!
# Scanning a lexeme before another rest

A scanner looks at most two characters past the end of a finished lexeme: a word or a number asks
whether the next character goes on with it, a point asks for a digit after it, and an empty string
for a third quote. So a finished lexeme is scanned again in front of every rest that either breaks
it or starts like the rest that it was scanned with.
-/

namespace GraphQL
namespace Token

/-- What may take the place of the rest after a lexeme: it breaks what stands before it, or it starts
with the same character. A point at its start is none of a number. -/
def TakesPlace (other rest : List Char) : Prop :=
  Breaks other ∨ other.head? = rest.head? ∧ ∀ c others, other = '.' :: c :: others → c = '.'

namespace TakesPlace

variable {other rest : List Char}

/-- No character that could go on with a lexeme comes to stand after it. -/
theorem head {test : Char → Bool} (takes : TakesPlace other rest)
    (continues : ∀ c, isNameContinue c = false → c ≠ '"' → test c = false)
    (stops : ∀ c ∈ rest.head?, test c = false) : ∀ c ∈ other.head?, test c = false := by
  intro c first
  rcases takes with breaks | ⟨same, _⟩
  · exact continues c (breaks c first).1 (breaks c first).2.2
  · exact stops c (same ▸ first)

theorem digit (takes : TakesPlace other rest) (stops : ∀ c ∈ rest.head?, c.isDigit = false) :
    ∀ c ∈ other.head?, c.isDigit = false := by
  refine takes.head (fun c breaks _ => ?_) stops
  simp only [isNameContinue, Char.isAlphanum, Bool.or_eq_false_iff] at breaks
  exact breaks.1.2

end TakesPlace

/-- The first character that fails a test ends a run of characters. -/
theorem head_dropWhile (test : Char → Bool) (chars : List Char) :
    ∀ c ∈ (chars.dropWhile test).head?, test c = false := by
  intro c first
  have stops := List.head?_dropWhile_not test chars
  rw [Option.mem_def.mp first] at stops
  simpa using stops

/-- A run of characters is a run again where the next character ends it. -/
theorem takeWhile_before {test : Char → Bool} {chars other : List Char}
    (stops : ∀ c ∈ other.head?, test c = false) :
    (chars.takeWhile test ++ other).takeWhile test = chars.takeWhile test ∧
      (chars.takeWhile test ++ other).dropWhile test = other :=
  takeWhile_of_breaks (fun c member => List.all_eq_true.mp List.all_takeWhile c member) stops

/-! ## Strings -/

/-- The closing quote ends a string, whatever follows. -/
theorem scanString_before {chars : List Char} (valid : (scanString chars).kind ≠ .invalid)
    (other : List Char) :
    scanString ((scanString chars).chars ++ other) = { scanString chars with rest := other } := by
  fun_induction scanString chars with
  | case1 => exact absurd rfl valid
  | case2 rest => rfl
  | case3 => exact absurd rfl valid
  | case4 c rest ih =>
      simp only [Lexeme.push, List.cons_append]
      rw [scanString, ih valid]
      rfl
  | case5 rest => exact absurd rfl valid
  | case6 c rest noQuote notLast notEscaping noFeed ih =>
      have noBackslash : c ≠ '\\' := by
        rintro rfl
        cases rest with
        | nil => exact notLast rfl rfl
        | cons d rest => exact notEscaping d rest rfl rfl
      simp only [Lexeme.push, List.cons_append]
      rw [scanString_plain noQuote noBackslash noFeed, ih valid]
      rfl

/-- A finished block string starts with the three characters that its text starts with. -/
theorem three_le_length_scanBlockString {chars : List Char}
    (valid : (scanBlockString chars).kind ≠ .invalid) : 3 ≤ (scanBlockString chars).chars.length := by
  fun_induction scanBlockString chars with
  | case1 => exact absurd rfl valid
  | case2 rest => exact Nat.le_refl 3
  | case3 rest ih => simp [Lexeme.push]
  | case4 c rest noEnd notEscaping ih => exact Nat.le_succ_of_le (ih valid)

theorem scanBlockString_before {chars : List Char} (valid : (scanBlockString chars).kind ≠ .invalid)
    (other : List Char) :
    scanBlockString ((scanBlockString chars).chars ++ other) =
      { scanBlockString chars with rest := other } := by
  fun_induction scanBlockString chars with
  | case1 => exact absurd rfl valid
  | case2 rest => rfl
  | case3 rest ih =>
      simp only [Lexeme.push, List.cons_append]
      rw [scanBlockString, ih valid]
      rfl
  | case4 c rest noEnd notEscaping ih =>
      have whole := scanBlockString_append rest
      have long := three_le_length_scanBlockString valid
      have again := ih valid
      rcases shape : (scanBlockString rest).chars with _ | ⟨first, _ | ⟨second, _ | ⟨third, tail⟩⟩⟩
      all_goals simp only [shape, List.length_nil, List.length_cons] at long
      · omega
      · omega
      · omega
      rw [shape] at whole again
      simp only [Lexeme.push, shape, List.cons_append] at again ⊢
      rw [scanBlockString, again]
      · rfl
      · rintro others rfl same
        cases same
        exact noEnd (third :: tail ++ (scanBlockString rest).rest) rfl whole.symm
      · rintro others rfl same
        cases same
        exact notEscaping (tail ++ (scanBlockString rest).rest) rfl whole.symm

/-! ## Numbers -/

/-- The letter of an exponent. -/
def opensExponent (c : Char) : Bool :=
  c == 'e' || c == 'E'

theorem TakesPlace.exponent {other rest : List Char} (takes : TakesPlace other rest)
    (stops : ∀ c ∈ rest.head?, opensExponent c = false) :
    ∀ c ∈ other.head?, opensExponent c = false := by
  refine takes.head (fun c breaks _ => ?_) stops
  simp only [opensExponent, Bool.or_eq_false_iff, beq_eq_false_iff_ne]
  constructor <;> rintro rfl <;> exact absurd breaks (by decide)

theorem scanExponent_of_stops {chars : List Char}
    (stops : ∀ c ∈ chars.head?, opensExponent c = false) (kind : TokenKind) :
    scanExponent kind chars = { kind, chars := [], rest := chars } := by
  unfold scanExponent
  split
  · rfl
  · rename_i c rest
    have noLetter := stops c rfl
    simp only [opensExponent, Bool.or_eq_false_iff, beq_eq_false_iff_ne] at noLetter
    exact if_neg (not_or.mpr noLetter)

/-- The sign of an exponent. -/
def signsExponent (c : Char) : Bool :=
  c == '+' || c == '-'

theorem scanExponent_of_opens {c : Char} (opens : c = 'e' ∨ c = 'E') (kind : TokenKind)
    (rest : List Char) :
    scanExponent kind (c :: rest) =
      let sign := (rest.take 1).filter signsExponent
      let unsigned := rest.drop sign.length
      { kind := if (unsigned.takeWhile Char.isDigit).isEmpty then .invalid else .float
        chars := c :: sign ++ unsigned.takeWhile Char.isDigit
        rest := unsigned.dropWhile Char.isDigit } := by
  rw [scanExponent, if_pos opens]
  rfl

theorem isDigit_of_mem_takeWhile {chars : List Char} {c : Char}
    (member : c ∈ chars.takeWhile Char.isDigit) : c.isDigit = true :=
  List.all_eq_true.mp List.all_takeWhile c member

theorem signsExponent_of_isDigit {c : Char} (digit : c.isDigit = true) :
    signsExponent c = false := by
  simp only [signsExponent, Bool.or_eq_false_iff, beq_eq_false_iff_ne]
  constructor <;> rintro rfl <;> exact absurd digit (by decide)

/-- In front of digits the sign at the front of some text is a sign again. -/
theorem signs_take_append {digits : List Char} (chars other : List Char) (nonempty : digits ≠ [])
    (areDigits : ∀ c ∈ digits, c.isDigit = true) :
    (((chars.take 1).filter signsExponent ++ (digits ++ other)).take 1).filter signsExponent =
      (chars.take 1).filter signsExponent := by
  obtain ⟨first, others, rfl⟩ := List.exists_cons_of_ne_nil nonempty
  have unsigned := signsExponent_of_isDigit (areDigits first List.mem_cons_self)
  cases chars with
  | nil => simp [unsigned]
  | cons c rest => cases signed : signsExponent c <;> simp [signed, unsigned]

theorem scanExponent_before {kind : TokenKind} {chars other : List Char}
    (valid : (scanExponent kind chars).kind ≠ .invalid)
    (takes : TakesPlace other (scanExponent kind chars).rest) :
    scanExponent kind ((scanExponent kind chars).chars ++ other) =
      { scanExponent kind chars with rest := other } := by
  have nothing (stops : ∀ c ∈ chars.head?, opensExponent c = false) :
      scanExponent kind ((scanExponent kind chars).chars ++ other) =
        { scanExponent kind chars with rest := other } := by
    rw [scanExponent_of_stops stops] at takes ⊢
    exact scanExponent_of_stops (takes.exponent stops) kind
  rcases chars with _ | ⟨c, rest⟩
  · exact nothing (by simp)
  by_cases opens : c = 'e' ∨ c = 'E'
  case neg =>
    refine nothing fun d first => ?_
    cases first
    simpa [opensExponent] using opens
  rw [scanExponent_of_opens opens] at valid takes ⊢
  dsimp only at valid takes ⊢
  generalize rest.drop ((rest.take 1).filter signsExponent).length = unsigned at *
  have nonempty : unsigned.takeWhile Char.isDigit ≠ [] := by
    intro isEmpty
    exact valid (by rw [isEmpty]; rfl)
  have split := @takeWhile_before _ unsigned _ (takes.digit (head_dropWhile Char.isDigit unsigned))
  have again := signs_take_append rest other nonempty fun c => isDigit_of_mem_takeWhile
  rw [List.cons_append, List.cons_append, List.append_assoc, scanExponent_of_opens opens]
  simp only [again, List.drop_left, split.1, split.2, List.cons_append]

theorem exists_scanExponent (kind : TokenKind) (chars : List Char) :
    ∃ kind' front rest, scanExponent kind chars = { kind := kind', chars := front, rest } ∧
      (kind' = kind ∨ kind' = .float ∨ kind' = .invalid) ∧
      ∀ c ∈ front.head?, opensExponent c = true := by
  unfold scanExponent
  split
  · exact ⟨_, _, _, rfl, .inl rfl, by simp⟩
  · split
    · refine ⟨_, _, _, rfl, ?_, ?_⟩
      · split
        · exact .inr (.inr rfl)
        · exact .inr (.inl rfl)
      · rename_i opens
        intro c first
        cases first
        simpa [opensExponent] using opens
    · exact ⟨_, _, _, rfl, .inl rfl, by simp⟩

/-- Where no point with a digit after it comes first, there is no fraction. -/
theorem scanFraction_of_noPoint {chars : List Char}
    (noPoint : ∀ c others, chars = '.' :: c :: others → c.isDigit = false) :
    scanFraction chars = scanExponent .int chars := by
  unfold scanFraction
  split
  · rename_i next others
    rw [noPoint next others rfl, if_neg Bool.false_ne_true]
  · rfl

theorem scanFraction_of_point {next : Char} (digit : next.isDigit = true) (tail : List Char) :
    scanFraction ('.' :: next :: tail) =
      let exponent := scanExponent .float ((next :: tail).dropWhile Char.isDigit)
      { exponent with chars := '.' :: ((next :: tail).takeWhile Char.isDigit ++ exponent.chars) } := by
  unfold scanFraction
  simp only [digit, if_true]
  rfl

/-- What stands before the rest hides whether the rest is replaced. -/
theorem TakesPlace.digit_append {front rest other : List Char} (takes : TakesPlace other rest)
    (stops : ∀ c ∈ (front ++ rest).head?, c.isDigit = false) :
    ∀ c ∈ (front ++ other).head?, c.isDigit = false := by
  cases front with
  | nil => exact takes.digit stops
  | cons c front => exact stops

theorem scanFraction_before {chars other : List Char} (valid : (scanFraction chars).kind ≠ .invalid)
    (takes : TakesPlace other (scanFraction chars).rest) :
    ∃ kind front rest, scanFraction chars = { kind, chars := front, rest } ∧
      scanFraction (front ++ other) = { kind, chars := front, rest := other } := by
  by_cases pointed : ∃ next tail, chars = '.' :: next :: tail ∧ next.isDigit = true
  · rcases pointed with ⟨next, tail, rfl, digit⟩
    have nonempty : (next :: tail).takeWhile Char.isDigit ≠ [] := by simp [digit]
    have stops := head_dropWhile Char.isDigit (next :: tail)
    have parts := scanExponent_append .float ((next :: tail).dropWhile Char.isDigit)
    rw [scanFraction_of_point digit] at valid takes ⊢
    generalize (next :: tail).dropWhile Char.isDigit = after at *
    have again := scanExponent_before valid takes
    rcases exists_scanExponent .float after with ⟨kind, front, rest, shape, kinds, -⟩
    rw [shape] at valid takes again parts ⊢
    have isFloat : kind = .float := by
      rcases kinds with isFloat | isFloat | isInvalid
      · exact isFloat
      · exact isFloat
      · exact absurd isInvalid valid
    subst isFloat
    refine ⟨_, _, _, rfl, ?_⟩
    have point := scanFraction_point front nonempty (fun c => isDigit_of_mem_takeWhile)
      (takes.digit_append (parts ▸ stops)) again
    simpa using point
  · have noPoint (c : Char) (others : List Char) (same : chars = '.' :: c :: others) :
        c.isDigit = false := by
      rw [Bool.eq_false_iff]
      exact fun digit => pointed ⟨c, others, same, digit⟩
    rw [scanFraction_of_noPoint noPoint] at valid takes ⊢
    have again := scanExponent_before valid takes
    have parts := scanExponent_append .int chars
    rcases exists_scanExponent .int chars with ⟨kind, front, rest, shape, -, opens⟩
    rw [shape] at takes again parts ⊢
    refine ⟨kind, front, rest, rfl, ?_⟩
    rw [scanFraction_of_noPoint, again]
    intro c others same
    cases front with
    | nil =>
        rcases takes with breaks | ⟨-, noDigit⟩
        · exact absurd rfl (breaks '.' (by rw [show other = _ from same]; rfl)).2.1
        · rw [noDigit c others same]
          rfl
    | cons first front =>
        rw [(List.cons.inj same).1] at opens
        exact absurd (opens '.' rfl) (by decide)

/-- A finished number is a sign or nothing, digits, and what follows them. -/
theorem exists_scanNumber {chars : List Char} (valid : (scanNumber chars).kind ≠ .invalid) :
    ∃ sign unsigned : List Char,
      (sign = [] ∨ sign = ['-']) ∧ unsigned.takeWhile Char.isDigit ≠ [] ∧
      scanNumber chars =
        let fraction := scanFraction (unsigned.dropWhile Char.isDigit)
        { fraction with
          chars := sign ++ unsigned.takeWhile Char.isDigit ++ fraction.chars } := by
  have isSign : (chars.take 1).filter (· == '-') = [] ∨ (chars.take 1).filter (· == '-') = ['-'] := by
    cases chars with
    | nil => exact .inl rfl
    | cons c rest => by_cases same : c = '-' <;> simp [same]
  unfold scanNumber at valid ⊢
  dsimp only at valid ⊢
  split at valid <;> rename_i isEmpty
  · exact absurd rfl valid
  · exact ⟨_, _, isSign, by simpa using isEmpty, if_neg isEmpty⟩

theorem scanNumber_before {chars other : List Char} (valid : (scanNumber chars).kind ≠ .invalid)
    (takes : TakesPlace other (scanNumber chars).rest) :
    scanNumber ((scanNumber chars).chars ++ other) = { scanNumber chars with rest := other } := by
  rcases exists_scanNumber valid with ⟨sign, unsigned, isSign, nonempty, shape⟩
  rw [shape] at valid takes ⊢
  have stops := head_dropWhile Char.isDigit unsigned
  have parts := scanFraction_append (unsigned.dropWhile Char.isDigit)
  rcases scanFraction_before valid takes with ⟨kind, front, rest, fraction, again⟩
  rw [fraction] at takes parts ⊢
  have scanned := scanNumber_append other isSign nonempty (fun c => isDigit_of_mem_takeWhile)
    (takes.digit_append (parts ▸ stops)) again
  simpa using scanned

/-! ## Lexemes -/

theorem scanWord_before {chars other : List Char} (takes : TakesPlace other (scanWord chars).rest) :
    scanWord ((scanWord chars).chars ++ other) = { scanWord chars with rest := other } := by
  have stops := takes.head (fun c breaks _ => breaks) (head_dropWhile isNameContinue chars)
  simp only [scanWord, takeWhile_before stops]

/-- What the first character of a lexeme decides. -/
inductive IsScanned (c : Char) : Prop
  | mark (kind : TokenKind) :
      (∀ rest, scanLexeme c rest = { kind, chars := [c], rest }) → IsScanned c
  | point : c = '.' → IsScanned c
  | quote : c = '"' → IsScanned c
  | number : (∀ rest, scanLexeme c rest = scanNumber (c :: rest)) → IsScanned c
  | word : isNameStart c = true → (∀ rest, scanLexeme c rest = scanWord (c :: rest)) → IsScanned c

theorem isScanned (c : Char) : IsScanned c := by
  cases isMark : punctuator? c with
  | some mark => exact .mark (.punctuator mark) fun rest => by unfold scanLexeme; rw [isMark]
  | none =>
      by_cases isPoint : c = '.'
      · exact .point isPoint
      by_cases isQuote : c = '"'
      · exact .quote isQuote
      by_cases isNumber : c = '-' ∨ c.isDigit
      · refine .number fun rest => ?_
        simp only [scanLexeme, isMark, if_neg isPoint, if_neg isQuote, if_pos isNumber]
      by_cases isWord : isNameStart c = true
      · refine .word isWord fun rest => ?_
        simp only [scanLexeme, isMark, if_neg isPoint, if_neg isQuote, if_neg isNumber, if_pos isWord]
      · refine .mark .invalid fun rest => ?_
        simp only [scanLexeme, isMark, if_neg isPoint, if_neg isQuote, if_neg isNumber, if_neg isWord]

theorem scanLexeme_spread (rest : List Char) : scanLexeme '.' ('.' :: '.' :: rest) =
    { kind := .punctuator .spread, chars := ['.', '.', '.'], rest } :=
  rfl

/-- A point is the first of three. -/
theorem exists_of_point {rest : List Char} (valid : (scanLexeme '.' rest).kind ≠ .invalid) :
    ∃ others, rest = '.' :: '.' :: others := by
  unfold scanLexeme at valid
  rw [show punctuator? '.' = none from rfl] at valid
  dsimp only at valid
  rw [if_pos rfl] at valid
  split at valid
  · exact ⟨_, rfl⟩
  · exact absurd rfl valid

theorem scanLexeme_block (rest : List Char) : scanLexeme '"' ('"' :: '"' :: rest) =
    (((scanBlockString rest).push '"').push '"').push '"' :=
  rfl

theorem scanLexeme_string {rest : List Char} (single : ∀ others, rest ≠ '"' :: '"' :: others) :
    scanLexeme '"' rest = (scanString rest).push '"' := by
  unfold scanLexeme
  rw [show punctuator? '"' = none from rfl]
  dsimp only
  rw [if_neg (by decide), if_pos rfl]
  split
  · exact absurd rfl (single _)
  · rfl

/-- The characters of a lexeme start with its first character. -/
theorem exists_chars_scanLexeme (c : Char) (rest : List Char) :
    ∃ tail, (scanLexeme c rest).chars = c :: tail := by
  have whole := scanLexeme_append c rest
  have shorter := rest_scanLexeme_le c rest
  cases chars : (scanLexeme c rest).chars with
  | nil =>
      rw [chars, List.nil_append] at whole
      rw [whole] at shorter
      exact absurd shorter (Nat.not_succ_le_self _)
  | cons first tail =>
      rw [chars] at whole
      exact ⟨tail, by rw [(List.cons.inj whole).1]⟩

theorem chars_scanString_ne_nil {chars : List Char} (valid : (scanString chars).kind ≠ .invalid) :
    (scanString chars).chars ≠ [] := by
  fun_induction scanString chars <;> simp_all [Lexeme.push]

/-- A finished string has no two quotes at its start where it had none before. -/
theorem single_of_takesPlace {rest other : List Char} (single : ∀ others, rest ≠ '"' :: '"' :: others)
    (valid : (scanString rest).kind ≠ .invalid)
    (takes : TakesPlace other (scanString rest).rest) (others : List Char) :
    (scanString rest).chars ++ other ≠ '"' :: '"' :: others := by
  intro same
  cases rest with
  | nil => exact valid rfl
  | cons c rest =>
      by_cases isQuote : c = '"'
      · subst isQuote
        have stops : ∀ c ∈ other.head?, (c == '"') = false := by
          refine takes.head (fun c _ noQuote => beq_eq_false_iff_ne.mpr noQuote) fun c first => ?_
          rw [beq_eq_false_iff_ne]
          rintro rfl
          cases rest with
          | nil => cases first
          | cons d rest =>
              cases first
              exact single rest rfl
        have follows : other = '"' :: others := (List.cons.inj same).2
        exact absurd (stops '"' (by rw [follows]; rfl)) (by decide)
      · have parts := scanString_append (c :: rest)
        obtain ⟨first, tail, chars⟩ := List.exists_cons_of_ne_nil (chars_scanString_ne_nil valid)
        rw [chars] at same parts
        exact isQuote ((List.cons.inj parts).1.symm.trans (List.cons.inj same).1)

/-- A finished lexeme is scanned again before what may take the place of its rest. -/
theorem scanLexeme_before {c : Char} {rest other : List Char}
    (valid : (scanLexeme c rest).kind ≠ .invalid)
    (takes : TakesPlace other (scanLexeme c rest).rest) :
    ∃ tail, (scanLexeme c rest).chars = c :: tail ∧
      scanLexeme c (tail ++ other) = { scanLexeme c rest with rest := other } := by
  rcases exists_chars_scanLexeme c rest with ⟨tail, chars⟩
  refine ⟨tail, chars, ?_⟩
  cases isScanned c with
  | mark kind scans =>
      rw [scans rest] at chars ⊢
      cases chars
      exact scans other
  | point isPoint =>
      subst isPoint
      rcases exists_of_point valid with ⟨others, rfl⟩
      rw [scanLexeme_spread] at chars ⊢
      cases chars
      exact scanLexeme_spread other
  | quote isQuote =>
      subst isQuote
      by_cases blocks : ∃ others, rest = '"' :: '"' :: others
      · rcases blocks with ⟨others, rfl⟩
        rw [scanLexeme_block] at valid chars ⊢
        cases chars
        change scanLexeme '"' ('"' :: '"' :: ((scanBlockString others).chars ++ other)) = _
        rw [scanLexeme_block, scanBlockString_before valid]
        rfl
      · have single (others : List Char) : rest ≠ '"' :: '"' :: others :=
          fun same => blocks ⟨others, same⟩
        rw [scanLexeme_string single] at valid takes chars ⊢
        cases chars
        rw [scanLexeme_string (single_of_takesPlace single valid takes), scanString_before valid]
        rfl
  | number scans =>
      rw [scans rest] at valid takes chars ⊢
      rw [scans, ← List.cons_append, ← chars]
      exact scanNumber_before valid takes
  | word _ scans =>
      rw [scans rest] at takes chars ⊢
      rw [scans, ← List.cons_append, ← chars]
      exact scanWord_before takes

end Token
end GraphQL
