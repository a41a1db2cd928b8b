import GraphQL.Proofs.Text.Quoted
import GraphQL.Proofs.Token.Scanner

/-!
# Texts that are scanned into known tokens

A text lexes into tokens if scanning it gives them whatever follows, as long as what follows cannot
continue its last token. Texts lex one after the other, so what a larger text is scanned into is put
together from its parts. Words, numbers and strings ask for an end of their own; punctuators, blanks
and line feeds are followed by anything.
-/

namespace GraphQL
namespace Token

/-! ## Scanning step by step -/

theorem byteSize_cons (c : Char) (chars : List Char) :
    byteSize (c :: chars) = c.utf8Size + byteSize chars := by
  have shift (start : Nat) (chars : List Char) :
      chars.foldl (fun size c => size + c.utf8Size) start = start + byteSize chars := by
    induction chars generalizing start with
    | nil => rfl
    | cons c chars ih =>
        rw [byteSize, List.foldl_cons, List.foldl_cons, ih, ih (0 + c.utf8Size)]
        omega
  rw [byteSize, List.foldl_cons, shift, Nat.zero_add]

theorem byteSize_append (chars others : List Char) :
    byteSize (chars ++ others) = byteSize chars + byteSize others := by
  induction chars with
  | nil => simp [byteSize]
  | cons c chars ih => rw [List.cons_append, byteSize_cons, byteSize_cons, ih, Nat.add_assoc]

/-- What separates tokens is skipped. -/
theorem scanFrom_skip {gap rest : List Char} (skips : splitIgnored false (gap ++ rest) =
    (gap ++ (splitIgnored false rest).1, (splitIgnored false rest).2)) (offset : Nat) :
    scanFrom offset (gap ++ rest) = scanFrom (offset + byteSize gap) rest := by
  rw [scanFrom, scanFrom]
  split <;> rename_i parts <;> rw [skips] at parts <;> simp only [Prod.mk.injEq] at parts <;>
    rcases parts with ⟨rfl, others⟩
  · split <;> rename_i parts <;> rw [parts] at others
    · simp only [byteSize_append, parts, Nat.add_assoc]
    · cases others
  · split <;> rename_i parts <;> rw [parts] at others
    · cases others
    · cases others
      simp only [byteSize_append, parts, Nat.add_assoc]

theorem splitIgnored_cons {c : Char} (ignored : isIgnored c = true) (rest : List Char) :
    splitIgnored false (c :: rest) =
      (c :: (splitIgnored false rest).1, (splitIgnored false rest).2) := by
  rw [splitIgnored, if_neg Bool.false_ne_true, if_pos ignored]

theorem scanFrom_ignored {c : Char} (ignored : isIgnored c = true) (offset : Nat)
    (rest : List Char) : scanFrom offset (c :: rest) = scanFrom (offset + c.utf8Size) rest := by
  have skipped := @scanFrom_skip [c] rest (splitIgnored_cons ignored rest) offset
  rwa [byteSize_cons] at skipped

/-- A lexeme that does not start with something ignored is the first token. -/
theorem scanFrom_lexeme {c : Char} {rest : List Char} (kept : isIgnored c = false)
    (noComment : c ≠ '#') (finished : (scanLexeme c rest).pastEnd = false) (offset : Nat) :
    scanFrom offset (c :: rest) =
      { kind := (scanLexeme c rest).kind
        span := ⟨offset, offset + byteSize (scanLexeme c rest).chars⟩
        text? := some (String.ofList (scanLexeme c rest).chars) } ::
      scanFrom (offset + byteSize (scanLexeme c rest).chars) (scanLexeme c rest).rest := by
  have split : splitIgnored false (c :: rest) = ([], c :: rest) := by
    simp [splitIgnored, kept, noComment]
  rw [scanFrom]
  split <;> rename_i parts <;> rw [split] at parts <;> cases parts
  simp [finished, byteSize]

theorem scanFrom_nil (offset : Nat) :
    scanFrom offset [] = [⟨.endOfInput, ⟨offset, offset⟩, some ""⟩] := by
  rw [scanFrom]
  rfl

/-! ## Lexing texts -/

/-- In front of such a rest the text is scanned into tokens of some form. -/
def Lexes (ends : List Char → Prop) (text : String) (spells : List Token → Prop) : Prop :=
  ∀ offset rest, ends rest → ∃ tokens next,
    scanFrom offset (text.toList ++ rest) = tokens ++ scanFrom next rest ∧ spells tokens

/-- Whatever follows. -/
def Anything (_ : List Char) : Prop :=
  True

/-- What follows does not continue a word, a number or a string. -/
def Breaks (rest : List Char) : Prop :=
  ∀ c ∈ rest.head?, isNameContinue c = false ∧ c ≠ '.' ∧ c ≠ '"'

/-- A single token. -/
def IsSingle (kind : TokenKind) (text : String) (tokens : List Token) : Prop :=
  ∃ token, tokens = [token] ∧ token.kind = kind ∧ token.text? = some text

section

variable {ends between : List Char → Prop} {text other : String}
  {spells spellsOther goal : List Token → Prop}

theorem breaks_cons {c : Char} (breaking : isNameContinue c = false) (noPoint : c ≠ '.')
    (noQuote : c ≠ '"') (rest : List Char) : Breaks (c :: rest) := by
  intro first isFirst
  cases isFirst
  exact ⟨breaking, noPoint, noQuote⟩

/-- Some first characters break whatever stands before a text. -/
theorem breaks_text {text : String} (opens : text.toList.head?.any (fun c =>
    !isNameContinue c && c != '.' && c != '"') = true) (rest : List Char) :
    Breaks (text.toList ++ rest) := by
  cases chars : text.toList with
  | nil =>
      rw [chars] at opens
      cases opens
  | cons c tail =>
      simp only [chars, List.head?_cons, Option.any_some, Bool.and_eq_true, Bool.not_eq_true',
        bne_iff_ne, ne_eq] at opens
      exact breaks_cons opens.1.1 opens.1.2 opens.2 _

theorem breaks_of_isIgnored {c : Char} (ignored : isIgnored c = true) (rest : List Char) :
    Breaks (c :: rest) := by
  simp only [isIgnored, Bool.or_eq_true, beq_iff_eq] at ignored
  rcases ignored with ((((rfl | rfl) | rfl) | rfl) | rfl) | rfl <;>
    exact breaks_cons rfl (by decide) (by decide) rest

theorem Lexes.weaken (lexes : Lexes ends text spells)
    (implies : ∀ tokens, spells tokens → goal tokens) : Lexes ends text goal := by
  intro offset rest isEnd
  rcases lexes offset rest isEnd with ⟨tokens, next, scanned, spelled⟩
  exact ⟨tokens, next, scanned, implies tokens spelled⟩

theorem Lexes.mono (lexes : Lexes ends text spells) (weaker : ∀ rest, between rest → ends rest) :
    Lexes between text spells :=
  fun offset rest isEnd => lexes offset rest (weaker rest isEnd)

theorem lexes_empty : Lexes ends "" (· = []) :=
  fun offset _ _ => ⟨[], offset, rfl, rfl⟩

/-- One text after the other. -/
theorem Lexes.append (lexes : Lexes between text spells) (others : Lexes ends other spellsOther)
    (meets : ∀ rest, ends rest → between (other.toList ++ rest)) :
    Lexes ends (text ++ other) fun tokens =>
      ∃ first second, tokens = first ++ second ∧ spells first ∧ spellsOther second := by
  intro offset rest isEnd
  rcases lexes offset _ (meets rest isEnd) with ⟨first, middle, scanned, spelled⟩
  rcases others middle rest isEnd with ⟨second, next, scannedOther, spelledOther⟩
  refine ⟨first ++ second, next, ?_, first, second, rfl, spelled, spelledOther⟩
  rw [String.toList_append, List.append_assoc, scanned, scannedOther, List.append_assoc]

/-- A text that anything may follow. -/
theorem Lexes.followedBy (lexes : Lexes Anything text spells) (others : Lexes ends other spellsOther) :
    Lexes ends (text ++ other) fun tokens =>
      ∃ first second, tokens = first ++ second ∧ spells first ∧ spellsOther second :=
  lexes.append others fun _ _ => trivial

theorem lexes_ignored {c : Char} (ignored : isIgnored c = true) :
    Lexes Anything (String.singleton c) (· = []) := by
  intro offset rest _
  refine ⟨[], offset + c.utf8Size, ?_, rfl⟩
  rw [String.toList_singleton]
  exact scanFrom_ignored ignored offset rest

/-- A separator after a text that it breaks. -/
theorem Lexes.beforeIgnored (lexes : Lexes Breaks text spells) {c : Char}
    (ignored : isIgnored c = true) : Lexes Anything (text ++ String.singleton c) spells := by
  refine (lexes.append (lexes_ignored ignored) fun rest _ => ?_).weaken ?_
  · rw [String.toList_singleton]
    exact breaks_of_isIgnored ignored rest
  · rintro _ ⟨first, _, rfl, spelled, rfl⟩
    rwa [List.append_nil]

theorem Lexes.afterIgnored (lexes : Lexes ends text spells) {c : Char}
    (ignored : isIgnored c = true) : Lexes ends (String.singleton c ++ text) spells := by
  refine ((lexes_ignored ignored).followedBy lexes).weaken ?_
  rintro _ ⟨_, second, rfl, rfl, spelled⟩
  exact spelled

/-- A text that is one lexeme. -/
theorem lexes_single {c : Char} {tail : List Char} {kind : TokenKind}
    (starts : text.toList = c :: tail) (kept : isIgnored c = false) (noComment : c ≠ '#')
    (scans : ∀ rest, ends rest →
      scanLexeme c (tail ++ rest) = { kind, chars := c :: tail, rest }) :
    Lexes ends text (IsSingle kind text) := by
  intro offset rest isEnd
  have scanned := scanFrom_lexeme kept noComment (by rw [scans rest isEnd]) offset
  rw [scans rest isEnd, ← starts, String.ofList_toList] at scanned
  rw [starts, List.cons_append]
  exact ⟨[_], _, scanned, _, rfl, rfl, rfl⟩

end

/-! ## Single tokens -/

theorem lexes_mark (mark : Punctuator) :
    Lexes Anything mark.text (IsSingle (.punctuator mark) mark.text) := by
  cases mark
  case spread =>
    exact lexes_single rfl (by decide) (by decide) fun _ _ => rfl
  all_goals exact lexes_single rfl (by decide) (by decide) fun _ _ => rfl

theorem isName_wordKind (word : String) : (wordKind word).isName = true := by
  unfold wordKind
  split <;> rfl

/-- A text that a name can have. -/
def IsWordText (text : String) : Prop :=
  text.toList.all isNameContinue = true ∧ text.toList.head?.any isNameStart = true

instance (text : String) : Decidable (IsWordText text) :=
  inferInstanceAs (Decidable (_ ∧ _))

theorem takeWhile_of_breaks {test : Char → Bool} {word rest : List Char}
    (all : ∀ c ∈ word, test c = true) (stops : ∀ c ∈ rest.head?, test c = false) :
    (word ++ rest).takeWhile test = word ∧ (word ++ rest).dropWhile test = rest := by
  rw [List.takeWhile_append_of_pos all, List.dropWhile_append_of_pos all]
  cases rest with
  | nil => exact ⟨List.append_nil word, rfl⟩
  | cons c others =>
      have stop : test c = false := stops c rfl
      simp [stop]

theorem isDigit_of_isNameStart {c : Char} (starts : isNameStart c = true) : c.isDigit = false := by
  rw [Bool.eq_false_iff]
  intro digit
  have starts : ((decide (c.val ≥ 'A'.val ∧ c.val ≤ 'Z'.val) ||
      (decide (c.val ≥ 'a'.val) && decide (c.val ≤ 'z'.val))) || c == '_') = true := starts
  simp only [Char.isDigit, Bool.or_eq_true, Bool.and_eq_true, decide_eq_true_eq, beq_iff_eq]
    at starts digit
  rcases starts with (⟨lower, _⟩ | ⟨lower, _⟩) | rfl
  · exact absurd (UInt32.le_trans lower digit.2) (by decide)
  · exact absurd (UInt32.le_trans lower digit.2) (by decide)
  · exact absurd digit.2 (by decide)

theorem lexes_word {text : String} (isWord : IsWordText text) :
    Lexes Breaks text (IsSingle (wordKind text) text) := by
  rcases isWord with ⟨continues, starts⟩
  rcases chars : text.toList with _ | ⟨c, tail⟩
  · rw [chars] at starts
    cases starts
  rw [chars] at continues starts
  have isStart : isNameStart c = true := starts
  have notMark : punctuator? c = none := by
    unfold punctuator?
    split <;> first | rfl | (exact absurd isStart (by decide))
  have letter {other : Char} (noStart : isNameStart other = false) : c ≠ other := by
    rintro rfl
    rw [noStart] at isStart
    cases isStart
  have noNumber : ¬(c = '-' ∨ c.isDigit = true) := by
    rintro (rfl | digit)
    · exact absurd isStart (by decide)
    · cases (isDigit_of_isNameStart isStart).symm.trans digit
  have kept : isIgnored c = false := by
    simp only [isIgnored, Bool.or_eq_false_iff, beq_eq_false_iff_ne, ne_eq]
    exact ⟨⟨⟨⟨⟨letter rfl, letter rfl⟩, letter rfl⟩, letter rfl⟩, letter rfl⟩, letter rfl⟩
  refine lexes_single chars kept (letter rfl) fun rest breaks => ?_
  have split := takeWhile_of_breaks (List.all_eq_true.mp continues) fun d first => (breaks d first).1
  rw [List.cons_append] at split
  have noPoint : c ≠ '.' := letter rfl
  have noQuote : c ≠ '"' := letter rfl
  unfold scanLexeme
  rw [notMark]
  dsimp only
  rw [if_neg noPoint, if_neg noQuote, if_neg noNumber, if_pos isStart, scanWord, split.1, split.2,
    ← chars, String.ofList_toList]

/-! ## Strings -/

theorem scanString_plain {c : Char} (noQuote : c ≠ '"') (noBackslash : c ≠ '\\')
    (noFeed : c ≠ '\n') (rest : List Char) :
    scanString (c :: rest) = (scanString rest).push c := by
  rw [scanString] <;> simp_all

/-- The closing quote ends a quoted string. -/
theorem scanString_flatMap_escape (chars rest : List Char) :
    scanString (chars.flatMap Text.escape ++ '"' :: rest) =
      { kind := .string, chars := chars.flatMap Text.escape ++ ['"'], rest } := by
  induction chars with
  | nil => rfl
  | cons c chars ih =>
      have shape := Text.isEscape c
      rw [List.flatMap_cons]
      generalize Text.escape c = text at shape
      cases shape with
      | plain noQuote noBackslash noFeed =>
          simp only [List.cons_append, List.nil_append]
          rw [scanString_plain noQuote noBackslash noFeed, ih]
          rfl
      | letter letter =>
          simp only [List.cons_append, List.nil_append]
          rw [scanString, ih]
          rfl
      | codePoint control =>
          have small := Text.toNat_lt_of_isControl control
          have digit (value : Nat) (isDigit : value < 16) (others : List Char) :
              scanString (Text.upperHexDigit value :: others) =
                (scanString others).push (Text.upperHexDigit value) := by
            rcases Text.upperHexDigit_ne value isDigit with ⟨_, noQuote, noBackslash, noFeed⟩
            exact scanString_plain noQuote noBackslash noFeed others
          simp only [Text.fourHexDigits, List.cons_append, List.nil_append]
          rw [scanString, digit _ (by omega), digit _ (by omega), digit _ (by omega),
            digit _ (by omega), ih]
          rfl

theorem toList_quote (text : String) :
    (Text.quote text).toList = '"' :: (text.toList.flatMap Text.escape ++ ['"']) := by
  rw [Text.quote, String.toList_ofList]
  rfl

theorem lexes_quote (text : String) :
    Lexes Breaks (Text.quote text) (IsSingle .string (Text.quote text)) := by
  refine lexes_single (toList_quote text) rfl (by decide) fun rest breaks => ?_
  have scanned := scanString_flatMap_escape text.toList rest
  rw [List.append_assoc, List.singleton_append]
  have single : ∀ others, text.toList.flatMap Text.escape ++ '"' :: rest ≠ '"' :: '"' :: others := by
    intro others same
    cases chars : text.toList with
    | nil =>
        rw [chars] at same
        have follows := (List.cons.inj same).2
        rw [follows] at breaks
        exact (breaks '"' rfl).2.2 rfl
    | cons c tail =>
        rcases Text.exists_cons_escape c with ⟨first, more, shape, noQuote⟩
        rw [chars, List.flatMap_cons, shape] at same
        exact noQuote (List.cons.inj same).1
  unfold scanLexeme
  rw [show punctuator? '"' = none from rfl]
  dsimp only
  rw [if_neg (by decide), if_pos rfl]
  split
  · exact absurd ‹_› (single _)
  · rw [scanned]
    rfl

/-! ## Numbers -/

theorem isDigit_of_breaks {rest : List Char} (breaks : Breaks rest) :
    ∀ c ∈ rest.head?, c.isDigit = false := by
  intro c first
  have continues := (breaks c first).1
  simp only [isNameContinue, Char.isAlphanum, Bool.or_eq_false_iff] at continues
  exact continues.1.2

theorem scanExponent_of_breaks {rest : List Char} (breaks : Breaks rest) (kind : TokenKind) :
    scanExponent kind rest = { kind, chars := [], rest } := by
  unfold scanExponent
  split
  · rfl
  · rename_i c others
    have continues := (breaks c rfl).1
    refine if_neg ?_
    rintro (rfl | rfl) <;> exact absurd continues (by decide)

theorem scanFraction_of_breaks {rest : List Char} (breaks : Breaks rest) :
    scanFraction rest = { kind := .int, chars := [], rest } := by
  unfold scanFraction
  split
  · exact absurd rfl (breaks '.' rfl).2.1
  · exact scanExponent_of_breaks breaks .int

/-- A point and digits, before an exponent or nothing. -/
theorem scanFraction_point (tail : List Char) {fraction rest : List Char} (nonempty : fraction ≠ [])
    (digits : ∀ c ∈ fraction, c.isDigit = true) (stops : ∀ c ∈ (tail ++ rest).head?, c.isDigit = false)
    (scans : scanExponent .float (tail ++ rest) = { kind := .float, chars := tail, rest }) :
    scanFraction ('.' :: (fraction ++ (tail ++ rest))) =
      { kind := .float, chars := '.' :: (fraction ++ tail), rest } := by
  have split := takeWhile_of_breaks digits stops
  obtain ⟨next, others, rfl⟩ := List.exists_cons_of_ne_nil nonempty
  have isDigit := digits next List.mem_cons_self
  rw [List.cons_append] at split ⊢
  unfold scanFraction
  simp only [isDigit, if_true, List.drop_succ_cons, List.drop_zero, split.1, split.2, scans]
  rfl

/-- The letter of an exponent, its sign and its digits. -/
theorem scanExponent_signed {sign : Char} (isSign : sign = '+' ∨ sign = '-') {exponent rest : List Char}
    (nonempty : exponent ≠ []) (digits : ∀ c ∈ exponent, c.isDigit = true)
    (stops : ∀ c ∈ rest.head?, c.isDigit = false) (kind : TokenKind) :
    scanExponent kind ('e' :: sign :: (exponent ++ rest)) =
      { kind := .float, chars := 'e' :: sign :: exponent, rest } := by
  have split := takeWhile_of_breaks digits stops
  have signed : ([sign].filter fun next => next == '+' || next == '-') = [sign] := by
    rcases isSign with rfl | rfl <;> rfl
  unfold scanExponent
  simp only [List.take_succ_cons, List.take_zero, signed, List.length_singleton,
    List.drop_succ_cons, List.drop_zero, split.1, split.2, List.isEmpty_eq_false_iff.mpr nonempty]
  rfl

theorem scanNumber_append {sign whole tail : List Char} {kind : TokenKind} (rest : List Char)
    (isSign : sign = [] ∨ sign = ['-']) (nonempty : whole ≠ [])
    (digits : ∀ c ∈ whole, c.isDigit = true) (stops : ∀ c ∈ (tail ++ rest).head?, c.isDigit = false)
    (scans : scanFraction (tail ++ rest) = { kind, chars := tail, rest }) :
    scanNumber (sign ++ (whole ++ (tail ++ rest))) =
      { kind, chars := sign ++ (whole ++ tail), rest } := by
  have split := takeWhile_of_breaks digits stops
  obtain ⟨first, others, rfl⟩ := List.exists_cons_of_ne_nil nonempty
  have noMinus : (first == '-') = false := by
    rw [beq_eq_false_iff_ne]
    rintro rfl
    exact absurd (digits '-' List.mem_cons_self) (by decide)
  have signed : ((sign ++ (first :: others ++ (tail ++ rest))).take 1).filter (· == '-') = sign := by
    rcases isSign with rfl | rfl
    · simp [noMinus]
    · simp
  unfold scanNumber
  simp only [signed, List.drop_left, split.1, split.2, scans, List.isEmpty_cons]
  simp

theorem lexes_number {text : String} {sign whole tail : List Char} {kind : TokenKind}
    (chars : text.toList = sign ++ (whole ++ tail)) (isSign : sign = [] ∨ sign = ['-'])
    (nonempty : whole ≠ []) (digits : ∀ c ∈ whole, c.isDigit = true)
    (stops : ∀ c ∈ tail.head?, c.isDigit = false)
    (scans : ∀ rest, Breaks rest → scanFraction (tail ++ rest) = { kind, chars := tail, rest }) :
    Lexes Breaks text (IsSingle kind text) := by
  have starts : ∃ c others, sign ++ (whole ++ tail) = c :: others ∧ (c = '-' ∨ c.isDigit = true) := by
    rcases isSign with rfl | rfl
    · obtain ⟨first, others, rfl⟩ := List.exists_cons_of_ne_nil nonempty
      exact ⟨first, _, rfl, .inr (digits first List.mem_cons_self)⟩
    · exact ⟨'-', _, rfl, .inl rfl⟩
  rcases starts with ⟨c, others, same, isStart⟩
  have other {d : Char} (noNumber : ¬(d = '-' ∨ d.isDigit = true)) : c ≠ d := by
    rintro rfl
    exact noNumber isStart
  have kept : isIgnored c = false := by
    simp only [isIgnored, Bool.or_eq_false_iff, beq_eq_false_iff_ne, ne_eq]
    exact ⟨⟨⟨⟨⟨other (by decide), other (by decide)⟩, other (by decide)⟩, other (by decide)⟩,
      other (by decide)⟩, other (by decide)⟩
  have noMark : punctuator? c = none := by
    unfold punctuator?
    split <;> first | rfl | (exact absurd rfl (other (by decide)))
  have noPoint : c ≠ '.' := other (by decide)
  have noQuote : c ≠ '"' := other (by decide)
  refine lexes_single (chars.trans same) kept (other (by decide)) fun rest breaks => ?_
  have scanned := scanNumber_append rest isSign nonempty digits ?_ (scans rest breaks)
  · rw [← List.append_assoc whole, ← List.append_assoc, same] at scanned
    unfold scanLexeme
    rw [noMark]
    dsimp only
    rw [if_neg noPoint, if_neg noQuote, if_pos isStart]
    exact scanned
  · cases tail with
    | nil => exact isDigit_of_breaks breaks
    | cons d tail => exact stops

theorem lexes_whole {text : String} {sign whole : List Char} (chars : text.toList = sign ++ whole)
    (isSign : sign = [] ∨ sign = ['-']) (nonempty : whole ≠ [])
    (digits : ∀ c ∈ whole, c.isDigit = true) : Lexes Breaks text (IsSingle .int text) := by
  rw [← List.append_nil whole] at chars
  exact lexes_number chars isSign nonempty digits (by simp) fun rest => scanFraction_of_breaks

theorem lexes_positional {text : String} {sign whole fraction : List Char}
    (chars : text.toList = sign ++ (whole ++ '.' :: fraction)) (isSign : sign = [] ∨ sign = ['-'])
    (nonempty : whole ≠ []) (digits : ∀ c ∈ whole, c.isDigit = true) (fractional : fraction ≠ [])
    (fractionDigits : ∀ c ∈ fraction, c.isDigit = true) :
    Lexes Breaks text (IsSingle .float text) := by
  refine lexes_number chars isSign nonempty digits (by simp) fun rest breaks => ?_
  have scanned := scanFraction_point [] fractional fractionDigits (isDigit_of_breaks breaks)
    (scanExponent_of_breaks breaks .float)
  simpa using scanned

/-- One digit, maybe a point and more of them, and an exponent with its sign. -/
theorem lexes_scientific {text : String} {sign whole point exponent : List Char} {exponentSign : Char}
    (chars : text.toList = sign ++ (whole ++ (point ++ 'e' :: exponentSign :: exponent)))
    (isSign : sign = [] ∨ sign = ['-']) (nonempty : whole ≠ [])
    (digits : ∀ c ∈ whole, c.isDigit = true)
    (pointed : point = [] ∨ ∃ fraction, point = '.' :: fraction ∧ fraction ≠ [] ∧
      ∀ c ∈ fraction, c.isDigit = true)
    (isExponentSign : exponentSign = '+' ∨ exponentSign = '-') (present : exponent ≠ [])
    (exponentDigits : ∀ c ∈ exponent, c.isDigit = true) :
    Lexes Breaks text (IsSingle .float text) := by
  refine lexes_number chars isSign nonempty digits ?_ fun rest breaks => ?_
  · rcases pointed with rfl | ⟨fraction, rfl, _⟩ <;> simp
  · have scanned := fun kind => scanExponent_signed isExponentSign present exponentDigits
      (isDigit_of_breaks breaks) kind
    rcases pointed with rfl | ⟨fraction, rfl, fractional, fractionDigits⟩
    · rw [List.nil_append]
      exact scanned .int
    · have whole := scanFraction_point ('e' :: exponentSign :: exponent) fractional
        fractionDigits (by simp) (scanned .float)
      simpa using whole

end Token
end GraphQL
