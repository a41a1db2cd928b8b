import GraphQL.Proofs.Token.Lexing
import GraphQL.Text.Block

/-!
# Text inside block strings

A block string goes on as long as no three quotes come without a backslash before them. Text that
does not end a block string can be cut at white space and split into lines, and its lines do not end
one either.
-/

namespace GraphQL
namespace Text

/-- No three quotes at the front, with or without a backslash before them. -/
def IsPlainFront (text : List Char) : Prop :=
  (∀ rest, text ≠ '"' :: '"' :: '"' :: rest) ∧ ∀ rest, text ≠ '\\' :: '"' :: '"' :: '"' :: rest

theorem IsPlainFront.of_ne {c : Char} (noQuote : c ≠ '"') (noBackslash : c ≠ '\\')
    (rest : List Char) : IsPlainFront (c :: rest) :=
  ⟨fun _ same => noQuote (List.cons.inj same).1, fun _ same => noBackslash (List.cons.inj same).1⟩

/-- What follows a plain front does not matter if it does not start with a quote. -/
theorem IsPlainFront.append {c d : Char} {text rest : List Char}
    (plain : IsPlainFront (c :: text)) (noQuote : d ≠ '"') :
    IsPlainFront (c :: (text ++ d :: rest)) := by
  constructor
  · intro more same
    match text with
    | [] => simp_all
    | [_] => simp_all
    | first :: second :: text => simp_all [IsPlainFront]
  · intro more same
    match text with
    | [] => simp_all
    | [_] => simp_all
    | [_, _] => simp_all
    | first :: second :: third :: text => simp_all [IsPlainFront]

theorem IsPlainFront.of_append {text rest : List Char} (plain : IsPlainFront (text ++ rest)) :
    IsPlainFront text := by
  constructor
  · rintro more rfl
    exact plain.1 _ rfl
  · rintro more rfl
    exact plain.2 _ rfl

/-- The text does not end a block string. -/
inductive StaysOpen : List Char → Prop where
  | nil : StaysOpen []
  | escaped {rest : List Char} (others : StaysOpen rest) :
      StaysOpen ('\\' :: '"' :: '"' :: '"' :: rest)
  | cons {c : Char} {rest : List Char} (plain : IsPlainFront (c :: rest))
      (others : StaysOpen rest) : StaysOpen (c :: rest)

namespace StaysOpen

/-- The front of a text. -/
theorem of_append {text rest : List Char} (stays : StaysOpen (text ++ rest)) : StaysOpen text := by
  generalize whole : text ++ rest = all at stays
  induction stays generalizing text with
  | nil =>
      rw [(List.append_eq_nil_iff.mp whole).1]
      exact .nil
  | escaped others ih =>
      match text with
      | [] => exact .nil
      | [_] =>
          cases whole
          exact .cons ⟨by simp, by simp⟩ .nil
      | [_, _] =>
          cases whole
          exact .cons ⟨by simp, by simp⟩ (.cons ⟨by simp, by simp⟩ .nil)
      | [_, _, _] =>
          cases whole
          exact .cons ⟨by simp, by simp⟩
            (.cons ⟨by simp, by simp⟩ (.cons ⟨by simp, by simp⟩ .nil))
      | _ :: _ :: _ :: _ :: text =>
          cases whole
          exact .escaped (ih rfl)
  | cons plain others ih =>
      match text with
      | [] => exact .nil
      | _ :: text =>
          cases whole
          exact .cons plain.of_append (ih rfl)

/-- A backslash may protect the quotes after it, any other character can be left out. -/
theorem of_cons {c : Char} {text : List Char} (stays : StaysOpen (c :: text)) (other : c ≠ '\\') :
    StaysOpen text := by
  cases stays with
  | escaped => exact absurd rfl other
  | cons _ others => exact others

/-- The text after a line feed. -/
theorem of_append_cons {text rest : List Char} (stays : StaysOpen (text ++ '\n' :: rest)) :
    StaysOpen rest := by
  generalize whole : text ++ '\n' :: rest = all at stays
  induction stays generalizing text with
  | nil => simp at whole
  | escaped others ih =>
      match text with
      | [] => cases whole
      | [_] => cases whole
      | [_, _] => cases whole
      | [_, _, _] => cases whole
      | _ :: _ :: _ :: _ :: text =>
          cases whole
          exact ih rfl
  | cons plain others ih =>
      match text with
      | [] =>
          cases whole
          exact others
      | _ :: text =>
          cases whole
          exact ih rfl

theorem trimStart {text : List Char} (stays : StaysOpen text) : StaysOpen (Text.trimStart text) := by
  induction text with
  | nil => exact stays
  | cons c text ih =>
      rw [Text.trimStart, List.dropWhile_cons]
      split
      · rename_i blank
        refine ih (stays.of_cons ?_)
        rintro rfl
        exact absurd blank (by decide)
      · exact stays

theorem trim {text : List Char} (stays : StaysOpen text) : StaysOpen (Text.trim text) := by
  have whole := List.takeWhile_append_dropWhile (p := isWhiteSpace) (l := (Text.trimStart text).reverse)
  have trimmed : trimEnd (Text.trimStart text) ++
      ((Text.trimStart text).reverse.takeWhile isWhiteSpace).reverse = Text.trimStart text := by
    rw [trimEnd, ← List.reverse_append, whole, List.reverse_reverse]
  have stays := stays.trimStart
  rw [← trimmed] at stays
  exact stays.of_append

theorem withoutReturn {line : List Char} (stays : StaysOpen line) :
    StaysOpen (Text.withoutReturn line) := by
  unfold Text.withoutReturn
  split
  · rename_i last
    rcases List.getLast?_eq_some_iff.mp last with ⟨front, rfl⟩
    rw [List.dropLast_concat]
    exact stays.of_append
  · exact stays

theorem splitLines {line text : List Char} (stays : StaysOpen (line ++ text)) :
    ∀ part ∈ Text.splitLines line text, StaysOpen part := by
  induction text generalizing line with
  | nil =>
      intro part member
      rw [Text.splitLines] at member
      split at member
      · cases member
      · rw [List.mem_singleton.mp member]
        exact stays.of_append
  | cons c text ih =>
      intro part member
      rw [Text.splitLines] at member
      split at member
      · rename_i isFeed
        subst isFeed
        rcases List.mem_cons.mp member with rfl | member
        · exact stays.of_append.withoutReturn
        · have others : StaysOpen ([] ++ text) := stays.of_append_cons
          exact ih others part member
      · refine ih ?_ part member
        rwa [List.append_assoc]

theorem lines {text : List Char} (stays : StaysOpen text) :
    ∀ line ∈ Text.lines text, StaysOpen line :=
  splitLines stays

/-- Blanks before a text. -/
theorem append_spaces {text : List Char} (stays : StaysOpen text) (count : Nat) :
    StaysOpen (List.replicate count ' ' ++ text) := by
  induction count with
  | zero => exact stays
  | succ count ih =>
      rw [List.replicate_succ]
      exact .cons (.of_ne (by decide) (by decide) _) ih

end StaysOpen

end Text

namespace Token

open Text

/-! ## Scanning -/

theorem scanBlockString_cons {c : Char} {rest : List Char} (plain : IsPlainFront (c :: rest)) :
    scanBlockString (c :: rest) = (scanBlockString rest).push c := by
  rw [scanBlockString]
  · rintro more rfl rfl
    exact plain.1 more rfl
  · rintro more rfl rfl
    exact plain.2 more rfl

/-- Puts characters before a lexeme. -/
def Lexeme.after (chars : List Char) (lexeme : Lexeme) : Lexeme :=
  { lexeme with chars := chars ++ lexeme.chars }

/-- A line that stays open belongs to the block string around it. -/
theorem scanBlockString_line {line : List Char} (stays : StaysOpen line) (rest : List Char) :
    scanBlockString (line ++ '\n' :: rest) =
      Lexeme.after (line ++ ['\n']) (scanBlockString rest) := by
  induction stays with
  | nil => exact scanBlockString_cons (.of_ne (by decide) (by decide) rest)
  | escaped others ih =>
      simp only [List.cons_append]
      rw [scanBlockString, ih]
      rfl
  | cons plain others ih =>
      rw [List.cons_append, scanBlockString_cons (plain.append (by decide)), ih]
      rfl

/-- The text between the quotes of a block string stays open. -/
theorem staysOpen_scanBlockString {chars : List Char}
    (isString : (scanBlockString chars).kind = .blockString) :
    ∃ body, (scanBlockString chars).chars = body ++ ['"', '"', '"'] ∧ StaysOpen body ∧
      ∃ rest, chars = body ++ '"' :: '"' :: '"' :: rest := by
  fun_induction scanBlockString chars with
  | case1 => cases isString
  | case2 rest => exact ⟨[], rfl, .nil, rest, rfl⟩
  | case3 rest ih =>
      rcases ih isString with ⟨body, closed, stays, others, rfl⟩
      refine ⟨_, ?_, .escaped stays, others, rfl⟩
      simp only [Lexeme.push, closed]
      rfl
  | case4 c rest notClosing notEscaped ih =>
      rcases ih isString with ⟨body, closed, stays, others, rfl⟩
      refine ⟨c :: body, ?_, .cons ⟨?_, ?_⟩ stays, others, rfl⟩
      · simp only [Lexeme.push, closed]
        rfl
      · intro more same
        cases same
        exact notClosing _ rfl rfl
      · intro more same
        cases same
        exact notEscaped _ rfl rfl

/-- No quote stands free between the quotes of a string. -/
theorem staysOpen_scanString {chars : List Char} (isString : (scanString chars).kind = .string) :
    ∃ body, (scanString chars).chars = body ++ ['"'] ∧ StaysOpen body ∧ body.head? ≠ some '"' := by
  fun_induction scanString chars with
  | case1 => cases isString
  | case2 rest => exact ⟨[], rfl, .nil, by simp⟩
  | case3 => cases isString
  | case4 c rest ih =>
      rcases ih isString with ⟨body, closed, stays, starts⟩
      have single (more : List Char) : body ≠ '"' :: more := by
        rintro rfl
        exact starts rfl
      refine ⟨'\\' :: c :: body, ?_, .cons ⟨by simp, ?_⟩ (.cons ⟨?_, ?_⟩ stays), by simp⟩
      · simp only [Lexeme.push, closed]
        rfl
      · intro more same
        cases same
        exact single _ rfl
      · intro more same
        cases same
        exact single _ rfl
      · intro more same
        cases same
        exact single _ rfl
  | case5 => cases isString
  | case6 c rest noQuote notLast notEscaping noFeed ih =>
      rcases ih isString with ⟨body, closed, stays, starts⟩
      have noBackslash : c ≠ '\\' := by
        intro isBackslash
        cases rest with
        | nil => exact notLast isBackslash rfl
        | cons d rest => exact notEscaping d rest isBackslash rfl
      refine ⟨c :: body, ?_, .cons (.of_ne noQuote noBackslash body) stays, ?_⟩
      · simp only [Lexeme.push, closed]
        rfl
      · simpa using noQuote

theorem kind_scanNumber_ne (chars : List Char) :
    (scanNumber chars).kind ≠ .string ∧ (scanNumber chars).kind ≠ .blockString := by
  have exponent {kind : TokenKind} (other : kind ≠ .string ∧ kind ≠ .blockString)
      (chars : List Char) :
      (scanExponent kind chars).kind ≠ .string ∧ (scanExponent kind chars).kind ≠ .blockString := by
    unfold scanExponent
    split
    · exact other
    · split
      · dsimp only
        split <;> decide
      · exact other
  have fraction (chars : List Char) :
      (scanFraction chars).kind ≠ .string ∧ (scanFraction chars).kind ≠ .blockString := by
    unfold scanFraction
    split
    · split <;> exact exponent (by decide) _
    · exact exponent (by decide) _
  unfold scanNumber
  dsimp only
  split
  · simp
  · exact fraction _

/-- A lexeme for a string starts with a quote, and with three of them for a block string. -/
theorem scanLexeme_quoted {c : Char} {rest : List Char}
    (isString : (scanLexeme c rest).kind = .string ∨ (scanLexeme c rest).kind = .blockString) :
    (∃ others, scanLexeme c rest = Lexeme.after ['"', '"', '"'] (scanBlockString others)) ∨
      scanLexeme c rest = (scanString rest).push '"' := by
  have noMark {mark : Punctuator} :
      ¬(TokenKind.punctuator mark = .string ∨ TokenKind.punctuator mark = .blockString) := by simp
  have noError : ¬(TokenKind.invalid = .string ∨ TokenKind.invalid = .blockString) := by simp
  unfold scanLexeme at isString ⊢
  split
  · rename_i isMark
    rw [isMark] at isString
    exact absurd isString noMark
  · rename_i isNone
    rw [isNone] at isString
    dsimp only at isString
    split
    · rename_i isPoint
      rw [if_pos isPoint] at isString
      split at isString
      · exact absurd isString noMark
      · exact absurd isString noError
    · rename_i noPoint
      rw [if_neg noPoint] at isString
      split
      · rename_i isQuote
        subst isQuote
        split
        · exact .inl ⟨_, rfl⟩
        · exact .inr rfl
      · rename_i noQuote
        rw [if_neg noQuote] at isString
        split
        · rename_i isNumber
          rw [if_pos isNumber] at isString
          exact absurd isString (not_or.mpr (kind_scanNumber_ne _))
        · rename_i noNumber
          rw [if_neg noNumber] at isString
          split at isString
          · have isName := isName_wordKind (String.ofList ((c :: rest).takeWhile isNameContinue))
            rw [scanWord] at isString
            dsimp only at isString
            rcases isString with isString | isString <;> rw [isString] at isName <;> cases isName
          · exact absurd isString noError

theorem kind_scanBlockString_ne (chars : List Char) : (scanBlockString chars).kind ≠ .string := by
  fun_induction scanBlockString chars <;> simp_all [Lexeme.push]

theorem kind_scanString_ne (chars : List Char) : (scanString chars).kind ≠ .blockString := by
  fun_induction scanString chars <;> simp_all [Lexeme.push]

/-- Between the quotes of a string is text that stays open. -/
def IsQuoted (token : Token) : Prop :=
  (token.kind = .string → ∀ text, token.text? = some text →
    ∃ body, text.toList = '"' :: (body ++ ['"']) ∧ StaysOpen body) ∧
  (token.kind = .blockString → ∀ text, token.text? = some text →
    ∃ body, text.toList = '"' :: '"' :: '"' :: (body ++ ['"', '"', '"']) ∧ StaysOpen body)

theorem isQuoted_of_mem_scanFrom {offset : Nat} {chars : List Char} {token : Token}
    (member : token ∈ scanFrom offset chars) : token.IsQuoted := by
  fun_induction scanFrom offset chars with
  | case1 =>
      cases List.mem_singleton.mp member
      exact ⟨fun isString => (by cases isString), fun isString => (by cases isString)⟩
  | case2 =>
      simp only [List.mem_cons, List.not_mem_nil, or_false] at member
      rcases member with rfl | rfl <;>
        exact ⟨fun _ _ reads => (by cases reads), fun _ _ reads => (by cases reads)⟩
  | case3 offset chars ignored c rest parts start lexeme size pastEnd ih =>
      rcases List.mem_cons.mp member with rfl | member
      · have quoted := @scanLexeme_quoted c rest
        refine ⟨fun isString text reads => ?_, fun isString text reads => ?_⟩
        · cases reads
          have isString : (scanLexeme c rest).kind = .string := isString
          rcases quoted (.inl isString) with ⟨others, same⟩ | same
          · rw [same] at isString
            exact absurd isString (kind_scanBlockString_ne others)
          · rw [same] at isString
            rcases staysOpen_scanString isString with ⟨body, closed, stays, _⟩
            refine ⟨body, ?_, stays⟩
            rw [String.toList_ofList, show lexeme = _ from same]
            exact congrArg ('"' :: ·) closed
        · cases reads
          have isString : (scanLexeme c rest).kind = .blockString := isString
          rcases quoted (.inr isString) with ⟨others, same⟩ | same
          · rw [same] at isString
            rcases staysOpen_scanBlockString isString with ⟨body, closed, stays, _⟩
            refine ⟨body, ?_, stays⟩
            rw [String.toList_ofList, show lexeme = _ from same]
            exact congrArg (fun chars => '"' :: '"' :: '"' :: chars) closed
          · rw [same] at isString
            exact absurd isString (kind_scanString_ne rest)
      · exact ih member

end Token
end GraphQL
