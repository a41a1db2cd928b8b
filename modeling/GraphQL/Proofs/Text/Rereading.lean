import GraphQL.Proofs.Text.Block

/-!
# Descriptions that are written and read

A description is read as it is written between its quotes, without the white space around it: its
escapes are not resolved and the indentation of its lines is not removed. It is written with escapes
on a line of its own, or line by line with an indentation. So a description is read as it was before
only if there is nothing to escape in it, or if its lines are not indented and end in line feeds.
-/

namespace GraphQL
namespace Text

/-! ## Trimmed texts -/

/-- No white space at either end. -/
def IsTrimmed (text : List Char) : Prop :=
  (∀ c ∈ text.head?, isWhiteSpace c = false) ∧ ∀ c ∈ text.getLast?, isWhiteSpace c = false

theorem head_trimStart (text : List Char) : ∀ c ∈ (trimStart text).head?, isWhiteSpace c = false := by
  intro c first
  have stops := List.head?_dropWhile_not isWhiteSpace text
  rw [← trimStart, Option.mem_def.mp first] at stops
  simpa using stops

theorem getLast_trimEnd (text : List Char) : ∀ c ∈ (trimEnd text).getLast?, isWhiteSpace c = false := by
  intro c last
  rw [trimEnd, List.getLast?_reverse] at last
  exact head_trimStart text.reverse c last

theorem trimEnd_eq_nil_or_head {text : List Char} :
    trimEnd text = [] ∨ (trimEnd text).head? = text.head? := by
  have whole : trimEnd text ++ (text.reverse.takeWhile isWhiteSpace).reverse = text := by
    rw [trimEnd, ← List.reverse_append, List.takeWhile_append_dropWhile, List.reverse_reverse]
  cases front : trimEnd text with
  | nil => exact .inl rfl
  | cons c rest =>
      rw [front] at whole
      exact .inr (by rw [← whole]; rfl)

theorem isTrimmed_trim (text : List Char) : IsTrimmed (trim text) := by
  refine ⟨?_, getLast_trimEnd _⟩
  rcases @trimEnd_eq_nil_or_head (trimStart text) with none | same
  · rw [trim, none]
    nofun
  · rw [trim, same]
    exact head_trimStart text

theorem trimStart_append {front text : List Char} (blank : ∀ c ∈ front, isWhiteSpace c = true)
    (starts : ∀ c ∈ text.head?, isWhiteSpace c = false) : trimStart (front ++ text) = text := by
  rw [trimStart, List.dropWhile_append_of_pos blank]
  cases text with
  | nil => rfl
  | cons c rest => simp [starts c rfl]

/-- White space around a trimmed text is trimmed. -/
theorem trim_append {front text back : List Char} (blank : ∀ c ∈ front, isWhiteSpace c = true)
    (blankBack : ∀ c ∈ back, isWhiteSpace c = true) (trimmed : IsTrimmed text) :
    trim (front ++ text ++ back) = text := by
  have ends : trimEnd (text ++ back) = text := by
    have reversed := @trimStart_append back.reverse text.reverse (by simpa using blankBack)
      (by rw [List.head?_reverse]; exact trimmed.2)
    rw [trimEnd, List.reverse_append, ← trimStart, reversed, List.reverse_reverse]
  cases text with
  | nil =>
      have all : ∀ c ∈ front ++ back, isWhiteSpace c = true := fun c member =>
        (List.mem_append.mp member).elim (blank c) (blankBack c)
      have none := @trimStart_append _ [] all (by simp)
      rw [List.append_nil] at none
      rw [List.append_nil, trim, none]
      rfl
  | cons c rest =>
      have cut : trimStart (front ++ (c :: rest ++ back)) = c :: rest ++ back :=
        trimStart_append blank trimmed.1
      rw [trim, List.append_assoc, cut, ends]

/-! ## Escapes -/

theorem isWhiteSpace_upperHexDigit : ∀ value < 16, isWhiteSpace (upperHexDigit value) = false := by
  decide

theorem isTrimmed_escape {c : Char} (black : isWhiteSpace c = false) : IsTrimmed (escape c) := by
  have shape := isEscape c
  generalize escape c = text at shape
  cases shape with
  | plain => simpa [IsTrimmed] using black
  | letter letter resolves =>
      have blackLetter : isWhiteSpace letter = false := by
        rw [Bool.eq_false_iff]
        intro white
        have other (d : Char) (isBlack : isWhiteSpace d = false) : letter ≠ d := by
          rintro rfl
          exact Bool.false_ne_true (isBlack.symm.trans white)
        have same : resolveLetter letter = letter := by
          rw [resolveLetter, if_neg (other 'n' (by decide)), if_neg (other 't' (by decide)),
            if_neg (other 'r' (by decide)), if_neg (other 'b' (by decide)),
            if_neg (other 'f' (by decide))]
        rw [← resolves, same, white] at black
        cases black
      exact ⟨by simp [show isWhiteSpace '\\' = false by decide], by simpa using blackLetter⟩
  | codePoint =>
      have last := isWhiteSpace_upperHexDigit (c.toNat % 16) (by omega)
      exact ⟨by simp [show isWhiteSpace '\\' = false by decide], by simpa [fourHexDigits] using last⟩

theorem escape_ne_nil (c : Char) : escape c ≠ [] := by
  rcases exists_cons_escape c with ⟨first, others, same, _⟩
  rw [same]
  exact List.cons_ne_nil _ _

theorem isTrimmed_flatMap_escape {text : List Char} (trimmed : IsTrimmed text) :
    IsTrimmed (text.flatMap escape) := by
  constructor
  · cases text with
    | nil => nofun
    | cons c rest =>
        rcases exists_cons_escape c with ⟨first, others, same, _⟩
        have starts := (isTrimmed_escape (trimmed.1 c rfl)).1
        rw [same] at starts
        rwa [List.flatMap_cons, same]
  · rcases List.eq_nil_or_concat text with rfl | ⟨front, c, rfl⟩
    · nofun
    · have filled : (escape c).getLast? = some ((escape c).getLast (escape_ne_nil c)) :=
        List.getLast?_eq_some_getLast _
      have ends := (isTrimmed_escape (trimmed.2 c (by simp))).2
      rw [filled] at ends
      rwa [List.concat_eq_append, List.flatMap_append, List.flatMap_singleton, List.getLast?_append,
        filled]

/-- Neither a quote nor a backslash nor a control character. -/
def isUnescaped (c : Char) : Bool :=
  c != '"' && c != '\\' && !isControl c

theorem escape_of_isUnescaped {c : Char} (plain : isUnescaped c = true) : escape c = [c] := by
  simp only [isUnescaped, Bool.and_eq_true, bne_iff_ne, Bool.not_eq_true'] at plain
  rcases plain with ⟨⟨noQuote, noBackslash⟩, noControl⟩
  have other (d : Char) (control : isControl d = true) : c ≠ d := by
    rintro rfl
    exact Bool.false_ne_true (noControl.symm.trans control)
  rw [escape, if_neg noQuote, if_neg noBackslash, if_neg (other '\n' rfl), if_neg (other '\r' rfl),
    if_neg (other '\t' rfl), if_neg (by simp [noControl])]

theorem escape_of_not_isUnescaped {c : Char} (special : isUnescaped c = false) :
    ∃ letter rest, escape c = '\\' :: letter :: rest := by
  by_cases noQuote : c = '"'
  · exact ⟨'"', [], by simp [escape, noQuote]⟩
  by_cases noBackslash : c = '\\'
  · exact ⟨'\\', [], by simp [escape, noBackslash]⟩
  have control : isControl c = true := by simpa [isUnescaped, noQuote, noBackslash] using special
  unfold escape
  rw [if_neg noQuote, if_neg noBackslash, if_pos control]
  split
  · exact ⟨_, _, rfl⟩
  · split
    · exact ⟨_, _, rfl⟩
    · split
      · exact ⟨_, _, rfl⟩
      · exact ⟨_, _, rfl⟩

theorem feed_not_mem_escape (c : Char) : '\n' ∉ escape c := by
  have digit (value : Nat) (small : value < 16) : '\n' ≠ upperHexDigit value :=
    (upperHexDigit_ne value small).2.2.2.symm
  unfold escape
  split
  · decide
  · split
    · decide
    · split
      · decide
      · rename_i noFeed
        split
        · decide
        · split
          · decide
          · split
            · rename_i control
              have small := toNat_lt_of_isControl control
              simp only [fourHexDigits, List.mem_cons, List.not_mem_nil, or_false]
              rintro (isFeed | isFeed | isFeed | isFeed | isFeed | isFeed)
              · cases isFeed
              · cases isFeed
              · exact digit _ (by omega) isFeed
              · exact digit _ (by omega) isFeed
              · exact digit _ (by omega) isFeed
              · exact digit _ (by omega) isFeed
            · simpa using Ne.symm noFeed

/-- Nothing in the text is escaped if it is written as it is. -/
theorem flatMap_escape_eq_iff {text : List Char} :
    text.flatMap escape = text ↔ text.all isUnescaped = true := by
  have length (text : List Char) : text.length ≤ (text.flatMap escape).length := by
    induction text with
    | nil => exact Nat.le_refl 0
    | cons c rest ih =>
        have filled := List.length_pos_iff.mpr (escape_ne_nil c)
        simp only [List.flatMap_cons, List.length_append, List.length_cons]
        omega
  induction text with
  | nil => simp
  | cons c rest ih =>
      rw [List.flatMap_cons, List.all_cons, Bool.and_eq_true]
      cases plain : isUnescaped c with
      | true => simp [escape_of_isUnescaped plain, ih]
      | false =>
          rcases escape_of_not_isUnescaped plain with ⟨letter, others, shape⟩
          have longRest := length rest
          refine ⟨fun same => ?_, fun absent => absurd absent.1 Bool.false_ne_true⟩
          have sizes := congrArg List.length same
          simp only [shape, List.length_append, List.length_cons] at sizes
          omega

/-- What an escape is written with is escaped itself. -/
theorem all_isUnescaped_of_flatMap_escape {text : List Char}
    (plain : (text.flatMap escape).all isUnescaped = true) : text.all isUnescaped = true := by
  rw [List.all_flatMap, List.all_eq_true] at plain
  rw [List.all_eq_true]
  intro c member
  cases special : isUnescaped c with
  | true => rfl
  | false =>
      rcases escape_of_not_isUnescaped special with ⟨letter, rest, shape⟩
      have written := plain c member
      rw [shape, List.all_cons, show isUnescaped '\\' = false by decide, Bool.false_and] at written
      cases written

/-! ## Lines -/

/-- A text that does not end in a line feed, and its lines: they lose a carriage return before a
line feed. -/
inductive Lined : List Char → List (List Char) → Prop where
  | last {line : List Char} (filled : line ≠ []) (single : '\n' ∉ line) : Lined line [line]
  | cons {line rest : List Char} {others : List (List Char)} (single : '\n' ∉ line)
      (lined : Lined rest others) : Lined (line ++ '\n' :: rest) (withoutReturn line :: others)

theorem splitLines_append {line chars : List Char} (single : '\n' ∉ chars) (rest : List Char) :
    splitLines line (chars ++ rest) = splitLines (line ++ chars) rest := by
  induction chars generalizing line with
  | nil => rw [List.append_nil, List.nil_append]
  | cons c chars ih =>
      rw [List.mem_cons, not_or] at single
      rw [List.cons_append, splitLines, if_neg (Ne.symm single.1), ih single.2, List.append_assoc]
      rfl

theorem lines_append_feed {line : List Char} (single : '\n' ∉ line) (rest : List Char) :
    lines (line ++ '\n' :: rest) = withoutReturn line :: lines rest := by
  rw [lines, splitLines_append single, splitLines, if_pos rfl]
  rfl

theorem lines_of_not_mem {line : List Char} (single : '\n' ∉ line) (filled : line ≠ []) :
    lines line = [line] := by
  have whole := @splitLines_append [] line single []
  rw [List.append_nil, List.nil_append, splitLines, if_neg (by simpa using filled)] at whole
  exact whole

theorem lined_lines {text : List Char} {c : Char} (last : text.getLast? = some c)
    (ends : c ≠ '\n') : Lined text (lines text) := by
  induction size : text.length using Nat.strongRecOn generalizing text with
  | _ size ih =>
      by_cases several : '\n' ∈ text
      · rcases List.eq_append_cons_of_mem several with ⟨line, rest, rfl, single⟩
        have filled : rest ≠ [] := by
          rintro rfl
          rw [List.getLast?_append, List.getLast?_singleton] at last
          exact ends (Option.some.inj last).symm
        have lastRest : rest.getLast? = some c := by
          rw [List.getLast?_append, List.getLast?_cons] at last
          rcases List.eq_nil_or_concat rest with rfl | ⟨front, d, rfl⟩
          · exact absurd rfl filled
          · simpa using last
        rw [lines_append_feed single]
        refine .cons single (ih rest.length ?_ lastRest rfl)
        rw [← size, List.length_append, List.length_cons]
        omega
      · have filled : text ≠ [] := by
          rintro rfl
          cases last
        rw [lines_of_not_mem several filled]
        exact .last filled several

/-! ### Joined lines -/

/-- The lines with an indentation before each of them but the first. -/
def rejoin (indentation text : List Char) : List Char :=
  ('\n' :: indentation).intercalate (lines text)

theorem Lined.exists_cons {text : List Char} {lines : List (List Char)} (lined : Lined text lines) :
    ∃ first others, lines = first :: others := by
  cases lined with
  | last => exact ⟨_, [], rfl⟩
  | cons => exact ⟨_, _, rfl⟩

theorem Lined.join_cons {rest : List Char} {others : List (List Char)} (lined : Lined rest others)
    (separator line : List Char) : separator.intercalate (line :: others) =
      line ++ (separator ++ separator.intercalate others) := by
  rcases lined.exists_cons with ⟨second, more, rfl⟩
  simp [List.intercalate]

theorem Lined.filled {text : List Char} {lines : List (List Char)} (lined : Lined text lines) :
    text ≠ [] := by
  cases lined with
  | last filled => exact filled
  | cons => simp

theorem head?_withoutReturn {line : List Char} (starts : line.head? ≠ some '\r') :
    (withoutReturn line).head? = line.head? := by
  unfold withoutReturn
  split
  · rename_i last
    rcases List.getLast?_eq_some_iff.mp last with ⟨front, rfl⟩
    cases front with
    | nil => exact absurd rfl starts
    | cons c front => rw [List.dropLast_concat, List.cons_append, List.head?_cons, List.head?_cons]
  · rfl

theorem Lined.getLast?_join {text separator : List Char} {lines : List (List Char)}
    (lined : Lined text lines) : (separator.intercalate lines).getLast? = text.getLast? := by
  induction lined with
  | last filled => simp [List.intercalate]
  | @cons line rest others single lined ih =>
      have ends : rest.getLast? = some (rest.getLast lined.filled) :=
        List.getLast?_eq_some_getLast _
      rw [lined.join_cons, List.getLast?_append, List.getLast?_append, ih, List.getLast?_append,
        List.getLast?_cons, ends]
      rfl

theorem Lined.head?_join {text separator : List Char} {lines : List (List Char)}
    (lined : Lined text lines) (starts : ∀ c ∈ text.head?, isWhiteSpace c = false) :
    (separator.intercalate lines).head? = text.head? := by
  cases lined with
  | last filled => simp [List.intercalate]
  | @cons line rest others single lined =>
      cases line with
      | nil => exact absurd (starts '\n' rfl) (by decide)
      | cons c line =>
          have kept : (withoutReturn (c :: line)).head? = some c := by
            refine head?_withoutReturn fun isReturn => ?_
            cases isReturn
            exact absurd (starts '\r' rfl) (by decide)
          rw [lined.join_cons, List.head?_append, kept]
          rfl

theorem Lined.feed_mem_join {text indentation : List Char} {lines : List (List Char)}
    (lined : Lined text lines) (several : '\n' ∈ text) :
    '\n' ∈ ('\n' :: indentation).intercalate lines := by
  cases lined with
  | last _ single => exact absurd several single
  | cons single lined => simp [lined.join_cons]

/-- The lines of a trimmed text are a trimmed text when they are joined. -/
theorem Lined.isTrimmed_join {text separator : List Char} {lines : List (List Char)}
    (lined : Lined text lines) (trimmed : IsTrimmed text) :
    IsTrimmed (separator.intercalate lines) := by
  rw [IsTrimmed, lined.getLast?_join, lined.head?_join trimmed.1]
  exact trimmed

theorem withoutReturn_subset (line : List Char) : withoutReturn line ⊆ line := by
  unfold withoutReturn
  split
  · exact List.dropLast_subset line
  · exact List.Subset.refl line

theorem length_withoutReturn (line : List Char) :
    line.length ≤ (withoutReturn line).length + 1 := by
  unfold withoutReturn
  split
  · rw [List.length_dropLast]
    omega
  · omega

theorem Lined.length_le_join {text indentation : List Char} {lines : List (List Char)}
    (lined : Lined text lines) (wide : 2 ≤ indentation.length) :
    text.length ≤ (('\n' :: indentation).intercalate lines).length := by
  induction lined with
  | last => simp [List.intercalate]
  | @cons line rest others single lined ih =>
      have cut := length_withoutReturn line
      rw [lined.join_cons]
      simp only [List.length_append, List.length_cons] at ih ⊢
      omega

/-- An indentation of two characters or more makes a text of several lines longer. -/
theorem Lined.length_lt_join {text indentation : List Char} {lines : List (List Char)}
    (lined : Lined text lines) (wide : 2 ≤ indentation.length) (several : '\n' ∈ text) :
    text.length < (('\n' :: indentation).intercalate lines).length := by
  cases lined with
  | last _ single => exact absurd several single
  | @cons line rest others single lined =>
      have cut := length_withoutReturn line
      have long := lined.length_le_join wide
      rw [lined.join_cons]
      simp only [List.length_append, List.length_cons] at long ⊢
      omega

theorem withoutReturn_eq_iff {line : List Char} :
    withoutReturn line = line ↔ line.getLast? ≠ some '\r' := by
  unfold withoutReturn
  split
  · rename_i last
    rcases List.getLast?_eq_some_iff.mp last with ⟨front, rfl⟩
    simp
  · rename_i last
    exact iff_of_true rfl last

theorem isInfix_append_feed {line rest : List Char} (single : '\n' ∉ line) :
    ['\r', '\n'] <:+: line ++ '\n' :: rest ↔
      line.getLast? = some '\r' ∨ ['\r', '\n'] <:+: rest := by
  constructor
  · rintro ⟨front, back, same⟩
    rw [List.append_assoc, List.append_eq_append_iff] at same
    rcases same with ⟨more, rfl, same⟩ | ⟨more, rfl, same⟩
    · cases more with
      | nil => cases same
      | cons c more =>
          cases more with
          | nil =>
              cases same
              exact .inl (by simp)
          | cons d more =>
              cases same
              exact absurd (by simp) single
    · cases more with
      | nil => cases same
      | cons c more =>
          cases same
          exact .inr ⟨more, back, by simp⟩
  · rintro (last | inside)
    · rcases List.getLast?_eq_some_iff.mp last with ⟨front, rfl⟩
      exact ⟨front, rest, by simp⟩
    · exact inside.trans ⟨line ++ ['\n'], [], by simp⟩

/-- Without an indentation the text stays unless a carriage return stands before a line feed. -/
theorem Lined.join_eq_iff {text : List Char} {lines : List (List Char)} (lined : Lined text lines) :
    ['\n'].intercalate lines = text ↔ ¬['\r', '\n'] <:+: text := by
  induction lined with
  | last filled single =>
      refine iff_of_true (by simp [List.intercalate]) fun inside => single ?_
      exact inside.subset (by simp)
  | @cons line rest others single lined ih =>
      rw [lined.join_cons, isInfix_append_feed single, not_or, ← ih, ← Ne, ← withoutReturn_eq_iff]
      constructor
      · intro same
        have feedless (chars : List Char) (subset : chars ⊆ line) :
            ∀ c ∈ chars, (c != '\n') = true := by
          rintro c member
          rw [bne_iff_ne]
          rintro rfl
          exact single (subset member)
        have fronts := eq_of_append (feedless _ (withoutReturn_subset line))
          (feedless _ (List.Subset.refl line)) (by simp) (by simp) same
        exact ⟨fronts.1, (List.cons.inj fronts.2).2⟩
      · rintro ⟨front, others⟩
        rw [front, others]
        rfl

/-- Lines that are joined are the lines again unless a carriage return stands before a line feed. -/
theorem Lined.lines_join {text : List Char} {split : List (List Char)} (lined : Lined text split)
    (plain : ¬['\r', '\n'] <:+: ['\n'].intercalate split) :
    lines (['\n'].intercalate split) = split := by
  induction lined with
  | last filled single => simpa [List.intercalate] using lines_of_not_mem single filled
  | @cons line rest others single lined ih =>
      have cut : '\n' ∉ withoutReturn line := fun member =>
        single (withoutReturn_subset line member)
      rw [lined.join_cons] at plain ⊢
      rw [List.singleton_append, isInfix_append_feed cut, not_or] at plain
      rw [List.singleton_append, lines_append_feed cut, withoutReturn_eq_iff.mpr plain.1,
        ih plain.2]

/-! ## Descriptions -/

/-- What is read of a text that was written with an indentation: the indentation stands before each
of several lines but the first, and the escapes of a single line stay. -/
def reread (indentation text : String) : String :=
  if text.toList.contains '\n' then String.ofList (rejoin indentation.toList text.toList)
  else String.ofList (text.toList.flatMap escape)

/-- There is nothing to escape in a single line, or several lines are not indented and end in line
feeds only. -/
def Survives (indentation text : String) : Prop :=
  if text.toList.contains '\n' then indentation = "" ∧ ¬['\r', '\n'] <:+: text.toList
  else text.toList.all isUnescaped = true

theorem lined_of_isTrimmed {text : List Char} (trimmed : IsTrimmed text) (several : '\n' ∈ text) :
    Lined text (lines text) := by
  cases last : text.getLast? with
  | none =>
      rw [List.getLast?_eq_none_iff.mp last] at several
      cases several
  | some c =>
      refine lined_lines last ?_
      rintro rfl
      exact Bool.false_ne_true ((trimmed.2 '\n' last).symm.trans (by decide))

theorem isTrimmed_rejoin {text : List Char} (indentation : List Char) (trimmed : IsTrimmed text)
    (several : '\n' ∈ text) : IsTrimmed (rejoin indentation text) :=
  (lined_of_isTrimmed trimmed several).isTrimmed_join trimmed

/-- A text is read as it was exactly if it survives. -/
theorem reread_eq_iff {indentation text : String} (trimmed : IsTrimmed text.toList)
    (wide : indentation = "" ∨ 2 ≤ indentation.length) :
    reread indentation text = text ↔ Survives indentation text := by
  unfold reread Survives
  split
  · rename_i several
    have lined := lined_of_isTrimmed trimmed (by simpa using several)
    rw [← String.toList_inj, String.toList_ofList, rejoin]
    rcases wide with rfl | wide
    · exact lined.join_eq_iff.trans ⟨fun plain => ⟨rfl, plain⟩, And.right⟩
    · refine ⟨fun same => ?_, fun survives => ?_⟩
      · have long := lined.length_lt_join wide (by simpa using several)
        rw [same] at long
        exact absurd long (Nat.lt_irrefl _)
      · rw [survives.1] at wide
        cases wide
  · rw [← flatMap_escape_eq_iff, ← String.toList_inj, String.toList_ofList]

/-! ### Descriptions that are written a second time -/

theorem contains_reread {indentation text : String} (trimmed : IsTrimmed text.toList) :
    (reread indentation text).toList.contains '\n' = text.toList.contains '\n' := by
  unfold reread
  split
  · rename_i several
    have inside : '\n' ∈ text.toList := by simpa using several
    have lined := lined_of_isTrimmed trimmed inside
    rw [String.toList_ofList, several, rejoin, List.contains_eq_mem, decide_eq_true_eq]
    exact lined.feed_mem_join inside
  · rename_i single
    rw [String.toList_ofList, Bool.eq_false_iff.mpr single, List.contains_eq_mem,
      decide_eq_false_iff_not]
    intro isFeed
    rcases List.mem_flatMap.mp isFeed with ⟨c, _, isFeed⟩
    exact feed_not_mem_escape c isFeed

/-- What is read of a single line is written like it only if nothing was escaped in it. -/
theorem reread_eq_of_survives {indentation text : String} (trimmed : IsTrimmed text.toList)
    (single : text.toList.contains '\n' = false)
    (survives : Survives indentation (reread indentation text)) :
    reread indentation text = text := by
  rw [Survives, contains_reread trimmed, single, if_neg Bool.false_ne_true, reread, single,
    if_neg Bool.false_ne_true, String.toList_ofList] at survives
  rw [reread, single, if_neg Bool.false_ne_true,
    flatMap_escape_eq_iff.mpr (all_isUnescaped_of_flatMap_escape survives), String.ofList_toList]

theorem lines_reread_of_survives {indentation text : String} (trimmed : IsTrimmed text.toList)
    (several : text.toList.contains '\n' = true)
    (survives : Survives indentation (reread indentation text)) :
    lines (reread indentation text).toList = lines text.toList := by
  rw [Survives, contains_reread trimmed, several, if_pos rfl] at survives
  rcases survives with ⟨rfl, plain⟩
  rw [reread, several, if_pos rfl, String.toList_ofList, rejoin] at plain ⊢
  exact (lined_of_isTrimmed trimmed (by simpa using several)).lines_join plain

end Text
end GraphQL
