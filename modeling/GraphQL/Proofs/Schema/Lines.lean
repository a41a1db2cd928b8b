import GraphQL.Proofs.Parsing.Spelling
import GraphQL.Proofs.Document.Spelling
import GraphQL.Proofs.Schema.Grammar
import GraphQL.Proofs.Text.Rereading
import GraphQL.Schema.Printer

/-!
# Printed lines

A schema is printed as lines. A line ends at its line feed, whatever follows, so lines lex one after
the other. A description is a string on a line of its own, or a block string on several lines; a
block string that was read is one again when it is printed.
-/

namespace GraphQL

open Grammar Token Text

/-- Lines, each with its line feed. -/
def linesText : List String → String
  | [] => ""
  | line :: rest => line ++ "\n" ++ linesText rest

theorem linesText_append (lines others : List String) :
    linesText (lines ++ others) = linesText lines ++ linesText others := by
  induction lines with
  | nil => rw [List.nil_append, linesText, String.empty_append]
  | cons line lines ih =>
      simp only [List.cons_append, linesText, ih, String.append_assoc]

/-- Nothing but blanks. -/
def IsIndentation (indentation : String) : Prop :=
  ∀ c ∈ indentation.toList, c = ' '

section

variable {ends : List Char → Prop} {spells spellsOther : List Token → Prop}

theorem lexes_linesText_nil : Lexes Anything (linesText []) (· = []) :=
  lexes_empty.mono fun _ _ => trivial

theorem lexes_line {line : String} (lexes : Lexes Breaks line spells) :
    Lexes Anything (linesText [line]) spells := by
  rw [linesText, linesText, String.append_empty]
  exact lexes.beforeIgnored (c := '\n') rfl

theorem Token.Lexes.lines {lines others : List String}
    (lexes : Lexes Anything (linesText lines) spells)
    (lexesOthers : Lexes Anything (linesText others) spellsOther) :
    Lexes Anything (linesText (lines ++ others)) fun tokens =>
      ∃ first second, tokens = first ++ second ∧ spells first ∧ spellsOther second := by
  rw [linesText_append]
  exact lexes.followedBy lexesOthers

theorem lexes_indented {indentation text : String} (blank : IsIndentation indentation)
    (lexes : Lexes ends text spells) : Lexes ends (indentation ++ text) spells := by
  have general (chars : List Char) (blank : ∀ c ∈ chars, c = ' ') :
      Lexes ends (String.ofList chars ++ text) spells := by
    induction chars with
    | nil => rwa [show String.ofList [] = "" from rfl, String.empty_append]
    | cons c chars ih =>
        obtain rfl := blank c List.mem_cons_self
        have lexes := (ih fun c member => blank c (List.mem_cons_of_mem _ member)).afterIgnored
          (c := ' ') rfl
        have same : String.ofList (' ' :: chars) ++ text =
            String.singleton ' ' ++ (String.ofList chars ++ text) := by
          apply String.toList_inj.mp
          simp
        rwa [same]
  have lexes := general indentation.toList blank
  rwa [String.ofList_toList] at lexes

end

/-! ## Descriptions -/

theorem scanBlockString_linesText {lines : List String}
    (stay : ∀ line ∈ lines, StaysOpen line.toList) (rest : List Char) :
    scanBlockString ((linesText lines).toList ++ rest) =
      Lexeme.after (linesText lines).toList (scanBlockString rest) := by
  induction lines with
  | nil => rfl
  | cons line lines ih =>
      have others := ih fun line member => stay line (List.mem_cons_of_mem _ member)
      have same : (linesText (line :: lines)).toList ++ rest =
          line.toList ++ '\n' :: ((linesText lines).toList ++ rest) := by
        simp [linesText]
      rw [same, scanBlockString_line (stay line List.mem_cons_self), others]
      simp [linesText, Lexeme.after]

/-- Blanks and three quotes end a block string. -/
theorem scanBlockString_closing {blanks : List Char} (blank : ∀ c ∈ blanks, c = ' ')
    (rest : List Char) :
    scanBlockString (blanks ++ '"' :: '"' :: '"' :: rest) =
      { kind := .blockString, chars := blanks ++ ['"', '"', '"'], rest } := by
  induction blanks with
  | nil => rfl
  | cons c blanks ih =>
      obtain rfl := blank c List.mem_cons_self
      rw [List.cons_append, scanBlockString_cons (.of_ne (by decide) (by decide) _),
        ih fun c member => blank c (List.mem_cons_of_mem _ member)]
      rfl

/-- Lines that stay open, between two lines of three quotes. -/
theorem lexes_block {indentation : String} (blank : IsIndentation indentation)
    {lines : List String} (stay : ∀ line ∈ lines, StaysOpen line.toList) :
    Lexes Anything ("\"\"\"" ++ "\n" ++ linesText lines ++ (indentation ++ "\"\"\""))
      (IsSingle .blockString
        ("\"\"\"" ++ "\n" ++ linesText lines ++ (indentation ++ "\"\"\""))) := by
  have chars : ("\"\"\"" ++ "\n" ++ linesText lines ++ (indentation ++ "\"\"\"")).toList =
      '"' :: '"' :: '"' :: '\n' :: ((linesText lines).toList ++
        (indentation.toList ++ ['"', '"', '"'])) := by
    simp
  refine lexes_single chars rfl (by decide) fun rest _ => ?_
  have scanned : scanBlockString ('\n' :: ((linesText lines).toList ++
      (indentation.toList ++ '"' :: '"' :: '"' :: rest))) =
      { kind := .blockString
        chars := '\n' :: ((linesText lines).toList ++ (indentation.toList ++ ['"', '"', '"']))
        rest } := by
    rw [scanBlockString_cons (.of_ne (by decide) (by decide) _), scanBlockString_linesText stay,
      scanBlockString_closing blank]
    rfl
  simp only [List.cons_append, List.append_assoc, List.nil_append]
  unfold scanLexeme
  rw [show punctuator? '"' = none from rfl]
  dsimp only
  rw [if_neg (by decide), if_pos rfl]
  change (((scanBlockString _).push '"').push '"').push '"' = _
  rw [scanned]
  rfl

/-- No line of the description ends a block string, and it is trimmed. -/
def DescriptionWritable (description : Option String) : Prop :=
  ∀ text, description = some text → StaysOpen text.toList ∧ IsTrimmed text.toList

theorem staysOpen_textLines {text : String} (stays : StaysOpen text.toList) :
    ∀ line ∈ textLines text, StaysOpen line.toList := by
  intro line member
  rcases List.mem_map.mp member with ⟨chars, isLine, rfl⟩
  rw [String.toList_ofList]
  exact stays.lines chars isLine

theorem staysOpen_indented {indentation line : String} (blank : IsIndentation indentation)
    (stays : StaysOpen line.toList) : StaysOpen (indentation ++ line).toList := by
  rw [String.toList_append, List.eq_replicate_of_mem blank]
  exact stays.append_spaces _

/-- Lines with an indentation are joined by it. -/
theorem linesText_indented (indentation : String) (line : String) (others : List String) :
    (linesText ((line :: others).map (indentation ++ ·))).toList = indentation.toList ++
      ('\n' :: indentation.toList).intercalate ((line :: others).map String.toList) ++ ['\n'] := by
  induction others generalizing line with
  | nil => simp [linesText, List.intercalate]
  | cons second others ih =>
      have others := ih second
      rw [List.map_cons, linesText, String.toList_append, others]
      simp [List.intercalate]

theorem isWhiteSpace_of_blank {indentation : String} (blank : IsIndentation indentation) :
    ∀ c ∈ '\n' :: indentation.toList, isWhiteSpace c = true := by
  intro c member
  rcases List.mem_cons.mp member with rfl | member
  · decide
  · rw [blank c member]
    decide

/-- The body of a block string that has the lines of a text is the text with these lines indented. -/
theorem trim_bodyBetween_block {indentation text : String} (blank : IsIndentation indentation)
    (trimmed : IsTrimmed text.toList) (several : text.toList.contains '\n' = true) :
    String.ofList (trim (Parser.bodyBetween 3 ("\"\"\"" ++ "\n" ++
      linesText ((textLines text).map (indentation ++ ·)) ++ (indentation ++ "\"\"\"")))) =
      reread indentation text := by
  have isSeveral : '\n' ∈ text.toList := by simpa using several
  have joined : (linesText ((textLines text).map (indentation ++ ·))).toList =
      indentation.toList ++ rejoin indentation.toList text.toList ++ ['\n'] := by
    have same : (textLines text).map String.toList = lines text.toList := by
      simp [textLines, Function.comp_def]
    rw [rejoin, ← same]
    rcases (lined_of_isTrimmed trimmed isSeveral).exists_cons with ⟨line, others, isLines⟩
    rw [textLines, isLines, List.map_cons, linesText_indented]
  have body : Parser.bodyBetween 3 ("\"\"\"" ++ "\n" ++
      linesText ((textLines text).map (indentation ++ ·)) ++ (indentation ++ "\"\"\"")) =
      ('\n' :: indentation.toList) ++ rejoin indentation.toList text.toList ++
        ('\n' :: indentation.toList) := by
    simp only [Parser.bodyBetween, String.toList_append, joined]
    simp
  have blanks := isWhiteSpace_of_blank blank
  rw [body, trim_append blanks blanks (isTrimmed_rejoin _ trimmed isSeveral), reread,
    if_pos several]

theorem trim_bodyBetween_quote {indentation text : String} (trimmed : IsTrimmed text.toList)
    (single : ¬text.toList.contains '\n' = true) :
    String.ofList (trim (Parser.bodyBetween 1 (Text.quote text))) = reread indentation text := by
  have cut := @trim_append [] (text.toList.flatMap escape) [] nofun nofun
    (isTrimmed_flatMap_escape trimmed)
  rw [List.nil_append, List.append_nil] at cut
  rw [Parser.bodyBetween_quote, cut, reread, if_neg single]

/-- The lines of a description are scanned into tokens that spell what is read of it. -/
theorem lexes_descriptionLines {indentation : String} (blank : IsIndentation indentation)
    {description : Option String} (writable : DescriptionWritable description) :
    Lexes Anything (linesText (Schema.descriptionLines indentation description))
      (SpellsDescription · (description.map (reread indentation))) := by
  cases description with
  | none =>
      refine lexes_linesText_nil.weaken ?_
      rintro _ rfl
      exact .absent
  | some text =>
      rcases writable text rfl with ⟨stays, trimmed⟩
      unfold Schema.descriptionLines
      dsimp only
      split
      · rename_i several
        have stay : ∀ line ∈ (textLines text).map (indentation ++ ·), StaysOpen line.toList := by
          intro line member
          rcases List.mem_map.mp member with ⟨given, isLine, rfl⟩
          exact staysOpen_indented blank (staysOpen_textLines stays given isLine)
        have block := lexes_indented blank (((lexes_block blank stay).mono fun _ _ => trivial)
          |>.beforeIgnored (c := '\n') rfl)
        have same : linesText ((indentation ++ "\"\"\"") :: (textLines text).map (indentation ++ ·)
            ++ [indentation ++ "\"\"\""]) = indentation ++ ("\"\"\"" ++ "\n" ++
              linesText ((textLines text).map (indentation ++ ·)) ++ (indentation ++ "\"\"\"") ++
              String.singleton '\n') := by
          rw [linesText_append]
          apply String.toList_inj.mp
          simp [linesText]
        rw [same]
        refine block.weaken ?_
        rintro _ ⟨token, rfl, isBlock, reads⟩
        rw [Option.map_some, ← trim_bodyBetween_block blank trimmed several]
        exact .block isBlock reads
      · rename_i single
        refine (lexes_line (lexes_indented blank (lexes_quote text))).weaken ?_
        rintro _ ⟨token, rfl, isString, reads⟩
        rw [Option.map_some, ← trim_bodyBetween_quote trimmed single]
        exact .quoted isString reads

/-! ## Blocks of lines -/

section

variable {α : Type} {spells : List Token → α → Prop}

theorem lexes_flatten {blocks : List (List String)} {items : List α}
    (each : List.Forall₂ (fun lines item => Lexes Anything (linesText lines) (spells · item)) blocks
      items) : Lexes Anything (linesText blocks.flatten) (SpellsEach spells · items) := by
  induction each with
  | nil =>
      refine lexes_linesText_nil.weaken ?_
      rintro _ rfl
      exact .nil
  | cons first _ ih =>
      rw [List.flatten_cons]
      refine (first.lines ih).weaken ?_
      rintro _ ⟨used, others, rfl, spelled, each⟩
      exact .cons spelled each

/-- Items on lines between braces. -/
theorem lexes_braced {heading : String} {lines : List String} {items : List α}
    {head : List Token → Prop} (lexesHead : Lexes Breaks heading head)
    (lexes : Lexes Anything (linesText lines) (SpellsEach spells · items)) :
    Lexes Anything (linesText (Schema.braced heading lines)) fun tokens =>
      ∃ first used, tokens = first ++ used ∧ head first ∧
        SpellsBetween .openBrace .closeBrace spells used items := by
  have opening := (lexes_punctuator .openBrace).afterIgnored (c := ' ') rfl
  have first := lexes_line (((lexesHead.append opening fun rest _ =>
    breaks_of_isIgnored (c := ' ') rfl _).mono fun _ _ => trivial))
  have last := lexes_line ((lexes_punctuator .closeBrace).mono fun _ _ => trivial)
  refine ((first.lines lexes).lines last).weaken ?_
  rintro _ ⟨_, _, rfl, ⟨_, used, rfl, ⟨first, _, rfl, isHead, open_, rfl, opens⟩, each⟩, last, rfl,
    closes⟩
  refine ⟨first, open_ :: (used ++ [last]), by simp, isHead, .mk opens each closes⟩

end

end GraphQL
