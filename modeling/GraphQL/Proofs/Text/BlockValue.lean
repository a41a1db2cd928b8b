import GraphQL.Proofs.Text.Indentation
import Mathlib.Data.List.DropRight

/-!
# Block strings as they are specified

The specification of GraphQL describes the value of a block string by its lines: the indentation that
the lines after the first have in common is removed from them, and then the blank lines at both ends.
Its white space is a space or a tab, and it counts characters. The value that is computed here counts
bytes, knows more white space and has no line behind a final line feed. None of this makes a
difference in a text without any other white space.
-/

namespace GraphQL
namespace Text

/-! ## The specification -/

/-- A space or a tab, which is all white space inside a line. -/
def isIndent (c : Char) : Bool :=
  c == ' ' || c == '\t'

/-- The lines of a text. A line ends in a line feed, in a carriage return, or in both. -/
def terminatedLines : List Char → List (List Char)
  | [] => [[]]
  | '\r' :: '\n' :: rest => [] :: terminatedLines rest
  | c :: rest =>
      if c = '\n' ∨ c = '\r' then [] :: terminatedLines rest
      else (terminatedLines rest).modifyHead (c :: ·)

/-- Nothing but spaces and tabs. -/
def isEmptyLine (line : List Char) : Bool :=
  line.all isIndent

/-- The least indentation of the lines that hold more than white space, if there is one. -/
def leastIndentation? (lines : List (List Char)) : Option Nat :=
  ((lines.filter fun line => !isEmptyLine line).map fun line =>
    (line.takeWhile isIndent).length).min?

/-- The lines without what the ones after the first have in common. -/
def dedent : List (List Char) → List (List Char)
  | [] => []
  | first :: others =>
      match leastIndentation? others with
      | none => first :: others
      | some count => first :: others.map (List.drop count)

/-- The lines without the empty ones at both ends. -/
def withoutEmptyEnds (lines : List (List Char)) : List (List Char) :=
  (lines.dropWhile isEmptyLine).rdropWhile isEmptyLine

/-- The value that the specification gives to the lines of a block string. -/
def specifiedValue (lines : List (List Char)) : List Char :=
  ['\n'].intercalate (withoutEmptyEnds (dedent lines))

/-- All white space is spaces, tabs, line feeds, and carriage returns directly before one. -/
def HasSimpleSpace (text : List Char) : Prop :=
  ∀ c rest, (c :: rest) <:+ text → isWhiteSpace c = true →
    isIndent c = true ∨ c = '\n' ∨ c = '\r' ∧ rest.head? = some '\n'

/-- The text with so many spaces before each line after the first. -/
def indentLater (count : Nat) (text : List Char) : List Char :=
  text.flatMap fun c => if c = '\n' then '\n' :: List.replicate count ' ' else [c]

theorem isIndent_iff {c : Char} : isIndent c = true ↔ c = ' ' ∨ c = '\t' := by
  simp [isIndent]

theorem isWhiteSpace_of_isIndent {c : Char} (indents : isIndent c = true) :
    isWhiteSpace c = true := by
  rcases isIndent_iff.mp indents with rfl | rfl <;> decide

/-! ## Simple space -/

namespace HasSimpleSpace

variable {c : Char} {rest text : List Char}

theorem nil : HasSimpleSpace [] := by
  intro c rest suffix
  cases List.eq_nil_of_suffix_nil suffix

theorem tail (simple : HasSimpleSpace (c :: rest)) : HasSimpleSpace rest :=
  fun d others suffix => simple d others (suffix.trans (List.suffix_cons c rest))

theorem head (simple : HasSimpleSpace (c :: rest)) (white : isWhiteSpace c = true) :
    isIndent c = true ∨ c = '\n' ∨ c = '\r' ∧ rest.head? = some '\n' :=
  simple c rest (List.suffix_refl _) white

theorem cons (simple : HasSimpleSpace rest)
    (head : isWhiteSpace c = true →
      isIndent c = true ∨ c = '\n' ∨ c = '\r' ∧ rest.head? = some '\n') :
    HasSimpleSpace (c :: rest) := by
  intro d others suffix white
  rcases List.suffix_cons_iff.mp suffix with same | within
  · cases same
    exact head white
  · exact simple d others within white

/-- A line feed follows each carriage return. -/
theorem head_of_return (simple : HasSimpleSpace ('\r' :: rest)) : rest.head? = some '\n' := by
  rcases simple.head (by decide) with indents | isFeed | ⟨-, feeds⟩
  · exact absurd indents (by decide)
  · exact absurd isFeed (by decide)
  · exact feeds

theorem unescapeBlock (simple : HasSimpleSpace text) : HasSimpleSpace (unescapeBlock text) := by
  have quote {others : List Char} (simple : HasSimpleSpace others) :
      HasSimpleSpace ('"' :: others) :=
    simple.cons fun white => absurd white (by decide)
  fun_induction Text.unescapeBlock text with
  | case1 => exact simple
  | case2 rest ih => exact quote (quote (quote (ih simple.tail.tail.tail.tail)))
  | case3 c rest notEscaped ih =>
      refine (ih simple.tail).cons fun white => ?_
      rcases simple.head white with indents | isFeed | ⟨isReturn, feeds⟩
      · exact .inl indents
      · exact .inr (.inl isFeed)
      · rcases List.head?_eq_some_iff.mp feeds with ⟨others, rfl⟩
        exact .inr (.inr ⟨isReturn, rfl⟩)

theorem indentLater (simple : HasSimpleSpace text) (count : Nat) :
    HasSimpleSpace (indentLater count text) := by
  have spaces {others : List Char} (simple : HasSimpleSpace others) (count : Nat) :
      HasSimpleSpace (List.replicate count ' ' ++ others) := by
    induction count with
    | zero => exact simple
    | succ count ih => exact ih.cons fun _ => .inl (by decide)
  induction text with
  | nil => exact simple
  | cons c rest ih =>
      rw [Text.indentLater, List.flatMap_cons]
      split
      · exact (spaces (ih simple.tail) count).cons fun _ => .inr (.inl rfl)
      · refine (ih simple.tail).cons fun white => ?_
        rcases simple.head white with indents | isFeed | ⟨isReturn, feeds⟩
        · exact .inl indents
        · exact .inr (.inl isFeed)
        · rcases List.head?_eq_some_iff.mp feeds with ⟨others, rfl⟩
          exact .inr (.inr ⟨isReturn, rfl⟩)

end HasSimpleSpace

instance decidableHasSimpleSpace : (text : List Char) → Decidable (HasSimpleSpace text)
  | [] => isTrue .nil
  | _ :: rest =>
      have := decidableHasSimpleSpace rest
      decidable_of_iff (_ ∧ HasSimpleSpace rest)
        ⟨fun simple => simple.2.cons simple.1, fun simple => ⟨simple.head, simple.tail⟩⟩

/-! ## Lines -/

theorem modifyHead_nil_append (lines : List (List Char)) :
    lines.modifyHead ([] ++ ·) = lines := by
  cases lines <;> rfl

/-- The lines of a text, but for an empty one behind a final line feed. -/
theorem modifyHead_terminatedLines {text line : List Char} (simple : HasSimpleSpace text)
    (noReturn : line.getLast? ≠ some '\r') :
    (terminatedLines text).modifyHead (line ++ ·) = splitLines line text ∨
      (terminatedLines text).modifyHead (line ++ ·) = splitLines line text ++ [[]] := by
  fun_induction terminatedLines text generalizing line with
  | case1 =>
      rw [splitLines]
      cases line with
      | nil => exact .inr rfl
      | cons c line => exact .inl (by simp)
  | case2 rest ih =>
      have split : splitLines line ('\r' :: '\n' :: rest) = line :: splitLines [] rest := by
        simp [splitLines, withoutReturn]
      have same := @ih [] simple.tail.tail (by simp)
      rw [modifyHead_nil_append] at same
      simpa [split] using same
  | case3 c rest notBoth ends ih =>
      have isFeed : c = '\n' := by
        rcases ends with isFeed | rfl
        · exact isFeed
        · rcases List.head?_eq_some_iff.mp simple.head_of_return with ⟨others, rfl⟩
          exact absurd rfl (notBoth others rfl)
      have split : splitLines line (c :: rest) = line :: splitLines [] rest := by
        rw [splitLines, if_pos isFeed, withoutReturn, if_neg noReturn]
      have same := @ih [] simple.tail (by simp)
      rw [modifyHead_nil_append] at same
      simpa [split] using same
  | case4 c rest notBoth continues ih =>
      rw [not_or] at continues
      have split : splitLines line (c :: rest) = splitLines (line ++ [c]) rest := by
        rw [splitLines, if_neg continues.1]
      have same := @ih (line ++ [c]) simple.tail (by simpa using continues.2)
      rw [split, List.modifyHead_modifyHead]
      simpa [Function.comp_def] using same

theorem terminatedLines_eq {text : List Char} (simple : HasSimpleSpace text) :
    terminatedLines text = lines text ∨ terminatedLines text = lines text ++ [[]] := by
  have same := @modifyHead_terminatedLines text [] simple (by simp)
  rwa [modifyHead_nil_append] at same

/-- Inside a line, simple space is spaces and tabs. -/
theorem isIndent_of_mem_terminatedLines {text : List Char} (simple : HasSimpleSpace text) :
    ∀ line ∈ terminatedLines text, ∀ c ∈ line, isWhiteSpace c = true → isIndent c = true := by
  fun_induction terminatedLines text with
  | case1 => simp
  | case2 rest ih =>
      rw [List.forall_mem_cons]
      exact ⟨by simp, ih simple.tail.tail⟩
  | case3 c rest notBoth ends ih =>
      rw [List.forall_mem_cons]
      exact ⟨by simp, ih simple.tail⟩
  | case4 c rest notBoth continues ih =>
      have inner := ih simple.tail
      have first : isWhiteSpace c = true → isIndent c = true := by
        intro white
        rcases simple.head white with indents | isFeed | ⟨isReturn, -⟩
        · exact indents
        · exact absurd (.inl isFeed) continues
        · exact absurd (.inr isReturn) continues
      cases split : terminatedLines rest with
      | nil => simp
      | cons line others =>
          rw [split, List.forall_mem_cons] at inner
          rw [List.modifyHead_cons, List.forall_mem_cons, List.forall_mem_cons]
          exact ⟨⟨first, inner.1⟩, inner.2⟩

/-- All white space of the line is spaces and tabs. -/
def IsSimpleLine (line : List Char) : Prop :=
  ∀ c ∈ line, isWhiteSpace c = true → isIndent c = true

namespace IsSimpleLine

variable {line : List Char}

theorem isBlank_eq (simple : IsSimpleLine line) : isBlank line = isEmptyLine line := by
  rw [Bool.eq_iff_iff, isBlank, isEmptyLine, List.all_eq_true, List.all_eq_true]
  constructor
  · exact fun blank c member => simple c member (blank c member)
  · exact fun empty c member => isWhiteSpace_of_isIndent (empty c member)

theorem drop (simple : IsSimpleLine line) (count : Nat) : IsSimpleLine (line.drop count) :=
  fun c member => simple c (List.mem_of_mem_drop member)

end IsSimpleLine

/-! ## Unindented lines -/

theorem indentation_eq (line : List Char) : indentation line = (line.takeWhile isIndent).length :=
  rfl

theorem length_le_byteLength (line : List Char) : line.length ≤ byteLength line := by
  induction line with
  | nil => exact Nat.le_refl 0
  | cons c line ih =>
      have size : byteLength (c :: line) = c.utf8Size + byteLength line := Token.byteSize_cons c line
      have positive := c.utf8Size_pos
      rw [size, List.length_cons]
      omega

theorem dropBytes_eq_drop {count : Nat} {line : List Char} (within : count ≤ indentation line) :
    dropBytes count line = .ok (line.drop count) := by
  induction count generalizing line with
  | zero => rw [dropBytes, List.drop_zero]
  | succ count ih =>
      cases line with
      | nil => cases within
      | cons c line =>
          cases indents : isIndent c with
          | false =>
              rw [indentation_eq, List.takeWhile_cons_of_neg (by simp [indents])] at within
              cases within
          | true =>
              have single : c.utf8Size = 1 := by
                rcases isIndent_iff.mp indents with rfl | rfl <;> rfl
              rw [indentation_eq, List.takeWhile_cons_of_pos indents, List.length_cons] at within
              rw [dropBytes, single, if_pos (by omega), Nat.add_sub_cancel, List.drop_succ_cons]
              exact ih (Nat.le_of_succ_le_succ within)

theorem indentation_of_isEmptyLine {line : List Char} (empty : isEmptyLine line = true) :
    indentation line = line.length := by
  have whole : line.takeWhile isIndent = line :=
    List.takeWhile_eq_self_iff.mpr (List.all_eq_true.mp empty)
  exact congrArg List.length whole

/-- Cutting bytes off a line is dropping characters. -/
theorem unindent_eq_drop {count : Nat} {line : List Char} (simple : IsSimpleLine line)
    (common : isBlank line = false → count ≤ indentation line) :
    unindent count line = .ok (line.drop count) := by
  cases blank : isBlank line with
  | false =>
      have long : count ≤ byteLength line :=
        (common blank).trans ((List.takeWhile_sublist _).length_le.trans (length_le_byteLength line))
      rw [unindent, if_neg (Nat.not_lt.mpr long)]
      exact dropBytes_eq_drop (common blank)
  | true =>
      have empty : isEmptyLine line = true := by rw [← simple.isBlank_eq, blank]
      have size : byteLength line = line.length :=
        byteLength_of_indentation (List.all_eq_true.mp empty)
      rw [unindent, size]
      split
      · rename_i short
        have nothing : trimStart line = [] := List.dropWhile_eq_nil_iff.mpr (List.all_eq_true.mp blank)
        rw [nothing, List.drop_eq_nil_of_le (Nat.le_of_lt short)]
      · rename_i long
        refine dropBytes_eq_drop ?_
        rw [indentation_of_isEmptyLine empty]
        exact Nat.le_of_not_lt long

theorem commonIndentation_eq {lines : List (List Char)} (simple : ∀ line ∈ lines, IsSimpleLine line) :
    commonIndentation lines = (leastIndentation? lines).getD 0 := by
  have same : (lines.filter fun line => !isBlank line) = lines.filter fun line => !isEmptyLine line :=
    List.filter_congr fun line member => by rw [(simple line member).isBlank_eq]
  rw [commonIndentation, same]
  rfl

theorem mapM_eq_map {ε : Type} {cut : List Char → Except ε (List Char)}
    {drop : List Char → List Char} {lines : List (List Char)}
    (cuts : ∀ line ∈ lines, cut line = .ok (drop line)) :
    lines.mapM cut = .ok (lines.map drop) := by
  induction lines with
  | nil => rfl
  | cons line others ih =>
      rw [List.forall_mem_cons] at cuts
      rw [List.mapM_cons, cuts.1, ih cuts.2]
      rfl

theorem unindentedLines_eq {lines : List (List Char)} (simple : ∀ line ∈ lines, IsSimpleLine line) :
    unindentedLines lines = .ok (dedent lines) := by
  cases lines with
  | nil => rfl
  | cons first others =>
      rw [List.forall_mem_cons] at simple
      have cuts := mapM_eq_map fun line member => unindent_eq_drop (simple.2 line member)
        (commonIndentation_le member)
      rw [unindentedLines, cuts, commonIndentation_eq simple.2, dedent]
      cases leastIndentation? others with
      | none => simp [bind, Except.bind, pure, Except.pure]
      | some count => rfl

theorem isSimpleLine_of_mem_dedent {lines : List (List Char)}
    (simple : ∀ line ∈ lines, IsSimpleLine line) : ∀ line ∈ dedent lines, IsSimpleLine line := by
  cases lines with
  | nil => exact simple
  | cons first others =>
      rw [dedent]
      split
      · exact simple
      · rw [List.forall_mem_cons] at simple ⊢
        refine ⟨simple.1, fun line member => ?_⟩
        rcases List.mem_map.mp member with ⟨whole, isLine, rfl⟩
        exact IsSimpleLine.drop (simple.2 whole isLine) _

theorem dropWhile_congr_mem {lines : List (List Char)} {test other : List Char → Bool}
    (same : ∀ line ∈ lines, test line = other line) : lines.dropWhile test = lines.dropWhile other := by
  induction lines with
  | nil => rfl
  | cons line others ih =>
      rw [List.forall_mem_cons] at same
      rw [List.dropWhile_cons, List.dropWhile_cons, same.1, ih same.2]

theorem trimBlankLines_eq {lines : List (List Char)} (simple : ∀ line ∈ lines, IsSimpleLine line) :
    trimBlankLines lines = withoutEmptyEnds lines := by
  have front := dropWhile_congr_mem fun line member => (simple line member).isBlank_eq
  have back : ((lines.dropWhile isEmptyLine).reverse).dropWhile isBlank =
      ((lines.dropWhile isEmptyLine).reverse).dropWhile isEmptyLine :=
    dropWhile_congr_mem fun line member => IsSimpleLine.isBlank_eq
      (simple line ((List.dropWhile_sublist _).subset (List.mem_reverse.mp member)))
  rw [trimBlankLines, front, back]
  rfl

/-! ## Empty lines at the end -/

theorem withoutEmptyEnds_append {lines others : List (List Char)}
    (empty : ∀ line ∈ others, isEmptyLine line = true) :
    withoutEmptyEnds (lines ++ others) = withoutEmptyEnds lines := by
  have reversed : ∀ line ∈ others.reverse, isEmptyLine line = true := by simpa using empty
  rw [withoutEmptyEnds, withoutEmptyEnds, List.dropWhile_append]
  split
  · rename_i nothing
    rw [List.isEmpty_iff] at nothing
    rw [nothing, List.dropWhile_eq_nil_iff.mpr empty]
  · rw [List.rdropWhile, List.rdropWhile, List.reverse_append, List.dropWhile_append_of_pos reversed]

theorem leastIndentation?_append_empty (lines : List (List Char)) :
    leastIndentation? (lines ++ [[]]) = leastIndentation? lines := by
  simp [leastIndentation?, isEmptyLine]

theorem specifiedValue_append_empty (lines : List (List Char)) :
    specifiedValue (lines ++ [[]]) = specifiedValue lines := by
  have dedented : withoutEmptyEnds (dedent (lines ++ [[]])) = withoutEmptyEnds (dedent lines) := by
    cases lines with
    | nil => rfl
    | cons first others =>
        rw [List.cons_append, dedent, dedent, leastIndentation?_append_empty]
        cases leastIndentation? others with
        | none => exact @withoutEmptyEnds_append (first :: others) _ (by decide)
        | some count =>
            dsimp only
            rw [List.map_append]
            exact @withoutEmptyEnds_append (first :: _) _ (by simp [isEmptyLine])
  rw [specifiedValue, dedented]
  rfl

/-! ## Lines after the first one, indented further -/

/-- The lines with so many spaces before each but the first. -/
def indentOthers (count : Nat) : List (List Char) → List (List Char)
  | [] => []
  | first :: others => first :: others.map (List.replicate count ' ' ++ ·)

theorem terminatedLines_spaces (count : Nat) (text : List Char) :
    terminatedLines (List.replicate count ' ' ++ text) =
      (terminatedLines text).modifyHead (List.replicate count ' ' ++ ·) := by
  induction count with
  | zero => exact (modifyHead_nil_append _).symm
  | succ count ih =>
      rw [List.replicate_succ, List.cons_append, terminatedLines, if_neg (by decide), ih,
        List.modifyHead_modifyHead]
      · rfl
      · rintro _ ⟨⟩

theorem terminatedLines_ne_nil (text : List Char) : terminatedLines text ≠ [] := by
  fun_induction terminatedLines text <;> simp_all

theorem terminatedLines_indentLater {text : List Char} (simple : HasSimpleSpace text) (count : Nat) :
    terminatedLines (indentLater count text) = indentOthers count (terminatedLines text) := by
  have feed {rest : List Char} (ih : terminatedLines (indentLater count rest) =
      indentOthers count (terminatedLines rest)) :
      terminatedLines (List.replicate count ' ' ++ indentLater count rest) =
        (terminatedLines rest).map (List.replicate count ' ' ++ ·) := by
    rw [terminatedLines_spaces, ih]
    cases split : terminatedLines rest with
    | nil => exact absurd split (terminatedLines_ne_nil rest)
    | cons line others => rfl
  fun_induction terminatedLines text with
  | case1 => rfl
  | case2 rest ih =>
      have unfolds : indentLater count ('\r' :: '\n' :: rest) =
          '\r' :: '\n' :: (List.replicate count ' ' ++ indentLater count rest) := by
        simp [indentLater]
      rw [unfolds, terminatedLines, feed (ih simple.tail.tail), indentOthers]
  | case3 c rest notBoth ends ih =>
      have isFeed : c = '\n' := by
        rcases ends with isFeed | rfl
        · exact isFeed
        · rcases List.head?_eq_some_iff.mp simple.head_of_return with ⟨others, rfl⟩
          exact absurd rfl (notBoth others rfl)
      subst isFeed
      have unfolds : indentLater count ('\n' :: rest) =
          '\n' :: (List.replicate count ' ' ++ indentLater count rest) := by
        simp [indentLater]
      rw [unfolds, terminatedLines, if_pos (.inl rfl), feed (ih simple.tail), indentOthers]
      rintro _ ⟨⟩
  | case4 c rest notBoth continues ih =>
      have unfolds : indentLater count (c :: rest) = c :: indentLater count rest := by
        have noFeed := (not_or.mp continues).1
        simp [indentLater, noFeed]
      rw [unfolds, terminatedLines, if_neg continues, ih simple.tail]
      · cases terminatedLines rest <;> rfl
      · rintro others rfl
        exact absurd (.inr rfl) continues

theorem isEmptyLine_spaces (count : Nat) (line : List Char) :
    isEmptyLine (List.replicate count ' ' ++ line) = isEmptyLine line := by
  have spaces : (List.replicate count ' ').all isIndent = true := by
    rw [List.all_replicate]
    split <;> rfl
  rw [isEmptyLine, List.all_append, spaces, Bool.true_and]
  rfl

theorem length_takeWhile_spaces (count : Nat) (line : List Char) :
    ((List.replicate count ' ' ++ line).takeWhile isIndent).length =
      (line.takeWhile isIndent).length + count := by
  rw [List.takeWhile_append_of_pos fun c member => by rw [List.eq_of_mem_replicate member]; rfl,
    List.length_append, List.length_replicate, Nat.add_comm]

theorem min?_map_add (numbers : List Nat) (count : Nat) :
    (numbers.map (· + count)).min? = numbers.min?.map (· + count) := by
  cases least : numbers.min? with
  | none =>
      rw [List.min?_eq_none_iff] at least
      rw [least]
      rfl
  | some number =>
      rw [List.min?_eq_some_iff] at least
      rw [Option.map_some, List.min?_eq_some_iff]
      refine ⟨List.mem_map_of_mem least.1, fun other member => ?_⟩
      rcases List.mem_map.mp member with ⟨inner, isNumber, rfl⟩
      exact Nat.add_le_add_right (least.2 inner isNumber) count

theorem leastIndentation?_spaces (count : Nat) (lines : List (List Char)) :
    leastIndentation? (lines.map (List.replicate count ' ' ++ ·)) =
      (leastIndentation? lines).map (· + count) := by
  rw [leastIndentation?, leastIndentation?, ← min?_map_add, List.filter_map, List.map_map, List.map_map]
  simp only [Function.comp_def, isEmptyLine_spaces, length_takeWhile_spaces]

theorem leastIndentation?_eq_none_iff {lines : List (List Char)} :
    leastIndentation? lines = none ↔ ∀ line ∈ lines, isEmptyLine line = true := by
  simp [leastIndentation?, List.min?_eq_none_iff]

theorem specifiedValue_indentOthers (count : Nat) (lines : List (List Char)) :
    specifiedValue (indentOthers count lines) = specifiedValue lines := by
  cases lines with
  | nil => rfl
  | cons first others =>
      rw [specifiedValue, specifiedValue, indentOthers, dedent, dedent, leastIndentation?_spaces]
      cases common : leastIndentation? others with
      | none =>
          -- All later lines are empty ones at the end, with and without the spaces.
          have empty := leastIndentation?_eq_none_iff.mp common
          have emptySpaces : ∀ line ∈ others.map (List.replicate count ' ' ++ ·),
              isEmptyLine line = true := by
            intro line member
            rcases List.mem_map.mp member with ⟨inner, isLine, rfl⟩
            rw [isEmptyLine_spaces]
            exact empty inner isLine
          exact congrArg _ ((@withoutEmptyEnds_append [first] _ emptySpaces).trans
            (@withoutEmptyEnds_append [first] _ empty).symm)
      | some least =>
          have same (line : List Char) :
              (List.replicate count ' ' ++ line).drop (least + count) = line.drop least := by
            rw [List.drop_append, List.drop_eq_nil_of_le (by simp), List.nil_append,
              List.length_replicate, Nat.add_sub_cancel]
          simp only [Option.map_some, List.map_map, Function.comp_def, same]

theorem exists_quote_of_indentLater {count : Nat} {text rest : List Char}
    (starts : indentLater count text = '"' :: rest) :
    ∃ others, text = '"' :: others ∧ indentLater count others = rest := by
  cases text with
  | nil => cases starts
  | cons c others =>
      rw [indentLater, List.flatMap_cons] at starts
      split at starts
      · cases starts
      · cases starts
        exact ⟨others, rfl, rfl⟩

/-- No escaped quotes reach from one line to the next. -/
theorem unescapeBlock_indentLater (count : Nat) (text : List Char) :
    unescapeBlock (indentLater count text) = indentLater count (unescapeBlock text) := by
  have plain {c : Char} (rest : List Char) (other : c ≠ '\\') :
      unescapeBlock (c :: rest) = c :: unescapeBlock rest := by
    rw [unescapeBlock]
    rintro others isBackslash
    exact absurd isBackslash other
  have spaces (rest : List Char) : unescapeBlock (List.replicate count ' ' ++ rest) =
      List.replicate count ' ' ++ unescapeBlock rest := by
    induction count with
    | zero => rfl
    | succ count ih => exact (plain _ (by decide)).trans (congrArg _ ih)
  fun_induction unescapeBlock text with
  | case1 => rfl
  | case2 rest ih => exact congrArg ('"' :: '"' :: '"' :: ·) ih
  | case3 c rest notEscaped ih =>
      by_cases isFeed : c = '\n'
      · subst isFeed
        have cut (others : List Char) : indentLater count ('\n' :: others) =
            '\n' :: (List.replicate count ' ' ++ indentLater count others) := by simp [indentLater]
        rw [cut, cut, plain _ (by decide), spaces, ih]
      · have cut (others : List Char) :
            indentLater count (c :: others) = c :: indentLater count others := by
          simp [indentLater, isFeed]
        rw [cut, cut, unescapeBlock, ih]
        rintro others rfl first
        rcases exists_quote_of_indentLater first with ⟨second, rfl, isSecond⟩
        rcases exists_quote_of_indentLater isSecond with ⟨third, rfl, isThird⟩
        rcases exists_quote_of_indentLater isThird with ⟨fourth, rfl, -⟩
        exact notEscaped fourth rfl rfl

/-! ## Values -/

theorem blockValue_eq {body : List Char} (simple : HasSimpleSpace body) :
    blockValue body =
      .ok (String.ofList (specifiedValue (terminatedLines (unescapeBlock body)))) := by
  have unescaped := simple.unescapeBlock
  have same := terminatedLines_eq unescaped
  have simpleLines : ∀ line ∈ lines (unescapeBlock body), IsSimpleLine line := by
    intro line member
    refine isIndent_of_mem_terminatedLines unescaped line ?_
    rcases same with same | same <;> rw [same]
    · exact member
    · exact List.mem_append_left _ member
  have values : specifiedValue (terminatedLines (unescapeBlock body)) =
      specifiedValue (lines (unescapeBlock body)) := by
    rcases same with same | same <;> rw [same]
    exact specifiedValue_append_empty _
  rw [blockValue, unindentedLines_eq simpleLines, values]
  change Except.ok _ = _
  rw [trimBlankLines_eq (isSimpleLine_of_mem_dedent simpleLines)]
  rfl

/-- The value of a block string is the one that the specification gives it, and it stays the same if
all lines after the first are indented further by as many spaces. -/
theorem blockValue_specified {body : List Char} (simple : HasSimpleSpace body) :
    blockValue body =
        .ok (String.ofList (specifiedValue (terminatedLines (unescapeBlock body)))) ∧
      ∀ count, blockValue (indentLater count body) = blockValue body := by
  refine ⟨blockValue_eq simple, fun count => ?_⟩
  rw [blockValue_eq simple, blockValue_eq (simple.indentLater count), unescapeBlock_indentLater,
    terminatedLines_indentLater simple.unescapeBlock, specifiedValue_indentOthers]

namespace MixedLines

/-- A line without indentation, one that ends in both marks, a short blank one, one behind a tab with
escaped quotes, and a blank one at the end. -/
def body : List Char :=
  "one\n    hello\r\n \n\t     \\\"\"\"world\n  ".toList

theorem value_of_body : HasSimpleSpace body ∧
    blockValue body = .ok "one\nhello\n\n  \"\"\"world" ∧
      ∀ count, blockValue (indentLater count body) = blockValue body := by
  have simple : HasSimpleSpace body := by decide +kernel
  have value : String.ofList (specifiedValue (terminatedLines (unescapeBlock body))) =
      "one\nhello\n\n  \"\"\"world" := by decide +kernel
  refine ⟨simple, ?_, (blockValue_specified simple).2⟩
  rw [(blockValue_specified simple).1, value]

end MixedLines

end Text
end GraphQL
