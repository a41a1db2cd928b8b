import GraphQL.Proofs.Token.Pieces
import GraphQL.Text.Block

/-!
# Faults of block strings

The indentation that lines have in common is counted in bytes. It ends between characters of every
line that is not blank, since such a line starts with at least as many spaces and tabs. So a block
string has a value unless it has a blank line that the indentation cuts inside a character.
-/

namespace GraphQL
namespace Text

open Token

/-- So many bytes of the line end inside one of its characters. -/
def CutsCharacter (count : Nat) (line : List Char) : Prop :=
  count ≤ byteLength line ∧ ∀ front rest, line = front ++ rest → byteLength front ≠ count

theorem dropBytes_eq_error {count : Nat} {line : List Char} {fault : SliceFault}
    (inside : count ≤ byteLength line) (stops : dropBytes count line = .error fault) :
    fault = .insideCharacter ∧ CutsCharacter count line := by
  suffices cuts : fault = .insideCharacter ∧
      ∀ front rest, line = front ++ rest → byteLength front ≠ count from
    ⟨cuts.1, inside, cuts.2⟩
  fun_induction dropBytes count line with
  | case1 => cases stops
  | case2 => cases inside
  | case3 count c rest fits ih =>
      have size : byteLength (c :: rest) = c.utf8Size + byteLength rest := byteSize_cons c rest
      rcases ih (by omega) stops with ⟨isFault, cuts⟩
      refine ⟨isFault, ?_⟩
      rintro (_ | ⟨d, front⟩) others same long
      · cases long
      · cases same
        have size : byteLength (c :: front) = c.utf8Size + byteLength front := byteSize_cons c front
        exact cuts front others rfl (by omega)
  | case4 count c rest tooLong =>
      cases stops
      refine ⟨rfl, ?_⟩
      rintro (_ | ⟨d, front⟩) others same long
      · cases long
      · cases same
        have size : byteLength (c :: front) = c.utf8Size + byteLength front := byteSize_cons c front
        omega

theorem unindent_eq_error {count : Nat} {line : List Char} {fault : SliceFault}
    (stops : unindent count line = .error fault) :
    fault = .insideCharacter ∧ CutsCharacter count line := by
  rw [unindent] at stops
  split at stops
  · cases stops
  · exact dropBytes_eq_error (Nat.le_of_not_lt ‹_›) stops

/-- Spaces and tabs take one byte each. -/
theorem byteLength_of_indentation {front : List Char}
    (blanks : ∀ c ∈ front, (c == ' ' || c == '\t') = true) : byteLength front = front.length := by
  induction front with
  | nil => rfl
  | cons c front ih =>
      have size : byteLength (c :: front) = c.utf8Size + byteLength front := byteSize_cons c front
      have one : c.utf8Size = 1 := by
        have blank := blanks c List.mem_cons_self
        simp only [Bool.or_eq_true, beq_iff_eq] at blank
        rcases blank with rfl | rfl <;> rfl
      rw [size, one, ih fun d member => blanks d (List.mem_cons_of_mem c member), List.length_cons,
        Nat.add_comm]

/-- No part of the indentation of a line ends inside a character. -/
theorem not_cutsCharacter {count : Nat} {line : List Char} (within : count ≤ indentation line) :
    ¬CutsCharacter count line := by
  intro cuts
  have long : count ≤ (line.takeWhile fun c => c == ' ' || c == '\t').length := within
  refine cuts.2 ((line.takeWhile fun c => c == ' ' || c == '\t').take count)
    ((line.takeWhile fun c => c == ' ' || c == '\t').drop count ++
      line.dropWhile fun c => c == ' ' || c == '\t') ?_ ?_
  · rw [← List.append_assoc, List.take_append_drop, List.takeWhile_append_dropWhile]
  · rw [byteLength_of_indentation, List.length_take, Nat.min_eq_left long]
    intro c member
    exact List.all_eq_true.mp List.all_takeWhile c (List.mem_of_mem_take member)

theorem commonIndentation_le {lines : List (List Char)} {line : List Char} (member : line ∈ lines)
    (notBlank : isBlank line = false) : commonIndentation lines ≤ indentation line :=
  List.min?_getD_le_of_mem
    (List.mem_map_of_mem (List.mem_filter.mpr ⟨member, by rw [notBlank]; rfl⟩))

/-- Of the lines after the first one, a blank one is cut inside a character. -/
def CutsBlankLine : List (List Char) → Prop
  | [] => False
  | _ :: others => ∃ line ∈ others, isBlank line = true ∧
      CutsCharacter (commonIndentation others) line

theorem exists_of_mapM_eq_error {α β ε : Type} {f : α → Except ε β} {items : List α} {fault : ε}
    (stops : items.mapM f = .error fault) : ∃ item ∈ items, f item = .error fault := by
  induction items with
  | nil => cases stops
  | cons first others ih =>
      rw [List.mapM_cons] at stops
      cases run : f first with
      | error found =>
          rw [run] at stops
          cases stops
          exact ⟨first, List.mem_cons_self, run⟩
      | ok value =>
          rw [run] at stops
          cases runs : others.mapM f with
          | ok values =>
              rw [runs] at stops
              cases stops
          | error found =>
              rw [runs] at stops
              cases stops
              rcases ih runs with ⟨item, member, stops⟩
              exact ⟨item, List.mem_cons_of_mem first member, stops⟩

theorem blockValue_eq_error {raw : List Char} {fault : SliceFault}
    (stops : blockValue raw = .error fault) :
    fault = .insideCharacter ∧ CutsBlankLine (lines (unescapeBlock raw)) := by
  have unindents : unindentedLines (lines (unescapeBlock raw)) = .error fault := by
    rw [blockValue] at stops
    cases run : unindentedLines (lines (unescapeBlock raw)) <;> rw [run] at stops <;> cases stops
    rfl
  cases split : lines (unescapeBlock raw) with
  | nil =>
      rw [split] at unindents
      cases unindents
  | cons first others =>
      rw [split, unindentedLines] at unindents
      cases run : others.mapM (unindent (commonIndentation others)) with
      | ok values =>
          rw [run] at unindents
          cases unindents
      | error found =>
          rw [run] at unindents
          cases unindents
          rcases exists_of_mapM_eq_error run with ⟨line, member, stops⟩
          rcases unindent_eq_error stops with ⟨isFault, cuts⟩
          refine ⟨isFault, line, member, ?_, cuts⟩
          cases blank : isBlank line with
          | true => rfl
          | false => exact absurd cuts (not_cutsCharacter (commonIndentation_le member blank))

end Text
end GraphQL
