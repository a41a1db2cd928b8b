import GraphQL.Source
import Mathlib.Algebra.Group.Nat.Defs

/-!
# Locations of offsets

A line index holds the starts of the lines of a text in strictly increasing order. A search in such a
table ends at the value or between its neighbours, so the line of an offset is the last one that
starts at or before it: its number counts the line feeds before the offset, and its start lies just
behind the last of them. Locations therefore grow with the offsets that they stand for.
-/

namespace GraphQL

variable {table : Array Nat} {value : Nat}

/-! ## Searching a sorted table -/

namespace SearchResult

/-- The result is right for a sorted table: it names the value, or the place between the smaller and
the larger entries. -/
inductive IsRight (table : Array Nat) (value : Nat) : SearchResult → Prop where
  | found {place : Nat} (inside : place < table.size) (same : table[place] = value) :
      IsRight table value (.found place)
  | missing {place : Nat} (inside : place ≤ table.size)
      (before : ∀ (i : Nat) (within : i < table.size), i < place → table[i] < value)
      (behind : ∀ (i : Nat) (within : i < table.size), place ≤ i → value < table[i]) :
      IsRight table value (.missing place)

/-- The place is the last one that holds at most the value, or the first one of all. -/
structure IsLast (table : Array Nat) (value place : Nat) : Prop where
  inside : place < table.size
  atMost : place = 0 ∨ table[place] ≤ value
  above : ∀ (i : Nat) (within : i < table.size), place < i → value < table[i]

theorem lt_of_sorted (sorted : table.toList.Pairwise (· < ·)) {i j : Nat} (before : i < j)
    (within : j < table.size) : table[i] < table[j] := by
  have ordered := List.pairwise_iff_getElem.mp sorted i j (by simp; omega) (by simpa) before
  simpa using ordered

theorem le_of_sorted (sorted : table.toList.Pairwise (· < ·)) {i j : Nat} (notAfter : i ≤ j)
    (within : j < table.size) : table[i] ≤ table[j] := by
  rcases Nat.eq_or_lt_of_le notAfter with rfl | before
  · exact Nat.le_refl _
  · exact Nat.le_of_lt (lt_of_sorted sorted before within)

/-- Halving keeps the entries from the end of the part on above the value, and its first one at most
the value. -/
theorem narrow_isLast (sorted : table.toList.Pairwise (· < ·)) {base size : Nat} (some : 0 < size)
    (within : base + size ≤ table.size) (atMost : base = 0 ∨ table[base] ≤ value)
    (above : ∀ (i : Nat) (inside : i < table.size), base + size ≤ i → value < table[i]) :
    IsLast table value (narrow table value base size) := by
  induction size using Nat.strongRecOn generalizing base with
  | ind size ih =>
      rw [narrow]
      split
      · exact ⟨by omega, atMost, fun i inside later => above i inside (by omega)⟩
      · rename_i several
        have middleInside : base + size / 2 < table.size := by omega
        have entry : table.getD (base + size / 2) 0 = table[base + size / 2] := by
          simp [Array.getD, middleInside]
        simp only [entry]
        split
        · rename_i smaller
          refine ih (size - size / 2) (by omega) (by omega) (by omega) atMost ?_
          intro i inside later
          have behind : base + size / 2 ≤ i := by omega
          exact Nat.lt_of_lt_of_le smaller (le_of_sorted sorted behind inside)
        · rename_i larger
          refine ih (size - size / 2) (by omega) (by omega) (by omega) (.inr ?_) ?_
          · exact Nat.le_of_not_lt larger
          · intro i inside later
            exact above i inside (by omega)

/-- A search in a sorted table finds the value or the place where it is missing. -/
theorem ofTable_isRight (sorted : table.toList.Pairwise (· < ·)) (value : Nat) :
    IsRight table value (ofTable table value) := by
  unfold ofTable
  rcases Nat.eq_zero_or_pos table.size with empty | some
  · have place : narrow table value 0 table.size = 0 := by
      rw [narrow, if_pos (by omega)]
    simp only [place, Array.getElem?_eq_none (Nat.le_of_eq empty)]
    exact .missing (by omega) (fun i within _ => by omega) fun i within _ => by omega
  · have last : IsLast table value (narrow table value 0 table.size) :=
      narrow_isLast sorted some (by omega) (.inl rfl) fun i inside later => by omega
    generalize narrow table value 0 table.size = place at last
    rcases last with ⟨inside, atMost, above⟩
    simp only [Array.getElem?_eq_getElem inside]
    split
    · rename_i smaller
      rw [Nat.compare_eq_lt] at smaller
      refine .missing inside ?_ fun i within behind => above i within behind
      intro i within before
      exact Nat.lt_of_le_of_lt (le_of_sorted sorted (Nat.le_of_lt_succ before) inside) smaller
    · rename_i same
      rw [Nat.compare_eq_eq] at same
      exact .found inside same
    · rename_i larger
      rw [Nat.compare_eq_gt] at larger
      -- Only the first place can hold more than the value.
      have first : place = 0 := atMost.resolve_right (Nat.not_le_of_lt larger)
      subst first
      refine .missing (Nat.zero_le _) (fun i _ before => by omega) ?_
      intro i within _
      rcases Nat.eq_zero_or_pos i with rfl | behind
      · exact larger
      · exact above i within behind

end SearchResult

/-! ## Starts of lines -/

namespace LineIndex

theorem mem_laterStarts_cons {start offset : Nat} {byte : UInt8} {rest : List UInt8} :
    start ∈ laterStarts offset (byte :: rest) ↔
      byte = lineFeed ∧ start = offset + 1 ∨ start ∈ laterStarts (offset + 1) rest := by
  rw [laterStarts]
  split
  · rename_i feeds
    simp [feeds]
  · rename_i other
    simp [other]

/-- The later lines start just behind the line feeds. -/
theorem mem_laterStarts_iff {start offset : Nat} {bytes : List UInt8} :
    start ∈ laterStarts offset bytes ↔
      ∃ place, bytes[place]? = some lineFeed ∧ start = offset + place + 1 := by
  induction bytes generalizing offset with
  | nil => simp [laterStarts]
  | cons byte rest ih =>
      rw [mem_laterStarts_cons, ih]
      constructor
      · rintro (⟨rfl, rfl⟩ | ⟨place, found, rfl⟩)
        · exact ⟨0, rfl, rfl⟩
        · exact ⟨place + 1, found, by omega⟩
      · rintro ⟨_ | place, found, rfl⟩
        · exact .inl ⟨Option.some.inj found, rfl⟩
        · exact .inr ⟨place, found, by omega⟩

theorem lt_of_mem_laterStarts {start offset : Nat} {bytes : List UInt8}
    (member : start ∈ laterStarts offset bytes) : offset < start := by
  rcases mem_laterStarts_iff.mp member with ⟨place, -, rfl⟩
  omega

theorem laterStarts_sorted (offset : Nat) (bytes : List UInt8) :
    (laterStarts offset bytes).Pairwise (· < ·) := by
  induction bytes generalizing offset with
  | nil => exact .nil
  | cons byte rest ih =>
      simp only [laterStarts]
      split
      · exact List.pairwise_cons.mpr ⟨fun start => lt_of_mem_laterStarts, ih _⟩
      · exact ih _

/-- The later lines that start at or before an offset are as many as the line feeds before it. -/
theorem countP_laterStarts (base offset : Nat) (bytes : List UInt8) :
    (laterStarts base bytes).countP (· ≤ offset) =
      (bytes.take (offset - base)).count lineFeed := by
  induction bytes generalizing base with
  | nil => simp [laterStarts]
  | cons byte rest ih =>
      rcases Nat.lt_or_ge base offset with before | behind
      · have further : offset - base = offset - (base + 1) + 1 := by omega
        rw [further, List.take_succ_cons, List.count_cons, ← ih, laterStarts]
        split
        · rename_i feeds
          simp [feeds, Nat.succ_le_of_lt before]
        · rename_i other
          simp [other]
      · have nothing : offset - base = 0 := by omega
        rw [nothing, List.take_zero, List.count_nil, List.countP_eq_zero]
        intro start member
        have later := lt_of_mem_laterStarts member
        simp only [decide_eq_true_eq]
        omega

variable {bytes : List UInt8} {offset start : Nat}

theorem toList_starts (bytes : List UInt8) :
    (ofBytes bytes).starts.toList = 0 :: laterStarts 0 bytes :=
  rfl

theorem sorted_starts (bytes : List UInt8) : (ofBytes bytes).starts.toList.Pairwise (· < ·) := by
  rw [toList_starts]
  exact List.pairwise_cons.mpr ⟨fun start => lt_of_mem_laterStarts, laterStarts_sorted 0 bytes⟩

/-- A line starts where the text does and just behind every line feed. -/
theorem mem_starts_iff : start ∈ (ofBytes bytes).starts ↔
    start = 0 ∨ ∃ place, bytes[place]? = some lineFeed ∧ start = place + 1 := by
  rw [← Array.mem_toList_iff, toList_starts, List.mem_cons, mem_laterStarts_iff]
  simp only [Nat.zero_add]

theorem countP_starts (bytes : List UInt8) (offset : Nat) :
    (ofBytes bytes).starts.toList.countP (· ≤ offset) = (bytes.take offset).count lineFeed + 1 := by
  rw [toList_starts, List.countP_cons, countP_laterStarts]
  simp

/-! ## The line of an offset -/

/-- The line, counted from zero, is the last one that starts at or before the offset. -/
structure IsLine (index : LineIndex) (offset line start : Nat) : Prop where
  starts : index.starts[line]? = some start
  le : start ≤ offset
  last : ∀ later next, line < later → index.starts[later]? = some next → offset < next

/-- The search never ends in front of the first line. -/
theorem pos_of_missing (offset : Nat) {next : Nat}
    (ends : SearchResult.ofTable (ofBytes bytes).starts offset = .missing next) : 0 < next := by
  have right := SearchResult.ofTable_isRight (sorted_starts bytes) offset
  rw [ends] at right
  rcases right with _ | ⟨-, -, behind⟩
  have first : (0 : Nat) < (ofBytes bytes).starts.size := by simp [ofBytes]
  rcases Nat.eq_zero_or_pos next with rfl | some
  · have below : offset < 0 := behind 0 first (Nat.le_refl _)
    exact absurd below (Nat.not_lt_zero _)
  · exact some

theorem exists_isLine (bytes : List UInt8) (offset : Nat) :
    ∃ start, IsLine (ofBytes bytes) offset ((ofBytes bytes).line offset) start := by
  have sorted := sorted_starts bytes
  have right := SearchResult.ofTable_isRight sorted offset
  unfold line
  cases ends : SearchResult.ofTable (ofBytes bytes).starts offset with
  | found place =>
      rw [ends] at right
      rcases right with ⟨inside, same⟩ | _
      refine ⟨offset, ?_, Nat.le_refl _, ?_⟩
      · simp [inside, same]
      · intro later next behind found
        rcases Array.getElem?_eq_some_iff.mp found with ⟨within, rfl⟩
        exact same ▸ SearchResult.lt_of_sorted sorted behind within
  | missing place =>
      have pos := pos_of_missing offset ends
      rw [ends] at right
      rcases right with _ | ⟨inside, before, behind⟩
      have within : place - 1 < (ofBytes bytes).starts.size := by omega
      change ∃ start, IsLine (ofBytes bytes) offset (place - 1) start
      refine ⟨(ofBytes bytes).starts[place - 1], ?_, ?_, ?_⟩
      · simp [within]
      · exact Nat.le_of_lt (before (place - 1) within (by omega))
      · intro later next after found
        rcases Array.getElem?_eq_some_iff.mp found with ⟨withinLater, rfl⟩
        exact behind later withinLater (by omega)

/-- As many lines start at or before the offset as there are up to its own one. -/
theorem IsLine.countP_eq {index : LineIndex} {line : Nat}
    (sorted : index.starts.toList.Pairwise (· < ·)) (isLine : index.IsLine offset line start) :
    index.starts.toList.countP (· ≤ offset) = line + 1 := by
  rcases isLine with ⟨starts, le, last⟩
  rcases Array.getElem?_eq_some_iff.mp starts with ⟨inside, rfl⟩
  have front : (index.starts.toList.take (line + 1)).countP (· ≤ offset) = line + 1 := by
    have all : ∀ start ∈ index.starts.toList.take (line + 1), decide (start ≤ offset) = true := by
      intro start member
      rcases List.mem_take_iff_getElem.mp member with ⟨place, within, rfl⟩
      rw [Array.getElem_toList, decide_eq_true_eq]
      have before : place ≤ line := by omega
      exact Nat.le_trans (SearchResult.le_of_sorted sorted before inside) le
    rw [List.countP_eq_length.mpr all, List.length_take, Array.length_toList]
    omega
  have back : (index.starts.toList.drop (line + 1)).countP (· ≤ offset) = 0 := by
    refine List.countP_eq_zero.mpr fun start member => ?_
    rcases List.mem_drop_iff_getElem.mp member with ⟨place, within, rfl⟩
    rw [Array.getElem_toList, decide_eq_true_eq]
    exact Nat.not_le_of_lt (last (line + 1 + place) _ (by omega) (Array.getElem?_eq_getElem _))
  rw [← List.take_append_drop (line + 1) index.starts.toList, List.countP_append, front, back]

/-- The line of the offset starts with the text or just behind a line feed, and no line feed stands
between its start and the offset. -/
structure IsLineStart (bytes : List UInt8) (offset start : Nat) : Prop where
  le : start ≤ offset
  begins : start = 0 ∨ ∃ place, bytes[place]? = some lineFeed ∧ start = place + 1
  unbroken : ∀ place, start ≤ place → place < offset → bytes[place]? ≠ some lineFeed

theorem IsLine.isLineStart {line : Nat} (isLine : (ofBytes bytes).IsLine offset line start) :
    IsLineStart bytes offset start where
  le := isLine.le
  begins := mem_starts_iff.mp (Array.mem_of_getElem? isLine.starts)
  unbroken := by
    intro place behind before feeds
    have member : place + 1 ∈ (ofBytes bytes).starts := mem_starts_iff.mpr (.inr ⟨place, feeds, rfl⟩)
    rcases Array.mem_iff_getElem.mp member with ⟨later, within, found⟩
    rcases Array.getElem?_eq_some_iff.mp isLine.starts with ⟨inside, same⟩
    rcases Nat.lt_or_ge line later with after | notAfter
    · have beyond := isLine.last later (place + 1) after (by simp [within, found])
      omega
    · have ordered : (ofBytes bytes).starts[later] ≤ (ofBytes bytes).starts[line] :=
        SearchResult.le_of_sorted (sorted_starts bytes) notAfter inside
      omega

/-! ## Locations -/

/-- The location of the offset counts the line feeds before it and the bytes since the start of its
line. Neither subtraction on the way to it goes below zero: the search does not end in front of the
first line, and the line that it ends at starts at or before the offset. -/
structure Locates (index : LineIndex) (bytes : List UInt8) (offset start : Nat) : Prop where
  starts : IsLineStart bytes offset start
  line : (index.location offset).line = 1 + (bytes.take offset).count lineFeed
  column : (index.location offset).column = 1 + (offset - start)
  stored : index.starts[index.line offset]? = some start
  searched : ∀ next, SearchResult.ofTable index.starts offset = .missing next → 0 < next

theorem exists_locates (bytes : List UInt8) (offset : Nat) :
    ∃ start, (ofBytes bytes).Locates bytes offset start := by
  rcases exists_isLine bytes offset with ⟨start, isLine⟩
  have counted := isLine.countP_eq (sorted_starts bytes)
  rw [countP_starts] at counted
  refine ⟨start, isLine.isLineStart, ?_, ?_, isLine.starts, fun next => pos_of_missing offset⟩
  · simp only [location]
    omega
  · simp only [location, Array.getD_eq_getD_getElem?, isLine.starts, Option.getD_some]
    omega

end LineIndex

/-- The location comes first: on an earlier line, or in an earlier column of the same line. -/
def Location.IsBefore (first second : Location) : Prop :=
  first.line < second.line ∨ first.line = second.line ∧ first.column < second.column

namespace LineIndex

/-- A later offset is on a later line or, on a line with the same start, in a later column. -/
theorem isBefore_of_lt {other : Nat} (before : offset < other) :
    ((ofBytes bytes).location offset).IsBefore ((ofBytes bytes).location other) := by
  rcases exists_locates bytes offset with ⟨start, located⟩
  rcases exists_locates bytes other with ⟨otherStart, otherLocated⟩
  have counts : (bytes.take offset).count lineFeed ≤ (bytes.take other).count lineFeed :=
    (List.take_sublist_take_left (Nat.le_of_lt before)).count_le lineFeed
  have lines : ((ofBytes bytes).location offset).line ≤ ((ofBytes bytes).location other).line := by
    rw [located.line, otherLocated.line]
    omega
  rcases Nat.lt_or_eq_of_le lines with earlier | same
  · exact .inl earlier
  · refine .inr ⟨same, ?_⟩
    have sameLine : (ofBytes bytes).line offset = (ofBytes bytes).line other := Nat.succ.inj same
    have stored := located.stored
    rw [sameLine, otherLocated.stored] at stored
    cases stored
    have le := located.starts.le
    rw [located.column, otherLocated.column]
    omega

theorem location_injective (bytes : List UInt8) :
    Function.Injective (ofBytes bytes).location := by
  have differ {offset other : Nat} (before : offset < other) :
      (ofBytes bytes).location offset ≠ (ofBytes bytes).location other := by
    intro same
    have first : ((ofBytes bytes).location offset).IsBefore ((ofBytes bytes).location other) :=
      isBefore_of_lt before
    rw [same] at first
    rcases first with line | ⟨-, column⟩
    · exact absurd line (Nat.lt_irrefl _)
    · exact absurd column (Nat.lt_irrefl _)
  intro offset other same
  rcases Nat.lt_trichotomy offset other with before | equal | behind
  · exact absurd same (differ before)
  · exact equal
  · exact absurd same.symm (differ behind)

theorem le_length_of_mem_starts (member : start ∈ (ofBytes bytes).starts) :
    start ≤ bytes.length := by
  rcases mem_starts_iff.mp member with rfl | ⟨place, feeds, rfl⟩
  · exact Nat.zero_le _
  · rcases List.getElem?_eq_some_iff.mp feeds with ⟨inside, -⟩
    exact inside

/-- The location of an offset counts lines and the bytes of a line, both from one, also behind the
end of the source, and grows strictly with the offset. In a source shorter than 2 ^ 32 - 1 bytes a
line start takes 32 bits, as do the line and the column of an offset below that bound. -/
theorem location_exact (source : String) :
    (∀ offset, ∃ start,
      (ofSource source).Locates source.toUTF8.data.toList offset start) ∧
    (∀ offset other, offset < other →
      ((ofSource source).location offset).IsBefore ((ofSource source).location other)) ∧
    Function.Injective (ofSource source).location ∧
    (source.utf8ByteSize < 2 ^ 32 - 1 →
      (∀ start ∈ (ofSource source).starts, start < 2 ^ 32) ∧
      ∀ offset < 2 ^ 32 - 1, ((ofSource source).location offset).line < 2 ^ 32 ∧
        ((ofSource source).location offset).column < 2 ^ 32) := by
  refine ⟨exists_locates _, fun offset other => isBefore_of_lt, location_injective _, ?_⟩
  intro short
  have length : source.toUTF8.data.toList.length < 2 ^ 32 - 1 := short
  refine ⟨fun start member => ?_, fun offset below => ?_⟩
  · have within := le_length_of_mem_starts member
    omega
  · rcases exists_locates source.toUTF8.data.toList offset with ⟨start, located⟩
    have counts : (source.toUTF8.data.toList.take offset).count lineFeed ≤
        source.toUTF8.data.toList.length :=
      Nat.le_trans List.count_le_length (List.length_take_le' _ _)
    have line : ((ofSource source).location offset).line = _ := located.line
    have column : ((ofSource source).location offset).column = _ := located.column
    constructor
    · omega
    · omega

example : [0, 1, 2, 3, 4, 5].map (ofSource "a\n\nb").location =
    [⟨1, 1⟩, ⟨1, 2⟩, ⟨2, 1⟩, ⟨3, 1⟩, ⟨3, 2⟩, ⟨3, 3⟩] := by
  decide +kernel

namespace EmptyLine

/-- The second of three lines is empty. -/
def source : String :=
  "a\n\nb"

theorem words_suffice : source.utf8ByteSize < 2 ^ 32 - 1 ∧
    (∀ start ∈ (ofSource source).starts, start < 2 ^ 32) ∧
    ((ofSource source).location 5).line < 2 ^ 32 ∧
    ((ofSource source).location 5).column < 2 ^ 32 := by
  have short : source.utf8ByteSize < 2 ^ 32 - 1 := by decide +kernel
  rcases location_exact source with ⟨-, -, -, words⟩
  rcases words short with ⟨starts, locations⟩
  exact ⟨short, starts, locations 5 (by decide)⟩

end EmptyLine

end LineIndex
end GraphQL
