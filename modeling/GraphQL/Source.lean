/-!
# Places in a source text

A span is a range of byte offsets. A location is the line and column that a reader of the text
counts, both from one, a column for every byte.
-/

namespace GraphQL

/-- The bytes from `start` up to but not including `stop`. -/
structure Span where
  start : Nat
  stop : Nat
  deriving DecidableEq, Repr, Inhabited

namespace Span

def length (span : Span) : Nat :=
  span.stop - span.start

def isEmpty (span : Span) : Bool :=
  span.start == span.stop

/-- The smallest span that covers both. -/
def merge (left right : Span) : Span :=
  ⟨min left.start right.start, max left.stop right.stop⟩

/-- Spans in the order of their starts, then of their ends. -/
def order (left right : Span) : Ordering :=
  (compare left.start right.start).then (compare left.stop right.stop)

/-- The empty span where a span starts. -/
def atStart (span : Span) : Span :=
  ⟨span.start, span.start⟩

end Span

/-- Why a range of bytes is not a piece of text: it reaches past the end, or it cuts a character. -/
inductive SliceFault where
  | pastEnd
  | insideCharacter
  deriving DecidableEq, Repr

/-- A line and a column, both counted from one. -/
structure Location where
  line : Nat
  column : Nat
  deriving DecidableEq, Repr

/-- How a search in a sorted table ends: with a place that holds the value, or with the place at
which the value would have to be put in. -/
inductive SearchResult where
  | found (place : Nat)
  | missing (place : Nat)
  deriving DecidableEq, Repr

namespace SearchResult

/-- Halves a part of a sorted table, so many entries from a base on, until one place is left: the
last one that holds at most the value, if there is any. -/
def narrow (table : Array Nat) (value base size : Nat) : Nat :=
  if size ≤ 1 then base
  else
    let half := size / 2
    let middle := base + half
    narrow table value (if value < table.getD middle 0 then base else middle) (size - half)
termination_by size

/-- Looks a value up in a sorted table. -/
def ofTable (table : Array Nat) (value : Nat) : SearchResult :=
  let place := narrow table value 0 table.size
  match table[place]? with
  | none => .missing place
  | some entry =>
      match compare entry value with
      | .lt => .missing (place + 1)
      | .eq => .found place
      | .gt => .missing place

end SearchResult

/-- The offsets at which the lines of a text start, in increasing order. -/
structure LineIndex where
  starts : Array Nat
  deriving Repr

namespace LineIndex

def lineFeed : UInt8 := 10

/-- The starts of the lines after the first one: the offsets just behind a line feed. -/
def laterStarts (offset : Nat) : List UInt8 → List Nat
  | [] => []
  | byte :: rest =>
      if byte = lineFeed then (offset + 1) :: laterStarts (offset + 1) rest
      else laterStarts (offset + 1) rest

def ofBytes (bytes : List UInt8) : LineIndex :=
  ⟨(0 :: laterStarts 0 bytes).toArray⟩

def ofSource (source : String) : LineIndex :=
  ofBytes source.toUTF8.data.toList

/-- The line of an offset, counted from zero: the one that starts there or, if none does, the one
before the place that its start would have. -/
def line (index : LineIndex) (offset : Nat) : Nat :=
  match SearchResult.ofTable index.starts offset with
  | .found place => place
  | .missing place => place - 1

/-- The location of an offset, which may lie behind the end of the text. -/
def location (index : LineIndex) (offset : Nat) : Location :=
  let line := index.line offset
  ⟨line + 1, offset - index.starts.getD line 0 + 1⟩

def spanStart (index : LineIndex) (span : Span) : Location :=
  index.location span.start

end LineIndex

end GraphQL
