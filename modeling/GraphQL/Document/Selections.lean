import GraphQL.Document

/-!
# Measures of selections

How selections nest, how many sets they hold and which fragments they spread. These bound the
recursions that follow the spreads of a document.
-/

namespace GraphQL

mutual

/-- How many fields are nested in one another in a selection. -/
def Selection.height : Selection → Nat
  | .field _ none => 1
  | .field _ (some selections) => selections.height + 1
  | .inlineFragment _ selections => selections.height
  | .spread _ => 0

def SelectionSet.height : SelectionSet → Nat
  | ⟨_, items, _⟩ => Selection.heights items

def Selection.heights : List Selection → Nat
  | [] => 0
  | selection :: rest => max selection.height (Selection.heights rest)

end

mutual

/-- How many selection sets a selection holds. -/
def Selection.setCount : Selection → Nat
  | .field _ none => 0
  | .field _ (some selections) => selections.setCount
  | .inlineFragment _ selections => selections.setCount
  | .spread _ => 0

/-- How many sets there are in a selection set, itself included. -/
def SelectionSet.setCount : SelectionSet → Nat
  | ⟨_, items, _⟩ => Selection.setCounts items + 1

def Selection.setCounts : List Selection → Nat
  | [] => 0
  | selection :: rest => selection.setCount + Selection.setCounts rest

end

mutual

/-- The names of the fragments spread in a selection, at any depth. -/
def Selection.spreads : Selection → List String
  | .field _ none => []
  | .field _ (some selections) => selections.spreads
  | .inlineFragment _ selections => selections.spreads
  | .spread head => [head.name.text]

def SelectionSet.spreads : SelectionSet → List String
  | ⟨_, items, _⟩ => Selection.listSpreads items

def Selection.listSpreads : List Selection → List String
  | [] => []
  | selection :: rest => selection.spreads ++ Selection.listSpreads rest

end

namespace Document

/-- The selection sets of all operations and fragments. -/
def selectionSets (document : Document) : List SelectionSet :=
  document.operations.map (·.selections) ++ document.fragments.map (·.selections)

/-- The nesting of all operations and fragments together. -/
def nesting (document : Document) : Nat :=
  document.selectionSets.foldr (fun selections rest => selections.height + rest) 0

/-- How many selection sets a document holds. -/
def setCount (document : Document) : Nat :=
  document.selectionSets.foldr (fun selections rest => selections.setCount + rest) 0

/-- How many spreads a document holds. -/
def spreadCount (document : Document) : Nat :=
  document.selectionSets.foldr (fun selections rest => selections.spreads.length + rest) 0

end Document

end GraphQL
