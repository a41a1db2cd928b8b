import GraphQL.Proofs.Document.Spelling
import GraphQL.Proofs.Parsing.Soundness
import GraphQL.Proofs.Text.Block

/-!
# What a quiet run yields

Whatever a parser reads without an error comes from tokens that were scanned, so names are words,
types and values can be written again, and descriptions do not end a block string. Unlike the grammar
this does not say which tokens were consumed, only what their texts allow.
-/

namespace GraphQL

open Grammar

/-- Names are words, and strings end where their quotes do. -/
def Token.AllScanned (tokens : List Token) : Prop :=
  ∀ token ∈ tokens, token.IsWord ∧ token.IsQuoted

open Token (AllScanned IsWordText)

section

variable {tokens others : List Token}

theorem Token.AllScanned.tail (scanned : AllScanned tokens) : AllScanned tokens.tail :=
  fun token member => scanned token (List.mem_of_mem_tail member)

theorem Token.AllScanned.mono (scanned : AllScanned tokens) (within : others ⊆ tokens) :
    AllScanned others :=
  fun token member => scanned token (within member)

end

theorem Token.AllScanned.isWordText {tokens : List Token} (scanned : AllScanned tokens)
    {token : Token} (member : token ∈ tokens) {name : Name} (isName : IsName token name) :
    IsWordText name.text :=
  ((scanned token member).1 isName.1 name.text isName.2).2

/-! ## Types and values -/

theorem Grammar.SpellsPlainType.isNonNull {tokens : List Token} {type : TypeExpression}
    (plain : SpellsPlainType tokens type) : type.toTypeRef.isNonNull = false := by
  cases plain <;> rfl

theorem TypeRef.isWritable_of_spells {type : TypeExpression} {tokens : List Token}
    (scanned : AllScanned tokens) (spelled : SpellsType tokens type) :
    type.toTypeRef.IsWritable := by
  induction type generalizing tokens with
  | named name =>
      rcases spelled with ⟨⟨isName⟩⟩
      exact scanned.isWordText List.mem_cons_self isName
  | list item span ih =>
      rcases spelled with ⟨⟩ | ⟨⟩
      rename_i plain
      rcases plain with ⟨⟩ | ⟨opens, inner, closes⟩
      exact ih (scanned.mono (by simp)) inner
  | nonNull inner span ih =>
      rcases spelled with ⟨⟨⟩⟩ | ⟨plain, isBang⟩
      exact ⟨plain.isNonNull, ih (scanned.mono (by simp)) (.nullable plain)⟩

namespace Json

theorem fieldsWritable_iff {fields : List (String × Json)} :
    FieldsWritable fields ↔ ∀ field ∈ fields, IsWordText field.1 ∧ field.2.IsWritable := by
  induction fields with
  | nil => simp [FieldsWritable]
  | cons field fields ih =>
      rw [FieldsWritable, ih, List.forall_mem_cons, and_assoc]

mutual

/-- A literal that was read is the value of a literal again. -/
theorem isWritable_of_spells {constant : Bool} {literal : Literal} {tokens : List Token}
    (scanned : AllScanned tokens) (spelled : SpellsLiteral constant tokens literal) :
    literal.toJson.IsWritable := by
  cases literal with
  | int value span =>
      rcases spelled with ⟨⟩ | ⟨_, _, fits⟩
      exact fits
  | float value span =>
      rw [Literal.toJson]
      split
      · rename_i finite
        exact finite
      · trivial
  | list items span =>
      cases spelled with
      | list between =>
        rcases between with ⟨opens, ⟨each⟩, closes⟩
        exact itemsWritable_of_spells (scanned.mono (by simp)) each
  | object fields span =>
      cases spelled with
      | object between =>
        rcases between with ⟨opens, ⟨each⟩, closes⟩
        have writable := fieldsWritable_of_spells (scanned.mono (by simp)) each
        rw [Literal.toJson, IsWritable]
        refine ⟨OrderedMap.nodup_keys_ofPairs _, fieldsWritable_iff.mpr fun field member => ?_⟩
        exact fieldsWritable_iff.mp writable field (OrderedMap.mem_of_mem_ofPairs member)
  | _ => trivial

theorem itemsWritable_of_spells {constant : Bool} {items : List Literal}
    {parts : List (List Token)} (scanned : AllScanned parts.flatten)
    (each : List.Forall₂ (SpellsLiteral constant) parts items) :
    ItemsWritable (Literal.itemsToJson items) := by
  cases items with
  | nil => trivial
  | cons item items =>
      cases each with
      | cons first others =>
          rw [List.flatten_cons] at scanned
          exact ⟨isWritable_of_spells (scanned.mono (by simp)) first,
            itemsWritable_of_spells (scanned.mono (by simp)) others⟩

theorem fieldsWritable_of_spells {constant : Bool} {fields : List (Name × Literal)}
    {parts : List (List Token)} (scanned : AllScanned parts.flatten)
    (each : List.Forall₂ (SpellsField constant) parts fields) :
    FieldsWritable (Literal.fieldsToJson fields) := by
  cases fields with
  | nil => trivial
  | cons field fields =>
      cases each with
      | cons first others =>
          rcases first with ⟨isName, isColon, inner⟩
          rw [List.flatten_cons] at scanned
          exact ⟨scanned.isWordText (by simp) isName,
            isWritable_of_spells (scanned.mono (by grind)) inner,
            fieldsWritable_of_spells (scanned.mono (by grind)) others⟩

end

end Json

/-! ## Runs over scanned tokens -/

namespace Parser

variable {α β : Type}

/-- Where something is given, a quiet run over scanned tokens has a result of some form. -/
def Yields (given : Prop) (parser : Parser α) (shows : α → Prop) : Prop :=
  Reads parser fun tokens result rest => given → AllScanned tokens →
    AllScanned rest ∧ shows result

namespace Yields

variable {given : Prop} {parser : Parser α} {next : α → Parser β} {shows : α → Prop}
  {goal : β → Prop}

theorem pure {value : α} (holds : given → shows value) :
    Yields given (Pure.pure value) shows :=
  Reads.pure fun _ isGiven scanned => ⟨scanned, holds isGiven⟩

theorem under {other : Prop} (yields : Yields given parser shows) (implies : other → given) :
    Yields other parser shows :=
  Reads.weaken yields fun _ _ _ holds isGiven => holds (implies isGiven)

/-- What the first parser yields is given to the next one. -/
theorem bind (yields : Yields given parser shows)
    (follows : ∀ value, Yields (given ∧ shows value) (next value) goal) :
    Yields given (parser >>= next) goal := by
  refine Reads.bind yields fun value => Reads.weaken (follows value) ?_
  intro tokens result rest holds before first isGiven scanned
  rcases first isGiven scanned with ⟨scanned, shown⟩
  exact holds ⟨isGiven, shown⟩ scanned

/-- A step whose result does not matter. -/
theorem skip {any : α → Prop} (yields : Yields given parser any)
    (follows : ∀ value, Yields given (next value) goal) : Yields given (parser >>= next) goal :=
  yields.bind fun value => (follows value).under And.left

theorem look {sees : List Token → α → Prop} (looks : Looks parser sees)
    (follows : ∀ value, Yields given (next value) goal) : Yields given (parser >>= next) goal :=
  Reads.look looks fun value => Reads.weaken (follows value) fun _ _ _ holds _ => holds

theorem ite {condition : Prop} [Decidable condition] {other : Parser α}
    (yields : condition → Yields given parser shows)
    (otherYields : ¬condition → Yields given other shows) :
    Yields given (if condition then parser else other) shows :=
  Reads.ite yields otherYields

theorem of_spelled {spells : List Token → α → Prop} (reads : Reads parser (Spelled spells))
    (implies : ∀ tokens result, AllScanned tokens → spells tokens result → shows result) :
    Yields given parser shows := by
  refine Reads.weaken reads ?_
  rintro _ result rest ⟨used, rfl, spelled⟩ _ scanned
  exact ⟨scanned.mono (by simp), implies used result (scanned.mono (by simp)) spelled⟩

/-- A step that reports an error yields whatever is asked for. -/
theorem of_error {report : Parser PUnit} (reports : Reads report fun _ _ _ => False)
    (runs : Reads parser fun _ _ _ => True) : Yields given (do report; parser) shows :=
  .after_error reports runs

end Yields

section

variable {given : Prop} {shows : α → Prop}

theorem yields_eat {expected : TokenKind} (inside : expected ≠ .endOfInput) :
    Yields given (eat expected) fun _ => True := by
  refine Reads.weaken (reads_eat inside) fun tokens eaten rest ate _ scanned => ⟨?_, trivial⟩
  split at ate
  · rcases ate with ⟨token, rfl, _⟩
    exact scanned.tail
  · exact ate.1 ▸ scanned

theorem yields_advance : Yields given advance fun _ => True :=
  Reads.weaken reads_advance fun _ _ _ same _ scanned => ⟨same ▸ scanned.tail, trivial⟩

theorem yields_currentText : Yields given currentText fun _ => True :=
  Reads.weaken reads_currentText fun _ _ _ read _ scanned => ⟨read.1 ▸ scanned, trivial⟩

theorem yields_depthBound : Yields given depthBound (0 < ·) :=
  .look looks_get fun _ => .pure fun _ => Nat.succ_pos _

theorem yields_expect {expected : TokenKind} (inside : expected ≠ .endOfInput) :
    Yields given (expect expected) fun _ => True := by
  refine Reads.weaken (reads_expect inside) ?_
  rintro _ met rest ⟨_, token, rfl, _⟩ _ scanned
  exact ⟨scanned.tail, trivial⟩

theorem yields_expectMark (mark : Punctuator) : Yields given (expectMark mark) fun _ => True :=
  .skip (yields_expect (by simp)) fun _ => .pure fun _ => trivial

theorem yields_name : Yields given name fun name => IsWordText name.text := by
  refine Reads.weaken reads_name ?_
  rintro _ name rest ⟨token, rfl, isName⟩ _ scanned
  exact ⟨scanned.tail, scanned.isWordText List.mem_cons_self isName⟩

theorem yields_typeExpression :
    Yields given typeExpression fun type => type.toTypeRef.IsWritable :=
  .of_spelled reads_typeExpression fun _ _ => TypeRef.isWritable_of_spells

theorem yields_defaultValue : Yields given defaultValue fun default? =>
    ∀ value, default?.map Literal.toJson = some value → value.IsWritable := by
  refine .of_spelled reads_defaultValue fun tokens default? scanned spelled => ?_
  cases spelled with
  | absent => simp
  | present isEquals spelled =>
      rintro _ ⟨⟩
      exact Json.isWritable_of_spells (scanned.mono (by simp)) spelled

theorem yields_directives : Yields given directives fun _ => True :=
  .of_spelled reads_directives fun _ _ _ _ => trivial

theorem yields_spanned (start : Nat) {value : Span → α} (holds : given → ∀ span, shows (value span)) :
    Yields given (do return value (← spanFrom start)) shows :=
  .look (looks_spanFrom start) fun span => .pure fun isGiven => holds isGiven span

/-! ### Lists -/

/-- An item and those after it. -/
theorem Yields.cons {first : α} {others : Parser (List α)}
    (yields : Yields given others fun items => ∀ item ∈ items, shows item) :
    Yields (given ∧ shows first) (do return first :: (← others)) fun items =>
      ∀ item ∈ items, shows item :=
  .bind (yields.under And.left) fun _ => .pure fun ⟨⟨_, shown⟩, others⟩ =>
    List.forall_mem_cons.mpr ⟨shown, others⟩

section

variable {item : Parser α} (yields : Yields given item shows)

include yields

theorem Yields.progressing : Yields given (progressing item) shows := by
  refine Reads.progressing yields fun tokens result rest holds _ isGiven scanned => ?_
  exact ⟨(holds isGiven scanned).1.tail, (holds isGiven scanned).2⟩

theorem Yields.itemsWithin (closing : Punctuator) (fuel : Nat) :
    Yields given (itemsWithin closing item fuel) fun items => ∀ item ∈ items, shows item := by
  induction fuel with
  | zero => exact .pure fun _ => by simp
  | succ fuel ih =>
      refine .look (looks_isAtEndOf closing) fun _ => .ite (fun _ => .pure fun _ => by simp) fun _ => ?_
      exact yields.progressing.bind fun _ => ih.cons

theorem Yields.itemsThrough (closing : Punctuator) :
    Yields given (itemsThrough closing item) fun items => ∀ item ∈ items, shows item :=
  .bind (.look looks_get fun _ => yields.itemsWithin closing _) fun _ =>
    .skip (yields_expectMark closing) fun _ => .pure And.right

theorem Yields.optionalItems (opening closing : Punctuator) :
    Yields given (optionalItems opening closing item) fun items => ∀ item ∈ items, shows item :=
  .skip (yields_eat (by simp)) fun _ =>
    .ite (fun _ => yields.itemsThrough closing) fun _ => .pure fun _ => by simp

theorem Yields.furtherItems (separator : Punctuator) (fuel : Nat) :
    Yields given (furtherItems separator item fuel) fun items => ∀ item ∈ items, shows item := by
  induction fuel with
  | zero => exact .pure fun _ => by simp
  | succ fuel ih =>
      refine .skip (yields_eat (by simp)) fun _ => .ite (fun _ => ?_) fun _ => .pure fun _ => by simp
      exact yields.bind fun _ => ih.cons

theorem Yields.separatedItems (separator : Punctuator) :
    Yields given (separatedItems separator item) fun items => ∀ item ∈ items, shows item :=
  yields.bind fun _ => .look looks_get fun _ => (yields.furtherItems separator _).cons

end

end

end Parser

end GraphQL
