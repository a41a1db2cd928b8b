import GraphQL.Proofs.Parsing.Grammar
import GraphQL.Proofs.Token.Lexing

/-!
# Texts that spell parts of a document

Printed names, punctuators, keywords and lists are scanned into tokens that the grammar derives.
-/

namespace GraphQL

open Grammar Token

namespace Token

theorem lexes_name {text : String} (isWord : IsWordText text) (span : Span) :
    Lexes Breaks text (IsOne (IsName · ⟨text, span⟩)) := by
  refine (lexes_word isWord).weaken ?_
  rintro _ ⟨token, rfl, isKind, reads⟩
  exact ⟨token, rfl, by rw [isKind]; exact isName_wordKind text, reads⟩

theorem wordKind_text (word : Keyword) :
    IsWordText word.text ∧ wordKind word.text = .keyword word := by
  cases word <;> decide

theorem lexes_keyword (word : Keyword) : Lexes Breaks word.text (IsOne (IsKeyword word)) := by
  rcases wordKind_text word with ⟨isWord, isKind⟩
  refine (lexes_word isWord).weaken ?_
  rintro _ ⟨token, rfl, kind, _⟩
  exact ⟨token, rfl, kind.trans isKind⟩

theorem lexes_punctuator (mark : Punctuator) :
    Lexes Anything mark.text (IsOne (IsMark mark)) := by
  refine (lexes_mark mark).weaken ?_
  rintro _ ⟨token, rfl, isMark, _⟩
  exact ⟨token, rfl, isMark⟩

/-- A name and the colon in front of what it names. -/
theorem lexes_label {name : String} (isWord : IsWordText name) (span : Span) :
    Lexes Anything (name ++ ": ") fun tokens => ∃ token colon, tokens = [token, colon] ∧
      IsName token ⟨name, span⟩ ∧ IsMark .colon colon := by
  have colon := ((lexes_punctuator .colon).mono fun _ _ => trivial).beforeIgnored (c := ' ') rfl
  refine ((lexes_name isWord span).append colon fun rest _ => breaks_text rfl rest).weaken ?_
  rintro _ ⟨_, _, rfl, ⟨token, rfl, isName⟩, colon, rfl, isColon⟩
  exact ⟨token, colon, rfl, isName, isColon⟩

section

variable {α : Type} {spells : List Token → α → Prop}

/-- The items of a printed list. -/
theorem lexes_listed {texts : List String} {items : List α}
    (each : List.Forall₂ (fun text item => Lexes Breaks text (spells · item)) texts items) :
    Lexes Breaks (", ".intercalate texts) (SpellsEach spells · items) := by
  induction each with
  | nil =>
      rw [String.intercalate_nil]
      refine (lexes_empty.mono fun _ _ => trivial).weaken ?_
      rintro _ rfl
      exact .nil
  | @cons text item texts items first others ih =>
      cases others with
      | nil =>
          rw [String.intercalate_singleton]
          refine first.weaken fun tokens spelled => ?_
          rw [← List.append_nil tokens]
          exact .cons spelled .nil
      | cons second others =>
          rw [String.intercalate_cons_cons]
          have separated : Lexes Anything (text ++ ", ") (spells · item) := by
            have blank := ((first.beforeIgnored (c := ',') rfl).mono fun _ _ => trivial)
              |>.beforeIgnored (c := ' ') rfl
            rwa [String.append_assoc] at blank
          refine (separated.followedBy ih).weaken ?_
          rintro _ ⟨used, others, rfl, spelled, each⟩
          exact .cons spelled each

/-- A printed list between two punctuators. -/
theorem lexes_between (opening closing : Punctuator) {texts : List String} {items : List α}
    (closes : ∀ rest, Breaks (closing.text.toList ++ rest))
    (each : List.Forall₂ (fun text item => Lexes Breaks text (spells · item)) texts items) :
    Lexes Anything (opening.text ++ ", ".intercalate texts ++ closing.text)
      (SpellsBetween opening closing spells · items) := by
  have inside := (lexes_punctuator opening).followedBy (lexes_listed each)
  refine (inside.append (lexes_punctuator closing) fun rest _ => closes rest).weaken ?_
  rintro _ ⟨_, _, rfl, ⟨_, used, rfl, ⟨first, rfl, opens⟩, spelled⟩, last, rfl, isLast⟩
  rw [List.append_assoc]
  exact .mk opens spelled isLast

theorem lexes_separated {mark : Punctuator} {texts : List String} {items : List α}
    (nonempty : texts ≠ [])
    (each : List.Forall₂ (fun text item => Lexes Breaks text (spells · item)) texts items) :
    Lexes Breaks ((" " ++ mark.text ++ " ").intercalate texts)
      (SpellsSeparated mark spells · items) := by
  induction each with
  | nil => exact absurd rfl nonempty
  | @cons text item texts items first others ih =>
      cases others with
      | nil =>
          rw [String.intercalate_singleton]
          exact first.weaken fun tokens spelled => .last spelled
      | cons second others =>
          have separated : Lexes Anything (text ++ (" " ++ mark.text ++ " ")) fun tokens =>
              ∃ used separator, tokens = used ++ [separator] ∧ spells used item ∧
                IsMark mark separator := by
            have separator := ((lexes_punctuator mark).mono fun _ _ => trivial)
              |>.beforeIgnored (c := ' ') rfl
            have marked := (first.beforeIgnored (c := ' ') rfl).followedBy separator
            simp only [String.append_assoc] at marked ⊢
            refine marked.weaken ?_
            rintro _ ⟨used, _, rfl, spelled, separator, rfl, separates⟩
            exact ⟨used, separator, rfl, spelled, separates⟩
          rw [String.intercalate_cons_cons]
          refine (separated.followedBy (ih (by simp))).weaken ?_
          rintro _ ⟨_, others, rfl, ⟨used, separator, rfl, spelled, separates⟩, each⟩
          rw [List.append_assoc]
          exact .cons spelled separates each

end

end Token

end GraphQL
