import GraphQL.Proofs.Token.Rescanning

/-!
# The layout of a source

A source can be laid out anew: what is ignored between two tokens, before the first or after the
last may become something else to ignore, and something to ignore may come between tokens that stand
next to each other. Comments bring the line feed that ends them, so they swallow no token. However a
source without unfinished tokens is laid out, it is scanned into tokens of the same kinds and texts.
-/

namespace GraphQL

/-- The token without its place. -/
def Token.spanless (token : Token) : Token :=
  { token with span := ⟨0, 0⟩ }

namespace Token

/-! ## What is ignored -/

/-- Blanks, line breaks, commas, byte order marks, and comments with the line feeds after them. -/
inductive IsIgnorable : List Char → Prop
  | nil : IsIgnorable []
  | blank {c : Char} {rest : List Char} : isIgnored c = true → IsIgnorable rest →
      IsIgnorable (c :: rest)
  | comment {text rest : List Char} : '\n' ∉ text → IsIgnorable rest →
      IsIgnorable ('#' :: (text ++ '\n' :: rest))

theorem splitIgnored_comment {text : List Char} (single : '\n' ∉ text) (rest : List Char) :
    splitIgnored true (text ++ '\n' :: rest) =
      (text ++ '\n' :: (splitIgnored false rest).1, (splitIgnored false rest).2) := by
  induction text with
  | nil => rfl
  | cons c text ih =>
      rw [List.mem_cons, not_or] at single
      have goesOn : (c != '\n') = true := bne_iff_ne.mpr (Ne.symm single.1)
      rw [List.cons_append, splitIgnored, if_pos rfl, goesOn, ih single.2]
      rfl

/-- Something to ignore is split off, whatever follows. -/
theorem IsIgnorable.splitIgnored_append {gap : List Char} (ignorable : IsIgnorable gap)
    (rest : List Char) :
    splitIgnored false (gap ++ rest) =
      (gap ++ (splitIgnored false rest).1, (splitIgnored false rest).2) := by
  induction ignorable with
  | nil => rfl
  | blank ignored _ ih => rw [List.cons_append, splitIgnored_cons ignored, ih]; rfl
  | @comment text after single _ ih =>
      rw [List.cons_append, List.append_assoc, List.cons_append, splitIgnored,
        if_neg Bool.false_ne_true, if_neg (by decide), if_pos rfl, splitIgnored_comment single, ih]
      simp

/-- What stands before a lexeme is something to ignore, since every comment there has ended. -/
theorem isIgnorable_of_splitIgnored {chars ignored rest : List Char} {c : Char}
    (parts : splitIgnored false chars = (ignored, c :: rest)) : IsIgnorable ignored := by
  have either (inComment : Bool) (chars : List Char) : ∀ ignored,
      splitIgnored inComment chars = (ignored, c :: rest) →
        if inComment = true then
          ∃ text after, ignored = text ++ '\n' :: after ∧ '\n' ∉ text ∧ IsIgnorable after
        else IsIgnorable ignored := by
    fun_induction splitIgnored inComment chars with
    | case1 => intro ignored parts; cases parts
    | case2 d others ignored left split ih =>
        rintro _ ⟨⟩
        have inner := ih ignored split
        by_cases ends : d = '\n'
        · subst ends
          exact ⟨[], ignored, rfl, by simp, inner⟩
        · rw [if_pos (bne_iff_ne.mpr ends)] at inner
          rcases inner with ⟨text, after, rfl, single, ignorable⟩
          refine ⟨d :: text, after, rfl, ?_, ignorable⟩
          rintro (_ | ⟨_, member⟩)
          · exact ends rfl
          · exact single member
    | case3 inComment d others outside isBlank ignored left split ih =>
        rintro _ ⟨⟩
        rw [if_neg outside]
        exact .blank isBlank (ih ignored split)
    | case4 inComment others outside ignored left split notBlank ih =>
        rintro _ ⟨⟩
        rcases ih ignored split with ⟨text, after, rfl, single, ignorable⟩
        rw [if_neg outside]
        exact .comment single ignorable
    | case5 inComment d others outside notBlank noHash =>
        rintro _ ⟨⟩
        rw [if_neg outside]
        exact .nil
  exact either false chars ignored parts

/-- A lexeme starts with nothing that could be ignored. -/
theorem kept_of_splitIgnored {chars ignored rest : List Char} {c : Char}
    (parts : splitIgnored false chars = (ignored, c :: rest)) : isIgnored c = false ∧ c ≠ '#' := by
  have either (inComment : Bool) (chars : List Char) : ∀ ignored,
      splitIgnored inComment chars = (ignored, c :: rest) → isIgnored c = false ∧ c ≠ '#' := by
    fun_induction splitIgnored inComment chars with
    | case1 => rintro _ ⟨⟩
    | case2 d others ignored left split ih => rintro _ ⟨⟩; exact ih ignored split
    | case3 inComment d others outside isBlank ignored left split ih =>
        rintro _ ⟨⟩
        exact ih ignored split
    | case4 inComment others outside ignored left split notBlank ih =>
        rintro _ ⟨⟩
        exact ih ignored split
    | case5 inComment d others outside notBlank noHash =>
        rintro _ ⟨⟩
        exact ⟨Bool.eq_false_iff.mpr notBlank, noHash⟩
  exact either false chars ignored parts

theorem breaks_of_opens {c : Char} (opens : isIgnored c = true ∨ c = '#') (rest : List Char) :
    Breaks (c :: rest) := by
  rcases opens with ignored | rfl
  · exact breaks_of_isIgnored ignored rest
  · exact breaks_cons rfl (by decide) (by decide) rest

/-- Something to ignore breaks what stands before it. -/
theorem IsIgnorable.breaks {gap : List Char} (ignorable : IsIgnorable gap) (nonempty : gap ≠ [])
    (rest : List Char) : Breaks (gap ++ rest) := by
  cases ignorable with
  | nil => exact absurd rfl nonempty
  | blank ignored _ => exact breaks_of_opens (.inl ignored) _
  | comment single _ => exact breaks_of_opens (.inr rfl) _

/-- A text without any lexeme breaks what stands before it. -/
theorem breaks_of_splitIgnored {chars ignored : List Char}
    (parts : splitIgnored false chars = (ignored, [])) : Breaks chars := by
  cases chars with
  | nil => intro c first; cases first
  | cons c rest =>
      refine breaks_of_opens ?_ rest
      by_cases isBlank : isIgnored c = true
      · exact .inl isBlank
      by_cases isHash : c = '#'
      · exact .inr isHash
      simp [splitIgnored, isBlank, isHash] at parts

/-! ## Scanning valid tokens -/

/-- A text without any lexeme holds the end of the input only. -/
theorem scanFrom_of_end {chars : List Char} (parts : splitIgnored false chars = (chars, []))
    (offset : Nat) : scanFrom offset chars =
      [⟨.endOfInput, ⟨offset + byteSize chars, offset + byteSize chars⟩, some ""⟩] := by
  rw [scanFrom]
  split <;> rename_i others <;> rw [parts] at others <;> cases others
  rfl

/-- Where every token is finished, the text is something to ignore up to its end, or there is a
finished lexeme after something to ignore. -/
inductive IsScannable (chars : List Char) : Prop
  | ends : splitIgnored false chars = (chars, []) → IsScannable chars
  | lexeme {gap rest : List Char} {c : Char} : IsIgnorable gap → isIgnored c = false → c ≠ '#' →
      chars = gap ++ c :: rest → (scanLexeme c rest).pastEnd = false → IsScannable chars

theorem isScannable {offset : Nat} {chars : List Char}
    (valid : ∀ token ∈ scanFrom offset chars, token.kind ≠ .invalid) : IsScannable chars := by
  have whole := Token.splitIgnored_append false chars
  rcases parts : splitIgnored false chars with ⟨ignored, _ | ⟨c, rest⟩⟩
  · rw [parts, List.append_nil] at whole
    subst whole
    exact .ends parts
  · rw [parts] at whole
    subst whole
    rcases kept_of_splitIgnored parts with ⟨kept, noComment⟩
    refine .lexeme (isIgnorable_of_splitIgnored parts) kept noComment rfl ?_
    rw [Bool.eq_false_iff]
    intro pastEnd
    rw [scanFrom] at valid
    split at valid <;> rename_i others <;> rw [parts] at others <;> cases others
    dsimp only at valid
    rw [if_pos pastEnd] at valid
    exact valid _ List.mem_cons_self (kind_of_pastEnd pastEnd)

/-- A lexeme after something to ignore is the first token. -/
theorem scanFrom_gap {gap rest : List Char} {c : Char} (ignorable : IsIgnorable gap)
    (kept : isIgnored c = false) (noComment : c ≠ '#')
    (finished : (scanLexeme c rest).pastEnd = false) (offset : Nat) :
    scanFrom offset (gap ++ c :: rest) =
      { kind := (scanLexeme c rest).kind
        span := ⟨offset + byteSize gap, offset + byteSize (gap ++ (scanLexeme c rest).chars)⟩
        text? := some (String.ofList (scanLexeme c rest).chars) } ::
      scanFrom (offset + byteSize (gap ++ (scanLexeme c rest).chars)) (scanLexeme c rest).rest := by
  rw [scanFrom_skip (ignorable.splitIgnored_append _), scanFrom_lexeme kept noComment finished,
    byteSize_append, Nat.add_assoc]

/-! ## Laying out anew -/

/-- What may stand between two tokens in place of what stands there: the same, or something to
ignore that does not put the tokens next to each other. -/
def Replaces (other gap : List Char) : Prop :=
  other = gap ∨ other ≠ [] ∧ IsIgnorable other

/-- The second text is the first one, which starts at an offset of a source and holds the tokens
given, with other stretches before the tokens and after the last. -/
inductive IsRelaid : Nat → List Token → List Char → List Char → Prop
  | last {offset : Nat} {token : Token} {gap otherGap : List Char} : Replaces otherGap gap →
      IsRelaid offset [token] gap otherGap
  | token {offset : Nat} {token : Token} {tokens : List Token}
      {gap otherGap lexeme text other : List Char} : Replaces otherGap gap →
      token.span = ⟨offset + byteSize gap, offset + byteSize (gap ++ lexeme)⟩ →
      IsRelaid token.span.stop tokens text other →
      IsRelaid offset (token :: tokens) (gap ++ lexeme ++ text) (otherGap ++ lexeme ++ other)

/-- Fronts of the same size are the same. -/
theorem append_inj_of_byteSize {front rest other otherRest : List Char}
    (same : front ++ rest = other ++ otherRest) (size : byteSize front = byteSize other) :
    front = other ∧ rest = otherRest := by
  have positive (c : Char) : 0 < c.utf8Size := c.utf8Size_pos
  induction front generalizing other with
  | nil =>
      cases other with
      | nil => exact ⟨rfl, same⟩
      | cons c other =>
          rw [byteSize_cons] at size
          have := positive c
          simp only [byteSize, List.foldl_nil] at size
          omega
  | cons c front ih =>
      cases other with
      | nil =>
          rw [byteSize_cons] at size
          have := positive c
          simp only [byteSize, List.foldl_nil] at size
          omega
      | cons d other =>
          obtain ⟨rfl, sameTail⟩ := List.cons.inj same
          rw [byteSize_cons, byteSize_cons] at size
          rcases ih sameTail (by omega) with ⟨rfl, others⟩
          exact ⟨rfl, others⟩

/-- A text that is cut at the place of its first token is cut into what is ignored, the lexeme and the
rest. -/
theorem parts_of_place {offset : Nat} {gap lexeme text front rest : List Char} {c : Char}
    (same : gap ++ lexeme ++ text = front ++ c :: rest)
    (place : Span.mk (offset + byteSize front)
        (offset + byteSize (front ++ (scanLexeme c rest).chars)) =
      ⟨offset + byteSize gap, offset + byteSize (gap ++ lexeme)⟩) :
    front = gap ∧ (scanLexeme c rest).chars = lexeme ∧ (scanLexeme c rest).rest = text := by
  obtain ⟨starts, stops⟩ := Span.mk.inj place
  have whole : front ++ ((scanLexeme c rest).chars ++ (scanLexeme c rest).rest) =
      gap ++ (lexeme ++ text) := by
    rw [scanLexeme_append, ← same, List.append_assoc]
  obtain ⟨isGap, ahead⟩ := append_inj_of_byteSize whole (by omega)
  rw [byteSize_append, byteSize_append] at stops
  exact ⟨isGap, append_inj_of_byteSize ahead (by omega)⟩

theorem Replaces.isIgnorable {other gap : List Char} (replaces : Replaces other gap)
    (ignorable : IsIgnorable gap) : IsIgnorable other := by
  rcases replaces with rfl | ⟨-, isIgnorable⟩
  · exact ignorable
  · exact isIgnorable

/-- A lexeme in a new layout takes the place of the lexeme, wherever something stands before it. -/
theorem takesPlace_of_replaces {gap otherGap tail text other : List Char} {c : Char}
    (ignorable : IsIgnorable gap) (replaces : Replaces otherGap gap)
    (noDigit : c = '.' → ∃ others, tail = '.' :: others) :
    TakesPlace (otherGap ++ (c :: tail) ++ other) (gap ++ (c :: tail) ++ text) := by
  by_cases isEmpty : otherGap = []
  · have same : gap = [] := by
      rcases replaces with same | ⟨nonempty, -⟩
      · rw [← same, isEmpty]
      · exact absurd isEmpty nonempty
    subst isEmpty same
    refine .inr ⟨rfl, fun d others front => ?_⟩
    obtain ⟨isPoint, follows⟩ := List.cons.inj front
    rcases noDigit isPoint with ⟨more, rfl⟩
    exact (List.cons.inj follows).1.symm
  · rw [List.append_assoc]
    exact .inl ((replaces.isIgnorable ignorable).breaks isEmpty _)

/-- The last stretch of a text holds no lexeme, and neither does what replaces it. -/
theorem splitIgnored_of_replaces {gap otherGap : List Char} (replaces : Replaces otherGap gap)
    (parts : splitIgnored false gap = (gap, [])) :
    splitIgnored false otherGap = (otherGap, []) := by
  rcases replaces with rfl | ⟨-, ignorable⟩
  · exact parts
  · have skipped := ignorable.splitIgnored_append []
    rwa [List.append_nil, splitIgnored, List.append_nil] at skipped

/-- What a text is laid out anew as is scanned into the same tokens, and it takes the place of the
text after a lexeme. -/
theorem scanFrom_of_isRelaid {offset : Nat} {tokens : List Token} {text other : List Char}
    (relaid : IsRelaid offset tokens text other) (scans : scanFrom offset text = tokens)
    (valid : ∀ token ∈ tokens, token.kind ≠ .invalid) :
    TakesPlace other text ∧
      ∀ start, (scanFrom start other).map spanless = tokens.map spanless := by
  induction relaid with
  | @last offset token gap otherGap replaces =>
      rw [← scans] at valid
      cases isScannable valid with
      | ends parts =>
          have others := splitIgnored_of_replaces replaces parts
          refine ⟨.inl (breaks_of_splitIgnored others), fun start => ?_⟩
          rw [← scans, scanFrom_of_end parts, scanFrom_of_end others]
          rfl
      | lexeme ignorable kept noComment same finished =>
          rw [same, scanFrom_gap ignorable kept noComment finished] at scans
          rcases scanFrom_eq_append (offset + byteSize (_ ++ (scanLexeme _ _).chars))
            (scanLexeme _ _).rest with ⟨before, last, ends, -⟩
          rw [ends] at scans
          simp at scans
  | @token offset token tokens gap otherGap lexeme text other replaces place relaid ih =>
      rw [← scans] at valid
      cases isScannable valid with
      | ends parts =>
          rw [scanFrom_of_end parts] at scans
          cases scans
          cases relaid
      | @lexeme front rest c ignorable kept noComment same finished =>
          rw [same, scanFrom_gap ignorable kept noComment finished] at scans valid
          obtain ⟨rfl, others⟩ := List.cons.inj scans
          have isValid := valid _ List.mem_cons_self
          obtain ⟨rfl, rfl, rfl⟩ := parts_of_place same place
          obtain ⟨takes, scanned⟩ := ih others fun token member =>
            valid token (List.mem_cons_of_mem _ (others ▸ member))
          obtain ⟨tail, chars, again⟩ := scanLexeme_before isValid takes
          constructor
          · rw [chars]
            refine takesPlace_of_replaces ignorable replaces ?_
            rintro rfl
            rcases exists_of_point isValid with ⟨more, rfl⟩
            rw [scanLexeme_spread] at chars
            cases chars
            exact ⟨_, rfl⟩
          · intro start
            have rescanned := scanFrom_gap (replaces.isIgnorable ignorable) kept noComment
              (by rw [again]; exact finished) start
            have text : otherGap ++ (scanLexeme c rest).chars ++ other =
                otherGap ++ c :: (tail ++ other) := by
              rw [chars, List.append_assoc, List.cons_append]
            rw [text, rescanned, again, List.map_cons, scanned]
            rfl

/-! ## Sources -/

/-- The second source is the first one in a layout of its own. -/
def IsRelaidSource (source other : String) : Prop :=
  IsRelaid 0 (scan source) source.toList other.toList

/-- The layout of a source decides nothing about its tokens but where they are. -/
theorem scan_of_isRelaid {source other : String} (relaid : IsRelaidSource source other)
    (valid : ∀ token ∈ scan source, token.kind ≠ .invalid) :
    (scan other).map spanless = (scan source).map spanless :=
  (scanFrom_of_isRelaid relaid rfl valid).2 0

end Token
end GraphQL
