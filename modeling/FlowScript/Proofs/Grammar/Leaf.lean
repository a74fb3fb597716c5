import FlowScript.Proofs.Grammar.Literal
import FlowScript.Proofs.Grammar.Termination

/-!
# Rules for tokens

What the rules that read one token make of each token. A rule reads the token or
refuses it, and it does the same as if the token stood alone.
-/

set_option autoImplicit false

namespace FlowScript.Grammar

open Expression hiding rule

/-- The rules that read one token if they match. -/
def Rule.isLeaf : Rule → Bool
  | .keyword _ | .unaryOperator .not | .identifier | .literal => true
  | .binaryOperator op => op.isWord
  | _ => false

section

variable {token rest : Text}

theorem stops_wordStart_digits {digits more : Text} (nonempty : digits ≠ [])
    (inside : ∀ char ∈ digits, char.isDigit) :
    digits ++ more ≠ [] ∧ Text.Stops isWordStart (digits ++ more) := by
  cases digits with
  | nil => exact absurd rfl nonempty
  | cons char digits =>
      exact ⟨List.cons_ne_nil _ _, Text.stops_cons.mpr
        (not_isWordStart_of_isDigit (inside char List.mem_cons_self))⟩

/-- A token is a word, or its first character cannot start one. -/
theorem Lexeme.word_or_stops (lexeme : Lexeme token rest) :
    isSpelled token ∧ rest.Stops isWordChar ∨ token ≠ [] ∧ token.Stops isWordStart := by
  cases lexeme with
  | word start others stops => exact .inl ⟨isSpelled_cons.mpr ⟨start, others⟩, stops⟩
  | duration nonempty inside => exact .inr (stops_wordStart_digits nonempty inside)
  | @fraction digits fraction _ inside =>
      refine .inr ?_
      cases digits with
      | nil => exact ⟨List.cons_ne_nil _ _, Text.stops_cons.mpr rfl⟩
      | cons char digits => exact stops_wordStart_digits (List.cons_ne_nil _ _) inside
  | point nonempty inside => exact .inr (stops_wordStart_digits nonempty inside)
  | integer nonempty inside =>
      have starts := @stops_wordStart_digits _ [] nonempty inside
      rw [List.append_nil] at starts
      exact .inr starts
  | single => exact .inr ⟨List.cons_ne_nil _ _, Text.stops_cons.mpr rfl⟩
  | triple => exact .inr ⟨List.cons_ne_nil _ _, Text.stops_cons.mpr rfl⟩
  | symbol member =>
      have plain : ∀ char ∈ singles, isWordStart char = false := forall_singles (by decide)
      exact .inr ⟨List.cons_ne_nil _ _, Text.stops_cons.mpr (plain _ member)⟩
  | pair member =>
      have plain : ∀ chars ∈ doubles, chars ≠ [] ∧ chars.Stops isWordStart := by
        decide
      exact .inr (plain token member)

theorem Cut.stops (cut : Cut token rest) : token ≠ [] ∧ token.Stops isWordStart := by
  have starts := @stops_wordStart_digits _ [] cut.nonempty cut.digits
  rwa [List.append_nil] at starts

/-- A rule that reads a word does so with a token if it does so with the words. -/
theorem settled_of_words {name : Rule} (sealed : (flow.rules name).mode = some .sealed)
    (words : isSpelled token →
      (∀ {rest : Text}, rest.Stops isWordChar → Reads (flow.rules name).body token rest) ∨
        ∀ {rest : Text}, rest.Stops isWordChar → Refuses (flow.rules name).body (token ++ rest))
    (others : ∀ {text : Text}, text.Stops isWordStart → Refuses (flow.rules name).body text)
    (shape : isSpelled token ∧ rest.Stops isWordChar ∨ token ≠ [] ∧ token.Stops isWordStart) :
    Settled (.rule name) token rest := by
  rcases shape with ⟨spelled, stops⟩ | ⟨nonempty, stops⟩
  · rcases words spelled with reads | refuses
    · exact .inl ⟨_, Reads.takes sealed (reads stops), Reads.takes sealed (reads (Text.stops_nil _))⟩
    · have alone := refuses (Text.stops_nil _)
      rw [List.append_nil] at alone
      exact .inr ⟨Refuses.misses sealed (refuses stops), Refuses.misses sealed alone⟩
  · exact .misses fun rest => Refuses.misses sealed (others (Text.stops_append nonempty stops))

theorem wholeWord_settled {name : Rule} {spelling : String}
    (sealed : (flow.rules name).mode = some .sealed)
    (body : (flow.rules name).body = Rule.wholeWord spelling)
    (spelled : isSpelled spelling.toList)
    (shape : isSpelled token ∧ rest.Stops isWordChar ∨ token ≠ [] ∧ token.Stops isWordStart) :
    Settled (.rule name) token rest := by
  refine settled_of_words sealed (fun tokenSpelled => ?_) (fun stops => ?_) shape
  · rw [body]
    by_cases same : token = spelling.toList
    · exact .inl fun stops => reads_wholeWord stops same
    · exact .inr fun stops => refuses_wholeWord (isWordChar_of_isSpelled tokenSpelled) stops
        (isWordChar_of_isSpelled spelled) same
  · rw [body]
    exact refuses_wholeWord_of_stops spelled stops

theorem reservedWords_spelled :
    reservedWords.all fun spelling => isSpelled spelling.toList := by decide

theorem refuses_identifier {text : Text} (stops : text.Stops isWordStart) :
    Refuses (flow.rules .identifier).body text :=
  .sequenceBreaks (.absent (refuses_wholeWordOf_of_stops reservedWords_spelled stops))
    (.sequence (.oneOf stops))

theorem identifier_settled
    (shape : isSpelled token ∧ rest.Stops isWordChar ∨ token ≠ [] ∧ token.Stops isWordStart) :
    Settled (.rule .identifier) token rest := by
  have apart : ∀ spelling ∈ reservedWords, ∀ other ∈ reservedWords,
      other.toList <+: spelling.toList → other = spelling := by decide
  refine settled_of_words rfl (fun spelled => ?_) refuses_identifier shape
  rcases wholeWordOf_cases reservedWords_spelled apart spelled with reads | refuses
  · exact .inr fun stops => .sequence (.absent (reads stops))
  · cases token with
    | nil => cases spelled
    | cons char chars =>
        obtain ⟨start, others⟩ := isSpelled_cons.mp spelled
        exact .inl fun stops => .sequence (.absent (refuses stops))
          (.sequence (.oneOf start) (.manyOneOf others stops))

theorem keyword_spelled (kind : Keyword) : isSpelled kind.spelling.toList := by
  cases kind <;> decide

/-- Where no word starts, only a literal can be read. -/
theorem leaf_misses {name : Rule} {text : Text} (leaf : name.isLeaf) (other : name ≠ .literal)
    (stops : text.Stops isWordStart) : Misses (.rule name) text := by
  have word : ∀ {name : Rule} {spelling : String}, (flow.rules name).mode = some .sealed →
      (flow.rules name).body = Rule.wholeWord spelling → isSpelled spelling.toList →
      Misses (.rule name) text :=
    fun sealed body spelled =>
      Refuses.misses sealed (body.symm ▸ refuses_wholeWord_of_stops spelled stops)
  cases name with
  | keyword kind => exact word rfl rfl (keyword_spelled kind)
  | unaryOperator op =>
      cases op with
      | not => exact word rfl rfl (by decide)
      | plus | minus => cases leaf
  | binaryOperator op =>
      cases op with
      | isIn | isA | and | or => exact word rfl rfl (by decide)
      | _ => cases leaf
  | identifier => exact Refuses.misses rfl (refuses_identifier stops)
  | literal => exact absurd rfl other
  | _ => cases leaf

/-- A rule for tokens does with a token what it does when the token stands alone. -/
theorem leaf_settled {name : Rule} (leaf : name.isLeaf)
    (lexeme : Lexeme token rest ∨ Cut token rest) : Settled (.rule name) token rest := by
  have shape : isSpelled token ∧ rest.Stops isWordChar ∨ token ≠ [] ∧ token.Stops isWordStart := by
    rcases lexeme with lexeme | cut
    · exact lexeme.word_or_stops
    · exact .inr cut.stops
  cases name with
  | keyword kind =>
      exact wholeWord_settled rfl rfl (keyword_spelled kind) shape
  | unaryOperator op =>
      cases op with
      | not => exact wholeWord_settled rfl rfl (by decide) shape
      | plus | minus => cases leaf
  | binaryOperator op =>
      cases op with
      | isIn | isA | and | or => exact wholeWord_settled rfl rfl (by decide) shape
      | _ => cases leaf
  | identifier => exact identifier_settled shape
  | literal =>
      rcases lexeme with lexeme | cut
      · exact lexeme.literal
      · exact cut.literal
  | _ => cases leaf

/-! ## Tokens that stand alone -/

/-- What a rule makes of a text that it reads as a whole. -/
def Rule.reading (name : Rule) (token : Text) : Option (List Sketch) :=
  match flow.parse name token with
  | .matched nodes cursor _ => if cursor.rest.isEmpty then some (sketchAll token nodes) else none
  | .failed _ | .exhausted => none

theorem Takes.reading {name : Rule} {sketches : List Sketch}
    (takes : Takes (.rule name) token [] sketches) : name.reading token = some sketches := by
  obtain ⟨nodes, yields, same⟩ := takes []
  rw [List.append_nil] at yields same
  obtain ⟨ends, shows⟩ := flow_parse_shows name token
  unfold Rule.reading
  cases parsed : flow.parse name token with
  | exhausted => exact absurd parsed ends
  | failed =>
      rw [parsed] at shows
      cases yields.unique shows
  | matched found cursor =>
      rw [parsed] at shows
      obtain ⟨tokens, found⟩ := shows
      cases yields.unique found
      exact congrArg some same

theorem Misses.reading {name : Rule} (misses : Misses (.rule name) token) :
    name.reading token = none := by
  obtain ⟨ends, shows⟩ := flow_parse_shows name token
  unfold Rule.reading
  cases parsed : flow.parse name token with
  | exhausted | failed => rfl
  | matched found cursor =>
      rw [parsed] at shows
      obtain ⟨tokens, found⟩ := shows
      cases (misses []).unique found

/-- A rule for tokens reads a token as it reads the token alone, or not at all. -/
theorem leaf_reading {name : Rule} (leaf : name.isLeaf)
    (lexeme : Lexeme token rest ∨ Cut token rest) :
    (∃ sketches, name.reading token = some sketches ∧ Takes (.rule name) token rest sketches) ∨
      name.reading token = none ∧ Misses (.rule name) (token ++ rest) := by
  rcases leaf_settled leaf lexeme with ⟨sketches, takes, alone⟩ | ⟨misses, alone⟩
  · exact .inl ⟨sketches, alone.reading, takes⟩
  · exact .inr ⟨alone.reading, misses⟩

end

end FlowScript.Grammar
