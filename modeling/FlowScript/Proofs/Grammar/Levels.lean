import FlowScript.Proofs.Grammar.Operand

/-!
# Levels of precedence

Operands with operators between them, split at the operators of one level after the
other, from the loosest level to the tightest one. The grammar has one rule for each
level, and the rule finds the parts that its level splits into.
-/

set_option autoImplicit false

namespace FlowScript

theorem BinaryOperator.mem_all (op : BinaryOperator) : op ∈ BinaryOperator.all := by
  cases op <;> decide

/-- Operands with an operator between each two of them. -/
inductive Operands (α : Type) where
  | single (operand : α)
  | cons (first : α) (op : BinaryOperator) (rest : Operands α)

namespace Operands

variable {α β γ : Type}

def map (change : α → β) : Operands α → Operands β
  | single operand => single (change operand)
  | cons first op rest => cons (change first) op (rest.map change)

/-- Changes the first operand only. -/
def mapFirst (change : α → α) : Operands α → Operands α
  | single operand => single (change operand)
  | cons first op rest => cons (change first) op rest

def first : Operands α → α
  | single operand => operand
  | cons operand _ _ => operand

/-- Splits at every operator that is one of these, and nowhere else. -/
def split (operators : List BinaryOperator) : Operands α → Operands (Operands α)
  | single operand => single (single operand)
  | cons first op rest =>
      if op ∈ operators then cons (single first) op (rest.split operators)
      else (rest.split operators).mapFirst (cons first op)

/-- The words of the operands with the operators between them. -/
def words (spelling : α → List Text) : Operands α → List Text
  | single operand => spelling operand
  | cons first op rest => spelling first ++ op.symbol.toList :: rest.words spelling

/-- The property of operators holds of all of them, and that of operands as well. -/
def All (operator : BinaryOperator → Prop) (operand : α → Prop) : Operands α → Prop
  | single last => operand last
  | cons first op rest => operand first ∧ operator op ∧ rest.All operator operand

theorem All.of_forall {operator : BinaryOperator → Prop} {operand : α → Prop}
    (operators : ∀ op, operator op) (each : ∀ item, operand item) {operands : Operands α} :
    operands.All operator operand := by
  induction operands with
  | single last => exact each last
  | cons first op rest ih => exact ⟨each first, operators op, ih⟩

theorem All.imp {operator other : BinaryOperator → Prop} {operand another : α → Prop}
    {operands : Operands α} (all : operands.All operator operand)
    (operators : ∀ op, operator op → other op) (weaken : ∀ item, operand item → another item) :
    operands.All other another := by
  induction operands with
  | single last => exact weaken last all
  | cons first op rest ih =>
      obtain ⟨here, between, behind⟩ := all
      exact ⟨weaken first here, operators op between, ih behind⟩

@[simp] theorem map_map (change : α → β) (next : β → γ) (operands : Operands α) :
    (operands.map change).map next = operands.map fun operand => next (change operand) := by
  induction operands with
  | single => rfl
  | cons first op rest ih => simp only [map, ih]

theorem map_mapFirst {change : α → β} {grow : α → α} {other : β → β}
    (commutes : ∀ operand, change (grow operand) = other (change operand)) (operands : Operands α) :
    (operands.mapFirst grow).map change = (operands.map change).mapFirst other := by
  cases operands <;> simp only [map, mapFirst, commutes]

theorem split_map (operators : List BinaryOperator) (change : α → β) (operands : Operands α) :
    (operands.map change).split operators = (operands.split operators).map (map change) := by
  induction operands with
  | single => rfl
  | cons first op rest ih =>
      simp only [map, split, ih]
      split
      · rfl
      · have commutes : ∀ part : Operands α,
            map change (cons first op part) = cons (change first) op (map change part) :=
          fun _ => rfl
        exact (map_mapFirst commutes _).symm

/-- Every word is one of an operand, or the symbol of an operator. -/
theorem forall_mem_words {spelling : α → List Text} {holds : Text → Prop}
    (symbols : ∀ op : BinaryOperator, holds op.symbol.toList)
    (each : ∀ operand, ∀ word ∈ spelling operand, holds word) (operands : Operands α) :
    ∀ word ∈ operands.words spelling, holds word := by
  induction operands with
  | single operand => exact each operand
  | cons first op rest ih =>
      exact List.forall_mem_append.mpr ⟨each first, List.forall_mem_cons.mpr ⟨symbols op, ih⟩⟩

theorem words_mapFirst {spelling : α → List Text} {grow : α → α} {front : List Text}
    (grows : ∀ operand, spelling (grow operand) = front ++ spelling operand)
    (operands : Operands α) :
    (operands.mapFirst grow).words spelling = front ++ operands.words spelling := by
  cases operands <;> simp [words, mapFirst, grows]

/-- Splitting changes no words. -/
theorem words_split (operators : List BinaryOperator) (spelling : α → List Text)
    (operands : Operands α) :
    (operands.split operators).words (words spelling) = operands.words spelling := by
  induction operands with
  | single => rfl
  | cons first op rest ih =>
      rw [split]
      split
      · simp only [words, ih]
      · have grows : ∀ part : Operands α, (cons first op part).words spelling =
            (spelling first ++ [op.symbol.toList]) ++ part.words spelling := by
          simp [words]
        rw [words_mapFirst grows, ih]
        simp [words]

/-- Between the parts stand operators that are split at, inside of the parts the others. -/
theorem All.split {operator : BinaryOperator → Prop} {operand : α → Prop} {operands : Operands α}
    (all : operands.All operator operand) (operators : List BinaryOperator) :
    (operands.split operators).All (· ∈ operators)
      fun part => part.All (fun op => operator op ∧ op ∉ operators) operand := by
  induction operands with
  | single => exact all
  | cons first op rest ih =>
      obtain ⟨here, between, behind⟩ := all
      have parts := ih behind
      rw [Operands.split]
      split
      · next member => exact ⟨here, member, parts⟩
      · next other =>
          cases same : rest.split operators with
          | single last =>
              rw [same] at parts
              exact ⟨here, ⟨between, other⟩, parts⟩
          | cons part next more =>
              rw [same] at parts
              exact ⟨⟨here, ⟨between, other⟩, parts.1⟩, parts.2⟩

end Operands

namespace Grammar

open Expression hiding rule

/-! ## Operators between operands -/

/-- Any of the operators. -/
def anyOperator (operators : List BinaryOperator) : Expression Rule :=
  choiceOf (operators.map fun op => .rule (.binaryOperator op))

/-- Nothing comes next, or an operator that is none of these. -/
def Behind (operators : List BinaryOperator) (words : List Text) : Prop :=
  ∀ word ∈ words.head?, ∃ op, op ∉ operators ∧ word = op.symbol.toList

theorem Behind.mono {operators fewer : List BinaryOperator} {words : List Text}
    (behind : Behind operators words) (subset : ∀ op ∈ fewer, op ∈ operators) :
    Behind fewer words := by
  intro word head
  obtain ⟨op, other, same⟩ := behind word head
  exact ⟨op, fun member => other (subset op member), same⟩

theorem Behind.cons {operators : List BinaryOperator} {op : BinaryOperator} (other : op ∉ operators)
    (more : List Text) : Behind operators (op.symbol.toList :: more) := by
  rintro word ⟨⟩
  exact ⟨op, other, rfl⟩

theorem Behind.endsOperand {words : List Text} (behind : Behind [] words) : EndsOperand words := by
  have apart : ∀ op : BinaryOperator, op.symbol.toList ≠ ['.'] ∧ op.symbol.toList ≠ ['('] := by
    intro op
    cases op <;> decide
  constructor
  · intro head
    obtain ⟨op, -, same⟩ := behind _ head
    exact (apart op).1 same.symm
  · intro head
    obtain ⟨op, -, same⟩ := behind _ head
    exact (apart op).2 same.symm

/-- The rule of an operator reads the symbol of the operator. -/
theorem operator_reads (op : BinaryOperator) (more : List Text) :
    Derives (.rule (.binaryOperator op)) (op.symbol.toList :: more)
      (some ([.node (.binaryOperator op) [] []], more)) := by
  have word : Reads (Rule.wholeWord op.symbol) op.symbol.toList [] :=
    reads_wholeWord (Text.stops_nil _) rfl
  cases op with
  | isIn | isA | and | or =>
      exact .leaf rfl (Takes.reading (Reads.takes rfl word))
  | _ => exact .rule rfl .text

/-- It reads no other operator, though the symbol of that one may start with its own. -/
theorem operator_refuses {op : BinaryOperator} {words : List Text} (behind : Behind [op] words) :
    Derives (.rule (.binaryOperator op)) words none := by
  cases words with
  | nil =>
      cases op with
      | isIn | isA | and | or => exact .leafFails rfl nofun
      | _ => exact .ruleFails rfl (.textFails nofun)
  | cons word more =>
      obtain ⟨other, apart, rfl⟩ := behind word rfl
      have fates : ∀ op ∈ BinaryOperator.all, ∀ other ∈ BinaryOperator.all, other ∉ [op] →
          (Expression.rule (.binaryOperator op)).fate (wordBars other.symbol.toList) = .refuses := by
        decide
      exact refuses_word (fates op op.mem_all other other.mem_all apart) more

theorem anyOperator_reads {operators : List BinaryOperator} {op : BinaryOperator}
    (member : op ∈ operators) (more : List Text) :
    Derives (anyOperator operators) (op.symbol.toList :: more)
      (some ([.node (.binaryOperator op) [] []], more)) := by
  induction operators with
  | nil => cases member
  | cons other operators ih =>
      by_cases same : op = other
      · subst same
        cases operators with
        | nil => exact operator_reads op more
        | cons => exact .choice (operator_reads op more)
      · have later : op ∈ operators := (List.mem_cons.mp member).resolve_left same
        cases operators with
        | nil => cases later
        | cons =>
            have apart : op ∉ [other] := by simpa using same
            exact .choiceElse (operator_refuses (.cons apart more)) (ih later)

theorem anyOperator_refuses {operators : List BinaryOperator} (nonempty : operators ≠ [])
    {words : List Text} (behind : Behind operators words) :
    Derives (anyOperator operators) words none := by
  induction operators with
  | nil => exact absurd rfl nonempty
  | cons op operators ih =>
      have here : Derives (.rule (.binaryOperator op)) words none :=
        operator_refuses (behind.mono (by simp))
      cases operators with
      | nil => exact here
      | cons =>
          exact .choiceElse here (ih (List.cons_ne_nil _ _)
            (behind.mono fun _ => List.mem_cons_of_mem _))

/-! ## Levels -/

/-- The rule reads the words before everything but one of the operators. -/
def Stands (name : Rule) (operators : List BinaryOperator) (words : List Text)
    (sketch : Sketch) : Prop :=
  ∀ after, Behind operators after → Derives (.rule name) (words ++ after) (some ([sketch], after))

/-- The nodes of operands and of the operators between them. -/
def row : Operands Sketch → List Sketch
  | .single operand => [operand]
  | .cons first op rest => first :: .node (.binaryOperator op) [] [] :: row rest

section

variable {α : Type} {spelling : α → List Text} {sketch : α → Sketch} {operand : Rule}
  {operators tighter : List BinaryOperator}

/-- The parts behind the first one are the rounds of a repetition. -/
theorem rounds_stand (nonempty : operators ≠ []) {parts : Operands α} {op : BinaryOperator}
    (member : op ∈ operators) (apart : ∀ op ∈ operators, op ∉ tighter)
    (stand : parts.All (· ∈ operators) fun part =>
      Stands operand tighter (spelling part) (sketch part))
    {after : List Text} (behind : Behind (operators ++ tighter) after) :
    Derives (.many (.sequence (anyOperator operators) (.rule operand)))
      (op.symbol.toList :: parts.words spelling ++ after)
      (some (.node (.binaryOperator op) [] [] :: row (parts.map sketch), after)) := by
  induction parts generalizing op with
  | single part =>
      have round := Derives.sequence (anyOperator_reads member _)
        (stand after (behind.mono fun _ => List.mem_append_right _))
      exact .many round (.manyEnds (.sequenceFails
        (anyOperator_refuses nonempty (behind.mono fun _ => List.mem_append_left _))))
  | cons part next rest ih =>
      obtain ⟨here, between, others⟩ := stand
      have round := Derives.sequence (anyOperator_reads member _)
        (here _ (.cons (apart next between) (rest.words spelling ++ after)))
      have whole := Derives.many round (ih between others)
      simpa [Operands.words, Operands.map, row] using whole

/-- A rule that is one level reads the parts of the level. -/
theorem level_stands {level : Rule}
    (isLevel : flow.rules level = Rule.spacedRule (Rule.level operand operators))
    (inner : level.isLeaf = false) (nonempty : operators ≠ [])
    (apart : ∀ op ∈ operators, op ∉ tighter) {parts : Operands α}
    (stand : parts.All (· ∈ operators) fun part =>
      Stands operand tighter (spelling part) (sketch part)) :
    Stands level (operators ++ tighter) (parts.words spelling)
      (.node level [] (row (parts.map sketch))) := by
  intro after behind
  have wrap : ∀ sketches, level.wrap sketches = [.node level [] sketches] := by
    intro sketches
    simp [Rule.wrap, isLevel, Rule.spacedRule]
  rw [← wrap]
  apply Derives.rule inner
  rw [isLevel]
  change Derives (.sequence (.rule operand)
    (.many (.sequence (anyOperator operators) (.rule operand)))) _ _
  cases parts with
  | single part =>
      have reads : Derives (.rule operand) (spelling part ++ after) _ :=
        stand after (behind.mono fun _ => List.mem_append_right _)
      exact .sequence reads (.manyEnds (.sequenceFails
        (anyOperator_refuses nonempty (behind.mono fun _ => List.mem_append_left _))))
  | cons part op rest =>
      obtain ⟨here, between, others⟩ := stand
      have more := rounds_stand nonempty between apart others behind
      have reads := here _ (.cons (apart op between) (rest.words spelling ++ after))
      have whole := Derives.sequence reads more
      simpa [Operands.words, Operands.map, row] using whole

end

/-- The operators of the levels. -/
def operatorsOf (levels : List (Rule × List BinaryOperator)) : List BinaryOperator :=
  levels.flatMap (·.2)

/-- The rule that reads what the levels are about. -/
def loosest : List (Rule × List BinaryOperator) → Rule
  | [] => .unary
  | (level, _) :: _ => level

/-- Each level is a rule, over the rule of the next level. -/
inductive Climbs : List (Rule × List BinaryOperator) → Prop where
  | nil : Climbs []
  | cons {level : Rule} {operators : List BinaryOperator}
      {tighter : List (Rule × List BinaryOperator)} :
      flow.rules level = Rule.spacedRule (Rule.level (loosest tighter) operators) →
      level.isLeaf = false → operators ≠ [] → (∀ op ∈ operators, op ∉ operatorsOf tighter) →
      Climbs tighter → Climbs ((level, operators) :: tighter)

/-- The node of operands: at every level one for each part of it. -/
def nest : List (Rule × List BinaryOperator) → Operands Sketch → Sketch
  | [], operands => operands.first
  | (level, operators) :: tighter, operands =>
      .node level [] (row ((operands.split operators).map (nest tighter)))

/-- The rules of the levels read operands with any operators between them. -/
theorem nest_stands {α : Type} {levels : List (Rule × List BinaryOperator)}
    (climbs : Climbs levels) (spelling : α → List Text) (sketch : α → Sketch)
    (operands : Operands α) (stand : operands.All (· ∈ operatorsOf levels) fun operand =>
      Stands .unary [] (spelling operand) (sketch operand)) :
    Stands (loosest levels) (operatorsOf levels) (operands.words spelling)
      (nest levels (operands.map sketch)) := by
  induction climbs generalizing operands with
  | nil =>
      cases operands with
      | single operand => exact stand
      | cons first op rest => cases stand.2.1
  | @cons level operators tighter isLevel inner nonempty apart climbs ih =>
      have parts := (stand.split operators).imp (fun _ => id) fun part all => by
        refine ih part (all.imp ?_ fun _ => id)
        rintro op ⟨member, other⟩
        exact (List.mem_append.mp member).resolve_left other
      have whole := level_stands isLevel inner nonempty apart parts
      rw [Operands.words_split] at whole
      rwa [nest, Operands.split_map, Operands.map_map]

end Grammar

end FlowScript
