import FlowScript.Grammar.Expression
import FlowScript.Source.Text

/-!
# Matching

`Grammar.run` matches an expression against the rest of a text. A match yields
the nodes its captured rules left; either way the result carries the furthest
offset at which a traced rule was tried in vain, which is where a diagnostic
points. The recursion is bounded by fuel; `Grammar.parse` picks enough of it.
-/

set_option autoImplicit false

namespace FlowScript.Grammar

/-- A parse tree: the rule, the byte range it matched, and the nodes inside. -/
inductive Node (ρ : Type) where
  | node (rule : ρ) (start stop : Nat) (children : List (Node ρ))

namespace Node

variable {ρ : Type}

def rule : Node ρ → ρ
  | .node rule _ _ _ => rule

def start : Node ρ → Nat
  | .node _ start _ _ => start

def stop : Node ρ → Nat
  | .node _ _ stop _ => stop

def children : Node ρ → List (Node ρ)
  | .node _ _ _ children => children

end Node

/-- A place in the text being matched: the characters still to come and the
byte offset of the first of them. -/
structure Cursor where
  rest : Text
  offset : Nat

namespace Cursor

/-- The cursor behind one accepted character. -/
def takeOne? (cursor : Cursor) (accepts : Char → Bool) : Option Cursor :=
  match cursor.rest with
  | [] => none
  | char :: rest =>
      if accepts char then some ⟨rest, cursor.offset + char.utf8Size⟩ else none

/-- The cursor behind the given characters. -/
def take? (cursor : Cursor) : List Char → Option Cursor
  | [] => some cursor
  | char :: chars => do
      let next ← cursor.takeOne? (· == char)
      next.take? chars

end Cursor

inductive Outcome (ρ : Type) where
  /-- Matched up to the cursor. -/
  | matched (nodes : List (Node ρ)) (cursor : Cursor) (furthest : Nat)
  /-- Did not match. -/
  | failed (furthest : Nat)
  /-- Ran out of fuel before the answer was known. -/
  | exhausted

namespace Outcome

variable {ρ : Type}

/-- Goes on where a match ended; anything else is passed on. -/
def bind (outcome : Outcome ρ)
    (next : List (Node ρ) → Cursor → Nat → Outcome ρ) : Outcome ρ :=
  match outcome with
  | .matched nodes cursor furthest => next nodes cursor furthest
  | .failed furthest => .failed furthest
  | .exhausted => .exhausted

/-- Tries something else where a match failed; anything else is passed on. -/
def orElse (outcome : Outcome ρ) (other : Nat → Outcome ρ) : Outcome ρ :=
  match outcome with
  | .matched nodes cursor furthest => .matched nodes cursor furthest
  | .failed furthest => other furthest
  | .exhausted => .exhausted

/-- Puts earlier nodes before those of a match. -/
def prepend (nodes : List (Node ρ)) (outcome : Outcome ρ) : Outcome ρ :=
  outcome.bind fun more cursor furthest => .matched (nodes ++ more) cursor furthest

end Outcome

variable {ρ : Type}

/-- Matches an expression from a cursor. `furthest` is the offset reached by the
attempts made before, and the outcome's is never smaller. -/
def run (grammar : Grammar ρ) :
    Nat → Expression ρ → Mode → Cursor → Nat → Outcome ρ
  | 0, _, _, _, _ => .exhausted
  | fuel + 1, expression, mode, cursor, furthest =>
      let attempt := grammar.run fuel
      let trivia := fun (cursor : Cursor) (furthest : Nat) =>
        if mode = .spaced then attempt grammar.trivia .sealed cursor furthest
        else .matched [] cursor furthest
      match expression with
      | .empty => .matched [] cursor furthest
      | .text chars =>
          match cursor.take? chars with
          | some next => .matched [] next furthest
          | none => .failed furthest
      | .oneOf accepts =>
          match cursor.takeOne? accepts with
          | some next => .matched [] next furthest
          | none => .failed furthest
      | .endOfInput =>
          if cursor.rest.isEmpty then .matched [] cursor furthest else .failed furthest
      | .rule name =>
          let definition := grammar.rules name
          let visible := mode ≠ .sealed
          match attempt definition.body (definition.mode.getD mode) cursor furthest with
          | .matched nodes next reached =>
              if visible ∧ definition.captured then
                .matched [.node name cursor.offset next.offset nodes] next reached
              else .matched nodes next reached
          | .failed reached =>
              if visible ∧ definition.traced then .failed (max reached cursor.offset)
              else .failed reached
          | .exhausted => .exhausted
      | .sequence first second =>
          (attempt first mode cursor furthest).bind fun nodes cursor furthest =>
            (trivia cursor furthest).bind fun _ cursor furthest =>
              (attempt second mode cursor furthest).prepend nodes
      | .choice first second =>
          (attempt first mode cursor furthest).orElse fun furthest =>
            attempt second mode cursor furthest
      | .optional body =>
          (attempt body mode cursor furthest).orElse fun furthest =>
            .matched [] cursor furthest
      | .many body =>
          match attempt body mode cursor furthest with
          | .matched nodes next reached =>
              (attempt (.manyMore body) mode next reached).prepend nodes
          | .failed reached => .matched [] cursor reached
          | .exhausted => .exhausted
      | .manyMore body =>
          let round := (trivia cursor furthest).bind fun _ next reached =>
            attempt body mode next reached
          match round with
          | .matched nodes next reached =>
              (attempt (.manyMore body) mode next reached).prepend nodes
          | .failed reached => .matched [] cursor reached
          | .exhausted => .exhausted
      | .absent body =>
          match attempt body mode cursor furthest with
          | .matched _ _ _ => .failed furthest
          | .failed _ => .matched [] cursor furthest
          | .exhausted => .exhausted

/-- Steps of matching granted for each character of the text. Between two
consumed characters no rule of a grammar without left recursion is entered
twice, so a chain of calls that consumes nothing stays far below this. -/
def stepsPerChar : Nat := 512

def parse (grammar : Grammar ρ) (start : ρ) (text : Text) : Outcome ρ :=
  grammar.run (stepsPerChar * (text.length + 1)) (.rule start) .spaced ⟨text, 0⟩ 0

end FlowScript.Grammar
