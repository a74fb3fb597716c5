import FlowScript.Proofs.Call.Binding
import FlowScript.Run.Format
import Mathlib.Data.List.TakeWhile

/-!
# Filling a format

A format is split into literal text and holes without regard to the arguments. A call
succeeds exactly if every hole has an argument, and its result is made from the pieces one
by one, so what is filled in is not split again.
-/

set_option autoImplicit false

namespace FlowScript

namespace Format

/-! ## Keys -/

/-- The key is the text without the blanks around it. -/
structure Trims (inner key : List Char) : Prop where
  around : ∃ before after, inner = before ++ (key ++ after) ∧
    (∀ char ∈ before, isSpace char = true) ∧ (∀ char ∈ after, isSpace char = true)
  first : ∀ char, key.head? = some char → isSpace char = false
  last : ∀ char, key.getLast? = some char → isSpace char = false

theorem dropWhile_blanks {blanks chars : List Char} (blank : ∀ char ∈ blanks, isSpace char = true)
    (first : ∀ char, chars.head? = some char → isSpace char = false) :
    (blanks ++ chars).dropWhile isSpace = chars := by
  rw [List.dropWhile_append_of_pos blank]
  cases chars with
  | nil => rfl
  | cons char rest => exact List.dropWhile_cons_of_neg (by simp [first char rfl])

theorem head_dropWhile {chars : List Char} {char : Char}
    (head : (chars.dropWhile isSpace).head? = some char) : isSpace char = false := by
  have stopped := List.head?_dropWhile_not isSpace chars
  rwa [head] at stopped

theorem trims_iff {inner key : List Char} : Trims inner key ↔ key = trim inner := by
  constructor
  · rintro ⟨⟨before, after, rfl, beforeBlank, afterBlank⟩, first, last⟩
    unfold trim
    cases key with
    | nil =>
        have blank : ∀ char ∈ before ++ after, isSpace char = true := by
          intro char member
          exact (List.mem_append.mp member).elim (beforeBlank char) (afterBlank char)
        have dropped : (before ++ after ++ []).dropWhile isSpace = [] :=
          dropWhile_blanks blank nofun
        rw [List.append_nil] at dropped
        rw [List.nil_append, dropped]
        rfl
    | cons char rest =>
        have front : (before ++ (char :: rest ++ after)).dropWhile isSpace =
            char :: rest ++ after := dropWhile_blanks beforeBlank first
        rw [front, List.reverse_append,
          dropWhile_blanks (by simpa using afterBlank)
            (by simpa only [List.head?_reverse] using last), List.reverse_reverse]
  · rintro rfl
    have kept : trim inner ++ ((inner.dropWhile isSpace).reverse.takeWhile isSpace).reverse =
        inner.dropWhile isSpace := by
      rw [trim, ← List.reverse_append, List.takeWhile_append_dropWhile, List.reverse_reverse]
    have whole := List.takeWhile_append_dropWhile (p := isSpace) (l := inner)
    refine ⟨⟨inner.takeWhile isSpace, _, by rw [kept, whole], fun _ => List.mem_takeWhile_imp,
      fun _ member => List.mem_takeWhile_imp (List.mem_reverse.mp member)⟩, ?_, ?_⟩
    · intro char head
      have start : (inner.dropWhile isSpace).head? = some char := by
        rw [← kept, List.head?_append, head]
        rfl
      exact head_dropWhile start
    · intro char last
      rw [trim, List.getLast?_reverse] at last
      exact head_dropWhile last

/-! ## Pieces -/

/-- The pieces a format falls into, from left to right. -/
inductive Splits : List Char → List Piece → Prop where
  | text {literal} (noOpening : '\x7b' ∉ literal) : Splits literal [.text literal]
  | unclosed {literal rest} (noOpening : '\x7b' ∉ literal) (noClosing : '\x7d' ∉ rest) :
      Splits (literal ++ '\x7b' :: rest) [.text (literal ++ '\x7b' :: rest)]
  | hole {literal inner key rest pieces} (noOpening : '\x7b' ∉ literal)
      (noClosing : '\x7d' ∉ inner) (trims : Trims inner key) (splits : Splits rest pieces) :
      Splits (literal ++ '\x7b' :: (inner ++ '\x7d' :: rest))
        (.text literal :: .hole (String.ofList key) :: pieces)

theorem exists_splits (format : List Char) : ∃ pieces, Splits format pieces := by
  induction size : format.length using Nat.strongRecOn generalizing format with
  | ind size shorter =>
      by_cases opening : '\x7b' ∈ format
      · obtain ⟨literal, after, rfl, noOpening⟩ := List.eq_append_cons_of_mem opening
        by_cases closing : '\x7d' ∈ after
        · obtain ⟨inner, rest, rfl, noClosing⟩ := List.eq_append_cons_of_mem closing
          obtain ⟨pieces, splits⟩ := shorter rest.length (by simp at size; omega) rest rfl
          exact ⟨_, .hole noOpening noClosing (trims_iff.mpr rfl) splits⟩
        · exact ⟨_, .unclosed noOpening closing⟩
      · exact ⟨_, .text opening⟩

theorem piecesOutside_literal {chars : List Char} (noOpening : '\x7b' ∉ chars)
    (literal rest : List Char) :
    piecesOutside literal (chars ++ rest) = piecesOutside (chars.reverse ++ literal) rest := by
  induction chars generalizing literal with
  | nil => rfl
  | cons char chars ih =>
      have different := List.ne_of_not_mem_cons noOpening
      rw [List.cons_append, piecesOutside, if_neg different.symm,
        ih (List.not_mem_of_not_mem_cons noOpening)]
      simp

theorem piecesInside_key {chars : List Char} (noClosing : '\x7d' ∉ chars)
    (literal key rest : List Char) :
    piecesInside literal key (chars ++ rest) =
      piecesInside literal (chars.reverse ++ key) rest := by
  induction chars generalizing key with
  | nil => rfl
  | cons char chars ih =>
      have different := List.ne_of_not_mem_cons noClosing
      rw [List.cons_append, piecesInside, if_neg different.symm,
        ih (List.not_mem_of_not_mem_cons noClosing)]
      simp

/-- Splitting has one result, the one that the scan finds. -/
theorem splits_iff {format : List Char} {found : List Piece} :
    Splits format found ↔ found = piecesOutside [] format := by
  have scanned : ∀ {pieces}, Splits format pieces → pieces = piecesOutside [] format := by
    intro pieces splits
    induction splits with
    | @text literal noOpening =>
        have scan := piecesOutside_literal noOpening [] []
        rw [List.append_nil, List.append_nil] at scan
        rw [scan, piecesOutside, List.reverse_reverse]
    | @unclosed literal rest noOpening noClosing =>
        have scan := piecesInside_key noClosing literal.reverse [] []
        rw [List.append_nil, List.append_nil] at scan
        rw [piecesOutside_literal noOpening, List.append_nil, piecesOutside, if_pos rfl, scan,
          piecesInside, List.reverse_reverse, List.reverse_reverse]
    | hole noOpening noClosing trims _ ih =>
        rw [piecesOutside_literal noOpening, List.append_nil, piecesOutside, if_pos rfl,
          piecesInside_key noClosing, List.append_nil, piecesInside, if_pos rfl, ← ih,
          List.reverse_reverse, List.reverse_reverse, trims_iff.mp trims]
  refine ⟨scanned, fun same => ?_⟩
  -- The converse holds since every format splits somehow.
  obtain ⟨pieces, splits⟩ := exists_splits format
  rw [same, ← scanned splits]
  exact splits

/-! ## Filling -/

/-- How many holes have no key. -/
def emptyKeys (pieces : List Piece) : Nat := pieces.count (.hole "")

section

variable (before : List Piece)

@[simp] theorem emptyKeys_text (chars : List Char) :
    emptyKeys (.text chars :: before) = emptyKeys before := by
  simp [emptyKeys]

@[simp] theorem emptyKeys_unnamed : emptyKeys (.hole "" :: before) = emptyKeys before + 1 :=
  List.count_cons_self

theorem emptyKeys_named {key : String} (nonempty : key ≠ "") :
    emptyKeys (.hole key :: before) = emptyKeys before := by
  simp [emptyKeys, nonempty]

end

/-- What a piece behind others stands for. Holes without a key take the unnamed arguments in
order, any other hole takes the first argument that has its key for a name. -/
inductive Stands (store : Store) (arguments : CallArguments) (unnamed : List CallArgument)
    (before : List Piece) : Piece → String → Prop where
  | text {chars} : Stands store arguments unnamed before (.text chars) (String.ofList chars)
  | unnamed {argument} (next : unnamed[emptyKeys before]? = some argument) :
      Stands store arguments unnamed before (.hole "") (argument.value.render store)
  | named {key earlier argument later} (nonempty : key ≠ "")
      (items : arguments.items = earlier ++ argument :: later) (name : argument.name = some key)
      (first : ∀ other ∈ earlier, other.name ≠ some key) :
      Stands store arguments unnamed before (.hole key) (argument.value.render store)

/-- The text is made of what the pieces stand for, in their order. -/
def Fills (store : Store) (arguments : CallArguments) (unnamed : List CallArgument)
    (pieces : List Piece) (text : String) : Prop :=
  ∃ parts : List String, text = String.join parts ∧ parts.length = pieces.length ∧
    ∀ index piece part, pieces[index]? = some piece → parts[index]? = some part →
      Stands store arguments unnamed (pieces.take index) piece part

/-- There are enough unnamed arguments, and every key names one. -/
structure Suffice (arguments : CallArguments) (unnamed : List CallArgument)
    (pieces : List Piece) : Prop where
  unnamed : emptyKeys pieces ≤ unnamed.length
  named : ∀ key, .hole key ∈ pieces → key ≠ "" →
    ∃ argument ∈ arguments.items, argument.name = some key

section

variable {store : Store} {arguments : CallArguments} {unnamed left : List CallArgument}
  {argument : CallArgument} {head piece : Piece} {before pieces rest : List Piece}
  {part text key : String}

theorem Stands.behind (stands : Stands store arguments left before piece part)
    (next : left[emptyKeys before]? = unnamed[emptyKeys (head :: before)]?) :
    Stands store arguments unnamed (head :: before) piece part := by
  cases stands with
  | text => exact .text
  | unnamed found => exact .unnamed (next ▸ found)
  | named nonempty items name first => exact .named nonempty items name first

theorem Fills.cons (stands : Stands store arguments unnamed [] head part)
    (next : ∀ before, left[emptyKeys before]? = unnamed[emptyKeys (head :: before)]?)
    (fills : Fills store arguments left pieces text) :
    Fills store arguments unnamed (head :: pieces) (part ++ text) := by
  obtain ⟨parts, rfl, length, each⟩ := fills
  refine ⟨part :: parts, String.join_cons.symm, congrArg (· + 1) length, ?_⟩
  intro index piece other atPieces atParts
  cases index with
  | zero =>
      cases atPieces
      cases atParts
      exact stands
  | succ index => exact (each index piece other atPieces atParts).behind (next _)

theorem named?_eq_some_iff : arguments.named? key = some argument ↔
    argument.name = some key ∧ ∃ earlier later, arguments.items = earlier ++ argument :: later ∧
      ∀ other ∈ earlier, other.name ≠ some key := by
  simp [CallArguments.named?, List.find?_eq_some_iff_append]

theorem prepend_eq_ok_iff {filled : Except Cause String} :
    (do let behind ← filled; pure (part ++ behind)) = .ok text ↔
      ∃ behind, filled = .ok behind ∧ text = part ++ behind := by
  cases filled with
  | error cause => simp [bind, Except.bind]
  | ok behind => simp [bind, Except.bind, pure, Except.pure, eq_comm]

theorem fill_text_eq_ok_iff {chars : List Char} :
    fill store arguments (.text chars :: rest) unnamed = .ok text ↔
      ∃ behind, fill store arguments rest unnamed = .ok behind ∧
        text = String.ofList chars ++ behind :=
  prepend_eq_ok_iff

theorem fill_unnamed_eq_ok_iff :
    fill store arguments (.hole "" :: rest) unnamed = .ok text ↔
      ∃ argument left behind, unnamed = argument :: left ∧
        fill store arguments rest left = .ok behind ∧
        text = argument.value.render store ++ behind := by
  cases unnamed with
  | nil => exact iff_of_false nofun nofun
  | cons argument left =>
      refine prepend_eq_ok_iff.trans ⟨?_, ?_⟩
      · rintro ⟨behind, filled, same⟩
        exact ⟨argument, left, behind, rfl, filled, same⟩
      · rintro ⟨_, _, behind, ⟨⟩, filled, same⟩
        exact ⟨behind, filled, same⟩

theorem fill_named_eq_ok_iff (nonempty : key ≠ "") :
    fill store arguments (.hole key :: rest) unnamed = .ok text ↔
      ∃ argument behind, arguments.named? key = some argument ∧
        fill store arguments rest unnamed = .ok behind ∧
        text = argument.value.render store ++ behind := by
  have keyed : ¬ key.isEmpty = true := mt String.isEmpty_iff.mp nonempty
  rw [fill.eq_def]
  dsimp only
  rw [if_neg keyed]
  cases arguments.named? key with
  | none => exact iff_of_false nofun nofun
  | some argument =>
      refine prepend_eq_ok_iff.trans ⟨?_, ?_⟩
      · rintro ⟨behind, filled, same⟩
        exact ⟨argument, behind, rfl, filled, same⟩
      · rintro ⟨_, behind, ⟨⟩, filled, same⟩
        exact ⟨behind, filled, same⟩

theorem fills_of_fill (filled : fill store arguments pieces unnamed = .ok text) :
    Fills store arguments unnamed pieces text := by
  -- A hole without a key leaves one unnamed argument less for the pieces behind it.
  induction pieces generalizing unnamed text with
  | nil =>
      cases filled
      exact ⟨[], rfl, rfl, nofun⟩
  | cons head rest ih =>
      cases head with
      | text chars =>
          obtain ⟨behind, restFilled, rfl⟩ := fill_text_eq_ok_iff.mp filled
          exact .cons .text (fun _ => by rw [emptyKeys_text]) (ih restFilled)
      | hole key =>
          by_cases empty : key = ""
          · subst empty
            obtain ⟨argument, left, behind, rfl, restFilled, rfl⟩ :=
              fill_unnamed_eq_ok_iff.mp filled
            exact .cons (.unnamed rfl) (fun _ => by simp) (ih restFilled)
          · obtain ⟨argument, behind, found, restFilled, rfl⟩ :=
              (fill_named_eq_ok_iff empty).mp filled
            obtain ⟨name, earlier, later, items, first⟩ := named?_eq_some_iff.mp found
            exact .cons (.named empty items name first)
              (fun _ => by rw [emptyKeys_named _ empty]) (ih restFilled)

theorem exists_named?_iff : (∃ argument, arguments.named? key = some argument) ↔
    ∃ argument ∈ arguments.items, argument.name = some key := by
  rw [← Option.isSome_iff_exists]
  simp [CallArguments.named?]

theorem suffice_text_iff {chars : List Char} :
    Suffice arguments unnamed (.text chars :: rest) ↔ Suffice arguments unnamed rest := by
  constructor
  · rintro ⟨enough, named⟩
    exact ⟨emptyKeys_text rest chars ▸ enough, fun key member => named key (.tail _ member)⟩
  · rintro ⟨enough, named⟩
    refine ⟨(emptyKeys_text rest chars).symm ▸ enough, fun key member => ?_⟩
    cases member with
    | tail _ member => exact named key member

theorem suffice_unnamed_iff : Suffice arguments unnamed (.hole "" :: rest) ↔
    ∃ argument left, unnamed = argument :: left ∧ Suffice arguments left rest := by
  constructor
  · rintro ⟨enough, named⟩
    rw [emptyKeys_unnamed] at enough
    cases unnamed with
    | nil => cases enough
    | cons argument left =>
        exact ⟨argument, left, rfl, Nat.le_of_succ_le_succ enough,
          fun key member => named key (.tail _ member)⟩
  · rintro ⟨argument, left, rfl, enough, named⟩
    refine ⟨(emptyKeys_unnamed rest).symm ▸ Nat.succ_le_succ enough, fun key member keyed => ?_⟩
    cases member with
    | head => exact absurd rfl keyed
    | tail _ member => exact named key member keyed

theorem suffice_named_iff (nonempty : key ≠ "") :
    Suffice arguments unnamed (.hole key :: rest) ↔
      (∃ argument, arguments.named? key = some argument) ∧ Suffice arguments unnamed rest := by
  rw [exists_named?_iff]
  constructor
  · rintro ⟨enough, named⟩
    exact ⟨named key (.head _) nonempty, emptyKeys_named rest nonempty ▸ enough,
      fun key member => named key (.tail _ member)⟩
  · rintro ⟨found, enough, named⟩
    refine ⟨(emptyKeys_named rest nonempty).symm ▸ enough, fun other member keyed => ?_⟩
    cases member with
    | head => exact found
    | tail _ member => exact named other member keyed

theorem exists_fill_iff : (∃ text, fill store arguments pieces unnamed = .ok text) ↔
    Suffice arguments unnamed pieces := by
  induction pieces generalizing unnamed with
  | nil => exact iff_of_true ⟨"", rfl⟩ ⟨Nat.zero_le _, nofun⟩
  | cons head rest ih =>
      cases head with
      | text chars =>
          rw [suffice_text_iff, ← ih]
          constructor
          · rintro ⟨text, filled⟩
            obtain ⟨behind, restFilled, -⟩ := fill_text_eq_ok_iff.mp filled
            exact ⟨behind, restFilled⟩
          · rintro ⟨behind, restFilled⟩
            exact ⟨_, fill_text_eq_ok_iff.mpr ⟨behind, restFilled, rfl⟩⟩
      | hole key =>
          by_cases empty : key = ""
          · subst empty
            rw [suffice_unnamed_iff]
            constructor
            · rintro ⟨text, filled⟩
              obtain ⟨argument, left, behind, same, restFilled, -⟩ :=
                fill_unnamed_eq_ok_iff.mp filled
              exact ⟨argument, left, same, ih.mp ⟨behind, restFilled⟩⟩
            · rintro ⟨argument, left, same, suffice⟩
              obtain ⟨behind, restFilled⟩ := ih.mpr suffice
              exact ⟨_, fill_unnamed_eq_ok_iff.mpr ⟨argument, left, behind, same, restFilled, rfl⟩⟩
          · rw [suffice_named_iff empty, ← ih]
            constructor
            · rintro ⟨text, filled⟩
              obtain ⟨argument, behind, found, restFilled, -⟩ :=
                (fill_named_eq_ok_iff empty).mp filled
              exact ⟨⟨argument, found⟩, behind, restFilled⟩
            · rintro ⟨⟨argument, found⟩, behind, restFilled⟩
              exact ⟨_, (fill_named_eq_ok_iff empty).mpr ⟨argument, behind, found, restFilled, rfl⟩⟩

end

end Format

/-! ## Calls -/

section

variable {machine final : Machine} {arguments : CallArguments} {first : CallArgument}
  {rest : List CallArgument} {format : String} {span : Span} {result : Value}

theorem Format.apply_eq_fill {store : Store} (items : arguments.items = first :: rest)
    (unnamed : first.name = none) (template : store.string? first.value = some format) :
    apply store arguments =
      fill store arguments (pieces format) (rest.filter fun argument => argument.name.isNone) := by
  simp [apply, template?, items, unnamed, template]

theorem returns_getStore {store : Store} :
    RunM.getStore.Returns machine store final ↔ store = machine.store ∧ final = machine := by
  constructor
  · intro returns
    cases returns
    exact ⟨rfl, rfl⟩
  · rintro ⟨rfl, rfl⟩
    rfl

theorem returns_ofExcept {α : Type} {outcome : Except Cause α} {value : α} :
    (RunM.ofExcept outcome span).Returns machine value final ↔
      outcome = .ok value ∧ final = machine := by
  cases outcome with
  | error cause => exact iff_of_false not_returns_fail nofun
  | ok found => exact returns_pure.trans (by rw [Except.ok.injEq, eq_comm])

theorem returns_strFormat :
    (callBuiltin .strFormat arguments span).Returns machine result final ↔
      ∃ text, Format.apply machine.store arguments = .ok text ∧
        ∃ store, (newScalar (.string text)).run machine.store = (result, store) ∧
          final = { machine with store } := by
  unfold callBuiltin
  simp only [returns_bind, returns_getStore, returns_ofExcept, returns_onStore]
  constructor
  · rintro ⟨_, _, ⟨rfl, rfl⟩, text, _, ⟨applied, rfl⟩, stored⟩
    exact ⟨text, applied, stored⟩
  · rintro ⟨text, applied, stored⟩
    exact ⟨_, _, ⟨rfl, rfl⟩, text, _, ⟨applied, rfl⟩, stored⟩

/-- A format falls into pieces in one way. The call succeeds exactly if there are enough
arguments for them, and the result is what the pieces stand for. -/
theorem strFormat_fills (items : arguments.items = first :: rest) (unnamed : first.name = none)
    (template : machine.store.string? first.value = some format) :
    ∃ pieces, (∀ other, Format.Splits format.toList other ↔ other = pieces) ∧
      ((∃ result final, (callBuiltin .strFormat arguments span).Returns machine result final) ↔
        Format.Suffice arguments (rest.filter fun argument => argument.name.isNone) pieces) ∧
      ∀ result final, (callBuiltin .strFormat arguments span).Returns machine result final →
        ∃ text, final.store.string? result = some text ∧
          Format.Fills machine.store arguments
            (rest.filter fun argument => argument.name.isNone) pieces text := by
  have applied := Format.apply_eq_fill items unnamed template
  refine ⟨Format.pieces format, fun _ => Format.splits_iff, ?_, ?_⟩
  · rw [← Format.exists_fill_iff, ← applied]
    constructor
    · rintro ⟨result, final, returns⟩
      obtain ⟨text, filled, -⟩ := returns_strFormat.mp returns
      exact ⟨text, filled⟩
    · rintro ⟨text, filled⟩
      exact ⟨_, _, returns_strFormat.mpr ⟨text, filled, _, rfl, rfl⟩⟩
  · intro result final returns
    obtain ⟨text, filled, store, stored, rfl⟩ := returns_strFormat.mp returns
    refine ⟨text, ?_, Format.fills_of_fill (applied ▸ filled)⟩
    cases stored
    simp [Store.string?, Store.scalar?, Store.cell?]

end

/-- A format with a name, a hole without a key and a brace that is never closed, a pair of
braces, and a number. -/
def labelMachine : Machine where
  scopes := .initial
  store := ⟨#[.scalar (.string "\x7b name \x7d: \x7b\x7d, \x7b"),
    .scalar (.string "\x7b\x7d"), .scalar (.integer 1)], 0⟩
  now := 0
  logs := #[]
  requests := #[]

/-- The format, the braces as the name, and the number. -/
def labelArguments : CallArguments :=
  ⟨[⟨0, none, .stored .string 0, default⟩, ⟨1, some "name", .stored .string 1, default⟩,
    ⟨2, none, .stored .integer 2, default⟩], default⟩

/-- The braces that are filled in are no hole: the number fills the one behind them. -/
theorem label_filled :
    ∃ result final,
      (callBuiltin .strFormat labelArguments default).Returns labelMachine result final ∧
        final.store.string? result = some "\x7b\x7d: 1, \x7b" ∧
        Format.Fills labelMachine.store labelArguments [⟨2, none, .stored .integer 2, default⟩]
          [.text [], .hole "name", .text [':', ' '], .hole "", .text [',', ' ', '\x7b']]
          "\x7b\x7d: 1, \x7b" := by
  have items : labelArguments.items = ⟨0, none, .stored .string 0, default⟩ :: _ := rfl
  have template : labelMachine.store.string? (.stored .string 0) =
      some "\x7b name \x7d: \x7b\x7d, \x7b" := rfl
  obtain ⟨pieces, only, -, fills⟩ := strFormat_fills items rfl template
  obtain rfl : [.text [], .hole "name", .text [':', ' '], .hole "", .text [',', ' ', '\x7b']] =
      pieces := (only _).mp (Format.splits_iff.mpr (by decide))
  have returns : (callBuiltin .strFormat labelArguments default).Returns labelMachine _ _ :=
    returns_strFormat.mpr ⟨"\x7b\x7d: 1, \x7b", by rfl, _, rfl, rfl⟩
  obtain ⟨text, found, filled⟩ := fills _ _ returns
  obtain rfl : "\x7b\x7d: 1, \x7b" = text := Option.some.inj found
  exact ⟨_, _, returns, found, filled⟩

end FlowScript
