import FlowScript.Proofs.Variable.Course
import FlowScript.Proofs.Variable.Names

/-!
# The kinds variables are introduced with

A ledger notes for every open scope which variables were introduced in it, and with
which kind. It follows from how a run came to where it is, without regard to any
value. Each variable has a value of the kind in the ledger, or an error.
-/

set_option autoImplicit false

namespace FlowScript

open RunM

/-- For every open scope, the innermost one first, the kinds of its variables. -/
abbrev Ledger := List (Dictionary Kind)

namespace Ledger

/-- The kind of a variable, by the level of its scope and its name. -/
def kindAt? (ledger : Ledger) (level : Nat) (name : String) : Option Kind :=
  (ledger.reverse[level]?).bind fun kinds => kinds.get? name

def introduce (ledger : Ledger) (name : String) (kind : Kind) : Ledger :=
  match ledger with
  | [] => []
  | kinds :: outer => kinds.insert name kind :: outer

def executing (ledger : Ledger) (statement : Statement) : Ledger :=
  match statement.introduced? with
  | some (name, kind) => ledger.introduce name kind
  | none => ledger

/-- Every variable of the stack is noted, and its value has the noted kind or is an
error. -/
structure Fits (ledger : Ledger) (stack : ScopeStack) : Prop where
  length : ledger.length = stack.depth
  kinds : ∀ level name value, stack.valueAt? level name = some value →
    ∃ kind, ledger.kindAt? level name = some kind ∧ (value.kind = kind ∨ value.isError)

theorem kindAt?_cons (kinds : Dictionary Kind) (outer : Ledger) (level : Nat) (name : String) :
    kindAt? (kinds :: outer) level name =
      if level = outer.length then kinds.get? name else kindAt? outer level name := by
  unfold kindAt?
  rw [List.reverse_cons, List.getElem?_append, List.length_reverse]
  by_cases below : level < outer.length
  · rw [if_pos below, if_neg (Nat.ne_of_lt below)]
  · rw [if_neg below]
    by_cases top : level = outer.length
    · simp [top]
    · have above : outer.length < level := by omega
      rw [if_neg top, List.getElem?_eq_none (by simp; omega),
        List.getElem?_eq_none (by simp; omega)]

end Ledger

namespace ScopeStack

theorem valueAt?_isSome_iff {stack : ScopeStack} {level : Nat} {name : String} :
    (stack.valueAt? level name).isSome ↔ ∃ row, stack.names[level]? = some row ∧ name ∈ row := by
  unfold valueAt? names
  rw [List.getElem?_map]
  cases stack.levels[level]? with
  | none => simp
  | some bindings => simpa [Dictionary.get?, Dictionary.keys] using Dictionary.find?_isSome_iff

end ScopeStack

namespace Ledger.Fits

variable {ledger : Ledger}

/-- A ledger still fits when no scope was left and no variable made. -/
theorem leads {before after : Machine} (fits : ledger.Fits before.scopes)
    (leads : before.LeadsTo before.scopes.depth after)
    (names : after.scopes.names = before.scopes.names) : ledger.Fits after.scopes where
  length := by
    rw [fits.length, ← ScopeStack.length_names, ← names, ScopeStack.length_names]
  kinds level name value found := by
    have present := ScopeStack.valueAt?_isSome_iff.mp (Option.isSome_of_eq_some found)
    rw [names] at present
    obtain ⟨old, oldFound⟩ := Option.isSome_iff_exists.mp
      (ScopeStack.valueAt?_isSome_iff.mpr present)
    obtain ⟨later, laterFound, follows⟩ :=
      leads.follows level (ScopeStack.level_lt oldFound) name old oldFound
    cases found.symm.trans laterFound
    obtain ⟨kind, noted, holds⟩ := fits.kinds level name old oldFound
    refine ⟨kind, noted, ?_⟩
    rcases holds with same | error
    · exact follows.imp (·.trans same) id
    · exact .inr (follows.isError error)

theorem push {stack : ScopeStack} (fits : ledger.Fits stack) (kind : ScopeKind) :
    Ledger.Fits (.empty :: ledger) (stack.push kind) where
  length := by
    rw [List.length_cons, fits.length, ScopeStack.depth_push]
  kinds level name value found := by
    have below := ScopeStack.level_lt found
    rw [ScopeStack.depth_push] at below
    unfold ScopeStack.valueAt? at found
    rw [ScopeStack.levels_push] at found
    rw [kindAt?_cons]
    by_cases top : level = ledger.length
    · rw [top, fits.length, ← ScopeStack.length_levels, List.getElem?_concat_length] at found
      cases found
    · have length := fits.length
      have inside : level < stack.levels.length := by
        rw [ScopeStack.length_levels]
        omega
      rw [List.getElem?_append_left inside] at found
      rw [if_neg top]
      exact fits.kinds level name value found

theorem declare {stack changed : ScopeStack} {name : String} {value : Value} {kind : Kind}
    (fits : ledger.Fits stack) (declared : stack.declare name value = .ok changed)
    (holds : value.kind = kind ∨ value.isError) : (ledger.introduce name kind).Fits changed := by
  cases ledger with
  | nil => exact absurd fits.length (Nat.ne_of_lt stack.depth_pos)
  | cons kinds outer =>
      have length : outer.length + 1 = stack.depth := fits.length
      refine ⟨length.trans (ScopeStack.depth_declare declared).symm, ?_⟩
      intro level other found foundAt
      rw [ScopeStack.valueAt?_declare declared] at foundAt
      simp only [introduce, kindAt?_cons, Dictionary.get?_insert]
      split at foundAt
      · next here =>
          cases foundAt
          rw [if_pos (by omega), if_pos here.2]
          exact ⟨kind, rfl, holds⟩
      · next elsewhere =>
          obtain ⟨old, noted, oldHolds⟩ := fits.kinds level other found foundAt
          rw [kindAt?_cons] at noted
          refine ⟨old, ?_, oldHolds⟩
          by_cases top : level = outer.length
          · rw [if_pos top] at noted ⊢
            rw [if_neg fun same => elsewhere ⟨by omega, same⟩, noted]
          · rw [if_neg top] at noted ⊢
            exact noted

end Ledger.Fits

/-! ## Introductions along a run -/

/-- The kinds of parameters, behind those already noted. -/
def Ledger.bindingEach (ledger : Ledger) : List Parameter → Ledger
  | [] => ledger
  | parameter :: rest =>
      match Kind.ofName? parameter.typeName.name with
      | some kind => (ledger.introduce parameter.name.name kind).bindingEach rest
      | none => ledger.bindingEach rest

/-- The kinds of the builtin functions and of the id of the instance. -/
def builtinKinds : Dictionary Kind :=
  .ofList (Builtin.all.map (fun function => (function.name, Kind.freeFunction)) ++
    [("instance_id", .stored .integer)])

/-- The ledger at a site: what the run has introduced on its way there, in the scopes
that are open. -/
inductive Run.Introduces (run : Run) : Site → Ledger → Prop where
  | program : Introduces run run.root [builtinKinds]
  | expression {outer inner : Site} {ledger : Ledger} :
      Introduces run outer ledger → outer.Evaluates inner ∨ outer.Starts inner →
      Introduces run inner ledger
  | statement {depth : Nat} {context : Context} {statement : Statement} {rest : List Statement}
      {machine : Machine} {ledger : Ledger} :
      Introduces run ⟨depth, context, .sequence (statement :: rest), machine⟩ ledger →
      Introduces run ⟨depth, context, .statement statement, machine⟩ ledger
  | next {depth : Nat} {context : Context} {statement : Statement} {rest : List Statement}
      {machine after : Machine} {ledger : Ledger} :
      Introduces run ⟨depth, context, .sequence (statement :: rest), machine⟩ ledger →
      (execute depth context statement).Returns machine () after →
      after.scopes.flow = .proceed →
      Introduces run ⟨depth, context, .sequence rest, after⟩ (ledger.executing statement)
  | block {depth : Nat} {context : Context} {statement : Statement} {machine : Machine}
      {inner : Site} {ledger : Ledger} :
      Introduces run ⟨depth, context, .statement statement, machine⟩ ledger →
      Site.Runs ⟨depth, context, .statement statement, machine⟩ inner →
      Introduces run inner (.empty :: ledger)
  | body {outer inner : Site} {definition : Workflow} {ledger : Ledger} :
      Introduces run outer ledger → outer.Invokes definition inner →
      Introduces run inner (Ledger.bindingEach (.empty :: ledger) definition.parameters)

theorem Run.Performs.introduces {run : Run} {site : Site} (performed : run.Performs site) :
    ∃ ledger, run.Introduces site ledger := by
  induction performed with
  | refl => exact ⟨_, .program⟩
  | tail _ enters ih =>
      obtain ⟨ledger, introduces⟩ := ih
      cases enters with
      | evaluates evaluates => exact ⟨_, .expression introduces (.inl evaluates)⟩
      | starts starts => exact ⟨_, .expression introduces (.inr starts)⟩
      | invokes invokes => exact ⟨_, .body introduces invokes⟩
      | runs runs =>
          cases runs with
          | first => exact ⟨_, .statement introduces⟩
          | next returns proceeds => exact ⟨_, .next introduces returns proceeds⟩
          | branch split returns holds =>
              exact ⟨_, .block introduces (.branch split returns holds)⟩
          | otherwise returns => exact ⟨_, .block introduces (.otherwise returns)⟩
          | round below returns => exact ⟨_, .block introduces (.round below returns)⟩

/-! ## Ledgers fit -/

theorem Site.Evaluates.names {outer inner : Site} (evaluates : outer.Evaluates inner) :
    inner.machine.scopes.names = outer.machine.scopes.names := by
  cases evaluates with
  | argument returns =>
      exact (Modest.bind (Modest.composes.resolve _ _) fun _ =>
        Modest.composes.arguments (modest_evaluate _ _) _ _).returned returns
  | element returns => exact (Modest.composes.elements (modest_evaluate _ _) _).returned returns
  | entry returns => exact (Modest.composes.entries (modest_evaluate _ _) _ _).returned returns
  | operand _ returns =>
      exact (Modest.bind (modest_evaluate _ _ _) fun _ =>
        Modest.composes.operations (modest_evaluate _ _) _ _ _).returned returns
  | duration returns => exact (modest_evaluate _ _ _).returned returns
  | unary | first | awaited | attempt => rfl

theorem Site.Starts.names {outer inner : Site} (starts : outer.Starts inner) :
    inner.machine.scopes.names = outer.machine.scopes.names := by
  cases starts with
  | declaration returns =>
      exact (Modest.bind (Modest.composes.report _ _ _) fun _ =>
        Modest.composes.resolveKind _).returned returns
  | value _ returns => exact (Modest.composes.report _ _ _).returned returns
  | condition _ returns =>
      exact (Modest.bind (Modest.composes.report _ _ _) fun _ =>
        .runBranches _ _ _).returned returns

namespace Ledger.Fits

variable {ledger : Ledger}

/-- A computation that makes no variable and leaves no scope. -/
theorem returned {α : Type} {action : RunM α} {machine final : Machine} {value : α}
    (fits : ledger.Fits machine.scopes) (steady : Steady action) (modest : Modest action)
    (returns : action.Returns machine value final) : ledger.Fits final.scopes :=
  fits.leads (steady.returned returns (Nat.le_refl _)) (modest.returned returns)

theorem plain {α : Type} {action : RunM α} {machine final : Machine} {value : α}
    (fits : ledger.Fits machine.scopes) (plain : Plain action)
    (returns : action.Returns machine value final) : ledger.Fits final.scopes :=
  fits.returned (.of_plain plain) (.of_quiet plain.quiet) returns

theorem bindEach {arguments : CallArguments} {location : Span} {parameters : List Parameter}
    {unnamed : List CallArgument} {machine final : Machine} (fits : ledger.Fits machine.scopes)
    (returns : (bindEach arguments location parameters unnamed).Returns machine () final) :
    (ledger.bindingEach parameters).Fits final.scopes := by
  induction parameters generalizing ledger unnamed machine with
  | nil =>
      obtain ⟨-, rfl⟩ := RunM.Returns.of_pure returns
      exact fits
  | cons parameter rest ih =>
      rw [bindEach_cons] at returns
      obtain ⟨expected, resolvedAt, resolves, returns⟩ := returns.steps
      obtain ⟨⟨argument, left⟩, chosenAt, chooses, returns⟩ := returns.steps
      obtain ⟨_, bound, binds, others⟩ := returns.steps
      have chosen := (fits.plain (Plain.composes.resolveKind _) resolves).plain
        (Plain.composes.chooseArgument _ _ _ _) chooses
      have known : Kind.ofName? parameter.typeName.name = some expected := by
        unfold resolveKind at resolves
        split at resolves
        · next found =>
            cases resolves
            exact found
        · cases resolves
      unfold bindArgument at binds
      split at binds
      · next matched =>
          obtain ⟨copy, copied, copies, declares⟩ := binds.steps
          obtain ⟨scopes, declared, rfl⟩ := declares.onScopesAt
          have kind : copy.kind = expected := by
            cases copies
            exact (argument.value.kind_detach chosenAt.store).trans matched
          have noted := (chosen.plain (Plain.composes.onStore (.detach _)) copies).declare declared
            (.inl kind)
          have rest := ih noted others
          rwa [Ledger.bindingEach, known]
      · cases binds

theorem untaken {depth : Nat} {context : Context} {statement : Statement}
    {branches : List Conditional} {machine after : Machine} (fits : ledger.Fits machine.scopes)
    (untaken : Site.Untaken depth context statement machine branches after) :
    ledger.Fits after.scopes :=
  fits.returned (.bind (Steady.composes.report _ _ _) fun _ => Steady.lockstep.branches _ _ _)
    (.bind (Modest.composes.report _ _ _) fun _ => .runBranches _ _ _) untaken

theorem executed {depth : Nat} {context : Context} {statement : Statement}
    {machine final : Machine} (fits : ledger.Fits machine.scopes)
    (returns : (execute depth context statement).Returns machine () final) :
    (ledger.executing statement).Fits final.scopes := by
  unfold Ledger.executing
  split
  · next name kind introduced =>
      cases depth with
      | zero => cases returns
      | succ depth =>
          obtain ⟨prepare, location, runs, modest, steady, holds⟩ :=
            execute_introduces depth context introduced
          rw [runs] at returns
          obtain ⟨value, prepared, prepares, declares⟩ := returns.steps
          obtain ⟨scopes, declared, rfl⟩ := declares.onScopesAt
          exact (fits.returned steady modest prepares).declare declared (holds prepares)
  · next nothing =>
      exact fits.returned ((evaluation_steady depth context).2 statement)
        (modest_execute depth context nothing) returns

end Ledger.Fits

theorem fits_initial (instanceId : Int64) :
    Ledger.Fits [builtinKinds] (initialMachine instanceId).scopes := by
  have noted : builtinKinds.entries =
      (initialMachine instanceId).scopes.current.bindings.entries.map fun entry =>
        (entry.1, entry.2.kind) := rfl
  refine ⟨rfl, fun level name value found => ?_⟩
  have top : level = 0 := by
    have below := ScopeStack.level_lt found
    exact Nat.lt_one_iff.mp below
  subst top
  have single : 0 + 1 = (initialMachine instanceId).scopes.depth := rfl
  rw [ScopeStack.valueAt?_top single] at found
  refine ⟨value.kind, ?_, .inl rfl⟩
  rw [Ledger.kindAt?_cons]
  change Dictionary.find? name builtinKinds.entries = _
  rw [noted, Dictionary.find?_map]
  exact Option.map_eq_some_iff.mpr ⟨value, found, rfl⟩

theorem Ledger.Fits.enterWorkflow {ledger : Ledger} {definition : Workflow}
    {arguments : CallArguments} {called : Span} {machine final : Machine}
    (fits : ledger.Fits machine.scopes)
    (returns : (enterWorkflow definition arguments called).Returns machine () final) :
    (Ledger.bindingEach (.empty :: ledger) definition.parameters).Fits final.scopes := by
  obtain ⟨_, announced, announces, enters⟩ := RunM.Returns.steps returns
  obtain ⟨_, entered, pushes, binds⟩ := enters.steps
  cases pushes
  have pushed := (fits.plain (Plain.composes.report _ _ _) announces).push .function
  unfold bindParameters at binds
  dsimp only at binds
  split at binds
  · split at binds
    · cases binds
    · exact Ledger.Fits.bindEach pushed binds
  · cases binds

/-- Wherever a run comes to, the ledger fits. -/
theorem Run.Introduces.fits {run : Run} {site : Site} {ledger : Ledger}
    (introduces : run.Introduces site ledger) : ledger.Fits site.machine.scopes := by
  induction introduces with
  | program => exact fits_initial run.instanceId
  | expression _ part ih =>
      rcases part with evaluates | starts
      · exact ih.leads evaluates.surrounds.starts evaluates.names
      · exact ih.leads starts.surrounds.starts starts.names
  | statement _ ih => exact ih
  | next _ returns _ ih => exact ih.executed returns
  | block _ runs ih =>
      cases runs with
      | branch split returns holds =>
          have tried := ih.untaken returns
          have judged := tried.returned
            (Steady.lockstep.condition (evaluation_steady _ _).1 _)
            (Modest.straight.condition (modest_evaluate _ _) _) holds
          exact judged.push .block
      | otherwise returns =>
          exact (ih.untaken returns).push .block
      | round below returns =>
          have repeated := ih.returned
            (.bind (Steady.composes.report _ _ _) fun _ => Steady.lockstep.rounds _ _ _ _)
            (.bind (Modest.composes.report _ _ _) fun _ => .runRounds _ _ _ _) returns
          exact repeated.push .loop
  | body _ invokes ih =>
      cases invokes with
      | body evaluated pending enters =>
          have ready := ih.returned
            (Steady.lockstep.awaited (evaluation_steady _ _).1 _ _)
            (Modest.straight.awaited (modest_evaluate _ _) _ _) evaluated
          exact ready.enterWorkflow enters

end FlowScript
