import FlowScript.Proofs.Call.Binding
import FlowScript.Proofs.Growth.Surroundings
import FlowScript.Proofs.Scope.Evaluation
import FlowScript.Proofs.Storage.Filling
import FlowScript.Proofs.Storage.Reach
import FlowScript.Proofs.Variable.Names

/-!
# Declaration agrees with assignment

A variable can get its first value from its declaration or from an assignment right
behind it. Both leave it with the same kind and with contents of the same structure,
unless an integer is declared: that one passes through the reals on its way, and is
rounded there if it is too long.
-/

set_option autoImplicit false

namespace FlowScript

open RunM

variable {allowed : Workflow → Prop}

/-! ## Variables by name -/

namespace ScopeStack

theorem lookup?_declare {stack changed : ScopeStack} {name : String} {value : Value}
    (declared : stack.declare name value = .ok changed) : changed.lookup? name = some value := by
  obtain ⟨-, rfl⟩ := declare_eq_ok declared
  simp [lookup?, scopes, lookupIn?, Dictionary.get?_insert]

theorem lookup?_rebind {stack changed : ScopeStack} {name : String} {value : Value}
    (rebound : stack.rebind name value = .ok changed) : changed.lookup? name = some value := by
  obtain ⟨inner, scope, outer, current, -, after, others, -⟩ :=
    rebindIn?_split (rebind_eq_ok rebound).1
  rw [lookup?, after]
  exact lookupIn?_nearest others (by simp [Dictionary.get?_insert])

/-- A variable of the innermost scope is the one its name stands for. -/
theorem lookup?_of_top {stack : ScopeStack} {level : Nat} {name : String} {value : Value}
    (found : stack.valueAt? level name = some value) (top : level + 1 = stack.depth) :
    stack.lookup? name = some value := by
  rw [valueAt?_top top] at found
  simp [lookup?, scopes, lookupIn?, found]

end ScopeStack

/-! ## Statements -/

theorem RunM.Returns.path {head : Identifier} {tail : List Identifier} {machine final : Machine}
    {value : Value} (returns : (resolve head tail).Returns machine value final) :
    ∃ root, machine.scopes.lookup? head.name = some root ∧
      (followPath root tail).Returns machine value final := by
  unfold RunM.Returns at returns
  rw [run_resolve] at returns
  split at returns
  · next found => exact ⟨_, found, returns⟩
  · cases returns

/-- The statement evaluates its expression to the value, and has the machine it gets
from that. -/
def Site.Supplies (site : Site) (source : Value) (supplied : Machine) : Prop :=
  ∃ expression : Site, site.Starts expression ∧ expression.Yields source supplied

theorem Site.Supplies.sound {site : Site} {source : Value} {supplied : Machine}
    (closed : ClosedWorkflows allowed) (supplies : site.Supplies source supplied)
    (sound : site.Sound allowed) :
    supplied.Sound allowed ∧ source.Within allowed supplied.size := by
  obtain ⟨⟨depth, context, work, machine⟩, starts, yields⟩ := supplies
  cases work with
  | expression expr =>
      have started := (sound.starts closed starts).machine
      exact ((evaluation_preserves closed depth).1 context expr started).returned yields
  | statement | sequence => exact yields.elim

/-- An assignment gives what its expression supplies to its target. -/
theorem Site.Supplies.assignTarget {depth : Nat} {context : Context} {target : Path} {expr : Expr}
    {span : Span} {machine supplied final : Machine} {source : Value}
    (supplies : Site.Supplies
      ⟨depth + 1, context, .statement (.assignment target expr span), machine⟩ source supplied)
    (executes : (execute (depth + 1) context (.assignment target expr span)).Returns machine ()
      final) : (FlowScript.assignTarget target source span).Returns supplied () final := by
  obtain ⟨expression, starts, yields⟩ := supplies
  cases starts with
  | value owned announces =>
      cases owned
      rw [execute_value depth context rfl] at executes
      exact (executes.rest announces).rest yields

/-- `name : kind = e` was executed, and `e` supplied the value. -/
inductive Declares (kind : Kind) (name : String) (before : Machine) (source : Value)
    (supplied after : Machine) : Prop where
  | intro {depth : Nat} {context : Context} {identifier typeName : Identifier} {expr : Expr}
      {span : Span} : identifier.name = name → Kind.ofName? typeName.name = some kind →
      Site.Supplies ⟨depth + 1, context,
        .statement (.declaration identifier typeName (some expr) span), before⟩ source supplied →
      (execute (depth + 1) context
        (.declaration identifier typeName (some expr) span)).Returns before () after →
      Declares kind name before source supplied after

/-- `name : kind` was executed. -/
inductive Introduces (kind : Kind) (name : String) (before after : Machine) : Prop where
  | intro {depth : Nat} {context : Context} {identifier typeName : Identifier} {span : Span} :
      identifier.name = name → Kind.ofName? typeName.name = some kind →
      (execute (depth + 1) context
        (.declaration identifier typeName none span)).Returns before () after →
      Introduces kind name before after

/-- `name = e` was executed, and `e` supplied the value. -/
inductive Assigns (name : String) (before : Machine) (source : Value)
    (supplied after : Machine) : Prop where
  | intro {depth : Nat} {context : Context} {identifier : Identifier} {expr : Expr}
      {pathSpan span : Span} : identifier.name = name →
      Site.Supplies ⟨depth + 1, context,
        .statement (.assignment ⟨identifier, [], pathSpan⟩ expr span), before⟩ source supplied →
      (execute (depth + 1) context
        (.assignment ⟨identifier, [], pathSpan⟩ expr span)).Returns before () after →
      Assigns name before source supplied after

theorem Declares.constructs {kind : Kind} {name : String} {before supplied after : Machine}
    {source : Value} (declares : Declares kind name before source supplied after) :
    ∃ now held store scopes,
      (Value.construct now kind source).run.run supplied.store = (.ok held, store) ∧
      supplied.scopes.declare name held = .ok scopes ∧ after = { supplied with store, scopes } := by
  cases declares with
  | @intro depth context identifier typeName expr span same known supplies executes =>
      subst same
      obtain ⟨expression, starts, yields⟩ := supplies
      cases starts with
      | value owned => cases owned
      | @declaration _ _ _ _ _ _ _ started found prepares =>
          obtain ⟨_, announced, announces, resolves⟩ := RunM.Returns.steps prepares
          obtain ⟨resolved, -⟩ := returns_resolveKind.mp resolves
          cases known.symm.trans resolved
          have whole : RunM.Returns (do
              announce context (.declaration identifier typeName (some expr) span)
              let kind ← resolveKind typeName
              let initializer ← evaluate depth context expr
              declareVariable context identifier kind span initializer) before () after := executes
          have declares := ((whole.rest announces).rest resolves).rest yields
          obtain ⟨now, _, reads, constructs⟩ := declares.steps
          cases reads
          obtain ⟨held, _, made, declared⟩ := constructs.steps
          obtain ⟨store, ran, rfl⟩ := made.onStoreAt
          obtain ⟨scopes, changed, rfl⟩ := declared.onScopesAt
          exact ⟨_, held, store, scopes, ran, changed, rfl⟩

theorem Assigns.assigns {name : String} {before supplied after : Machine} {source : Value}
    (assigns : Assigns name before source supplied after) :
    ∃ current result store scopes, supplied.scopes.lookup? name = some current ∧
      (current.assign source).run.run supplied.store = (.ok result, store) ∧
      supplied.scopes.rebind name result = .ok scopes ∧
      after = { supplied with store, scopes } := by
  cases assigns with
  | @intro depth context identifier expr pathSpan span same supplies executes =>
      subst same
      have finishes : (assignVariable identifier source span).Returns supplied () after :=
        supplies.assignTarget executes
      obtain ⟨current, _, resolves, assigned⟩ := finishes.steps
      obtain ⟨_, looked, follows⟩ := resolves.path
      obtain ⟨rfl, rfl⟩ := follows.of_pure
      obtain ⟨result, _, made, rebound⟩ := assigned.steps
      obtain ⟨store, ran, rfl⟩ := made.onStoreAt
      obtain ⟨scopes, changed, rfl⟩ := rebound.onScopesAt
      exact ⟨current, result, store, scopes, looked, ran, changed, rfl⟩

section

variable {kind : Kind} {name : String} {source : Value} {before supplied after : Machine}

theorem Declares.sound (declares : Declares kind name before source supplied after)
    (sound : before.Sound fun _ => True) :
    supplied.Sound (fun _ => True) ∧ source.Within (fun _ => True) supplied.size := by
  cases declares with
  | intro _ _ supplies =>
      exact supplies.sound (fun _ _ _ _ _ _ => trivial) ⟨sound, fun _ _ => trivial⟩

theorem Assigns.sound (assigns : Assigns name before source supplied after)
    (sound : before.Sound fun _ => True) :
    supplied.Sound (fun _ => True) ∧ source.Within (fun _ => True) supplied.size := by
  cases assigns with
  | intro _ supplies =>
      exact supplies.sound (fun _ _ _ _ _ _ => trivial) ⟨sound, fun _ _ => trivial⟩

theorem Introduces.sound (introduces : Introduces kind name before after)
    (sound : before.Sound fun _ => True) : after.Sound fun _ => True := by
  cases introduces with
  | intro _ _ executes =>
      exact (((evaluation_preserves (fun _ _ _ _ _ _ => trivial) _).2 _ _
        (fun _ _ => trivial) sound).returned executes).1

end

/-- The new variable stands in the innermost scope. -/
theorem Introduces.introduces {kind : Kind} {name : String} {before after : Machine}
    (introduces : Introduces kind name before after) :
    ∃ level held, level + 1 = after.scopes.depth ∧
      after.scopes.valueAt? level name = some held ∧ (held.kind = kind ∨ held.isError) := by
  cases introduces with
  | @intro depth context identifier typeName span same known executes =>
      subst same
      have introduced : (Statement.declaration identifier typeName none span).introduced? =
          some (identifier.name, kind) := by
        simp [Statement.introduced?, known]
      obtain ⟨prepare, location, split, -, -, ofKind⟩ :=
        execute_introduces depth context introduced
      rw [split] at executes
      obtain ⟨held, middle, prepares, declared⟩ := executes.steps
      obtain ⟨scopes, changed, rfl⟩ := declared.onScopesAt
      have deep := ScopeStack.depth_declare changed
      refine ⟨middle.scopes.outer.length, held, deep.symm, ?_, ofKind prepares⟩
      rw [ScopeStack.valueAt?_declare changed, if_pos ⟨rfl, rfl⟩]

/-- No scope is left or stays open while the assigned value is evaluated. -/
theorem Assigns.leads {name : String} {before supplied after : Machine} {source : Value}
    (assigns : Assigns name before source supplied after) :
    before.LeadsTo before.scopes.depth supplied ∧
      supplied.scopes.depth = before.scopes.depth := by
  cases assigns with
  | @intro depth context identifier expr pathSpan span same supplies executes =>
      obtain ⟨expression, starts, yields⟩ := supplies
      cases starts with
      | value owned announces =>
          cases owned
          have announced : before.LeadsTo before.scopes.depth _ :=
            (Steady.composes.report _ _ _).returned announces (Nat.le_refl _)
          have evaluated := ((evaluation_steady depth context).1 expr).returned yields
            announced.levels_le
          have balanced := ((evaluation_balances depth context).1 expr _).of_run yields
          have same := (Quiet.report _ _ _ before).of_run announces
          exact ⟨announced.trans evaluated,
            (balanced.2 rfl).depth.trans (congrArg ScopeStack.depth same)⟩

theorem Assigns.current {kind : Kind} {name : String}
    {before initialised supplied after : Machine} {source current : Value}
    (introduces : Introduces kind name before initialised)
    (assigns : Assigns name initialised source supplied after)
    (looked : supplied.scopes.lookup? name = some current) :
    current.kind = kind ∨ current.isError := by
  obtain ⟨level, held, top, found, ofKind⟩ := introduces.introduces
  obtain ⟨leads, deep⟩ := assigns.leads
  obtain ⟨later, foundLater, follows⟩ := leads.follows level (by omega) name held found
  cases looked.symm.trans (ScopeStack.lookup?_of_top foundLater (by omega))
  rcases ofKind with same | error
  · exact follows.imp (fun later => later.trans same) id
  · exact .inr (follows.isError error)

/-! ## Both ways of a first value -/

/-- `name : kind = e` and `name : kind; name = e` leave the variable with values of the
same kind and the same structure, if both succeed and `e` supplies both with values of
the same structure. Only a long integer that is declared differs: it is rounded to a
real. -/
theorem declaration_agrees_with_assignment {same : Value → Value → Prop} {kind : Kind}
    {name : String} {source other : Value}
    {first supplied declared second initialised otherSupplied assigned : Machine}
    (firstSound : first.Sound fun _ => True) (secondSound : second.Sound fun _ => True)
    (declares : Declares kind name first source supplied declared)
    (introduces : Introduces kind name second initialised)
    (assigns : Assigns name initialised other otherSupplied assigned)
    (resembles : source.Resembles same supplied.store otherSupplied.store other)
    (kinds : ∀ value other, same value other → value.kind = other.kind)
    (typed : source.Typed supplied.store) :
    ∃ held result, declared.scopes.lookup? name = some held ∧
      assigned.scopes.lookup? name = some result ∧ held.kind = result.kind ∧
      (held.Resembles same declared.store assigned.store result ↔
        (kind = .stored .integer → ∀ number, supplied.store.integer? source = some number →
          Real.toInt64 (Real.ofInt64 number) = number)) := by
  obtain ⟨suppliedSound, within⟩ := declares.sound firstSound
  obtain ⟨otherSound, otherWithin⟩ := assigns.sound (introduces.sound secondSound)
  obtain ⟨now, held, store, scopes, constructed, declared, rfl⟩ := declares.constructs
  obtain ⟨current, result, otherStore, otherScopes, looked, assigned, rebound, rfl⟩ :=
    assigns.assigns
  refine ⟨held, result, ScopeStack.lookup?_declare declared, ScopeStack.lookup?_rebind rebound, ?_⟩
  have sameKind := resembles.kind_eq kinds
  cases error : source.isError with
  | true =>
      have otherError := (Value.isError_congr sameKind).symm.trans error
      obtain ⟨rfl, rfl⟩ := (Value.construct_error error now kind).of_run constructed held rfl
      obtain ⟨rfl, rfl⟩ := (Value.assign_error otherError current).of_run assigned result rfl
      refine ⟨sameKind, iff_of_true resembles fun _ number found => ?_⟩
      cases held with
      | error => cases found
      | _ => cases error
  | false =>
      have otherNoError := (Value.isError_congr sameKind).symm.trans error
      -- An error in the variable takes only errors.
      have noError : current.isError = false := by
        cases spoiled : current.isError with
        | false => rfl
        | true =>
            have bare : current.address? = none := by
              cases current <;> first | rfl | cases spoiled
            have agrees := (Value.assign_bare bare otherNoError).of_run assigned result rfl
            exact ((Value.isError_congr agrees).symm.trans spoiled).symm.trans otherNoError
      have ofKind : current.kind = kind :=
        (Assigns.current introduces assigns looked).resolve_right (by simp [noError])
      cases kind with
      | stored kind =>
          obtain ⟨address, rfl⟩ : ∃ address, current = .stored kind address := by
            cases current with
            | stored _ address => exact ⟨address, by rw [Kind.stored.inj ofKind]⟩
            | _ => cases ofKind
          have inBounds := (otherSound.bindings _ (ScopeStack.lookup?_mem looked)).address_lt rfl
          obtain ⟨heldKind, resultKind, agrees⟩ := Value.construct_agrees suppliedSound.store
            otherSound.store within otherWithin typed resembles kinds error inBounds
            constructed assigned
          refine ⟨heldKind.trans resultKind.symm, agrees.trans ?_⟩
          rw [numbers_agree_iff]
          simp only [Kind.stored.injEq]
      | void =>
          obtain ⟨rfl, rfl⟩ := Value.construct_void constructed
          obtain rfl : current = .void := by
            cases current <;> first | rfl | cases ofKind
          obtain rfl : other = .void := by
            cases other <;> first | rfl | cases sameKind
          obtain rfl := Value.assign_void assigned
          refine ⟨rfl, iff_of_true ?_ nofun⟩
          cases resembles with
          | bare bare otherBare holds => exact .bare bare otherBare holds
      | error => exact absurd ((current.kind_eq_error_iff).mp ofKind) (by simp [noError])
      | memberFunction | freeFunction | workflow | workflowInvocation =>
          cases source <;> cases constructed

/-- An integer that no real of this size stands for. -/
def longInteger : Expr := .literal (.integer 9007199254740993) .origin

/-- The declaration `x : integer = 9007199254740993` rounds its value, the assignment
`x = 9007199254740993` keeps it. -/
theorem longInteger_rounded :
    ∃ (declared assigned : Machine) (held result : Value),
      declared.scopes.lookup? "x" = some held ∧ assigned.scopes.lookup? "x" = some result ∧
      held.kind = result.kind ∧
      ¬ held.Resembles (fun value other => value.kind = other.kind) declared.store
        assigned.store result := by
  let start := initialMachine 0
  let context := (Run.ofStatements [] 2).root.context
  obtain ⟨source, supplied, declared, declares, ofKind, integer⟩ : ∃ source supplied declared,
      Declares (.stored .integer) "x" start source supplied declared ∧
      source.kind = .stored .integer ∧
      supplied.store.integer? source = some 9007199254740993 :=
    ⟨_, _, _, @Declares.intro _ _ _ _ _ _ 1 context ⟨"x", .origin⟩ ⟨"integer", .origin⟩ longInteger
      .origin rfl rfl
      ⟨_, .declaration (.of_isSome (by decide +kernel)), .of_isSome (by decide +kernel)⟩
      (.of_isSome (by decide +kernel)), by decide +kernel, by decide +kernel⟩
  obtain ⟨initialised, other, otherSupplied, assigned, introduces, assigns, otherKind,
    otherInteger⟩ :
      ∃ initialised other otherSupplied assigned,
        Introduces (.stored .integer) "x" start initialised ∧
        Assigns "x" initialised other otherSupplied assigned ∧ other.kind = .stored .integer ∧
        otherSupplied.store.integer? other = some 9007199254740993 :=
    ⟨_, _, _, _, @Introduces.intro _ _ _ _ 1 context ⟨"x", .origin⟩ ⟨"integer", .origin⟩ .origin
        rfl rfl (.of_isSome (by decide +kernel)),
      @Assigns.intro _ _ _ _ _ 1 context ⟨"x", .origin⟩ longInteger .origin .origin rfl
        ⟨_, .value rfl (.of_isSome (by decide +kernel)), .of_isSome (by decide +kernel)⟩
        (.of_isSome (by decide +kernel)), by decide +kernel, by decide +kernel⟩
  have scalar := Value.integer?_scalar integer
  have typed : source.Typed supplied.store := by
    rintro kind value same found
    cases ofKind.symm.trans same
    cases scalar.symm.trans found
    rfl
  obtain ⟨held, result, heldFound, resultFound, kinds, agree⟩ := declaration_agrees_with_assignment
    (initialMachine_sound 0) (initialMachine_sound 0) declares introduces assigns
    (.of_scalar (ofKind.trans otherKind.symm) scalar (Value.integer?_scalar otherInteger))
    (fun _ _ same => same) typed
  refine ⟨declared, assigned, held, result, heldFound, resultFound, kinds, fun alike => ?_⟩
  have kept := agree.mp alike rfl _ integer
  exact absurd kept (by decide +kernel)

end FlowScript
