import FlowScript.Proofs.Clock.Deadline
import FlowScript.Proofs.Run.Plain

/-!
# The race of an await

An await runs its operation under a deadline of its own. The same operation under
a later deadline does the same until the earlier one passes, and if that never
happens, it ends the same: with the same result, in the same state and at the
same time.
-/

set_option autoImplicit false

namespace FlowScript

open RunM

/-! ## One run under two deadlines -/

/-- How a run ends that races the deadline of an await, next to another run that has
more time: the deadline ends it just then, or both runs end alike before it. -/
structure Raced {α : Type} (own level : Nat) (other : Except Interruption α × Machine)
    (outcome : Except Interruption α) (final : Machine) : Prop where
  inTime : final.now ≤ own
  expires : outcome = .error (.expired level) → final.now = own
  alike : outcome ≠ .error (.expired level) → other = (outcome, final)

/-- The first computation races the deadline of the await at this level. The second one
is the same under a later deadline. -/
def Races (own level : Nat) {α : Type} (left right : RunM α) : Prop :=
  ∀ machine, machine.now ≤ own →
    After left.run machine (Raced own level (right.run.run machine))

/-- The contexts differ in the deadline of the await with these others around it. -/
def PutsOff (own later : Nat) (outer : List Nat) (left right : Context) : Prop :=
  ∃ nested, left.deadlines = nested ++ own :: outer ∧
    right = { left with deadlines := nested ++ later :: outer }

namespace PutsOff

variable {own later : Nat} {outer : List Nat} {left right : Context}

theorem length_eq (pair : PutsOff own later outer left right) :
    right.deadlines.length = left.deadlines.length := by
  obtain ⟨nested, deadlines, rfl⟩ := pair
  simp [deadlines]

theorem host_eq (pair : PutsOff own later outer left right) : right.host = left.host := by
  obtain ⟨nested, deadlines, rfl⟩ := pair
  rfl

theorem outer_lt (pair : PutsOff own later outer left right) :
    outer.length < left.deadlines.length := by
  obtain ⟨nested, deadlines, rfl⟩ := pair
  simp only [deadlines, List.length_append, List.length_cons]
  omega

theorem awaiting (pair : PutsOff own later outer left right) (now : Nat) (timeout : Duration) :
    PutsOff own later outer (left.awaiting now timeout) (right.awaiting now timeout) := by
  obtain ⟨nested, deadlines, rfl⟩ := pair
  refine ⟨(now + max timeout.millis shortestTimeout) :: nested, ?_, rfl⟩
  simp [Context.awaiting, deadlines]

end PutsOff

/-! ## Calls and the host -/

/-- The value of an await on a call, with no result when time was up. -/
def answerCall (definition : Workflow) (depth : Nat) (location : Span) :
    Option Value → RunM Value
  | some result => pure result
  | none => do
      modifyScopes (·.truncate depth)
      answerTimeout definition location

theorem awaitInvocation_eq (execute : Context → Statement → RunM Unit) (context : Context)
    (definition : Workflow) (arguments : CallArguments) (called : Span) (timeout : Duration)
    (location : Span) :
    awaitInvocation execute context definition arguments called timeout location = (do
      let depth ← getDepth
      let result ← withTimeout context timeout fun inner =>
        invoke (execute inner) definition arguments called
      answerCall definition depth location result) := rfl

/-- The value of an await on the host, with no answer when time was up. -/
def answerRequest (kind reply : HostKind) (location : Span) :
    Option (Except String JsonObject) → RunM Value
  | some (.ok members) => onStore do
      let entries ← Value.ofJsonObject members
      newDictionary (.host reply) entries
  | some (.error reason) => do
      report .warn "host operation failed"
        [("request", .text kind.name), ("error", .text reason)]
      onStore (newError reason (some location))
  | none => do
      report .debug "await timed out" [("request", .text kind.name)]
      timeoutError location

theorem askHost_eq (context : Context) (kind : HostKind) (timeout : Duration) (location : Span)
    (service : Service) (delegate : Delegate) (reply : HostKind) (payload : JsonObject) :
    askHost context kind timeout location service delegate reply payload = (do
      let answer ← withTimeout context timeout (askService service delegate payload)
      answerRequest kind reply location answer) := rfl

theorem answerRequest_timeless (kind reply : HostKind) (location : Span)
    (answer : Option (Except String JsonObject)) (machine : Machine) :
    After (answerRequest kind reply location answer).run machine fun outcome final =>
      settled outcome ∧ final.now = machine.now := by
  match answer with
  | some (.ok _) => exact ⟨rfl, rfl⟩
  | some (.error _) => exact ⟨rfl, rfl⟩
  | none => exact ⟨rfl, rfl⟩

/-! ## What races -/

namespace Races

variable {own level : Nat} {α β : Type}

theorem of_timeless {action : RunM α}
    (timeless : ∀ machine, After action.run machine fun outcome final =>
      settled outcome ∧ final.now = machine.now) : Races own level action action := by
  intro machine inTime
  obtain ⟨ends, now⟩ := timeless machine
  constructor
  · exact Nat.le_trans (Nat.le_of_eq now) inTime
  · intro expired
    rw [expired] at ends
    cases ends
  · exact fun _ => rfl

theorem bind {left right : RunM α} {leftNext rightNext : α → RunM β}
    (first : Races own level left right)
    (next : ∀ value, Races own level (leftNext value) (rightNext value)) :
    Races own level (left >>= leftNext) (right >>= rightNext) := by
  intro machine inTime
  have raced := first machine inTime
  unfold After at raced ⊢
  rw [run_bind_eq, run_bind_eq]
  cases ran : left.run.run machine with
  | mk outcome middle =>
      rw [ran] at raced
      cases outcome with
      | ok value =>
          rw [raced.alike (by simp)]
          exact next value middle raced.inTime
      | error interruption =>
          refine ⟨raced.inTime, fun expired => raced.expires (by simpa using expired), ?_⟩
          intro other
          rw [raced.alike (by simpa using other)]

theorem composes (own level : Nat) : Sequences (fun {_} => Races own level) :=
  .of_plain (fun plain => of_timeless plain.timeless) fun first next => bind first next

theorem modifyScopes (change : ScopeStack → ScopeStack) :
    Races own level (RunM.modifyScopes change) (RunM.modifyScopes change) :=
  of_timeless fun _ => ⟨rfl, rfl⟩

theorem onScopesAt (location : Span) (change : ScopeStack → Except Cause ScopeStack) :
    Races own level (RunM.onScopesAt location change) (RunM.onScopesAt location change) :=
  bind (composes own level).getScopes fun _ =>
    bind ((composes own level).ofExcept _ _) fun _ => modifyScopes _

/-- Waiting ends before the deadline or is cut off there. -/
theorem wait {later : Nat} {outer : List Nat} {left right : Context} (longer : own ≤ later)
    (pair : PutsOff own later outer left right) (millis : Nat) :
    Races own outer.length (FlowScript.wait left.deadlines millis)
      (FlowScript.wait right.deadlines millis) := by
  obtain ⟨nested, deadlines, rfl⟩ := pair
  intro machine inTime
  unfold After
  rw [run_wait, run_wait, deadlines]
  cases found : firstDeadline? (machine.now + min millis longestWait)
      (nested ++ own :: outer) with
  | none =>
      rw [firstDeadline?_none_later longer found]
      exact ⟨firstDeadline?_eq_none.mp found own (by simp), nofun, fun _ => rfl⟩
  | some first =>
      obtain ⟨deadline, level⟩ := first
      have comes := firstDeadline?_comesFirst found
      constructor
      · exact comes.le (by simp)
      · intro expired
        cases expired
        exact comes.eq_own
      · intro other
        have others : level ≠ outer.length := by
          rintro rfl
          exact other rfl
        rw [(comes.put_off longer others).firstDeadline?]

theorem restoringScopes {left right : RunM α} (races : Races own level left right) :
    Races own level (FlowScript.restoringScopes left) (FlowScript.restoringScopes right) := by
  intro machine inTime
  have raced := races machine inTime
  unfold After at raced ⊢
  rw [run_restoringScopes, run_restoringScopes]
  cases ran : left.run.run machine with
  | mk outcome middle =>
      rw [ran] at raced
      cases outcome with
      | ok value =>
          rw [raced.alike (by simp)]
          exact ⟨raced.inTime, nofun, fun _ => rfl⟩
      | error interruption =>
          have now : (if interruption.isFailure then middle.leaving machine.scopes.depth
              else middle).now = middle.now := by
            split <;> rfl
          refine ⟨now ▸ raced.inTime, fun expired => now ▸ raced.expires expired, ?_⟩
          intro other
          rw [raced.alike other]

theorem runBlock {left right : Statement → RunM Unit} (kind : ScopeKind) (block : Block)
    (executes : ∀ statement, Races own level (left statement) (right statement)) :
    Races own level (FlowScript.runBlock left kind block)
      (FlowScript.runBlock right kind block) :=
  bind (restoringScopes <| bind (modifyScopes _) fun _ =>
      (composes own level).executeAll fun _ _ => executes _) fun _ =>
    of_timeless fun _ => ⟨rfl, rfl⟩

theorem invoke {left right : Statement → RunM Unit} (definition : Workflow)
    (arguments : CallArguments) (called : Span)
    (executes : ∀ statement, Races own level (left statement) (right statement)) :
    Races own level (FlowScript.invoke left definition arguments called)
      (FlowScript.invoke right definition arguments called) := by
  have composes := composes own level
  have body : Races own level (callBody left definition arguments called)
      (callBody right definition arguments called) :=
    bind (composes.bindParameters (fun _ _ _ => onScopesAt _ _) definition arguments called)
      fun _ => bind (composes.executeAll fun _ _ => executes _) fun _ =>
        bind composes.getScopes fun _ => composes.checkResult _ _ _
  exact bind (composes.report _ _ _) fun _ =>
    bind (of_timeless fun _ => ⟨rfl, rfl⟩) fun depth =>
      bind (restoringScopes (bind (modifyScopes _) fun _ => body)) fun value =>
        bind (modifyScopes _) fun _ => composes.pure value

/-- A deadline inside the await is not the one that is put off. -/
theorem withTimeout {later : Nat} {outer : List Nat} {left right : Context}
    {leftAction rightAction : Context → RunM α} (timeout : Duration)
    (actions : ∀ {left right : Context}, PutsOff own later outer left right →
      Races own outer.length (leftAction left) (rightAction right))
    (pair : PutsOff own later outer left right) :
    Races own outer.length (FlowScript.withTimeout left timeout leftAction)
      (FlowScript.withTimeout right timeout rightAction) := by
  intro machine inTime
  have raced := actions (pair.awaiting machine.now timeout) machine inTime
  unfold After at raced ⊢
  rw [run_withTimeout, run_withTimeout, pair.length_eq]
  cases ran : (leftAction (left.awaiting machine.now timeout)).run.run machine with
  | mk outcome middle =>
      rw [ran] at raced
      cases outcome with
      | ok value =>
          rw [raced.alike (by simp)]
          exact ⟨raced.inTime, nofun, fun _ => rfl⟩
      | error interruption =>
          by_cases inner : interruption = .expired left.deadlines.length
          · have inside := pair.outer_lt
            rw [raced.alike (by simp [inner]; omega)]
            simp only [if_pos inner]
            exact ⟨raced.inTime, nofun, fun _ => rfl⟩
          · simp only [if_neg inner]
            refine ⟨raced.inTime, fun expired => raced.expires (by simpa using expired), ?_⟩
            intro other
            rw [raced.alike (by simpa using other)]
            simp only [if_neg inner]

theorem awaitInvocation {later : Nat} {outer : List Nat} {left right : Context}
    {leftExecute rightExecute : Context → Statement → RunM Unit} (definition : Workflow)
    (arguments : CallArguments) (called : Span) (timeout : Duration) (location : Span)
    (executes : ∀ {left right : Context}, PutsOff own later outer left right →
      ∀ statement, Races own outer.length (leftExecute left statement)
        (rightExecute right statement))
    (pair : PutsOff own later outer left right) :
    Races own outer.length
      (FlowScript.awaitInvocation leftExecute left definition arguments called timeout location)
      (FlowScript.awaitInvocation rightExecute right definition arguments called timeout
        location) := by
  refine bind (of_timeless fun _ => ⟨rfl, rfl⟩) fun depth => bind
    (withTimeout timeout (fun pair => invoke definition arguments called (executes pair)) pair)
    fun result => of_timeless fun machine => ?_
  cases result <;> exact ⟨rfl, rfl⟩

theorem askService {later : Nat} {outer : List Nat} {left right : Context} (longer : own ≤ later)
    (pair : PutsOff own later outer left right) (service : Service) (delegate : Delegate)
    (payload : JsonObject) :
    Races own outer.length (FlowScript.askService service delegate payload left)
      (FlowScript.askService service delegate payload right) := by
  unfold FlowScript.askService
  rw [pair.host_eq]
  exact bind (of_timeless fun _ => ⟨rfl, rfl⟩) fun _ =>
    bind (of_timeless fun _ => ⟨rfl, rfl⟩) fun _ =>
      bind (of_timeless fun _ => ⟨rfl, rfl⟩) fun _ =>
        bind (wait longer pair _) fun _ => of_timeless fun _ => ⟨rfl, rfl⟩

theorem awaitHost {later : Nat} {outer : List Nat} {left right : Context} (longer : own ≤ later)
    (pair : PutsOff own later outer left right) (kind : HostKind) (request : Value)
    (timeout : Duration) (location : Span) :
    Races own outer.length (FlowScript.awaitHost left kind request timeout location)
      (FlowScript.awaitHost right kind request timeout location) := by
  have composes := composes own outer.length
  rw [awaitHost_eq, awaitHost_eq, pair.host_eq]
  split
  · exact composes.fail _ _
  · refine bind composes.getStore fun _ => bind (composes.report _ _ _) fun _ => ?_
    rw [askHost_eq, askHost_eq]
    exact bind (withTimeout timeout (fun pair => askService longer pair _ _ _) pair)
      fun result => of_timeless (answerRequest_timeless _ _ _ result)

theorem lockstep {later : Nat} (longer : own ≤ later) (outer : List Nat) :
    Lockstep (PutsOff own later outer) (fun {_} => Races own outer.length) where
  toComposes := (composes own outer.length).toComposes
  deadlines pair := by
    obtain ⟨nested, -, same⟩ := pair
    exact ⟨_, same⟩
  exhausted := by
    intro α machine inTime
    exact ⟨inTime, nofun, fun _ => rfl⟩
  setReturn _ := modifyScopes _
  breaks := modifyScopes _
  declare _ _ _ := onScopesAt _ _
  assignVariable name source span :=
    bind ((composes _ _).resolve _ _) fun _ =>
      bind ((composes _ _).onStoreAt _ (.assign _ _)) fun _ => onScopesAt _ _
  wait millis pair := wait longer pair millis
  runBlock kind block executes := runBlock kind block executes
  awaitInvocation definition arguments called timeout location executes pair :=
    awaitInvocation definition arguments called timeout location executes pair
  awaitHost kind request timeout location pair :=
    awaitHost longer pair kind request timeout location

end Races

/-! ## The await -/

theorem RunM.Returns.after_bind {α β : Type} {first : RunM α} {next : α → RunM β}
    {machine middle : Machine} {value : α} {post : Except Interruption β → Machine → Prop}
    (returns : first.Returns machine value middle) :
    After (first >>= next).run machine post ↔ After (next value).run middle post := by
  unfold After
  rw [returns.run_bind]

theorem run_ignore_eq_error {α : Type} {action : RunM α} {machine : Machine}
    {interruption : Interruption} :
    ((do let _ ← action : RunM Unit).run.run machine).1 = .error interruption ↔
      (action.run.run machine).1 = .error interruption := by
  rw [run_bind_eq]
  cases action.run.run machine with
  | mk outcome final =>
      cases outcome with
      | ok value =>
        constructor
        · intro impossible
          cases impossible
        · intro impossible
          cases impossible
      | error interruption => simp

/-- What an await waits for: a call, or the answer of a service. -/
def awaitedOperation (depth : Nat) (context : Context) (awaited : Value) (location : Span) :
    RunM Unit :=
  match awaited with
  | .invocation _ definition arguments called => do
      let _ ← invoke (execute depth context) definition arguments called
  | .workflow definition => do
      let _ ← invoke (execute depth context) definition (.empty location) location
  | .stored (.host kind) _ =>
      match (do
        let service ← kind.service?
        let delegate ← context.host.delegate? service
        let reply ← kind.reply?
        pure (service, delegate, reply)) with
      | none => pure ()
      | some (service, delegate, _) => do
          let store ← getStore
          report .debug "await host operation" [("request", .text kind.name)]
          let _ ← askService service delegate ((awaited.toJsonObject? store).getD []) context
  | _ => pure ()

/-- The deadline of the await itself ends what it waits for. -/
def TimerFires (depth : Nat) (context : Context) (awaited : Value) (timeout : Duration)
    (location : Span) (ready : Machine) : Prop :=
  ((awaitedOperation depth (context.awaiting ready.now timeout) awaited location).run.run
    ready).1 = .error (.expired context.deadlines.length)

/-- How a race ends: before the deadline, or just then if its timer fires, with an error
for its value. If the timer does not fire, another run ends alike. -/
structure RaceEnds (deadline : Nat) (fires : Prop) (location : Span)
    (other : Except Interruption Value × Machine) (outcome : Except Interruption Value)
    (final : Machine) : Prop where
  inTime : final.now ≤ deadline
  fired : fires → final.now = deadline ∧
    ∃ tag, outcome = .ok (.error tag "Operation timeout" (some location))
  alike : ¬fires → other = (outcome, final)

section

variable {α : Type} {context : Context} {action : Context → RunM α}
  {finish : Option α → RunM Value} {timeout longer : Duration} {location : Span}

/-- An action races the deadline of its timeout. What is made of its result takes no
time. -/
theorem withTimeout_race (more : timeout.millis ≤ longer.millis)
    (races : ∀ {own later : Nat} {outer : List Nat} {left right : Context}, own ≤ later →
      PutsOff own later outer left right → Races own outer.length (action left) (action right))
    (timeless : ∀ result machine, After (finish result).run machine fun _ final =>
      final.now = machine.now)
    (lost : ∀ machine, After (finish none).run machine fun outcome _ =>
      ∃ tag, outcome = .ok (.error tag "Operation timeout" (some location)))
    (machine : Machine) :
    After (withTimeout context timeout action >>= finish).run machine
      (RaceEnds (machine.now + max timeout.millis shortestTimeout)
        (((action (context.awaiting machine.now timeout)).run.run machine).1 =
          .error (.expired context.deadlines.length)) location
        ((withTimeout context longer action >>= finish).run.run machine)) := by
  have pair : PutsOff (machine.now + max timeout.millis shortestTimeout)
      (machine.now + max longer.millis shortestTimeout) context.deadlines
      (context.awaiting machine.now timeout) (context.awaiting machine.now longer) :=
    ⟨[], rfl, rfl⟩
  have raced := races (by omega) pair machine (by omega)
  unfold After at raced ⊢
  rw [run_bind_eq, run_bind_eq, run_withTimeout, run_withTimeout]
  cases ran : (action (context.awaiting machine.now timeout)).run.run machine with
  | mk outcome middle =>
      rw [ran] at raced
      cases outcome with
      | ok value =>
          rw [raced.alike (by simp)]
          exact ⟨Nat.le_trans (Nat.le_of_eq (timeless (some value) middle)) raced.inTime, nofun,
            fun _ => rfl⟩
      | error interruption =>
          by_cases fires : interruption = .expired context.deadlines.length
          · have now := (timeless none middle).trans (raced.expires (by rw [fires]))
            simp only [if_pos fires]
            exact ⟨Nat.le_of_eq now, fun _ => ⟨now, lost middle⟩,
              fun other => absurd (by rw [fires]) other⟩
          · rw [raced.alike (by simpa using fires)]
            simp only [if_neg fires]
            exact ⟨raced.inTime, fun expired => absurd (Except.error.inj expired) fires,
              fun _ => rfl⟩

end

section

variable {timeout longer : Duration} (more : timeout.millis ≤ longer.millis)
  (depth : Nat) (context : Context) (location : Span) (ready : Machine)

include more

theorem awaitInvocation_race (definition : Workflow) (arguments : CallArguments) (called : Span) :
    After (awaitInvocation (execute depth) context definition arguments called timeout
        location).run ready
      (RaceEnds (ready.now + max timeout.millis shortestTimeout)
        (((invoke (execute depth (context.awaiting ready.now timeout)) definition arguments
          called).run.run ready).1 = .error (.expired context.deadlines.length)) location
        ((awaitInvocation (execute depth) context definition arguments called longer
          location).run.run ready)) := by
  have reads : getDepth.Returns ready ready.scopes.depth ready := rfl
  rw [awaitInvocation_eq, awaitInvocation_eq, reads.after_bind, reads.run_bind]
  refine withTimeout_race more (fun longer pair => ?_) (fun result machine => ?_)
    (fun machine => ?_) ready
  · exact .invoke definition arguments called
      ((Races.lockstep longer _).evaluation depth pair).2
  · cases result <;> rfl
  · exact ⟨_, rfl⟩

theorem awaitHost_race (kind : HostKind) (address : Nat) :
    After (awaitHost context kind (.stored (.host kind) address) timeout location).run ready
      (RaceEnds (ready.now + max timeout.millis shortestTimeout)
        (TimerFires depth context (.stored (.host kind) address) timeout location ready) location
        ((awaitHost context kind (.stored (.host kind) address) longer location).run.run
          ready)) := by
  unfold TimerFires awaitedOperation
  rw [awaitHost_eq, awaitHost_eq]
  split
  · next missing =>
      simp only [Context.awaiting, missing]
      refine ⟨Nat.le_add_right _ _, fun fires => ?_, fun _ => rfl⟩
      cases (show Except.ok () = _ from fires)
  · next service delegate reply found =>
      let event : LogEvent := ⟨.debug, "await host operation", [("request", .text kind.name)]⟩
      let asking := { ready with logs := ready.logs.push event }
      have reads : getStore.Returns ready ready.store ready := rfl
      have reports : (report .debug "await host operation"
        [("request", .text kind.name)]).Returns ready () asking := rfl
      simp only [Context.awaiting, found]
      rw [reads.run_bind, reports.run_bind, run_ignore_eq_error, reads.run_bind,
        reports.run_bind, reads.after_bind, reports.after_bind, askHost_eq, askHost_eq]
      refine withTimeout_race more (fun longer pair => ?_) (fun answer machine => ?_)
        (fun machine => ?_) asking
      · exact .askService longer pair service delegate _
      · exact (answerRequest_timeless kind reply location answer machine).2
      · exact ⟨_, rfl⟩

omit more in
theorem raceEnds_fail {fires : Prop} (cause : Cause) (place : Span) (never : ¬fires) :
    After (fail cause place : RunM Value).run ready
      (RaceEnds (ready.now + max timeout.millis shortestTimeout) fires location
        ((fail cause place : RunM Value).run.run ready)) :=
  ⟨Nat.le_add_right _ _, fun fires => absurd fires never, fun _ => rfl⟩

theorem awaitValue_race (awaited : Value) (operand : Expr) :
    After (awaitValue (execute depth) context awaited operand timeout location).run ready
      (RaceEnds (ready.now + max timeout.millis shortestTimeout)
        (TimerFires depth context awaited timeout location ready) location
        ((awaitValue (execute depth) context awaited operand longer location).run.run
          ready)) := by
  have idle : ((pure () : RunM Unit).run.run ready).1 ≠ .error (.expired context.deadlines.length) :=
    fun fires => by cases (show Except.ok () = _ from fires)
  cases awaited with
  | invocation tag definition arguments called =>
      unfold TimerFires awaitedOperation
      rw [run_ignore_eq_error]
      exact awaitInvocation_race more depth context location ready definition arguments called
  | workflow definition =>
      unfold TimerFires awaitedOperation
      rw [run_ignore_eq_error]
      exact awaitInvocation_race more depth context location ready definition _ location
  | stored kind address =>
      cases kind with
      | host kind =>
          unfold awaitValue
          dsimp only
          split
          · exact awaitHost_race more depth context location ready kind address
          · next unanswered =>
              refine raceEnds_fail _ _ _ _ ?_
              intro fires
              cases kind <;> first | exact absurd rfl unanswered | exact idle fires
      | _ => exact raceEnds_fail _ _ _ _ idle
  | void | error | member | builtin => exact raceEnds_fail _ _ _ _ idle

end

/-- An await whose operand and duration are evaluated ends no later than its timeout
allows, and exactly then if its own timer fires; its value is then an error located at
the await. If its timer does not fire, any longer timeout gives the same result, the
same state, logs and requests, at the same time. -/
theorem await_races_own_timer (depth : Nat) (context : Context) (machine ready : Machine)
    (operand duration : Expr) (span : Span) (awaited : Value) (timeout : Duration)
    (evaluated : (evaluateAwait depth context operand duration).Returns machine
      (awaited, timeout) ready) :
    After (evaluate (depth + 1) context (.await operand duration span)).run machine
      fun outcome final =>
        final.now ≤ ready.now + max timeout.millis shortestTimeout ∧
        (TimerFires depth context awaited timeout span ready →
          final.now = ready.now + max timeout.millis shortestTimeout ∧
          ∃ tag, outcome = .ok (.error tag "Operation timeout" (some span))) ∧
        (¬TimerFires depth context awaited timeout span ready →
          ∀ longer : Duration, timeout.millis ≤ longer.millis →
            (awaitValue (execute depth) context awaited operand longer span).run.run ready =
              (outcome, final)) := by
  rw [evaluate_await, evaluated.after_bind]
  have ends := awaitValue_race (Nat.le_refl timeout.millis) depth context span ready awaited operand
  exact ⟨ends.inTime, ends.fired, fun quiet longer more =>
    (awaitValue_race more depth context span ready awaited operand).alike quiet⟩

def pausingWorkflow : Workflow :=
  ⟨⟨"pause", .origin⟩, none, ⟨[.delay (.literal (.duration ⟨10, .ms⟩) .origin) .origin], .origin⟩,
    .origin⟩

/-- Inside two other awaits. -/
def pausingContext : Context :=
  ⟨⟨"", [], ⟨[], .origin⟩⟩, Host.none, 10, ⟨0, 0⟩, [100, 40]⟩

def pausingMachine : Machine :=
  let known : Dictionary Value := .ofList [("pause", .workflow pausingWorkflow)]
  let current : Scope := { Scope.fresh .function 0 with bindings := known }
  ⟨⟨current, [], #[none]⟩, Store.empty, 3, #[], #[]⟩

def pausingOperand : Expr := .path ⟨⟨"pause", .origin⟩, [], .origin⟩

def pausingLimit (limit : UInt64) : Expr := .literal (.duration ⟨limit, .ms⟩) .origin

def pausingReady (limit : UInt64) : Machine :=
  ((evaluateAwait 10 pausingContext pausingOperand (pausingLimit limit)).run.run
    pausingMachine).2

def pausingAwait (limit : UInt64) : Except Interruption Value × Machine :=
  (evaluate 11 pausingContext (.await pausingOperand (pausingLimit limit) .origin)).run.run
    pausingMachine

/-- Five milliseconds are too short for the pause of ten, and ten are enough. -/
theorem pausing_races_own_timer :
    (pausingAwait 5).2.now = 8 ∧
    (∃ tag, (pausingAwait 5).1 = .ok (.error tag "Operation timeout" (some .origin))) ∧
    (awaitValue (execute 10) pausingContext (.workflow pausingWorkflow) pausingOperand ⟨1, .day⟩
      .origin).run.run (pausingReady 10) = pausingAwait 10 := by
  have short := await_races_own_timer 10 pausingContext pausingMachine (pausingReady 5)
    pausingOperand (pausingLimit 5) .origin (.workflow pausingWorkflow) ⟨5, .ms⟩ rfl
  have long := await_races_own_timer 10 pausingContext pausingMachine (pausingReady 10)
    pausingOperand (pausingLimit 10) .origin (.workflow pausingWorkflow) ⟨10, .ms⟩ rfl
  have fires : TimerFires 10 pausingContext (.workflow pausingWorkflow) ⟨5, .ms⟩ .origin
      (pausingReady 5) := by
    unfold TimerFires
    decide +kernel
  have quiet : ¬TimerFires 10 pausingContext (.workflow pausingWorkflow) ⟨10, .ms⟩ .origin
      (pausingReady 10) := by
    unfold TimerFires
    decide +kernel
  obtain ⟨now, timedOut⟩ := short.2.1 fires
  exact ⟨now, timedOut, long.2.2 quiet ⟨1, .day⟩ (by decide)⟩

end FlowScript
