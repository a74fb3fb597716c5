import FlowScript.Proofs.Run.Site
import FlowScript.Proofs.Storage.Evaluation

/-!
# Reachable machines are sound

Every machine on which a run evaluates or executes something is sound, and so is
the machine it gets from that.
-/

set_option autoImplicit false

namespace FlowScript

open RunM

variable {allowed : Workflow → Prop}

theorem initialMachine_sound (instanceId : Int64) :
    (initialMachine instanceId).Sound allowed := by
  have ends : After (newScalar (.integer instanceId)) Store.empty fun value store =>
      Copied allowed Store.empty store [value] := newScalar_copied Store.sound_empty _
  unfold initialMachine
  cases made : (newScalar (.integer instanceId)).run Store.empty with
  | mk value store =>
      have copied := ends.of_run made
      have contained : List.Subperm (initialScopes value).values
          (Builtin.all.map Value.builtin ++ [value]) := by
        have entries := Dictionary.ofList_values_subperm
          ((Builtin.all.map fun function => (function.name, Value.builtin function)) ++
            [("instance_id", value)])
        rw [List.map_append, List.map_map] at entries
        rw [ScopeStack.values_eq]
        exact (List.append_nil _).symm ▸ entries
      have heldContained : List.Subperm (initialScopes value).held (addresses [value]) := by
        have bare : addresses (Builtin.all.map Value.builtin ++ [value]) = addresses [value] := rfl
        exact bare ▸ addresses_subperm contained
      refine ⟨copied.sound, ?_, fun other member => ?_, fun other member => ?_, ?_⟩
      · refine nodup_of_subperm ((List.subperm_append_right _).mpr heldContained)
          (List.nodup_append.mpr ⟨copied.loose.single, copied.sound.single, ?_⟩)
        rintro address new other isHeld rfl
        exact copied.loose.free address new isHeld
      · rcases List.mem_append.mp (contained.subset member) with builtin | own
        · obtain ⟨function, -, rfl⟩ := List.mem_map.mp builtin
          exact .builtin
        · exact copied.within other own
      · simp [initialScopes, ScopeStack.initial] at member
      · intro scope member
        cases List.mem_singleton.mp member
        exact Nat.zero_lt_one

def Work.Admitted (allowed : Workflow → Prop) : Work → Prop
  | .expression _ => True
  | .statement single => single.Admitted allowed
  | .sequence statements => StatementsAdmitted allowed statements

namespace Site

structure Sound (allowed : Workflow → Prop) (site : Site) : Prop where
  machine : site.machine.Sound allowed
  admitted : site.work.Admitted allowed

theorem Sound.final {site : Site} (closed : ClosedWorkflows allowed)
    (sound : site.Sound allowed) : site.final.Sound allowed := by
  obtain ⟨depth, context, work, machine⟩ := site
  obtain ⟨evaluates, executes⟩ := evaluation_preserves closed depth
  cases work with
  | expression expr => exact (evaluates context expr sound.machine).1.1
  | statement statement => exact (executes context statement sound.admitted sound.machine).1.1
  | sequence statements =>
      exact (executeAll_preserves (executes context) sound.machine sound.admitted).1.1

theorem Sound.evaluates {outer inner : Site} (closed : ClosedWorkflows allowed)
    (sound : outer.Sound allowed) (evaluates : outer.Evaluates inner) : inner.Sound allowed := by
  have machineSound := sound.machine
  cases evaluates with
  | @argument depth context callee before _ _ argumentsSpan _ machine after values returns =>
      have evaluates := (evaluation_preserves closed depth).1 context
      have preserves : Preserves allowed machine (do
          let _ ← resolve callee.head callee.tail
          evaluateArguments (evaluate depth context) (.empty argumentsSpan) before) machine
          fun _ _ => True := by
        refine .bind (.refl machine) (resolve_preserves machineSound _ _) ?_
        intro _ called calledSound kept _ _
        exact ((evaluateArguments_preserves evaluates calledSound (fun _ member => by cases member)
          _).imp fun _ _ _ _ => trivial).rebase kept
      exact ⟨(preserves.returned returns).1, trivial⟩
  | @element depth context _ _ _ _ _ _ _ returns =>
      have evaluates := (evaluation_preserves closed depth).1 context
      exact ⟨((evaluateElements_preserves evaluates machineSound _).returned returns).1, trivial⟩
  | @entry depth context _ _ _ _ machine _ _ returns =>
      have evaluates := (evaluation_preserves closed depth).1 context
      exact ⟨((evaluateEntries_preserves evaluates machineSound (.refl machine) .none
        _).returned returns).1, trivial⟩
  | @operand depth context first before _ _ _ machine _ _ _ returns =>
      have evaluates := (evaluation_preserves closed depth).1 context
      have preserves : Preserves allowed machine (do
          let left ← evaluate depth context first
          applyOperations (evaluate depth context) context.program left before) machine
          (InBounds allowed) := by
        refine .bind (.refl machine) (evaluates first machineSound) ?_
        intro left reached reachedSound kept _ within
        exact (applyOperations_preserves evaluates reachedSound context.program within
          _).rebase kept
      exact ⟨(preserves.returned returns).1, trivial⟩
  | @duration depth context operand _ _ _ _ _ returns =>
      have evaluates := (evaluation_preserves closed depth).1 context
      exact ⟨((evaluates operand machineSound).returned returns).1, trivial⟩
  | unary | first | awaited | attempt => exact ⟨machineSound, trivial⟩

theorem announceThen_preserves {α : Type} {machine : Machine} {context : Context}
    {statement : Statement} {action : RunM α} {result : α → Machine → Prop}
    (sound : machine.Sound allowed)
    (preserves : ∀ {after : Machine}, after.Sound allowed →
      Preserves allowed after action after result) :
    Preserves allowed machine (do
      announce context statement
      action) machine result := by
  refine .reportThen sound (.refl machine) ?_
  rintro after afterSound kept -
  exact (preserves afterSound).rebase kept

theorem Sound.starts {outer inner : Site} (closed : ClosedWorkflows allowed)
    (sound : outer.Sound allowed) (starts : outer.Starts inner) : inner.Sound allowed := by
  have machineSound := sound.machine
  cases starts with
  | declaration returns =>
      exact ⟨((announceThen_preserves machineSound fun afterSound =>
        (resolveKind_preserves afterSound _).imp fun _ _ _ _ => trivial).returned returns).1,
        trivial⟩
  | @value _ _ _ _ machine _ _ returns =>
      exact ⟨((Preserves.report machineSound (.refl machine)).returned returns).1, trivial⟩
  | @condition depth context _ branch _ before _ _ _ _ _ split returns =>
      obtain ⟨evaluates, executes⟩ := evaluation_preserves closed depth
      have admitted : ∀ branch ∈ before, StatementsAdmitted allowed branch.body.statements :=
        fun branch member => Statement.Admitted.branch_body sound.admitted
          (split ▸ List.mem_append_left _ member)
      exact ⟨((announceThen_preserves machineSound fun afterSound =>
        runBranches_preserves (executes context) (evaluates context) afterSound
          admitted).returned returns).1, trivial⟩

theorem Sound.runs {outer inner : Site} (closed : ClosedWorkflows allowed)
    (sound : outer.Sound allowed) (runs : outer.Runs inner) : inner.Sound allowed := by
  have machineSound := sound.machine
  have workAdmitted := sound.admitted
  cases runs with
  | first => exact ⟨machineSound, (statementsAdmitted_cons.mp workAdmitted).1⟩
  | @next depth context statement _ _ _ returns =>
      obtain ⟨first, others⟩ := statementsAdmitted_cons.mp workAdmitted
      have executes := (evaluation_preserves closed depth).2 context
      exact ⟨((executes statement first machineSound).returned returns).1, others⟩
  | @branch depth context _ branch _ before _ _ _ _ _ _ split returns holds =>
      obtain ⟨evaluates, executes⟩ := evaluation_preserves closed depth
      have admitted : ∀ other ∈ before ++ [branch],
          StatementsAdmitted allowed other.body.statements := by
        intro other member
        refine Statement.Admitted.branch_body workAdmitted ?_
        rw [split]
        simp only [List.mem_append, List.mem_cons, List.not_mem_nil, or_false] at member ⊢
        exact member.imp id .inl
      have reached := ((announceThen_preserves machineSound fun afterSound =>
        runBranches_preserves (executes context) (evaluates context) afterSound
          fun other member => admitted other (List.mem_append_left _ member)).returned returns).1
      have tested := ((testCondition_preserves (evaluates context) reached _).returned holds).1
      exact ⟨tested.narrow (ScopeStack.narrows_push _ .block),
        admitted branch (List.mem_append_right _ List.mem_cons_self)⟩
  | @otherwise depth context _ _ _ _ _ _ returns =>
      obtain ⟨evaluates, executes⟩ := evaluation_preserves closed depth
      have reached := ((announceThen_preserves machineSound fun afterSound =>
        runBranches_preserves (executes context) (evaluates context) afterSound
          fun _ member => Statement.Admitted.branch_body workAdmitted member).returned returns).1
      exact ⟨reached.narrow (ScopeStack.narrows_push _ .block),
        Statement.Admitted.otherwise_body workAdmitted⟩
  | @round depth context body _ rounds _ _ _ returns =>
      have executes := (evaluation_preserves closed depth).2 context
      have admitted := Statement.Admitted.loop_body workAdmitted
      have reached := ((announceThen_preserves machineSound fun afterSound =>
        runRounds_preserves executes afterSound admitted rounds).returned returns).1
      exact ⟨reached.narrow (ScopeStack.narrows_push _ .loop), admitted⟩

theorem evaluateAwait_preserves (closed : ClosedWorkflows allowed) {machine : Machine}
    (sound : machine.Sound allowed) (depth : Nat) (context : Context) (operand duration : Expr) :
    Preserves allowed machine (evaluateAwait depth context operand duration) machine
      fun result final => result.1.Within allowed final.size := by
  have evaluates := (evaluation_preserves closed depth).1 context
  refine .bind (.refl machine) (evaluates operand sound) ?_
  intro awaited awaitedMachine awaitedSound kept _ within
  refine .bind kept (evaluates duration awaitedSound) ?_
  intro limit limited limitedSound here limitedKept _
  refine .bind limitedKept (expectDuration_preserves limitedSound limit _) ?_
  intro time final finalSound finalHere finalKept _
  exact .pure finalSound finalKept ((within.mono here.size_le).mono finalHere.size_le)

theorem Sound.invokes {outer inner : Site} {definition : Workflow}
    (closed : ClosedWorkflows allowed) (sound : outer.Sound allowed)
    (invokes : outer.Invokes definition inner) : inner.Sound allowed := by
  have machineSound := sound.machine
  cases invokes with
  | @body depth context operand duration span called awaited timeout definition arguments
      machine ready after evaluated pending entered =>
      obtain ⟨readySound, awaitedWithin⟩ :=
        (evaluateAwait_preserves closed machineSound depth context operand duration).returned
          evaluated
      -- The workflow and its arguments come from the awaited value.
      have known : allowed definition ∧ arguments.Within allowed ready.size := by
        cases awaitedWithin with
        | invocation known argumentsWithin =>
            cases pending
            exact ⟨known, argumentsWithin⟩
        | workflow known =>
            cases pending
            exact ⟨known, fun _ member => by cases member⟩
        | _ => cases pending
      have enters : Preserves allowed ready (enterWorkflow definition arguments called) ready
          fun _ _ => True := by
        refine .reportThen readySound (.refl ready) ?_
        intro reported reportedSound reportedKept _
        refine .bindBase (.modifyScopes reportedSound reportedKept
          (ScopeStack.narrows_push _ .function)) ?_
        intro _ inside insideSound insideKept _
        exact (bindParameters_preserves insideSound definition
          (fun argument member => (known.2 argument member).mono insideKept.size_le)
          called).rebase insideKept
      exact ⟨(enters.returned entered).1, closed definition known.1⟩

theorem Sound.enters {outer inner : Site} (closed : ClosedWorkflows allowed)
    (sound : outer.Sound allowed) (enters : outer.Enters inner) : inner.Sound allowed := by
  cases enters with
  | evaluates evaluates => exact sound.evaluates closed evaluates
  | starts starts => exact sound.starts closed starts
  | runs runs => exact sound.runs closed runs
  | invokes invokes => exact sound.invokes closed invokes

end Site

namespace Run

theorem Performs.sound {run : Run} {site : Site} (closed : ClosedWorkflows allowed)
    (admitted : StatementsAdmitted allowed run.program.script.statements)
    (performed : run.Performs site) : site.Sound allowed := by
  induction performed with
  | refl => exact ⟨initialMachine_sound run.instanceId, admitted⟩
  | tail _ enters sound => exact sound.enters closed enters

theorem Reaches.sound {run : Run} {machine : Machine} (reached : run.Reaches machine) :
    machine.Sound fun _ => True := by
  obtain ⟨site, performed, position⟩ := reached
  have closed : ClosedWorkflows fun _ => True := fun _ _ _ _ _ _ => trivial
  have sound := performed.sound closed fun _ _ _ _ => trivial
  rcases position with rfl | rfl
  · exact sound.machine
  · exact sound.final closed

end Run

end FlowScript
