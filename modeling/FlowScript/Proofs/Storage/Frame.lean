import FlowScript.Proofs.Storage.Addition
import FlowScript.Proofs.Storage.Contents

/-!
# What the operations on values write

Most operations on values leave the cells that there are alone. Assignment and overwriting
may write to the target's, the functions of arrays and dictionaries to the receiver's; they
read all they need before they write, so that an operation that is refused has not written.
-/

set_option autoImplicit false

namespace FlowScript

/-! ## Operations -/

/-- An operation on values, with its operands. -/
inductive ValueOperation where
  | construct (now : Instant) (kind : Kind) (argument : Value)
  | convert (value : Value) (target : Kind)
  | render (value : Value)
  | unary (op : UnaryOperator) (operand : Value)
  | binary (op : BinaryOperator) (left right : Value)
  | equals (left right : Value)
  | property (value : Value) (name : String)
  | detach (value : Value)
  | toJson (value : Value)
  | assign (target source : Value)
  | overwrite (target source : Value)
  | callMember (function : MemberFunction) (receiver : Value) (arguments : CallArguments)

/-- What an operation answers with. -/
inductive Answer where
  | value (value : Value)
  | truth (holds : Bool)
  | text (text : String)
  | json (json : Json)
  /-- Whether the contents were overwritten. -/
  | written (done : Bool)

namespace ValueOperation

/-- Carries the operation out. -/
def perform : ValueOperation → StoreExceptM Answer
  | .construct now kind argument => do
      let result ← Value.construct now kind argument
      pure (.value result)
  | .convert value target => do
      let result ← value.convert target
      pure (.value result)
  | .render value => do
      let store ← get
      pure (.text (value.render store))
  | .unary op operand => do
      let result ← operand.unary op
      pure (.value result)
  | .binary op left right => do
      let result ← left.binary op right
      pure (.value result)
  | .equals left right => do
      let store ← get
      pure (.truth (left.equals store right))
  | .property value name => do
      let result ← value.property name
      pure (.value result)
  | .detach value => do
      let result ← value.detach
      pure (.value result)
  | .toJson value => do
      let store ← get
      pure (.json (value.toJson store))
  | .assign target source => do
      let result ← target.assign source
      pure (.value result)
  | .overwrite target source => do
      let done ← target.overwrite source
      pure (.written done)
  | .callMember function receiver arguments => do
      let result ← receiver.callMember function arguments
      pure (.value result)

/-- The value whose cell the operation may write to. -/
def written? : ValueOperation → Option Value
  | .assign target _ | .overwrite target _ => some target
  | .callMember _ receiver _ => some receiver
  | _ => none

end ValueOperation

/-- The operation failed, or did not overwrite what it was to overwrite. -/
def Refused : Except Cause Answer → Prop
  | .error _ => True
  | .ok (.written done) => done = false
  | .ok _ => False

/-- Of the cells there are at most the one of a value was written, and none if the
operation was refused. -/
structure Store.Frame (before : Store) (written? : Option Value) (refused : Prop)
    (after : Store) : Prop where
  others : ∀ address cell, before.cell? address = some cell →
    (∀ value, written? = some value → value.address? ≠ some address) →
    after.cell? address = some cell
  unchanged : refused → before.Keeps after

theorem Store.Appends.keeps {before after : Store} (appends : before.Appends after) :
    before.Keeps after :=
  fun _ _ found => appends.cell? found

namespace Store.Frame

variable {before after : Store} {written? : Option Value} {refused : Prop}

theorem of_appends (appends : before.Appends after) : before.Frame written? refused after :=
  ⟨fun address cell found _ => appends.keeps address cell found, fun _ => appends.keeps⟩

theorem of_write (appends : before.Appends after) {kind : StoredKind} {address : Nat}
    (done : ¬ refused) (cell : Cell) :
    before.Frame (some (.stored kind address)) refused (after.write address cell) := by
  refine ⟨fun other kept found differs => ?_, fun refused => absurd refused done⟩
  have apart : address ≠ other := fun same => differs _ rfl (congrArg some same)
  rw [cell?_write_other after cell apart, appends.keeps other kept found]

theorem mono {less : Prop} (frame : before.Frame written? refused after)
    (weaker : less → refused) : before.Frame written? less after :=
  ⟨frame.others, fun holds => frame.unchanged (weaker holds)⟩

theorem append {final : Store} (frame : before.Frame written? refused after)
    (appends : after.Appends final) : before.Frame written? refused final :=
  ⟨fun address cell found differs =>
      appends.keeps address cell (frame.others address cell found differs),
    fun refused => (frame.unchanged refused).trans appends.keeps⟩

end Store.Frame

/-! ## Operations that write -/

namespace Value

variable {store : Store}

theorem overwrite_frame (target source : Value) :
    After (target.overwrite source) store fun done final =>
      store.Frame (some target) (done = false) final := by
  unfold overwrite
  split
  · split
    · simp only [after_bind]
      apply (gains_detachedCell? _ store (.refl store)).imp
      intro copy middle ends
      cases copy with
      | some cell => exact .of_write ends.1 Bool.noConfusion cell
      | none => exact .of_appends ends.1
    · exact .of_appends (.refl store)
  · exact .of_appends (.refl store)
  · exact .of_appends (.refl store)

theorem assignSame_frame (target source : Value) :
    After (assignSame target source).run store fun outcome final =>
      store.Frame (some target) (Refused (outcome.map .value)) final := by
  unfold assignSame
  split
  · simp only [after_run_bind, after_run_lift]
    apply (overwrite_frame target source).imp
    intro done middle frame
    cases done with
    | true => exact frame.mono False.elim
    | false =>
        -- Nothing has been written, and the copy that takes the target's place is new.
        simp only [Bool.false_eq_true, if_false, after_run_lift]
        apply (gains_detach source middle (.refl middle)).imp
        intro copy final ends
        exact (frame.mono False.elim).append ends.1
  · exact .of_appends (.refl store)

theorem assign_frame (target source : Value) :
    After (assign target source).run store fun outcome final =>
      store.Frame (some target) (Refused (outcome.map .value)) final := by
  have same := @assignSame_frame store target source
  unfold assign
  simp only [after_run_bind, after_run_get]
  split
  · exact .of_appends (.refl store)
  · cases target with
    | stored kind address =>
        cases kind with
        | integer | real =>
            dsimp only
            split
            · exact .of_write (.refl store) id _
            · exact .of_appends (.refl store)
        | dictionary | host =>
            dsimp only
            split
            · simp only [after_run_bind, after_run_lift]
              apply (gains_detachedCell? source store (.refl store)).imp
              intro copy middle ends
              cases copy with
              | some cell => exact .of_write ends.1 id cell
              | none => exact .of_appends ends.1
            · exact .of_appends (.refl store)
        | boolean | string | duration | timePoint | array => exact same
    | void | error | member | builtin | workflow | invocation => exact same

theorem push_frame (receiver : Value) (arguments : CallArguments) :
    After (receiver.push arguments).run store fun outcome final =>
      store.Frame (some receiver) (Refused (outcome.map .value)) final := by
  simp only [push, after_run_bind, after_run_except, after_run_lift, after_run_get]
  split
  · next value _ =>
      apply (gains_detach value store (.refl store)).imp
      intro item middle ends
      split
      · exact .of_write ends.1 id _
      · exact .of_appends ends.1
  · exact .of_appends (.refl store)

theorem insert_frame (receiver : Value) (arguments : CallArguments) :
    After (receiver.insert arguments).run store fun outcome final =>
      store.Frame (some receiver) (Refused (outcome.map .value)) final := by
  simp only [insert, after_run_bind, after_run_except, after_run_get]
  split
  · split
    · exact .of_appends (.refl store)
    · simp only [after_run_bind, after_run_except, after_run_lift, after_run_get]
      split
      · next value _ =>
          apply (gains_detach value store (.refl store)).imp
          intro entry middle ends
          split
          · exact .of_write ends.1 id _
          · exact .of_appends ends.1
      · exact .of_appends (.refl store)
  · exact .of_appends (.refl store)

theorem callMember_frame (function : MemberFunction) (receiver : Value)
    (arguments : CallArguments) :
    After (receiver.callMember function arguments).run store fun outcome final =>
      store.Frame (some receiver) (Refused (outcome.map .value)) final := by
  cases function with
  | push => exact push_frame receiver arguments
  | insert => exact insert_frame receiver arguments

end Value

/-! ## All operations -/

section

variable {store : Store} {α : Type} {written? : Option Value}

theorem after_answer {action : StoreExceptM α} {answer : α → Answer}
    (frame : After action.run store fun outcome final =>
      store.Frame written? (Refused (outcome.map answer)) final) :
    After (do
      let result ← action
      pure (answer result) : StoreExceptM Answer).run store fun outcome final =>
        store.Frame written? (Refused outcome) final := by
  rw [after_run_bind]
  apply frame.imp
  intro outcome final ends
  cases outcome <;> exact ends

theorem Store.GainsAny.frame {action : StoreExceptM α}
    (gains : ∀ base : Store, base.GainsAny action) (answer : α → Answer) :
    After action.run store fun outcome final =>
      store.Frame written? (Refused (outcome.map answer)) final :=
  (gains store store (.refl store)).imp fun _ _ ends => .of_appends ends.1

end

/-- An operation leaves every cell as it is but at most the one that it may write to, and
that one too when it is refused. Operands may share cells in every way. -/
theorem operation_frame (store : Store) (operation : ValueOperation) :
    After operation.perform.run store fun outcome final =>
      store.Frame operation.written? (Refused outcome) final := by
  cases operation with
  | construct now kind argument =>
      exact after_answer (Store.GainsAny.frame (fun _ => Value.gains_construct now kind argument) _)
  | convert value target =>
      exact after_answer (Store.GainsAny.frame (fun _ => value.gains_convert target) _)
  | unary op operand =>
      exact after_answer (Store.GainsAny.frame (fun _ => Value.gains_unary op operand) _)
  | binary op left right =>
      exact after_answer (Store.GainsAny.frame (fun _ => left.gains_binary op right) _)
  | property value name =>
      exact after_answer (Store.GainsAny.frame (fun _ => value.gains_property name) _)
  | detach value =>
      exact after_answer (Store.GainsAny.frame (fun _ => .lift value.gains_detach) _)
  | render | equals | toJson => exact .of_appends (.refl store)
  | assign target source => exact after_answer (Value.assign_frame target source)
  | overwrite target source => exact after_answer (Value.overwrite_frame target source)
  | callMember function receiver arguments =>
      exact after_answer (Value.callMember_frame function receiver arguments)

end FlowScript
