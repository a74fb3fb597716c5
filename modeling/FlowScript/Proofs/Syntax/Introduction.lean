import FlowScript.Ast.Basic

/-!
# Workflows that a statement introduces

The definitions a statement can bind when it runs, at any depth of its blocks.
The body of a workflow does not count: it runs later, as statements of its own.
-/

set_option autoImplicit false

namespace FlowScript

/-- Running the statement can bind the definition. -/
inductive Statement.Introduces (definition : Workflow) : Statement → Prop where
  | here : Introduces definition (.workflow definition)
  | branch {first : Conditional} {others : List Conditional} {otherwise : Option Block}
      {span : Span} {branch : Conditional} {statement : Statement} :
      branch ∈ first :: others → statement ∈ branch.body.statements →
      Introduces definition statement →
      Introduces definition (.branch first others otherwise span)
  | otherwise {first : Conditional} {others : List Conditional} {block : Block} {span : Span}
      {statement : Statement} :
      statement ∈ block.statements → Introduces definition statement →
      Introduces definition (.branch first others (some block) span)
  | loop {body : Block} {span : Span} {statement : Statement} :
      statement ∈ body.statements → Introduces definition statement →
      Introduces definition (.loop body span)

def Statement.Admitted (allowed : Workflow → Prop) (statement : Statement) : Prop :=
  ∀ definition, statement.Introduces definition → allowed definition

def StatementsAdmitted (allowed : Workflow → Prop) (statements : List Statement) : Prop :=
  ∀ statement ∈ statements, statement.Admitted allowed

/-- Allowed workflows bind allowed workflows only. -/
def ClosedWorkflows (allowed : Workflow → Prop) : Prop :=
  ∀ definition, allowed definition → StatementsAdmitted allowed definition.body.statements

variable {allowed : Workflow → Prop}

theorem statementsAdmitted_cons {statement : Statement} {rest : List Statement} :
    StatementsAdmitted allowed (statement :: rest) ↔
      statement.Admitted allowed ∧ StatementsAdmitted allowed rest :=
  List.forall_mem_cons

theorem Statement.Admitted.branch_body {first : Conditional} {others : List Conditional}
    {otherwise : Option Block} {span : Span}
    (admitted : (Statement.branch first others otherwise span).Admitted allowed)
    {branch : Conditional} (member : branch ∈ first :: others) :
    StatementsAdmitted allowed branch.body.statements :=
  fun _ inBody definition introduced => admitted definition (.branch member inBody introduced)

theorem Statement.Admitted.otherwise_body {first : Conditional} {others : List Conditional}
    {block : Block} {span : Span}
    (admitted : (Statement.branch first others (some block) span).Admitted allowed) :
    StatementsAdmitted allowed block.statements :=
  fun _ inBody definition introduced => admitted definition (.otherwise inBody introduced)

theorem Statement.Admitted.loop_body {body : Block} {span : Span}
    (admitted : (Statement.loop body span).Admitted allowed) :
    StatementsAdmitted allowed body.statements :=
  fun _ inBody definition introduced => admitted definition (.loop inBody introduced)

end FlowScript
