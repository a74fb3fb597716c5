/-!
# Spans

A span is the stretch of source text a node was read from: a byte range and the
line and column of both its ends. Lines and columns count from zero, and
columns count characters rather than bytes.
-/

set_option autoImplicit false

namespace FlowScript

/-- A byte range of a source text with the line and column of both ends. -/
structure Span where
  start : Nat
  stop : Nat
  startLine : Nat
  startColumn : Nat
  stopLine : Nat
  stopColumn : Nat
  deriving DecidableEq, Repr, Inhabited

namespace Span

/-- The span of a node that was read from no text at all. -/
def origin : Span := ⟨0, 0, 0, 0, 0, 0⟩

/-- The smallest span that covers both operands. Each end keeps the line and
column it came with; when both operands share an end, the first one's is kept. -/
def merge (left right : Span) : Span :=
  let opening := if left.start ≤ right.start then left else right
  let closing := if right.stop ≤ left.stop then left else right
  { start := opening.start
    stop := closing.stop
    startLine := opening.startLine
    startColumn := opening.startColumn
    stopLine := closing.stopLine
    stopColumn := closing.stopColumn }

/-- Number of bytes covered; a reversed span covers none. -/
def length (span : Span) : Nat := span.stop - span.start

def isEmpty (span : Span) : Bool := span.length == 0

@[simp] theorem merge_self (span : Span) : span.merge span = span := by
  simp [merge]

theorem start_merge (left right : Span) :
    (left.merge right).start = min left.start right.start := by
  unfold merge
  split <;> simp_all only [] <;> omega

theorem stop_merge (left right : Span) :
    (left.merge right).stop = max left.stop right.stop := by
  unfold merge
  split <;> split <;> simp_all only [] <;> omega

end Span

end FlowScript
