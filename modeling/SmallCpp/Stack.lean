/-!
# The stack

A program is read, checked and run by recursion, and one stack holds the frames of all that is in
progress. What does not fit on it is nested too deeply. Only a run may enlarge the stack.
-/

namespace SmallCpp.Stack

/-- The frames that the stack holds unless a run enlarges it. -/
def limit : Nat := 1000

/-- The frames that are taken when the reading, the check or the run of a program begins. -/
def inUse : Nat := 12

/-- The frames that are left to the reading and to the check of a program. -/
def room : Nat := limit - inUse

end SmallCpp.Stack
