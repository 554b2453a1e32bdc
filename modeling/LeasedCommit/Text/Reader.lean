set_option autoImplicit false

/-! # Readers

A reader takes something off the front of a text and leaves the rest. Every reader of this
library is such a function, so a whole text is read when nothing is left. -/

namespace LeasedCommit.Text

/-- A reader takes an `α` off the front of a text, if there is one, and leaves the rest. -/
abbrev Reader (α : Type) := List Char → Option (α × List Char)

/-- The characters that satisfy `p`, at least one. -/
def some? (p : Char → Bool) : Reader (List Char) := fun cs =>
  match cs.takeWhile p with
  | [] => none
  | taken => some (taken, cs.dropWhile p)

end LeasedCommit.Text
