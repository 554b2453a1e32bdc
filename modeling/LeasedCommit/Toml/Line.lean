import LeasedCommit.Text.Reader

set_option autoImplicit false

/-! # Blanks, comments and ends of lines in TOML -/

namespace LeasedCommit.Toml

open Text

/-- Space and tab separate the parts of a line. -/
def isBlank (c : Char) : Bool := c == ' ' || c == '\t'

/-- The text after its leading blanks. -/
def skipBlanks (cs : List Char) : List Char := cs.dropWhile isBlank

/-- The characters that stand for themselves: all but control characters, and the tab. -/
def isPlain (c : Char) : Bool := c == '\t' || (32 ≤ c.toNat && c.toNat != 127)

/-- The text after a comment, if it starts with one. -/
def skipComment : List Char → List Char
  | '#' :: cs => cs.dropWhile isPlain
  | cs => cs

/-- The text after the end of a line. -/
def newline? : List Char → Option (List Char)
  | '\n' :: cs => some cs
  | '\r' :: '\n' :: cs => some cs
  | _ => none

/-- The text after the rest of a line that holds no more than blanks and a comment. The last
line needs no end. -/
def endOfLine? (cs : List Char) : Option (List Char) :=
  match skipComment (skipBlanks cs) with
  | [] => some []
  | rest => newline? rest

/-- The text after blanks, comments and line ends. The first argument says whether the text starts
inside a comment, where only a line end counts. -/
def skipGap : Bool → List Char → List Char
  | _, '\r' :: '\n' :: cs => skipGap false cs
  | true, c :: cs =>
    if c = '\n' then skipGap false cs else if isPlain c then skipGap true cs else c :: cs
  | false, c :: cs =>
    if c = '#' then skipGap true cs
    else if c = '\n' || isBlank c then skipGap false cs
    else c :: cs
  | _, [] => []

end LeasedCommit.Toml
