import SblPayload.Library.Scan
import SblPayload.Library.PythonText

/-! The two substitutions of `gen_qstr`. Entries are put in quotes before the
preprocessor sees them and taken out of their quotes afterwards. -/

namespace SblPayload.Genhdr
open Library

def outsideParens (char : Char) : Bool := char != '(' && char != ')'

/-- `Q\([^()]+\)` -/
def qstrEntry : Pattern Char :=
  .seq (.one (· == 'Q')) (.seq (.one (· == '(')) (.seq (.many outsideParens) (.one (· == ')'))))

/-- `"(Q\([^()]+\))"` -/
def quotedEntry : Pattern Char := .seq (.one (· == '"')) (.seq qstrEntry (.one (· == '"')))

/-- The replacement `"\1"`, where the group is the whole match. -/
def quote (entry : Text) : Text := '"' :: (entry ++ ['"'])

/-- The replacement `\1`, where the group is all of the match but its quotes. -/
def unquote (matched : Text) : Text := matched.tail.dropLast

def quoteEntries (content : Text) : Text := qstrEntry.sub quote content

def unquoteEntries (content : Text) : Text := quotedEntry.sub unquote content

end SblPayload.Genhdr
