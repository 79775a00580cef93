import Mathlib.Data.List.DropRight

/-! The string methods of Python that scripts rely on, over lists of characters.
Files are read in text mode: every line ending arrives as a line feed. -/

namespace SblPayload.Library

abbrev Text := List Char

namespace Text

def isspace (char : Char) : Bool :=
  let code := char.toNat
  (9 ≤ code && code ≤ 13) || (28 ≤ code && code ≤ 32) || code == 0x85 || code == 0xa0 || code == 0x1680 ||
    (0x2000 ≤ code && code ≤ 0x200a) || code == 0x2028 || code == 0x2029 || code == 0x202f ||
    code == 0x205f || code == 0x3000

def lstrip (text : Text) : Text := text.dropWhile isspace

def rstrip (text : Text) : Text := text.rdropWhile isspace

def strip (text : Text) : Text := text.lstrip.rstrip

def startswith (text first : Text) : Bool := first.isPrefixOf text

/-- `text.split(mark)[0]` for a mark of one character. -/
def before (mark : Char) (text : Text) : Text := text.takeWhile (· != mark)

/-- `text.split(mark)` for a mark of one character. -/
def split (mark : Char) : Text → List Text
  | [] => [[]]
  | char :: text =>
    if char = mark then [] :: split mark text
    else match split mark text with
      | [] => [[char]]
      | first :: rest => (char :: first) :: rest

/-- `text.split(mark, 1)` when the mark occurs: what is before its first
occurrence and what is after it. -/
def splitOnce (mark : Text) : Text → Option (Text × Text)
  | [] => if mark = [] then some ([], []) else none
  | char :: text =>
    if mark.isPrefixOf (char :: text) then some ([], (char :: text).drop mark.length)
    else (splitOnce mark text).map fun (first, rest) => (char :: first, rest)

def contains (text part : Text) : Bool := (splitOnce part text).isSome

/-- `text.replace(old, new)` for a non-empty `old`: leftmost occurrences first,
none inside another. The counter walks over an occurrence already replaced. -/
def replaceFrom (old new : Text) : Nat → Text → Text
  | _, [] => []
  | skip + 1, _ :: text => replaceFrom old new skip text
  | 0, char :: text =>
    if old.isPrefixOf (char :: text) then new ++ replaceFrom old new (old.length - 1) text
    else char :: replaceFrom old new 0 text

def replace (text old new : Text) : Text := replaceFrom old new 0 text

theorem replaceFrom_skip (old new : Text) (skip : Nat) (text : Text) :
    replaceFrom old new skip text = replace (text.drop skip) old new := by
  induction text generalizing skip with
  | nil => rw [List.drop_nil, replace, replaceFrom, replaceFrom]
  | cons char text ih =>
    cases skip with
    | zero => rfl
    | succ skip => exact ih skip

theorem replace_cons {old : Text} (new : Text) {char : Char} {text : Text} (different : ¬ old <+: char :: text) :
    replace (char :: text) old new = char :: replace text old new := by
  rw [replace, replaceFrom, if_neg (mt List.isPrefixOf_iff_prefix.mp different), replace]

theorem replace_occurrence (first : Char) (old new text : Text) :
    replace (first :: (old ++ text)) (first :: old) new = new ++ replace text (first :: old) new := by
  have here : (first :: old).isPrefixOf (first :: (old ++ text)) := List.isPrefixOf_iff_prefix.mpr (List.prefix_append _ _)
  rw [replace, replaceFrom, if_pos here, replaceFrom_skip, List.length_cons, Nat.add_sub_cancel, List.drop_left]

def lower (text : Text) : Text := text.map Char.toLower

/-- Universal newlines: a carriage return, alone or before a line feed, reads as
one line feed. -/
def universalNewlines : Text → Text
  | [] => []
  | '\r' :: '\n' :: text => '\n' :: universalNewlines text
  | '\r' :: text => '\n' :: universalNewlines text
  | char :: text => char :: universalNewlines text

def linesKept : Text → List Text
  | [] => []
  | char :: text =>
    if char = '\n' then ['\n'] :: linesKept text
    else match linesKept text with
      | [] => [[char]]
      | first :: rest => (char :: first) :: rest

def readlines (text : Text) : List Text := linesKept (universalNewlines text)

end Text

end SblPayload.Library
