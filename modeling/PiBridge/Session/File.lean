import PiBridge.Session.Entry

/-!
# `Session.File` — a session file

A record is one line of JSON. A file is taken as the text its bytes decode to, so a write that stops between the bytes of
a character leaves U+FFFD in its place (`written`): what is written next begins with a character of one byte.
-/

namespace PiBridge.Session

open Chord Lib

section Writing

variable (numbers : Numbers)

/-- A record and its newline. -/
def line (entry : Json) : Text := stringify numbers entry ++ [10]

def lines (entries : List Json) : Text := entries.flatMap (line numbers)

/-- What the first bytes of characters decode to. -/
def cut : ℕ → List Char → Text
  | _, [] => []
  | bytes, c :: cs =>
    if c.utf8Size ≤ bytes then codeUnits c ++ cut (bytes - c.utf8Size) cs
    -- The write stops before the character, or between its bytes.
    else if bytes = 0 then [] else [0xFFFD]

def byteLength (s : Text) : ℕ := ((chars s).map Char.utf8Size).sum

/-- What is left of a text by a write that fails after some bytes. -/
def written (s : Text) (bytes : ℕ) : Text := cut bytes (chars s)

end Writing

/-! ## Reading -/

/-- `\s`, which is what `trim` takes away. -/
def isWhitespace (c : UInt16) : Bool :=
  (9 ≤ c && c ≤ 13) || (0x2000 ≤ c && c ≤ 0x200A) ||
    [32, 0xA0, 0x1680, 0x2028, 0x2029, 0x202F, 0x205F, 0x3000, 0xFEFF].contains c

def trim (s : Text) : Text := ((s.dropWhile isWhitespace).reverse.dropWhile isWhitespace).reverse

/-- Whether a value counts as true. -/
def isTruthy : Json → Bool
  | .null | .bool false => false
  | .num q => decide (q ≠ 0)
  | .str s => !s.isEmpty
  | _ => true

/-- The lines that a newline ends, and what follows the last of them. -/
def splitLines : Text → List Text × Text
  | [] => ([], [])
  | c :: s =>
    if c = 10 then ([] :: (splitLines s).1, (splitLines s).2)
    else
      match (splitLines s).1 with
      | [] => ([], c :: (splitLines s).2)
      | line :: lines => ((c :: line) :: lines, (splitLines s).2)

section Reading

variable (numbers : Numbers)

def parseSessionEntryLine (line : Text) : Option Json :=
  if (trim line).isEmpty then none
  -- Skip malformed lines
  else parse numbers line

/-- What a line adds to the entries. -/
def entryOfLine (line : Text) : Option Json := (parseSessionEntryLine numbers line).filter isTruthy

/-- The loop over what is read: the entries of its lines, and the pending part of the last. -/
def readParts (pending : Text) : List Text → List Json × Text
  | [] => ([], pending)
  | part :: parts =>
    let (lines, pending) := splitLines (pending ++ part)
    let (entries, last) := readParts pending parts
    (lines.filterMap (entryOfLine numbers) ++ entries, last)

/-- The entries of a file that is read in parts, and whether a newline is added at its end. -/
def loadEntriesFromFile (parts : List Text) : List Json × Bool :=
  let (complete, pending) := readParts numbers [] parts
  match complete ++ (entryOfLine numbers pending).toList with
  | [] => ([], false)
  | header :: entries =>
    -- Validate session header before repairing the file.
    if isHeader header && (textField "id" header).isSome then (header :: entries, !pending.isEmpty) else ([], false)

end Reading

end PiBridge.Session
