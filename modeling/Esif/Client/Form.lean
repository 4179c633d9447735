import Esif.CS.Lines
import Esif.Posix.Net

/-!
# Form files

What the client reads of a form file and what it writes back: the lines `fgets`
returns, the header with its `sent` flag, the `PHOTO` line.

## Main definitions

* `fgets` — the next line of a file
* `scanHeader`, `scanPhoto` — the two `sscanf`s over a line
* `markSent` — the file after the flag is set
-/

namespace Esif.Client

open Esif.CS Esif.Posix

/-- The number of entries for subjects. -/
def NUM_TOTAL_SUB : ℕ := 17

/-- `':'` -/
def colon : UInt8 := 58

/-- `fgets(buffer, MAXLINE, fp)`: what it reads and what is left of the file. -/
def fgets (text : Bytes) : Bytes × Bytes :=
  let line := Lines.piece isNewline (MAXLINE - 1) text
  (line, text.drop line.length)

/-- Why an `sscanf` stops: the input does not match, or a field has overrun its
array. -/
inductive ScanError where
  | mismatch
  | overrun
  deriving DecidableEq, Repr

/-- `%[^:]` into an array of `size` bytes. -/
def scanField (size : ℕ) (s : Bytes) : Except ScanError (Bytes × Bytes) :=
  let field := s.takeWhile (· != colon)
  -- a conversion needs one byte; it has no width
  if field = [] then .error .mismatch
  else if size ≤ field.length then .error .overrun
  else .ok (field, s.drop field.length)

/-- `%d` -/
def scanNumber (s : Bytes) : Except ScanError (ℤ × Bytes) :=
  match scanInt s with
  | some r => .ok r
  | none => .error .mismatch

/-- A colon of the format. -/
def scanColon : Bytes → Except ScanError Bytes
  | [] => .error .mismatch
  | b :: s => if b = colon then .ok s else .error .mismatch

/-- The first line of a form without the name of the student. -/
structure Header where
  gen : Bytes
  roll : ℤ
  sec : Bytes
  tot : ℤ
  group : Bytes
  sent : ℤ
  deriving DecidableEq, Repr

/-- `sscanf(buffer, "%[^:]:%d:%[^:]:%d:%[^:]:%d", …)`, and what is left. -/
def scanHeader (s : Bytes) : Except ScanError (Header × Bytes) := do
  let (gen, s) ← scanField 7 s
  let s ← scanColon s
  let (roll, s) ← scanNumber s
  let s ← scanColon s
  let (sec, s) ← scanField 2 s
  let s ← scanColon s
  let (tot, s) ← scanNumber s
  let s ← scanColon s
  let (group, s) ← scanField 20 s
  let s ← scanColon s
  let (sent, s) ← scanNumber s
  return (⟨gen, roll, sec, tot, group, sent⟩, s)

/-- The last two conversions of the longer format, `":%[^\r\n]"`. -/
def scanName (s : Bytes) : Except ScanError Bytes := do
  let s ← scanColon s
  if scanLine s = [] then .error .mismatch
  else if 41 ≤ (scanLine s).length then .error .overrun
  else return scanLine s

/-- `"%s:%04d:%s:%04d:%s:%d:%s\n"` -/
def Header.print (h : Header) (name : Bytes) : Bytes :=
  h.gen ++ [colon] ++ printInt04 h.roll ++ [colon] ++ h.sec ++ [colon] ++ printInt04 h.tot ++
    [colon] ++ h.group ++ [colon] ++ printInt h.sent ++ [colon] ++ name ++ [newline]

/-- A file after `bs` was written over its start. -/
def writeOver (content bs : Bytes) : Bytes := bs ++ content.drop bs.length

/-- The file after its header was written again with the flag set. When the
header does not match, the variables printed hold whatever they held: `garbage`
is printed. -/
def markSent (content garbage : Bytes) : Except ScanError Bytes :=
  let scan : Except ScanError (Header × Bytes) := do
    let (h, s) ← scanHeader (cstr (fgets content).1)
    let name ← scanName s
    return (h, name)
  match scan with
  | .ok (h, name) => .ok (writeOver content ({ h with sent := 1 }.print name))
  -- the return value of `sscanf` is not looked at
  | .error .mismatch => .ok (writeOver content garbage)
  | .error .overrun => .error .overrun

/-- `sscanf(buffer, "PHOTO %[^\r\n]", photo)`, for a line that begins with the word:
without a name the old one stays. -/
def scanPhoto (line photo : Bytes) : Bytes :=
  if strncmp line (ascii "PHOTO ") then
    let name := scanLine ((line.drop 6).dropWhile isspace)
    if name = [] then photo else name
  else photo

/-- `strrchr(filename, '/') + 1`, when there is a slash. -/
def basename (path : Bytes) : Option Bytes :=
  if slash ∈ path then some (path.reverse.takeWhile (· != slash)).reverse else none

end Esif.Client
