import Mathlib.Logic.Function.Basic
import Esif.CS.Machine
import Esif.Client.Form
import Esif.Client.Authenticate

/-!
# Sending forms

`apply_forms` with `apply_form` and `send_photo`, from behind the login to the
end of the connection: a place for every call to the outside, and for the one
where the events of the user interface are handled. A write outside an array or
through a null pointer stops the model in the place `fault`. The messages to the
user are left out.

## Main definitions

* `Sent` — what a step writes to the connection
* `ApplyPlace`, `Apply` — where the client is, and its variables
* `applyForms` — one step
-/

namespace Esif.Client

open Esif.CS Esif.Posix

def MINFILENAMELEN : ℕ := 15

def MAXFILENAMELEN : ℕ := 25

def FILENAMELEN : ℕ := 19

/-- The size of the array replies are read into. -/
def RBUFSIZE : ℕ := 20

/-- The size of the array photos are read into. -/
def ERRORMSGSIZE : ℕ := 600

/-- What a step writes to the connection: a command line, at its position in the
stream, or other bytes. -/
inductive Sent where
  | command (start : ℕ) (line : Bytes)
  | data (bs : Bytes)
  deriving DecidableEq, Repr

def Sent.bytes : Sent → Bytes
  | .command _ line => line
  | .data bs => bs

/-- Where the client is: at the head of the loop over the directory; with a
`FILENAME` line sent; at the head of the loop over the lines of a form; waiting
for the reply to the form, to `BINARY` and to the photo. -/
inductive ApplyPlace where
  | start
  | next
  | named (path : Bytes)
  | body (path content photo : Bytes)
  | reply (path photo : Bytes)
  | photo (path : Bytes)
  | photoReply (data : Bytes)
  | payload (data : Bytes)
  | photoResult
  | quit
  | closed
  | fault
  deriving DecidableEq, Repr

/-- The variables of the three functions and the files they work on. `names` are
the entries of the directory that `readdir` has still to return; `pos` counts
the bytes written, which the program does not. -/
structure Apply where
  place : ApplyPlace
  wire : Wire
  pos : ℕ
  cancelled : Bool
  names : List Bytes
  disk : Bytes → Option Bytes
  buffer : Bytes
  sent : ℤ

/-- What is fixed during a submission. -/
structure Options where
  infodirname : Bytes
  ignorePhoto : Bool

namespace Apply

/-- The bytes arrive at the client; `closed` is set when the server has closed its
end. -/
def receive (bs : Bytes) (closed : Bool) (a : Apply) : Apply :=
  { a with wire := a.wire.receive bs closed }

/-- Go to another place, having sent nothing. -/
def goto (a : Apply) (place : ApplyPlace) : Apply × List Sent := ({ a with place := place }, [])

/-- Write an array; go on in `written` when all of it was written. -/
def send (a : Apply) (bs : Bytes) (label : Bytes → Sent) (writes : List Outcome)
    (written failed : ApplyPlace) : Option (Apply × List Sent) :=
  (a.wire.writen bs writes).map fun (full, sent, wire) =>
    ({ a with
        wire := wire, pos := a.pos + sent.length, place := if full then written else failed },
      [label sent])

/-- `fopen` or `open` of a file to read. -/
def openFile (a : Apply) (path : Bytes) (t : Turn) : Option Bytes :=
  if t.ok then a.disk path else none

/-- Not the name of a form. -/
def skipped (name : Bytes) : Bool :=
  name.head? == some 46 || name.length < MINFILENAMELEN || MAXFILENAMELEN < name.length ||
    name.drop (name.length - 4) != ascii ".txt"

/-- The `FILENAME` line of a form. -/
def filenameLine (name : Bytes) : Bytes := ascii "FILENAME " ++ name ++ [newline]

/-- One entry of the directory: its header is looked at, and when it is not sent
the form is announced. -/
def nextFile (opts : Options) (a : Apply) (t : Turn) : Option (Apply × List Sent) :=
  match a.names with
  | [] => some (a.goto .quit)
  | name :: names =>
    let a := { a with names := names }
    if skipped name then some (a, [])
    else match a.openFile (opts.infodirname ++ name) t with
      | none => some (a, [])
      | some content =>
        -- `fgets` leaves the array alone at the end of the file
        let buffer := if content = [] then a.buffer else cstr (fgets content).1
        match scanHeader buffer with
        -- `%[^:]` has no width
        | .error .overrun => some (a.goto .fault)
        | scan =>
          let sent := match scan with
            | .ok (h, _) => h.sent
            -- a scan that stops early leaves the flag of the file before
            | .error _ => a.sent
          let a := { a with buffer := buffer, sent := sent }
          if sent ≠ 0 then some (a, [])
          else
            -- the line is built in the array the header was read into
            { a with buffer := filenameLine name }.send (filenameLine name) (.command a.pos)
              t.writes (.named (opts.infodirname ++ name)) .closed

/-- Behind the `FILENAME` line: the events of the user interface are handled, and
`apply_form` opens the file. -/
def openForm (a : Apply) (path : Bytes) (t : Turn) : Apply × List Sent :=
  -- `goto write_quit`: the form stays announced
  if a.cancelled then a.goto .quit
  else
    let a := { a with cancelled := t.cancel }
    match a.openFile path t with
    -- `apply_form` returns without a line, and the loop goes on
    | none => a.goto .next
    | some content => a.goto (.body path content [])

/-- The end of `apply_form`: whether there is a photo to send. -/
def afterForm (opts : Options) (a : Apply) (photo : Bytes) : Apply × List Sent :=
  if opts.ignorePhoto || photo.length < FILENAMELEN then a.goto .next else a.goto (.photo photo)

/-- One turn of the loop over the lines of a form, or the dot behind them. -/
def sendLine (opts : Options) (a : Apply) (path content photo : Bytes) (t : Turn) :
    Option (Apply × List Sent) :=
  if content = [] then a.send (ascii ".\n") .data t.writes (.reply path photo) .next
  -- `goto finalize`: the dot is not sent, the photo may be
  else if a.cancelled then some (a.afterForm opts photo)
  else
    let (line, rest) := fgets content
    let photo := scanPhoto (cstr line) photo
    a.send (cstr line) .data t.writes (.body path rest photo) .next

/-- The flag is set in the file. -/
def mark (a : Apply) (path : Bytes) (t : Turn) : Except ScanError Apply :=
  match a.openFile path t with
  | none => .ok a
  | some content => do
    let content ← markSent content t.garbage
    return { a with disk := Function.update a.disk path (some content) }

/-- The reply to a form is read. -/
def readFormReply (opts : Options) (a : Apply) (path photo : Bytes) (t : Turn) :
    Option (Apply × List Sent) := do
  let (ret, line, wire) ← a.wire.readline RBUFSIZE t.reads
  let a := { a with wire := wire }
  -- nothing after the form is tried, not even its photo
  if ret ≠ 4 then some (a.goto .next)
  else if strncmp line (ascii "500\n") then
    -- the only place where `err` is 0
    match a.mark path t with
    | .error _ => some (a.goto .fault)
    | .ok a => some (a.afterForm opts photo)
  else some (a.afterForm opts photo)

/-- The `BINARY` line of a photo. -/
def binaryLine (size : ℕ) (base : Bytes) : Bytes :=
  ascii "BINARY " ++ printInt (toInt32 size) ++ ascii " " ++ base ++ [newline]

/-- `send_photo` up to its command line. -/
def openPhoto (a : Apply) (path : Bytes) (t : Turn) : Option (Apply × List Sent) :=
  match a.openFile path t with
  | none => some (a.goto .next)
  | some data =>
    match basename path with
    | none => some (a.goto .fault)
    | some base =>
      a.send (binaryLine data.length base) (.command a.pos) t.writes (.photoReply data) .next

/-- The reply to `BINARY` is read. -/
def readPhotoReply (a : Apply) (data : Bytes) (t : Turn) : Option (Apply × List Sent) := do
  let (ret, line, wire) ← a.wire.readline RBUFSIZE t.reads
  let a := { a with wire := wire }
  if ret < 4 then some (a.goto .next)
  else if Authenticate.errval line = SUCCESS then some (a.goto (.payload data))
  else some (a.goto .next)

/-- One turn of the loop over the blocks of a photo: one `write`, which is not
repeated when it writes less. -/
def sendBlock (a : Apply) (data : Bytes) (t : Turn) : Option (Apply × List Sent) :=
  if data = [] then some (a.goto .photoResult)
  else match t.writes with
    | [] => none
    | .fails e :: _ =>
      some ({ a with wire := { a.wire with errno := e } }.goto .photoResult)
    | .upTo k :: _ =>
      -- at least one byte, since `write` succeeded; the rest of the block is lost
      let sent := (data.take ERRORMSGSIZE).take (max k 1)
      some ({ a with pos := a.pos + sent.length, place := .payload (data.drop ERRORMSGSIZE) },
        [.data sent])

/-- The reply to the photo is read; nothing depends on it. -/
def readPhotoResult (a : Apply) (t : Turn) : Option (Apply × List Sent) :=
  (a.wire.readline RBUFSIZE t.reads).map fun (_, _, wire) => { a with wire := wire }.goto .next

/-- `QUIT` is sent and the connection closed. -/
def sendQuit (a : Apply) (t : Turn) : Option (Apply × List Sent) :=
  a.send (ascii "QUIT\n") .data t.writes .closed .closed

/-- One step, when it does not block. -/
def act (opts : Options) (a : Apply) (t : Turn) : Option (Apply × List Sent) :=
  match a.place with
  | .start => some (a.goto (if a.cancelled || !t.ok then .quit else .next))
  | .next => a.nextFile opts t
  | .named path => some (a.openForm path t)
  | .body path content photo => a.sendLine opts path content photo t
  | .reply path photo => a.readFormReply opts path photo t
  | .photo path => a.openPhoto path t
  | .photoReply data => a.readPhotoReply data t
  | .payload data => a.sendBlock data t
  | .photoResult => a.readPhotoResult t
  | .quit => a.sendQuit t
  | .closed => none
  | .fault => none

end Apply

/-- `apply_forms` behind the login, one step at a time. -/
def applyForms (opts : Options) : Machine Apply Turn Sent := fun a t =>
  (a.act opts t).getD (a, [])

end Esif.Client
