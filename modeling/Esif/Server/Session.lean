import Esif.CS.Machine
import Esif.Posix.Net
import Esif.Server.Store

/-!
# One client session of the server

`manage_client` with everything it calls, as a machine: a state for every place
where it calls the outside, holding its local variables, and one step from each
place to the next. A step that would block does nothing. What the environment
decides during a step is the step's input: how the bytes arrive, which calls
fail, what time it is.

A write outside an array stops the modelled session in the phase `fault`:
nothing can be said about the program from there on.

## Main definitions

* `Password`, `Get`, `Env` — password records and what is fixed while the
  server runs
* `Phase`, `Session`, `Turn` — places, states and inputs
* `lookupUser`, `passGetdb` — the password lookup
* `manageClient` — one step
-/

namespace Esif.Server

open Esif.CS Esif.Posix

def SHA_DIGEST_LENGTH : ℕ := 20

def MAXFILENAME : ℕ := 20

def MAXINFOSIZE : ℕ := 1024

def TXTROOT3 : Bytes := ascii "var/regform/text/Rajshahi"

def BDBROOT3 : Bytes := ascii "var/regform/bdb/Rajshahi"

def SUCCESS : ℕ := 500

def E_ERROR : ℕ := 300

def E_NO_COLLEGE : ℕ := 301

def E_COLLEGE_DISABLED : ℕ := 302

def E_INVALID_PASSWORD : ℕ := 303

def E_TIME_NOSTART : ℕ := 304

def E_TIME_EXPIRED : ℕ := 305

def E_IMG_NOSUPPORT : ℕ := 310

/-- `password` -/
structure Password where
  pass : Bytes
  len : ℕ
  disabled : ℤ
  start : ℤ
  end_ : ℤ
  deriving DecidableEq, Repr

/-- A zero-filled `password`. -/
def Password.zero : Password := ⟨List.replicate SHA_DIGEST_LENGTH 0, 0, 0, 0, 0⟩

/-- What `DB->get` finds, or its return value when it finds nothing. -/
inductive Get where
  | found (data : Password)
  | failed (ret : ℤ)
  deriving DecidableEq, Repr

/-- What is fixed while the server runs: the expected magic, the password
database and the C library's calendar. -/
structure Env where
  magic : Bytes
  passdbp : Option (Bytes → Get)
  year : ℤ → ℤ
  ctime : ℤ → Bytes

/-- Where `manage_client` is: before the next read of the login, setting up, at
the head of its command loop, in `accept_binary`, at the head of the loop over
the lines of a form or behind that loop. -/
inductive Phase where
  | magic
  | user
  | pass
  | setup
  | command
  | image (imgsize : ℕ)
  | payload (nleft i offset : ℕ)
  | imageReply (ret : ℕ)
  | body
  | close
  | insert
  | reply
  | abandon (leave : Bool)
  | done
  | fault
  deriving DecidableEq, Repr

/-- The local variables of `manage_client`, with the connection, `errno`, the
line buffer of the thread and the clock. `stfile` is the text the open stream
holds back, `regbuf` the `regbufsize` bytes filled in. `checked` keeps the times of
the two looks at the clock in the window check; the program does not. -/
structure Session where
  phase : Phase
  conn : Conn
  errno : Errno
  tsd : Rline
  clock : ℤ
  buffer : Bytes
  user : Bytes
  passbuf : Password
  college : ℤ
  txtdir : Bytes
  regdb : Bytes
  filename : Bytes
  tmpname : Bytes
  regkey : Bytes
  stfile : Bytes
  regbuf : Bytes
  checked : ℤ × ℤ
  deriving DecidableEq, Repr

/-- A session at its start. What `user` and `tmpname` hold is whatever the
stack held. -/
def Session.init (stream : Bytes) (eof : Bool) (clock : ℤ) (user tmpname : Bytes) : Session where
  phase := .magic
  conn := { inq := stream, eof := eof }
  errno := .ok
  tsd := {}
  clock := clock
  buffer := List.replicate MAXLINE nul
  user := cstr user
  passbuf := .zero
  college := 0
  txtdir := []
  regdb := []
  filename := []
  tmpname := cstr tmpname
  regkey := []
  stfile := []
  regbuf := []
  checked := (0, 0)

/-- What the environment does during one step: the seconds that pass before it
and between its two looks at the clock, the outcomes of its socket calls,
whether its file or database call succeeds and how much a failing write leaves,
whether there is memory, the state of `acceptimage` and the byte behind
`buffer`. -/
structure Turn where
  elapsed : ℕ := 0
  lag : ℕ := 0
  reads : List Outcome := []
  writes : List Outcome := []
  ok : Bool := true
  kept : ℕ := 0
  memory : Bool := true
  acceptimage : Bool := false
  past : UInt8 := 0
  deriving DecidableEq, Repr

/-- The bytes of an array after `bs` were stored at its start. -/
def store (bs buffer : Bytes) : Bytes := bs ++ buffer.drop bs.length

namespace Session

/-- `readn(conn_id, buffer, n)` -/
def readn (s : Session) (n : ℕ) (reads : List Outcome) : Option (ℤ × Bytes × Session) :=
  (Posix.readn n ⟨s.conn, s.errno, reads, []⟩).map fun r =>
    (r.ret, r.got, { s with
      conn := r.net.conn, errno := r.net.errno, buffer := store r.got s.buffer })

/-- `readline(conn_id, buffer, MAXLINE)` -/
def readline (s : Session) (reads : List Outcome) : Option (ℤ × Bytes × Session) :=
  (Posix.readline MAXLINE s.tsd ⟨s.conn, s.errno, reads, []⟩).map fun r =>
    (r.ret, r.stored, { s with
      conn := r.net.conn, errno := r.net.errno, tsd := r.tsd
      buffer := store (if (0 : ℤ) < r.ret then r.stored ++ [nul] else r.stored) s.buffer })

/-- `writen(conn_id, bs, strlen(bs))` -/
def writen (s : Session) (bs : Bytes) (writes : List Outcome) :
    Option (ℤ × Session × List Event) :=
  (Posix.writen bs ⟨s.conn, s.errno, [], writes⟩).map fun w =>
    (w.ret, { s with errno := w.net.errno }, [.send w.sent])

/-- `goto free_resource` -/
def finish (s : Session) : Session := { s with phase := .done }

/-- The stream position of the next line. -/
def linePos (s : Session) : ℕ := position s.tsd s.conn

/-- Send a reply and leave, whatever became of it. -/
def refuse (s : Session) (bs : Bytes) (writes : List Outcome) : Option (Session × List Event) :=
  (s.writen bs writes).map fun (_, s, sent) => (s.finish, sent)

/-- Send a reply; go on in `next` when all of it was accepted. -/
def accept (s : Session) (bs : Bytes) (writes : List Outcome) (next : Phase) :
    Option (Session × List Event) :=
  (s.writen bs writes).map fun (ret, s, sent) =>
    if ret ≠ bs.length then (s.finish, sent) else ({ s with phase := next }, sent)

end Session

/-- The reply `sprintf(ebuf, "%03d\n", code)`. -/
def ebuf (code : ℕ) : Bytes := decimal code ++ [newline]

/-! ### Login -/

/-- The magic is read and compared. -/
def readMagic (env : Env) (s : Session) (t : Turn) : Option (Session × List Event) := do
  -- read with `readn`: a digest may contain a newline
  let (ret, got, s) ← s.readn SHA_DIGEST_LENGTH t.reads
  if ret < SHA_DIGEST_LENGTH then some (s.finish, [])
  else if got ≠ env.magic then some (s.finish, [])
  else s.accept (ebuf SUCCESS) t.writes .user

/-- `pass_getdb`: its result, and what `buf` holds afterwards. -/
def passGetdb (get : Bytes → Get) (buf : Password) (key : Bytes) : ℤ × Password :=
  match get key with
  | .found data => (0, data)
  | .failed ret => (ret, buf)

/-- `lookup_user`: 0 when there is such a user, and what `passbuf` holds
afterwards. -/
def lookupUser (passdbp : Option (Bytes → Get)) (user : Bytes) (passbuf : Password) :
    ℤ × Password :=
  if user.length < 1 then (1, passbuf)
  else match passdbp with
    | none => (2, passbuf)
    | some get =>
      let (ret, passbuf) := passGetdb get passbuf user
      -- a positive return of `DB->get` passes for a user that is there
      if ret < 0 then (3, passbuf) else (0, passbuf)

/-- The reply to a user who may send forms: the two ends of the window. -/
def windowReply (env : Env) (passbuf : Password) : Bytes :=
  (ascii "500 " ++ env.ctime passbuf.start).dropLast ++ ascii " " ++ ascii "- " ++
    env.ctime passbuf.end_

/-- The checks on the password record, at the two clock readings `clock` and
`clock + lag`. -/
def checkUser (env : Env) (s : Session) (t : Turn) : Option (Session × List Event) :=
  let s := { s with checked := (s.clock, s.clock + t.lag) }
  if s.passbuf.disabled = 1 then s.refuse (ebuf E_COLLEGE_DISABLED) t.writes
  else if s.passbuf.start > s.clock then
    s.refuse (decimal E_TIME_NOSTART ++ ascii " " ++ env.ctime s.passbuf.start) t.writes
  else
    -- `time` is called a second time
    let s' := { s with clock := s.clock + t.lag }
    if s.passbuf.end_ < s'.clock then
      s'.refuse (decimal E_TIME_EXPIRED ++ ascii " " ++ env.ctime s.passbuf.end_) t.writes
    else s'.accept (windowReply env s.passbuf) t.writes .pass

/-- `sscanf(buffer, "USER %s", user)` behind the word `USER`: without a word the
old user stays. -/
def scanUser (args user : Bytes) : Bytes :=
  if scanWord (cstr args) = [] then user else scanWord (cstr args)

/-- The `USER` line is read and the user looked up. -/
def readUser (env : Env) (s : Session) (t : Turn) : Option (Session × List Event) := do
  let (ret, got, s) ← s.readn 10 t.reads
  if ret < 10 then some (s.finish, [])
  else if !strncmp got (ascii "USER ") then some (s.finish, [])
  else
    let user := scanUser (got.drop 5) s.user
    let (ret, passbuf) := lookupUser env.passdbp user s.passbuf
    let s := { s with user := user, passbuf := passbuf, buffer := store (got ++ [nul]) s.buffer }
    if ret ≠ 0 then s.refuse (ebuf E_NO_COLLEGE) t.writes else checkUser env s t

/-- The password is read and compared. A stored length beyond the arrays is a
read or write outside them. -/
def readPass (s : Session) (t : Turn) : Option (Session × List Event) := do
  -- `readn` would write past the end of `buffer`
  if MAXLINE < 5 + s.passbuf.len then some ({ s with phase := .fault }, [])
  else
    let (ret, got, s) ← s.readn (5 + s.passbuf.len) t.reads
    if ret < 5 + s.passbuf.len then some (s.finish, [])
    else if !strncmp got (ascii "PASS ") then some (s.finish, [])
    -- `memcmp` would read past the end of `pass`
    else if SHA_DIGEST_LENGTH < s.passbuf.len then some ({ s with phase := .fault }, [])
    else if got.drop 5 ≠ s.passbuf.pass.take s.passbuf.len then
      s.refuse (ebuf E_INVALID_PASSWORD) t.writes
    else s.accept (ebuf SUCCESS) t.writes .setup

/-! ### The stores of the college -/

/-- The directory of a year under a root. -/
def yearDir (root : Bytes) (session : ℤ) : Bytes :=
  root ++ ascii "/" ++ printInt04 session ++ ascii "/"

/-- `INSTITUTE_%04d` -/
def institute (college : ℤ) : Bytes := ascii "INSTITUTE_" ++ printInt04 college

/-- `txtdir` -/
def txtdirOf (session college : ℤ) : Bytes :=
  yearDir TXTROOT3 session ++ institute college ++ ascii "/"

/-- `regdb` -/
def regdbOf (session college : ℤ) : Bytes :=
  yearDir BDBROOT3 session ++ institute college ++ ascii ".db"

/-- The directories are made, the database is opened and `regbuf` allocated. -/
def openStores (env : Env) (s : Session) (t : Turn) : Session × List Event :=
  let college := toInt32 (strtol s.user)
  let session := env.year s.clock
  let made := [.mkdir (yearDir TXTROOT3 session),
    .mkdir (yearDir TXTROOT3 session ++ institute college), .mkdir (yearDir BDBROOT3 session)]
  let s := { s with
    college := college, txtdir := txtdirOf session college, regdb := regdbOf session college
    buffer := store (institute college ++ [nul]) s.buffer }
  -- `reg_initdb` or `malloc` fails: no reply
  if !t.ok then (s.finish, made)
  else if !t.memory then (s.finish, made ++ [.openDb s.regdb])
  else ({ s with phase := .command }, made ++ [.openDb s.regdb])

/-! ### The command loop -/

/-- `sscanf(buffer, "BINARY %d %[^\r\n]", &imgsize, tmpname)` behind the word
`BINARY`, both variables zeroed before. The size becomes a `size_t`. -/
def scanBinary (args : Bytes) : ℕ × Bytes :=
  match scanInt args with
  | none => (0, [])
  | some (imgsize, rest) => ((imgsize % 2 ^ 64).toNat, scanLine (rest.dropWhile isspace))

/-- A photo: `BINARY size name`. The reply precedes the look at the name. -/
def binary (s : Session) (t : Turn) : Option (Session × List Event) :=
  if !t.acceptimage then
    -- the client has sent no byte of the photo yet
    (s.writen (ebuf E_IMG_NOSUPPORT) t.writes).map fun (_, s, sent) =>
      ({ s with phase := .command }, sent)
  else
    (s.writen (ebuf SUCCESS) t.writes).map fun (_, s, sent) =>
      let (imgsize, tmpname) := scanBinary (cstr (s.buffer.drop 7))
      let sent := sent ++ [.payload s.linePos imgsize]
      let s := { s with tmpname := tmpname }
      -- the client has its welcome and sends the photo all the same
      if tmpname = [] then ({ s with phase := .imageReply E_ERROR }, sent)
      -- the scan has no width
      else if MAXFILENAME ≤ tmpname.length then ({ s with phase := .fault }, sent)
      else ({ s with filename := s.txtdir ++ tmpname, phase := .image imgsize }, sent)

/-- `sscanf(buffer+9, "%[^\r\n]", tmpname)`: an empty name leaves the old one. -/
def scanFilename (args tmpname : Bytes) : Bytes :=
  if scanLine args = [] then tmpname else scanLine args

/-- A form: `FILENAME name`. A name of 20 bytes or more does not fit `tmpname`;
one of less than 4 has no suffix to cut off and puts the NUL outside `regkey`. -/
def filenameLine (s : Session) (t : Turn) : Session × List Event :=
  let tmpname := scanFilename (cstr (s.buffer.drop 9)) s.tmpname
  if MAXFILENAME ≤ tmpname.length ∨ tmpname.length < 4 then ({ s with phase := .fault }, [])
  else
    let s := { s with
      tmpname := tmpname, filename := s.txtdir ++ tmpname
      regkey := tmpname.take (tmpname.length - 4) }
    -- `fopen` fails
    if !t.ok then ({ s with errno := .other, phase := .done }, [])
    else ({ s with stfile := [], regbuf := [], phase := .body }, [.openTrunc s.filename])

/-- The head of the command loop: the next line is a command. -/
def readCommand (s : Session) (t : Turn) : Option (Session × List Event) := do
  let start := s.linePos
  let (ret, line, s) ← s.readline t.reads
  -- whatever `readline` returned: a call before it may have set `errno`
  if s.errno = .ewouldblock then some (s.finish, [])
  -- the buffer of the line before, when nothing was read
  else if strncmp s.buffer (ascii "QUIT\n") then
    some (s.finish, if 0 < ret then [.command start line] else [])
  else if ret < 9 then some (s.finish, [])
  else if strncmp s.buffer (ascii "BINARY ") then
    let (s, es) ← binary s t
    some (s, .command start line :: es)
  else if !strncmp s.buffer (ascii "FILENAME ") then some (s.finish, [])
  else
    let (s, es) := filenameLine s t
    some (s, .command start line :: es)

/-! ### Photos -/

/-- The start of `accept_binary`. -/
def openImage (s : Session) (t : Turn) (imgsize : ℕ) : Session × List Event :=
  if t.ok then ({ s with phase := .payload imgsize 0 0 }, [.openTrunc s.filename])
  else ({ s with errno := .other, phase := .imageReply E_ERROR }, [])

/-- The reply that `accept_binary` returning `nleft`, as an `int`, leads to. -/
def imageResult (nleft : ℕ) : ℕ := if nleft % 2 ^ 32 = 0 then SUCCESS else E_ERROR

/-- The number of bytes `accept_binary` asks for: set to a whole buffer while
more than that is left, and otherwise what it was before. -/
def blockSize (nleft i : ℕ) : ℕ := if MAXINFOSIZE < nleft then MAXINFOSIZE else i

/-- `errno` behind a `write` that did not take everything: a short count is no
error and leaves it alone. -/
def Session.writeErrno (s : Session) (t : Turn) : Errno :=
  if t.kept = 0 then .other else s.errno

/-- One turn of the loop of `accept_binary`: one `read` and one `write`;
`nleft` is unsigned. -/
def readPayload (s : Session) (t : Turn) (nleft i offset : ℕ) : Option (Session × List Event) :=
  if nleft = 0 then some ({ s with phase := .imageReply SUCCESS }, [])
  else
    let i := blockSize nleft i
    match t.reads with
    | [] => none
    | o :: _ =>
      match s.conn.read i o with
      | none => none
      -- counted as a read of 0 bytes: nothing is written, the loop goes on
      | some (.error .eintr, _) =>
        some ({ s with errno := .eintr, phase := .payload nleft i offset }, [])
      | some (.error e, _) => some ({ s with errno := e, phase := .imageReply E_ERROR }, [])
      -- the end of the stream, or a read of 0 bytes at the start of a small photo
      | some (.data [], _) => some ({ s with phase := .imageReply (imageResult nleft) }, [])
      | some (.data bs, conn) =>
        let s := { s with conn := conn }
        if t.ok then
          -- a block may be longer than what is left of the photo
          let nleft := (nleft + (2 ^ 64 - bs.length)) % 2 ^ 64
          some ({ s with phase := .payload nleft i (offset + bs.length) },
            [.writeAt s.filename offset bs])
        else
          some ({ s with errno := s.writeErrno t, phase := .imageReply (imageResult nleft) },
            [.writeAt s.filename offset (bs.take t.kept)])

/-- The reply to a photo. -/
def replyImage (s : Session) (t : Turn) (code : ℕ) : Option (Session × List Event) :=
  (s.writen (ebuf code) t.writes).map fun (_, s, sent) => ({ s with phase := .command }, sent)

/-! ### Forms -/

/-- The head of the loop over the lines of a form. -/
def readBody (s : Session) (t : Turn) : Option (Session × List Event) := do
  let start := s.linePos
  let (ret, line, s) ← s.readline t.reads
  let mark := [.bodyLine start line]
  let ending := mark ++ [.bodyEnd s.linePos]
  -- closed, failed or timed out: the form is not inserted
  if ret ≤ 0 then some ({ s with phase := .abandon true }, [])
  else if strncmp s.buffer (ascii ".\n") then some ({ s with phase := .close }, ending)
  else if strncmp s.buffer (ascii "QUIT\n") then some ({ s with phase := .abandon true }, ending)
  -- `fputs` fails: what follows of the form is read as commands
  else if !t.ok then some ({ s with errno := .other, phase := .abandon false }, ending)
  else
    let s := { s with stfile := s.stfile ++ cstr s.buffer }
    -- the NUL behind the line is copied with it
    let copied := (s.buffer ++ [t.past]).take (ret.toNat + 1)
    -- `break` without `fclose`
    if MAXINFOSIZE ≤ s.regbuf.length then some ({ s with phase := .command }, ending)
    -- `memcpy` would write past the end of `regbuf`
    else if MAXINFOSIZE < s.regbuf.length + copied.length then
      some ({ s with phase := .fault }, mark)
    else some ({ s with regbuf := s.regbuf ++ copied }, mark)

/-- The text a call of `fclose` gets written: a part of it when that fails. -/
def flushed (stfile : Bytes) (t : Turn) : Bytes := if t.ok then stfile else stfile.take t.kept

/-- `fclose(stfile)` -/
def fclose (s : Session) (t : Turn) : Session × List Event :=
  ({ s with errno := if t.ok then s.errno else .other },
    [.writeAt s.filename 0 (flushed s.stfile t)])

/-- `fclose` after the line that ends the form; its result is not looked at. -/
def closeForm (s : Session) (t : Turn) : Session × List Event :=
  let (s, es) := fclose s t
  ({ s with phase := .insert }, es)

/-- `reg_insertdb(regdbp, regkey, regbuf, regbufsize, confirm)`; its result is
not looked at. -/
def insertForm (s : Session) (t : Turn) : Session × List Event :=
  ({ s with phase := .reply }, if t.ok then [.put s.regdb s.regkey s.regbuf] else [])

/-- The reply to a form. -/
def replyForm (s : Session) (t : Turn) : Option (Session × List Event) :=
  -- the reply overwrites the line the command loop compares next
  { s with buffer := store (ebuf SUCCESS ++ [nul]) s.buffer }.accept (ebuf SUCCESS) t.writes
    .command

/-- `fclose` where a form was not received whole. -/
def abandonForm (s : Session) (t : Turn) (leave : Bool) : Session × List Event :=
  let (s, es) := fclose s t
  ({ s with phase := if leave then .done else .command }, es)

/-! ### The session -/

/-- One step of `manage_client`, when it does not block. -/
def act (env : Env) (s : Session) (t : Turn) : Option (Session × List Event) :=
  match s.phase with
  | .magic => readMagic env s t
  | .user => readUser env s t
  | .pass => readPass s t
  | .setup => some (openStores env s t)
  | .command => readCommand s t
  | .image imgsize => some (openImage s t imgsize)
  | .payload nleft i offset => readPayload s t nleft i offset
  | .imageReply code => replyImage s t code
  | .body => readBody s t
  | .close => some (closeForm s t)
  | .insert => some (insertForm s t)
  | .reply => replyForm s t
  | .abandon leave => some (abandonForm s t leave)
  | .done => none
  | .fault => none

/-- The session after the time before a step has passed. -/
def Session.wait (s : Session) (t : Turn) : Session := { s with clock := s.clock + t.elapsed }

/-- `manage_client`, one step at a time. -/
def manageClient (env : Env) : Machine Session Turn Event := fun s t =>
  (act env (s.wait t) t).getD (s.wait t, [])

end Esif.Server
