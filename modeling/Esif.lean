import Esif.CS.Machine
import Esif.CS.Path
import Esif.CS.Lines
import Esif.CS.Interleave
import Esif.CS.Threads
import Esif.CS.Linked
import Esif.CS.Table
import Esif.CS.Pieces
import Esif.CS.Columns
import Esif.CS.Records
import Esif.Posix.Bytes
import Esif.Posix.Scan
import Esif.Posix.Padding
import Esif.Posix.Decimal
import Esif.Posix.Net
import Esif.Posix.Calm
import Esif.Posix.Transfer
import Esif.Posix.Readline
import Esif.Posix.Time
import Esif.Server.Store
import Esif.Server.Session
import Esif.Server.Inspass
import Esif.Server.Dispass
import Esif.Server.Fields
import Esif.Server.Times
import Esif.Server.Register
import Esif.Server.Step
import Esif.Server.Binary
import Esif.Server.Calm
import Esif.Server.Serve
import Esif.Server.Effects
import Esif.Server.Login
import Esif.Server.Confinement
import Esif.Server.Names
import Esif.Server.Framing
import Esif.Server.Upload
import Esif.Server.Record
import Esif.Server.RawDump
import Esif.Server.Dump
import Esif.Server.Abandoned
import Esif.Server.Concurrent
import Esif.Server.Window
import Esif.Server.Timeout
import Esif.Server.Process
import Esif.Server.Reload
import Esif.Server.Whole
import Esif.Client.Wire
import Esif.Client.Authenticate
import Esif.Client.Form
import Esif.Client.Apply
import Esif.Client.Submit
import Esif.Client.Steps
import Esif.Client.Process
import Esif.Client.Marks
import Esif.Client.Entry
import Esif.Client.Order
import Esif.Client.Verify
import Esif.Client.Subjects
import Esif.Client.Check
import Esif.Client.Header
import Esif.Client.Editor
import Esif.Client.Query
import Esif.Client.Tables
import Esif.Client.Desk
import Esif.Client.Indexing
import Esif.System.Login
import Esif.System.Admission
import Esif.System.Exchange
import Esif.System.Photo
import Esif.System.Form
import Esif.System.Modes
import Esif.System.Filenames
import Esif.System.Dump
import Esif.System.Errand
import Esif.System.Course
import Esif.System.Delivery
import Esif.System.Standing
import Esif.System.Completion
import Esif.System.Resumption
import Esif.System.Office
