import Thor.CLib.Str
import Thor.CLib.Strtok
import Thor.CLib.Scan
import Thor.CLib.Steps
import Thor.CLib.Cut
import Thor.CLib.Prog
import Thor.CLib.Alloc
import Thor.CLib.Linked
import Thor.CLib.Mem
import Thor.CLib.Fgets
import Thor.CLib.Shell
import Thor.CLib.Json
import Thor.CLib.Loop
import Thor.CLib.Bytes
import Thor.CLib.Bits
import Thor.CLib.Pack
import Thor.CLib.Cyclic
import Thor.CLib.Interleave
import Thor.CLib.Runs
import Thor.Sql.Lexer
import Thor.Sql.Template
import Thor.Sql.Parser
import Thor.Sql.Eval
import Thor.Sql.Keyed
import Thor.Core.World
import Thor.Database.Builders
import Thor.Database.Ops
import Thor.Database.Templates
import Thor.Database.Role
import Thor.Database.Statements
import Thor.Database.Updates
import Thor.Database.Users
import Thor.Database.Credentials
import Thor.Database.Listings
import Thor.Database.Images
import Thor.Database.Decoding
import Thor.Database.Lengths
import Thor.Rpc.Clight
import Thor.Rpc.DbManager
import Thor.Rpc.Interface
import Thor.Security.Authorize
import Thor.Core.Sched
import Thor.Core.Frames
import Thor.Core.NodeList
import Thor.Core.Config
import Thor.Core.Accumulate
import Thor.Security.Login
import Thor.Rpc.Request
import Thor.Database.Walk
import Thor.Rpc.Answers
import Thor.Rpc.Authority
import Thor.Rpc.Slot
import Thor.Rpc.NodeArgs
import Thor.Rpc.Walk
import Thor.Rpc.Texts
import Thor.Rpc.Replies
import Thor.Rpc.Refusals
import Thor.Rpc.Roles
import Thor.Rpc.Escalation
import Thor.Rpc.Passwords
import Thor.Rpc.Items
import Thor.Security.Restart
import Thor.Security.BothPaths
import Thor.Security.Trim
import Thor.Rpc.Closing
import Thor.Rpc.Tokens
import Thor.Rpc.Fields
import Thor.Rpc.LogLevel
import Thor.Rpc.Injection
import Thor.Security.AuthMessage
import Thor.Rpc.Overflow
import Thor.Security.SharedStrtok
import Thor.Comm.Server
import Thor.Comm.Shutdown
import Thor.Comm.Capacity
import Thor.Comm.Peers
import Thor.Comm.Writer
import Thor.Comm.Release
import Thor.Comm.Deletion
import Thor.Comm.Audit
import Thor.Comm.Sweep
import Thor.Qr.Symbols
import Thor.Qr.Codewords
import Thor.Qr.Content
import Thor.Qr.Reader
import Thor.Ui.Segments
import Thor.Ui.Capacity
import Thor.Ui.Field
import Thor.Ui.Codewords
import Thor.Ui.Modules
import Thor.Ui.Patterns
import Thor.Ui.Drawing
import Thor.Ui.Layout
import Thor.Ui.Penalty
import Thor.Ui.Encode
import Thor.Ui.Symbol
import Thor.Ui.Outcome
import Thor.Ui.Standard
import Thor.Ui.Content
import Thor.Ui.Reader
import Thor.Ui.RoundTrip
import Thor.Ui.Landmarks
import Thor.Ui.Print
import Thor.Ui.Choice
import Thor.Ui.Runs
import Thor.Comm.Sessions
import Thor.Comm.Rootless
import Thor.Security.Hash
