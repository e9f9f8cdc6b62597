import Coffee.Http.BodyLength
import Coffee.Http.RoundTrip
import Coffee.Http.RequestHandler
import Coffee.Http.Splitting
import Coffee.Http.UrlText
import Coffee.Http.HeaderStore
import Coffee.Http.Tokens
import Coffee.Dbms.Section
import Coffee.Dbms.BatchCommit
import Coffee.Dbms.LostConnection
import Coffee.Dbms.LockSafety
import Coffee.Dbms.PreparedStatement
import Coffee.Dbms.Column
import Coffee.Dbms.SetStorage
import Coffee.Dbms.Cursor
import Coffee.Basis.LruReferences
import Coffee.Basis.LruCapacity
import Coffee.Persistence.Repository
import Coffee.Basis.SolverSearch
import Coffee.Basis.SolutionCount
import Coffee.Basis.Average
import Coffee.Basis.HexDump
import Coffee.Basis.Subject
import Coffee.Persistence.KeyIdentity
import Coffee.Persistence.OwnWrites
import Coffee.Persistence.KeyHash
import Coffee.Persistence.LookupSafety
import Coffee.Time.Representation
import Coffee.Time.WheelSize
import Coffee.Time.StartAndStop
import Coffee.Balance.Ranges
import Coffee.Balance.Indexed
import Coffee.App.StartOnce
import Coffee.App.CleanStop
import Coffee.App.Attach
import Coffee.Xml.Lossless
import Coffee.Logger.BacktraceWriter
import Coffee.Persistence.ClassObject
import Coffee.App.ApplicationServiceStarter
import Coffee.Http.ServedRequests
import Coffee.Logger.CircularTraceWriter
import Coffee.Dbms.Database
import Coffee.Http.Forwarding
import Coffee.Xml.Document
import Coffee.Dbms.Rows
import Coffee.Networking.SocketRuns
import Coffee.Dbms.LdapEntries
import Coffee.Dbms.Deadlock
import Coffee.Logger.Logger
