import Scubed3.Bitmaps.Counting
import Scubed3.Bitmaps.Ranges
import Scubed3.Device.Advertised
import Scubed3.Device.DataHash
import Scubed3.Device.Disk
import Scubed3.Device.Growth
import Scubed3.Device.History
import Scubed3.Device.Ledger
import Scubed3.Device.Open
import Scubed3.Device.Orderly
import Scubed3.Device.Resize
import Scubed3.Device.Selection
import Scubed3.Device.Shut
import Scubed3.Dllarr.Changes
import Scubed3.Dllarr.Removal
import Scubed3.Dllarr.Representation
import Scubed3.Dllarr.Runs
import Scubed3.Format.Chaining
import Scubed3.Format.Header
import Scubed3.Format.RoundTrip
import Scubed3.Format.Scan
import Scubed3.Format.Survival
import Scubed3.Format.Write
import Scubed3.Hashtbl.FiniteMap
import Scubed3.Hashtbl.Invariant
import Scubed3.Hashtbl.Linearizing
import Scubed3.Hashtbl.Lists
import Scubed3.Hashtbl.Locking
import Scubed3.Hashtbl.Points
import Scubed3.Hashtbl.Searching
import Scubed3.Hashtbl.Traversal
import Scubed3.Hashtbl.Updating
import Scubed3.Juggler.Invariant
import Scubed3.Juggler.Promises
import Scubed3.Juggler.Reachable
import Scubed3.Juggler.Rebuild
import Scubed3.Juggler.Rejection
import Scubed3.Juggler.Schedule
import Scubed3.Juggler.Uniform
import Scubed3.Model.Binio
import Scubed3.Model.Bitmap
import Scubed3.Model.BitmapCalls
import Scubed3.Model.Blockio
import Scubed3.Model.BlockioInfo
import Scubed3.Model.Cipher
import Scubed3.Model.CipherCbc
import Scubed3.Model.CommandLine
import Scubed3.Model.Control
import Scubed3.Model.ControlThread
import Scubed3.Model.Daemon
import Scubed3.Model.Dllarr
import Scubed3.Model.FileSystem
import Scubed3.Model.FuseIo
import Scubed3.Model.Geometry
import Scubed3.Model.Hashtbl
import Scubed3.Model.HashtblCalls
import Scubed3.Model.Juggler
import Scubed3.Model.Locking
import Scubed3.Model.Partition
import Scubed3.Model.Random
import Scubed3.Model.ScanHeader
import Scubed3.Model.Scubed3ctl
import Scubed3.Model.Socket
import Scubed3.Model.Text
import Scubed3.Opening.Inventory
import Scubed3.Opening.Newest
import Scubed3.Opening.Replay
import Scubed3.Opening.Scan
import Scubed3.Partition.Backing
import Scubed3.Partition.Collection
import Scubed3.Partition.Contents
import Scubed3.Partition.Durable
import Scubed3.Partition.Ending
import Scubed3.Partition.Enlarging
import Scubed3.Partition.Homes
import Scubed3.Partition.Indices
import Scubed3.Partition.Mapping
import Scubed3.Partition.Neighbours
import Scubed3.Partition.Oblivious
import Scubed3.Partition.Phases
import Scubed3.Partition.Reopening
import Scubed3.Partition.Splitting
import Scubed3.Partition.Steps
import Scubed3.Partition.Store
import Scubed3.Partition.Tracking
import Scubed3.Partition.Turning
import Scubed3.Partition.Unbiased
import Scubed3.Partition.View
import Scubed3.Server.Answers
import Scubed3.Server.Base16
import Scubed3.Server.Deletion
import Scubed3.Server.Effects
import Scubed3.Server.FileIo
import Scubed3.Server.Framing
import Scubed3.Server.Handlers
import Scubed3.Server.Integers
import Scubed3.Server.Isolation
import Scubed3.Server.Ledger
import Scubed3.Server.Locking
import Scubed3.Server.OpenFailed
import Scubed3.Server.Ownership
import Scubed3.Server.Refusals
import Scubed3.Server.Response
import Scubed3.Server.Session
import Scubed3.Server.Tokens
import Scubed3.ToMathlib.Cbc
import Scubed3.ToMathlib.DoublyLinked
import Scubed3.ToMathlib.Draw
import Scubed3.ToMathlib.Except
import Scubed3.ToMathlib.Expectation
import Scubed3.ToMathlib.Holding
import Scubed3.ToMathlib.Interleaving
import Scubed3.ToMathlib.KeyedInsert
import Scubed3.ToMathlib.Layout
import Scubed3.ToMathlib.Linearizable
import Scubed3.ToMathlib.Lines
import Scubed3.ToMathlib.LinkedCells
import Scubed3.ToMathlib.Memory
import Scubed3.ToMathlib.Mutexes
import Scubed3.ToMathlib.Related
import Scubed3.ToMathlib.Splitting
import Scubed3.ToMathlib.Wiped
import Scubed3.ToMathlib.Words
import Scubed3.ToMathlib.WriteBack
