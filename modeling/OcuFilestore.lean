import OcuFilestore.Lib.Program
import OcuFilestore.Lib.Monitor
import OcuFilestore.Lib.Environment
import OcuFilestore.Lib.SlashPath
import OcuFilestore.Lib.Quoting
import OcuFilestore.Lib.FileTree
import OcuFilestore.Lib.FileVolume
import OcuFilestore.Lib.Reader
import OcuFilestore.Lib.Uri
import OcuFilestore.Lib.System
import OcuFilestore.Lib.Interleaving
import OcuFilestore.Lib.Pool
import OcuFilestore.Lib.Json
import OcuFilestore.Lib.JsonParse
import OcuFilestore.Lib.Regex
import OcuFilestore.Lib.JsonSchema
import OcuFilestore.Lib.JsonWrite
import OcuFilestore.Go.Sha256
import OcuFilestore.Go.Errors
import OcuFilestore.Go.Int64
import OcuFilestore.Go.Utf8
import OcuFilestore.Go.Time
import OcuFilestore.Go.Base64
import OcuFilestore.Go.Strings
import OcuFilestore.Go.Url
import OcuFilestore.Go.JsonMarshal
import OcuFilestore.Brokerrpc.Errors
import OcuFilestore.Brokerrpc.Messages
import OcuFilestore.Brokerrpc.Client
import OcuFilestore.Brokerrpc.Cursor
import OcuFilestore.Brokerrpc.Download
import OcuFilestore.Brokerrpc.Upload
import OcuFilestore.Brokerrpc.UploadBody
import OcuFilestore.Brokerrpc.FilePart
import OcuFilestore.Brokerrpc.UploadProtocol
import OcuFilestore.Filestore.Transfer
import OcuFilestore.Ocufs.Path
import OcuFilestore.Ocufs.Object
import OcuFilestore.Ocufs.Fs
import OcuFilestore.Ocufs.Listing
import OcuFilestore.Ocufs.Lookup
import OcuFilestore.Rclone.Encoder
import OcuFilestore.Ocufs.Readdress
import OcuFilestore.Ocufs.Resolution
import OcuFilestore.Ocufs.Session
import OcuFilestore.Ocufs.Sizes
import OcuFilestore.Ocufs.ErrorSurface
import OcuFilestore.Ocufs.Concurrency
import OcuFilestore.Ocufs.RangedRead
import OcuFilestore.Ocufs.Freshness
import OcuFilestore.Mountcfg.Load
import OcuFilestore.Mountcfg.Decode
import OcuFilestore.Mountcfg.Schema
import OcuFilestore.Mountcfg.Parity
import OcuFilestore.Brokerrpc.Route
import OcuFilestore.Mounter.Orchestrator
import OcuFilestore.Mounter.Specs
import OcuFilestore.Mounter.Teardown
import OcuFilestore.Mounter.Readiness
import OcuFilestore.Mounter.Outcome
import OcuFilestore.Mounter.Options
import OcuFilestore.Mounter.ScaffoldGuard
import OcuFilestore.Harness.Json
import OcuFilestore.Brokerrpc.Marshal
import OcuFilestore.Harness.Jwtmint
import OcuFilestore.Harness.Init
import OcuFilestore.Harness.Edge
import OcuFilestore.Harness.SingleFlight
import OcuFilestore.Filestore.Server
import OcuFilestore.Filestore.Isolation
import OcuFilestore.Filestore.Copying
import OcuFilestore.Filestore.Forms
import OcuFilestore.Filestore.Uploading
import OcuFilestore.Filestore.Handles
import OcuFilestore.Filestore.Wire
import OcuFilestore.Filestore.Working
import OcuFilestore.Filestore.Store
import OcuFilestore.Filestore.Refinement
import OcuFilestore.Filestore.Persistence
import OcuFilestore.Filestore.Provenance
import OcuFilestore.Filestore.Network
import OcuFilestore.Filestore.Served
import OcuFilestore.Mounted.Reading
import OcuFilestore.Mounted.Calls
import OcuFilestore.Mounted.Files
