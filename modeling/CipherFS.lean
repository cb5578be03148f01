import CipherFS.Framework.Checked
import CipherFS.Framework.Result
import CipherFS.Core.V2.Format
import CipherFS.Core.V2.Names
import CipherFS.Core.V2.Validate
import CipherFS.Core.V2.Accepted
import CipherFS.Core.V2.IndexTree
import CipherFS.Core.V2.Crypto
import CipherFS.Framework.Chunking
import CipherFS.Framework.FileBytes
import CipherFS.Core.V2.Chunks
import CipherFS.Core.V2.ChunkLayout
import CipherFS.Core.V2.AcceptedHeader
import CipherFS.Core.ReadOnlyFs.Nodes
import CipherFS.WinFsp.Open
import CipherFS.Core.ReadOnlyFs.Cache
import CipherFS.Core.ReadOnlyFs.Read
import CipherFS.Core.WindowsNames.Mapping
import CipherFS.Core.WindowsNames.Map
import CipherFS.Framework.RelyGuarantee
import CipherFS.Core.Operation
import CipherFS.Core.V2.KeySlots
import CipherFS.Core.V2.SlotState
import CipherFS.Core.V2.PasswordChange
import CipherFS.Core.Pack.Header
import CipherFS.Core.PasswordRuns
import CipherFS.Framework.MsgPack
import CipherFS.Framework.Tear
import CipherFS.Core.V2.HeaderCodec
import CipherFS.Core.V2.TornWrite
import CipherFS.Core.V2.Binding
import CipherFS.Core.ReadOnlyFs.ConcurrentLoads
import CipherFS.Framework.Text
import CipherFS.Update.Manifest
import CipherFS.Update.Download
import CipherFS.WindowsShell.App
import CipherFS.WindowsShell.ForceClose
import CipherFS.Core.V2.Open
import CipherFS.Framework.Sequential
import CipherFS.Core.Deniability
import CipherFS.Core.DuressRuns
import CipherFS.Core.HeaderRaces
import CipherFS.Framework.FileTree
import CipherFS.Framework.Built
import CipherFS.Framework.Revocation
import CipherFS.Core.ErrorKind
import CipherFS.Core.FileSystem
import CipherFS.Core.SafeFs
import CipherFS.Core.V2.OpenFile
import CipherFS.Core.Extract
import CipherFS.Core.Pack.Scan
import CipherFS.Core.Pack.Run
import CipherFS.Core.Confined
import CipherFS.Core.Preparation
import CipherFS.Core.Interference
import CipherFS.Core.V2.EntryOrder
import CipherFS.Core.V2.NameGrammar
import CipherFS.Core.ErrorText
import CipherFS.Core.ReadOnlyFs.Listing
import CipherFS.Core.ReadOnlyFs.Mounted
import CipherFS.Core.Pack.Accepted
import CipherFS.Core.WindowsNames.Directory
import CipherFS.Core.WindowsNames.Display
import CipherFS.WinFsp.Names
import CipherFS.Framework.Paging
import CipherFS.WinFsp.Paging
import CipherFS.Core.Extract.Staging
import CipherFS.Core.Extract.Operations
import CipherFS.Core.Extract.Batches
import CipherFS.Core.Extract.Order
import CipherFS.Core.Extract.Materialised
import CipherFS.Core.Publication
import CipherFS.Framework.Framing
import CipherFS.WindowsShell.Protocol
import CipherFS.WindowsShell.Outcome
import CipherFS.Core.Cleanup
import CipherFS.Update.Grammar
import CipherFS.Framework.ByteReader
import CipherFS.WindowsShell.Frames
import CipherFS.Core.WindowsNames.Ordinal
import CipherFS.WinFsp.Termination
import CipherFS.Fuse.Readdir
import CipherFS.Framework.SeqAccess
import CipherFS.Core.V2.IndexCodec
import CipherFS.Core.Progress.Meter
import CipherFS.Core.Progress.Quiet
import CipherFS.Framework.Passage
import CipherFS.Core.Progress.Tracker
import CipherFS.Core.Progress.Verify
import CipherFS.Core.Progress.Encrypt
import CipherFS.Core.Progress.Reopen
import CipherFS.Core.Progress.SelfVerify
import CipherFS.Core.Progress.Extract
import CipherFS.Core.Progress.Exact
import CipherFS.Framework.Regions
import CipherFS.Core.V2.StoredChunks
import CipherFS.Core.V2.OpenBytes
import CipherFS.Core.Contents
import CipherFS.Core.Pack.Snapshot
import CipherFS.Core.Pack.Container
import CipherFS.Core.Pack.Filled
import CipherFS.Core.Observing
import CipherFS.Core.Pack.Packed
import CipherFS.Core.ContainerTree
import CipherFS.Core.Pack.PackedTree
import CipherFS.Core.Extract.Leaving
import CipherFS.Core.Extract.Restored
import CipherFS.Core.RoundTrip
import CipherFS.Core.Format
import CipherFS.Core.KeptTree
