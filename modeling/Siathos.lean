import Siathos.Heap.Safety
import Siathos.Context.Preserve
import Siathos.Ipc.Correlate
import Siathos.Session.Rights
import Siathos.Session.Credentials
import Siathos.Ipc.Post
import Siathos.Session.Pointers
import Siathos.Ipc.Delivery
import Siathos.Ipc.Availability
import Siathos.Fs.Frame
import Siathos.Fs.Mediation
import Siathos.Nomos.Specific
import Siathos.Session.Enforcement
import Siathos.Session.Sovereign
import Siathos.Session.Consent
import Siathos.Proc.Children
import Siathos.Lib.Radix
import Siathos.Paging.Model
import Siathos.Paging.Tree
import Siathos.Paging.Teardown
import Siathos.Proc.Memory
import Siathos.Paging.Pages
import Siathos.Proc.Pages
import Siathos.Proc.Creation
import Siathos.Proc.Atomic
import Siathos.Proc.Growth
import Siathos.Proc.System
import Siathos.Proc.Rooted
import Siathos.Proc.Conserve
import Siathos.Session.Outputs
import Siathos.Proc.Sound
import Siathos.Nomos.Tickets
import Siathos.Session.Refusal
import Siathos.Ipc.Lookup
import Siathos.Session.Services
import Siathos.Fs.Atomic
import Siathos.Fs.Table
import Siathos.Fs.Tree
import Siathos.Fs.Refine
import Siathos.Context.Choice
import Siathos.Gate.Irqs
import Siathos.Gate.Flag
import Siathos.Gate.Closed
import Siathos.Gate.Descriptors
import Siathos.Device.Keyboard
import Siathos.Session.Failure
import Siathos.Fsd.Service
import Siathos.Fsd.Mediation
import Siathos.Authd.Service
import Siathos.Session.Registry
import Siathos.Authd.Request
import Siathos.Authd.Sovereign
import Siathos.Nomos.Accounts
import Siathos.Fsd.Replies
import Siathos.Synd.Service
import Siathos.Ipc.Residue
import Siathos.Lib.Find
import Siathos.Nomos.Scan
import Siathos.Synd.Seed
import Siathos.Synd.Consent
import Siathos.Fsd.RoundTrip
import Siathos.Fsd.Store
import Siathos.Fsd.Listing
import Siathos.Fsd.Agree
import Siathos.Fsd.Copy
import Siathos.Fsd.Histories
import Siathos.Proc.Bytes
import Siathos.Proc.Isolation
import Siathos.Fs.Normalize
import Siathos.Device.Decoders
import Siathos.Device.Agree
import Siathos.Heap.Growth
import Siathos.Lib.Bits
import Siathos.Paging.Frames
import Siathos.Paging.Ledger
import Siathos.Usb.Ring
import Siathos.Usb.Wrap
import Siathos.Usb.Events
import Siathos.Usb.Hid
import Siathos.Usb.Reports
import Siathos.Proc.Recycle
import Siathos.Syscall.Residue
import Siathos.Syscall.Arrays
import Siathos.Session.Stack
import Siathos.Lib.Fixes
import Siathos.Proc.Argv
import Siathos.Proc.Holding
import Siathos.Proc.Inherit
import Siathos.Fs.Canonical
import Siathos.Authd.Change
import Siathos.Fsd.Trail
import Siathos.Synd.Trail
import Siathos.Paging.Usable
import Siathos.Paging.Supply
import Siathos.Proc.DevMap
import Siathos.Proc.Mmap
import Siathos.Lib.Links
import Siathos.Spud.Heap
import Siathos.Spud.Blocks
import Siathos.Spud.Alloc
import Siathos.Spud.Coalesce
import Siathos.Spud.Program
import Siathos.Spud.Sizes
import Siathos.Spud.Safety
import Siathos.Ipc.Bounds
import Siathos.Lib.Places
import Siathos.Paging.Identity
import Siathos.Paging.Estate
import Siathos.Paging.Calls
import Siathos.Paging.Release
import Siathos.Paging.Reclaim
import Siathos.Proc.Layout
import Siathos.Syscall.Arguments
import Siathos.Proc.Passing
import Siathos.Session.Arguments
import Siathos.Nomos.Selection
import Siathos.Praxia.Manifest
import Siathos.Lib.Words
import Siathos.Praxia.Shell
import Siathos.Usb.Keys
import Siathos.Usb.Descriptors
import Siathos.Nomos.Pacto
import Siathos.Lib.Sha256
import Siathos.Lib.Kdf
import Siathos.Crypto.Sha256
import Siathos.Crypto.Kdf
import Siathos.Lib.Format
import Siathos.Util.Snprintf
import Siathos.Fs.Reach
import Siathos.Syscall.Listing
import Siathos.Nomos.Discovery
import Siathos.Syscall.Validation
import Siathos.Fb.Framebuffer
import Siathos.Fb.Console
import Siathos.Syscall.Drawing
import Siathos.Context.Fair
import Siathos.Elf.Exec
import Siathos.Elf.Stores
import Siathos.Elf.Faithful
import Siathos.Boot.Handoff
import Siathos.Authd.Client
import Siathos.Authd.Founding
import Siathos.Authd.Spoudazo
import Siathos.Proc.Entries
import Siathos.Boot.Reach
