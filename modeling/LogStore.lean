import LogStore.Disk.Edit
import LogStore.Main
import LogStore.Store.Request
import LogStore.Proofs.Index
import LogStore.Proofs.Checksum
import LogStore.Proofs.Record.Codec
import LogStore.Proofs.Log.Scan
import LogStore.Proofs.Log.Cursor
import LogStore.Proofs.Log.Replay
import LogStore.Proofs.Contents
import LogStore.Proofs.Log.Live
import LogStore.Proofs.Log.Stamps
import LogStore.Proofs.Disk.Route
import LogStore.Proofs.Disk.Seat
import LogStore.Proofs.Disk.Frame
import LogStore.Proofs.Log.Appender
import LogStore.Proofs.Segment
import LogStore.Proofs.Compaction
import LogStore.Proofs.Store.Basic
import LogStore.Proofs.Store.Merge
import LogStore.Proofs.Store.Open
import LogStore.Proofs.Store.Ideal
import LogStore.Proofs.Store.Recovery
import LogStore.Proofs.Store.TornAppend
import LogStore.Proofs.Store.Damage
import LogStore.Proofs.Disk.Sound
import LogStore.Proofs.Store.Sound
import LogStore.Proofs.Disk.Mirror
import LogStore.Proofs.Disk.Leftover
import LogStore.Proofs.Log.Canonical
import LogStore.Proofs.Record.BitFlip
import LogStore.Proofs.Record.Burst
import LogStore.Proofs.Store.Mirror
import LogStore.Proofs.Store.Lockstep
import LogStore.Proofs.Store.Leftover
import LogStore.Proofs.Store.BrokenOff
import LogStore.Proofs.Store.MergeFrame
import LogStore.Proofs.Store.FailedMerge
import LogStore.Proofs.Store.Growth
import LogStore.Proofs.Store.Reader
import LogStore.Proofs.Store.MergeResult
import LogStore.Proofs.Store.Timeless
import LogStore.Proofs.Command.Shelf
import LogStore.Proofs.Command.Calls
import LogStore.Proofs.Record.Arrivals
import LogStore.Proofs.Log.Places
import LogStore.Proofs.Log.InStep
import LogStore.Proofs.Log.Following
import LogStore.Proofs.Store.Following
import LogStore.Proofs.Copies
