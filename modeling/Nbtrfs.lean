import Nbtrfs.FreeCount
import Nbtrfs.Btr.ShapeRuns
import Nbtrfs.FileMapRuns
import Nbtrfs.InodeRuns
import Nbtrfs.VolumeLayout
import Nbtrfs.Cache.DirtyRuns
import Nbtrfs.Holes
import Nbtrfs.Listing
import Nbtrfs.Btr.Cascade
import Nbtrfs.Components
import Nbtrfs.BlockAddress
import Nbtrfs.Btr.Rightmost
import Nbtrfs.Btr.Descent
import Nbtrfs.Btr.InsertNonfull
import Nbtrfs.Btr.Merge
import Nbtrfs.InodeExhaustion
import Nbtrfs.Cache.RingRuns
import Nbtrfs.Cache.BlockIndex
import Nbtrfs.Cache.DirtySets
import Nbtrfs.Resolve
import Nbtrfs.InodeSlots
import Nbtrfs.AddExact
import Nbtrfs.RemoveEntry
import Nbtrfs.Mknod
import Nbtrfs.Btr.InsertTree
import Nbtrfs.Isolation
import Nbtrfs.TreeMeasures
