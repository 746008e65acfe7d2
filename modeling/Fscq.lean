import Fscq.Lib.CrashProg
import Fscq.Lib.AtomicProg
import Fscq.Lib.ClientProg
import Fscq.Lib.RadixTree
import Fscq.Lib.FiniteMap
import Fscq.Lib.Forest
import Fscq.Word
import Fscq.Rec
import Fscq.RecPath
import Fscq.AsyncDisk
import Fscq.VBConv
import Fscq.Prog
import Fscq.OperationalSemantics
import Fscq.ADisk
import Fscq.Hashmap
import Fscq.Cache
import Fscq.CacheRun
import Fscq.ListUtils
import Fscq.RecArrayUtils
import Fscq.FSLayout
import Fscq.AsyncRecArray
import Fscq.DiskLogHash
import Fscq.DiskLogHashRep
import Fscq.DiskLogHashProof
import Fscq.DiskLogAtomic
import Fscq.DiskLogRun
import Fscq.LogReplay
import Fscq.MemLog
import Fscq.GroupLog
import Fscq.LogSpace
import Fscq.Log
import Fscq.LogRun
import Fscq.Txn
import Fscq.LogProg
import Fscq.LogHistory
import Fscq.LogTxn
import Fscq.LogEntries
import Fscq.LogDirect
import Fscq.LogRecArray
import Fscq.LogRecArrayRun
import Fscq.Balloc
import Fscq.BallocRun
import Fscq.BlockPtr
import Fscq.BlockPtrTree
import Fscq.BlockPtrClear
import Fscq.BlockPtrPut
import Fscq.BlockPtrGet
import Fscq.BlockPtrInode
import Fscq.BlockPtrTight
import Fscq.Inode
import Fscq.BlockPtrRead
import Fscq.BlockPtrShrink
import Fscq.BlockPtrGrow
import Fscq.BFile
import Fscq.BFileRep
import Fscq.BFileProof
import Fscq.BFileGrow
import Fscq.BFileShrink
import Fscq.FileRecArray
import Fscq.Dir
import Fscq.DirName
import Fscq.DirCache
import Fscq.DirTree
import Fscq.DirTreeInv
import Fscq.DirTreeProof
import Fscq.DirTreeMove
import Fscq.AsyncFS
import Fscq.AsyncFSProof
import Fscq.Mkfs
import Fscq.AsyncFSRun
import Fscq.AsyncFSTree
import Fscq.AsyncFSCrash
import Fscq.AsyncFSTaken
import Fscq.AsyncFSAtomic
import Fscq.AsyncFSMachine
import Fscq.AsyncFSFrame
import Fscq.AsyncFSDurable
import Fscq.AsyncFSLogged
import Fscq.AsyncFSRecover
import Fscq.AsyncFSClient
import Fscq.BFileTruncate
import Fscq.BFileRun
import Fscq.DirRun
import Fscq.DirTreeRun
import Fscq.DirTreeDef
import Fscq.DirTreeNames
import Fscq.DirTreeRep
import Fscq.DirTreeRename
import Fscq.SuperBlockLoad
import Fscq.MkfsDisk
import Fscq.AsyncFSRollback
import Fscq.AsyncFSFull
import Fscq.AsyncFSDisk
import Fscq.AsyncFSRebind
import Fscq.BFileDirty
import Fscq.Fuse
import Fscq.FuseProof
import Fscq.FuseBytes
import Fscq.FuseFile
import Fscq.FuseRun
import Fscq.FuseContents
import Fscq.FuseCrash
import Fscq.FuseAppend
import Fscq.Hslib.Word
import Fscq.Hslib.WordSlice
import Fscq.Hslib.WordArith
import Fscq.Hslib.WordShift
import Fscq.Hslib.Rec
import Fscq.Hslib.Interpreter
import Fscq.Hslib.DirName
import Fscq.Hslib.Disk
import Fscq.Hslib.CrashImages
import Fscq.Hslib.OpQueue
