import OsAudio.Libc.Memmove
import OsAudio.Libc.Printfmt
import OsAudio.Vmm.Copies
import OsAudio.Thread.RoundRobin
import OsAudio.Dev.ReadErrors
import OsAudio.Dev.PcpuMp
import OsAudio.Dev.Console
import OsAudio.Pmm.MemoryInit
import OsAudio.Fs.Coherence
import OsAudio.Fs.BlockStore
import OsAudio.Fs.Recovery
import OsAudio.Fs.Driver
import OsAudio.Fs.InodeCache
import OsAudio.Fs.Exhausted
import OsAudio.Fs.DirMap
import OsAudio.Fs.PathScan
import OsAudio.Mkfs.Names
import OsAudio.Trap.PathBuffer
import OsAudio.Trap.Descriptors
