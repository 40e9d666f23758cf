import BootExtractor.BlockDev
import BootExtractor.Cli.DmaMemo
import BootExtractor.Cli.EntryDecode
import BootExtractor.Cli.ExtractKept
import BootExtractor.Cli.ResolveWalk
import BootExtractor.Cli.ShellRun
import BootExtractor.Cli.BestBoot
import BootExtractor.Cli.Faults
import BootExtractor.Cli.Reports
import BootExtractor.Cli.Sessions
import BootExtractor.Cli.Shown
import BootExtractor.Source.CacheRace
import BootExtractor.Source.DnsReply
import BootExtractor.Source.Locator
import BootExtractor.Source.RemoteForward
import BootExtractor.Source.RemoteReplay
import BootExtractor.Source.HttpChunked
import BootExtractor.Source.HttpEnd
import BootExtractor.Source.HttpRemote
import BootExtractor.BlockDev.IoAdapter
import BootExtractor.Boot.Authority
import BootExtractor.Boot.GrubDefault
import BootExtractor.Boot.VercmpOrder
import BootExtractor.Boot.BlsOrder
import BootExtractor.Boot.BlsFormat
import BootExtractor.Boot.FallbackPairs
import BootExtractor.Boot.GrubenvBlock
import BootExtractor.Boot.Expand
import BootExtractor.Boot.ExtlinuxRun
import BootExtractor.Boot.GrubNested
import BootExtractor.Boot.GlobLanguage
import BootExtractor.Boot.GrubAddresses
import BootExtractor.Boot.GrubTargets
import BootExtractor.Boot.GrubQuoting
import BootExtractor.Guest.Defaults
import BootExtractor.Guest.Kinds
import BootExtractor.Part.EbrChain
import BootExtractor.Part.GptDecode
import BootExtractor.Disk.Open
import BootExtractor.Disk.Stack
import BootExtractor.Disk.Readable
import BootExtractor.Disk.Written
import BootExtractor.Disk.Compressed
import BootExtractor.Disk.Descriptor
import BootExtractor.Kernel.Sniff
import BootExtractor.Lib.Bytes
import BootExtractor.Lib.Effect
import BootExtractor.Lib.JsonPrint
import BootExtractor.Lib.Renumber
import BootExtractor.Lib.Str
import BootExtractor.Lib.Utf8
import BootExtractor.Vdafix.Offsets
