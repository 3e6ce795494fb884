import UBoot.Boot.AndroidImage
import UBoot.Burning.SdcDelivery
import UBoot.Burning.SimgOffsets
import UBoot.Burning.SimgFailure
import UBoot.Disk.GptBackup
import UBoot.Disk.GptLayout
import UBoot.Disk.PartLookup
import UBoot.Disk.PartReads
import UBoot.Env.FlagsRuns
import UBoot.Env.FwEnvImport
import UBoot.Env.FwSetenv
import UBoot.Fastboot.SparseAccess
import UBoot.Keymanage.EfuseKey
import UBoot.Keymanage.HexAscii
import UBoot.Lib.Circbuf
import UBoot.Mmc.AmlMmc
import UBoot.Mmc.EraseResult
import UBoot.Mmc.PartitionLayout
import UBoot.Mmc.PartitionTable
import UBoot.Net.ArrivalOrder
import UBoot.Net.TftpUpload
import UBoot.Net.TftpWrap
import UBoot.Serial.SRecordCount
import UBoot.Serial.SRecordRoundTrip
import UBoot.Serial.KermitHarm
import UBoot.Mtd.MtdpartsRoundTrip
import UBoot.Mtd.MtdpartsBounds
import UBoot.Mtd.MtdpartsCurrent
import UBoot.Net.DhcpHandshake
import UBoot.Env.AttrReads
import UBoot.Memory.LmbSorted
import UBoot.Memory.RamSize
import UBoot.Env.ImportList
import UBoot.Net.NfsStale
import UBoot.Fs.Ext4Put
import UBoot.Burning.IniLines
import UBoot.Burning.IniSyntax
import UBoot.Burning.ImgHandles
import UBoot.Burning.Sha1Sum
import UBoot.Burning.OptimusFatRead
import UBoot.Cli.ProcessMacros
import UBoot.Cli.Test
