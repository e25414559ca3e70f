import OramPro.RamOverflow
import OramPro.RiscRun
import OramPro.BmrBatchRun
import OramPro.SpdzUse
import OramPro.AuditTransfer
import OramPro.FssMpcKeys
import OramPro.DcfMpc
import OramPro.PolyVerify
import OramPro.Sot
import OramPro.MaskReuse
import OramPro.OutsourceDt
import OramPro.NetRun
import OramPro.FssEqDepth
import OramPro.FssEqFull
import OramPro.FssEqSafe
import OramPro.CompareOrder
import OramPro.MulRounds
import OramPro.IcRefill
import OramPro.SotAlign
import OramPro.NodeSelect
import OramPro.DtCosts
import OramPro.InsGroup
import OramPro.PolySound
import OramPro.SignCompare
import OramPro.SignMask
import OramPro.SignBatch
import OramPro.Trunc
import OramPro.Ghash
import OramPro.SpdzLocal
import OramPro.SelectConvention
import OramPro.ShareReveal
import OramPro.RandomOt
import OramPro.NetFlush
import OramPro.Bicoptor
import OramPro.Assembler
import OramPro.CommonRandom
import OramPro.ShareOps
import OramPro.BlockBits
import OramPro.BinarySort
import OramPro.ConstDt
import OramPro.AuditRun
import OramPro.BmrProcesses
