import ChimeraSdk.Framework.System
import ChimeraSdk.Framework.Log
import ChimeraSdk.Framework.Mutex
import ChimeraSdk.Framework.Align
import ChimeraSdk.Framework.Blocks
import ChimeraSdk.Framework.Carving
import ChimeraSdk.Framework.ByteMemory
import ChimeraSdk.Framework.Bus
import ChimeraSdk.Framework.FreeList
import ChimeraSdk.Framework.LinkerScript
import ChimeraSdk.Framework.Digits
import ChimeraSdk.Framework.Regex
import ChimeraSdk.Framework.RegexScan
import ChimeraSdk.Framework.RegFile
import ChimeraSdk.Framework.Rounding
import ChimeraSdk.Framework.Sampling
import ChimeraSdk.Framework.WordMemory
import ChimeraSdk.Framework.RiscV
import ChimeraSdk.Framework.Floyd
import ChimeraSdk.Framework.RegisterSave
import ChimeraSdk.Framework.Cluster
import ChimeraSdk.Framework.OwnView
import ChimeraSdk.Framework.Transfers
import ChimeraSdk.Framework.CInt
import ChimeraSdk.Target.SocAddrMap
import ChimeraSdk.Target.LinkLd
import ChimeraSdk.Target.ClusterInit
import ChimeraSdk.Host.Clint
import ChimeraSdk.Host.ClintTime
import ChimeraSdk.Host.CoreFreq
import ChimeraSdk.Host.ClintCompare
import ChimeraSdk.Host.Fll
import ChimeraSdk.Host.FllAccuracy
import ChimeraSdk.Host.ConfigureFll
import ChimeraSdk.Host.Offload
import ChimeraSdk.Host.StackCarving
import ChimeraSdk.Host.Alloc
import ChimeraSdk.Host.HeapInv
import ChimeraSdk.Host.HeapConservation
import ChimeraSdk.Host.FirstFit
import ChimeraSdk.Host.HeapStack
import ChimeraSdk.Host.Crt0
import ChimeraSdk.Host.Crt0Outline
import ChimeraSdk.Host.Crt0Exit
import ChimeraSdk.Host.ClearBss
import ChimeraSdk.Host.TestCluster
import ChimeraSdk.Host.TestRuns
import ChimeraSdk.Host.TestDeadline
import ChimeraSdk.Host.UartApb
import ChimeraSdk.Host.UartOpen
import ChimeraSdk.Host.Hyperbus
import ChimeraSdk.Device.Putc
import ChimeraSdk.Device.PutcBounds
import ChimeraSdk.Device.Exclusion
import ChimeraSdk.Device.Delivery
import ChimeraSdk.Device.ReturnChannel
import ChimeraSdk.Device.Trampoline
import ChimeraSdk.Device.HartMap
import ChimeraSdk.Device.Snrt
import ChimeraSdk.Device.SnrtInit
import ChimeraSdk.Device.SnrtImage
import ChimeraSdk.Device.ItaCheck
import ChimeraSdk.Device.KernelTest
import ChimeraSdk.Device.MatMul
import ChimeraSdk.Device.Chunks
import ChimeraSdk.Device.INoNorm
import ChimeraSdk.Device.LayerNorm
import ChimeraSdk.Device.ItaMatMul
import ChimeraSdk.Device.ItaBias
import ChimeraSdk.Device.ItaMatMulL1
import ChimeraSdk.Scripts.CheckSectionOverlaps
import ChimeraSdk.Scripts.OverlapOrder
import ChimeraSdk.Scripts.ObjdumpListing
import ChimeraSdk.Scripts.MergeElf
import ChimeraSdk.Scripts.DeviceSymbols
import ChimeraSdk.Scripts.GenerateTestVectors
import ChimeraSdk.Scripts.TestVectorText
import ChimeraSdk.Scripts.TestVectorRoundTrip
