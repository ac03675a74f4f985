import VllmHcu.Lib.Scatter
import VllmHcu.Lib.Packing
import VllmHcu.Lib.Result
import VllmHcu.Lib.Run
import VllmHcu.Pcp.Layout
import VllmHcu.Pcp.LayoutSound
import VllmHcu.Pcp.Partition
import VllmHcu.Pcp.PartitionSound
import VllmHcu.Pcp.Gather
import VllmHcu.Pcp.RowSound
import VllmHcu.Pcp.AlignSound
import VllmHcu.Pcp.GatherSound
import VllmHcu.Dsa.Broadcast
import VllmHcu.Dsa.BroadcastSound
import VllmHcu.Dsa.PackedLayout
import VllmHcu.Dsa.SlotSound
import VllmHcu.Dsa.RemapSound
import VllmHcu.Dsa.PlannerSound
import VllmHcu.Mooncake.Sender
import VllmHcu.Mooncake.PullSound
import VllmHcu.Mooncake.ReleaseSound
import VllmHcu.Step4.Pending
import VllmHcu.Step4.PendingSound
import VllmHcu.Step4.Schedule
import VllmHcu.Step4.Summaries
import VllmHcu.Step4.ScheduleSound
import VllmHcu.Step4.UpdateSound
import VllmHcu.Step4.VerifySound
import VllmHcu.Step4.Forward
import VllmHcu.Lib.RowMajor
import VllmHcu.Sp.HeadExchangeSound
import VllmHcu.Dcp.TopkMerge
import VllmHcu.Dcp.TopkMergeSound
import VllmHcu.Runner.HostSeqLens
import VllmHcu.Runner.HostSeqLensSound
import VllmHcu.Mooncake.CounterSound
import VllmHcu.Mooncake.Receiver
import VllmHcu.Mooncake.ReceiverSound
import VllmHcu.Lib.TopK
import VllmHcu.Lib.Assoc
import VllmHcu.Ipc.AllGather
import VllmHcu.Ipc.ChunkSound
import VllmHcu.Lib.Causal
import VllmHcu.Ipc.AllGatherSound
import VllmHcu.Ipc.PackedGather
import VllmHcu.Ipc.Teardown
import VllmHcu.Ipc.TeardownSound
import VllmHcu.Ipc.SessionSound
import VllmHcu.Ipc.ReleaseSound
import VllmHcu.Lib.Ledger
import VllmHcu.CustomAr.AllReduce
import VllmHcu.CustomAr.KernelSound
import VllmHcu.CustomAr.BarrierSound
import VllmHcu.CustomAr.AllReduceSound
import VllmHcu.CustomAr.WrapAround
import VllmHcu.Du.MemoryPool
import VllmHcu.Du.MemoryPoolSound
import VllmHcu.Du.Producer
import VllmHcu.Du.ProducerSound
import VllmHcu.Dbo.Split
import VllmHcu.Dbo.SplitSound
import VllmHcu.Du.Pending
import VllmHcu.Du.PendingSound
import VllmHcu.Eplb.Record
import VllmHcu.Eplb.RecordSound
import VllmHcu.Mtp.PrefillTail
import VllmHcu.Mtp.PrefillTailSound
import VllmHcu.Patch.Registry
import VllmHcu.Patch.RegistrySound
import VllmHcu.Lib.Interleave
import VllmHcu.Patch.Replacement
import VllmHcu.Patch.ReplacementSound
import VllmHcu.Ple.Streaming
import VllmHcu.Ple.StreamingSound
import VllmHcu.Patch.Coordinator
import VllmHcu.Patch.CoordinatorSound
import VllmHcu.Lib.Copies
import VllmHcu.Mooncake.BoundsSound
import VllmHcu.Mooncake.Topology
import VllmHcu.Mooncake.TopologySound
import VllmHcu.Mooncake.WindowSound
import VllmHcu.Pcp.Plan
import VllmHcu.Pcp.WidthSound
import VllmHcu.HyV4.Checkpoint
import VllmHcu.HyV4.CheckpointSound
import VllmHcu.Lib.Cut
import VllmHcu.Sparse.Meta
import VllmHcu.Sparse.MetaSound
import VllmHcu.Dbo.AgreeSound
import VllmHcu.Dbo.SplitStepSound
import VllmHcu.Dsa.BudgetSound
import VllmHcu.Dsa.ScratchSound
import VllmHcu.Du.ListenerSound
import VllmHcu.Du.Routing
import VllmHcu.Du.RoutingSound
import VllmHcu.Du.SendStoreSound
import VllmHcu.Kv.ConfinedSound
import VllmHcu.Lib.Ragged
import VllmHcu.Mla.DecodeRows
import VllmHcu.Mla.DecodeRowsSound
import VllmHcu.Patch.FeatureSound
import VllmHcu.Pcp.PlanSound
import VllmHcu.Pcp.SeqLensSound
import VllmHcu.Compressor.C128
import VllmHcu.Compressor.C128Sound
import VllmHcu.Cp.Distribute
import VllmHcu.Cp.DistributeSound
import VllmHcu.Cp.MetadataSound
import VllmHcu.Eplb.Dispatch
import VllmHcu.Eplb.DispatchSound
import VllmHcu.Eplb.StaticLoad
import VllmHcu.Eplb.StaticLoadSound
import VllmHcu.Lib.Bounds
import VllmHcu.Lib.Commute
import VllmHcu.Lib.Counters
import VllmHcu.Moe.Permute
import VllmHcu.Moe.PermuteSound
import VllmHcu.Pcp.LocalRows
import VllmHcu.Pcp.LocalRowsSound
import VllmHcu.Step4.KernelSound
import VllmHcu.Swa.Decode
import VllmHcu.Swa.DecodeSound
import VllmHcu.Lib.Staging
import VllmHcu.Step4.Persistent
import VllmHcu.Step4.PersistentSound
import VllmHcu.Step4.Refine
import VllmHcu.Lib.Launch
import VllmHcu.Lib.RowSearch
import VllmHcu.Lib.Nibbles
import VllmHcu.Lib.Axes
import VllmHcu.Quant.Awq
import VllmHcu.Quant.AwqSound
import VllmHcu.Quant.Int4Layout
import VllmHcu.Quant.Int4LayoutSound
import VllmHcu.DeepseekV4.Prefill
import VllmHcu.DeepseekV4.PrefillSound
import VllmHcu.Ple.NgramIds
import VllmHcu.Ple.NgramIdsSound
import VllmHcu.Lib.RowShard
import VllmHcu.HyV4.GateShardSound
import VllmHcu.Lib.LogSumExp
import VllmHcu.HyV4.SinkDcp
import VllmHcu.HyV4.SinkDcpSound
import VllmHcu.KimiK3.SpMoe
import VllmHcu.KimiK3.SpMoeSound
import VllmHcu.Qwen4Exp.HcSp
import VllmHcu.Qwen4Exp.HcSpSound
import VllmHcu.Sparse.OrderSound
import VllmHcu.Sparse.TilesSound
import VllmHcu.Step4.PrefillRows
import VllmHcu.Step4.PendingRuns
import VllmHcu.Cache.Fp8Sound
import VllmHcu.Cache.WritersSound
import VllmHcu.EpMoe.SortSound
import VllmHcu.EpMoe.DirectCombineSound
import VllmHcu.EpMoe.ChunksSound
import VllmHcu.Moe.DpPipeSound
import VllmHcu.Moe.EpCombineSound
import VllmHcu.DeepseekV4.CompressWindow
