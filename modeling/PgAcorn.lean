import PgAcorn.Filter
import PgAcorn.Scan.Stream
import PgAcorn.Scan.Eager
import PgAcorn.Scan.Switches
import PgAcorn.Scan.Metric
import PgAcorn.Graph
import PgAcorn.Build.Stride
import PgAcorn.Build.Lost
import PgAcorn.Build.CreateIndex
import PgAcorn.Build.Memory
import PgAcorn.Build.Spill
import PgAcorn.Build.ReadBack
import PgAcorn.Vacuum
import PgAcorn.CodeCache.Runs
import PgAcorn.CodeCache.Torn
import PgAcorn.SharedCache.Attached
import PgAcorn.SharedCache.Counts
import PgAcorn.SharedCache.Frees
import PgAcorn.SharedCache.Bytes
import PgAcorn.SharedCache.LoadComplete
import PgAcorn.Tier1.Search
import PgAcorn.Tier1.Hook
import PgAcorn.Columns
import PgAcorn.AutoEf
import PgAcorn.Build.Diversified
import PgAcorn.Build.HalvesDisk
import PgAcorn.Build.Descents
import PgAcorn.Build.InlineLayout
import PgAcorn.Build.PayloadCounts
import PgAcorn.Build.Chains
import PgAcorn.Build.ScanAmong
