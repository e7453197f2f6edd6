import IcebergDb.Plan.DimKeyBounds
import IcebergDb.Cache.FsPut
import IcebergDb.Cache.CatalogIsolation
import IcebergDb.Foundation.Relational
import IcebergDb.Plan.PhysicalPlan
import IcebergDb.Plan.FkBoundPushdown
import IcebergDb.Plan.FactFilterPushdown
import IcebergDb.Cache.ReadAfterWrite
import IcebergDb.Catalog.Hadoop
import IcebergDb.Sql.CaseInsensitive
import IcebergDb.Expr.Binding
import IcebergDb.Expr.ExprToPredicate
import IcebergDb.Expr.RowFilter
import IcebergDb.Delete.EqualityDeletes
import IcebergDb.Delete.DeleteFilter
import IcebergDb.Session.QueryCancel
import IcebergDb.Catalog.RestAuth
import IcebergDb.Catalog.HttpLog
import IcebergDb.Scan.ScanExecution
import IcebergDb.Plan.FkBoundErrors
import IcebergDb.Foundation.Distribution
import IcebergDb.Plan.CollectLeft
import IcebergDb.Foundation.Greedy
import IcebergDb.Scan.FileBalance
import IcebergDb.Cache.MemoryCapacity
import IcebergDb.Plan.JoinReorder
import IcebergDb.Plan.KeyStream
import IcebergDb.Plan.ScanFilterFrame
import IcebergDb.Expr.IntegerIn
import IcebergDb.Cache.BrowserRead
import IcebergDb.Foundation.PercentEncoding
import IcebergDb.Foundation.UrlPath
import IcebergDb.Foundation.Url
import IcebergDb.Catalog.S3Address
import IcebergDb.Catalog.TableEndpoint
import IcebergDb.Foundation.Paging
import IcebergDb.Catalog.TableListing
import IcebergDb.Foundation.UrlQuery
import IcebergDb.Sql.NameResolution
import IcebergDb.Foundation.Picking
import IcebergDb.Catalog.HorizonProps
import IcebergDb.Catalog.ResolvedPaths
import IcebergDb.Bench.History
import IcebergDb.Sql.ShowTables
import IcebergDb.Session.TextSlices
import IcebergDb.Proxy.RequestTarget
import IcebergDb.Foundation.UrlAuthority
import IcebergDb.Proxy.Upstream
import IcebergDb.Foundation.Words
import IcebergDb.Bench.Qualify
import IcebergDb.Delete.PositionalDeletes
import IcebergDb.Delete.PositionalLoad
import IcebergDb.Expr.ColumnMetrics
import IcebergDb.Scan.FileRead
import IcebergDb.Scan.RangeReads
import IcebergDb.Foundation.Checked
import IcebergDb.Foundation.Optimistic
import IcebergDb.Table.Commits
import IcebergDb.Foundation.TwosComplement
import IcebergDb.Foundation.Utf8Order
import IcebergDb.Scan.PartitionPruning
