import ApiWatch.Go
import ApiWatch.Api
import ApiWatch.SpecForest
import ApiWatch.SubresourceTree
import ApiWatch.DefinerIndex
import ApiWatch.Enumerate
import ApiWatch.Catalog
import ApiWatch.Version
import ApiWatch.Sessions
import ApiWatch.Relist
import ApiWatch.Cache
import ApiWatch.Definers
import ApiWatch.Unordered
import ApiWatch.InSync
import ApiWatch.Notifiers
import ApiWatch.StoreKeys
import ApiWatch.Lister
