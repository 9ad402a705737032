import Redcurrant.Sqliterepo.Election.Pipefrom
import Redcurrant.Sqliterepo.Election.Znodes
import Redcurrant.Sqliterepo.Agreement
import Redcurrant.Sqliterepo.Election.Prelead
import Redcurrant.Sqliterepo.Cache.Wakeup
import Redcurrant.Meta2.Retention
import Redcurrant.Meta2.Accounting
import Redcurrant.Meta2.Properties
import Redcurrant.Meta2.Restore
import Redcurrant.Meta2.Pagination
import Redcurrant.Meta2.Dedup
import Redcurrant.Meta2.CheckLayout
import Redcurrant.Meta0.Fill
import Redcurrant.Rawx.ZlibReader
import Redcurrant.Rawx.Workers
import Redcurrant.Client.DownloadRange
import Redcurrant.Server.GriddFrames
import Redcurrant.Server.HttpPipeline
import Redcurrant.Metautils.ClientPool
import Redcurrant.Metautils.AclForms
import Redcurrant.Resolver.Cache
import Redcurrant.Metacd.LimitedCache
import Redcurrant.Metacd.Locktab
import Redcurrant.Metautils.HcUrlRoundtrip
import Redcurrant.Metautils.HcUrlCoherence
import Redcurrant.Conscience.BrokenRestore
import Redcurrant.Sqliterepo.VersionVector
import Redcurrant.Sqliterepo.Destroy
import Redcurrant.Sqliterepo.Increment
import Redcurrant.Sqliterepo.Cache.Capacity
import Redcurrant.Meta2.Listed
import Redcurrant.Meta1.PolicyRun
import Redcurrant.Metautils.Redirects
import Redcurrant.Meta0.Conversion
import Redcurrant.Metautils.LbOptions
import Redcurrant.Metautils.LbRandom
import Redcurrant.Conscience.SrvType
import Redcurrant.Metautils.Metadata
import Redcurrant.Metautils.Containers
