import EsLite.Foundation.Interleaving
import EsLite.Es.Detection
import EsLite.Sqlite.Stored
import EsLite.Sqlite.Claims
import EsLite.Sqlite.Anchored
import EsLite.Sqlite.Order
import EsLite.Sqlite.Duplicates
import EsLite.Delivery.Poller
import EsLite.Delivery.Relay
import EsLite.Delivery.Run
import EsLite.Projection.Rebuild
import EsLite.Postgres.Anchor
import EsLite.Postgres.Conflicts
import EsLite.Aggregate.Generated
import EsLite.Aggregate.Rollback
import EsLite.Aggregate.DecidedAt
import EsLite.Aggregate.Verified
import EsLite.Aggregate.Staleness
import EsLite.Feed.Admin
import EsLite.Feed.Skip
import EsLite.Feed.Pages
import EsLite.Feed.Stall
import EsLite.Feed.Drift
import EsLite.Feed.Adapters
import EsLite.Eventfeed.Redelivery
import EsLite.Generator.Emit
import EsLite.Foundation.Calendar
import EsLite.Foundation.Decimal
import EsLite.Sqlite.Timestamp
import EsLite.Foundation.Process
