import GolangBasics.Kafka.Rdkafka.Revocation
import GolangBasics.Kafka.Rdkafka.Lifecycle
import GolangBasics.Kafka.Rdkafka.Teardown
import GolangBasics.Kafka.Consumer.Ownership
import GolangBasics.Kafka.Consumer.Disposition
import GolangBasics.Valkey.Isolation
import GolangBasics.Tasks.Outbox.Delivery
import GolangBasics.Tasks.Outbox.DeadRows
import GolangBasics.Tasks.Outbox.Retries
import GolangBasics.Tasks.Store.Idempotency
import GolangBasics.Tasks.Cache.Freshness
import GolangBasics.Tasks.Cache.Refinement
import GolangBasics.Tasks.Cache.Contexts
import GolangBasics.Tasks.Wire.Texts
import GolangBasics.Tasks.Wire.Cursor
import GolangBasics.Tasks.Wire.Titles
import GolangBasics.Tasks.Pagination
import GolangBasics.Resilient.Transitions
import GolangBasics.Resilient.Gauge
import GolangBasics.Resilient.Trips
import GolangBasics.Resilient.Drain
import GolangBasics.Resilient.Budget
import GolangBasics.Resilient.Retry
import GolangBasics.Httpx.Latest
import GolangBasics.Httpx.Replacement
import GolangBasics.Httpx.Noninterference
import GolangBasics.Httpx.Status
import GolangBasics.Httpx.LogLevel
import GolangBasics.Httpx.CtxHandler
import GolangBasics.Httpx.Sampling
import GolangBasics.Httpx.Proxies
import GolangBasics.Pgx.Resume
import GolangBasics.Worker.Handle
import GolangBasics.Kafka.Consumer.Parking
import GolangBasics.Tasks.Wire.IfMatch
import GolangBasics.Resilient.RetryAfter
import GolangBasics.Tasks.Outbox.LastError
import GolangBasics.Kafka.Franz
import GolangBasics.Httpx.UrlPassword
import GolangBasics.Httpx.QuerySecrets
import GolangBasics.Httpx.KeywordDsn
import GolangBasics.Tasks.Outbox.Loop
