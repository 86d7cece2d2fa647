import NevoMessaging.Outbox.Records
import NevoMessaging.Pg.Outbox
import NevoMessaging.Saga.Cause
import NevoMessaging.Saga.Recovery
import NevoMessaging.Workflow.Determinism
import NevoMessaging.Workflow.Wakeup
import NevoMessaging.Workflow.Replicas
import NevoMessaging.Pg.Delivery
import NevoMessaging.Pg.Visibility
import NevoMessaging.Idempotency.Key
import NevoMessaging.Idempotency.Transfer
import NevoMessaging.Inbox.Dedupe
import NevoMessaging.Inbox.Redis
import NevoMessaging.ReplayGuard
import NevoMessaging.Dlq
import NevoMessaging.Circuit.Probes
import NevoMessaging.Circuit.Count
import NevoMessaging.Wire.Codec
import NevoMessaging.AccessControl
import NevoMessaging.Scheduler.Recurring
import NevoMessaging.Scheduler.Retention
import NevoMessaging.Transport.WsClient
import NevoMessaging.Transport.KafkaClient
import NevoMessaging.Transport.Sse
import NevoMessaging.RateLimit.Bound
import NevoMessaging.RateLimit.Evict
import NevoMessaging.RateLimit.Key
import NevoMessaging.Resilience.Adaptive
import NevoMessaging.Resilience.TenantPolicy
import NevoMessaging.Scheduler.DueHeap
import NevoMessaging.Compression
import NevoMessaging.Transport.Nats
import NevoMessaging.Transport.Http
