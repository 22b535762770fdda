import MiniRedis.Config

/-!
# Metrics

Each counter is an `AtomicUsize`, which wraps around in both directions.
-/
namespace MiniRedis

/-- `fetch_add(1)`. -/
def fetchAdd (count : ℕ) : ℕ := if count = usizeMax then 0 else count + 1

/-- `fetch_sub(1)`. -/
def fetchSub (count : ℕ) : ℕ := if count = 0 then usizeMax else count - 1

theorem fetchAdd_of_lt {count : ℕ} (h : count < usizeMax) : fetchAdd count = count + 1 :=
  if_neg (Nat.ne_of_lt h)

theorem fetchSub_of_pos {count : ℕ} (h : 0 < count) : fetchSub count = count - 1 :=
  if_neg (Nat.ne_of_gt h)

structure Metrics where
  activeConnections : ℕ
  requestsReceived : ℕ
  commandResponsesWritten : ℕ
  cacheHits : ℕ
  cacheMisses : ℕ
  commandParseErrors : ℕ
  acceptErrors : ℕ
  deriving DecidableEq, Repr

namespace Metrics

/-- `Metrics::new`. -/
def new : Metrics := ⟨0, 0, 0, 0, 0, 0, 0⟩

def incActiveConnections (metrics : Metrics) : Metrics :=
  { metrics with activeConnections := fetchAdd metrics.activeConnections }

def decActiveConnections (metrics : Metrics) : Metrics :=
  { metrics with activeConnections := fetchSub metrics.activeConnections }

def incRequestsReceived (metrics : Metrics) : Metrics :=
  { metrics with requestsReceived := fetchAdd metrics.requestsReceived }

def incCommandResponsesWritten (metrics : Metrics) : Metrics :=
  { metrics with commandResponsesWritten := fetchAdd metrics.commandResponsesWritten }

def incCacheHits (metrics : Metrics) : Metrics :=
  { metrics with cacheHits := fetchAdd metrics.cacheHits }

def incCacheMisses (metrics : Metrics) : Metrics :=
  { metrics with cacheMisses := fetchAdd metrics.cacheMisses }

def incCommandParseErrors (metrics : Metrics) : Metrics :=
  { metrics with commandParseErrors := fetchAdd metrics.commandParseErrors }

def incAcceptErrors (metrics : Metrics) : Metrics :=
  { metrics with acceptErrors := fetchAdd metrics.acceptErrors }

end Metrics
end MiniRedis
