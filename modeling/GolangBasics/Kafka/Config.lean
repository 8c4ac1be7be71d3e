import GolangBasics.Fmt
import GolangBasics.Word
import Mathlib.Data.List.Sort

/-! The client configuration of `libs/kafka`: its defaults and what `Validate` makes of it. -/
namespace GolangBasics.Kafka

/-- `kafka.Config`. Durations are nanoseconds. -/
structure Config where
  brokers : List Bytes := []
  topic : Bytes := []
  topics : List Bytes := []
  group : Bytes := []
  clientID : Bytes := []
  dialTimeout : Int := 0
  publishTimeout : Int := 0
  statisticsInterval : Int := 0
  securityProtocol : Bytes := []
  saslMechanism : Bytes := []
  saslUsername : Bytes := []
  saslPassword : Bytes := []
  saslPasswordFile : Bytes := []
  sslCALocation : Bytes := []
  sslCertificateLocation : Bytes := []
  sslKeyLocation : Bytes := []
  sslEndpointIdentificationAlgorithm : Bytes := []
  producerQueueMaxKBytes : Int := 0
  producerQueueMaxMessages : Int := 0
  messageMaxBytes : Int := 0
  consumerQueueMaxKBytes : Int := 0
  consumerFetchMaxBytes : Int := 0
  consumerPartitionFetchMaxBytes : Int := 0
  compressionType : Bytes := []
  lingerMs : Int := 0
  assignmentStrategy : Bytes := []
  sessionTimeoutMs : Int := 0
  maxPollIntervalMs : Int := 0
  autoOffsetReset : Bytes := []
  maxPollRecords : Int := 0
  handlerTimeout : Int := 0
  maxRetries : Int := 0
  retryBackoff : Int := 0
  retryBackoffMax : Int := 0
  deadLetterTopic : Bytes := []
  drainTimeout : Int := 0
  extraProperties : List (Bytes × Bytes) := []
  producerExtraProperties : List (Bytes × Bytes) := []
  consumerExtraProperties : List (Bytes × Bytes) := []

/-- What `Validate` asks of the rest of the world: the files and the tables of Unicode. `openFile`
is `os.Open` and then `Stat`, which says whether the path is a directory. -/
structure World where
  toLower : Bytes → Bytes
  toUpper : Bytes → Bytes
  isPrint : Nat → Bool
  readFile : Bytes → Except Err Bytes
  openFile : Bytes → Except Err Bool

def millisecond : Int := 1000000

def setString (s default : Bytes) : Bytes := if s = [] then default else s

def setInt (n default : Int) : Int := if n = 0 then default else n

def defaultTopic : Bytes := utf8 "tasks.events"

def Config.withDefaults (w : World) (c : Config) : Config :=
  let topic := setString c.topic defaultTopic
  { c with
    topic
    topics := if c.topics.isEmpty && topic ≠ [] then [topic] else c.topics
    group := setString c.group (utf8 "tasks-consumer")
    clientID := setString c.clientID (utf8 "golang-basics")
    compressionType := setString c.compressionType (utf8 "lz4")
    autoOffsetReset := setString c.autoOffsetReset (utf8 "earliest")
    deadLetterTopic := setString c.deadLetterTopic (utf8 "\x7btopic\x7d.dlq")
    assignmentStrategy := setString c.assignmentStrategy (utf8 "cooperative-sticky")
    sessionTimeoutMs := setInt c.sessionTimeoutMs 45000
    maxPollIntervalMs := setInt c.maxPollIntervalMs 300000
    dialTimeout := setInt c.dialTimeout (10000 * millisecond)
    publishTimeout := setInt c.publishTimeout (5000 * millisecond)
    handlerTimeout := setInt c.handlerTimeout (30000 * millisecond)
    retryBackoff := setInt c.retryBackoff (200 * millisecond)
    retryBackoffMax := setInt c.retryBackoffMax (30000 * millisecond)
    drainTimeout := setInt c.drainTimeout (10000 * millisecond)
    statisticsInterval := setInt c.statisticsInterval 15000
    producerQueueMaxKBytes := setInt c.producerQueueMaxKBytes (64 * 1024)
    producerQueueMaxMessages := setInt c.producerQueueMaxMessages 100000
    messageMaxBytes := setInt c.messageMaxBytes 1000000
    consumerQueueMaxKBytes := setInt c.consumerQueueMaxKBytes (4 * 1024)
    consumerFetchMaxBytes := setInt c.consumerFetchMaxBytes (4 * 2 ^ 20)
    consumerPartitionFetchMaxBytes := setInt c.consumerPartitionFetchMaxBytes (2 ^ 20)
    lingerMs := setInt c.lingerMs 5
    maxPollRecords := setInt c.maxPollRecords 100
    maxRetries := setInt c.maxRetries 5
    securityProtocol := w.toLower (trimSpace c.securityProtocol)
    saslMechanism := w.toUpper (trimSpace c.saslMechanism) }

def require (ok : Bool) (texts : List Bytes) : List Err := if ok then [] else [.new texts.flatten]

def number (n : Int) : Bytes := utf8 (toString n)

def World.readable (w : World) (path : Bytes) (dirOK : Bool) : Option Err :=
  match w.openFile path with
  | .error err => some err
  | .ok isDir => if isDir && !dirOK then some (.new (path ++ utf8 " is a directory")) else none

def Config.validateFiles (w : World) (c : Config) : List Err :=
  let password : List Err :=
    if c.saslPasswordFile = [] then []
    else
      match w.readFile c.saslPasswordFile with
      | .error err => [.wrap "KAFKA_SASL_PASSWORD_FILE: " err]
      | .ok b => require (b.any fun x => x ≠ 0x0D && x ≠ 0x0A)
          [utf8 "KAFKA_SASL_PASSWORD_FILE: ", c.saslPasswordFile, utf8 " is empty"]
  let location (key : String) (path : Bytes) (isCA : Bool) : List Err :=
    if path = [] ∨ isCA ∧ path = utf8 "probe" then []
    else ((w.readable path isCA).map (Err.wrap (key ++ ": "))).toList
  (password ++ location "KAFKA_SSL_CA_LOCATION" c.sslCALocation true ++
    location "KAFKA_SSL_CERTIFICATE_LOCATION" c.sslCertificateLocation false ++
    location "KAFKA_SSL_KEY_LOCATION" c.sslKeyLocation false).insertionSort
      fun a b => a.text ≤ b.text

def protocolUses (protocol : Bytes) : Option (Bool × Bool) :=
  if protocol = [] ∨ protocol = utf8 "plaintext" then some (false, false)
  else if protocol = utf8 "ssl" then some (false, true)
  else if protocol = utf8 "sasl_plaintext" then some (true, false)
  else if protocol = utf8 "sasl_ssl" then some (true, true)
  else none

def Config.hasPassword (c : Config) : Bool := c.saslPassword ≠ [] || c.saslPasswordFile ≠ []

def Config.validateMechanism (w : World) (c : Config) : List Err :=
  if c.saslMechanism ∈ [utf8 "PLAIN", utf8 "SCRAM-SHA-256", utf8 "SCRAM-SHA-512"] then
    require (c.saslUsername ≠ [] && c.hasPassword) [utf8 "KAFKA_SASL_MECHANISM ", c.saslMechanism,
      utf8 " needs KAFKA_SASL_USERNAME and KAFKA_SASL_PASSWORD(_FILE)"]
  else if c.saslMechanism = [] then
    [.new (utf8 "KAFKA_SECURITY_PROTOCOL " ++ c.securityProtocol ++
      utf8 " needs KAFKA_SASL_MECHANISM (PLAIN|SCRAM-SHA-256|SCRAM-SHA-512)")]
  else
    [.new (utf8 "KAFKA_SASL_MECHANISM: unknown mechanism " ++ quote w.isPrint c.saslMechanism ++
      utf8 " (want PLAIN|SCRAM-SHA-256|SCRAM-SHA-512)")]

def Config.validateSecurity (w : World) (c : Config) : List Err :=
  match protocolUses c.securityProtocol with
  | none =>
    [.new (utf8 "KAFKA_SECURITY_PROTOCOL: unknown protocol " ++ quote w.isPrint c.securityProtocol ++
      utf8 " (want plaintext|ssl|sasl_plaintext|sasl_ssl)")]
  | some (sasl, tls) =>
    require (c.saslPassword = [] || c.saslPasswordFile = [])
        [utf8 "KAFKA_SASL_PASSWORD and KAFKA_SASL_PASSWORD_FILE are both set: pick one"] ++
      (if sasl then c.validateMechanism w
        else require (c.saslMechanism = [] && c.saslUsername = [] && !c.hasPassword)
          [utf8 ("KAFKA_SASL_* set but KAFKA_SECURITY_PROTOCOL is not sasl_plaintext " ++
            "or sasl_ssl")]) ++
      require (tls || c.sslCALocation = [] && c.sslCertificateLocation = [] &&
          c.sslKeyLocation = [] && c.sslEndpointIdentificationAlgorithm = [])
        [utf8 "KAFKA_SSL_* set but KAFKA_SECURITY_PROTOCOL is not ssl or sasl_ssl"] ++
      require (decide (c.sslCertificateLocation = []) == decide (c.sslKeyLocation = []))
        [utf8 "KAFKA_SSL_CERTIFICATE_LOCATION and KAFKA_SSL_KEY_LOCATION must be set together"] ++
      c.validateFiles w ++
      require (c.sslEndpointIdentificationAlgorithm ∈ [[], utf8 "https", utf8 "none"])
        [utf8 "KAFKA_SSL_ENDPOINT_IDENTIFICATION_ALGORITHM: want https|none, got ",
          quote w.isPrint c.sslEndpointIdentificationAlgorithm]

def positive (name : String) (n : Int) : List Err :=
  require (0 ≤ n) [utf8 (name ++ " must be positive")]

def Config.validateBuffers (c : Config) : List Err :=
  positive "KAFKA_PRODUCER_QUEUE_MAX_KBYTES" c.producerQueueMaxKBytes ++
    positive "KAFKA_PRODUCER_QUEUE_MAX_MESSAGES" c.producerQueueMaxMessages ++
    positive "KAFKA_MESSAGE_MAX_BYTES" c.messageMaxBytes ++
    positive "KAFKA_CONSUMER_QUEUE_MAX_KBYTES" c.consumerQueueMaxKBytes ++
    positive "KAFKA_CONSUMER_FETCH_MAX_BYTES" c.consumerFetchMaxBytes ++
    positive "KAFKA_CONSUMER_PARTITION_FETCH_MAX_BYTES" c.consumerPartitionFetchMaxBytes ++
    require (c.messageMaxBytes ≤ Word.wrap 64 (c.producerQueueMaxKBytes * 1024))
      [utf8 "KAFKA_MESSAGE_MAX_BYTES (", number c.messageMaxBytes,
        utf8 ") does not fit in KAFKA_PRODUCER_QUEUE_MAX_KBYTES (",
        number c.producerQueueMaxKBytes, utf8 " KiB)"] ++
    require (c.messageMaxBytes ≤ c.consumerFetchMaxBytes)
      [utf8 "KAFKA_CONSUMER_FETCH_MAX_BYTES (", number c.consumerFetchMaxBytes,
        utf8 ") is below KAFKA_MESSAGE_MAX_BYTES (", number c.messageMaxBytes,
        utf8 "): the largest record could not be fetched"] ++
    require (c.consumerPartitionFetchMaxBytes ≤ c.consumerFetchMaxBytes)
      [utf8 "KAFKA_CONSUMER_PARTITION_FETCH_MAX_BYTES (", number c.consumerPartitionFetchMaxBytes,
        utf8 ") is above KAFKA_CONSUMER_FETCH_MAX_BYTES (", number c.consumerFetchMaxBytes,
        utf8 ")"]

def Config.validateTimeouts (c : Config) : List Err :=
  (if c.sessionTimeoutMs < 0 ∨ c.maxPollIntervalMs < 0 then
      [.new (utf8 ("KAFKA_CONSUMER_SESSION_TIMEOUT_MS and KAFKA_CONSUMER_MAX_POLL_INTERVAL_MS " ++
        "must be positive"))]
    else require (c.sessionTimeoutMs ≤ c.maxPollIntervalMs)
      [utf8 "KAFKA_CONSUMER_MAX_POLL_INTERVAL_MS (", number c.maxPollIntervalMs,
        utf8 ") is below KAFKA_CONSUMER_SESSION_TIMEOUT_MS (", number c.sessionTimeoutMs,
        utf8 ")"]) ++
    require (0 ≤ c.lingerMs) [utf8 "KAFKA_PRODUCER_LINGER_MS must not be negative"] ++
    positive "KAFKA_DIAL_TIMEOUT" c.dialTimeout ++
    positive "KAFKA_PUBLISH_TIMEOUT" c.publishTimeout ++
    positive "KAFKA_CONSUMER_HANDLER_TIMEOUT" c.handlerTimeout ++
    positive "KAFKA_CONSUMER_RETRY_BACKOFF" c.retryBackoff ++
    positive "KAFKA_CONSUMER_RETRY_BACKOFF_MAX" c.retryBackoffMax ++
    positive "KAFKA_CONSUMER_DRAIN_TIMEOUT" c.drainTimeout ++
    require (c.retryBackoff ≤ c.retryBackoffMax)
      [utf8 "KAFKA_CONSUMER_RETRY_BACKOFF_MAX (", durationString c.retryBackoffMax,
        utf8 ") is below KAFKA_CONSUMER_RETRY_BACKOFF (", durationString c.retryBackoff, utf8 ")"]

abbrev Driver := Config → List Err

/-- The errors of a complete configuration, in the order of the source; that of the maps it
ranges over is not defined. -/
def Config.errors (w : World) (registered : Option Driver) (c : Config) : List Err :=
  require (!c.brokers.isEmpty) [utf8 "KAFKA_BROKERS must be set"] ++
    require (c.brokers.all fun b => trimSpace b ≠ [])
      [utf8 "KAFKA_BROKERS: empty broker address"] ++
    c.validateSecurity w ++ c.validateBuffers ++
    require (c.compressionType ∈
        [utf8 "none", utf8 "gzip", utf8 "snappy", utf8 "lz4", utf8 "zstd"])
      [utf8 "KAFKA_PRODUCER_COMPRESSION_TYPE: unknown codec ", quote w.isPrint c.compressionType,
        utf8 " (want none|gzip|snappy|lz4|zstd)"] ++
    require (c.autoOffsetReset ∈ [utf8 "earliest", utf8 "latest"])
      [utf8 "KAFKA_CONSUMER_AUTO_OFFSET_RESET: want earliest|latest, got ",
        quote w.isPrint c.autoOffsetReset] ++
    require (c.assignmentStrategy ∈ [utf8 "cooperative-sticky", utf8 "range", utf8 "roundrobin"])
      [utf8 "KAFKA_CONSUMER_ASSIGNMENT_STRATEGY: want cooperative-sticky|range|roundrobin, got ",
        quote w.isPrint c.assignmentStrategy] ++
    c.validateTimeouts ++
    positive "KAFKA_CONSUMER_MAX_POLL_RECORDS" c.maxPollRecords ++
    require (trimSpace c.deadLetterTopic = c.deadLetterTopic)
      [utf8 "KAFKA_DEAD_LETTER_TOPIC ", quote w.isPrint c.deadLetterTopic,
        utf8 " has surrounding spaces"] ++
    (registered.map fun driver => driver c).getD []

def Config.validate (w : World) (registered : Option Driver) (c : Config) : Config × Option Err :=
  (c.withDefaults w, Err.join ((c.withDefaults w).errors w registered))

/-- The bounds of an accepted configuration: all set, and the record and the share of one
partition no larger than a fetch. -/
structure Bounded (c : Config) : Prop where
  producerQueue : 0 < c.producerQueueMaxKBytes
  message : 0 < c.messageMaxBytes
  consumerQueue : 0 < c.consumerQueueMaxKBytes
  partition : 0 < c.consumerPartitionFetchMaxBytes
  message_le : c.messageMaxBytes ≤ c.consumerFetchMaxBytes
  partition_le : c.consumerPartitionFetchMaxBytes ≤ c.consumerFetchMaxBytes

theorem join_eq_none {errs : List Err} (h : Err.join errs = none) : errs = [] := by
  cases errs with
  | nil => rfl
  | cons e es => cases h

theorem require_eq_nil {ok : Bool} {texts : List Bytes} (h : require ok texts = []) :
    ok = true := by
  cases ok with
  | true => rfl
  | false => cases h

theorem positive_eq_nil {name : String} {n : Int} (h : positive name n = []) : 0 ≤ n :=
  of_decide_eq_true (require_eq_nil h)

theorem setInt_ne_zero {n default : Int} (h : default ≠ 0) : setInt n default ≠ 0 := by
  unfold setInt
  split
  · exact h
  · assumption

theorem bounded_of_validate {w : World} {registered : Option Driver} {c c' : Config}
    (h : c.validate w registered = (c', none)) : Bounded c' := by
  obtain ⟨rfl, hnone⟩ := Prod.mk.inj h
  have hbuffers : (c.withDefaults w).validateBuffers = [] := by
    have herrors := join_eq_none hnone
    simp only [Config.errors, List.append_eq_nil_iff] at herrors
    tauto
  simp only [Config.validateBuffers, List.append_eq_nil_iff] at hbuffers
  obtain ⟨⟨⟨⟨⟨⟨⟨⟨hqueue, -⟩, hmessage⟩, hconsumer⟩, -⟩, hpartition⟩, -⟩, hfetch⟩, hshare⟩ :=
    hbuffers
  exact {
    producerQueue := lt_of_le_of_ne (positive_eq_nil hqueue) (setInt_ne_zero (by decide)).symm
    message := lt_of_le_of_ne (positive_eq_nil hmessage) (setInt_ne_zero (by decide)).symm
    consumerQueue := lt_of_le_of_ne (positive_eq_nil hconsumer) (setInt_ne_zero (by decide)).symm
    partition := lt_of_le_of_ne (positive_eq_nil hpartition) (setInt_ne_zero (by decide)).symm
    message_le := of_decide_eq_true (require_eq_nil hfetch)
    partition_le := of_decide_eq_true (require_eq_nil hshare) }

end GolangBasics.Kafka
