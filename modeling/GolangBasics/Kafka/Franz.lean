import GolangBasics.Kafka.Config

/-! The sizes that `libs/kafka-franz` hands to franz-go. -/
namespace GolangBasics.Kafka.Franz

def minBrokerReadBytes : Int := 16 * 2 ^ 20

def validate (c : Config) : List Err :=
  let refuse (name : String) (props : List (Bytes × Bytes)) : List Err :=
    require props.isEmpty [utf8 (name ++ " is set, but these are librdkafka properties and this " ++
      "binary links franz-go, which has no string-keyed configuration (every setting is a typed " ++
      "option): use the named KAFKA_* keys, or build with KAFKA_PROVIDER=rdkafka")]
  refuse "KAFKA_EXTRA_PROPERTIES" c.extraProperties ++
    refuse "KAFKA_PRODUCER_EXTRA_PROPERTIES" c.producerExtraProperties ++
    refuse "KAFKA_CONSUMER_EXTRA_PROPERTIES" c.consumerExtraProperties

structure CommonSizes where
  brokerMaxReadBytes : Int
  fetchMaxBytes : Int
  fetchMaxPartitionBytes : Int
  deriving DecidableEq

structure ProducerSizes where
  maxBufferedRecords : Int
  maxBufferedBytes : Int
  producerBatchMaxBytes : Int
  deriving DecidableEq

def commonOpts (c : Config) : CommonSizes where
  brokerMaxReadBytes :=
    Word.wrap 32 (max (Word.wrap 64 (c.consumerFetchMaxBytes + 2 ^ 20)) minBrokerReadBytes)
  fetchMaxBytes := Word.wrap 32 c.consumerFetchMaxBytes
  fetchMaxPartitionBytes := Word.wrap 32 c.consumerPartitionFetchMaxBytes

def producerOpts (c : Config) : ProducerSizes where
  maxBufferedRecords := c.producerQueueMaxMessages
  maxBufferedBytes := Word.wrap 64 (c.producerQueueMaxKBytes * 1024)
  producerBatchMaxBytes := Word.wrap 32 c.messageMaxBytes

/-- The `MaxConcurrentFetches` of `consumerOpts`; a division by zero panics. -/
def consumerOpts (c : Config) : Option Int :=
  if c.consumerFetchMaxBytes = 0 then none
  else some (max ((Word.wrap 64 (c.consumerQueueMaxKBytes * 1024)).tdiv c.consumerFetchMaxBytes) 1)

/-- Every size that franz-go gets is the configured number. -/
structure Exact (c : Config) : Prop where
  common : commonOpts c =
    ⟨max (c.consumerFetchMaxBytes + 2 ^ 20) minBrokerReadBytes, c.consumerFetchMaxBytes,
      c.consumerPartitionFetchMaxBytes⟩
  producer : producerOpts c =
    ⟨c.producerQueueMaxMessages, c.producerQueueMaxKBytes * 1024, c.messageMaxBytes⟩
  consumer : consumerOpts c =
    some (max (c.consumerQueueMaxKBytes * 1024 / c.consumerFetchMaxBytes) 1)
  products : Word.Fits 63 (c.producerQueueMaxKBytes * 1024) ∧
    Word.Fits 63 (c.consumerQueueMaxKBytes * 1024)
  read : c.consumerFetchMaxBytes + 2 ^ 20 ≤ (commonOpts c).brokerMaxReadBytes
  prefetch : ∃ n, consumerOpts c = some n ∧ 1 ≤ n

structure Small (c : Config) : Prop where
  fetch : c.consumerFetchMaxBytes + 2 ^ 20 < 2 ^ 31
  producerQueue : c.producerQueueMaxKBytes * 1024 < 2 ^ 63
  consumerQueue : c.consumerQueueMaxKBytes * 1024 < 2 ^ 63

instance (c : Config) : Decidable (Small c) :=
  decidable_of_iff (c.consumerFetchMaxBytes + 2 ^ 20 < 2 ^ 31 ∧
      c.producerQueueMaxKBytes * 1024 < 2 ^ 63 ∧ c.consumerQueueMaxKBytes * 1024 < 2 ^ 63)
    ⟨fun h => ⟨h.1, h.2.1, h.2.2⟩, fun h => ⟨h.fetch, h.producerQueue, h.consumerQueue⟩⟩

variable {c : Config}

theorem commonOpts_eq (h : Bounded c) (hsmall : Small c) :
    commonOpts c = ⟨max (c.consumerFetchMaxBytes + 2 ^ 20) minBrokerReadBytes,
      c.consumerFetchMaxBytes, c.consumerPartitionFetchMaxBytes⟩ := by
  have hpartition := h.partition
  have hle := h.partition_le
  have hfetch := hsmall.fetch
  have hfloor : minBrokerReadBytes = 16777216 := by decide
  unfold commonOpts
  congr 1
  · have hsum : Word.wrap 64 (c.consumerFetchMaxBytes + 2 ^ 20) =
        c.consumerFetchMaxBytes + 2 ^ 20 := Word.wrap_eq ⟨by omega, by omega⟩
    rw [hsum]
    exact Word.wrap_eq ⟨by omega, by omega⟩
  · exact Word.wrap_eq ⟨by omega, by omega⟩
  · exact Word.wrap_eq ⟨by omega, by omega⟩

theorem producerOpts_eq (h : Bounded c) (hsmall : Small c) :
    producerOpts c =
      ⟨c.producerQueueMaxMessages, c.producerQueueMaxKBytes * 1024, c.messageMaxBytes⟩ := by
  have hqueue := h.producerQueue
  have hmessage := h.message
  have hle := h.message_le
  have hfetch := hsmall.fetch
  unfold producerOpts
  congr 1
  · exact Word.wrap_eq ⟨by omega, hsmall.producerQueue⟩
  · exact Word.wrap_eq ⟨by omega, by omega⟩

theorem consumerOpts_eq (h : Bounded c) (hsmall : Small c) :
    consumerOpts c =
      some (max (c.consumerQueueMaxKBytes * 1024 / c.consumerFetchMaxBytes) 1) := by
  have hqueue := h.consumerQueue
  have hpartition := h.partition
  have hle := h.partition_le
  rw [consumerOpts, if_neg (by omega), Word.wrap_eq ⟨by omega, hsmall.consumerQueue⟩,
    Int.tdiv_eq_ediv_of_nonneg (by omega)]

theorem exact_of_small (h : Bounded c) (hsmall : Small c) : Exact c := by
  have hproducer := h.producerQueue
  have hconsumer := h.consumerQueue
  have hopts := commonOpts_eq h hsmall
  exact {
    common := hopts
    producer := producerOpts_eq h hsmall
    consumer := consumerOpts_eq h hsmall
    products := ⟨⟨by omega, hsmall.producerQueue⟩, ⟨by omega, hsmall.consumerQueue⟩⟩
    read := by
      rw [hopts]
      exact le_max_left _ _
    prefetch := ⟨_, consumerOpts_eq h hsmall, le_max_right _ _⟩ }

theorem small_of_exact (h : Exact c) : Small c := by
  have hread : Word.wrap 32
      (max (Word.wrap 64 (c.consumerFetchMaxBytes + 2 ^ 20)) minBrokerReadBytes) =
        max (c.consumerFetchMaxBytes + 2 ^ 20) minBrokerReadBytes :=
    congrArg CommonSizes.brokerMaxReadBytes h.common
  have hfits := Word.fits_wrap 31
    (max (Word.wrap 64 (c.consumerFetchMaxBytes + 2 ^ 20)) minBrokerReadBytes)
  rw [hread] at hfits
  exact ⟨(le_max_left _ _).trans_lt hfits.2, h.products.1.2, h.products.2.2⟩

/-- For every accepted configuration the sizes arrive as they are exactly when a fetch and its
framing are below 2 GiB and the two queues below 8 EiB: `Validate` compares the bounds with each
other and has no limit of its own. -/
theorem exact_iff_small (w : World) (registered : Option Driver) (c c' : Config)
    (h : c.validate w registered = (c', none)) : Exact c' ↔ Small c' :=
  ⟨small_of_exact, exact_of_small (bounded_of_validate h)⟩

def plainWorld : World where
  toLower := id
  toUpper := id
  isPrint _ := true
  readFile _ := .error (.new (utf8 "file does not exist"))
  openFile _ := .error (.new (utf8 "file does not exist"))

def withBounds (fetch producerQueue : Int) : Config :=
  { brokers := [utf8 "kafka:9092"], consumerFetchMaxBytes := fetch,
    producerQueueMaxKBytes := producerQueue }

/-- Fetches of 8 MiB and a queue of 128 MiB. -/
def ownSizes : Config := withBounds (8 * 2 ^ 20) (128 * 1024)

theorem exact_iff_small_ownSizes :
    ownSizes.validate plainWorld (some validate) = (ownSizes.withDefaults plainWorld, none) ∧
      (Exact (ownSizes.withDefaults plainWorld) ↔ Small (ownSizes.withDefaults plainWorld)) ∧
      Small (ownSizes.withDefaults plainWorld) := by
  have haccepted : ownSizes.validate plainWorld (some validate) =
      (ownSizes.withDefaults plainWorld, none) := Prod.ext rfl (by decide +kernel)
  exact ⟨haccepted, exact_iff_small plainWorld (some validate) _ _ haccepted, by decide⟩

/-- A fetch of 2 GiB is accepted and becomes negative; so is a producer queue of 2^54 KiB and
a little more, of which the little is left. -/
theorem large_accepted :
    ((withBounds (2 ^ 31) 0).validate plainWorld (some validate)).2 = none ∧
      commonOpts ((withBounds (2 ^ 31) 0).withDefaults plainWorld) =
        ⟨-2 ^ 31 + 2 ^ 20, -2 ^ 31, 2 ^ 20⟩ ∧
      ((withBounds 0 (2 ^ 54 + 1000)).validate plainWorld (some validate)).2 = none ∧
      (producerOpts ((withBounds 0 (2 ^ 54 + 1000)).withDefaults plainWorld)).maxBufferedBytes =
        1024000 := by
  decide +kernel

end GolangBasics.Kafka.Franz
