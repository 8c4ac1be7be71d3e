import GolangBasics.Conc.Trace
import GolangBasics.Kafka.Consumer.Process
import GolangBasics.Slices
import GolangBasics.Strconv

/-! The headers of a record that is parked on the dead-letter topic, as slices: `deadLetter`
builds a slice of its own, and every publish sends a copy of it with the trace context. -/
namespace GolangBasics.Kafka.Consumer
open Conc Slices List

def headerValue (hs : List Header) (key : String) : Option Bytes :=
  (hs.find? fun h => h.key = key).map Header.value

inductive CarrierReq where
  | get (key : String)
  | set (key : String) (value : Bytes)
  | keys

abbrev CarrierRep : CarrierReq → Type
  | .get _ => Bytes
  | .set .. => Unit
  | .keys => List String

/-- The `Inject` of the installed propagator, which may do with the carrier what it likes. -/
abbrev Propagation := Prog CarrierReq CarrierRep Unit

def CarrierReq.Writes (written : List String) : CarrierReq → Prop
  | .set key _ => key ∈ written
  | _ => True

section

variable (spare : Nat → List Header)

def carrierSet (m : Memory Header) (hs : Slice) (key : String) (value : Bytes) :
    Slice × Memory Header :=
  match (m.read hs).findIdx? fun h => h.key = key with
  | some i => (hs, m.write hs i [⟨key, value⟩])
  | none => m.append spare hs [⟨key, value⟩]

def inject : Propagation → Memory Header → Slice → Slice × Memory Header
  | .ret _, m, hs => (hs, m)
  | .ask (.get key) k, m, hs => inject (k ((headerValue (m.read hs) key).getD [])) m hs
  | .ask (.set key value) k, m, hs =>
    let (hs, m) := carrierSet spare m hs key value
    inject (k ()) m hs
  | .ask .keys k, m, hs => inject (k ((m.read hs).map Header.key)) m hs

/-- The headers that `send` hands to the client. `Extract` only reads them. -/
def sendHeaders (inj : Propagation) (m : Memory Header) (hs : Slice) : Slice × Memory Header :=
  let (hs, m) := m.append spare .nil (m.read hs)
  inject spare inj m hs

/-- The loop of `deadLetter` over the record's headers, from index `i` on. -/
def keepOthers (src : Slice) : Nat → Nat → Memory Header → Slice → Slice × Memory Header
  | 0, _, m, hs => (hs, m)
  | left + 1, i, m, hs =>
    match (m.read src)[i]? with
    | none => (hs, m)
    | some h =>
      if h.key ∈ dlqKeys then keepOthers src left (i + 1) m hs
      else
        let (hs, m) := m.append spare hs [h]
        keepOthers src left (i + 1) m hs

def dlqHeaders (r : Message) (reason : String) (cause : Err) (attempts : Nat) : List Header :=
  [⟨"dlq_reason", utf8 reason⟩, ⟨"dlq_error", cause.text.take maxDLQErrorBytes⟩,
    ⟨"dlq_source_topic", utf8 r.topic⟩, ⟨"dlq_source_partition", utf8 (toString r.partition)⟩,
    ⟨"dlq_source_offset", utf8 (toString r.offset)⟩, ⟨"dlq_attempts", utf8 (toString attempts)⟩]

/-- The slice that `deadLetter` builds from the slice `src` of the record. -/
def deadLetterHeaders (r : Message) (reason : String) (cause : Err) (attempts : Nat)
    (m : Memory Header) (src : Slice) : Slice × Memory Header :=
  let (hs, m) := m.alloc 0 (List.replicate (src.len + 6) ⟨"", []⟩)
  let (hs, m) := keepOthers spare src src.len 0 m hs
  m.append spare hs (dlqHeaders r reason cause attempts)

/-- One publish: what the propagator does, and what the client leaves in the slice that it was
given. -/
structure Try where
  inj : Propagation
  scribble : List Header

def publishAll (hs : Slice) : List Try → Memory Header → List (List Header) × Memory Header
  | [], m => ([], m)
  | t :: ts, m =>
    let (sent, m) := sendHeaders spare t.inj m hs
    let (offers, m') := publishAll hs ts (m.write sent 0 (t.scribble.take sent.cap))
    (m.read sent :: offers, m')

/-- The messages that a call of `deadLetter` offers to the topic. -/
def park (r : Message) (topic reason : String) (cause : Err) (attempts : Nat) (ts : List Try)
    (m : Memory Header) (src : Slice) : List Message × Memory Header :=
  let (hs, m) := deadLetterHeaders spare r reason cause attempts m src
  let (offers, m) := publishAll spare hs ts m
  (offers.map fun headers =>
    { deadLetterMessage r topic reason cause attempts with headers := headers }, m)

end

def setHeader (key : String) (value : Bytes) : List Header → List Header
  | [] => [⟨key, value⟩]
  | h :: hs => if h.key = key then ⟨key, value⟩ :: hs else h :: setHeader key value hs

theorem setHeader_eq (key : String) (value : Bytes) (hs : List Header) :
    setHeader key value hs =
      match hs.findIdx? fun h => h.key = key with
      | some i => hs.set i ⟨key, value⟩
      | none => hs ++ [⟨key, value⟩] := by
  induction hs with
  | nil => rfl
  | cons h hs ih =>
    unfold setHeader
    rw [List.findIdx?_cons, ih]
    by_cases hkey : h.key = key
    · simp [hkey]
    · cases hs.findIdx? fun h => h.key = key <;> simp [hkey]

theorem filter_setHeader {written : List String} {key : String} (h : key ∈ written)
    (value : Bytes) (hs : List Header) :
    (setHeader key value hs).filter (fun h => h.key ∉ written) =
      hs.filter fun h => h.key ∉ written := by
  induction hs with
  | nil => simp [setHeader, h]
  | cons x hs ih =>
    unfold setHeader
    split_ifs with hkey
    · simp [hkey, h]
    · rw [filter_cons, filter_cons, ih]

variable (spare : Nat → List Header) {m : Memory Header} {hs src : Slice} {lo : Nat}
  {written : List String}

theorem carrierSet_spec (hvalid : m.Valid hs) (habove : hs.Above lo) (hlo : lo ≤ m.next)
    (key : String) (value : Bytes) :
    (carrierSet spare m hs key value).2.Valid (carrierSet spare m hs key value).1 ∧
    (carrierSet spare m hs key value).2.read (carrierSet spare m hs key value).1 =
      setHeader key value (m.read hs) ∧
    (carrierSet spare m hs key value).1.Above lo ∧
    m.Extends lo (carrierSet spare m hs key value).2 := by
  rw [setHeader_eq]
  unfold carrierSet
  cases hidx : (m.read hs).findIdx? fun h => h.key = key with
  | none => exact append_spec spare hvalid _ habove hlo
  | some i =>
    have hi : i < hs.len := by
      rw [← length_read hvalid]
      exact (List.findIdx?_eq_some_iff_getElem.mp hidx).1
    have hlen := hvalid.len
    have hroom : i + [(⟨key, value⟩ : Header)].length ≤ hs.cap := by
      rw [length_singleton]
      omega
    exact ⟨valid_write hvalid hroom, read_set hvalid hi _, habove,
      extends_write habove (by omega) _ _⟩

/-- `Inject` works on the slice it is given, and leaves the headers with other keys alone. -/
theorem inject_spec {inj : Propagation} (hwrites : inj.Only (CarrierReq.Writes written))
    (hvalid : m.Valid hs) (habove : hs.Above lo) (hlo : lo ≤ m.next) :
    (inject spare inj m hs).2.Valid (inject spare inj m hs).1 ∧
    ((inject spare inj m hs).2.read (inject spare inj m hs).1).filter (fun h => h.key ∉ written) =
      (m.read hs).filter (fun h => h.key ∉ written) ∧
    (inject spare inj m hs).1.Above lo ∧ m.Extends lo (inject spare inj m hs).2 := by
  induction inj generalizing m hs with
  | ret a => exact ⟨hvalid, rfl, habove, .refl lo m⟩
  | ask r k ih =>
    cases r with
    | get key => exact ih _ (hwrites.2 _) hvalid habove hlo
    | keys => exact ih _ (hwrites.2 _) hvalid habove hlo
    | set key value =>
      obtain ⟨hvalid₁, hread₁, habove₁, hext₁⟩ := carrierSet_spec spare hvalid habove hlo key value
      obtain ⟨hvalid₂, hread₂, habove₂, hext₂⟩ :=
        ih () (hwrites.2 ()) hvalid₁ habove₁ (hlo.trans hext₁.next)
      refine ⟨hvalid₂, ?_, habove₂, hext₁.trans hext₂⟩
      rw [hread₁, filter_setHeader hwrites.1] at hread₂
      exact hread₂

theorem sendHeaders_spec {inj : Propagation} (hwrites : inj.Only (CarrierReq.Writes written))
    (m : Memory Header) (hs : Slice) :
    (sendHeaders spare inj m hs).2.Valid (sendHeaders spare inj m hs).1 ∧
    ((sendHeaders spare inj m hs).2.read (sendHeaders spare inj m hs).1).filter
        (fun h => h.key ∉ written) = (m.read hs).filter (fun h => h.key ∉ written) ∧
    (sendHeaders spare inj m hs).1.Above m.next ∧
    m.Extends m.next (sendHeaders spare inj m hs).2 := by
  have hnil : Slice.nil.Above m.next := fun h => absurd h (lt_irrefl 0)
  obtain ⟨hvalid₁, hread₁, habove₁, hext₁⟩ :=
    append_spec spare (valid_nil m) (m.read hs) hnil le_rfl
  rw [read_nil, nil_append] at hread₁
  obtain ⟨hvalid₂, hread₂, habove₂, hext₂⟩ :=
    inject_spec spare hwrites hvalid₁ habove₁ hext₁.next
  rw [hread₁] at hread₂
  exact ⟨hvalid₂, hread₂, habove₂, hext₁.trans hext₂⟩

theorem keepOthers_spec {m₀ : Memory Header} (hsrc : m₀.Valid src) (left i : Nat)
    (hi : i + left = src.len) (hold : m₀.Extends m₀.next m) (hvalid : m.Valid hs)
    (habove : hs.Above m₀.next) :
    (keepOthers spare src left i m hs).2.Valid (keepOthers spare src left i m hs).1 ∧
    (keepOthers spare src left i m hs).2.read (keepOthers spare src left i m hs).1 =
      m.read hs ++ ((m₀.read src).drop i).filter (fun h => h.key ∉ dlqKeys) ∧
    (keepOthers spare src left i m hs).1.Above m₀.next ∧
    m₀.Extends m₀.next (keepOthers spare src left i m hs).2 := by
  have hlength := length_read hsrc
  induction left generalizing i m hs with
  | zero =>
    rw [drop_of_length_le (by omega), filter_nil, append_nil]
    exact ⟨hvalid, rfl, habove, hold⟩
  | succ left ih =>
    have hlt : i < (m₀.read src).length := by omega
    rw [drop_eq_getElem_cons hlt]
    unfold keepOthers
    rw [hold.read hsrc, List.getElem?_eq_getElem hlt]
    simp only
    split_ifs with hkey
    · rw [filter_cons_of_neg (by simpa using hkey)]
      exact ih (i + 1) (by omega) hold hvalid habove
    · obtain ⟨hvalid₁, hread₁, habove₁, hext₁⟩ :=
        append_spec spare hvalid [(m₀.read src)[i]] habove hold.next
      obtain ⟨hvalid₂, hread₂, habove₂, hext₂⟩ :=
        ih (i + 1) (by omega) (hold.trans hext₁) hvalid₁ habove₁
      refine ⟨hvalid₂, ?_, habove₂, hext₂⟩
      rw [hread₂, hread₁, filter_cons_of_pos (by simpa using hkey), append_assoc]
      rfl

/-- The slice that `deadLetter` builds holds the headers of the message of the model, in an
array of its own. -/
theorem deadLetterHeaders_spec (hsrc : m.Valid src) {r : Message} (hr : m.read src = r.headers)
    (topic reason : String) (cause : Err) (attempts : Nat) :
    (deadLetterHeaders spare r reason cause attempts m src).2.Valid
      (deadLetterHeaders spare r reason cause attempts m src).1 ∧
    (deadLetterHeaders spare r reason cause attempts m src).2.read
        (deadLetterHeaders spare r reason cause attempts m src).1 =
      (deadLetterMessage r topic reason cause attempts).headers ∧
    m.Extends m.next (deadLetterHeaders spare r reason cause attempts m src).2 := by
  obtain ⟨hvalid₁, hread₁, habove₁, hext₁⟩ :=
    alloc_spec [] (List.replicate (src.len + 6) (⟨"", []⟩ : Header)) (le_refl m.next)
  obtain ⟨hvalid₂, hread₂, habove₂, hext₂⟩ :=
    keepOthers_spec spare hsrc src.len 0 (by omega) hext₁ hvalid₁ habove₁
  obtain ⟨hvalid₃, hread₃, -, hext₃⟩ :=
    append_spec spare hvalid₂ (dlqHeaders r reason cause attempts) habove₂ hext₂.next
  refine ⟨hvalid₃, ?_, hext₂.trans hext₃⟩
  rw [hread₁, hr] at hread₂
  rw [hread₂] at hread₃
  exact hread₃

theorem publishAll_spec (hvalid : m.Valid hs) {ts : List Try}
    (hwrites : ∀ t ∈ ts, t.inj.Only (CarrierReq.Writes written)) :
    m.Extends m.next (publishAll spare hs ts m).2 ∧
    ∀ headers ∈ (publishAll spare hs ts m).1,
      headers.filter (fun h => h.key ∉ written) =
        (m.read hs).filter (fun h => h.key ∉ written) := by
  induction ts generalizing m with
  | nil => exact ⟨.refl _ m, by simp [publishAll]⟩
  | cons t ts ih =>
    obtain ⟨hvalid₁, hread₁, habove₁, hext₁⟩ :=
      sendHeaders_spec spare (hwrites t mem_cons_self) m hs
    have hext₂ := hext₁.trans (extends_write_take habove₁ t.scribble)
    obtain ⟨hext₃, hoffers⟩ :=
      ih (hext₂.valid hvalid) fun t ht => hwrites t (mem_cons_of_mem _ ht)
    refine ⟨hext₂.trans (hext₃.mono hext₂.next), fun headers hin => ?_⟩
    rcases mem_cons.mp hin with rfl | hin
    · exact hread₁
    · rw [hoffers headers hin, hext₂.read hvalid]

theorem length_publishAll (ts : List Try) :
    (publishAll spare hs ts m).1.length = ts.length := by
  induction ts generalizing m with
  | nil => rfl
  | cons t ts ih => exact congrArg (· + 1) ih

/-- A record that comes from `r₀` by parkings and replays: it carries what a parked message
offered, up to the trace headers. -/
inductive Replayed (written : List String) (r₀ : Message) : Message → Prop where
  | refl : Replayed written r₀ r₀
  | replay {spare : Nat → List Header} {m : Memory Header} {src : Slice} {r r' msg : Message}
      {topic reason : String} {cause : Err} {attempts : Nat} {ts : List Try}
      (h : Replayed written r₀ r) (hsrc : m.Valid src) (hr : m.read src = r.headers)
      (hwrites : ∀ t ∈ ts, t.inj.Only (CarrierReq.Writes written))
      (hmsg : msg ∈ (park spare r topic reason cause attempts ts m src).1)
      (hkey : r'.key = msg.key) (hvalue : r'.value = msg.value)
      (hheaders : r'.headers.filter (fun h => h.key ∉ written) =
        msg.headers.filter fun h => h.key ∉ written) : Replayed written r₀ r'

def ownHeaders (written : List String) (r : Message) : List Header :=
  r.headers.filter fun h => h.key ∉ dlqKeys ∧ h.key ∉ written

theorem filter_filter_written {f : Header → Bool} {hs hs' : List Header}
    (h : hs.filter (fun h => h.key ∉ written) = hs'.filter fun h => h.key ∉ written)
    (hf : ∀ x, f x → x.key ∉ written) : hs.filter f = hs'.filter f := by
  have hsub : ∀ xs : List Header, xs.filter f =
      (xs.filter fun h => h.key ∉ written).filter f := by
    intro xs
    rw [filter_filter]
    refine filter_congr fun x _ => ?_
    cases hx : f x with
    | false => rfl
    | true => simp [hf x hx]
  rw [hsub hs, h, ← hsub hs']

theorem park_spec (hsrc : m.Valid src) {r : Message} (hr : m.read src = r.headers)
    (topic reason : String) (cause : Err) (attempts : Nat) {ts : List Try}
    (hwrites : ∀ t ∈ ts, t.inj.Only (CarrierReq.Writes written)) :
    m.Extends m.next (park spare r topic reason cause attempts ts m src).2 ∧
    ∀ msg ∈ (park spare r topic reason cause attempts ts m src).1,
      msg.topic = topic ∧ msg.key = r.key ∧ msg.value = r.value ∧
      msg.headers.filter (fun h => h.key ∉ written) =
        (deadLetterMessage r topic reason cause attempts).headers.filter
          fun h => h.key ∉ written := by
  obtain ⟨hvalid, hread, hext⟩ :=
    deadLetterHeaders_spec spare hsrc hr topic reason cause attempts
  obtain ⟨hext', hoffers⟩ := publishAll_spec spare hvalid hwrites
  refine ⟨hext.trans (hext'.mono hext.next), fun msg hmsg => ?_⟩
  obtain ⟨headers, hin, rfl⟩ := mem_map.mp hmsg
  refine ⟨rfl, rfl, rfl, ?_⟩
  rw [← hread]
  exact hoffers headers hin

theorem dlq_keys_dlqHeaders (r : Message) (reason : String) (cause : Err) (attempts : Nat) :
    (dlqHeaders r reason cause attempts).map Header.key = dlqKeys := rfl

theorem key_mem_of_mem_dlqHeaders {r : Message} {reason : String} {cause : Err} {attempts : Nat}
    {h : Header} (hin : h ∈ dlqHeaders r reason cause attempts) : h.key ∈ dlqKeys := by
  rw [← dlq_keys_dlqHeaders r reason cause attempts]
  exact mem_map_of_mem hin

theorem ownHeaders_deadLetterMessage (written : List String) (r : Message) (topic reason : String)
    (cause : Err) (attempts : Nat) :
    ownHeaders written (deadLetterMessage r topic reason cause attempts) = ownHeaders written r := by
  have hheaders : (deadLetterMessage r topic reason cause attempts).headers =
    r.headers.filter (fun h => h.key ∉ dlqKeys) ++ dlqHeaders r reason cause attempts := rfl
  have hnone : (dlqHeaders r reason cause attempts).filter
      (fun h => h.key ∉ dlqKeys ∧ h.key ∉ written) = [] := by
    rw [filter_eq_nil_iff]
    intro h hin
    simp [key_mem_of_mem_dlqHeaders hin]
  unfold ownHeaders
  rw [hheaders, filter_append, hnone, append_nil, filter_filter]
  refine filter_congr fun h _ => ?_
  by_cases hkey : h.key ∈ dlqKeys <;> simp [hkey]

theorem dlq_deadLetterMessage (r : Message) (topic reason : String) (cause : Err)
    (attempts : Nat) :
    (deadLetterMessage r topic reason cause attempts).headers.filter (fun h => h.key ∈ dlqKeys) =
      dlqHeaders r reason cause attempts := by
  have hheaders : (deadLetterMessage r topic reason cause attempts).headers =
    r.headers.filter (fun h => h.key ∉ dlqKeys) ++ dlqHeaders r reason cause attempts := rfl
  have hall : (dlqHeaders r reason cause attempts).filter (fun h => h.key ∈ dlqKeys) =
      dlqHeaders r reason cause attempts :=
    filter_eq_self.mpr fun h hin => by simpa using key_mem_of_mem_dlqHeaders hin
  have hnone : (r.headers.filter fun h => h.key ∉ dlqKeys).filter (fun h => h.key ∈ dlqKeys) =
      [] := by
    rw [filter_filter, filter_eq_nil_iff]
    intro h _
    by_cases hkey : h.key ∈ dlqKeys <;> simp [hkey]
  rw [hheaders, filter_append, hnone, hall, nil_append]

theorem own_of_park (hsrc : m.Valid src) {r msg : Message} (hr : m.read src = r.headers)
    {topic reason : String} {cause : Err} {attempts : Nat} {ts : List Try}
    (hwrites : ∀ t ∈ ts, t.inj.Only (CarrierReq.Writes written))
    (hmsg : msg ∈ (park spare r topic reason cause attempts ts m src).1) :
    msg.key = r.key ∧ msg.value = r.value ∧ ownHeaders written msg = ownHeaders written r := by
  obtain ⟨-, hkey, hvalue, hheaders⟩ :=
    (park_spec spare hsrc hr topic reason cause attempts hwrites).2 msg hmsg
  refine ⟨hkey, hvalue, ?_⟩
  rw [← ownHeaders_deadLetterMessage written r topic reason cause attempts]
  exact filter_filter_written hheaders fun x hx => by simp_all

theorem Replayed.own {r₀ r : Message} (h : Replayed written r₀ r) :
    r.key = r₀.key ∧ r.value = r₀.value ∧ ownHeaders written r = ownHeaders written r₀ := by
  induction h with
  | refl => exact ⟨rfl, rfl, rfl⟩
  | replay _ hsrc hr hwrites hmsg hkey hvalue hheaders ih =>
    obtain ⟨hkey', hvalue', hown⟩ := own_of_park _ hsrc hr hwrites hmsg
    refine ⟨hkey.trans (hkey'.trans ih.1), hvalue.trans (hvalue'.trans ih.2.1), ?_⟩
    rw [← ih.2.2, ← hown]
    exact filter_filter_written hheaders fun x hx => by simp_all

def ReadsBack (hs : List Header) (key : String) (n : Int) : Prop :=
  ∃ text, headerValue hs key = some (utf8 text) ∧ parseInt text = .ok n

theorem headerValue_filter {key : String} (h : key ∈ dlqKeys) (hs : List Header) :
    headerValue (hs.filter fun h => h.key ∈ dlqKeys) key = headerValue hs key := by
  unfold headerValue
  rw [List.find?_filter]
  congr 2
  funext x
  by_cases hx : x.key = key <;> simp [hx, h]

/-- Every try offers one message. It has the key and the value of the record and its headers, but
for those that tracing writes, and the six headers of this parking once each, however often the record
was parked and replayed before. No array that was in use is written, so that the record keeps
its headers. -/
theorem parked_keeps_record {r₀ r : Message} {ts : List Try} (hr₀ : Replayed written r₀ r)
    (hdlq : ∀ key ∈ dlqKeys, key ∉ written) (hsrc : m.Valid src) (hr : m.read src = r.headers)
    (hwrites : ∀ t ∈ ts, t.inj.Only (CarrierReq.Writes written)) (topic reason : String)
    (cause : Err) {attempts : Nat} (hpartition : -2 ^ 31 ≤ r.partition ∧ r.partition < 2 ^ 31)
    (hoffset : -2 ^ 63 ≤ r.offset ∧ r.offset < 2 ^ 63) (hattempts : attempts < 2 ^ 63) :
    (∀ a < m.next, (park spare r topic reason cause attempts ts m src).2.cells a = m.cells a) ∧
    (park spare r topic reason cause attempts ts m src).2.read src = r.headers ∧
    (park spare r topic reason cause attempts ts m src).1.length = ts.length ∧
    ∀ msg ∈ (park spare r topic reason cause attempts ts m src).1,
      msg.topic = topic ∧ msg.key = r₀.key ∧ msg.value = r₀.value ∧
      ownHeaders written msg = ownHeaders written r₀ ∧
      msg.headers.filter (fun h => h.key ∈ dlqKeys) = dlqHeaders r reason cause attempts ∧
      ReadsBack msg.headers "dlq_source_partition" r.partition ∧
      ReadsBack msg.headers "dlq_source_offset" r.offset ∧
      ReadsBack msg.headers "dlq_attempts" attempts := by
  obtain ⟨hext, hmsgs⟩ := park_spec spare hsrc hr topic reason cause attempts hwrites
  refine ⟨hext.cells, (hext.read hsrc).trans hr,
    (length_map _).trans (length_publishAll spare ts), fun msg hmsg => ?_⟩
  obtain ⟨htopic, -, -, hheaders⟩ := hmsgs msg hmsg
  obtain ⟨hkey, hvalue, hown⟩ := own_of_park spare hsrc hr hwrites hmsg
  obtain ⟨hkey₀, hvalue₀, hown₀⟩ := hr₀.own
  have hsix : msg.headers.filter (fun h => h.key ∈ dlqKeys) =
      dlqHeaders r reason cause attempts := by
    rw [← dlq_deadLetterMessage r topic]
    exact filter_filter_written hheaders fun x hx => hdlq x.key (by simpa using hx)
  have hread : ∀ key ∈ dlqKeys, headerValue msg.headers key =
      headerValue (dlqHeaders r reason cause attempts) key := by
    intro key hin
    rw [← headerValue_filter hin, hsix]
  refine ⟨htopic, hkey.trans hkey₀, hvalue.trans hvalue₀, hown.trans hown₀, hsix,
    ⟨_, hread _ (by decide), parseInt_toString (by omega) (by omega)⟩,
    ⟨_, hread _ (by decide), parseInt_toString hoffset.1 hoffset.2⟩,
    ⟨_, hread _ (by decide), parseInt_toString (n := attempts) (by omega) (by omega)⟩⟩

def parkedBefore : Message :=
  ⟨"tasks.events", [1], [2], 3, 4, [⟨"k", [5]⟩, ⟨"dlq_reason", [6]⟩, ⟨"traceparent", [7]⟩,
    ⟨"k", [8]⟩], 0, 1⟩

def spareCell : Memory Header :=
  ⟨fun _ => parkedBefore.headers ++ [⟨"spare", []⟩], 1⟩

def traced : Try :=
  ⟨.ask (.set "traceparent" [9]) fun _ => .ask (.set "tracestate" [10]) .ret,
    List.replicate 12 ⟨"", []⟩⟩

theorem parked_keeps_record_twice :
    ((park (fun _ => []) parkedBefore "tasks.events.dlq" "permanent" (.new []) 2 [traced, traced]
      spareCell ⟨0, 0, 4, 5⟩).1.map fun msg => msg.headers.length) = [10, 10] ∧
    ∀ msg ∈ (park (fun _ => []) parkedBefore "tasks.events.dlq" "permanent" (.new []) 2
        [traced, traced] spareCell ⟨0, 0, 4, 5⟩).1,
      ownHeaders ["traceparent", "tracestate"] msg = [⟨"k", [5]⟩, ⟨"k", [8]⟩] ∧
      msg.headers.filter (fun h => h.key ∈ dlqKeys) =
        dlqHeaders parkedBefore "permanent" (.new []) 2 := by
  have hsrc : spareCell.Valid ⟨0, 0, 4, 5⟩ := ⟨by decide, fun _ => ⟨by decide, by decide⟩⟩
  have htraced : traced.inj.Only (CarrierReq.Writes ["traceparent", "tracestate"]) :=
    ⟨by simp [CarrierReq.Writes], fun _ => ⟨by simp [CarrierReq.Writes], fun _ => trivial⟩⟩
  have hself : Replayed ["traceparent", "tracestate"] parkedBefore parkedBefore := .refl
  have hwrites : ∀ t ∈ [traced, traced],
      t.inj.Only (CarrierReq.Writes ["traceparent", "tracestate"]) := by simpa using htraced
  have hattempts : 2 < 2 ^ 63 := by decide
  have hkept := (parked_keeps_record (fun _ => []) hself (by decide) hsrc rfl hwrites
    "tasks.events.dlq" "permanent" (.new []) (by decide) (by decide) hattempts).2.2.2
  refine ⟨by decide +kernel, fun msg hmsg => ?_⟩
  obtain ⟨-, -, -, hown, hsix, -⟩ := hkept msg hmsg
  exact ⟨hown.trans (by decide), hsix⟩

/-- An error text of 1025 bytes is cut. -/
theorem longError_is_cut :
    ∃ cause : Err, ∃ msg ∈ (park (fun _ => []) parkedBefore "tasks.events.dlq" "permanent" cause 2
        [traced] spareCell ⟨0, 0, 4, 5⟩).1,
      headerValue msg.headers "dlq_error" ≠ some cause.text := by
  refine ⟨.new (List.replicate 1025 0x78), ?_⟩
  have hvalues : (park (fun _ => []) parkedBefore "tasks.events.dlq" "permanent"
      (.new (List.replicate 1025 0x78)) 2 [traced] spareCell ⟨0, 0, 4, 5⟩).1.map
        (fun msg => (headerValue msg.headers "dlq_error").map List.length) = [some 1024] := by
    decide +kernel
  obtain ⟨msg, hmsg, hlength⟩ := mem_map.mp (hvalues ▸ mem_singleton_self (some 1024))
  refine ⟨msg, hmsg, fun hvalue => ?_⟩
  rw [hvalue] at hlength
  have hlength : (List.replicate 1025 (0x78 : UInt8)).length = 1024 := Option.some.inj hlength
  rw [List.length_replicate] at hlength
  omega

end GolangBasics.Kafka.Consumer
