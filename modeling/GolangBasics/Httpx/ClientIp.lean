import GolangBasics.Netip

/-! The client address that `libs/httpx` reports: the peer, or behind trusted proxies a hop of
`X-Forwarded-For`. -/
namespace GolangBasics.Httpx
open Netip Strings List

def peerAddr (remote : Bytes) : Addr :=
  let host := (splitHost remote).getD remote
  ((parseAddr host).getD .invalid).unmap

def isTrusted (proxies : List Prefix) (a : Addr) : Bool :=
  a.isValid && proxies.any (·.contains a)

def hops (values : List Bytes) : List Bytes := (joined 0x2C values).splitOn 0x2C

def walk (proxies : List Prefix) (peer : Addr) : List Bytes → Bytes
  | [] => peer.string
  | hop :: rest =>
    match parseAddr (trimSpace hop) with
    | none => peer.string
    | some a => if !isTrusted proxies a.unmap then a.unmap.string else walk proxies peer rest

def clientIP (proxies : List Prefix) (values : List Bytes) (peer : Addr) (trusted : Bool) : Bytes :=
  if !trusted then peer.string else walk proxies peer (hops values).reverse

def client (proxies : List Prefix) (remote : Bytes) (values : List Bytes) : Bytes :=
  let peer := peerAddr remote
  clientIP proxies values peer (isTrusted proxies peer)

def Passes (proxies : List Prefix) (hop : Bytes) : Prop :=
  ∃ a, parseAddr (trimSpace hop) = some a ∧ isTrusted proxies a.unmap = true

def verdict (peer : Addr) (hop : Bytes) : Bytes :=
  match parseAddr (trimSpace hop) with
  | none => peer.string
  | some a => a.unmap.string

section walk
variable {proxies : List Prefix} {peer : Addr} {hop : Bytes} {rest : List Bytes}

theorem walk_passes (h : Passes proxies hop) :
    walk proxies peer (hop :: rest) = walk proxies peer rest := by
  obtain ⟨a, hread, htrusted⟩ := h
  rw [walk, hread]
  dsimp only
  rw [htrusted]
  rfl

theorem walk_stops (h : ¬ Passes proxies hop) :
    walk proxies peer (hop :: rest) = verdict peer hop := by
  unfold walk verdict
  cases hread : parseAddr (trimSpace hop) with
  | none => rfl
  | some a =>
    have huntrusted : isTrusted proxies a.unmap = false :=
      Bool.eq_false_iff.mpr fun htrusted => h ⟨a, hread, htrusted⟩
    dsimp only
    rw [huntrusted]
    rfl

theorem walk_append {right : List Bytes} (h : ∀ hop ∈ right, Passes proxies hop) :
    walk proxies peer (right ++ rest) = walk proxies peer rest := by
  induction right with
  | nil => rfl
  | cons hop right ih =>
    obtain ⟨hhop, hright⟩ := forall_mem_cons.mp h
    rw [cons_append, walk_passes hhop, ih hright]

end walk

variable {proxies : List Prefix} {remote : Bytes} {values : List Bytes}

theorem client_of_untrusted (h : isTrusted proxies (peerAddr remote) = false) :
    client proxies remote values = (peerAddr remote).string := by
  unfold client clientIP
  dsimp only
  rw [h]
  rfl

theorem client_of_trusted (h : isTrusted proxies (peerAddr remote) = true) :
    client proxies remote values = walk proxies (peerAddr remote) (hops values).reverse := by
  unfold client clientIP
  dsimp only
  rw [h]
  rfl

/-- The first hop from the right at which the walk ends decides, whatever stands to its left. -/
theorem client_of_stop (h : isTrusted proxies (peerAddr remote) = true) {left right : List Bytes}
    {stop : Bytes} (hhops : hops values = left ++ stop :: right)
    (hright : ∀ hop ∈ right, Passes proxies hop) (hstop : ¬ Passes proxies stop) :
    client proxies remote values = verdict (peerAddr remote) stop := by
  have hreverse : ∀ hop ∈ right.reverse, Passes proxies hop :=
    fun hop hmem => hright hop (mem_reverse.mp hmem)
  rw [client_of_trusted h, hhops, reverse_append, reverse_cons, append_assoc,
    walk_append hreverse, singleton_append, walk_stops hstop]

theorem client_of_passes (h : isTrusted proxies (peerAddr remote) = true)
    (hall : ∀ hop ∈ hops values, Passes proxies hop) :
    client proxies remote values = (peerAddr remote).string := by
  have hreverse : ∀ hop ∈ (hops values).reverse, Passes proxies hop :=
    fun hop hmem => hall hop (mem_reverse.mp hmem)
  rw [client_of_trusted h, ← append_nil (hops values).reverse, walk_append hreverse, walk]

theorem hops_append {lines : List Bytes} (hlines : lines ≠ []) (hvalues : values ≠ []) :
    hops (lines ++ values) = hops lines ++ hops values := by
  unfold hops
  rw [joined_append hlines hvalues, splitOn_append_cons_self]

theorem client_unspoofed (proxies : List Prefix) (remote : Bytes) (values : List Bytes) :
    (isTrusted proxies (peerAddr remote) = false →
      client proxies remote values = (peerAddr remote).string) ∧
    (isTrusted proxies (peerAddr remote) = true →
      ((∀ hop ∈ hops values, Passes proxies hop) →
        client proxies remote values = (peerAddr remote).string) ∧
      ∀ left stop right, hops values = left ++ stop :: right →
        (∀ hop ∈ right, Passes proxies hop) → ¬ Passes proxies stop →
        client proxies remote values = verdict (peerAddr remote) stop ∧
        (∀ values' left', hops values' = left' ++ stop :: right →
          client proxies remote values' = client proxies remote values) ∧
        (values ≠ [] → ∀ lines,
          client proxies remote (lines ++ values) = client proxies remote values)) := by
  refine ⟨client_of_untrusted, fun htrusted => ⟨client_of_passes htrusted, ?_⟩⟩
  intro left stop right hhops hright hstop
  have hclient := client_of_stop htrusted hhops hright hstop
  refine ⟨hclient, fun values' left' hhops' => ?_, fun hvalues lines => ?_⟩
  · rw [hclient]
    exact client_of_stop htrusted hhops' hright hstop
  · by_cases hlines : lines = []
    · rw [hlines, nil_append]
    · have hlonger : hops (lines ++ values) = (hops lines ++ left) ++ stop :: right := by
        rw [hops_append hlines hvalues, hhops, append_assoc]
      rw [hclient]
      exact client_of_stop htrusted hlonger hright hstop

/-- Behind a proxy of 10.0.0.0/8 the client is the hop before the proxies, with a line in front of
it or without. -/
theorem client_unspoofed_hop :
    client [prefixFrom (.v4 0x0A000000#32) 8] (utf8 "10.0.0.1:1")
        [utf8 "6.6.6.6, 203.0.113.7", utf8 " 10.0.0.9"] = utf8 "203.0.113.7" ∧
      client [prefixFrom (.v4 0x0A000000#32) 8] (utf8 "10.0.0.1:1")
        [utf8 "10.1.2.3", utf8 "6.6.6.6, 203.0.113.7", utf8 " 10.0.0.9"] = utf8 "203.0.113.7" := by
  have hpasses : ∀ hop ∈ [utf8 " 10.0.0.9"],
      Passes [prefixFrom (.v4 0x0A000000#32) 8] hop := by
    intro hop hmem
    obtain rfl := mem_singleton.mp hmem
    exact ⟨.v4 0x0A000009#32, by decide +kernel, by decide +kernel⟩
  have hstop : ¬ Passes [prefixFrom (.v4 0x0A000000#32) 8] (utf8 " 203.0.113.7") := by
    rintro ⟨a, hread, htrusted⟩
    have hclient : parseAddr (trimSpace (utf8 " 203.0.113.7")) = some (.v4 0xCB007107#32) := by
      decide +kernel
    obtain rfl := Option.some.inj (hclient.symm.trans hread)
    exact absurd htrusted (by decide +kernel)
  obtain ⟨hclient, -, hfront⟩ := ((client_unspoofed [prefixFrom (.v4 0x0A000000#32) 8]
    (utf8 "10.0.0.1:1") [utf8 "6.6.6.6, 203.0.113.7", utf8 " 10.0.0.9"]).2 (by decide +kernel)).2
    [utf8 "6.6.6.6"] _ _ (by decide +kernel) hpasses hstop
  have hverdict : verdict (peerAddr (utf8 "10.0.0.1:1")) (utf8 " 203.0.113.7") =
      utf8 "203.0.113.7" := by decide +kernel
  have hfront := hfront (cons_ne_nil _ _) [utf8 "10.1.2.3"]
  rw [hclient, hverdict] at hfront
  exact ⟨hclient.trans hverdict, hfront⟩

end GolangBasics.Httpx
