import GolangBasics.Httpx.ClientIp
import GolangBasics.Netip.Text
import GolangBasics.Rfc3339.Format

/-! The proxies that a `Config` of `libs/httpx` trusts, and the connections that come from
them. -/
namespace GolangBasics.Httpx
open Netip Strings List Option
open Rfc3339 (decimal mem_decimal)
open Json (unhex isDigit)

def parseProxy (s : Bytes) : Option Prefix :=
  match parsePrefix s with
  | some p => some p.masked
  | none => (parseAddr s).map fun a => prefixFrom a a.bitLen

/-- `parsePrefixes`; the error is the text that "is not a CIDR or IP". -/
def parsePrefixes : List Bytes → Except Bytes (List Prefix)
  | [] => .ok []
  | raw :: cidrs =>
    let s := trimSpace raw
    if s = [] then parsePrefixes cidrs
    else
      match parseProxy s with
      | none => .error s
      | some p => (parsePrefixes cidrs).map (p :: ·)

/-- `net.IP`, of 4 or of 16 bytes. -/
inductive IP where
  | four (bits : BitVec 32)
  | sixteen (bits : BitVec 128)

namespace IP

def to4 : IP → Option (BitVec 32)
  | four bits => some bits
  | sixteen bits => if Addr.is4In6 bits then some (bits.setWidth 32) else none

def wide : IP → BitVec 128
  | four bits => mapped bits
  | sixteen bits => bits

def string (ip : IP) : Bytes :=
  match ip.to4 with
  | some bits => string4 bits
  | none => string6 ip.wide

end IP

structure TCPAddr where
  ip : IP
  port : Nat
  zone : Bytes := []

def TCPAddr.string (r : TCPAddr) : Bytes :=
  let host := if r.zone = [] then r.ip.string else r.ip.string ++ 0x25 :: r.zone
  joinHostPort host (decimal r.port)

/-- How a remote address is written: as `net.TCPAddr` prints it, or as `netip.AddrPort` prints the
IPv4-mapped address that an IPv6 socket has for an IPv4 peer. -/
inductive Written (r : TCPAddr) : Bytes → Prop where
  | tcp : Written r r.string
  | mapped {bits : BitVec 32} (hip : r.ip.to4 = some bits) (hzone : r.zone = []) :
      Written r (joinHostPort (utf8 "::ffff:" ++ string4 bits) (decimal r.port))

/-- The addresses that share the first `bits` bits with `addr`, in a zone where there is one.
IPv4 addresses are among them in their mapped form. -/
structure Block where
  addr : BitVec 128
  bits : Nat
  zone : Bytes
  deriving DecidableEq

def Block.ofAddr (bits : Nat) : Addr → Option Block
  | .invalid => none
  | .v4 addr => some ⟨mapped addr, 96 + bits, []⟩
  | .v6 addr zone => some ⟨addr, bits, zone⟩

def Block.ofText (s : Bytes) : Option Block :=
  match parsePrefix s with
  | some p => ofAddr p.bits p.ip
  | none => (parseAddr s).bind fun a => ofAddr a.bitLen a

/-- The text stands for the remote address among others; zones do not contradict each other. -/
def Denotes (text : Bytes) (r : TCPAddr) : Prop :=
  ∃ block, Block.ofText (trimSpace text) = some block ∧ Agree block.bits r.ip.wide block.addr ∧
    (block.zone = [] ∨ r.zone = [] ∨ block.zone = r.zone)

def Comparable (text : Bytes) (r : TCPAddr) : Prop :=
  r.zone = [] ∧ (r.ip.to4.isSome = true → 0x3A ∉ trimSpace text)

/-! ### The peer -/

def Unmatched (a : Addr) : Prop := a = .invalid ∨ a.zone ≠ []

theorem isTrusted_unmatched {proxies : List Prefix} {a : Addr} (h : Unmatched a) :
    isTrusted proxies a = false := by
  cases h with
  | inl hinvalid =>
    subst hinvalid
    rfl
  | inr hzone =>
    have hnone : proxies.any (·.contains a) = false :=
      List.any_eq_false.mpr fun p _ => Bool.eq_false_iff.mp (contains_zone hzone)
    unfold isTrusted
    rw [hnone, Bool.and_false]

variable {s : Bytes}

theorem unmatched_of_none (h : parseAddr s = none) :
    Unmatched ((parseAddr s).getD .invalid).unmap := by
  rw [h]
  exact .inl rfl

theorem parseAddr_percent (front : Bytes) (bits : BitVec 32) (rest : Bytes)
    (hs : s = front ++ (string4 bits ++ rest)) (hfront : ∀ b ∈ front, telling b = false)
    (h : 0x25 ∈ s) : parseAddr s = none := by
  have hfind : s.find? telling = some 0x2E := by
    rw [hs, List.find?_append, List.find?_eq_none.mpr fun b hb => Bool.eq_false_iff.mp (hfront b hb),
      none_or, find_telling_string4]
  unfold parseAddr
  rw [hfind]
  dsimp only [parseIPv4, bind_eq_bind]
  rw [ipv4Fields_none (by decide) (by decide) h]
  rfl

theorem parseAddr_bracket {bits : BitVec 128} {rest : Bytes} :
    parseAddr (0x5B :: (string6 bits ++ rest)) = none := by
  have hgroups (s : Bytes) : ipv6Groups (0x5B :: s) = none := by
    have hfield : hexField (0x5B :: s) = none := by
      unfold hexField
      rw [takeWhile_cons_of_neg (by decide)]
      exact if_pos (.inl rfl)
    rw [ipv6Groups_of_head (by decide), ipv6Fields, hfield]
    rfl
  have hspan : (0x5B :: (string6 bits ++ rest)).span (· ≠ 0x25) =
      (0x5B :: (string6 bits ++ rest).takeWhile (· ≠ 0x25),
        (string6 bits ++ rest).dropWhile (· ≠ 0x25)) := by
    rw [span_eq_takeWhile_dropWhile, takeWhile_cons_of_pos (by decide),
      dropWhile_cons_of_pos (by decide)]
  unfold parseAddr
  rw [List.find?_cons_of_neg (by decide), find_telling_string6]
  dsimp only [parseIPv6]
  rw [hspan]
  cases (string6 bits ++ rest).dropWhile (· ≠ 0x25) with
  | nil =>
    dsimp only
    rw [hgroups]
    rfl
  | cons b zone =>
    dsimp only
    rw [hgroups]
    exact ite_self none

variable {ip : IP}

theorem string_of_some {bits : BitVec 32} (h : ip.to4 = some bits) : ip.string = string4 bits := by
  unfold IP.string
  rw [h]

theorem string_of_none (h : ip.to4 = none) : ip.string = string6 ip.wide := by
  unfold IP.string
  rw [h]

theorem is4In6_of_none (h : ip.to4 = none) : Addr.is4In6 ip.wide = false := by
  cases ip with
  | four bits => cases h
  | sixteen bits =>
    refine Bool.eq_false_iff.mpr fun h4 => ?_
    have h4 : Addr.is4In6 bits = true := h4
    rw [IP.to4, if_pos h4] at h
    cases h

theorem wide_of_some {bits : BitVec 32} (h : ip.to4 = some bits) : ip.wide = mapped bits := by
  cases ip with
  | four own =>
    cases h
    rfl
  | sixteen own =>
    rw [IP.to4] at h
    split_ifs at h with h4
    cases h
    exact (mapped_setWidth h4).symm

theorem unmap_of_none (h : ip.to4 = none) (zone : Bytes) :
    (Addr.v6 ip.wide zone).unmap = .v6 ip.wide zone := by
  rw [Addr.unmap, is4In6_of_none h]
  rfl

theorem mem_string {b : UInt8} (h : b ∈ ip.string) :
    b = 0x2E ∨ b = 0x3A ∨ (unhex b).isSome = true := by
  unfold IP.string at h
  cases hip : ip.to4 with
  | some bits =>
    rw [hip] at h
    exact (mem_string4 h).imp id fun hdigit => .inr (isDigit_unhex hdigit)
  | none =>
    rw [hip] at h
    exact .inr (mem_string6 h)

theorem string_ne_nil (ip : IP) : ip.string ≠ [] := by
  unfold IP.string
  cases ip.to4 with
  | some bits => exact ne_nil_of_mem (dot_mem_string4 bits)
  | none => exact ne_nil_of_mem (colon_mem_string6 ip.wide)

theorem bracket_notMem_string (ip : IP) : 0x5B ∉ ip.string ∧ 0x5D ∉ ip.string :=
  ⟨fun h => absurd (mem_string h) (by decide), fun h => absurd (mem_string h) (by decide)⟩

theorem head_string_append (ip : IP) (rest : Bytes) : (ip.string ++ rest).head? ≠ some 0x5B := by
  intro h
  rw [List.head?_append_of_ne_nil _ (string_ne_nil ip)] at h
  exact (bracket_notMem_string ip).1 (List.mem_of_mem_head? h)

variable {r : TCPAddr}

theorem unmatched_of_zone (h : r.zone ≠ []) : Unmatched (peerAddr r.string) := by
  have hhead := head_string_append r.ip (0x25 :: r.zone)
  have hport : ∀ b ∈ decimal r.port, isDigit b = true := fun b hb => mem_decimal hb
  have hsplit := splitHost_joinHostPort hport hhead
  have hremote : r.string = joinHostPort (r.ip.string ++ 0x25 :: r.zone) (decimal r.port) := by
    unfold TCPAddr.string
    dsimp only
    rw [if_neg h]
  have hpercent : 0x25 ∈ r.ip.string ++ 0x25 :: r.zone :=
    mem_append_right _ mem_cons_self
  -- the text that is read: the host, or all of it where a bracket in the zone hides the host
  have hread : Unmatched ((parseAddr (r.ip.string ++ 0x25 :: r.zone)).getD .invalid).unmap ∧
      Unmatched ((parseAddr r.string).getD .invalid).unmap := by
    rw [hremote]
    unfold joinHostPort
    cases hip : r.ip.to4 with
    | some bits =>
      rw [string_of_some hip] at hpercent ⊢
      have hhost := parseAddr_percent [] bits _ rfl nofun hpercent
      refine ⟨unmatched_of_none hhost, unmatched_of_none ?_⟩
      split
      · refine parseAddr_percent [0x5B] bits
          (0x25 :: (r.zone ++ 0x5D :: 0x3A :: decimal r.port)) ?_ ?_ ?_
        · simp
        · exact forall_mem_singleton.mpr rfl
        · simp
      · refine parseAddr_percent [] bits
          (0x25 :: (r.zone ++ 0x3A :: decimal r.port)) ?_ nofun ?_
        · simp
        · simp
    | none =>
      have hcolon : 0x3A ∈ r.ip.string ++ 0x25 :: r.zone := by
        rw [string_of_none hip]
        exact mem_append_left _ (colon_mem_string6 r.ip.wide)
      rw [if_pos hcolon, string_of_none hip]
      constructor
      · rw [(parseAddr_string6 r.ip.wide).2 r.zone h, getD_some, unmap_of_none hip]
        exact .inr h
      · refine unmatched_of_none ?_
        rw [cons_append, cons_append, append_assoc, append_assoc]
        exact parseAddr_bracket
  unfold peerAddr
  dsimp only
  rw [hremote, hsplit, ← hremote]
  split
  · exact hread.2
  · exact hread.1

theorem peerAddr_joinHostPort {host : Bytes} {port : Nat} (hopen : 0x5B ∉ host)
    (hclose : 0x5D ∉ host) :
    peerAddr (joinHostPort host (decimal port)) = ((parseAddr host).getD .invalid).unmap := by
  have hhead : host.head? ≠ some 0x5B := fun h => hopen (List.mem_of_mem_head? h)
  unfold peerAddr
  rw [splitHost_joinHostPort (fun b hb => mem_decimal hb) hhead,
    if_neg fun h => h.elim hopen hclose]
  rfl

theorem peerAddr_written {remote : Bytes} (hw : Written r remote) (h : r.zone = []) :
    peerAddr remote =
      match r.ip.to4 with
      | some bits => .v4 bits
      | none => .v6 r.ip.wide [] := by
  cases hw with
  | tcp =>
    obtain ⟨hopen, hclose⟩ := bracket_notMem_string r.ip
    have hremote : r.string = joinHostPort r.ip.string (decimal r.port) := by
      unfold TCPAddr.string
      dsimp only
      rw [if_pos h]
    rw [hremote, peerAddr_joinHostPort hopen hclose]
    cases hip : r.ip.to4 with
    | some bits =>
      rw [string_of_some hip, parseAddr_string4]
      rfl
    | none =>
      rw [string_of_none hip, (parseAddr_string6 r.ip.wide).1]
      exact unmap_of_none hip []
  | @mapped bits hip hzone =>
    have hclean {c : UInt8} (hmark : c ∉ utf8 "::ffff:")
        (hc : ¬ (c = 0x2E ∨ isDigit c = true)) : c ∉ utf8 "::ffff:" ++ string4 bits := by
      intro hmem
      rw [mem_append] at hmem
      exact hmem.elim hmark fun hmem => hc (mem_string4 hmem)
    rw [peerAddr_joinHostPort (hclean (by decide) (by decide)) (hclean (by decide) (by decide)),
      parseAddr_mapped, hip, getD_some, Addr.unmap, if_pos (is4In6_mapped bits),
      setWidth_mapped]

/-! ### The configured texts -/

/-- What `parseProxy` makes of a text, next to what the text stands for. -/
inductive Configures (s : Bytes) : Prefix → Prop where
  | v4 {own addr : BitVec 32} {n : Nat} (hn : n ≤ 32)
      (hown : ∀ bits, Agree n bits own ↔ Agree n bits addr)
      (hblock : Block.ofText s = some ⟨mapped addr, 96 + n, []⟩) (hcolon : 0x3A ∉ s) :
      Configures s ⟨.v4 own, n⟩
  | v6 {own addr : BitVec 128} {n : Nat} {zone : Bytes} (hn : n ≤ 128)
      (hown : ∀ bits, Agree n bits own ↔ Agree n bits addr)
      (hblock : Block.ofText s = some ⟨addr, n, zone⟩) (hcolon : 0x3A ∈ s) :
      Configures s ⟨.v6 own [], n⟩

theorem prefixBits_digits {n : Nat} (h : prefixBits s = some n) : ∀ b ∈ s, isDigit b = true := by
  unfold prefixBits at h
  split at h
  · cases h
  · next hgood =>
    have hall : s.all isDigit = true := by
      by_contra hall
      exact hgood (.inr (.inr hall))
    exact List.all_eq_true.mp hall

theorem parsePrefix_eq_some {p : Prefix} (h : parsePrefix s = some p) :
    (0x3A ∉ s ∧ ∃ addr, p.ip = .v4 addr ∧ p.bits ≤ 32) ∨
      (0x3A ∈ s ∧ ∃ addr, p.ip = .v6 addr [] ∧ p.bits ≤ 128) := by
  dsimp only [parsePrefix, bind_eq_bind] at h
  obtain ⟨⟨addr, len⟩, hcut, h⟩ := bind_eq_some_iff.mp h
  obtain ⟨ip, hip, h⟩ := bind_eq_some_iff.mp h
  dsimp only at hip h
  split_ifs at h
  obtain ⟨n, hn, h⟩ := bind_eq_some_iff.mp h
  split_ifs at h with hlen
  obtain rfl := some.inj h
  have hdigit : 0x3A ∉ len := fun hmem => absurd (prefixBits_digits hn _ hmem) (by decide)
  have hcolon : 0x3A ∈ s ↔ 0x3A ∈ addr := by
    rw [cutLast_eq_some hcut, mem_append, mem_cons]
    exact ⟨fun h => h.resolve_right fun h => h.elim (by decide) hdigit, .inl⟩
  rw [hcolon]
  refine (colon_of_parseAddr hip).imp ?_ ?_
  · rintro ⟨hnone, bits, rfl⟩
    exact ⟨hnone, bits, rfl, Nat.le_of_not_lt hlen⟩
  · rintro ⟨hsome, bits, zone, rfl⟩
    exact ⟨hsome, bits, rfl, Nat.le_of_not_lt hlen⟩

theorem configures_of_parseProxy {p : Prefix} (h : parseProxy s = some p) : Configures s p := by
  unfold parseProxy at h
  cases hcidr : parsePrefix s with
  | some q =>
    have hblock : Block.ofText s = Block.ofAddr q.bits q.ip := by rw [Block.ofText, hcidr]
    rw [hcidr] at h
    obtain rfl := some.inj h
    unfold Prefix.masked
    obtain ⟨hcolon, addr, hip, hn⟩ | ⟨hcolon, addr, hip, hn⟩ := parsePrefix_eq_some hcidr
    · rw [hip] at hblock ⊢
      exact .v4 hn (fun bits => agree_mask hn) hblock hcolon
    · rw [hip] at hblock ⊢
      exact .v6 hn (fun bits => agree_mask hn) hblock hcolon
  | none =>
    rw [hcidr] at h
    obtain ⟨a, ha, rfl⟩ := map_eq_some_iff.mp h
    have hblock : Block.ofText s = Block.ofAddr a.bitLen a := by
      rw [Block.ofText, hcidr, ha]
      rfl
    obtain ⟨hcolon, addr, rfl⟩ | ⟨hcolon, addr, zone, rfl⟩ := colon_of_parseAddr ha
    · exact .v4 (Nat.le_refl 32) (fun bits => Iff.rfl) hblock hcolon
    · exact .v6 (Nat.le_refl 128) (fun bits => Iff.rfl) hblock hcolon

def TCPAddr.peer (r : TCPAddr) : Addr :=
  match r.ip.to4 with
  | some bits => .v4 bits
  | none => .v6 r.ip.wide []

theorem denotes_iff {text : Bytes} {block : Block} (h : Block.ofText (trimSpace text) = some block)
    :
    Denotes text r ↔ Agree block.bits r.ip.wide block.addr ∧
      (block.zone = [] ∨ r.zone = [] ∨ block.zone = r.zone) := by
  unfold Denotes
  rw [h]
  constructor
  · rintro ⟨b, hb, hdenotes⟩
    cases hb
    exact hdenotes
  · exact fun hdenotes => ⟨block, rfl, hdenotes⟩

theorem contains_peer {text : Bytes} {p : Prefix} (hp : Configures (trimSpace text) p)
    (hzone : r.zone = []) : p.contains r.peer = true ↔ Denotes text r ∧ Comparable text r := by
  unfold TCPAddr.peer
  cases hp with
  | @v4 own addr n hn hown hblock hcolon =>
    have hdenotes : Denotes text r ↔ Agree (96 + n) r.ip.wide (mapped addr) := by
      rw [denotes_iff hblock]
      exact and_iff_left (.inl rfl)
    have hcomparable : Comparable text r := ⟨hzone, fun _ => hcolon⟩
    rw [hdenotes, and_iff_left hcomparable]
    cases hip : r.ip.to4 with
    | some bits => rw [contains_v4 hn, hown, wide_of_some hip, agree_mapped]
    | none =>
      refine iff_of_false Bool.false_ne_true fun hagree => ?_
      have h4 := is4In6_of_agree hagree
      rw [is4In6_of_none hip] at h4
      cases h4
  | @v6 own addr n zone hn hown hblock hcolon =>
    have hdenotes : Denotes text r ↔ Agree n r.ip.wide addr := by
      rw [denotes_iff hblock]
      exact and_iff_left (.inr (.inl hzone))
    cases hip : r.ip.to4 with
    | some bits =>
      refine iff_of_false Bool.false_ne_true fun h => ?_
      exact h.2.2 (by rw [hip]; rfl) hcolon
    | none =>
      have hcomparable : Comparable text r := ⟨hzone, fun h => by rw [hip] at h; cases h⟩
      rw [contains_v6 hn, hown, hdenotes, and_iff_left hcomparable]

theorem isValid_peer (r : TCPAddr) : r.peer.isValid = true := by
  unfold TCPAddr.peer
  cases r.ip.to4 <;> rfl

theorem parseProxy_nil : parseProxy [] = none := rfl

theorem mem_parsePrefixes {texts : List Bytes} {proxies : List Prefix}
    (h : parsePrefixes texts = .ok proxies) (p : Prefix) :
    p ∈ proxies ↔ ∃ text ∈ texts, parseProxy (trimSpace text) = some p := by
  induction texts generalizing proxies with
  | nil =>
    cases h
    simp
  | cons raw texts ih =>
    rw [exists_mem_cons_iff]
    rw [parsePrefixes] at h
    by_cases hblank : trimSpace raw = []
    · rw [if_pos hblank] at h
      rw [ih h, hblank, parseProxy_nil]
      simp
    · rw [if_neg hblank] at h
      cases hread : parseProxy (trimSpace raw) with
      | none =>
        rw [hread] at h
        cases h
      | some q =>
        rw [hread] at h
        cases hrest : parsePrefixes texts with
        | error e =>
          rw [hrest] at h
          cases h
        | ok rest =>
          rw [hrest] at h
          cases h
          rw [mem_cons, ih hrest, Option.some.injEq, eq_comm]

theorem exists_parseProxy {block : Block} (h : Block.ofText s = some block) :
    ∃ p, parseProxy s = some p := by
  unfold Block.ofText at h
  unfold parseProxy
  cases hcidr : parsePrefix s with
  | some q => exact ⟨_, rfl⟩
  | none =>
    rw [hcidr] at h
    obtain ⟨a, ha, -⟩ := bind_eq_some_iff.mp h
    rw [ha]
    exact ⟨_, rfl⟩

/-- The peer counts as trusted just when a text stands for its address and can be compared with
it. -/
theorem proxies_trusted {texts : List Bytes} {proxies : List Prefix}
    (h : parsePrefixes texts = .ok proxies) {r : TCPAddr} {remote : Bytes}
    (hw : Written r remote) :
    isTrusted proxies (peerAddr remote) = true ↔
      ∃ text ∈ texts, Denotes text r ∧ Comparable text r := by
  by_cases hzone : r.zone = []
  · have hpeer : peerAddr remote = r.peer := peerAddr_written hw hzone
    unfold isTrusted
    rw [hpeer, isValid_peer, Bool.true_and, List.any_eq_true]
    constructor
    · rintro ⟨p, hp, hcontains⟩
      obtain ⟨text, htext, hread⟩ := (mem_parsePrefixes h p).mp hp
      have hconfigures := configures_of_parseProxy hread
      exact ⟨text, htext, (contains_peer hconfigures hzone).mp hcontains⟩
    · rintro ⟨text, htext, hdenotes, hcomparable⟩
      obtain ⟨block, hblock, -⟩ := id hdenotes
      obtain ⟨p, hread⟩ := exists_parseProxy hblock
      have hconfigures := configures_of_parseProxy hread
      exact ⟨p, (mem_parsePrefixes h p).mpr ⟨text, htext, hread⟩,
        (contains_peer hconfigures hzone).mpr ⟨hdenotes, hcomparable⟩⟩
  · have hremote : remote = r.string := by
      cases hw with
      | tcp => rfl
      | mapped _ hnone => exact absurd hnone hzone
    refine iff_of_false ?_ fun ⟨_, _, _, hcomparable⟩ => hzone hcomparable.1
    rw [hremote, isTrusted_unmatched (unmatched_of_zone hzone)]
    exact Bool.false_ne_true

/-- A proxy that is configured in the form `fd00::/8` is trusted. -/
theorem proxies_trusted_local :
    isTrusted [prefixFrom (.v6 (0xFD#8 ++ 0#120) []) 8] (peerAddr (utf8 "[fd00::1]:1")) = true := by
  have hread : parsePrefixes [utf8 "fd00::/8"] =
      .ok [prefixFrom (.v6 (0xFD#8 ++ 0#120) []) 8] := by decide +kernel
  have hw : Written ⟨.sixteen (0xFD#8 ++ 1#120), 1, []⟩ (utf8 "[fd00::1]:1") := by
    have htext : utf8 "[fd00::1]:1" =
        TCPAddr.string ⟨.sixteen (0xFD#8 ++ 1#120), 1, []⟩ := by decide +kernel
    rw [htext]
    exact .tcp
  refine (proxies_trusted hread hw).mpr ⟨_, mem_singleton_self _, ⟨⟨0xFD#8 ++ 0#120, 8, []⟩,
    by decide +kernel, ?_, .inl rfl⟩, rfl, ?_⟩
  · unfold Agree
    decide +kernel
  · decide +kernel

/-- The IPv4-mapped form of an address or block is accepted and never matched, and neither is a
peer with a zone. -/
theorem mapped_untrusted :
    (∃ proxies r, parsePrefixes [utf8 "::ffff:10.0.0.1"] = .ok proxies ∧
      Written r (utf8 "10.0.0.1:1") ∧ Denotes (utf8 "::ffff:10.0.0.1") r ∧
      isTrusted proxies (peerAddr (utf8 "10.0.0.1:1")) = false) ∧
    ∃ proxies r, parsePrefixes [utf8 "fe80::1%eth0"] = .ok proxies ∧
      Written r (utf8 "[fe80::1%eth0]:1") ∧ Denotes (utf8 "fe80::1%eth0") r ∧
      isTrusted proxies (peerAddr (utf8 "[fe80::1%eth0]:1")) = false := by
  constructor
  · refine ⟨[prefixFrom (.v6 (mapped 0x0A000001#32) []) 128], ⟨.four 0x0A000001#32, 1, []⟩,
      by decide +kernel, ?_, ⟨⟨mapped 0x0A000001#32, 128, []⟩, by decide +kernel, ?_, .inl rfl⟩,
      by decide +kernel⟩
    · have htext : utf8 "10.0.0.1:1" = TCPAddr.string ⟨.four 0x0A000001#32, 1, []⟩ := by
        decide +kernel
      rw [htext]
      exact .tcp
    · exact fun i hi => rfl
  · refine ⟨[prefixFrom (.v6 (0xFE80#16 ++ 1#112) []) 128],
      ⟨.sixteen (0xFE80#16 ++ 1#112), 1, utf8 "eth0"⟩, by decide +kernel, ?_,
      ⟨⟨0xFE80#16 ++ 1#112, 128, utf8 "eth0"⟩, by decide +kernel, ?_, .inr (.inr rfl)⟩,
      by decide +kernel⟩
    · have htext : utf8 "[fe80::1%eth0]:1" =
          TCPAddr.string ⟨.sixteen (0xFE80#16 ++ 1#112), 1, utf8 "eth0"⟩ := by decide +kernel
      rw [htext]
      exact .tcp
    · exact fun i hi => rfl

end GolangBasics.Httpx
