import GolangBasics.Netip
import GolangBasics.Url
import Mathlib.Data.List.Infix

/-! `url.Parse` and `URL.String`. -/
namespace GolangBasics.Url
open List Option
open Json (unhex isDigit)
open Strings (cutLast)

/-- `url.Userinfo`; `none` is a password that is not set. -/
structure Userinfo where
  username : Bytes
  password : Option Bytes
  deriving DecidableEq

structure URL where
  scheme : Bytes := []
  opaquePart : Bytes := []
  user : Option Userinfo := none
  host : Bytes := []
  path : Bytes := []
  rawPath : Bytes := []
  omitHost : Bool := false
  forceQuery : Bool := false
  rawQuery : Bytes := []
  fragment : Bytes := []
  rawFragment : Bytes := []
  deriving DecidableEq

def percent (b : UInt8) : Bytes := [0x25, upperHex (b.toNat / 16), upperHex (b.toNat % 16)]

/-- `escape`, where `keep` is what `shouldEscape` leaves alone. -/
def escapeBy (keep : UInt8 → Bool) (s : Bytes) : Bytes :=
  s.flatMap fun b => if keep b then [b] else percent b

def isUnreserved (b : UInt8) : Bool := isAlphanumeric b || (utf8 "-_.~").contains b

def keptInHost (b : UInt8) : Bool := isUnreserved b || (utf8 "!$&'()*+,;=:[]<>\"").contains b

def keptInUser (b : UInt8) : Bool := isUnreserved b || (utf8 "$&+,;=").contains b

def keptInFragment (b : UInt8) : Bool := isUnreserved b || (utf8 "$&+,/:;=?@!()*").contains b

/-- `unescape` in a host: only bytes beyond ASCII and the percent sign are escaped, and what
would have to be is refused. -/
def unescapeHost : Bytes → Option Bytes
  | [] => some []
  | b :: rest =>
    if b = 0x25 then
      match rest with
      | h :: l :: rest => do
        let hi ← unhex h
        let lo ← unhex l
        if hi < 8 ∧ ¬ (h = 0x32 ∧ l = 0x35) then none
        else
          let s ← unescapeHost rest
          some (UInt8.ofNat (hi * 16 + lo) :: s)
      | _ => none
    else if b < 0x80 ∧ ¬ keptInHost b then none
    else do
      let s ← unescapeHost rest
      some (b :: s)

/-- `unescape` in the zone of an IPv6 address. -/
def unescapeZone : Bytes → Option Bytes
  | [] => some []
  | b :: rest =>
    if b = 0x25 then
      match rest with
      | h :: l :: rest => do
        let hi ← unhex h
        let lo ← unhex l
        let v := UInt8.ofNat (hi * 16 + lo)
        if v ≠ 0x25 ∧ v ≠ 0x20 ∧ ¬ keptInHost v then none
        else
          let s ← unescapeZone rest
          some (v :: s)
      | _ => none
    else if b < 0x80 ∧ ¬ keptInHost b then none
    else do
      let s ← unescapeZone rest
      some (b :: s)

def validUserinfo (s : Bytes) : Bool :=
  s.all fun b => isAlphanumeric b || (utf8 "-._:~!$&'()*+,;=%@").contains b

def validOptionalPort : Bytes → Bool
  | [] => true
  | c :: digits => c = 0x3A && digits.all isDigit

/-- The first place where `sub` stands in the text, with what is before and from there on. -/
def cutAt (sub : Bytes) : Bytes → Option (Bytes × Bytes)
  | [] => if sub = [] then some ([], []) else none
  | b :: rest =>
    if sub.isPrefixOf (b :: rest) then some ([], b :: rest)
    else (cutAt sub rest).map fun (before, after) => (b :: before, after)

/-- An IPv6 address in brackets, without them. -/
def parseLiteral (hostname : Bytes) : Option Bytes := do
  let text ←
    match cutAt (utf8 "%25") hostname with
    | some (address, zone) => do
      let address ← unescapeHost address
      let zone ← unescapeZone zone
      some (address ++ zone)
    | none => unescapeHost hostname
  match Netip.parseAddr text with
  | some (.v6 _ _) => some text
  | _ => none

/-- `parseHost`. Several colons are let through for PostgreSQL only, which has lists of hosts. -/
def parseHost (scheme host : Bytes) : Option Bytes :=
  match cutLast 0x5B host with
  | some (before, after) =>
    if before ≠ [] then none
    else do
      let (hostname, colonPort) ← cutLast 0x5D after
      if !validOptionalPort colonPort then none
      else
        let colonPort ← unescapeHost colonPort
        let text ← parseLiteral hostname
        some (0x5B :: text ++ 0x5D :: colonPort)
  | none =>
    let (_, first) := host.span (· ≠ 0x3A)
    let colonPort :=
      if scheme = utf8 "postgres" ∨ scheme = utf8 "postgresql" then
        match cutLast 0x3A host with
        | some (_, port) => 0x3A :: port
        | none => []
      else first
    if !validOptionalPort colonPort then none else unescapeHost host

def parseUserinfo (userinfo : Bytes) : Option Userinfo :=
  if !validUserinfo userinfo then none
  else if 0x3A ∉ userinfo then do
    let username ← unescape false userinfo
    some ⟨username, none⟩
  else do
    let (username, password) := cut 0x3A userinfo
    let username ← unescape false username
    let password ← unescape false password
    some ⟨username, some password⟩

def parseAuthority (scheme authority : Bytes) : Option (Option Userinfo × Bytes) :=
  match cutLast 0x40 authority with
  | none => (parseHost scheme authority).map fun host => (none, host)
  | some (userinfo, host) => do
    let host ← parseHost scheme host
    let user ← parseUserinfo userinfo
    some (some user, host)

def schemeByte (b : UInt8) : Bool := isAlphanumeric b || (utf8 "+-.").contains b

def isLetter (b : UInt8) : Bool := (0x61 ≤ b && b ≤ 0x7A) || (0x41 ≤ b && b ≤ 0x5A)

/-- `getScheme`: the scheme, empty if there is none, and what follows it. -/
def getScheme (s : Bytes) : Option (Bytes × Bytes) :=
  match s.span schemeByte with
  | (scheme, rest) =>
    if s.head? = some 0x3A then none
    else if s.head?.any isLetter && rest.head? = some 0x3A then some (scheme, rest.drop 1)
    else some ([], s)

def lowerByte (b : UInt8) : UInt8 := if 0x41 ≤ b ∧ b ≤ 0x5A then b + 0x20 else b

def toLower (s : Bytes) : Bytes := s.map lowerByte

def URL.setPath (u : URL) (p : Bytes) : Option URL := do
  let path ← unescape false p
  some { u with path, rawPath := if p = escape path then [] else p }

def URL.setFragment (u : URL) (f : Bytes) : Option URL := do
  let fragment ← unescape false f
  some { u with fragment, rawFragment := if f = escapeBy keptInFragment fragment then [] else f }

/-- The part of `parse` behind the scheme and in front of the query. -/
def parseRest (scheme rest : Bytes) : Option URL :=
  let u : URL := { scheme }
  if rest.head? ≠ some 0x2F then
    if scheme ≠ [] then some { u with opaquePart := rest }
    else if 0x3A ∈ (cut 0x2F rest).1 then none
    else u.setPath rest
  else if (scheme ≠ [] ∨ ¬ (utf8 "///").isPrefixOf rest) ∧ (utf8 "//").isPrefixOf rest then do
    let (authority, path) := (rest.drop 2).span (· ≠ 0x2F)
    let (user, host) ← parseAuthority scheme authority
    ({ u with user, host } : URL).setPath path
  else ({ u with omitHost := scheme ≠ [] } : URL).setPath rest

/-- What is behind the scheme up to the query, the flag `ForceQuery`, and the query. -/
def cutQuery (rest : Bytes) : Bytes × Bool × Bytes :=
  if rest.getLast? = some 0x3F ∧ rest.count 0x3F = 1 then (rest.dropLast, true, [])
  else
    let (rest, query) := cut 0x3F rest
    (rest, false, query)

def parseWhole (s : Bytes) : Option URL :=
  if containsCTL s then none
  else if s = utf8 "*" then some { path := s }
  else do
    let (scheme, rest) ← getScheme s
    let (rest, forceQuery, rawQuery) := cutQuery rest
    let u ← parseRest (toLower scheme) rest
    some { u with forceQuery, rawQuery }

def parse (s : Bytes) : Option URL := do
  let (s, frag) := cut 0x23 s
  let u ← parseWhole s
  if frag = [] then some u else u.setFragment frag

def Userinfo.string (u : Userinfo) : Bytes :=
  if u.username = [] ∧ u.password.getD [] = [] then []
  else escapeBy keptInUser u.username ++
    match u.password with
    | some password => 0x3A :: escapeBy keptInUser password
    | none => []

def URL.escapedPath (u : URL) : Bytes :=
  if u.rawPath ≠ [] ∧ validEncoded u.rawPath ∧ unescape false u.rawPath = some u.path then
    u.rawPath
  else if u.path = utf8 "*" then u.path
  else escape u.path

def URL.escapedFragment (u : URL) : Bytes :=
  if u.rawFragment ≠ [] ∧
      (u.rawFragment.all fun b => keptInFragment b || (utf8 "!$&'()*+,;=:@[]%").contains b) ∧
      unescape false u.rawFragment = some u.fragment then
    u.rawFragment
  else escapeBy keptInFragment u.fragment

/-- The user and the host with the two slashes before them. -/
def URL.authority (u : URL) : Bytes :=
  if (u.scheme = [] ∧ u.host = [] ∧ u.user = none) ∨
      (u.omitHost ∧ u.host = [] ∧ u.user = none) then []
  else
    (if u.host ≠ [] ∨ u.path ≠ [] ∨ u.user ≠ none then utf8 "//" else []) ++
      (match u.user with
        | some user => user.string ++ [0x40]
        | none => []) ++
      escapeBy keptInHost u.host

def URL.front (u : URL) : Bytes :=
  let scheme := if u.scheme ≠ [] then u.scheme ++ [0x3A] else []
  if u.opaquePart ≠ [] then scheme ++ u.opaquePart
  else
    let path := u.escapedPath
    let slash := if path ≠ [] ∧ path.head? ≠ some 0x2F ∧ u.host ≠ [] then [0x2F] else []
    let start := scheme ++ u.authority ++ slash
    let dot := if start = [] ∧ 0x3A ∈ (cut 0x2F path).1 then utf8 "./" else []
    start ++ dot ++ path

def URL.string (u : URL) : Bytes :=
  u.front ++ (if u.forceQuery ∨ u.rawQuery ≠ [] then 0x3F :: u.rawQuery else []) ++
    (if u.fragment ≠ [] then 0x23 :: u.escapedFragment else [])

variable {b : UInt8}

theorem notCTL_of_kept {others : String} (h : (isAlphanumeric b || (utf8 others).contains b) = true)
    (hothers : containsCTL (utf8 others) = false) : (decide (b < 0x20) || b = 0x7F) = false := by
  obtain halnum | hmem := Bool.or_eq_true_iff.mp h
  · simp only [isAlphanumeric, Bool.or_eq_true, Bool.and_eq_true, decide_eq_true_eq,
      UInt8.le_iff_toNat_le, UInt8.reduceToNat] at halnum
    simp only [Bool.or_eq_false_iff, decide_eq_false_iff_not, UInt8.lt_iff_toNat_lt,
      ← UInt8.toNat_inj, UInt8.reduceToNat]
    omega
  · exact Bool.eq_false_iff.mpr (List.any_eq_false.mp hothers b (contains_iff_mem.mp hmem))

theorem kept_mono {others more : String} (h : (isAlphanumeric b || (utf8 others).contains b) = true)
    (hsub : (utf8 others).all (utf8 more).contains = true) :
    (isAlphanumeric b || (utf8 more).contains b) = true := by
  obtain halnum | hmem := Bool.or_eq_true_iff.mp h
  · rw [halnum, Bool.true_or]
  · rw [List.all_eq_true.mp hsub b (contains_iff_mem.mp hmem), Bool.or_true]

variable {s : Bytes}

theorem cut_of_notMem {sep : UInt8} (h : sep ∉ s) : cut sep s = (s, []) := by
  unfold cut
  rw [Strings.span_all (Strings.forall_ne_of_notMem h)]

theorem append_sep_inj {sep : UInt8} {x y a b : Bytes} (hx : sep ∉ x) (hy : sep ∉ y)
    (h : x ++ sep :: a = y ++ sep :: b) : x = y ∧ a = b := by
  have hcut := cut_append hx a
  rw [h, cut_append hy] at hcut
  exact ⟨(Prod.mk.inj hcut).1.symm, (Prod.mk.inj hcut).2.symm⟩

variable {scheme : Bytes}

theorem getScheme_append (hletter : scheme.head?.any isLetter = true)
    (hbytes : ∀ b ∈ scheme, schemeByte b = true) (rest : Bytes) :
    getScheme (scheme ++ 0x3A :: rest) = some (scheme, rest) := by
  have hspan : (scheme ++ 0x3A :: rest).span schemeByte = (scheme, 0x3A :: rest) :=
    Strings.span_stop hbytes rfl rest
  obtain ⟨c, cs, rfl⟩ : ∃ c cs, scheme = c :: cs := by
    cases scheme with
    | nil => cases hletter
    | cons c cs => exact ⟨c, cs, rfl⟩
  have hc : isLetter c = true := by simpa using hletter
  have hcolon : c ≠ 0x3A := by
    rintro rfl
    cases hc
  unfold getScheme
  rw [hspan]
  simp [hc, hcolon]

variable {rest : Bytes}

theorem cutQuery_of_notMem (h : 0x3F ∉ rest) : cutQuery rest = (rest, false, []) := by
  have hlast : ¬ (rest.getLast? = some 0x3F ∧ rest.count 0x3F = 1) := by
    rintro ⟨hlast, -⟩
    exact h (List.mem_of_getLast? hlast)
  unfold cutQuery
  rw [if_neg hlast, cut_of_notMem h]

variable {query : Bytes}

theorem cutQuery_append (h : 0x3F ∉ rest) (hne : query ≠ []) :
    cutQuery (rest ++ 0x3F :: query) = (rest, false, query) := by
  have hlast : ¬ ((rest ++ 0x3F :: query).getLast? = some 0x3F ∧
      (rest ++ 0x3F :: query).count 0x3F = 1) := by
    rintro ⟨hlast, hcount⟩
    have hmem : 0x3F ∈ query := by
      rw [List.getLast?_append_of_ne_nil _ (cons_ne_nil _ _), List.getLast?_cons,
        List.getLast?_eq_getLast_of_ne_nil hne] at hlast
      exact some.inj hlast ▸ getLast_mem hne
    have hpos := count_pos_iff.mpr hmem
    rw [count_append, count_cons_self] at hcount
    omega
  unfold cutQuery
  rw [if_neg hlast, cut_append h]

theorem getScheme_query {front : Bytes} (h : 0x3F ∉ front) (query : Bytes) :
    getScheme (front ++ 0x3F :: query) =
      (getScheme front).map fun x => (x.1, x.2 ++ 0x3F :: query) := by
  have hstop : schemeByte 0x3F = false := rfl
  have hspan : (front ++ 0x3F :: query).span schemeByte =
      ((front.span schemeByte).1, (front.span schemeByte).2 ++ 0x3F :: query) := by
    simp only [span_eq_takeWhile_dropWhile]
    induction front with
    | nil => simp [hstop]
    | cons b front ih =>
      have ih := ih fun hmem => h (mem_cons_of_mem b hmem)
      by_cases hb : schemeByte b = true
      · simp_all
      · simp [hb]
  have hhead : (front ++ 0x3F :: query).head?.any isLetter = front.head?.any isLetter := by
    cases front <;> rfl
  have hcolon : (front ++ 0x3F :: query).head? = some 0x3A ↔ front.head? = some 0x3A := by
    cases front with
    | nil => simp
    | cons b front => rfl
  unfold getScheme
  rw [hspan]
  dsimp only
  rw [hhead]
  by_cases hfirst : front.head? = some 0x3A
  · rw [if_pos (hcolon.mpr hfirst), if_pos hfirst]
    rfl
  · rw [if_neg fun h => hfirst (hcolon.mp h), if_neg hfirst]
    generalize hrest : (front.span schemeByte).2 = rest
    cases rest with
    | nil =>
      rw [if_neg (by simp), if_neg (by simp)]
      rfl
    | cons c rest =>
      have hlast : ((c :: rest) ++ 0x3F :: query).head? = (c :: rest).head? := rfl
      rw [hlast]
      split_ifs <;> rfl

theorem mem_of_getScheme (h : getScheme s = some (scheme, rest)) (hb : b ∈ rest) : b ∈ s := by
  unfold getScheme at h
  dsimp only at h
  split_ifs at h
  · obtain ⟨-, rfl⟩ := Prod.mk.inj (some.inj h)
    have hmem := mem_of_mem_drop hb
    rw [span_eq_takeWhile_dropWhile] at hmem
    exact dropWhile_subset _ hmem
  · obtain ⟨-, rfl⟩ := Prod.mk.inj (some.inj h)
    exact hb

theorem cut_eq (sep : UInt8) (s : Bytes) : sep ∉ (cut sep s).1 ∧
    (s = (cut sep s).1 ∧ (cut sep s).2 = [] ∨ s = (cut sep s).1 ++ sep :: (cut sep s).2) := by
  by_cases h : sep ∈ s
  · obtain ⟨a, b, rfl, ha⟩ := eq_append_cons_of_mem h
    rw [cut_append ha]
    exact ⟨ha, .inr rfl⟩
  · rw [cut_of_notMem h]
    exact ⟨h, .inl ⟨rfl, rfl⟩⟩

theorem cutQuery_eq (hne : (cutQuery rest).2.2 ≠ []) :
    rest = (cutQuery rest).1 ++ 0x3F :: (cutQuery rest).2.2 ∧ 0x3F ∉ (cutQuery rest).1 := by
  unfold cutQuery at hne ⊢
  split_ifs at hne ⊢
  · exact absurd rfl hne
  · obtain ⟨hnot, ⟨-, hnil⟩ | heq⟩ := cut_eq 0x3F rest
    · exact absurd hnil hne
    · exact ⟨heq, hnot⟩

theorem getScheme_eq (h : getScheme s = some (scheme, rest)) :
    ∃ x, s = x ++ rest ∧ ∀ b ∈ x, schemeByte b = true ∨ b = 0x3A := by
  unfold getScheme at h
  dsimp only at h
  split_ifs at h with hfirst hcolon
  · obtain ⟨-, rfl⟩ := Prod.mk.inj (some.inj h)
    rw [Bool.and_eq_true, decide_eq_true_eq] at hcolon
    have hsplit : s = (s.span schemeByte).1 ++ (s.span schemeByte).2 := by
      rw [span_eq_takeWhile_dropWhile, takeWhile_append_dropWhile]
    have hbytes : ∀ b ∈ (s.span schemeByte).1, schemeByte b = true := by
      intro b hb
      rw [span_eq_takeWhile_dropWhile] at hb
      exact mem_takeWhile_imp hb
    obtain ⟨t, ht⟩ : ∃ t, (s.span schemeByte).2 = 0x3A :: t := by
      have hhead := hcolon.2
      cases hspan : (s.span schemeByte).2 with
      | nil =>
        rw [hspan] at hhead
        cases hhead
      | cons c t =>
        rw [hspan] at hhead
        exact ⟨t, by rw [some.inj hhead]⟩
    refine ⟨(s.span schemeByte).1 ++ [0x3A], ?_, fun b hb => ?_⟩
    · rw [ht] at hsplit ⊢
      simpa using hsplit
    · exact (mem_append.mp hb).imp (hbytes b) mem_singleton.mp
  · obtain ⟨-, rfl⟩ := Prod.mk.inj (some.inj h)
    exact ⟨[], rfl, fun b hb => absurd hb not_mem_nil⟩

def parseFront (front : Bytes) : Option URL := do
  let (scheme, rest) ← getScheme front
  parseRest (toLower scheme) rest

/-- The query is only looked through for control characters. -/
theorem parseWhole_query {front : Bytes} (h : 0x3F ∉ front) (hne : query ≠ []) :
    parseWhole (front ++ 0x3F :: query) =
      if containsCTL (front ++ 0x3F :: query) then none
      else (parseFront front).map fun u => { u with forceQuery := false, rawQuery := query } := by
  have hstar : front ++ 0x3F :: query ≠ utf8 "*" := by
    intro heq
    have hmem : 0x3F ∈ utf8 "*" := by
      rw [← heq]
      simp
    exact absurd hmem (by decide)
  unfold parseWhole parseFront
  rw [if_neg hstar, getScheme_query h]
  cases hscheme : getScheme front with
  | none => rfl
  | some x =>
    obtain ⟨scheme, rest⟩ := x
    have hrest : 0x3F ∉ rest := fun hmem => h (mem_of_getScheme hscheme hmem)
    simp only [map_some, bind_eq_bind, bind_some, cutQuery_append hrest hne]
    cases parseRest (toLower scheme) rest <;> rfl

theorem parse_of_notMem (h : 0x23 ∉ s) : parse s = parseWhole s := by
  unfold parse
  rw [cut_of_notMem h]
  dsimp only
  cases parseWhole s <;> rfl

variable {u : URL}

/-- The query of a parsed URL stands in its text. -/
theorem parse_rawQuery (h : parse s = some u) (hne : u.rawQuery ≠ []) :
    ∃ front back, s = front ++ 0x3F :: u.rawQuery ++ back ∧ 0x3F ∉ front ∧
      0x23 ∉ front ++ 0x3F :: u.rawQuery ∧ (back = [] ∨ back.head? = some 0x23) := by
  obtain ⟨w, hw, hfragment⟩ := bind_eq_some_iff.mp h
  have hw : parseWhole (cut 0x23 s).1 = some w := hw
  have hraw : w.rawQuery = u.rawQuery := by
    split_ifs at hfragment
    · rw [some.inj hfragment]
    · obtain ⟨fragment, -, hu⟩ := bind_eq_some_iff.mp hfragment
      rw [← some.inj hu]
  obtain ⟨x, hx, hs⟩ : ∃ x, x = (cut 0x23 s).1 ∧ 0x23 ∉ x ∧
      ∃ back, s = x ++ back ∧ (back = [] ∨ back.head? = some 0x23) := by
    obtain ⟨hnot, ⟨heq, -⟩ | heq⟩ := cut_eq 0x23 s
    · exact ⟨_, rfl, hnot, [], by rw [append_nil]; exact heq, .inl rfl⟩
    · exact ⟨_, rfl, hnot, _, heq, .inr rfl⟩
  obtain ⟨hnot, back, rfl, hback⟩ := hs
  rw [← hx] at hw
  clear hx h hfragment
  unfold parseWhole at hw
  split_ifs at hw with hctl hstar
  · rw [← some.inj hw] at hraw
    exact absurd hraw.symm hne
  · obtain ⟨⟨scheme, rest⟩, hscheme, hw⟩ := bind_eq_some_iff.mp hw
    obtain ⟨v, -, hv⟩ := bind_eq_some_iff.mp hw
    rw [← some.inj hv] at hraw
    obtain ⟨p, rfl, hp⟩ := getScheme_eq hscheme
    have hquery : (cutQuery rest).2.2 = u.rawQuery := hraw
    obtain ⟨hrest, hfront⟩ := cutQuery_eq (hquery ▸ hne)
    rw [hquery] at hrest
    have hp : 0x3F ∉ p := by
      intro hmem
      obtain h | h := hp _ hmem
      · cases h
      · cases h
    have hwhole : p ++ (cutQuery rest).1 ++ 0x3F :: u.rawQuery = p ++ rest := by
      rw [append_assoc, ← hrest]
    refine ⟨p ++ (cutQuery rest).1, back, ?_, ?_, ?_, hback⟩
    · rw [hwhole]
    · simp [hp, hfront]
    · rw [hwhole]
      exact hnot

theorem unescape_ne_nil {query : Bool} {t : Bytes} (h : unescape query s = some t) (hne : s ≠ []) :
    t ≠ [] := by
  obtain ⟨b, rest, rfl⟩ := exists_cons_of_ne_nil hne
  by_cases hb : b = 0x25
  · subst hb
    obtain ⟨_, _, _, _, _, u, -, -, -, -, rfl⟩ := unescape_percent_some h
    exact cons_ne_nil _ _
  · rw [unescape_plain hb] at h
    obtain ⟨u, -, rfl⟩ := map_eq_some_iff.mp h
    exact cons_ne_nil _ _

theorem mem_unescape {t : Bytes} (h : unescape false s = some t) (hb : b ∈ s) (hpercent : b ≠ 0x25)
    (hhex : unhex b = none) : b ∈ t := by
  induction s using unescape.induct generalizing t with
  | case1 => cases hb
  | case2 d₁ d₂ rest ih =>
    obtain ⟨_, _, _, hi, lo, u, heq, hhi, hlo, hu, rfl⟩ := unescape_percent_some h
    cases heq
    simp only [mem_cons] at hb
    obtain rfl | rfl | rfl | hb := hb
    · exact absurd rfl hpercent
    · rw [hhex] at hhi
      cases hhi
    · rw [hhex] at hlo
      cases hlo
    · exact mem_cons_of_mem _ (ih hu hb)
  | case3 rest hrest =>
    obtain ⟨d₁, d₂, rest', _, _, _, rfl, -⟩ := unescape_percent_some h
    exact absurd rfl (hrest d₁ d₂ rest')
  | case4 c rest hc ih =>
    rw [unescape_plain hc] at h
    obtain ⟨u, hu, rfl⟩ := map_eq_some_iff.mp h
    rw [Bool.false_and, if_neg Bool.false_ne_true]
    obtain rfl | hb := mem_cons.mp hb
    · exact mem_cons_self
    · exact mem_cons_of_mem _ (ih hu hb)

theorem parse_fragment {frag : Bytes} (h : 0x23 ∉ s) (hne : frag ≠ [])
    (hparse : parse (s ++ 0x23 :: frag) = some u) : u.fragment ≠ [] := by
  unfold parse at hparse
  rw [cut_append h] at hparse
  obtain ⟨v, -, hv⟩ := bind_eq_some_iff.mp hparse
  rw [if_neg hne] at hv
  obtain ⟨fragment, hfragment, hu⟩ := bind_eq_some_iff.mp hv
  obtain rfl := some.inj hu
  exact unescape_ne_nil hfragment hne

/-- Two slashes are followed by the authority, up to the next slash. -/
theorem parseRest_authority {authority path : Bytes} (hscheme : scheme ≠ [])
    (hauthority : 0x2F ∉ authority) (hpath : path = [] ∨ path.head? = some 0x2F) :
    parseRest scheme (0x2F :: 0x2F :: (authority ++ path)) =
      (parseAuthority scheme authority).bind fun x =>
        ({ scheme, user := x.1, host := x.2 } : URL).setPath path := by
  have hspan : (authority ++ path).span (· ≠ 0x2F) = (authority, path) := by
    cases path with
    | nil =>
      rw [append_nil]
      exact Strings.span_all (Strings.forall_ne_of_notMem hauthority)
    | cons b path =>
      obtain rfl : b = 0x2F := by simpa using hpath
      exact Strings.span_stop (Strings.forall_ne_of_notMem hauthority) rfl path
  have hslashes : (utf8 "//").isPrefixOf (0x2F :: 0x2F :: (authority ++ path)) = true := rfl
  have hhead : ¬ (0x2F :: 0x2F :: (authority ++ path)).head? ≠ some 0x2F := fun h => h rfl
  have hdrop : (0x2F :: 0x2F :: (authority ++ path)).drop 2 = authority ++ path := rfl
  unfold parseRest
  dsimp only
  rw [if_neg hhead, if_pos ⟨.inl hscheme, hslashes⟩, hdrop, hspan]
  rfl

theorem authority_of_user {user : Userinfo} (h : u.user = some user) :
    u.authority = utf8 "//" ++ (user.string ++ [0x40]) ++ escapeBy keptInHost u.host := by
  have hne : u.user ≠ none := by rw [h]; exact some_ne_none user
  have hshown : ¬ ((u.scheme = [] ∧ u.host = [] ∧ u.user = none) ∨
      (u.omitHost ∧ u.host = [] ∧ u.user = none)) := by
    rintro (⟨-, -, hnone⟩ | ⟨-, -, hnone⟩)
    · exact hne hnone
    · exact hne hnone
  unfold URL.authority
  rw [if_neg hshown, if_pos (.inr (.inr hne)), h]

theorem front_of_scheme (hscheme : u.scheme ≠ []) (hrooted : u.opaquePart = []) :
    u.front = u.scheme ++ [0x3A] ++ u.authority ++
      (if u.escapedPath ≠ [] ∧ u.escapedPath.head? ≠ some 0x2F ∧ u.host ≠ [] then [0x2F] else []) ++
      u.escapedPath := by
  unfold URL.front
  dsimp only
  rw [if_pos hscheme, if_neg fun h => h hrooted]
  simp [hscheme]

theorem hash_mem_string (h : u.fragment ≠ []) : 0x23 ∈ u.string := by
  unfold URL.string
  rw [if_pos h]
  exact mem_append_right _ mem_cons_self

theorem query_mem_string (h : u.rawQuery ≠ []) : 0x3F ∈ u.string := by
  unfold URL.string
  rw [if_pos (.inr h)]
  exact mem_append_left _ (mem_append_right _ mem_cons_self)

theorem string_query (u : URL) (h : query ≠ []) :
    ({ u with rawQuery := query } : URL).string = u.front ++ 0x3F :: query ++
      (if u.fragment ≠ [] then 0x23 :: u.escapedFragment else []) := by
  unfold URL.string
  rw [if_pos (.inr h)]
  rfl

/-- The `@` behind the user and one in the path. -/
theorem two_le_count_string (hscheme : u.scheme ≠ []) (hrooted : u.opaquePart = [])
    (huser : u.user ≠ none) (hat : 0x40 ∈ u.escapedPath) : 2 ≤ u.string.count 0x40 := by
  obtain ⟨user, huser⟩ := Option.ne_none_iff_exists'.mp huser
  have hpath := count_pos_iff.mpr hat
  have hauthority : 0 < u.authority.count 0x40 := by
    rw [authority_of_user huser]
    exact count_pos_iff.mpr (by simp)
  unfold URL.string
  rw [front_of_scheme hscheme hrooted]
  simp only [count_append]
  omega

theorem setPath_some {v : URL} {p : Bytes} (h : u.setPath p = some v) :
    ∃ path rawPath, v = { u with path, rawPath } := by
  obtain ⟨path, -, hv⟩ := bind_eq_some_iff.mp h
  exact ⟨path, _, (some.inj hv).symm⟩

theorem schemeByte_lowerByte (h : schemeByte b = true) : schemeByte (lowerByte b) = true := by
  unfold lowerByte
  split_ifs with hupper
  · have halnum : isAlphanumeric (b + 0x20) = true := by
      simp only [isAlphanumeric, Bool.or_eq_true, Bool.and_eq_true, decide_eq_true_eq,
        UInt8.le_iff_toNat_le, UInt8.toNat_add, UInt8.reduceToNat] at hupper ⊢
      omega
    rw [schemeByte, halnum, Bool.true_or]
  · exact h

theorem escape_self (h : ∀ b ∈ s, unreserved b = true) : escape s = s := by
  induction s with
  | nil => rfl
  | cons b s ih =>
    obtain ⟨hb, hs⟩ := forall_mem_cons.mp h
    have hstep : escape (b :: s) = (if unreserved b then [b] else percent b) ++ escape s := rfl
    rw [hstep, if_pos hb, ih hs]
    rfl

theorem escapeBy_self {keep : UInt8 → Bool} (h : ∀ b ∈ s, keep b = true) : escapeBy keep s = s := by
  induction s with
  | nil => rfl
  | cons b s ih =>
    obtain ⟨hb, hs⟩ := forall_mem_cons.mp h
    have hstep : escapeBy keep (b :: s) = (if keep b then [b] else percent b) ++
        escapeBy keep s := rfl
    rw [hstep, if_pos hb, ih hs]
    rfl

theorem unescapeHost_self (h : ∀ b ∈ s, keptInHost b = true) : unescapeHost s = some s := by
  induction s with
  | nil => rfl
  | cons b s ih =>
    obtain ⟨hb, hs⟩ := forall_mem_cons.mp h
    have hpercent : b ≠ 0x25 := by
      rintro rfl
      cases hb
    rw [unescapeHost.eq_def]
    simp only [hpercent, hb, ih hs, if_false, not_true_eq_false, and_false, bind_eq_bind,
      bind_some]

theorem setPath_self {p : Bytes} (h : ∀ b ∈ p, unreserved b = true) (hplus : 0x2B ∉ p) (u : URL) :
    u.setPath p = some { u with path := p, rawPath := [] } := by
  have hself : unescape false p = some p := by
    refine unescape_self fun b hb => ⟨?_, ?_⟩
    · rintro rfl
      exact absurd (h _ hb) (by decide)
    · rintro rfl
      exact hplus hb
  unfold URL.setPath
  rw [hself]
  dsimp only [bind_eq_bind, bind_some]
  rw [escape_self h, if_pos rfl]

/-- What was in the path and takes part in no escape is shown. -/
theorem mem_escapedPath {v : URL} {p : Bytes} (h : u.setPath p = some v) (hb : b ∈ p)
    (hhex : unhex b = none) (hkept : unreserved b = true) : b ∈ v.escapedPath := by
  obtain ⟨path, hpath, hv⟩ := bind_eq_some_iff.mp h
  obtain rfl := some.inj hv
  have hpercent : b ≠ 0x25 := by
    rintro rfl
    cases hkept
  have hmem : b ∈ path := mem_unescape hpath hb hpercent hhex
  have hescape : b ∈ escape path := by
    refine mem_flatMap.mpr ⟨b, hmem, ?_⟩
    rw [if_pos hkept]
    exact mem_singleton_self b
  have hraw : (if p = escape path then [] else p) ≠ [] → (if p = escape path then [] else p) = p := by
    intro hne
    split_ifs at hne ⊢
    · exact absurd rfl hne
    · rfl
  unfold URL.escapedPath
  dsimp only
  by_cases hshown : (if p = escape path then [] else p) ≠ [] ∧
      validEncoded (if p = escape path then [] else p) = true ∧
      unescape false (if p = escape path then [] else p) = some path
  · rw [if_pos hshown, hraw hshown.1]
    exact hb
  · rw [if_neg hshown]
    split_ifs
    · exact hmem
    · exact hescape

end GolangBasics.Url
