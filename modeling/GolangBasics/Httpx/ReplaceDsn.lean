import GolangBasics.Httpx.RedactUrl

/-! `dsnPair.ReplaceAllString` in steps: a byte that starts no match stays, and a match is taken
as a whole. -/
namespace GolangBasics.Httpx.Redact
open List Option

def keywordByte (b : UInt8) : Bool := Url.isLetter b || 0x80 ≤ b

def lowerLetter (c : UInt8) : Bool := 0x61 ≤ c && c ≤ 0x7A

variable {b : UInt8}

theorem keywordByte_of_lowerByte {c : UInt8} (hc : lowerLetter c = true) (h : Url.lowerByte b = c) :
    keywordByte b = true := by
  unfold Url.lowerByte at h
  split_ifs at h with hupper
  · simp [keywordByte, Url.isLetter, hupper.1, hupper.2]
  · rw [h]
    rw [lowerLetter] at hc
    simp [keywordByte, Url.isLetter, hc]

theorem afterLetter_cons (c b : UInt8) (rest : Bytes) : afterLetter c (b :: rest) =
    if Url.lowerByte b = c then some rest
    else if c = 0x73 ∧ (utf8 "\u017f").isPrefixOf (b :: rest) then some (rest.drop 1)
    else if c = 0x6B ∧ (utf8 "\u212a").isPrefixOf (b :: rest) then some (rest.drop 2)
    else none := rfl

variable {s rest : Bytes}

theorem afterLetter_some {c : UInt8} (hc : lowerLetter c = true) (h : afterLetter c s = some rest) :
    ∃ x, s = x ++ rest ∧ x ≠ [] ∧ (∀ b ∈ x, keywordByte b = true) ∧
      ∀ rest', afterLetter c (x ++ rest') = some rest' := by
  cases s with
  | nil => cases h
  | cons b s =>
    rw [afterLetter_cons] at h
    split_ifs at h with hlower hlong hkelvin
    · obtain rfl := some.inj h
      refine ⟨[b], rfl, cons_ne_nil _ _, fun d hd => ?_, fun rest' => if_pos hlower⟩
      obtain rfl := mem_singleton.mp hd
      exact keywordByte_of_lowerByte hc hlower
    · obtain ⟨hc, hlong⟩ := hlong
      obtain ⟨t, ht⟩ := isPrefixOf_iff_prefix.mp hlong
      obtain ⟨rfl, rfl⟩ := List.cons.inj ht
      obtain rfl := some.inj h
      refine ⟨utf8 "\u017f", rfl, cons_ne_nil _ _, List.all_eq_true.mp rfl, fun rest' => ?_⟩
      subst hc
      rfl
    · obtain ⟨hc, hkelvin⟩ := hkelvin
      obtain ⟨t, ht⟩ := isPrefixOf_iff_prefix.mp hkelvin
      obtain ⟨rfl, rfl⟩ := List.cons.inj ht
      obtain rfl := some.inj h
      refine ⟨utf8 "\u212a", rfl, cons_ne_nil _ _, List.all_eq_true.mp rfl, fun rest' => ?_⟩
      subst hc
      rfl

theorem afterWord_cons (c : UInt8) (word s : Bytes) :
    afterWord (c :: word) s = (afterLetter c s).bind (afterWord word) := rfl

theorem afterWord_some {word : Bytes} (hword : ∀ c ∈ word, lowerLetter c = true)
    (h : afterWord word s = some rest) :
    ∃ x, s = x ++ rest ∧ (word ≠ [] → x ≠ []) ∧ (∀ b ∈ x, keywordByte b = true) ∧
      ∀ rest', afterWord word (x ++ rest') = some rest' := by
  induction word generalizing s with
  | nil =>
    obtain rfl := some.inj h
    exact ⟨[], rfl, fun hne => hne, fun _ hb => absurd hb not_mem_nil, fun _ => rfl⟩
  | cons c word ih =>
    obtain ⟨hc, hword⟩ := forall_mem_cons.mp hword
    rw [afterWord_cons] at h
    obtain ⟨t, ht, hrest⟩ := bind_eq_some_iff.mp h
    obtain ⟨x, hs, hx, hbytes, hread⟩ := afterLetter_some hc ht
    obtain ⟨y, rfl, -, hbytes', hread'⟩ := ih hword hrest
    refine ⟨x ++ y, ?_, fun _ => ?_, fun b hb => ?_, fun rest' => ?_⟩
    · rw [hs, append_assoc]
    · exact append_ne_nil_of_left_ne_nil hx y
    · exact (mem_append.mp hb).elim (hbytes b) (hbytes' b)
    · rw [append_assoc, afterWord_cons, hread, bind_some, hread']

theorem afterQuoted_quote (rest : Bytes) : afterQuoted (0x27 :: rest) = some rest := by
  rw [afterQuoted.eq_def]
  rfl

theorem afterQuoted_escape (c : UInt8) (rest : Bytes) :
    afterQuoted (0x5C :: c :: rest) = if c = 0x0A then none else afterQuoted rest := by
  rw [afterQuoted.eq_def]
  rfl

theorem afterQuoted_plain (hquote : b ≠ 0x27) (hescape : b ≠ 0x5C) (rest : Bytes) :
    afterQuoted (b :: rest) = afterQuoted rest := by
  rw [afterQuoted.eq_def]
  simp only [hquote, hescape, if_false]

theorem afterQuoted_some (h : afterQuoted s = some rest) : ∃ x, s = x ++ 0x27 :: rest := by
  induction s using afterQuoted.induct with
  | case1 => cases h
  | case2 t =>
    rw [afterQuoted_quote] at h
    obtain rfl := some.inj h
    exact ⟨[], rfl⟩
  | case3 t =>
    cases h
  | case4 c t hc _ ih =>
    rw [afterQuoted_escape, if_neg hc] at h
    obtain ⟨x, rfl⟩ := ih h
    exact ⟨0x5C :: c :: x, rfl⟩
  | case5 => cases h
  | case6 b t hquote hescape ih =>
    rw [afterQuoted_plain hquote hescape] at h
    obtain ⟨x, rfl⟩ := ih h
    exact ⟨b :: x, rfl⟩

theorem afterValue_quoted (h : afterQuoted s = some rest) : afterValue (0x27 :: s) = some rest := by
  have hhead : (if (0x27 :: s).head? = some 0x27 then afterQuoted ((0x27 :: s).drop 1) else none) =
      some rest := by
    rw [if_pos List.head?_cons, drop_one, tail_cons, h]
  unfold afterValue
  rw [hhead]

/-- Without a closing quote, a value goes up to a blank. -/
theorem afterValue_word (hquote : b = 0x27 → afterQuoted s = none) (hblank : isBlank b = false) :
    afterValue (b :: s) = some ((b :: s).dropWhile fun b => !isBlank b) := by
  have hnone : (if (b :: s).head? = some 0x27 then afterQuoted ((b :: s).drop 1) else none) = none := by
    split_ifs with hhead
    · exact hquote (some.inj hhead)
    · rfl
  unfold afterValue
  rw [hnone]
  simp [hblank]

theorem afterValue_none (h : s.head?.all isBlank = true) : afterValue s = none := by
  cases s with
  | nil => rfl
  | cons b s =>
    have hb : isBlank b = true := h
    have hquote : b ≠ 0x27 := by
      rintro rfl
      cases hb
    unfold afterValue
    simp [hquote, hb]

theorem afterValue_cases (s : Bytes) :
    (s.head?.all isBlank = true ∧ afterValue s = none) ∨
    (∃ t rest, s = 0x27 :: t ∧ afterQuoted t = some rest ∧ afterValue s = some rest) ∨
    (s.head?.any isBlank = false ∧ s ≠ [] ∧ (∀ t, s = 0x27 :: t → afterQuoted t = none) ∧
      afterValue s = some (s.dropWhile fun b => !isBlank b)) := by
  cases s with
  | nil => exact .inl ⟨rfl, rfl⟩
  | cons b t =>
    by_cases hblank : isBlank b = true
    · exact .inl ⟨hblank, afterValue_none hblank⟩
    have hblank := Bool.eq_false_iff.mpr hblank
    cases hquoted : afterQuoted t with
    | none =>
      refine .inr (.inr ⟨hblank, cons_ne_nil _ _, ?_, afterValue_word (fun _ => hquoted) hblank⟩)
      intro u hu
      rw [← (List.cons.inj hu).2, hquoted]
    | some rest =>
      by_cases hquote : b = 0x27
      · subst hquote
        exact .inr (.inl ⟨t, rest, rfl, hquoted, afterValue_quoted hquoted⟩)
      · refine .inr (.inr ⟨hblank, cons_ne_nil _ _, ?_,
          afterValue_word (fun h => absurd h hquote) hblank⟩)
        intro u hu
        exact absurd (List.cons.inj hu).1 hquote

theorem afterValue_some (h : afterValue s = some rest) : ∃ x, s = x ++ rest ∧ x ≠ [] := by
  obtain ⟨-, hnone⟩ | ⟨t, rest', rfl, hquoted, hsome⟩ | ⟨hblank, hne, -, hsome⟩ := afterValue_cases s
  · rw [hnone] at h
    cases h
  · rw [hsome] at h
    obtain rfl := some.inj h
    obtain ⟨x, rfl⟩ := afterQuoted_some hquoted
    exact ⟨0x27 :: (x ++ [0x27]), by simp, cons_ne_nil _ _⟩
  · rw [hsome] at h
    obtain rfl := some.inj h
    refine ⟨s.takeWhile fun b => !isBlank b, takeWhile_append_dropWhile.symm, ?_⟩
    obtain ⟨b, t, rfl⟩ := exists_cons_of_ne_nil hne
    have hb : isBlank b = false := hblank
    simp [hb]

structure IsKeyword (x : Bytes) : Prop where
  ne_nil : x ≠ []
  bytes : ∀ b ∈ x, keywordByte b = true
  word : ∃ word ∈ dsnKeywords, ∀ rest, afterWord (utf8 word) (x ++ rest) = some rest

def Boundary (prev : Option UInt8) (s : Bytes) : Prop := prev.any isWord ≠ s.head?.any isWord

theorem IsKeyword.equals_notMem {x : Bytes} (h : IsKeyword x) : 0x3D ∉ x :=
  fun hmem => absurd (h.bytes _ hmem) (by decide)

theorem dsnKeywords_letters : ∀ word ∈ dsnKeywords,
    utf8 word ≠ [] ∧ ∀ c ∈ utf8 word, lowerLetter c = true := by
  intro word hword
  simp only [dsnKeywords, mem_cons, not_mem_nil, or_false] at hword
  obtain rfl | rfl | rfl | rfl := hword
  all_goals exact ⟨cons_ne_nil _ _, List.all_eq_true.mp rfl⟩

variable {prev : Option UInt8} {keyword after : Bytes}

theorem dsnPairAt_some (h : dsnPairAt prev s = some (keyword, after)) :
    ∃ v, s = keyword ++ 0x3D :: v ∧ IsKeyword keyword ∧ Boundary prev s ∧
      afterValue v = some after := by
  unfold dsnPairAt at h
  split_ifs at h with hboundary
  obtain ⟨word, hword, hfound⟩ := List.exists_of_findSome?_eq_some h
  obtain ⟨rest, hrest, hfound⟩ := bind_eq_some_iff.mp hfound
  obtain ⟨hne, hletters⟩ := dsnKeywords_letters word hword
  obtain ⟨x, rfl, hx, hbytes, hread⟩ := afterWord_some hletters hrest
  split_ifs at hfound with hequals
  obtain ⟨v, rfl⟩ : ∃ v, rest = 0x3D :: v := by
    cases rest with
    | nil => cases hequals
    | cons b v => exact ⟨v, by rw [some.inj hequals]⟩
  obtain ⟨after', hafter, hfound⟩ := bind_eq_some_iff.mp hfound
  obtain ⟨hkeyword, rfl⟩ := Prod.mk.inj (some.inj hfound)
  have htake : (x ++ 0x3D :: v).take ((x ++ 0x3D :: v).length - (0x3D :: v).length) = x := by
    simp
  rw [htake] at hkeyword
  subst hkeyword
  exact ⟨v, rfl, ⟨hx hne, hbytes, word, hword, hread⟩, hboundary, hafter⟩

theorem dsnPairAt_keyword {v : Bytes} (hkeyword : IsKeyword keyword)
    (hboundary : Boundary prev (keyword ++ 0x3D :: v)) :
    dsnPairAt prev (keyword ++ 0x3D :: v) = (afterValue v).map fun after => (keyword, after) := by
  cases hpair : dsnPairAt prev (keyword ++ 0x3D :: v) with
  | some pair =>
    obtain ⟨keyword', after⟩ := pair
    obtain ⟨v', heq, hkeyword', -, hafter⟩ := dsnPairAt_some hpair
    obtain ⟨rfl, rfl⟩ := Url.append_sep_inj hkeyword.equals_notMem hkeyword'.equals_notMem heq
    rw [hafter]
    rfl
  | none =>
    obtain ⟨word, hword, hread⟩ := hkeyword.word
    unfold dsnPairAt at hpair
    rw [if_neg hboundary] at hpair
    have hnone := List.findSome?_eq_none_iff.mp hpair word hword
    rw [hread] at hnone
    cases hafter : afterValue v with
    | none => rfl
    | some after =>
      simp [hafter] at hnone

theorem dsnPairAt_none (hb : keywordByte b = false) (prev : Option UInt8) (s : Bytes) :
    dsnPairAt prev (b :: s) = none := by
  cases hpair : dsnPairAt prev (b :: s) with
  | none => rfl
  | some pair =>
    obtain ⟨keyword, after⟩ := pair
    obtain ⟨v, heq, hkeyword, -⟩ := dsnPairAt_some hpair
    obtain ⟨c, x, hx⟩ := exists_cons_of_ne_nil hkeyword.ne_nil
    rw [hx] at heq
    have hc := hkeyword.bytes c (hx ▸ mem_cons_self)
    rw [← (List.cons.inj heq).1, hb] at hc
    cases hc

def lastByte : Option UInt8 → Bytes → Option UInt8
  | prev, [] => prev
  | _, b :: s => lastByte (some b) s

theorem lastByte_append (prev : Option UInt8) (s t : Bytes) :
    lastByte prev (s ++ t) = lastByte (lastByte prev s) t := by
  induction s generalizing prev with
  | nil => rfl
  | cons b s ih => exact ih (some b)

theorem replaceDsnFrom_nil (skip : Nat) (prev : Option UInt8) : replaceDsnFrom skip prev [] = [] := by
  cases skip <;> rfl

theorem replaceDsnFrom_skip (prev : Option UInt8) (x s : Bytes) :
    replaceDsnFrom x.length prev (x ++ s) = replaceDsnFrom 0 (lastByte prev x) s := by
  induction x generalizing prev with
  | nil => rfl
  | cons b x ih => exact ih (some b)

theorem replaceDsnFrom_plain (h : dsnPairAt prev (b :: s) = none) :
    replaceDsnFrom 0 prev (b :: s) = b :: replaceDsnFrom 0 (some b) s := by
  rw [replaceDsnFrom, h]

theorem replaceDsnFrom_match {value : Bytes}
    (h : dsnPairAt prev (keyword ++ 0x3D :: (value ++ after)) = some (keyword, after)) :
    replaceDsnFrom 0 prev (keyword ++ 0x3D :: (value ++ after)) = keyword ++ 0x3D :: (mark ++
      replaceDsnFrom 0 (lastByte prev (keyword ++ 0x3D :: value)) after) := by
  have hsplit : keyword ++ 0x3D :: (value ++ after) = (keyword ++ 0x3D :: value) ++ after := by simp
  obtain ⟨b, x, hx⟩ : ∃ b x, keyword ++ 0x3D :: value = b :: x :=
    exists_cons_of_ne_nil (append_ne_nil_of_right_ne_nil _ (cons_ne_nil _ _))
  rw [hsplit, hx, cons_append] at h ⊢
  rw [replaceDsnFrom, h]
  have hskip : (x ++ after).length - after.length = x.length := by simp
  dsimp only
  rw [hskip, replaceDsnFrom_skip, append_assoc]
  rfl

/-- To prove something of the replacement, it is enough to look at a byte that starts no match
and at a match. -/
theorem replaceDsn_induction {motive : Option UInt8 → Bytes → Prop}
    (nil : ∀ prev, motive prev [])
    (plain : ∀ prev b s, dsnPairAt prev (b :: s) = none → motive (some b) s → motive prev (b :: s))
    (pair : ∀ prev keyword value after, value ≠ [] → IsKeyword keyword →
      Boundary prev (keyword ++ 0x3D :: (value ++ after)) →
      afterValue (value ++ after) = some after →
      motive (lastByte prev (keyword ++ 0x3D :: value)) after →
      motive prev (keyword ++ 0x3D :: (value ++ after)))
    (prev : Option UInt8) (s : Bytes) : motive prev s := by
  induction hlen : s.length using Nat.strong_induction_on generalizing prev s with
  | _ n ih =>
    cases s with
    | nil => exact nil prev
    | cons b s =>
      cases hpair : dsnPairAt prev (b :: s) with
      | none =>
        refine plain prev b s hpair (ih s.length ?_ (some b) s rfl)
        rw [← hlen, length_cons]
        exact Nat.lt_succ_self _
      | some found =>
        obtain ⟨keyword, after⟩ := found
        obtain ⟨v, heq, hkeyword, hboundary, hafter⟩ := dsnPairAt_some hpair
        obtain ⟨value, rfl, hvalue⟩ := afterValue_some hafter
        rw [heq] at hboundary hlen ⊢
        refine pair prev keyword value after hvalue hkeyword hboundary hafter (ih after.length ?_ _ _ rfl)
        simp at hlen
        omega

theorem replaceDsnFrom_pair {value : Bytes} (hkeyword : IsKeyword keyword)
    (hboundary : Boundary prev (keyword ++ 0x3D :: (value ++ after)))
    (hafter : afterValue (value ++ after) = some after) :
    replaceDsnFrom 0 prev (keyword ++ 0x3D :: (value ++ after)) = keyword ++ 0x3D :: (mark ++
      replaceDsnFrom 0 (lastByte prev (keyword ++ 0x3D :: value)) after) := by
  refine replaceDsnFrom_match ?_
  rw [dsnPairAt_keyword hkeyword hboundary, hafter]
  rfl

/-- An open quote is closed by the one behind an equals sign at the latest. -/
theorem length_afterQuoted {x : Bytes} (h : afterQuoted (x ++ 0x3D :: 0x27 :: rest) = some after) :
    rest.length ≤ after.length := by
  induction hlen : x.length using Nat.strong_induction_on generalizing x with
  | _ n ih =>
    cases x with
    | nil =>
      rw [nil_append, afterQuoted_plain (by decide) (by decide), afterQuoted_quote] at h
      rw [some.inj h]
    | cons b x =>
      rw [length_cons] at hlen
      by_cases hquote : b = 0x27
      · rw [hquote, cons_append, afterQuoted_quote] at h
        rw [← some.inj h]
        simp
        omega
      by_cases hescape : b = 0x5C
      · subst hescape
        cases x with
        | nil =>
          have hstep : afterQuoted (0x5C :: 0x3D :: 0x27 :: rest) = some rest := by
            rw [afterQuoted_escape, if_neg (by decide), afterQuoted_quote]
          rw [singleton_append, hstep] at h
          rw [some.inj h]
        | cons c x =>
          rw [cons_append, cons_append, afterQuoted_escape] at h
          split_ifs at h
          rw [length_cons] at hlen
          exact ih x.length (by omega) h rfl
      · rw [cons_append, afterQuoted_plain hquote hescape] at h
        exact ih x.length (by omega) h rfl

theorem length_dropWhile_blank (x rest : Bytes) (hb : isBlank b = true) :
    (b :: rest).length ≤ ((x ++ b :: rest).dropWhile fun b => !isBlank b).length := by
  induction x with
  | nil => simp [hb]
  | cons c x ih =>
    rw [cons_append, dropWhile_cons]
    split_ifs
    · exact ih
    · simp
      omega

/-- A value that starts in front of an empty quoted one, or is it, does not go further. -/
theorem length_afterValue {before v : Bytes} (hv : v <:+ before ++ [0x3D, 0x27, 0x27])
    (hne : v ≠ [0x27]) (h : afterValue (v ++ 0x20 :: rest) = some after) :
    (0x20 :: rest).length ≤ after.length := by
  obtain ⟨-, hnone⟩ | ⟨t, after', heq, hquoted, hsome⟩ | ⟨-, -, -, hsome⟩ :=
    afterValue_cases (v ++ 0x20 :: rest)
  · rw [hnone] at h
    cases h
  · rw [hsome] at h
    obtain rfl := some.inj h
    obtain ⟨x, hx⟩ := hv
    obtain ⟨w, rfl, rfl⟩ : ∃ w, v = 0x27 :: w ∧ t = w ++ 0x20 :: rest := by
      cases v with
      | nil => cases (List.cons.inj heq).1
      | cons b w =>
        obtain ⟨rfl, rfl⟩ := List.cons.inj heq
        exact ⟨w, rfl, rfl⟩
    obtain ⟨c, -, hc⟩ | ⟨c, -, hc⟩ := append_eq_append_iff.mp hx
    · -- the value starts before the empty one
      cases c with
      | nil => cases (List.cons.inj hc).1
      | cons b c =>
        have hclosed : afterQuoted (c ++ 0x3D :: 0x27 :: (0x27 :: 0x20 :: rest)) = some after' := by
          obtain rfl : w = c ++ [0x3D, 0x27, 0x27] := (List.cons.inj hc).2
          rw [← hquoted, append_assoc]
          rfl
        have hlen := length_afterQuoted hclosed
        rw [length_cons] at hlen
        omega
    · match c, hc with
      | [], hc => cases (List.cons.inj hc).1
      | [_], hc =>
        obtain ⟨-, rfl⟩ : _ ∧ [0x27] = w := by simpa using hc
        rw [singleton_append, afterQuoted_quote] at hquoted
        rw [some.inj hquoted]
      | [_, _], hc =>
        obtain ⟨-, -, rfl⟩ : _ ∧ _ ∧ w = [] := by simpa using hc
        exact absurd rfl hne
      | [_, _, _], hc => simp at hc
      | _ :: _ :: _ :: _ :: _, hc => simp at hc
  · rw [hsome] at h
    obtain rfl := some.inj h
    exact length_dropWhile_blank v rest rfl

theorem length_replicate (n : Nat) (rest : Bytes) (prev : Option UInt8) :
    n ≤ (replaceDsnFrom 0 prev (List.replicate n 0x2E ++ rest)).length := by
  induction n generalizing prev with
  | zero => exact Nat.zero_le _
  | succ n ih =>
    rw [replicate_succ, cons_append, replaceDsnFrom_plain (dsnPairAt_none rfl _ _),
      length_cons]
    exact Nat.succ_le_succ (ih _)

/-- The keyword and the equals sign of a match stand before a byte that is in neither. -/
theorem IsKeyword.split {v a t : Bytes} (h : IsKeyword keyword) (hb : keywordByte b = false)
    (hne : b ≠ 0x3D) (heq : keyword ++ 0x3D :: v = a ++ b :: t) :
    ∃ v', a = keyword ++ 0x3D :: v' ∧ v = v' ++ b :: t := by
  obtain ⟨c, hc, hrest⟩ | ⟨c, hc, hrest⟩ := append_eq_append_iff.mp heq
  · cases c with
    | nil => exact absurd (List.cons.inj hrest).1.symm hne
    | cons d v' =>
      obtain ⟨rfl, rfl⟩ := List.cons.inj hrest
      exact ⟨v', hc, rfl⟩
  · cases c with
    | nil => exact absurd (List.cons.inj hrest).1 hne
    | cons d c =>
      have hmem : b ∈ keyword := by
        rw [hc, (List.cons.inj hrest).1]
        simp
      rw [h.bytes b hmem] at hb
      cases hb

/-- What stands behind an empty quoted value and a blank stays. -/
theorem length_replaceDsn (before rest : Bytes) (n : Nat) :
    n ≤ (replaceDsn (before ++ [0x3D, 0x27, 0x27] ++ 0x20 :: (List.replicate n 0x2E ++ rest))).length := by
  have hrun : ∀ prev s a, a <:+ before ++ [0x3D, 0x27, 0x27] →
      s = a ++ 0x20 :: (List.replicate n 0x2E ++ rest) → n ≤ (replaceDsnFrom 0 prev s).length := by
    intro prev s
    induction prev, s using replaceDsn_induction with
    | nil prev =>
      intro a _ hs
      exact absurd hs (by simp)
    | plain prev b s hnone ih =>
      intro a ha hs
      rw [replaceDsnFrom_plain hnone, length_cons]
      cases a with
      | nil =>
        rw [(List.cons.inj hs).2]
        exact Nat.le_succ_of_le (length_replicate n rest _)
      | cons c a => exact Nat.le_succ_of_le (ih a ((suffix_cons c a).trans ha) (List.cons.inj hs).2)
    | pair prev keyword value after hvalue hkeyword hboundary hafter ih =>
      intro a ha hs
      obtain ⟨v, rfl, hv⟩ := hkeyword.split rfl (by decide) hs
      have hsuffix : v <:+ keyword ++ 0x3D :: v :=
        (suffix_cons 0x3D v).trans (suffix_append keyword _)
      have hquote : v ≠ [0x27] := by
        rintro rfl
        obtain ⟨x, hx⟩ := ha
        simpa using congrArg List.reverse hx
      rw [hv] at hafter
      have hlen := length_afterValue (hsuffix.trans ha) hquote hafter
      obtain ⟨y, rfl⟩ : 0x20 :: (List.replicate n 0x2E ++ rest) <:+ after :=
        suffix_of_suffix_length_le (hv ▸ suffix_append v _) (suffix_append value after)
          hlen
      have hy : value ++ y = v := by
        rw [← append_assoc] at hv
        exact append_cancel_right hv
      have hrest := ih y ((hy ▸ suffix_append value y).trans (hsuffix.trans ha)) rfl
      rw [replaceDsnFrom_pair hkeyword hboundary (hv ▸ hafter)]
      simp only [length_append, length_cons] at hrest ⊢
      omega
  exact hrun none _ _ suffix_rfl rfl

end GolangBasics.Httpx.Redact
