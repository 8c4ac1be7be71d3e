import GolangBasics.Utf8
import Mathlib.Tactic.SplitIfs

/-! The runes of a byte string: what `range`, `utf8.DecodeRuneInString`, `utf8.AppendRune`,
`utf8.ValidString` and `strings.TrimSpace` make of it. -/
namespace GolangBasics
open List

def runeError : Nat := 0xFFFD

/-- The first rune and its width; bytes that start no valid encoding are `runeError`, width 1. -/
def decodeRune (s : Bytes) : Nat × Nat :=
  match runeLen s, s with
  | 1, a :: _ => (a.toNat, 1)
  | 2, a :: b :: _ => (a.toNat % 32 * 64 + b.toNat % 64, 2)
  | 3, a :: b :: c :: _ => ((a.toNat % 16 * 64 + b.toNat % 64) * 64 + c.toNat % 64, 3)
  | 4, a :: b :: c :: d :: _ =>
    (((a.toNat % 8 * 64 + b.toNat % 64) * 64 + c.toNat % 64) * 64 + d.toNat % 64, 4)
  | _, _ => (runeError, 1)

/-- `AppendRune`: what is no scalar value becomes `runeError`. -/
def encodeRune (r : Nat) : Bytes :=
  if r < 0x80 then [UInt8.ofNat r]
  else if r < 0x800 then [UInt8.ofNat (0xC0 + r / 64), UInt8.ofNat (0x80 + r % 64)]
  else if 0xD800 ≤ r ∧ r < 0xE000 ∨ 0x110000 ≤ r then [0xEF, 0xBF, 0xBD]
  else if r < 0x10000 then
    [UInt8.ofNat (0xE0 + r / 4096), UInt8.ofNat (0x80 + r / 64 % 64), UInt8.ofNat (0x80 + r % 64)]
  else
    [UInt8.ofNat (0xF0 + r / 262144), UInt8.ofNat (0x80 + r / 4096 % 64),
      UInt8.ofNat (0x80 + r / 64 % 64), UInt8.ofNat (0x80 + r % 64)]

/-- The runes with their bytes, after `skip` bytes that belong to an earlier one. -/
def runesFrom : Nat → Bytes → List (Nat × Bytes)
  | _, [] => []
  | skip + 1, _ :: rest => runesFrom skip rest
  | 0, b :: rest =>
    let (r, n) := decodeRune (b :: rest)
    (r, (b :: rest).take n) :: runesFrom (n - 1) rest

def runes (s : Bytes) : List (Nat × Bytes) := runesFrom 0 s

def validString (s : Bytes) : Bool :=
  (runes s).all fun x => !(x.1 == runeError && x.2.length == 1)

def isSpace (r : Nat) : Bool :=
  (0x09 ≤ r && r ≤ 0x0D) || (0x2000 ≤ r && r ≤ 0x200A) ||
    [0x20, 0x85, 0xA0, 0x1680, 0x2028, 0x2029, 0x202F, 0x205F, 0x3000].contains r

def trimSpace (s : Bytes) : Bytes :=
  let blank (x : Nat × Bytes) : Bool := isSpace x.1
  ((((runes s).dropWhile blank).reverse.dropWhile blank).reverse).flatMap Prod.snd

def Continues (b : UInt8) : Prop := 0x80 ≤ b.toNat ∧ b.toNat < 0xC0

inductive RuneBytes : Nat → Bytes → Prop where
  | ascii {a : UInt8} {rest : Bytes} (h : a.toNat < 0x80) : RuneBytes 1 (a :: rest)
  | invalid {a : UInt8} {rest : Bytes} (h : 0x80 ≤ a.toNat) : RuneBytes 0 (a :: rest)
  | two {a b : UInt8} {rest : Bytes} (ha : 0xC2 ≤ a.toNat ∧ a.toNat < 0xE0) (hb : Continues b) :
      RuneBytes 2 (a :: b :: rest)
  | three {a b c : UInt8} {rest : Bytes} (ha : 0xE0 ≤ a.toNat ∧ a.toNat < 0xF0)
      (hab : 0x800 ≤ a.toNat % 16 * 4096 + b.toNat % 64 * 64) (hb : Continues b)
      (hc : Continues c) : RuneBytes 3 (a :: b :: c :: rest)
  | four {a b c d : UInt8} {rest : Bytes} (ha : 0xF0 ≤ a.toNat ∧ a.toNat < 0xF5)
      (hab : 0x10 ≤ a.toNat % 8 * 64 + b.toNat % 64) (hb : Continues b) (hc : Continues c)
      (hd : Continues d) : RuneBytes 4 (a :: b :: c :: d :: rest)

variable {b : UInt8}

theorem continues_iff {lo hi : UInt8} :
    continues lo hi b = true ↔ lo.toNat ≤ b.toNat ∧ b.toNat ≤ hi.toNat := by
  simp [continues, UInt8.le_iff_toNat_le]

/-- The length of a rune of `n + 2` bytes whose second one is between `lo` and `hi`, 0 if the
bytes after the first do not continue it. -/
def tailLen (lo hi : UInt8) (n : Nat) : Bytes → Nat
  | b₁ :: rest =>
    if continues lo hi b₁ && (rest.take n).length = n && (rest.take n).all (continues 0x80 0xBF)
    then n + 2 else 0
  | [] => 0

theorem runeLen_cons (a : UInt8) (rest : Bytes) : runeLen (a :: rest) =
    if a < 0x80 then 1
    else if continues 0xC2 0xDF a then tailLen 0x80 0xBF 0 rest
    else if a = 0xE0 then tailLen 0xA0 0xBF 1 rest
    else if a = 0xED then tailLen 0x80 0x9F 1 rest
    else if continues 0xE1 0xEF a then tailLen 0x80 0xBF 1 rest
    else if a = 0xF0 then tailLen 0x90 0xBF 2 rest
    else if a = 0xF4 then tailLen 0x80 0x8F 2 rest
    else if continues 0xF1 0xF3 a then tailLen 0x80 0xBF 2 rest
    else 0 := by
  cases rest <;> rfl

theorem runeLen_eq (a : UInt8) (rest : Bytes) : runeLen (a :: rest) =
    if a.toNat < 0x80 then 1
    else if 0xC2 ≤ a.toNat ∧ a.toNat ≤ 0xDF then tailLen 0x80 0xBF 0 rest
    else if a.toNat = 0xE0 then tailLen 0xA0 0xBF 1 rest
    else if a.toNat = 0xED then tailLen 0x80 0x9F 1 rest
    else if 0xE1 ≤ a.toNat ∧ a.toNat ≤ 0xEF then tailLen 0x80 0xBF 1 rest
    else if a.toNat = 0xF0 then tailLen 0x90 0xBF 2 rest
    else if a.toNat = 0xF4 then tailLen 0x80 0x8F 2 rest
    else if 0xF1 ≤ a.toNat ∧ a.toNat ≤ 0xF3 then tailLen 0x80 0xBF 2 rest
    else 0 := by
  rw [runeLen_cons]
  simp only [continues_iff, UInt8.lt_iff_toNat_lt, ← UInt8.toNat_inj, UInt8.reduceToNat]

section
variable {a lo hi : UInt8} {rest : Bytes}

theorem tailLen_cases (lo hi : UInt8) (n : Nat) (rest : Bytes) :
    tailLen lo hi n rest = 0 ∨
    tailLen lo hi n rest = n + 2 ∧ ∃ b tl, rest = b :: tl ∧
      (lo.toNat ≤ b.toNat ∧ b.toNat ≤ hi.toNat) ∧ (tl.take n).length = n ∧
      ∀ x ∈ tl.take n, Continues x := by
  cases rest with
  | nil => exact .inl rfl
  | cons b tl =>
    simp only [tailLen]
    split_ifs with h
    · simp only [Bool.and_eq_true, decide_eq_true_eq, continues_iff, all_eq_true] at h
      refine .inr ⟨rfl, b, tl, rfl, h.1.1, h.1.2, fun x hx => ?_⟩
      obtain ⟨hge, hle⟩ := h.2 x hx
      exact ⟨hge, Nat.lt_succ_of_le hle⟩
    · exact .inl rfl

theorem runeBytes_two (ha : 0xC2 ≤ a.toNat ∧ a.toNat < 0xE0) :
    RuneBytes (tailLen 0x80 0xBF 0 rest) (a :: rest) := by
  obtain h | ⟨h, b, tl, rfl, hb, -⟩ := tailLen_cases 0x80 0xBF 0 rest
  · rw [h]
    exact .invalid (by omega)
  · rw [h]
    exact .two ha ⟨hb.1, Nat.lt_succ_of_le hb.2⟩

theorem runeBytes_three (ha : 0xE0 ≤ a.toNat ∧ a.toNat < 0xF0) (hlo : 0x80 ≤ lo.toNat)
    (hhi : hi.toNat < 0xC0) (hab : 0x800 ≤ a.toNat % 16 * 4096 + lo.toNat % 64 * 64) :
    RuneBytes (tailLen lo hi 1 rest) (a :: rest) := by
  obtain h | ⟨h, b, tl, rfl, hb, hlen, hall⟩ := tailLen_cases lo hi 1 rest
  · rw [h]
    exact .invalid (by omega)
  · rw [h]
    match tl, hlen with
    | c :: tl, _ => exact .three ha (by omega) ⟨by omega, by omega⟩ (hall c (by simp))

theorem runeBytes_four (ha : 0xF0 ≤ a.toNat ∧ a.toNat < 0xF5) (hlo : 0x80 ≤ lo.toNat)
    (hhi : hi.toNat < 0xC0) (hab : 0x10 ≤ a.toNat % 8 * 64 + lo.toNat % 64) :
    RuneBytes (tailLen lo hi 2 rest) (a :: rest) := by
  obtain h | ⟨h, b, tl, rfl, hb, hlen, hall⟩ := tailLen_cases lo hi 2 rest
  · rw [h]
    exact .invalid (by omega)
  · rw [h]
    match tl, hlen with
    | c :: d :: tl, _ =>
      exact .four ha (by omega) ⟨by omega, by omega⟩ (hall c (by simp)) (hall d (by simp))

/-- The lengths a first byte allows, each with the bounds of the second byte. -/
theorem runeLen_cases (a : UInt8) (rest : Bytes) :
    (a.toNat < 0x80 ∧ runeLen (a :: rest) = 1) ∨
    ((0xC2 ≤ a.toNat ∧ a.toNat < 0xE0) ∧ runeLen (a :: rest) = tailLen 0x80 0xBF 0 rest) ∨
    (∃ lo hi, (0xE0 ≤ a.toNat ∧ a.toNat < 0xF0) ∧ (0x80 ≤ lo.toNat ∧ hi.toNat < 0xC0) ∧
      0x20 ≤ a.toNat % 16 * 64 + lo.toNat % 64 ∧ (a.toNat = 0xED → hi.toNat < 0xA0) ∧
      runeLen (a :: rest) = tailLen lo hi 1 rest) ∨
    (∃ lo hi, (0xF0 ≤ a.toNat ∧ a.toNat < 0xF5) ∧ (0x80 ≤ lo.toNat ∧ hi.toNat < 0xC0) ∧
      0x10 ≤ a.toNat % 8 * 64 + lo.toNat % 64 ∧ (a.toNat = 0xF4 → hi.toNat < 0x90) ∧
      runeLen (a :: rest) = tailLen lo hi 2 rest) ∨
    (0x80 ≤ a.toNat ∧ runeLen (a :: rest) = 0) := by
  generalize hlen : runeLen (a :: rest) = n
  rw [runeLen_eq] at hlen
  split at hlen
  · exact .inl ⟨by omega, hlen.symm⟩
  split at hlen
  · exact .inr (.inl ⟨by omega, hlen.symm⟩)
  split at hlen
  · exact .inr (.inr (.inl ⟨0xA0, 0xBF, by omega, by decide, by simp, by omega, hlen.symm⟩))
  split at hlen
  · exact .inr (.inr (.inl ⟨0x80, 0x9F, by omega, by decide, by simp; omega, by simp, hlen.symm⟩))
  split at hlen
  · exact .inr (.inr (.inl ⟨0x80, 0xBF, by omega, by decide, by simp; omega, by omega,
      hlen.symm⟩))
  split at hlen
  · exact .inr (.inr (.inr (.inl ⟨0x90, 0xBF, by omega, by decide, by simp, by omega,
      hlen.symm⟩)))
  split at hlen
  · exact .inr (.inr (.inr (.inl ⟨0x80, 0x8F, by omega, by decide, by simp; omega, by simp,
      hlen.symm⟩)))
  split at hlen
  · exact .inr (.inr (.inr (.inl ⟨0x80, 0xBF, by omega, by decide, by simp; omega, by omega,
      hlen.symm⟩)))
  · exact .inr (.inr (.inr (.inr ⟨by omega, hlen.symm⟩)))

theorem runeBytes (a : UInt8) (rest : Bytes) : RuneBytes (runeLen (a :: rest)) (a :: rest) := by
  obtain ⟨h, hlen⟩ | ⟨h, hlen⟩ | ⟨lo, hi, h, hbounds, hlow, -, hlen⟩ |
    ⟨lo, hi, h, hbounds, hlow, -, hlen⟩ | ⟨h, hlen⟩ := runeLen_cases a rest
  · exact hlen ▸ .ascii h
  · exact hlen ▸ runeBytes_two h
  · exact hlen ▸ runeBytes_three h hbounds.1 hbounds.2 (by omega)
  · exact hlen ▸ runeBytes_four h hbounds.1 hbounds.2 hlow
  · exact hlen ▸ .invalid h
end

/-- An ASCII byte is its own rune; every other rune is at least 0x80 and so are its bytes. -/
theorem decodeRune_cases (a : UInt8) (rest : Bytes) :
    (a.toNat < 0x80 ∧ decodeRune (a :: rest) = (a.toNat, 1)) ∨
    (0x80 ≤ a.toNat ∧ 0x80 ≤ (decodeRune (a :: rest)).1 ∧ 1 ≤ (decodeRune (a :: rest)).2 ∧
      (decodeRune (a :: rest)).2 ≤ (a :: rest).length ∧
      ∀ b ∈ (a :: rest).take (decodeRune (a :: rest)).2, 0x80 ≤ b.toNat) := by
  have h := runeBytes a rest
  unfold decodeRune
  generalize runeLen (a :: rest) = n at h
  cases h with
  | ascii h => exact .inl ⟨h, rfl⟩
  | invalid h => exact .inr ⟨h, by simp [runeError], by simp, by simp, by simpa using h⟩
  | two ha hb =>
    refine .inr ⟨by omega, ?_, by simp, by simp, ?_⟩
    · simp only
      omega
    · have := hb.1
      simp
      omega
  | three ha hab hb hc =>
    refine .inr ⟨by omega, ?_, by simp, by simp, ?_⟩
    · simp only
      omega
    · have := hb.1
      have := hc.1
      simp
      omega
  | four ha hab hb hc hd =>
    refine .inr ⟨by omega, ?_, by simp, by simp, ?_⟩
    · simp only
      omega
    · have := hb.1
      have := hc.1
      have := hd.1
      simp
      omega

theorem decodeRune_width (a : UInt8) (rest : Bytes) : 1 ≤ (decodeRune (a :: rest)).2 := by
  obtain ⟨-, h⟩ | ⟨-, -, h, -⟩ := decodeRune_cases a rest
  · simp [h]
  · exact h

theorem decodeRune_ascii {a : UInt8} (h : a.toNat < 0x80) (rest : Bytes) :
    decodeRune (a :: rest) = (a.toNat, 1) := by
  obtain ⟨-, h⟩ | ⟨h', -⟩ := decodeRune_cases a rest
  · exact h
  · omega

theorem runesFrom_eq (skip : Nat) (s : Bytes) : runesFrom skip s = runes (s.drop skip) := by
  induction s generalizing skip with
  | nil => cases skip <;> rfl
  | cons b rest ih =>
    cases skip with
    | zero => rfl
    | succ skip => exact ih skip

theorem runes_cons (a : UInt8) (rest : Bytes) :
    runes (a :: rest) = ((decodeRune (a :: rest)).1, (a :: rest).take (decodeRune (a :: rest)).2) ::
      runes ((a :: rest).drop (decodeRune (a :: rest)).2) := by
  have hwidth := decodeRune_width a rest
  obtain ⟨n, hn⟩ := Nat.exists_eq_add_of_le' hwidth
  simp only [runes, runesFrom, hn]
  rw [runesFrom_eq]
  rfl

theorem flatMap_runesFrom (skip : Nat) (s : Bytes) :
    (runesFrom skip s).flatMap Prod.snd = s.drop skip := by
  induction s generalizing skip with
  | nil => cases skip <;> rfl
  | cons b rest ih =>
    cases skip with
    | succ skip => exact ih skip
    | zero =>
      have hwidth := decodeRune_width b rest
      obtain ⟨n, hn⟩ := Nat.exists_eq_add_of_le' hwidth
      simp only [runesFrom, flatMap_cons, ih, hn]
      simp

theorem flatMap_runes (s : Bytes) : (runes s).flatMap Prod.snd = s := flatMap_runesFrom 0 s

theorem nul_mem_runes {s : Bytes} (h : 0 ∈ s) : ∃ x ∈ runes s, x.1 = 0 := by
  have hbytes : ∀ skip, ∀ x ∈ runesFrom skip s, 0 ∈ x.2 → x.1 = 0 := by
    clear h
    induction s with
    | nil => intro skip; cases skip <;> simp [runesFrom]
    | cons b rest ih =>
      intro skip
      cases skip with
      | succ skip => exact ih skip
      | zero =>
        intro x hx hnul
        simp only [runesFrom, mem_cons] at hx
        obtain rfl | hx := hx
        · obtain ⟨hb, heq⟩ | ⟨-, -, -, -, hall⟩ := decodeRune_cases b rest
          · simp only [heq, take_succ_cons, take_zero, mem_singleton] at hnul ⊢
            rw [← hnul]
            rfl
          · exact absurd (hall 0 hnul) (by decide)
        · exact ih _ x hx hnul
  rw [← flatMap_runes s] at h
  obtain ⟨x, hx, hnul⟩ := mem_flatMap.mp h
  exact ⟨x, hx, hbytes 0 x hx hnul⟩

theorem validString_ascii {a : UInt8} (h : a.toNat < 0x80) (rest : Bytes) :
    validString (a :: rest) = validString rest := by
  have hne : (a.toNat == runeError) = false := by
    simp only [runeError, beq_eq_false_iff_ne]
    omega
  unfold validString
  rw [runes_cons, decodeRune_ascii h]
  simp [hne]

theorem validString_of_ascii {s : Bytes} (h : ∀ a ∈ s, a.toNat < 0x80) : validString s = true := by
  induction s with
  | nil => rfl
  | cons a rest ih =>
    rw [validString_ascii (h a (by simp))]
    exact ih fun b hb => h b (by simp [hb])

def scalar (r : Nat) : Nat := if 0xD800 ≤ r ∧ r < 0xE000 ∨ 0x110000 ≤ r then runeError else r

variable {r : Nat}

theorem decodeRune_two {a : UInt8} (ha : a.toNat = 0xC0 + r / 64) (hb : b.toNat = 0x80 + r % 64)
    (hr : 0x80 ≤ r ∧ r < 0x800) (s : Bytes) : decodeRune (a :: b :: s) = (r, 2) := by
  have htail : tailLen 0x80 0xBF 0 (b :: s) = 2 := by
    simp [tailLen, continues_iff]
    omega
  have hlen : runeLen (a :: b :: s) = 2 := by
    rw [runeLen_eq, if_neg (by omega), if_pos (by omega), htail]
  unfold decodeRune
  rw [hlen]
  simp only [ha, hb]
  congr 1
  omega

theorem decodeRune_three {a c : UInt8} (ha : a.toNat = 0xE0 + r / 4096)
    (hb : b.toNat = 0x80 + r / 64 % 64) (hc : c.toNat = 0x80 + r % 64)
    (hr : 0x800 ≤ r ∧ r < 0x10000) (hs : ¬ (0xD800 ≤ r ∧ r < 0xE000)) (s : Bytes) :
    decodeRune (a :: b :: c :: s) = (r, 3) := by
  have htail : ∀ lo hi : UInt8, lo.toNat ≤ b.toNat → b.toNat ≤ hi.toNat →
      tailLen lo hi 1 (b :: c :: s) = 3 := by
    intro lo hi hlo hhi
    simp [tailLen, continues_iff, hlo, hhi]
    omega
  have hlen : runeLen (a :: b :: c :: s) = 3 := by
    rw [runeLen_eq, if_neg (by omega), if_neg (by omega)]
    split_ifs
    · exact htail _ _ (by simp; omega) (by simp; omega)
    · exact htail _ _ (by simp; omega) (by simp; omega)
    · exact htail _ _ (by simp; omega) (by simp; omega)
    all_goals omega
  unfold decodeRune
  rw [hlen]
  simp only [ha, hb, hc]
  congr 1
  omega

theorem decodeRune_four {a c d : UInt8} (ha : a.toNat = 0xF0 + r / 262144)
    (hb : b.toNat = 0x80 + r / 4096 % 64) (hc : c.toNat = 0x80 + r / 64 % 64)
    (hd : d.toNat = 0x80 + r % 64) (hr : 0x10000 ≤ r ∧ r < 0x110000) (s : Bytes) :
    decodeRune (a :: b :: c :: d :: s) = (r, 4) := by
  have htail : ∀ lo hi : UInt8, lo.toNat ≤ b.toNat → b.toNat ≤ hi.toNat →
      tailLen lo hi 2 (b :: c :: d :: s) = 4 := by
    intro lo hi hlo hhi
    simp [tailLen, continues_iff, hlo, hhi]
    omega
  have hlen : runeLen (a :: b :: c :: d :: s) = 4 := by
    rw [runeLen_eq, if_neg (by omega), if_neg (by omega), if_neg (by omega), if_neg (by omega),
      if_neg (by omega)]
    split_ifs
    · exact htail _ _ (by simp; omega) (by simp; omega)
    · exact htail _ _ (by simp; omega) (by simp; omega)
    · exact htail _ _ (by simp; omega) (by simp; omega)
    · omega
  unfold decodeRune
  rw [hlen]
  simp only [ha, hb, hc, hd]
  congr 1
  omega

theorem decodeRune_encodeRune (r : Nat) (s : Bytes) :
    decodeRune (encodeRune r ++ s) = (scalar r, (encodeRune r).length) := by
  have hbyte : ∀ n < 256, (UInt8.ofNat n).toNat = n := fun n hn => UInt8.toNat_ofNat_of_lt' hn
  unfold encodeRune scalar
  split_ifs with h₁ h₂ h₃ h₄
  all_goals try omega
  · rw [singleton_append, decodeRune_ascii (by rw [hbyte r (by omega)]; exact h₁),
      hbyte r (by omega)]
    rfl
  · exact decodeRune_two (hbyte _ (by omega)) (hbyte _ (by omega)) (by omega) s
  · exact decodeRune_three (r := runeError) rfl rfl rfl (by decide) (by decide) s
  · exact decodeRune_three (hbyte _ (by omega)) (hbyte _ (by omega)) (hbyte _ (by omega))
      (by omega) (by omega) s
  · exact decodeRune_four (hbyte _ (by omega)) (hbyte _ (by omega)) (hbyte _ (by omega))
      (hbyte _ (by omega)) (by omega) s

theorem encodeRune_ne_nil (r : Nat) : encodeRune r ≠ [] := by
  unfold encodeRune
  split_ifs <;> simp

theorem runes_encodeRune (r : Nat) (s : Bytes) :
    runes (encodeRune r ++ s) = (scalar r, encodeRune r) :: runes s := by
  have hdecode := decodeRune_encodeRune r s
  obtain ⟨a, rest, heq⟩ := exists_cons_of_ne_nil (encodeRune_ne_nil r)
  rw [heq] at hdecode ⊢
  rw [cons_append] at hdecode ⊢
  rw [runes_cons, hdecode]
  simp

theorem validString_encodeRune (r : Nat) (s : Bytes) :
    validString (encodeRune r ++ s) = validString s := by
  have hwide : (scalar r == runeError && (encodeRune r).length == 1) = false := by
    unfold encodeRune scalar
    split_ifs <;> simp [runeError]
    all_goals omega
  unfold validString
  rw [runes_encodeRune, all_cons, hwide]
  rfl

theorem le_of_mem_encodeRune (hr : 0x80 ≤ r) (hb : b ∈ encodeRune r) : 0x80 ≤ b.toNat := by
  have hdecode := decodeRune_encodeRune r []
  have hscalar : 0x80 ≤ scalar r := by
    unfold scalar runeError
    split_ifs <;> omega
  rw [append_nil] at hdecode
  obtain ⟨a, rest, heq⟩ := exists_cons_of_ne_nil (encodeRune_ne_nil r)
  rw [heq] at hdecode hb
  obtain ⟨ha, hascii⟩ | ⟨-, -, -, -, hall⟩ := decodeRune_cases a rest
  · rw [hascii] at hdecode
    have hsame := congrArg Prod.fst hdecode
    dsimp only at hsame
    omega
  · rw [hdecode, take_length] at hall
    exact hall b hb

theorem nul_mem_encodeRune : 0 ∈ encodeRune r ↔ r = 0 := by
  have hbyte : ∀ n, 0 < n → n < 256 → (0 : UInt8) ≠ UInt8.ofNat n := by
    intro n hpos hn h
    have := congrArg UInt8.toNat h
    rw [UInt8.toNat_ofNat_of_lt' hn] at this
    simp at this
    omega
  unfold encodeRune
  split_ifs with h₁
  · constructor
    · intro h
      refine Nat.eq_zero_of_not_pos fun hr => ?_
      exact hbyte r hr (by omega) (mem_singleton.mp h)
    · rintro rfl
      simp
  all_goals
    refine iff_of_false ?_ (by omega)
    simp only [mem_cons, not_mem_nil, or_false, not_or]
  · exact ⟨hbyte _ (by omega) (by omega), hbyte _ (by omega) (by omega)⟩
  · decide
  · exact ⟨hbyte _ (by omega) (by omega), hbyte _ (by omega) (by omega),
      hbyte _ (by omega) (by omega)⟩
  · exact ⟨hbyte _ (by omega) (by omega), hbyte _ (by omega) (by omega),
      hbyte _ (by omega) (by omega), hbyte _ (by omega) (by omega)⟩

section
variable {a lo hi : UInt8} {rest : Bytes}

def StartsRune (s : Bytes) : Prop := ∃ r tl, scalar r = r ∧ s = encodeRune r ++ tl

theorem scalar_eq : scalar r = r ↔ ¬ (0xD800 ≤ r ∧ r < 0xE000 ∨ 0x110000 ≤ r) := by
  unfold scalar
  split_ifs with h
  · refine iff_of_false ?_ (not_not_intro h)
    unfold runeError
    omega
  · exact iff_of_true rfl h

theorem ofNat_eq {n : Nat} (h : b.toNat = n) : UInt8.ofNat n = b := by
  rw [← h, UInt8.ofNat_toNat]

theorem startsRune_two (ha : 0xC2 ≤ a.toNat ∧ a.toNat < 0xE0) (h : tailLen 0x80 0xBF 0 rest ≠ 0) :
    StartsRune (a :: rest) := by
  obtain h₀ | ⟨-, b, tl, rfl, hb, -⟩ := tailLen_cases 0x80 0xBF 0 rest
  · exact absurd h₀ h
  · simp only [UInt8.reduceToNat] at hb
    refine ⟨a.toNat % 32 * 64 + b.toNat % 64, tl, scalar_eq.mpr (by omega), ?_⟩
    have hab : a.toNat = 0xC0 + (a.toNat % 32 * 64 + b.toNat % 64) / 64 ∧
        b.toNat = 0x80 + (a.toNat % 32 * 64 + b.toNat % 64) % 64 := by omega
    unfold encodeRune
    rw [if_neg (by omega), if_pos (by omega), ofNat_eq hab.1, ofNat_eq hab.2]
    rfl

theorem startsRune_three (ha : 0xE0 ≤ a.toNat ∧ a.toNat < 0xF0) (hlo : 0x80 ≤ lo.toNat)
    (hhi : hi.toNat < 0xC0) (hlow : 0x20 ≤ a.toNat % 16 * 64 + lo.toNat % 64)
    (hgap : a.toNat = 0xED → hi.toNat < 0xA0) (h : tailLen lo hi 1 rest ≠ 0) :
    StartsRune (a :: rest) := by
  obtain h₀ | ⟨-, b, tl, rfl, hb, hlen, hall⟩ := tailLen_cases lo hi 1 rest
  · exact absurd h₀ h
  · match tl, hlen with
    | c :: tl, _ =>
      obtain ⟨hc, hc'⟩ := hall c (by simp)
      generalize hr : (a.toNat % 16 * 64 + b.toNat % 64) * 64 + c.toNat % 64 = r
      have habc : a.toNat = 0xE0 + r / 4096 ∧ b.toNat = 0x80 + r / 64 % 64 ∧
          c.toNat = 0x80 + r % 64 := by omega
      refine ⟨r, tl, scalar_eq.mpr (by omega), ?_⟩
      unfold encodeRune
      rw [if_neg (by omega), if_neg (by omega), if_neg (by omega), if_pos (by omega),
        ofNat_eq habc.1, ofNat_eq habc.2.1, ofNat_eq habc.2.2]
      rfl

theorem startsRune_four (ha : 0xF0 ≤ a.toNat ∧ a.toNat < 0xF5) (hlo : 0x80 ≤ lo.toNat)
    (hhi : hi.toNat < 0xC0) (hlow : 0x10 ≤ a.toNat % 8 * 64 + lo.toNat % 64)
    (hhigh : a.toNat = 0xF4 → hi.toNat < 0x90) (h : tailLen lo hi 2 rest ≠ 0) :
    StartsRune (a :: rest) := by
  obtain h₀ | ⟨-, b, tl, rfl, hb, hlen, hall⟩ := tailLen_cases lo hi 2 rest
  · exact absurd h₀ h
  · match tl, hlen with
    | c :: d :: tl, _ =>
      obtain ⟨hc, hc'⟩ := hall c (by simp)
      obtain ⟨hd, hd'⟩ := hall d (by simp)
      generalize hr :
        ((a.toNat % 8 * 64 + b.toNat % 64) * 64 + c.toNat % 64) * 64 + d.toNat % 64 = r
      have habcd : a.toNat = 0xF0 + r / 262144 ∧ b.toNat = 0x80 + r / 4096 % 64 ∧
          c.toNat = 0x80 + r / 64 % 64 ∧ d.toNat = 0x80 + r % 64 := by omega
      refine ⟨r, tl, scalar_eq.mpr (by omega), ?_⟩
      unfold encodeRune
      rw [if_neg (by omega), if_neg (by omega), if_neg (by omega), if_neg (by omega),
        ofNat_eq habcd.1, ofNat_eq habcd.2.1, ofNat_eq habcd.2.2.1, ofNat_eq habcd.2.2.2]
      rfl

theorem startsRune (h : runeLen (a :: rest) ≠ 0) : StartsRune (a :: rest) := by
  obtain ⟨ha, -⟩ | ⟨ha, hlen⟩ | ⟨lo, hi, ha, hbounds, hlow, hgap, hlen⟩ |
    ⟨lo, hi, ha, hbounds, hlow, hhigh, hlen⟩ | ⟨-, hlen⟩ := runeLen_cases a rest
  · refine ⟨a.toNat, rest, scalar_eq.mpr (by omega), ?_⟩
    unfold encodeRune
    rw [if_pos ha, UInt8.ofNat_toNat]
    rfl
  · exact startsRune_two ha (hlen ▸ h)
  · exact startsRune_three ha hbounds.1 hbounds.2 hlow hgap (hlen ▸ h)
  · exact startsRune_four ha hbounds.1 hbounds.2 hlow hhigh (hlen ▸ h)
  · exact absurd hlen h

/-- A valid string is what `encodeRune` writes for its runes. -/
theorem exists_scalars {s : Bytes} (h : validString s = true) :
    ∃ rs : List Nat, (∀ r ∈ rs, scalar r = r) ∧ s = rs.flatMap encodeRune := by
  induction hn : s.length using Nat.strongRecOn generalizing s with
  | ind n ih =>
    cases s with
    | nil => exact ⟨[], nofun, rfl⟩
    | cons a rest =>
      have hlen : runeLen (a :: rest) ≠ 0 := by
        intro hzero
        have hdecode : decodeRune (a :: rest) = (runeError, 1) := by
          unfold decodeRune
          rw [hzero]
          rfl
        unfold validString at h
        rw [runes_cons, hdecode] at h
        cases h
      obtain ⟨r, tl, hr, heq⟩ := startsRune hlen
      rw [heq, validString_encodeRune] at h
      have hlt : tl.length < n := by
        have hpos := length_pos_iff.mpr (encodeRune_ne_nil r)
        rw [← hn, heq, length_append]
        omega
      obtain ⟨rs, hrs, htl⟩ := ih tl.length hlt h rfl
      refine ⟨r :: rs, forall_mem_cons.mpr ⟨hr, hrs⟩, ?_⟩
      rw [heq, flatMap_cons, ← htl]

theorem runes_flatMap {rs : List Nat} (h : ∀ r ∈ rs, scalar r = r) :
    runes (rs.flatMap encodeRune) = rs.map fun r => (r, encodeRune r) := by
  induction rs with
  | nil => rfl
  | cons r rs ih =>
    rw [flatMap_cons, runes_encodeRune, h r mem_cons_self,
      ih fun r' hr' => h r' (mem_cons_of_mem r hr')]
    rfl

end

theorem decodeRune_snd (a : UInt8) (rest : Bytes) :
    (decodeRune (a :: rest)).2 = max 1 (runeLen (a :: rest)) := by
  have h := runeBytes a rest
  unfold decodeRune
  generalize runeLen (a :: rest) = n at h
  cases h <;> rfl

theorem dropInvalid_eq (keep : Nat) (s : Bytes) :
    dropInvalid keep s = s.take keep ++ toValidUTF8 (s.drop keep) := by
  induction s generalizing keep with
  | nil => cases keep <;> rfl
  | cons b rest ih =>
    cases keep with
    | zero => rfl
    | succ keep => exact congrArg (b :: ·) (ih keep)

/-- `toValidUTF8` drops a byte beyond ASCII or keeps a rune. -/
theorem toValidUTF8_cons (a : UInt8) (rest : Bytes) :
    (0x80 ≤ a.toNat ∧ toValidUTF8 (a :: rest) = toValidUTF8 rest) ∨
      ∃ r tl, a :: rest = encodeRune r ++ tl ∧
        toValidUTF8 (a :: rest) = encodeRune r ++ toValidUTF8 tl := by
  cases hlen : runeLen (a :: rest) with
  | zero =>
    have hbytes := runeBytes a rest
    rw [hlen] at hbytes
    cases hbytes with
    | invalid h => exact .inl ⟨h, by rw [toValidUTF8, dropInvalid, hlen]; rfl⟩
  | succ n =>
    have hne : runeLen (a :: rest) ≠ 0 := by omega
    obtain ⟨r, tl, -, heq⟩ := startsRune hne
    have hwidth : (encodeRune r).length = n + 1 := by
      have hsnd := decodeRune_snd a rest
      rw [heq, decodeRune_encodeRune, ← heq, hlen] at hsnd
      omega
    have hkept : toValidUTF8 (a :: rest) =
        (a :: rest).take (n + 1) ++ toValidUTF8 ((a :: rest).drop (n + 1)) := by
      rw [toValidUTF8, dropInvalid, hlen]
      exact congrArg (a :: ·) (dropInvalid_eq n rest)
    refine .inr ⟨r, tl, heq, ?_⟩
    rw [hkept, heq, List.take_left' hwidth, List.drop_left' hwidth]

/-- What holds of nothing, survives dropped bytes and runes in front, holds of what
`toValidUTF8` makes of a string. -/
theorem toValidUTF8_induction {P : Bytes → Bytes → Prop} (hnil : P [] [])
    (hdrop : ∀ a rest t, 0x80 ≤ a.toNat → P rest t → P (a :: rest) t)
    (hrune : ∀ r tl t, P tl t → P (encodeRune r ++ tl) (encodeRune r ++ t)) (s : Bytes) :
    P s (toValidUTF8 s) := by
  induction hn : s.length using Nat.strongRecOn generalizing s with
  | ind n ih =>
    cases s with
    | nil => exact hnil
    | cons a rest =>
      rw [length_cons] at hn
      obtain ⟨ha, heq⟩ | ⟨r, tl, hs, heq⟩ := toValidUTF8_cons a rest
      · rw [heq]
        exact hdrop a rest _ ha (ih rest.length (by omega) rest rfl)
      · have hlt : tl.length < n := by
          have hpos := length_pos_iff.mpr (encodeRune_ne_nil r)
          have hlength := congrArg List.length hs
          rw [length_cons, length_append] at hlength
          omega
        rw [heq, hs]
        exact hrune r tl _ (ih tl.length hlt tl rfl)

theorem validString_toValidUTF8 (s : Bytes) : validString (toValidUTF8 s) = true := by
  refine toValidUTF8_induction (P := fun _ t => validString t = true) rfl ?_ ?_ s
  · intro a rest t _ h
    exact h
  · intro r tl t h
    rw [validString_encodeRune, h]

theorem nul_mem_toValidUTF8 (s : Bytes) : 0 ∈ toValidUTF8 s ↔ 0 ∈ s := by
  refine toValidUTF8_induction (P := fun s t => 0 ∈ t ↔ 0 ∈ s) Iff.rfl ?_ ?_ s
  · intro a rest t ha h
    have hne : a ≠ 0 := by
      rintro rfl
      exact absurd ha (by decide)
    rw [h, mem_cons, or_iff_right hne.symm]
  · intro r tl t h
    rw [mem_append, mem_append, h]

theorem length_toValidUTF8_le (s : Bytes) : (toValidUTF8 s).length ≤ s.length := by
  refine toValidUTF8_induction (P := fun s t => t.length ≤ s.length) (Nat.le_refl 0) ?_ ?_ s
  · intro a rest t _ h
    exact Nat.le_succ_of_le h
  · intro r tl t h
    rw [length_append, length_append]
    omega

end GolangBasics
