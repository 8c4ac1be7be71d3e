import GolangBasics.Httpx.ReplaceDsn

/-! What `redactURL` shows of a connection string in libpq's keyword/value syntax. The pattern
has no blanks around the equals sign, ends a value without quotes at an escaped blank, and finds
keywords inside other values. -/
namespace GolangBasics.Httpx.Redact
open List

/-- `isspace` of C, which has the vertical tab too. -/
def isSpace (b : UInt8) : Bool := isBlank b || b = 0x0B

/-- A byte of a value, as it is or behind a backslash. -/
inductive Glyph where
  | plain (b : UInt8)
  | escaped (b : UInt8)
  deriving DecidableEq

def Glyph.text : Glyph → Bytes
  | .plain b => [b]
  | .escaped b => [0x5C, b]

/-- A byte that would end the value or start an escape stands behind a backslash. -/
def Glyph.fits (quoted : Bool) : Glyph → Bool
  | .plain b => b ≠ 0x5C && if quoted then b ≠ 0x27 else !isSpace b
  | .escaped _ => true

/-- A value. Without quotes it is empty only at the end of the string: elsewhere libpq goes on to
the next word. -/
structure Written where
  quoted : Bool
  glyphs : List Glyph
  fits : ∀ g ∈ glyphs, g.fits quoted = true
  head : quoted = false → glyphs.head? ≠ some (.plain 0x27)

def Written.text (v : Written) : Bytes :=
  if v.quoted then 0x27 :: (v.glyphs.flatMap Glyph.text ++ [0x27]) else v.glyphs.flatMap Glyph.text

/-- A pair, with the blanks before it and around its equals sign. -/
structure Setting where
  lead : Bytes
  keyword : Bytes
  left : Bytes
  right : Bytes
  value : Written
  blanks : ∀ b ∈ lead ++ left ++ right, isSpace b = true
  name : ∀ b ∈ keyword, (b ≠ 0x3D && !isSpace b) = true

def Setting.text (s : Setting) : Bytes :=
  s.lead ++ (s.keyword ++ (s.left ++ 0x3D :: (s.right ++ s.value.text)))

def Setting.secret (s : Setting) : Bool :=
  s.keyword = utf8 "password" || s.keyword = utf8 "sslpassword"

/-- There is something to mask. -/
def Setting.masked (s : Setting) : Bool := s.secret && s.value.text ≠ []

def Setting.shown (s : Setting) : Bytes :=
  if s.masked then s.lead ++ (s.keyword ++ 0x3D :: mark) else s.text

def dsnText (settings : List Setting) (trail : Bytes) : Bytes :=
  settings.flatMap Setting.text ++ trail

def dsnShown (settings : List Setting) (trail : Bytes) : Bytes :=
  settings.flatMap Setting.shown ++ trail

/-- The pattern takes the whole value if `after` follows it. -/
def Written.covered (v : Written) (after : Bytes) : Bool :=
  if v.quoted then !v.glyphs.contains (.escaped 0x0A)
  else v.text.all (!isBlank ·) && after.head?.all isBlank

/-- No match starts in the text if `after` follows it. -/
def quiet (after : Bytes) : Option UInt8 → Bytes → Bool
  | _, [] => true
  | prev, b :: s => dsnPairAt prev (b :: (s ++ after)) = none && quiet after (some b) s

/-- The matches are the secret pairs of the string. -/
def shielded (trail : Bytes) : Option UInt8 → List Setting → Bool
  | _, [] => true
  | prev, s :: settings =>
    let after := dsnText settings trail
    (if s.masked then
      s.left = [] && s.right = [] && !(lastByte prev s.lead).any isWord && s.value.covered after
    else quiet after prev s.text) && shielded trail (lastByte prev s.text) settings

/-- The string has no `://`, and the pattern matches in it what it should. -/
def Guarded (settings : List Setting) (trail : Bytes) : Prop :=
  shielded trail none settings = true ∧ ¬ utf8 "://" <:+: dsnText settings trail

variable {prev : Option UInt8} {x after trail : Bytes} {s : Setting} {v : Written}
  {settings : List Setting}

theorem replaceDsnFrom_quiet (h : quiet after prev x = true) :
    replaceDsnFrom 0 prev (x ++ after) = x ++ replaceDsnFrom 0 (lastByte prev x) after := by
  induction x generalizing prev with
  | nil => rfl
  | cons b x ih =>
    obtain ⟨hnone, hquiet⟩ := Bool.and_eq_true_iff.mp h
    rw [cons_append, replaceDsnFrom_plain (of_decide_eq_true hnone), ih hquiet]
    rfl

theorem quiet_spaces (h : ∀ b ∈ x, isSpace b = true) : quiet after prev x = true := by
  induction x generalizing prev with
  | nil => rfl
  | cons b x ih =>
    obtain ⟨hb, hx⟩ := forall_mem_cons.mp h
    have hkeyword : keywordByte b = false := by
      simp only [isSpace, isBlank, contains_cons, contains_nil, Bool.or_false,
        Bool.or_eq_true, beq_iff_eq, decide_eq_true_eq] at hb
      rcases hb with (rfl | rfl | rfl | rfl | rfl) | rfl <;> rfl
    exact Bool.and_eq_true_iff.mpr ⟨decide_eq_true (dsnPairAt_none hkeyword prev _), ih hx⟩

theorem afterQuoted_glyphs {glyphs : List Glyph} (hfits : ∀ g ∈ glyphs, g.fits true = true)
    (hline : .escaped 0x0A ∉ glyphs) :
    afterQuoted (glyphs.flatMap Glyph.text ++ 0x27 :: after) = some after := by
  induction glyphs with
  | nil => exact afterQuoted_quote after
  | cons g glyphs ih =>
    obtain ⟨hg, hrest⟩ := forall_mem_cons.mp hfits
    obtain ⟨hne, hlines⟩ := not_or.mp (mt mem_cons.mpr hline)
    rw [flatMap_cons, append_assoc]
    cases g with
    | plain b =>
      obtain ⟨hescape, hquote⟩ : b ≠ 0x5C ∧ b ≠ 0x27 := by simpa [Glyph.fits] using hg
      exact (afterQuoted_plain hquote hescape _).trans (ih hrest hlines)
    | escaped b =>
      have hb : b ≠ 0x0A := fun hb => hne (by rw [hb])
      exact (afterQuoted_escape b _).trans ((if_neg hb).trans (ih hrest hlines))

theorem afterValue_covered (hne : v.text ≠ []) (h : v.covered after = true) :
    afterValue (v.text ++ after) = some after := by
  unfold Written.covered at h
  split_ifs at h with hquoted
  · have hclosed : afterQuoted (v.glyphs.flatMap Glyph.text ++ 0x27 :: after) = some after :=
      afterQuoted_glyphs (hquoted ▸ v.fits) (by simpa using h)
    rw [Written.text, if_pos hquoted, cons_append, append_assoc]
    exact afterValue_quoted hclosed
  · obtain ⟨hword, hafter⟩ := Bool.and_eq_true_iff.mp h
    have hdrop : (v.text ++ after).dropWhile (!isBlank ·) = after := by
      rw [dropWhile_append_of_pos (all_eq_true.mp hword)]
      cases after with
      | nil => rfl
      | cons b after => exact dropWhile_cons_of_neg (by simpa using hafter)
    -- the value starts with no quote
    obtain ⟨b, t, ht, hb⟩ : ∃ b t, v.text = b :: t ∧ b ≠ 0x27 := by
      have hhead := v.head (by simpa using hquoted)
      rw [Written.text, if_neg hquoted] at hne ⊢
      cases hg : v.glyphs with
      | nil => simp [hg] at hne
      | cons g glyphs =>
        rw [hg] at hhead
        cases g with
        | plain b => exact ⟨b, _, rfl, fun hb => hhead (by rw [hb]; rfl)⟩
        | escaped b => exact ⟨0x5C, _, rfl, by decide⟩
    have hblank : isBlank b = false := by
      rw [ht] at hword
      exact Bool.not_eq_true' _ ▸ (Bool.and_eq_true_iff.mp hword).1
    rw [ht, cons_append] at hdrop ⊢
    rw [afterValue_word (fun h => absurd h hb) hblank, hdrop]

theorem isKeyword_of_secret (h : s.secret = true) :
    IsKeyword s.keyword ∧ s.keyword.head?.any isWord = true := by
  rcases Bool.or_eq_true_iff.mp h with h | h <;> rw [of_decide_eq_true h]
  · exact ⟨⟨cons_ne_nil _ _, all_eq_true.mp rfl, "password", by decide, fun _ => rfl⟩, rfl⟩
  · exact ⟨⟨cons_ne_nil _ _, all_eq_true.mp rfl, "sslpassword", by decide, fun _ => rfl⟩,
      rfl⟩

theorem replaceDsn_shielded (htrail : ∀ b ∈ trail, isSpace b = true)
    (h : shielded trail prev settings = true) :
    replaceDsnFrom 0 prev (dsnText settings trail) = dsnShown settings trail := by
  induction settings generalizing prev with
  | nil =>
    have hquiet : replaceDsnFrom 0 prev (trail ++ []) = _ :=
      replaceDsnFrom_quiet (quiet_spaces htrail)
    rwa [replaceDsnFrom_nil, append_nil] at hquiet
  | cons s settings ih =>
    obtain ⟨hs, hrest⟩ := Bool.and_eq_true_iff.mp h
    have hcons : dsnText (s :: settings) trail = s.text ++ dsnText settings trail :=
      append_assoc _ _ _
    have hshown : dsnShown (s :: settings) trail = s.shown ++ dsnShown settings trail :=
      append_assoc _ _ _
    rw [hcons, hshown, Setting.shown]
    split_ifs at hs ⊢ with hmasked
    · obtain ⟨hsecret, hne⟩ := Bool.and_eq_true_iff.mp hmasked
      simp only [Bool.and_eq_true, decide_eq_true_eq, Bool.not_eq_true'] at hs
      obtain ⟨⟨⟨hleft, hright⟩, hword⟩, hcovered⟩ := hs
      have htext : s.text = s.lead ++ (s.keyword ++ 0x3D :: s.value.text) := by
        rw [Setting.text, hleft, hright]
        rfl
      have hlead : ∀ b ∈ s.lead, isSpace b = true := fun b hb => s.blanks b (by simp [hb])
      obtain ⟨hkeyword, hhead⟩ := isKeyword_of_secret hsecret
      have hboundary : ∀ t, Boundary (lastByte prev s.lead) (s.keyword ++ t) := by
        intro t
        unfold Boundary
        rw [hword, List.head?_append_of_ne_nil _ hkeyword.ne_nil, hhead]
        decide
      rw [htext, append_assoc, replaceDsnFrom_quiet (quiet_spaces hlead), append_assoc,
        cons_append, replaceDsnFrom_pair hkeyword (hboundary _)
          (afterValue_covered (of_decide_eq_true hne) hcovered),
        ← lastByte_append, ← htext, ih hrest]
      simp only [append_assoc, cons_append]
    · rw [replaceDsnFrom_quiet hs, ih hrest]

theorem redactURL_guarded (hs : s ∈ settings) (htrail : ∀ b ∈ trail, isSpace b = true)
    (h : Guarded settings trail) : redactURL (dsnText settings trail) = dsnShown settings trail := by
  have htext : 0x3D ∈ s.text := by simp [Setting.text]
  have hequals : 0x3D ∈ dsnText settings trail :=
    mem_append_left _ (mem_flatMap.mpr ⟨s, hs, htext⟩)
  rw [redactURL, if_neg h.2, if_pos hequals]
  exact replaceDsn_shielded htrail h.1

/-- Of two connection strings that differ in a secret value the same is shown if both are
guarded. The pairs that are not secret stand in it as they are. -/
theorem redactURL_keyword_hidden (before after : List Setting) (s : Setting) (v v' : Written)
    (trail : Bytes) (hsecret : s.secret = true) (hne : v.text ≠ []) (hne' : v'.text ≠ [])
    (htrail : ∀ b ∈ trail, isSpace b = true)
    (hv : Guarded (before ++ { s with value := v } :: after) trail)
    (hv' : Guarded (before ++ { s with value := v' } :: after) trail) :
    redactURL (dsnText (before ++ { s with value := v } :: after) trail) =
        dsnShown (before ++ { s with value := v } :: after) trail ∧
      redactURL (dsnText (before ++ { s with value := v' } :: after) trail) =
        dsnShown (before ++ { s with value := v } :: after) trail := by
  have hmasked : ∀ w : Written, w.text ≠ [] →
      ({ s with value := w } : Setting).shown = s.lead ++ (s.keyword ++ 0x3D :: mark) :=
    fun w hw => if_pos (Bool.and_eq_true_iff.mpr ⟨hsecret, decide_eq_true hw⟩)
  rw [redactURL_guarded (mem_append_right _ mem_cons_self) htrail hv,
    redactURL_guarded (mem_append_right _ mem_cons_self) htrail hv']
  simp only [dsnShown, flatMap_append, flatMap_cons, hmasked v hne, hmasked v' hne',
    and_self]

/-- The value `x`. -/
def bare : Written := ⟨false, [.plain 0x78], all_eq_true.mp rfl, by decide⟩

/-- The value `'x \''`. -/
def inQuotes : Written :=
  ⟨true, [.plain 0x78, .plain 0x20, .escaped 0x27], all_eq_true.mp rfl, by decide⟩

/-- The empty value in quotes. -/
def noValue : Written := ⟨true, [], all_eq_true.mp rfl, by decide⟩

def pair (lead keyword gap : Bytes) (value : Written)
    (blanks : (lead ++ gap ++ gap).all isSpace = true)
    (name : (keyword.all fun b => b ≠ 0x3D && !isSpace b) = true) : Setting :=
  ⟨lead, keyword, gap, gap, value, all_eq_true.mp blanks, all_eq_true.mp name⟩

theorem redactURL_keyword_hidden_host :
    redactURL (utf8 "host='' password=x") = utf8 "host='' password=[redacted]" ∧
      redactURL (utf8 "host='' password='x \\''") = utf8 "host='' password=[redacted]" :=
  redactURL_keyword_hidden [pair [] (utf8 "host") [] noValue rfl rfl] []
    (pair [0x20] (utf8 "password") [] bare rfl rfl) bare inQuotes [] rfl (cons_ne_nil _ _)
    (cons_ne_nil _ _) (forall_mem_nil _)
    ⟨by decide +kernel, by decide +kernel⟩ ⟨by decide +kernel, by decide +kernel⟩

/-- With blanks around the equals sign nothing is masked. -/
theorem spaced_password_shown :
    let s := pair [] (utf8 "password") [0x20] bare rfl rfl
    s.secret = true ∧ redactURL s.text = utf8 "password = x" ∧
      redactURL { s with value := inQuotes }.text = utf8 "password = 'x \\''" :=
  ⟨rfl, by decide +kernel, by decide +kernel⟩

end GolangBasics.Httpx.Redact
