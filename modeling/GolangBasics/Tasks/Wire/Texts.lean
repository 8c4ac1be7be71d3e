import GolangBasics.Tasks.Wire.Requests

/-! What the texts of a request are when they reach the store. The title, the idempotency key
and its hash are always texts that PostgreSQL takes; the id of the path and the one in a cursor
are passed on as they were decoded. -/
namespace GolangBasics.Tasks.Wire
open List Option
open Json (Piece Value unquote nul_mem_unquote validString_unquote)

/-- PostgreSQL takes a text that is valid UTF-8 without a NUL byte. -/
def Accepted (t : Bytes) : Prop := validString t = true ∧ 0 ∉ t

def StoreCall.texts : StoreCall → List Bytes
  | create _ title none => [title]
  | create _ title (some (key, hash)) => [title, key, hash]
  | get id | delete id _ | update id none _ _ => [id]
  | update id (some title) _ _ => [id, title]
  | list _ none => []
  | list _ (some c) => [c.id]

theorem accepted_of_printable {t : Bytes} (h : ∀ a ∈ t, 0x20 ≤ a.toNat ∧ a.toNat < 0x80) :
    Accepted t := by
  refine ⟨validString_of_ascii fun a ha => (h a ha).2, fun h₀ => ?_⟩
  have := (h 0 h₀).1
  simp at this

theorem accepted_normalizeTitle {title t : Bytes} (h : normalizeTitle title = .ok t) :
    Accepted t := by
  unfold normalizeTitle at h
  simp only at h
  split_ifs at h with hempty hvalid hlong
  split at h
  · split_ifs at h
  · rename_i hfind
    obtain rfl := Except.ok.inj h
    refine ⟨by simpa using hvalid, fun hnul => ?_⟩
    obtain ⟨x, hx, hx₀⟩ := nul_mem_runes hnul
    have hx' := List.find?_eq_none.mp hfind x hx
    simp [hx₀] at hx'

variable {r : Request}

theorem accepted_idempotencyKey {title key hash : Bytes}
    (h : idempotencyKey r title = .ok (some (key, hash))) : Accepted key ∧ Accepted hash := by
  unfold idempotencyKey at h
  simp only at h
  split_ifs at h with hempty hsent hlong hprintable
  · cases h
  obtain ⟨rfl, rfl⟩ := Prod.mk.inj (some.inj (Except.ok.inj h))
  refine ⟨accepted_of_printable fun a ha => ?_, accepted_of_printable fun a ha => ?_⟩
  · have ha' : ¬ (a < 0x20 ∨ a > 0x7E) := fun hbad =>
      hprintable (List.any_eq_true.mpr ⟨a, ha, by simpa using hbad⟩)
    simp only [gt_iff_lt, UInt8.lt_iff_toNat_lt, UInt8.reduceToNat] at ha'
    omega
  · have := hexEncode_printable ha
    omega

theorem accepted_unquote {pieces : List Piece} :
    Accepted (unquote pieces) ↔ .unicode 0 ∉ pieces := by
  simp [Accepted, validString_unquote, nul_mem_unquote]

def Request.cursorWire (r : Request) : Option CursorWire :=
  ((Url.query r.rawQuery).lookup (utf8 "cursor")).bind Wire.cursorWire

/-- A request to a tasks route is harmless when its id is written without the escape of a NUL
byte and decodes to valid UTF-8, or, for a page of tasks, when the id in its cursor is written
without that escape. -/
def Request.Harmless (r : Request) : Prop :=
  match r.route, r.method with
  | some (.task segment), _ =>
    ¬ Url.nulEscape <:+: segment ∧ validString (Url.pathUnescape segment) = true
  | some .tasks, .get | some .tasks, .head =>
    ∀ w, r.cursorWire = some w → .unicode 0 ∉ w.i
  | _, _ => True

theorem route_task {path segment : Bytes} (h : route path = some (.task segment)) :
    ∃ before, path = before ++ 0x2F :: segment := by
  cases path with
  | nil => cases h
  | cons slash rest =>
    simp only [route, span_eq_takeWhile_dropWhile] at h
    split_ifs at h
    split at h
    · cases h
    · rename_i b _ hafter
      split_ifs at h
      obtain rfl := Route.task.inj (some.inj h)
      have hb : b = 0x2F := by
        have hhead := List.head?_dropWhile_not (· ≠ (0x2F : UInt8)) rest
        rw [hafter] at hhead
        simpa using hhead
      subst hb
      refine ⟨slash :: rest.takeWhile (· ≠ 0x2F), ?_⟩
      rw [cons_append, ← hafter, takeWhile_append_dropWhile]

theorem accepted_segment {segment : Bytes} (hctl : Url.containsCTL (r.path ++ r.rawQuery) = false)
    (h : r.route = some (.task segment)) : Accepted (Url.pathUnescape segment) ↔
      ¬ Url.nulEscape <:+: segment ∧ validString (Url.pathUnescape segment) = true := by
  obtain ⟨path, hpath, hroute⟩ := bind_eq_some_iff.mp h
  have hraw : Url.containsCTL r.path = false := by
    simp only [Url.containsCTL, any_append, Bool.or_eq_false_iff] at hctl
    exact hctl.1
  obtain ⟨⟨t, ht⟩, hnul⟩ := Url.escapedPath_some hpath hraw
  obtain ⟨before, rfl⟩ := route_task hroute
  obtain ⟨-, u, hu⟩ := Url.unescape_slash ht
  have hiff := Url.unescape_nul hu fun hmem => hnul (by simp [hmem])
  simp only [Accepted, Url.pathUnescape, hu, getD_some, hiff]
  exact and_comm

variable {call : StoreCall}

theorem texts_create {id : Bytes} (h : create id r = .ok call) : ∀ t ∈ call.texts, Accepted t := by
  simp only [create] at h
  cases hbody : decodeJSON r with
  | error p =>
    rw [hbody] at h
    cases h
  | ok members =>
    rw [hbody] at h
    simp only [bind, Except.bind] at h
    split at h
    · cases h
    split at h
    · cases h
    rename_i title htitle
    split at h
    · cases h
    rename_i idem hidem
    obtain rfl := Except.ok.inj h
    cases idem with
    | none => simpa [StoreCall.texts] using accepted_normalizeTitle htitle
    | some kh =>
      have hkh := accepted_idempotencyKey hidem
      simpa [StoreCall.texts] using ⟨accepted_normalizeTitle htitle, hkh⟩

theorem texts_list (h : list r = .ok call) :
    (∀ t ∈ call.texts, Accepted t) ↔ ∀ w, r.cursorWire = some w → .unicode 0 ∉ w.i := by
  simp only [list, bind, Except.bind] at h
  split at h
  · cases h
  split at h
  · cases h
  split at h
  · rename_i hcursor
    obtain rfl := Except.ok.inj h
    simp [StoreCall.texts, Request.cursorWire, hcursor]
  · rename_i raw hcursor
    split at h
    · cases h
    rename_i c hdecode
    obtain rfl := Except.ok.inj h
    obtain ⟨w, hw, hdecode⟩ := bind_eq_some_iff.mp hdecode
    obtain ⟨createdAt, -, hdecode⟩ := bind_eq_some_iff.mp hdecode
    split_ifs at hdecode
    obtain rfl := some.inj hdecode
    simp [StoreCall.texts, Request.cursorWire, hcursor, hw, accepted_unquote]

theorem texts_update {id : Bytes} (h : update id r = .ok call) :
    (∀ t ∈ call.texts, Accepted t) ↔ Accepted id := by
  simp only [update, bind, Except.bind] at h
  split at h
  · cases h
  split at h
  · cases h
  split at h
  · cases h
  split at h
  · cases h
  rename_i title done hpatch
  obtain rfl := Except.ok.inj h
  cases title with
  | none => simp [StoreCall.texts]
  | some title =>
    have htitle : Accepted title := by
      unfold normalizePatch at hpatch
      split at hpatch
      · split_ifs at hpatch
        cases hpatch
      split at hpatch
      · cases hpatch
      rename_i hnormalize
      cases hpatch
      exact accepted_normalizeTitle hnormalize
    simp [StoreCall.texts, htitle]

theorem texts_delete {id : Bytes} (h : delete id r = .ok call) :
    (∀ t ∈ call.texts, Accepted t) ↔ Accepted id := by
  simp only [delete] at h
  split at h
  · cases h
  · obtain rfl := Except.ok.inj h
    simp [StoreCall.texts]

theorem handle_texts {newId : Bytes} (h : handle newId r = some (.ok call)) :
    (∀ t ∈ call.texts, Accepted t) ↔ r.Harmless := by
  unfold handle at h
  split_ifs at h with hctl
  have hctl : Url.containsCTL (r.path ++ r.rawQuery) = false := by simpa using hctl
  unfold Request.Harmless
  cases hroute : r.route with
  | none => simp [hroute] at h
  | some route =>
    cases route with
    | tasks =>
      cases hmethod : r.method <;> simp only [hroute, hmethod, Option.some.injEq] at h
      · exact texts_list h
      · exact texts_list h
      · exact iff_of_true (texts_create h) trivial
      all_goals cases h
    | task segment =>
      show (∀ t ∈ call.texts, Accepted t) ↔
        ¬ Url.nulEscape <:+: segment ∧ validString (Url.pathUnescape segment) = true
      rw [← accepted_segment hctl hroute]
      cases hmethod : r.method <;> simp only [hroute, hmethod, Option.some.injEq] at h
      · obtain rfl := Except.ok.inj h
        simp [StoreCall.texts]
      · obtain rfl := Except.ok.inj h
        simp [StoreCall.texts]
      · cases h
      · exact texts_update h
      · exact texts_delete h
      · cases h

section
variable {α β : Type}

def ClientError (out : Except Problem α) : Prop :=
  ∀ p, out = .error p → 400 ≤ p.status ∧ p.status < 500

theorem clientError_ok (a : α) : ClientError (.ok a) := fun _ h => by cases h

theorem clientError_error {p : Problem} (h : 400 ≤ p.status ∧ p.status < 500) :
    ClientError (.error p : Except Problem α) := by
  rintro q hq
  obtain rfl := Except.error.inj hq
  exact h

theorem clientError_badRequest (code : String) :
    ClientError (.error (badRequest code) : Except Problem α) :=
  clientError_error ⟨Nat.le_refl 400, by simp [badRequest]⟩

theorem clientError_bind {x : Except Problem α} {f : α → Except Problem β} (hx : ClientError x)
    (hf : ∀ a, ClientError (f a)) : ClientError (x >>= f) := by
  cases x with
  | error p => exact clientError_error (hx p rfl)
  | ok a => exact hf a

end

theorem clientError_decodeJSON (r : Request) : ClientError (decodeJSON r) := by
  unfold decodeJSON
  split
  · exact clientError_error (by decide)
  split
  · exact clientError_error (by decide)
  · exact clientError_ok _

theorem clientError_create (id : Bytes) (r : Request) : ClientError (create id r) := by
  refine clientError_bind (clientError_decodeJSON r) fun members => ?_
  split
  · exact clientError_error (by decide)
  split
  · exact clientError_badRequest _
  split
  · exact clientError_badRequest _
  · exact clientError_ok _

theorem clientError_checkParams (query : List (Bytes × Bytes)) :
    ClientError (checkParams query) := by
  unfold checkParams
  simp only
  split
  · exact clientError_badRequest _
  split
  · exact clientError_badRequest _
  · exact clientError_ok _

theorem clientError_limitParam (query : List (Bytes × Bytes)) :
    ClientError (limitParam query) := by
  unfold limitParam
  split
  · exact clientError_ok _
  split
  · exact clientError_badRequest _
  split_ifs
  · exact clientError_badRequest _
  · exact clientError_ok _

theorem clientError_list (r : Request) : ClientError (list r) := by
  refine clientError_bind (clientError_checkParams _) fun _ => ?_
  refine clientError_bind (clientError_limitParam _) fun limit => ?_
  split
  · exact clientError_ok _
  split
  · exact clientError_badRequest _
  · exact clientError_ok _

theorem clientError_update (id : Bytes) (r : Request) : ClientError (update id r) := by
  unfold update
  split
  · exact clientError_badRequest _
  refine clientError_bind (clientError_decodeJSON r) fun members => ?_
  split
  · exact clientError_badRequest _
  split
  · exact clientError_badRequest _
  · exact clientError_ok _

theorem clientError_delete (id : Bytes) (r : Request) : ClientError (delete id r) := by
  unfold delete
  split
  · exact clientError_badRequest _
  · exact clientError_ok _

theorem handle_clientError {newId : Bytes} {out : Except Problem StoreCall}
    (h : handle newId r = some out) : ClientError out := by
  unfold handle at h
  split_ifs at h
  split at h
  · obtain rfl := some.inj h
    exact clientError_create newId r
  · obtain rfl := some.inj h
    exact clientError_list r
  · obtain rfl := some.inj h
    exact clientError_list r
  · obtain rfl := some.inj h
    exact clientError_ok _
  · obtain rfl := some.inj h
    exact clientError_ok _
  · obtain rfl := some.inj h
    exact clientError_update _ r
  · obtain rfl := some.inj h
    exact clientError_delete _ r
  · cases h

/-- A request to the tasks routes is turned down with a client error, or it comes to a call of
the store; the texts of that call are ones PostgreSQL takes exactly when the request is
harmless. -/
theorem store_texts_iff {newId : Bytes} {r : Request} {out : Except Problem StoreCall}
    (h : handle newId r = some out) :
    (∀ p, out = .error p → 400 ≤ p.status ∧ p.status < 500) ∧
    ∀ call, out = .ok call → ((∀ t ∈ call.texts, Accepted t) ↔ r.Harmless) := by
  refine ⟨handle_clientError h, fun call hcall => ?_⟩
  rw [hcall] at h
  exact handle_texts h

def texts (r : Request) : Option (List Bytes) :=
  (handle [] r).bind fun out => out.toOption.map StoreCall.texts

theorem handle_of_texts {ts : List Bytes} (h : texts r = some ts) :
    ∃ call, handle [] r = some (.ok call) ∧ call.texts = ts := by
  obtain ⟨out, hout, h⟩ := bind_eq_some_iff.mp h
  cases out with
  | error p => cases h
  | ok call => exact ⟨call, hout, some.inj h⟩

def get (path : String) : Request := ⟨.get, utf8 path, [], fun _ => [], some []⟩

theorem store_texts_iff_plain :
    ∃ call, handle [] (get "/tasks/42") = some (.ok call) ∧ call.texts = [utf8 "42"] ∧
      ∀ t ∈ call.texts, Accepted t := by
  have htexts : texts (get "/tasks/42") = some [utf8 "42"] := by decide +kernel
  have hroute : (get "/tasks/42").route = some (.task (utf8 "42")) := by decide +kernel
  have hnul : ¬ Url.nulEscape <:+: utf8 "42" := by decide +kernel
  have hvalid : validString (Url.pathUnescape (utf8 "42")) = true := by decide +kernel
  -- what was evaluated is not to be unfolded again
  generalize get "/tasks/42" = r at htexts hroute ⊢
  have hharmless : r.Harmless := by
    simp only [Request.Harmless, hroute]
    exact ⟨hnul, hvalid⟩
  obtain ⟨call, hcall, htexts⟩ := handle_of_texts htexts
  have hiff := (store_texts_iff hcall).2 call rfl
  exact ⟨call, hcall, htexts, hiff.mpr hharmless⟩

/-- A page of tasks after a cursor whose id is an escaped NUL. -/
def nulCursor : Request :=
  ⟨.get, utf8 "/tasks", utf8 "cursor=eyJ0IjoiMjAyNi0wMS0wMVQwMDowMDowMFoiLCJpIjoiXHUwMDAwIn0",
    fun _ => [], some []⟩

/-- `GET /tasks/%00` passes a NUL byte to the store, `GET /tasks/%FF` a byte that is no UTF-8,
and the cursor again a NUL byte. -/
theorem nul_reaches_store :
    (∃ call, handle [] (get "/tasks/%00") = some (.ok call) ∧ call.texts = [[0]]) ∧
    (∃ call, handle [] (get "/tasks/%FF") = some (.ok call) ∧ call.texts = [[0xFF]]) ∧
    (∃ call, handle [] nulCursor = some (.ok call) ∧ call.texts = [[0]]) ∧
    ¬ Accepted [0] ∧ ¬ Accepted [0xFF] := by
  have hnul : texts (get "/tasks/%00") = some [[0]] := by decide +kernel
  have hbyte : texts (get "/tasks/%FF") = some [[0xFF]] := by decide +kernel
  have hcursor : texts nulCursor = some [[0]] := by decide +kernel
  exact ⟨handle_of_texts hnul, handle_of_texts hbyte, handle_of_texts hcursor,
    fun h => h.2 (by simp), fun h => absurd h.1 (by decide)⟩

end GolangBasics.Tasks.Wire
