import GolangBasics.Tasks.Listing

/-! Walks through the pages of tasks: a client follows the next cursors while the table
changes between its requests. -/
namespace GolangBasics.Tasks
open List Option
open Keyset (Below Falls Ended)

/-- How a page is asked for: over HTTP, with a `limit` parameter or without, or from the
repository itself. -/
inductive Ask where
  | http (limit : Option String)
  | store (limit : Int)

/-- A request of a walk, and what its query meets: the rows committed then, or an error. -/
structure Turn where
  ask : Ask
  table : Except Err (List Task)

abbrev Visit := Keyset.Visit Task String

def Ask.size : Ask → Nat
  | http none => defaultPageSize
  | http (some text) =>
    match parseInt text with
    | .error _ => 0
    | .ok n => n.toNat
  | store limit => Store.pageLimit limit

def Ask.Valid : Ask → Prop
  | http none => True
  | http (some text) => ∃ n, parseInt text = .ok n ∧ 1 ≤ n ∧ n ≤ maxPageSize
  | store _ => True

def Turn.rows (turn : Turn) : List Task :=
  match turn.table with
  | .error _ => []
  | .ok rows => rows

def params (limit token : Option String) : Api.Query :=
  (limit.map fun text => ("limit", [text])).toList ++
    (token.map fun text => ("cursor", [text])).toList

def resume (lib : Texts) : Option String → Except Err (Option Cursor)
  | none => .ok none
  | some text => (lib.decodeCursor text).map some

section walk
variable {κ : Type} [LinearOrder κ] (lib : Texts) (collate : String → κ)

def Turn.query (turn : Turn) (cursor : Option Cursor) (limit : Nat) : Except Err (List Task) :=
  turn.table.map fun rows => Store.selectTasks collate rows cursor limit

/-- The tasks of the next page and its next cursor, unless the request fails. -/
def Turn.answer (turn : Turn) (token : Option String) : Option (List Task × Option String) :=
  match turn.ask with
  | .http limit =>
    match Api.list lib (turn.query collate) (params limit token) with
    | .error _ => none
    | .ok body => some (body.tasks, body.nextCursor)
  | .store limit =>
    match resume lib token with
    | .error _ => none
    | .ok cursor =>
      match Store.list (turn.query collate) ⟨limit, cursor⟩ with
      | .error _ => none
      | .ok page => some (page.tasks, page.next.map lib.encode)

def Turn.visit (turn : Turn) (token : Option String) : Option Visit :=
  (turn.answer lib collate token).map fun (tasks, next) => ⟨turn.rows, turn.ask.size, tasks, next⟩

/-- The pages a client receives: it follows the next cursor until there is none, and asks
again after a failure. -/
def walk (token : Option String) : List Turn → List Visit
  | [] => []
  | turn :: rest =>
    match turn.visit lib collate token with
    | none => walk token rest
    | some v =>
      match v.next with
      | none => [v]
      | some next => v :: walk (some next) rest

/-- What a walk promises: the tasks fall in `(created_at, id)` and none comes twice; a walk to
the end gives each task that exists during all of it exactly once; every page but the last
is full; and a page has a next cursor exactly when a further task existed at its time. -/
structure Paginates (visits : List Visit) : Prop where
  falls : Falls (Store.place collate) (visits.flatMap (·.items))
  nodup : ((visits.flatMap (·.items)).map Task.id).Nodup
  complete : Ended visits → ∀ id, (∀ v ∈ visits, ∃ t ∈ v.rows, t.id = id) →
    ((visits.flatMap (·.items)).map Task.id).count id = 1
  full : ∀ (i : Nat) (v : Visit), visits[i]? = some v → i + 1 < visits.length →
    v.items.length = v.size
  next_iff : ∀ (i : Nat) (v : Visit), visits[i]? = some v →
    (v.next.isSome ↔ ∃ t ∈ v.rows, ∀ u ∈ (visits.take (i + 1)).flatMap (·.items),
      Store.place collate t < Store.place collate u)

end walk

section list
variable {κ : Type} [LinearOrder κ] {lib : Texts} {collate : String → κ}

theorem Store.pageLimit_pos (limit : Int) : 0 < Store.pageLimit limit := by
  unfold Store.pageLimit defaultPageSize
  split_ifs <;> omega

theorem Store.pageLimit_eq {limit : Int} (hlow : 1 ≤ limit) (hhigh : limit ≤ maxPageSize) :
    Store.pageLimit limit = limit.toNat := by
  unfold Store.pageLimit
  exact if_neg (by omega)

variable {query : Option Cursor → Nat → Except Err (List Task)} {cursor : Option Cursor}
  {ahead : List Task}

/-- `List`, when `ahead` are the rows still to come: the first of them, and the cursor of the
last one shown when there are more. -/
theorem Store.list_ok {limit : Int} (hquery : ∀ n, query cursor n = .ok (ahead.take n)) :
    Store.list query ⟨limit, cursor⟩ = .ok ⟨ahead.take (Store.pageLimit limit),
      if Store.pageLimit limit < ahead.length then
        (ahead.take (Store.pageLimit limit)).getLast?.map cursorAfter
      else none⟩ := by
  simp only [Store.list, hquery, length_take]
  by_cases hmore : Store.pageLimit limit < ahead.length
  · have hlen : (ahead.take (Store.pageLimit limit)).length = Store.pageLimit limit := by
      rw [length_take]
      omega
    have htake : (ahead.take (Store.pageLimit limit + 1)).take (Store.pageLimit limit) =
        ahead.take (Store.pageLimit limit) := by
      rw [take_take, Nat.min_eq_left (by omega)]
    rw [if_pos (by omega), if_pos hmore, htake, List.getLast?_eq_getElem?, hlen]
  · have hall : ahead.take (Store.pageLimit limit + 1) = ahead.take (Store.pageLimit limit) := by
      rw [take_of_length_le (by omega), take_of_length_le (by omega)]
    rw [if_neg (by omega), if_neg hmore, hall]

structure IsPage (lib : Texts) (ahead : List Task) (size : Nat) (tasks : List Task)
    (next : Option String) : Prop where
  positive : 0 < size
  tasks_eq : tasks = ahead.take size
  next_eq : next = if size < ahead.length then
    tasks.getLast?.map fun t => lib.encode (cursorAfter t) else none

theorem IsPage.next_iff {tasks : List Task} {size : Nat} {next : Option String}
    (h : IsPage lib ahead size tasks next) : next.isSome ↔ size < ahead.length := by
  rw [h.next_eq]
  split_ifs with hmore
  · have hlen : 0 < tasks.length := by
      have hpos := h.positive
      rw [h.tasks_eq, length_take]
      omega
    have hne : tasks ≠ [] := ne_nil_of_length_pos hlen
    simp [List.getLast?_eq_some_getLast hne, hmore]
  · simp [hmore]

theorem IsPage.next_some {tasks : List Task} {size : Nat} {next : Option String}
    (h : IsPage lib ahead size tasks next) (hnext : next.isSome) :
    ∃ t ∈ ahead, tasks.getLast? = some t ∧ next = some (lib.encode (cursorAfter t)) := by
  have hmore := h.next_iff.mp hnext
  have hlast := h.next_eq
  rw [if_pos hmore] at hlast
  rw [hlast, isSome_map] at hnext
  obtain ⟨t, ht⟩ := isSome_iff_exists.mp hnext
  have hmem := List.mem_of_getLast? ht
  rw [h.tasks_eq] at hmem
  exact ⟨t, mem_of_mem_take hmem, ht, by rw [hlast, ht]; rfl⟩

theorem Store.list_isPage (lib : Texts) (limit : Int)
    (hquery : ∀ n, query cursor n = .ok (ahead.take n)) :
    ∃ page, Store.list query ⟨limit, cursor⟩ = .ok page ∧
      IsPage lib ahead (Store.pageLimit limit) page.tasks (page.next.map lib.encode) := by
  refine ⟨_, Store.list_ok hquery, Store.pageLimit_pos limit, rfl, ?_⟩
  by_cases hmore : Store.pageLimit limit < ahead.length
  · simp [hmore, Function.comp_def]
  · simp [hmore]

theorem Api.checkParams_params (limit token : Option String) :
    Api.checkParams lib (params limit token) = .ok () := by
  cases limit <;> cases token <;> simp [params, Api.checkParams]

theorem Api.lookup_limit (limit token : Option String) :
    (params limit token).lookup "limit" = limit.map fun text => [text] := by
  cases limit <;> cases token <;> simp [params, lookup_cons]

theorem Api.lookup_cursor (limit token : Option String) :
    (params limit token).lookup "cursor" = token.map fun text => [text] := by
  cases limit <;> cases token <;> simp [params, lookup_cons]

variable {limit : Option String}

theorem Api.cursorOf_params {token : Option String} (hcursor : resume lib token = .ok cursor) :
    Api.cursorOf lib (params limit token) = .ok cursor := by
  cases token with
  | none =>
    have : none = cursor := by simpa [resume] using hcursor
    simp [Api.cursorOf, Api.lookup_cursor, this]
  | some text =>
    cases hdecode : lib.decodeCursor text with
    | error err => simp [resume, hdecode, Except.map] at hcursor
    | ok c =>
      have : some c = cursor := by simpa [resume, hdecode, Except.map] using hcursor
      simp [Api.cursorOf, Api.Query.get, Api.lookup_cursor, hdecode, this]

theorem Api.list_params {token : Option String} (hcursor : resume lib token = .ok cursor) :
    Api.list lib query (params limit token) = (Api.limitOf (params limit token)).bind fun n =>
      match Store.list query ⟨n, cursor⟩ with
      | .error err => .error (Api.fail "could not list tasks" err)
      | .ok page => .ok ⟨page.tasks, page.next.map lib.encode⟩ := by
  unfold Api.list
  rw [Api.checkParams_params, Api.cursorOf_params hcursor]
  rfl

theorem Turn.query_ok (collate : String → κ) {turn : Turn} {rows : List Task}
    (htable : turn.table = .ok rows) (cursor : Option Cursor) (n : Nat) :
    turn.query collate cursor n = .ok ((Keyset.select (Store.place collate)
      (cursor.map (Store.position collate)) rows).take n) := by
  simp [Turn.query, htable, Except.map, Store.selectTasks]

theorem Api.limitOf_params (token : Option String) (hvalid : (Ask.http limit).Valid) :
    ∃ n, Api.limitOf (params limit token) = .ok n ∧
      Store.pageLimit n = (Ask.http limit).size := by
  unfold Api.limitOf Api.Query.get
  rw [Api.lookup_limit]
  cases limit with
  | none => exact ⟨defaultPageSize, rfl, by decide⟩
  | some text =>
    obtain ⟨n, hparse, hlow, hhigh⟩ := hvalid
    refine ⟨n, ?_, ?_⟩
    · simp only [map_some, headD_cons, hparse]
      exact if_neg (by omega)
    · simp [Ask.size, hparse, Store.pageLimit_eq hlow hhigh]

theorem Api.limitOf_refused {token : Option String} (hvalid : ¬ (Ask.http limit).Valid) :
    Api.limitOf (params limit token) = .error Api.invalidLimit := by
  unfold Api.limitOf Api.Query.get
  rw [Api.lookup_limit]
  cases limit with
  | none => exact absurd trivial hvalid
  | some text =>
    simp only [map_some, headD_cons]
    cases hparse : parseInt text with
    | error err => rfl
    | ok n =>
      have : n < 1 ∨ n > maxPageSize := by
        by_contra hin
        exact hvalid ⟨n, hparse, by omega, by omega⟩
      exact if_pos this

/-- A request is answered exactly when its limit is taken and its query does not fail, and
then with its page. -/
theorem Turn.answer_isPage (collate : String → κ) {turn : Turn} {token : Option String}
    {rows : List Task} (hcursor : resume lib token = .ok cursor) (hvalid : turn.ask.Valid)
    (htable : turn.table = .ok rows) :
    ∃ tasks next, turn.answer lib collate token = some (tasks, next) ∧
      IsPage lib (Keyset.select (Store.place collate) (cursor.map (Store.position collate)) rows)
        turn.ask.size tasks next := by
  have hquery := Turn.query_ok collate htable cursor
  unfold Turn.answer
  cases hask : turn.ask with
  | http limit =>
    rw [hask] at hvalid
    obtain ⟨n, hlimit, hsize⟩ := Api.limitOf_params token hvalid
    obtain ⟨page, hlist, hpage⟩ := Store.list_isPage lib n hquery
    rw [hsize] at hpage
    refine ⟨_, _, ?_, hpage⟩
    simp [Api.list_params hcursor, hlimit, Except.bind, hlist]
  | store limit =>
    obtain ⟨page, hlist, hpage⟩ := Store.list_isPage lib limit hquery
    refine ⟨_, _, ?_, hpage⟩
    simp [hcursor, hlist]

theorem Turn.answer_eq_none {turn : Turn} {token : Option String}
    (hcursor : resume lib token = .ok cursor)
    (hfail : ¬ turn.ask.Valid ∨ ∃ err, turn.table = .error err) :
    turn.answer lib collate token = none := by
  have hquery : ∀ err, turn.table = .error err → ∀ c n, turn.query collate c n = .error err := by
    intro err htable c n
    simp [Turn.query, htable, Except.map]
  unfold Turn.answer
  cases hask : turn.ask with
  | http limit =>
    rw [hask] at hfail
    by_cases hvalid : (Ask.http limit).Valid
    · obtain ⟨err, htable⟩ := hfail.resolve_left (not_not_intro hvalid)
      obtain ⟨n, hlimit, -⟩ := Api.limitOf_params token hvalid
      simp [Api.list_params hcursor, hlimit, Except.bind, Store.list, hquery err htable]
    · simp [Api.list_params hcursor, Api.limitOf_refused hvalid, Except.bind]
  | store limit =>
    rw [hask] at hfail
    obtain ⟨err, htable⟩ := hfail.resolve_left (not_not_intro trivial)
    simp [hcursor, Store.list, hquery err htable]

end list

section runs
variable {κ : Type} [LinearOrder κ] {lib : Texts} {collate : String → κ}

/-- The token of a walk: none at its start, later the cursor after a task. -/
inductive Token (lib : Texts) (collate : String → κ) : Option String → Option (ℕ ×ₗ κ) → Prop where
  | start : Token lib collate none none
  | after (t : Task) (hsurvives : lib.decodeCursor (lib.encode (cursorAfter t)) =
      .ok (cursorAfter t)) :
    Token lib collate (some (lib.encode (cursorAfter t))) (some (Store.place collate t))

variable {after : Option (ℕ ×ₗ κ)}

omit [LinearOrder κ] in
theorem Token.resume {token : Option String} (h : Token lib collate token after) :
    ∃ cursor, resume lib token = .ok cursor ∧ cursor.map (Store.position collate) = after := by
  cases h with
  | start => exact ⟨none, rfl, rfl⟩
  | after t hsurvives =>
    refine ⟨some (cursorAfter t), ?_, rfl⟩
    simp [Tasks.resume, hsurvives, Except.map]

/-- The assumptions on the rows a request meets: their positions are unique and their
cursors survive the encoding. -/
structure Turn.Sound (lib : Texts) (collate : String → κ) (turn : Turn) : Prop where
  unique : (turn.rows.map (Store.place collate)).Nodup
  survives : ∀ t ∈ turn.rows, lib.decodeCursor (lib.encode (cursorAfter t)) = .ok (cursorAfter t)

structure Turn.Serves (lib : Texts) (collate : String → κ) (turn : Turn)
    (after : Option (ℕ ×ₗ κ)) (v : Visit) : Prop where
  rows_eq : v.rows = turn.rows
  reads : v.Reads (Store.place collate) after
  token : v.next.isSome →
    Token lib collate v.next (v.items.getLast?.map (Store.place collate))

theorem Turn.visit_serves {turn : Turn} {token : Option String} {rows : List Task}
    (htoken : Token lib collate token after) (hsound : turn.Sound lib collate)
    (hvalid : turn.ask.Valid) (htable : turn.table = .ok rows) :
    ∃ v, turn.visit lib collate token = some v ∧ turn.Serves lib collate after v := by
  obtain ⟨cursor, hcursor, rfl⟩ := htoken.resume
  obtain ⟨tasks, next, hanswer, hpage⟩ := Turn.answer_isPage collate hcursor hvalid htable
  have hrows : turn.rows = rows := by simp [Turn.rows, htable]
  rw [← hrows] at hpage
  refine ⟨⟨turn.rows, turn.ask.size, tasks, next⟩, by simp [Turn.visit, hanswer], rfl, ?_, ?_⟩
  · exact ⟨hsound.unique, hpage.positive, hpage.tasks_eq, hpage.next_iff⟩
  · intro hnext
    obtain ⟨t, ht, hlast, rfl⟩ := hpage.next_some hnext
    have hrow := (Keyset.mem_select.mp ht).1
    rw [hlast]
    exact .after t (hsound.survives t hrow)

theorem Turn.serves_of_visit {turn : Turn} {token : Option String} {v : Visit}
    (htoken : Token lib collate token after) (hsound : turn.Sound lib collate)
    (hvisit : turn.visit lib collate token = some v) : turn.Serves lib collate after v := by
  obtain ⟨cursor, hcursor, -⟩ := htoken.resume
  have hok : turn.ask.Valid ∧ ∃ rows, turn.table = .ok rows := by
    by_contra hfail
    have hnone : turn.answer lib collate token = none := by
      apply Turn.answer_eq_none hcursor
      by_cases hvalid : turn.ask.Valid
      · cases htable : turn.table with
        | error err => exact .inr ⟨err, rfl⟩
        | ok rows => exact absurd ⟨hvalid, rows, htable⟩ hfail
      · exact .inl hvalid
    simp [Turn.visit, hnone] at hvisit
  obtain ⟨hvalid, rows, htable⟩ := hok
  obtain ⟨w, hw, hserves⟩ := Turn.visit_serves htoken hsound hvalid htable
  have : w = v := some.inj (hw.symm.trans hvisit)
  exact this ▸ hserves

section steps
variable {turn : Turn} {rest : List Turn} {token : Option String} {v : Visit} {next : String}

theorem walk_failed (h : turn.visit lib collate token = none) :
    walk lib collate token (turn :: rest) = walk lib collate token rest := by
  simp [walk, h]

theorem walk_last (h : turn.visit lib collate token = some v) (hnext : v.next = none) :
    walk lib collate token (turn :: rest) = [v] := by
  simp [walk, h, hnext]

theorem walk_next (h : turn.visit lib collate token = some v) (hnext : v.next = some next) :
    walk lib collate token (turn :: rest) = v :: walk lib collate (some next) rest := by
  simp [walk, h, hnext]

end steps

/-- A walk through the pages is a keyset walk over the rows its requests meet. -/
theorem walk_isWalk {token : Option String} {turns : List Turn}
    (htoken : Token lib collate token after) (hsound : ∀ turn ∈ turns, turn.Sound lib collate) :
    Keyset.Walk (Store.place collate) after (walk lib collate token turns) := by
  induction turns generalizing token after with
  | nil => trivial
  | cons turn turns ih =>
    have hrest : ∀ turn ∈ turns, turn.Sound lib collate := fun u hu => hsound u (by simp [hu])
    cases hvisit : turn.visit lib collate token with
    | none =>
      rw [walk_failed hvisit]
      exact ih htoken hrest
    | some v =>
      have hserves := Turn.serves_of_visit htoken (hsound turn (by simp)) hvisit
      cases hnext : v.next with
      | none =>
        rw [walk_last hvisit hnext]
        exact ⟨hserves.reads, fun _ => rfl, by simp [hnext]⟩
      | some next =>
        have htoken' := hserves.token (by simp [hnext])
        rw [hnext] at htoken'
        rw [walk_next hvisit hnext]
        exact ⟨hserves.reads, by simp [hnext], fun _ => ih htoken' hrest⟩

theorem rows_of_mem_walk {token : Option String} {turns : List Turn} {v : Visit}
    (hv : v ∈ walk lib collate token turns) : ∃ turn ∈ turns, v.rows = turn.rows := by
  induction turns generalizing token with
  | nil => simp [walk] at hv
  | cons turn turns ih =>
    have later : ∀ token, v ∈ walk lib collate token turns →
        ∃ u ∈ turn :: turns, v.rows = u.rows := by
      intro token hv
      obtain ⟨u, hu, heq⟩ := ih hv
      exact ⟨u, by simp [hu], heq⟩
    cases hvisit : turn.visit lib collate token with
    | none =>
      rw [walk_failed hvisit] at hv
      exact later token hv
    | some w =>
      have hw : w.rows = turn.rows := by
        obtain ⟨out, -, rfl⟩ := map_eq_some_iff.mp hvisit
        rfl
      cases hnext : w.next with
      | none =>
        rw [walk_last hvisit hnext, mem_singleton] at hv
        exact ⟨turn, by simp, hv ▸ hw⟩
      | some next =>
        rw [walk_next hvisit hnext, mem_cons] at hv
        obtain rfl | hv := hv
        · exact ⟨turn, by simp, hw⟩
        · exact later _ hv

def Fixed (turns : List Turn) : Prop :=
  ∀ a ∈ turns, ∀ b ∈ turns, ∀ t ∈ a.rows, ∀ u ∈ b.rows, t.id = u.id → t.createdAt = u.createdAt

theorem place_eq_of_id_eq {turns : List Turn} (hfixed : Fixed turns) {token : Option String}
    {v w : Visit} (hv : v ∈ walk lib collate token turns)
    (hw : w ∈ walk lib collate token turns) {t u : Task} (ht : t ∈ v.rows) (hu : u ∈ w.rows)
    (hid : t.id = u.id) : Store.place collate t = Store.place collate u := by
  obtain ⟨a, ha, hva⟩ := rows_of_mem_walk hv
  obtain ⟨b, hb, hwb⟩ := rows_of_mem_walk hw
  have htime := hfixed a ha b hb t (hva ▸ ht) u (hwb ▸ hu) hid
  simp [Store.place, Store.position, cursorAfter, htime, hid]

section rows
variable {turns : List Turn} (hsound : ∀ turn ∈ turns, turn.Sound lib collate)
  (hfixed : Fixed turns)
include hsound

theorem exists_row_of_item {t : Task}
    (ht : t ∈ (walk lib collate none turns).flatMap (·.items)) :
    ∃ v ∈ walk lib collate none turns, t ∈ v.rows := by
  obtain ⟨v, hv, hitem⟩ := mem_flatMap.mp ht
  obtain ⟨start, hreads⟩ := (walk_isWalk .start hsound).reads hv
  exact ⟨v, hv, (hreads.mem hitem).1⟩

include hfixed

theorem walk_ids_nodup : (((walk lib collate none turns).flatMap (·.items)).map Task.id).Nodup := by
  apply pairwise_map.mpr
  apply (walk_isWalk .start hsound).falls.imp_of_mem
  intro t u ht hu hlt hid
  obtain ⟨v, hv, htv⟩ := exists_row_of_item hsound ht
  obtain ⟨w, hw, huw⟩ := exists_row_of_item hsound hu
  rw [place_eq_of_id_eq hfixed hv hw htv huw hid] at hlt
  exact lt_irrefl _ hlt

theorem walk_complete (hended : Ended (walk lib collate none turns)) {id : String}
    (hexists : ∀ v ∈ walk lib collate none turns, ∃ t ∈ v.rows, t.id = id) :
    id ∈ ((walk lib collate none turns).flatMap (·.items)).map Task.id := by
  have hwalk : Keyset.Walk (Store.place collate) none (walk lib collate none turns) :=
    walk_isWalk .start hsound
  obtain ⟨l, hl, hnone⟩ := hended
  have hlast := List.mem_of_getLast? hl
  obtain ⟨t, ht, hid⟩ := hexists l hlast
  have hplace : ∀ v ∈ walk lib collate none turns, ∀ r ∈ v.rows, r.id = id →
      Store.place collate r = Store.place collate t :=
    fun v hv r hr hrid => place_eq_of_id_eq hfixed hv hlast hr ht (hrid.trans hid.symm)
  have hrows : ∀ v ∈ walk lib collate none turns, ∃ r ∈ v.rows,
      Store.place collate r = Store.place collate t := by
    intro v hv
    obtain ⟨r, hr, hrid⟩ := hexists v hv
    exact ⟨r, hr, hplace v hv r hr hrid⟩
  obtain ⟨v, hv, r, hr, heq⟩ := hwalk.complete ⟨l, hl, hnone⟩ trivial hrows
  -- the row given at this position is the task's own, since positions are unique
  obtain ⟨start, hreads⟩ := hwalk.reads hv
  obtain ⟨u, hu, huid⟩ := hexists v hv
  have hru : r = u := inj_on_of_nodup_map hreads.distinct (hreads.mem hr).1 hu
    (heq.trans (hplace v hv u hu huid).symm)
  exact List.mem_map.mpr ⟨r, mem_flatMap.mpr ⟨v, hv, hr⟩, hru ▸ huid⟩

theorem walk_paginates : Paginates collate (walk lib collate none turns) := by
  have hwalk : Keyset.Walk (Store.place collate) none (walk lib collate none turns) :=
    walk_isWalk .start hsound
  constructor
  case falls => exact hwalk.falls
  case nodup => exact walk_ids_nodup hsound hfixed
  case complete =>
    intro hended id hexists
    exact count_eq_one_of_mem (walk_ids_nodup hsound hfixed)
      (walk_complete hsound hfixed hended hexists)
  case full => exact fun i v hi hlt => hwalk.full hi hlt
  case next_iff =>
    intro i v hi
    have hiff := hwalk.next_iff hi
    simpa [Below] using hiff

end rows

section ends
variable {turns : Nat → Turn}

/-- A walk ends if it ends from the next request on, in both ways it can go on. -/
theorem walk_ends_of_next {token : Option String} {k : Nat}
    (hfailed : (turns k).visit lib collate token = none →
      ∃ n, Ended (walk lib collate token ((List.range' (k + 1) n).map turns)))
    (hnext : ∀ v next, (turns k).visit lib collate token = some v → v.next = some next →
      ∃ n, Ended (walk lib collate (some next) ((List.range' (k + 1) n).map turns))) :
    ∃ n, Ended (walk lib collate token ((List.range' k n).map turns)) := by
  cases hvisit : (turns k).visit lib collate token with
  | none =>
    obtain ⟨n, hended⟩ := hfailed hvisit
    refine ⟨n + 1, ?_⟩
    rw [List.range'_succ, map_cons, walk_failed hvisit]
    exact hended
  | some v =>
    cases hv : v.next with
    | none =>
      refine ⟨1, v, ?_, hv⟩
      rw [List.range'_succ, map_cons, walk_last hvisit hv]
      rfl
    | some next =>
      obtain ⟨n, hended⟩ := hnext v next hvisit hv
      refine ⟨n + 1, ?_⟩
      rw [List.range'_succ, map_cons, walk_next hvisit hv]
      exact hended.cons

variable (hsound : ∀ n, (turns n).Sound lib collate) {N : Nat} {rows : List Task}
  (hstill : ∀ n ≥ N, (turns n).ask.Valid ∧ (turns n).table = .ok rows)
include hsound hstill

/-- On a table that does not change, fewer rows are ahead after each page. -/
theorem walk_ends_still {token : Option String} {k : Nat} (htoken : Token lib collate token after)
    (hk : N ≤ k) : ∃ n, Ended (walk lib collate token ((List.range' k n).map turns)) := by
  induction hm : (Keyset.select (Store.place collate) after rows).length
    using Nat.strong_induction_on generalizing token after k with
  | _ m ih =>
    obtain ⟨hvalid, htable⟩ := hstill k hk
    obtain ⟨v, hvisit, hserves⟩ := Turn.visit_serves htoken (hsound k) hvalid htable
    apply walk_ends_of_next
    · intro hnone
      simp [hvisit] at hnone
    · intro w next hw hnext
      have : v = w := some.inj (hvisit.symm.trans hw)
      subst this
      have hsome : v.next.isSome := by simp [hnext]
      have hfewer := hserves.reads.fewer hsome
      have hrows : v.rows = rows := by simp [hserves.rows_eq, Turn.rows, htable]
      rw [hrows] at hfewer
      exact ih _ (by omega) (hnext ▸ hserves.token hsome) (by omega) rfl

theorem walk_ends {token : Option String} {k : Nat} (htoken : Token lib collate token after) :
    ∃ n, Ended (walk lib collate token ((List.range' k n).map turns)) := by
  induction hm : N - k generalizing token after k with
  | zero => exact walk_ends_still hsound hstill htoken (by omega)
  | succ m ih =>
    apply walk_ends_of_next
    · intro _
      exact ih htoken (by omega)
    · intro v next hvisit hnext
      have hserves := Turn.serves_of_visit htoken (hsound k) hvisit
      exact ih (hnext ▸ hserves.token (by simp [hnext])) (by omega)

end ends

/-- Pages through a changing table, for any limits, requests and failures: each walk is as
promised, and on a table that stops changing it ends. -/
theorem keyset_pagination (turns : Nat → Turn) (hsound : ∀ n, (turns n).Sound lib collate)
    (hfixed : ∀ m n, ∀ t ∈ (turns m).rows, ∀ u ∈ (turns n).rows,
      t.id = u.id → t.createdAt = u.createdAt) :
    (∀ n, Paginates collate (walk lib collate none ((List.range n).map turns))) ∧
    ∀ N rows, (∀ n ≥ N, (turns n).ask.Valid ∧ (turns n).table = .ok rows) →
      ∃ n, Ended (walk lib collate none ((List.range n).map turns)) := by
  constructor
  · intro n
    apply walk_paginates
    · intro turn hturn
      obtain ⟨m, -, rfl⟩ := List.mem_map.mp hturn
      exact hsound m
    · intro a ha b hb
      obtain ⟨m, -, rfl⟩ := List.mem_map.mp ha
      obtain ⟨k, -, rfl⟩ := List.mem_map.mp hb
      exact hfixed m k
  · intro N rows hstill
    simp only [List.range_eq_range']
    exact walk_ends hsound hstill .start

end runs

def newer : Task := ⟨"a", "write", false, 1, 2⟩

def older : Task := ⟨"b", "read", false, 1, 1⟩

def deletedAfterPage (n : Nat) : Turn :=
  ⟨.http (some "1"), .ok (if n = 0 then [older, newer] else [older])⟩

def byID : Texts where
  encode := Cursor.id
  decodeCursor text := .ok (if text = "a" then cursorAfter newer else cursorAfter older)
  isPrint c := c < 0x7F

theorem deletedAfterPage_rows (n : Nat) :
    (deletedAfterPage n).rows = [older, newer] ∨ (deletedAfterPage n).rows = [older] := by
  unfold Turn.rows deletedAfterPage
  by_cases h : n = 0 <;> simp [h]

theorem keyset_pagination_deletedAfterPage :
    ((walk byID String.length none ((List.range 2).map deletedAfterPage)).map
        fun v => (v.items, v.next)) = [([newer], some "a"), ([older], none)] ∧
      Paginates String.length (walk byID String.length none
        ((List.range 2).map deletedAfterPage)) := by
  refine ⟨by rfl, (keyset_pagination deletedAfterPage ?_ ?_).1 2⟩
  · intro n
    obtain h | h := deletedAfterPage_rows n
    · exact ⟨by rw [h]; decide, by rw [h]; decide⟩
    · exact ⟨by rw [h]; decide, by rw [h]; decide⟩
  · intro m n
    obtain h | h := deletedAfterPage_rows m <;> obtain h' | h' := deletedAfterPage_rows n <;>
      rw [h, h'] <;> decide

end GolangBasics.Tasks
