import GolangBasics.Tasks.Outbox.Statements

/-! The batch a pass selects and the loop that publishes it. -/
namespace GolangBasics.Tasks.Outbox
open Conc Conc.Protocol List

variable {orderly : Bool} {p : Nat} {s s' : State}

/-- `ORDER BY id` of rows with distinct ids. -/
theorem insertionSort_strict {xs : List Pending} (hids : (xs.map Pending.id).Nodup) :
    (xs.insertionSort fun x y => x.id ≤ y.id).Pairwise fun x y => x.id < y.id := by
  have htotal : Std.Total fun x y : Pending => x.id ≤ y.id := ⟨fun x y => Nat.le_total x.id y.id⟩
  have htrans : IsTrans Pending fun x y => x.id ≤ y.id := ⟨fun _ _ _ => Nat.le_trans⟩
  have hsorted := pairwise_insertionSort (fun x y : Pending => x.id ≤ y.id) xs
  have hperm := perm_insertionSort (fun x y : Pending => x.id ≤ y.id) xs
  have hne : (xs.insertionSort fun x y => x.id ≤ y.id).Pairwise fun x y => x.id ≠ y.id :=
    pairwise_map.mp ((hperm.map Pending.id).nodup_iff.mpr hids)
  exact (hsorted.and hne).imp fun h => lt_of_le_of_ne h.1 h.2

variable {rows : List Row}

theorem dueIds_nodup (hids : (rows.map fun r => r.id).Nodup) (f : Row → Bool) :
    (((rows.filter f).map Row.toPending).map Pending.id).Nodup := by
  rw [map_map]
  exact hids.sublist (filter_sublist.map _)

theorem selectRows_sorted (hids : (rows.map fun r => r.id).Nodup) (limit maxAttempts now : Nat)
    (locked : List Nat) :
    (selectRows rows limit maxAttempts now locked).Pairwise fun x y => x.id < y.id :=
  (insertionSort_strict (dueIds_nodup hids _)).sublist (take_sublist _ _)

variable {x : Pending}

theorem mem_selectRows {limit maxAttempts now : Nat} {locked : List Nat}
    (hx : x ∈ selectRows rows limit maxAttempts now locked) :
    ∃ r ∈ rows, r.toPending = x ∧ r.due maxAttempts now := by
  have hx := mem_of_mem_take hx
  rw [mem_insertionSort] at hx
  obtain ⟨r, hr, rfl⟩ := mem_map.mp hx
  obtain ⟨hr, hdue⟩ := mem_filter.mp hr
  exact ⟨r, hr, rfl, (Bool.and_eq_true_iff.mp hdue).1⟩

/-- A row that is due comes before every row of the batch with a larger id. -/
theorem mem_selectRows_of_lt (hids : (rows.map fun r => r.id).Nodup) {limit maxAttempts now : Nat}
    {r : Row} (hr : r ∈ rows) (hdue : r.due maxAttempts now)
    (hx : x ∈ selectRows rows limit maxAttempts now []) (hlt : r.id < x.id) :
    r.toPending ∈ selectRows rows limit maxAttempts now [] := by
  unfold selectRows at hx ⊢
  have hsorted := insertionSort_strict
    (dueIds_nodup hids fun r => r.due maxAttempts now && r.id ∉ ([] : List Nat))
  have hmem : r.toPending ∈ ((rows.filter fun r => r.due maxAttempts now &&
      r.id ∉ ([] : List Nat)).map Row.toPending).insertionSort fun x y => x.id ≤ y.id := by
    rw [mem_insertionSort]
    exact mem_map_of_mem (mem_filter.mpr ⟨hr, by simp [hdue]⟩)
  rw [← take_append_drop limit (List.insertionSort _ _)] at hmem hsorted
  rcases mem_append.mp hmem with h | h
  · exact h
  · have := (pairwise_append.mp hsorted).2.2 x hx _ h
    omega

variable {done : List Nat}

theorem hasAcked_acked {id : Nat} (h : HasAcked p done s) :
    HasAcked p (done ++ [id]) { s with log := ⟨p, id, none⟩ :: s.log } := by
  intro id'
  rw [mem_append, ← h id', mem_singleton]
  constructor
  · rintro ⟨y, hy, hpass, hrow, ha⟩
    rcases mem_cons.mp hy with rfl | hy
    · exact .inr hrow.symm
    · exact .inl ⟨y, hy, hpass, hrow, ha⟩
  · rintro (h | rfl)
    · exact h.mono (subset_cons_self _ _)
    · exact ⟨_, mem_cons_self, rfl, rfl, rfl⟩

theorem hasAcked_refused {id : Nat} {err : Err} (h : HasAcked p done s) :
    HasAcked p done { s with log := ⟨p, id, some err⟩ :: s.log } := by
  intro id'
  rw [← h id']
  constructor
  · rintro ⟨y, hy, hpass, hrow, ha⟩
    rcases mem_cons.mp hy with rfl | hy
    · simp [Sent.acked] at ha
    · exact ⟨y, hy, hpass, hrow, ha⟩
  · exact fun h => h.mono (subset_cons_self _ _)

variable {batch : List Pending}

theorem leads_sent {result : Option Err} (h : Leads orderly p (x :: batch) s)
    (hsettled : Settled (⟨p, x.id, result⟩ :: s.log) x.id) :
    Leads orderly p batch { s with log := ⟨p, x.id, result⟩ :: s.log } := by
  rcases h with hcrash | ⟨hactive, hlock, hready⟩
  · exact .inl hcrash
  · refine .inr ⟨hactive, hlock, fun z hz => ?_⟩
    obtain ⟨hzin, hrow, hbefore⟩ := hready z (mem_cons_of_mem _ hz)
    refine ⟨hzin, hrow, fun ho a ha htask hlt => ?_⟩
    rcases hbefore ho a ha htask hlt with hdone | ⟨w, hw, hid⟩
    · exact .inl (hdone.mono (subset_cons_self _ _))
    · rcases mem_cons.mp hw with rfl | hw
      · rw [← hid]
        exact .inl hsettled
      · exact .inr ⟨w, hw, hid⟩

theorem pre_send (msg : Kafka.Message) (hinv : Inv orderly s)
    (hsorted : (x :: batch).Pairwise fun x y => x.id < y.id) (hnew : x.id ∉ done)
    (hacked : HasAcked p done s) (hleads : Leads orderly p (x :: batch) s) :
    pre orderly p (.send x.id msg) s := by
  rcases hleads with hcrash | ⟨hactive, hlock, hready⟩
  · exact .inl hcrash
  · obtain ⟨hxin, hrow, hbefore⟩ := hready x mem_cons_self
    refine .inr ⟨hactive, hlock, hrow, fun h => hnew ((hacked x.id).mp h), ?_⟩
    intro ho a ha b hb hbid htask hlt
    obtain rfl : b = x := inj_on_of_nodup_map hinv.1.ids hb hxin hbid
    rcases hbefore ho a ha htask hlt with hdone | ⟨z, hz, hid⟩
    · exact hdone
    · rcases mem_cons.mp hz with rfl | hz
      · omega
      · have := (pairwise_cons.mp hsorted).1 z hz
        omega

theorem stable_rejected (id : Nat) :
    (protocol orderly).Stable p fun s => Rejected s.log id := by
  intro s s' hm h
  obtain ⟨new, hlog, -⟩ := (kept_of_moves hm).log
  rw [hlog]
  exact h.mono (subset_append_right _ _)

def Stopped (p : Nat) (acc : Progress) (s : State) : Prop := HasAcked p acc.done s ∧ Holds p s

theorem stable_stopped (acc : Progress) : (protocol orderly).Stable p (Stopped p acc) :=
  (stable_hasAcked acc.done).and stable_holds

theorem follows_recordFailure (acc : Progress) {id : Nat} {lastError : Bytes}
    {k : Option Err → Pass Progress} (hk : ∀ rep, ∃ pubErr, k rep = .ret { acc with pubErr })
    (hacked : HasAcked p acc.done s) (hholds : Holds p s) :
    (protocol orderly).Follows p (Stopped p) (.ask (.recordFailure id lastError) k) s := by
  refine follows_ask _ (stable_stopped acc) ⟨hacked, hholds⟩ (fun s _ h => h.2) ?_
  rintro _ rep s₁ s₂ - ⟨hacked, hholds⟩ hserve -
  have hquiet := serve_recordFailure hserve
  obtain ⟨pubErr, hrep⟩ := hk rep
  rw [hrep]
  exact follows_ret (stable_stopped _) ⟨hquiet.hasAcked hacked, hquiet.holds hholds⟩

theorem follows_recordRejection (acc : Progress) {id backoff : Nat} {lastError : Bytes}
    {k : Except Err Nat → Pass Progress}
    (herror : ∀ err, ∃ pubErr, k (.error err) = .ret { acc with pubErr })
    (hok : ∀ n s, HasAcked p acc.done s → Leads orderly p batch s →
      (protocol orderly).Follows p (Stopped p) (k (.ok n)) s) (hacked : HasAcked p acc.done s)
    (hleads : Leads orderly p batch s) (hrejected : Rejected s.log id) :
    (protocol orderly).Follows p (Stopped p)
      (.ask (.recordRejection id lastError backoff) k) s := by
  refine follows_ask _
    ((stable_hasAcked acc.done).and ((stable_leads batch).and (stable_rejected id)))
    ⟨hacked, hleads, hrejected⟩ (fun s _ h t cs hs => ⟨holds_of_leads h.2.1 t cs hs, h.2.2⟩) ?_
  rintro _ rep s₁ s₂ - ⟨hacked, hleads, -⟩ hserve -
  obtain ⟨hquiet, hactive⟩ := serve_recordRejection hserve
  cases rep with
  | error err =>
    obtain ⟨pubErr, hrep⟩ := herror err
    rw [hrep]
    exact follows_ret (stable_stopped _)
      ⟨hquiet.hasAcked hacked, hquiet.holds (holds_of_leads hleads)⟩
  | ok n =>
    obtain ⟨t, cs, hs⟩ := hactive n rfl
    exact hok n s₂ (hquiet.hasAcked hacked) (hquiet.leads hs hleads)

/-- The publish loop, by induction on the rest of the batch. -/
theorem follows_publishBatch (r : Relay) (batch : List Pending) (acc : Progress)
    (hsorted : batch.Pairwise fun x y => x.id < y.id) (hnew : ∀ x ∈ batch, x.id ∉ acc.done)
    (hacked : HasAcked p acc.done s) (hleads : Leads orderly p batch s) :
    (protocol orderly).Follows p (Stopped p) (r.publishBatch batch acc) s := by
  induction batch generalizing acc s with
  | nil => exact follows_ret (stable_stopped acc) ⟨hacked, holds_of_leads hleads⟩
  | cons x batch ih =>
    have hA : (protocol orderly).Stable p
        fun s => HasAcked p acc.done s ∧ Leads orderly p (x :: batch) s :=
      (stable_hasAcked acc.done).and (stable_leads (x :: batch))
    obtain ⟨hlt, hrest⟩ := pairwise_cons.mp hsorted
    have hfresh : ∀ z ∈ batch, z.id ∉ acc.done := fun z hz => hnew z (mem_cons_of_mem _ hz)
    unfold Relay.publishBatch
    simp only [Relay.publish, Prog.request_bind]
    refine follows_ask _ hA ⟨hacked, hleads⟩ (fun _ _ _ => trivial) ?_
    rintro _ b s₁ s₂ - ⟨hacked, hleads⟩ hserve -
    obtain rfl := serve_ctxErr hserve
    cases b with
    | true => exact follows_ret (stable_stopped acc) ⟨hacked, holds_of_leads hleads⟩
    | false =>
      refine follows_ask _ hA ⟨hacked, hleads⟩ (fun s hinv h => ?_) ?_
      · exact pre_send (r.message x) hinv hsorted (hnew x mem_cons_self) h.1 h.2
      rintro _ result s₁ s₂ - ⟨hacked, hleads⟩ hserve -
      obtain rfl := serve_send hserve
      cases result with
      | none =>
        refine ih ⟨acc.done ++ [x.id], acc.taken + 1, acc.pubErr⟩ hrest (fun z hz hin => ?_)
          (hasAcked_acked hacked) (leads_sent hleads (.inl ⟨_, mem_cons_self, rfl, rfl⟩))
        rcases mem_append.mp hin with hin | hin
        · exact hfresh z hz hin
        · have := hlt z hz
          have := mem_singleton.mp hin
          omega
      | some err =>
        have hacked : HasAcked p acc.done { s₁ with log := ⟨p, x.id, some err⟩ :: s₁.log } :=
          hasAcked_refused hacked
        simp only
        split_ifs with hrej
        · have hrejected : Rejected (⟨p, x.id, some err⟩ :: s₁.log) x.id :=
            ⟨_, mem_cons_self, rfl, by simpa [Sent.rejected] using hrej⟩
          exact follows_recordRejection { acc with taken := acc.taken + 1 }
            (fun _ => ⟨_, rfl⟩) (fun _ _ => ih _ hrest hfresh) hacked
            (leads_sent hleads (.inr hrejected)) hrejected
        · have hholds : Holds p s₁ := holds_of_leads hleads
          refine follows_recordFailure acc (fun rep => ?_) hacked hholds
          cases rep <;> exact ⟨_, rfl⟩

end GolangBasics.Tasks.Outbox
