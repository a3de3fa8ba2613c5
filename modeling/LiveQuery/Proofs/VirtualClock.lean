import LiveQuery.Proofs.Schedule
import LiveQuery.Timeline
import Mathlib.Data.List.Nodup

/-! Tasks on the virtual clock. The clock goes from one wake-up to the next and leaves none
out, so that each of its tasks follows a course. -/

namespace LiveQuery

variable {σ : Type} {reply : (r : Request) → σ → r.Reply × σ}

namespace Subscription

variable {s s' : Subscription} {now : Nat} {events : List Event} {world world' : σ}

/-- Whether the task has run, and waits for nothing but instants after `now`. -/
def Waits (now : Nat) (s : Subscription) : Prop :=
  s.phase ≠ .fresh ∧ ∀ w ∈ s.wakeTime?, now < w

theorem Delivered.waits {ds : List Delivery} (h : s.Delivered s' now ds events) : s'.Waits now := by
  rcases h.phase with ⟨hphase, -⟩ | ⟨hphase, -⟩ | ⟨w, accepted, hphase, hw⟩
  · simp [Waits, wakeTime?, hphase]
  · refine ⟨by simp [hphase], fun w hw => ?_⟩
    obtain rfl : now + max 1 s.interval = w := by simpa [wakeTime?, hphase] using hw
    omega
  · simpa [Waits, wakeTime?, hphase] using hw

theorem waits_of_wake (due : s.isDue now = true)
    (h : (s.wake now).run reply world = ((s', events), world')) : s'.Waits now := by
  have hasks (hb : s.phase = .fresh ∨ s.begins = true) : s'.Waits now := by
    rw [wake_of_begins hb] at h
    obtain ⟨p, v, -, hd, -⟩ := Dialogue.ends_bind.mp (Dialogue.ends_run_iff.mpr h)
    exact (delivered rfl hd).waits
  cases hphase : s.phase with
  | fresh => exact hasks (.inl hphase)
  | asleep w =>
    cases hc : s.cancelled with
    | true =>
      rw [wake_of_cancelled hphase hc] at h
      cases h
      simp [Waits, wakeTime?]
    | false => exact hasks (.inr (by simp [begins, hphase, hc]))
  | busy w accepted =>
    rw [wake_of_busy hphase] at h
    cases h
    exact (delivered rfl rfl).waits
  | finished => simp [isDue, hphase] at due

theorem waits_of_not_due (h : s.isDue now = false) : s.Waits now := by
  cases hphase : s.phase <;> simp_all [Waits, wakeTime?, isDue]

end Subscription

/-- Before its task has run. -/
structure Subscription.IsNew (s : Subscription) : Prop where
  phase : s.phase = .fresh
  cancelled : s.cancelled = false
  idle : s.poller.pending = []

namespace Timeline

def eventsOf (name : String) (events : List (String × Event)) : List Event :=
  (events.filter fun e => e.1 = name).map Prod.snd

theorem eventsOf_append (name : String) (es fs : List (String × Event)) :
    eventsOf name (es ++ fs) = eventsOf name es ++ eventsOf name fs := by
  simp [eventsOf]

theorem eventsOf_self (name : String) (es : List Event) : eventsOf name (es.map (name, ·)) = es := by
  simp [eventsOf, List.filter_map, Function.comp_def]

theorem eventsOf_eq_nil {name : String} {es : List (String × Event)} (h : ∀ e ∈ es, e.1 ≠ name) :
    eventsOf name es = [] := by
  simpa [eventsOf] using h

/-- What is known of the tasks when the clock stands at `now`. -/
structure Kept (reply : (r : Request) → σ → r.Reply × σ) (now : Nat) (tasks : List Task)
    (events : List (String × Event)) : Prop where
  names : (tasks.map Task.name).Nodup
  known : ∀ e ∈ events, e.1 ∈ tasks.map Task.name
  follows : ∀ k ∈ tasks, ∃ s began c, s.IsNew ∧
    Relation.ReflTransGen (Course.Step reply) (Course.start began s) c ∧ c.now = now ∧
      c.task = k.subscription ∧ c.events = eventsOf k.name events

variable {now : Nat} {tasks tasks' : List Task} {events events' : List (String × Event)}
  {world world' : σ}

theorem Kept.pass (h : Kept reply now tasks events) (later : Nat) (hle : now ≤ later)
    (hw : ∀ k ∈ tasks, k.subscription.phase ≠ .fresh ∧ ∀ w ∈ k.subscription.wakeTime?, later ≤ w) :
    Kept reply later tasks events := by
  refine ⟨h.names, h.known, fun k hk => ?_⟩
  obtain ⟨s, began, c, hs, hrun, rfl, htask, hevents⟩ := h.follows k hk
  obtain ⟨hran, hdue⟩ := hw k hk
  obtain ⟨n, rfl⟩ := Nat.exists_eq_add_of_le hle
  have hpass : Course.Step reply c { c with now := c.now + n } := .pass n (htask ▸ hran) (htask ▸ hdue)
  exact ⟨s, began, _, hs, hrun.tail hpass, rfl, htask, hevents⟩

theorem wakeAll_spec {now : Nat} {due ran : List Task}
    (h : wakeAll reply now due world = (ran, events, world')) (hnames : (due.map Task.name).Nodup) :
    ran.map Task.name = due.map Task.name ∧ (∀ e ∈ events, e.1 ∈ due.map Task.name) ∧
    ∀ k' ∈ ran, ∃ k ∈ due, k'.name = k.name ∧ ∃ w w' es,
      (k.subscription.wake now).run reply w = ((k'.subscription, es), w') ∧
        eventsOf k.name events = es := by
  induction due generalizing ran events world with
  | nil =>
    cases h
    simp
  | cons k due ih =>
    obtain ⟨hk, hdue⟩ := List.nodup_cons.mp hnames
    simp only [wakeAll] at h
    generalize hwake : (k.subscription.wake now).run reply world = d at h
    obtain ⟨⟨s, es⟩, w⟩ := d
    generalize hrest : wakeAll reply now due w = d at h
    obtain ⟨ran', later, w'⟩ := d
    cases h
    obtain ⟨hran, hlater, hall⟩ := ih hrest hdue
    have hnone : eventsOf k.name later = [] :=
      eventsOf_eq_nil fun e he heq => hk (heq ▸ hlater e he)
    refine ⟨by simp [hran], ?_, ?_⟩
    · intro e he
      rcases List.mem_append.mp he with he | he
      · obtain ⟨_, _, rfl⟩ := List.mem_map.mp he
        exact List.mem_cons_self
      · exact List.mem_cons_of_mem _ (hlater e he)
    · intro k' hk'
      rcases List.mem_cons.mp hk' with rfl | hk'
      · refine ⟨k, List.mem_cons_self, rfl, world, w, es, hwake, ?_⟩
        rw [eventsOf_append, eventsOf_self, hnone, List.append_nil]
      · obtain ⟨k₁, hmem, hname, v, v', es', hwake', hes⟩ := hall k' hk'
        have hne : k.name ≠ k₁.name := fun heq => hk (heq ▸ List.mem_map_of_mem hmem)
        refine ⟨k₁, List.mem_cons_of_mem _ hmem, hname, v, v', es', hwake', ?_⟩
        rw [eventsOf_append, eventsOf_eq_nil (by simpa using fun _ _ => hne), List.nil_append, hes]

theorem settle_spec {t : Timeline σ} (h : Kept reply t.now t.tasks t.events) :
    let t' := settle reply t
    t'.now = t.now ∧ Kept reply t.now t'.tasks t'.events ∧
      ∀ k ∈ t'.tasks, k.subscription.Waits t.now := by
  let isDue (k : Task) : Bool := k.subscription.isDue t.now
  generalize hran : wakeAll reply t.now (t.tasks.filter isDue) t.world = d
  obtain ⟨ran, later, world⟩ := d
  have hsettle : settle reply t = { t with
      tasks := t.tasks.filter (fun k => !isDue k) ++ ran
      world := world
      events := t.events ++ later } := by
    rw [settle, List.partition_eq_filter_filter]
    simp only [isDue] at hran
    simp only [hran]
    rfl
  have hdue : ((t.tasks.filter isDue).map Task.name).Nodup :=
    h.names.sublist (List.filter_sublist.map Task.name)
  obtain ⟨hnames, hlater, hall⟩ := wakeAll_spec hran hdue
  have hperm : ((t.tasks.filter (fun k => !isDue k) ++ ran).map Task.name).Perm
      (t.tasks.map Task.name) := by
    rw [List.map_append, hnames, ← List.map_append]
    exact (List.perm_append_comm.trans (List.filter_append_perm isDue t.tasks)).map Task.name
  have hmem {k : Task} (hk : k ∈ t.tasks.filter isDue) :
      k ∈ t.tasks ∧ k.subscription.isDue t.now = true :=
    List.mem_filter.mp hk
  rw [hsettle]
  refine ⟨rfl, ⟨hperm.nodup_iff.mpr h.names, ?_, ?_⟩, ?_⟩
  · intro e he
    rw [hperm.mem_iff]
    rcases List.mem_append.mp he with he | he
    · exact h.known e he
    · exact List.map_subset Task.name (fun _ hk => (hmem hk).1) (hlater e he)
  · intro k hk
    rcases List.mem_append.mp hk with hk | hk
    · obtain ⟨hk, hnot⟩ := List.mem_filter.mp hk
      obtain ⟨s, began, c, hs, hrun, hnow, htask, hevents⟩ := h.follows k hk
      have hnone : eventsOf k.name later = [] := by
        refine eventsOf_eq_nil fun e he heq => ?_
        obtain ⟨k₁, hk₁, hname⟩ := List.mem_map.mp (hlater e he)
        obtain rfl := List.inj_on_of_nodup_map h.names (hmem hk₁).1 hk (hname.trans heq)
        simp [(hmem hk₁).2, isDue] at hnot
      refine ⟨s, began, c, hs, hrun, hnow, htask, ?_⟩
      rw [eventsOf_append, hnone, List.append_nil, hevents]
    · obtain ⟨k₁, hk₁, hname, w, w', es, hwake, hes⟩ := hall k hk
      obtain ⟨hk₁, hdue⟩ := hmem hk₁
      obtain ⟨s, began, c, hs, hrun, hnow, htask, hevents⟩ := h.follows k₁ hk₁
      rw [← htask, ← hnow] at hwake hdue
      refine ⟨s, began, _, hs, hrun.tail (.wake hdue hwake), hnow, rfl, ?_⟩
      rw [hname, eventsOf_append, hes, ← hevents]
      rfl
  · intro k hk
    rcases List.mem_append.mp hk with hk | hk
    · have hnot := (List.mem_filter.mp hk).2
      exact Subscription.waits_of_not_due (by simpa [isDue] using hnot)
    · obtain ⟨k₁, hk₁, -, w, w', es, hwake, -⟩ := hall k hk
      exact Subscription.waits_of_wake (hmem hk₁).2 hwake

abbrev Instant (now target : Nat) := { n : Nat // now < n ∧ n ≤ target }

def sooner (now target : Nat) (best : Option (Instant now target)) (k : Task) :
    Option (Instant now target) :=
  match k.subscription.wakeTime? with
  | none => best
  | some w =>
    if h : now < w ∧ w ≤ target then
      match best with
      | some b => if w < b.1 then some ⟨w, h⟩ else some b
      | none => some ⟨w, h⟩
    else best

theorem sooner_spec {target : Nat} (best : Option (Instant now target)) (k : Task) :
    (∀ b ∈ best, ∃ n ∈ sooner now target best k, n.1 ≤ b.1) ∧
    ∀ w ∈ k.subscription.wakeTime?, now < w → w ≤ target → ∃ n ∈ sooner now target best k, n.1 ≤ w := by
  unfold sooner
  cases hk : k.subscription.wakeTime? with
  | none => exact ⟨fun b hb => ⟨b, hb, Nat.le_refl _⟩, by simp⟩
  | some w =>
    by_cases h : now < w ∧ w ≤ target
    · have hself : ∀ w' ∈ some w, now < w' → w' ≤ target → w ≤ w' := by simp
      cases best with
      | none =>
        simp only [h, and_self, dite_true]
        exact ⟨by simp, fun w' hw' h₁ h₂ => ⟨_, rfl, hself w' hw' h₁ h₂⟩⟩
      | some b =>
        simp only [h, and_self, dite_true]
        by_cases hlt : w < b.1
        · rw [if_pos hlt]
          refine ⟨fun b' hb' => ⟨_, rfl, ?_⟩, fun w' hw' h₁ h₂ => ⟨_, rfl, hself w' hw' h₁ h₂⟩⟩
          cases hb'
          exact Nat.le_of_lt hlt
        · rw [if_neg hlt]
          refine ⟨fun b' hb' => ⟨b', hb', Nat.le_refl _⟩, fun w' hw' _ _ => ⟨b, rfl, ?_⟩⟩
          cases hw'
          exact Nat.le_of_not_lt hlt
    · refine ⟨fun b hb => ⟨b, by simpa [h] using hb, Nat.le_refl _⟩, ?_⟩
      intro w' hw' h₁ h₂
      cases hw'
      exact absurd ⟨h₁, h₂⟩ h

theorem foldl_sooner_spec {target : Nat} (best : Option (Instant now target)) (tasks : List Task) :
    (∀ b ∈ best, ∃ n ∈ tasks.foldl (sooner now target) best, n.1 ≤ b.1) ∧
    ∀ k ∈ tasks, ∀ w ∈ k.subscription.wakeTime?, now < w → w ≤ target →
      ∃ n ∈ tasks.foldl (sooner now target) best, n.1 ≤ w := by
  induction tasks generalizing best with
  | nil => exact ⟨fun b hb => ⟨b, hb, Nat.le_refl _⟩, by simp⟩
  | cons k tasks ih =>
    obtain ⟨hbest, hk⟩ := sooner_spec best k
    obtain ⟨hnext, hall⟩ := ih (sooner now target best k)
    have hlater {w : Nat} (h : ∃ n ∈ sooner now target best k, n.1 ≤ w) :
        ∃ n ∈ (k :: tasks).foldl (sooner now target) best, n.1 ≤ w := by
      obtain ⟨n, hn, hle⟩ := h
      obtain ⟨m, hm, hle'⟩ := hnext n hn
      exact ⟨m, hm, Nat.le_trans hle' hle⟩
    refine ⟨fun b hb => hlater (hbest b hb), ?_⟩
    intro k' hk' w hw h₁ h₂
    rcases List.mem_cons.mp hk' with rfl | hk'
    · exact hlater (hk w hw h₁ h₂)
    · exact hall k' hk' w hw h₁ h₂

/-- The next instant leaves out no wake-up. -/
theorem nextInstant_spec {target : Nat} {k : Task} {w : Nat} (hk : k ∈ tasks)
    (hw : w ∈ k.subscription.wakeTime?) (hlt : now < w) (hle : w ≤ target) :
    ∃ n ∈ nextInstant now target tasks, n.1 ≤ w :=
  (foldl_sooner_spec none tasks).2 k hk w hw hlt hle

/-- When the clock stops, nothing waits for an instant that it has passed. -/
theorem runUntil_spec (stop : List Task → Bool) (target now : Nat) (t : Timeline σ)
    (h : Kept reply now t.tasks t.events) (hw : ∀ k ∈ t.tasks, k.subscription.Waits now) :
    let t' := runUntil reply stop target now t
    Kept reply t'.now t'.tasks t'.events ∧ (∀ k ∈ t'.tasks, k.subscription.Waits t'.now) ∧
      ((∀ ks, stop ks = false) → t'.now = max now target) := by
  fun_induction runUntil reply stop target now t with
  | case1 now t hstop =>
    refine ⟨h, hw, fun hnever => ?_⟩
    simp [hnever] at hstop
  | case2 now t hstop hnone =>
    have hpast : ∀ k ∈ t.tasks, k.subscription.Waits (max now target) := by
      intro k hk
      refine ⟨(hw k hk).1, fun w hmem => ?_⟩
      have hlt := (hw k hk).2 w hmem
      by_contra hnot
      have hle : w ≤ target := by omega
      obtain ⟨n, hn, -⟩ := nextInstant_spec hk hmem hlt hle
      simp [hnone] at hn
    have hlater := h.pass (max now target) (Nat.le_max_left _ _) fun k hk =>
      ⟨(hpast k hk).1, fun w hmem => Nat.le_of_lt ((hpast k hk).2 w hmem)⟩
    exact ⟨hlater, hpast, fun _ => rfl⟩
  | case3 now t hstop n hn ih =>
    obtain ⟨hlt, hnt⟩ := n.2
    have hdue : ∀ k ∈ t.tasks, k.subscription.phase ≠ .fresh ∧
        ∀ w ∈ k.subscription.wakeTime?, n.1 ≤ w := by
      intro k hk
      refine ⟨(hw k hk).1, fun w hmem => ?_⟩
      by_cases hwt : w ≤ target
      · obtain ⟨m, hm, hle⟩ := nextInstant_spec hk hmem ((hw k hk).2 w hmem) hwt
        rw [hn] at hm
        cases hm
        exact hle
      · omega
    have hthen := h.pass n.1 (Nat.le_of_lt hlt) hdue
    obtain ⟨-, hkept, hwaits⟩ := settle_spec (t := { t with now := n.1 }) hthen
    obtain ⟨hkept, hwaits, hend⟩ := ih hkept hwaits
    exact ⟨hkept, hwaits, fun hnever => (hend hnever).trans (by omega)⟩

variable {t t' : Timeline σ} {name : String}

theorem kept_advance (ms : Nat) (h : Kept reply t.now t.tasks t.events) :
    Kept reply (advance reply ms t).now (advance reply ms t).tasks (advance reply ms t).events := by
  cases ms with
  | zero => exact h
  | succ ms =>
    obtain ⟨-, hkept, hwaits⟩ := settle_spec h
    obtain ⟨hkept, hwaits, hend⟩ := runUntil_spec (fun _ => false) (t.now + ms) t.now _ hkept hwaits
    have hend := hend fun _ => rfl
    refine hkept.pass (t.now + ms + 1) (by omega) fun k hk => ?_
    obtain ⟨hran, hw⟩ := hwaits k hk
    refine ⟨hran, fun w hmem => ?_⟩
    have hlt := hw w hmem
    omega

/-- Tasks may be cancelled, and their handles dropped. -/
theorem kept_map {p : Task → Prop} [DecidablePred p] {f : Task → Task}
    (hname : ∀ k, (f k).name = k.name)
    (hf : ∀ k, (f k).subscription = k.subscription ∨ (f k).subscription = k.subscription.cancel)
    (h : Kept reply now tasks events) :
    Kept reply now (tasks.map fun k => if p k then f k else k) events := by
  have hsame : ∀ k, (if p k then f k else k).name = k.name := by
    intro k
    split
    · exact hname k
    · rfl
  have hnames : (tasks.map fun k => if p k then f k else k).map Task.name = tasks.map Task.name := by
    rw [List.map_map]
    exact List.map_congr_left fun k _ => hsame k
  refine ⟨hnames ▸ h.names, fun e he => hnames ▸ h.known e he, ?_⟩
  intro k' hk'
  obtain ⟨k, hk, rfl⟩ := List.mem_map.mp hk'
  obtain ⟨s, began, c, hs, hrun, hnow, htask, hevents⟩ := h.follows k hk
  rw [hsame]
  by_cases hp : p k
  · rw [if_pos hp]
    rcases hf k with hkeep | hcancel
    · exact ⟨s, began, c, hs, hrun, hnow, htask.trans hkeep.symm, hevents⟩
    · refine ⟨s, began, c.cancel, hs, hrun.tail (.cancel c), hnow, ?_, hevents⟩
      rw [hcancel, ← htask]
      rfl
  · rw [if_neg hp]
    exact ⟨s, began, c, hs, hrun, hnow, htask, hevents⟩

theorem kept_join (name : String) (h : Kept reply t.now t.tasks t.events) :
    Kept reply (join reply name t).now (join reply name t).tasks (join reply name t).events := by
  have hend : Kept reply (awaitEnd reply name t).now (awaitEnd reply name t).tasks
      (awaitEnd reply name t).events := by
    unfold awaitEnd
    split
    · exact h
    · obtain ⟨hnow, hkept, hwaits⟩ := settle_spec h
      rw [← hnow] at hkept hwaits
      exact (runUntil_spec _ _ _ _ hkept hwaits).1
  exact kept_map (fun _ => rfl) (fun _ => .inl rfl) hend

/-- What can be done with a timeline. Other writers change the world in between. -/
inductive Op (reply : (r : Request) → σ → r.Reply × σ) : Timeline σ → Timeline σ → Prop
  | write (t : Timeline σ) (world : σ) : Op reply t { t with world := world }
  | begin {t : Timeline σ} {name : String} {s : Subscription} (new : ∀ k ∈ t.tasks, k.name ≠ name)
      (fresh : s.IsNew) : Op reply t (t.begin name s)
  | cancel (t : Timeline σ) (name : String) : Op reply t (t.cancel name)
  | drop (t : Timeline σ) (name : String) : Op reply t (t.drop name)
  | advance (t : Timeline σ) (ms : Nat) : Op reply t (t.advance reply ms)
  | join (t : Timeline σ) (name : String) : Op reply t (t.join reply name)

theorem kept_begin {s : Subscription} (new : ∀ k ∈ tasks, k.name ≠ name) (fresh : s.IsNew)
    (h : Kept reply now tasks events) :
    Kept reply now (tasks ++ [{ name := name, subscription := s }]) events := by
  have hnone : eventsOf name events = [] := by
    refine eventsOf_eq_nil fun e he heq => ?_
    obtain ⟨k, hk, hname⟩ := List.mem_map.mp (h.known e he)
    exact new k hk (hname.trans heq)
  refine ⟨?_, fun e he => ?_, ?_⟩
  · rw [List.map_append, List.nodup_append]
    refine ⟨h.names, by simp, ?_⟩
    simpa using new
  · rw [List.map_append]
    exact List.mem_append_left _ (h.known e he)
  · intro k hk
    rcases List.mem_append.mp hk with hk | hk
    · exact h.follows k hk
    · obtain rfl := List.mem_singleton.mp hk
      exact ⟨s, now, .start now s, fresh, .refl, rfl, rfl, hnone.symm⟩

theorem kept_op (hop : Op reply t t') (h : Kept reply t.now t.tasks t.events) :
    Kept reply t'.now t'.tasks t'.events := by
  cases hop with
  | write world => exact h
  | @begin name s new fresh =>
    have hold : Kept reply t.now
        (t.tasks.map fun k => if k.name = name then { k with held := false } else k) t.events :=
      kept_map (fun _ => rfl) (fun _ => .inl rfl) h
    refine kept_begin ?_ fresh hold
    intro k' hk'
    obtain ⟨k, hk, rfl⟩ := List.mem_map.mp hk'
    rw [if_neg (new k hk)]
    exact new k hk
  | cancel name => exact kept_map (fun _ => rfl) (fun _ => .inr rfl) h
  | drop name => exact kept_map (fun _ => rfl) (fun _ => .inl rfl) h
  | advance ms => exact kept_advance ms h
  | join name => exact kept_join name h

theorem kept_of_run {world : σ} (h : Relation.ReflTransGen (Op reply) { world := world } t) :
    Kept reply t.now t.tasks t.events := by
  induction h with
  | refl => exact ⟨List.nodup_nil, by simp, by simp⟩
  | tail _ hop ih => exact kept_op hop ih

/-- Whatever is done with a timeline, each of its tasks keeps to the schedule of the subscription
with which it began, and what is told of it is what has happened in its ticks. -/
theorem onSchedule_of_ops {world : σ} (h : Relation.ReflTransGen (Op reply) { world := world } t) :
    ∀ k ∈ t.tasks, ∃ (s : Subscription) (c : Course), s.IsNew ∧
      (0 < s.interval → Course.OnSchedule s c) ∧ c.now = t.now ∧ c.task = k.subscription ∧
      c.events = eventsOf k.name t.events := by
  intro k hk
  obtain ⟨s, began, c, hs, hrun, hnow, htask, hevents⟩ := (kept_of_run h).follows k hk
  refine ⟨s, c, hs, fun hpos => ?_, hnow, htask, hevents⟩
  exact (Course.standing_of_run hpos hs.phase hs.cancelled hs.idle hrun).onSchedule

end Timeline

end LiveQuery
