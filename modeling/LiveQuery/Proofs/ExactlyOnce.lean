import LiveQuery.Proofs.Table

/-! Incremental delivery from a table that grows at its top. Every row that comes after the
baseline reaches a successful callback once, in the order of the ids, whatever fails in
between. -/

namespace LiveQuery

namespace Table

variable {selects : Entry → Bool} {base t u read : Table} {n top : Int64}
  {e : Entry} {es rest found : List Entry}

/-- The watermark `n` and the rows delivered so far, against what is stored. Below the
watermark only rows of the baseline can be undelivered. -/
structure Caught (selects : Entry → Bool) (base t : Table) (n : Int64) (es : List Entry) :
    Prop where
  grown : base.Grown t
  increasing : es.Pairwise fun a b => a.id < b.id
  below : ∀ e ∈ es, e.id ≤ n
  new : ∀ e ∈ es, e ∈ t.stored ∧ selects e = true ∧ e ∉ base.rows
  origin : n ≤ 0 ∨ ∃ e ∈ t.stored, e.id = n
  old : ∀ e ∈ base.matching selects, e.id ≤ n
  covered : ∀ e ∈ t.matching selects, e ∉ base.rows → e.id ≤ n → e ∈ es

/-- What a tick still has to deliver of a batch, with the greatest id that its snapshot
shows. Rows that come meanwhile are beyond all of the batch. -/
structure Remaining (selects : Entry → Bool) (base t read : Table) (n : Int64)
    (es rest : List Entry) (top : Int64) : Prop where
  increasing : rest.Pairwise fun a b => a.id < b.id
  past : ∀ e ∈ rest, n < e.id
  new : ∀ e ∈ rest, e ∈ t.stored ∧ selects e = true ∧ e ∉ base.rows
  ahead : ∀ e ∈ t.matching selects, n < e.id → e ∈ rest ∨ ∀ x ∈ rest, x.id < e.id
  read : ∀ e ∈ read.matching selects, e ∉ base.rows → e ∈ es ∨ e ∈ rest
  top : top ≤ n ∨ top ≤ 0 ∨ ∃ e ∈ rest, top ≤ e.id

theorem Caught.change (h : Caught selects base t n es) (hc : t.Change u) :
    Caught selects base u n es := by
  refine ⟨h.grown.change hc, h.increasing, h.below, ?_, ?_, h.old, ?_⟩
  · exact fun e he => ⟨hc.stored e (h.new e he).1, (h.new e he).2⟩
  · exact h.origin.imp_right fun ⟨e, he, hn⟩ => ⟨e, hc.stored e he, hn⟩
  · intro x hx hn hl
    cases hc with
    | delete keep => exact h.covered x (matching_delete selects t keep hx) hn hl
    | insert e pos new =>
      rcases matching_insert selects t hx with hx | rfl
      · exact h.covered x hx hn hl
      -- the watermark was the id of a row, and a new row is beyond that
      · rcases h.origin with h0 | ⟨y, hy, rfl⟩
        · grind
        · have := new y hy
          grind

theorem Remaining.change (h : Remaining selects base t read n es rest top) (hc : t.Change u) :
    Remaining selects base u read n es rest top := by
  refine ⟨h.increasing, h.past, ?_, ?_, h.read, h.top⟩
  · exact fun e he => ⟨hc.stored e (h.new e he).1, (h.new e he).2⟩
  · intro x hx hl
    cases hc with
    | delete keep => exact h.ahead x (matching_delete selects t keep hx) hl
    | insert e pos new =>
      rcases matching_insert selects t hx with hx | rfl
      · exact h.ahead x hx hl
      · exact .inr fun y hy => new y (h.new y hy).1

theorem Caught.begin (hle : ∀ e ∈ base.matching selects, e.id ≤ top)
    (hmem : top = 0 ∨ ∃ e ∈ base.matching selects, e.id = top) :
    Caught selects base base top [] where
  grown := .refl base
  increasing := .nil
  below := by simp
  new := by simp
  origin := by
    rcases hmem with rfl | ⟨e, he, rfl⟩
    · exact .inl (by decide)
    · exact .inr ⟨e, base.mem_stored e (mem_rows_of_matching selects he), rfl⟩
  old := hle
  covered e he hn _ := absurd (mem_rows_of_matching selects he) hn

theorem Caught.not_mem_base (h : Caught selects base t n es) (he : e ∈ t.past selects n) :
    e ∉ base.rows := by
  obtain ⟨hm, hn⟩ := (mem_past selects).mp he
  intro hb
  have hs : selects e = true := (List.mem_filter.mp hm).2
  have := h.old e (List.mem_filter.mpr ⟨hb, hs⟩)
  grind

/-- Ids past the watermark differ, so that sorting them leaves no choice. -/
theorem Caught.found_increasing (h : Caught selects base t n es)
    (hp : found.Perm (t.past selects n)) (ho : found.Pairwise fun a b => a.id ≤ b.id) :
    found.Pairwise fun a b => a.id < b.id := by
  have hs : (t.past selects n).Pairwise fun a b => a.id < b.id := by
    have hsub : (t.past selects n).Sublist t.rows :=
      List.filter_sublist.trans List.filter_sublist
    refine (h.grown.ordered.sublist hsub).imp_of_mem ?_
    intro a b _ hb hab
    exact hab.resolve_left (h.not_mem_base hb)
  have hne : found.Pairwise fun a b => a.id ≠ b.id := by
    refine (hp.pairwise_iff fun hab => hab.symm).mpr (hs.imp fun hab => ?_)
    grind
  refine (ho.and hne).imp fun hab => ?_
  grind

theorem Caught.remaining (h : Caught selects base t n es)
    (hp : found.Perm (t.past selects n)) (ho : found.Pairwise fun a b => a.id ≤ b.id)
    (hmem : top = 0 ∨ ∃ e ∈ t.matching selects, e.id = top) :
    Remaining selects base t t n es found top where
  increasing := h.found_increasing hp ho
  past e he := ((mem_past selects).mp (hp.mem_iff.mp he)).2
  new e he := by
    have hm := ((mem_past selects).mp (hp.mem_iff.mp he)).1
    exact ⟨t.mem_stored e (mem_rows_of_matching selects hm), (List.mem_filter.mp hm).2,
      h.not_mem_base (hp.mem_iff.mp he)⟩
  ahead e he hn := .inl (hp.mem_iff.mpr ((mem_past selects).mpr ⟨he, hn⟩))
  read e he hb := by
    by_cases hn : n < e.id
    · exact .inr (hp.mem_iff.mpr ((mem_past selects).mpr ⟨he, hn⟩))
    · exact .inl (h.covered e he hb (by grind))
  top := by
    rcases hmem with rfl | ⟨e, he, rfl⟩
    · exact .inr (.inl (by decide))
    · by_cases hn : n < e.id
      · exact .inr (.inr ⟨e, hp.mem_iff.mpr ((mem_past selects).mpr ⟨he, hn⟩), by grind⟩)
      · exact .inl (by grind)

theorem Caught.deliver (h : Caught selects base t n es)
    (hr : Remaining selects base t read n es (e :: rest) top) :
    Caught selects base t e.id (es ++ [e]) where
  grown := h.grown
  increasing := by
    refine List.pairwise_append.mpr ⟨h.increasing, List.pairwise_singleton _ _, ?_⟩
    intro a ha b hb
    cases List.mem_singleton.mp hb
    have := h.below a ha
    have := hr.past e (by simp)
    grind
  below := by
    intro a ha
    rcases List.mem_append.mp ha with ha | ha
    · have := h.below a ha
      have := hr.past e (by simp)
      grind
    · cases List.mem_singleton.mp ha
      exact Int64.le_refl _
  new := by
    intro a ha
    rcases List.mem_append.mp ha with ha | ha
    · exact h.new a ha
    · cases List.mem_singleton.mp ha
      exact hr.new e (by simp)
  origin := .inr ⟨e, (hr.new e (by simp)).1, rfl⟩
  old a ha := by
    have := h.old a ha
    have := hr.past e (by simp)
    grind
  covered a ha hb hl := by
    by_cases hn : n < a.id
    · rcases hr.ahead a ha hn with hm | hm
      · rcases List.mem_cons.mp hm with rfl | hm
        · simp
        · have := (List.pairwise_cons.mp hr.increasing).1 a hm
          grind
      · have := hm e (by simp)
        grind
    · exact List.mem_append_left _ (h.covered a ha hb (by grind))

theorem Remaining.deliver (hr : Remaining selects base t read n es (e :: rest) top) :
    Remaining selects base t read e.id (es ++ [e]) rest top where
  increasing := (List.pairwise_cons.mp hr.increasing).2
  past := (List.pairwise_cons.mp hr.increasing).1
  new a ha := hr.new a (List.mem_cons_of_mem _ ha)
  ahead a ha hl := by
    have hn := hr.past e (by simp)
    rcases hr.ahead a ha (by grind) with hm | hm
    · rcases List.mem_cons.mp hm with rfl | hm
      · grind
      · exact .inl hm
    · exact .inr fun x hx => hm x (List.mem_cons_of_mem _ hx)
  read a ha hb := by
    rcases hr.read a ha hb with hm | hm
    · exact .inl (List.mem_append_left _ hm)
    · rcases List.mem_cons.mp hm with rfl | hm
      · exact .inl (by simp)
      · exact .inr hm
  top := by
    have hn := hr.past e (by simp)
    rcases hr.top with h | h | ⟨a, ha, h⟩
    · exact .inl (by grind)
    · exact .inr (.inl h)
    · rcases List.mem_cons.mp ha with rfl | ha
      · exact .inl h
      · exact .inr (.inr ⟨a, ha, h⟩)

theorem Caught.quiet (h : Caught selects base t n es)
    (hle : ∀ e ∈ t.matching selects, e.id ≤ top) (htop : top ≤ n ∨ top ≤ 0) :
    ∀ e ∈ t.matching selects, e.id ≤ n := by
  intro e he
  by_cases hb : e ∈ base.rows
  · exact h.old e (List.mem_filter.mpr ⟨hb, (List.mem_filter.mp he).2⟩)
  · have hpos := h.grown.pos e (mem_rows_of_matching selects he) hb
    have := hle e he
    grind

end Table

namespace Stage

open Table

variable {selects : Entry → Bool} {ctx : Context} {q : Query} {base : Table}
  {s s' : Stage Table} {es rest : List Entry}

/-- The rows `es` are those whose callbacks have succeeded. -/
structure Faithful (selects : Entry → Bool) (q : Query) (base : Table) (s : Stage Table)
    (es : List Entry) : Prop where
  query : s.poller.query = q
  shown : List.Forall₂ Entry.Shows es s.delivered
  caught : Caught selects base s.world s.poller.watermark es
  recorded : ∀ l, s.poller.detector.last = some l →
    l.maxRowId ≤ s.poller.watermark ∨ l.maxRowId ≤ 0
  pending : ∀ b, s.poller.pending = some b → ∃ rest, List.Forall₂ Entry.Shows rest b.rows ∧
    Remaining selects base s.world s.read s.poller.watermark es rest b.snapshot.maxRowId
  complete : s.ended = some .unchanged ∨ s.ended = some .delivered →
    ∀ e ∈ s.read.matching selects, e ∉ base.rows → e ∈ es
  quiet : s.ended = some .unchanged →
    ∀ e ∈ s.read.matching selects, e.id ≤ s.poller.watermark

theorem Faithful.begin {p : IncrementalPoller} {t : Table}
    (h : (IncrementalPoller.start ctx q).run.Ends (answers selects ctx q) base (.ok p) t) :
    Faithful selects q base (Stage.begin t p) [] := by
  obtain ⟨c, hc, rfl⟩ := IncrementalPoller.ends_start.mp h
  cases ends_answers hc
  obtain ⟨hle, hmem⟩ := le_of_capture hc
  refine ⟨rfl, .nil, .begin hle hmem, ?_, ?_, ?_, ?_⟩ <;> simp [Stage.begin]

theorem Faithful.receive {t read : Table} {p : IncrementalPoller} {b : Batch}
    {delivered : List NewRow} (hq : p.query = q)
    (hs : List.Forall₂ Entry.Shows es delivered) (hc : Caught selects base t p.watermark es)
    (hl : ∀ l, p.detector.last = some l → l.maxRowId ≤ p.watermark ∨ l.maxRowId ≤ 0)
    (hb : List.Forall₂ Entry.Shows rest b.rows)
    (hr : Remaining selects base t read p.watermark es rest b.snapshot.maxRowId) :
    Faithful selects q base
      ⟨t, p.receive b, read, delivered, if b.rows.isEmpty then some .delivered else none⟩ es := by
  obtain ⟨snapshot, rows⟩ := b
  cases hb with
  | nil =>
    refine ⟨hq, hs, hc, ?_, ?_, ?_, ?_⟩ <;>
      simp only [IncrementalPoller.receive, List.isEmpty_nil, if_true, Detector.record]
    · rintro l ⟨⟩
      rcases hr.top with h | h | ⟨e, he, _⟩
      · exact .inl h
      · exact .inr h
      · exact absurd he (by simp)
    · simp
    · intro _ e he hn
      exact (hr.read e he hn).resolve_right (by simp)
    · simp
  | cons h hb =>
    refine ⟨hq, hs, hc, hl, ?_, ?_, ?_⟩ <;>
      simp only [IncrementalPoller.receive, List.isEmpty_cons]
    · rintro b ⟨⟩
      exact ⟨_, .cons h hb, hr⟩
    · simp
    · simp

theorem Faithful.drift {t : Table} (h : Faithful selects q base s es) (hc : s.world.Change t) :
    Faithful selects q base { s with world := t } es := by
  refine ⟨h.query, h.shown, h.caught.change hc, h.recorded, ?_, h.complete, h.quiet⟩
  intro b hb
  obtain ⟨rest, hs, hr⟩ := h.pending b hb
  exact ⟨rest, hs, hr.change hc⟩

theorem Faithful.poll {t : Table} {r : Except QueryError (Option Batch)}
    (h : Faithful selects q base s es) (idle : s.poller.pending = none)
    (hf : (s.poller.fetch ctx).run.Ends (answers selects ctx q) s.world r t) :
    Faithful selects q base (s.polled t r) es := by
  cases ends_answers hf
  rcases r with e | _ | b
  · refine ⟨h.query, h.shown, h.caught, h.recorded, ?_, ?_, ?_⟩ <;>
      simp [polled, IncrementalPoller.take, endingOf, idle]
  · obtain ⟨c, hc, hsame⟩ := IncrementalPoller.ends_fetch_none.mp hf
    rw [h.query] at hc
    have hlast : s.poller.detector.last = some c := by
      simpa [Detector.hasChanged] using hsame
    -- the snapshot is the one recorded, whose greatest id the watermark has reached
    have hquiet := h.caught.quiet (le_of_capture hc).1 (h.recorded c hlast)
    refine ⟨h.query, h.shown, h.caught, h.recorded, ?_, ?_, ?_⟩
    · simp [polled, IncrementalPoller.take, idle]
    · exact fun _ e he hn => h.caught.covered e he hn (hquiet e he)
    · exact fun _ => hquiet
  · obtain ⟨hc, found, hp, ho, hb⟩ := found_of_fetch h.query hf
    exact .receive h.query h.shown h.caught h.recorded hb
      (h.caught.remaining hp ho (le_of_capture hc).2)

theorem Faithful.settle {snapshot : Snapshot} {r : NewRow} {rows : List NewRow}
    (h : Faithful selects q base s es) (accepted : Bool)
    (hp : s.poller.pending = some ⟨snapshot, r :: rows⟩) :
    ∃ es', Faithful selects q base (s.settled accepted r rows) es' := by
  obtain ⟨rest, hs, hr⟩ := h.pending _ hp
  cases hs with
  | @cons e _ rest _ he hs =>
    cases accepted with
    | false =>
      refine ⟨es, ?_, h.shown, ?_, ?_, ?_, ?_, ?_⟩ <;>
        simp only [settled, IncrementalPoller.settle, hp, endingAfter]
      · exact h.query
      · exact h.caught
      · exact h.recorded
      · simp
      · simp
      · simp
    | true =>
      have hw : IncrementalPoller.advance r.id s.poller.watermark = e.id := by
        rw [he.1]
        exact IncrementalPoller.advance_of_lt (hr.past e (by simp))
      refine ⟨es ++ [e], ?_⟩
      simp only [settled, IncrementalPoller.settle, hp, endingAfter, if_true, hw]
      refine Faithful.receive h.query ?_ (h.caught.deliver hr) ?_ hs hr.deliver
      · exact List.rel_append h.shown (.cons he .nil)
      · intro l hl
        have := hr.past e (by simp)
        rcases h.recorded l hl with hle | hle
        · exact .inl (by simp only; grind)
        · exact .inr hle

theorem Faithful.step (h : Faithful selects q base s es)
    (hs : Step ctx (answers selects ctx q) Change s s') :
    ∃ es', Faithful selects q base s' es' := by
  cases hs with
  | drift hc => exact ⟨es, h.drift hc⟩
  | poll idle hf => exact ⟨es, h.poll idle hf⟩
  | settle accepted hp => exact h.settle accepted hp

theorem Reached.faithful (h : Reached ctx (answers selects ctx q) Change q base s) :
    ∃ es, Faithful selects q base s es := by
  obtain ⟨t, p, hp, hrun⟩ := h
  induction hrun with
  | refl => exact ⟨[], .begin hp⟩
  | tail _ hs ih =>
    obtain ⟨es, he⟩ := ih
    exact he.step hs

/-- The rows delivered are rows stored after the baseline, with ids that increase over the
whole run. After every tick that ends well, all such rows that it found stored have been
delivered. A tick that sees no change has found nothing past the watermark. -/
theorem delivered_exactly_once (h : Reached ctx (answers selects ctx q) Change q base s) :
    (∃ es : List Entry, List.Forall₂ Entry.Shows es s.delivered ∧
      es.Pairwise (fun a b => a.id < b.id) ∧
      ∀ e ∈ es, e ∈ s.world.stored ∧ selects e = true ∧ e ∉ base.rows) ∧
    (s.ended = some .unchanged ∨ s.ended = some .delivered →
      ∀ e ∈ s.read.matching selects, e ∉ base.rows → ∃ n ∈ s.delivered, e.Shows n) ∧
    (s.ended = some .unchanged →
      ∀ e ∈ s.read.matching selects, e.id ≤ s.poller.watermark) := by
  obtain ⟨es, hf⟩ := h.faithful
  refine ⟨⟨es, hf.shown, hf.caught.increasing, hf.caught.new⟩, ?_, hf.quiet⟩
  intro hended e he hn
  have hm := hf.complete hended e he hn
  obtain ⟨i, hi, rfl⟩ := List.getElem_of_mem hm
  have hlen := hf.shown.length_eq
  exact ⟨_, List.getElem_mem (hlen ▸ hi), hf.shown.get hi _⟩

theorem delivered_exactly_once_first_row :
    let q : Query := { table := "t" }
    let base : Table := ⟨[], [], by simp⟩
    let e : Entry := ⟨7, .ofColumns [("id", .integer 7)]⟩
    ∃ s, Reached {} (answers (fun _ => true) {} q) Change q base s ∧
      s.ended = some .delivered ∧ s.read.rows = [e] ∧ ∃ n ∈ s.delivered, e.Shows n := by
  intro q base e
  let t := base.insert e
  let selects : Entry → Bool := fun _ => true
  have hbase : ((({} : Context).capture q).run.Ends (answers selects {} q) base
      (.ok ⟨0, 0, ""⟩) base) :=
    Context.ends_capture.mpr ⟨"", base, _, ⟨rfl, rfl⟩, ⟨rfl, replies_fingerprint true
      (r := .ofColumns [("row_count", .integer 0), ("max_id", .null)]) ⟨rfl, _, rfl, rfl⟩⟩, rfl⟩
  have hmax : IsMaximum (t.matching selects) (.integer 7) :=
    ⟨⟨e, List.mem_singleton.mpr rfl, rfl⟩, fun x hx => by cases List.mem_singleton.mp hx; decide⟩
  have hnew : ((({} : Context).capture q).run.Ends (answers selects {} q) t
      (.ok ⟨1, 7, ""⟩) t) :=
    Context.ends_capture.mpr ⟨"", t, _, ⟨rfl, rfl⟩, ⟨rfl, replies_fingerprint true
      (r := .ofColumns [("row_count", .integer 1), ("max_id", .integer 7)])
        ⟨rfl, _, rfl, hmax⟩⟩, rfl⟩
  let p : IncrementalPoller := { query := q, detector := ⟨some ⟨0, 0, ""⟩⟩, watermark := 0 }
  have hstart : (IncrementalPoller.start {} q).run.Ends (answers selects {} q) base (.ok p) base :=
    IncrementalPoller.ends_start.mpr ⟨_, hbase, rfl⟩
  let r := IncrementalPoller.newRow "id" e.shown
  have hpast : t.past selects 0 = [e] := rfl
  have hfetch : (p.fetch {}).run.Ends (answers selects {} q) t
      (.ok (some ⟨⟨1, 7, ""⟩, [r]⟩)) t :=
    IncrementalPoller.ends_fetch_some.mpr ⟨t, t, [e.shown], [e.shown], hnew, by decide,
      ⟨rfl, replies_incremental false (.of_eq hpast.symm) (List.pairwise_singleton _ _)⟩,
      ⟨rfl, rfl⟩, rfl⟩
  have hrun : Reached {} (answers selects {} q) Change q base
      (((Stage.begin t p).polled t (.ok (some ⟨⟨1, 7, ""⟩, [r]⟩))).settled true r []) := by
    refine ⟨base, p, hstart,
      .tail (.tail (.single (.drift ?_)) (.poll rfl hfetch)) (.settle true rfl)⟩
    exact .insert base e (by decide) (by simp [base])
  refine ⟨_, hrun, rfl, rfl, ?_⟩
  exact (delivered_exactly_once hrun).2.1 (.inr rfl) e (List.mem_singleton.mpr rfl) (by simp [base])

end Stage

namespace Subscription

open Table

variable {selects : Entry → Bool} {q : Query} {base t : Table} {sub : Subscription}
  {events : List Event}

/-- The task of a subscription from its start on, with the table and all events so far. It wakes
up and is cancelled at any time, and the table changes between its wake-ups. -/
inductive Life (selects : Entry → Bool) (q : Query) (base : Table) :
    Subscription → Table → List Event → Prop
  | start {sub : Subscription} {p : IncrementalPoller} {t : Table}
      (h : (IncrementalPoller.start sub.context q).run.Ends (answers selects sub.context q) base
        (.ok p) t)
      (poller : sub.poller = .incremental p) (phase : sub.phase = .fresh) :
      Life selects q base sub t []
  | change {sub : Subscription} {t u : Table} {events : List Event}
      (h : Life selects q base sub t events) (hc : t.Change u) : Life selects q base sub u events
  | cancel {sub : Subscription} {t : Table} {events : List Event}
      (h : Life selects q base sub t events) : Life selects q base sub.cancel t events
  | wake {sub sub' : Subscription} {t u : Table} {events told : List Event} (now : Nat)
      (h : Life selects q base sub t events)
      (hw : (sub.wake now).Ends (answers selects sub.context q) t (sub', told) u) :
      Life selects q base sub' u (events ++ told)

/-- The task stands at a stage of its poller. Its calls are those whose outcomes the stage has
seen, and the one under way. -/
theorem Life.reached (h : Life selects q base sub t events) :
    ∃ s calls, Stage.Reached sub.context (answers selects sub.context q) Change q base s ∧
      s.world = t ∧ sub.At s ∧ s.delivered = (calls.filter Prod.snd).map Prod.fst ∧
      shown (calls ++ sub.calling s.poller) = events.filterMap Event.rowCall? := by
  induction h with
  | @start sub p t h poller phase =>
    obtain ⟨snapshot, -, rfl⟩ := IncrementalPoller.ends_start.mp h
    refine ⟨_, [], ⟨_, _, h, .refl⟩, rfl, ⟨poller, ?_, ?_⟩, rfl, ?_⟩
    · simp [Stage.begin, IncrementalPoller.HoldsRows]
    · simp [Stage.begin, phase]
    · simp [calling, phase, shown]
  | change _ hc ih =>
    obtain ⟨s, calls, ⟨v, p, hp, hrun⟩, rfl, ⟨hpoller, hrows, hbusy⟩, hd, hcalls⟩ := ih
    exact ⟨_, calls, ⟨v, p, hp, hrun.tail (.drift hc)⟩, rfl, ⟨hpoller, hrows, hbusy⟩, hd, hcalls⟩
  | cancel _ ih =>
    obtain ⟨s, calls, hs, hw, ⟨hpoller, hrows, hbusy⟩, hd, hcalls⟩ := ih
    exact ⟨s, calls, hs, hw, ⟨hpoller, hrows, hbusy⟩, hd, hcalls⟩
  | wake now _ hw ih =>
    obtain ⟨s, calls, ⟨v, p, hp, hrun⟩, rfl, hat, hd, hcalls⟩ := ih
    obtain ⟨s', calls', hrun', hworld, hat', hcalls'⟩ := wake_runs hat hw
    refine ⟨s', calls ++ calls', ?_, hworld, hat', ?_, ?_⟩
    · rw [context_wake hw]
      exact ⟨v, p, hp, hrun.trans hrun'.moves⟩
    · rw [hrun'.delivered_eq, hd, List.filter_append, List.map_append]
    · simp only [shown, List.map_append, List.append_assoc, List.filterMap_append] at hcalls hcalls' ⊢
      rw [hcalls', ← List.append_assoc, hcalls]

/-- Over its whole life the task calls back successfully with rows stored after the baseline,
once each and in the order of their ids, and after a tick that has ended well with all of them
that the tick has found stored. -/
theorem Life.delivers_once (h : Life selects q base sub t events) :
    ∃ s calls es, s.world = t ∧ sub.At s ∧
      shown (calls ++ sub.calling s.poller) = events.filterMap Event.rowCall? ∧
      List.Forall₂ Entry.Shows es ((calls.filter Prod.snd).map Prod.fst) ∧
      es.Pairwise (fun a b => a.id < b.id) ∧
      (∀ e ∈ es, e ∈ t.stored ∧ selects e = true ∧ e ∉ base.rows) ∧
      (s.ended = some .unchanged ∨ s.ended = some .delivered →
        ∀ e ∈ s.read.matching selects, e ∉ base.rows → e ∈ es) ∧
      (s.ended = some .unchanged →
        ∀ e ∈ s.read.matching selects, e.id ≤ s.poller.watermark) := by
  obtain ⟨s, calls, hs, rfl, hat, hd, hcalls⟩ := h.reached
  obtain ⟨es, hf⟩ := hs.faithful
  exact ⟨s, calls, es, rfl, hat, hcalls, hd ▸ hf.shown, hf.caught.increasing, hf.caught.new,
    hf.complete, hf.quiet⟩

end Subscription

end LiveQuery
