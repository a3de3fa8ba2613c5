import LiveQuery.Proofs.SnapshotRun

/-! Polling for snapshots never settles on stale rows: what a writer has announced before
a tick that finds nothing changed is known to the subscriber. -/

namespace LiveQuery

namespace Watch

open History

variable {ctx : Context} {reads : History → (r : Request) → r.Reply → Prop} {q : Query}
  {s t : Watch} {snapshot : Snapshot} {rows : List Row} {g h : History}

/-- A snapshot whose token was read in the past `h`. -/
def TakenBefore (snapshot : Snapshot) (h : History) : Prop :=
  ∃ g, g <:+ h ∧ snapshot.revision = (counter g).token

def FoundAt (reads : History → (r : Request) → r.Reply → Prop) (q : Query) (rows : List Row)
    (h : History) : Prop :=
  ∃ found, reads h (.execute q.select q.raw) (.ok found) ∧
    rows.map Row.columns = found.map Row.columns

theorem TakenBefore.mono (hs : TakenBefore snapshot g) (hg : g <:+ h) : TakenBefore snapshot h := by
  obtain ⟨f, hf, ht⟩ := hs
  exact ⟨f, hf.trans hg, ht⟩

/-- The snapshot that was recorded last is no younger than what the subscriber knows, and
one in flight is no younger than the select. -/
structure Sound (reads : History → (r : Request) → r.Reply → Prop) (q : Query) (s : Watch) :
    Prop where
  query : s.poller.query = q
  ordered : Ordered s.history
  recorded : ∀ snapshot, s.poller.detector.last = some snapshot →
    ∃ g, known q s.history = some g ∧ g <:+ s.history ∧ TakenBefore snapshot g
  fetched : ∀ snapshot rows, s.poller.pending = some (snapshot, rows) →
    beforeSelect q s.history <:+ s.history ∧ TakenBefore snapshot (beforeSelect q s.history) ∧
      FoundAt reads q rows (beforeSelect q s.history)
  delivered : ∀ rows, lastRows s.history = some rows →
    ∃ g, known q s.history = some g ∧ FoundAt reads q rows g

theorem sound_begin (q : Query) (needsBaseline : Bool) : (begin q needsBaseline).Sound reads q where
  query := rfl
  ordered := by
    intro g hg n hn
    obtain rfl := List.eq_nil_of_suffix_nil hg
    exact absurd hn List.not_mem_nil
  recorded := by
    intro snapshot hs
    exact absurd hs (by simp [begin])
  fetched := by
    intro snapshot rows hp
    exact absurd hp (by simp [begin])
  delivered := by
    intro rows hr
    exact absurd hr (by simp [begin, lastRows])

/-- What happens in between leaves a watch sound, as long as no other select is asked while
a delivery is in flight. -/
theorem Sound.passes (hs : s.Sound reads q) (hp : Passes s.history h)
    (hsel : s.poller.pending ≠ none → beforeSelect q h = beforeSelect q s.history) :
    Sound reads q { s with history := h } := by
  refine ⟨hs.query, hp.ordered hs.ordered, ?_, ?_, ?_⟩
  · intro snapshot hl
    obtain ⟨g, hk, hg, ht⟩ := hs.recorded snapshot hl
    exact ⟨g, (hp.known_eq q).trans hk, hg.trans hp.suffix, ht⟩
  · intro snapshot rows hf
    rw [hsel (Option.ne_none_iff_exists'.mpr ⟨_, hf⟩)]
    obtain ⟨hg, ht, hr⟩ := hs.fetched snapshot rows hf
    exact ⟨hg.trans hp.suffix, ht, hr⟩
  · intro rows hr
    obtain ⟨g, hk, hf⟩ := hs.delivered rows (hp.lastRows_eq.symm.trans hr)
    exact ⟨g, (hp.known_eq q).trans hk, hf⟩

theorem Sound.write (hs : s.Sound reads q) (hw : Writes s.history h) :
    Sound reads q { s with history := h } :=
  hs.passes (.of_writes (.single hw)) fun _ => beforeSelect_writes (.single hw) q

theorem Sound.prime (hr : ctx.hasRevisions = true) (hs : s.Sound reads q)
    (idle : s.poller.pending = none)
    (hc : (ctx.capture q).run.Ends (answers reads) s.history (.ok snapshot) h) :
    Sound reads q ⟨s.poller.primed (.ok snapshot), .primed :: h⟩ := by
  obtain ⟨-, hsuf, htoken⟩ := revision_of_capture hr hc
  refine ⟨hs.query, ((passes_of_ends hc).ordered hs.ordered).cons (by simp), ?_, ?_, ?_⟩
  · intro last hl
    cases hl
    exact ⟨beforeRevision h, rfl, hsuf.trans (List.suffix_cons _ _), _, List.suffix_refl _, htoken⟩
  · intro _ _ hf
    exact absurd (idle.symm.trans hf) (by simp)
  · intro _ hl
    exact absurd hl (by simp [lastRows])

theorem Sound.fetch {force : Bool} (hr : ctx.hasRevisions = true) (hs : s.Sound reads q)
    (hf : (s.poller.fetch ctx force).run.Ends (answers reads) s.history
      (.ok (some (snapshot, rows))) h) :
    Sound reads q ⟨s.poller.take (.ok (some (snapshot, rows))), h⟩ := by
  have hp := passes_of_ends hf
  obtain ⟨u, hc, -, hall⟩ := SnapshotPoller.ends_fetch_some.mp hf
  rw [hs.query] at hc hall
  obtain ⟨-, hsuf, htoken⟩ := revision_of_capture hr hc
  obtain ⟨hu, hsel, hfound⟩ := select_of_fetchAll hall
  refine ⟨hs.query, hp.ordered hs.ordered, ?_, ?_, ?_⟩
  · intro last hl
    obtain ⟨g, hk, hg, ht⟩ := hs.recorded last hl
    exact ⟨g, (hp.known_eq q).trans hk, hg.trans hp.suffix, ht⟩
  -- the snapshot in flight was taken before the select
  · intro _ _ he
    cases he
    exact ⟨hsel, ⟨_, hsuf.trans hu.suffix, htoken⟩, hfound⟩
  · intro last hl
    obtain ⟨g, hk, hf⟩ := hs.delivered last (hp.lastRows_eq.symm.trans hl)
    exact ⟨g, (hp.known_eq q).trans hk, hf⟩

theorem Sound.poll {force : Bool} {p : SnapshotPoller} (hr : ctx.hasRevisions = true)
    (hs : s.Sound reads q) (idle : s.poller.pending = none)
    (hp : (s.poller.poll ctx force).Ends (answers reads) s.history p h) :
    Sound reads q ⟨p, if s.poller.needsBaseline && !p.needsBaseline then .primed :: h else h⟩ := by
  have hpass := passes_of_ends hp
  have hquiet : Sound reads q ⟨s.poller, h⟩ := hs.passes hpass fun hne => absurd idle hne
  cases hb : s.poller.needsBaseline with
  | true =>
    rw [SnapshotPoller.poll_of_needsBaseline hb, Dialogue.ends_map, hs.query] at hp
    obtain ⟨e | snapshot, hc, rfl⟩ := hp
    · simpa [SnapshotPoller.primed, hb] using hquiet
    · exact hs.prime hr idle hc
  | false =>
    rw [SnapshotPoller.poll_of_baseline hb, Dialogue.ends_map] at hp
    obtain ⟨e | _ | ⟨snapshot, rows⟩, hf, rfl⟩ := hp
    · exact hquiet
    · have hidle : s.poller.take (.ok none) = s.poller := by
        simp [SnapshotPoller.take, ← idle]
      rw [hidle]
      exact hquiet
    · exact hs.fetch hr hf

theorem Sound.settle (hs : s.Sound reads q) (accepted : Bool)
    (hp : s.poller.pending = some (snapshot, rows)) :
    Sound reads q ⟨s.poller.settle accepted,
      (if accepted then .accepted rows else .refused) :: s.history⟩ := by
  obtain ⟨hsel, htaken, hfound⟩ := hs.fetched snapshot rows hp
  have hset : s.poller.settle accepted =
      { s.poller with
        detector := if accepted then s.poller.detector.record snapshot else s.poller.detector
        pending := none } := by simp [SnapshotPoller.settle, hp]
  rw [hset]
  cases accepted with
  | true =>
    refine ⟨hs.query, hs.ordered.cons (by simp), ?_, by simp, ?_⟩
    · intro last hl
      cases hl
      exact ⟨_, rfl, hsel.trans (List.suffix_cons _ _), htaken⟩
    · intro last hl
      cases hl
      exact ⟨_, rfl, hfound⟩
  | false =>
    refine ⟨hs.query, hs.ordered.cons (by simp), ?_, by simp, hs.delivered⟩
    intro last hl
    obtain ⟨g, hk, hg, ht⟩ := hs.recorded last hl
    exact ⟨g, hk, hg.trans (List.suffix_cons _ _), ht⟩

theorem Sound.step (hr : ctx.hasRevisions = true) (hs : s.Sound reads q)
    (hst : Step ctx reads s t) : t.Sound reads q := by
  cases hst with
  | write hw => exact hs.write hw
  | poll force idle hp => exact hs.poll hr idle hp
  | settle accepted hp => exact hs.settle accepted hp

theorem Reached.sound (hr : ctx.hasRevisions = true) (h : Reached ctx reads q s) :
    s.Sound reads q := by
  obtain ⟨needsBaseline, hrun⟩ := h
  induction hrun with
  | refl => exact sound_begin q needsBaseline
  | tail _ hst ih => exact ih.step hr hst

/-- A tick that finds nothing changed has missed nothing: each write announced before its
revision read was made before the subscriber's knowledge was read, and the rows last
delivered are what the select found then. -/
theorem unchanged_knows_announced {force : Bool} (hr : ctx.hasRevisions = true)
    (hs : Reached ctx reads q s)
    (hf : (s.poller.fetch ctx force).run.Ends (answers reads) s.history (.ok none) h)
    (hn : bumps h < 2 ^ 64) :
    ∃ g, known q h = some g ∧ g <:+ s.history ∧
      (∀ n, .bumped n ∈ beforeRevision h → .written n ∈ g) ∧
      ∀ rows, lastRows h = some rows → FoundAt reads q rows g := by
  have hsound := hs.sound hr
  have hp := passes_of_ends hf
  obtain ⟨snapshot, hc, -, hl⟩ := SnapshotPoller.ends_fetch_none.mp hf
  rw [hsound.query] at hc
  obtain ⟨hread, hsuf, htoken⟩ := revision_of_capture hr hc
  obtain ⟨g, hk, hg, f, hfg, hft⟩ := hsound.recorded snapshot hl
  have hfr : f <:+ beforeRevision h := (hfg.trans hg).trans hread.suffix
  -- equal tokens leave no room for an announcement between the two reads
  have hbumps : bumps f = bumps (beforeRevision h) := by
    have hle := bumps_le_of_suffix hsuf
    have hle' := bumps_le_of_suffix hfr
    exact bumps_eq_of_token (by omega) (by omega) (hft.symm.trans htoken)
  refine ⟨g, (hp.known_eq q).trans hk, hg, ?_, ?_⟩
  · intro n hn
    have hb : .bumped n ∈ f := bumped_mem_of_suffix hfr hbumps hn
    have hw : .written n ∈ f := hsound.ordered f (hfg.trans hg) n hb
    exact hfg.sublist.mem hw
  · intro rows hrows
    obtain ⟨g', hk', hfound⟩ := hsound.delivered rows (hp.lastRows_eq.symm.trans hrows)
    rw [hk] at hk'
    cases hk'
    exact hfound

theorem unchanged_knows_announced_first_write :
    ∃ s h, Reached { hasRevisions := true } (fun _ _ _ => True) { table := "t" } s ∧
      (s.poller.fetch { hasRevisions := true } false).run.Ends (answers fun _ _ _ => True)
        s.history (.ok none) h ∧ bumps h < 2 ^ 64 ∧ .bumped 0 ∈ beforeRevision h ∧
      ∃ g, known { table := "t" } h = some g ∧ .written 0 ∈ g := by
  let q : Query := { table := "t" }
  let ctx : Context := { hasRevisions := true }
  let reads : History → (r : Request) → r.Reply → Prop := fun _ _ _ => True
  let announced : History := [.bumped 0, .written 0]
  let snapshot : Snapshot := .ofRows (counter announced).token []
  let counting (h : History) : History :=
    .asked (.execute (q.fingerprint ctx.config.idColumn) true) :: .asked .revision :: h
  let selected : History := .asked (.execute q.select q.raw) :: counting announced
  let p : SnapshotPoller := { query := q, needsBaseline := false }
  let s : Watch := ⟨{ p with detector := ⟨some snapshot⟩ }, .accepted [] :: selected⟩
  have hwrite : Step ctx reads (begin q false) ⟨p, [.written 0]⟩ := .write (.write List.not_mem_nil)
  have hbump : Step ctx reads ⟨p, [.written 0]⟩ ⟨p, announced⟩ := .write (.bump List.mem_cons_self)
  have hpoll : Step ctx reads ⟨p, announced⟩
      ⟨{ p with pending := some (snapshot, []) }, selected⟩ :=
    .poll true rfl ⟨_, _, ⟨_, .refl, rfl, rfl⟩, .ok [], _, ⟨_, .refl, trivial, rfl⟩,
      .ok [], _, ⟨_, .refl, trivial, rfl⟩, rfl, rfl⟩
  have hsettle : Step ctx reads ⟨{ p with pending := some (snapshot, []) }, selected⟩ s :=
    .settle true rfl
  have hs : Reached ctx reads q s :=
    ⟨false, .tail (.tail (.tail (.single hwrite) hbump) hpoll) hsettle⟩
  have hf : (s.poller.fetch ctx false).run.Ends (answers reads) s.history (.ok none)
      (counting s.history) :=
    SnapshotPoller.ends_fetch_none.mpr ⟨snapshot, ⟨_, _, ⟨_, .refl, rfl, rfl⟩,
      .ok [], _, ⟨_, .refl, trivial, rfl⟩, rfl, rfl⟩, rfl, rfl⟩
  have hn : bumps (counting s.history) < 2 ^ 64 := by decide
  have hb : .bumped 0 ∈ beforeRevision (counting s.history) := by
    simp [counting, beforeRevision, s, selected, announced]
  obtain ⟨g, hk, _, hw, _⟩ := unchanged_knows_announced rfl hs hf hn
  exact ⟨s, _, hs, hf, hn, hb, g, hk, hw 0 hb⟩

end Watch

end LiveQuery
