import LiveQuery.Proofs.Ends
import Mathlib.Algebra.Group.Nat.Defs
import Mathlib.Logic.Relation

/-! What happens around a subscription among writers. Each writer changes the store and
then bumps the counter whose token the snapshots carry. Every call of a collaborator is a
moment of its own, and the writers may act between any two of them. -/

namespace LiveQuery

/-- Writes are told apart by numbers. -/
inductive Happening
  | written (n : Nat)
  | bumped (n : Nat)
  | asked (r : Request)
  | primed
  | accepted (rows : List Row)
  | refused

def Happening.isBump : Happening → Bool
  | bumped _ => true
  | _ => false

def Happening.isOutcome : Happening → Bool
  | primed | accepted _ | refused => true
  | _ => false

/-- What has happened, the latest first. -/
abbrev History := List Happening

namespace History

def bumps (h : History) : Nat := h.countP Happening.isBump

def counter (h : History) : RevisionCounter :=
  h.foldr (fun e c => if e.isBump then c.bump else c) {}

/-- The past of the last revision read. -/
def beforeRevision : History → History
  | .asked .revision :: h => h
  | _ :: h => beforeRevision h
  | [] => []

def beforeSelect (q : Query) : History → History
  | .asked (.execute s _) :: h => if s = q.select then h else beforeSelect q h
  | _ :: h => beforeSelect q h
  | [] => []

/-- The past that the subscriber knows: that of the select of the last delivery that
succeeded or, with none since, that of the baseline. -/
def known (q : Query) : History → Option History
  | .accepted _ :: h => some (beforeSelect q h)
  | .primed :: h => some (beforeRevision h)
  | _ :: h => known q h
  | [] => none

def lastRows : History → Option (List Row)
  | .accepted rows :: _ => some rows
  | .primed :: _ => none
  | _ :: h => lastRows h
  | [] => none

/-- Each write is made once, and only a write that has been made is announced. -/
inductive Writes : History → History → Prop
  | write {h : History} {n : Nat} (new : .written n ∉ h) : Writes h (.written n :: h)
  | bump {h : History} {n : Nat} (made : .written n ∈ h) : Writes h (.bumped n :: h)

inductive Moves : History → History → Prop
  | writes {h g : History} (hw : Writes h g) : Moves h g
  | ask {h : History} (r : Request) : Moves h (.asked r :: h)

abbrev Passes := Relation.ReflTransGen Moves

/-- In every past, what has been announced has been made. -/
def Ordered (h : History) : Prop := ∀ g, g <:+ h → ∀ n, .bumped n ∈ g → .written n ∈ g

theorem counter_value (h : History) : (counter h).value = UInt64.ofNat (bumps h) := by
  induction h with
  | nil => rfl
  | cons e h ih =>
    cases he : e.isBump with
    | false => simpa [counter, bumps, he] using ih
    | true =>
      have hb : bumps (e :: h) = bumps h + 1 := by simp [bumps, he]
      have hc : (counter (e :: h)).value = (counter h).value + 1 := by
        simp [counter, he, RevisionCounter.bump]
      rw [hb, hc, ih, UInt64.ofNat_add]
      rfl

theorem bumps_le_of_suffix {g h : History} (hs : g <:+ h) : bumps g ≤ bumps h :=
  hs.sublist.countP_le

theorem value_of_token {c d : RevisionCounter} (h : c.token = d.token) :
    c.value.toNat = d.value.toNat := by
  have hd := congrArg (fun s => Nat.ofDigitChars 10 s.toList 0) h
  simpa [RevisionCounter.token, Nat.toString_eq_repr, Nat.toList_repr] using hd

/-- Short of an overflow a token tells how many writes have been announced. -/
theorem bumps_eq_of_token {g h : History} (hg : bumps g < 2 ^ 64) (hh : bumps h < 2 ^ 64)
    (ht : (counter g).token = (counter h).token) : bumps g = bumps h := by
  have hv := value_of_token ht
  rw [counter_value, counter_value, UInt64.toNat_ofNat', UInt64.toNat_ofNat',
    Nat.mod_eq_of_lt hg, Nat.mod_eq_of_lt hh] at hv
  exact hv

theorem bumped_mem_of_suffix {g h : History} (hs : g <:+ h) (hb : bumps g = bumps h) {n : Nat}
    (hn : .bumped n ∈ h) : .bumped n ∈ g := by
  obtain ⟨l, rfl⟩ := hs
  have hl : bumps l = 0 := by
    have : bumps (l ++ g) = bumps l + bumps g := List.countP_append
    omega
  rcases List.mem_append.mp hn with hn | hn
  · exact absurd rfl (List.countP_eq_zero.mp hl _ hn)
  · exact hn

theorem Moves.suffix {h g : History} (hm : Moves h g) : h <:+ g := by
  rcases hm with ⟨_ | _⟩ | _
  all_goals exact List.suffix_cons _ _

theorem Moves.known_eq {h g : History} (hm : Moves h g) (q : Query) : known q g = known q h := by
  rcases hm with ⟨_ | _⟩ | _ <;> rfl

theorem Moves.lastRows_eq {h g : History} (hm : Moves h g) : lastRows g = lastRows h := by
  rcases hm with ⟨_ | _⟩ | _ <;> rfl

theorem Ordered.cons {h : History} {e : Happening} (ho : Ordered h)
    (he : ∀ n, e = .bumped n → .written n ∈ h) : Ordered (e :: h) := by
  intro g hg n hn
  rcases List.suffix_cons_iff.mp hg with rfl | hg
  · rcases List.mem_cons.mp hn with hn | hn
    · exact List.mem_cons_of_mem _ (he n hn.symm)
    · exact List.mem_cons_of_mem _ (ho h (List.suffix_refl h) n hn)
  · exact ho g hg n hn

theorem Moves.ordered {h g : History} (hm : Moves h g) (ho : Ordered h) : Ordered g := by
  rcases hm with ⟨_ | made⟩ | _
  · exact ho.cons (by simp)
  · refine ho.cons fun n hn => ?_
    cases hn
    exact made
  · exact ho.cons (by simp)

theorem Passes.suffix {h g : History} (hp : Passes h g) : h <:+ g := by
  induction hp with
  | refl => exact List.suffix_refl h
  | tail _ hm ih => exact ih.trans hm.suffix

theorem Passes.known_eq {h g : History} (hp : Passes h g) (q : Query) :
    known q g = known q h := by
  induction hp with
  | refl => rfl
  | tail _ hm ih => exact (hm.known_eq q).trans ih

theorem Passes.lastRows_eq {h g : History} (hp : Passes h g) : lastRows g = lastRows h := by
  induction hp with
  | refl => rfl
  | tail _ hm ih => exact hm.lastRows_eq.trans ih

theorem Passes.ordered {h g : History} (hp : Passes h g) (ho : Ordered h) : Ordered g := by
  induction hp with
  | refl => exact ho
  | tail _ hm ih => exact hm.ordered ih

theorem Passes.of_writes {h g : History} (hw : Relation.ReflTransGen Writes h g) : Passes h g :=
  Relation.ReflTransGen.mono (fun _ _ => .writes) _ _ hw

theorem beforeSelect_writes {h g : History} (hw : Relation.ReflTransGen Writes h g) (q : Query) :
    beforeSelect q g = beforeSelect q h := by
  induction hw with
  | refl => rfl
  | tail _ hw ih => cases hw <;> exact ih

theorem beforeRevision_writes {h g : History} (hw : Relation.ReflTransGen Writes h g) :
    beforeRevision g = beforeRevision h := by
  induction hw with
  | refl => rfl
  | tail _ hw ih => cases hw <;> exact ih

/-- What the collaborators may reply after `h`: the revision source its token, the others
what `reads` leaves them, errors included. -/
def reply (reads : History → (r : Request) → r.Reply → Prop) (h : History) :
    (r : Request) → r.Reply → Prop
  | .revision, token => token = (counter h).token
  | r, x => reads h r x

/-- Writers may act before each reply. -/
def answers (reads : History → (r : Request) → r.Reply → Prop) : Answers History :=
  fun h r x h' =>
    ∃ g, Relation.ReflTransGen Writes h g ∧ reply reads g r x ∧ h' = .asked r :: g

variable {reads : History → (r : Request) → r.Reply → Prop} {ctx : Context} {q : Query}
  {h h' : History}

theorem passes_of_answers {r : Request} {x : r.Reply} (ha : answers reads h r x h') :
    Passes h h' := by
  obtain ⟨g, hw, _, rfl⟩ := ha
  exact (Passes.of_writes hw).tail (.ask r)

theorem passes_of_ends {α : Type} {d : Dialogue α} {a : α}
    (hd : d.Ends (answers reads) h a h') : Passes h h' := by
  induction d generalizing h with
  | done b =>
    obtain ⟨-, rfl⟩ := hd
    exact .refl
  | ask r next ih =>
    obtain ⟨x, u, hx, hd⟩ := hd
    exact (passes_of_answers hx).trans (ih x hd)

theorem revision_of_capture {s : Snapshot} (hr : ctx.hasRevisions = true)
    (hc : (ctx.capture q).run.Ends (answers reads) h (.ok s) h') :
    Passes h (beforeRevision h') ∧ beforeRevision h' <:+ h' ∧
      s.revision = (counter (beforeRevision h')).token := by
  obtain ⟨token, u, rows, ht, hf, rfl⟩ := Context.ends_capture.mp hc
  rw [Context.ReadsToken, if_pos hr] at ht
  obtain ⟨g, hw, htoken, rfl⟩ := ht
  have hb : beforeRevision h' = g := by
    obtain ⟨g', hw', _, rfl⟩ := hf
    exact beforeRevision_writes hw'
  rw [hb]
  have hs : g <:+ h' :=
    (List.suffix_cons _ g).trans (passes_of_answers hf).suffix
  exact ⟨.of_writes hw, hs, htoken⟩

theorem select_of_fetchAll {rows : List Row}
    (hf : (q.fetchAll ctx).run.Ends (answers reads) h (.ok rows) h') :
    Passes h (beforeSelect q h') ∧ beforeSelect q h' <:+ h' ∧
      ∃ found, reads (beforeSelect q h') (.execute q.select q.raw) (.ok found) ∧
        rows.map Row.columns = found.map Row.columns := by
  obtain ⟨found, u, hx, hl⟩ := Query.ends_fetchAll.mp hf
  obtain ⟨g, hw, hx, rfl⟩ := hx
  have hb : beforeSelect q h' = g := by
    have hkeep := Query.loadRelated_moves (P := fun h h' => beforeSelect q h' = beforeSelect q h)
      (fun _ => rfl) (fun h₁ h₂ => h₂.trans h₁)
      (fun {_ _ table relation parents x} ha => by
        obtain ⟨g, hw, _, rfl⟩ := ha
        exact beforeSelect_writes hw q) hl
    rw [hkeep]
    exact if_pos rfl
  rw [hb]
  exact ⟨.of_writes hw, (List.suffix_cons _ g).trans (passes_of_ends hl).suffix, found, hx,
    Query.loadRelated_columns hl⟩

end History

end LiveQuery
