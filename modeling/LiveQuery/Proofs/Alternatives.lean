import LiveQuery.Proofs.Resolution
import LiveQuery.Proofs.Truth
import LiveQuery.Proofs.WhereClause

/-! What an `$or` lets through. Its branches are taken apart into the conditions of all their
keys, and one of these is enough: a key with several operators is fulfilled by any of them,
though as a filter of its own it asks for all. -/

namespace LiveQuery

section

variable {field : String} {operand : Operand} {cs : List Condition} {c : Condition}
  {branch : Criteria} {bs : List Criteria} {g : OrGroup}

theorem field_of_resolveOperator {key : String} (h : resolveOperator field key operand = .ok c) :
    c.field = field := by
  unfold resolveOperator at h
  repeat' split at h
  all_goals cases h
  all_goals rfl

theorem field_of_resolveField (h : resolveField field operand = .ok cs) :
    ∀ c ∈ cs, c.field = field := by
  intro c hc
  cases operand with
  | scalar v =>
    cases h
    rw [List.mem_singleton.mp hc]
  | list vs =>
    cases h
    rw [List.mem_singleton.mp hc]
  | operators ops =>
    obtain ⟨⟨key, o⟩, -, ho⟩ := (mem_of_mapM h c).mp hc
    exact field_of_resolveOperator ho
  | branches bs => cases h

/-- Operands that stand for one condition each. -/
def Operand.IsSingle : Operand → Prop
  | operators ops => ops.length = 1
  | _ => True

theorem single_of_resolveField (hs : operand.IsSingle) (h : resolveField field operand = .ok cs) :
    ∃ c, cs = [c] := by
  cases operand with
  | scalar v => exact ⟨_, (Except.ok.inj h).symm⟩
  | list vs => exact ⟨_, (Except.ok.inj h).symm⟩
  | operators ops =>
    have hlen := (forall₂_of_mapM h).length_eq
    exact List.length_eq_one_iff.mp (hlen.symm.trans hs)
  | branches bs => cases h

/-- A branch holds the conditions of all its keys. -/
theorem resolveBranch_ok {b : Criteria} (h : resolveBranch b = .ok cs) :
    (∀ k ∈ b, ∃ ks, resolveKey k = .ok ks) ∧
      ∀ c, c ∈ cs ↔ ∃ k ∈ b, ∃ ks, resolveKey k = .ok ks ∧ c ∈ ks := by
  rw [resolveBranch_eq] at h
  obtain ⟨kss, hkss, rfl⟩ := map_eq_ok h
  exact ⟨ok_of_mapM hkss, mem_flatten_of_mapM hkss⟩

/-- A group holds the conditions of all keys in all branches. -/
theorem resolveOr_ok (h : resolveOr (.branches bs) = .ok g) :
    (∀ b ∈ bs, ∀ k ∈ b, ∃ ks, resolveKey k = .ok ks) ∧
      ∀ c, c ∈ g ↔ ∃ b ∈ bs, ∃ k ∈ b, ∃ ks, resolveKey k = .ok ks ∧ c ∈ ks := by
  obtain ⟨css, hcss, rfl⟩ : ∃ css, bs.mapM resolveBranch = .ok css ∧ css.flatten = g := by
    cases bs with
    | nil => cases h
    | cons b bs => exact map_eq_ok h
  have hok := ok_of_mapM hcss
  refine ⟨fun b hb => ?_, fun c => ?_⟩
  · obtain ⟨cs, hcs⟩ := hok b hb
    exact (resolveBranch_ok hcs).1
  · rw [mem_flatten_of_mapM hcss]
    constructor
    · rintro ⟨b, hb, cs, hcs, hc⟩
      exact ⟨b, hb, ((resolveBranch_ok hcs).2 c).mp hc⟩
    · rintro ⟨b, hb, hk⟩
      obtain ⟨cs, hcs⟩ := hok b hb
      exact ⟨b, hb, cs, hcs, ((resolveBranch_ok hcs).2 c).mpr hk⟩

theorem exists_group_of_resolve {c : Criteria} {s : Selection} (h : c.resolve = .ok s)
    (hm : ("$or", operand) ∈ c) : ∃ g ∈ s.orGroups, resolveOr operand = .ok g := by
  rw [Criteria.resolve_eq] at h
  obtain ⟨ss, hss, rfl⟩ := map_eq_ok h
  obtain ⟨t, ht⟩ := ok_of_mapM hss _ hm
  have hmem : t ∈ ss := (mem_of_mapM hss t).mpr ⟨_, hm, ht⟩
  rw [resolveEntry, if_pos rfl] at ht
  obtain ⟨g, hg, rfl⟩ := map_eq_ok ht
  exact ⟨g, List.mem_flatMap.mpr ⟨_, hmem, List.mem_singleton_self g⟩, hg⟩

/-- A key as a filter of its own asks for all of its conditions. -/
theorem accepts_key_iff {q : Query} {qualify : Bool} {row : Valuation} {k : String × Operand}
    (h : resolveKey k = .ok cs) :
    q.Accepts qualify row [k] ↔ ∀ c ∈ cs, q.holds qualify row c = .yes := by
  obtain ⟨hr, hf⟩ := resolveKey_eq_ok.mp h
  have hresolve : Criteria.resolve [k] = .ok ⟨cs, []⟩ := by
    obtain ⟨field, o⟩ := k
    rw [Criteria.resolve, if_neg (ne_or_of_isReserved hr), if_neg (by simp [hr]), hf]
    change Except.ok (Selection.mk (cs ++ []) []) = _
    rw [List.append_nil]
  rw [← Query.passes_conditions_iff, Query.Accepts, hresolve]
  simp

end

namespace Query

variable {q : Query} {c : Criteria} {s : Selection} {bs : List Criteria} {g : OrGroup}

theorem params_group (q : Query) (qualify : Bool) (c : Condition) (cs : List Condition) :
    Fragment.params ("(" ++ Fragment.joined " OR " ((c :: cs).map (q.condition qualify)) ++ ")") =
      (c :: cs).flatMap (q.values qualify) := by
  simp only [Fragment.params_append, Fragment.params_sql, Fragment.params_nil,
    Fragment.params_joined, List.flatMap_map, List.nil_append, List.append_nil]
  rfl

/-- The clause of a group holds if one of its conditions does. -/
theorem Named.orGroup_holds_iff (h : q.Named IsName) (hne : g ≠ [])
    (hg : ∀ c ∈ g, IsName c.field) (qualify : Bool) :
    ∃ clause f, q.orGroup? qualify g = some clause ∧ Means clause.text f ∧ ∀ row,
      f.truth row clause.params = .yes ↔ ∃ c ∈ g, q.holds qualify row c = .yes := by
  cases g with
  | nil => exact absurd rfl hne
  | cons c cs =>
    obtain ⟨clause, hclause, hmeans⟩ := h.means_orGroup hg qualify
    have hparams : clause.params = (c :: cs).flatMap (q.values qualify) := by
      rw [orGroup?_cons] at hclause
      cases hclause
      exact q.params_group qualify c cs
    refine ⟨clause, _, hclause, hmeans, fun row => ?_⟩
    rw [hparams]
    exact q.truth_some qualify row c cs

/-- Branches without keys leave no clause behind, and so let every row through. -/
theorem orGroup?_of_no_keys (hg : resolveOr (.branches bs) = .ok g) (hb : ∀ b ∈ bs, b = [])
    (qualify : Bool) : q.orGroup? qualify g = none := by
  have hnone : g = [] := by
    refine List.eq_nil_iff_forall_not_mem.mpr fun c hc => ?_
    obtain ⟨b, hmem, k, hk, -⟩ := ((resolveOr_ok hg).2 c).mp hc
    rw [hb b hmem] at hk
    exact absurd hk List.not_mem_nil
  simp [orGroup?, hnone]

/-- If every key stands for one condition, the clause of an `$or` holds exactly if one of its
keys would let the row through as a filter of its own. -/
theorem alternatives_hold_iff (h : q.Named IsName) (hc : c.resolve = .ok s)
    (hm : ("$or", .branches bs) ∈ c) (hname : ∀ b ∈ bs, ∀ k ∈ b, IsName k.1)
    (hkey : ∃ b ∈ bs, b ≠ []) (hsingle : ∀ b ∈ bs, ∀ k ∈ b, k.2.IsSingle) (qualify : Bool) :
    ∃ g ∈ s.orGroups, resolveOr (.branches bs) = .ok g ∧
      ∃ clause f, q.orGroup? qualify g = some clause ∧ Means clause.text f ∧ ∀ row,
        f.truth row clause.params = .yes ↔ ∃ b ∈ bs, ∃ k ∈ b, q.Accepts qualify row [k] := by
  obtain ⟨g, hmem, hg⟩ := exists_group_of_resolve hc hm
  obtain ⟨hok, hall⟩ := resolveOr_ok hg
  have hfields : ∀ c ∈ g, IsName c.field := by
    intro c hc
    obtain ⟨b, hb, k, hk, ks, hks, hc⟩ := (hall c).mp hc
    rw [field_of_resolveField (resolveKey_eq_ok.mp hks).2 c hc]
    exact hname b hb k hk
  have hone {b : Criteria} (hb : b ∈ bs) {k : String × Operand} (hk : k ∈ b) :
      ∃ c, resolveKey k = .ok [c] := by
    obtain ⟨ks, hks⟩ := hok b hb k hk
    obtain ⟨c, rfl⟩ := single_of_resolveField (hsingle b hb k hk) (resolveKey_eq_ok.mp hks).2
    exact ⟨c, hks⟩
  have hne : g ≠ [] := by
    obtain ⟨b, hb, hbne⟩ := hkey
    obtain ⟨k, hk⟩ := List.exists_mem_of_ne_nil b hbne
    obtain ⟨c, hks⟩ := hone hb hk
    exact List.ne_nil_of_mem ((hall c).mpr ⟨b, hb, k, hk, _, hks, List.mem_singleton.mpr rfl⟩)
  obtain ⟨clause, f, hclause, hmeans, htruth⟩ := h.orGroup_holds_iff hne hfields qualify
  refine ⟨g, hmem, hg, clause, f, hclause, hmeans, fun row => ?_⟩
  rw [htruth]
  constructor
  · rintro ⟨d, hd, hholds⟩
    obtain ⟨b, hb, k, hk, ks, hks, hdk⟩ := (hall d).mp hd
    obtain ⟨c, hc⟩ := hone hb hk
    obtain rfl : ks = [c] := Except.ok.inj (hks.symm.trans hc)
    obtain rfl := List.mem_singleton.mp hdk
    exact ⟨b, hb, k, hk, (accepts_key_iff hks).mpr (by simpa using hholds)⟩
  · rintro ⟨b, hb, k, hk, haccepts⟩
    obtain ⟨c, hc⟩ := hone hb hk
    have hholds := (accepts_key_iff hc).mp haccepts c (List.mem_singleton.mpr rfl)
    exact ⟨c, (hall c).mpr ⟨b, hb, k, hk, _, hc, List.mem_singleton.mpr rfl⟩, hholds⟩

def users : Query := { table := "users" }

theorem named_users : users.Named IsName where
  table := by decide
  conditions := by simp [users]
  orGroups := by simp [users]
  functions := by simp [users]
  joins := by simp [users]
  ordering := by simp [users]

theorem alternatives_hold_iff_flag :
    let bs : List Criteria :=
      [[("age", .operators [("$gte", .scalar (.integer 18))])], [("vip", .scalar (.boolean true))]]
    let row : Valuation
      | .binary .eq _ _, _ => .yes
      | _, _ => .unknown
    ∃ s g clause f, Criteria.resolve [("$or", .branches bs)] = .ok s ∧ g ∈ s.orGroups ∧
      users.orGroup? false g = some clause ∧ Means clause.text f ∧
        f.truth row clause.params = .yes := by
  intro bs row
  have hc : Criteria.resolve [("$or", .branches bs)] =
      .ok ⟨[], [[⟨"age", .range .ge (.integer 18)⟩, ⟨"vip", .equals (.boolean true)⟩]]⟩ := rfl
  have hname : ∀ b ∈ bs, ∀ k ∈ b, IsName k.1 := by
    have hage : IsName "age" := by decide
    have hvip : IsName "vip" := by decide
    simp [bs, hage, hvip]
  obtain ⟨g, hg, -, clause, f, hclause, hmeans, htruth⟩ := alternatives_hold_iff named_users hc
    List.mem_cons_self hname ⟨_, List.mem_cons_self, by simp⟩ (by simp [bs, Operand.IsSingle]) false
  refine ⟨_, g, clause, f, hc, hg, hclause, hmeans, (htruth row).mpr ?_⟩
  refine ⟨_, List.mem_cons_of_mem _ List.mem_cons_self, _, List.mem_cons_self, ?_⟩
  have hkey : resolveKey ("vip", .scalar (.boolean true)) =
      .ok [⟨"vip", .equals (.boolean true)⟩] := rfl
  rw [accepts_key_iff hkey, List.forall_mem_singleton]
  rfl

/-- One of two bounds on the age is enough, though a filter asks for both. -/
theorem alternatives_split_bounds :
    let bs : List Criteria :=
      [[("age", .operators [("$gte", .scalar (.integer 18)), ("$lt", .scalar (.integer 65))])],
        [("vip", .scalar (.boolean true))]]
    let row : Valuation
      | .binary .ge _ _, _ => .yes
      | _, _ => .no
    ∃ s g clause f, Criteria.resolve [("$or", .branches bs)] = .ok s ∧ s.orGroups = [g] ∧
      users.orGroup? false g = some clause ∧ Means clause.text f ∧
        f.truth row clause.params = .yes ∧ ¬∃ b ∈ bs, ∃ k ∈ b, users.Accepts false row [k] := by
  intro bs row
  let past : Condition := ⟨"age", .range .ge (.integer 18)⟩
  let below : Condition := ⟨"age", .range .lt (.integer 65)⟩
  let flag : Condition := ⟨"vip", .equals (.boolean true)⟩
  have hfields : ∀ c ∈ [past, below, flag], IsName c.field := by decide
  obtain ⟨clause, f, hclause, hmeans, htruth⟩ :=
    named_users.orGroup_holds_iff (List.cons_ne_nil past [below, flag]) hfields false
  refine ⟨⟨[], [[past, below, flag]]⟩, _, clause, f, rfl, rfl, hclause, hmeans,
    (htruth row).mpr ⟨past, List.mem_cons_self, rfl⟩, ?_⟩
  rintro ⟨b, hb, k, hk, haccepts⟩
  rcases List.mem_pair.mp hb with rfl | rfl
  · obtain rfl := List.mem_singleton.mp hk
    have hbounds : resolveKey ("age", .operators [("$gte", .scalar (.integer 18)),
        ("$lt", .scalar (.integer 65))]) = .ok [past, below] := rfl
    have hbelow := (accepts_key_iff hbounds).mp haccepts below (by simp)
    exact absurd hbelow (by decide)
  · obtain rfl := List.mem_singleton.mp hk
    have hflag : resolveKey ("vip", .scalar (.boolean true)) = .ok [flag] := rfl
    have hvip := (accepts_key_iff hflag).mp haccepts flag (by simp)
    exact absurd hvip (by decide)

end Query

end LiveQuery
