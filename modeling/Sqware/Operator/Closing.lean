import Sqware.Operator.Records

/-!
# Closing a subtree

`revoke_plan` lists the grants of a subtree from the last record to the first, and each is then
closed in turn.  A grant with a child left is not closed, and `closed` puts the last record in the
place of the one it takes out: so all of the plan can be closed exactly if every grant of the
subtree still stands behind its parent.
-/

namespace Sqware.Operator

open Relation List Lists

namespace Authority

variable {a a' : Authority} {r : Record}

theorem mark_filter (e : PieToken) {via : PieToken} (caller : TaskId) (hv : via ≠ e) :
    mark { a with watermarks := a.watermarks.filter (·.via ≠ e) } via caller =
      a.mark via caller := by
  unfold mark
  rw [find?_filter]
  congr 2
  funext w
  by_cases hw : w.via = via
  · simp [hw, hv]
  · simp [hw]

/-! ## The records that are left -/

/-- One record before and after, but for how far the grant is. -/
structure Kin (r r' : Record) : Prop where
  key : r'.key = r.key
  ref : r'.ref = r.ref
  parent : r'.parent = r.parent
  spec : r'.spec = r.spec
  entrance : r'.entrance = r.entrance

theorem Kin.refl (r : Record) : Kin r r := ⟨rfl, rfl, rfl, rfl, rfl⟩

theorem Kin.trans {r' r'' : Record} (h : Kin r r') (h' : Kin r' r'') : Kin r r'' :=
  ⟨h'.key.trans h.key, h'.ref.trans h.ref, h'.parent.trans h.parent, h'.spec.trans h.spec,
    h'.entrance.trans h.entrance⟩

/-- The records without those of `K`; the ones of `S` are being revoked. -/
structure Left (a₀ : Authority) (S : Record → Bool) (K : List Record) (a : Authority) : Prop where
  sound : a.Sound
  back : ∀ r' ∈ a.records, ∃ r ∈ a₀.records, r ∉ K ∧ Kin r r' ∧
    r'.state = if S r then .revoking else r.state
  forth : ∀ r ∈ a₀.records, r ∉ K → ∃ r' ∈ a.records, Kin r r'
  mark : ∀ v c, (∀ r ∈ K, r.entrance ≠ some v) → a.mark v c = a₀.mark v c

variable {a₀ : Authority} {S : Record → Bool} {K : List Record}

theorem Left.find (h : Left a₀ S K a) (h0 : a₀.Sound) (hr : r ∈ a₀.records) (hK : r ∉ K) :
    ∃ r', a.byKey r.key = some r' ∧ a.byRef r.ref = some r' ∧ r' ∈ a.records ∧ Kin r r' ∧
      r'.state = if S r then .revoking else r.state := by
  obtain ⟨r', hr', hkin⟩ := h.forth r hr hK
  obtain ⟨q, hq, -, hkq, hstate⟩ := h.back r' hr'
  have hqr : q = r := h0.eq_of_key hq hr (by rw [← hkq.key, hkin.key])
  subst hqr
  refine ⟨r', ?_, ?_, hr', hkin, hstate⟩
  · rw [← hkin.key]
    exact h.sound.byKey hr'
  · rw [← hkin.ref]
    exact h.sound.byRef hr'

theorem Left.relabel (h : Left a₀ S K a)
    (hr : List.Forall₂ (fun r r' => Kin r r' ∧ r'.state = r.state) a.records a'.records)
    (hkey : a'.nextKey = a.nextKey) (hmark : a'.watermarks = a.watermarks) : Left a₀ S K a' := by
  have hsame : List.Forall₂ Same a.records a'.records := hr.imp fun r r' hk =>
    ⟨hk.1.key, hk.1.ref, hk.1.parent, hk.1.spec, fun e he => by rw [hk.1.entrance, he], .inl hk.2⟩
  refine ⟨sound_same h.sound hsame hkey, fun r' hr' => ?_, fun r hr0 hK => ?_, fun v c hv => ?_⟩
  · obtain ⟨r, hmem, hk, hstate⟩ := exists_of_forall₂_right hr hr'
    obtain ⟨q, hq, hqK, hkq, hq'⟩ := h.back r hmem
    exact ⟨q, hq, hqK, hkq.trans hk, hstate.trans hq'⟩
  · obtain ⟨r', hr', hk⟩ := h.forth r hr0 hK
    obtain ⟨r'', hr'', hk', -⟩ := exists_of_forall₂_left hr hr'
    exact ⟨r'', hr'', hk.trans hk'⟩
  · rw [← h.mark v c hv]
    unfold Authority.mark
    rw [hmark]

theorem Left.drop (h : Left a₀ S K a) (h0 : a₀.Sound) {l1 l2 : List Record} {r' : Record}
    (hr : r ∈ a₀.records) (hkin : Kin r r') (hl : a.records = l1 ++ r' :: l2)
    (hchild : ∀ c ∈ a.records, c.parent = some r'.key → c.state = .closed) :
    Left a₀ S (r :: K) { a with
      records := swapRemove a.records l1.length
      watermarks :=
        match r'.entrance with
        | none => a.watermarks
        | some entrance => a.watermarks.filter (·.via ≠ entrance) } := by
  have hmem := mem_drop h.sound hl
  have hr' : r' ∈ a.records := by rw [hl]; simp
  refine ⟨sound_drop h.sound hl hchild _, fun x hx => ?_, fun x hx hK => ?_, fun v c hv => ?_⟩
  · obtain ⟨hx0, hne⟩ := (hmem x).1 hx
    obtain ⟨q, hq, hqK, hkq, hstate⟩ := h.back x hx0
    refine ⟨q, hq, fun hc => ?_, hkq, hstate⟩
    rcases mem_cons.1 hc with rfl | hc
    · exact hne (h.sound.eq_of_key hx0 hr' (by rw [hkq.key, hkin.key]))
    · exact hqK hc
  · rw [mem_cons, not_or] at hK
    obtain ⟨x', hx', hkx⟩ := h.forth x hx hK.2
    refine ⟨x', (hmem x').2 ⟨hx', ?_⟩, hkx⟩
    rintro rfl
    exact hK.1 (h0.eq_of_key hx hr (by rw [← hkx.key, hkin.key]))
  have hold := h.mark v c fun q hq => hv q (mem_cons_of_mem r hq)
  have hne := hv r mem_cons_self
  rw [← hold]
  cases he : r'.entrance with
  | none => rfl
  | some e => exact mark_filter e c fun hve => hne (by rw [← hkin.entrance, he, hve])

/-- A grant is closed exactly if all its children are. -/
theorem Left.closed (h : Left a₀ S K a) (h0 : a₀.Sound) (hr : r ∈ a₀.records) (hK : r ∉ K)
    (hS : S r = true) :
    ((a.closed r.ref).1 = .ok () ↔ ∀ c ∈ a₀.records, c.parent = some r.key → c ∈ K) ∧
    ((a.closed r.ref).1 = .ok () → Left a₀ S (r :: K) (a.closed r.ref).2) := by
  obtain ⟨r', -, href, hr', hkin, hstate⟩ := h.find h0 hr hK
  obtain ⟨l1, l2, hrec, hclosed⟩ := closed_eq href
  rw [hclosed, if_neg (by simp [hstate, hS])]
  by_cases hany : (a.records.any fun c => c.parent = some r'.key ∧ c.state ≠ .closed) = true
  · -- a child is left
    rw [if_pos hany]
    refine ⟨⟨(fun he => nomatch he), fun hall => ?_⟩, fun he => nomatch he⟩
    obtain ⟨c, hc, hboth⟩ := any_eq_true.1 hany
    simp only [decide_eq_true_eq] at hboth
    obtain ⟨q, hq, hqK, hkq, -⟩ := h.back c hc
    exact absurd (hall q hq (by rw [← hkq.parent, hboth.1, hkin.key])) hqK
  rw [if_neg hany]
  have hchild : ∀ c ∈ a.records, c.parent = some r'.key → c.state = .closed := by
    intro c hc hp
    by_contra hne
    exact hany (any_eq_true.2 ⟨c, hc, by simp [hp, hne]⟩)
  refine ⟨⟨fun _ c hc hp => ?_, fun _ => rfl⟩, fun _ => h.drop h0 hr hkin hrec hchild⟩
  by_contra hcK
  obtain ⟨c', hc', hkc⟩ := h.forth c hc hcK
  exact h.sound.current c' hc' (hchild c' hc' (by rw [hkc.parent, hp, hkin.key]))

/-! ## The plan -/

def closing (r : Record) : Closing := ⟨r.key, r.ref, r.entrance⟩

variable {g : Record}

/-- What a plan starts from. -/
theorem revokePlan_left (hs : a.Sound) (hg : g ∈ a.records) :
    ∃ a', a.revokePlan true g.ref =
        (.ok ((a.records.filter (a.descends g.key)).reverse.map closing), a') ∧
      Left a (a.descends g.key) [] a' := by
  have hcurrent : a.records.filter (fun r => a.descends g.key r ∧ r.state ≠ .closed) =
      a.records.filter (a.descends g.key) :=
    filter_congr fun r hr => by simp [hs.current r hr]
  -- the names are distinct: those listed are those of the subtree
  have hlisted : ∀ r ∈ a.records, ((a.records.filter (a.descends g.key)).map closing).any
      (·.ref = r.ref) = a.descends g.key r := by
    intro r hr
    rw [Bool.eq_iff_iff, any_eq_true]
    constructor
    · rintro ⟨c, hc, he⟩
      obtain ⟨q, hq, rfl⟩ := mem_map.1 hc
      obtain ⟨hq, hd⟩ := mem_filter.1 hq
      rwa [← inj_on_of_nodup_map hs.refs hq hr (of_decide_eq_true he)]
    · exact fun hd => ⟨closing r, mem_map.2 ⟨r, mem_filter.2 ⟨hr, hd⟩, rfl⟩, by simp [closing]⟩
  obtain ⟨a', hplan, hrecords, hmarks⟩ : ∃ a', a.revokePlan true g.ref =
      (.ok ((a.records.filter (a.descends g.key)).map closing).reverse, a') ∧
      a'.records = a.records.map (fun r =>
        if ((a.records.filter (a.descends g.key)).map closing).any (·.ref = r.ref) then
          { r with state := .revoking } else r) ∧ a'.watermarks = a.watermarks := by
    unfold revokePlan
    simp only [hs.byRef hg, Bool.true_eq_false, if_false, hcurrent]
    exact ⟨_, rfl, rfl, rfl⟩
  have hs' : a'.Sound := by
    have hshift := sound_shift (E := fun _ _ => True) (P := fun _ _ => True) hs
      (shift_revokePlan true g.ref)
    rwa [hplan] at hshift
  refine ⟨a', by rw [hplan, map_reverse], hs', fun x hx => ?_, fun r hr _ => ?_, fun v c _ => ?_⟩
  · rw [hrecords] at hx
    obtain ⟨r, hr, rfl⟩ := mem_map.1 hx
    rw [hlisted r hr]
    refine ⟨r, hr, not_mem_nil, ?_, ?_⟩
    · split
      · exact ⟨rfl, rfl, rfl, rfl, rfl⟩
      · exact .refl r
    · split <;> rfl
  · rw [hrecords]
    refine ⟨_, mem_map_of_mem hr, ?_⟩
    split
    · exact ⟨rfl, rfl, rfl, rfl, rfl⟩
    · exact .refl r
  · unfold mark
    rw [hmarks]

/-! ## Every state -/

/-- What is asked of an authority. -/
inductive Op
  | bootstrapRoot (system : TaskId) (spec : GrantSpec) (entrance : PieToken)
  | grant (request : GrantSubmission) (relative : Text)
  | setEntrance (ref : GrantRef) (entrance : PieToken)
  | attached (key : GrantKey)
  | delivered (ref : GrantRef) (remote : PieToken)
  | revoke (ref : GrantRef)
  | revokePlan (ref : GrantRef)
  | cleanupStep (key : GrantKey) (step : Nat)
  | closed (ref : GrantRef)

def apply (a : Authority) (room : Bool) : Op → Authority
  | .bootstrapRoot system spec entrance => (a.bootstrapRoot room system spec entrance).2
  | .grant request relative => (a.grant room request relative).2
  | .setEntrance ref entrance => (a.setEntrance ref entrance).2
  | .attached key => (a.attached key).2
  | .delivered ref remote => (a.delivered ref remote).2
  | .revoke ref => (a.revoke room ref).2
  | .revokePlan ref => (a.revokePlan room ref).2
  | .cleanupStep key step => (a.cleanupStep key step).2
  | .closed ref => (a.closed ref).2

/-- The authority after some calls; each comes with whether there is memory for it. -/
def run (root operator : TaskId) (ops : List (Bool × Op)) : Authority :=
  ops.foldl (fun a o => a.apply o.1 o.2) (.new root operator)

theorem apply_shift (room : Bool) (op : Op) :
    Shift (fun _ _ => True) (fun _ _ => True) a (a.apply room op) := by
  cases op with
  | bootstrapRoot => exact shift_bootstrapRoot ..
  | grant => exact shift_grant fun _ _ _ => trivial
  | setEntrance => exact shift_setEntrance _ trivial
  | attached => exact shift_attached _
  | delivered => exact shift_delivered ..
  | revoke => exact shift_revoke ..
  | revokePlan => exact shift_revokePlan ..
  | cleanupStep => exact shift_cleanupStep ..
  | closed => exact shift_closed _

theorem run_sound (root operator : TaskId) (ops : List (Bool × Op)) :
    (run root operator ops).Sound := by
  induction ops using List.reverseRecOn with
  | nil => exact sound_new root operator
  | append_singleton ops o ih =>
    unfold run at ih ⊢
    rw [foldl_append]
    exact sound_shift ih (apply_shift o.1 o.2)

/-! ## The whole -/

/-- The way up from a record comes to the one named. -/
def Below (a : Authority) (key : GrantRef) (r : Record) : Prop :=
  ∃ g, a.byRef key = some g ∧ a.Under r g

/-- What is left when the entries of a plan have been closed in turn. -/
def carryOut (plan : List Closing) (a : Authority) : Except AuthorityError Unit × Authority :=
  each (fun c a => a.closed c.ref) plan a

/-- The plan lists the subtree, children first, and closing along it leaves all else. -/
structure Closes (a : Authority) (key : GrantRef) (plan : List Closing) (a' : Authority) :
    Prop where
  once : (plan.map (·.key)).Nodup
  listed : ∀ k, k ∈ plan.map (·.key) ↔
    ∃ r ∈ a.records, a.Below key r ∧ r.state ≠ .closed ∧ r.key = k
  childrenFirst : ∀ r ∈ a.records, a.Below key r → ∀ c ∈ a.records, c.parent = some r.key →
    After (plan.map (·.key)) c.key r.key
  succeeds : (carryOut plan a').1 = .ok ()
  gone : ∀ r ∈ a.records, a.Below key r → ∀ r' ∈ (carryOut plan a').2.records, r'.key ≠ r.key
  parents : ∀ r ∈ (carryOut plan a').2.records, ∀ p, r.parent = some p →
    ∃ q ∈ (carryOut plan a').2.records, q.key = p
  rest : ∀ r ∈ a.records, ¬ a.Below key r →
    ∃ r' ∈ (carryOut plan a').2.records, Kin r r' ∧ r'.state = r.state

/-- Every grant of the subtree stands before its children. -/
def Sorted (a : Authority) (key : GrantRef) : Prop :=
  ∀ r ∈ a.records, a.Below key r → ∀ c ∈ a.records, c.parent = some r.key → After a.records r c

theorem descends_below (hs : a.Sound) (hr : r ∈ a.records) (hg : g ∈ a.records) :
    a.descends g.key r = true ↔ a.Below g.ref r := by
  rw [descends_iff hs hr hg]
  refine ⟨fun hu => ⟨g, hs.byRef hg, hu⟩, fun ⟨g', hg', hu⟩ => ?_⟩
  rw [hs.byRef hg] at hg'
  cases hg'
  exact hu

variable {key : GrantRef} {plan : List Closing}

theorem closes_nil (hs : a.Sound) (hnone : a.byRef key = none) : Closes a key [] a := by
  have hbelow : ∀ r, ¬ a.Below key r := by
    rintro r ⟨g, hg, -⟩
    cases hnone.symm.trans hg
  refine ⟨nodup_nil, fun k => ?_, fun r _ hb => absurd hb (hbelow r), rfl,
    fun r _ hb => absurd hb (hbelow r), fun r hr p hp => ?_, fun r hr _ => ⟨r, hr, .refl r, rfl⟩⟩
  · simp [hbelow]
  · obtain ⟨q, hq, hqp, -⟩ := hs.parents r hr p hp
    exact ⟨q, hq, hqp⟩

/-- A plan can be carried out exactly if the subtree is in order. -/
theorem carryOut_spec (hs : a.Sound) (hg : g ∈ a.records)
    (hl : Left a (a.descends g.key) [] a') :
    ((carryOut ((a.records.filter (a.descends g.key)).reverse.map closing) a').1 = .ok () ↔
      a.Sorted g.ref) ∧
    ((carryOut ((a.records.filter (a.descends g.key)).reverse.map closing) a').1 = .ok () →
      Left a (a.descends g.key) (a.records.filter (a.descends g.key))
        (carryOut ((a.records.filter (a.descends g.key)).reverse.map closing) a').2) := by
  have hn : a.records.Nodup := List.Nodup.of_map _ hs.keys
  obtain ⟨hiff, hok⟩ := each_spec (f := fun r a => a.closed r.ref)
    (R := fun K r => ∀ c ∈ a.records, c.parent = some r.key → c ∈ K)
    (P := fun r => r ∈ a.records ∧ a.descends g.key r = true)
    (fun K r a' hl hK hr => hl.closed hs hr.1 hK hr.2) hl
      (fun r hr => ⟨not_mem_nil, by simpa using hr⟩)
    (nodup_reverse.2 (hn.filter (a.descends g.key)))
  have horder : InTurn (fun K r => ∀ c ∈ a.records, c.parent = some r.key → c ∈ K) []
      (a.records.filter (a.descends g.key)).reverse ↔ a.Sorted g.ref := by
    rw [inTurn_filter hn
      (Q := fun r => ∀ c ∈ a.records, c.parent = some r.key → After a.records r c)]
    · exact forall₂_congr fun r hr => by rw [descends_below hs hr hg]
    intro r hr hd K hK
    refine forall₃_congr fun c hc hp => ?_
    -- a child belongs to the subtree, so it is closed before iff it stands behind
    have hdc : a.descends g.key c = true :=
      (descends_iff hs hc hg).2 (.head ⟨hr, hp⟩ ((descends_iff hs hr hg).1 hd))
    rw [hK c, hdc]
    simp
  unfold carryOut
  rw [each_map]
  rw [reverse_reverse, append_nil] at hok
  exact ⟨hiff.trans horder, hok⟩

/-- The plan of a grant can be carried out, children first and to the end, with the subtree gone and
the rest as before, exactly if every grant of the subtree stands behind its parent. -/
theorem revokePlan_closes (root operator : TaskId) (ops : List (Bool × Op)) (room : Bool)
    (hplan : (run root operator ops).revokePlan room key = (.ok plan, a')) :
    Closes (run root operator ops) key plan a' ↔ (run root operator ops).Sorted key := by
  have hs := run_sound root operator ops
  generalize run root operator ops = a at hs hplan
  cases hkey : a.byRef key with
  | none =>
    unfold revokePlan at hplan
    simp only [hkey] at hplan
    cases hplan
    refine ⟨fun _ r _ ⟨g, hg, _⟩ => ?_, fun _ => closes_nil hs hkey⟩
    cases hkey.symm.trans hg
  | some g =>
    have hg := Keyed.mem_of_get hkey
    obtain rfl : g.ref = key := Keyed.key_of_get hkey
    obtain rfl : room = true := by
      cases room with
      | false =>
        unfold revokePlan at hplan
        simp [hkey] at hplan
      | true => rfl
    obtain ⟨a1, hplan1, hl⟩ := revokePlan_left hs hg
    cases hplan1.symm.trans hplan
    obtain ⟨hiff, hok⟩ := carryOut_spec hs hg hl
    refine ⟨fun hc => hiff.1 hc.succeeds, fun hsorted => ?_⟩
    have hleft := hok (hiff.2 hsorted)
    have hbelow : ∀ r ∈ a.records, a.Below g.ref r ↔ r ∈ a.records.filter (a.descends g.key) :=
      fun r hr => by rw [mem_filter, ← descends_below hs hr hg, and_iff_right hr]
    have hkeys : ((a.records.filter (a.descends g.key)).reverse.map closing).map (·.key) =
        ((a.records.filter (a.descends g.key)).map Record.key).reverse := by
      rw [List.map_map, map_reverse]
      rfl
    refine ⟨?_, fun k => ?_, fun r hr hb c hc hp => ?_, hiff.2 hsorted, fun r hr hb r' hr' he => ?_,
      fun r hr p hp => ?_, fun r hr hb => ?_⟩
    · rw [hkeys, nodup_reverse]
      exact hs.keys.sublist (filter_sublist.map _)
    · rw [hkeys, mem_reverse, mem_map]
      constructor
      · rintro ⟨r, hr, rfl⟩
        have hr0 := (mem_filter.1 hr).1
        exact ⟨r, hr0, (hbelow r hr0).2 hr, hs.current r hr0, rfl⟩
      · rintro ⟨r, hr, hb, -, rfl⟩
        exact ⟨r, (hbelow r hr).1 hb, rfl⟩
    · have hdr := (mem_filter.1 ((hbelow r hr).1 hb)).2
      have hdc : a.descends g.key c = true :=
        (descends_iff hs hc hg).2 (.head ⟨hr, hp⟩ ((descends_iff hs hr hg).1 hdr))
      rw [hkeys]
      exact (((after_filter hdr hdc).2 (hsorted r hr hb c hc hp)).map Record.key).reverse
    · obtain ⟨q, hq, hqK, hkin, -⟩ := hleft.back r' hr'
      rw [hs.eq_of_key hq hr (by rw [← hkin.key, he])] at hqK
      exact hqK ((hbelow r hr).1 hb)
    · obtain ⟨q, hq, hqp, -⟩ := hleft.sound.parents r hr p hp
      exact ⟨q, hq, hqp⟩
    · obtain ⟨r', -, -, hr', hkin, hstate⟩ := hleft.find hs hr fun hmem => hb ((hbelow r hr).2 hmem)
      refine ⟨r', hr', hkin, hstate.trans (if_neg fun hd => hb ?_)⟩
      exact (hbelow r hr).2 (mem_filter.2 ⟨hr, hd⟩)

private def sublet (id : Nat) (holder : TaskId) : GrantSpec :=
  ⟨id, holder, ⟨1, .node 0⟩, .subtree, Ops.ALL, none, none, none⟩

/-- Calls that make a grant under another and deliver it. -/
private def lets (caller : TaskId) (via : PieToken) (parent id : Nat) (holder : TaskId)
    (entrance : PieToken) : List (Bool × Op) :=
  [(true, .grant ⟨caller, via, some parent, sublet id holder⟩ (if parent = 0 then ['a'] else [])),
    (true, .setEntrance ⟨via, caller, id⟩ entrance), (true, .delivered ⟨via, caller, id⟩ 200)]

private def boots : Bool × Op :=
  (true, .bootstrapRoot 9 ⟨0, 9, ⟨1, .root⟩, .subtree, Ops.ALL, none, none, none⟩ 100)

private def stacked : List (Bool × Op) := boots :: lets 9 100 0 2 5 101 ++ lets 5 101 2 1 7 102

/-- A grant and one made under it are closed, the lower one first. -/
theorem revokePlan_closes_stacked :
    ∃ plan a', (run 9 1 stacked).revokePlan true ⟨100, 9, 2⟩ = (.ok plan, a') ∧
      plan.map (·.key) = [2, 1] ∧ Closes (run 9 1 stacked) ⟨100, 9, 2⟩ plan a' := by
  refine ⟨[⟨2, ⟨101, 5, 1⟩, some 102⟩, ⟨1, ⟨100, 9, 2⟩, some 101⟩],
    _, Prod.ext (by decide +kernel) rfl,
    rfl, (revokePlan_closes 9 1 stacked true (Prod.ext (by decide +kernel) rfl)).2 ?_⟩
  -- a parent has a lower number, and the records are in the order of their numbers
  have hsorted : (run 9 1 stacked).records.Pairwise (·.key < ·.key) := by decide +kernel
  have hparent : ∀ r ∈ (run 9 1 stacked).records, ∀ c ∈ (run 9 1 stacked).records,
      c.parent = some r.key → r.key < c.key := by decide +kernel
  intro r hr _ c hc hp
  have hlt := hparent r hr c hc hp
  obtain ⟨l1, l2, hl⟩ := append_of_mem hr
  refine ⟨l1, l2, hl, ?_⟩
  rw [hl] at hc hsorted
  rcases mem_append.1 hc with hc | hc
  · exact absurd ((pairwise_append.1 hsorted).2.2 c hc r mem_cons_self) (Nat.lt_asymm hlt)
  · rcases mem_cons.1 hc with rfl | hc
    · exact absurd hlt (Nat.lt_irrefl _)
    · exact hc

/-- Two grants, one under the second, and the first closed: the last record comes to stand before
the one it was made under. -/
private def displaced : List (Bool × Op) :=
  boots :: lets 9 100 0 2 5 101 ++ lets 9 100 0 3 6 102 ++ lets 6 102 3 1 7 103 ++
    [(true, .revoke ⟨100, 9, 2⟩), (true, .closed ⟨100, 9, 2⟩)]

/-- The plan has the parent before its child, and is denied. -/
theorem revokePlan_parent_first :
    ((run 9 1 displaced).revokePlan true ⟨100, 9, 3⟩).1 =
      .ok [⟨2, ⟨100, 9, 3⟩, some 102⟩, ⟨3, ⟨102, 6, 1⟩, some 103⟩] ∧
    (∃ c ∈ (run 9 1 displaced).records, c.key = 3 ∧ c.parent = some 2) ∧
    (carryOut [⟨2, ⟨100, 9, 3⟩, some 102⟩, ⟨3, ⟨102, 6, 1⟩, some 103⟩]
      ((run 9 1 displaced).revokePlan true ⟨100, 9, 3⟩).2).1 = .error .denied := by
  decide +kernel

end Authority

end Sqware.Operator
