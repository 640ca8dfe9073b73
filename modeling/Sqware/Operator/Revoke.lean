import Sqware.Operator.Closing
import Sqware.Operator.Handle
import Sqware.Operator.Prune

/-!
# Taking a grant back

A revocation closes the grants of a subtree one after the other, from the last record to the first:
it removes the nodes of each and then its record.  A record with a child left is not closed, and a
pane with a node left in it is not removed.  So it comes to its end exactly if every grant stands
behind its parent, and whatever lies in the pane of a grant was made by it or by one behind it.
-/

namespace Sqware.Operator

open Relation List Lists Option Keyed Authority Sqware.Operator.Tree

namespace Authority

variable {a a' : Authority} {P : GrantSpec → GrantSpec → Prop}

/-- No grant has the entrance. -/
def Fresh (a : Authority) (token : PieToken) : Prop := ∀ r ∈ a.records, r.entrance ≠ some token

/-- An entrance is one grant's; what was granted through it is below its watermark; and only the
root grant has no parent. -/
structure Marked (a : Authority) : Prop where
  entrances : ∀ r ∈ a.records, ∀ r' ∈ a.records, ∀ e, r.entrance = some e → r'.entrance = some e →
    r.key = r'.key
  covered : ∀ r ∈ a.records, r.parent ≠ none →
    ∃ n, a.mark r.via r.issuer = some n ∧ r.spec.id ≤ n
  rooted : ∀ r ∈ a.records, r.parent = none → r.key = 0

theorem marked_new (root operator : TaskId) : (Authority.new root operator).Marked :=
  ⟨(fun _ hr => nomatch hr), (fun _ hr => nomatch hr), (fun _ hr => nomatch hr)⟩

theorem marked_alike (h : a.Marked) (hr : List.Forall₂ Record.Alike a.records a'.records)
    (hmark : Raises a a') : a'.Marked := by
  refine ⟨fun r' hr' q' hq' e he he' => ?_, fun r' hr' hp => ?_, fun r' hr' hp => ?_⟩
  · obtain ⟨r, hmem, hs⟩ := exists_of_forall₂_right hr hr'
    obtain ⟨q, hqmem, hsq⟩ := exists_of_forall₂_right hr hq'
    rw [hs.key, hsq.key]
    exact h.entrances r hmem q hqmem e (hs.entrance ▸ he) (hsq.entrance ▸ he')
  · obtain ⟨r, hmem, hs⟩ := exists_of_forall₂_right hr hr'
    obtain ⟨n, hn, hle⟩ := h.covered r hmem (hs.parent ▸ hp)
    obtain ⟨n', hn', hnn⟩ := hmark _ _ _ hn
    rw [hs.via, hs.issuer, hs.spec]
    exact ⟨n', hn', Nat.le_trans hle hnn⟩
  · obtain ⟨r, hmem, hs⟩ := exists_of_forall₂_right hr hr'
    rw [hs.key]
    exact h.rooted r hmem (hs.parent ▸ hp)

variable {r : Record}

theorem marked_equip (h : a.Marked) {ref : GrantRef} {token : PieToken} (hr : a.byRef ref = some r)
    (hfresh : a.Fresh token) :
    (a.updateRef ref fun r => { r with entrance := some token }).Marked := by
  -- a record is one of before, or the one that got the entrance
  have hmem : ∀ x ∈ (a.updateRef ref fun r => { r with entrance := some token }).records,
      (x ∈ a.records ∧ x.entrance ≠ some token) ∨ x = { r with entrance := some token } := by
    intro x hx
    have hrel : List.Forall₂ (fun x y => y = x ∨ x = r ∧ y = { r with entrance := some token })
        a.records (a.updateRef ref fun r => { r with entrance := some token }).records := by
      refine forall₂_update (fun _ _ => .inl rfl) fun y hy => .inr ?_
      cases hr.symm.trans hy
      exact ⟨rfl, rfl⟩
    obtain ⟨y, hy, rfl | ⟨-, rfl⟩⟩ := exists_of_forall₂_right hrel hx
    · exact .inl ⟨hy, hfresh x hy⟩
    · exact .inr rfl
  have hr0 := mem_of_get hr
  refine ⟨fun x hx y hy e he he' => ?_, fun x hx hp => ?_, fun x hx hp => ?_⟩
  · rcases hmem x hx with ⟨hx0, hxt⟩ | rfl <;> rcases hmem y hy with ⟨hy0, hyt⟩ | rfl
    · exact h.entrances x hx0 y hy0 e he he'
    · exact absurd (he.trans (he'.symm ▸ rfl)) hxt
    · exact absurd (he'.trans (he.symm ▸ rfl)) hyt
    · rfl
  · rcases hmem x hx with ⟨hx0, -⟩ | rfl
    · exact h.covered x hx0 hp
    · exact h.covered r hr0 hp
  · rcases hmem x hx with ⟨hx0, -⟩ | rfl
    · exact h.rooted x hx0 hp
    · exact h.rooted r hr0 hp

theorem marked_add (h : a.Marked) {q : Record} {caller : TaskId} {via : PieToken} {spec : GrantSpec}
    (hmark : Raises a a') (hcovers : a'.mark via caller = some spec.id)
    (hrecords : a'.records = a.records ++ [a.made q caller via spec]) : a'.Marked := by
  have hmem : ∀ r ∈ a'.records, r ∈ a.records ∨ r = a.made q caller via spec := fun r hr => by
    rw [hrecords] at hr
    simpa using hr
  refine ⟨fun r hr r' hr' e he he' => ?_, fun r hr hp => ?_, fun r hr hp => ?_⟩
  · rcases hmem r hr with hr | rfl
    · rcases hmem r' hr' with hr' | rfl
      · exact h.entrances r hr r' hr' e he he'
      · cases he'
    · cases he
  · rcases hmem r hr with hr | rfl
    · obtain ⟨n, hn, hle⟩ := h.covered r hr hp
      obtain ⟨n', hn', hnn⟩ := hmark _ _ _ hn
      exact ⟨n', hn', Nat.le_trans hle hnn⟩
    · exact ⟨spec.id, hcovers, Nat.le_refl _⟩
  · rcases hmem r hr with hr | rfl
    · exact h.rooted r hr hp
    · cases hp

theorem marked_shift (h : a.Marked) (hs : a.Sound) (hshift : Shift Fresh P a a') : a'.Marked := by
  cases hshift with
  | relabel hr _ _ _ hmark => exact marked_alike h hr hmark
  | equip hr _ _ hE => exact marked_equip h hr hE
  | root =>
    refine ⟨fun r hr r' hr' e _ _ => ?_, fun r hr hp => ?_, fun r hr _ => ?_⟩
    · rw [mem_singleton.1 hr, mem_singleton.1 hr']
    · rw [mem_singleton.1 hr] at hp
      exact absurd rfl hp
    · rw [mem_singleton.1 hr]
  | add _ _ _ _ _ _ _ _ _ _ _ hmark hcovers hrecords => exact marked_add h hmark hcovers hrecords
  | @drop l1 l2 r hl _ hchild =>
    have hmem := mem_drop hs hl
    refine ⟨fun x hx y hy => h.entrances x ((hmem x).1 hx).1 y ((hmem y).1 hy).1,
      fun x hx hp => ?_, fun x hx => h.rooted x ((hmem x).1 hx).1⟩
    have hx0 := ((hmem x).1 hx).1
    obtain ⟨n, hn, hle⟩ := h.covered x hx0 hp
    refine ⟨n, ?_, hle⟩
    cases he : r.entrance with
    | none => exact hn
    | some e =>
      -- the record taken out has no child, so the entrance is not the one of the others' parents
      have hne : x.via ≠ e := by
        intro hxe
        obtain ⟨p, hp⟩ := ne_none_iff_exists'.1 hp
        obtain ⟨q, hq, hqp, -, -, hent, -⟩ := hs.parents x hx0 p hp
        have hkey : q.key = r.key := h.entrances q hq r (by rw [hl]; simp) e (hxe ▸ hent) he
        exact hs.current x hx0 (hchild x hx0 (by rw [hp, ← hqp, hkey]))
      rw [← hn]
      exact mark_filter e x.issuer hne

theorem le_of_under (hs : a.Sound) {g : Record} (hr : r ∈ a.records) (hu : a.Under r g) :
    g.key ≤ r.key := by
  induction hu using ReflTransGen.head_induction_on with
  | refl => exact Nat.le_refl _
  | head hp hrest ih =>
    rename_i r q
    obtain ⟨q', _, hq, hlt, -⟩ := hs.parents r hr q.key hp.2
    rw [hq] at hlt
    exact Nat.le_of_lt (Nat.lt_of_le_of_lt (ih hp.1) hlt)

/-! ## The records that are left -/

variable {a0 : Authority} {S : Record → Bool} {K : List Record} {key : GrantKey}
  {f : Record → Record}

theorem updateKey_self (hr : a.byKey key = some r) (hf : f r = r) : a.updateKey key f = a := by
  unfold updateKey
  have hrel : List.Forall₂ (fun x y => id y = id x) a.records
      (Keyed.update Record.key key f a.records) := by
    refine forall₂_update (fun _ _ => rfl) fun x hx => ?_
    have hx : a.byKey key = some x := hx
    rw [hr] at hx
    rw [← some.inj hx, hf]
  have hmap := map_eq_of_forall₂ hrel fun _ _ he => he
  simp only [List.map_id] at hmap
  rw [hmap]

theorem Left.updateKey (h : Left a0 S K a) (hf : ∀ r, Kin r (f r) ∧ (f r).state = r.state) :
    Left a0 S K (a.updateKey key f) :=
  h.relabel (forall₂_update (fun r _ => ⟨.refl r, rfl⟩) fun r _ => hf r) rfl rfl

end Authority

namespace OperatorState

variable {o : OperatorState} {h : Host}

/-! ## Every state -/

/-- The kernel hands out no token that is the entrance of a grant. -/
def Unused (o : OperatorState) (h : Host) : Prop :=
  ∀ token, h.hole = some token → o.authority.Fresh token

/-- What the watermarks and entrances keep. -/
theorem reached_marked {system actor : TaskId} (hr : Reached Unused system actor o) :
    o.authority.Marked := by
  have hkeep : ∀ a a' : Authority, a.Sound → a.Marked →
      ReflTransGen (Authority.Shift Authority.Fresh fun _ _ => True) a a' → a'.Marked := by
    intro a a' hs hm hshift
    induction hshift with
    | refl => exact hm
    | tail hrest hstep ih => exact marked_shift ih (sound_shifts hs hrest) hstep
  induction hr with
  | new => exact marked_new system actor
  | boot h caller entrance hr ih =>
    exact hkeep _ _ (reached_consistent hr).authority ih
      (.single (shift_bootstrapRoot h.room caller _ entrance))
  | @handle o h via caller request hw hr ih =>
    have hc := reached_consistent hr
    have hE : ∀ (a : Authority) (token : PieToken), h.hole = some token →
        (∀ r ∈ a.records, r.entrance = some token → r ∈ o.authority.records) → a.Fresh token :=
      fun a token hhole hold r hmem he => hw token hhole r (hold r hmem he) he
    exact hkeep _ _ hc.authority ih (handle_serves hc hE request).authority

/-! ## One grant -/

/-- Every effect that a revocation needs succeeds. -/
structure Succeeds (h : Host) : Prop where
  room : h.room = true
  detach : ∀ token, h.detach token = true
  shut : ∀ token, h.shut token = true
  release : ∀ token, h.release token = true
  drops : ∀ id, h.kernel.drops id = true

variable {key : GrantKey} {r : Record}

section

variable {a0 : Authority} {S : Record → Bool} {K : List Record}

/-- One step of the clean-up of an entrance. -/
theorem stage_spec (step : Nat) (f : Record → Record) (taken : Bool) {effect : Bool}
    (hl : Authority.Left a0 S K o.authority) (hr : o.authority.byKey key = some r)
    (heffect : effect = true) (htaken : taken = true → f r = r)
    (hf : ∀ r, Authority.Kin r (f r) ∧ (f r).state = r.state)
    (hstep : o.authority.cleanupStep key step = (.ok (), o.authority.updateKey key f)) :
    ∃ a, o.stage taken effect key step = (.ok (), { o with authority := a }) ∧
      Authority.Left a0 S K a ∧ a.byKey key = some (f r) := by
  have hget : (o.authority.updateKey key f).byKey key = some (f r) := by
    refine (get_update (fun x hx => by rw [(hf x).1.key, hx]) key).trans ?_
    rw [if_pos rfl, show Keyed.get Record.key o.authority.records key = _ from hr, map_some]
  refine ⟨o.authority.updateKey key f, ?_, hl.updateKey hf, hget⟩
  unfold stage
  split
  · next ht => rw [updateKey_self hr (htaken ht)]
  · rw [if_neg (by simp [heffect]), hstep]

theorem cleanupEntrance_spec (hh : Succeeds h) (hl : Authority.Left a0 S K o.authority)
    (hr : o.authority.byKey key = some r) (hstate : r.state = .revoking)
    (entrance : Option PieToken) :
    ∃ a, o.cleanupEntrance h key entrance = (.ok (), { o with authority := a }) ∧
      Authority.Left a0 S K a := by
  cases entrance with
  | none => exact ⟨o.authority, rfl, hl⟩
  | some token =>
    simp only [cleanupEntrance, cleanupProgress, hr, map_some]
    have hdetach : (!r.attached || h.detach token) = true := by simp [hh.detach]
    obtain ⟨a1, hstage1, hl1, hr1⟩ := stage_spec 0 (fun r => { r with detached := true })
      r.detached hl hr hdetach (fun ht => by rw [← ht]) (fun r => ⟨⟨rfl, rfl, rfl, rfl, rfl⟩, rfl⟩)
      (by simp [cleanupStep, hr, hstate])
    rw [hstage1]
    simp only [andThen]
    obtain ⟨a2, hstage2, hl2, hr2⟩ := stage_spec (o := { o with authority := a1 }) 1
      (fun r => { r with shut := true }) r.shut hl1 hr1 (hh.shut token) (fun ht => by rw [← ht])
      (fun r => ⟨⟨rfl, rfl, rfl, rfl, rfl⟩, rfl⟩) (by simp [cleanupStep, hr1, hstate])
    rw [hstage2]
    obtain ⟨a3, hstage3, hl3, -⟩ := stage_spec (o := { o with authority := a2 }) 2
      (fun r => { r with released := true }) r.released hl2 hr2 (hh.release token)
      (fun ht => by rw [← ht]) (fun r => ⟨⟨rfl, rfl, rfl, rfl, rfl⟩, rfl⟩)
      (by simp [cleanupStep, hr2, hstate])
    exact ⟨a3, hstage3, hl3⟩

/-- Was the node made by one of the grants? -/
def gone (t : Tree) (K : List Record) (x : EntryId) : Bool := K.any fun r => t.owned r.key x

/-- The grant can be closed after those of `K`. -/
def Ready (t : Tree) (a : Authority) (K : List Record) (r : Record) : Prop :=
  t.Nested (gone t K) r.key t.slots.length ∧ ∀ c ∈ a.records, c.parent = some r.key → c ∈ K

variable {t0 : Tree}

theorem closeGrant_spec (hh : Succeeds h) (h0 : a0.Sound) (hi : t0.Inv)
    (hl : Authority.Left a0 S K o.authority) (hc : Tree.Cut (gone t0 K) t0 o.tree)
    (hr : r ∈ a0.records) (hK : r ∉ K) (hS : S r = true) :
    ((o.closeGrant h (closing r)).1 = .ok () ↔ Ready t0 a0 K r) ∧
    ((o.closeGrant h (closing r)).1 = .ok () →
      Authority.Left a0 S (r :: K) (o.closeGrant h (closing r)).2.authority ∧
      Tree.Cut (gone t0 (r :: K)) t0 (o.closeGrant h (closing r)).2.tree) := by
  obtain ⟨r', hkey, -, -, -, hstate⟩ := hl.find h0 hr hK
  obtain ⟨a, hclean, hla⟩ :=
    cleanupEntrance_spec hh hl hkey (hstate.trans (if_pos hS)) r.entrance
  obtain ⟨hnest, hcut⟩ := cleanup_spec hi hh.drops r.key hc
  unfold closeGrant closing
  rw [hclean]
  simp only [andThen, cleanupNodes]
  cases hn : o.tree.cleanupAuthority h.kernel r.key with
  | mk res t' =>
    rw [hn] at hnest hcut
    cases res with
    | error f =>
      refine ⟨⟨(fun he => nomatch he), fun hready => ?_⟩, fun he => nomatch he⟩
      cases hnest.2 hready.1
    | ok =>
      obtain ⟨hiff, hok⟩ := hla.closed h0 hr hK hS
      cases hc : a.closed r.ref with
      | mk res a' =>
        rw [hc] at hiff hok
        simp only [grantClosed, forget, hc]
        cases res with
        | error e =>
          refine ⟨⟨(fun he => nomatch he), fun hready => ?_⟩, fun he => nomatch he⟩
          cases hiff.2 hready.2
        | ok =>
          exact ⟨⟨fun _ => ⟨hnest.1 rfl, hiff.1 rfl⟩, fun _ => rfl⟩, fun _ => ⟨hok rfl,
            (hcut rfl).congr fun x => by rw [gone, gone, any_cons, Bool.or_comm]⟩⟩

/-! ## One after the other -/

theorem closeAll_eq (rs : List Record) (o : OperatorState) :
    closeAll h (rs.map closing) o =
      each (fun r o => o.closeGrant h (closing r)) rs o := by
  induction rs generalizing o with
  | nil => rfl
  | cons r rs ih =>
    rw [map_cons, closeAll, each]
    cases o.closeGrant h (closing r) with
    | mk res o1 =>
      cases res with
      | error f => rfl
      | ok => exact ih o1

end

/-! ## The whole -/

section

variable {g : Record}

/-- What is answered when the loop has ended. -/
def ended (h : Host) (ref : GrantRef) : Except Fail Unit × OperatorState → Answer × OperatorState
  | (.error f, o) => (.fail f, o)
  | (.ok (), o) => (o.grantState h ref, o)

/-- What a revocation of a grant starts from: the subtree is marked, and the plan is made of it. -/
theorem revoke_eq (hs : o.authority.Sound) (hh : Succeeds h) (hg : g ∈ o.authority.records)
    (hroot : g.key ≠ 0) {c : Call} (hvia : c.via = g.via) (hcaller : c.caller = g.issuer) :
    ∃ a, Authority.Left o.authority (o.authority.descends g.key) [] a ∧
      o.revoke h c g.spec.id = ended h g.ref (closeAll h
        (((o.authority.records.filter (o.authority.descends g.key)).reverse).map closing)
        { o with authority := a }) := by
  have hbyRef := hs.byRef hg
  have href : (⟨c.via, c.caller, g.spec.id⟩ : GrantRef) = g.ref := by rw [hvia, hcaller]; rfl
  -- the grant is marked
  obtain ⟨a1, ha1, hrev⟩ : ∃ a1, a1 = o.authority.updateRef g.ref
      (fun r => { r with state := .revoking }) ∧
      o.authority.revoke h.room g.ref = (.ok .revoking, a1) := by
    refine ⟨_, rfl, ?_⟩
    unfold Authority.revoke
    simp only [hbyRef, if_neg hroot, if_neg (hs.current g hg)]
  have hrel1 : List.Forall₂ (fun r r' => Authority.Kin r r' ∧
      (r'.state = r.state ∨ r'.state = .revoking ∧ r = g)) o.authority.records a1.records := by
    rw [ha1]
    refine forall₂_update (fun r _ => ⟨.refl r, .inl rfl⟩) fun r hr =>
      ⟨⟨rfl, rfl, rfl, rfl, rfl⟩, .inr ⟨rfl, ?_⟩⟩
    have hr : o.authority.byRef g.ref = some r := hr
    rw [hbyRef] at hr
    exact (some.inj hr).symm
  have hboth1 : List.Forall₂ (fun r r' => Authority.Same r r' ∧ Authority.Kin r r')
      o.authority.records a1.records :=
    hrel1.imp fun r r' hk => ⟨⟨hk.1.key, hk.1.ref, hk.1.parent, hk.1.spec,
      fun e he => by rw [hk.1.entrance, he], hk.2.imp id fun hr => .inl hr.1⟩, hk.1⟩
  have hsame1 := hboth1.imp fun _ _ hk => hk.1
  have hs1 : a1.Sound := sound_same hs hsame1 (by rw [ha1]; rfl)
  obtain ⟨g1, hg1, hkin1, -⟩ := exists_of_forall₂_left hrel1 hg
  -- and then the subtree
  obtain ⟨a2, hplan, hl⟩ := revokePlan_left hs1 hg1
  have hdescends : ∀ r r', Authority.Same r r' →
      a1.descends g1.key r' = o.authority.descends g.key r := by
    intro r r' hk
    rw [hkin1.key]
    exact descends_same hsame1 hk g.key
  rw [map_reverse, map_filter_of_forall₂ hboth1 (fun r r' hk => hdescends r r' hk.1)
    (f := closing) fun r r' hk => by
      unfold closing
      rw [hk.2.key, hk.2.ref, hk.2.entrance], hkin1.ref, ← map_reverse] at hplan
  refine ⟨a2, ⟨hl.sound, fun x hx => ?_, fun r hr _ => ?_, fun v c hv => ?_⟩, ?_⟩
  · obtain ⟨r', hr', -, hkin, hstate⟩ := hl.back x hx
    obtain ⟨r, hr, hk, hmarked⟩ := exists_of_forall₂_right hrel1 hr'
    refine ⟨r, hr, not_mem_nil, hk.trans hkin, hstate.trans ?_⟩
    have hsame : Authority.Same r r' := ⟨hk.key, hk.ref, hk.parent, hk.spec,
      fun e he => by rw [hk.entrance, he], hmarked.imp id fun hr => .inl hr.1⟩
    rw [hdescends r r' hsame]
    rcases hmarked with he | ⟨-, rfl⟩
    · rw [he]
    · have hd : o.authority.descends r.key r = true := (descends_iff hs hr hr).2 .refl
      rw [if_pos hd, if_pos hd]
  · obtain ⟨r', hr', hk, -⟩ := exists_of_forall₂_left hrel1 hr
    obtain ⟨x, hx, hkin⟩ := hl.forth r' hr' not_mem_nil
    exact ⟨x, hx, hk.trans hkin⟩
  · exact (hl.mark v c fun _ hr => nomatch hr).trans (by rw [ha1]; rfl)
  rw [hh.room] at hrev
  unfold revoke
  simp only [href, hh.room, hrev, hplan]
  rfl

/-- The order of the records suits a grant: its children stand behind it, and what lies in its panes
was made by it or by a grant behind it. -/
structure Suits (o : OperatorState) (r : Record) : Prop where
  children : ∀ c ∈ o.authority.records, c.parent = some r.key →
    Lists.After o.authority.records r c
  nodes : ∀ p s, o.tree.slot p = some s → s.authority = some r.key → ∀ x ∈ s.node.inner,
    ∀ s', o.tree.slot x = some s' → ∃ q ∈ o.authority.records, s'.authority = some q.key ∧
      (q = r ∨ Lists.After o.authority.records r q)

/-- The order suits a grant and all below it. -/
def Orderly (o : OperatorState) (g : Record) : Prop :=
  ∀ r ∈ o.authority.records, o.authority.Under r g → o.Suits r

/-- The node was made by the grant or one below it. -/
def Belongs (o : OperatorState) (g : Record) (x : EntryId) : Prop :=
  ∃ s, o.tree.slot x = some s ∧ ∃ r ∈ o.authority.records, o.authority.Under r g ∧
    s.authority = some r.key

theorem owned_iff {t : Tree} {x : EntryId} :
    t.owned key x = true ↔ ∃ s, t.slot x = some s ∧ s.authority = some key := by
  unfold owned
  rw [Option.any_eq_true]
  simp

theorem gone_iff {t : Tree} {K : List Record} {x : EntryId} :
    gone t K x = true ↔ ∃ s, t.slot x = some s ∧ ∃ q ∈ K, s.authority = some q.key := by
  unfold gone
  simp only [List.any_eq_true, owned_iff]
  constructor
  · rintro ⟨q, hq, s, hs, ha⟩
    exact ⟨s, hs, q, hq, ha⟩
  · rintro ⟨s, hs, q, hq, ha⟩
    exact ⟨q, hq, s, hs, ha⟩

/-- A grant can be closed after those of the subtree behind it exactly if the order suits it. -/
theorem ready_iff (hs : o.authority.Sound) (hg : g ∈ o.authority.records)
    (hpanes : ∀ p, o.Belongs g p → ∀ x ∈ o.tree.children (.node p), o.Belongs g x)
    (hr : r ∈ o.authority.records) (hd : o.authority.descends g.key r = true) {K : List Record}
    (hK : ∀ q, q ∈ K ↔ o.authority.descends g.key q = true ∧ After o.authority.records r q) :
    Ready o.tree o.authority K r ↔ o.Suits r := by
  have hrecords : ∀ q ∈ K, q ∈ o.authority.records ∧ q ≠ r := fun q hq =>
    ((hK q).1 hq).2.mem (List.Nodup.of_map _ hs.keys)
  have hu := (descends_iff hs hr hg).1 hd
  constructor
  · rintro ⟨hnest, hchild⟩
    refine ⟨fun c hc hp => ((hK c).1 (hchild c hc hp)).2, fun p s hp ha x hx s' hs' => ?_⟩
    -- the pane is there when the grant's turn comes
    have hthere : gone o.tree K p = false := by
      by_contra hgone
      obtain ⟨s1, hs1, q, hq, hqa⟩ := gone_iff.1 (by simpa using hgone)
      cases hp.symm.trans hs1
      rw [ha] at hqa
      obtain ⟨hq0, hne⟩ := hrecords q hq
      exact hne (hs.eq_of_key hr hq0 (some.inj hqa)).symm
    rcases hnest p (slot_lt hp) s hp ha hthere x hx with hx | hx
    · obtain ⟨s1, hs1, q, hq, hqa⟩ := gone_iff.1 hx
      cases hs'.symm.trans hs1
      exact ⟨q, (hrecords q hq).1, hqa, .inr ((hK q).1 hq).2⟩
    obtain ⟨s1, hs1, hra⟩ := owned_iff.1 hx
    cases hs'.symm.trans hs1
    exact ⟨r, hr, hra, .inl rfl⟩
  · intro hsuits
    refine ⟨fun p _ s hp ha _ x hx => ?_, fun c hc hp => ?_⟩
    · rw [← children_node hp] at hx
      obtain ⟨s', hs', r', hr', hu', ha'⟩ := hpanes p ⟨s, hp, r, hr, hu, ha⟩ x hx
      rw [children_node hp] at hx
      obtain ⟨q, hq, hqa, hqr⟩ := hsuits.nodes p s hp ha x hx s' hs'
      have hqr' : q = r' := hs.eq_of_key hq hr' (some.inj (hqa.symm.trans ha'))
      subst hqr'
      rcases hqr with rfl | hafter
      · exact .inr (owned_iff.2 ⟨s', hs', hqa⟩)
      · exact .inl (gone_iff.2 ⟨s', hs', q, (hK q).2
          ⟨(descends_iff hs hq hg).2 hu', hafter⟩, hqa⟩)
    · refine (hK c).2 ⟨(descends_iff hs hc hg).2 ?_, hsuits.children c hc hp⟩
      exact .head ⟨hr, hp⟩ hu

/-- When nothing of the subtree is left, the issuer is told that the grant is closed. -/
theorem closed_after {a : Authority} (hs : o.authority.Sound) (hm : o.authority.Marked)
    (hg : g ∈ o.authority.records) (hroot : g.key ≠ 0)
    (hl : Authority.Left o.authority (o.authority.descends g.key)
      (o.authority.records.filter (o.authority.descends g.key)) a) : a.inspect g.ref = .closed := by
  have hnone : a.byRef g.ref = none := by
    refine get_eq_none_iff.2 fun r' hr' he => ?_
    obtain ⟨r, hr, hK, hk, -⟩ := hl.back r' hr'
    have : r = g := inj_on_of_nodup_map hs.refs hr hg (by rw [← hk.ref, he])
    subst this
    exact hK (mem_filter.2 ⟨hr, (descends_iff hs hr hg).2 .refl⟩)
  have hparent : g.parent ≠ none := fun hp => hroot (hm.rooted g hg hp)
  obtain ⟨n, hn, hle⟩ := hm.covered g hg hparent
  -- the entrance the grant came through is its parent's, and stays
  have hopen : ∀ r ∈ o.authority.records.filter (o.authority.descends g.key),
      r.entrance ≠ some g.via := by
    intro r hr he
    obtain ⟨hr0, hd⟩ := mem_filter.1 hr
    obtain ⟨p, hp⟩ := ne_none_iff_exists'.1 hparent
    obtain ⟨q, hq, -, hlt, -, hent, -⟩ := hs.parents g hg p hp
    have hkey := hm.entrances r hr0 q hq _ he hent
    have hle := le_of_under hs hr0 ((descends_iff hs hr0 hg).1 hd)
    rw [hkey] at hle
    exact Nat.not_lt.2 hle hlt
  unfold inspect
  rw [hnone]
  have hmark : a.mark g.ref.via g.ref.caller = some n := (hl.mark g.via g.issuer hopen).trans hn
  simp only [hmark, getD_some]
  exact if_pos hle

/-- Once the request is let in, the revocation comes to its end exactly if the order suits. -/
theorem revoke_closes {system actor : TaskId} (hr : Reached Unused system actor o)
    (hg : g ∈ o.authority.records)
    (hpanes : ∀ p, o.Belongs g p → ∀ x ∈ o.tree.children (.node p), o.Belongs g x)
    (hh : Succeeds h) {c : Call} (hvia : c.via = g.via) (hcaller : c.caller = g.issuer) :
    ((o.revoke h c g.spec.id).1 = .grant .closed ∧
      (∀ r ∈ o.authority.records, o.authority.Under r g →
        ∀ r' ∈ (o.revoke h c g.spec.id).2.authority.records, r'.key ≠ r.key) ∧
      ∃ D : EntryId → Bool, (∀ x, D x = true ↔ o.Belongs g x) ∧
        Tree.Cut D o.tree (o.revoke h c g.spec.id).2.tree) ↔
    g.key ≠ 0 ∧ o.Orderly g := by
  obtain ⟨hi, hs, -⟩ := reached_consistent hr
  have hm := reached_marked hr
  have hdescends := fun r (hr : r ∈ o.authority.records) => descends_iff hs hr hg
  by_cases hroot : g.key = 0
  · -- the root grant is not taken back
    have hdenied : o.revoke h c g.spec.id = (.fail .denied, o) := by
      have href : (⟨c.via, c.caller, g.spec.id⟩ : GrantRef) = g.ref := by rw [hvia, hcaller]; rfl
      have hrev : o.authority.revoke h.room g.ref = (.error .denied, o.authority) := by
        unfold Authority.revoke
        simp only [hs.byRef hg, if_pos hroot]
      unfold revoke
      simp only [href, hrev]
    rw [hdenied]
    exact ⟨(fun ⟨hans, _⟩ => nomatch hans), fun ⟨hne, _⟩ => absurd hroot hne⟩
  · obtain ⟨a, hleft, hrev⟩ := revoke_eq hs hh hg hroot hvia hcaller
    have hcut : Tree.Cut (gone o.tree []) o.tree o.tree := cut_refl hi
    have hn : o.authority.records.Nodup := List.Nodup.of_map _ hs.keys
    obtain ⟨hiff, hok⟩ := each_spec
      (I := fun K o' => Authority.Left o.authority (o.authority.descends g.key) K o'.authority ∧
        Tree.Cut (gone o.tree K) o.tree o'.tree)
      (P := fun r => r ∈ o.authority.records ∧ o.authority.descends g.key r = true)
      (fun K r o' hI hK hP => closeGrant_spec hh hs hi hI.1 hI.2 hP.1 hK hP.2)
      (s := { o with authority := a }) ⟨hleft, hcut⟩ (fun r hr => ⟨not_mem_nil, by simpa using hr⟩)
      (nodup_reverse.2 (hn.filter (o.authority.descends g.key)))
    have horder : (∀ r ∈ o.authority.records, o.authority.descends g.key r = true → o.Suits r) ↔
        o.Orderly g := forall₂_congr fun r hr => by rw [hdescends r hr]
    rw [inTurn_filter hn fun r hr hd K hK => ready_iff hs hg hpanes hr hd hK, horder] at hiff
    rw [hrev, closeAll_eq]
    cases hres : each (fun r o => o.closeGrant h (closing r))
        (o.authority.records.filter (o.authority.descends g.key)).reverse
        { o with authority := a } with
    | mk res o' =>
      rw [hres] at hiff hok
      cases res with
      | error f =>
        refine ⟨(fun ⟨hans, _⟩ => nomatch hans), fun ⟨_, horder⟩ => ?_⟩
        cases hiff.2 horder
      | ok =>
        refine ⟨fun _ => ⟨hroot, hiff.1 rfl⟩, fun _ => ?_⟩
        obtain ⟨hleft', hcut'⟩ := hok rfl
        rw [reverse_reverse, append_nil] at hleft' hcut'
        have hclosed := closed_after hs hm hg hroot hleft'
        refine ⟨?_, fun r hr hu r' hr' hkey => ?_, _, fun x => ?_, hcut'⟩
        · simp [ended, grantState, hclosed]
        · obtain ⟨q, hq, hqK, hk, -⟩ := hleft'.back r' hr'
          rw [hs.eq_of_key hq hr (by rw [← hk.key, hkey])] at hqK
          exact hqK (mem_filter.2 ⟨hr, (hdescends r hr).2 hu⟩)
        rw [gone_iff]
        constructor
        · rintro ⟨s, hs, q, hq, ha⟩
          obtain ⟨hq0, hd⟩ := mem_filter.1 hq
          exact ⟨s, hs, q, hq0, (hdescends q hq0).1 hd, ha⟩
        · rintro ⟨s, hs, q, hq, hu, ha⟩
          exact ⟨s, hs, q, mem_filter.2 ⟨hq, (hdescends q hq).2 hu⟩, ha⟩

theorem handle_revoke (anchor : Where) (id : Nat) :
    (o.mayRevoke g.via g.issuer anchor = true ∧ ∃ c : Call, c.via = g.via ∧ c.caller = g.issuer ∧
      o.handle h g.via g.issuer (.revoke anchor id) = o.revoke h c id) ∨
    o.mayRevoke g.via g.issuer anchor = false ∧
      o.handle h g.via g.issuer (.revoke anchor id) = (.fail .denied, o) := by
  unfold mayRevoke handle
  cases o.authority.grantAt g.via g.issuer with
  | none => exact .inr ⟨rfl, rfl⟩
  | some r =>
    simp only [any_some, execute, guarded]
    split
    · next hlet => exact .inl ⟨hlet, _, rfl, rfl, rfl⟩
    · next hlet => exact .inr ⟨Bool.eq_false_iff.2 hlet, rfl⟩

/-- Where the panes of a grant's subtree hold only nodes of it and the kernel does what it is asked,
the issuer's REVOKE ends with the answer that the grant is closed, its subtree without a record and
its nodes, and no others, taken out of the tree, exactly if the grant is not the root's, the issuer
may revoke, and the records and nodes of the subtree stand in order. -/
theorem revoke_completes {system actor : TaskId} (hr : Reached Unused system actor o)
    (hg : g ∈ o.authority.records)
    (hpanes : ∀ p, o.Belongs g p → ∀ x ∈ o.tree.children (.node p), o.Belongs g x)
    (hh : Succeeds h) (anchor : Where) {answer : Answer} {o' : OperatorState}
    (hrun : o.handle h g.via g.issuer (.revoke anchor g.spec.id) = (answer, o')) :
    (answer = .grant .closed ∧
      (∀ r ∈ o.authority.records, o.authority.Under r g →
        ∀ r' ∈ o'.authority.records, r'.key ≠ r.key) ∧
      ∃ D : EntryId → Bool, (∀ x, D x = true ↔ o.Belongs g x) ∧ Tree.Cut D o.tree o'.tree) ↔
    g.key ≠ 0 ∧ o.mayRevoke g.via g.issuer anchor = true ∧ o.Orderly g := by
  rcases handle_revoke (h := h) anchor g.spec.id with
    ⟨hmay, c, hvia, hcaller, heq⟩ | ⟨hmay, heq⟩
  · have hcloses := revoke_closes hr hg hpanes hh hvia hcaller
    rw [← heq, hrun] at hcloses
    rw [hcloses, hmay]
    simp
  · obtain ⟨rfl, rfl⟩ := Prod.mk.inj (hrun.symm.trans heq)
    rw [hmay]
    exact ⟨(fun ⟨hans, _⟩ => nomatch hans), (fun ⟨_, hmay, _⟩ => nomatch hmay)⟩

end

/-! ## Two runs -/

private def hosting (token : PieToken) : Host :=
  ⟨⟨true, fun _ => true, fun _ => true⟩, true, some token, some (token + 100), true, fun _ => true,
    fun _ => true, fun _ => true, fun _ => true, true, none, true, fun _ => true⟩

/-- A request, and the token the kernel has at hand. -/
private structure Demand where
  token : PieToken
  via : PieToken
  caller : TaskId
  request : Request

private def answer (o : OperatorState) (d : Demand) : OperatorState :=
  (o.handle (hosting d.token) d.via d.caller d.request).2

private def opened : OperatorState := ((OperatorState.new 9 1).bootstrapRoot (hosting 0) 9 100).2

private def fair : OperatorState → List Demand → Bool
  | _, [] => true
  | o, d :: l => (o.authority.records.all fun r => r.entrance ≠ some d.token) && fair (answer o d) l

private theorem reached_answers {l : List Demand} (hr : Reached Unused 9 1 o)
    (hf : fair o l = true) :
    Reached Unused 9 1 (l.foldl answer o) := by
  induction l generalizing o with
  | nil => exact hr
  | cons d l ih =>
    rw [fair, Bool.and_eq_true, List.all_eq_true] at hf
    refine ih (.handle (hosting d.token) d.via d.caller d.request ?_ hr) hf.2
    intro token htoken r hmem
    cases htoken
    simpa using hf.1 r hmem

private theorem succeeds_hosting (token : PieToken) : Succeeds (hosting token) :=
  ⟨rfl, fun _ => rfl, fun _ => rfl, fun _ => rfl, fun _ => rfl⟩

private def borrow (id : Nat) (holder : TaskId) : GrantSpec :=
  ⟨id, holder, ⟨1, .node 0⟩, .subtree, Ops.ALL, none, none, none⟩

/-- A pane, a grant below it, and a pane that the holder makes there. -/
private def settled : OperatorState :=
  [Demand.mk 101 100 9 (.part 1 .root ['a']), ⟨101, 100, 9, .grant 0 (borrow 2 5)⟩,
    ⟨102, 101, 5, .part 1 (.node 0) ['b']⟩].foldl answer opened

private def settler : Record :=
  ⟨1, 9, 100, some 0, borrow 2 5, .granted, some 101, some 201, true, false, false, false⟩

/-- The issuer's REVOKE closes the grant and takes its pane out of the tree. -/
theorem revoke_completes_settled : ∃ o',
    settled.handle (hosting 102) 100 9 (.revoke .root 2) = (.grant .closed, o') ∧
    (settled.tree.slot 1).isSome ∧ o'.tree.slot 1 = none := by
  have hr : Reached Unused 9 1 settled :=
    reached_answers (.boot (hosting 0) 9 100 .new) (by decide +kernel)
  have hmem : settler ∈ settled.authority.records := by decide +kernel
  have hkeys : ∀ r ∈ settled.authority.records, r.key = 0 ∨ r = settler := by decide +kernel
  have hslots : ∀ id < 2, ∀ s ∈ settled.tree.slot id, s.authority = some 1 →
      id = 1 ∧ s.node.inner = [] := by decide +kernel
  have hlength : settled.tree.slots.length = 2 := by decide +kernel
  have hchild : ∀ c ∈ settled.authority.records, c.parent ≠ some settler.key := by decide +kernel
  have hs := (reached_consistent hr).authority
  -- the grant has nothing below it but its own empty pane
  have hunder : ∀ r ∈ settled.authority.records, settled.authority.Under r settler →
      r = settler := by
    intro r hr hu
    rcases hkeys r hr with h0 | rfl
    · have := le_of_under hs hr hu
      rw [h0] at this
      cases this
    · rfl
  have hown : ∀ p s, settled.tree.slot p = some s → s.authority = some settler.key →
      s.node.inner = [] := fun p s hp ha =>
    (hslots p (hlength ▸ slot_lt hp) s hp ha).2
  have horder : settled.Orderly settler := by
    intro r hr hu
    obtain rfl := hunder r hr hu
    refine ⟨fun c hc hp => absurd hp (hchild c hc), fun p s hp ha x hx => ?_⟩
    rw [hown p s hp ha] at hx
    cases hx
  have hpanes : ∀ p, settled.Belongs settler p → ∀ x ∈ settled.tree.children (.node p),
      settled.Belongs settler x := by
    rintro p ⟨s, hp, r, hr, hu, ha⟩ x hx
    obtain rfl := hunder r hr hu
    rw [children_node hp, hown p s hp ha] at hx
    cases hx
  rcases hrun : settled.handle (hosting 102) settler.via settler.issuer
    (.revoke .root settler.spec.id) with ⟨answer, o'⟩
  obtain ⟨rfl, -, D, hD, hcut⟩ := (revoke_completes hr hmem hpanes (succeeds_hosting 102) .root
    hrun).2 ⟨by decide, by decide +kernel, horder⟩
  have hone : D 1 = true := (hD 1).2 (by
    have hslot : ∃ s, settled.tree.slot 1 = some s ∧ s.authority = some 1 := by
      refine ⟨⟨['b'], .pane [], 2, some 1, 0, 0⟩, ?_⟩
      decide +kernel
    obtain ⟨s, hs, ha⟩ := hslot
    exact ⟨s, hs, settler, hmem, .refl, ha⟩)
  refine ⟨o', hrun, by decide +kernel, ?_⟩
  have := hcut.slot 1
  rwa [hone, if_pos rfl] at this

/-- Two grants, and one made under the second.  Closing the first moves the last record in its
place, so that the second is closed before the one below it. -/
private def shuffled : OperatorState :=
  [Demand.mk 101 100 9 (.part 1 .root ['a']), ⟨101, 100, 9, .grant 0 (borrow 2 5)⟩,
    ⟨102, 100, 9, .grant 0 (borrow 3 6)⟩, ⟨103, 102, 6, .grant 3 (borrow 1 7)⟩,
    ⟨104, 100, 9, .revoke .root 2⟩].foldl answer opened

private def parent : Record :=
  ⟨2, 9, 100, some 0, borrow 3 6, .granted, some 102, some 202, true, false, false, false⟩

/-- The issuer may revoke the second grant and the kernel does what it is asked, but the REVOKE ends
with an error. -/
theorem leaves_parent :
    Reached Unused 9 1 shuffled ∧ parent ∈ shuffled.authority.records ∧ parent.key ≠ 0 ∧
    (∀ p, shuffled.Belongs parent p → ∀ x ∈ shuffled.tree.children (.node p),
      shuffled.Belongs parent x) ∧
    Succeeds (hosting 104) ∧ shuffled.mayRevoke parent.via parent.issuer .root = true ∧
    (shuffled.handle (hosting 104) 100 9 (.revoke .root 3)).1 = .fail .dead := by
  have hr : Reached Unused 9 1 shuffled :=
    reached_answers (.boot (hosting 0) 9 100 .new) (by decide +kernel)
  have hmem : parent ∈ shuffled.authority.records := by decide +kernel
  have hslots : ∀ id < 1, ∀ s ∈ shuffled.tree.slot id, s.authority = some 0 := by decide +kernel
  have hlength : shuffled.tree.slots.length = 1 := by decide +kernel
  refine ⟨hr, hmem, by decide, ?_, succeeds_hosting 104, by decide +kernel, by decide +kernel⟩
  -- no node was made by the grant or one below it
  rintro p ⟨s, hp, r, hr', hu, ha⟩
  have hroot := hslots p (hlength ▸ slot_lt hp) s hp
  have hle := le_of_under (reached_consistent hr).authority hr' hu
  rw [← some.inj (hroot.symm.trans ha)] at hle
  cases hle

end OperatorState

end Sqware.Operator
