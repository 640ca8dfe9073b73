import Sqware.Operator.Records
import Sqware.Operator.Runtime
import Sqware.Operator.TreeRun

/-!
# Grants only narrow

A grant is compared with the one it is made under once, by the texts of their anchors' paths.  As
long as the lower anchor is in the tree it stays below the upper one at the same names, so whatever
the lower grant allows later the upper one does.
-/

namespace Sqware.Operator

open Relation Segments List Authority Sqware.Operator.Tree

/-! ## One grant inside another -/

/-- Every grant counts as live: whether an ancestor's anchor is visible is left out of the tests. -/
def always : GrantKey → Bool := fun _ => true

theorem named_below {l r : List Text} (hl : Proper '/' l) (hr : Proper '/' r) (hne : l ≠ [])
    (name : Text) :
    named (join '/' (l ++ r)) name = below (join '/' l) (named (join '/' r) name) := by
  have hl' : join '/' l ≠ [] := fun he => hne ((join_eq_nil hl).1 he)
  by_cases hr' : r = []
  · subst hr'
    by_cases hn : name = [] <;> simp [named, below, join, hn, hl']
  · have hj : join '/' r ≠ [] := fun he => hr' ((join_eq_nil hr).1 he)
    rw [join_append hne hr']
    by_cases hn : name = [] <;> simp [named, below, hn, hl', hj]

/-- What the restrictions of a grant and of the one it is made under have to do with each other. -/
structure Inside (t : Tree) (q r : GrantSpec) : Prop where
  ops : q.ops.contains r.ops = true
  permit : ∀ p, q.permit = some p → r.permit = some p
  source : ∀ s, q.source = some s → r.source = some s
  sourceMark : ∀ m, q.sourceMark = some m → r.sourceMark = some m
  operator : q.anchor.operator = r.anchor.operator
  node : r.anchor.target ≠ .root
  scope : ∃ names, Proper '/' names ∧ grantScopeNarrows q r (join '/' names) = true ∧
    ∀ id, r.anchor.target = .node id → (t.slot id).isSome →
      t.Leads q.anchor.target names (.node id)

namespace Tree

variable {t t' : Tree}

theorem Leads.start_isSome {a w : Where} {names : List Text} (hl : t.Leads a names w)
    (hw : ∀ id, w = .node id → (t.slot id).isSome) :
    ∀ id, a = .node id → (t.slot id).isSome := by
  induction hl with
  | here => exact hw
  | @down names w id s _ hm hs ih =>
    refine ih fun up hup => ?_
    subst hup
    cases hup : t.slot up with
    | none =>
      rw [children_of_none hup] at hm
      cases hm
    | some r => rfl

theorem visible_always {id : EntryId} (h : (t.slot id).isSome) : t.visible always id = true := by
  obtain ⟨s, hs⟩ := Option.isSome_iff_exists.1 h
  unfold visible
  rw [hs]
  cases ha : s.authority <;> simp [ha, always]

theorem Seen.always {live : GrantKey → Bool} {e : Entry} (h : t.Seen live e) :
    t.Seen always e :=
  ⟨h.1, fun id hid => visible_always (visible_isSome (h.2 id hid))⟩

theorem edits_keeps (h : t.Inv) (he : Edits t t') :
    Keeps t t' ∧ t.slots.length ≤ t'.slots.length := by
  induction he with
  | refl => exact ⟨fun id s _ hs => ⟨s, hs, rfl, fun w hw => hw⟩, Nat.le_refl _⟩
  | tail hs he ih =>
    have hi := edits_inv h hs
    obtain ⟨hk, hlen⟩ := ih
    refine ⟨fun id s hid hs => ?_, Nat.le_trans hlen (edit_careful hi he).length⟩
    obtain ⟨r, hr, hn, hm⟩ := edit_keeps hi he id s (Nat.lt_of_lt_of_le hid hlen) hs
    obtain ⟨q, hq, hn', hm'⟩ := hk id r hid hr
    exact ⟨q, hq, hn.trans hn', fun w hw => hm w (hm' w hw)⟩

end Tree

section

variable {t t' : Tree} {live : GrantKey → Bool} {q r : GrantSpec} {anchor : Entry} {op : Ops}
  {name : Text}

theorem permits_iff : permits t live r anchor op name = true ↔
    r.ops.contains op = true ∧ ∃ base, t.relativeTo live r.anchor anchor = some base ∧
      ¬ (op = Ops.UNPART ∧ named base name = []) ∧ r.scope.allows (named base name) = true := by
  simp only [permits, Bool.and_eq_true, Option.any_eq_true, Bool.not_eq_true',
    Bool.and_eq_false_iff,
    decide_eq_false_iff_not, not_and_or]

/-- A grant inside another allows no more. -/
theorem permits_inside (h : t.Inv) (hi : Inside t q r)
    (hp : permits t always r anchor op name = true) : permits t always q anchor op name = true := by
  obtain ⟨hops, base, hrel, hun, hallow⟩ := permits_iff.1 hp
  obtain ⟨hseen, ha, l, rest, hl, hl', hf, rfl⟩ := (relativeTo_iff h).1 hrel
  obtain ⟨names, hproper, hscope, hlead⟩ := hi.scope
  -- the lower anchor is there, so it lies below the upper one
  have hlead : t.Leads q.anchor.target names r.anchor.target := by
    cases htarget : r.anchor.target with
    | root => exact absurd htarget hi.node
    | node id =>
      rw [htarget] at hl
      exact hlead id htarget hl.isSome
  have hq : ∀ id, q.anchor.target = .node id → (t.slot id).isSome :=
    hlead.start_isSome fun id hid => visible_isSome (hseen.2 id hid)
  obtain ⟨lq, hlq⟩ := exists_leads h hq
  obtain rfl := (hlq.trans hlead).names_unique h hl
  have hrest : Proper '/' rest := (hl'.proper h).right
  rw [append_assoc] at hl' hf
  refine permits_iff.2 ⟨Ops.contains_trans hi.ops hops, join '/' (names ++ rest),
    (relativeTo_iff h).2 ⟨⟨hi.operator.trans hseen.1, fun id hid =>
      visible_always (hq id hid)⟩, ha, lq, names ++ rest, hlq, hl', hf, rfl⟩, ?_⟩
  by_cases hnil : names = []
  · subst hnil
    simp only [grantScopeNarrows, join, if_true, decide_eq_true_eq] at hscope
    exact ⟨hun, narrows_allows hscope.2 hallow⟩
  have hne : join '/' names ≠ [] := fun he => hnil ((join_eq_nil hproper).1 he)
  rw [named_below hproper hrest hnil]
  simp only [grantScopeNarrows, if_neg hne] at hscope
  refine ⟨fun hboth => ?_, narrowsAt_allows hne hscope hallow⟩
  have hbelow := hboth.2
  unfold below at hbelow
  split at hbelow
  · exact hne hbelow
  · simp [hne] at hbelow

theorem inside_of_fits (h : t.Inv) {relative : Text}
    (hrel : t.relativeTo live q.anchor r.anchor = some relative)
    (hf : fits q r relative = true) (hnode : r.anchor.target ≠ .root) : Inside t q r := by
  simp only [fits, decide_eq_true_eq, Option.all_eq_true] at hf
  obtain ⟨-, hop, hpermit, hsource, hmark, hops, hscope⟩ := hf
  obtain ⟨-, -, l, names, hl, hl', -, rfl⟩ := (relativeTo_iff h).1 hrel
  refine ⟨hops, hpermit, hsource, hmark, hop, hnode, names, (hl'.proper h).right, hscope,
    fun id hid _ => ?_⟩
  rw [← hid]
  exact hl.split h hl'

theorem inside_keeps (hk : Tree.Keeps t t') (hi : Inside t q r)
    (hid : ∀ id, r.anchor.target = .node id → id < t.slots.length) : Inside t' q r := by
  obtain ⟨names, hproper, hscope, hlead⟩ := hi.scope
  refine ⟨hi.ops, hi.permit, hi.source, hi.sourceMark, hi.operator, hi.node, names, hproper, hscope,
    fun id ht hs => ?_⟩
  obtain ⟨s', hs'⟩ := Option.isSome_iff_exists.1 hs
  obtain ⟨s, hs0, -⟩ := hk id s' (hid id ht) hs'
  refine leads_keeps hk (hlead id ht (by rw [hs0]; rfl)) fun j hj => ?_
  rwa [← Where.node.inj hj]

end

/-! ## All grants -/

/-- Every grant lies inside the one it was made under. -/
structure Narrowed (o : OperatorState) : Prop where
  tree : o.tree.Inv
  sound : o.authority.Sound
  issued : ∀ r ∈ o.authority.records, ∀ id, r.spec.anchor.target = .node id →
    id < o.tree.slots.length
  parents : ∀ r ∈ o.authority.records, ∀ q ∈ o.authority.records, r.parent = some q.key →
    Inside o.tree q.spec r.spec

section

variable {o : OperatorState} {a' : Authority}

theorem narrowed_same (h : Narrowed o) (hs : a'.Sound)
    (hr : List.Forall₂ Authority.Same o.authority.records a'.records) :
    Narrowed { o with authority := a' } := by
  refine ⟨h.tree, hs, fun r' hr' => ?_, fun r' hr' q' hq' hp => ?_⟩
  · obtain ⟨r, hr0, hs⟩ := Lists.exists_of_forall₂_right hr hr'
    rw [hs.spec]
    exact h.issued r hr0
  obtain ⟨r, hr0, hs⟩ := Lists.exists_of_forall₂_right hr hr'
  obtain ⟨q, hq0, hsq⟩ := Lists.exists_of_forall₂_right hr hq'
  rw [hsq.spec, hs.spec]
  exact h.parents r hr0 q hq0 (by rw [← hs.parent, hp, hsq.key])

theorem narrowed_tree (h : Narrowed o) {t' : Tree} (he : Tree.Edits o.tree t') :
    Narrowed { o with tree := t' } := by
  obtain ⟨hk, hlen⟩ := edits_keeps h.tree he
  exact ⟨edits_inv h.tree he, h.sound, fun r hr id hid =>
    Nat.lt_of_lt_of_le (h.issued r hr id hid) hlen, fun r hr q hq hp =>
    inside_keeps hk (h.parents r hr q hq hp) (h.issued r hr)⟩

/-- What a grant had to pass when it was made. -/
def Passed (o : OperatorState) (q r : GrantSpec) : Prop :=
  ∃ relative, o.tree.relativeTo o.live q.anchor r.anchor = some relative ∧
    fits q r relative = true

theorem narrowed_shift {E : Authority → PieToken → Prop} (h : Narrowed o)
    (hs : Authority.Shift E (Passed o) o.authority a') : Narrowed { o with authority := a' } := by
  have hsound := sound_shift h.sound hs
  cases hs with
  | relabel hr => exact narrowed_same h hsound (hr.imp fun _ _ => Authority.Same.of_alike)
  | equip hr _ hold _ => exact narrowed_same h hsound (same_equip hr hold)
  | root _ _ _ _ hanchor =>
    refine ⟨h.tree, hsound, fun r hr id ht => ?_, fun r hr q _ hp => ?_⟩
    · rw [mem_singleton.1 hr] at ht
      simp [hanchor] at ht
    · rw [mem_singleton.1 hr] at hp
      cases hp
  | @add _ q caller via spec hq _ _ _ _ _ hnode hP _ _ _ _ _ hrecords =>
    obtain ⟨relative, hrel, hfits⟩ := id hP
    have hmem : ∀ r ∈ a'.records, r ∈ o.authority.records ∨
        r = o.authority.made q caller via spec := fun r hr => by
      rw [hrecords] at hr
      simpa using hr
    have hold : ∀ r ∈ o.authority.records, r ∈ a'.records := fun r hr => by
      rw [hrecords]
      exact mem_append_left _ hr
    refine ⟨h.tree, hsound, fun r hr => ?_, fun r hr p hp hpar => ?_⟩
    · rcases hmem r hr with hr | rfl
      · exact h.issued r hr
      · intro id hid
        obtain ⟨relative, hrel, -⟩ := hP
        obtain ⟨-, hseen, -⟩ := (relativeTo_iff h.tree).1 hrel
        obtain ⟨s, hs⟩ := Option.isSome_iff_exists.1 (visible_isSome (hseen.2 id hid))
        exact slot_lt hs
    rcases hmem r hr with hr | rfl
    · -- the new record has no child yet
      obtain ⟨p', hp', hkey, -⟩ := h.sound.parents r hr p.key hpar
      obtain rfl := hsound.eq_of_key (hold p' hp') hp hkey
      exact h.parents r hr p' hp' hpar
    · obtain rfl := hsound.eq_of_key (hold q hq) hp (Option.some.inj hpar)
      exact inside_of_fits h.tree hrel hfits hnode
  | drop hl =>
    have hmem := mem_drop h.sound hl
    exact ⟨h.tree, hsound, fun x hx => h.issued x ((hmem x).1 hx).1,
      fun x hx q hq => h.parents x ((hmem x).1 hx).1 q ((hmem q).1 hq).1⟩

end

/-! ## Runs -/

/-- One call to the authority or to the tree. -/
inductive Move
  | bootstrapRoot (caller : TaskId) (entrance : PieToken)
  | grant (request : GrantSubmission)
  | setEntrance (ref : GrantRef) (token : PieToken)
  | attached (key : GrantKey)
  | delivered (ref : GrantRef) (remote : PieToken)
  | revoke (ref : GrantRef)
  | revokePlan (ref : GrantRef)
  | closed (ref : GrantRef)
  | cleanupStep (key : GrantKey) (step : Nat)
  | tree (call : TreeCall)

namespace OperatorState

variable {o : OperatorState} {system actor : TaskId}

def move (o : OperatorState) (h : Host) : Move → OperatorState
  | .bootstrapRoot caller entrance => (o.bootstrapRoot h caller entrance).2
  | .grant request => (o.issue h request).2
  | .setEntrance ref token => { o with authority := (o.authority.setEntrance ref token).2 }
  | .attached key => { o with authority := (o.authority.attached key).2 }
  | .delivered ref remote => { o with authority := (o.authority.delivered ref remote).2 }
  | .revoke ref => { o with authority := (o.authority.revoke h.room ref).2 }
  | .revokePlan ref => { o with authority := (o.authority.revokePlan h.room ref).2 }
  | .closed ref => { o with authority := (o.authority.closed ref).2 }
  | .cleanupStep key step => { o with authority := (o.authority.cleanupStep key step).2 }
  | .tree call => { o with tree := o.tree.step o.live h.kernel call }

/-- The states there can be. -/
inductive Moves (system actor : TaskId) : OperatorState → Prop
  | new : Moves system actor (.new system actor)
  | step {o : OperatorState} (h : Host) (m : Move) : Moves system actor o →
      Moves system actor (o.move h m)

theorem narrowed_issue (h : Narrowed o) (host : Host) (request : GrantSubmission) :
    Narrowed (o.issue host request).2 := by
  unfold issue
  split
  · exact h
  next parent hparent =>
  split
  · exact h
  split
  · exact h
  next relative hrel =>
  refine narrowed_shift (E := fun _ _ => True) h
    (shift_grant fun q hq hfits => ⟨relative, ?_, hfits⟩)
  rw [(Option.filter_eq_some_iff.1 hparent).1] at hq
  rw [← Option.some.inj hq]
  exact hrel

theorem move_narrowed (h : Narrowed o) (host : Host) (m : Move) : Narrowed (o.move host m) := by
  cases m with
  | bootstrapRoot caller entrance =>
    exact narrowed_shift (E := fun _ _ => True) h (shift_bootstrapRoot host.room caller _ entrance)
  | grant request => exact narrowed_issue h host request
  | setEntrance ref token =>
    exact narrowed_shift (E := fun _ _ => True) h (shift_setEntrance ref trivial)
  | attached key => exact narrowed_shift (E := fun _ _ => True) h (shift_attached key)
  | delivered ref remote =>
    exact narrowed_shift (E := fun _ _ => True) h (shift_delivered ref remote)
  | revoke ref => exact narrowed_shift (E := fun _ _ => True) h (shift_revoke host.room ref)
  | revokePlan ref => exact narrowed_shift (E := fun _ _ => True) h (shift_revokePlan host.room ref)
  | closed ref => exact narrowed_shift (E := fun _ _ => True) h (shift_closed ref)
  | cleanupStep key step =>
    exact narrowed_shift (E := fun _ _ => True) h (shift_cleanupStep key step)
  | tree call => exact narrowed_tree h (step_edits h.tree call)

/-- Every grant stays inside its parent. -/
theorem moves_narrowed (h : Moves system actor o) : Narrowed o := by
  induction h with
  | new =>
    have hno : ∀ r, r ∉ (OperatorState.new system actor).authority.records := fun r hr => by
      cases hr
    exact ⟨inv_new actor, sound_new system actor, fun r hr => absurd hr (hno r),
      fun r hr => absurd hr (hno r)⟩
  | step host m _ ih => exact move_narrowed ih host m

/-- Whatever a grant is let do passes the tests of each of its ancestors too, but for the visibility
of the ancestor's anchor, and the ancestors' permit, source and source mark are its own as well. -/
theorem grants_narrow (h : Moves system actor o) {g : Record} (hg : g ∈ o.authority.records)
    {q : Record} (hq : TransGen o.authority.Parent g q) :
    (∀ caller anchor op name, o.authorize g.key caller anchor op name = true →
      permits o.tree always q.spec anchor op name = true) ∧
    (∀ p, q.spec.permit = some p → g.spec.permit = some p) ∧
    (∀ s, q.spec.source = some s → g.spec.source = some s) ∧
    (∀ m, q.spec.sourceMark = some m → g.spec.sourceMark = some m) := by
  have hn := moves_narrowed h
  have hown : ∀ caller anchor op name, o.authorize g.key caller anchor op name = true →
      permits o.tree always g.spec anchor op name = true := by
    intro caller anchor op name ha
    obtain ⟨r, hr, hp⟩ := (Option.any_eq_true _ _).1 ha
    obtain ⟨hfind, -⟩ := Option.filter_eq_some_iff.1 hr
    have hkey := List.find?_some hfind
    simp only [decide_eq_true_eq] at hkey
    rw [hn.sound.eq_of_key (mem_of_find?_eq_some hfind) hg hkey.1] at hp
    obtain ⟨hops, base, hrel, hallow⟩ := permits_iff.1 hp
    obtain ⟨hr, ha, hpath⟩ := (relativeTo_iff hn.tree).1 hrel
    exact permits_iff.2
      ⟨hops, base, (relativeTo_iff hn.tree).2 ⟨hr.always, ha.always, hpath⟩, hallow⟩
  -- along the chain each grant lies inside the next
  induction hq with
  | single hp =>
    have hi := hn.parents _ hg _ hp.1 hp.2
    exact ⟨fun caller anchor op name ha => permits_inside hn.tree hi
      (hown caller anchor op name ha),
      hi.permit, hi.source, hi.sourceMark⟩
  | @tail r q hr hp ih =>
    have hmem : r ∈ o.authority.records := by
      rcases TransGen.tail'_iff.1 hr with ⟨x, -, hx⟩
      exact hx.1
    have hi := hn.parents _ hmem _ hp.1 hp.2
    obtain ⟨hpermits, hpermit, hsource, hmark⟩ := ih
    exact ⟨fun caller anchor op name ha =>
        permits_inside hn.tree hi (hpermits caller anchor op name ha),
      fun p hp => hpermit p (hi.permit p hp), fun s hs => hsource s (hi.source s hs),
      fun m hm => hmark m (hi.sourceMark m hm)⟩

/-! ## A run -/

private def obliging : Host :=
  ⟨⟨true, fun _ => true, fun _ => true⟩, true, some 0, some 0, true, fun _ => true, fun _ => true,
    fun _ => true, fun _ => true, true, none, true, fun _ => true⟩

private def onlyB : Scope := .names [⟨['b'], [['b']], by simp [Proper], rfl⟩]

private def lent (id : Nat) (holder : TaskId) (anchor : EntryId) (scope : Scope) : GrantSpec :=
  ⟨id, holder, ⟨1, .node anchor⟩, scope, Ops.ALL, none, none, none⟩

/-- A pane `a` and `b` in it; a grant for `b` in `a`, and one under it for all below `b`. -/
private def twice : List Move :=
  [.bootstrapRoot 9 100, .tree (.part ⟨⟨1, .root⟩, ['a'], some 0⟩),
    .grant ⟨9, 100, some 0, lent 1 5 0 onlyB⟩, .setEntrance ⟨100, 9, 1⟩ 101,
    .delivered ⟨100, 9, 1⟩ 201, .tree (.part ⟨⟨1, .node 0⟩, ['b'], some 1⟩),
    .grant ⟨5, 101, some 1, lent 2 6 1 .subtree⟩, .setEntrance ⟨101, 5, 2⟩ 102,
    .delivered ⟨101, 5, 2⟩ 202]

private def moved (l : List Move) : OperatorState :=
  l.foldl (fun o m => o.move obliging m) (.new 9 1)

private theorem moves_moved (l : List Move) : Moves 9 1 (moved l) := by
  induction l using List.reverseRec with
  | nil => exact .new
  | append_singleton l m ih =>
    unfold moved
    rw [foldl_append]
    exact .step obliging m ih

private def lower : Record :=
  ⟨2, 5, 101, some 1, lent 2 6 1 .subtree, .granted, some 102, some 202, false, false, false, false⟩

private def upper : Record :=
  ⟨1, 9, 100, some 0, lent 1 5 0 onlyB, .granted, some 101, some 201, false, false, false, false⟩

/-- What the lower grant allows below `b` the upper one, for `b` in `a`, allows as well. -/
theorem grants_narrow_twice :
    (moved twice).authorize 2 6 ⟨1, .node 1⟩ Ops.PART ['c'] = true ∧
    permits (moved twice).tree always upper.spec ⟨1, .node 1⟩ Ops.PART ['c'] = true := by
  have hlower : lower ∈ (moved twice).authority.records := by decide +kernel
  have hupper : upper ∈ (moved twice).authority.records := by decide +kernel
  have hauth : (moved twice).authorize 2 6 ⟨1, .node 1⟩ Ops.PART ['c'] = true := by decide +kernel
  exact ⟨hauth, (grants_narrow (moves_moved twice) hlower (.single ⟨hupper, rfl⟩)).1 6 _ _ _ hauth⟩

end OperatorState

end Sqware.Operator
