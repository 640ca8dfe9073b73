import Sqware.Operator.Ledger
import Sqware.Operator.Runtime
import Sqware.Operator.TreeRun

/-!
# What a request does

A request is a sequence of calls to the authority and of edits of the tree.  In the ledger it enters
one operation, or makes it forget entrances: a revocation forgets, for each grant it closes, the
entrance that grant was made through.
-/

namespace Sqware.Operator

open Relation List Keyed Authority Sqware.Operator.Tree Sqware.Operator.Ledger

namespace OperatorState

variable {E : Authority → PieToken → Prop} {F : PieToken → Prop}
  {o o' o'' : OperatorState} {h : Host}

/-- Calls to the authority and edits of the tree. -/
structure Works (E : Authority → PieToken → Prop) (o o' : OperatorState) : Prop where
  authority : ReflTransGen (Authority.Shift E fun _ _ => True) o.authority o'.authority
  tree : Tree.Edits o.tree o'.tree

/-- What one request does to the ledger and to what is carried out; `F` holds of the entrances that
are forgotten. -/
inductive Act (F : PieToken → Prop) (o o' : OperatorState) : Prop
  | operate {ops : List OperationRecord} {q : OperationRequest} {res : OperationResult}
      (hops : ops.Sublist o.ledger.operations) (hfresh : ¬ o.ledger.Covers q.ref)
      (hl : o'.ledger = o.ledger.entered ops ⟨q.ref, some q, some res, false⟩ q.ref.id)
      (hc : o'.carried = o.carried ++ [(q, res)]) : Act F o o'
  | cancel {ops : List OperationRecord} {ref : OperationRef} {high : Nat}
      (hops : ops.Sublist o.ledger.operations) (hfresh : ¬ o.ledger.Covers ref)
      (hmark : ∀ n, o.ledger.mark ref.via ref.caller = some n → n ≤ high) (hid : ref.id ≤ high)
      (hl : o'.ledger = o.ledger.entered ops ⟨ref, none, none, true⟩ high)
      (hc : o'.carried = o.carried) : Act F o o'
  | forgets {vias : List PieToken} (hF : ∀ v ∈ vias, F v)
      (hl : o'.ledger = o.ledger.forgetAll vias) (hc : o'.carried = o.carried) : Act F o o'

/-- What one request does. -/
structure Serves (E : Authority → PieToken → Prop) (F : PieToken → Prop)
    (o o' : OperatorState) : Prop
    extends Works E o o' where
  act : Act F o o'

/-- Calls and edits, and some of the entrances `F` are forgotten. -/
structure Clears (E : Authority → PieToken → Prop) (F : PieToken → Prop)
    (o o' : OperatorState) : Prop
    extends Works E o o' where
  ledger : ∃ vias, (∀ v ∈ vias, F v) ∧ o'.ledger = o.ledger.forgetAll vias
  carried : o'.carried = o.carried

theorem Clears.serves (hc : Clears E F o o') : Serves E F o o' := by
  obtain ⟨hw, ⟨vias, hF, hl⟩, hcarried⟩ := hc
  exact ⟨hw, .forgets hF hl hcarried⟩

theorem Clears.aside (hw : Works E o o') (hl : o'.ledger = o.ledger) (hc : o'.carried = o.carried) :
    Clears E F o o' :=
  have hnone : ∀ v ∈ ([] : List PieToken), F v := fun _ hv => nomatch hv
  ⟨hw, ⟨[], hnone, hl⟩, hc⟩

theorem Clears.refl (o : OperatorState) : Clears E F o o := .aside ⟨.refl, .refl⟩ rfl rfl

theorem Clears.trans (hc : Clears E F o o') (hc' : Clears E F o' o'') : Clears E F o o'' := by
  obtain ⟨hw, ⟨vias, hF, hl⟩, hcarried⟩ := hc
  obtain ⟨hw', ⟨vias', hF', hl'⟩, hcarried'⟩ := hc'
  refine ⟨⟨hw.authority.trans hw'.authority, hw.tree.trans hw'.tree⟩,
    ⟨vias ++ vias', fun v hv => ?_, ?_⟩,
    hcarried'.trans hcarried⟩
  · exact (mem_append.1 hv).elim (hF v) (hF' v)
  · rw [hl', hl]
    exact foldl_append.symm

theorem Clears.shift {a : Authority} (hs : Authority.Shift E (fun _ _ => True) o.authority a) :
    Clears E F o { o with authority := a } := .aside ⟨.single hs, .refl⟩ rfl rfl

theorem Clears.edits {t : Tree} (he : Tree.Edits o.tree t) : Clears E F o { o with tree := t } :=
  .aside ⟨.refl, he⟩ rfl rfl

/-! ## Operations -/

theorem operate_serves (hs : o.ledger.Sound) {q : OperationRequest}
    {act : Tree → (GrantKey → Bool) → OperationResult × Tree}
    (hact : Tree.Edits o.tree (act o.tree o.live).2) : Serves E F o (o.operate h q act).2 := by
  unfold operate
  rcases begin_cases hs h.room q with ⟨f, hf⟩ | ⟨r, hr⟩ | ⟨ops, hops, hfresh, hb⟩
  · rw [hf]
    exact (Clears.refl o).serves
  · rw [hr]
    exact (Clears.refl o).serves
  · rw [hb]
    simp only [finish, finish_entered hs hops hfresh]
    exact ⟨⟨.refl, hact⟩, .operate hops hfresh rfl rfl⟩

theorem bind_cases (c : Call) (id : Nat) (anchor : Entry) (name : Text) (resource : PieToken)
    (resourceId : Nat) (permit : Permit) (view : Nat) :
    (∃ f, o.bind h c id anchor name resource resourceId permit view = (.fail f, o) ∧
      (h.reserve = true → h.imported ≠ some none → f = .denied)) ∨
    ∀ answer o1,
      o.operate h ⟨⟨c.via, c.caller, id⟩, .bind, anchor, name, resourceId, permit, view⟩
        (bindAct h c anchor name resource resourceId permit view) = (answer, o1) →
      o.bind h c id anchor name resource resourceId permit view = (answer, o1) ∨
      o.bind h c id anchor name resource resourceId permit view = (settle h answer, o1) := by
  unfold bind
  split
  · next hres => exact .inl ⟨_, rfl, fun he => by rw [he] at hres; cases hres⟩
  split
  · exact .inl ⟨_, rfl, fun _ _ => rfl⟩
  split
  · exact .inl ⟨_, rfl, fun _ _ => rfl⟩
  · exact .inl ⟨_, rfl, fun _ _ => rfl⟩
  · next himp _ => exact .inl ⟨_, rfl, fun _ he => absurd himp he⟩
  split
  · exact .inl ⟨_, rfl, fun _ _ => rfl⟩
  refine .inr fun answer o1 ho => ?_
  simp only [ho]
  split
  · exact .inl rfl
  · exact .inr rfl

theorem bind_serves (hs : o.ledger.Sound) {c : Call} {id : Nat} {anchor : Entry} {name : Text}
    {resource : PieToken} {resourceId : Nat} {permit : Permit} {view : Nat}
    (hname : validName name = true) :
    Serves E F o (o.bind h c id anchor name resource resourceId permit view).2 := by
  rcases bind_cases (o := o) (h := h) c id anchor name resource resourceId permit view with
    ⟨f, hf, -⟩ | hb
  · rw [hf]
    exact (Clears.refl o).serves
  have hact : Serves E F o (o.operate h
      ⟨⟨c.via, c.caller, id⟩, .bind, anchor, name, resourceId, permit, view⟩
      (bindAct h c anchor name resource resourceId permit view)).2 :=
    operate_serves hs (bindAt_edits hname)
  rcases hb _ _ rfl with hb | hb
  · rw [hb]
    exact hact
  · rw [hb]
    exact hact

variable {c : Call} {id : Nat}

theorem cancel_serves : Serves E F o (o.cancel h c id).2 := by
  unfold cancel
  rcases cancel_cases (l := o.ledger) h.room ⟨c.via, c.caller, id⟩ with
    ⟨r, hr, -⟩ | ⟨ops, high, hops, hfresh, hmark, hid, hc⟩
  · rw [hr]
    cases r <;> exact (Clears.refl o).serves
  · rw [hc]
    exact ⟨⟨.refl, .refl⟩, .cancel hops hfresh hmark hid rfl rfl⟩

/-! ## Revoking -/

theorem clears_andThen {r : Except Fail Unit × OperatorState}
    {f : OperatorState → Except Fail Unit × OperatorState} (hr : Clears E F o r.2)
    (hf : ∀ o, Clears E F o (f o).2) : Clears E F o (andThen r f).2 := by
  obtain ⟨e, o1⟩ := r
  cases e with
  | error e => exact hr
  | ok => exact hr.trans (hf o1)

variable {key : GrantKey}

theorem stage_clears {taken effect : Bool} {step : Nat} :
    Clears E F o (o.stage taken effect key step).2 := by
  have hstep : Clears E F o { o with authority := (o.authority.cleanupStep key step).2 } :=
    .shift (shift_cleanupStep key step)
  unfold stage
  split
  · exact .refl o
  split
  · exact .refl o
  split <;>
  · next hc =>
    rw [hc] at hstep
    exact hstep

theorem cleanupEntrance_clears {entrance : Option PieToken} :
    Clears E F o (o.cleanupEntrance h key entrance).2 := by
  cases entrance with
  | none => exact .refl o
  | some token =>
    simp only [cleanupEntrance]
    split
    · exact .refl o
    · exact clears_andThen stage_clears fun o => clears_andThen stage_clears fun o => stage_clears

theorem cleanupNodes_clears : Clears E F o (o.cleanupNodes h key).2 := by
  have hclean : Clears E F o { o with tree := (o.tree.cleanupAuthority h.kernel key).2 } :=
    .edits cleanupAuthority_edits
  unfold cleanupNodes
  split <;>
  · next hc =>
    rw [hc] at hclean
    exact hclean

theorem grantClosed_clears {ref : GrantRef} : Clears E F o (o.grantClosed ref).2 := by
  have hclosed : Clears E F o { o with authority := (o.authority.closed ref).2 } :=
    .shift (shift_closed ref)
  unfold grantClosed
  split <;>
  · next hc =>
    rw [hc] at hclosed
    exact hclosed

theorem forget_clears {via : PieToken} (hF : F via) : Clears E F o (o.forget via) :=
  ⟨⟨.refl, .refl⟩, ⟨[via], fun _ hv => mem_singleton.1 hv ▸ hF, rfl⟩, rfl⟩

theorem closeAll_clears {plan : List Authority.Closing} (hF : ∀ c ∈ plan, F c.ref.via) :
    Clears E F o (closeAll h plan o).2 := by
  induction plan generalizing o with
  | nil => exact .refl o
  | cons c plan ih =>
    refine clears_andThen ?_ fun _ => ih fun c' hc' => hF c' (mem_cons_of_mem c hc')
    exact clears_andThen cleanupEntrance_clears fun _ => clears_andThen cleanupNodes_clears fun _ =>
      (forget_clears (hF c mem_cons_self)).trans grantClosed_clears

/-- The entrances through which a grant and what was made under it were made. -/
def Through (o : OperatorState) (ref : GrantRef) (v : PieToken) : Prop :=
  ∃ g r, o.authority.byRef ref = some g ∧ r ∈ o.authority.records ∧
    o.authority.Under r g ∧ r.via = v

/-- What a revocation does. -/
theorem revoke_clears (hs : o.authority.Sound)
    (hF : (o.authority.revoke h.room ⟨c.via, c.caller, id⟩).1 = .ok .revoking →
      ∀ v, o.Through ⟨c.via, c.caller, id⟩ v → F v) :
    Clears E F o (o.revoke h c id).2 := by
  have hrev : Clears E F o { o with
      authority := (o.authority.revoke h.room ⟨c.via, c.caller, id⟩).2 } :=
    .shift (shift_revoke h.room _)
  unfold revoke
  dsimp only
  split
  · next hr =>
    rw [hr] at hrev
    exact hrev
  · next hr =>
    rw [hr] at hrev
    exact hrev
  next res a hres hr =>
  rw [hr] at hrev
  have hbegun : (o.authority.revoke h.room ⟨c.via, c.caller, id⟩).1 = .ok .revoking := by
    rw [hr]
    unfold Authority.revoke at hr
    repeat' split at hr
    all_goals cases hr
    all_goals first | rfl | exact (hres rfl).elim
  have hplan : Clears E F o { o with
      authority := (a.revokePlan h.room ⟨c.via, c.caller, id⟩).2 } :=
    hrev.trans (.shift (shift_revokePlan h.room _))
  split
  · next hp =>
    rw [hp] at hplan
    exact hplan
  next plan a' hp =>
  -- what the plan closes was made under the grant, before it was marked as well
  have hclose : Clears E F o (closeAll h plan { o with authority := a' }).2 := by
    rw [hp] at hplan
    refine hplan.trans (closeAll_clears fun c' hc' => hF hbegun _ ?_)
    have ha : (o.authority.revoke h.room ⟨c.via, c.caller, id⟩).2 = a := by rw [hr]
    have hsame : List.Forall₂ Authority.Same o.authority.records a.records :=
      ha ▸ same_revoke h.room _
    have hsa : a.Sound := ha ▸ sound_shift (E := fun _ _ => True) (P := fun _ _ => True) hs
      (shift_revoke h.room _)
    have hok : (a.revokePlan h.room ⟨c.via, c.caller, id⟩).1 = .ok plan := by rw [hp]
    obtain ⟨g', r', hg', hr', hd, rfl⟩ := mem_revokePlan hok hc'
    obtain ⟨r, hr, hrr⟩ := Lists.exists_of_forall₂_right hsame hr'
    obtain ⟨g, hg, hgg, hu⟩ := under_same hsame hr hrr
      (under_of_descends hsa hr' (mem_of_get hg') hd)
    have href : g.ref = ⟨c.via, c.caller, id⟩ := by
      rw [← hgg.ref]
      exact key_of_get hg'
    refine ⟨g, r, ?_, hr, hu, ?_⟩
    · rw [← href]
      exact hs.byRef hg
    · have href := hrr.ref
      simp only [Record.ref, GrantRef.mk.injEq] at href
      exact href.1.symm
  split <;>
  · next hc =>
    rw [hc] at hclose
    exact hclose

/-! ## Granting -/

/-- A grant that is still to be delivered. -/
structure Waits (o : OperatorState) (ref : GrantRef) (key : GrantKey) (r : Record) : Prop where
  sound : o.authority.Sound
  found : o.authority.byRef ref = some r
  pending : r.state = .pending
  own : r.key = key

variable {ref : GrantRef} {r : Record}

theorem Waits.mem (hw : o.Waits ref key r) : r ∈ o.authority.records := mem_of_get hw.found

/-- Nothing was made under a grant that was not delivered. -/
theorem Waits.through (hw : o.Waits ref key r) {v : PieToken} (ht : o.Through ref v) :
    v = ref.via := by
  obtain ⟨g, x, hg, hx, hu, rfl⟩ := ht
  rw [hw.found] at hg
  cases hg
  have href : r.ref = ref := key_of_get hw.found
  rcases ReflTransGen.cases_tail hu with rfl | ⟨b, hb, hp⟩
  · rw [← href]
    rfl
  have hmem : b ∈ o.authority.records := by
    rcases ReflTransGen.cases_tail hb with rfl | ⟨_, _, hlast⟩
    · exact hx
    · exact hlast.1
  obtain ⟨q, hq, hkey, -, hstate, -⟩ := hw.sound.parents b hmem r.key hp.2
  rw [hw.sound.eq_of_key hq hw.mem hkey] at hstate
  exact absurd hw.pending hstate

/-- A grant that cannot be delivered is revoked, and its entrance is forgotten. -/
def Undelivered (h : Host) (via v : PieToken) : Prop :=
  v = via ∧ ¬ (h.ship.isSome ∧ h.attach = true)

theorem undo_clears (hw : o.Waits ⟨c.via, c.caller, id⟩ key r)
    (hfail : ¬ (h.ship.isSome ∧ h.attach = true)) :
    Clears E (Undelivered h c.via) o (o.undo h c id).2 :=
  revoke_clears hw.sound fun _ _ ht => ⟨hw.through ht, hfail⟩

theorem abandon_clears : Clears E F o (o.abandon h ref) :=
  .aside ⟨.tail (.single (shift_revoke h.room ref)) (shift_closed ref), .refl⟩
    rfl rfl

theorem attachEntrance_clears (hw : o.Waits ref key r) (he : r.entrance.isSome) :
    Clears E F o (o.attachEntrance h key).2 ∧ (∃ r', (o.attachEntrance h key).2.Waits ref key r') ∧
      (h.attach = true → (o.attachEntrance h key).1 = .ok ()) := by
  have hfound : o.authority.byKey key = some r := by
    rw [← hw.own]
    exact hw.sound.byKey hw.mem
  unfold attachEntrance
  split
  · exact ⟨.refl o, ⟨r, hw⟩, fun _ => rfl⟩
  split
  · next ha => exact ⟨.refl o, ⟨r, hw⟩, fun ha' => by rw [ha'] at ha; cases ha⟩
  have hatt : o.authority.attached key =
      (.ok (), o.authority.updateKey key fun r => { r with attached := true }) := by
    unfold attached
    simp [hfound, hw.pending, Option.isNone_eq_false_iff.2 he]
  have hshift : Authority.Shift E (fun _ _ => True) o.authority
      (o.authority.updateKey key fun r => { r with attached := true }) :=
    .updateKey fun r _ => ⟨rfl, rfl, rfl, rfl, rfl, rfl, .inl rfl⟩
  rw [hatt]
  refine ⟨.shift hshift, ?_, fun _ => rfl⟩
  have hsound := sound_shift hw.sound hshift
  have hsame : List.Forall₂ (fun x y : Record => y.ref = x.ref ∧ y.state = x.state ∧ y.key = x.key)
      o.authority.records
      (o.authority.updateKey key fun r => { r with attached := true }).records :=
    forall₂_update (fun _ _ => ⟨rfl, rfl, rfl⟩) fun _ _ => ⟨rfl, rfl, rfl⟩
  obtain ⟨r', hr', href, hstate, hkey⟩ := Lists.exists_of_forall₂_left hsame hw.mem
  refine ⟨r', hsound, ?_, hstate.trans hw.pending, hkey.trans hw.own⟩
  have hrr : r'.ref = ref := href.trans (key_of_get hw.found)
  rw [← hrr]
  exact hsound.byRef hr'

theorem deliver_clears (hw : o.Waits ⟨c.via, c.caller, id⟩ key r) (he : r.entrance.isSome) :
    Clears E (Undelivered h c.via) o (o.deliver h c id key).2 := by
  unfold deliver
  split
  · next hship => exact undo_clears hw fun hs => by simp [hship] at hs
  next remote _ =>
  obtain ⟨hatt, ⟨r', hw'⟩, hok⟩ :=
    attachEntrance_clears (E := E) (F := Undelivered h c.via) (h := h) hw he
  split
  · next e o1 ho =>
    rw [ho] at hatt hw' hok
    exact hatt.trans (undo_clears hw' fun hs => nomatch hok hs.2)
  next o1 ho =>
  rw [ho] at hatt hw'
  have hok : (o1.authority.delivered ⟨c.via, c.caller, id⟩ remote).1 = .ok () := by
    unfold delivered
    simp [hw'.found, hw'.pending]
  have hdel : Clears E (Undelivered h c.via) o { o1 with
      authority := (o1.authority.delivered ⟨c.via, c.caller, id⟩ remote).2 } :=
    hatt.trans (.shift (shift_delivered _ remote))
  split
  · next hd =>
    rw [hd] at hok
    cases hok
  · next hd =>
    rw [hd] at hdel
    exact hdel

theorem equip_clears (hw : o.Waits ⟨c.via, c.caller, id⟩ key r)
    (hE : ∀ token, h.hole = some token → E o.authority token) :
    Clears E (Undelivered h c.via) o (o.equip h c id key).2 := by
  have hent : o.entranceOf ⟨c.via, c.caller, id⟩ = r.entrance := by
    unfold entranceOf
    rw [hw.found]
    rfl
  unfold equip
  dsimp only
  split
  · next token ht =>
    refine deliver_clears hw ?_
    rw [← hent, ht]
    rfl
  next hnone =>
  split
  · exact abandon_clears
  next token htoken =>
  have hset : o.authority.setEntrance ⟨c.via, c.caller, id⟩ token = (.ok (),
      o.authority.updateRef ⟨c.via, c.caller, id⟩ fun r => { r with entrance := some token }) := by
    rw [hent] at hnone
    unfold setEntrance
    simp [hw.found, hw.pending, hnone]
  have hshift : Authority.Shift E (fun _ _ => True) o.authority
      (o.authority.setEntrance ⟨c.via, c.caller, id⟩ token).2 :=
    shift_setEntrance _ (hE token htoken)
  rw [hset] at hshift ⊢
  have hget : Keyed.get Record.ref (Keyed.update Record.ref ⟨c.via, c.caller, id⟩
      (fun r => { r with entrance := some token }) o.authority.records) ⟨c.via, c.caller, id⟩ =
      some { r with entrance := some token } := by
    have hf : Keyed.get Record.ref o.authority.records ⟨c.via, c.caller, id⟩ = some r := hw.found
    refine (get_update ?_ _).trans ?_
    · exact fun _ hx => hx
    · rw [if_pos rfl, hf]
      rfl
  exact .trans (.shift hshift) (deliver_clears (r := { r with entrance := some token })
    ⟨sound_shift hw.sound hshift, hget, hw.pending, hw.own⟩ rfl)

variable {request : GrantSubmission}

theorem issue_clears : Clears E F o (o.issue h request).2 := by
  unfold issue
  split
  · exact .refl o
  split
  · exact .refl o
  split
  · exact .refl o
  · exact .shift (shift_grant fun _ _ _ => trivial)

theorem issue_waits (hs : o.authority.Sound) {o1 : OperatorState}
    (hi : o.issue h request = (.ok (.pending, key), o1)) :
    ∃ r, o1.Waits ⟨request.via, request.caller, request.spec.id⟩ key r := by
  unfold issue at hi
  split at hi
  · cases hi
  split at hi
  · cases hi
  split at hi
  · cases hi
  obtain ⟨hr, rfl⟩ := Prod.mk.inj hi
  obtain ⟨r, hfound, hpending, hkey⟩ := grant_pending (Prod.ext hr rfl)
  exact ⟨r, sound_shift (E := fun _ _ => True) (P := fun _ _ => True) hs
    (shift_grant fun _ _ _ => trivial), hfound, hpending, hkey⟩

/-- A grant that is made brings no entrance with it. -/
theorem issue_entrance (hr : r ∈ (o.issue h request).2.authority.records)
    {e : PieToken} (he : r.entrance = some e) :
    r ∈ o.authority.records := by
  unfold issue at hr
  split at hr
  · exact hr
  split at hr
  · exact hr
  split at hr
  · exact hr
  next relative _ =>
  rcases o.authority.grant_cases h.room request relative with
    ⟨_, hg, -⟩ | ⟨q, -, -, -, -, -, hg⟩ <;>
    rw [hg] at hr
  · exact hr
  unfold Authority.issue at hr
  dsimp only at hr
  split at hr
  · exact hr
  rcases mem_append.1 hr with hr | hr
  · exact hr
  · rw [mem_singleton.1 hr] at he
    cases he

theorem grant_clears (hs : o.authority.Sound) {parent : Nat} {spec : GrantSpec}
    (hE : ∀ a token, h.hole = some token →
      (∀ r ∈ a.records, r.entrance = some token → r ∈ o.authority.records) → E a token) :
    Clears E (Undelivered h c.via) o (o.grant h c parent spec).2 := by
  unfold grant
  split
  · exact .refl o
  split
  · exact .refl o
  split
  · exact .refl o
  split
  · exact .refl o
  have hissue : Clears E (Undelivered h c.via) o (o.issue h ⟨c.caller, c.via, some c.id, spec⟩).2 :=
    issue_clears
  have hent : ∀ r ∈ (o.issue h ⟨c.caller, c.via, some c.id, spec⟩).2.authority.records,
      ∀ e, r.entrance = some e → r ∈ o.authority.records := fun r hr e =>
    issue_entrance hr
  split
  · next hi =>
    rw [hi] at hissue
    exact hissue
  · next hi =>
    rw [hi] at hissue
    dsimp only
    split
    · exact hissue
    · split <;> exact hissue
  · next hi =>
    obtain ⟨r, hw⟩ := issue_waits hs hi
    rw [hi] at hissue hent
    exact hissue.trans
      (equip_clears hw fun token ht => hE _ token ht fun r hr => hent r hr token)
  · next hi =>
    rw [hi] at hissue
    exact hissue

/-! ## Requests -/

theorem removal_clears {r : Except Fail (Option Change) × Tree} (hr : Tree.Edits o.tree r.2) :
    Clears E F o (o.removal r).2 := by
  obtain ⟨e, t⟩ := r
  cases e <;> exact .edits hr

theorem replace_clears (hi : o.tree.Inv) {anchor : EntryId} {expected : Nat} {resource : PieToken}
    {resourceId : Nat} {permit : Permit} {view : Nat} :
    Clears E F o (o.replace h c anchor expected resource resourceId permit view).2 := by
  unfold replace
  split
  · exact .refl o
  split
  · exact .refl o
  split
  · exact .refl o
  · exact .refl o
  · exact .refl o
  split
  · exact .refl o
  have hrep : Clears E F o { o with tree := (o.tree.replaceBinding o.live h.kernel
      ⟨⟨⟨o.tree.actor, .node anchor⟩, expected⟩, resource, resourceId, permit, c.caller,
        c.key, view⟩).2 } := .edits (replaceBinding_edits hi)
  split <;>
  · next hr =>
    rw [hr] at hrep
    exact hrep

theorem read_clears {anchor : EntryId} {expected : Permit} :
    Clears E F o (o.read h c anchor expected).2 := by
  unfold read
  split
  · exact .refl o
  dsimp only
  split
  · exact .refl o
  have hfind : Clears E F o { o with tree := (o.tree.find o.live h.kernel anchor).2 } :=
    .edits find_edits
  split
  · next hf =>
    rw [hf] at hfind
    exact hfind
  · next hf =>
    rw [hf] at hfind
    split <;> exact hfind

/-- The asker's grant is live and allows to revoke at the anchor of the request. -/
def mayRevoke (o : OperatorState) (via : PieToken) (caller : TaskId) (anchor : Where) : Bool :=
  (o.authority.grantAt via caller).any fun r =>
    o.authorize r.key caller ⟨o.tree.actor, anchor⟩ Ops.REVOKE []

/-- The entrances a request may make the ledger forget: those through which the grants it revokes
were made.  A REVOKE that is denied revokes nothing; a GRANT revokes the grant it could not
deliver. -/
def Frees (o : OperatorState) (h : Host) (via : PieToken) (caller : TaskId) :
    Request → PieToken → Prop
  | .revoke anchor id, v => o.mayRevoke via caller anchor = true ∧
    (o.authority.revoke h.room ⟨via, caller, id⟩).1 = .ok .revoking ∧ o.Through ⟨via, caller, id⟩ v
  | .grant _ _, v => v = via ∧ ¬ (h.ship.isSome ∧ h.attach = true)
  | _, _ => False

theorem guarded_serves {anchor : Entry} {op : Ops} {name : Text} {act : Answer × OperatorState}
    (hact : o.authorize c.key c.caller anchor op name = true → Serves E F o act.2) :
    Serves E F o (o.guarded c anchor op name act).2 := by
  unfold guarded
  split
  · next hlet => exact hact hlet
  · exact (Clears.refl o).serves

/-- All there is to know of a state. -/
structure Consistent (o : OperatorState) : Prop where
  tree : o.tree.Inv
  authority : o.authority.Sound
  ledger : o.ledger.Sound

theorem execute_serves (hc : o.Consistent) {r : Record}
    (hr : o.authority.grantAt c.via c.caller = some r) (hkey : r.key = c.key)
    (hE : ∀ a token, h.hole = some token →
      (∀ r ∈ a.records, r.entrance = some token → r ∈ o.authority.records) → E a token)
    (request : Request) :
    Serves E (Frees o h c.via c.caller request) o (o.execute h c request).2 := by
  cases request with
  | part id anchor name =>
    simp only [execute]
    split
    · exact (Clears.refl o).serves
    · next hok =>
      simp only [not_or, Bool.not_eq_false] at hok
      exact guarded_serves fun _ => operate_serves hc.ledger (partEntry_edits hok.2)
  | bind id anchor name resource resourceId permit view =>
    simp only [execute]
    split
    · exact (Clears.refl o).serves
    · next hok =>
      simp only [not_or, Bool.not_eq_false] at hok
      exact guarded_serves fun _ => bind_serves hc.ledger hok.2
  | replace => exact guarded_serves fun _ => (replace_clears hc.tree).serves
  | unpart anchor =>
    simp only [execute]
    split
    · exact (Clears.refl o).serves
    · exact guarded_serves fun _ => (removal_clears unpart_edits).serves
  | unbind anchor expected =>
    simp only [execute]
    split
    · exact (Clears.refl o).serves
    · exact guarded_serves fun _ => (removal_clears unbindBinding_edits).serves
  | read => exact guarded_serves fun _ => read_clears.serves
  | cancel anchor id =>
    simp only [execute]
    split
    · exact (Clears.refl o).serves
    · exact guarded_serves fun _ => cancel_serves
  | grant => exact (grant_clears hc.authority hE).serves
  | inspect => exact guarded_serves fun _ => (Clears.refl o).serves
  | revoke => exact guarded_serves fun hlet => (revoke_clears hc.authority
    fun hbegun _ ht => ⟨by simpa [mayRevoke, hr, hkey] using hlet, hbegun, ht⟩).serves

theorem handle_serves (hc : o.Consistent) {via : PieToken} {caller : TaskId}
    (hE : ∀ a token, h.hole = some token → (∀ r ∈ a.records, r.entrance = some token →
      r ∈ o.authority.records) → E a token) (request : Request) :
    Serves E (Frees o h via caller request) o (o.handle h via caller request).2 := by
  unfold handle
  split
  · exact (Clears.refl o).serves
  · next r hr => exact execute_serves (c := ⟨via, r.key, r.spec.id, caller⟩) hc hr rfl hE request

/-! ## Every state -/

/-- The states there can be, if the kernel keeps its promises `W`. -/
inductive Reached (W : OperatorState → Host → Prop) (system actor : TaskId) : OperatorState → Prop
  | new : Reached W system actor (.new system actor)
  | boot {o : OperatorState} (h : Host) (caller : TaskId) (entrance : PieToken) :
      Reached W system actor o → Reached W system actor (o.bootstrapRoot h caller entrance).2
  | handle {o : OperatorState} (h : Host) (via : PieToken) (caller : TaskId) (request : Request) :
      W o h → Reached W system actor o → Reached W system actor (o.handle h via caller request).2

theorem sound_shifts {a a' : Authority} (h : a.Sound)
    (hs : ReflTransGen (Authority.Shift E fun _ _ => True) a a') : a'.Sound := by
  induction hs with
  | refl => exact h
  | tail _ hs ih => exact sound_shift ih hs

theorem sound_act (hl : o.ledger.Sound) (hact : Act F o o') : o'.ledger.Sound := by
  cases hact with
  | operate hops hfresh hledger _ =>
    rw [hledger]
    exact sound_entered hl hops (mark_le_of_not_covers hfresh) (Nat.le_refl _) hfresh
      rfl fun q hq => by rw [← Option.some.inj hq]
  | cancel hops hfresh hmark hid hledger _ =>
    rw [hledger]
    exact sound_entered hl hops hmark hid hfresh rfl fun q hq => nomatch hq
  | forgets _ hledger _ =>
    rw [hledger]
    exact sound_forgetAll hl _

theorem consistent_boot (hc : o.Consistent) (h : Host) (caller : TaskId) (entrance : PieToken) :
    (o.bootstrapRoot h caller entrance).2.Consistent :=
  ⟨hc.tree, sound_shift (E := fun _ _ => True) (P := fun _ _ => True) hc.authority
    (shift_bootstrapRoot h.room caller _ entrance), hc.ledger⟩

theorem consistent_handle (hc : o.Consistent) (h : Host) (v : PieToken) (caller : TaskId)
    (request : Request) : (o.handle h v caller request).2.Consistent := by
  have hw : Serves (fun _ _ => True) _ o (o.handle h v caller request).2 :=
    handle_serves hc (fun _ _ _ _ => trivial) request
  exact ⟨edits_inv hc.tree hw.tree, sound_shifts hc.authority hw.authority,
    sound_act hc.ledger hw.act⟩

/-- What holds of every state. -/
theorem reached_consistent {W : OperatorState → Host → Prop} {system actor : TaskId}
    (hr : Reached W system actor o) : o.Consistent := by
  induction hr with
  | new => exact ⟨inv_new actor, sound_new system actor, sound_new⟩
  | boot h caller entrance _ ih => exact consistent_boot ih h caller entrance
  | handle h via caller request _ _ ih => exact consistent_handle ih h via caller request

end OperatorState

end Sqware.Operator
