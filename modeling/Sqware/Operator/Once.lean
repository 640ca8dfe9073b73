import Sqware.Operator.Handle

/-!
# Operations are carried out once

An operation that is carried out spends its number, and a spent number is not carried out again.
Numbers are not spent any more when their entrance is forgotten.  A revocation forgets, for each
grant it closes, the entrance that grant was made through: for the grant that is named in the
request that is the asker's own entrance, which stays open.
-/

namespace Sqware.Operator

open Relation List Sqware.Operator.Ledger

namespace OperatorState

variable {o o' o'' : OperatorState} {h : Host} {F : PieToken → Prop} {id : Nat}

/-! ## Stretches of a run -/

/-- From one state to a later one, at one entrance: what was carried out in between had numbers that
were not spent, and spent them. -/
structure Stretch (via : PieToken) (o o' : OperatorState)
    (new : List (OperationRequest × OperationResult)) : Prop where
  carried : o'.carried = o.carried ++ new
  forward : Ledger.Forward via o.ledger o'.ledger
  fresh : ∀ x ∈ new, x.1.ref.via = via → ¬ o.ledger.Covers x.1.ref
  spent : ∀ x ∈ new, x.1.ref.via = via → o'.ledger.Covers x.1.ref
  recorded : ∀ x ∈ new, x.1.ref.via = via → ∀ r ∈ o'.ledger.operations, r.ref = x.1.ref →
    r.request = some x.1 ∧ r.result = some x.2
  once : ∀ ref : OperationRef, ref.via = via → new.countP (fun x => x.1.ref = ref) ≤ 1

variable {via : PieToken}

theorem Stretch.quiet (hf : Ledger.Forward via o.ledger o'.ledger) (hc : o'.carried = o.carried) :
    Stretch via o o' [] :=
  ⟨by rw [hc, append_nil], hf, (fun _ hx => nomatch hx), (fun _ hx => nomatch hx),
    (fun _ hx => nomatch hx), fun _ _ => Nat.zero_le 1⟩

theorem Stretch.trans {new new' : List (OperationRequest × OperationResult)}
    (h : Stretch via o o' new) (h' : Stretch via o' o'' new') :
    Stretch via o o'' (new ++ new') := by
  refine ⟨by rw [h'.carried, h.carried, append_assoc], h.forward.trans h'.forward,
    fun x hx hv => ?_, fun x hx hv => ?_, fun x hx hv r hr href => ?_, fun ref hv => ?_⟩
  · rcases mem_append.1 hx with hx | hx
    · exact h.fresh x hx hv
    · exact fun hc => h'.fresh x hx hv (h.forward.covers _ hv hc)
  · rcases mem_append.1 hx with hx | hx
    · exact h'.forward.covers _ hv (h.spent x hx hv)
    · exact h'.spent x hx hv
  · rcases mem_append.1 hx with hx | hx
    · refine h.recorded x hx hv r (h'.forward.keeps r hr ?_ ?_) href
      · rw [href, hv]
      · rw [href]
        exact h.spent x hx hv
    · exact h'.recorded x hx hv r hr href
  rw [countP_append]
  by_cases hmem : ∃ x ∈ new, x.1.ref = ref
  · -- the number is spent in the first stretch
    obtain ⟨x, hx, rfl⟩ := hmem
    have hzero : new'.countP (fun y => y.1.ref = x.1.ref) = 0 := by
      rw [countP_eq_zero]
      intro y hy he
      have he : y.1.ref = x.1.ref := by simpa using he
      exact h'.fresh y hy (by rw [he, hv]) (by rw [he]; exact h.spent x hx hv)
    rw [hzero]
    exact h.once _ hv
  · have hzero : new.countP (fun y => y.1.ref = ref) = 0 := by
      rw [countP_eq_zero]
      intro y hy he
      exact hmem ⟨y, hy, by simpa using he⟩
    rw [hzero, Nat.zero_add]
    exact h'.once ref hv

/-- What a request does to the numbers of an entrance. -/
theorem stretch_act (hl : o.ledger.Sound) (hact : Act F o o') (hF : ¬ F via) :
    ∃ new, Stretch via o o' new := by
  cases hact with
  | @operate ops q res hops hfresh hledger hcarried =>
    have hmark := mark_le_of_not_covers hfresh
    refine ⟨[(q, res)], hcarried, ?_, fun x hx _ => ?_, fun x hx _ => ?_,
      fun x hx _ r hr href => ?_,
      fun ref _ => ?_⟩
    · rw [hledger]
      exact forward_entered via hops hmark hfresh
    · rw [mem_singleton.1 hx]
      exact hfresh
    · rw [mem_singleton.1 hx, hledger]
      exact covers_record (Nat.le_refl _)
    · rw [mem_singleton.1 hx] at href ⊢
      rw [hledger] at hr
      rcases mem_append.1 hr with hr | hr
      · -- an old record's number was spent
        exact absurd (href ▸ hl.covered r (hops.subset hr)) hfresh
      · rw [mem_singleton.1 hr]
        exact ⟨rfl, rfl⟩
    · exact countP_le_length
  | cancel hops hfresh hmark hid hledger hcarried =>
    refine ⟨[], .quiet ?_ hcarried⟩
    rw [hledger]
    exact forward_entered via hops hmark hfresh
  | forgets hvias hledger hcarried =>
    refine ⟨[], .quiet ?_ hcarried⟩
    rw [hledger]
    exact forward_forgetAll fun v hv he => hF (he ▸ hvias v hv)

/-! ## Runs -/

/-- Later states, as long as no grant that was made through the entrance is revoked. -/
inductive Spared (via : PieToken) (o : OperatorState) : OperatorState → Prop
  | refl : Spared via o o
  | boot {o' : OperatorState} (h : Host) (caller : TaskId) (entrance : PieToken) :
      Spared via o o' → Spared via o (o'.bootstrapRoot h caller entrance).2
  | handle {o' : OperatorState} (h : Host) (v : PieToken) (caller : TaskId) (request : Request) :
      Spared via o o' → ¬ Frees o' h v caller request via →
      Spared via o (o'.handle h v caller request).2

theorem spared_stretch (hc : o.Consistent) (hs : Spared via o o') :
    o'.Consistent ∧ ∃ new, Stretch via o o' new := by
  induction hs with
  | refl => exact ⟨hc, [], .quiet (.refl via _) rfl⟩
  | boot h caller entrance _ ih =>
    obtain ⟨hc', new, hn⟩ := ih
    refine ⟨consistent_boot hc' h caller entrance, new ++ [], hn.trans (.quiet (.refl via _) rfl)⟩
  | handle h v caller request _ hfree ih =>
    obtain ⟨hc', new, hn⟩ := ih
    have hserves : Serves (fun _ _ => True) (Frees _ h v caller request) _ _ :=
      handle_serves hc' (fun _ _ _ _ => trivial) request
    obtain ⟨new', hn'⟩ := stretch_act hc'.ledger hserves.act hfree
    exact ⟨consistent_handle hc' h v caller request, new ++ new', hn.trans hn'⟩

/-! ## Answers -/

/-- The operation a request asks for. -/
def operation (o : OperatorState) (via : PieToken) (caller : TaskId) :
    Request → Option OperationRequest
  | .part id anchor name =>
    some ⟨⟨via, caller, id⟩, .part, ⟨o.tree.actor, anchor⟩, name, 0, .pub, 0⟩
  | .bind id anchor name _ resourceId permit view =>
    some ⟨⟨via, caller, id⟩, .bind, ⟨o.tree.actor, anchor⟩, name, resourceId, permit, view⟩
  | _ => none

/-- A token that comes along can be looked at and let go of. -/
def Imports (h : Host) : Prop := h.reserve = true ∧ h.imported ≠ some none ∧ h.letGo = true

/-- The answer to an operation that was carried out: its result, or a refusal. -/
def Replies (q q' : OperationRequest) (res : OperationResult) (answer : Answer) : Prop :=
  answer = .fail .denied ∨ q' = q ∧ answer = operationResponse res

theorem operate_replies (hl : o.ledger.Sound) {q q' : OperationRequest} {res : OperationResult}
    (hc : o.ledger.Covers q'.ref) (href : q'.ref = q.ref)
    (hrec : ∀ r ∈ o.ledger.operations, r.ref = q.ref → r.request = some q ∧ r.result = some res)
    (act : Tree → (GrantKey → Bool) → OperationResult × Tree) :
    ∃ answer, o.operate h q' act = (answer, o) ∧ Replies q q' res answer := by
  unfold operate
  rcases begin_covered hl h.room hc with hb | ⟨r, hr, hrr, hreq, res', hres, hb⟩
  · exact ⟨.fail .denied, by rw [hb], .inl rfl⟩
  obtain ⟨hq, hres'⟩ := hrec r hr (hrr.trans href)
  rw [hreq] at hq
  rw [hres] at hres'
  refine ⟨operationResponse res', by rw [hb], .inr ⟨Option.some.inj hq, ?_⟩⟩
  rw [Option.some.inj hres']

theorem handle_replies (hl : o.ledger.Sound) {caller : TaskId} {request : Request}
    {q q' : OperationRequest} {res : OperationResult}
    (hop : o.operation via caller request = some q') (hc : o.ledger.Covers q'.ref)
    (href : q'.ref = q.ref)
    (hrec : ∀ r ∈ o.ledger.operations, r.ref = q.ref → r.request = some q ∧ r.result = some res)
    (hi : Imports h) :
    ∃ answer, o.handle h via caller request = (answer, o) ∧ Replies q q' res answer := by
  have hdenied : ∃ answer, ((.fail .denied, o) : Answer × OperatorState) = (answer, o) ∧
      Replies q q' res answer := ⟨_, rfl, .inl rfl⟩
  unfold handle
  split
  · exact hdenied
  cases request with
  | part id anchor name =>
    cases hop
    simp only [execute]
    split
    · exact hdenied
    unfold guarded
    split
    · exact operate_replies hl hc href hrec _
    · exact hdenied
  | bind id anchor name resource resourceId permit view =>
    cases hop
    simp only [execute]
    split
    · exact hdenied
    unfold guarded
    split
    · next r _ _ _ =>
      rcases bind_cases (o := o) (h := h) ⟨via, r.key, r.spec.id, caller⟩ id
        ⟨o.tree.actor, anchor⟩ name resource resourceId permit view with ⟨f, hf, hden⟩ | hb
      · rw [hf, hden hi.1 hi.2.1]
        exact hdenied
      obtain ⟨answer, ho, hans⟩ := operate_replies (h := h) hl hc href hrec
        (bindAct h ⟨via, r.key, r.spec.id, caller⟩ ⟨o.tree.actor, anchor⟩ name resource
          resourceId permit view)
      have hsettle : settle h answer = answer := if_pos hi.2.2
      have hboth := hb answer o ho
      rw [hsettle, or_self] at hboth
      exact ⟨answer, hboth, hans⟩
    · exact hdenied
  | _ => cases hop

theorem cancel_covers (hl : o.ledger.Sound) {caller : TaskId} {anchor : Where}
    (ha : (o.handle h via caller (.cancel anchor id)).1 = .operation .closed) :
    (o.handle h via caller (.cancel anchor id)).2.ledger.Covers ⟨via, caller, id⟩ ∧
    (o.handle h via caller (.cancel anchor id)).2.carried = o.carried := by
  unfold handle at ha ⊢
  cases hg : o.authority.grantAt via caller with
  | none =>
    simp only [hg] at ha
    cases ha
  | some r =>
    simp only [hg, execute, guarded, cancel] at ha ⊢
    split at ha
    · cases ha
    next hid =>
    rw [if_neg hid]
    split at ha
    · next hauth =>
      rw [if_pos hauth]
      rcases cancel_cases (l := o.ledger) h.room ⟨via, caller, id⟩ with
        ⟨r, hr, hcov⟩ | ⟨ops, high, -, -, -, hle, hc⟩
      · rw [hr] at ha ⊢
        cases r with
        | error f => cases ha
        | ok state =>
          injection ha with hstate
          exact ⟨hcov hl hid (by rw [hstate]), rfl⟩
      · rw [hc]
        exact ⟨covers_record hle, rfl⟩
    · cases ha

/-! ## Once -/

/-- While no grant made through an entrance is revoked, each number is carried out at most once
there; a number carried out is answered with its result or a refusal when it is asked for again, and
changes nothing; and a number whose CANCEL was answered with CLOSED is not carried out later. -/
theorem operations_once {system actor : TaskId} {o₀ o₁ : OperatorState}
    (h₀ : Reached (fun _ _ => True) system actor o₀) (hs : Spared via o₀ o₁) :
    ∃ new, o₁.carried = o₀.carried ++ new ∧
      (∀ caller id, new.countP (fun x => x.1.ref = ⟨via, caller, id⟩) ≤ 1) ∧
      (∀ q res, (q, res) ∈ new → ∀ caller id, q.ref = ⟨via, caller, id⟩ →
        ∀ h request q', o₁.operation via caller request = some q' → q'.ref = q.ref → Imports h →
          (o₁.handle h via caller request).2 = o₁ ∧
          Replies q q' res (o₁.handle h via caller request).1) ∧
      (∀ h caller anchor id, (o₁.handle h via caller (.cancel anchor id)).1 = .operation .closed →
        ∀ o₂, Spared via (o₁.handle h via caller (.cancel anchor id)).2 o₂ →
          ∃ later, o₂.carried = o₁.carried ++ later ∧
            ∀ x ∈ later, x.1.ref ≠ ⟨via, caller, id⟩) := by
  obtain ⟨hc1, new, hn⟩ := spared_stretch (reached_consistent h₀) hs
  refine ⟨new, hn.carried, fun caller id => hn.once _ rfl, ?_, ?_⟩
  · intro q res hmem caller id href h request q' hop hq' hi
    have hvia : q.ref.via = via := by rw [href]
    have hcov : o₁.ledger.Covers q'.ref := by
      rw [hq']
      exact hn.spent _ hmem hvia
    obtain ⟨answer, hans, hrep⟩ :=
      handle_replies hc1.ledger hop hcov hq' (hn.recorded _ hmem hvia) hi
    rw [hans]
    exact ⟨rfl, hrep⟩
  · intro h caller anchor id ha o₂ hs2
    obtain ⟨hcov, hcarried⟩ := cancel_covers hc1.ledger ha
    obtain ⟨-, later, hl⟩ := spared_stretch (consistent_handle hc1 h via caller _) hs2
    refine ⟨later, by rw [hl.carried, hcarried], fun x hx he => ?_⟩
    exact hl.fresh x hx (by rw [he]) (by rw [he]; exact hcov)

/-! ## A run -/

private def willingHost : Host :=
  ⟨⟨true, fun _ => true, fun _ => true⟩, true, some 101, some 201, true, fun _ => true,
    fun _ => true, fun _ => true, fun _ => true, true, none, true, fun _ => true⟩

private def booted : OperatorState := ((OperatorState.new 9 1).bootstrapRoot willingHost 9 100).2

/-- The requests of the root grant's holder, one after the other. -/
private def served (l : List Request) : OperatorState :=
  l.foldl (fun o request => (o.handle willingHost 100 9 request).2) booted

private def partA : Request := .part 1 .root ['a']

private def lend : Request :=
  .grant 0 ⟨2, 5, ⟨1, .node 0⟩, .subtree, Ops.ALL, none, none, none⟩

private def takeBack : Request := .revoke .root 2

private def partB : Request := .part 1 .root ['b']

/-- A number is carried out and asked for again, with a grant lent in between, and another one is
cancelled and asked for. -/
private def askedAgain : List Request :=
  [partA, lend, partA, .cancel .root 3, .part 3 .root ['c']]

/-- The first number was carried out once, and asking for another pane under it changes nothing. -/
theorem operations_once_asked_again :
    (served askedAgain).carried.map (fun x => x.1.ref) = [⟨100, 9, 1⟩] ∧
    ((served askedAgain).handle willingHost 100 9 partB).2 = served askedAgain := by
  have hcarried : ∀ x ∈ (served askedAgain).carried, x.1.ref = ⟨100, 9, 1⟩ := by decide +kernel
  have hspared : Spared 100 booted (served askedAgain) :=
    .handle willingHost 100 9 _ (.handle willingHost 100 9 _ (.handle willingHost 100 9 _
      (.handle willingHost 100 9 _ (.handle willingHost 100 9 _ .refl id)
        fun hf => hf.2 ⟨rfl, rfl⟩) id) id) id
  obtain ⟨new, hc, -, hagain, -⟩ := operations_once (.boot willingHost 9 100 .new) hspared
  replace hc : (served askedAgain).carried = new := hc
  refine ⟨by decide +kernel, ?_⟩
  obtain ⟨x, hx⟩ := exists_mem_of_ne_nil new (hc ▸ by decide +kernel)
  have href := hcarried x (hc ▸ hx)
  exact (hagain x.1 x.2 hx 9 1 href willingHost partB _ rfl href.symm ⟨rfl, nofun, rfl⟩).1

/-- Two panes are made under one number, with a grant lent and taken back in between; all the while
the entrance is open. -/
theorem carried_twice :
    (∀ n ≤ 4, ((served ([partA, lend, takeBack, partB].take n)).authority.grantAt 100 9).isSome) ∧
    (served [partA, lend, takeBack, partB]).carried.map (fun x => (x.1.ref, x.1.name)) =
      [(⟨100, 9, 1⟩, ['a']), (⟨100, 9, 1⟩, ['b'])] ∧
    ((served [partA, lend, takeBack, partB]).tree.slot 0).isSome ∧
    ((served [partA, lend, takeBack, partB]).tree.slot 1).isSome := by
  decide +kernel

end OperatorState

end Sqware.Operator
