import Sqware.Operator.Operations
import Sqware.Operator.Records

/-!
# The ledger of operations

A number that a watermark covers is spent: an operation under it is not carried out, whether its
record is still there or not.  Entering a record only raises watermarks; forgetting an entrance
takes the watermarks of this entrance away.
-/

namespace Sqware.Operator.Ledger

open List Option Keyed

variable {l l' l'' : Ledger} {via : PieToken}

/-- The number is spent. -/
def Covers (l : Ledger) (ref : OperationRef) : Prop :=
  ∃ n, l.mark ref.via ref.caller = some n ∧ ref.id ≤ n

/-- Every operation on record is finished, its own, and spent. -/
structure Sound (l : Ledger) : Prop where
  finished : ∀ r ∈ l.operations, r.finished = true
  own : ∀ r ∈ l.operations, ∀ q, r.request = some q → q.ref = r.ref
  covered : ∀ r ∈ l.operations, l.Covers r.ref

theorem sound_new : Ledger.new.Sound := by
  have hno : ∀ r, r ∉ Ledger.new.operations := fun r hr => by cases hr
  exact ⟨fun r hr => absurd hr (hno r), fun r hr => absurd hr (hno r),
    fun r hr => absurd hr (hno r)⟩

/-- At one entrance, spent numbers stay spent and get no new records. -/
structure Forward (via : PieToken) (l l' : Ledger) : Prop where
  covers : ∀ ref, ref.via = via → l.Covers ref → l'.Covers ref
  keeps : ∀ r ∈ l'.operations, r.ref.via = via → l.Covers r.ref → r ∈ l.operations

theorem Forward.refl (via : PieToken) (l : Ledger) : Forward via l l :=
  ⟨fun _ _ h => h, fun _ h _ _ => h⟩

theorem Forward.trans (h : Forward via l l') (h' : Forward via l' l'') : Forward via l l'' :=
  ⟨fun ref hv hc => h'.covers ref hv (h.covers ref hv hc),
    fun r hr hv hc => h.keeps r (h'.keeps r hr hv (h.covers r.ref hv hc)) hv hc⟩

/-! ## Entering a record -/

theorem vacate_sublist {room : Bool} {ops : List OperationRecord} (h : l.vacate room = some ops) :
    ops.Sublist l.operations := by
  unfold vacate at h
  split at h
  · obtain ⟨i, -, rfl⟩ := map_eq_some_iff.1 h
    exact eraseIdx_sublist l.operations i
  · split at h
    · rw [← some.inj h]
    · cases h

theorem mark_raise (v c : Nat) (high : Nat) (ops : List OperationRecord) (via : PieToken)
    (caller : TaskId) :
    mark ⟨ops, Authority.raise v c high l.watermarks⟩ via caller =
      if via = v ∧ caller = c then some high else l.mark via caller :=
  Authority.find_raise v c high l.watermarks via caller

theorem enter_spec {room : Bool} {record : OperationRecord} {high : Nat}
    (h : l.enter room record high = some l') :
    ∃ ops, ops.Sublist l.operations ∧
      l' = ⟨ops ++ [record], Authority.raise record.ref.via record.ref.caller
        high l.watermarks⟩ := by
  unfold enter at h
  split at h
  · cases h
  next ops hops =>
  split at h
  · cases h
  · exact ⟨ops, vacate_sublist hops, (some.inj h).symm⟩

section

variable {ops : List OperationRecord} {record : OperationRecord} {high : Nat}

/-- The ledger with a further record, old ones possibly gone. -/
def entered (l : Ledger) (ops : List OperationRecord) (record : OperationRecord) (high : Nat) :
    Ledger :=
  ⟨ops ++ [record], Authority.raise record.ref.via record.ref.caller high l.watermarks⟩

theorem covers_entered (hmark : ∀ n, l.mark record.ref.via record.ref.caller = some n → n ≤ high)
    {ref : OperationRef} (hc : l.Covers ref) : (l.entered ops record high).Covers ref := by
  obtain ⟨n, hn, hle⟩ := hc
  unfold Covers entered
  rw [mark_raise]
  split
  · next he =>
    rw [he.1, he.2] at hn
    exact ⟨high, rfl, Nat.le_trans hle (hmark n hn)⟩
  · exact ⟨n, hn, hle⟩

theorem covers_record (hid : record.ref.id ≤ high) :
    (l.entered ops record high).Covers record.ref := by
  unfold Covers entered
  rw [mark_raise, if_pos ⟨rfl, rfl⟩]
  exact ⟨high, rfl, hid⟩

theorem sound_entered (h : l.Sound) (hops : ops.Sublist l.operations)
    (hmark : ∀ n, l.mark record.ref.via record.ref.caller = some n → n ≤ high)
    (hid : record.ref.id ≤ high) (hfresh : ¬ l.Covers record.ref) (hfin : record.finished = true)
    (hown : ∀ q, record.request = some q → q.ref = record.ref) :
    (l.entered ops record high).Sound := by
  have hmem : ∀ r ∈ (l.entered ops record high).operations, r ∈ l.operations ∨ r = record :=
    fun r hr => by
      rcases mem_append.1 hr with hr | hr
      · exact .inl (hops.subset hr)
      · exact .inr (mem_singleton.1 hr)
  refine ⟨fun r hr => ?_, fun r hr => ?_, fun r hr => ?_⟩
  · rcases hmem r hr with hr | rfl
    · exact h.finished r hr
    · exact hfin
  · rcases hmem r hr with hr | rfl
    · exact h.own r hr
    · exact hown
  · rcases hmem r hr with hr | rfl
    · exact covers_entered hmark (h.covered r hr)
    · exact covers_record hid

theorem forward_entered (via : PieToken) (hops : ops.Sublist l.operations)
    (hmark : ∀ n, l.mark record.ref.via record.ref.caller = some n → n ≤ high)
    (hfresh : ¬ l.Covers record.ref) : Forward via l (l.entered ops record high) := by
  refine ⟨fun ref _ hc => covers_entered hmark hc, fun r hr _ hc => ?_⟩
  rcases mem_append.1 hr with hr | hr
  · exact hops.subset hr
  · rw [mem_singleton.1 hr] at hc
    exact absurd hc hfresh

end

/-! ## Beginning and finishing -/

theorem record_mem {ref : OperationRef} {r : OperationRecord} (h : l.record ref = some r) :
    r ∈ l.operations ∧ r.ref = ref := ⟨mem_of_get h, key_of_get h⟩

theorem mark_le_of_not_covers {ref : OperationRef} (h : ¬ l.Covers ref) (n : Nat)
    (hn : l.mark ref.via ref.caller = some n) : n ≤ ref.id :=
  Nat.le_of_not_le fun hle => h ⟨n, hn, hle⟩

/-- What beginning an operation comes to. -/
theorem begin_cases (h : l.Sound) (room : Bool) (q : OperationRequest) :
    (∃ f, l.beginOperation room q = (.error f, l)) ∨
    (∃ r, l.beginOperation room q = (.ok (some r), l)) ∨
    ∃ ops, ops.Sublist l.operations ∧ ¬ l.Covers q.ref ∧
      l.beginOperation room q =
        (.ok none, l.entered ops ⟨q.ref, some q, none, false⟩ q.ref.id) := by
  unfold beginOperation
  split
  · exact .inl ⟨_, rfl⟩
  split
  · next r hr =>
    split
    · next hok =>
      obtain ⟨hmem, -⟩ := record_mem hr
      have hfin := h.finished r hmem
      unfold OperationRecord.finished at hfin
      rw [hok.1, Bool.false_or] at hfin
      obtain ⟨res, hres⟩ := isSome_iff_exists.1 hfin
      exact .inr (.inl ⟨res, by rw [hres]⟩)
    · exact .inl ⟨_, rfl⟩
  · split
    · exact .inl ⟨_, rfl⟩
    next hany =>
    split
    · exact .inl ⟨_, rfl⟩
    · next l' hl' =>
      obtain ⟨ops, hops, rfl⟩ := enter_spec hl'
      refine .inr (.inr ⟨ops, hops, ?_, rfl⟩)
      rintro ⟨n, hn, hle⟩
      simp [hn, hle] at hany

/-- A spent number is not carried out. -/
theorem begin_covered (h : l.Sound) (room : Bool) {q : OperationRequest} (hc : l.Covers q.ref) :
    l.beginOperation room q = (.error .denied, l) ∨
    ∃ r ∈ l.operations, r.ref = q.ref ∧ r.request = some q ∧ ∃ res, r.result = some res ∧
      l.beginOperation room q = (.ok (some res), l) := by
  unfold beginOperation
  split
  · exact .inl rfl
  split
  · next r hr =>
    obtain ⟨hmem, href⟩ := record_mem hr
    split
    · next hok =>
      have hfin := h.finished r hmem
      unfold OperationRecord.finished at hfin
      rw [hok.1, Bool.false_or] at hfin
      obtain ⟨res, hres⟩ := isSome_iff_exists.1 hfin
      exact .inr ⟨r, hmem, href, hok.2, res, hres, by rw [hres]⟩
    · exact .inl rfl
  · rw [if_pos]
    · exact .inl rfl
    · obtain ⟨n, hn, hle⟩ := hc
      simp [hn, hle]

theorem finish_entered (h : l.Sound) {ops : List OperationRecord} {q : OperationRequest}
    (hops : ops.Sublist l.operations) (hfresh : ¬ l.Covers q.ref) (high : Nat)
    (res : OperationResult) :
    (l.entered ops ⟨q.ref, some q, none, false⟩ high).finishOperation q res =
      (.ok (), l.entered ops ⟨q.ref, some q, some res, false⟩ high) := by
  -- no record there is of the same request
  have hnone : Keyed.get OperationRecord.request ops (some q) = none := by
    refine get_eq_none_iff.2 fun r hr he => hfresh ?_
    rw [h.own r (hops.subset hr) q he]
    exact h.covered r (hops.subset hr)
  have hget : Keyed.get OperationRecord.request
      (ops ++ [(⟨q.ref, some q, none, false⟩ : OperationRecord)]) (some q) =
      some ⟨q.ref, some q, none, false⟩ := by
    rw [get_append, hnone]
    simp [Keyed.get]
  have hupd : Keyed.update OperationRecord.request (some q)
      (fun r => { r with result := some res })
      (ops ++ [(⟨q.ref, some q, none, false⟩ : OperationRecord)]) =
      ops ++ [⟨q.ref, some q, some res, false⟩] :=
    update_append_fresh (x := (⟨q.ref, some q, none, false⟩ : OperationRecord)) hnone
  unfold finishOperation entered
  simp only [hget, hupd]

/-! ## Cancelling -/

theorem cancel_cases (room : Bool) (ref : OperationRef) :
    (∃ r, l.cancelOperation room ref = (r, l) ∧
      (l.Sound → ref.id ≠ 0 → r = .ok .closed → l.Covers ref)) ∨
    ∃ ops high, ops.Sublist l.operations ∧ ¬ l.Covers ref ∧
      (∀ n, l.mark ref.via ref.caller = some n → n ≤ high) ∧ ref.id ≤ high ∧
      l.cancelOperation room ref = (.ok .closed, l.entered ops ⟨ref, none, none, true⟩ high) := by
  unfold cancelOperation
  split
  · exact .inl ⟨_, rfl, fun _ _ he => nomatch he⟩
  · next hstate =>
    split
    · exact .inl ⟨_, rfl, fun _ _ he => nomatch he⟩
    next l' hl' =>
    obtain ⟨ops, hops, rfl⟩ := enter_spec hl'
    refine .inr ⟨ops, _, hops, ?_, fun n hn => ?_, Nat.le_max_right _ _, rfl⟩
    · rintro ⟨n, hn, hle⟩
      unfold operationState at hstate
      split at hstate
      · split at hstate
        · cases hstate
        · split at hstate <;> cases hstate
      · rw [hn, getD_some, if_pos hle] at hstate
        cases hstate
    · rw [hn]
      exact Nat.le_max_left _ _
  · next hpending hunseen =>
    refine .inl ⟨_, rfl, fun hs hid he => ?_⟩
    have hclosed : l.operationState ref = .closed := by
      injection he
    unfold operationState at hclosed
    split at hclosed
    · next r hr =>
      obtain ⟨hmem, rfl⟩ := record_mem hr
      exact hs.covered r hmem
    split at hclosed
    · next hle =>
      cases hm : l.mark ref.via ref.caller with
      | none =>
        rw [hm, getD_none] at hle
        exact absurd (Nat.le_zero.1 hle) hid
      | some n =>
        rw [hm, getD_some] at hle
        exact ⟨n, hm, hle⟩
    · cases hclosed

/-! ## Forgetting -/

theorem covers_forget {v : PieToken} {ref : OperationRef} (hv : ref.via ≠ v) :
    (l.forgetOperations v).Covers ref ↔ l.Covers ref := by
  have hmark : (l.forgetOperations v).mark ref.via ref.caller = l.mark ref.via ref.caller := by
    unfold mark forgetOperations
    rw [List.find?_filter]
    congr 2
    funext w
    by_cases hw : w.via = ref.via
    · simp [hw, hv]
    · simp [hw]
  unfold Covers
  rw [hmark]

theorem sound_forget (h : l.Sound) (v : PieToken) : (l.forgetOperations v).Sound := by
  have hsub : (l.forgetOperations v).operations.Sublist l.operations := filter_sublist
  refine ⟨fun r hr => h.finished r (hsub.subset hr), fun r hr => h.own r (hsub.subset hr),
    fun r hr => ?_⟩
  have hne := (mem_filter.1 hr).2
  exact (covers_forget (by simpa using hne)).2 (h.covered r (hsub.subset hr))

/-- Forgets entrances one after the other. -/
def forgetAll (l : Ledger) (vias : List PieToken) : Ledger := vias.foldl forgetOperations l

theorem sound_forgetAll (h : l.Sound) (vias : List PieToken) : (l.forgetAll vias).Sound := by
  induction vias generalizing l with
  | nil => exact h
  | cons v vias ih => exact ih (sound_forget h v)

theorem forward_forgetAll {vias : List PieToken} (hv : ∀ v ∈ vias, v ≠ via) :
    Forward via l (l.forgetAll vias) := by
  induction vias generalizing l with
  | nil => exact .refl via l
  | cons v vias ih =>
    have h1 : Forward via l (l.forgetOperations v) :=
      ⟨fun ref hr hc => (covers_forget (by rw [hr]; exact (hv v mem_cons_self).symm)).2 hc,
        fun _ hr _ _ => (mem_filter.1 hr).1⟩
    exact h1.trans (ih fun w hw => hv w (mem_cons_of_mem v hw))

end Sqware.Operator.Ledger
