import Sqware.Operator.Authority

/-!
# What a call does to the records

Whatever the authority does, it changes states and clean-up marks, gives a pending grant its
entrance, adds a record or takes one out.  A record's number, issuer, parent and specification never
change.
-/

namespace Sqware.Operator

open Relation List Keyed Lists

/-- One record before and after: only how far the grant is. -/
structure Record.Alike (r r' : Record) : Prop where
  key : r'.key = r.key
  issuer : r'.issuer = r.issuer
  via : r'.via = r.via
  parent : r'.parent = r.parent
  spec : r'.spec = r.spec
  entrance : r'.entrance = r.entrance
  state : r'.state = r.state ∨ r'.state = .revoking ∨ (r.state = .pending ∧ r'.state = .granted)

theorem Record.Alike.refl (r : Record) : r.Alike r := ⟨rfl, rfl, rfl, rfl, rfl, rfl, .inl rfl⟩

namespace Authority

/-- The record of a grant that was just made. -/
def made (a : Authority) (q : Record) (caller : TaskId) (via : PieToken) (spec : GrantSpec) :
    Record :=
  ⟨a.nextKey, caller, via, some q.key, spec, .pending, none, none, false, false, false, false⟩

/-- The watermarks do not fall. -/
def Raises (a a' : Authority) : Prop :=
  ∀ via caller n, a.mark via caller = some n → ∃ n', a'.mark via caller = some n' ∧ n ≤ n'

/-- What one call can do.  `E` holds of the tokens that become entrances, `P` of a grant's
specification and the one it is made under. -/
inductive Shift (E : Authority → PieToken → Prop) (P : GrantSpec → GrantSpec → Prop)
    (a : Authority) :
    Authority → Prop
  | relabel {a' : Authority} (hr : List.Forall₂ Record.Alike a.records a'.records)
      (hroot : a'.root = a.root) (hop : a'.operator = a.operator) (hkey : a'.nextKey = a.nextKey)
      (hmark : Raises a a') : Shift E P a a'
  | equip {ref : GrantRef} {token : PieToken} {r : Record} (hr : a.byRef ref = some r)
      (hstate : r.state = .pending) (hold : ∀ old, r.entrance = some old → old = token)
      (hE : E a token) :
      Shift E P a (a.updateRef ref fun r => { r with entrance := some token })
  | root {system : TaskId} {entrance : PieToken} {spec : GrantSpec} (hnil : a.records = [])
      (hsystem : system = a.root) (hid : spec.id = 0) (hholder : spec.holder = system)
      (hanchor : spec.anchor = ⟨a.operator, .root⟩) :
      Shift E P a { a with
        records := [⟨0, system, entrance, none, spec, .granted, some entrance, none, false, false,
          false, false⟩] }
  | add {a' : Authority} {q : Record} {caller : TaskId} {via : PieToken} {spec : GrantSpec}
      (hq : q ∈ a.records) (hentrance : q.entrance = some via) (hholder : q.spec.holder = caller)
      (hgranted : q.state = .granted) (hfresh : a.byRef ⟨via, caller, spec.id⟩ = none)
      (hstale : ∀ n, a.mark via caller = some n → n < spec.id) (hnode : spec.anchor.target ≠ .root)
      (hP : P q.spec spec) (hroot : a'.root = a.root) (hop : a'.operator = a.operator)
      (hkey : a'.nextKey = a.nextKey + 1) (hmark : Raises a a')
      (hcovers : a'.mark via caller = some spec.id)
      (hrecords : a'.records = a.records ++ [a.made q caller via spec]) : Shift E P a a'
  | drop {l₁ l₂ : List Record} {r : Record} (hl : a.records = l₁ ++ r :: l₂)
      (hstate : r.state = .revoking ∨ r.state = .closed)
      (hchild : ∀ c ∈ a.records, c.parent = some r.key → c.state = .closed) :
      Shift E P a { a with
        records := Lists.swapRemove a.records l₁.length
        watermarks :=
          match r.entrance with
          | none => a.watermarks
          | some entrance => a.watermarks.filter (·.via ≠ entrance) }

variable {E : Authority → PieToken → Prop} {P : GrantSpec → GrantSpec → Prop}
  {a a' : Authority}

theorem Raises.refl (a : Authority) : Raises a a := fun _ _ n h => ⟨n, h, Nat.le_refl n⟩

theorem Shift.refl (a : Authority) : Shift E P a a :=
  .relabel (forall₂_same.2 fun r _ => .refl r) rfl rfl rfl (.refl a)

variable {ref : GrantRef}

theorem Shift.updateRef {f : Record → Record} (hf : ∀ r, a.byRef ref = some r → r.Alike (f r)) :
    Shift E P a (a.updateRef ref f) :=
  .relabel (forall₂_update (fun r _ => .refl r) hf) rfl rfl rfl (.refl a)

variable {key : GrantKey}

theorem Shift.updateKey {f : Record → Record} (hf : ∀ r, a.byKey key = some r → r.Alike (f r)) :
    Shift E P a (a.updateKey key f) :=
  .relabel (forall₂_update (fun r _ => .refl r) hf) rfl rfl rfl (.refl a)

/-! ## Watermarks -/

theorem find_raise (via : PieToken) (caller : TaskId) (high : Nat) (l : List Watermark)
    (v : PieToken) (c : TaskId) :
    ((raise via caller high l).find? fun w => w.via = v ∧ w.caller = c).map (·.highWater) =
      if v = via ∧ c = caller then some high
      else (l.find? fun w => w.via = v ∧ w.caller = c).map (·.highWater) := by
  induction l with
  | nil =>
    simp only [raise, List.find?_cons, List.find?_nil]
    by_cases h : v = via ∧ c = caller
    · obtain ⟨rfl, rfl⟩ := h
      simp
    · have h' : ¬ (via = v ∧ caller = c) := fun he => h ⟨he.1.symm, he.2.symm⟩
      simp [h, h']
  | cons w l ih =>
    unfold raise
    split
    · next hw =>
      obtain ⟨rfl, rfl⟩ := hw
      by_cases h : v = w.via ∧ c = w.caller
      · obtain ⟨rfl, rfl⟩ := h
        simp
      · have h' : ¬ (w.via = v ∧ w.caller = c) := fun he => h ⟨he.1.symm, he.2.symm⟩
        simp [h, h']
    next hw =>
    by_cases h' : w.via = v ∧ w.caller = c
    · have h : ¬ (v = via ∧ c = caller) := by
        rintro ⟨rfl, rfl⟩
        exact hw h'
      simp [h, h']
    have hskip : ∀ l : List Watermark, ((w :: l).find? fun w => w.via = v ∧ w.caller = c) =
        l.find? fun w => w.via = v ∧ w.caller = c := fun l =>
      find?_cons_of_neg (by simpa using h')
    rw [hskip, hskip, ih]

/-- A watermark that is raised, and no other changes. -/
theorem raises_raise {via : PieToken} {caller : TaskId} {high : Nat} {w : List Watermark}
    {a' : Authority} (hw : a.watermarks = w) (hw' : a'.watermarks = raise via caller high w)
    (h : ∀ n, a.mark via caller = some n → n ≤ high) : Raises a a' := by
  intro v c n hn
  have hmark : a'.mark v c = if v = via ∧ c = caller then some high else a.mark v c := by
    unfold mark
    rw [hw', hw]
    exact find_raise via caller high w v c
  by_cases hvc : v = via ∧ c = caller
  · obtain ⟨rfl, rfl⟩ := hvc
    exact ⟨high, by rw [hmark, if_pos ⟨rfl, rfl⟩], h n hn⟩
  · exact ⟨n, by rw [hmark, if_neg hvc, hn], Nat.le_refl n⟩

theorem mark_raise {via : PieToken} {caller : TaskId} {high : Nat} {w : List Watermark}
    {a' : Authority} (hw' : a'.watermarks = raise via caller high w) :
    a'.mark via caller = some high := by
  unfold mark
  rw [hw', find_raise, if_pos ⟨rfl, rfl⟩]

/-! ## The calls -/

theorem shift_bootstrapRoot (room : Bool) (system : TaskId) (spec : GrantSpec)
    (entrance : PieToken) : Shift E P a (a.bootstrapRoot room system spec entrance).2 := by
  unfold bootstrapRoot
  split
  · exact .refl a
  next hok =>
  simp only [not_or, ne_eq, Decidable.not_not] at hok
  obtain ⟨hsystem, hid, hholder, hoperator, htarget, -⟩ := hok
  split
  · split <;> exact .refl a
  split
  · exact .refl a
  next hnil =>
  split
  · exact .refl a
  · rw [not_ne_iff.1 hnil]
    refine .root (not_ne_iff.1 hnil) hsystem hid hholder ?_
    rw [← hoperator, ← htarget]

variable {request : GrantSubmission} {room : Bool}

/-- A grant is refused or was made before, or it is issued under a new key. -/
theorem grant_cases (room : Bool) (request : GrantSubmission) (relative : Text) :
    (∃ r, a.grant room request relative = (r, a) ∧ ∀ key, r = .ok (.pending, key) →
      ∃ r, a.byRef ⟨request.via, request.caller, request.spec.id⟩ = some r ∧ r.state = .pending ∧
        r.key = key) ∨
    ∃ q, a.heldAt request.via request.caller = some q ∧
      a.byRef ⟨request.via, request.caller, request.spec.id⟩ = none ∧
      (∀ n, a.mark request.via request.caller = some n → n < request.spec.id) ∧
      request.spec.anchor.target ≠ .root ∧ fits q.spec request.spec relative = true ∧
      a.grant room request relative = a.issue request q.key := by
  unfold grant
  split
  · exact .inl ⟨_, rfl, by simp⟩
  next q hq =>
  split
  · exact .inl ⟨_, rfl, by simp⟩
  split
  · next old hold =>
    split
    · exact .inl ⟨_, rfl, fun key hr => ⟨old, hold, by simpa using hr⟩⟩
    · exact .inl ⟨_, rfl, by simp⟩
  next hfresh =>
  split
  · exact .inl ⟨_, rfl, by simp⟩
  next hstale =>
  split
  · exact .inl ⟨_, rfl, by simp⟩
  split
  · exact .inl ⟨_, rfl, by simp⟩
  next hok =>
  simp only [not_or] at hok
  split
  · exact .inl ⟨_, rfl, by simp⟩
  next hfits =>
  split
  · exact .inl ⟨_, rfl, by simp⟩
  split
  · exact .inl ⟨_, rfl, by simp⟩
  refine .inr ⟨q, hq, hfresh, fun n hn => ?_, hok.2.2, by simpa using hfits, rfl⟩
  rw [hn] at hstale
  simpa using hstale

theorem shift_grant {relative : Text}
    (hP : ∀ q, a.heldAt request.via request.caller = some q →
      fits q.spec request.spec relative = true → P q.spec request.spec) :
    Shift E P a (a.grant room request relative).2 := by
  rcases grant_cases (a := a) room request relative with
    ⟨r, he, -⟩ | ⟨q, hq, hfresh, hlt, hnode, hfits, he⟩ <;> rw [he]
  · exact .refl a
  have hheld := List.find?_some hq
  simp only [decide_eq_true_eq] at hheld
  obtain ⟨hentrance, hholder, hgranted⟩ := hheld
  have hle := fun n hn => Nat.le_of_lt (hlt n hn)
  unfold issue
  dsimp only
  split
  · exact .relabel (forall₂_same.2 fun r _ => .refl r) rfl rfl rfl (raises_raise rfl rfl hle)
  next next hnext =>
  exact .add (mem_of_find?_eq_some hq) hentrance hholder hgranted hfresh hlt hnode
    (hP q hq hfits) rfl rfl (checkedAdd_eq_some.1 hnext).1 (raises_raise rfl rfl hle)
    (mark_raise rfl)
    rfl

/-- A grant that is answered as pending is. -/
theorem grant_pending {relative : Text}
    (h : a.grant room request relative = (.ok (.pending, key), a')) :
    ∃ r, a'.byRef ⟨request.via, request.caller, request.spec.id⟩ = some r ∧ r.state = .pending ∧
      r.key = key := by
  rcases grant_cases (a := a) room request relative with
    ⟨r, he, hold⟩ | ⟨q, -, hnone, -, -, -, he⟩ <;> rw [he] at h
  · obtain ⟨hr, rfl⟩ := Prod.mk.inj h
    exact hold key hr
  unfold issue at h
  dsimp only at h
  split at h
  · cases h
  obtain ⟨hr, rfl⟩ := Prod.mk.inj h
  injection hr with hr
  refine ⟨a.made q request.caller request.via request.spec, ?_, rfl, (Prod.mk.inj hr).2⟩
  have hnone : Keyed.get Record.ref a.records
      (a.made q request.caller request.via request.spec).ref = none := hnone
  exact (get_append_fresh hnone _).trans (if_pos rfl)

theorem shift_setEntrance (ref : GrantRef) {token : PieToken} (hE : E a token) :
    Shift E P a (a.setEntrance ref token).2 := by
  unfold setEntrance
  split
  · exact .refl a
  next r hr =>
  split
  · exact .refl a
  next hstate =>
  split
  · exact .refl a
  next hold =>
  refine .equip hr (not_ne_iff.1 hstate) (fun old he => ?_) hE
  rw [he] at hold
  simpa using hold

theorem shift_attached (key : GrantKey) : Shift E P a (a.attached key).2 := by
  unfold attached
  split
  · exact .refl a
  · split
    · exact .refl a
    · exact .updateKey fun r _ => ⟨rfl, rfl, rfl, rfl, rfl, rfl, .inl rfl⟩

theorem shift_delivered (ref : GrantRef) (remote : PieToken) :
    Shift E P a (a.delivered ref remote).2 := by
  unfold delivered
  split
  · exact .refl a
  next r hr =>
  split
  · exact .refl a
  split
  · exact .refl a
  next hstate =>
  refine .updateRef fun r' hr' => ⟨rfl, rfl, rfl, rfl, rfl, rfl, .inr (.inr ⟨?_, rfl⟩)⟩
  rw [hr] at hr'
  rw [← Option.some.inj hr']
  exact not_ne_iff.1 hstate

theorem shift_revoke (room : Bool) (ref : GrantRef) : Shift E P a (a.revoke room ref).2 := by
  unfold revoke
  split
  · split
    · exact .refl a
    · split
      · exact .refl a
      · exact .updateRef fun r _ => ⟨rfl, rfl, rfl, rfl, rfl, rfl, .inr (.inl rfl)⟩
  split
  · exact .refl a
  next hmark =>
  split
  · exact .refl a
  refine .relabel (forall₂_same.2 fun r _ => .refl r) rfl rfl rfl ?_
  refine raises_raise rfl rfl fun n hn => ?_
  rw [hn] at hmark
  simp only [Option.any_some, decide_eq_true_eq] at hmark
  omega

theorem shift_revokePlan (room : Bool) (ref : GrantRef) :
    Shift E P a (a.revokePlan room ref).2 := by
  unfold revokePlan
  split
  · exact .refl a
  split
  · exact .refl a
  refine .relabel ?_ rfl rfl rfl (.refl a)
  rw [forall₂_map_right_iff, forall₂_same]
  intro r _
  split
  · exact ⟨rfl, rfl, rfl, rfl, rfl, rfl, .inr (.inl rfl)⟩
  · exact .refl r

/-- Closing a record that is there. -/
theorem closed_eq {r : Record} (hr : a.byRef ref = some r) :
    ∃ l₁ l₂, a.records = l₁ ++ r :: l₂ ∧ a.closed ref =
      if r.state ≠ .revoking ∧ r.state ≠ .closed then (.error .denied, a)
      else if a.records.any fun c => c.parent = some r.key ∧ c.state ≠ .closed then
        (.error .denied, a)
      else (.ok (), { a with
        records := Lists.swapRemove a.records l₁.length
        watermarks :=
          match r.entrance with
          | none => a.watermarks
          | some entrance => a.watermarks.filter (·.via ≠ entrance) }) := by
  have hsome : (a.records.findIdx? (·.ref = ref)).isSome := by
    rw [List.findIdx?_isSome, any_eq_true]
    exact ⟨r, mem_of_get hr, by simpa using key_of_get hr⟩
  obtain ⟨i, hi⟩ := Option.isSome_iff_exists.1 hsome
  obtain ⟨l₁, x, l₂, hl, rfl, hx, hno⟩ := exists_of_findIdx? hi
  -- the position and the record are of the same search
  have hxr : r = x := by
    have hr' : a.records.find? (fun r => decide (r.ref = ref)) = some r := hr
    have hfound : (l₁ ++ x :: l₂).find? (fun r => decide (r.ref = ref)) = some x :=
      find?_append_cons hx hno
    rw [hl, hfound] at hr'
    exact (Option.some.inj hr').symm
  subst hxr
  refine ⟨l₁, l₂, hl, ?_⟩
  rewrite [closed, hi, hr]
  rfl

theorem shift_closed (ref : GrantRef) : Shift E P a (a.closed ref).2 := by
  cases hr : a.byRef ref with
  | none =>
    have : a.closed ref = (.error .unknown, a) := by
      unfold closed
      simp [hr]
    rw [this]
    exact .refl a
  | some r =>
    obtain ⟨l₁, l₂, hl, he⟩ := closed_eq hr
    rw [he]
    split
    · exact .refl a
    next hstate =>
    split
    · exact .refl a
    next hchild =>
    refine .drop hl ?_ fun c hc hp => ?_
    · simp only [not_and_or, ne_eq, Decidable.not_not] at hstate
      exact hstate
    · simp only [any_eq_true, decide_eq_true_eq, not_exists, not_and, ne_eq,
        Decidable.not_not] at hchild
      exact hchild c hc hp

theorem shift_cleanupStep (key : GrantKey) (step : Nat) :
    Shift E P a (a.cleanupStep key step).2 := by
  unfold cleanupStep
  split
  · exact .refl a
  split
  · exact .refl a
  split
  · exact .updateKey fun r _ => ⟨rfl, rfl, rfl, rfl, rfl, rfl, .inl rfl⟩
  · split
    · exact .updateKey fun r _ => ⟨rfl, rfl, rfl, rfl, rfl, rfl, .inl rfl⟩
    · exact .refl a
  · split
    · exact .updateKey fun r _ => ⟨rfl, rfl, rfl, rfl, rfl, rfl, .inl rfl⟩
    · exact .refl a
  · exact .refl a

/-! ## What holds of the records -/

/-- Numbers and names of grants are distinct, and each grant's parent is there: older, delivered,
and held by who made the grant through its entrance. -/
structure Sound (a : Authority) : Prop where
  keys : (a.records.map Record.key).Nodup
  refs : (a.records.map Record.ref).Nodup
  bound : ∀ r ∈ a.records, r.key < a.nextKey
  first : 0 < a.nextKey
  current : ∀ r ∈ a.records, r.state ≠ .closed
  parents : ∀ r ∈ a.records, ∀ p, r.parent = some p → ∃ q ∈ a.records, q.key = p ∧
    q.key < r.key ∧ q.state ≠ .pending ∧ q.entrance = some r.via ∧ q.spec.holder = r.issuer

theorem sound_new (root operator : TaskId) : (Authority.new root operator).Sound := by
  have hno : ∀ r, r ∉ (Authority.new root operator).records := fun r hr => by cases hr
  exact ⟨nodup_nil, nodup_nil, fun r hr => absurd hr (hno r), Nat.one_pos,
    fun r hr => absurd hr (hno r), fun r hr => absurd hr (hno r)⟩

/-- One record before and after, an entrance aside that it may have got. -/
structure Same (r r' : Record) : Prop where
  key : r'.key = r.key
  ref : r'.ref = r.ref
  parent : r'.parent = r.parent
  spec : r'.spec = r.spec
  entrance : ∀ e, r.entrance = some e → r'.entrance = some e
  state : r'.state = r.state ∨ r'.state = .revoking ∨ (r.state = .pending ∧ r'.state = .granted)

variable {r r' : Record}

theorem Same.of_alike (h : r.Alike r') : Same r r' := by
  refine ⟨h.key, ?_, h.parent, h.spec, fun e he => by rw [h.entrance, he], h.state⟩
  unfold Record.ref
  rw [h.via, h.issuer, h.spec]

theorem Same.current (h : Same r r') (hr : r.state ≠ .closed) : r'.state ≠ .closed := by
  rcases h.state with he | he | ⟨-, he⟩
  · rwa [he]
  · rw [he]
    exact fun he => nomatch he
  · rw [he]
    exact fun he => nomatch he

theorem Same.not_pending (h : Same r r') (hr : r.state ≠ .pending) : r'.state ≠ .pending := by
  rcases h.state with he | he | ⟨he, -⟩
  · rwa [he]
  · rw [he]
    exact fun he => nomatch he
  · exact absurd he hr

theorem same_equip {token : PieToken} (hr : a.byRef ref = some r)
    (hold : ∀ old, r.entrance = some old → old = token) :
    List.Forall₂ Same a.records
      (a.updateRef ref fun r => { r with entrance := some token }).records := by
  refine forall₂_update (fun r _ => .of_alike (.refl r)) fun r' hr' =>
    ⟨rfl, rfl, rfl, rfl, fun e he => ?_, .inl rfl⟩
  have hr : Keyed.get Record.ref a.records ref = some r := hr
  rw [hr] at hr'
  rw [hold e (Option.some.inj hr' ▸ he)]

theorem sound_same (h : a.Sound) (hr : List.Forall₂ Same a.records a'.records)
    (hkey : a'.nextKey = a.nextKey) : a'.Sound := by
  refine ⟨?_, ?_, fun r' hr' => ?_, by rw [hkey]; exact h.first, fun r' hr' => ?_,
    fun r' hr' p hp => ?_⟩
  · rw [map_eq_of_forall₂ hr fun _ _ hs => hs.key]
    exact h.keys
  · rw [map_eq_of_forall₂ hr fun _ _ hs => hs.ref]
    exact h.refs
  · obtain ⟨r, hr0, hs⟩ := exists_of_forall₂_right hr hr'
    rw [hs.key, hkey]
    exact h.bound r hr0
  · obtain ⟨r, hr0, hs⟩ := exists_of_forall₂_right hr hr'
    exact hs.current (h.current r hr0)
  obtain ⟨r, hr0, hs⟩ := exists_of_forall₂_right hr hr'
  rw [hs.parent] at hp
  obtain ⟨q, hq, hqp, hlt, hstate, hentrance, hholder⟩ := h.parents r hr0 p hp
  obtain ⟨q', hq', hsq⟩ := exists_of_forall₂_left hr hq
  have href := hs.ref
  simp only [Record.ref, GrantRef.mk.injEq] at href
  refine ⟨q', hq', by rw [hsq.key, hqp], by rw [hsq.key, hs.key]; exact hlt,
    hsq.not_pending hstate, ?_, ?_⟩
  · rw [hsq.entrance _ hentrance, href.1]
  · rw [hsq.spec, hholder, href.2.1]

theorem Sound.byKey (h : a.Sound) (hr : r ∈ a.records) : a.byKey r.key = some r :=
  get_of_mem h.keys hr

theorem Sound.byRef (h : a.Sound) (hr : r ∈ a.records) : a.byRef r.ref = some r :=
  get_of_mem h.refs hr

theorem Sound.eq_of_key (h : a.Sound) (hr : r ∈ a.records) (hr' : r' ∈ a.records)
    (hk : r.key = r'.key) : r = r' := inj_on_of_nodup_map h.keys hr hr' hk

section

variable {q : Record} {caller : TaskId} {via : PieToken} {spec : GrantSpec}

theorem sound_add (h : a.Sound) (hq : q ∈ a.records) (hentrance : q.entrance = some via)
    (hholder : q.spec.holder = caller) (hgranted : q.state = .granted)
    (hfresh : a.byRef ⟨via, caller, spec.id⟩ = none) (hkey : a'.nextKey = a.nextKey + 1)
    (hrecords : a'.records = a.records ++ [a.made q caller via spec]) : a'.Sound := by
  have hmem : ∀ r ∈ a'.records, r ∈ a.records ∨ r = a.made q caller via spec := fun r hr => by
    rw [hrecords] at hr
    simpa using hr
  have hold : ∀ r ∈ a.records, r ∈ a'.records := fun r hr => by
    rw [hrecords]
    exact mem_append_left _ hr
  have hnew : Keyed.get Record.key a.records a.nextKey = none :=
    get_eq_none_iff.2 fun r hr => Nat.ne_of_lt (h.bound r hr)
  refine ⟨?_, ?_, fun r hr => ?_, by rw [hkey]; exact Nat.succ_pos _, fun r hr => ?_,
    fun r hr p hp => ?_⟩
  · rw [hrecords]
    exact nodup_append h.keys hnew
  · rw [hrecords]
    exact nodup_append h.refs hfresh
  · rw [hkey]
    rcases hmem r hr with hr | rfl
    · exact Nat.lt_succ_of_lt (h.bound r hr)
    · exact Nat.lt_succ_self _
  · rcases hmem r hr with hr | rfl
    · exact h.current r hr
    · exact fun he => nomatch he
  rcases hmem r hr with hr | rfl
  · obtain ⟨q', hq', hrest⟩ := h.parents r hr p hp
    exact ⟨q', hold q' hq', hrest⟩
  cases hp
  refine ⟨q, hold q hq, rfl, h.bound q hq, ?_, hentrance, hholder⟩
  rw [hgranted]
  exact fun he => nomatch he

end

section

variable {l₁ l₂ : List Record} {r : Record}

theorem mem_drop (h : a.Sound) (hl : a.records = l₁ ++ r :: l₂) (x : Record) :
    x ∈ Lists.swapRemove a.records l₁.length ↔ x ∈ a.records ∧ x ≠ r := by
  have hperm : (Lists.swapRemove a.records l₁.length).Perm (l₁ ++ l₂) := by
    rw [hl]
    exact swapRemove_perm l₁ r l₂
  have hr : r ∉ l₁ ++ l₂ := by
    have hn := (List.Nodup.of_map _ h.keys)
    rw [hl, nodup_middle] at hn
    exact (nodup_cons.1 hn).1
  rw [hperm.mem_iff, hl]
  constructor
  · intro hx
    refine ⟨?_, fun he => hr (he ▸ hx)⟩
    simp only [mem_append, mem_cons] at hx ⊢
    exact hx.imp id .inr
  · rintro ⟨hx, hne⟩
    simpa [hne] using hx

theorem sublist_drop (hl : a.records = l₁ ++ r :: l₂) {β : Type} (f : Record → β)
    (hn : (a.records.map f).Nodup) : ((Lists.swapRemove a.records l₁.length).map f).Nodup := by
  rw [hl] at hn ⊢
  rw [((swapRemove_perm l₁ r l₂).map f).nodup_iff]
  refine hn.sublist (List.Sublist.map f ?_)
  exact List.Sublist.append_left (sublist_cons_self r l₂) l₁

theorem sound_drop (h : a.Sound) (hl : a.records = l₁ ++ r :: l₂)
    (hchild : ∀ c ∈ a.records, c.parent = some r.key → c.state = .closed) (w : List Watermark) :
    Sound { a with records := Lists.swapRemove a.records l₁.length, watermarks := w } := by
  have hmem := mem_drop h hl
  refine ⟨sublist_drop hl _ h.keys, sublist_drop hl _ h.refs,
    fun x hx => h.bound x ((hmem x).1 hx).1, h.first, fun x hx => h.current x ((hmem x).1 hx).1,
    fun x hx p hp => ?_⟩
  have hx0 := ((hmem x).1 hx).1
  obtain ⟨q, hq, hqp, hrest⟩ := h.parents x hx0 p hp
  refine ⟨q, (hmem q).2 ⟨hq, ?_⟩, hqp, hrest⟩
  -- the record taken out has no child
  rintro rfl
  exact h.current x hx0 (hchild x hx0 (by rw [hp, hqp]))

end

/-- What holds of the records afterwards. -/
theorem sound_shift (h : a.Sound) (hs : Shift E P a a') : a'.Sound := by
  cases hs with
  | relabel hr _ _ hkey _ => exact sound_same h (hr.imp fun _ _ => Same.of_alike) hkey
  | equip hr _ hold _ => exact sound_same h (same_equip hr hold) rfl
  | root =>
    refine ⟨by simp, by simp, fun r hr => ?_, h.first, fun r hr => ?_, fun r hr p hp => ?_⟩
    · rw [mem_singleton.1 hr]
      exact h.first
    · rw [mem_singleton.1 hr]
      exact fun he => nomatch he
    · rw [mem_singleton.1 hr] at hp
      cases hp
  | add hq hentrance hholder hgranted hfresh _ _ _ _ _ hkey _ _ hrecords =>
    exact sound_add h hq hentrance hholder hgranted hfresh hkey hrecords
  | drop hl _ hchild => exact sound_drop h hl hchild _

/-! ## Who descends from whom -/

/-- One grant was made under another. -/
def Parent (a : Authority) (r q : Record) : Prop := q ∈ a.records ∧ r.parent = some q.key

/-- A grant and all that was made under it. -/
def Under (a : Authority) (r g : Record) : Prop := ReflTransGen a.Parent r g

variable {g : Record}

theorem under_of_loop (hg : g ∈ a.records) {n : Nat}
    (hl : a.descendsLoop g.key n r.parent = true) : a.Under r g := by
  induction n generalizing r with
  | zero =>
    cases hp : r.parent <;> simp [hp, descendsLoop] at hl
  | succ n ih =>
    cases hp : r.parent with
    | none => simp [hp, descendsLoop] at hl
    | some p =>
      rw [hp, descendsLoop] at hl
      split at hl
      · next he => exact .single ⟨hg, by rw [hp, he]⟩
      cases hq : a.byKey p with
      | none =>
        rw [hq] at hl
        cases n <;> simp [descendsLoop] at hl
      | some q =>
        rw [hq] at hl
        refine .head ⟨mem_of_get hq, ?_⟩ (ih hl)
        rw [hp, key_of_get hq]

theorem under_of_descends (h : a.Sound) (hr : r ∈ a.records) (hg : g ∈ a.records)
    (hd : a.descends g.key r = true) : a.Under r g := by
  rcases Bool.or_eq_true_iff.1 hd with hk | hl
  · rw [h.eq_of_key hr hg (by simpa using hk)]
    exact .refl
  · exact under_of_loop hg hl

/-- The records that differ from others in their states descend alike. -/
theorem under_same (hs : List.Forall₂ Same a.records a'.records) {g' : Record}
    (hr : r ∈ a.records) (hrr : Same r r') (hu : a'.Under r' g') :
    ∃ g ∈ a.records, Same g g' ∧ a.Under r g := by
  induction hu with
  | refl => exact ⟨r, hr, hrr, .refl⟩
  | tail _ hp ih =>
    obtain ⟨b, hb, hbb, hu⟩ := ih
    obtain ⟨g, hg, hgg⟩ := exists_of_forall₂_right hs hp.1
    refine ⟨g, hg, hgg, hu.tail ⟨hg, ?_⟩⟩
    rw [← hbb.parent, hp.2, hgg.key]

theorem loop_of_under (h : a.Sound) (hr : r ∈ a.records) (hu : TransGen a.Parent r g)
    {n : Nat} (hn : a.records.countP (·.key < r.key) ≤ n) :
    a.descendsLoop g.key n r.parent = true := by
  induction hu using TransGen.head_induction_on generalizing n with
  | single hp =>
    rename_i r
    obtain ⟨q, hq, hqk, hlt, -⟩ := h.parents r hr g.key hp.2
    have hpos : 0 < a.records.countP (·.key < r.key) :=
      countP_pos_iff.2 ⟨q, hq, by simpa using hlt⟩
    obtain ⟨n, rfl⟩ := Nat.exists_eq_succ_of_ne_zero
        (Nat.ne_zero_of_lt (Nat.lt_of_lt_of_le hpos hn))
    rw [hp.2, descendsLoop, if_pos rfl]
  | head hp hrest ih =>
    rename_i r q
    have hlt : q.key < r.key := by
      obtain ⟨q', hq', hqk, hlt, -⟩ := h.parents r hr q.key hp.2
      rwa [← hqk]
    -- fewer records are older than the parent
    have hcount : a.records.countP (·.key < q.key) < a.records.countP (·.key < r.key) := by
      refine countP_lt (fun x _ hx => ?_) hp.1 (by simp) (by simpa using hlt)
      simp only [decide_eq_true_eq] at hx ⊢
      exact Nat.lt_trans hx hlt
    obtain ⟨n, rfl⟩ := Nat.exists_eq_succ_of_ne_zero
        (Nat.ne_zero_of_lt (Nat.lt_of_lt_of_le hcount hn))
    rw [hp.2, descendsLoop]
    split
    · rfl
    · rw [h.byKey hp.1]
      exact ih hp.1 (Nat.le_of_lt_succ (Nat.lt_of_lt_of_le hcount hn))

theorem descends_iff (h : a.Sound) (hr : r ∈ a.records) (hg : g ∈ a.records) :
    a.descends g.key r = true ↔ a.Under r g := by
  refine ⟨under_of_descends h hr hg, fun hu => ?_⟩
  unfold descends
  rcases reflTransGen_iff_eq_or_transGen.1 hu with rfl | hu
  · simp
  · rw [loop_of_under h hr hu (countP_le_length), Bool.or_true]

theorem descends_same (hs : List.Forall₂ Same a.records a'.records) (hrr : Same r r')
    (root : GrantKey) : a'.descends root r' = a.descends root r := by
  have hbind : ∀ k, (a'.byKey k).bind (·.parent) = (a.byKey k).bind (·.parent) := by
    intro k
    unfold byKey
    generalize a.records = l, a'.records = l' at hs
    induction hs with
    | nil => rfl
    | cons hr _ ih =>
      rw [get_cons, get_cons, hr.key]
      split
      · exact hr.parent
      · exact ih
  have hloop : ∀ n p, a'.descendsLoop root n p = a.descendsLoop root n p := by
    intro n
    induction n with
    | zero => intro p; cases p <;> rfl
    | succ n ih =>
      intro p
      cases p with
      | none => rfl
      | some p => rw [descendsLoop, descendsLoop, hbind, ih]
  unfold descends
  rw [hrr.key, hrr.parent, hloop, hs.length_eq]

theorem mem_revokePlan {plan : List Closing} (h : (a.revokePlan room ref).1 = .ok plan)
    {c : Closing} (hc : c ∈ plan) :
    ∃ g r, a.byRef ref = some g ∧ r ∈ a.records ∧ a.descends g.key r = true ∧
      c = ⟨r.key, r.ref, r.entrance⟩ := by
  unfold revokePlan at h
  split at h
  · cases h
    cases hc
  next g hg =>
  split at h
  · cases h
  injection h with h
  rw [← h, mem_reverse, mem_map] at hc
  obtain ⟨r, hr, rfl⟩ := hc
  obtain ⟨hmem, hd⟩ := mem_filter.1 hr
  simp only [decide_eq_true_eq] at hd
  exact ⟨g, r, hg, hmem, hd.1, rfl⟩

theorem same_revoke (room : Bool) (ref : GrantRef) :
    List.Forall₂ Same a.records (a.revoke room ref).2.records := by
  have hrefl : List.Forall₂ Same a.records a.records :=
    forall₂_same.2 fun r _ => .of_alike (.refl r)
  unfold revoke
  split
  · split
    · exact hrefl
    split
    · exact hrefl
    · exact forall₂_update (fun r _ => .of_alike (.refl r)) fun r _ =>
        ⟨rfl, rfl, rfl, rfl, fun e he => he, .inr (.inl rfl)⟩
  · split
    · exact hrefl
    · split <;> exact hrefl

end Authority

end Sqware.Operator
