import Sqware.Identity.Book

/-!
# Attenuation

What a task acts as stays inside what it started with: the principal below, the coalitions among
those it had, and each coalition one of which the principal is a member.  Nobody but the installer
can lead a task out of the subtree of its origin.
-/

namespace Sqware.Identity

open Relation List Keyed CoalitionSet

namespace IdentityBook

/-! ## The tree of principals -/

/-- `x` is the principal that `y` was derived from. -/
def Parent (book : IdentityBook) (x y : PrincipalId) : Prop :=
  y.authority = book.authority ∧ book.parentAt y.slot = some x

/-- `y` is `x`, or comes from it in some steps. -/
def Descends (book : IdentityBook) : PrincipalId → PrincipalId → Prop := ReflTransGen book.Parent

/-- A parent is older than its child. -/
def Rooted (book : IdentityBook) : Prop :=
  ∀ slot p, book.parentAt slot = some p → p.authority = book.authority ∧ p.slot < slot

variable {book book' : IdentityBook} {p : PrincipalId}

theorem principal_ok {slot : Nat} (h : book.principal p = .ok slot) :
    p.authority = book.authority ∧ p.slot < book.principals.length ∧ slot = p.slot := by
  unfold principal at h
  split at h
  · cases h
  next ha =>
  split at h
  · cases h
  · next hs =>
    cases h
    exact ⟨not_not.1 ha, Nat.lt_of_not_le hs, rfl⟩

/-- The search for an ancestor ends. -/
theorem heirLoop_ends (hr : book.Rooted) (a : PrincipalId) {fuel : Nat} {next : Option PrincipalId}
    (hf : 0 < fuel)
    (h : ∀ p, next = some p → p.slot < book.principals.length → p.slot + 1 < fuel) :
    (book.heirLoop a fuel next).isSome := by
  induction fuel generalizing next with
  | zero => exact absurd hf (Nat.lt_irrefl 0)
  | succ fuel ih =>
    cases next with
    | none => rfl
    | some p =>
      unfold heirLoop
      split
      · rfl
      split
      · rfl
      next slot hslot =>
      obtain ⟨-, hlt, rfl⟩ := principal_ok hslot
      have hp := h p rfl hlt
      refine ih (by omega) fun q hq _ => ?_
      have := (hr _ q hq).2
      omega

theorem heirLoop_true {a : PrincipalId} {fuel : Nat}
    (h : book.heirLoop a fuel (some p) = some (.ok true)) : book.Descends a p := by
  induction fuel generalizing p with
  | zero => cases h
  | succ fuel ih =>
    unfold heirLoop at h
    split at h
    · next he => exact he ▸ .refl
    split at h
    · cases h
    next slot hslot =>
    obtain ⟨ha, -, rfl⟩ := principal_ok hslot
    cases hp : book.parentAt p.slot with
    | none =>
      rw [hp] at h
      cases fuel with
      | zero => cases h
      | succ fuel => simp [heirLoop] at h
    | some q =>
      rw [hp] at h
      exact (ih h).tail ⟨ha, hp⟩

theorem heir_true {a : PrincipalId} (h : book.heir a p = .ok true) : book.Descends a p := by
  unfold heir at h
  obtain ⟨slot, -, h⟩ := ok_of_bind h
  cases hl : book.heirLoop a (book.principals.length + 1) (some p) with
  | none =>
    rw [hl] at h
    cases h
  | some r =>
    rw [hl] at h
    exact heirLoop_true (hl.trans (congrArg some h))

/-! ## Attenuated bindings -/

/-- The principal is a member of each coalition. -/
def Eligible (book : IdentityBook) (s : Subject) : Prop :=
  ∀ c ∈ s.coalitions, (s.principal, c) ∈ book.memberships

/-- The current subject lies below the origin, and both are eligible. -/
structure Held (book : IdentityBook) (b : Binding) : Prop where
  below : book.Descends b.origin.principal b.current.principal
  within : b.current.coalitions ⊆ b.origin.coalitions
  origin : book.Eligible b.origin
  current : book.Eligible b.current

/-- What every call keeps. -/
structure Inv (book : IdentityBook) : Prop where
  rooted : book.Rooted
  held : ∀ row ∈ book.bindings, book.Held row.binding

/-- More principals, more members. -/
structure Grows (book book' : IdentityBook) : Prop where
  authority : book'.authority = book.authority
  principals : ∃ l, book'.principals = book.principals ++ l
  memberships : ∀ m ∈ book.memberships, m ∈ book'.memberships

theorem Grows.parent (h : Grows book book') {x y : PrincipalId} (hp : book.Parent x y) :
    book'.Parent x y := by
  obtain ⟨ha, hp⟩ := hp
  obtain ⟨l, hl⟩ := h.principals
  refine ⟨ha.trans h.authority.symm, ?_⟩
  unfold parentAt at hp ⊢
  rw [hl]
  cases hn : book.principals[y.slot]? with
  | none =>
    rw [hn] at hp
    cases hp
  | some node =>
    rw [getElem?_append_left (List.getElem?_eq_some_iff.1 hn).1, hn]
    rwa [hn] at hp

theorem Grows.descends (h : Grows book book') {x y : PrincipalId} (hd : book.Descends x y) :
    book'.Descends x y :=
  ReflTransGen.mono (fun _ _ hp => h.parent hp) _ _ hd

variable {b : Binding}

theorem Grows.held (h : Grows book book') (hb : book.Held b) : book'.Held b where
  below := h.descends hb.below
  within := hb.within
  origin c hc := h.memberships _ (hb.origin c hc)
  current c hc := h.memberships _ (hb.current c hc)

variable {s : Subject}

theorem held_of_eligible (h : book.Eligible s) : book.Held ⟨s, s⟩ :=
  ⟨.refl, fun _ hc => hc, h, h⟩

variable {task : TaskId}

theorem Inv.resolve (h : book.Inv) (hb : book.resolve task = some b) : book.Held b := by
  obtain ⟨row, hrow, rfl⟩ := Option.map_eq_some_iff.1 hb
  exact h.held row (mem_of_get hrow)

theorem Inv.congr (h : book.Inv) (ha : book'.authority = book.authority)
    (hp : book'.principals = book.principals) (hm : book'.memberships = book.memberships)
    (hb : ∀ row ∈ book'.bindings, ∃ row' ∈ book.bindings, row'.binding = row.binding) :
    book'.Inv where
  rooted slot p := by
    have := h.rooted slot p
    rwa [← ha, show book.parentAt slot = book'.parentAt slot by unfold parentAt; rw [hp]] at this
  held row hrow := by
    obtain ⟨row', hrow', he⟩ := hb row hrow
    have hg : Grows book book' := ⟨ha, ⟨[], by rw [hp, append_nil]⟩, fun m h => hm ▸ h⟩
    exact he ▸ hg.held (h.held row' hrow')

theorem inv_bindings (h : book.Inv) {rows : List BindingRow}
    (hrows : ∀ row ∈ rows, book.Held row.binding) : Inv { book with bindings := rows } where
  rooted := h.rooted
  held row hrow := by
    have hg : Grows book { book with bindings := rows } :=
      ⟨rfl, ⟨[], (append_nil _).symm⟩, fun _ hm => hm⟩
    exact hg.held (hrows row hrow)

theorem inv_place (h : book.Inv) (hb : book.Held b) (task : TaskId) : (book.place task b).Inv := by
  refine inv_bindings h fun row hrow => ?_
  split at hrow
  · rcases mem_update hrow with hrow | ⟨row', -, rfl⟩
    · exact h.held row hrow
    · exact hb
  rcases mem_append.1 hrow with hrow | hrow
  · exact h.held row hrow
  · obtain rfl := mem_singleton.1 hrow
    exact hb

/-! ## What the checks say -/

variable {c : CoalitionId}

theorem amid_true (h : book.amid p c = .ok true) : (p, c) ∈ book.memberships := by
  unfold amid at h
  obtain ⟨i, -, h⟩ := ok_of_bind h
  obtain ⟨j, -, h⟩ := ok_of_bind h
  exact contains_iff_mem.1 (Except.ok.inj h)

variable {l : List CoalitionId}

theorem eligible_ok (h : book.eligible p l = .ok ()) : ∀ c ∈ l, (p, c) ∈ book.memberships := by
  induction l with
  | nil => simp
  | cons c l ih =>
    unfold eligible at h
    obtain ⟨yes, ha, h⟩ := ok_of_bind h
    cases yes with
    | false => cases h
    | true =>
      intro d hd
      rcases mem_cons.1 hd with rfl | hd
      · exact amid_true ha
      · exact ih h d hd

theorem validate_ok (h : book.validate s = .ok ()) : book.Eligible s := by
  unfold validate at h
  obtain ⟨i, -, h⟩ := ok_of_bind h
  exact eligible_ok h

theorem narrow_ok {base : Subject} (h : book.narrow base s = .ok ()) :
    book.Eligible s ∧ book.Descends base.principal s.principal ∧
      s.coalitions ⊆ base.coalitions := by
  unfold narrow at h
  obtain ⟨_, hv, h⟩ := ok_of_bind h
  obtain ⟨heir, hh, h⟩ := ok_of_bind h
  split at h
  · cases h
  next hn =>
  simp only [Bool.or_eq_true, Bool.not_eq_true', any_eq_true, not_or, not_exists,
    not_and, Bool.not_eq_false] at hn
  exact ⟨validate_ok hv, heir_true (hn.1 ▸ hh),
    fun c hc => CoalitionSet.contains_iff.1 (hn.2 c hc)⟩

theorem gather_ok {m : PrincipalId} {ids out : List CoalitionId}
    (h : book.gather m p l ids = .ok out) : ∀ c ∈ out, c ∈ ids ∨ (p, c) ∈ book.memberships := by
  induction l generalizing ids with
  | nil =>
    cases h
    exact fun c hc => .inl hc
  | cons c l ih =>
    unfold gather at h
    obtain ⟨slot, -, h⟩ := ok_of_bind h
    split at h
    · cases h
    obtain ⟨yes, ha, h⟩ := ok_of_bind h
    cases yes with
    | false => cases h
    | true =>
      simp only [Bool.not_true, Bool.false_eq_true, if_false] at h
      split at h
      · exact ih h
      split at h
      · cases h
      intro d hd
      rcases ih h d hd with hd | hd
      · rcases mem_append.1 hd with hd | hd
        · exact .inl hd
        · obtain rfl := mem_singleton.1 hd
          exact .inr (amid_true ha)
      · exact .inr hd

theorem activated_ok {sender : TaskId} {l : CoalitionSet} (hi : book.Inv)
    (h : book.activated sender task l = .ok s) :
    book.Eligible s ∧ ∃ b, book.resolve task = some b ∧ s.principal = b.current.principal := by
  unfold activated at h
  split at h
  · cases h
  split at h
  · cases h
  · cases h
  next m b hsender htask =>
  split at h
  · cases h
  obtain ⟨ids, hg, h⟩ := ok_of_bind h
  obtain ⟨hp, hc⟩ := Subject.new_ok h
  refine ⟨fun c hmem => ?_, _, htask, hp⟩
  rw [hp]
  rcases gather_ok hg c ((hc c).1 hmem) with hold | hnew
  · exact (hi.resolve htask).current c hold
  · exact hnew

/-! ## What each call does -/

/-- The sender is the installer or acts as the manager. -/
def Manages (book : IdentityBook) (sender : TaskId) (c : CoalitionId) : Prop :=
  sender = book.installer ∨
    ∃ b, book.resolve sender = some b ∧ book.managerAt c.slot = some b.current.principal

variable {m : Membership}

theorem coalition_ok {c : CoalitionId} {slot : Nat} (h : book.coalition c = .ok slot) :
    c.authority = book.authority ∧ c.slot < book.coalitions.length ∧ slot = c.slot := by
  unfold coalition at h
  split at h
  · cases h
  next ha =>
  split at h
  · cases h
  · next hs =>
    cases h
    exact ⟨not_not.1 ha, Nat.lt_of_not_le hs, rfl⟩

/-- The principal is in the book. -/
def Knows (book : IdentityBook) (p : PrincipalId) : Prop :=
  p.authority = book.authority ∧ p.slot < book.principals.length

/-- Both ends of a membership are known. -/
def Houses (book : IdentityBook) (x : PrincipalId × CoalitionId) : Prop :=
  book.Knows x.1 ∧ x.2.authority = book.authority ∧ x.2.slot < book.coalitions.length

theorem manage_ok {sender : TaskId} (h : book.manage sender m = .ok ()) :
    book.Houses (m.principal, m.coalition) ∧ book.Manages sender m.coalition := by
  unfold manage at h
  obtain ⟨slot, hc, h⟩ := ok_of_bind h
  obtain ⟨i, hp, h⟩ := ok_of_bind h
  obtain ⟨hca, hcs, rfl⟩ := coalition_ok hc
  obtain ⟨hpa, hps, -⟩ := principal_ok hp
  refine ⟨⟨⟨hpa, hps⟩, hca, hcs⟩, ?_⟩
  split at h
  · next hs => exact .inl hs
  split at h
  · cases h
  next b hb =>
  split at h
  · cases h
  · next hm => exact .inr ⟨b, hb, not_not.1 hm⟩

/-- The book with a child of this principal. -/
def child (book : IdentityBook) (parent : PrincipalId) : IdentityBook :=
  { book with principals := book.principals ++ [⟨some parent⟩] }

/-- Principals and coalitions are added, never taken out. -/
structure Onward (book book' : IdentityBook) : Prop where
  authority : book'.authority = book.authority
  principals : book.principals.length ≤ book'.principals.length
  coalitions : book.coalitions.length ≤ book'.coalitions.length

theorem Onward.trans {book'' : IdentityBook} (h : Onward book book') (h' : Onward book' book'') :
    Onward book book'' :=
  ⟨h'.authority.trans h.authority, h.principals.trans h'.principals,
    h.coalitions.trans h'.coalitions⟩

/-- The bindings stay attenuated and nobody becomes or stops being a member. -/
structure Keeps (book book' : IdentityBook) : Prop extends Onward book book' where
  inv : book.Inv → book'.Inv
  memberships : book'.memberships = book.memberships
  revision : book'.revision = book.revision

/-- Calls on the own binding of the sender. -/
def selects : Call → Bool
  | .narrowOwn _ | .waive | .activate .. => true
  | _ => false

/-- What a call can come to. -/
inductive Does (book : IdentityBook) (sender : TaskId) :
    Call → Except Fail Answer → IdentityBook → Prop
  | refused {call : Call} {f : Fail} : Does book sender call (.error f) book
  | derived {parent : PrincipalId} {answer : Answer} (hp : book.Knows parent) :
      Does book sender (.derive parent) (.ok answer) (book.child parent)
  | founded {id : Nat} {answer : Answer} (nodes : List CoalitionNode) :
      Does book sender (.found id) (.ok answer)
        { book with coalitions := book.coalitions ++ nodes }
  | admitted {m : Membership} (members : List (PrincipalId × CoalitionId)) {revision : Nat}
      (hm : book.manage sender m = .ok ()) (h : ∀ x ∈ members, x = (m.principal, m.coalition)) :
      Does book sender (.admitMember m) (.ok .unit)
        { book with memberships := book.memberships ++ members, revision := revision }
  | expelled {m : Membership} {revision : Nat} :
      Does book sender (.expel m) (.ok .unit) { book with
        memberships := book.memberships.filter (· ≠ (m.principal, m.coalition))
        bindings := book.bindings.map fun row => { row with binding := withdraw m row.binding }
        revision := revision }
  | bound {task : TaskId} {i : Install} {s : Subject} (hs : sender = book.installer)
      (he : book.Inv → book.Eligible s) :
      Does book sender (.bind task i) (.ok .unit) (book.place task ⟨s, s⟩)
  | adopted {task : TaskId} {parent : PrincipalId} {s : Subject} (hs : sender = book.installer)
      (hp : book.Knows parent) (he : s.coalitions = .empty) :
      Does book sender (.bind task (.derive parent)) (.ok .unit)
        ((book.child parent).place task ⟨s, s⟩)
  | spoilt {task : TaskId} {parent : PrincipalId} {f : Fail} (hs : sender = book.installer)
      (hp : book.Knows parent) (hz : book.authority = 0) :
      Does book sender (.bind task (.derive parent)) (.error f) (book.child parent)
  | unbound {task : TaskId} (hs : sender = book.installer) :
      Does book sender (.unbind task) (.ok .unit)
        { book with bindings := book.bindings.filter (·.task ≠ task) }
  | selected {call : Call} {t : TaskId} {b : Binding} (hc : selects call = true)
      (hb : book.Inv → book.Held b ∧ ∀ old, book.resolve t = some old →
        book.Descends old.origin.principal b.current.principal) :
      Does book sender call (.ok .unit) (book.setBinding t b)
  | installed {endpoint : PieToken} {id : Nat} {action : InstallAction}
      {answer : Except Fail Answer} {book' : IdentityBook} (hk : Keeps book book')
      (he : ∀ f, answer = .error f → book' = book)
      (hs : sender ≠ book.installer → book' = book) :
      Does book sender (.installation endpoint id action) answer book'

/-- What the call comes to. -/
abbrev Called (book : IdentityBook) (room : Room) (sender : TaskId) (call : Call) : Prop :=
  Does book sender call (book.call room sender call).1 (book.call room sender call).2

section
variable (room : Room) (sender : TaskId)

theorem derive_cases (parent : PrincipalId) :
    (∃ f, book.derive room sender parent = (.error f, book)) ∨
    book.Knows parent ∧ book.derive room sender parent =
      (.ok ⟨book.authority, book.principals.length⟩, book.child parent) := by
  unfold derive
  split
  · exact .inl ⟨_, rfl⟩
  next slot hslot =>
  obtain ⟨ha, hlt, -⟩ := principal_ok hslot
  split
  · exact .inl ⟨_, rfl⟩
  split
  · exact .inl ⟨_, rfl⟩
  · split
    · exact .inl ⟨_, rfl⟩
    · exact .inr ⟨⟨ha, hlt⟩, rfl⟩

theorem does_derive (parent : PrincipalId) : book.Called room sender (.derive parent) := by
  rcases @derive_cases book room sender parent with ⟨f, h⟩ | ⟨hp, h⟩
  · rw [Called, call, h]
    exact .refused
  · rw [Called, call, h]
    exact .derived hp

theorem does_found (id : Nat) : book.Called room sender (.found id) := by
  rw [Called, call, found]
  split
  · exact .refused
  split
  · exact .refused
  split
  · split
    · exact .refused
    · have h answer := @Does.founded book sender id answer []
      rw [append_nil] at h
      exact h _
  split
  · exact .refused
  · split
    · exact .refused
    · exact .founded _

theorem does_admit (m : Membership) : book.Called room sender (.admitMember m) := by
  rw [Called, call, admitMember]
  split
  · exact .refused
  next hm =>
  split
  · have := @Does.admitted book sender m [] book.revision hm (by simp)
    rwa [append_nil] at this
  split
  · exact .refused
  split
  · exact .refused
  · split
    · exact .refused
    · exact .admitted _ hm fun x hx => mem_singleton.1 hx

theorem does_expel (m : Membership) : book.Called room sender (.expel m) := by
  rw [Called, call, expel]
  split
  · exact .refused
  · split
    · exact .refused
    · exact .expelled

theorem subject_new_nil (p : PrincipalId) :
    Subject.new p [] = if p.authority = 0 then .error .bad else .ok ⟨p, .empty⟩ := by
  change (Subject.validate ⟨p, .empty⟩ >>= fun _ => pure (⟨p, .empty⟩ : Subject)) = _
  unfold Subject.validate
  by_cases h : p.authority = 0
  · rw [if_pos h, if_pos h]
    rfl
  · rw [if_neg h, if_neg h]
    rfl

variable (task : TaskId)

/-- A task is bound to an eligible subject, or to a principal derived for it. -/
theorem does_bind (i : Install) : book.Called room sender (.bind task i) := by
  rw [Called, call, bind]
  split
  · exact .refused
  next hs =>
  have hs := not_not.1 hs
  split
  · exact .refused
  cases i with
  | authorized s =>
    rw [install]
    cases hv : book.validate s with
    | error f => exact .refused
    | ok u => exact .bound hs fun _ => validate_ok hv
  | inherit parent =>
    rw [install]
    cases hb : book.resolve parent with
    | none => exact .refused
    | some b => exact .bound hs fun hi => (hi.resolve hb).current
  | restrict parent s =>
    rw [install]
    cases hb : book.resolve parent with
    | none => exact .refused
    | some b =>
      dsimp only
      cases hn : book.narrow b.current s with
      | error f => exact .refused
      | ok u => exact .bound hs fun _ => (narrow_ok hn).1
  | derive parent =>
    rw [install]
    rcases @derive_cases book room sender parent with ⟨f, hd⟩ | ⟨hp, hd⟩
    · rw [hd]
      exact .refused
    rw [hd]
    dsimp only
    rw [subject_new_nil]
    by_cases hz : book.authority = 0
    · rw [if_pos hz]
      exact .spoilt hs hp hz
    · rw [if_neg hz]
      exact .adopted hs hp rfl

theorem does_unbind : book.Called room sender (.unbind task) := by
  rw [Called, call, unbind]
  split
  · exact .refused
  · next hs => exact .unbound (not_not.1 hs)

theorem does_narrowOwn (selection : Selection) :
    book.Called room sender (.narrowOwn selection) := by
  rw [Called, call, narrowOwn]
  cases hb : book.resolve sender with
  | none => exact .refused
  | some b =>
    dsimp only
    cases hn : book.narrow b.current selection.subject with
    | error f => exact .refused
    | ok u =>
      obtain ⟨he, hd, hsub⟩ := narrow_ok hn
      have hbelow (hi : book.Inv) (old : Binding) (hold : book.resolve sender = some old) :
          book.Descends old.origin.principal selection.subject.principal := by
        cases hb.symm.trans hold
        exact (hi.resolve hb).below.trans hd
      dsimp only
      split
      · refine .selected rfl fun hi => ⟨?_, hbelow hi⟩
        have hb := hi.resolve hb
        exact ⟨hb.below.trans hd, fun c hc => hb.within c (hsub c hc), hb.origin, he⟩
      · exact .selected rfl fun hi => ⟨held_of_eligible he, hbelow hi⟩

theorem does_waive : book.Called room sender .waive := by
  rw [Called, call, waive]
  cases hb : book.resolve sender with
  | none => exact .refused
  | some b =>
    refine .selected rfl fun hi => ⟨held_of_eligible (hi.resolve hb).origin, fun old hold => ?_⟩
    cases hb.symm.trans hold
    exact .refl

theorem does_activate (l : CoalitionSet) :
    book.Called room sender (.activate task l) := by
  rw [Called, call, activate]
  cases ha : book.activated sender task l with
  | error f => exact .refused
  | ok s =>
    refine .selected rfl fun hi => ?_
    obtain ⟨he, b, hb, hp⟩ := activated_ok hi ha
    refine ⟨held_of_eligible he, fun old hold => ?_⟩
    cases hb.symm.trans hold
    exact hp ▸ (hi.resolve hb).below

end

/-! ## Calls keep the bindings attenuated -/

theorem Inv.child (hi : book.Inv) (hp : book.Knows p) : (book.child p).Inv := by
  refine ⟨fun slot q hq => ?_, fun row hrow => ?_⟩
  · change (book.principals ++ [⟨some p⟩])[slot]?.bind (·.parent) = some q at hq
    rcases Nat.lt_trichotomy slot book.principals.length with hs | hs | hs
    · rw [getElem?_append_left hs] at hq
      exact hi.rooted slot q hq
    · subst hs
      rw [getElem?_concat_length] at hq
      cases hq
      exact hp
    · rw [getElem?_eq_none (by rw [length_append]; exact hs)] at hq
      cases hq
  · have hg : Grows book (book.child p) := ⟨rfl, ⟨_, rfl⟩, fun _ hm => hm⟩
    exact hg.held (hi.held row hrow)

theorem without_principal (m : Membership) (s : Subject) :
    (without m s).principal = s.principal := by
  unfold without
  split <;> rfl

theorem withdraw_origin (m : Membership) (b : Binding) :
    (withdraw m b).origin = without m b.origin := rfl

theorem withdraw_principal (m : Membership) (b : Binding) :
    (withdraw m b).current.principal = b.current.principal := without_principal m b.current

theorem mem_foldl_remove {keep : CoalitionSet} {set : CoalitionSet} :
    c ∈ l.foldl (fun set c => if keep.contains c then set else set.remove c) set ↔
      c ∈ set ∧ (c ∈ l → c ∈ keep) := by
  induction l generalizing set with
  | nil => simp
  | cons d l ih =>
    rw [foldl_cons, ih]
    split
    · next hd =>
      have hd := CoalitionSet.contains_iff.1 hd
      constructor
      · rintro ⟨hset, hl⟩
        refine ⟨hset, fun hc => ?_⟩
        rcases mem_cons.1 hc with rfl | hc
        · exact hd
        · exact hl hc
      · exact fun ⟨hset, hl⟩ => ⟨hset, fun hc => hl (mem_cons_of_mem d hc)⟩
    · next hd =>
      rw [CoalitionSet.contains_iff] at hd
      rw [mem_remove]
      constructor
      · rintro ⟨⟨hset, hne⟩, hl⟩
        exact ⟨hset, fun hc => hl ((mem_cons.1 hc).resolve_left hne)⟩
      rintro ⟨hset, hl⟩
      refine ⟨⟨hset, ?_⟩, fun hc => hl (mem_cons_of_mem d hc)⟩
      rintro rfl
      exact hd (hl mem_cons_self)

theorem mem_withdraw :
    c ∈ (withdraw m b).current.coalitions ↔
      c ∈ (without m b.current).coalitions ∧ c ∈ (without m b.origin).coalitions := by
  change c ∈ List.foldl _ _ _ ↔ _
  rw [mem_foldl_remove]
  exact ⟨fun ⟨h, h'⟩ => ⟨h, h' h⟩, fun ⟨h, h'⟩ => ⟨h, fun _ => h'⟩⟩

theorem inv_expelled (hi : book.Inv) (m : Membership) (revision : Nat) : Inv { book with
    memberships := book.memberships.filter (· ≠ (m.principal, m.coalition))
    bindings := book.bindings.map fun row => { row with binding := withdraw m row.binding }
    revision := revision } := by
  refine ⟨hi.rooted, fun row hrow => ?_⟩
  obtain ⟨row, hmem, rfl⟩ := mem_map.1 hrow
  have hb := hi.held row hmem
  -- what a subject keeps is a membership that was not the one expelled
  have keep : ∀ s, book.Eligible s → ∀ c ∈ (without m s).coalitions,
      (s.principal, c) ∈ book.memberships.filter (· ≠ (m.principal, m.coalition)) := by
    intro s hs c hc
    unfold without at hc
    split at hc
    · next h =>
      obtain ⟨hc, hne⟩ := mem_remove.1 hc
      exact mem_filter.2 ⟨hs c hc, by simp [h, hne]⟩
    · next h => exact mem_filter.2 ⟨hs c hc, by simp [h]⟩
  refine ⟨?_, fun c hc => (mem_withdraw.1 hc).2, fun c hc => ?_, fun c hc => ?_⟩
  · change book.Descends (withdraw m row.binding).origin.principal _
    rw [withdraw_origin, without_principal, withdraw_principal]
    exact hb.below
  · rw [withdraw_origin, without_principal]
    exact keep _ hb.origin c hc
  · rw [withdraw_principal]
    exact keep _ hb.current c (mem_withdraw.1 hc).1

variable {room : Room} {sender : TaskId} {call : Call} {answer : Except Fail Answer}

/-- It keeps the bindings attenuated. -/
theorem Does.inv (h : Does book sender call answer book') (hi : book.Inv) : book'.Inv := by
  cases h with
  | refused => exact hi
  | derived hp => exact hi.child hp
  | spoilt _ hp => exact hi.child hp
  | founded => exact hi.congr rfl rfl rfl fun row hrow => ⟨row, hrow, rfl⟩
  | admitted members =>
    refine ⟨hi.rooted, fun row hrow => ?_⟩
    exact @Grows.held book _ _
      ⟨rfl, ⟨[], (append_nil _).symm⟩, fun _ hm => mem_append_left _ hm⟩ (hi.held row hrow)
  | expelled => exact inv_expelled hi _ _
  | bound _ he => exact inv_place hi (held_of_eligible (he hi)) _
  | adopted _ hp he =>
    refine inv_place (hi.child hp) (held_of_eligible fun c hc => ?_) _
    exact absurd (he ▸ hc) (not_mem_empty c)
  | unbound => exact hi.congr rfl rfl rfl fun row hrow => ⟨row, (mem_filter.1 hrow).1, rfl⟩
  | selected _ hb =>
    refine inv_bindings hi fun row hrow => ?_
    rcases mem_update hrow with hrow | ⟨row', -, rfl⟩
    · exact hi.held row hrow
    · exact (hb hi).1
  | installed hk => exact hk.inv hi

/-! ### Installations -/

theorem Does.onward (h : Does book sender call answer book') : Onward book book' := by
  cases h with
  | derived => exact ⟨rfl, .intro length_append.symm, le_rfl⟩
  | founded => exact ⟨rfl, le_rfl, .intro length_append.symm⟩
  | adopted => exact ⟨rfl, .intro length_append.symm, le_rfl⟩
  | spoilt => exact ⟨rfl, .intro length_append.symm, le_rfl⟩
  | installed hk => exact hk.toOnward
  | _ => exact ⟨rfl, le_rfl, le_rfl⟩

theorem Keeps.refl : Keeps book book := ⟨⟨rfl, le_rfl, le_rfl⟩, id, rfl, rfl⟩

theorem Keeps.trans {book'' : IdentityBook} (h : Keeps book book') (h' : Keeps book' book'') :
    Keeps book book'' :=
  ⟨h.toOnward.trans h'.toOnward, fun hi => h'.inv (h.inv hi), h'.memberships.trans h.memberships,
    h'.revision.trans h.revision⟩

theorem keeps_rows {rows : List BindingRow} {records : List InstallRecord}
    {origins : List InstallOrigin}
    (h : ∀ row ∈ rows, ∃ row' ∈ book.bindings, row'.binding = row.binding) :
    Keeps book { book with
      bindings := rows, installations := records, installOrigins := origins } :=
  ⟨⟨rfl, le_rfl, le_rfl⟩, fun hi => hi.congr rfl rfl rfl h, rfl, rfl⟩

theorem keeps_records (records : List InstallRecord) (origins : List InstallOrigin) :
    Keeps book { book with installations := records, installOrigins := origins } :=
  keeps_rows fun row hrow => ⟨row, hrow, rfl⟩

theorem bind_keeps (task : TaskId) (i : Install) :
    Keeps book (book.bind room sender task i).2 := by
  have h := @does_bind book room sender task i
  unfold Called at h
  change Keeps book (book.call room sender (.bind task i)).2
  generalize (book.call room sender (.bind task i)).2 = book', (book.call room sender _).1 = r at h
  have hi := h.inv
  have ho := h.onward
  cases h <;> exact ⟨ho, hi, rfl, rfl⟩

variable (row : InstallRecord)

theorem reinstall_spec (index : Nat) (action : InstallAction) :
    Keeps book (book.reinstall row index action).2 ∧
    ∀ f, (book.reinstall row index action).1 = .error f →
      (book.reinstall row index action).2 = book := by
  unfold reinstall
  split
  · exact ⟨.refl, fun _ _ => rfl⟩
  split
  · refine ⟨keeps_rows fun b hb => ?_, fun f h => ?_⟩
    · split at hb
      · exact ⟨b, hb, rfl⟩
      · exact ⟨b, (mem_filter.1 hb).1, rfl⟩
    · cases h
  · exact ⟨.refl, fun _ _ => rfl⟩

theorem applyInstall_keeps (spec : InstallSpec) :
    Keeps book (book.applyInstall room row spec).2 := by
  unfold applyInstall
  split
  · exact keeps_records _ _
  have hb := @bind_keeps book room row.caller spec.task spec.install
  split
  · next book' he =>
    rw [he] at hb
    refine hb.trans ((keeps_rows fun b hmem => ?_).trans (keeps_records _ _))
    rcases mem_update hmem with hold | ⟨b', hold, rfl⟩
    · exact ⟨b, hold, rfl⟩
    · exact ⟨b', hold, rfl⟩
  · next f book' he =>
    rw [he] at hb
    exact hb.trans (keeps_records _ _)

theorem settleInstall_spec :
    Keeps book (book.settleInstall room row).2 ∧
    ∀ f, (book.settleInstall room row).1 ≠ .error f := by
  unfold settleInstall
  split
  · exact ⟨.refl, fun f h => nomatch h⟩
  · exact ⟨applyInstall_keeps row _, fun f h => nomatch h⟩

theorem does_installation (endpoint : PieToken) (id : Nat) (action : InstallAction) :
    book.Called room sender (.installation endpoint id action) := by
  rw [Called, call]
  unfold installation
  split
  · exact .refused
  next hs =>
  have hs : sender = book.installer := not_not.1 fun hne => hs (.inl hne)
  suffices h : ∀ r : Except Fail InstallStatus × IdentityBook,
      (Keeps book r.2 ∧ ∀ f, r.1 = .error f → r.2 = book) →
      Does book sender (.installation endpoint id action) (answered .status r).1
        (answered .status r).2 by
    refine h _ ?_
    split
    · split
      · exact reinstall_spec _ _ action
      · exact ⟨.refl, fun _ _ => rfl⟩
    dsimp only
    split
    · split <;> exact ⟨.refl, fun _ _ => rfl⟩
    · split
      · exact ⟨.refl, fun _ _ => rfl⟩
      unfold openInstall
      split
      · exact ⟨.refl, fun _ _ => rfl⟩
      split
      · exact ⟨.refl, fun _ _ => rfl⟩
      split
      · exact ⟨.refl, fun _ _ => rfl⟩
      generalize InstallRecord.mk endpoint sender id action.spec _ none = row
      generalize List.findIdx? _ _ = origin
      have hk' : Keeps book (book.recordInstall row origin) := by
        cases origin <;> exact keeps_records _ _
      obtain ⟨hk, hne⟩ := @settleInstall_spec (book.recordInstall row origin) room row
      exact ⟨hk'.trans hk, fun f h => absurd h (hne f)⟩
  rintro ⟨f | a, book'⟩ ⟨hk, he⟩
  · exact .installed hk (fun _ _ => he f rfl) fun hne => absurd hs hne
  · exact .installed hk nofun fun hne => absurd hs hne

/-! ## Every call -/

/-- What a call can come to. -/
theorem does_call (room : Room) (sender : TaskId) (call : Call) : book.Called room sender call := by
  cases call with
  | derive parent => exact does_derive room sender parent
  | found id => exact does_found room sender id
  | admitMember m => exact does_admit room sender m
  | expel m => exact does_expel room sender m
  | bind task i => exact does_bind room sender task i
  | unbind task => exact does_unbind room sender task
  | narrowOwn selection => exact does_narrowOwn room sender selection
  | waive => exact does_waive room sender
  | activate task l => exact does_activate room sender task l
  | installation endpoint id action => exact does_installation endpoint id action

/-- If it fails, it changes nothing. -/
theorem Does.error (h : Does book sender call answer book') (ha : book.authority ≠ 0) {f : Fail}
    (hf : answer = .error f) : book' = book := by
  cases h with
  | refused => rfl
  | spoilt _ _ hz => exact absurd hz ha
  | installed _ he => exact he f hf
  | _ => cases hf

/-- A member was one before and is not expelled, or is admitted now. -/
theorem Does.membership (hd : Does book sender call answer book')
    (h : (m.principal, m.coalition) ∈ book'.memberships) :
    (m.principal, m.coalition) ∈ book.memberships ∧
      (call = .expel m → ∃ f, answer = .error f) ∨
    call = .admitMember m ∧ answer = .ok .unit ∧ book.Manages sender m.coalition := by
  cases hd with
  | @admitted m' _ _ hm hl =>
    rcases mem_append.1 h with h | h
    · exact .inl ⟨h, nofun⟩
    have he := hl _ h
    obtain rfl : m = m' := by
      cases m
      cases m'
      simp_all
    exact .inr ⟨rfl, rfl, (manage_ok hm).2⟩
  | expelled =>
    obtain ⟨h, hne⟩ := mem_filter.1 h
    refine .inl ⟨h, fun he => ?_⟩
    cases he
    simp at hne
  | refused => exact .inl ⟨h, fun _ => ⟨_, rfl⟩⟩
  | installed hk => exact .inl ⟨hk.memberships ▸ h, nofun⟩
  | selected hc =>
    refine .inl ⟨h, ?_⟩
    rintro rfl
    cases hc
  | _ => exact .inl ⟨h, nofun⟩

/-! ### Where a task may end up -/

theorem resolve_setBinding (task t : TaskId) (b : Binding) :
    (book.setBinding task b).resolve t =
      if t = task then (book.resolve task).map fun _ => b else book.resolve t := by
  unfold resolve setBinding
  rw [get_update]
  · split
    · rw [Option.map_map, Option.map_map]
      rfl
    · rfl
  · exact fun _ h => h

/-- Only the installer leads a task out of the subtree of its origin. -/
theorem Does.resolve (hd : Does book sender call answer book') (hi : book.Inv)
    (hs : sender ≠ book.installer) {b' : Binding} (h : book'.resolve task = some b') :
    ∃ b, book.resolve task = some b ∧
      book'.Descends b.origin.principal b'.current.principal := by
  have hbelow := ((hd.inv hi).resolve h).below
  cases hd with
  | expelled =>
    unfold resolve Keyed.get at h
    rw [List.find?_map, Option.map_map] at h
    obtain ⟨row, hrow, rfl⟩ := Option.map_eq_some_iff.1 h
    dsimp only [Function.comp] at hbelow
    rw [withdraw_origin, without_principal] at hbelow
    exact ⟨row.binding, Option.map_eq_some_iff.2 ⟨row, hrow, rfl⟩, hbelow⟩
  | @selected _ t b _ hb =>
    rw [resolve_setBinding] at h
    split at h
    · next he =>
      subst he
      obtain ⟨old, hold, rfl⟩ := Option.map_eq_some_iff.1 h
      exact ⟨old, hold, (hb hi).2 old hold⟩
    · exact ⟨b', h, hbelow⟩
  | installed _ _ he =>
    obtain rfl := he hs
    exact ⟨b', h, hbelow⟩
  | bound he | adopted he | spoilt he | unbound he => exact absurd he hs
  | _ => exact ⟨b', h, hbelow⟩

end IdentityBook

/-! ## Histories -/

/-- A call with the book it found and its answer. -/
structure Entry where
  book : IdentityBook
  sender : TaskId
  call : Call
  answer : Except Fail Answer

def IdentityBook.entry (book : IdentityBook) (room : Room) (sender : TaskId) (call : Call) :
    Entry :=
  ⟨book, sender, call, (book.call room sender call).1⟩

/-- A book with the history of its calls. -/
inductive Runs (authority installer : TaskId) : List Entry → IdentityBook → Prop
  | new : Runs authority installer [] (.new authority installer)
  | call {history : List Entry} {book : IdentityBook} (room : Room)
      (sender : TaskId) (call : Call) :
      Runs authority installer history book →
      Runs authority installer (history ++ [book.entry room sender call])
        (book.call room sender call).2

/-- The member was admitted by the manager, or by the installer, and not expelled since. -/
def Admitted (history : List Entry) (m : Membership) : Prop :=
  ∃ before entry after, history = before ++ entry :: after ∧ entry.call = .admitMember m ∧
    entry.answer = .ok .unit ∧ entry.book.Manages entry.sender m.coalition ∧
    ∀ e ∈ after, e.call = .expel m → ∃ f, e.answer = .error f

variable {authority installer : TaskId} {history : List Entry} {book : IdentityBook}

theorem inv_new (authority installer : TaskId) : (IdentityBook.new authority installer).Inv := by
  refine ⟨fun slot p hp => ?_, fun row hrow => nomatch hrow⟩
  cases slot with
  | zero => cases hp
  | succ slot => cases hp

theorem runs_authority (h : Runs authority installer history book) :
    book.authority = authority := by
  induction h with
  | new => rfl
  | call room sender call _ ih =>
    exact (IdentityBook.does_call room sender call).onward.authority.trans ih

/-- Every book is sound, and its members were admitted. -/
theorem runs_inv (h : Runs authority installer history book) :
    book.Inv ∧ ∀ m : Membership, (m.principal, m.coalition) ∈ book.memberships →
      Admitted history m := by
  induction h with
  | new => exact ⟨inv_new authority installer, fun m hm => nomatch hm⟩
  | @call history book room sender call _ ih =>
    obtain ⟨hi, hm⟩ := ih
    have hd := @IdentityBook.does_call book room sender call
    refine ⟨hd.inv hi, fun m hmem => ?_⟩
    rcases hd.membership hmem with ⟨hold, hne⟩ | ⟨hc, ha, hman⟩
    · obtain ⟨before, entry, after, rfl, hc, ha, hman, hafter⟩ := hm m hold
      refine ⟨before, entry, after ++ [_], append_assoc .., hc, ha, hman, fun e he => ?_⟩
      rcases mem_append.1 he with he | he
      · exact hafter e he
      · exact mem_singleton.1 he ▸ hne
    · exact ⟨history, _, [], rfl, hc, ha, hman, fun e he => nomatch he⟩

/-- After any calls what a task acts as lies inside what it started with; only the installer can
lead a task out of the subtree of its origin, a coalition was admitted to, and a call that fails
changes nothing. -/
theorem identity_attenuates (hz : authority ≠ 0) (h : Runs authority installer history book) :
    (∀ slot p, book.parentAt slot = some p → p.authority = book.authority ∧ p.slot < slot) ∧
    (∀ a d fuel, book.principals.length < fuel → (book.heirLoop a fuel (some d)).isSome) ∧
    (∀ row ∈ book.bindings, book.Held row.binding) ∧
    (∀ room sender call task b', sender ≠ book.installer →
      (book.call room sender call).2.resolve task = some b' →
      ∃ b, book.resolve task = some b ∧
        (book.call room sender call).2.Descends b.origin.principal b'.current.principal ∧
        ∀ c ∈ b'.current.coalitions,
          Admitted (history ++ [book.entry room sender call]) ⟨c, b'.current.principal⟩) ∧
    ∀ room sender call f, (book.call room sender call).1 = .error f →
      (book.call room sender call).2 = book := by
  obtain ⟨hi, -⟩ := runs_inv h
  refine ⟨hi.rooted, fun a d fuel hf => ?_, hi.held, fun room sender call task b' hs hb' => ?_,
    fun room sender call f hf =>
      (IdentityBook.does_call room sender call).error (runs_authority h ▸ hz) hf⟩
  · refine IdentityBook.heirLoop_ends hi.rooted a (by omega) fun p hp hlt => ?_
    omega
  · obtain ⟨b, hb, hbelow⟩ := (IdentityBook.does_call room sender call).resolve hi hs hb'
    obtain ⟨hi', hm'⟩ := runs_inv (h.call room sender call)
    exact ⟨b, hb, hbelow, fun c hc => hm' ⟨c, b'.current.principal⟩
      ((hi'.resolve hb').current c hc)⟩

/-! ## A history -/

/-- The history and the book after these calls, none of which runs out of memory. -/
def replayFrom (history : List Entry) (book : IdentityBook) :
    List (TaskId × Call) → List Entry × IdentityBook
  | [] => (history, book)
  | (sender, call) :: calls =>
    let room : Room := ⟨true, true, true, true, true, true⟩
    replayFrom (history ++ [book.entry room sender call]) (book.call room sender call).2 calls

def replay (authority installer : TaskId) (calls : List (TaskId × Call)) :
    List Entry × IdentityBook :=
  replayFrom [] (.new authority installer) calls

theorem runs_replayFrom (h : Runs authority installer history book) (calls : List (TaskId × Call)) :
    Runs authority installer (replayFrom history book calls).1
      (replayFrom history book calls).2 := by
  induction calls generalizing history book with
  | nil => exact h
  | cons c calls ih => exact ih (h.call _ c.1 c.2)

private def only (c : CoalitionId) (h : c.authority ≠ 0) : CoalitionSet :=
  ⟨[c], .cons nofun .nil, by simp [MAX_ACTIVE_COALITIONS], by simp [h], by simp⟩

/-- Task 10 acts as the root and founds a coalition; the installer, task 1, admits the principal of
task 11 to it; task 10 then activates it for task 11. -/
private def calls : List (TaskId × Call) :=
  [(1, .bind 10 (.authorized ⟨⟨2, 0⟩, .empty⟩)), (1, .bind 11 (.derive ⟨2, 0⟩)), (10, .found 1),
    (1, .admitMember ⟨⟨2, 0⟩, ⟨2, 1⟩⟩), (10, .activate 11 (only ⟨2, 0⟩ nofun))]

/-- Both tasks act inside what they started with. -/
theorem identity_attenuates_activated :
    (replay 2 1 calls).2.bindings.length = 2 ∧
    ∀ row ∈ (replay 2 1 calls).2.bindings, (replay 2 1 calls).2.Held row.binding :=
  ⟨by decide +kernel, (identity_attenuates (by decide) (runs_replayFrom .new calls)).2.2.1⟩

/-- The manager did not admit the principal, the installer did, and yet a call of task 10 gives
task 11 the coalition. -/
theorem installer_admits :
    (replay 2 1 calls).2.managerAt 0 = some ⟨2, 0⟩ ∧
    (∀ e ∈ (replay 2 1 calls).1, e.call = .admitMember ⟨⟨2, 0⟩, ⟨2, 1⟩⟩ →
      e.sender = 1 ∧ e.book.resolve 1 = none) ∧
    ((replay 2 1 (calls.take 4)).2.resolve 11).map (·.current) = some ⟨⟨2, 1⟩, .empty⟩ ∧
    ((replay 2 1 calls).2.resolve 11).map (·.current) = some ⟨⟨2, 1⟩, only ⟨2, 0⟩ nofun⟩ := by
  decide +kernel

end Sqware.Identity
