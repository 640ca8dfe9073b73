import Sqware.Identity.Attenuate

/-!
# Pages of the membership relation

A page scans the slots of one axis from the last slot delivered on, and its cursor carries the
revision of the book.  The members still to come and those delivered are always the two parts of
one list, and that list stays as long as the relation does.
-/

namespace Sqware.Identity

open Relation List

def PAGE_ITEMS : Nat := 16

inductive PageTarget
  | members (c : CoalitionId)
  | memberships (p : PrincipalId)
  deriving DecidableEq

def PageTarget.authority : PageTarget → TaskId
  | .members c => c.authority
  | .memberships p => p.authority

structure Cursor where
  target : PageTarget
  revision : Nat
  after : Nat
  deriving DecidableEq

/-- What a page sees of a principal or a coalition. -/
structure PageId where
  authority : TaskId
  slot : Nat
  deriving DecidableEq

def PageId.lt (a b : PageId) : Prop :=
  a.authority < b.authority ∨ a.authority = b.authority ∧ a.slot < b.slot

instance : DecidableRel PageId.lt := fun a b =>
  inferInstanceAs (Decidable (a.authority < b.authority ∨ a.authority = b.authority ∧ _))

inductive Axis
  | principals | coalitions
  deriving DecidableEq

namespace Axis

def accepts : Axis → PageTarget → Bool
  | .principals, .members _ => true
  | .coalitions, .memberships _ => true
  | _, _ => false

def count (book : IdentityBook) : Axis → Nat
  | .principals => book.principals.length
  | .coalitions => book.coalitions.length

def joined (book : IdentityBook) : Axis → PageId → PageTarget → Bool
  | .principals, id, .members c => book.memberships.contains (⟨id.authority, id.slot⟩, c)
  | .coalitions, id, .memberships p => book.memberships.contains (p, ⟨id.authority, id.slot⟩)
  | _, _, _ => false

end Axis

structure Page where
  items : List PageId
  next : Option Cursor
  deriving DecidableEq

def Page.check (axis : Axis) (values : List PageId) (next : Option Cursor) : Except Fail Unit :=
  if PAGE_ITEMS < values.length then .error .full
  else if ¬ values.IsChain PageId.lt then .error .bad
  else if ∃ id ∈ values, id.authority = 0 then .error .bad
  else if ∃ id ∈ values, ∃ first ∈ values.head?, id.authority ≠ first.authority then
    .error .wrongAuthority
  else
    match next with
    | none => .ok ()
    | some cursor =>
      if axis.accepts cursor.target = false ∨ cursor.target.authority = 0 then .error .bad
      else
        match values.getLast? with
        | none => .error .bad
        | some last =>
          if last.authority ≠ cursor.target.authority then .error .wrongAuthority
          else if last.slot ≠ cursor.after then .error .bad
          else .ok ()

def Page.new (axis : Axis) (values : List PageId) (next : Option Cursor) : Except Fail Page :=
  (Page.check axis values next).map fun _ => ⟨values, next⟩

namespace IdentityBook

variable (book : IdentityBook) (axis : Axis) (target : PageTarget)

/-- The scan of `page` over the slots, with the ids found and whether there are more. -/
def scan (after : Option Nat) : List Nat → List PageId → List PageId × Bool
  | [], ids => (ids, false)
  | slot :: rest, ids =>
    if after.all (· < slot) && axis.joined book ⟨book.authority, slot⟩ target then
      if ids.length = PAGE_ITEMS then (ids, true)
      else scan after rest (ids ++ [⟨book.authority, slot⟩])
    else scan after rest ids

def known : Except Fail Nat :=
  match target with
  | .members c => book.coalition c
  | .memberships p => book.principal p

def pageAfter (after : Option Nat) : Except Fail Page :=
  let (ids, more) := book.scan axis target after (range (axis.count book)) []
  Page.new axis ids (if more then ids.getLast?.map fun id => ⟨target, book.revision, id.slot⟩
    else none)

def page (cursor : Option Cursor) : Except Fail Page :=
  if axis.accepts target = false then .error .bad
  else
    match book.known target with
    | .error f => .error f
    | .ok _ =>
      match cursor with
      | none => book.pageAfter axis target none
      | some c =>
        if c.target ≠ target then .error .bad
        else if c.revision ≠ book.revision then .error .changed
        else book.pageAfter axis target (some c.after)

end IdentityBook

/-- Pages asked for one after the other, each of the book as it is then, until no cursor comes. -/
def collect (axis : Axis) (target : PageTarget) (books : Nat → IdentityBook) :
    Nat → Option Cursor → Option (Except Fail (List PageId))
  | 0, _ => none
  | fuel + 1, cursor =>
    match (books 0).page axis target cursor with
    | .error f => some (.error f)
    | .ok page =>
      match page.next with
      | none => some (.ok page.items)
      | some c =>
        (collect axis target (fun i => books (i + 1)) fuel (some c)).map
          (Except.map (page.items ++ ·))

/-! ## One page -/

/-- The slots that join the target, in order. -/
def Axis.slots (axis : Axis) (book : IdentityBook) (target : PageTarget) : List Nat :=
  (range (axis.count book)).filter fun slot => axis.joined book ⟨book.authority, slot⟩ target

/-- The cursor behind the slots that were delivered. -/
def cursorAt (target : PageTarget) (revision : Nat) (done : List Nat) : Option Cursor :=
  done.getLast?.map fun after => ⟨target, revision, after⟩

namespace IdentityBook

section

variable {book : IdentityBook} {axis : Axis} {target : PageTarget}

theorem scan_eq (after : Option Nat) (l : List Nat) {ids : List PageId}
    (hi : ids.length ≤ PAGE_ITEMS) {found : List PageId}
    (hf : found = ids ++ (l.filter fun slot => after.all (· < slot) &&
      axis.joined book ⟨book.authority, slot⟩ target).map (PageId.mk book.authority)) :
    book.scan axis target after l ids =
      (found.take PAGE_ITEMS, decide (PAGE_ITEMS < found.length)) := by
  subst hf
  induction l generalizing ids with
  | nil => simp [scan, take_of_length_le hi, Nat.not_lt.2 hi]
  | cons slot l ih =>
    unfold scan
    split
    · next hk =>
      simp only [filter_cons, hk, if_true, map_cons]
      split
      · next hfull => simp [← hfull]
      · next hne =>
        rw [ih (by rw [length_append]; exact Nat.lt_of_le_of_ne hi hne), append_assoc,
          singleton_append]
    · next hk =>
      simp only [filter_cons, hk]
      exact ih hi

theorem filter_after {done todo : List Nat} (h : (done ++ todo).Pairwise (· < ·)) :
    ((done ++ todo).filter fun slot => done.getLast?.all (· < slot)) = todo := by
  obtain rfl | ⟨done, a, rfl⟩ := eq_nil_or_concat' done
  · simp
  simp only [pairwise_append, mem_append, mem_singleton] at h
  have hle : ∀ x ∈ done ++ [a], ¬ a < x := by
    intro x hx
    rcases mem_append.1 hx with hx | hx
    · exact Nat.lt_asymm (h.1.2.2 x hx a rfl)
    · rw [mem_singleton.1 hx]
      exact Nat.lt_irrefl a
  rw [filter_append, filter_eq_nil_iff.2, nil_append, filter_eq_self.2]
  · exact fun x hx => by simpa using h.2.2 a (.inr rfl) x hx
  · exact fun x hx => by simpa using hle x hx

theorem slots_sorted : (axis.slots book target).Pairwise (· < ·) :=
  pairwise_lt_range.sublist filter_sublist

theorem new_ok {authority : TaskId} (hz : authority ≠ 0) {slots : List Nat}
    (hl : slots.length ≤ PAGE_ITEMS) (hs : slots.Pairwise (· < ·)) {next : Option Cursor}
    (hn : ∀ c, next = some c → axis.accepts c.target = true ∧ c.target.authority = authority ∧
      slots.getLast? = some c.after) : Page.new axis (slots.map (PageId.mk authority)) next =
      .ok ⟨slots.map (PageId.mk authority), next⟩ := by
  have hchain : (slots.map (PageId.mk authority)).IsChain PageId.lt :=
    (pairwise_map.2 (hs.imp fun h => .inr ⟨rfl, h⟩)).isChain
  unfold Page.new Page.check
  rw [if_neg (by rw [length_map]; exact Nat.not_lt.2 hl), if_neg (not_not.2 hchain),
    if_neg (by simp [hz]), if_neg (by simp)]
  cases next with
  | none => rfl
  | some c =>
    obtain ⟨ha, ht, hlast⟩ := hn c rfl
    simp [ha, ht, hz, hlast, Except.map]

variable (hz : book.authority ≠ 0) (ha : axis.accepts target = true) {slot : Nat}
  (hk : book.known target = .ok slot) {done todo : List Nat}
  (hslots : axis.slots book target = done ++ todo)
include hz ha hk hslots

/-- A page delivers the next of what is still to come. -/
theorem page_spec : book.page axis target (cursorAt target book.revision done) =
      .ok ⟨(todo.take PAGE_ITEMS).map (PageId.mk book.authority),
        if PAGE_ITEMS < todo.length then cursorAt target book.revision (todo.take PAGE_ITEMS)
        else none⟩ := by
  have hsorted : (done ++ todo).Pairwise (· < ·) := hslots ▸ slots_sorted
  have hpage : book.page axis target (cursorAt target book.revision done) =
      book.pageAfter axis target done.getLast? := by
    unfold page cursorAt
    cases done.getLast? with
    | none => simp [ha, hk]
    | some a => simp [ha, hk]
  have hfilter : ((range (axis.count book)).filter fun slot => done.getLast?.all (· < slot) &&
      axis.joined book ⟨book.authority, slot⟩ target) = todo := by
    rw [← filter_filter, ← Axis.slots, hslots, filter_after hsorted]
  rw [hpage, pageAfter, scan_eq _ _ (Nat.zero_le _) rfl, hfilter]
  simp only [nil_append, length_map, decide_eq_true_eq, ← map_take, getLast?_map, Option.map_map]
  refine new_ok hz (length_take_le _ _) (hsorted.sublist ?_) fun c hc => ?_
  · exact (take_sublist _ _).trans (sublist_append_right _ _)
  split at hc
  · obtain ⟨a, hlast, rfl⟩ := Option.map_eq_some_iff.1 hc
    refine ⟨ha, ?_, hlast⟩
    cases target with
    | members c => exact (coalition_ok hk).1
    | memberships p => exact (principal_ok hk).1
  · cases hc

end

/-! ## From call to call -/

variable {book book' : IdentityBook} {axis : Axis} {target : PageTarget}

/-- One call. -/
def Step (book book' : IdentityBook) : Prop :=
  ∃ room sender call, book' = (book.call room sender call).2

def SameMembers (book book' : IdentityBook) : Prop :=
  ∀ x, x ∈ book'.memberships ↔ x ∈ book.memberships

/-- The revision counts the changes of the relation. -/
def Counts (book book' : IdentityBook) : Prop :=
  book.SameMembers book' ∧ book'.revision = book.revision ∨
    ¬ book.SameMembers book' ∧ book'.revision = book.revision + 1

theorem counts_refl : book.Counts book := .inl ⟨fun _ => .rfl, rfl⟩

theorem admitMember_counts (room : Room) (sender : TaskId) (m : Membership) :
    book.Counts (book.admitMember room sender m).2 := by
  unfold admitMember
  split
  · exact counts_refl
  split
  · exact counts_refl
  next hno =>
  split
  · exact counts_refl
  split
  · exact counts_refl
  next revision hr =>
  split
  · exact counts_refl
  · exact .inr ⟨fun h => hno ((h _).1 (mem_append_right _ mem_cons_self)),
      (checkedAdd_eq_some.1 hr).1⟩

theorem expel_counts (sender : TaskId) (m : Membership) : book.Counts (book.expel sender m).2 := by
  unfold expel
  split
  · exact counts_refl
  by_cases hm : (m.principal, m.coalition) ∈ book.memberships
  · rw [if_pos hm]
    split
    · exact counts_refl
    next revision hr =>
    refine .inr ⟨fun h => ?_, (checkedAdd_eq_some.1 hr).1⟩
    have hgone := (mem_filter.1 ((h _).2 hm)).2
    simp at hgone
  rw [if_neg hm]
  refine .inl ⟨fun x => ?_, rfl⟩
  rw [mem_filter, decide_eq_true_eq]
  exact ⟨fun h => h.1, fun h => ⟨h, fun he => hm (he ▸ h)⟩⟩

theorem step_counts (h : book.Step book') : book.Counts book' := by
  obtain ⟨room, sender, call, rfl⟩ := h
  by_cases hc : ∃ m, call = .admitMember m ∨ call = .expel m
  · obtain ⟨m, rfl | rfl⟩ := hc
    · exact admitMember_counts room sender m
    · exact expel_counts sender m
  have hd := @does_call book room sender call
  unfold Called at hd
  generalize (book.call room sender call).2 = book', (book.call room sender call).1 = r at hd
  cases hd with
  | admitted => exact absurd ⟨_, .inl rfl⟩ hc
  | expelled => exact absurd ⟨_, .inr rfl⟩ hc
  | installed hk => exact .inl ⟨fun x => by rw [hk.memberships], hk.revision⟩
  | _ => exact counts_refl

theorem step_onward (h : book.Step book') : Onward book book' := by
  obtain ⟨room, sender, call, rfl⟩ := h
  exact (does_call room sender call).onward

/-- Members are known principals and coalitions. -/
def Housed (book : IdentityBook) : Prop := ∀ x ∈ book.memberships, book.Houses x

theorem housed_call (room : Room) (sender : TaskId) (call : Call) (h : book.Housed) :
    (book.call room sender call).2.Housed := by
  have hd := @does_call book room sender call
  unfold Called at hd
  generalize (book.call room sender call).2 = book', (book.call room sender call).1 = r at hd
  intro x hx
  have ho := hd.onward
  suffices hh : book.Houses x from
    ⟨⟨hh.1.1.trans ho.authority.symm, hh.1.2.trans_le ho.principals⟩,
      hh.2.1.trans ho.authority.symm, hh.2.2.trans_le ho.coalitions⟩
  cases hd with
  | admitted members hm hl =>
    rcases mem_append.1 hx with hx | hx
    · exact h x hx
    · exact hl x hx ▸ (manage_ok hm).1
  | expelled => exact h x (mem_filter.1 hx).1
  | installed hk => exact h x (hk.memberships ▸ hx)
  | _ => exact h x hx

theorem runs_housed {authority installer : TaskId} {history : List Entry}
    (hr : Runs authority installer history book) : book.Housed := by
  induction hr with
  | new => nofun
  | call room sender call _ ih => exact housed_call room sender call ih

/-- A call that leaves the relation as it is. -/
def Calm (book book' : IdentityBook) : Prop := book.Step book' ∧ book.SameMembers book'

theorem known_onward {slot : Nat} (ho : Onward book book') (h : book.known target = .ok slot) :
    book'.known target = .ok slot := by
  unfold known at h ⊢
  cases target with
  | members c =>
    obtain ⟨ha, hlt, rfl⟩ := coalition_ok h
    simp [coalition, ha, ho.authority, Nat.not_le.2 (hlt.trans_le ho.coalitions)]
  | memberships p =>
    obtain ⟨ha, hlt, rfl⟩ := principal_ok h
    simp [principal, ha, ho.authority, Nat.not_le.2 (hlt.trans_le ho.principals)]

theorem joined_known (hh : book.Housed) {id : PageId} (h : axis.joined book id target = true) :
    id.authority = book.authority ∧ id.slot < axis.count book := by
  cases axis <;> cases target <;> simp only [Axis.joined, contains_iff_mem] at h
  · exact (hh _ h).1
  · cases h
  · cases h
  · exact (hh _ h).2

/-- Books with the same members deliver the same, whatever was added to them. -/
theorem slots_same (hh : book.Housed) (ho : Onward book book') (hm : book.SameMembers book') :
    axis.slots book' target = axis.slots book target := by
  have hjoined : ∀ id, axis.joined book' id target = axis.joined book id target := by
    intro id
    cases axis <;> cases target <;> simp [Axis.joined, hm _]
  have hcount : axis.count book ≤ axis.count book' := by
    cases axis with
    | principals => exact ho.principals
    | coalitions => exact ho.coalitions
  obtain ⟨k, hk⟩ := Nat.exists_eq_add_of_le hcount
  have hnone : ((range k).map (axis.count book + ·)).filter (fun slot =>
      axis.joined book ⟨book.authority, slot⟩ target) = [] := by
    refine filter_eq_nil_iff.2 fun slot hs hj => ?_
    obtain ⟨i, -, rfl⟩ := mem_map.1 hs
    exact absurd (joined_known hh hj).2 (Nat.not_lt.2 (Nat.le_add_right _ i))
  simp only [Axis.slots, hk, ho.authority, hjoined, range_add, filter_append, hnone, append_nil]

theorem calm_steady (h : ReflTransGen Calm book book') :
    Onward book book' ∧ book.SameMembers book' ∧ book'.revision = book.revision := by
  induction h with
  | refl => exact ⟨⟨rfl, le_rfl, le_rfl⟩, fun _ => .rfl, rfl⟩
  | tail _ hs ih =>
    obtain ⟨ho, hm, hr⟩ := ih
    refine ⟨ho.trans (step_onward hs.1), fun x => (hs.2 x).trans (hm x), ?_⟩
    rcases step_counts hs.1 with ⟨-, hr'⟩ | ⟨hne, -⟩
    · exact hr'.trans hr
    · exact absurd hs.2 hne

theorem steps_revision (h : ReflTransGen Step book book') :
    Onward book book' ∧ book.revision ≤ book'.revision := by
  induction h with
  | refl => exact ⟨⟨rfl, le_rfl, le_rfl⟩, le_rfl⟩
  | tail _ hs ih =>
    refine ⟨ih.1.trans (step_onward hs), ih.2.trans ?_⟩
    rcases step_counts hs with ⟨-, hr⟩ | ⟨-, hr⟩ <;> omega

/-! ## All pages -/

theorem collect_spec {authority : TaskId} (hz : authority ≠ 0) (ha : axis.accepts target = true)
    {revision fuel : Nat} {done todo : List Nat} (hf : todo.length ≤ PAGE_ITEMS * fuel)
    {books : Nat → IdentityBook} (hb : ∀ i, (books i).authority = authority ∧
      (books i).revision = revision ∧ (∃ slot, (books i).known target = .ok slot) ∧
      axis.slots (books i) target = done ++ todo) :
    collect axis target books (fuel + 1) (cursorAt target revision done) =
      some (.ok (todo.map (PageId.mk authority))) := by
  induction fuel generalizing done todo books with
  | zero =>
    rw [Nat.mul_zero, Nat.le_zero, length_eq_zero_iff] at hf
    subst hf
    obtain ⟨rfl, rfl, ⟨slot, hk⟩, hs⟩ := hb 0
    rw [collect, page_spec hz ha hk hs]
    rfl
  | succ fuel ih =>
    obtain ⟨rfl, rfl, ⟨slot, hk⟩, hs⟩ := hb 0
    rw [collect, page_spec hz ha hk hs]
    by_cases hlt : PAGE_ITEMS < todo.length
    · have hne : todo.take PAGE_ITEMS ≠ [] := by
        rw [Ne, take_eq_nil_iff]
        rintro (h | h)
        · cases h
        · rw [h] at hlt
          cases hlt
      obtain ⟨c, hc⟩ : ∃ c, cursorAt target (books 0).revision (todo.take PAGE_ITEMS) = some c :=
        ⟨_, congrArg _ (getLast?_eq_some_getLast hne)⟩
      have hrest := @ih (done ++ todo.take PAGE_ITEMS) (todo.drop PAGE_ITEMS)
        (by rw [length_drop]; rw [Nat.mul_succ] at hf; omega) (fun i => books (i + 1))
        fun i => by rw [append_assoc, take_append_drop]; exact hb (i + 1)
      rw [cursorAt, getLast?_append_of_ne_nil _ hne, ← cursorAt, hc] at hrest
      simp only [if_pos hlt, hc, hrest, Option.map_some, Except.map, ← map_append, take_append_drop]
    · simp only [if_neg hlt, take_of_length_le (Nat.le_of_not_lt hlt)]

theorem new_next {values : List PageId} {next : Option Cursor} {page : Page}
    (h : Page.new axis values next = .ok page) : page.next = next := by
  unfold Page.new at h
  cases hc : Page.check axis values next with
  | error f =>
    rw [hc] at h
    cases h
  | ok u =>
    rw [hc] at h
    cases h
    rfl

/-- A cursor names the target and the revision of the page it comes with. -/
theorem page_next {cursor : Option Cursor} {page : Page} {c : Cursor}
    (h : book.page axis target cursor = .ok page) (hn : page.next = some c) :
    axis.accepts c.target = true ∧ (∃ slot, book.known c.target = .ok slot) ∧
      c.revision = book.revision := by
  have hafter : ∀ after, book.pageAfter axis target after = .ok page →
      c.target = target ∧ c.revision = book.revision := by
    intro after h
    rw [new_next h] at hn
    split at hn
    · obtain ⟨id, -, rfl⟩ := Option.map_eq_some_iff.1 hn
      exact ⟨rfl, rfl⟩
    · cases hn
  unfold IdentityBook.page at h
  split at h
  · cases h
  next ha =>
  split at h
  · cases h
  next slot hk =>
  suffices hc : c.target = target ∧ c.revision = book.revision by
    rw [hc.1]
    exact ⟨Bool.of_not_eq_false ha, ⟨slot, hk⟩, hc.2⟩
  split at h
  · exact hafter none h
  split at h
  · cases h
  split at h
  · cases h
  · exact hafter _ h

end IdentityBook

open IdentityBook

/-- In a book of an authority that is not task 0, pages asked for one after the other deliver every
member once, in the order of their slots, as long as no call in between changes the relation; and
once one did, the cursors from before are refused. -/
theorem paging_complete {authority installer : TaskId} (hz : authority ≠ 0) {history : List Entry}
    {book : IdentityBook} (hr : Runs authority installer history book) (axis : Axis)
    (target : PageTarget) : (axis.accepts target = true → ∀ slot, book.known target = .ok slot →
      ∀ books : Nat → IdentityBook, books 0 = book →
      (∀ i, ReflTransGen Calm (books i) (books (i + 1))) →
      ∃ fuel ids, collect axis target books fuel none = some (.ok ids) ∧
        ids.Pairwise (·.slot < ·.slot) ∧ ∀ id, id ∈ ids ↔ axis.joined book id target = true) ∧
    ∀ cursor page c, book.page axis target cursor = .ok page → page.next = some c →
      ∀ b b' last, ReflTransGen Step book b → Step b b' → ¬ b.SameMembers b' →
      ReflTransGen Step b' last → last.page axis c.target (some c) = .error .changed := by
  have hh := runs_housed hr
  obtain rfl := runs_authority hr
  constructor
  · intro ha slot hk books h0 hbooks
    have hcalm : ∀ i, ReflTransGen Calm book (books i) := by
      intro i
      induction i with
      | zero => exact h0 ▸ .refl
      | succ i ih => exact ih.trans (hbooks i)
    have hall : collect axis target books _ (cursorAt target book.revision []) = _ :=
      collect_spec hz ha (Nat.le_mul_of_pos_left _ (by decide)) fun i =>
        have ⟨ho, hm, hrev⟩ := calm_steady (hcalm i)
        ⟨ho.authority, hrev, ⟨slot, known_onward ho hk⟩, slots_same hh ho hm⟩
    refine ⟨_, _, hall, pairwise_map.2 slots_sorted, fun id => ?_⟩
    rw [mem_map]
    constructor
    · rintro ⟨slot, hs, rfl⟩
      exact (mem_filter.1 hs).2
    intro hj
    obtain ⟨hid, hlt⟩ := joined_known hh hj
    obtain ⟨_, slot⟩ := id
    subst hid
    exact ⟨slot, mem_filter.2 ⟨mem_range.2 hlt, hj⟩, rfl⟩
  · intro cursor page c hp hn b b' last hs hstep hne hs'
    obtain ⟨ha, ⟨slot, hk⟩, hrev⟩ := page_next hp hn
    obtain ⟨ho, hle⟩ := steps_revision hs
    obtain ⟨ho', hle'⟩ := steps_revision hs'
    have hlt : b.revision < b'.revision := by
      rcases step_counts hstep with ⟨h, -⟩ | ⟨-, h⟩
      · exact absurd h hne
      · omega
    have hk' := known_onward ((ho.trans (step_onward hstep)).trans ho') hk
    have hrne : c.revision ≠ last.revision := by omega
    simp [IdentityBook.page, ha, hk', hrne]

/-- Task 10, which acts as the root, founds a coalition and makes twenty principals, and the
installer, task 1, admits them. -/
private def enlists : List (TaskId × Call) :=
  (1, .bind 10 (.authorized ⟨⟨2, 0⟩, .empty⟩)) :: (10, .found 1) ::
    (range 20).flatMap fun i =>
      [(10, .derive ⟨2, 0⟩), (1, .admitMember ⟨⟨2, 0⟩, ⟨2, i + 1⟩⟩)]

/-- The first page does not hold all of the members; all the pages do, and once one member is
expelled the cursor of the first is refused. -/
theorem paging_complete_enlisted : ∃ page c,
    (replay 2 1 enlists).2.page .principals (.members ⟨2, 0⟩) none = .ok page ∧
    page.next = some c ∧ page.items.length = 16 ∧
    (∃ fuel ids, collect .principals (.members ⟨2, 0⟩) (fun _ => (replay 2 1 enlists).2) fuel none =
      some (.ok ids) ∧ ids.Pairwise (·.slot < ·.slot) ∧ ∀ id, id ∈ ids ↔
        Axis.principals.joined (replay 2 1 enlists).2 id (.members ⟨2, 0⟩) = true) ∧
    ((replay 2 1 enlists).2.expel 1 ⟨⟨2, 0⟩, ⟨2, 5⟩⟩).2.page .principals c.target (some c) =
      .error .changed := by
  have hp : (replay 2 1 enlists).2.page .principals (.members ⟨2, 0⟩) none =
      .ok ⟨(range 16).map fun i => ⟨2, i + 1⟩, some ⟨.members ⟨2, 0⟩, 20, 16⟩⟩ := by
    decide +kernel
  have hruns : Runs 2 1 (replay 2 1 enlists).1 (replay 2 1 enlists).2 :=
    runs_replayFrom .new enlists
  obtain ⟨hall, hchanged⟩ := paging_complete (by decide) hruns .principals (.members ⟨2, 0⟩)
  refine ⟨_, _, hp, rfl, rfl, hall rfl 0 (by decide +kernel) (fun _ => (replay 2 1 enlists).2) rfl
    fun _ => .refl, ?_⟩
  have hexpel (b : IdentityBook) (m : Membership) : Step b (b.expel 1 m).2 :=
    ⟨⟨true, true, true, true, true, true⟩, 1, .expel m, rfl⟩
  refine hchanged _ _ _ hp rfl _ _ _ .refl (hexpel _ _) (fun hsame => ?_) .refl
  exact absurd ((hsame (⟨2, 5⟩, ⟨2, 0⟩)).2 (by decide +kernel)) (by decide +kernel)

end Sqware.Identity
