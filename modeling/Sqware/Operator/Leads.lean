import Sqware.Operator.Edit

/-!
# Paths in the tree

The way up from a node goes to smaller numbers and ends at the root; the names met on it, read
downwards, are the node's path.  Two paths are compared as texts.  Since no name is empty or holds a
slash, and no two nodes of a pane share a name, one text continues another exactly when one node
lies below the other, at the names in between.
-/

namespace Sqware.Operator

open Relation Segments List Option

namespace Tree

variable {t t' : Tree} {live : GrantKey → Bool}

/-! ## The way up -/

def Child (t : Tree) (w w' : Where) : Prop := ∃ id ∈ t.children w, w' = .node id

def rank : Where → Nat
  | .root => 0
  | .node id => id + 1

theorem rank_child (h : t.Inv) (w w' : Where) (hc : t.Child w w') : rank w < rank w' := by
  obtain ⟨id, hid, rfl⟩ := hc
  cases w with
  | root => exact Nat.succ_pos id
  | node up => exact Nat.succ_lt_succ (h.order hid)

variable {id : EntryId}

theorem reachable (h : t.Inv) {s : Slot} (hs : t.slot id = some s) :
    ReflTransGen t.Child .root (.node id) := by
  refine (Forest.mem_iff_reach rank (rank_child h)
    (s := {w | ∀ id, w = .node id → (t.slot id).isSome}) ?_ ?_ ?_ (.node id)).1 ?_
  · rintro id hid
    cases hid
  · rintro w - w' ⟨id, hid, rfl⟩ id' he
    obtain rfl := Where.node.inj he
    exact (h.live id).1 ⟨w, hid⟩
  · intro w hw hne
    cases w with
    | root => exact absurd rfl hne
    | node id =>
      obtain ⟨w, hmem⟩ := (h.live id).2 (hw id rfl)
      refine ⟨w, fun id' he => ?_, id, hmem, rfl⟩
      subst he
      -- a place that lists something is a node
      cases hs : t.slot id' with
      | none =>
        rw [children_of_none hs] at hmem
        cases hmem
      | some s => rfl
  · intro id' he
    obtain rfl := Where.node.inj he
    rw [hs]
    rfl

variable {w : Where}

theorem locate_spec {name : Text} (h : t.locate id = some (w, name)) :
    id ∈ t.children w ∧ ∃ s, t.slot id = some s ∧ s.name = name := by
  unfold locate at h
  split at h
  · next hroot =>
    obtain ⟨s, hs, he⟩ := map_eq_some_iff.1 h
    cases he
    exact ⟨hroot, s, hs, rfl⟩
  split at h
  · cases h
  next i hi =>
  obtain ⟨s, hs, he⟩ := map_eq_some_iff.1 h
  cases he
  refine ⟨?_, s, hs, rfl⟩
  obtain ⟨hlt, hhold, -⟩ := findIdx?_eq_some_iff_getElem.1 hi
  obtain ⟨r, hr, hmem⟩ := holds_iff.1 hhold
  have : t.slot i = some r := by
    unfold slot
    rw [getElem?_eq_getElem hlt, hr]
    rfl
  rwa [children_node this]

theorem locate_none (h : t.Inv) (hn : t.locate id = none) : t.slot id = none := by
  cases hs : t.slot id with
  | none => rfl
  | some s =>
    obtain ⟨w, hw⟩ := (h.live id).2 (by rw [hs]; rfl)
    unfold locate at hn
    rw [hs] at hn
    split at hn
    · cases hn
    next hroot =>
    cases w with
    | root => exact absurd hw hroot
    | node up =>
      split at hn
      · next hidx =>
        -- the pane that lists the node would have been found
        cases hup : t.slot up with
        | none =>
          rw [children_of_none hup] at hw
          cases hw
        | some r =>
          rw [children_node hup] at hw
          have hget : t.slots[up]? = some (some r) := join_eq_some_iff.1 hup
          have := findIdx?_eq_none_iff.1 hidx _ (mem_of_getElem? hget)
          rw [holds_iff.2 ⟨r, rfl, hw⟩] at this
          cases this
      · cases hn

theorem locate_eq (h : t.Inv) {s : Slot} (hw : id ∈ t.children w) (hs : t.slot id = some s) :
    t.locate id = some (w, s.name) := by
  cases hl : t.locate id with
  | none =>
    rw [locate_none h hl] at hs
    cases hs
  | some p =>
    obtain ⟨w', name⟩ := p
    obtain ⟨hw', r, hr, rfl⟩ := locate_spec hl
    cases hs.symm.trans hr
    rw [h.unique hw hw']

/-- The way up ends. -/
theorem climb_ends (h : t.Inv) {fuel : Nat} (names : List Text) (hf : 0 < fuel)
    (hid : (t.slot id).isSome → id < fuel) : (t.climb fuel id names).isSome := by
  induction fuel generalizing id names with
  | zero => exact absurd hf (Nat.lt_irrefl 0)
  | succ fuel ih =>
    unfold climb
    split
    · rfl
    · rfl
    next up name hloc =>
    obtain ⟨hmem, s, hs, -⟩ := locate_spec hloc
    have hlt : up < fuel :=
      Nat.lt_of_lt_of_le (h.order hmem) (Nat.le_of_lt_succ (hid (by rw [hs]; rfl)))
    exact ih _ (Nat.lt_of_le_of_lt (Nat.zero_le up) hlt) fun _ => hlt

/-! ## Names on the way down -/

/-- The names from one place down to another. -/
inductive Leads (t : Tree) (start : Where) : List Text → Where → Prop
  | here : Leads t start [] start
  | down {names : List Text} {w : Where} {id : EntryId} {s : Slot} : Leads t start names w →
      id ∈ t.children w → t.slot id = some s → Leads t start (names ++ [s.name]) (.node id)

variable {names : List Text} {a : Where}

theorem Leads.proper (h : t.Inv) (hl : t.Leads a names w) : Proper '/' names := by
  induction hl with
  | here => exact proper_nil
  | down _ _ hs ih =>
    refine ih.append fun v hv => ?_
    rw [mem_singleton.1 hv]
    exact validName_word (h.valid hs)

variable {l l' : List Text}

theorem Leads.trans {b c : Where} (h : t.Leads a l b) (h' : t.Leads b l' c) :
    t.Leads a (l ++ l') c := by
  induction h' with
  | here => rwa [append_nil]
  | down _ hm hs ih =>
    rw [← append_assoc]
    exact ih.down hm hs

theorem Leads.isSome (h : t.Leads .root names (.node id)) : (t.slot id).isSome := by
  cases h with
  | down _ _ hs => rw [hs]; rfl

theorem exists_leads (h : t.Inv) (hw : ∀ id, w = .node id → (t.slot id).isSome) :
    ∃ names, t.Leads .root names w := by
  have hr : ReflTransGen t.Child .root w := by
    cases w with
    | root => exact .refl
    | node id =>
      obtain ⟨s, hs⟩ := isSome_iff_exists.1 (hw id rfl)
      exact reachable h hs
  clear hw
  induction hr with
  | refl => exact ⟨[], .here⟩
  | tail _ hc ih =>
    obtain ⟨id, hid, rfl⟩ := hc
    obtain ⟨names, hl⟩ := ih
    obtain ⟨s, hs⟩ := h.exists_slot hid
    exact ⟨names ++ [s.name], hl.down hid hs⟩

theorem Leads.names_unique (h : t.Inv) (hl : t.Leads .root l w) (hl' : t.Leads .root l' w) :
    l = l' := by
  induction hl generalizing l' with
  | here => cases hl'; rfl
  | down _ hm hs ih =>
    cases hl' with
    | down hl' hm' hs' =>
      obtain rfl := h.unique hm hm'
      rw [ih hl', some.inj (hs.symm.trans hs')]

theorem Leads.place_unique (h : t.Inv) {w' : Where} (hl : t.Leads a l w) (hl' : t.Leads a l w') :
    w = w' := by
  induction hl generalizing w' with
  | here =>
    generalize he : ([] : List Text) = l at hl'
    cases hl' with
    | here => rfl
    | down => simp at he
  | @down names w id s _ hm hs ih =>
    generalize he : names ++ [s.name] = l at hl'
    cases hl' with
    | here => simp at he
    | down hl' hm' hs' =>
      obtain ⟨rfl, hn⟩ := append_inj' he rfl
      obtain rfl := ih hl'
      rw [h.names hm hm' hs hs' (List.cons.inj hn).1]

/-- A node whose path goes on after another's lies below it. -/
theorem Leads.split (h : t.Inv) {r : List Text} {b : Where} (ha : t.Leads a l b)
    (hw : t.Leads a (l ++ r) w) : t.Leads b r w := by
  induction r using List.reverseRec generalizing w with
  | nil =>
    rw [append_nil] at hw
    rw [ha.place_unique h hw]
    exact .here
  | append_singleton r x ih =>
    rw [← append_assoc] at hw
    generalize he : l ++ r ++ [x] = names at hw
    cases hw with
    | here => simp at he
    | down hw hm hs =>
      obtain ⟨rfl, hn⟩ := append_inj' he rfl
      rw [(List.cons.inj hn).1]
      exact (ih hw).down hm hs

/-! ## Texts of paths -/

theorem climb_leads (h : t.Inv) {up : List Text} (hl : t.Leads .root up w) (hw : w = .node id)
    (names : List Text) {fuel : Nat} (hf : id < fuel) :
    t.climb fuel id names = some (some (up ++ names)) := by
  induction hl generalizing id names fuel with
  | here => cases hw
  | @down up w id s hup hm hs ih =>
    obtain rfl := Where.node.inj hw
    obtain ⟨fuel, rfl⟩ := Nat.exists_eq_succ_of_ne_zero (Nat.ne_zero_of_lt hf)
    unfold climb
    rw [locate_eq h hm hs]
    cases w with
    | root =>
      cases hup
      rfl
    | node j =>
      have hlt : j < fuel := Nat.lt_of_lt_of_le (h.order hm) (Nat.le_of_lt_succ hf)
      simp only [ih rfl (s.name :: names) hlt, append_assoc, cons_append, nil_append]

theorem roadOf_eq (h : t.Inv) (hl : t.Leads .root names w) :
    t.roadOf w = if Fits names then some (join '/' names) else none := by
  cases w with
  | root =>
    obtain rfl := hl.names_unique h .here
    rfl
  | node id =>
    obtain ⟨s, hs⟩ := isSome_iff_exists.1 hl.isSome
    have hclimb : t.climb (t.slots.length + 1) id [] = some (some (names ++ [])) :=
      climb_leads h hl rfl [] (Nat.lt_succ_of_lt (slot_lt hs))
    rw [append_nil] at hclimb
    simp only [roadOf, roadTo, hclimb, join_some, bind_some]
    exact foldlM_tryJoin (hl.proper h)

/-- A path is the names from the root down. -/
theorem roadTo_leads (h : t.Inv) {road : Text} (hr : t.roadTo id = some road) :
    ∃ names, t.Leads .root names (.node id) ∧ road = join '/' names := by
  cases hs : t.slot id with
  | none =>
    have hloc : t.locate id = none := by
      cases hl : t.locate id with
      | none => rfl
      | some p =>
        obtain ⟨-, r, hr, -⟩ := locate_spec hl
        cases hs.symm.trans hr
    simp [roadTo, climb, hloc] at hr
  | some s =>
    obtain ⟨names, hl⟩ := exists_leads h (w := .node id) fun j hj => by
      rw [← Where.node.inj hj, hs]
      rfl
    refine ⟨names, hl, ?_⟩
    have hroad : t.roadOf (.node id) = some road := hr
    rw [roadOf_eq h hl] at hroad
    split at hroad
    · exact (some.inj hroad).symm
    · cases hroad

theorem suffix_join (h : Proper '/' l) (h' : Proper '/' l') {x : Text} :
    suffix (join '/' l) (join '/' l') = some x ↔ ∃ r, l' = l ++ r ∧ x = join '/' r := by
  unfold suffix
  split
  · next hnil =>
    obtain rfl := (join_eq_nil h).1 hnil
    exact ⟨fun he => ⟨l', rfl, (some.inj he).symm⟩, fun ⟨r, hr, hx⟩ => by rw [hx, hr]; rfl⟩
  next hnil =>
  have hne : l ≠ [] := fun he => hnil (by rw [he]; rfl)
  split
  · next hsame =>
    obtain rfl := join_injective h' h hsame
    constructor
    · intro he
      exact ⟨[], (append_nil _).symm, (some.inj he).symm⟩
    · rintro ⟨r, hr, rfl⟩
      obtain rfl := self_eq_append_right.1 hr
      rfl
  next hdiff =>
  constructor
  · intro he
    obtain ⟨u, hu, hux⟩ := bind_eq_some_iff.1 he
    rw [stripPrefix_some] at hu hux
    obtain ⟨r, hr, hx⟩ := join_continues h h' hne (t := x) (by rw [hu, hux]; rfl)
    exact ⟨r, hr, hx⟩
  rintro ⟨r, rfl, rfl⟩
  have hr : r ≠ [] := fun he => hdiff (by rw [he, append_nil])
  refine bind_eq_some_iff.2 ⟨'/' :: join '/' r, ?_, ?_⟩
  · rw [stripPrefix_some, join_append hne hr]
  · rw [stripPrefix_some]
    rfl

/-- An entry of this tree that is visible. -/
def Seen (t : Tree) (live : GrantKey → Bool) (e : Entry) : Prop :=
  e.operator = t.actor ∧ ∀ id, e.target = .node id → t.visible live id = true

theorem whereFor_ok {e : Entry} : t.whereFor live e = .ok w ↔ t.Seen live e ∧ w = e.target := by
  obtain ⟨operator, target⟩ := e
  unfold whereFor Seen
  by_cases hop : operator = t.actor
  · cases target with
    | root => simp [hop, @eq_comm _ w]
    | node id => by_cases hv : t.visible live id <;> simp [hop, hv, @eq_comm _ w]
  · simp [hop]

theorem visible_isSome (h : t.visible live id = true) : (t.slot id).isSome := by
  unfold visible at h
  cases hs : t.slot id with
  | none => simp [hs] at h
  | some s => rfl

/-- Comparing the texts of two paths compares the nodes. -/
theorem relativeTo_iff (h : t.Inv) {a b : Entry} {base : Text} :
    t.relativeTo live a b = some base ↔ t.Seen live a ∧ t.Seen live b ∧
      ∃ l r, t.Leads .root l a.target ∧ t.Leads .root (l ++ r) b.target ∧ Fits (l ++ r) ∧
        base = join '/' r := by
  have hseen : ∀ e, t.Seen live e → t.whereFor live e = .ok e.target := fun e he =>
    whereFor_ok.2 ⟨he, rfl⟩
  constructor
  · intro hr
    unfold relativeTo at hr
    split at hr
    · next wa wb hwa hwb =>
      obtain ⟨ha, rfl⟩ := whereFor_ok.1 hwa
      obtain ⟨hb, rfl⟩ := whereFor_ok.1 hwb
      obtain ⟨l, hl⟩ := exists_leads h fun id hid => visible_isSome (ha.2 id hid)
      obtain ⟨l', hl'⟩ := exists_leads h fun id hid => visible_isSome (hb.2 id hid)
      rw [roadOf_eq h hl, roadOf_eq h hl'] at hr
      by_cases hf : Fits l
      · by_cases hf' : Fits l'
        · simp only [if_pos hf, if_pos hf', bind_eq_bind, bind_some] at hr
          obtain ⟨x, hx, hbase⟩ := bind_eq_some_iff.1 hr
          obtain ⟨r, rfl, rfl⟩ := (suffix_join (hl.proper h) (hl'.proper h)).1 hx
          rw [normal_join (hl'.proper h).right, if_pos hf'.right] at hbase
          exact ⟨ha, hb, l, r, hl, hl', hf', (some.inj hbase).symm⟩
        · simp [if_pos hf, if_neg hf'] at hr
      · simp [if_neg hf] at hr
    · cases hr
  · rintro ⟨ha, hb, l, r, hl, hl', hf, rfl⟩
    have hp := hl'.proper h
    unfold relativeTo
    rw [hseen a ha, hseen b hb]
    simp only [roadOf_eq h hl, roadOf_eq h hl', if_pos hf.left, if_pos hf, bind_eq_bind,
      bind_some, (suffix_join hp.left hp).2 ⟨r, rfl, rfl⟩, normal_join hp.right,
      if_pos hf.right]

/-! ## Paths survive edits -/

/-- A node that is still there has its name and its place. -/
def Keeps (t t' : Tree) : Prop :=
  ∀ id s', id < t.slots.length → t'.slot id = some s' →
    ∃ s, t.slot id = some s ∧ s'.name = s.name ∧ ∀ w, id ∈ t.children w → id ∈ t'.children w

theorem edit_keeps (h : t.Inv) (he : Edit t t') : Keeps t t' := by
  cases he with
  | @create place l s hl hname hvalid hleaf hrev =>
    change Keeps t (t.created place s)
    obtain ⟨hc, hpane⟩ := kids_ok hl
    have hp : ∀ up, place = .node up → up < t.slots.length := fun up hup => by
      obtain ⟨r, hr, -⟩ := hpane up hup
      exact slot_lt hr
    intro id s' hid hs'
    obtain ⟨r, hr, hcore⟩ := exists_of_core (created_core t place s hp (Nat.ne_of_lt hid)) hs'
    refine ⟨r, hr, (name_of_core hcore).symm, fun w hw => ?_⟩
    rw [created_children hl hleaf]
    split
    · next hwp =>
      rw [hwp, hc] at hw
      exact mem_append_left _ hw
    split
    · next hwn =>
      rw [hwn, children_of_none (slot_fresh t)] at hw
      cases hw
    · exact hw
  | @overwrite j s s' hs hleaf hleaf' hname hrev =>
    intro id r _ hr
    have hch := children_overwrite hs hleaf hleaf' (t.nextRevision + 1)
    rw [slot_set hs] at hr
    split at hr
    · next hj =>
      subst hj
      cases hr
      exact ⟨s, hs, hname, fun w hw => by rwa [hch]⟩
    · exact ⟨r, hr, rfl, fun w hw => by rwa [hch]⟩
  | @remove j s hs hleaf =>
    intro id r _ hr
    rw [unlink_slot h hs] at hr
    split at hr
    · cases hr
    next hj =>
    obtain ⟨q, hq, rfl⟩ := map_eq_some_iff.1 hr
    refine ⟨q, hq, rfl, fun w hw => ?_⟩
    rw [unlink_children h hs hleaf]
    exact (mem_erase_of_ne hj).2 hw

/-- What leads to a node does so until the node is removed. -/
theorem leads_keeps (hk : Keeps t t') (hl : t.Leads a names w)
    (hw : ∀ id, w = .node id → (t'.slot id).isSome) : t'.Leads a names w := by
  induction hl with
  | here => exact .here
  | @down names w id s _ hm hs ih =>
    obtain ⟨s', hs'⟩ := isSome_iff_exists.1 (hw id rfl)
    obtain ⟨r, hr, hname, hmem⟩ := hk id s' (slot_lt hs) hs'
    cases hs.symm.trans hr
    have hm' := hmem w hm
    rw [← hname]
    refine (ih fun up hup => ?_).down hm' hs'
    subst hup
    -- the place still lists the node, so it is there
    cases hup : t'.slot up with
    | none =>
      rw [children_of_none hup] at hm'
      cases hm'
    | some r => rfl

end Tree

end Sqware.Operator
