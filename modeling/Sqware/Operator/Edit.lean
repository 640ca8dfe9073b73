import Sqware.Lib.Forest
import Sqware.Operator.Tree

/-!
# The tree stays a tree

Whatever a call does to the tree is a sequence of edits: a leaf is created, a leaf is overwritten,
a leaf is removed.  Each keeps the lists of children disjoint and complete, the numbers growing
downwards and the names of a pane apart.
-/

namespace Sqware.Operator

open Relation List Option

def Node.inner : Node → List EntryId
  | pane l => l
  | tile .. => []

/-- A node without one of its children. -/
def Node.without (id : EntryId) : Node → Node
  | pane l => pane (l.erase id)
  | tile pie permit owner => tile pie permit owner

variable {id : EntryId}

theorem Node.without_of_not_mem {n : Node} (h : id ∉ n.inner) : n.without id = n := by
  cases n with
  | pane l => exact congrArg pane (erase_of_not_mem h)
  | tile => rfl

/-- A node but for its children. -/
def Node.core : Node → Node
  | pane _ => pane []
  | tile pie permit owner => tile pie permit owner

theorem Node.core_without (id : EntryId) (n : Node) : (n.without id).core = n.core := by
  cases n <;> rfl

def Slot.without (id : EntryId) (s : Slot) : Slot := { s with node := s.node.without id }

/-- A slot but for its children. -/
def Slot.core (s : Slot) : Slot := { s with node := s.node.core }

theorem Slot.core_without (id : EntryId) (s : Slot) : (s.without id).core = s.core := by
  simp only [Slot.core, Slot.without, Node.core_without]

namespace Tree

variable {t t' : Tree}

/-- The numbers listed at a place. -/
def children (t : Tree) : Where → List EntryId
  | .root => t.root
  | .node id => ((t.slot id).map (·.node.inner)).getD []

variable {s : Slot}

theorem children_node (h : t.slot id = some s) :
    t.children (.node id) = s.node.inner := by simp [children, h]

theorem children_of_none (h : t.slot id = none) : t.children (.node id) = [] := by
  simp [children, h]

theorem kids_ok {w : Where} {l : List EntryId} (h : t.kids w = .ok l) :
    t.children w = l ∧ ∀ id, w = .node id → ∃ s, t.slot id = some s ∧ s.node = .pane l := by
  cases w with
  | root =>
    cases h
    exact ⟨rfl, nofun⟩
  | node id =>
    cases hs : t.slot id with
    | none => simp [kids, hs] at h
    | some s =>
      cases hn : s.node with
      | pane inner =>
        simp only [kids, hs, hn, Except.ok.injEq] at h
        subst h
        refine ⟨by rw [children_node hs, hn]; rfl, ?_⟩
        intro id' hid
        obtain rfl := Where.node.inj hid
        exact ⟨s, hs, hn⟩
      | tile => simp [kids, hs, hn] at h

theorem slot_lt (h : t.slot id = some s) : id < t.slots.length := by
  unfold slot at h
  by_contra hlt
  rw [getElem?_eq_none (Nat.le_of_not_lt hlt)] at h
  cases h

theorem kids_lt {place : Where} {l : List EntryId} (h : t.kids place = .ok l) (up : EntryId)
    (hup : place = .node up) : up < t.slots.length := by
  obtain ⟨r, hr, -⟩ := (kids_ok h).2 up hup
  exact slot_lt hr

/-! ## Edits -/

/-- One change of the tree. -/
inductive Edit (t : Tree) : Tree → Prop
  | create {place : Where} {l : List EntryId} (s : Slot) (hl : t.kids place = .ok l)
      (hname : ∀ id ∈ l, ∀ r, t.slot id = some r → r.name ≠ s.name)
      (hvalid : validName s.name = true) (hleaf : s.node.inner = [])
      (hrev : s.revision = t.nextRevision + 1) :
      Edit t (list { t with
        nextRevision := t.nextRevision + 1, slots := t.slots ++ [some s] } place t.slots.length)
  | overwrite {id : EntryId} {s : Slot} (s' : Slot) (hs : t.slot id = some s)
      (hleaf : s.node.inner = []) (hleaf' : s'.node.inner = []) (hname : s'.name = s.name)
      (hrev : s'.revision = t.nextRevision + 1) :
      Edit t { t with nextRevision := t.nextRevision + 1, slots := t.slots.set id (some s') }
  | remove {id : EntryId} {s : Slot} (hs : t.slot id = some s) (hleaf : s.node.inner = []) :
      Edit t (t.unlink id)

/-- The slots form a tree with distinct valid names, where a child is newer than its parent. -/
structure Inv (t : Tree) : Prop where
  nodup : ∀ w, (t.children w).Nodup
  unique : ∀ {w w' id}, id ∈ t.children w → id ∈ t.children w' → w = w'
  live : ∀ id, (∃ w, id ∈ t.children w) ↔ (t.slot id).isSome
  order : ∀ {up id}, id ∈ t.children (.node up) → up < id
  names : ∀ {w a b s r}, a ∈ t.children w → b ∈ t.children w → t.slot a = some s →
    t.slot b = some r → s.name = r.name → a = b
  revision : ∀ {id s}, t.slot id = some s → s.revision ≤ t.nextRevision
  valid : ∀ {id s}, t.slot id = some s → validName s.name = true

theorem Inv.exists_slot (h : t.Inv) {w : Where} (hid : id ∈ t.children w) :
    ∃ s, t.slot id = some s := isSome_iff_exists.1 ((h.live id).1 ⟨w, hid⟩)

/-- What is listed and what is there was so before. -/
theorem Inv.less (h : t.Inv) (hnodup : ∀ w, (t'.children w).Nodup)
    (hmem : ∀ {w id}, id ∈ t'.children w → id ∈ t.children w)
    (hlive : ∀ id, (∃ w, id ∈ t'.children w) ↔ (t'.slot id).isSome)
    (hslot : ∀ {id r}, t'.slot id = some r →
      ∃ q, t.slot id = some q ∧ q.name = r.name ∧ r.revision ≤ t'.nextRevision) : t'.Inv where
  nodup := hnodup
  unique hw hw' := h.unique (hmem hw) (hmem hw')
  live := hlive
  order hid := h.order (hmem hid)
  names ha hb hr hr' he := by
    obtain ⟨q, hq, hn, -⟩ := hslot hr
    obtain ⟨q', hq', hn', -⟩ := hslot hr'
    exact h.names (hmem ha) (hmem hb) hq hq' (by rw [hn, hn', he])
  revision hr := by
    obtain ⟨_, _, _, hle⟩ := hslot hr
    exact hle
  valid hr := by
    obtain ⟨q, hq, hn, -⟩ := hslot hr
    exact hn ▸ h.valid hq

/-! ### Creating -/

section

variable {place : Where} {l : List EntryId} {s : Slot}

/-- The tree after a leaf was created. -/
def created (t : Tree) (place : Where) (s : Slot) : Tree :=
  list { t with nextRevision := t.nextRevision + 1, slots := t.slots ++ [some s] } place
    t.slots.length

theorem created_nextRevision (t : Tree) (place : Where) (s : Slot) :
    (t.created place s).nextRevision = t.nextRevision + 1 := by
  cases place <;> rfl

theorem created_slot (t : Tree) (place : Where) (s : Slot)
    (hp : ∀ up, place = .node up → up < t.slots.length) :
    (t.created place s).slot id =
      if id = t.slots.length then some s
      else if place = .node id then
        (t.slot id).map fun s => { s with node := s.node.push t.slots.length }
      else t.slot id := by
  have happ : ∀ id, ((t.slots ++ [some s])[id]?).join =
      if id = t.slots.length then some s else t.slot id := by
    intro id
    rcases Nat.lt_trichotomy id t.slots.length with h | h | h
    · rw [getElem?_append_left h, if_neg (Nat.ne_of_lt h)]
      rfl
    · subst h
      rw [getElem?_concat_length, if_pos rfl]
      rfl
    · rw [getElem?_eq_none (by simp; omega), if_neg (by omega)]
      unfold slot
      rw [getElem?_eq_none (by omega)]
  unfold created list
  cases place with
  | root =>
    exact happ id
  | node up =>
    have hup := hp up rfl
    unfold slot
    rw [List.getElem?_modify]
    by_cases hid : up = id
    · subst hid
      rw [if_neg (Nat.ne_of_lt hup), if_pos rfl, getElem?_append_left hup]
      cases t.slots[up]? with
      | none => rfl
      | some o =>
        simp only [if_true]
        rfl
    · rw [if_neg fun he => hid (Where.node.inj he)]
      simp only [hid, if_false]
      exact (congrArg Option.join (by simp)).trans (happ id)

theorem created_core (t : Tree) (place : Where) (s : Slot)
    (hp : ∀ up, place = .node up → up < t.slots.length) (hid : id ≠ t.slots.length) :
    ((t.created place s).slot id).map Slot.core = (t.slot id).map Slot.core := by
  rw [created_slot t place s hp, if_neg hid]
  split
  · cases t.slot id with
    | none => rfl
    | some r =>
      obtain ⟨name, node, revision, authority, view, resourceId⟩ := r
      cases node <;> rfl
  · rfl

theorem created_children (hl : t.kids place = .ok l) (hleaf : s.node.inner = []) (w : Where) :
    (t.created place s).children w =
      if w = place then l ++ [t.slots.length] else if w = .node t.slots.length then []
      else t.children w := by
  obtain ⟨hc, hpane⟩ := kids_ok hl
  have hp := kids_lt hl
  cases w with
  | root =>
    cases place with
    | root =>
      rw [if_pos rfl, ← hc]
      rfl
    | node up => simp [created, list, children]
  | node id =>
    by_cases hid : id = t.slots.length
    · subst hid
      have hne : ¬ (Where.node t.slots.length = place) := fun he =>
        Nat.lt_irrefl _ (hp _ he.symm)
      rw [if_neg hne, if_pos rfl]
      have hs : (t.created place s).slot t.slots.length = some s := by
        rw [created_slot t place s hp, if_pos rfl]
      rw [children_node hs, hleaf]
    have hne : ¬ (Where.node id = Where.node t.slots.length) := fun he => hid (Where.node.inj he)
    rw [if_neg hne]
    by_cases hw : Where.node id = place
    · subst hw
      obtain ⟨r, hr, hn⟩ := hpane id rfl
      have hs : (t.created (.node id) s).slot id =
          some { r with node := .pane (l ++ [t.slots.length]) } := by
        rw [created_slot t _ s hp, if_neg hid, if_pos rfl, hr]
        simp [hn, Node.push]
      rw [if_pos rfl, children_node hs]
      rfl
    have hs : (t.created place s).slot id = t.slot id := by
      rw [created_slot t place s hp, if_neg hid, if_neg fun he => hw he.symm]
    rw [if_neg hw]
    simp only [children, hs]

theorem slot_fresh (t : Tree) : t.slot t.slots.length = none := by
  unfold slot
  rw [getElem?_eq_none (Nat.le_refl _)]
  rfl

theorem Inv.fresh_not_mem (h : t.Inv) (w : Where) : t.slots.length ∉ t.children w := by
  intro hw
  obtain ⟨r, hr⟩ := h.exists_slot hw
  exact absurd (slot_lt hr) (Nat.lt_irrefl _)

/-- What is the same in two slots that differ in their children only. -/
theorem exists_of_core {x y : Option Slot} (h : x.map Slot.core = y.map Slot.core)
    (hx : x = some s) : ∃ r, y = some r ∧ r.core = s.core := by
  subst hx
  cases y with
  | none => cases h
  | some r => exact ⟨r, rfl, (some.inj h).symm⟩

theorem name_of_core {r : Slot} (h : s.core = r.core) : s.name = r.name :=
  (congrArg Slot.name h : s.core.name = r.core.name)

theorem revision_of_core {r : Slot} (h : s.core = r.core) : s.revision = r.revision :=
  (congrArg Slot.revision h : s.core.revision = r.core.revision)

theorem inv_created (h : t.Inv) (hl : t.kids place = .ok l)
    (hname : ∀ id ∈ l, ∀ r, t.slot id = some r → r.name ≠ s.name) (hvalid : validName s.name = true)
    (hleaf : s.node.inner = []) (hrev : s.revision = t.nextRevision + 1) :
    (t.created place s).Inv := by
  have hc := (kids_ok hl).1
  have hp := kids_lt hl
  have hmem : ∀ w id, id ∈ (t.created place s).children w ↔
      id ∈ t.children w ∨ w = place ∧ id = t.slots.length := by
    intro w id
    rw [created_children hl hleaf]
    split
    · next he =>
      subst he
      rw [hc]
      simp
    next hne =>
    split
    · next he =>
      rw [he, children_of_none (slot_fresh t)]
      simp [← he, hne]
    · simp [hne]
  have hself : (t.created place s).slot t.slots.length = some s := by
    rw [created_slot t place s hp, if_pos rfl]
  have hold : ∀ id r, id ≠ t.slots.length → (t.created place s).slot id = some r →
      ∃ r', t.slot id = some r' ∧ r'.core = r.core := fun id r hid hr =>
    exists_of_core (created_core t place s hp hid) hr
  have hlt : ∀ w id, id ∈ t.children w → id ≠ t.slots.length := by
    rintro w _ hid rfl
    exact h.fresh_not_mem w hid
  refine ⟨fun w => ?_, fun {w w' id} hw hw' => ?_, fun id => ?_, fun {up id} hid => ?_,
    fun {w a b r r'} ha hb hr hr' he => ?_, fun {id r} hr => ?_, fun {id r} hr => ?_⟩
  · rw [created_children hl hleaf]
    split
    · refine nodup_append.2 ⟨hc ▸ h.nodup place, nodup_singleton _, fun a ha b hb => ?_⟩
      rw [mem_singleton.1 hb]
      exact hlt place a (hc ▸ ha)
    · split
      · exact nodup_nil
      · exact h.nodup w
  · rcases (hmem w id).1 hw with hold1 | ⟨rfl, hid⟩
    · rcases (hmem w' id).1 hw' with hold2 | ⟨rfl, hid⟩
      · exact h.unique hold1 hold2
      · exact absurd hid (hlt w id hold1)
    · rcases (hmem w' id).1 hw' with hold2 | ⟨rfl, -⟩
      · exact absurd hid (hlt w' id hold2)
      · rfl
  · by_cases hid : id = t.slots.length
    · subst hid
      rw [hself]
      exact ⟨fun _ => rfl, fun _ => ⟨place, (hmem place _).2 (.inr ⟨rfl, rfl⟩)⟩⟩
    have hsome : ((t.created place s).slot id).isSome = (t.slot id).isSome := by
      have := congrArg Option.isSome (created_core t place s hp hid)
      rwa [isSome_map, isSome_map] at this
    rw [hsome, ← h.live id]
    refine exists_congr fun w => ?_
    rw [hmem]
    simp [hid]
  · rcases (hmem _ id).1 hid with hid | ⟨hup, rfl⟩
    · exact h.order hid
    · exact hp up hup.symm
  · have hcase : ∀ a r, a ∈ (t.created place s).children w →
        (t.created place s).slot a = some r →
        (a ∈ t.children w ∧ ∃ r', t.slot a = some r' ∧ r'.name = r.name) ∨
        (w = place ∧ a = t.slots.length ∧ r.name = s.name) := by
      intro a r ha hr
      rcases (hmem w a).1 ha with ha | ⟨hw, rfl⟩
      · obtain ⟨r', hr', hcore⟩ := hold a r (hlt w a ha) hr
        exact .inl ⟨ha, r', hr', name_of_core hcore⟩
      · rw [hself] at hr
        exact .inr ⟨hw, rfl, by rw [some.inj hr]⟩
    rcases hcase a r ha hr with ⟨ha1, q, hq, hqn⟩ | ⟨hw, ha1, hn⟩
    · rcases hcase b r' hb hr' with ⟨hb1, q', hq', hqn'⟩ | ⟨hw, -, hn'⟩
      · exact h.names ha1 hb1 hq hq' (by rw [hqn, hqn', he])
      · rw [hw, hc] at ha1
        exact absurd (hqn.trans (he.trans hn')) (hname a ha1 q hq)
    rcases hcase b r' hb hr' with ⟨hb1, q', hq', hqn'⟩ | ⟨-, hb1, -⟩
    · rw [hw, hc] at hb1
      exact absurd (hqn'.trans (he.symm.trans hn)) (hname b hb1 q' hq')
    · rw [ha1, hb1]
  · rw [created_nextRevision]
    by_cases hid : id = t.slots.length
    · subst hid
      cases hself.symm.trans hr
      exact Nat.le_of_eq hrev
    obtain ⟨r', hr', hcore⟩ := hold id r hid hr
    have := h.revision hr'
    rw [← revision_of_core hcore]
    omega
  · by_cases hid : id = t.slots.length
    · subst hid
      cases hself.symm.trans hr
      exact hvalid
    · obtain ⟨r', hr', hcore⟩ := hold id r hid hr
      exact name_of_core hcore ▸ h.valid hr'

end

/-! ### Overwriting -/

section

variable {id : EntryId} {s s' : Slot}

theorem slot_set (h : t.slot id = some s) (o : Option Slot) (n : Nat) (j : EntryId) :
    slot { t with nextRevision := n, slots := t.slots.set id o } j =
      if j = id then o else t.slot j := by
  unfold slot
  rw [List.getElem?_set]
  by_cases hj : id = j
  · subst hj
    rw [if_pos rfl, if_pos rfl, if_pos (slot_lt h)]
    rfl
  · rw [if_neg hj, if_neg fun he => hj he.symm]

theorem children_overwrite (hs : t.slot id = some s) (hleaf : s.node.inner = [])
    (hleaf' : s'.node.inner = []) (n : Nat) (w : Where) :
    children { t with nextRevision := n, slots := t.slots.set id (some s') } w =
      t.children w := by
  cases w with
  | root => rfl
  | node j =>
    by_cases hj : j = id
    · subst hj
      have hslot := slot_set hs (some s') n j
      rw [if_pos rfl] at hslot
      rw [children_node hslot, children_node hs, hleaf, hleaf']
    · have hslot := slot_set hs (some s') n j
      rw [if_neg hj] at hslot
      simp only [children, hslot]

theorem inv_overwrite (h : t.Inv) (hs : t.slot id = some s) (hleaf : s.node.inner = [])
    (hleaf' : s'.node.inner = []) (hname : s'.name = s.name)
    (hrev : s'.revision = t.nextRevision + 1) :
    Tree.Inv { t with nextRevision := t.nextRevision + 1, slots := t.slots.set id (some s') } := by
  have hch := children_overwrite hs hleaf hleaf' (t.nextRevision + 1)
  have hslot := slot_set hs (some s') (t.nextRevision + 1)
  refine h.less (fun w => hch w ▸ h.nodup w) (fun hid => hch _ ▸ hid) (fun j => ?_) fun hr => ?_
  · rw [hslot]
    simp only [hch]
    split
    · next hj =>
      subst hj
      rw [h.live j, hs]
      simp
    · exact h.live j
  · rw [hslot] at hr
    split at hr
    · next hj =>
      cases hr
      exact ⟨s, hj ▸ hs, hname.symm, Nat.le_of_eq hrev⟩
    · exact ⟨_, hr, rfl, Nat.le_succ_of_le (h.revision hr)⟩

end

/-! ### Removing -/

section

variable {id : EntryId} {s : Slot}

theorem holds_iff {o : Option Slot} : holds id o = true ↔ ∃ s, o = some s ∧ id ∈ s.node.inner := by
  cases o with
  | none => simp [holds]
  | some s =>
    obtain ⟨name, node, revision, authority, view, resourceId⟩ := s
    cases node <;> simp [holds, Node.inner]

theorem map_without_of_not_holds {o : Option Slot} (h : holds id o = false) :
    o.map (Slot.without id) = o := by
  cases o with
  | none => rfl
  | some s =>
    have hn : id ∉ s.node.inner := fun hm => by
      rw [holds_iff.2 ⟨s, rfl, hm⟩] at h
      cases h
    rw [map_some, Slot.without, Node.without_of_not_mem hn]

/-- Where one pane at most lists a number, taking it out of the first is taking it out of all. -/
theorem unlist_eq {l : List (Option Slot)}
    (h : l.Pairwise fun o o' => ¬ (holds id o = true ∧ holds id o' = true)) :
    unlist id l = l.map (Option.map (Slot.without id)) := by
  induction l with
  | nil => rfl
  | cons o l ih =>
    obtain ⟨ho, hl⟩ := pairwise_cons.1 h
    rw [map_cons]
    have hskip : holds id o = false → o :: unlist id l = o.map (Slot.without id) ::
        l.map (Option.map (Slot.without id)) := fun hn => by
      rw [ih hl, map_without_of_not_holds hn]
    cases o with
    | none => exact hskip rfl
    | some s =>
      unfold unlist
      cases hn : s.node with
      | tile pie permit owner =>
        refine hskip (Bool.eq_false_iff.2 fun hh => ?_)
        obtain ⟨s', hs', hmem⟩ := holds_iff.1 hh
        cases hs'
        rw [hn] at hmem
        exact not_mem_nil hmem
      | pane inner =>
        dsimp only
        have hiff : holds id (some s) = true ↔ id ∈ inner := by
          rw [holds_iff]
          simp [hn, Node.inner]
        split
        · next hid =>
          have hrest : l.map (Option.map (Slot.without id)) = l := by
            rw [map_congr_left fun o' ho' => map_without_of_not_holds
              (Bool.eq_false_iff.2 fun hh => ho o' ho' ⟨hiff.2 hid, hh⟩)]
            exact List.map_id' l
          rw [hrest]
          simp [Slot.without, hn, Node.without]
        · next hid => exact hskip (Bool.eq_false_iff.2 fun hh => hid (hiff.1 hh))

theorem unlink_eq (h : t.Inv) (hs : t.slot id = some s) :
    t.unlink id = { t with
      root := t.root.erase id
      slots := (t.slots.set id none).map (Option.map (Slot.without id)) } := by
  -- who lists the number after the slot was emptied listed it before
  have hlists : ∀ i o, (t.slots.set id none)[i]? = some o → holds id o = true →
      id ∈ t.children (.node i) := by
    intro i o hi ho
    obtain ⟨r, rfl, hr⟩ := holds_iff.1 ho
    rw [List.getElem?_set] at hi
    split at hi
    · split at hi <;> cases hi
    have : t.slot i = some r := by
      unfold slot
      rw [hi]
      rfl
    rw [children_node this]
    exact hr
  have hpair : (t.slots.set id none).Pairwise
      fun o o' => ¬ (holds id o = true ∧ holds id o' = true) := by
    rw [pairwise_iff_getElem]
    rintro i j hi hj hij ⟨ho, ho'⟩
    have h1 := hlists i _ (getElem?_eq_getElem hi) ho
    have h2 := hlists j _ (getElem?_eq_getElem hj) ho'
    exact absurd (Where.node.inj (h.unique h1 h2)) (Nat.ne_of_lt hij)
  unfold unlink
  rw [hs]
  simp only [isNone_some, Bool.false_eq_true, if_false]
  split
  · next hroot =>
    have hmap : (t.slots.set id none).map (Option.map (Slot.without id)) = t.slots.set id none := by
      conv_rhs => rw [← List.map_id (t.slots.set id none)]
      refine map_congr_left fun o ho => map_without_of_not_holds (Bool.eq_false_iff.2 fun hh => ?_)
      obtain ⟨i, hi⟩ := mem_iff_getElem?.1 ho
      have hr : id ∈ t.children .root := hroot
      cases h.unique hr (hlists i o hi hh)
    rw [hmap]
  · next hroot => rw [erase_of_not_mem hroot, unlist_eq hpair]

theorem unlink_slot (h : t.Inv) (hs : t.slot id = some s) (j : EntryId) :
    (t.unlink id).slot j = if j = id then none else (t.slot j).map (Slot.without id) := by
  rw [unlink_eq h hs]
  unfold slot
  rw [List.getElem?_map, List.getElem?_set]
  by_cases hj : id = j
  · subst hj
    rw [if_pos rfl, if_pos rfl, if_pos (slot_lt hs)]
    rfl
  rw [if_neg hj, if_neg fun he => hj he.symm]
  cases t.slots[j]? with
  | none => rfl
  | some o => rfl

theorem unlink_children (h : t.Inv) (hs : t.slot id = some s) (hleaf : s.node.inner = [])
    (w : Where) : (t.unlink id).children w = (t.children w).erase id := by
  cases w with
  | root =>
    rw [unlink_eq h hs]
    rfl
  | node j =>
    have hslot := unlink_slot h hs j
    by_cases hj : j = id
    · subst hj
      rw [if_pos rfl] at hslot
      rw [children_of_none hslot, children_node hs, hleaf]
      rfl
    rw [if_neg hj] at hslot
    cases hr : t.slot j with
    | none =>
      rw [hr] at hslot
      rw [children_of_none hslot, children_of_none hr]
      rfl
    | some r =>
      rw [hr] at hslot
      rw [children_node hslot, children_node hr]
      obtain ⟨_, _ | _, _⟩ := r <;> rfl

theorem unlink_nextRevision (id : EntryId) : (t.unlink id).nextRevision = t.nextRevision := by
  unfold unlink
  split
  · rfl
  · split <;> rfl

theorem unlink_length (h : t.Inv) (hs : t.slot id = some s) :
    (t.unlink id).slots.length = t.slots.length := by
  rw [unlink_eq h hs]
  simp

theorem inv_remove (h : t.Inv) (hs : t.slot id = some s) (hleaf : s.node.inner = []) :
    (t.unlink id).Inv := by
  have hch := unlink_children h hs hleaf
  have hmem : ∀ w j, j ∈ (t.unlink id).children w ↔ j ≠ id ∧ j ∈ t.children w := by
    intro w j
    rw [hch, (h.nodup w).mem_erase_iff]
  refine h.less (fun w => ?_) (fun hj => ((hmem _ _).1 hj).2) (fun j => ?_) fun hr => ?_
  · rw [hch]
    exact (h.nodup w).erase id
  · simp only [hmem]
    rw [unlink_slot h hs]
    by_cases hj : j = id
    · simp [hj]
    · simp only [hj, if_false, not_false_eq_true, true_and, ne_eq, isSome_map]
      exact h.live j
  · rw [unlink_slot h hs] at hr
    split at hr
    · cases hr
    · obtain ⟨q, hq, rfl⟩ := map_eq_some_iff.1 hr
      exact ⟨q, hq, rfl, unlink_nextRevision (t := t) id ▸ h.revision (s := q) hq⟩

end

/-! ### Every edit -/

/-- An edit keeps the invariant. -/
theorem edit_inv (h : t.Inv) (he : Edit t t') : t'.Inv := by
  cases he with
  | create s hl hname hvalid hleaf hrev => exact inv_created h hl hname hvalid hleaf hrev
  | overwrite s' hs hleaf hleaf' hname hrev => exact inv_overwrite h hs hleaf hleaf' hname hrev
  | remove hs hleaf => exact inv_remove h hs hleaf

/-- What an edit leaves alone: a number is not issued again, what changes gets a new revision, and
a pane that is not empty stays a pane. -/
structure Careful (t t' : Tree) : Prop where
  length : t.slots.length ≤ t'.slots.length
  dead : ∀ id, id < t.slots.length → t.slot id = none → t'.slot id = none
  issued : t.nextRevision ≤ t'.nextRevision
  revised : ∀ id s', t'.slot id = some s' → (t.slot id).map Slot.core ≠ some s'.core →
    t.nextRevision < s'.revision
  panes : ∀ id s, t.slot id = some s → s.node.inner ≠ [] →
    ∃ s', t'.slot id = some s' ∧ s'.node.isPane = true

theorem isPane_of_inner {n : Node} (h : n.inner ≠ []) : n.isPane = true := by
  cases n with
  | pane => rfl
  | tile => exact absurd rfl h

theorem isPane_of_core {r : Slot} (h : s.core = r.core) : s.node.isPane = r.node.isPane := by
  cases hs : s.node <;> cases hr : r.node <;> simp_all [Slot.core, Node.core, Node.isPane]

theorem ne_of_leaf {j : EntryId} {r : Slot} (hs : t.slot id = some s) (hleaf : s.node.inner = [])
    (hr : t.slot j = some r) (hinner : r.node.inner ≠ []) : j ≠ id := by
  rintro rfl
  cases hs.symm.trans hr
  exact hinner hleaf

/-- What an edit leaves alone. -/
theorem edit_careful (h : t.Inv) (he : Edit t t') : Careful t t' := by
  cases he with
  | @create place l s hl hname hvalid hleaf hrev =>
    change Careful t (t.created place s)
    have hp := kids_lt hl
    refine ⟨?_, fun id hid hnone => ?_, ?_, fun id s' hs' hne => ?_, fun id r hr hinner => ?_⟩
    · unfold created list
      cases place <;> simp
    · have := created_core t place s hp (Nat.ne_of_lt hid)
      rw [hnone] at this
      exact map_eq_none_iff.1 this
    · rw [created_nextRevision]
      exact Nat.le_succ _
    · by_cases hid : id = t.slots.length
      · subst hid
        rw [created_slot t place s hp, if_pos rfl] at hs'
        cases hs'
        omega
      · have := created_core t place s hp hid
        rw [hs'] at this
        exact absurd this.symm hne
    · obtain ⟨r', hr', hcore⟩ := exists_of_core
        (created_core t place s hp (Nat.ne_of_lt (slot_lt hr))).symm hr
      exact ⟨r', hr', by rw [isPane_of_core hcore, isPane_of_inner hinner]⟩
  | @overwrite id s s' hs hleaf hleaf' hname hrev =>
    have hslot := slot_set hs (some s') (t.nextRevision + 1)
    refine ⟨?_, fun j hj hnone => ?_, Nat.le_succ _, fun j r hr hne => ?_, fun j r hr hinner => ?_⟩
    · simp
    · rw [hslot]
      split
      · next he =>
        rw [he, hs] at hnone
        cases hnone
      · exact hnone
    · rw [hslot] at hr
      split at hr
      · cases hr
        omega
      · rw [hr] at hne
        exact absurd rfl hne
    have hj := ne_of_leaf hs hleaf hr hinner
    refine ⟨r, ?_, isPane_of_inner hinner⟩
    rw [hslot, if_neg hj, hr]
  | @remove id s hs hleaf =>
    refine ⟨?_, fun j hj hnone => ?_, ?_, fun j r hr hne => ?_, fun j r hr hinner => ?_⟩
    · rw [unlink_length h hs]
    · rw [unlink_slot h hs, hnone]
      split <;> rfl
    · rw [unlink_nextRevision]
    · rw [unlink_slot h hs] at hr
      split at hr
      · cases hr
      · obtain ⟨q, hq, rfl⟩ := map_eq_some_iff.1 hr
        rw [hq, Slot.core_without] at hne
        exact absurd rfl hne
    have hj := ne_of_leaf hs hleaf hr hinner
    refine ⟨r.without id, ?_, ?_⟩
    · rw [unlink_slot h hs, if_neg hj, hr]
      rfl
    · rw [isPane_of_core (Slot.core_without id r), isPane_of_inner hinner]

end Tree

end Sqware.Operator
