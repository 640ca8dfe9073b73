import Sqware.Operator.Edit

/-!
# Removing a grant's nodes

The clean-up after a grant removes its tiles and then its panes, from the last number down.  Below a
pane are only larger numbers, so a pane is empty when its turn comes exactly if all in it was the
grant's own or had been removed before.
-/

namespace Sqware.Operator

open List Node

def Node.prune (D : EntryId → Bool) : Node → Node
  | pane l => pane (l.filter fun x => !D x)
  | tile pie permit owner => tile pie permit owner

/-- A slot whose children are without the removed ones. -/
def Slot.prune (D : EntryId → Bool) (s : Slot) : Slot := { s with node := s.node.prune D }

theorem Node.isPane_prune (D : EntryId → Bool) (n : Node) : (n.prune D).isPane = n.isPane := by
  cases n <;> rfl

namespace Tree

variable {t t' : Tree} {D : EntryId → Bool} {k : Kernel}

/-- The tree without some nodes; everything else is as it was. -/
structure Cut (D : EntryId → Bool) (t t' : Tree) : Prop where
  inv : t'.Inv
  length : t'.slots.length = t.slots.length
  slot : ∀ id, t'.slot id = if D id then none else (t.slot id).map (Slot.prune D)

theorem Slot.prune_false (s : Slot) : s.prune (fun _ => false) = s := by
  obtain ⟨name, node, revision, authority, view, resourceId⟩ := s
  cases node <;> simp [Slot.prune, Node.prune]

theorem cut_refl (h : t.Inv) : Cut (fun _ => false) t t := by
  refine ⟨h, rfl, fun id => ?_⟩
  cases hs : t.slot id with
  | none => rfl
  | some s => simp [Slot.prune_false]

theorem Cut.congr {D' : EntryId → Bool} (h : Cut D t t') (hD : ∀ x, D x = D' x) : Cut D' t t' := by
  rwa [← funext hD]

variable {id : EntryId}

theorem Cut.some (h : Cut D t t') {s : Slot} (hs : t.slot id = some s)
    (hd : D id = false) : t'.slot id = some (s.prune D) := by
  rw [h.slot, hd, hs]
  rfl

theorem erase_filter {l : List EntryId} (hn : (l.filter fun x => !D x).Nodup) :
    (l.filter fun x => !D x).erase id = l.filter fun x => !(D x || x = id) := by
  rw [hn.erase_eq_filter, filter_filter]
  congr 1
  funext x
  by_cases hx : x = id <;> simp [hx]

theorem cut_unlink (h : Cut D t t') {s : Slot} (hs : t'.slot id = some s)
    (hleaf : s.node.inner = []) : Cut (fun x => D x || x = id) t (t'.unlink id) := by
  refine ⟨edit_inv h.inv (.remove hs hleaf), ?_, fun j => ?_⟩
  · rw [unlink_length h.inv hs, h.length]
  rw [unlink_slot h.inv hs]
  by_cases hj : j = id
  · simp [hj]
  rw [if_neg hj]
  cases hD : D j with
  | true =>
    rw [h.slot, hD]
    rfl
  | false =>
    simp only [hj, decide_false, Bool.or_self, Bool.false_eq_true, if_false]
    cases hr : t.slot j with
    | none =>
      rw [h.slot, hr, hD]
      rfl
    | some r =>
      have hnow := h.some hr hD
      rw [hnow]
      have hn := h.inv.nodup (.node j)
      rw [children_node hnow] at hn
      obtain ⟨name, node, revision, authority, view, resourceId⟩ := r
      cases node with
      | tile => rfl
      | pane l =>
        simp only [Option.map_some, Slot.prune, Slot.without, Node.prune, without,
          erase_filter hn]

/-- Is the node a tile? -/
def isTile (t : Tree) (id : EntryId) : Bool := (t.slot id).any fun s => !s.node.isPane

/-- Did the grant make the node? -/
def owned (t : Tree) (key : GrantKey) (id : EntryId) : Bool :=
  (t.slot id).any fun s => s.authority = some key

theorem trim_tile (hk : ∀ id, k.drops id = true) {s : Slot} (hs : t.slot id = some s)
    (hp : s.node.isPane = false) : ∃ c, t.trim k id = (.ok c, t.unlink id) := by
  unfold trim
  rw [hs]
  dsimp only
  cases hn : s.node with
  | pane l =>
    rw [hn] at hp
    cases hp
  | tile => exact ⟨_, if_pos (hk id)⟩

/-- What `sweep` asks of a node, in terms of the tree before. -/
theorem cut_met (h : Cut D t t') (key : GrantKey) (panes : Bool) (id : EntryId) :
    ((t'.slot id).any fun s => s.authority = some key ∧ s.node.isPane = panes) = true ↔
      D id = false ∧ t.owned key id = true ∧ t.isTile id = !panes := by
  unfold owned isTile
  rw [h.slot]
  cases D id with
  | true => simp
  | false => cases t.slot id <;> simp [Slot.prune, isPane_prune]

theorem sweep_tiles (hk : ∀ id, k.drops id = true) (key : GrantKey) (ids : List EntryId)
    (h : Cut D t t') :
    ∃ t'', sweep k key false t' ids = (.ok (), t'') ∧
      Cut (fun x => D x || (decide (x ∈ ids) && t.owned key x && t.isTile x)) t t'' := by
  induction ids generalizing D t' with
  | nil => exact ⟨t', rfl, h.congr fun x => by simp⟩
  | cons id ids ih =>
    unfold sweep
    by_cases hd : D id = false ∧ t.owned key id = true ∧ t.isTile id = true
    · obtain ⟨hD, howned, htile⟩ := hd
      obtain ⟨s, hs, hauth⟩ := (Option.any_eq_true _ _).1 howned
      have hpane : s.node.isPane = false := by
        unfold isTile at htile
        rw [hs] at htile
        simpa using htile
      have hnow := h.some hs hD
      rw [if_pos ((cut_met h key false id).2 ⟨hD, howned, htile⟩)]
      obtain ⟨c, hc⟩ := trim_tile (t := t') hk hnow (by rw [← hpane]; exact isPane_prune D s.node)
      rw [hc]
      have hleaf : (s.prune D).node.inner = [] := by
        cases hn : s.node with
        | pane l =>
          rw [hn] at hpane
          cases hpane
        | tile => simp [Slot.prune, hn, Node.prune, Node.inner]
      obtain ⟨t'', ht'', hcut⟩ := ih (cut_unlink h hnow hleaf)
      refine ⟨t'', ht'', hcut.congr fun x => ?_⟩
      by_cases hx : x = id
      · subst hx
        simp [howned, htile]
      · simp [hx]
    · rw [if_neg (mt (cut_met h key false id).1 hd)]
      obtain ⟨t'', ht'', hcut⟩ := ih h
      refine ⟨t'', ht'', hcut.congr fun x => ?_⟩
      by_cases hx : x = id
      · subst hx
        revert hd
        cases D x <;> cases t.owned key x <;> cases t.isTile x <;> simp
      · simp [hx]

/-- In the panes of a grant there is only what is the grant's own or removed. -/
def Nested (t : Tree) (D : EntryId → Bool) (key : GrantKey) (n : Nat) : Prop :=
  ∀ p < n, ∀ s, t.slot p = some s → s.authority = some key → D p = false →
    ∀ x ∈ s.node.inner, D x = true ∨ t.owned key x = true

/-- Removed when the panes of a grant from a number on are. -/
def swept (t : Tree) (D : EntryId → Bool) (key : GrantKey) (n : Nat) (x : EntryId) : Bool :=
  D x || (t.owned key x && (t.isTile x || decide (n ≤ x)))

theorem nested_succ {key : GrantKey} {n : Nat} :
    t.Nested D key (n + 1) ↔ t.Nested D key n ∧ ∀ s, t.slot n = some s → s.authority = some key →
      D n = false → ∀ x ∈ s.node.inner, D x = true ∨ t.owned key x = true := by
  constructor
  · exact fun h => ⟨fun p hp => h p (Nat.lt_succ_of_lt hp), h n (Nat.lt_succ_self n)⟩
  rintro ⟨h, hn⟩ p hp
  rcases Nat.lt_succ_iff_lt_or_eq.1 hp with hlt | rfl
  · exact h p hlt
  · exact hn

theorem decide_succ_le {n x : Nat} (h : x ≠ n) : decide (n + 1 ≤ x) = decide (n ≤ x) := by
  rw [decide_eq_decide]
  omega

theorem sweep_panes (hi : t.Inv) (key : GrantKey) (n : Nat)
    (h : Cut (t.swept D key n) t t') :
    ((sweep k key true t' (List.range n).reverse).1 = .ok () ↔ t.Nested D key n) ∧
    ((sweep k key true t' (List.range n).reverse).1 = .ok () →
      Cut (fun x => D x || t.owned key x) t (sweep k key true t' (List.range n).reverse).2) := by
  induction n generalizing t' with
  | zero =>
    refine ⟨⟨fun _ p hp => absurd hp (Nat.not_lt_zero p), fun _ => rfl⟩, fun _ => ?_⟩
    exact h.congr fun x => by simp [swept]
  | succ n ih =>
    rw [range_succ, reverse_append, reverse_singleton, singleton_append,
      nested_succ]
    by_cases hd : t.swept D key (n + 1) n = false ∧ t.owned key n = true ∧ t.isTile n = false
    · have hcond := (cut_met h key true n).2 hd
      obtain ⟨hgone, howned, htile⟩ := hd
      have hD : D n = false := (Bool.or_eq_false_iff.1 hgone).1
      obtain ⟨s, hs, hauth⟩ := (Option.any_eq_true _ _).1 howned
      have hauth : s.authority = some key := by simpa using hauth
      have hpane : s.node.isPane = true := by
        unfold isTile at htile
        rw [hs] at htile
        simpa using htile
      have hnow := h.some hs hgone
      -- what is in the pane has a larger number
      have hinner : ∀ x ∈ s.node.inner, (t.swept D key (n + 1) x = true ↔
          D x = true ∨ t.owned key x = true) := by
        intro x hx
        have hlt : n + 1 ≤ x := hi.order (by rw [children_node hs]; exact hx)
        simp [swept, hlt]
      obtain ⟨l, hl⟩ : ∃ l, s.node = .pane l := by
        cases hn : s.node with
        | pane l => exact ⟨l, rfl⟩
        | tile =>
          rw [hn] at hpane
          cases hpane
      have hin : s.node.inner = l := by rw [hl]; rfl
      have hnode : (s.prune (t.swept D key (n + 1))).node =
          .pane (l.filter fun x => !t.swept D key (n + 1) x) := by
        simp [Slot.prune, hl, Node.prune]
      unfold sweep
      rw [if_pos hcond]
      cases hf : l.filter fun x => !t.swept D key (n + 1) x with
      | nil =>
        rw [hf] at hnode
        have htrim : ∃ c, t'.trim k n = (.ok c, t'.unlink n) := by
          unfold trim
          rw [hnow]
          dsimp only
          rw [hnode]
          exact ⟨_, rfl⟩
        obtain ⟨c, hc⟩ := htrim
        rw [hc]
        have hcut : Cut (t.swept D key n) t (t'.unlink n) := by
          refine (cut_unlink h hnow (by rw [hnode]; rfl)).congr fun x => ?_
          by_cases hx : x = n
          · subst hx
            simp [swept, howned]
          · unfold swept
            rw [decide_succ_le hx]
            simp [hx]
        obtain ⟨hiff, hres⟩ := ih hcut
        refine ⟨hiff.trans ⟨fun hn => ⟨hn, fun r hr _ _ x hx => ?_⟩, fun hn => hn.1⟩, hres⟩
        cases hs.symm.trans hr
        refine (hinner x hx).1 ?_
        rw [hin] at hx
        by_contra hne
        have : x ∈ l.filter fun x => !t.swept D key (n + 1) x :=
          mem_filter.2 ⟨hx, by simpa using hne⟩
        rw [hf] at this
        cases this
      | cons x rest =>
        rw [hf] at hnode
        have htrim : t'.trim k n = (.error .nonEmpty, t') := by
          unfold trim
          rw [hnow]
          dsimp only
          rw [hnode]
        rw [htrim]
        refine ⟨⟨(fun he => nomatch he), fun hn => ?_⟩, fun he => nomatch he⟩
        have hx : x ∈ l.filter fun x => !t.swept D key (n + 1) x := by
          rw [hf]
          exact mem_cons_self
        obtain ⟨hxl, hxs⟩ := mem_filter.1 hx
        have hx' : x ∈ s.node.inner := by rw [hin]; exact hxl
        have := (hinner x hx').2 (hn.2 s hs hauth hD x hx')
        rw [this] at hxs
        cases hxs
    · have hsame : ∀ x, t.swept D key (n + 1) x = t.swept D key n x := by
        intro x
        by_cases hx : x = n
        · subst hx
          revert hd
          unfold swept
          cases D x <;> cases t.owned key x <;> cases t.isTile x <;> simp
        · unfold swept
          rw [decide_succ_le hx]
      unfold sweep
      rw [if_neg (mt (cut_met h key true n).1 hd)]
      obtain ⟨hiff, hres⟩ := ih (h.congr hsame)
      refine ⟨hiff.trans ⟨fun hn => ⟨hn, fun s hs hauth hD x hx => ?_⟩, fun hn => hn.1⟩, hres⟩
      -- a node of the grant that is not a tile would have been swept
      have howned : t.owned key n = true := by
        unfold owned
        rw [hs]
        simpa using hauth
      have htile : t.isTile n = true := by
        cases htile : t.isTile n with
        | true => rfl
        | false => exact absurd ⟨by simp [swept, hD, htile], howned, htile⟩ hd
      unfold isTile at htile
      rw [hs] at htile
      cases hn : s.node with
      | pane l => simp [hn, isPane] at htile
      | tile =>
        rw [hn] at hx
        cases hx

theorem cleanup_spec (hi : t.Inv) (hk : ∀ id, k.drops id = true) (key : GrantKey)
    (h : Cut D t t') :
    ((t'.cleanupAuthority k key).1 = .ok () ↔ t.Nested D key t.slots.length) ∧
    ((t'.cleanupAuthority k key).1 = .ok () →
      Cut (fun x => D x || t.owned key x) t (t'.cleanupAuthority k key).2) := by
  obtain ⟨t1, ht1, hcut⟩ := sweep_tiles hk key (List.range t'.slots.length).reverse h
  have hlen : t1.slots.length = t.slots.length := hcut.length
  have hcut : Cut (t.swept D key t.slots.length) t t1 := by
    refine hcut.congr fun x => ?_
    cases ho : t.owned key x with
    | false => simp [swept, ho]
    | true =>
      obtain ⟨s, hs, -⟩ := (Option.any_eq_true _ _).1 ho
      have hlt := slot_lt hs
      have hnot : ¬ t.slots.length ≤ x := Nat.not_le.2 hlt
      simp [swept, ho, h.length, hlt, hnot]
  unfold cleanupAuthority
  rw [ht1]
  dsimp only
  rw [hlen]
  exact sweep_panes hi key t.slots.length hcut

end Tree

end Sqware.Operator
